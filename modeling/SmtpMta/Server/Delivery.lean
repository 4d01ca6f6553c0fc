import SmtpMta.Server.SessionInvariant

/-! What the server does with a message at its end. -/
namespace SmtpMta.Server.Delivery
open Library.CString Library.Trace Common.ListHead Smtp ReadLoop Protocol SessionInvariant

/-- Each accepted recipient has one new file, with the lines in the order they came. -/
def Delivered (t : Transcript) (mailPath : Bytes) (before after : Maildirs) : Prop :=
  ∀ recipient ∈ t.recipients,
    (after mailPath recipient).Perm (t.lines.flatten :: before mailPath recipient)

theorem delivered_unchanged_iff (t : Transcript) (mailPath : Bytes) (dirs : Maildirs) :
    Delivered t mailPath dirs dirs ↔ t.recipients = [] := by
  rw [List.eq_nil_iff_forall_not_mem]
  refine ⟨fun h recipient hmem => ?_, fun h recipient hmem => absurd hmem (h recipient)⟩
  have hlength := (h recipient hmem).length_eq
  simp at hlength

section Run
variable {len : Nat} {mailPath : Bytes}

theorem ended_without_files (hlen : 3 < len) {oom : Addr → Bool}
    {history : List (Step World Bytes (Int × Bytes))} {w w' : World} {command : Bytes}
    {output : Int × Bytes} (h : Invariant oom history w)
    (hstep : (sessionMachine len mailPath).step w command = some (output, w'))
    (hin : (transcriptOf history).inData = true) (hdot : cstr command = ascii ".") :
    answered "250" output.2 = true ∧ answered "500" output.2 = false ∧ w'.dirs = w.dirs := by
  obtain ⟨ret, text⟩ := output
  obtain ⟨d, d', reply, -, htracks, -, hkept, hreply, hanswer⟩ := h.answer hstep
  have hstate : d.state = .mailData := htracks.inData.mp hin
  dsimp only at hreply hanswer
  rw [hreply]
  have h250 := (answered_replied hlen w.reply "250" "250 OK\r\n" (by decide)).mpr (by decide)
  have h500 := (answered_replied hlen w.reply "500" "250 OK\r\n" (by decide)).not.mpr (by decide)
  cases answer_outcome htracks.held hanswer with
  | ended => exact ⟨h250, by simpa using h500, hkept.dirs⟩
  | stored _ hline => exact absurd hdot hline
  | dropped _ hline => exact absurd hdot hline
  | reset hno => exact absurd hstate hno
  | sender hestablished => simp [hstate] at hestablished
  | recipient hrcpt => simp [hstate] at hrcpt
  | started hrcpt => simp [hstate] at hrcpt
  | refused hno => exact absurd hstate hno

/-- In every run, the answer to the line that ends a message says the truth
about the delivery exactly when no recipient was accepted for the message. -/
theorem end_of_data_answer (hlen : 3 < len) (mailPath : Bytes) {w w₁ last : World}
    (hsession : w.session = newSession) (hstart : smtpStartSession len w = some (0, w₁))
    {commands : List Bytes} {history : List (Step World Bytes (Int × Bytes))}
    (hexec : (sessionMachine len mailPath).exec w₁ commands = some (history, last))
    {done rest : List (Step World Bytes (Int × Bytes))} {st : Step World Bytes (Int × Bytes)}
    (hsplit : history = done ++ st :: rest) (hin : (transcriptOf done).inData = true)
    (hdot : cstr st.input = ascii ".") :
    ((answered "250" st.output.2 = true →
        Delivered (transcriptOf done) mailPath st.before.dirs st.after.dirs) ∧
      (answered "500" st.output.2 = true → st.after.dirs = st.before.dirs)) ↔
      (transcriptOf done).recipients = [] := by
  obtain ⟨w₁', hstart', hinv, -⟩ := invariant_start len hsession
  obtain rfl : w₁ = w₁' := by simpa using hstart.symm.trans hstart'
  obtain ⟨-, hsteps⟩ := Machine.exec_steps
    (fun _ _ _ _ _ h hstep => Invariant.step hlen h hstep) hinv hexec
  obtain ⟨hstep, hbefore, -⟩ := hsteps done st rest hsplit
  obtain ⟨h250, h500, hdirs⟩ := ended_without_files hlen hbefore hstep hin hdot
  simp [h250, h500, hdirs, delivered_unchanged_iff]

theorem end_of_data_answer_idle : ∃ (t : Transcript) (st : Step World Bytes (Int × Bytes)),
    t.recipients = [ascii "c@d"] ∧ st.input = ascii "." ∧
      (((answered "250" st.output.2 = true →
          Delivered t (ascii "./mail") st.before.dirs st.after.dirs) ∧
        (answered "500" st.output.2 = true → st.after.dirs = st.before.dirs)) ↔
        t.recipients = []) := by
  have hstart : smtpStartSession serverReplyMaxLen idle =
    some (0, { idle with reply := ascii "220\r\n" }) := rfl
  have hrun : ((sessionMachine serverReplyMaxLen (ascii "./mail")).exec
      { idle with reply := ascii "220\r\n" } [ascii "EHLO x", ascii "MAIL FROM:<a@b>",
        ascii "RCPT TO:<c@d>", ascii "DATA", ascii "."]).map (fun r =>
          ((transcriptOf (r.1.take 4)).inData, (transcriptOf (r.1.take 4)).recipients,
            (r.1.drop 4).map (·.input))) = some (true, [ascii "c@d"], [ascii "."]) := by decide
  obtain ⟨⟨history, last⟩, hexec, hfacts⟩ := Option.map_eq_some_iff.mp hrun
  simp only [Prod.mk.injEq, List.map_eq_singleton_iff] at hfacts
  obtain ⟨hin, hrecipients, st, hlast, hinput⟩ := hfacts
  have hsplit : history = history.take 4 ++ st :: [] := by rw [← hlast, List.take_append_drop]
  have hdot : cstr st.input = ascii "." := by rw [hinput]; decide
  exact ⟨_, st, hrecipients, hinput,
    end_of_data_answer (by decide) (ascii "./mail") rfl hstart hexec hsplit hin hdot⟩

/-- A message for one recipient is answered 250, and the mailbox stays empty. -/
theorem end_of_data_loses_message :
    ((smtpStartSession serverReplyMaxLen idle).bind fun r =>
      (sessionMachine serverReplyMaxLen (ascii "./mail")).exec r.2
        [ascii "EHLO x", ascii "MAIL FROM:<a@b>", ascii "RCPT TO:<c@d>", ascii "DATA", ascii "hi",
          ascii "."]).map (fun r =>
          ((r.1.map (·.output)).drop 2, r.2.dirs (ascii "./mail") (ascii "c@d"))) =
      some ([(0, ascii "250\r\n"), (0, ascii "354\r\n"), (0, ascii "354\r\n"),
        (0, ascii "250 OK\r\n")], []) := by
  decide

end Run

end SmtpMta.Server.Delivery
