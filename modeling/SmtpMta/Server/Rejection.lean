import SmtpMta.Server.SessionInvariant

/-! What a command leaves as it was when it is answered with an error. -/
namespace SmtpMta.Server.Rejection
open Library.CString Library.Trace Common.ListHead Common.StringUtils Smtp ReadLoop Lines Protocol
  SessionInvariant

/-- State and envelope are as before, with the texts of the lines. -/
structure Untouched (w w' : World) : Prop where
  state : w'.session.state = w.session.state
  envelope : w'.session.envelope = w.session.envelope
  recipients : foreachText w'.mem w'.session.envelope.recipients =
    foreachText w.mem w.session.envelope.recipients
  data : foreachText w'.mem w'.session.envelope.data =
    foreachText w.mem w.session.envelope.data

def refusals : List String :=
  ["500\r\n", "503\r\n", "502 Not implemented\r\n", "500 Unknown command\r\n"]

def grants : List String :=
  ["250\r\n", "250 OK\r\n", "354\r\n"]

/-- A line that starts like QUIT and is not QUIT. -/
def MalformedQuit (command : Bytes) : Prop :=
  verbOf (strtrim command) = .quit ∧ ¬(anyCase "QUIT").rmatch (cstr (strtrim command))

/-- How a handler answers. -/
inductive Reaction (len : Nat) (w : World) : Int → World → Prop where
  | refused (text : String) : text ∈ refusals → Reaction len w 0 (snprintf w len text)
  | granted {w' : World} (text : String) : text ∈ grants →
      w'.reply = replied len (some text) w.reply → Reaction len w 0 w'
  | ended {w' : World} : w'.reply = replied len (some "221 OK\r\n") w.reply →
      Reaction len w (-1) w'

section Handlers
variable {len : Nat} {command : Bytes} {w w' : World} {ret : Int}

theorem smtpEhlo_reaction (h : smtpEhlo command len w = some (ret, w')) :
    Reaction len w ret w' := by
  obtain ⟨w₁, -, h⟩ := Option.bind_eq_some_iff.mp h
  cases h
  exact .granted "250\r\n" (by decide) rfl

theorem smtpMail_reaction (h : smtpMail command len w = some (ret, w')) :
    Reaction len w ret w' := by
  unfold smtpMail at h
  split at h
  · cases h
    exact .refused _ (by decide)
  split at h
  · cases h
    exact .refused _ (by decide)
  · obtain ⟨_, -, h⟩ := Option.bind_eq_some_iff.mp h
    cases h
    exact .granted "250 OK\r\n" (by decide) rfl

theorem smtpRcpt_reaction (h : smtpRcpt command len w = some (ret, w')) :
    Reaction len w ret w' := by
  unfold smtpRcpt at h
  split at h
  · cases h
    exact .refused _ (by decide)
  split at h
  · cases h
    exact .refused _ (by decide)
  · obtain ⟨_, -, h⟩ := Option.bind_eq_some_iff.mp h
    obtain ⟨_, -, h⟩ := Option.bind_eq_some_iff.mp h
    obtain ⟨_, -, h⟩ := Option.bind_eq_some_iff.mp h
    cases h
    exact .granted "250\r\n" (by decide) rfl

theorem smtpData_reaction (h : smtpData command len w = some (ret, w')) :
    Reaction len w ret w' := by
  unfold smtpData at h
  split at h
  · cases h
    exact .refused _ (by decide)
  split at h
  · cases h
    exact .refused _ (by decide)
  · cases h
    exact .granted "354\r\n" (by decide) rfl

theorem smtpReset_reaction (h : smtpReset command len w = some (ret, w')) :
    Reaction len w ret w' := by
  unfold smtpReset at h
  split at h
  · cases h
    exact .refused _ (by decide)
  · obtain ⟨w₁, -, h⟩ := Option.bind_eq_some_iff.mp h
    cases h
    exact .granted "250 OK\r\n" (by decide) rfl

theorem smtpQuit_reaction (h : smtpQuit command len w = some (ret, w')) :
    (¬(anyCase "QUIT").rmatch (cstr command) ∧ ret = -1 ∧ w' = snprintf w len "500\r\n") ∨
      ((anyCase "QUIT").rmatch (cstr command) ∧ Reaction len w ret w') := by
  unfold smtpQuit at h
  split at h
  · rename_i hmatch
    cases h
    exact .inl ⟨hmatch, rfl, rfl⟩
  · rename_i hmatch
    obtain ⟨w₁, -, h⟩ := Option.bind_eq_some_iff.mp h
    cases h
    exact .inr ⟨not_not.mp hmatch, .ended rfl⟩

/-- Every command that is no line of a message is answered by one handler, and
only a malformed QUIT in a way of its own. -/
theorem processCommand_reaction {mailPath : Bytes}
    (h : smtpProcessCommand command len mailPath w = some (ret, w'))
    (hstate : w.session.state ≠ .mailData) :
    ∃ w₁, bufferReset w = some w₁ ∧
      ((MalformedQuit command ∧ ret = -1 ∧ w' = snprintf w₁ len "500\r\n") ∨
        (¬MalformedQuit command ∧ Reaction len w₁ ret w')) := by
  obtain ⟨w₁, hreset, h⟩ := Option.bind_eq_some_iff.mp h
  have hstate₁ : w₁.session.state ≠ .mailData := by
    obtain ⟨mem, -, hw₁⟩ := Option.bind_eq_some_iff.mp hreset
    cases hw₁
    exact hstate
  refine ⟨w₁, hreset, ?_⟩
  simp only [hstate₁, if_false, dispatch_eq] at h
  have hother (hverb : verbOf (strtrim command) ≠ .quit) : ¬MalformedQuit command :=
    fun hquit => hverb hquit.1
  cases hverb : verbOf (strtrim command) with
  | quit =>
    rw [hverb] at h
    rcases smtpQuit_reaction h with ⟨hmatch, hret, hw'⟩ | ⟨hmatch, hreaction⟩
    · exact .inl ⟨⟨hverb, hmatch⟩, hret, hw'⟩
    · exact .inr ⟨fun hquit => hquit.2 hmatch, hreaction⟩
  | ehlo =>
    rw [hverb] at h
    exact .inr ⟨hother (by simp [hverb]), smtpEhlo_reaction h⟩
  | mail =>
    rw [hverb] at h
    exact .inr ⟨hother (by simp [hverb]), smtpMail_reaction h⟩
  | rcpt =>
    rw [hverb] at h
    exact .inr ⟨hother (by simp [hverb]), smtpRcpt_reaction h⟩
  | data =>
    rw [hverb] at h
    exact .inr ⟨hother (by simp [hverb]), smtpData_reaction h⟩
  | rset =>
    rw [hverb] at h
    exact .inr ⟨hother (by simp [hverb]), smtpReset_reaction h⟩
  | vrfy | unknown =>
    rw [hverb] at h
    cases h
    exact .inr ⟨hother (by simp [hverb]), .refused _ (by decide)⟩

end Handlers

section Commands
variable {len : Nat} {mailPath command : Bytes} {w w₁ w' : World} {d : Dialogue} {ret : Int}

theorem bufferReset_untouched (h : Represents w d) (hreset : bufferReset w = some w₁) :
    Untouched w w₁ := by
  obtain ⟨bs, rs, ls, hfits⟩ := h
  obtain ⟨w₁', hreset', hfits', -⟩ := hfits.bufferReset
  obtain rfl := Option.some.inj (hreset.symm.trans hreset')
  have henvelope : w₁.session.envelope = w.session.envelope := by
    obtain ⟨mem, -, hw₁⟩ := Option.bind_eq_some_iff.mp hreset
    cases hw₁
    rfl
  constructor
  case state => exact hfits'.state.trans hfits.state.symm
  case envelope => exact henvelope
  case recipients =>
    rw [hfits'.recipients.foreachText hfits'.length_le.2.1,
      hfits.recipients.foreachText hfits.length_le.2.1]
  case data =>
    rw [hfits'.data.foreachText hfits'.length_le.2.2, hfits.data.foreachText hfits.length_le.2.2]

theorem Untouched.reply (h : Untouched w w₁) (text : String) :
    Untouched w (snprintf w₁ len text) :=
  ⟨h.state, h.envelope, h.recipients, h.data⟩

theorem answered_of_text (hlen : 3 < len) (code : String) (hcode : (ascii code).length ≤ 3)
    {texts : List String} {text : String} (hmem : text ∈ texts) (old : Bytes)
    (hall : ∀ text ∈ texts, ¬ascii code <+: ascii text) :
    answered code (replied len (some text) old) = false := by
  simpa using (answered_replied hlen old code text hcode).not.mpr (hall text hmem)

/-- A command outside a message that is answered with an error leaves the
session as it was, and only 221 ends it, if and only if the command is not a
malformed QUIT. -/
theorem refused_untouched_iff (hlen : 3 < len) (h : Represents w d)
    (hstate : w.session.state ≠ .mailData)
    (hcall : smtpProcessCommand command len mailPath w = some (ret, w')) :
    ((answered "5" w'.reply = true → Untouched w w' ∧ ret = 0) ∧
      (ret < 0 → answered "221" w'.reply = true)) ↔ ¬MalformedQuit command := by
  obtain ⟨w₁, hreset, ⟨hquit, rfl, rfl⟩ | ⟨hquit, hreaction⟩⟩ := processCommand_reaction hcall hstate
  · refine iff_of_false (fun hproperty => ?_) (not_not.mpr hquit)
    have h500 : answered "5" (snprintf w₁ len "500\r\n").reply = true :=
      (answered_replied hlen w₁.reply "5" "500\r\n" (by decide)).mpr (by decide)
    exact absurd (hproperty.1 h500).2 (by decide)
  · refine iff_of_true ?_ hquit
    cases hreaction with
    | refused =>
      exact ⟨fun _ => ⟨(bufferReset_untouched h hreset).reply _, rfl⟩, fun hneg => absurd hneg (by decide)⟩
    | granted text hmem hreply =>
      have hno : answered "5" w'.reply = false := by
        rw [hreply]
        exact answered_of_text hlen "5" (by decide) hmem w₁.reply (by decide)
      exact ⟨fun h5 => by simp [hno] at h5, fun hneg => absurd hneg (by decide)⟩
    | ended hreply =>
      have hno : answered "5" w'.reply = false := by
        rw [hreply]
        exact answered_of_text hlen "5" (by decide) (List.mem_singleton.mpr rfl) w₁.reply (by decide)
      refine ⟨fun h5 => by simp [hno] at h5, fun _ => ?_⟩
      rw [hreply]
      exact (answered_replied hlen w₁.reply "221" "221 OK\r\n" (by decide)).mpr (by decide)

/-- A second MAIL while a message is under way is refused, and nothing of the message is lost. -/
theorem refused_untouched_iff_underway : ∃ w w' : World,
    ((smtpStartSession serverReplyMaxLen idle).bind fun started =>
      (sessionMachine serverReplyMaxLen (ascii "./mail")).exec started.2
        [ascii "EHLO x", ascii "MAIL FROM:<a@b>", ascii "RCPT TO:<c@d>"]).map Prod.snd = some w ∧
      (smtpProcessCommand (ascii "MAIL FROM:<e@f>") serverReplyMaxLen (ascii "./mail") w).map
        Prod.snd = some w' ∧
      answered "5" w'.reply = true ∧ Untouched w w' := by
  obtain ⟨w₁, hstart, hinv, -⟩ := @invariant_start serverReplyMaxLen idle rfl
  have hrun : (((smtpStartSession serverReplyMaxLen idle).bind fun started =>
      (sessionMachine serverReplyMaxLen (ascii "./mail")).exec started.2
        [ascii "EHLO x", ascii "MAIL FROM:<a@b>", ascii "RCPT TO:<c@d>"]).bind fun run =>
      (smtpProcessCommand (ascii "MAIL FROM:<e@f>") serverReplyMaxLen (ascii "./mail") run.2).map
        fun result => decide (run.2.session.state ≠ .mailData ∧
          answered "5" result.2.reply = true)) = some true := by decide +kernel
  obtain ⟨⟨history, w⟩, hexec, hcall⟩ := Option.bind_eq_some_iff.mp hrun
  obtain ⟨⟨ret, w'⟩, hcall, hfacts⟩ := Option.map_eq_some_iff.mp hcall
  obtain ⟨hstate, hrefused⟩ := of_decide_eq_true hfacts
  have hexec' := hexec
  rw [hstart, Option.bind_some] at hexec'
  have hkept := Machine.exec_steps (fun _ _ _ _ _ h hstep => Invariant.step (by decide) h hstep)
    hinv hexec'
  obtain ⟨d, hrep, -⟩ := hkept.1.tracks
  have huntouched := (refused_untouched_iff (by decide) hrep hstate hcall).mpr
    fun hmalformed => absurd hmalformed.1 (by decide)
  exact ⟨w, w', by rw [hexec, Option.map_some], by rw [hcall, Option.map_some], hrefused,
    (huntouched.1 hrefused).1⟩

/-- A malformed QUIT is refused, and the connection is closed all the same. -/
theorem malformed_quit_hangs_up :
    (smtpProcessCommand (ascii "QUIT now") serverReplyMaxLen (ascii "./mail") idle).map
        (fun r => (r.1, answered "5" r.2.reply, answered "221" r.2.reply)) =
      some (-1, true, false) := by
  decide

end Commands

end SmtpMta.Server.Rejection
