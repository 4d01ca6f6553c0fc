import SmtpMta.Server.SessionInvariant
import Mathlib.Data.List.Palindrome

/-! The order in which `list_foreach` finds the lines of a message. Each new
line goes right behind the first one. -/
namespace SmtpMta.Server.MessageLines
open Library.CString Library.Trace Common.ListHead Smtp ReadLoop Lines Protocol SessionInvariant

/-- The texts after some lines of a message. Each line asks for one address, and
a line that gets none is left out. -/
def storeLines (oom : Addr → Bool) : Addr → List Bytes → List Bytes → List Bytes
  | _, [], texts => texts
  | brk, line :: lines, texts =>
    storeLines oom (brk + 1) lines (if oom brk then texts else insertSecond (cstr line) texts)

section Order
variable {oom : Addr → Bool}

theorem length_insertSecond {α : Type} (x : α) (xs : List α) :
    (insertSecond x xs).length = xs.length + 1 :=
  (insertSecond_perm x xs).length_eq

theorem room_cons {brk : Addr} {lines : List Bytes} (line : Bytes) :
    (∀ i < (line :: lines).length, oom (brk + i) = false) ↔
      oom brk = false ∧ ∀ i < lines.length, oom (brk + 1 + i) = false := by
  have hshift (i : Nat) : brk + (i + 1) = brk + 1 + i := by
    rw [Nat.add_assoc, Nat.add_comm 1 i]
  rw [List.length_cons, Nat.forall_lt_succ_left, Nat.add_zero]
  exact and_congr_right' (forall₂_congr fun i _ => by rw [hshift])

theorem length_storeLines (brk : Addr) (lines texts : List Bytes) :
    (storeLines oom brk lines texts).length ≤ texts.length + lines.length ∧
      ((storeLines oom brk lines texts).length = texts.length + lines.length →
        ∀ i < lines.length, oom (brk + i) = false) := by
  induction lines generalizing brk texts with
  | nil => simp [storeLines]
  | cons line lines ih =>
    obtain ⟨hle, hroom⟩ := ih (brk + 1) (if oom brk then texts else insertSecond (cstr line) texts)
    rw [storeLines, @List.length_cons _ line lines]
    cases hoom : oom brk with
    | true =>
      simp only [hoom, if_true] at hle ⊢
      omega
    | false =>
      simp only [hoom, Bool.false_eq_true, if_false, length_insertSecond] at hle hroom ⊢
      exact ⟨by omega, fun hlength => (room_cons line).mpr ⟨hoom, hroom (by omega)⟩⟩

theorem storeLines_cons {brk : Addr} {lines rest : List Bytes} (head : Bytes)
    (hroom : ∀ i < lines.length, oom (brk + i) = false) :
    storeLines oom brk lines (head :: rest) = head :: ((lines.map cstr).reverse ++ rest) := by
  induction lines generalizing brk rest with
  | nil => simp [storeLines]
  | cons line lines ih =>
    obtain ⟨hhead, htail⟩ := (room_cons line).mp hroom
    rw [storeLines, hhead]
    simp [insertSecond, ih htail]

theorem storeLines_eq {brk : Addr} {lines : List Bytes}
    (hroom : ∀ i < lines.length, oom (brk + i) = false) :
    storeLines oom brk lines [] =
      (lines.map cstr).take 1 ++ (lines.map cstr).tail.reverse := by
  cases lines with
  | nil => rfl
  | cons line lines =>
    obtain ⟨hhead, htail⟩ := (room_cons line).mp hroom
    rw [storeLines, hhead]
    simp [insertSecond, storeLines_cons _ htail]

theorem storeLines_eq_iff (brk : Addr) (lines : List Bytes) :
    storeLines oom brk lines [] = lines.map cstr ↔
      (∀ i < lines.length, oom (brk + i) = false) ∧ (lines.map cstr).tail.Palindrome := by
  rw [List.Palindrome.iff_reverse_eq]
  constructor
  · intro h
    have hroom : ∀ i < lines.length, oom (brk + i) = false := by
      refine (length_storeLines brk lines []).2 ?_
      rw [h, List.length_map, List.length_nil, Nat.zero_add]
    refine ⟨hroom, ?_⟩
    rw [storeLines_eq hroom] at h
    cases lines with
    | nil => rfl
    | cons line lines => simpa using h
  · rintro ⟨hroom, hpalindrome⟩
    rw [storeLines_eq hroom, hpalindrome]
    cases lines <;> rfl

end Order

section Run
variable {len : Nat} {mailPath : Bytes}

theorem step_line {w : World} {d : Dialogue} {ms : List Addr} (h : Owns w d ms)
    (hheld : d.held = []) (hstate : d.state = .mailData) {line : Bytes}
    (hline : cstr line ≠ ascii ".") :
    ∃ output w' ms', (sessionMachine len mailPath).step w line = some (output, w') ∧
      (sessionMachine len mailPath).stop output = false ∧
      Owns w' { d with lines := if w.mem.oom w.mem.brk then d.lines
                                else insertSecond (cstr line) d.lines } ms' ∧
      w'.mem.oom = w.mem.oom ∧ w'.mem.brk = w.mem.brk + 1 := by
  have hfollows := h.processCommand line len mailPath
  have hallocations : allocations line d = 1 := by simp [allocations, hstate, hline]
  have hanswer : ∃ reply, answer (!w.mem.oom w.mem.brk) line d =
      some (0, reply, { d with lines := if w.mem.oom w.mem.brk then d.lines
                                        else insertSecond (cstr line) d.lines }) := by
    simp only [answer, hstate, if_true, readData, hline, if_false, hheld]
    cases w.mem.oom w.mem.brk
    · exact ⟨none, rfl⟩
    · exact ⟨some "500\r\n", rfl⟩
  obtain ⟨reply, hanswer⟩ := hanswer
  rw [hallocations, hanswer] at hfollows
  obtain ⟨w', ms', hcall, howns, hkept, hconfined, -⟩ := hfollows
  refine ⟨(0, w'.reply), w', ms', ?_, ?_, howns, hkept.oom, hconfined.brk⟩
  · simp [sessionMachine, hcall]
  · simp [sessionMachine]

theorem exec_lines {w : World} {d : Dialogue} {ms : List Addr} (h : Owns w d ms)
    (hheld : d.held = []) (hstate : d.state = .mailData) {lines : List Bytes}
    (hlines : ∀ line ∈ lines, cstr line ≠ ascii ".") :
    ∃ history last, (sessionMachine len mailPath).exec w lines = some (history, last) ∧
      Represents last { d with lines := storeLines w.mem.oom w.mem.brk lines d.lines } := by
  induction lines generalizing w d ms with
  | nil => exact ⟨[], w, rfl, h.represents⟩
  | cons line lines ih =>
    obtain ⟨hline, hrest⟩ := List.forall_mem_cons.mp hlines
    obtain ⟨output, w', ms', hstep, hgo, howns, hoom, hbrk⟩ := step_line h hheld hstate hline
    obtain ⟨history, last, hexec, hlast⟩ := ih howns hheld hstate hrest
    rw [hoom, hbrk] at hlast
    exact ⟨_, last, Machine.exec_goes hstep hgo hexec, hlast⟩

theorem data_starts_empty {oom : Addr → Bool} {history : List (Step World Bytes (Int × Bytes))}
    {w w' : World} {command : Bytes} {output : Int × Bytes} (h : Invariant oom history w)
    (hstep : (sessionMachine len mailPath).step w command = some (output, w'))
    (hout : w.session.state ≠ .mailData) (hin : w'.session.state = .mailData) :
    ∃ d, Represents w' d ∧ d.held = [] ∧ d.state = .mailData ∧ d.lines = [] := by
  obtain ⟨ret, text⟩ := output
  obtain ⟨d, d', reply, hrep, htracks, hrep', -, -, hanswer⟩ := h.answer hstep
  have hd : d.state ≠ .mailData := by rwa [← hrep.state_eq]
  have hd' : d'.state = .mailData := by rw [← hrep'.state_eq, hin]
  refine ⟨d', hrep', answer_held hanswer, hd', ?_⟩
  cases answer_outcome htracks.held hanswer with
  | ended hstate => exact absurd hstate hd
  | stored hstate => exact absurd hstate hd
  | dropped hstate => exact absurd hstate hd
  | reset _ _ _ hnext => rcases List.mem_pair.mp hnext with rfl | rfl <;> cases hd'
  | sender => cases hd'
  | recipient hstate => exact absurd hd' (by simp [hstate])
  | started hstate => exact htracks.noLines hstate
  | refused => exact absurd hd' hd

/-- Whatever came before the message, `list_foreach` finds its lines in the order
they came if and only if each got memory and the lines after the first read the
same backwards. -/
theorem lines_in_order_iff (hlen : 3 < len) (mailPath : Bytes) {w w₁ w₂ w₃ : World}
    (hsession : w.session = newSession) (hstart : smtpStartSession len w = some (0, w₁))
    {commands : List Bytes} {history : List (Step World Bytes (Int × Bytes))}
    (hexec : (sessionMachine len mailPath).exec w₁ commands = some (history, w₂))
    {command : Bytes} {output : Int × Bytes}
    (hstep : (sessionMachine len mailPath).step w₂ command = some (output, w₃))
    (hout : w₂.session.state ≠ .mailData) (hin : w₃.session.state = .mailData)
    {lines : List Bytes} (hlines : ∀ line ∈ lines, cstr line ≠ ascii ".") :
    ∃ taken last, (sessionMachine len mailPath).exec w₃ lines = some (taken, last) ∧
      last.session.state = .mailData ∧
      (foreachText last.mem last.session.envelope.data = some (lines.map cstr) ↔
        (∀ i < lines.length, w₃.mem.oom (w₃.mem.brk + i) = false) ∧
          (lines.map cstr).tail.Palindrome) := by
  obtain ⟨w₁', hstart', hinv, -⟩ := invariant_start len hsession
  obtain rfl : w₁ = w₁' := by simpa using hstart.symm.trans hstart'
  obtain ⟨hinv₂, -⟩ := Machine.exec_steps
    (fun _ _ _ _ _ h hstep => Invariant.step hlen h hstep) hinv hexec
  obtain ⟨d, ⟨bs, rs, ls, hfits⟩, hheld, hstate, hempty⟩ := data_starts_empty hinv₂ hstep hout hin
  obtain ⟨taken, last, hlast, hrep⟩ := exec_lines hfits.owns hheld hstate hlines
  refine ⟨taken, last, hlast, hrep.state_eq.trans hstate, ?_⟩
  obtain ⟨bs', rs', ls', hfits'⟩ := hrep
  rw [hfits'.data.foreachText hfits'.length_le.2.2, Option.some_inj, hempty]
  exact storeLines_eq_iff w₃.mem.brk lines

theorem lines_in_order_iff_idle : ∃ w₃ taken last,
    (sessionMachine serverReplyMaxLen (ascii "./mail")).exec w₃
        [ascii "hi", [], ascii "all", []] = some (taken, last) ∧
      last.session.state = .mailData ∧
      (foreachText last.mem last.session.envelope.data =
          some ([ascii "hi", [], ascii "all", []].map cstr) ↔
        (∀ i < 4, w₃.mem.oom (w₃.mem.brk + i) = false) ∧
          ([ascii "hi", [], ascii "all", []].map cstr).tail.Palindrome) := by
  have hstart : smtpStartSession serverReplyMaxLen idle =
    some (0, { idle with reply := ascii "220\r\n" }) := rfl
  have hrun : (((sessionMachine serverReplyMaxLen (ascii "./mail")).exec
      { idle with reply := ascii "220\r\n" } [ascii "EHLO x", ascii "MAIL FROM:<a@b>",
        ascii "RCPT TO:<c@d>"]).bind fun r =>
      ((sessionMachine serverReplyMaxLen (ascii "./mail")).step r.2 (ascii "DATA")).map fun s =>
        (r.2.session.state, s.2.session.state)) = some (.mailRcpt, .mailData) := by decide
  obtain ⟨⟨history, w₂⟩, hexec, hdata⟩ := Option.bind_eq_some_iff.mp hrun
  obtain ⟨⟨output, w₃⟩, hstep, hstates⟩ := Option.map_eq_some_iff.mp hdata
  obtain ⟨hout, hin⟩ := Prod.mk.inj hstates
  obtain ⟨taken, last, hlast⟩ := lines_in_order_iff (by decide) (ascii "./mail") rfl hstart hexec hstep
    (by rw [show w₂.session.state = .mailRcpt from hout]; decide) hin
    (show ∀ line ∈ [ascii "hi", [], ascii "all", []], cstr line ≠ ascii "." by decide)
  exact ⟨w₃, taken, last, hlast⟩

/-- The second line of three is found last. -/
theorem lines_out_of_order :
    ((smtpStartSession serverReplyMaxLen idle).bind fun r =>
      (sessionMachine serverReplyMaxLen (ascii "./mail")).exec r.2
        [ascii "EHLO x", ascii "MAIL FROM:<a@b>", ascii "RCPT TO:<c@d>", ascii "DATA", ascii "one",
          ascii "two", ascii "three"]).map (fun r =>
          (r.2.session.state, foreachText r.2.mem r.2.session.envelope.data)) =
      some (.mailData, some [ascii "one", ascii "three", ascii "two"]) := by
  decide

end Run

end SmtpMta.Server.MessageLines
