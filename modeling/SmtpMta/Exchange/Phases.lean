import SmtpMta.Exchange.Transparency
import SmtpMta.Server.Commands
import SmtpMta.Server.Reading

/-! The server's part of an exchange. The client goes through the phases one by
one; in each of them the server hears one request, whatever the cuts, and gives
one answer. -/
namespace SmtpMta.Exchange.Phases
open Library.CString Library.Crlf Client.Fsm Server.Smtp Server.ReadLoop Server.Lines Server.Protocol
  Server.Commands Server.Reading Transparency

/-- The last phase has neither a request nor an answer. -/
inductive Phase where
  | greeting
  | ehlo
  | mail
  | rcpt
  | data
  | text
  | quit
  | ended
deriving DecidableEq

def Phase.next : Phase → Phase
  | .greeting => .ehlo
  | .ehlo => .mail
  | .mail => .rcpt
  | .rcpt => .data
  | .data => .text
  | .text => .quit
  | .quit => .ended
  | .ended => .ended

def Phase.waits : Phase → State
  | .greeting => .init
  | .ehlo => .initialized
  | .mail => .sEhlo
  | .rcpt => .sMf
  | .data => .sRt
  | .text => .sData
  | .quit => .sQuit
  | .ended => .finish

def Phase.reply : Phase → String
  | .greeting => "220\r\n"
  | .ehlo => "250\r\n"
  | .mail => "250 OK\r\n"
  | .rcpt => "250\r\n"
  | .data => "354\r\n"
  | .text => "250 OK\r\n"
  | .quit => "221 OK\r\n"
  | .ended => ""

section Mail
variable (mailFrom mailTo : Bytes)

/-- The request of a phase, if it is one line. -/
def Phase.line : Phase → Option Bytes
  | .ehlo => some (ascii "EHLO " ++ domain)
  | .mail => some (ascii "MAIL FROM:<" ++ mailFrom ++ ascii ">")
  | .rcpt => some (ascii "RCPT TO:<" ++ mailTo ++ ascii ">")
  | .data => some (ascii "DATA")
  | .quit => some (ascii "QUIT")
  | _ => none

def IsRequest (p : Phase) (request : Bytes) : Prop :=
  (∃ line, p.line mailFrom mailTo = some line ∧ request = line ++ crlf) ∨
    (p = .text ∧ ∃ text, NulFree text ∧ ascii "." ∉ crlfLines text ∧
      request = text ++ ascii "\r\n.\r\n")

/-- The session before the request of a phase. -/
def Phase.stage : Phase → SmtpState × Option Bytes × List Bytes
  | .greeting => (.initial, none, [])
  | .ehlo => (.initial, none, [])
  | .mail => (.established, none, [])
  | .rcpt => (.mailRcpt, some mailFrom, [])
  | .data => (.mailRcpt, some mailFrom, [mailTo])
  | .text => (.mailData, some mailFrom, [mailTo])
  | .quit => (.established, none, [])
  | .ended => (.initial, none, [])

def stageOf (d : Dialogue) : SmtpState × Option Bytes × List Bytes :=
  (d.state, d.sender, d.recipients)

def Takes (a : Answered) : Prop :=
  a.before.state = .mailData ∧ a.command = ascii "." ∧ a.reply = ascii "250 OK\r\n"

instance (a : Answered) : Decidable (Takes a) :=
  inferInstanceAs (Decidable (_ ∧ _))

/-- The message has been taken once it has been sent, and not before. -/
def Accounts (p : Phase) (answers : List Answered) : Prop :=
  if p = .quit ∨ p = .ended then
    ∃ a, answers.filter Takes = [a] ∧ a.before.sender = some mailFrom ∧
      a.before.recipients = [mailTo]
  else answers.filter Takes = []

/-- The server has still to hear the end of the request of this phase. Whole
lines of a message may have been read. -/
structure Hears (p : Phase) (s : Served) (coming : Bytes) : Prop where
  opened : s.closed = false
  stage : stageOf s.dialogue = p.stage mailFrom mailTo
  accounts : Accounts mailFrom mailTo p s.answers
  pending : ∃ request done, IsRequest mailFrom mailTo p request ∧
    request = done ++ (s.dialogue.held.flatten ++ coming) ∧
    (done = [] ∨ p = .text ∧ ∃ lines, done = lines ++ crlf)

structure Replied (p : Phase) (s : Served) : Prop where
  closed : s.closed = decide (p = .quit)
  held : s.dialogue.held = []
  stage : stageOf s.dialogue = p.next.stage mailFrom mailTo
  accounts : Accounts mailFrom mailTo p.next s.answers

end Mail

theorem eq_of_append_crlf {left right line : Bytes} (hline : NoCrlf line)
    (h : left ++ crlf ++ right = line ++ crlf) : left = line ∧ right = [] := by
  have hnil := splitCrlf_line hline []
  rw [List.append_nil, ← h, splitCrlf_crlf, Prod.mk.injEq, crlfLines, List.append_assoc] at hnil
  obtain ⟨hlines, htail⟩ := hnil
  have hleft := joinCrlf_splitCrlf left
  have hright := joinCrlf_splitCrlf right
  cases hfirst : (splitCrlf left).1 with
  | nil =>
    rw [hfirst] at hlines hleft
    obtain ⟨rfl, hrest⟩ : (splitCrlf left).2 = line ∧ (splitCrlf right).1 = [] := by
      simpa [splitCrlf] using hlines
    rw [hrest, htail] at hright
    exact ⟨hleft.symm, hright.symm⟩
  | cons first lines =>
    have hlength := congrArg List.length hlines
    simp [hfirst, splitCrlf] at hlength

theorem dot_is_last {text done coming : Bytes} (hdots : ascii "." ∉ crlfLines text)
    (h : text ++ ascii "\r\n.\r\n" = done ++ (ascii "." ++ crlf ++ coming))
    (hdone : done = [] ∨ ∃ lines, done = lines ++ crlf) : coming = [] := by
  have hdot : NoCrlf (ascii ".") := noCrlf_of_cr_notMem (by decide)
  have hsplit : ∃ before, splitCrlf (done ++ (ascii "." ++ crlf ++ coming)) =
      (before ++ ascii "." :: (splitCrlf coming).1, (splitCrlf coming).2) := by
    rcases hdone with rfl | ⟨lines, rfl⟩
    · exact ⟨[], by rw [List.nil_append, splitCrlf_line hdot, List.nil_append]⟩
    · exact ⟨crlfLines lines, by rw [splitCrlf_crlf, splitCrlf_line hdot]⟩
  obtain ⟨before, hbefore⟩ := hsplit
  rw [← h, splitCrlf_payload, Prod.mk.injEq] at hbefore
  obtain ⟨hlines, htail⟩ := hbefore
  have hcoming := joinCrlf_splitCrlf coming
  rcases List.eq_nil_or_concat' (splitCrlf coming).1 with hnil | ⟨init, last, hlast⟩
  · rw [← hcoming, hnil, ← htail, joinCrlf_nil]
  · -- an earlier dot would be a line of the text
    rw [hlast, ← List.cons_append, ← List.append_assoc] at hlines
    obtain ⟨htext, -⟩ := List.append_inj' hlines rfl
    exact absurd (by rw [htext]; simp) hdots

section Steps
variable {mailFrom mailTo : Bytes} {p : Phase} {s : Served} {piece coming : Bytes}

theorem line_clean (hfrom : regexMail.rmatch mailFrom = true) (hto : regexMail.rmatch mailTo = true)
    {line : Bytes} (hline : p.line mailFrom mailTo = some line) : NulFree line ∧ NoCrlf line := by
  have hfree {text : Bytes} (h : regexMail.rmatch text = true) : NulFree text ∧ cr ∉ text :=
    ⟨nulFree_of_regexMail h, notMem_of_regexMail h (by decide)⟩
  have hbracketed (verb : Bytes) (hverb : NulFree verb ∧ cr ∉ verb) {text : Bytes}
      (h : regexMail.rmatch text = true) :
      NulFree (verb ++ text ++ ascii ">") ∧ NoCrlf (verb ++ text ++ ascii ">") := by
    refine ⟨nulFree_append.mpr ⟨nulFree_append.mpr ⟨hverb.1, (hfree h).1⟩, by decide⟩,
      noCrlf_of_cr_notMem fun hmem => ?_⟩
    rcases List.mem_append.mp hmem with hmem | hmem
    · rcases List.mem_append.mp hmem with hmem | hmem
      · exact hverb.2 hmem
      · exact (hfree h).2 hmem
    · exact absurd hmem (by decide)
  cases p with
  | ehlo =>
    obtain rfl := Option.some.inj hline
    exact ⟨by decide, noCrlf_of_cr_notMem (by decide)⟩
  | mail =>
    obtain rfl := Option.some.inj hline
    exact hbracketed _ (by decide) hfrom
  | rcpt =>
    obtain rfl := Option.some.inj hline
    exact hbracketed _ (by decide) hto
  | data =>
    obtain rfl := Option.some.inj hline
    exact ⟨by decide, noCrlf_of_cr_notMem (by decide)⟩
  | quit =>
    obtain rfl := Option.some.inj hline
    exact ⟨by decide, noCrlf_of_cr_notMem (by decide)⟩
  | greeting => cases hline
  | text => cases hline
  | ended => cases hline

theorem IsRequest.nulFree (hfrom : regexMail.rmatch mailFrom = true)
    (hto : regexMail.rmatch mailTo = true) {request : Bytes}
    (h : IsRequest mailFrom mailTo p request) : NulFree request := by
  rcases h with ⟨line, hline, rfl⟩ | ⟨-, text, hfree, -, rfl⟩
  · exact nulFree_append.mpr ⟨(line_clean hfrom hto hline).1, by decide⟩
  · exact nulFree_append.mpr ⟨hfree, by decide⟩

theorem Hears.nulFree (hfrom : regexMail.rmatch mailFrom = true)
    (hto : regexMail.rmatch mailTo = true) (h : Hears mailFrom mailTo p s coming) :
    NulFree coming := by
  obtain ⟨request, done, hrequest, hpending, -⟩ := h.pending
  have hall := hrequest.nulFree hfrom hto
  rw [hpending] at hall
  exact (nulFree_append.mp (nulFree_append.mp hall).2).2

theorem Hears.not_ended (h : Hears mailFrom mailTo p s coming) : p ≠ .ended := by
  rintro rfl
  obtain ⟨request, done, ⟨line, hline, -⟩ | ⟨htext, -⟩, -⟩ := h.pending
  · cases hline
  · cases htext

theorem answer_request (hfrom : regexMail.rmatch mailFrom = true)
    (hto : regexMail.rmatch mailTo = true) {line : Bytes}
    (hline : p.line mailFrom mailTo = some line)
    {d : Dialogue} (hstage : stageOf d = p.stage mailFrom mailTo) :
    ∃ ret d', answer true line d = some (ret, some p.reply, d') ∧
      decide (ret < 0) = decide (p = .quit) ∧ d'.held = [] ∧
      stageOf d' = p.next.stage mailFrom mailTo := by
  obtain ⟨held, state, sender, recipients, lines⟩ := d
  cases p with
  | ehlo =>
    obtain ⟨rfl, rfl, rfl⟩ : state = .initial ∧ sender = none ∧ recipients = [] := by
      simpa [stageOf, Phase.stage] using hstage
    obtain rfl := Option.some.inj hline
    exact ⟨_, _, answer_ehlo (by simp) (by decide), rfl, rfl, rfl⟩
  | mail =>
    obtain ⟨rfl, rfl, rfl⟩ : state = .established ∧ sender = none ∧ recipients = [] := by
      simpa [stageOf, Phase.stage] using hstage
    obtain rfl := Option.some.inj hline
    exact ⟨_, _, answer_mail rfl hfrom, rfl, rfl, rfl⟩
  | rcpt =>
    obtain ⟨rfl, rfl, rfl⟩ : state = .mailRcpt ∧ sender = some mailFrom ∧ recipients = [] := by
      simpa [stageOf, Phase.stage] using hstage
    obtain rfl := Option.some.inj hline
    exact ⟨_, _, answer_rcpt rfl hto, rfl, rfl, rfl⟩
  | data =>
    obtain ⟨rfl, rfl, rfl⟩ :
        state = .mailRcpt ∧ sender = some mailFrom ∧ recipients = [mailTo] := by
      simpa [stageOf, Phase.stage] using hstage
    obtain rfl := Option.some.inj hline
    exact ⟨_, _, answer_data rfl, rfl, rfl, rfl⟩
  | quit =>
    obtain ⟨rfl, rfl, rfl⟩ : state = .established ∧ sender = none ∧ recipients = [] := by
      simpa [stageOf, Phase.stage] using hstage
    obtain rfl := Option.some.inj hline
    exact ⟨_, _, answer_quit (by simp), rfl, rfl, rfl⟩
  | greeting => cases hline
  | text => cases hline
  | ended => cases hline

theorem stage_not_data (hp : p ≠ .text) (hstage : stageOf s.dialogue = p.stage mailFrom mailTo) :
    s.dialogue.state ≠ .mailData := by
  have hstate : s.dialogue.state = (p.stage mailFrom mailTo).1 := congrArg Prod.fst hstage
  rw [hstate]
  cases p <;> simp_all [Phase.stage]

theorem Accounts.append {answers : List Answered} {a : Answered}
    (h : Accounts mailFrom mailTo p answers) (hp : p ≠ .text) (ha : ¬Takes a) :
    Accounts mailFrom mailTo p.next (answers ++ [a]) := by
  have hlate : (p.next = .quit ∨ p.next = .ended) ↔ (p = .quit ∨ p = .ended) := by
    cases p <;> simp_all [Phase.next]
  have hfilter : (answers ++ [a]).filter Takes = answers.filter Takes := by simp [ha]
  simpa only [Accounts, hlate, hfilter] using h

theorem Hears.obey_line (hfrom : regexMail.rmatch mailFrom = true)
    (hto : regexMail.rmatch mailTo = true) (h : Hears mailFrom mailTo p s (piece ++ crlf ++ coming))
    (hp : p ≠ .text) :
    ∃ s', obey s piece = some s' ∧ coming = [] ∧ s'.sent = s.sent ++ ascii p.reply ∧
      Replied mailFrom mailTo p s' := by
  obtain ⟨request, done, hrequest, hpending, hdone⟩ := h.pending
  obtain rfl : done = [] := hdone.resolve_right fun hlines => hp hlines.1
  obtain ⟨line, hline, rfl⟩ := hrequest.resolve_right fun htext => hp htext.1
  obtain ⟨hfree, hno⟩ := line_clean hfrom hto hline
  have hwhole : s.dialogue.held.flatten ++ piece ++ crlf ++ coming = line ++ crlf := by
    rw [hpending]
    simp
  obtain ⟨hcommand, hcoming⟩ := eq_of_append_crlf hno hwhole
  obtain ⟨ret, d', hanswer, hret, hheld, hstage⟩ := answer_request hfrom hto hline h.stage
  have hreply : replied serverReplyMaxLen (some p.reply) s.reply = ascii p.reply := by
    cases p <;> rfl
  refine ⟨⟨d', ascii p.reply, s.answers ++ [⟨s.dialogue, line, ascii p.reply⟩],
    s.sent ++ ascii p.reply, ret < 0⟩, ?_, hcoming, rfl, hret, hheld, hstage, ?_⟩
  · simp only [obey, h.opened, Bool.false_eq_true, if_false, hcommand, hanswer, Option.map_some,
      hreply]
  · exact h.accounts.append hp fun htakes => stage_not_data hp h.stage htakes.1

theorem Hears.obey_text (h : Hears mailFrom mailTo .text s (piece ++ crlf ++ coming))
    (hreply : s.reply = []) :
    ∃ s', obey s piece = some s' ∧
      ((s'.sent = s.sent ∧ s'.reply = [] ∧ Hears mailFrom mailTo .text s' coming) ∨
        (coming = [] ∧ s'.sent = s.sent ++ ascii Phase.text.reply ∧
          Replied mailFrom mailTo .text s')) := by
  obtain ⟨request, done, hrequest, hpending, hdone⟩ := h.pending
  obtain ⟨-, text, hfree, hdots, rfl⟩ := hrequest.resolve_left (by simp [Phase.line])
  have hstate : s.dialogue.state = .mailData := congrArg Prod.fst h.stage
  have hwhole : text ++ ascii "\r\n.\r\n" =
      done ++ (s.dialogue.held.flatten ++ piece ++ crlf ++ coming) := by
    rw [hpending]
    simp
  have hcommand : NulFree (s.dialogue.held.flatten ++ piece) := by
    have hall : NulFree (text ++ ascii "\r\n.\r\n") := nulFree_append.mpr ⟨hfree, by decide⟩
    rw [hwhole] at hall
    exact (nulFree_append.mp (nulFree_append.mp (nulFree_append.mp hall).2).1).1
  by_cases hdot : s.dialogue.held.flatten ++ piece = ascii "."
  · have hcoming : coming = [] := by
      rw [hdot] at hwhole
      exact dot_is_last hdots hwhole (hdone.imp_right And.right)
    have htakes : Takes ⟨s.dialogue, ascii ".", ascii "250 OK\r\n"⟩ := ⟨hstate, rfl, rfl⟩
    have hnone : s.answers.filter Takes = [] := h.accounts
    refine ⟨⟨fresh .established, ascii "250 OK\r\n",
      s.answers ++ [⟨s.dialogue, ascii ".", ascii "250 OK\r\n"⟩], s.sent ++ ascii "250 OK\r\n",
      false⟩, ?_, .inr ⟨hcoming, rfl, rfl, rfl, rfl, ?_⟩⟩
    · simp only [obey, h.opened, Bool.false_eq_true, if_false, hdot, answer_dot hstate,
        Option.map_some]
      rfl
    · refine ⟨⟨s.dialogue, ascii ".", ascii "250 OK\r\n"⟩, by simp [hnone, htakes], ?_, ?_⟩
      · exact congrArg (·.2.1) h.stage
      · exact congrArg (·.2.2) h.stage
  · have hline : cstr (s.dialogue.held.flatten ++ piece) ≠ ascii "." := by
      rwa [cstr_of_nulFree hcommand]
    refine ⟨⟨{ s.dialogue with
        held := [], lines := insertSecond (cstr (s.dialogue.held.flatten ++ piece)) s.dialogue.lines },
      s.reply, s.answers ++ [⟨s.dialogue, s.dialogue.held.flatten ++ piece, s.reply⟩],
      s.sent ++ s.reply, false⟩, ?_, .inl ⟨by rw [hreply, List.append_nil], hreply, rfl, h.stage, ?_,
        ?_⟩⟩
    · simp only [obey, h.opened, Bool.false_eq_true, if_false, answer_line hstate hline,
        Option.map_some]
      rfl
    · have hnone : s.answers.filter Takes = [] := h.accounts
      have hother : ¬Takes ⟨s.dialogue, s.dialogue.held.flatten ++ piece, s.reply⟩ :=
        fun htakes => hdot htakes.2.1
      simp [Accounts, hnone, hother]
    · refine ⟨_, done ++ (s.dialogue.held.flatten ++ piece ++ crlf), hrequest, ?_, .inr ⟨rfl, ?_⟩⟩
      · rw [hwhole]
        simp
      · exact ⟨done ++ (s.dialogue.held.flatten ++ piece), by simp⟩

theorem Hears.take (hfrom : regexMail.rmatch mailFrom = true) (hto : regexMail.rmatch mailTo = true)
    (split : List Bytes × Bytes)
    (h : Hears mailFrom mailTo p s (joinCrlf split.1 split.2 ++ coming)) (hreply : s.reply = []) :
    ∃ s', take split s = some s' ∧
      ((s'.sent = s.sent ∧ Hears mailFrom mailTo p s' coming) ∨
        (coming = [] ∧ s'.sent = s.sent ++ ascii p.reply ∧ Replied mailFrom mailTo p s')) := by
  obtain ⟨pieces, tail⟩ := split
  induction pieces generalizing s with
  | nil =>
    by_cases htail : tail = []
    · exact ⟨s, by simp [Server.Reading.take, hold, htail], .inl ⟨rfl, by simpa [htail] using h⟩⟩
    · refine ⟨{ s with dialogue := { s.dialogue with held := s.dialogue.held ++ [tail] } }, ?_,
        .inl ⟨rfl, h.opened, h.stage, h.accounts, ?_⟩⟩
      · simp [Server.Reading.take, hold, htail, h.opened]
      · obtain ⟨request, done, hrequest, hpending, hdone⟩ := h.pending
        exact ⟨request, done, hrequest, by simpa using hpending, hdone⟩
  | cons piece pieces ih =>
    have hpiece : Hears mailFrom mailTo p s (piece ++ crlf ++ (joinCrlf pieces tail ++ coming)) := by
      simpa using h
    have hstep : ∃ s', obey s piece = some s' ∧
        ((s'.sent = s.sent ∧ s'.reply = [] ∧
            Hears mailFrom mailTo p s' (joinCrlf pieces tail ++ coming)) ∨
          (joinCrlf pieces tail ++ coming = [] ∧ s'.sent = s.sent ++ ascii p.reply ∧
            Replied mailFrom mailTo p s')) := by
      by_cases hp : p = .text
      · subst hp
        exact hpiece.obey_text hreply
      · obtain ⟨s', hobey, hcoming, hsent, hreplied⟩ := hpiece.obey_line hfrom hto hp
        exact ⟨s', hobey, .inr ⟨hcoming, hsent, hreplied⟩⟩
    obtain ⟨s', hobey, hgoes | hends⟩ := hstep
    · obtain ⟨hsent, hreply', hhears⟩ := hgoes
      obtain ⟨s'', htake, hrest⟩ := ih hreply' hhears
      exact ⟨s'', by rw [take_cons, hobey, Option.bind_some, htake], by rwa [hsent] at hrest⟩
    · obtain ⟨hcoming, hsent, hreplied⟩ := hends
      obtain ⟨hjoin, rfl⟩ := List.append_eq_nil_iff.mp hcoming
      -- nothing is left of the read
      have hlines := length_le_joinCrlf pieces tail
      rw [hjoin, List.length_nil, Nat.le_zero, List.length_eq_zero_iff] at hlines
      subst hlines
      obtain rfl : tail = [] := hjoin
      exact ⟨s', by simp [hobey, Server.Reading.take, hold], .inr ⟨rfl, hsent, hreplied⟩⟩

theorem Hears.read (hfrom : regexMail.rmatch mailFrom = true) (hto : regexMail.rmatch mailTo = true)
    {input : Bytes} (h : Hears mailFrom mailTo p s (input ++ coming)) (hfree : NulFree input) :
    ∃ s', readText s (cstr input) = some s' ∧
      ((s'.sent = s.sent ∧ Hears mailFrom mailTo p s' coming) ∨
        (coming = [] ∧ s'.sent = s.sent ++ ascii p.reply ∧ Replied mailFrom mailTo p s')) := by
  have hjoin : joinCrlf (scanCrlf false input).1 (scanCrlf false input).2 = input :=
    joinCrlf_scanCrlf false input
  have hreset : Hears mailFrom mailTo p { s with reply := [] }
      (joinCrlf (scanCrlf false input).1 (scanCrlf false input).2 ++ coming) := by
    rw [hjoin]
    exact ⟨h.opened, h.stage, h.accounts, h.pending⟩
  rw [cstr_of_nulFree hfree, readText, if_neg (by simp [h.opened])]
  exact hreset.take hfrom hto (scanCrlf false input) rfl

end Steps

end SmtpMta.Exchange.Phases
