import SmtpMta.Common.Maildir
import SmtpMta.Server.Commands
import SmtpMta.Server.SessionInvariant

/-! The recipients that are accepted, and the directories that `maildir.c` makes
for them. -/
namespace SmtpMta.Server.Mailboxes
open Library.CString Library.Regex Common.Maildir Common.StringUtils Smtp ReadLoop Lines Protocol
  Commands SessionInvariant

/-- `iscntrl` in the C locale. -/
def iscntrl (c : Byte) : Bool := c < 32 ∨ c = 127

/-- An address that is safe as the name of a directory. -/
structure SafeMailbox (text : Bytes) : Prop where
  ne_nil : text ≠ []
  oneAt : ∃ left right, text = left ++ 64 :: right ∧ left ≠ [] ∧ right ≠ [] ∧ 64 ∉ left ∧ 64 ∉ right
  slash : slash ∉ text
  printable : ∀ b ∈ text, isspace b = false ∧ iscntrl b = false
  dots : ¬ascii ".." <:+: text
  head : text.head? ≠ some 46
  last : text.getLast? ≠ some 46

section Grammar
variable {text : Bytes}

theorem domain_separated (h : text ∈ regexDomain.matches') : Separated 46 text := by
  refine separated_of_matches (fun atom hatom => ?_) h
  obtain ⟨hne, hchars⟩ := mem_plus_oneOf hatom
  exact ⟨hne, fun hmem => absurd (hchars 46 hmem) (by decide)⟩

theorem domain_no_at (h : text ∈ regexDomain.matches') : (64 : Byte) ∉ text := by
  intro hmem
  have halphabet := mem_alphabet h 64 hmem
  simp only [regexDomain, regexAtom, plus, mem_alphabet_mul, mem_alphabet_star, mem_alphabet_char,
    mem_alphabet_oneOf] at halphabet
  revert halphabet
  decide

theorem safe_of_regexMail (h : regexMail.rmatch text = true) : SafeMailbox text := by
  have hother {b : Byte} (hb : b ∉ atomChars ++ ascii ".@") : b ∉ text :=
    notMem_of_regexMail h hb
  have hwords := (RegularExpression.rmatch_iff_matches' ..).mp h
  rw [regexMail, RegularExpression.matches'_mul] at hwords
  obtain ⟨front, hfront, right, hright, rfl⟩ := Language.mem_mul.mp hwords
  rw [RegularExpression.matches'_mul] at hfront
  obtain ⟨left, hleft, middle, hmiddle, rfl⟩ := Language.mem_mul.mp hfront
  obtain rfl : middle = [64] := hmiddle
  have hleft' := domain_separated hleft
  have hright' := domain_separated hright
  have hboth : Separated 46 (left ++ [64] ++ right) := by
    simpa using hleft'.append hright' 64
  constructor
  case ne_nil => exact hboth.ne_nil
  case oneAt =>
    exact ⟨left, right, by simp, hleft'.ne_nil, hright'.ne_nil, domain_no_at hleft,
      domain_no_at hright⟩
  case slash => exact hother (by decide)
  case printable =>
    intro b hb
    have hchars : b ∈ atomChars ++ ascii ".@" := by
      by_contra hno
      exact hother hno hb
    have hall : ∀ b ∈ atomChars ++ ascii ".@", isspace b = false ∧ iscntrl b = false := by
      decide +kernel
    exact hall b hchars
  case dots =>
    intro hdots
    have hpair : ascii ".." = [46, 46] := by decide
    rw [hpair] at hdots
    simpa using hboth.inside.infix hdots
  case head => exact hboth.head
  case last => exact hboth.last

end Grammar

theorem SafeMailbox.plainName {text : Bytes} (h : SafeMailbox text) : PlainName text := by
  refine ⟨h.ne_nil, ?_, h.slash, h.head⟩
  intro hmem
  exact absurd (h.printable nul hmem).2 (by decide)

section Recipients
variable {len : Nat} {command : Bytes} {w w' : World} {d : Dialogue} {ret : Int}

theorem rcpt_granted {alloc : Bool} {d' : Dialogue} {reply : Option String} {old : Bytes}
    (hlen : 3 < len) (h : rcpt alloc command d = some (ret, reply, d'))
    (h250 : answered "250" (replied len reply old) = true) :
    ∃ recipient, address rcptPattern command = some recipient ∧
      d'.recipients = insertSecond recipient d.recipients := by
  have hrefused (text : String) (hno : ¬ascii "250" <+: ascii text) (hreply : reply = some text) :
      False := by
    subst hreply
    exact hno ((answered_replied hlen old "250" text (by decide)).mp h250)
  unfold rcpt at h
  split at h
  · cases h
    exact (hrefused _ (by decide) rfl).elim
  · rename_i recipient haddress
    split_ifs at h
    · cases h
      exact (hrefused _ (by decide) rfl).elim
    · cases h
      exact ⟨recipient, haddress, rfl⟩

theorem address_matches {p : Pattern Byte} {text : Bytes} (h : address p command = some text) :
    p.group.rmatch text = true := by
  obtain ⟨⟨so, eo⟩, hexec, rfl⟩ := Option.map_eq_some_iff.mp h
  obtain ⟨-, -, -, hgroup, -⟩ := Pattern.matchesAt_of_exec hexec
  rwa [← List.drop_take]

/-- An accepted recipient is stored as a safe name, and what `maildir.c` makes
for it is one directory in the mail directory. -/
theorem accepted_recipient_safe (hlen : 3 < len) (h : Represents w d)
    (hcall : smtpRcpt command len w = some (ret, w')) (h250 : answered "250" w'.reply = true) :
    ∃ recipient old, foreachText w.mem w.session.envelope.recipients = some old ∧
      foreachText w'.mem w'.session.envelope.recipients = some (insertSecond recipient old) ∧
      SafeMailbox recipient ∧ ∀ maildir name,
        DirectChild (cstr maildir) (cstr maildir ++ slash :: recipient) ∧
        ((cstr maildir).length + 2 < pathMax →
          DirectChild (cstr maildir) (mailboxPath maildir recipient)) ∧
        (∀ paths, maildirTmp maildir recipient name = some paths →
          ∀ path ∈ paths, cstr maildir ++ slash :: recipient <+: path) ∧
        ∀ paths, maildirNew maildir recipient name = some paths →
          ∀ path ∈ paths, cstr maildir ++ slash :: recipient <+: path := by
  obtain ⟨bs, rs, ls, hfits⟩ := h
  have hfollows := hfits.owns.rcpt len command
  cases hrcpt : rcpt (!w.mem.oom w.mem.brk) command d with
  | none =>
    rw [hrcpt, hcall] at hfollows
    cases hfollows
  | some result =>
    obtain ⟨ret', reply, d'⟩ := result
    rw [hrcpt, hcall] at hfollows
    obtain ⟨w₁, ms', heq, ⟨bs', rs', ls', -, hfits'⟩, -, -, hreply⟩ := hfollows
    obtain ⟨-, rfl⟩ := Prod.mk.inj (Option.some.inj heq)
    rw [hreply] at h250
    obtain ⟨recipient, haddress, hstored⟩ := rcpt_granted hlen hrcpt h250
    have hsafe : SafeMailbox recipient := safe_of_regexMail (address_matches haddress)
    have hplain := hsafe.plainName
    have hstring : cstr recipient = recipient := cstr_of_nulFree hplain.nulFree
    refine ⟨recipient, d.recipients, hfits.recipients.foreachText hfits.length_le.2.1, ?_, hsafe,
      fun maildir name => ⟨?_, mailboxPath_child hplain, ?_, ?_⟩⟩
    · rw [hfits'.recipients.foreachText hfits'.length_le.2.1, hstored]
    · have hchild : DirectChild (cstr maildir)
          (cstr maildir ++ slash :: recipient.take recipient.length) :=
        directChild_of_plain hplain (List.length_pos_iff.mpr hplain.ne_nil)
      rwa [List.take_length] at hchild
    · intro paths hpaths
      simpa only [hstring] using maildirTmp_inside hpaths
    · intro paths hpaths
      simpa only [hstring] using maildirNew_inside hpaths

theorem accepted_recipient_safe_idle : ∃ ret w' recipient old,
    smtpRcpt (ascii "RCPT TO:<john.doe@post.org>") serverReplyMaxLen
        { idle with session := ⟨none, 0, .mailRcpt, ⟨none, none, some (ascii "a@b")⟩⟩ } =
      some (ret, w') ∧
      foreachText w'.mem w'.session.envelope.recipients = some (insertSecond recipient old) ∧
      SafeMailbox recipient ∧
      DirectChild (cstr (ascii "./mail")) (cstr (ascii "./mail") ++ slash :: recipient) := by
  let w : World := { idle with session := ⟨none, 0, .mailRcpt, ⟨none, none, some (ascii "a@b")⟩⟩ }
  have hrep : Represents w ⟨[], .mailRcpt, some (ascii "a@b"), [], []⟩ := by
    refine ⟨[], [], [], ?_⟩
    constructor <;> simp [w]
  have hcall : ((smtpRcpt (ascii "RCPT TO:<john.doe@post.org>") serverReplyMaxLen w).map
      fun r => answered "250" r.2.reply) = some true := by decide +kernel
  obtain ⟨⟨ret, w'⟩, hcall, h250⟩ := Option.map_eq_some_iff.mp hcall
  obtain ⟨recipient, old, -, hstored, hsafe, hpaths⟩ :=
    accepted_recipient_safe (by decide) hrep hcall h250
  exact ⟨ret, w', recipient, old, hcall, hstored, hsafe, (hpaths (ascii "./mail") []).1⟩

end Recipients

end SmtpMta.Server.Mailboxes
