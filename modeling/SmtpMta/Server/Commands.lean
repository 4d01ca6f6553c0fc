import SmtpMta.Server.Protocol

/-! The answers to the commands of a well-behaved client. -/
namespace SmtpMta.Server.Commands
open Library.CString Library.Regex Common.StringUtils Smtp Lines Protocol

section Addresses
variable {text : Bytes}

theorem mem_alphabet_regexMail {b : Byte} (h : b ∈ alphabet regexMail) :
    b ∈ atomChars ++ ascii ".@" := by
  have hdot : ascii ".@" = [46, 64] := by decide
  simp only [regexMail, regexDomain, regexAtom, plus, mem_alphabet_mul, mem_alphabet_star,
    mem_alphabet_char, mem_alphabet_oneOf] at h
  rw [hdot]
  simp only [List.mem_append, List.mem_cons]
  tauto

theorem notMem_of_regexMail (h : regexMail.rmatch text = true) {b : Byte}
    (hb : b ∉ atomChars ++ ascii ".@") : b ∉ text := by
  rw [RegularExpression.rmatch_iff_matches'] at h
  exact fun hmem => hb (mem_alphabet_regexMail (mem_alphabet h b hmem))

theorem nulFree_of_regexMail (h : regexMail.rmatch text = true) : NulFree text :=
  notMem_of_regexMail h (by decide)

theorem bracket_notMem : (62 : Byte) ∉ alphabet regexMail :=
  fun h => absurd (mem_alphabet_regexMail h) (by decide)

theorem address_delimited {verb : String} {after : RegularExpression Byte}
    (hverb : (anyCase verb).rmatch (ascii verb) = true) (hfree : NulFree (ascii verb))
    (hafter : ∀ word ∈ after.matches', word.head? = some 62) (hlast : [62] ∈ after.matches')
    (h : regexMail.rmatch text = true) :
    address ⟨anyCase verb, regexMail, after⟩ (ascii verb ++ text ++ ascii ">") = some text := by
  have hcommand : NulFree (ascii verb ++ text ++ ascii ">") :=
    nulFree_append.mpr ⟨nulFree_append.mpr ⟨hfree, nulFree_of_regexMail h⟩, by decide⟩
  rw [RegularExpression.rmatch_iff_matches'] at hverb h
  have hexec : (⟨anyCase verb, regexMail, after⟩ : Pattern Byte).exec
      (ascii verb ++ text ++ ascii ">") =
        some ((ascii verb).length, (ascii verb).length + text.length) :=
    Pattern.exec_delimited hverb h hlast hafter bracket_notMem
  rw [address, cstr_of_nulFree hcommand, hexec, Option.map_some, Nat.add_sub_cancel_left,
    List.append_assoc, List.drop_left, List.take_left]

theorem address_mail (h : regexMail.rmatch text = true) :
    address mailPattern (ascii "MAIL FROM:<" ++ text ++ ascii ">") = some text := by
  refine address_delimited (by decide) (by decide) (fun word hword => ?_) ?_ h
  · rw [RegularExpression.matches'_mul] at hword
    obtain ⟨left, hleft, right, -, rfl⟩ := Language.mem_mul.mp hword
    obtain rfl : left = [62] := hleft
    rfl
  · rw [← RegularExpression.rmatch_iff_matches']
    decide

theorem address_rcpt (h : regexMail.rmatch text = true) :
    address rcptPattern (ascii "RCPT TO:<" ++ text ++ ascii ">") = some text := by
  refine address_delimited (by decide) (by decide) (fun word hword => ?_) rfl h
  obtain rfl : word = [62] := hword
  rfl

end Addresses

section Answers
variable {d : Dialogue} {text : Bytes}

theorem strtrim_bracketed {verb : String} (hfree : NulFree (ascii verb))
    (hhead : (ascii verb).head?.any isspace = false) (hne : ascii verb ≠ [])
    (h : regexMail.rmatch text = true) :
    strtrim (ascii verb ++ text ++ ascii ">") = ascii verb ++ text ++ ascii ">" := by
  refine strtrim_eq_self ?_ ⟨fun b hb => ?_, fun b hb => ?_⟩
  · exact nulFree_append.mpr ⟨nulFree_append.mpr ⟨hfree, nulFree_of_regexMail h⟩, by decide⟩
  · rw [List.append_assoc, List.head?_append_of_ne_nil _ hne] at hb
    simpa [hb] using hhead
  · obtain rfl : (62 : Byte) = b := by simpa [show ascii ">" = [62] by decide] using hb
    decide

theorem answer_ehlo (hstate : d.state ≠ .mailData)
    (htrim : strtrim (ascii "EHLO " ++ text) = ascii "EHLO " ++ text) :
    answer true (ascii "EHLO " ++ text) d = some (0, some "250\r\n", fresh .established) := by
  have hverb : verbOf (ascii "EHLO " ++ text) = .ehlo := rfl
  simp only [answer, hstate, if_false, htrim, hverb]

theorem answer_mail (hstate : d.state = .established) (h : regexMail.rmatch text = true) :
    answer true (ascii "MAIL FROM:<" ++ text ++ ascii ">") d = some (0, some "250 OK\r\n",
      { d with held := [], state := .mailRcpt, sender := some text }) := by
  have hverb : verbOf (ascii "MAIL FROM:<" ++ text ++ ascii ">") = .mail := rfl
  have htrim := @strtrim_bracketed text "MAIL FROM:<" (by decide) (by decide) (by decide) h
  simp only [answer, reduceCtorEq, if_false, htrim, hverb, mail, address_mail h, hstate, ne_eq,
    not_true_eq_false, if_true]

theorem answer_rcpt (hstate : d.state = .mailRcpt) (h : regexMail.rmatch text = true) :
    answer true (ascii "RCPT TO:<" ++ text ++ ascii ">") d = some (0, some "250\r\n",
      { d with held := [], recipients := insertSecond text d.recipients }) := by
  have hverb : verbOf (ascii "RCPT TO:<" ++ text ++ ascii ">") = .rcpt := rfl
  have htrim := @strtrim_bracketed text "RCPT TO:<" (by decide) (by decide) (by decide) h
  simp only [answer, reduceCtorEq, if_false, htrim, hverb, rcpt, address_rcpt h, hstate, ne_eq,
    not_true_eq_false, if_true]

theorem answer_data (hstate : d.state = .mailRcpt) :
    answer true (ascii "DATA") d =
      some (0, some "354\r\n", { d with held := [], state := .mailData }) := by
  have htrim : strtrim (ascii "DATA") = ascii "DATA" := by decide
  have hverb : verbOf (ascii "DATA") = .data := rfl
  have hmatch : (anyCase "DATA").rmatch (cstr (ascii "DATA")) = true := by decide
  simp only [answer, reduceCtorEq, if_false, htrim, hverb, data, hmatch, hstate, ne_eq,
    not_true_eq_false]

theorem answer_quit (hstate : d.state ≠ .mailData) :
    answer true (ascii "QUIT") d = some (-1, some "221 OK\r\n", fresh .initial) := by
  have htrim : strtrim (ascii "QUIT") = ascii "QUIT" := by decide
  have hverb : verbOf (ascii "QUIT") = .quit := rfl
  have hmatch : (anyCase "QUIT").rmatch (cstr (ascii "QUIT")) = true := by decide
  simp only [answer, hstate, if_false, htrim, hverb, quit, hmatch, not_true_eq_false]

theorem answer_line (hstate : d.state = .mailData) (h : cstr text ≠ ascii ".") :
    answer true text d =
      some (0, none, { d with held := [], lines := insertSecond (cstr text) d.lines }) := by
  simp [answer, readData, hstate, h]

theorem answer_dot (hstate : d.state = .mailData) :
    answer true (ascii ".") d = some (0, some "250 OK\r\n", fresh .established) := by
  have hdot : cstr (ascii ".") = ascii "." := by decide
  simp [answer, readData, hstate, hdot]

end Answers

end SmtpMta.Server.Commands
