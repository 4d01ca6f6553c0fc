import Mathlib.Data.Nat.Digits.Defs
import SmtpMta.Client.Transfer

/-! The class of a reply. The array of the code has no room for a terminator,
so that digits which lie behind it are read as digits of the code. -/
namespace SmtpMta.Client.ReplyCodes
open Library.CString ReplyParser Transfer

def decimal (digits : Bytes) : Nat :=
  Nat.ofDigits 10 (digits.reverse.map fun b => b.toNat - 48)

def Positive (code : Nat) : Prop := 200 ≤ code ∧ code < 400

instance (code : Nat) : Decidable (Positive code) :=
  inferInstanceAs (Decidable (_ ∧ _))

/-- What a reply says by its code and the byte behind it. -/
def replyClass (code : Nat) (d : Byte) : Int :=
  if d = 45 then 0 else if Positive code then 1 else -1

/-- The code with the digits that lie behind its array. -/
def extended (code : Nat) (num : Bytes) : Nat :=
  code * 10 ^ (digits num).length + decimal (digits num)

/-- No digit lies behind the array, or with those that do the number is of the
same class after it has been cut down to an `int`. -/
def ClassKept (code : Nat) (num : Bytes) : Prop :=
  digits num = [] ∨
    (extended code num < 2 ^ 63 ∧ Positive (extended code num % 2 ^ 32) ↔ Positive code)

instance (code : Nat) (num : Bytes) : Decidable (ClassKept code num) :=
  inferInstanceAs (Decidable (_ ∨ _))

theorem decimal_append (left right : Bytes) :
    decimal (left ++ right) = decimal left * 10 ^ right.length + decimal right := by
  simp only [decimal, List.reverse_append, List.map_append, Nat.ofDigits_append, List.length_map,
    List.length_reverse]
  rw [Nat.mul_comm (10 ^ right.length), Nat.add_comm]

theorem decimal_append_singleton (left : Bytes) (b : Byte) :
    decimal (left ++ [b]) = 10 * decimal left + (b.toNat - 48) := by
  rw [decimal_append]
  simp [decimal, Nat.mul_comm]

theorem foldl_eq_decimal {text : Bytes} (h : ∀ b ∈ text, IsDigit b) :
    text.foldl (fun n b => 10 * n + ((b.toNat : Int) - 48)) 0 = (decimal text : Int) := by
  induction text using List.reverseRecOn with
  | nil => rfl
  | append_singleton text b ih =>
    obtain ⟨hlow, -⟩ := (h b (by simp)).bounds
    have htext : ∀ b ∈ text, IsDigit b := fun b hb => h b (by simp [hb])
    rw [List.foldl_append, List.foldl_cons, List.foldl_nil, ih htext, decimal_append_singleton]
    omega

theorem decimal_code_lt {a b c : Byte} (ha : IsDigit a) (hb : IsDigit b) (hc : IsDigit c) :
    decimal [a, b, c] < 1000 := by
  have hbounds := And.intro ha.bounds (And.intro hb.bounds hc.bounds)
  simp only [decimal, List.reverse_cons, List.reverse_nil, List.nil_append, List.cons_append,
    List.map_cons, List.map_nil, Nat.ofDigits_cons, Nat.ofDigits_nil]
  omega

section Reply

variable {a b c d : Byte} (ha : IsDigit a) (hb : IsDigit b) (hc : IsDigit c)
include ha hb hc

theorem parseReturnCode_extended (rest num : Bytes) :
    parseReturnCode num (a :: b :: c :: rest) =
      (min (extended (decimal [a, b, c]) num : Int) (2 ^ 63 - 1) + 2 ^ 31) % 2 ^ 32 - 2 ^ 31 := by
  have hcode : ∀ b' ∈ [a, b, c], IsDigit b' := by simp [ha, hb, hc]
  have hdigits : ∀ b' ∈ [a, b, c] ++ digits num, IsDigit b' := by
    intro b' hb'
    rcases List.mem_append.mp hb' with hb' | hb'
    · exact hcode b' hb'
    · exact isDigit_of_mem_digits hb'
  rw [parseReturnCode_eq ha hb hc, number_eq, digits_append hcode, foldl_eq_decimal hdigits,
    decimal_append, extended]

theorem parseReturnCode_positive (rest num : Bytes) :
    (200 ≤ parseReturnCode num (a :: b :: c :: rest) ∧
        parseReturnCode num (a :: b :: c :: rest) < 400) ↔
      extended (decimal [a, b, c]) num < 2 ^ 63 ∧
        Positive (extended (decimal [a, b, c]) num % 2 ^ 32) := by
  rw [parseReturnCode_extended ha hb hc]
  generalize extended (decimal [a, b, c]) num = number
  unfold Positive
  omega

theorem classKept_iff (num : Bytes) : ClassKept (decimal [a, b, c]) num ↔
    (extended (decimal [a, b, c]) num < 2 ^ 63 ∧
      Positive (extended (decimal [a, b, c]) num % 2 ^ 32) ↔ Positive (decimal [a, b, c])) := by
  refine ⟨fun h => h.elim (fun hnone => ?_) id, .inr⟩
  have hcode := decimal_code_lt ha hb hc
  have hsame : extended (decimal [a, b, c]) num = decimal [a, b, c] := by
    simp [extended, hnone, decimal]
  rw [hsame]
  unfold Positive
  omega

omit ha hb hc in
theorem processMessage_eq {text : Bytes} (h : text[3]? = some d) (num : Bytes) :
    processMessage [] num text = if strlen text < 4 then -1 else if d = 45 then 0
      else if 200 ≤ parseReturnCode num text ∧ parseReturnCode num text < 400 then 1 else -1 := by
  simp only [processMessage, List.append_nil, h, Option.some.injEq]
  grind

theorem strlen_reply (more : Bytes) : strlen (a :: b :: c :: d :: more) < 4 ↔ d = nul := by
  have hnul : ¬IsDigit nul := by decide
  have hfree : NulFree [a, b, c] := by
    simp [nulFree_cons, ha.ne hnul, hb.ne hnul, hc.ne hnul]
  have htext : cstr (a :: b :: c :: d :: more) = [a, b, c] ++ cstr (d :: more) :=
    @cstr_append [a, b, c] (d :: more) hfree
  rw [strlen, htext]
  by_cases hd : d = nul <;> simp [cstr, hd]

/-- A reply is classified by what it says exactly where it is to be continued,
where a NUL behind the code hides the line and the code is no success, and where
what lies behind the array keeps the class. -/
theorem processMessage_eq_iff (rest stray num : Bytes) :
    processMessage stray num (a :: b :: c :: d :: rest) = replyClass (decimal [a, b, c]) d ↔
      d = 45 ∨ (d = nul ∧ ¬Positive (decimal [a, b, c])) ∨
        (d ≠ nul ∧ ClassKept (decimal [a, b, c]) num) := by
  have hstray : processMessage stray num (a :: b :: c :: d :: rest) =
      processMessage [] num (a :: b :: c :: d :: (rest ++ stray)) := by
    simp only [processMessage, List.cons_append, List.append_nil]
  have hclass := classKept_iff ha hb hc num
  rw [← parseReturnCode_positive ha hb hc (d :: (rest ++ stray)) num] at hclass
  rw [hstray, processMessage_eq rfl, if_congr (strlen_reply ha hb hc _) rfl rfl, replyClass, hclass]
  have hdash : nul ≠ 45 := by decide
  by_cases hd : d = nul
  · by_cases hcode : Positive (decimal [a, b, c]) <;> simp [hd, hdash, hcode]
  · by_cases hend : d = 45
    · simp [hend, hdash.symm]
    · simp only [hd, hend, if_false, false_or, false_and, ne_eq, not_false_eq_true, true_and]
      by_cases hcode : Positive (decimal [a, b, c]) <;> simp [hcode]

end Reply

theorem processMessage_eq_iff_ok : processMessage [] [nul] (ascii "250 ok") = 1 := by
  have hclass : ClassKept (decimal [50, 53, 48]) [nul] := .inl (by decide)
  have hreply := @processMessage_eq_iff 50 53 48 32 (by decide) (by decide) (by decide) (ascii "ok")
    [] [nul]
  exact hreply.mpr (.inr (.inr ⟨by decide, hclass⟩))

/-- One digit behind the array, and a success is taken for a failure. -/
theorem processMessage_digit_behind :
    processMessage [nul] (ascii "0") (ascii "250 ok") ≠ replyClass (decimal (ascii "250")) 32 := by
  decide

end SmtpMta.Client.ReplyCodes
