import SmtpMta.Common.StringUtils

/-! The part of `parser.c` that takes replies out of a receive buffer. The
buffer, a message and the array of the code end without a terminator, so that
the string functions read on in what happens to lie behind them. -/
namespace SmtpMta.Client.ReplyParser
open Library.CString Common.StringUtils

/-- `atoi`: the conversion of `strtol`, cut down to an `int`. -/
def atoi (str : Bytes) : Int :=
  let text := (cstr str).dropWhile isspace
  let value : Int := match text with
    | 45 :: digits => max (-(number digits)) (-2 ^ 63)
    | 43 :: digits => min (number digits) (2 ^ 63 - 1)
    | digits => min (number digits) (2 ^ 63 - 1)
  (value + 2 ^ 31) % 2 ^ 32 - 2 ^ 31
where
  number (text : Bytes) : Int :=
    (text.takeWhile fun b => 48 ≤ b ∧ b ≤ 57).foldl (fun n b => 10 * n + (b.toNat - 48)) 0

/-- `num` lies behind the array of three characters. -/
def parseReturnCode (num : Bytes) (buf : Bytes) : Int :=
  atoi (strncpy [nul, nul, nul] buf 3 ++ num)

def IsDigit (b : Byte) : Prop := 48 ≤ b ∧ b ≤ 57

instance (b : Byte) : Decidable (IsDigit b) :=
  inferInstanceAs (Decidable (_ ∧ _))

theorem IsDigit.bounds {b : Byte} (h : IsDigit b) : 48 ≤ b.toNat ∧ b.toNat ≤ 57 := by
  simpa [IsDigit, UInt8.le_iff_toNat_le] using h

theorem IsDigit.ne {b d : Byte} (h : IsDigit b) (hd : ¬IsDigit d) : b ≠ d :=
  fun heq => hd (heq ▸ h)

def digits (text : Bytes) : Bytes :=
  text.takeWhile fun b => IsDigit b

theorem isDigit_of_mem_digits {text : Bytes} {b : Byte} (h : b ∈ digits text) : IsDigit b := by
  simpa using List.mem_takeWhile_imp h

theorem digits_append {left : Bytes} (h : ∀ b ∈ left, IsDigit b) (right : Bytes) :
    digits (left ++ right) = left ++ digits right :=
  List.takeWhile_append_of_pos fun b hb => by simpa using h b hb

theorem digits_cstr (text : Bytes) : digits (cstr text) = digits text := by
  have hnul : ¬IsDigit nul := by decide
  induction text with
  | nil => rfl
  | cons b text ih =>
    by_cases hb : b = nul
    · simp [digits, cstr, hb, hnul]
    · have hcons : cstr (b :: text) = b :: cstr text := by simp [cstr, hb]
      simp only [digits, hcons, List.takeWhile_cons] at ih ⊢
      rw [ih]

theorem number_eq (text : Bytes) : atoi.number text =
    (digits text).foldl (fun n b => 10 * n + ((b.toNat : Int) - 48)) 0 := rfl

theorem parseReturnCode_eq {a b c : Byte} (ha : IsDigit a) (hb : IsDigit b) (hc : IsDigit c)
    (rest num : Bytes) : parseReturnCode num (a :: b :: c :: rest) =
      (min (atoi.number ([a, b, c] ++ num)) (2 ^ 63 - 1) + 2 ^ 31) % 2 ^ 32 - 2 ^ 31 := by
  have hnul : ¬IsDigit nul := by decide
  have hfree : NulFree [a, b, c] := by
    simp [nulFree_cons, ha.ne hnul, hb.ne hnul, hc.ne hnul]
  have hcopy : strncpy [nul, nul, nul] (a :: b :: c :: rest) 3 = [a, b, c] := by
    have happend : cstr (a :: b :: c :: rest) = [a, b, c] ++ cstr rest :=
      @cstr_append [a, b, c] rest hfree
    simp [strncpy, happend]
  have hspace : ([a, b, c] ++ cstr num).dropWhile isspace = [a, b, c] ++ cstr num := by
    have hno : ¬(a = 32 ∨ 9 ≤ a ∧ a ≤ 13) := by
      obtain ⟨hlow, -⟩ := ha.bounds
      simp only [UInt8.le_iff_toNat_le, UInt8.ext_iff]
      simp
      omega
    simp [isspace, hno]
  have hnumber : atoi.number ([a, b, c] ++ cstr num) = atoi.number ([a, b, c] ++ num) := by
    rw [number_eq, number_eq, ← cstr_append hfree, digits_cstr]
  rw [parseReturnCode, hcopy, atoi, cstr_append hfree, hspace, ← hnumber]
  split
  · rename_i heq
    exact absurd (List.cons.inj heq).1 (ha.ne (by decide))
  · rename_i heq
    exact absurd (List.cons.inj heq).1 (ha.ne (by decide))
  · rfl

theorem parseReturnCode_terminated {a b c : Byte} (ha : IsDigit a) (hb : IsDigit b) (hc : IsDigit c)
    (rest more : Bytes) : parseReturnCode (nul :: more) (a :: b :: c :: rest) =
      100 * (a.toNat - 48) + 10 * (b.toNat - 48) + (c.toNat - 48) := by
  have hdigits : digits ([a, b, c] ++ nul :: more) = [a, b, c] := by
    rw [digits_append (by simp [ha, hb, hc])]
    simp [digits, show ¬IsDigit nul by decide]
  have hbounds := And.intro ha.bounds (And.intro hb.bounds hc.bounds)
  rw [parseReturnCode_eq ha hb hc, number_eq, hdigits]
  simp only [List.foldl_cons, List.foldl_nil]
  omega

structure Parsed where
  message : Option Bytes
  len : Int
  newLen : Int
  buf : Bytes

/-- `behind` lies behind the buffer, and `room` says whether there is memory
for the message. A negative size makes `memcpy` run off the end. -/
def tryParseMessagePart (behind : Bytes) (room : Bool) (buf : Bytes) (bufsize : Int) :
    Option Parsed :=
  let text := buf ++ behind
  match strstr text (ascii "\r\n") with
  | none => some ⟨none, 0, bufsize, buf⟩
  | some found =>
      let len := found + 2
      if room then
        let newSize := bufsize - len
        if newSize < 0 ∨ (buf.length : Int) < bufsize then none
        else
          let moved := (text.drop len).take newSize.toNat
          some ⟨some (text.take len), len, newSize, moved ++ buf.drop newSize.toNat⟩
      else some ⟨none, -1, bufsize, buf⟩

end SmtpMta.Client.ReplyParser
