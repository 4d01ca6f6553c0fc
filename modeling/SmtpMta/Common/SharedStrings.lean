import SmtpMta.Library.CString

/-! `concat_dynamic_strings`: a buffer grows by moving to a block of its own
size. Whether memory is left is an argument. -/
namespace SmtpMta.Common.SharedStrings
open Library.CString

/-- The bytes `memcpy` reads; a length of `(size_t)-1` is as good as negative. -/
def memcpyFrom (src : Option Bytes) (n : Int) : Option Bytes :=
  if n < 0 then none
  else if n = 0 then some []
  else do
    let block ← src
    if n.toNat ≤ block.length then some (block.take n.toNat) else none

def concatDynamicStrings (room : Bool) (str1 str2 : Option Bytes) (len1 len2 : Int) :
    Option (Option Bytes × Int) :=
  if room then do
    let left ← memcpyFrom str1 len1
    let right ← memcpyFrom str2 len2
    some (some (left ++ right), len1 + len2)
  else some (str1, -1)

/-- What an `int` holds of a number that is stored in it. -/
def toInt (n : Int) : Int :=
  n.bmod (2 ^ 32)

theorem toInt_eq {n : Int} (hleft : -2 ^ 31 ≤ n) (hright : n < 2 ^ 31) : toInt n = n :=
  Int.bmod_eq_of_le (by omega) (by omega)

theorem toInt_lt (n : Int) : toInt n < 2 ^ 31 := by
  have hlt : toInt n < ((2 ^ 32 : Nat) + 1) / 2 := Int.bmod_lt (by decide)
  omega

theorem le_toInt (n : Int) : -2 ^ 31 ≤ toInt n := by
  have hle : -(((2 ^ 32 : Nat) : Int) / 2) ≤ toInt n := Int.le_bmod (by decide)
  omega

@[simp] theorem toInt_toInt (n : Int) : toInt (toInt n) = toInt n :=
  Int.bmod_bmod

theorem toInt_natCast_iff {n : Nat} : toInt n = n ↔ n < 2 ^ 31 := by
  have hlt := toInt_lt n
  refine ⟨fun h => by omega, fun h => toInt_eq (by omega) (by omega)⟩

@[simp] theorem memcpyFrom_zero (src : Option Bytes) : memcpyFrom src 0 = some [] := rfl

theorem memcpyFrom_length {block : Bytes} {n : Nat} (h : n ≤ block.length) :
    memcpyFrom (some block) n = some (block.take n) := by
  unfold memcpyFrom
  by_cases hzero : n = 0
  · simp [hzero]
  · simp [hzero, h]

theorem memcpyFrom_eq {src : Option Bytes} {n : Int} {text : Bytes}
    (h : memcpyFrom src n = some text) : n = text.length := by
  unfold memcpyFrom at h
  split_ifs at h with hneg hzero
  · obtain rfl : [] = text := by simpa using h
    simpa using hzero
  · obtain ⟨block, -, h⟩ := Option.bind_eq_some_iff.mp h
    split_ifs at h with hle
    obtain rfl : block.take n.toNat = text := by simpa using h
    rw [List.length_take_of_le hle]
    omega

theorem memcpyFrom_le {src : Option Bytes} {n : Int} {text : Bytes}
    (h : memcpyFrom src n = some text) : text.length ≤ src.elim 0 List.length := by
  unfold memcpyFrom at h
  split_ifs at h with hneg hzero
  · obtain rfl : [] = text := by simpa using h
    exact Nat.zero_le _
  · obtain ⟨block, hsrc, h⟩ := Option.bind_eq_some_iff.mp h
    split_ifs at h with hle
    obtain rfl : block.take n.toNat = text := by simpa using h
    rw [hsrc]
    exact List.length_take_le' _ _

theorem memcpyFrom_append (text more : Bytes) :
    memcpyFrom (some (text ++ more)) text.length = some text := by
  have htake := @memcpyFrom_length (text ++ more) text.length (by simp)
  rwa [List.take_left] at htake

theorem memcpyFrom_self (text : Bytes) : memcpyFrom (some text) text.length = some text := by
  simpa using memcpyFrom_append text []

theorem concatDynamicStrings_eq {left right : Bytes} {str1 str2 : Option Bytes} {len1 len2 : Int}
    (h1 : memcpyFrom str1 len1 = some left) (h2 : memcpyFrom str2 len2 = some right) :
    concatDynamicStrings true str1 str2 len1 len2 =
      some (some (left ++ right), ((left ++ right).length : Int)) := by
  obtain rfl := memcpyFrom_eq h1
  obtain rfl := memcpyFrom_eq h2
  simp [concatDynamicStrings, h1, h2]

end SmtpMta.Common.SharedStrings
