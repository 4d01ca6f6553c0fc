import Mathlib.Algebra.GroupWithZero.Nat
import Mathlib.Algebra.Group.Int.Defs
import Mathlib.Data.List.TakeWhile
import Mathlib.Data.List.Lex

/-! Memory blocks and the C strings they hold. A block is the list of its
bytes; a string ends at the first NUL, wherever the block itself ends. -/
namespace SmtpMta.Library.CString

abbrev Byte := UInt8
abbrev Bytes := List Byte

def nul : Byte := 0
def lf : Byte := 10
def cr : Byte := 13

/-- The bytes of an ASCII literal, without the terminator. -/
def ascii (text : String) : Bytes :=
  text.toList.map fun c => UInt8.ofNat c.toNat

/-- The text a `char *` to the start of the block denotes. -/
def cstr (block : Bytes) : Bytes :=
  block.takeWhile (· ≠ nul)

def strlen (block : Bytes) : Nat :=
  (cstr block).length

/-- No terminator inside: the block is the text of the string it starts. -/
def NulFree (text : Bytes) : Prop :=
  nul ∉ text

instance (text : Bytes) : Decidable (NulFree text) :=
  inferInstanceAs (Decidable (nul ∉ text))

@[simp] theorem nulFree_nil : NulFree [] := by simp [NulFree]

theorem nulFree_cons {b : Byte} {text : Bytes} :
    NulFree (b :: text) ↔ b ≠ nul ∧ NulFree text := by
  simp [NulFree, eq_comm]

@[simp] theorem nulFree_append {left right : Bytes} :
    NulFree (left ++ right) ↔ NulFree left ∧ NulFree right := by
  simp [NulFree]

theorem nulFree_flatten {texts : List Bytes} :
    NulFree texts.flatten ↔ ∀ text ∈ texts, NulFree text := by
  simp only [NulFree, List.mem_flatten, not_exists, not_and]

theorem ne_nil_of_flatten {texts : List Bytes} (h : texts.flatten ≠ []) : texts ≠ [] :=
  fun hnil => h (by rw [hnil, List.flatten_nil])

theorem NulFree.of_sublist {left right : Bytes} (h : NulFree right)
    (hsub : left.Sublist right) : NulFree left :=
  fun hmem => h (hsub.subset hmem)

theorem cstr_nulFree (block : Bytes) : NulFree (cstr block) := by
  intro hmem
  simpa using List.mem_takeWhile_imp hmem

theorem cstr_of_nulFree {text : Bytes} (h : NulFree text) : cstr text = text := by
  apply List.takeWhile_eq_self_iff.mpr
  intro b hb
  have hne : b ≠ nul := fun he => h (he ▸ hb)
  simpa using hne

@[simp] theorem cstr_cstr (block : Bytes) : cstr (cstr block) = cstr block :=
  cstr_of_nulFree (cstr_nulFree block)

/-- A terminator directly after the text ends the string there. -/
theorem cstr_append_nul {text : Bytes} (h : NulFree text) (rest : Bytes) :
    cstr (text ++ nul :: rest) = text := by
  unfold cstr
  rw [List.takeWhile_append_of_pos]
  · simp
  · intro b hb
    have hne : b ≠ nul := fun he => h (he ▸ hb)
    simpa using hne

theorem cstr_append {text rest : Bytes} (h : NulFree text) :
    cstr (text ++ rest) = text ++ cstr rest := by
  unfold cstr
  rw [List.takeWhile_append_of_pos]
  intro b hb
  have hne : b ≠ nul := fun he => h (he ▸ hb)
  simpa using hne

theorem cstr_append_of_nul {left rest : Bytes} (h : ¬NulFree left) :
    cstr (left ++ rest) = cstr left := by
  induction left with
  | nil => simp at h
  | cons b left ih =>
    rw [nulFree_cons] at h
    by_cases hb : b = nul
    · simp [cstr, hb]
    · have hrest : cstr (left ++ rest) = cstr left := ih (by tauto)
      have hcons (text : Bytes) : cstr (b :: text) = b :: cstr text := by simp [cstr, hb]
      rw [List.cons_append, hcons, hcons, hrest]

/-- Terminators behind the text do not change the string. -/
theorem cstr_pad (text : Bytes) (n : Nat) : cstr (text ++ List.replicate n nul) = cstr text := by
  by_cases h : NulFree text
  · have hpad : cstr (List.replicate n nul) = [] := by cases n <;> simp [cstr, List.replicate_succ]
    rw [cstr_append h, hpad, List.append_nil, cstr_of_nulFree h]
  · exact cstr_append_of_nul h

/-- `strncpy(dst, src, n)`: at most `n` bytes of the string, NUL-padded to `n`;
the bytes of the destination after the first `n` stay. -/
def strncpy (dst src : Bytes) (n : Nat) : Bytes :=
  let text := (cstr src).take n
  text ++ List.replicate (n - text.length) nul ++ dst.drop n

/-- A string that ends within the bound is copied whole, with its terminator. -/
theorem cstr_strncpy {src : Bytes} {n : Nat} (h : strlen src < n) (dst : Bytes) :
    cstr (strncpy dst src n) = cstr src := by
  have htake : (cstr src).take n = cstr src := List.take_of_length_le h.le
  obtain ⟨pad, hpad⟩ : ∃ pad, n - (cstr src).length = pad + 1 :=
    Nat.exists_eq_add_one.mpr (Nat.sub_pos_of_lt h)
  rw [strncpy, htake, hpad, List.replicate_succ, List.append_assoc, List.cons_append]
  exact cstr_append_nul (cstr_nulFree src) _

/-- `strncat(dst, src, n)`; `none` if the joined string and its terminator do
not fit into the block of the destination. -/
def strncat (dst src : Bytes) (n : Nat) : Option Bytes :=
  let text := cstr dst ++ (cstr src).take n
  if text.length < dst.length then some (text ++ nul :: dst.drop (text.length + 1)) else none

def strcat (dst src : Bytes) : Option Bytes :=
  strncat dst src (strlen src)

theorem strncat_fits {dst src : Bytes} {n : Nat}
    (h : (cstr dst ++ (cstr src).take n).length < dst.length) :
    ∃ block, strncat dst src n = some block ∧ block.length = dst.length ∧
      cstr block = cstr dst ++ (cstr src).take n := by
  have hfree : NulFree (cstr dst ++ (cstr src).take n) :=
    nulFree_append.mpr ⟨cstr_nulFree dst, (cstr_nulFree src).of_sublist (List.take_sublist ..)⟩
  refine ⟨_, if_pos h, ?_, cstr_append_nul hfree _⟩
  simp only [List.length_append, List.length_cons, List.length_drop] at h ⊢
  omega

theorem strcat_fits {dst src : Bytes} (h : strlen dst + strlen src < dst.length) :
    ∃ block, strcat dst src = some block ∧ block.length = dst.length ∧
      cstr block = cstr dst ++ cstr src := by
  have hall : (cstr src).take (strlen src) = cstr src := List.take_length
  have hfits : (cstr dst ++ (cstr src).take (strlen src)).length < dst.length := by
    rw [hall, List.length_append]
    exact h
  obtain ⟨block, hcat, hlen, htext⟩ := strncat_fits hfits
  exact ⟨block, hcat, hlen, by rw [htext, hall]⟩

theorem strcat_overflow {dst src : Bytes} (h : dst.length ≤ strlen dst + strlen src) :
    strcat dst src = none := by
  have hall : (cstr src).take (strlen src) = cstr src := List.take_length
  rw [strcat, strncat, if_neg]
  rw [hall, List.length_append]
  exact Nat.not_lt.mpr h

/-- `strcpy(dst, src)`; `none` as for `strncat`. -/
def strcpy (dst src : Bytes) : Option Bytes :=
  if strlen src < dst.length then some (cstr src ++ nul :: dst.drop (strlen src + 1)) else none

theorem strcpy_fits {dst src : Bytes} (h : strlen src < dst.length) :
    ∃ block, strcpy dst src = some block ∧ block.length = dst.length ∧ cstr block = cstr src := by
  refine ⟨_, if_pos h, ?_, cstr_append_nul (cstr_nulFree src) _⟩
  simp only [strlen, List.length_append, List.length_cons, List.length_drop] at h ⊢
  omega

/-- `strstr`: the offset of the first place where the pattern stands. -/
def strstr (str pattern : Bytes) : Option Nat :=
  go (cstr pattern) (cstr str) 0
where
  go (pattern : Bytes) : Bytes → Nat → Option Nat
    | [], k => if pattern = [] then some k else none
    | b :: text, k => if pattern.isPrefixOf (b :: text) then some k else go pattern text (k + 1)

/-- `strchr` and `strrchr`: the offsets of the first and of the last place where
a byte other than the terminator stands. -/
def strchr (str : Bytes) (c : Byte) : Option Nat :=
  (cstr str).findIdx? (· = c)

def strrchr (str : Bytes) (c : Byte) : Option Nat :=
  ((cstr str).reverse.findIdx? (· = c)).map fun k => strlen str - 1 - k

theorem strchr_append {left right : Bytes} {c : Byte} (hfree : NulFree (left ++ c :: right))
    (hleft : c ∉ left) : strchr (left ++ c :: right) c = some left.length := by
  have hnone : left.findIdx? (· = c) = none := by
    apply List.findIdx?_eq_none_iff.mpr
    intro b hb
    have hne : b ≠ c := fun heq => hleft (heq ▸ hb)
    simpa using hne
  rw [strchr, cstr_of_nulFree hfree, List.findIdx?_append, hnone]
  simp [List.findIdx?_cons]

theorem strrchr_append {left right : Bytes} {c : Byte} (hfree : NulFree (left ++ c :: right))
    (hright : c ∉ right) : strrchr (left ++ c :: right) c = some left.length := by
  have hnone : right.reverse.findIdx? (· = c) = none := by
    apply List.findIdx?_eq_none_iff.mpr
    intro b hb
    have hne : b ≠ c := fun heq => hright (heq ▸ List.mem_reverse.mp hb)
    simpa using hne
  rw [strrchr, strlen, cstr_of_nulFree hfree, List.reverse_append, List.reverse_cons,
    List.append_assoc, List.findIdx?_append, hnone]
  simp [List.findIdx?_cons]

/-- `strcmp` up to the sign of its result: the difference of the first bytes
that differ, read as `unsigned char`. -/
def strcmp (left right : Bytes) : Int :=
  go (cstr left) (cstr right)
where
  go : Bytes → Bytes → Int
    | [], [] => 0
    | [], b :: _ => -(b.toNat : Int)
    | a :: _, [] => a.toNat
    | a :: left, b :: right =>
      if a = b then go left right else (a.toNat : Int) - b.toNat

/-- Strings in the order `strcmp` compares them. -/
def order (block : Bytes) : List Nat :=
  (cstr block).map UInt8.toNat

private theorem toNat_pos {b : Byte} (h : b ≠ nul) : 0 < b.toNat := by
  rcases Nat.eq_zero_or_pos b.toNat with hz | hpos
  · exact absurd (UInt8.toNat_inj.mp (by simpa [nul] using hz)) h
  · exact hpos

private theorem go_lt_zero {left right : Bytes} (hl : NulFree left) (hr : NulFree right) :
    strcmp.go left right < 0 ↔ left.map UInt8.toNat < right.map UInt8.toNat := by
  induction left generalizing right with
  | nil =>
    cases right with
    | nil => simp [strcmp.go]
    | cons b right =>
      have := toNat_pos (nulFree_cons.mp hr).1
      simp only [strcmp.go, List.map_nil, List.map_cons, List.nil_lt_cons, iff_true]
      omega
  | cons a left ih =>
    cases right with
    | nil => simp [strcmp.go]
    | cons b right =>
      rw [nulFree_cons] at hl hr
      simp only [strcmp.go, List.map_cons, List.cons_lt_cons_iff]
      split
      · rename_i heq
        subst heq
        simpa using ih hl.2 hr.2
      · rename_i hne
        have : a.toNat ≠ b.toNat := fun he => hne (UInt8.toNat_inj.mp he)
        omega

private theorem go_eq_zero {left right : Bytes} (hl : NulFree left) (hr : NulFree right) :
    strcmp.go left right = 0 ↔ left = right := by
  induction left generalizing right with
  | nil =>
    cases right with
    | nil => simp [strcmp.go]
    | cons b right =>
      have := toNat_pos (nulFree_cons.mp hr).1
      simp only [strcmp.go, reduceCtorEq, iff_false]
      omega
  | cons a left ih =>
    cases right with
    | nil =>
      have := toNat_pos (nulFree_cons.mp hl).1
      simp only [strcmp.go, reduceCtorEq, iff_false]
      omega
    | cons b right =>
      rw [nulFree_cons] at hl hr
      simp only [strcmp.go, List.cons.injEq]
      split
      · rename_i heq
        simpa [heq] using ih hl.2 hr.2
      · rename_i hne
        have : a.toNat ≠ b.toNat := fun he => hne (UInt8.toNat_inj.mp he)
        simp only [hne, false_and, iff_false]
        omega

theorem strcmp_lt_zero (left right : Bytes) :
    strcmp left right < 0 ↔ order left < order right :=
  go_lt_zero (cstr_nulFree left) (cstr_nulFree right)

theorem strcmp_eq_zero (left right : Bytes) :
    strcmp left right = 0 ↔ cstr left = cstr right :=
  go_eq_zero (cstr_nulFree left) (cstr_nulFree right)

theorem order_injective {left right : Bytes} :
    order left = order right ↔ cstr left = cstr right := by
  unfold order
  exact (List.map_injective_iff.mpr fun _ _ => UInt8.toNat_inj.mp).eq_iff

theorem strcmp_pos (left right : Bytes) :
    0 < strcmp left right ↔ order right < order left := by
  have hlt := strcmp_lt_zero left right
  have heq := (strcmp_eq_zero left right).trans order_injective.symm
  constructor
  · intro hpos
    rcases lt_trichotomy (order left) (order right) with h | h | h
    · have := hlt.mpr h
      omega
    · have := heq.mpr h
      omega
    · exact h
  · intro h
    have hnlt : ¬strcmp left right < 0 := fun hneg => lt_asymm h (hlt.mp hneg)
    have hne : strcmp left right ≠ 0 := fun hzero => h.ne' (heq.mp hzero)
    omega

end SmtpMta.Library.CString
