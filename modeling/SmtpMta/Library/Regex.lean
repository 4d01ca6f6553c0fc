import Mathlib.Computability.RegularExpressions
import Mathlib.Data.List.Chain

/-! Extended regular expressions with one reported group, over the regular
expressions of Mathlib. A bracket expression is a finite sum of characters; a
pattern anchored at both ends is the concatenation of what stands before the
group, the group, and what stands after it. -/
namespace SmtpMta.Library.Regex

variable {α : Type}

/-- A bracket expression: any one of the characters. -/
def oneOf (chars : List α) : RegularExpression α :=
  (chars.map RegularExpression.char).sum

/-- One bracket expression after the other. -/
def sequence (classes : List (List α)) : RegularExpression α :=
  (classes.map oneOf).foldr (· * ·) 1

def plus (r : RegularExpression α) : RegularExpression α :=
  r * r.star

theorem mem_oneOf {chars word : List α} :
    word ∈ (oneOf chars).matches' ↔ ∃ c ∈ chars, word = [c] := by
  induction chars with
  | nil => simp [oneOf, Language.notMem_zero]
  | cons c chars ih =>
    unfold oneOf at ih ⊢
    rw [List.map_cons, List.sum_cons, RegularExpression.matches'_add, Language.mem_add, ih]
    simp
    rfl

theorem cons_mem_sequence {chars : List α} {classes : List (List α)} {word : List α} :
    word ∈ (sequence (chars :: classes)).matches' ↔
      ∃ c ∈ chars, ∃ rest ∈ (sequence classes).matches', word = c :: rest := by
  simp only [sequence, List.map_cons, List.foldr_cons, RegularExpression.matches'_mul,
    Language.mem_mul, mem_oneOf]
  constructor
  · rintro ⟨_, ⟨c, hc, rfl⟩, rest, hrest, rfl⟩
    exact ⟨c, hc, rest, hrest, rfl⟩
  · rintro ⟨c, hc, rest, hrest, rfl⟩
    exact ⟨[c], ⟨c, hc, rfl⟩, rest, hrest, rfl⟩

theorem length_of_mem_sequence {classes : List (List α)} {word : List α}
    (h : word ∈ (sequence classes).matches') : word.length = classes.length := by
  induction classes generalizing word with
  | nil =>
    have hnil : word = [] := by
      simpa [sequence, RegularExpression.matches'_epsilon, Language.mem_one] using h
    simp [hnil]
  | cons chars classes ih =>
    obtain ⟨c, -, rest, hrest, rfl⟩ := cons_mem_sequence.mp h
    simp [ih hrest]

/-- Characters that an expression can use at all. -/
def alphabet : RegularExpression α → Set α
  | .zero => ∅
  | .epsilon => ∅
  | .char a => {a}
  | .plus r s => alphabet r ∪ alphabet s
  | .comp r s => alphabet r ∪ alphabet s
  | .star r => alphabet r

@[simp] theorem mem_alphabet_mul {r s : RegularExpression α} {a : α} :
    a ∈ alphabet (r * s) ↔ a ∈ alphabet r ∨ a ∈ alphabet s := Iff.rfl

@[simp] theorem mem_alphabet_star {r : RegularExpression α} {a : α} :
    a ∈ alphabet r.star ↔ a ∈ alphabet r := Iff.rfl

@[simp] theorem mem_alphabet_char {a b : α} :
    a ∈ alphabet (.char b : RegularExpression α) ↔ a = b := Iff.rfl

@[simp] theorem mem_alphabet_oneOf {chars : List α} {a : α} :
    a ∈ alphabet (oneOf chars) ↔ a ∈ chars := by
  induction chars with
  | nil => exact ⟨False.elim, fun h => by simp at h⟩
  | cons c chars ih =>
    rw [List.mem_cons, ← ih]
    exact Iff.rfl

theorem mem_alphabet {r : RegularExpression α} {word : List α} (h : word ∈ r.matches') :
    ∀ a ∈ word, a ∈ alphabet r := by
  induction r generalizing word with
  | zero => exact (Language.notMem_zero _ h).elim
  | epsilon =>
    have hnil : word = [] := by simpa [Language.mem_one] using h
    simp [hnil]
  | char b =>
    have hword : word = [b] := h
    simp [hword, alphabet]
  | plus r s ihr ihs =>
    intro a ha
    rw [RegularExpression.plus_def, RegularExpression.matches'_add, Language.mem_add] at h
    cases h with
    | inl h => exact .inl (ihr h a ha)
    | inr h => exact .inr (ihs h a ha)
  | comp r s ihr ihs =>
    intro a ha
    rw [RegularExpression.comp_def, RegularExpression.matches'_mul, Language.mem_mul] at h
    obtain ⟨left, hleft, right, hright, rfl⟩ := h
    cases List.mem_append.mp ha with
    | inl ha => exact .inl (ihr hleft a ha)
    | inr ha => exact .inr (ihs hright a ha)
  | star r ih =>
    intro a ha
    rw [RegularExpression.matches'_star, Language.mem_kstar] at h
    obtain ⟨words, rfl, hwords⟩ := h
    obtain ⟨piece, hpiece, ha⟩ := List.mem_flatten.mp ha
    exact ih (hwords piece hpiece) a ha

/-- No separator stands at an end of the word or next to another one. -/
structure Separated (c : α) (word : List α) : Prop where
  ne_nil : word ≠ []
  head : word.head? ≠ some c
  last : word.getLast? ≠ some c
  inside : word.IsChain fun a b => a ≠ c ∨ b ≠ c

theorem separated_of_notMem {c : α} {word : List α} (hne : word ≠ []) (hc : c ∉ word) :
    Separated c word := by
  constructor
  case ne_nil => exact hne
  case head => exact fun h => hc (List.mem_of_mem_head? h)
  case last => exact fun h => hc (List.mem_of_getLast? h)
  case inside =>
    have hother : word.Pairwise fun a b => a ≠ c ∨ b ≠ c :=
      List.pairwise_of_forall_mem_list fun a ha b _ => .inl fun heq => hc (heq ▸ ha)
    exact hother.isChain

theorem Separated.append {c : α} {left right : List α} (h : Separated c left)
    (h' : Separated c right) (b : α) : Separated c (left ++ b :: right) := by
  constructor
  case ne_nil => simp
  case head =>
    rw [List.head?_append_of_ne_nil _ h.ne_nil]
    exact h.head
  case last =>
    rw [List.getLast?_append_of_ne_nil _ (by simp), List.getLast?_cons_of_ne_nil h'.ne_nil]
    exact h'.last
  case inside =>
    rw [List.isChain_append, List.isChain_cons]
    refine ⟨h.inside, ⟨fun y hy => .inr fun heq => h'.head (heq ▸ hy), h'.inside⟩, ?_⟩
    exact fun x hx y _ => .inl fun heq => h.last (heq ▸ hx)

/-- Words that are joined by a separator they do not contain. -/
theorem separated_of_matches {c : α} {r : RegularExpression α} {word : List α}
    (hr : ∀ piece ∈ r.matches', piece ≠ [] ∧ c ∉ piece)
    (h : word ∈ (r * (.char c * r).star).matches') : Separated c word := by
  rw [RegularExpression.matches'_mul, RegularExpression.matches'_star] at h
  obtain ⟨first, hfirst, rest, hrest, rfl⟩ := Language.mem_mul.mp h
  obtain ⟨pieces, rfl, hpieces⟩ := Language.mem_kstar.mp hrest
  have hsep : Separated c first := separated_of_notMem (hr first hfirst).1 (hr first hfirst).2
  clear h hrest hfirst
  induction pieces generalizing first with
  | nil => simpa using hsep
  | cons piece pieces ih =>
    obtain ⟨hpiece, hothers⟩ := List.forall_mem_cons.mp hpieces
    rw [RegularExpression.matches'_mul] at hpiece
    obtain ⟨sep, hsep', atom, hatom, rfl⟩ := Language.mem_mul.mp hpiece
    obtain rfl : sep = [c] := hsep'
    have hatom' : Separated c atom := separated_of_notMem (hr atom hatom).1 (hr atom hatom).2
    simpa using ih (first ++ c :: atom) hothers (hsep.append hatom' c)

theorem mem_plus_oneOf {chars word : List α} (h : word ∈ (plus (oneOf chars)).matches') :
    word ≠ [] ∧ ∀ a ∈ word, a ∈ chars := by
  refine ⟨?_, fun a ha => ?_⟩
  · rw [plus, RegularExpression.matches'_mul] at h
    obtain ⟨first, hfirst, rest, -, rfl⟩ := Language.mem_mul.mp h
    obtain ⟨b, -, rfl⟩ := mem_oneOf.mp hfirst
    simp
  · have halphabet := mem_alphabet h a ha
    simpa [plus] using halphabet

/-- `^before(group)after$`. -/
structure Pattern (α : Type) where
  before : RegularExpression α
  group : RegularExpression α
  after : RegularExpression α

variable [DecidableEq α]

/-- The subject cut at two offsets matches the three parts. -/
def Pattern.MatchesAt (p : Pattern α) (subject : List α) (i j : Nat) : Prop :=
  i ≤ j ∧ j ≤ subject.length ∧ p.before.rmatch (subject.take i) ∧
    p.group.rmatch ((subject.take j).drop i) ∧ p.after.rmatch (subject.drop j)

instance (p : Pattern α) (subject : List α) (i j : Nat) : Decidable (p.MatchesAt subject i j) :=
  inferInstanceAs (Decidable (_ ∧ _))

/-- Where the group matched, as start and end offsets: POSIX lets each part,
from left to right, take the longest text it can. -/
def Pattern.exec (p : Pattern α) (subject : List α) : Option (Nat × Nat) :=
  let offsets := (List.range (subject.length + 1)).reverse
  offsets.findSome? fun i =>
    if p.before.rmatch (subject.take i) then
      (offsets.find? fun j => p.MatchesAt subject i j).map fun j => (i, j)
    else none

theorem Pattern.matchesAt_of_exec {p : Pattern α} {subject : List α} {i j : Nat}
    (h : p.exec subject = some (i, j)) : p.MatchesAt subject i j := by
  obtain ⟨i', -, h⟩ := List.exists_of_findSome?_eq_some h
  split at h
  · obtain ⟨j', hj', heq⟩ := Option.map_eq_some_iff.mp h
    cases heq
    simpa using List.find?_some hj'
  · cases h

theorem Pattern.exec_isSome {p : Pattern α} {subject : List α} {i j : Nat}
    (h : p.MatchesAt subject i j) : (p.exec subject).isSome := by
  have hmem (k : Nat) (hk : k ≤ subject.length) :
      k ∈ (List.range (subject.length + 1)).reverse := by simp; omega
  rw [Pattern.exec, List.findSome?_isSome_iff]
  refine ⟨i, hmem i (h.1.trans h.2.1), ?_⟩
  rw [if_pos h.2.2.1, Option.isSome_map, List.find?_isSome]
  exact ⟨j, hmem j h.2.1, by simpa using h⟩

/-- Where only one cut matches, that cut is the result. -/
theorem Pattern.exec_eq_some {p : Pattern α} {subject : List α} {i j : Nat}
    (h : p.MatchesAt subject i j)
    (hunique : ∀ i' j', p.MatchesAt subject i' j' → i' = i ∧ j' = j) :
    p.exec subject = some (i, j) := by
  obtain ⟨⟨i', j'⟩, hexec⟩ := Option.isSome_iff_exists.mp (p.exec_isSome h)
  obtain ⟨rfl, rfl⟩ := hunique i' j' (matchesAt_of_exec hexec)
  exact hexec

/-- A group between a text of fixed length and a delimiter that cannot stand in
the group is found between the two. -/
theorem Pattern.exec_delimited {classes : List (List α)} {group after : RegularExpression α}
    {pre text rest : List α} {delimiter : α} (hpre : pre ∈ (sequence classes).matches')
    (htext : text ∈ group.matches') (hrest : delimiter :: rest ∈ after.matches')
    (hafter : ∀ word ∈ after.matches', word.head? = some delimiter)
    (hgroup : delimiter ∉ alphabet group) :
    (⟨sequence classes, group, after⟩ : Pattern α).exec (pre ++ text ++ delimiter :: rest) =
      some (pre.length, pre.length + text.length) := by
  apply Pattern.exec_eq_some
  · refine ⟨by omega, by simp, ?_, ?_, ?_⟩ <;>
      rw [RegularExpression.rmatch_iff_matches']
    · simpa using hpre
    · rw [← List.length_append, List.take_left, List.drop_left]
      exact htext
    · rw [← List.length_append, List.drop_left]
      exact hrest
  · rintro i j ⟨hij, hj, hbefore, hmiddle, hbehind⟩
    rw [RegularExpression.rmatch_iff_matches'] at hbefore hmiddle hbehind
    have hi : i = pre.length := by
      have hlen := length_of_mem_sequence hbefore
      rw [List.length_take_of_le (hij.trans hj)] at hlen
      rw [hlen, length_of_mem_sequence hpre]
    subst hi
    -- the delimiter stands at both offsets, and nowhere in a group
    have hat : (pre ++ text ++ delimiter :: rest)[j]? = some delimiter := by
      simpa [List.head?_drop] using hafter _ hbehind
    refine ⟨rfl, le_antisymm ?_ ?_⟩
    · by_contra hlt
      refine hgroup (mem_alphabet hmiddle delimiter ?_)
      rw [List.mem_iff_getElem?]
      refine ⟨text.length, ?_⟩
      rw [List.getElem?_drop, List.getElem?_take_of_lt (by omega), List.append_assoc,
        List.getElem?_append_right (by omega), Nat.add_sub_cancel_left,
        List.getElem?_append_right le_rfl, Nat.sub_self]
      rfl
    · by_contra hlt
      rw [List.append_assoc, List.getElem?_append_right hij,
        List.getElem?_append_left (by omega)] at hat
      exact hgroup (mem_alphabet htext delimiter (List.mem_of_getElem? hat))

end SmtpMta.Library.Regex
