import Mathlib.Data.List.Chain
import Mathlib.Data.List.Perm.Basic
import Mathlib.Logic.Function.Basic
import Mathlib.Logic.Relation

/-! Circular doubly linked lists in a heap of link records. A ring has no
separate head: it is given by its members in `next` order from one of them. -/
namespace SmtpMta.Library.Ring

structure Links (α : Type) where
  next : Option α
  prev : Option α
deriving DecidableEq

/-- Link records by address; `none` where nothing is allocated. -/
abbrev Heap (α : Type) := α → Option (Links α)

variable {α : Type}

/-- Read a field; `none` is a null pointer or an access to freed memory. -/
def nextOf (m : Heap α) (a : α) : Option α := (m a).bind Links.next
def prevOf (m : Heap α) (a : α) : Option α := (m a).bind Links.prev

section Writes
variable [DecidableEq α]

def setNext (m : Heap α) (a : α) (target : Option α) : Option (Heap α) :=
  (m a).map fun links => Function.update m a (some { links with next := target })

def setPrev (m : Heap α) (a : α) (target : Option α) : Option (Heap α) :=
  (m a).map fun links => Function.update m a (some { links with prev := target })

theorem setNext_eq_some {m m' : Heap α} {a : α} {target : Option α}
    (h : setNext m a target = some m') :
    (∀ x, nextOf m' x = if x = a then target else nextOf m x) ∧
      (∀ x, prevOf m' x = prevOf m x) ∧ (∀ x, (m' x).isSome = (m x).isSome) ∧
      (∀ x, x ≠ a → m' x = m x) := by
  obtain ⟨links, hlinks, rfl⟩ := Option.map_eq_some_iff.mp h
  refine ⟨fun x => ?_, fun x => ?_, fun x => ?_, fun x hx => Function.update_of_ne hx _ _⟩ <;>
    by_cases hx : x = a <;> simp [nextOf, prevOf, Function.update, hx, hlinks]

theorem setPrev_eq_some {m m' : Heap α} {a : α} {target : Option α}
    (h : setPrev m a target = some m') :
    (∀ x, nextOf m' x = nextOf m x) ∧
      (∀ x, prevOf m' x = if x = a then target else prevOf m x) ∧
      (∀ x, (m' x).isSome = (m x).isSome) ∧ (∀ x, x ≠ a → m' x = m x) := by
  obtain ⟨links, hlinks, rfl⟩ := Option.map_eq_some_iff.mp h
  refine ⟨fun x => ?_, fun x => ?_, fun x => ?_, fun x hx => Function.update_of_ne hx _ _⟩ <;>
    by_cases hx : x = a <;> simp [nextOf, prevOf, Function.update, hx, hlinks]

theorem exists_setNext {m : Heap α} {a : α} (h : (m a).isSome) (target : Option α) :
    ∃ m', setNext m a target = some m' := by
  obtain ⟨links, hlinks⟩ := Option.isSome_iff_exists.mp h
  rw [setNext, hlinks]
  exact ⟨_, rfl⟩

theorem exists_setPrev {m : Heap α} {a : α} (h : (m a).isSome) (target : Option α) :
    ∃ m', setPrev m a target = some m' := by
  obtain ⟨links, hlinks⟩ := Option.isSome_iff_exists.mp h
  rw [setPrev, hlinks]
  exact ⟨_, rfl⟩

end Writes

/-- `next` and `prev` agree that `b` follows `a`. -/
def Adjacent (m : Heap α) (a b : α) : Prop :=
  nextOf m a = some b ∧ prevOf m b = some a

def IsRing (m : Heap α) : List α → Prop
  | [] => False
  | h :: xs => (h :: xs).Nodup ∧ List.IsChain (Adjacent m) (h :: xs ++ [h])

theorem IsRing.nodup {m : Heap α} {xs : List α} (h : IsRing m xs) : xs.Nodup := by
  cases xs with
  | nil => exact h.elim
  | cons a xs => exact h.1

theorem isRing_singleton {m : Heap α} {a : α} :
    IsRing m [a] ↔ nextOf m a = some a ∧ prevOf m a = some a := by
  simp [IsRing, Adjacent]

/-- The same ring from its second member. -/
theorem IsRing.rotate_one {m : Heap α} {a : α} {xs : List α} (h : IsRing m (a :: xs)) :
    IsRing m (xs ++ [a]) := by
  cases xs with
  | nil => exact h
  | cons b xs =>
    obtain ⟨hnodup, hchain⟩ := h
    refine ⟨?_, ?_⟩
    · have hperm : ([a] ++ b :: xs).Perm (b :: xs ++ [a]) := List.perm_append_comm
      exact hperm.nodup hnodup
    · rw [List.cons_append, List.cons_append, List.isChain_cons_cons] at hchain
      have hshape : b :: xs ++ [a] ++ [b] = (b :: xs) ++ a :: b :: [] := by simp
      exact hshape ▸ List.isChain_append_cons_cons.mpr ⟨hchain.2, hchain.1, .singleton _⟩

theorem IsRing.rotate {m : Heap α} {xs ys : List α} (h : IsRing m (xs ++ ys)) :
    IsRing m (ys ++ xs) := by
  induction xs generalizing ys with
  | nil => simpa using h
  | cons a xs ih =>
    have hone : IsRing m (xs ++ (ys ++ [a])) := by simpa using h.rotate_one
    simpa using ih hone

/-- The same ring from any of its members. -/
theorem IsRing.from_member {m : Heap α} {xs : List α} (h : IsRing m xs) {a : α} (ha : a ∈ xs) :
    ∃ rest, IsRing m (a :: rest) ∧ (a :: rest).Perm xs := by
  obtain ⟨left, right, rfl⟩ := List.append_of_mem ha
  have hperm : (a :: right ++ left).Perm (left ++ a :: right) := List.perm_append_comm
  exact ⟨right ++ left, h.rotate, hperm⟩

/-- The successor of the first member. -/
theorem IsRing.nextOf_head {m : Heap α} {a : α} {xs : List α} (h : IsRing m (a :: xs)) :
    nextOf m a = some (xs.headD a) := by
  cases xs with
  | nil => exact (isRing_singleton.mp h).1
  | cons b xs =>
    obtain ⟨-, hchain⟩ := h
    simp only [List.cons_append, List.isChain_cons_cons] at hchain
    simpa using hchain.1.1

/-- The successor of any member: the next one given, or the first. -/
theorem IsRing.nextOf_of_split {m : Heap α} {h pos : α} {xs done rest : List α}
    (hring : IsRing m (h :: xs)) (hsplit : h :: xs = done ++ pos :: rest) :
    nextOf m pos = some (rest.headD h) := by
  have hrot : IsRing m (pos :: (rest ++ done)) := by
    rw [hsplit] at hring
    simpa using hring.rotate
  rw [hrot.nextOf_head]
  cases rest with
  | cons next rest => rfl
  | nil =>
    cases done with
    | nil => exact congrArg some (List.cons.inj hsplit).1.symm
    | cons a done => exact congrArg some (List.cons.inj hsplit).1.symm

/-- The first member does not come again. -/
theorem IsRing.ne_head_of_split {m : Heap α} {h next : α} {xs done rest : List α}
    (hring : IsRing m (h :: xs)) (hdone : done ≠ []) (hsplit : h :: xs = done ++ next :: rest) :
    next ≠ h := by
  obtain ⟨a, done, rfl⟩ := List.exists_cons_of_ne_nil hdone
  obtain ⟨rfl, hxs⟩ := List.cons.inj hsplit
  rintro rfl
  exact (List.nodup_cons.mp hring.nodup).1 (by simp [hxs])

theorem IsRing.prevOf_head {m : Heap α} {a : α} {xs : List α} (h : IsRing m (xs ++ [a])) :
    prevOf m (xs.headD a) = some a := by
  have hrot : IsRing m (a :: xs) := by simpa using h.rotate
  cases xs with
  | nil => exact (isRing_singleton.mp hrot).2
  | cons b xs =>
    obtain ⟨-, hchain⟩ := hrot
    simp only [List.cons_append, List.isChain_cons_cons] at hchain
    simpa using hchain.1.2

theorem IsRing.isSome {m : Heap α} {xs : List α} (h : IsRing m xs) {a : α} (ha : a ∈ xs) :
    (m a).isSome := by
  obtain ⟨left, right, rfl⟩ := List.append_of_mem ha
  have hnext := h.rotate.nextOf_head
  unfold nextOf at hnext
  cases hm : m a with
  | none => simp [hm] at hnext
  | some links => rfl

/-- Where a walk over `next` can come to. -/
def Reaches (m : Heap α) (a b : α) : Prop :=
  Relation.ReflTransGen (fun x y => nextOf m x = some y) a b

/-- A walk over a ring comes to its members. -/
theorem IsRing.reaches_iff {m : Heap α} {a b : α} {xs : List α} (h : IsRing m (a :: xs)) :
    Reaches m a b ↔ b ∈ a :: xs := by
  constructor
  · intro hreach
    induction hreach with
    | refl => simp
    | @tail x y _ hnext ih =>
      obtain ⟨rest, hring, hperm⟩ := h.from_member ih
      obtain rfl : rest.headD x = y := Option.some.inj (hring.nextOf_head.symm.trans hnext)
      apply hperm.subset
      cases rest <;> simp
  · intro hmem
    obtain ⟨done, rest, hsplit⟩ := List.append_of_mem hmem
    induction done using List.reverseRecOn generalizing b rest with
    | nil =>
      obtain rfl : a = b := (List.cons.inj hsplit).1
      exact .refl
    | append_singleton done x ih =>
      have hsplit' : a :: xs = done ++ x :: b :: rest := by simpa using hsplit
      have hx : x ∈ a :: xs := by simp [hsplit']
      exact (ih hx (b :: rest) hsplit').tail (h.nextOf_of_split hsplit')

/-- A ring depends only on the records of its members. -/
theorem IsRing.congr {m m' : Heap α} {xs : List α} (h : IsRing m xs)
    (heq : ∀ a ∈ xs, m' a = m a) : IsRing m' xs := by
  cases xs with
  | nil => exact h
  | cons a xs =>
    refine ⟨h.1, h.2.imp_of_mem_imp ?_⟩
    intro x y hx hy hadj
    have hmem (z : α) (hz : z ∈ a :: xs ++ [a]) : m' z = m z :=
      heq z (by simpa [or_comm, or_assoc] using hz)
    simpa [Adjacent, nextOf, prevOf, hmem x hx, hmem y hy] using hadj

/-- A chain survives writes that spare the successors of its sources and the
predecessors of its targets. -/
theorem isChain_frame {m m' : Heap α} {b : α} {rest : List α}
    (hchain : List.IsChain (Adjacent m) (b :: rest))
    (hnext : ∀ x ∈ (b :: rest).dropLast, nextOf m' x = nextOf m x)
    (hprev : ∀ y ∈ rest, prevOf m' y = prevOf m y) : List.IsChain (Adjacent m') (b :: rest) := by
  induction rest generalizing b with
  | nil => exact .singleton b
  | cons c rest ih =>
    rw [List.isChain_cons_cons] at hchain ⊢
    obtain ⟨hadj, hchain⟩ := hchain
    rw [List.dropLast_cons_cons] at hnext
    refine ⟨⟨?_, ?_⟩, ih hchain (fun x hx => hnext x (List.mem_cons_of_mem b hx))
      fun y hy => hprev y (List.mem_cons_of_mem c hy)⟩
    · rw [hnext b (by simp), hadj.1]
    · rw [hprev c (by simp), hadj.2]

/-- A new element between the first member and its successor. -/
theorem IsRing.insert {m m' : Heap α} {a e : α} {xs : List α} [DecidableEq α]
    (h : IsRing m (a :: xs)) (he : e ∉ a :: xs)
    (hnext : ∀ x, nextOf m' x =
      if x = a then some e else if x = e then nextOf m a else nextOf m x)
    (hprev : ∀ x, prevOf m' x =
      if x = e then some a else if nextOf m a = some x then some e else prevOf m x) :
    IsRing m' (a :: e :: xs) := by
  obtain ⟨b, rest, hrest⟩ : ∃ b rest, xs ++ [a] = b :: rest := by
    cases xs with
    | nil => exact ⟨a, [], rfl⟩
    | cons b xs => exact ⟨b, xs ++ [a], rfl⟩
  obtain ⟨hnodup, hchain⟩ := h
  rw [List.cons_append, hrest, List.isChain_cons_cons] at hchain
  obtain ⟨⟨hab, -⟩, hchain⟩ := hchain
  have hperm : (b :: rest).Perm (a :: xs) := hrest ▸ List.perm_append_comm
  have hnodup' : (b :: rest).Nodup := hperm.nodup_iff.mpr hnodup
  have he' : e ∉ b :: rest := fun hmem => he (hperm.mem_iff.mp hmem)
  have hne : a ≠ e := fun heq => he (by simp [heq])
  have hbe : b ≠ e := fun heq => he' (by simp [heq])
  refine ⟨?_, ?_⟩
  · rw [List.nodup_cons, List.nodup_cons] at *
    simp only [List.mem_cons, not_or] at he ⊢
    tauto
  · rw [List.cons_append, List.cons_append, hrest, List.isChain_cons_cons,
      List.isChain_cons_cons]
    refine ⟨⟨by simp [hnext], by simp [hprev]⟩, ⟨by simp [hnext, hne.symm, hab], ?_⟩, ?_⟩
    · simp [hprev, hbe, hab]
    · -- past the new element every link is an old one: its source is not `a`
      -- (which stands last) and its target is not the old successor
      refine isChain_frame hchain (fun x hx => ?_) fun y hy => ?_
      · have hxa : x ≠ a := by
          rintro rfl
          rw [← hrest, List.dropLast_concat] at hx
          exact (List.nodup_cons.mp hnodup).1 hx
        have hxe : x ≠ e := fun heq => he' (heq ▸ List.dropLast_subset _ hx)
        simp [hnext, hxa, hxe]
      · have hye : y ≠ e := fun heq => he' (heq ▸ List.mem_cons_of_mem b hy)
        have hyb : b ≠ y := fun heq => (List.nodup_cons.mp hnodup').1 (heq ▸ hy)
        simp [hprev, hye, hab, hyb]

/-- The second member leaves the ring. -/
theorem IsRing.remove {m m' : Heap α} {a e : α} {xs : List α} [DecidableEq α]
    (h : IsRing m (a :: e :: xs))
    (hnext : ∀ x, x ≠ e → nextOf m' x = if x = a then nextOf m e else nextOf m x)
    (hprev : ∀ x, x ≠ e → prevOf m' x = if nextOf m e = some x then some a else prevOf m x) :
    IsRing m' (a :: xs) := by
  obtain ⟨b, rest, hrest⟩ : ∃ b rest, xs ++ [a] = b :: rest := by
    cases xs with
    | nil => exact ⟨a, [], rfl⟩
    | cons b xs => exact ⟨b, xs ++ [a], rfl⟩
  obtain ⟨hnodup, hchain⟩ := h
  rw [List.cons_append, List.cons_append, hrest, List.isChain_cons_cons, List.isChain_cons_cons]
    at hchain
  obtain ⟨-, ⟨heb, -⟩, hchain⟩ := hchain
  have hperm : (e :: b :: rest).Perm (a :: e :: xs) := by
    rw [← hrest, ← List.cons_append]
    exact List.perm_append_comm
  obtain ⟨he, hnodup'⟩ := List.nodup_cons.mp (hperm.nodup_iff.mpr hnodup)
  obtain ⟨ha, hmembers⟩ := List.nodup_cons.mp hnodup
  have hae : a ≠ e := fun heq => ha (heq ▸ List.mem_cons_self)
  have hbe : b ≠ e := fun heq => he (heq ▸ List.mem_cons_self)
  refine ⟨List.nodup_cons.mpr ⟨fun hmem => ha (List.mem_cons_of_mem e hmem),
    (List.nodup_cons.mp hmembers).2⟩, ?_⟩
  rw [List.cons_append, hrest, List.isChain_cons_cons]
  refine ⟨⟨by simp [hnext a hae, heb], by simp [hprev b hbe, heb]⟩, ?_⟩
  refine isChain_frame hchain (fun x hx => ?_) fun y hy => ?_
  · have hxa : x ≠ a := by
      rintro rfl
      rw [← hrest, List.dropLast_concat] at hx
      exact ha (List.mem_cons_of_mem e hx)
    have hxe : x ≠ e := fun heq => he (heq ▸ List.dropLast_subset _ hx)
    simp [hnext x hxe, hxa]
  · have hye : y ≠ e := fun heq => he (heq ▸ List.mem_cons_of_mem b hy)
    have hby : b ≠ y := fun heq => (List.nodup_cons.mp hnodup').1 (heq ▸ hy)
    simp [hprev y hye, heb, hby]

end SmtpMta.Library.Ring
