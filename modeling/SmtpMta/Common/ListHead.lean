import SmtpMta.Library.Ring
import Mathlib.Data.List.Perm.Subperm

/-! The intrusive list of `list.h`. An object that embeds a `list_head` is
addressed by it, so `container_of` changes nothing here. -/
namespace SmtpMta.Common.ListHead
open Library.Ring

abbrev Addr := Nat

/-- All `list_head` records in memory. -/
abbrev Lists := Heap Addr

def listInit (m : Lists) (head : Addr) : Option Lists := do
  let m ← setNext m head (some head)
  setPrev m head (some head)

/-- `__list_add`: the element goes between two neighbours. -/
def listAddBetween (m : Lists) (prev next element : Addr) : Option Lists := do
  let m ← setPrev m element (some prev)
  let m ← setNext m element (some next)
  let m ← setNext m prev (some element)
  setPrev m next (some element)

def listAdd (m : Lists) (head element : Addr) : Option Lists := do
  listAddBetween m head (← nextOf m head) element

def listAddTail (m : Lists) (head element : Addr) : Option Lists := do
  listAddBetween m (← prevOf m head) head element

/-- `__list_del`: two members become neighbours. -/
def listDelBetween (m : Lists) (prev next : Addr) : Option Lists := do
  let m ← setNext m prev (some next)
  setPrev m next (some prev)

def listDel (m : Lists) (element : Addr) : Option Lists := do
  let m ← listDelBetween m (← prevOf m element) (← nextOf m element)
  let m ← setNext m element none
  setPrev m element none

/-- The positions `list_foreach` visits from `pos` on; the first argument
bounds their number. -/
def listForeach (m : Lists) (head : Addr) : Nat → Addr → Option (List Addr)
  | 0, _ => none
  | bound + 1, pos => do
      let next ← nextOf m pos
      if next ≠ head then
        let rest ← listForeach m head bound next
        some (pos :: rest)
      else some [pos]

theorem length_le_of_forall_lt {members : List Addr} {brk : Addr} (hnodup : members.Nodup)
    (h : ∀ a ∈ members, a < brk) : members.length ≤ brk := by
  have hsub : members ⊆ List.range brk := fun a ha => List.mem_range.mpr (h a ha)
  simpa using (hnodup.subperm hsub).length_le

theorem listInit_ring {m : Lists} {a : Addr} (ha : (m a).isSome) :
    ∃ m', listInit m a = some m' ∧ IsRing m' [a] ∧ (∀ x, (m' x).isSome = (m x).isSome) ∧
      ∀ x, x ≠ a → m' x = m x := by
  obtain ⟨m₁, h₁⟩ := exists_setNext ha (some a)
  obtain ⟨hnext₁, -, hsome₁, hframe₁⟩ := setNext_eq_some h₁
  obtain ⟨m₂, h₂⟩ := exists_setPrev (m := m₁) (a := a) (by rw [hsome₁, ha]) (some a)
  obtain ⟨hnext₂, hprev₂, hsome₂, hframe₂⟩ := setPrev_eq_some h₂
  refine ⟨m₂, by simp [listInit, h₁, h₂], ?_, ?_, ?_⟩
  · exact isRing_singleton.mpr ⟨by simp [hnext₂, hnext₁], by simp [hprev₂]⟩
  · intro x
    rw [hsome₂, hsome₁]
  · intro x hx
    rw [hframe₂ x hx, hframe₁ x hx]

theorem listAddBetween_effect {m : Lists} {prev next e : Addr} (hprev : (m prev).isSome)
    (hnext : (m next).isSome) (he : (m e).isSome) (hen : e ≠ next) :
    ∃ m', listAddBetween m prev next e = some m' ∧
      (∀ x, nextOf m' x = if x = prev then some e else if x = e then some next else nextOf m x) ∧
      (∀ x, prevOf m' x = if x = e then some prev else if x = next then some e else prevOf m x) ∧
      (∀ x, (m' x).isSome = (m x).isSome) ∧
      ∀ x, x ≠ e → x ≠ prev → x ≠ next → m' x = m x := by
  obtain ⟨m₁, h₁⟩ := exists_setPrev he (some prev)
  obtain ⟨n₁, p₁, s₁, f₁⟩ := setPrev_eq_some h₁
  obtain ⟨m₂, h₂⟩ := exists_setNext (m := m₁) (a := e) (by rw [s₁, he]) (some next)
  obtain ⟨n₂, p₂, s₂, f₂⟩ := setNext_eq_some h₂
  obtain ⟨m₃, h₃⟩ := exists_setNext (m := m₂) (a := prev) (by rw [s₂, s₁, hprev]) (some e)
  obtain ⟨n₃, p₃, s₃, f₃⟩ := setNext_eq_some h₃
  obtain ⟨m₄, h₄⟩ := exists_setPrev (m := m₃) (a := next) (by rw [s₃, s₂, s₁, hnext]) (some e)
  obtain ⟨n₄, p₄, s₄, f₄⟩ := setPrev_eq_some h₄
  refine ⟨m₄, by simp [listAddBetween, h₁, h₂, h₃, h₄], ?_, ?_, ?_, ?_⟩
  · intro x
    rw [n₄, n₃, n₂, n₁]
  · intro x
    rw [p₄, p₃, p₂, p₁]
    by_cases hxe : x = e
    · simp [hxe, hen]
    · simp [hxe]
  · intro x
    rw [s₄, s₃, s₂, s₁]
  · intro x hxe hxp hxn
    rw [f₄ x hxn, f₃ x hxp, f₂ x hxe, f₁ x hxe]

theorem listAdd_ring {m : Lists} {h e : Addr} {xs : List Addr} (hring : IsRing m (h :: xs))
    (he : e ∉ h :: xs) (hsome : (m e).isSome) :
    ∃ m', listAdd m h e = some m' ∧ IsRing m' (h :: e :: xs) ∧
      (∀ x, (m' x).isSome = (m x).isSome) ∧ ∀ x, x ∉ h :: e :: xs → m' x = m x := by
  have hnext := hring.nextOf_head
  have hmem : xs.headD h ∈ h :: xs := by cases xs <;> simp
  have hne : e ≠ xs.headD h := fun heq => he (heq ▸ hmem)
  obtain ⟨m', hadd, hn, hp, hs, hf⟩ := listAddBetween_effect
    (hring.isSome (a := h) (by simp)) (hring.isSome hmem) hsome hne
  refine ⟨m', by rw [listAdd, hnext]; exact hadd, hring.insert he ?_ ?_, hs, ?_⟩
  · intro x
    rw [hn, hnext]
  · intro x
    rw [hp, hnext]
    simp [eq_comm]
  · intro x hx
    simp only [List.mem_cons, not_or] at hx
    refine hf x hx.2.1 hx.1 ?_
    rintro rfl
    simp only [List.mem_cons] at hmem
    tauto

theorem listAddTail_ring {m : Lists} {h e : Addr} {xs : List Addr} (hring : IsRing m (h :: xs))
    (he : e ∉ h :: xs) (hsome : (m e).isSome) :
    ∃ m', listAddTail m h e = some m' ∧ IsRing m' (h :: xs ++ [e]) ∧
      (∀ x, (m' x).isSome = (m x).isSome) ∧ ∀ x, x ∉ h :: e :: xs → m' x = m x := by
  obtain ⟨init, last, hsplit⟩ : ∃ init last, h :: xs = init ++ [last] :=
    ⟨_, _, (List.dropLast_concat_getLast (List.cons_ne_nil h xs)).symm⟩
  have hlast : IsRing m (last :: init) := by
    rw [hsplit] at hring
    simpa using hring.rotate
  have hhead : init.headD last = h := by
    cases init with
    | nil => exact (List.cons.inj hsplit).1.symm
    | cons a init => simpa using (congrArg List.head? hsplit).symm
  have hprev : prevOf m h = some last := hhead ▸ (hsplit ▸ hring).prevOf_head
  have hmem (x : Addr) : x ∈ last :: init ↔ x ∈ h :: xs := by
    rw [hsplit]
    simp [or_comm]
  obtain ⟨m', hadd, hn, hp, hs, hf⟩ := listAddBetween_effect (hlast.isSome (a := last) (by simp))
    (hring.isSome (a := h) (by simp)) hsome (fun heq => he (by simp [heq]))
  have hafter : nextOf m last = some h := hhead ▸ hlast.nextOf_head
  have hinsert : IsRing m' (last :: e :: init) := by
    refine hlast.insert (fun hin => he ((hmem e).mp hin)) ?_ ?_
    · intro x
      rw [hn, hafter]
    · intro x
      rw [hp, hafter]
      simp [eq_comm]
  refine ⟨m', by simp [listAddTail, hprev, hadd], ?_, hs, ?_⟩
  · have hpair : IsRing m' ([last, e] ++ init) := hinsert
    rw [hsplit, List.append_assoc]
    exact hpair.rotate
  · intro x hx
    simp only [List.mem_cons, not_or] at hx
    refine hf x hx.2.1 ?_ hx.1
    rintro rfl
    have := (hmem x).mp (by simp)
    simp only [List.mem_cons] at this
    tauto

theorem listDel_effect {m : Lists} {prev next e : Addr} (hprev : prevOf m e = some prev)
    (hnext : nextOf m e = some next) (hp : (m prev).isSome) (hn : (m next).isSome)
    (he : (m e).isSome) :
    ∃ m', listDel m e = some m' ∧ nextOf m' e = none ∧ prevOf m' e = none ∧
      (∀ x, x ≠ e → nextOf m' x = if x = prev then some next else nextOf m x) ∧
      (∀ x, x ≠ e → prevOf m' x = if x = next then some prev else prevOf m x) ∧
      (∀ x, (m' x).isSome = (m x).isSome) ∧
      ∀ x, x ≠ e → x ≠ prev → x ≠ next → m' x = m x := by
  obtain ⟨m₁, h₁⟩ := exists_setNext hp (some next)
  obtain ⟨n₁, p₁, s₁, f₁⟩ := setNext_eq_some h₁
  obtain ⟨m₂, h₂⟩ := exists_setPrev (m := m₁) (a := next) (by rw [s₁, hn]) (some prev)
  obtain ⟨n₂, p₂, s₂, f₂⟩ := setPrev_eq_some h₂
  obtain ⟨m₃, h₃⟩ := exists_setNext (m := m₂) (a := e) (by rw [s₂, s₁, he]) none
  obtain ⟨n₃, p₃, s₃, f₃⟩ := setNext_eq_some h₃
  obtain ⟨m₄, h₄⟩ := exists_setPrev (m := m₃) (a := e) (by rw [s₃, s₂, s₁, he]) none
  obtain ⟨n₄, p₄, s₄, f₄⟩ := setPrev_eq_some h₄
  refine ⟨m₄, by simp [listDel, listDelBetween, hprev, hnext, h₁, h₂, h₃, h₄], ?_, ?_, ?_, ?_, ?_, ?_⟩
  · simp [n₄, n₃]
  · simp [p₄]
  · intro x hx
    rw [n₄, n₃, if_neg hx, n₂, n₁]
  · intro x hx
    rw [p₄, if_neg hx, p₃, p₂, p₁]
  · intro x
    rw [s₄, s₃, s₂, s₁]
  · intro x hxe hxp hxn
    rw [f₄ x hxe, f₃ x hxe, f₂ x hxn, f₁ x hxp]

theorem listDel_ring {m : Lists} {h e : Addr} {xs : List Addr} (hring : IsRing m (h :: xs))
    (he : e ∈ xs) :
    ∃ m', listDel m e = some m' ∧ IsRing m' (h :: xs.erase e) ∧ nextOf m' e = none ∧
      prevOf m' e = none ∧ (∀ x, (m' x).isSome = (m x).isSome) ∧
      ∀ x, x ∉ h :: xs → m' x = m x := by
  obtain ⟨left, right, rfl⟩ := List.append_of_mem he
  obtain ⟨init, prev, hsplit⟩ : ∃ init prev, h :: left = init ++ [prev] :=
    ⟨_, _, (List.dropLast_concat_getLast (List.cons_ne_nil h left)).symm⟩
  have hshape : h :: (left ++ e :: right) = init ++ prev :: e :: right := by
    rw [← List.cons_append, hsplit]
    simp
  -- the same ring from the member before the one that leaves
  have hrot : IsRing m (prev :: e :: (right ++ init)) := by
    rw [hshape] at hring
    simpa using hring.rotate
  have hmem (x : Addr) : x ∈ prev :: e :: (right ++ init) ↔ x ∈ h :: (left ++ e :: right) := by
    rw [hshape]
    simp only [List.mem_cons, List.mem_append]
    tauto
  have hnext : nextOf m e = some ((right ++ init ++ [prev]).headD e) := by
    have hone : IsRing m (e :: (right ++ init) ++ [prev]) := hrot.rotate_one
    exact hone.nextOf_head
  have hnextMem : (right ++ init ++ [prev]).headD e ∈ prev :: e :: (right ++ init) := by
    have hne : right ++ init ++ [prev] ≠ [] := by simp
    obtain ⟨b, rest, hb⟩ := List.exists_cons_of_ne_nil hne
    have hin : b ∈ right ++ init ++ [prev] := by simp [hb]
    rw [hb, List.headD_cons]
    simp only [List.mem_append, List.mem_cons, List.not_mem_nil, or_false] at hin ⊢
    tauto
  have hprev : prevOf m e = some prev := by
    have hlast : IsRing m (e :: (right ++ init) ++ [prev]) := hrot.rotate_one
    exact hlast.prevOf_head
  obtain ⟨m', hdel, hnone, hnone', hn, hp, hs, hf⟩ := listDel_effect hprev hnext
    (hrot.isSome (by simp)) (hrot.isSome hnextMem) (hrot.isSome (by simp))
  have hremove : IsRing m' (prev :: (right ++ init)) := by
    refine hrot.remove (fun x hx => ?_) fun x hx => ?_
    · rw [hn x hx, hnext]
    · rw [hp x hx, hnext]
      simp [eq_comm]
  refine ⟨m', hdel, ?_, hnone, hnone', hs, fun x hx => ?_⟩
  · have hnotin : e ∉ left := by
      intro hin
      have hnodup := (List.nodup_cons.mp hring.nodup).2
      exact (List.nodup_append.mp hnodup).2.2 e hin e (by simp) rfl
    have herase : h :: (left ++ e :: right).erase e = init ++ [prev] ++ right := by
      rw [List.erase_append_right _ hnotin, List.erase_cons_head, ← List.cons_append, hsplit]
    have hback : IsRing m' (prev :: right ++ init) := by simpa using hremove
    rw [herase]
    simpa using hback.rotate
  · rw [← hmem] at hx
    refine hf x ?_ ?_ ?_
    · rintro rfl
      exact hx (by simp)
    · rintro rfl
      exact hx (by simp)
    · rintro rfl
      exact hx hnextMem

theorem listForeach_ring {m : Lists} {h : Addr} {xs : List Addr} (hring : IsRing m (h :: xs))
    {bound : Nat} (hbound : xs.length < bound) :
    listForeach m h bound h = some (h :: xs) := by
  suffices hsuffix : ∀ (done rest : List Addr) (pos : Addr), h :: xs = done ++ pos :: rest →
      ∀ bound, rest.length < bound → listForeach m h bound pos = some (pos :: rest) from
    hsuffix [] xs h rfl bound hbound
  intro done rest
  induction rest generalizing done with
  | nil =>
    intro pos hsplit bound hbound
    obtain ⟨bound, rfl⟩ := Nat.exists_eq_succ_of_ne_zero (Nat.ne_of_gt hbound)
    have hnext : nextOf m pos = some h := hring.nextOf_of_split hsplit
    simp [listForeach, hnext]
  | cons next rest ih =>
    intro pos hsplit bound hbound
    obtain ⟨bound, rfl⟩ := Nat.exists_eq_succ_of_ne_zero (Nat.ne_of_gt (Nat.zero_lt_of_lt hbound))
    have hnext : nextOf m pos = some next := hring.nextOf_of_split hsplit
    have hsplit' : h :: xs = (done ++ [pos]) ++ next :: rest := by simpa using hsplit
    have hne : next ≠ h := hring.ne_head_of_split (by simp) hsplit'
    have hrest := ih (done ++ [pos]) next hsplit' bound (by simpa using Nat.lt_of_succ_lt_succ hbound)
    simp [listForeach, hnext, hne, hrest]

/-- From some records to others, only those of the ring and its element may differ. -/
def Untouched (m m' : Lists) (members : List Addr) : Prop :=
  (∀ x, x ∉ members → m' x = m x) ∧
    ∀ ys, IsRing m ys → ys.Disjoint members → IsRing m' ys

theorem untouched_of_frame {m m' : Lists} {members : List Addr}
    (h : ∀ x, x ∉ members → m' x = m x) : Untouched m m' members :=
  ⟨h, fun _ hring hdisjoint => hring.congr fun a ha => h a (hdisjoint ha)⟩

/-- The operations of the list take rings to rings, and a walk visits each member. -/
theorem list_ring (m : Lists) (h : Addr) (xs : List Addr) (hring : IsRing m (h :: xs)) :
    (∀ e, e ∉ h :: xs → (m e).isSome →
      (∃ m', listAdd m h e = some m' ∧ IsRing m' (h :: e :: xs) ∧ Untouched m m' (h :: e :: xs)) ∧
      ∃ m', listAddTail m h e = some m' ∧ IsRing m' (h :: xs ++ [e]) ∧
        Untouched m m' (h :: e :: xs)) ∧
    (∀ x ∈ xs, ∃ m', listDel m x = some m' ∧ IsRing m' (h :: xs.erase x) ∧
      Untouched m m' (h :: xs)) ∧
    ∀ done pos rest, h :: xs = done ++ pos :: rest → ∀ bound, xs.length < bound →
      listForeach m pos bound pos = some (pos :: rest ++ done) := by
  refine ⟨fun e he hsome => ⟨?_, ?_⟩, fun x hx => ?_, fun done pos rest hsplit bound hbound => ?_⟩
  · obtain ⟨m', hadd, hring', -, hframe⟩ := listAdd_ring hring he hsome
    exact ⟨m', hadd, hring', untouched_of_frame hframe⟩
  · obtain ⟨m', hadd, hring', -, hframe⟩ := listAddTail_ring hring he hsome
    exact ⟨m', hadd, hring', untouched_of_frame hframe⟩
  · obtain ⟨m', hdel, hring', -, -, -, hframe⟩ := listDel_ring hring hx
    exact ⟨m', hdel, hring', untouched_of_frame hframe⟩
  · have hlen := congrArg List.length hsplit
    have hrot : IsRing m (pos :: (rest ++ done)) := by
      rw [hsplit] at hring
      simpa using hring.rotate
    simp only [List.length_cons, List.length_append] at hlen
    exact listForeach_ring hrot (by rw [List.length_append]; omega)

def threeAndOne : Lists
  | 0 => some ⟨some 1, some 2⟩
  | 1 => some ⟨some 2, some 0⟩
  | 2 => some ⟨some 0, some 1⟩
  | 3 => some ⟨none, none⟩
  | _ => none

theorem list_ring_three :
    (∃ m', listDel threeAndOne 1 = some m' ∧ IsRing m' [0, 2]) ∧
      (∃ m', listAddTail threeAndOne 0 3 = some m' ∧ IsRing m' [0, 1, 2, 3]) ∧
      listForeach threeAndOne 1 3 1 = some [1, 2, 0] := by
  have hring : IsRing threeAndOne [0, 1, 2] :=
    ⟨by decide, .cons_cons ⟨rfl, rfl⟩ (.cons_cons ⟨rfl, rfl⟩ (.cons_cons ⟨rfl, rfl⟩ (.singleton _)))⟩
  obtain ⟨hadd, hdel, hforeach⟩ := list_ring threeAndOne 0 [1, 2] hring
  obtain ⟨m₁, hm₁, hring₁, -⟩ := hdel 1 (by decide)
  obtain ⟨-, m₂, hm₂, hring₂, -⟩ := hadd 3 (by decide) rfl
  exact ⟨⟨m₁, hm₁, hring₁⟩, ⟨m₂, hm₂, hring₂⟩, hforeach [0] 1 [2] rfl 3 (by decide)⟩

end SmtpMta.Common.ListHead
