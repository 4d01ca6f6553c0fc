import SmtpMta.Common.TreeIteration
import SmtpMta.Common.TreeLinks

/-! The end of a dictionary. `dict_free` gives back the nodes of the tree. The node that
a call made for a key that was there is not in the tree, and stays allocated. -/
namespace SmtpMta.Common.DictRelease
open Library.CString Library.SearchTree Library.Ring Library.Trace
open ListHead RedBlackTree TreeRotation TreeRepair TreeSearch TreeInsert Dictionary TreeIteration
open TreeLinks

variable {V : Type}

def dictFree (dict : Dict V) : Option (Dict V) := do
  let nodes ← freeTreeNode dict.mem.bound dict.mem.nodes dict.root
  some { dict with mem := { dict.mem with nodes }, root := none, size := 0 }

section Allocations
variable {m m' : Nodes V} {root root' : Option Addr} {node p : Addr} {d : Dir}

theorem write_isSome {a : Addr} {f : TreeNode V → TreeNode V} (h : write m a f = some m') (x : Addr) :
    (m' x).isSome = (m x).isSome := by
  obtain ⟨n, hn, rfl⟩ := Option.map_eq_some_iff.mp h
  by_cases hx : x = a
  · simp [hx, hn]
  · simp [hx]

theorem rotate_isSome (h : rotate d m root node = some (m', root')) (x : Addr) :
    (m' x).isSome = (m x).isSome := by
  simp only [rotate, rotateLinks, Option.bind_eq_bind, Option.bind_eq_some_iff] at h
  obtain ⟨n, -, pivot, -, m₆, ⟨_, -, m₁, h₁, m₂, h₂, m₃, h₃, _, -, m₄, h₄, m₅, h₅, h₆⟩, hreplace⟩ := h
  have hlinks : (m₆ x).isSome = (m x).isSome := by
    rw [write_isSome h₆, write_isSome h₅, write_isSome h₄, write_isSome h₃, write_isSome h₂,
      write_isSome h₁]
  unfold replaceChild at hreplace
  split at hreplace
  · obtain ⟨rfl, -⟩ := Prod.mk.inj (Option.some.inj hreplace)
    exact hlinks
  · obtain ⟨_, -, hreplace⟩ := Option.bind_eq_some_iff.mp hreplace
    obtain ⟨m₇, h₇, hreplace⟩ := Option.bind_eq_some_iff.mp hreplace
    obtain ⟨rfl, -⟩ := Prod.mk.inj (Option.some.inj hreplace)
    rw [write_isSome h₇, hlinks]

theorem rotations_isSome {e : Dir} {gp node' : Addr} {inner : Prop} [Decidable inner]
    (hturn : (if inner then
        (rotate d m root p).bind fun x =>
          (rotate e x.1 x.2 gp).bind fun x => some (x.1, x.2, node)
      else (some (m, root)).bind fun x =>
          (rotate e x.1 x.2 gp).bind fun x => some (x.1, x.2, node)) =
      some (m', root', node')) (x : Addr) : (m' x).isSome = (m x).isSome := by
  have hlast {m : Nodes V} {root : Option Addr}
      (h : ((rotate e m root gp).bind fun x => some (x.1, x.2, node)) = some (m', root', node')) :
      (m' x).isSome = (m x).isSome := by
    obtain ⟨⟨m₁, root₁⟩, hrotate, hresult⟩ := Option.bind_eq_some_iff.mp h
    obtain ⟨rfl, -⟩ := Prod.mk.inj (Option.some.inj hresult)
    exact rotate_isSome hrotate x
  split at hturn
  · obtain ⟨⟨m₁, root₁⟩, hinner, houter⟩ := Option.bind_eq_some_iff.mp hturn
    rw [hlast houter, rotate_isSome hinner]
  · exact hlast hturn

theorem fixStep_isSome {node' : Addr} (h : fixStep m root node p = some (m', root', node'))
    (x : Addr) : (m' x).isSome = (m x).isSome := by
  simp only [fixStep, Option.bind_eq_bind, Option.bind_eq_some_iff] at h
  obtain ⟨np, -, gp, -, uncle, -, h⟩ := h
  split at h
  · simp only [Option.bind_eq_some_iff] at h
    obtain ⟨m₁, h₁, m₂, h₂, m₃, h₃, hresult⟩ := h
    obtain ⟨rfl, -⟩ := Prod.mk.inj (Option.some.inj hresult)
    rw [write_isSome h₃, write_isSome h₂, write_isSome h₁]
  · obtain ⟨ng, -, h⟩ := Option.bind_eq_some_iff.mp h
    split at h
    · obtain ⟨np', -, hturn⟩ := Option.bind_eq_some_iff.mp h
      exact rotations_isSome hturn x
    · obtain ⟨np', -, hturn⟩ := Option.bind_eq_some_iff.mp h
      exact rotations_isSome hturn x

theorem fixLoop_isSome {bound : Nat} (h : fixLoop bound m root node = some (m', root')) (x : Addr) :
    (m' x).isSome = (m x).isSome := by
  induction bound generalizing m root node with
  | zero => simp [fixLoop] at h
  | succ bound ih =>
    obtain ⟨parent, -, h⟩ := Option.bind_eq_some_iff.mp h
    cases parent with
    | none =>
      obtain ⟨rfl, -⟩ := Prod.mk.inj (Option.some.inj h)
      rfl
    | some p =>
      obtain ⟨⟨m₁, root₁, node₁⟩, hstep, h⟩ := Option.bind_eq_some_iff.mp h
      rw [ih h, fixStep_isSome hstep]

theorem fixAfterInsert_isSome {bound : Nat} (h : fixAfterInsert bound m root node = some (m', root'))
    (x : Addr) : (m' x).isSome = (m x).isSome := by
  obtain ⟨⟨m₁, root₁⟩, hloop, h⟩ := Option.bind_eq_some_iff.mp h
  obtain ⟨top, -, h⟩ := Option.bind_eq_some_iff.mp h
  obtain ⟨m₂, hwrite, h⟩ := Option.bind_eq_some_iff.mp h
  obtain ⟨rfl, -⟩ := Prod.mk.inj (Option.some.inj h)
  rw [write_isSome hwrite, fixLoop_isSome hloop]

variable {mem mem' : Memory V}

theorem linkNode_isSome {parent : Option (Addr × Dir)}
    (h : linkNode mem root node parent = some (mem', root')) :
    (∀ x, (mem'.nodes x).isSome = (mem.nodes x).isSome) ∧ mem'.brk = mem.brk ∧ mem'.oom = mem.oom := by
  cases parent with
  | none =>
    obtain ⟨m₂, h₂, h⟩ := Option.bind_eq_some_iff.mp h
    obtain ⟨m₃, h₃, h⟩ := Option.bind_eq_some_iff.mp h
    obtain ⟨lists, -, h⟩ := Option.bind_eq_some_iff.mp h
    obtain ⟨rfl, -⟩ := Prod.mk.inj (Option.some.inj h)
    exact ⟨fun x => (write_isSome h₃ x).trans (write_isSome h₂ x), rfl, rfl⟩
  | some parent =>
    obtain ⟨⟨m₁, root₁⟩, hparent, h⟩ := Option.bind_eq_some_iff.mp h
    obtain ⟨m, h₁, hparent⟩ := Option.map_eq_some_iff.mp hparent
    obtain ⟨rfl, -⟩ := Prod.mk.inj hparent
    obtain ⟨m₂, h₂, h⟩ := Option.bind_eq_some_iff.mp h
    obtain ⟨m₃, h₃, h⟩ := Option.bind_eq_some_iff.mp h
    obtain ⟨lists, -, h⟩ := Option.bind_eq_some_iff.mp h
    obtain ⟨rfl, -⟩ := Prod.mk.inj (Option.some.inj h)
    refine ⟨fun x => ?_, rfl, rfl⟩
    exact (write_isSome h₃ x).trans ((write_isSome h₂ x).trans (write_isSome h₁ x))

theorem insertTreeNode_isSome (h : insertTreeNode mem root node = some (mem', root')) :
    (∀ x, (mem'.nodes x).isSome = (mem.nodes x).isSome) ∧ mem'.brk = mem.brk ∧ mem'.oom = mem.oom := by
  obtain ⟨new, -, h⟩ := Option.bind_eq_some_iff.mp h
  obtain ⟨slot, -, h⟩ := Option.bind_eq_some_iff.mp h
  cases slot with
  | found pp =>
    obtain ⟨m, hwrite, h⟩ := Option.bind_eq_some_iff.mp h
    obtain ⟨rfl, -⟩ := Prod.mk.inj (Option.some.inj h)
    exact ⟨write_isSome hwrite, rfl, rfl⟩
  | vacant parent =>
    obtain ⟨⟨mem₁, root₁⟩, hlink, h⟩ := Option.bind_eq_some_iff.mp h
    obtain ⟨⟨m, root₂⟩, hfix, h⟩ := Option.bind_eq_some_iff.mp h
    obtain ⟨rfl, -⟩ := Prod.mk.inj (Option.some.inj h)
    obtain ⟨hnodes, hbrk, hoom⟩ := linkNode_isSome hlink
    exact ⟨fun x => (fixAfterInsert_isSome hfix x).trans (hnodes x), hbrk, hoom⟩

theorem dictSet_isSome {dict dict' : Dict V} {key : Bytes} {value : V} {r : Int}
    (h : dictSet dict key value = some (r, dict')) :
    (∀ x, (dict'.mem.nodes x).isSome ↔
      x = dict.mem.brk ∧ dict.mem.oom x = false ∨ (dict.mem.nodes x).isSome) ∧
      dict'.mem.brk = dict.mem.brk + 1 := by
  cases hoom : dict.mem.oom dict.mem.brk with
  | true =>
    obtain ⟨-, rfl⟩ :
        -1 = r ∧ { dict with mem := { dict.mem with brk := dict.mem.brk + 1 } } = dict' := by
      simpa [dictSet, makeTreeNode, hoom] using h
    refine ⟨fun x => (or_iff_right ?_).symm, rfl⟩
    rintro ⟨rfl, hnot⟩
    simp [hoom] at hnot
  | false =>
    obtain ⟨⟨mem, node⟩, hmake, h⟩ := Option.bind_eq_some_iff.mp h
    obtain ⟨lists, hmade, -⟩ := makeTreeNode_spec hoom key value
    obtain ⟨rfl, rfl⟩ := Prod.mk.inj (Option.some.inj (hmade.symm.trans hmake))
    obtain ⟨⟨mem', root'⟩, hinsert, h⟩ := Option.bind_eq_some_iff.mp h
    obtain ⟨-, rfl⟩ := Prod.mk.inj (Option.some.inj h)
    obtain ⟨hnodes, hbrk, -⟩ := insertTreeNode_isSome hinsert
    refine ⟨fun x => ?_, hbrk⟩
    rw [hnodes]
    by_cases hx : x = dict.mem.brk
    · simp [hx, hoom]
    · simp [hx]

end Allocations

section Tree
variable {dict dict' : Dict V} {t : Skeleton Addr} {members members' : List Addr} {key : Bytes}
  {value : V}

theorem ringed_perm {lists : Lists} {a : Addr} (h : Ringed lists members)
    (h' : Ringed lists members') (ha : a ∈ members) (ha' : a ∈ members') : members.Perm members' := by
  have hring {xs : List Addr} (h : Ringed lists xs) (ha : a ∈ xs) :
      ∃ rest, IsRing lists (a :: rest) ∧ (a :: rest).Perm xs := by
    rcases h with rfl | ⟨ring, hisring, hperm⟩
    · simp at ha
    · obtain ⟨rest, hfrom, hrest⟩ := hisring.from_member (hperm.mem_iff.mpr ha)
      exact ⟨rest, hfrom, hrest.trans hperm⟩
  obtain ⟨rest, hisring, hperm⟩ := hring h ha
  obtain ⟨rest', hisring', hperm'⟩ := hring h' ha'
  refine hperm.symm.trans (List.Perm.trans ?_ hperm')
  rw [List.perm_ext_iff_of_nodup hisring.nodup hisring'.nodup]
  exact fun b => hisring.reaches_iff.symm.trans hisring'.reaches_iff

theorem Sound.perm (h : Sound dict t) (h' : Threaded dict members) : members.Perm t.inorder := by
  have hroot := h.spells.root_eq
  cases t with
  | nil => rw [h'.rooted hroot]; exact .nil
  | node left a right =>
    have hmem : a ∈ members := h'.confined.root a hroot
    exact ringed_perm h'.ring h.ring hmem (by simp [Skeleton.inorder])

theorem WellFormed.dictFree (h : WellFormed dict t) :
    ∃ dict', DictRelease.dictFree dict = some dict' ∧ (∀ a ∈ t.inorder, dict'.mem.nodes a = none) ∧
      ∀ a, a ∉ t.inorder → dict'.mem.nodes a = dict.mem.nodes a := by
  obtain ⟨nodes, hfree, hgone, hkept⟩ := freeTreeNode_spec h.spells.shaped h.spells.nodup
    h.spells.alloc h.length_lt_bound
  refine ⟨{ dict with mem := { dict.mem with nodes }, root := none, size := 0 }, ?_, hgone, hkept⟩
  rw [DictRelease.dictFree, h.spells.root_eq, hfree]
  rfl

theorem WellFormed.foreach (h : WellFormed dict t) :
    ∃ visited, treeForeach dict.mem dict.root = some visited ∧ visited.Perm t.inorder := by
  let bare : Dict V := { dict with mem := { dict.mem with nodes := fun _ => none } }
  have hroot := h.spells.root_eq
  have hthreaded : Threaded bare t.inorder := by
    refine ⟨⟨fun a _ n hn => (by cases hn), fun top htop => ?_⟩, fun hnone => ?_, h.ring, h.below⟩
    · change dict.root = some top at htop
      cases t with
      | nil => rw [hroot] at htop; cases htop
      | node left a right =>
        obtain rfl : a = top := Option.some.inj (hroot.symm.trans htop)
        simp [Skeleton.inorder]
    · change dict.root = none at hnone
      cases t with
      | nil => rfl
      | node left a right => rw [hroot] at hnone; cases hnone
  obtain ⟨visited, hforeach, -, hperm⟩ := hthreaded.foreach
  exact ⟨visited, hforeach, hperm⟩

theorem WellFormed.locate_cases (h : WellFormed dict t) (key : Bytes) :
    (∃ a, t.locate (orderAt dict.mem.nodes) (order key) [] = .inl a ∧
      ∃ v, Binds dict.mem.nodes t.inorder (cstr key) v) ∨
    ∃ fs, t.locate (orderAt dict.mem.nodes) (order key) [] = .inr fs ∧
      ∀ v, ¬Binds dict.mem.nodes t.inorder (cstr key) v := by
  have hsearch := (descend_eq key h.spells.shaped h.spells.alloc h.length_lt_bound []).1
  rw [← h.spells.root_eq, pathOf_nil, List.head?_nil] at hsearch
  obtain ⟨found, hfind, hfound⟩ := h.find key
  rw [findTreeNode_eq_descend _ _ _ _ none, hsearch] at hfind
  cases hlocate : t.locate (orderAt dict.mem.nodes) (order key) [] with
  | inl a =>
    rw [hlocate] at hfind
    obtain rfl : some a = found := Option.some.inj hfind
    obtain ⟨n, -, hvalue⟩ := hfound
    exact .inl ⟨a, rfl, n.value, (hvalue n.value).mpr rfl⟩
  | inr fs =>
    rw [hlocate] at hfind
    obtain rfl : none = found := Option.some.inj hfind
    exact .inr ⟨fs, rfl, hfound⟩

theorem WellFormed.keyLinked (h : WellFormed dict t)
    (hbound : ∃ v, Binds dict.mem.nodes t.inorder (cstr key) v) :
    Dictionary.keyLinked dict key = true := by
  have hpath := (descend_eq key h.spells.shaped h.spells.alloc h.length_lt_bound []).2
  rw [← h.spells.root_eq, pathOf_nil] at hpath
  obtain ⟨a, hlocate, -⟩ | ⟨fs, -, hfree⟩ := WellFormed.locate_cases h key
  · rw [Dictionary.keyLinked, hpath, hlocate]
    rfl
  · obtain ⟨v, hbinds⟩ := hbound
    exact absurd hbinds (hfree v)

theorem WellFormed.linkedNode_eq (h : WellFormed dict t) (hkey : NulFree key)
    (hlen : key.length < treeKeyMaxLen) (value : V) :
    (linkedNode dict key value = none ∧ ∃ v, Binds dict.mem.nodes t.inorder key v) ∨
      (linkedNode dict key value = some dict.mem.brk ∧
        ∀ v, ¬Binds dict.mem.nodes t.inorder key v) := by
  obtain ⟨mem, hmake, hprep⟩ := h.makeTreeNode hkey hlen value
  obtain ⟨n, hn, hnkey, -, -, -⟩ := hprep.new
  have hdescend := (descend_eq n.key hprep.spells.shaped hprep.spells.alloc
    (Nat.lt_of_succ_lt hprep.length) []).1
  rw [order_injective.mpr hnkey, Skeleton.locate_congr hprep.orderAt, ← h.spells.root_eq,
    pathOf_nil, List.head?_nil] at hdescend
  have hcases := WellFormed.locate_cases h key
  rw [cstr_of_nulFree hkey] at hcases
  refine hcases.imp ?_ ?_
  · rintro ⟨a, hlocate, hbound⟩
    rw [hlocate] at hdescend
    exact ⟨by simp [linkedNode, hmake, hn, hdescend], hbound⟩
  · rintro ⟨fs, hlocate, hfree⟩
    rw [hlocate] at hdescend
    exact ⟨by simp [linkedNode, hmake, hn, hdescend], hfree⟩

end Tree

section Run

/-- The key of this call was set by an earlier one. -/
def Repeats (calls : List (Bytes × V)) (a : Addr) : Prop :=
  ∃ call ∈ calls[a]?, call.1 ∈ (calls.take a).map Prod.fst

theorem lastSet_eq_none {calls : List (Bytes × V)} {key : Bytes} :
    lastSet calls key = none ↔ key ∉ calls.map Prod.fst := by
  rw [lastSet, Option.map_eq_none_iff, List.getLast?_eq_none_iff, List.filter_eq_nil_iff,
    List.mem_map]
  constructor
  · rintro h ⟨call, hmem, rfl⟩
    exact h call hmem (decide_eq_true rfl)
  · exact fun h call hmem hkey => h ⟨call, hmem, of_decide_eq_true hkey⟩

theorem repeats_concat {calls : List (Bytes × V)} {call : Bytes × V} {a : Addr} :
    Repeats (calls ++ [call]) a ↔
      if a = calls.length then call.1 ∈ calls.map Prod.fst else Repeats calls a := by
  rcases Nat.lt_trichotomy a calls.length with hlt | rfl | hgt
  · rw [if_neg hlt.ne, Repeats, Repeats, List.getElem?_append_left hlt,
      List.take_append_of_le_length hlt.le]
  · simp [Repeats]
  · rw [if_neg hgt.ne', Repeats, Repeats, List.getElem?_eq_none (by simpa using Nat.succ_le_of_lt hgt),
      List.getElem?_eq_none hgt.le]
    simp

/-- The node of each call is at its number, and it is in the tree if the key was new. -/
structure Accounted (calls : List (Bytes × V)) (dict : Dict V) (t : Skeleton Addr)
    (members : List Addr) : Prop where
  wellFormed : WellFormed dict t
  threaded : Threaded dict members
  binds : ∀ key value, Binds dict.mem.nodes t.inorder key value ↔ lastSet calls key = some value
  brk : dict.mem.brk = calls.length
  allocated : ∀ a, (dict.mem.nodes a).isSome ↔ a < calls.length
  linked : ∀ a, a ∈ members ↔ a < calls.length ∧ ¬Repeats calls a

theorem accounted_init {oom : Addr → Bool} (hoom : ∀ a, oom a = false) :
    Accounted ([] : List (Bytes × V)) (dictInit (Memory.fresh oom)) .nil [] where
  wellFormed := dictInit_wellFormed oom hoom
  threaded := dictInit_threaded oom
  binds := by simp [Binds, Skeleton.inorder, lastSet]
  brk := rfl
  allocated := by simp [dictInit, Memory.fresh]
  linked := by simp

theorem Accounted.step {calls : List (Bytes × V)} {dict : Dict V} {t : Skeleton Addr}
    {members : List Addr} (h : Accounted calls dict t members) {key : Bytes} (hkey : NulFree key)
    (hlen : key.length < treeKeyMaxLen) (hclimb : keyLinked dict key = true) (value : V) :
    ∃ dict' t' members', dictSet dict key value = some (0, dict') ∧
      Accounted (calls ++ [(key, value)]) dict' t' members' := by
  obtain ⟨dict', t', hset, hwf, hrebound⟩ := h.wellFormed.dictSet hkey hlen hclimb value
  obtain ⟨hallocated, hbrk⟩ := dictSet_isSome hset
  have hlength : (calls ++ [(key, value)]).length = calls.length + 1 := by simp
  refine ⟨dict', t', _, hset, hwf, h.threaded.dictSet hset, fun k v => ?_, ?_, fun a => ?_,
    fun a => ?_⟩
  · rw [hrebound, lastSet_concat, cstr_of_nulFree hkey]
    split
    · simp [eq_comm]
    · exact h.binds k v
  · rw [hbrk, h.brk, hlength]
  · rw [hallocated, h.allocated, h.brk, h.wellFormed.noOom, hlength, Nat.lt_succ_iff_lt_or_eq]
    simp [or_comm]
  · rw [repeats_concat, hlength, List.mem_append, h.linked]
    have hnew : linkedNode dict key value = none ∧ key ∈ calls.map Prod.fst ∨
        linkedNode dict key value = some calls.length ∧ key ∉ calls.map Prod.fst := by
      rw [← h.brk]
      refine (WellFormed.linkedNode_eq h.wellFormed hkey hlen value).imp ?_ ?_
      · rintro ⟨hnone, v, hbinds⟩
        refine ⟨hnone, ?_⟩
        by_contra hnot
        rw [h.binds, lastSet_eq_none.mpr hnot] at hbinds
        cases hbinds
      · rintro ⟨hsome, hfree⟩
        refine ⟨hsome, lastSet_eq_none.mp (Option.eq_none_iff_forall_not_mem.mpr fun v hv => ?_)⟩
        exact hfree v ((h.binds key v).mpr hv)
    rcases hnew with ⟨hnone, hmem⟩ | ⟨hsome, hmem⟩
    · by_cases ha : a = calls.length
      · simp [hnone, ha, hmem]
      · have hlt : a < calls.length + 1 ↔ a < calls.length :=
          Nat.lt_succ_iff_lt_or_eq.trans (or_iff_left ha)
        simp [hnone, ha, hlt]
    · by_cases ha : a = calls.length
      · simp [hsome, ha, hmem]
      · have hlt : a < calls.length + 1 ↔ a < calls.length :=
          Nat.lt_succ_iff_lt_or_eq.trans (or_iff_left ha)
        simp [hsome, ha, hlt]

theorem accounted_run {oom : Addr → Bool} (hoom : ∀ a, oom a = false) {calls : List (Bytes × V)}
    (hkeys : ∀ call ∈ calls, NulFree call.1 ∧ call.1.length < treeKeyMaxLen)
    (hlinked : (dictMachine V).Throughout (fun dict call => keyLinked dict call.1 = true)
      (dictInit (Memory.fresh oom)) calls) :
    ∃ history dict t members, (dictMachine V).exec (dictInit (Memory.fresh oom)) calls =
      some (history, dict) ∧ Accounted calls dict t members := by
  let Inv (history : List (Step (Dict V) (Bytes × V) Int)) (dict : Dict V) : Prop :=
    ∃ t members, Accounted (history.map Step.input) dict t members
  have hinit : Inv [] (dictInit (Memory.fresh oom)) := ⟨.nil, [], accounted_init hoom⟩
  have hstep : ∀ history dict call, Inv history dict →
      (keyLinked dict call.1 = true ∧ NulFree call.1 ∧ call.1.length < treeKeyMaxLen) →
      ∃ o dict', (dictMachine V).step dict call = some (o, dict') ∧
        Inv (history ++ [⟨dict, call, o, dict'⟩]) dict' := by
    rintro history dict ⟨key, value⟩ ⟨t, members, haccounted⟩ ⟨hclimb, hkey, hlen⟩
    obtain ⟨dict', t', members', hset, haccounted'⟩ := haccounted.step hkey hlen hclimb value
    refine ⟨0, dict', hset, t', members', ?_⟩
    rw [List.map_append, List.map_singleton]
    exact haccounted'
  obtain ⟨history, dict, hexec, ⟨t, members, haccounted⟩, -⟩ :=
    Machine.exec_invariant hstep hinit (hlinked.and_inputs hkeys)
  rw [List.nil_append, (Machine.exec_inputs hexec).2 fun _ _ => rfl] at haccounted
  exact ⟨history, dict, t, members, hexec, haccounted⟩

/-- After any calls with right parent pointers, `dict_free` gives back the node of every
call that was the first for its key, and leaves the nodes of all other calls. -/
theorem dict_free_leaks {oom : Addr → Bool} (hoom : ∀ a, oom a = false) (calls : List (Bytes × V))
    (hkeys : ∀ call ∈ calls, NulFree call.1 ∧ call.1.length < treeKeyMaxLen)
    (hlinked : (dictMachine V).Throughout (fun dict call => keyLinked dict call.1 = true)
      (dictInit (Memory.fresh oom)) calls) :
    ∃ history dict dict', (dictMachine V).exec (dictInit (Memory.fresh oom)) calls =
      some (history, dict) ∧ dictFree dict = some dict' ∧
      ∀ a, (dict'.mem.nodes a).isSome ↔ Repeats calls a := by
  obtain ⟨history, dict, t, members, hexec, haccounted⟩ := accounted_run hoom hkeys hlinked
  obtain ⟨dict', hfree, hgone, hkept⟩ := WellFormed.dictFree haccounted.wellFormed
  refine ⟨history, dict, dict', hexec, hfree, fun a => ?_⟩
  have hperm := Sound.perm haccounted.wellFormed.sound haccounted.threaded
  have hrange (hrepeats : Repeats calls a) : a < calls.length := by
    obtain ⟨call, hcall, -⟩ := hrepeats
    exact (List.getElem?_eq_some_iff.mp hcall).1
  by_cases ha : a ∈ t.inorder
  · have hfirst := (haccounted.linked a).mp (hperm.mem_iff.mpr ha)
    simp [hgone a ha, hfirst.2]
  · have hnot := mt (haccounted.linked a).mpr (mt hperm.mem_iff.mp ha)
    rw [hkept a ha, haccounted.allocated]
    exact ⟨fun hlt => by_contra fun hfirst => hnot ⟨hlt, hfirst⟩, hrange⟩

/-- The second value of a key goes to the node of the first. -/
theorem dict_free_leaks_calls :
    ∃ history dict dict', (dictMachine Nat).exec (dictInit (Memory.fresh fun _ => false)) mapCalls =
      some (history, dict) ∧ dictFree dict = some dict' ∧
      ∀ a, (dict'.mem.nodes a).isSome ↔ Repeats mapCalls a :=
  dict_free_leaks (fun _ => rfl) mapCalls (by decide) (by decide +kernel)

end Run

end SmtpMta.Common.DictRelease
