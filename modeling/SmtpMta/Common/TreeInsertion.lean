import SmtpMta.Common.TreeLinks

/-! One insertion into a red-black tree. While the parent pointers are right the
repair dereferences nodes of the tree only, and the search order is kept. -/
namespace SmtpMta.Common.TreeInsertion
open Library.CString Library.SearchTree Library.RedBlack Library.ParentLinks Library.Ring
open ListHead RedBlackTree TreeRotation TreeRepair TreeSearch TreeInsert TreeBalance TreeLinks

variable {V : Type}

def pairs (m : Nodes V) (t : Skeleton Addr) : List (Bytes × V) :=
  t.inorder.filterMap (entryOf m)

/-- The memory holds a red-black search tree with right parent pointers, whose
nodes are in one iteration ring. -/
structure RedBlackAt (mem : Memory V) (root : Option Addr) (t : Skeleton Addr) : Prop where
  spells : Spells mem.nodes root t
  sorted : Sorted (orderAt mem.nodes) t.inorder
  redBlack : IsRedBlack (redIn mem.nodes) t
  parents : Parented (parentOf mem.nodes) none t
  ring : Ringed mem.lists t.inorder
  below : ∀ a ∈ t.inorder, a < mem.brk

/-- A node as `make_tree_node` returns it, outside the tree and with another key
than every node of the tree. -/
structure NewNode (mem : Memory V) (t : Skeleton Addr) (node : Addr) (n : TreeNode V) : Prop where
  stored : mem.nodes node = some n
  left : n.left = none
  right : n.right = none
  outside : node ∉ t.inorder
  listed : (mem.lists node).isSome
  below : node < mem.brk
  absent : ∀ a ∈ t.inorder, orderAt mem.nodes a ≠ order n.key

section Insert
variable {mem : Memory V} {root : Option Addr} {t : Skeleton Addr} {node : Addr} {n : TreeNode V}

theorem RedBlackAt.black (h : RedBlackAt mem root t) : root.bind (colorOf mem.nodes) ≠ some .r := by
  rw [h.spells.root_eq]
  cases htop : t.root with
  | none => simp
  | some top => simpa [redIn] using h.redBlack.root top htop

theorem NewNode.length (h : RedBlackAt mem root t) (hnew : NewNode mem t node n) :
    t.inorder.length + 1 < mem.bound := by
  have hnodup : (node :: t.inorder).Nodup := List.nodup_cons.mpr ⟨hnew.outside, h.spells.nodup⟩
  have hbelow : ∀ a ∈ node :: t.inorder, a < mem.brk :=
    List.forall_mem_cons.mpr ⟨hnew.below, h.below⟩
  have hlength := length_le_of_forall_lt hnodup hbelow
  rw [List.length_cons] at hlength
  exact Nat.lt_succ_of_le hlength

theorem NewNode.allocated (h : RedBlackAt mem root t) (hnew : NewNode mem t node n) :
    Allocated ⟨mem, root, 0⟩ t mem node := by
  constructor
  case spells => exact h.spells
  case fresh => exact hnew.outside
  case nodes => exact fun _ _ => rfl
  case leaf => exact ⟨n, hnew.stored, hnew.left, hnew.right⟩
  case ring => exact h.ring
  case listed => exact hnew.listed
  case below => exact List.forall_mem_cons.mpr ⟨hnew.below, h.below⟩
  case length => exact hnew.length h
  case oom => rfl

theorem NewNode.vacant (h : RedBlackAt mem root t) (hnew : NewNode mem t node n) :
    ∃ fs, descend mem.nodes n.key mem.bound root none = some (.vacant (pathOf fs).head?) ∧
      plug .nil fs = t ∧ Between (orderAt mem.nodes) (order n.key) fs := by
  have hbound := Nat.lt_of_succ_lt (hnew.length h)
  have hdescend := (descend_eq n.key h.spells.shaped h.spells.alloc hbound []).1
  rw [← h.spells.root_eq, pathOf_nil, List.head?_nil] at hdescend
  cases hlocate : t.locate (orderAt mem.nodes) (order n.key) [] with
  | inl a =>
    obtain ⟨ha, hkey⟩ := Skeleton.locate_inl hlocate
    exact absurd hkey (hnew.absent a ha)
  | inr fs =>
    rw [hlocate] at hdescend
    obtain ⟨hplug, hbetween⟩ :=
      Skeleton.locate_inr hlocate h.sorted ⟨by simp [before], by simp [after]⟩
    exact ⟨fs, hdescend, hplug, hbetween⟩

theorem NewNode.insertTreeNode (h : RedBlackAt mem root t) (hnew : NewNode mem t node n) :
    ∃ mem' root' t' fs, insertTreeNode mem root node = some (mem', root') ∧
      Spells mem'.nodes root' t' ∧ plug .nil fs = t ∧
      Between (orderAt mem.nodes) (order n.key) fs ∧
      t'.inorder = before fs ++ node :: after fs ∧
      ∀ a, entryOf mem'.nodes a = entryOf mem.nodes a := by
  obtain ⟨fs, hdescend, hplug, hbetween⟩ := hnew.vacant h
  have hclimb : pathLinked mem.nodes (pathOf fs) = true :=
    pathLinked_of_parented (parented_plug.mp (hplug ▸ h.parents)).2
  obtain ⟨m, lists, root₁, hlink, hlinked, hfocus, -, hheight⟩ :=
    (hnew.allocated h).link h.black hplug hclimb
  obtain ⟨m', root', t', hfix, hspells, hinorder, hentry, -⟩ := fixAfterInsert_spec hfocus hheight
  refine ⟨{ mem with nodes := m', lists }, root', t', fs, ?_, hspells, hplug, hbetween, ?_, ?_⟩
  · have hbound : Memory.bound { mem with nodes := m, lists } = mem.bound := rfl
    simp [RedBlackTree.insertTreeNode, hnew.stored, hdescend, hlink, hbound, hfix]
  · rw [hinorder, inorder_plug]
    simp [Skeleton.inorder]
  · intro a
    rw [hentry, hlinked.entry]

end Insert

theorem mem_pairs_order {m : Nodes V} {members : List Addr} {pair : Bytes × V}
    (h : pair ∈ members.filterMap (entryOf m)) : ∃ a ∈ members, orderAt m a = order pair.1 := by
  obtain ⟨a, ha, hentry⟩ := List.mem_filterMap.mp h
  refine ⟨a, ha, ?_⟩
  rw [orderAt, hentry]
  rfl

/-- An insertion of a key that is not in the tree returns, and puts the new pair
at its sorted place. -/
theorem insertTreeNode_ordered (mem : Memory V) (root : Option Addr) (t : Skeleton Addr)
    (node : Addr) (n : TreeNode V) (h : RedBlackAt mem root t) (hnew : NewNode mem t node n) :
    ∃ mem' root' t' smaller greater, insertTreeNode mem root node = some (mem', root') ∧
      Spells mem'.nodes root' t' ∧ pairs mem.nodes t = smaller ++ greater ∧
      pairs mem'.nodes t' = smaller ++ (n.key, n.value) :: greater ∧
      (∀ pair ∈ smaller, order pair.1 < order n.key) ∧
      ∀ pair ∈ greater, order n.key < order pair.1 := by
  obtain ⟨mem', root', t', fs, hinsert, hspells, rfl, hbetween, hinorder, hentry⟩ :=
    hnew.insertTreeNode h
  have hsame : entryOf mem'.nodes = entryOf mem.nodes := funext hentry
  have hnode : entryOf mem.nodes node = some (n.key, n.value) := by simp [entryOf, hnew.stored]
  refine ⟨mem', root', t', (before fs).filterMap (entryOf mem.nodes),
    (after fs).filterMap (entryOf mem.nodes), hinsert, hspells, ?_, ?_, ?_, ?_⟩
  · simp [pairs, inorder_plug, Skeleton.inorder, List.filterMap_append]
  · rw [pairs, hinorder, hsame, List.filterMap_append, List.filterMap_cons_some hnode]
  · intro pair hpair
    obtain ⟨a, ha, horder⟩ := mem_pairs_order hpair
    exact horder ▸ hbetween.lower a ha
  · intro pair hpair
    obtain ⟨a, ha, horder⟩ := mem_pairs_order hpair
    exact horder ▸ hbetween.upper a ha

/-- A black root with a red left child, and a third node whose insertion rotates
them. -/
def leaningNode : Addr → Option (TreeNode Nat)
  | 0 => some ⟨ascii "m", 10, none, some 1, none, .b⟩
  | 1 => some ⟨ascii "c", 11, some 0, none, none, .r⟩
  | 2 => some ⟨ascii "a", 12, none, none, none, .b⟩
  | _ => none

def leaningMemory : Memory Nat where
  nodes := leaningNode
  lists
    | 0 => some ⟨some 1, some 1⟩
    | 1 => some ⟨some 0, some 0⟩
    | 2 => some ⟨some 2, some 2⟩
    | _ => none
  brk := 3
  oom _ := false

theorem insertTreeNode_ordered_leaning :
    ∃ mem' root' t' smaller greater, insertTreeNode leaningMemory (some 0) 2 = some (mem', root') ∧
      Spells mem'.nodes root' t' ∧
      pairs leaningMemory.nodes (.node (.node .nil 1 .nil) 0 .nil) = smaller ++ greater ∧
      pairs mem'.nodes t' = smaller ++ (ascii "a", 12) :: greater ∧
      (∀ pair ∈ smaller, order pair.1 < order (ascii "a")) ∧
      ∀ pair ∈ greater, order (ascii "a") < order pair.1 :=
  insertTreeNode_ordered leaningMemory (some 0) (.node (.node .nil 1 .nil) 0 .nil) 2
    ⟨ascii "a", 12, none, none, none, .b⟩
    { spells := ⟨by decide, rfl, by decide, by decide⟩
      sorted := by
        unfold Sorted
        decide
      redBlack := ⟨by decide, by decide, 1, 0, by decide, ⟨0, by decide, rfl, rfl⟩, rfl⟩
      parents := ⟨rfl, ⟨rfl, trivial, trivial⟩, trivial⟩
      ring := .inr ⟨[0, 1], ⟨by decide, by simp [Adjacent, nextOf, prevOf, leaningMemory]⟩, by decide⟩
      below := by decide }
    { stored := rfl
      left := rfl
      right := rfl
      outside := by decide
      listed := rfl
      below := by decide
      absent := by decide }

end SmtpMta.Common.TreeInsertion
