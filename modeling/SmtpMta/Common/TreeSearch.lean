import SmtpMta.Common.TreeRepair

/-! Both searches of `tree.c` follow the search in the tree that the memory
spells. -/
namespace SmtpMta.Common.TreeSearch
open Library.CString Library.SearchTree ListHead RedBlackTree TreeRotation TreeRepair

variable {V : Type}

/-- The key of a node, in the order of the search. -/
def orderAt (m : Nodes V) (a : Addr) : List Nat :=
  (entryOf m a).elim [] fun entry => order entry.1

theorem orderAt_eq {m : Nodes V} {a : Addr} {n : TreeNode V} (h : m a = some n) :
    orderAt m a = order n.key := by
  simp [orderAt, entryOf, h]

theorem orderAt_congr {m m' : Nodes V} {a : Addr} (h : entryOf m' a = entryOf m a) :
    orderAt m' a = orderAt m a := by
  rw [orderAt, orderAt, h]

/-- The nodes an insertion passes, lowest first, with the directions taken
there; none when it ends at a node with an equal key. -/
def searchPath (m : Nodes V) (key : Bytes) : Nat → Option Addr → List (Addr × Dir) →
    List (Addr × Dir)
  | 0, _, path => path
  | _ + 1, none, path => path
  | bound + 1, some a, path =>
    match m a with
    | none => path
    | some n =>
      let cmp := strcmp n.key key
      if cmp > 0 then searchPath m key bound n.left ((a, .left) :: path)
      else if cmp < 0 then searchPath m key bound n.right ((a, .right) :: path)
      else []

theorem descend_eq {m : Nodes V} (key : Bytes) {bound : Nat} {t : Skeleton Addr}
    (hshaped : Shaped (childOf m) t) (halloc : ∀ a ∈ t.inorder, (m a).isSome)
    (hbound : t.inorder.length < bound) (fs : List (Frame Addr)) :
    descend m key bound t.root (pathOf fs).head? = some
        (match t.locate (orderAt m) (order key) fs with
        | .inl a => .found a
        | .inr fs' => .vacant (pathOf fs').head?) ∧
      searchPath m key bound t.root (pathOf fs) =
        match t.locate (orderAt m) (order key) fs with
        | .inl _ => []
        | .inr fs' => pathOf fs' := by
  induction t generalizing fs bound with
  | nil =>
    obtain ⟨bound, rfl⟩ := Nat.exists_eq_succ_of_ne_zero (Nat.ne_zero_of_lt hbound)
    exact ⟨rfl, rfl⟩
  | node left a right ihl ihr =>
    obtain ⟨bound, rfl⟩ := Nat.exists_eq_succ_of_ne_zero (Nat.ne_zero_of_lt hbound)
    obtain ⟨hl, hr, hleft, hright⟩ := hshaped
    obtain ⟨n, hn⟩ := Option.isSome_iff_exists.mp (halloc a (by simp [Skeleton.inorder]))
    have hl' : n.left = left.root := by simpa [childOf, hn, TreeNode.child] using hl
    have hr' : n.right = right.root := by simpa [childOf, hn, TreeNode.child] using hr
    have hpos := strcmp_pos n.key key
    have hneg := strcmp_lt_zero n.key key
    have hbelow := ihl hleft (fun b hb => halloc b (by simp [Skeleton.inorder, hb]))
      (show left.inorder.length < bound by simp [Skeleton.inorder] at hbound; omega)
      (⟨.left, a, right⟩ :: fs)
    have habove := ihr hright (fun b hb => halloc b (by simp [Skeleton.inorder, hb]))
      (show right.inorder.length < bound by simp [Skeleton.inorder] at hbound; omega)
      (⟨.right, a, left⟩ :: fs)
    simp only [descend, searchPath, Skeleton.root, hn, Option.bind_eq_bind, Option.bind_some,
      gt_iff_lt, hpos, hneg, hl', hr', Skeleton.locate, orderAt_eq hn]
    split
    · exact hbelow
    · split
      · exact habove
      · exact ⟨rfl, rfl⟩

theorem findTreeNode_eq_descend (m : Nodes V) (key : Bytes) (bound : Nat) (root : Option Addr)
    (parent : Option (Addr × Dir)) : findTreeNode m key bound root =
      (descend m key bound root parent).map fun
        | .found a => some a
        | .vacant _ => none := by
  induction bound generalizing root parent with
  | zero => rfl
  | succ bound ih =>
    cases root with
    | none => rfl
    | some a =>
      cases hn : m a with
      | none => simp [findTreeNode, descend, hn]
      | some n =>
        simp only [findTreeNode, descend, hn, Option.bind_eq_bind, Option.bind_some]
        split
        · exact ih ..
        · split
          · exact ih ..
          · rfl

end SmtpMta.Common.TreeSearch
