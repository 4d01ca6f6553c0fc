import SmtpMta.Common.TreeSearch

/-! `insert_tree_node` on a memory that spells a sorted tree: the new node lands
where the search ended, in the iteration ring, and the repair keeps the order. -/
namespace SmtpMta.Common.TreeInsert
open Library.CString Library.SearchTree Library.Ring ListHead RedBlackTree TreeRotation TreeRepair
  TreeSearch

variable {V : Type}

/-- The iteration ring goes through exactly these nodes. -/
def Ringed (lists : Lists) (members : List Addr) : Prop :=
  members = [] ∨ ∃ ring, IsRing lists ring ∧ ring.Perm members

/-- The memory after the new node was stored in its parent and given its
colour and parent pointer. -/
structure Linked (m m' : Nodes V) (node : Addr) (parent : Option (Addr × Dir)) : Prop where
  child : ∀ e x, childOf m' e x =
    if parent = some (x, e) then some node else childOf m e x
  parent_node : parentOf m' node = parent.map Prod.fst
  parent_other : ∀ x, x ≠ node → parentOf m' x = parentOf m x
  color_node : colorOf m' node = some .r
  color_other : ∀ x, x ≠ node → colorOf m' x = colorOf m x
  entry : ∀ x, entryOf m' x = entryOf m x

theorem linkNode_linked {mem : Memory V} (root : Option Addr) {node : Addr}
    {parent : Option (Addr × Dir)} {lists : Lists}
    (hlists : (match parent with
      | none => listInit mem.lists node
      | some (a, _) => listAdd mem.lists a node) = some lists) (hnode : (mem.nodes node).isSome)
    (hparent : ∀ q, parent = some q → (mem.nodes q.1).isSome ∧ q.1 ≠ node) :
    ∃ m', linkNode mem root node parent =
      some ({ mem with nodes := m', lists }, if parent = none then some node else root) ∧
        Linked mem.nodes m' node parent := by
  obtain ⟨n, hn⟩ := Option.isSome_iff_exists.mp hnode
  cases parent with
  | none =>
    simp only [linkNode, hn, write, Option.bind_eq_bind, Option.bind_some, Option.map_some,
      Function.update_self, Function.update_idem, hlists]
    refine ⟨_, rfl, ?_, ?_, ?_, ?_, ?_, ?_⟩
    · intro e x
      rw [childOf_update]
      split
      · simp_all [childOf]
        cases e <;> rfl
      · simp
    · simp [parentOf_update]
    · intro x hx
      simp [parentOf_update, hx]
    · simp [colorOf_update]
    · intro x hx
      simp [colorOf_update, hx]
    · intro x
      rw [entryOf_update]
      split <;> simp_all [entryOf]
  | some q =>
    obtain ⟨a, d⟩ := q
    obtain ⟨ha, hne⟩ := hparent _ rfl
    obtain ⟨na, hna⟩ := Option.isSome_iff_exists.mp ha
    simp only [linkNode, hn, hna, write, Option.bind_eq_bind, Option.bind_some, Option.map_some,
      Function.update_self, Function.update_idem, hlists, ne_eq, hne.symm, not_false_eq_true,
      Function.update_of_ne, reduceCtorEq, if_false]
    have hchild (e : Dir) : childOf mem.nodes e node = n.child e := by simp [childOf, hn]
    have hchild_a (e : Dir) : childOf mem.nodes e a = na.child e := by simp [childOf, hna]
    refine ⟨_, rfl, ?_, ?_, ?_, ?_, ?_, ?_⟩
    · intro e x
      have hsame (c : Color) (parent : Option Addr) :
          TreeNode.child { n with color := c, parent := parent } e = n.child e := by
        cases e <;> rfl
      rw [childOf_update, childOf_update, child_setChild, hsame]
      by_cases hx : x = node
      · simp [hx, hne, hchild]
      · by_cases hxa : x = a
        · simp [hxa, hne, hchild_a, eq_comm]
        · simp [hx, hxa, Ne.symm hxa]
    · simp [parentOf_update]
    · intro x hx
      rw [parentOf_update, if_neg hx, parentOf_update]
      split <;> simp_all [parentOf]
    · simp [colorOf_update]
    · intro x hx
      rw [colorOf_update, if_neg hx, colorOf_update]
      split <;> simp_all [colorOf]
    · intro x
      rw [entryOf_update, entryOf_update]
      by_cases hx : x = node
      · simp [hx, entryOf, hn]
      · by_cases hxa : x = a <;> simp [hx, hxa, hne, entryOf, hna]

theorem head_pathOf_eq_some {fs : List (Frame Addr)} {x : Addr} {e : Dir} :
    (pathOf fs).head? = some (x, e) ↔ ∃ f, fs.head? = some f ∧ f.addr = x ∧ f.dir = e := by
  cases fs <;> simp [and_comm]

theorem Linked.focus {m m' : Nodes V} {root : Option Addr} {node : Addr} {fs : List (Frame Addr)}
    (h : Linked m m' node (pathOf fs).head?) (hspells : Spells m root (plug .nil fs))
    (hfresh : node ∉ (plug .nil fs).inorder) (hnode : (m node).isSome)
    (hleaf : ∀ e, childOf m e node = none) (hclimb : pathLinked m (pathOf fs) = true)
    (hblack : root.bind (colorOf m) ≠ some .r) :
    Focus m' (if (pathOf fs).head? = none then some node else root) node (.node .nil node .nil)
      fs := by
  obtain ⟨hshaped, hroot, hnodup, halloc⟩ := hspells
  obtain ⟨-, hframes⟩ := shaped_plug.mp hshaped
  have hne (f : Frame Addr) (hf : f ∈ fs) (a : Addr) (ha : a = f.addr ∨ a ∈ f.sibling.inorder) :
      a ≠ node := by
    rintro rfl
    exact hfresh (mem_inorder_plug.mpr (.inr ⟨f, hf, ha⟩))
  have hsome (a : Addr) : (m' a).isSome = (m a).isSome := by
    rw [← isSome_entryOf, h.entry, isSome_entryOf]
  have hinorder : (plug (.node .nil node .nil) fs).inorder = before fs ++ node :: after fs := by
    simp [inorder_plug, Skeleton.inorder]
  have hold : (plug .nil fs).inorder = before fs ++ after fs := by
    simp [inorder_plug, Skeleton.inorder]
  have hframes' : ShapedFrames (childOf m') (some node) fs := by
    refine hframes.replace ?_ ?_ ?_
    · intro f hf
      rw [h.child, if_pos (head_pathOf_eq_some.mpr ⟨f, hf, rfl, rfl⟩)]
    · intro f hf a ha d hd
      rw [h.child, if_neg]
      intro hhead
      obtain ⟨g, hg, rfl, rfl⟩ := head_pathOf_eq_some.mp hhead
      exact hd g hg ⟨rfl, rfl⟩
    · intro f hf
      obtain ⟨rest, rfl⟩ := List.head?_eq_some_iff.mp hf
      exact nodup_plug_frame hnodup
  have hkept : FramesKept m m' fs :=
    ⟨fun f hf a ha => h.color_other a (hne f hf a ha),
      fun f hf a ha => h.parent_other a (hne f hf a ha)⟩
  constructor
  case spells =>
    refine ⟨shaped_plug.mpr ⟨?_, hframes'⟩, ?_, ?_, ?_⟩
    · have hnot (e : Dir) : (pathOf fs).head? ≠ some (node, e) := by
        intro hhead
        obtain ⟨f, hf, hf', -⟩ := head_pathOf_eq_some.mp hhead
        exact hne f (List.mem_of_head? hf) f.addr (.inl rfl) hf'
      simp [Shaped, h.child, hnot, hleaf, Skeleton.root]
    · rw [root_plug]
      cases fs with
      | nil => rfl
      | cons f fs => simp [hroot, root_plug, List.getLast?_eq_some_getLast]
    · rw [hinorder]
      exact List.nodup_middle.mpr (List.nodup_cons.mpr ⟨hold ▸ hfresh, hold ▸ hnodup⟩)
    · intro a ha
      rw [hsome]
      by_cases han : a = node
      · exact han ▸ hnode
      · refine halloc a ?_
        rw [hinorder] at ha
        rw [hold]
        simpa [han] using ha
  case here => rfl
  case link =>
    rw [h.parent_node]
    cases fs <;> rfl
  case climb => rw [hkept.pathLinked_tail hframes hframes', hclimb]
  case top =>
    intro f hf
    rw [hkept.color f (List.mem_of_getLast? hf) _ (.inl rfl)]
    have hroot' : root = some f.addr := by rw [hroot, root_plug, hf]
    simpa [hroot'] using hblack

theorem ringed_link {lists : Lists} {members : List Addr} {node : Addr}
    (hring : Ringed lists members)
    (hfresh : node ∉ members) (hsome : (lists node).isSome) {parent : Option (Addr × Dir)}
    (hparent : ∀ q, parent = some q → q.1 ∈ members) (hnone : parent = none → members = []) :
    ∃ lists', (match parent with
      | none => listInit lists node
      | some (a, _) => listAdd lists a node) = some lists' ∧ Ringed lists' (node :: members) ∧
        ∀ x, (lists' x).isSome = (lists x).isSome := by
  cases parent with
  | none =>
    obtain ⟨lists', hinit, hring', hsome', -⟩ := listInit_ring hsome
    exact ⟨lists', hinit, .inr ⟨[node], hring', by simp [hnone rfl]⟩, hsome'⟩
  | some q =>
    obtain ⟨a, d⟩ := q
    have ha : a ∈ members := hparent _ rfl
    rcases hring with rfl | ⟨ring, hring, hperm⟩
    · simp at ha
    · obtain ⟨xs, ys, rfl⟩ := List.append_of_mem (hperm.mem_iff.mpr ha)
      have hrot : IsRing lists (a :: (ys ++ xs)) := by simpa using hring.rotate
      have hrotate : (a :: ys ++ xs).Perm (xs ++ a :: ys) := List.perm_append_comm
      have hperm' : (a :: (ys ++ xs)).Perm members := hrotate.trans hperm
      obtain ⟨lists', hadd, hring', hsome', -⟩ :=
        listAdd_ring hrot (fun hmem => hfresh (hperm'.mem_iff.mp hmem)) hsome
      exact ⟨lists', hadd, .inr ⟨_, hring', (List.Perm.swap ..).trans (hperm'.cons node)⟩, hsome'⟩

/-- A dictionary whose memory spells a tree below a root that is not red. -/
structure Sound (dict : Dict V) (t : Skeleton Addr) : Prop where
  spells : Spells dict.mem.nodes dict.root t
  black : dict.root.bind (colorOf dict.mem.nodes) ≠ some .r
  below : ∀ a ∈ t.inorder, a < dict.mem.brk
  ring : Ringed dict.mem.lists t.inorder

theorem Sound.length_lt_bound {dict : Dict V} {t : Skeleton Addr} (h : Sound dict t) :
    t.inorder.length < dict.mem.bound :=
  Nat.lt_succ_of_le (length_le_of_forall_lt h.spells.nodup h.below)

theorem dictInit_sound (oom : Addr → Bool) : Sound (dictInit (Memory.fresh oom) : Dict V) .nil := by
  constructor
  case spells => exact ⟨trivial, rfl, List.nodup_nil, by simp [Skeleton.inorder]⟩
  case black => simp [dictInit]
  case below => simp [Skeleton.inorder]
  case ring => exact .inl rfl

theorem exists_write_value {m : Nodes V} {a : Addr} {n : TreeNode V} (hn : m a = some n)
    (value : V) :
    ∃ m', write m a (fun n => { n with value := value }) = some m' ∧ childOf m' = childOf m ∧
      colorOf m' = colorOf m ∧ parentOf m' = parentOf m ∧
        ∀ x, entryOf m' x = if x = a then some (n.key, value) else entryOf m x := by
  refine ⟨_, write_eq hn _, ?_, ?_, ?_, fun x => entryOf_update⟩
  · funext d x
    rw [childOf_update]
    split
    · cases d <;> simp_all [childOf, TreeNode.child]
    · rfl
  · funext x
    rw [colorOf_update]
    split
    · simp_all [colorOf]
    · rfl
  · funext x
    rw [parentOf_update]
    split
    · simp_all [parentOf]
    · rfl

/-- A new node, allocated but not yet in the tree. -/
structure Allocated (dict : Dict V) (t : Skeleton Addr) (mem : Memory V) (node : Addr) : Prop where
  spells : Spells mem.nodes dict.root t
  fresh : node ∉ t.inorder
  nodes : ∀ a ∈ t.inorder, mem.nodes a = dict.mem.nodes a
  leaf : ∃ n, mem.nodes node = some n ∧ n.left = none ∧ n.right = none
  ring : Ringed mem.lists t.inorder
  listed : (mem.lists node).isSome
  below : ∀ a ∈ node :: t.inorder, a < mem.brk
  length : t.inorder.length + 1 < mem.bound
  oom : mem.oom = dict.mem.oom

theorem makeTreeNode_spec {mem : Memory V} (hoom : mem.oom mem.brk = false) (key : Bytes)
    (value : V) :
    ∃ lists, RedBlackTree.makeTreeNode mem key value =
        some ({ mem with nodes := Function.update mem.nodes mem.brk
                           (some ⟨strncpy [] key treeKeyMaxLen, value, none, none, none, .b⟩), lists,
                         brk := mem.brk + 1 }, some mem.brk) ∧
      (lists mem.brk).isSome ∧ ∀ a, a ≠ mem.brk → lists a = mem.lists a := by
  obtain ⟨lists, hinit, -, hsome, hframe⟩ :=
    listInit_ring (m := Function.update mem.lists mem.brk (some ⟨none, none⟩)) (a := mem.brk) (by simp)
  refine ⟨lists, by simp [RedBlackTree.makeTreeNode, hoom, hinit], by simp [hsome], fun a ha => ?_⟩
  exact (hframe a ha).trans (Function.update_of_ne ha ..)

theorem Ringed.congr {lists lists' : Lists} {members : List Addr} (h : Ringed lists members)
    (heq : ∀ a ∈ members, lists' a = lists a) : Ringed lists' members := by
  refine h.imp id ?_
  rintro ⟨ring, hring, hperm⟩
  exact ⟨ring, hring.congr fun a ha => heq a (hperm.mem_iff.mp ha), hperm⟩

theorem Sound.makeTreeNode {dict : Dict V} {t : Skeleton Addr} (h : Sound dict t)
    (hoom : dict.mem.oom dict.mem.brk = false) (key : Bytes) (value : V) :
    ∃ mem n, RedBlackTree.makeTreeNode dict.mem key value = some (mem, some dict.mem.brk) ∧
      mem.nodes dict.mem.brk = some n ∧ n.key = strncpy [] key treeKeyMaxLen ∧ n.value = value ∧
        Allocated dict t mem dict.mem.brk := by
  have hfresh : dict.mem.brk ∉ t.inorder := fun hmem => (h.below _ hmem).ne rfl
  have hne (a : Addr) (ha : a ∈ t.inorder) : a ≠ dict.mem.brk := fun heq => hfresh (heq ▸ ha)
  obtain ⟨lists, hmake, hlisted, hframe⟩ := makeTreeNode_spec hoom key value
  refine ⟨_, _, hmake, Function.update_self .., rfl, rfl, ?_⟩
  constructor
  case spells =>
    obtain ⟨hshaped, hroot, hnodup, halloc⟩ := h.spells
    refine ⟨hshaped.congr fun a ha d => ?_, hroot, hnodup, fun a ha => ?_⟩
    · simp [childOf, hne a ha]
    · simpa [hne a ha] using halloc a ha
  case fresh => exact hfresh
  case nodes =>
    intro a ha
    simp [hne a ha]
  case leaf => exact ⟨_, Function.update_self .., rfl, rfl⟩
  case ring => exact h.ring.congr fun a ha => hframe a (hne a ha)
  case listed => exact hlisted
  case below =>
    intro a ha
    rcases List.mem_cons.mp ha with rfl | ha
    · exact Nat.lt_succ_self _
    · exact (h.below a ha).trans (Nat.lt_succ_self _)
  case length =>
    have := h.length_lt_bound
    simp only [Memory.bound] at this ⊢
    omega
  case oom => rfl

section Link
variable {dict : Dict V} {t : Skeleton Addr} {mem : Memory V} {node : Addr}

theorem Allocated.black (hblack : dict.root.bind (colorOf dict.mem.nodes) ≠ some .r)
    (h : Allocated dict t mem node) : dict.root.bind (colorOf mem.nodes) ≠ some .r := by
  cases hroot : dict.root with
  | none => simp
  | some top =>
    have htop : top ∈ t.inorder :=
      Skeleton.mem_inorder_of_root (h.spells.root_eq.symm.trans hroot)
    simpa [hroot, colorOf, h.nodes top htop] using hblack

theorem Allocated.link (hblack : dict.root.bind (colorOf dict.mem.nodes) ≠ some .r)
    (h : Allocated dict t mem node) {fs : List (Frame Addr)} (hplug : plug .nil fs = t)
    (hclimb : pathLinked dict.mem.nodes (pathOf fs) = true) :
    ∃ m lists root, linkNode mem dict.root node (pathOf fs).head? =
        some ({ mem with nodes := m, lists }, root) ∧
      Linked mem.nodes m node (pathOf fs).head? ∧ Focus m root node (.node .nil node .nil) fs ∧
        Ringed lists (node :: t.inorder) ∧ fs.length < mem.bound := by
  subst hplug
  obtain ⟨n, hn, hleft, hright⟩ := h.leaf
  have hkept : FramesKept dict.mem.nodes mem.nodes fs := by
    have hframe (f) (hf : f ∈ fs) (a) (ha : a = f.addr ∨ a ∈ f.sibling.inorder) :
        mem.nodes a = dict.mem.nodes a :=
      h.nodes a (mem_inorder_plug.mpr (.inr ⟨f, hf, ha⟩))
    exact ⟨fun f hf a ha => by simp [colorOf, hframe f hf a ha],
      fun f hf a ha => by simp [parentOf, hframe f hf a ha]⟩
  have hframes := (shaped_plug.mp h.spells.shaped).2
  have hframes_old : ShapedFrames (childOf dict.mem.nodes) none fs := by
    refine hframes.congr fun f hf a ha d => ?_
    have hmem : a ∈ (plug Skeleton.nil fs).inorder := mem_inorder_plug.mpr (.inr ⟨f, hf, ha⟩)
    simp [childOf, h.nodes a hmem]
  -- the parent is the lowest node on the path, and there is none in an empty tree only
  have hparent (q) (hq : (pathOf fs).head? = some q) : q.1 ∈ (plug Skeleton.nil fs).inorder := by
    obtain ⟨f, hf, hf', -⟩ := head_pathOf_eq_some.mp hq
    exact mem_inorder_plug.mpr (.inr ⟨f, List.mem_of_head? hf, .inl hf'.symm⟩)
  have hnone (hq : (pathOf fs).head? = none) : (plug Skeleton.nil fs).inorder = [] := by
    cases fs with
    | nil => rfl
    | cons f fs => simp at hq
  obtain ⟨lists, hlists, hring, -⟩ := ringed_link h.ring h.fresh h.listed hparent hnone
  have hsome : (mem.nodes node).isSome := by simp [hn]
  have hother (q) (hq : (pathOf fs).head? = some q) : (mem.nodes q.1).isSome ∧ q.1 ≠ node := by
    refine ⟨h.spells.alloc _ (hparent q hq), ?_⟩
    rintro rfl
    exact h.fresh (hparent q hq)
  obtain ⟨m, hlink, hlinked⟩ := linkNode_linked dict.root hlists hsome hother
  have hfocus := hlinked.focus h.spells h.fresh hsome
    (fun e => by cases e <;> simp [childOf, hn, TreeNode.child, hleft, hright])
    (by rw [hkept.pathLinked_tail hframes_old hframes, hclimb]) (h.black hblack)
  have hheight := length_le_inorder_plug Skeleton.nil fs
  have hlength := h.length
  exact ⟨m, lists, _, hlink, hlinked, hfocus, hring, by omega⟩

end Link

/-- The nodes that an insertion passes, lowest first; none if the key is there. -/
def insertPath (dict : Dict V) (key : Bytes) : List (Addr × Dir) :=
  searchPath dict.mem.nodes (strncpy [] key treeKeyMaxLen) dict.mem.bound dict.root []

/-- The new node is linked into the tree that the dictionary had, red, and the
tree is not yet repaired. -/
structure Linking (dict : Dict V) (t : Skeleton Addr) (fs : List (Frame Addr)) (mem : Memory V)
    (root : Option Addr) (node : Addr) : Prop where
  whole : plug .nil fs = t
  fresh : node ∉ t.inorder
  focus : Focus mem.nodes root node (.node .nil node .nil) fs
  red : colorOf mem.nodes node = some .r
  color : ∀ a ∈ t.inorder, colorOf mem.nodes a = colorOf dict.mem.nodes a
  parent : ∀ a ∈ t.inorder, parentOf mem.nodes a = parentOf dict.mem.nodes a
  height : fs.length < mem.bound
  ring : Ringed mem.lists (node :: t.inorder)
  below : ∀ a ∈ node :: t.inorder, a < mem.brk
  oom : mem.oom = dict.mem.oom

theorem Sound.dictSet_oom {dict : Dict V} {t : Skeleton Addr} (h : Sound dict t)
    (hoom : dict.mem.oom dict.mem.brk = true) (key : Bytes) (value : V) :
    ∃ mem, dictSet dict key value = some (-1, { dict with mem }) ∧ mem.nodes = dict.mem.nodes ∧
      Sound { dict with mem } t := by
  refine ⟨{ dict.mem with brk := dict.mem.brk + 1 }, ?_, rfl, h.spells, h.black, fun a ha => ?_,
    h.ring⟩
  · simp [dictSet, RedBlackTree.makeTreeNode, hoom]
  · exact (h.below a ha).trans (Nat.lt_succ_self _)

/-- A call that gets its node overwrites the value of a node with the same key,
or links the new node and repairs the tree. -/
theorem Sound.dictSet {dict : Dict V} {t : Skeleton Addr} (h : Sound dict t)
    (hoom : dict.mem.oom dict.mem.brk = false) {key : Bytes}
    (hclimb : pathLinked dict.mem.nodes (insertPath dict key) = true) (value : V) :
    (∃ mem, RedBlackTree.dictSet dict key value = some (0, { dict with mem }) ∧
      Sound { dict with mem } t ∧ ∀ a ∈ t.inorder, colorOf mem.nodes a = colorOf dict.mem.nodes a ∧
        parentOf mem.nodes a = parentOf dict.mem.nodes a) ∨
    ∃ fs mem root node, insertPath dict key = pathOf fs ∧ Linking dict t fs mem root node ∧
      RedBlackTree.dictSet dict key value =
        (fixAfterInsert mem.bound mem.nodes root node).map fun (m, root) =>
          (0, { dict with mem := { mem with nodes := m }, root }) := by
  obtain ⟨mem, n, hmake, hn, hnkey, hvalue, halloc⟩ := h.makeTreeNode hoom key value
  have horder (a : Addr) (ha : a ∈ t.inorder) : orderAt mem.nodes a = orderAt dict.mem.nodes a := by
    simp [orderAt, entryOf, halloc.nodes a ha]
  have hdescend := (descend_eq n.key halloc.spells.shaped halloc.spells.alloc
    (Nat.lt_of_succ_lt halloc.length) []).1
  have hpath := (descend_eq n.key h.spells.shaped h.spells.alloc h.length_lt_bound []).2
  rw [Skeleton.locate_congr horder, ← h.spells.root_eq, pathOf_nil, List.head?_nil] at hdescend
  rw [← h.spells.root_eq, pathOf_nil, hnkey] at hpath
  change insertPath dict key = _ at hpath
  cases hlocate : t.locate (orderAt dict.mem.nodes) (order n.key) [] with
  | inl pp =>
    rw [hlocate] at hdescend
    have hpp := (Skeleton.locate_inl hlocate).1
    obtain ⟨npp, hnpp⟩ := Option.isSome_iff_exists.mp (halloc.spells.alloc pp hpp)
    obtain ⟨m, hwrite, hchild, hcolor, hparent, hentry⟩ := exists_write_value hnpp value
    refine .inl ⟨{ mem with nodes := m }, ?_, ⟨?_, ?_, ?_, halloc.ring⟩, fun a ha => ?_⟩
    · simp [RedBlackTree.dictSet, hmake, insertTreeNode, hn, hdescend, hvalue, hwrite]
    · obtain ⟨hshaped, hroot, hnodup, hsome⟩ := halloc.spells
      refine ⟨hchild ▸ hshaped, hroot, hnodup, fun a ha => ?_⟩
      rw [← isSome_entryOf, hentry]
      split
      · rfl
      · rw [isSome_entryOf]
        exact hsome a ha
    · have := halloc.black h.black
      rwa [← hcolor] at this
    · exact fun a ha => halloc.below a (by simp [ha])
    · rw [hcolor, hparent]
      simp [colorOf, parentOf, halloc.nodes a ha]
  | inr fs =>
    rw [hlocate] at hdescend
    replace hpath : insertPath dict key = pathOf fs := by rw [hpath, ← hnkey, hlocate]
    have hwhole : plug .nil fs = t := Skeleton.plug_of_locate hlocate
    obtain ⟨m, lists, root, hlink, hlinked, hfocus, hring, hheight⟩ :=
      halloc.link h.black hwhole (hpath ▸ hclimb)
    have hne (a : Addr) (ha : a ∈ t.inorder) : a ≠ dict.mem.brk :=
      fun heq => halloc.fresh (heq ▸ ha)
    refine .inr ⟨fs, { mem with nodes := m, lists }, root, dict.mem.brk, hpath,
      ⟨hwhole, halloc.fresh, hfocus, hlinked.color_node, fun a ha => ?_, fun a ha => ?_, hheight,
        hring, halloc.below, halloc.oom⟩, ?_⟩
    · rw [hlinked.color_other a (hne a ha), colorOf, colorOf, halloc.nodes a ha]
    · rw [hlinked.parent_other a (hne a ha), parentOf, parentOf, halloc.nodes a ha]
    · have hbound : Memory.bound { mem with nodes := m, lists } = mem.bound := rfl
      simp only [RedBlackTree.dictSet, hmake, insertTreeNode, hn, hdescend, hlink, hbound,
        Option.bind_eq_bind, Option.bind_some]
      cases fixAfterInsert mem.bound m root dict.mem.brk <;> rfl

theorem Linking.sound {dict : Dict V} {t t' : Skeleton Addr} {fs : List (Frame Addr)}
    {mem : Memory V} {root root' : Option Addr} {node top : Addr} {m' : Nodes V}
    (h : Linking dict t fs mem root node) (hspells : Spells m' root' t')
    (hinorder : t'.inorder = (plug (.node .nil node .nil) fs).inorder) (htop : t'.root = some top)
    (hblack : colorOf m' top = some .b) :
    Sound { dict with mem := { mem with nodes := m' }, root := root' } t' := by
  have hperm : t'.inorder.Perm (node :: t.inorder) := by
    rw [hinorder, ← h.whole, inorder_plug, inorder_plug]
    simp only [Skeleton.inorder, List.nil_append, List.append_nil, List.append_assoc]
    exact List.perm_middle
  refine ⟨hspells, ?_, fun a ha => h.below a (hperm.mem_iff.mp ha), ?_⟩
  · simp [hspells.root_eq, htop, hblack]
  · refine h.ring.imp (by simp) ?_
    rintro ⟨ring, hring, hring_perm⟩
    exact ⟨ring, hring, hring_perm.trans hperm.symm⟩

end SmtpMta.Common.TreeInsert
