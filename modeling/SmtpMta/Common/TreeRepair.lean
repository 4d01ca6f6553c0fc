import SmtpMta.Common.TreeRotation

/-! The repair loop of `fix_after_insert` keeps every node in place in the
search order, as long as the parent pointers it follows are right. A rotation
leaves the parent pointer of the subtree it moves behind, so they can be wrong. -/
namespace SmtpMta.Common.TreeRepair
open Library.CString Library.SearchTree ListHead RedBlackTree TreeRotation

variable {V : Type}

/-- The parent pointers that a repair loop reads on its way up are right: from
a node below `p`, on the `d` side of it, with the path above `p` given lowest
first. After recolouring or a double rotation the loop goes on two nodes
higher, after a single rotation one node higher. -/
def climbLinked (m : Nodes V) : Addr × Dir → List (Addr × Dir) → Bool
  | _, [] => true
  | (p, d), (g, e) :: rest =>
    colorOf m p != some .r ||
      (parentOf m p == some g && parentOf m g == (rest.map Prod.fst).head? &&
        if (childOf m e.flip g).bind (colorOf m) == some .r || d != e then
          match rest with
          | [] => true
          | q :: rest => climbLinked m q rest
        else climbLinked m (g, d) rest)

def pathLinked (m : Nodes V) : List (Addr × Dir) → Bool
  | [] => true
  | q :: rest => climbLinked m q rest

theorem pathLinked_cons_cons (m : Nodes V) (p g : Addr) (d e : Dir) (rest : List (Addr × Dir)) :
    pathLinked m ((p, d) :: (g, e) :: rest) = true ↔
      (colorOf m p = some .r → parentOf m p = some g ∧
        parentOf m g = (rest.map Prod.fst).head? ∧
          if (childOf m e.flip g).bind (colorOf m) = some .r ∨ d ≠ e then pathLinked m rest = true
          else pathLinked m ((g, d) :: rest) = true) := by
  cases rest <;> by_cases hcolor : colorOf m p = some .r <;>
    by_cases hcond : (childOf m e.flip g).bind (colorOf m) = some .r ∨ d ≠ e <;>
      simp_all [pathLinked, climbLinked, and_assoc]

theorem pathLinked_congr {m m' : Nodes V} {p p' : Addr} {d : Dir} {rest : List (Addr × Dir)}
    (hcolor : colorOf m' p' = colorOf m p) (hparent : parentOf m' p' = parentOf m p)
    (hcolors : ∀ x ∈ rest, colorOf m' x.1 = colorOf m x.1)
    (hparents : ∀ x ∈ rest, parentOf m' x.1 = parentOf m x.1)
    (hbeside : ∀ x ∈ rest, (childOf m' x.2.flip x.1).bind (colorOf m') =
      (childOf m x.2.flip x.1).bind (colorOf m)) :
    pathLinked m' ((p', d) :: rest) = pathLinked m ((p, d) :: rest) := by
  induction hlen : rest.length using Nat.strong_induction_on generalizing p p' d rest with
  | _ n ih =>
  cases rest with
  | nil => rfl
  | cons x rest =>
    obtain ⟨g, e⟩ := x
    simp only [List.forall_mem_cons] at hcolors hparents hbeside
    have houter : pathLinked m' ((g, d) :: rest) = pathLinked m ((g, d) :: rest) :=
      ih rest.length (by simp [← hlen]) hcolors.1 hparents.1 hcolors.2 hparents.2 hbeside.2 rfl
    have hinner : pathLinked m' rest = pathLinked m rest := by
      cases rest with
      | nil => rfl
      | cons y rest =>
        simp only [List.forall_mem_cons] at hcolors hparents hbeside
        exact ih rest.length (by rw [← hlen, List.length_cons, List.length_cons]; omega)
          hcolors.2.1 hparents.2.1 hcolors.2.2
          hparents.2.2 hbeside.2.2 rfl
    rw [Bool.eq_iff_iff, pathLinked_cons_cons, pathLinked_cons_cons, houter, hinner, hcolor,
      hparent, hparents.1, hbeside.1]

def pathOf (fs : List (Frame Addr)) : List (Addr × Dir) := fs.map fun f => (f.addr, f.dir)

@[simp] theorem pathOf_nil : pathOf [] = [] := rfl

@[simp] theorem pathOf_cons (f : Frame Addr) (fs : List (Frame Addr)) :
    pathOf (f :: fs) = (f.addr, f.dir) :: pathOf fs := rfl

@[simp] theorem map_fst_pathOf (fs : List (Frame Addr)) :
    (pathOf fs).map Prod.fst = fs.map Frame.addr := by
  simp [pathOf]

theorem childOf_flip_frame {m : Nodes V} {hole : Option Addr} {fs : List (Frame Addr)}
    (h : ShapedFrames (childOf m) hole fs) {f : Frame Addr} (hf : f ∈ fs) :
    childOf m f.dir.flip f.addr = f.sibling.root := by
  induction fs generalizing hole with
  | nil => simp at hf
  | cons g fs ih =>
    rcases List.mem_cons.mp hf with rfl | hf
    · exact h.2.1
    · exact ih h.2.2.2 hf

/-- Frames whose nodes kept their colours and parents. -/
structure FramesKept (m m' : Nodes V) (fs : List (Frame Addr)) : Prop where
  color : ∀ f ∈ fs, ∀ a, (a = f.addr ∨ a ∈ f.sibling.inorder) → colorOf m' a = colorOf m a
  parent : ∀ f ∈ fs, ∀ a, (a = f.addr ∨ a ∈ f.sibling.inorder) → parentOf m' a = parentOf m a

theorem FramesKept.tail {m m' : Nodes V} {f : Frame Addr} {fs : List (Frame Addr)}
    (h : FramesKept m m' (f :: fs)) : FramesKept m m' fs :=
  ⟨fun g hg => h.color g (by simp [hg]), fun g hg => h.parent g (by simp [hg])⟩

theorem FramesKept.pathLinked {m m' : Nodes V} {hole hole' : Option Addr} {p p' : Addr} {d : Dir}
    {fs : List (Frame Addr)} (hkept : FramesKept m m' fs)
    (hframes : ShapedFrames (childOf m) hole fs) (hframes' : ShapedFrames (childOf m') hole' fs)
    (hcolor : colorOf m' p' = colorOf m p) (hparent : parentOf m' p' = parentOf m p) :
    TreeRepair.pathLinked m' ((p', d) :: pathOf fs) =
      TreeRepair.pathLinked m ((p, d) :: pathOf fs) := by
  refine pathLinked_congr hcolor hparent ?_ ?_ ?_ <;> intro x hx <;>
    obtain ⟨f, hf, rfl⟩ := List.mem_map.mp hx
  · exact hkept.color f hf _ (.inl rfl)
  · exact hkept.parent f hf _ (.inl rfl)
  · rw [childOf_flip_frame hframes hf, childOf_flip_frame hframes' hf]
    cases hroot : f.sibling.root with
    | none => rfl
    | some a => exact hkept.color f hf a (.inr (Skeleton.mem_inorder_of_root hroot))

theorem FramesKept.pathLinked_tail {m m' : Nodes V} {hole hole' : Option Addr}
    {fs : List (Frame Addr)} (hkept : FramesKept m m' fs)
    (hframes : ShapedFrames (childOf m) hole fs) (hframes' : ShapedFrames (childOf m') hole' fs) :
    TreeRepair.pathLinked m' (pathOf fs) = TreeRepair.pathLinked m (pathOf fs) := by
  cases fs with
  | nil => rfl
  | cons f fs =>
    exact hkept.tail.pathLinked hframes.2.2.2 hframes'.2.2.2 (hkept.color f (by simp) _ (.inl rfl))
      (hkept.parent f (by simp) _ (.inl rfl))

/-- What the loop knows when it looks at a node: the child pointers spell a
tree in which this node and the path above it are in focus. -/
structure Focus (m : Nodes V) (root : Option Addr) (node : Addr) (s : Skeleton Addr)
    (fs : List (Frame Addr)) : Prop where
  spells : Spells m root (plug s fs)
  here : s.root = some node
  link : parentOf m node = (fs.map Frame.addr).head?
  climb : pathLinked m (pathOf fs) = true
  top : ∀ f, fs.getLast? = some f → colorOf m f.addr ≠ some .r

theorem getUncle_eq {m : Nodes V} {node p g : Addr} {e : Dir} (hnode : parentOf m node = some p)
    (hp : parentOf m p = some g) (hside : (if childOf m .left g = some p then Dir.left
      else .right) = e) (hg : (m g).isSome) : getUncle m node = some (childOf m e.flip g) := by
  obtain ⟨n, hn, hn'⟩ := Option.bind_eq_some_iff.mp hnode
  obtain ⟨np, hnp, hnp'⟩ := Option.bind_eq_some_iff.mp hp
  obtain ⟨ng, hng⟩ := Option.isSome_iff_exists.mp hg
  subst hside
  by_cases hleft : ng.left = some p <;>
    simp [getUncle, hn, hn', hnp, hnp', hng, childOf, TreeNode.child, hleft, Dir.flip]

/-- A memory in which only colours differ. -/
structure Recolored (m m' : Nodes V) : Prop where
  child : childOf m' = childOf m
  parent : parentOf m' = parentOf m
  entry : entryOf m' = entryOf m

theorem Recolored.trans {m₁ m₂ m₃ : Nodes V} (h : Recolored m₁ m₂) (h' : Recolored m₂ m₃) :
    Recolored m₁ m₃ :=
  ⟨h'.child.trans h.child, h'.parent.trans h.parent, h'.entry.trans h.entry⟩

theorem Recolored.spells {m m' : Nodes V} {root : Option Addr} {t : Skeleton Addr}
    (h : Recolored m m') (hspells : Spells m root t) : Spells m' root t := by
  refine ⟨h.child ▸ hspells.shaped, hspells.root_eq, hspells.nodup, fun a ha => ?_⟩
  rw [← isSome_entryOf, h.entry, isSome_entryOf]
  exact hspells.alloc a ha

theorem exists_write_color {m : Nodes V} {a : Addr} (ha : (m a).isSome) (c : Color) :
    ∃ m', write m a (fun n => { n with color := c }) = some m' ∧ Recolored m m' ∧
      ∀ x, colorOf m' x = if x = a then some c else colorOf m x := by
  obtain ⟨n, hn⟩ := Option.isSome_iff_exists.mp ha
  refine ⟨_, write_eq hn _, ⟨?_, ?_, ?_⟩, fun x => colorOf_update⟩
  · funext d x
    rw [childOf_update]
    split
    · simp_all [childOf, TreeNode.child]
    · rfl
  · funext x
    rw [parentOf_update]
    split
    · simp_all [parentOf]
    · rfl
  · funext x
    rw [entryOf_update]
    split
    · simp_all [entryOf]
    · rfl

/-- The assignments of a turn that recolours. -/
def recolour (m : Nodes V) (p uncle gp : Addr) : Option (Nodes V) := do
  let m ← write m p fun n => { n with color := .b }
  let m ← write m uncle fun n => { n with color := .b }
  write m gp fun n => { n with color := .r }

theorem recolour_spec {m : Nodes V} {p u g : Addr} (hp : (m p).isSome) (hu : (m u).isSome)
    (hg : (m g).isSome) : ∃ m', recolour m p u g = some m' ∧ Recolored m m' ∧
      ∀ x, colorOf m' x = if x = g then some .r else if x = u ∨ x = p then some .b
        else colorOf m x := by
  obtain ⟨m₁, h₁, hr₁, hc₁⟩ := exists_write_color hp .b
  have hsome₁ (x : Addr) : (m₁ x).isSome = (m x).isSome := by
    rw [← isSome_entryOf, hr₁.entry, isSome_entryOf]
  obtain ⟨m₂, h₂, hr₂, hc₂⟩ := exists_write_color (hsome₁ u ▸ hu) .b
  have hsome₂ (x : Addr) : (m₂ x).isSome = (m x).isSome := by
    rw [← isSome_entryOf, hr₂.entry, isSome_entryOf, hsome₁]
  obtain ⟨m₃, h₃, hr₃, hc₃⟩ := exists_write_color (hsome₂ g ▸ hg) .r
  refine ⟨m₃, by simp [recolour, h₁, h₂, h₃], (hr₁.trans hr₂).trans hr₃, fun x => ?_⟩
  rw [hc₃, hc₂, hc₁]
  by_cases hxu : x = u <;> simp [hxu]

/-- The rotations of a turn that rotates, for a node on the `d` side of `p`
and `p` on the `e` side of `gp`. -/
def turn (d e : Dir) (m : Nodes V) (root : Option Addr) (p gp : Addr) :
    Option (Nodes V × Option Addr) := do
  let (m, root) ← if d ≠ e then rotate e.flip m root p else some (m, root)
  rotate e m root gp

/-- One turn of the loop when the pointers it follows are right: the mirrored
halves of the source, by the side `e` on which `p` hangs below `g`. -/
theorem fixStep_eq {m : Nodes V} {root : Option Addr} {node p g : Addr} {d e : Dir}
    (hnode : parentOf m node = some p) (hp : parentOf m p = some g) (hg : (m g).isSome)
    (hside : (if childOf m .left g = some p then Dir.left else .right) = e)
    (hinner : childOf m e.flip p = some node ↔ d ≠ e) :
    fixStep m root node p =
      match (childOf m e.flip g).filter fun u => colorOf m u = some .r with
      | some u => (recolour m p u g).map fun m => (m, root, g)
      | none => (turn d e m root p g).map fun (m, root) => (m, root, node) := by
  obtain ⟨np, hnp, hnp'⟩ := Option.bind_eq_some_iff.mp hp
  obtain ⟨ng, hng⟩ := Option.isSome_iff_exists.mp hg
  have huncle := getUncle_eq hnode hp hside hg
  unfold fixStep
  simp only [hnp, hnp', Option.bind_eq_bind, Option.bind_some, huncle, hng]
  cases (childOf m e.flip g).filter fun u => colorOf m u = some .r with
  | some u => simp [recolour, Option.map_eq_bind, Function.comp_def, Option.bind_assoc]
  | none =>
    have hleft : ng.left = some p ↔ e = .left := by
      rw [← hside]
      split <;> simp_all [childOf, TreeNode.child]
    cases e with
    | left =>
      have hright : np.right = some node ↔ d ≠ .left := by
        simpa [childOf, hnp, TreeNode.child, Dir.flip] using hinner
      by_cases hd : d = .left <;> simp [hleft, hright, hd, rightRotate, leftRotate, Dir.flip, turn,
        Option.map_eq_bind, Function.comp_def, Option.bind_assoc]
    | right =>
      have hright : np.left = some node ↔ d ≠ .right := by
        simpa [childOf, hnp, TreeNode.child, Dir.flip] using hinner
      by_cases hd : d = .right <;> simp [hleft, hright, hd, rightRotate, leftRotate, Dir.flip, turn,
        Option.map_eq_bind, Function.comp_def, Option.bind_assoc]

theorem redParent_eq {m : Nodes V} {root : Option Addr} {node : Addr} {s : Skeleton Addr}
    {fs : List (Frame Addr)} (h : Focus m root node s fs) :
    redParent m node = some ((fs.map Frame.addr).head?.filter fun p => colorOf m p = some .r) := by
  have hmem : node ∈ (plug s fs).inorder :=
    mem_inorder_plug.mpr (.inl (Skeleton.mem_inorder_of_root h.here))
  obtain ⟨n, hn⟩ := Option.isSome_iff_exists.mp (h.spells.alloc node hmem)
  have hparent : n.parent = (fs.map Frame.addr).head? := by
    simpa [parentOf, hn] using h.link
  cases fs with
  | nil => simp [redParent, hn, hparent]
  | cons f fs =>
    obtain ⟨np, hnp⟩ := Option.isSome_iff_exists.mp (h.spells.alloc f.addr
      (mem_inorder_plug.mpr (.inr ⟨f, by simp, .inl rfl⟩)))
    by_cases hcolor : np.color = .r <;>
      simp [redParent, hn, hparent, colorOf, hnp, hcolor, Option.filter]

/-- The three kinds of turns. -/
inductive Turn where
  | recolour
  | outer
  | inner
deriving DecidableEq

/-- What a turn does to the memory and to the focus, with the node it goes on
from. -/
inductive Turned (m m' : Nodes V) (node : Addr) :
    Turn → Skeleton Addr → List (Frame Addr) → Addr → Skeleton Addr → List (Frame Addr) → Prop
  | recolour {d e : Dir} {p g u : Addr} {s v w : Skeleton Addr} {rest : List (Frame Addr)}
    (hu : w.root = some u) (hred : colorOf m u = some .r) (links : Recolored m m')
    (color : ∀ x, colorOf m' x = if x = g then some .r else if x = u ∨ x = p then some .b
      else colorOf m x) :
    Turned m m' node .recolour s (⟨d, p, v⟩ :: ⟨e, g, w⟩ :: rest) g
      (.nodeAt e (.nodeAt d s p v) g w) rest
  | outer {d : Dir} {p g : Addr} {s v w : Skeleton Addr} {rest : List (Frame Addr)}
    (hblack : w.root.bind (colorOf m) ≠ some .r) (rotated : Rotated d m m' g p) :
    Turned m m' node .outer s (⟨d, p, v⟩ :: ⟨d, g, w⟩ :: rest) node s
      (⟨d, p, .nodeAt d v g w⟩ :: rest)
  | inner {e : Dir} {p g : Addr} {x y v w : Skeleton Addr} {rest : List (Frame Addr)}
    {m₁ : Nodes V} (hblack : w.root.bind (colorOf m) ≠ some .r)
    (lower : Rotated e.flip m m₁ p node) (upper : Rotated e m₁ m' g node) :
    Turned m m' node .inner (.nodeAt e.flip x node y) (⟨e.flip, p, v⟩ :: ⟨e, g, w⟩ :: rest) node
      (.nodeAt e (.nodeAt e v p y) node (.nodeAt e x g w)) rest

theorem Turned.entry {m m' : Nodes V} {node node' : Addr} {turn : Turn} {s s' : Skeleton Addr}
    {fs fs' : List (Frame Addr)} (h : Turned m m' node turn s fs node' s' fs') (a : Addr) :
    entryOf m' a = entryOf m a := by
  cases h with
  | recolour _ _ links => rw [links.entry]
  | outer _ rotated => exact rotated.entry a
  | inner _ lower upper => exact (upper.entry a).trans (lower.entry a)

theorem Turned.inorder {m m' : Nodes V} {node node' : Addr} {turn : Turn} {s s' : Skeleton Addr}
    {fs fs' : List (Frame Addr)} (h : Turned m m' node turn s fs node' s' fs') :
    (plug s' fs').inorder = (plug s fs).inorder := by
  cases h with
  | recolour => rfl
  | outer => exact inorder_plug_congr (inorder_rotate ..) _
  | inner => exact inorder_plug_congr (inorder_rotate_inner ..) _

theorem Turned.height {m m' : Nodes V} {node node' : Addr} {turn : Turn} {s s' : Skeleton Addr}
    {fs fs' : List (Frame Addr)} (h : Turned m m' node turn s fs node' s' fs') :
    fs'.length < fs.length := by
  cases h with
  | recolour => simp only [List.length_cons]; omega
  | outer => simp
  | inner => simp only [List.length_cons]; omega

theorem Turned.kept {m m' : Nodes V} {node node' : Addr} {turn : Turn} {s s' : Skeleton Addr}
    {f : Frame Addr} {fs fs' : List (Frame Addr)}
    (h : Turned m m' node turn s (f :: fs) node' s' fs')
    (hnodup : (plug s (f :: fs)).inorder.Nodup) : FramesKept m m' fs.tail := by
  have hne (g : Frame Addr) (rest : List (Frame Addr)) (hfs : fs = g :: rest) (b : Addr)
      (hb : b ∈ (Skeleton.nodeAt g.dir (.nodeAt f.dir s f.addr f.sibling) g.addr g.sibling).inorder)
      (k) (hk : k ∈ rest) (a) (ha : a = k.addr ∨ a ∈ k.sibling.inorder) : a ≠ b := by
    subst hfs
    exact @ne_of_nodup_plug _ _ rest hnodup _ _ hb _ hk ha
  cases h with
  | @recolour d e p _ u s v w rest hu hred links color =>
    have hneu := hne _ _ rfl u (by simp [Skeleton.mem_inorder_nodeAt, Skeleton.mem_inorder_of_root hu])
    have hnep := hne _ _ rfl p (by simp [Skeleton.mem_inorder_nodeAt])
    have hneg := hne _ _ rfl node' (by simp [Skeleton.mem_inorder_nodeAt])
    refine ⟨fun k hk a ha => ?_, fun k hk a ha => by rw [links.parent]⟩
    rw [color, if_neg (hneg k hk a ha), if_neg]
    exact not_or.mpr ⟨hneu k hk a ha, hnep k hk a ha⟩
  | @outer d p g s v w rest hblack rotated =>
    have hnep := hne _ _ rfl p (by simp [Skeleton.mem_inorder_nodeAt])
    have hneg := hne _ _ rfl g (by simp [Skeleton.mem_inorder_nodeAt])
    exact ⟨fun k hk a ha => rotated.color_other a (hneg k hk a ha) (hnep k hk a ha),
      fun k hk a ha => rotated.parent_other a (hneg k hk a ha) (hnep k hk a ha)⟩
  | @inner e p g x y v w rest m₁ hblack lower upper =>
    have hnen := hne _ _ rfl node (by simp [Skeleton.mem_inorder_nodeAt])
    have hnep := hne _ _ rfl p (by simp [Skeleton.mem_inorder_nodeAt])
    have hneg := hne _ _ rfl g (by simp [Skeleton.mem_inorder_nodeAt])
    refine ⟨fun k hk a ha => ?_, fun k hk a ha => ?_⟩
    · rw [upper.color_other a (hneg k hk a ha) (hnen k hk a ha),
        lower.color_other a (hnep k hk a ha) (hnen k hk a ha)]
    · rw [upper.parent_other a (hneg k hk a ha) (hnen k hk a ha),
        lower.parent_other a (hnep k hk a ha) (hnen k hk a ha)]

section Turn
variable {m : Nodes V} {root : Option Addr} {node p g : Addr} {d e : Dir} {s v w : Skeleton Addr}
  {rest : List (Frame Addr)}

theorem Focus.recolour (h : Focus m root node s (⟨d, p, v⟩ :: ⟨e, g, w⟩ :: rest)) {u : Addr}
    (hu : w.root = some u) (hred : colorOf m u = some .r)
    (hlink : parentOf m g = (rest.map Frame.addr).head?)
    (hclimb : pathLinked m (pathOf rest) = true) :
    ∃ m' s' fs', TreeRepair.recolour m p u g = some m' ∧ Focus m' root g s' fs' ∧
      Turned m m' node .recolour s (⟨d, p, v⟩ :: ⟨e, g, w⟩ :: rest) g s' fs' := by
  have hspelled : Spells m root (plug (.nodeAt e (.nodeAt d s p v) g w) rest) := h.spells
  have hmem (a : Addr) (ha : a = p ∨ a = u ∨ a = g) :
      a ∈ (Skeleton.nodeAt e (.nodeAt d s p v) g w).inorder := by
    have := Skeleton.mem_inorder_of_root hu
    simp only [Skeleton.mem_inorder_nodeAt]
    rcases ha with rfl | rfl | rfl <;> simp_all
  have halloc (a : Addr) (ha : a = p ∨ a = u ∨ a = g) : (m a).isSome :=
    hspelled.alloc a (mem_inorder_plug.mpr (.inl (hmem a ha)))
  obtain ⟨m', hm', hrecolored, hcolor⟩ := recolour_spec (halloc p (by simp)) (halloc u (by simp))
    (halloc g (by simp))
  have hspells := hrecolored.spells hspelled
  have hframes := (shaped_plug.mp hspelled.shaped).2
  have hframes' := (shaped_plug.mp hspells.shaped).2
  have hturned : Turned m m' node .recolour s (⟨d, p, v⟩ :: ⟨e, g, w⟩ :: rest) g
      (.nodeAt e (.nodeAt d s p v) g w) rest := .recolour hu hred hrecolored hcolor
  have hkept : FramesKept m m' rest := hturned.kept h.spells.nodup
  refine ⟨m', _, _, hm', ⟨hspells, ?_, ?_, ?_, ?_⟩, hturned⟩
  · exact Skeleton.root_nodeAt ..
  · rw [hrecolored.parent, hlink]
  · rw [hkept.pathLinked_tail hframes hframes', hclimb]
  · intro f hf
    have hmem_f : f ∈ rest := List.mem_of_getLast? hf
    rw [hkept.color f hmem_f _ (.inl rfl)]
    refine h.top f ?_
    simp_all [List.getLast?_cons]

theorem Focus.outer (h : Focus m root node s (⟨d, p, v⟩ :: ⟨d, g, w⟩ :: rest))
    (hblack : w.root.bind (colorOf m) ≠ some .r)
    (hlink : parentOf m g = (rest.map Frame.addr).head?)
    (hclimb : pathLinked m ((g, d) :: pathOf rest) = true) :
    ∃ m' root' s' fs', turn d d m root p g = some (m', root') ∧ Focus m' root' node s' fs' ∧
      Turned m m' node .outer s (⟨d, p, v⟩ :: ⟨d, g, w⟩ :: rest) node s' fs' := by
  have hspelled : Spells m root (plug (.nodeAt d (.nodeAt d s p v) g w) rest) := h.spells
  obtain ⟨m', root', hrotate, hrot, hspells⟩ := rotate_spec hspelled hlink
  obtain ⟨hsub, -⟩ := nodup_plug hspelled.nodup
  have hnode := Skeleton.mem_inorder_of_root h.here
  have hne_p : node ≠ p := by
    rintro rfl
    exact (nodup_nodeAt.mp (nodup_nodeAt.mp hsub).2.1).1.1 hnode
  have hne_g : node ≠ g := by
    rintro rfl
    exact (nodup_nodeAt.mp hsub).1.1 (Skeleton.mem_inorder_nodeAt.mpr (.inl hnode))
  have hturned : Turned m m' node .outer s (⟨d, p, v⟩ :: ⟨d, g, w⟩ :: rest) node s
      (⟨d, p, .nodeAt d v g w⟩ :: rest) := .outer hblack hrot
  have hkept : FramesKept m m' rest := hturned.kept h.spells.nodup
  have hframes := (shaped_plug.mp hspelled.shaped).2
  have hframes' := (shaped_plug.mp hspells.shaped).2
  refine ⟨m', root', s, ⟨d, p, .nodeAt d v g w⟩ :: rest, by simp [turn, hrotate],
    ⟨hspells, h.here, ?_, ?_, ?_⟩, hturned⟩
  · rw [hrot.parent_other node hne_g hne_p, h.link]
    rfl
  · rw [pathOf_cons, hkept.pathLinked hframes hframes' hrot.color_p hrot.parent_p, hclimb]
  · intro f hf
    cases rest with
    | nil =>
      obtain rfl : ⟨d, p, .nodeAt d v g w⟩ = f := by simpa using hf
      rw [hrot.color_p]
      exact h.top ⟨d, g, w⟩ rfl
    | cons k rest =>
      rw [List.getLast?_cons_cons] at hf
      rw [hkept.color f (List.mem_of_getLast? hf) _ (.inl rfl)]
      exact h.top f (by simpa using hf)

/-- The new node on the inner side: it first takes the place of `p`, then that
of `g`. -/
theorem Focus.inner (h : Focus m root node s (⟨e.flip, p, v⟩ :: ⟨e, g, w⟩ :: rest))
    (hblack : w.root.bind (colorOf m) ≠ some .r)
    (hparent : parentOf m p = some g) (hlink : parentOf m g = (rest.map Frame.addr).head?)
    (hclimb : pathLinked m (pathOf rest) = true) :
    ∃ m' root' s' fs', turn e.flip e m root p g = some (m', root') ∧ Focus m' root' node s' fs' ∧
      Turned m m' node .inner s (⟨e.flip, p, v⟩ :: ⟨e, g, w⟩ :: rest) node s' fs' := by
  obtain ⟨x, y, rfl⟩ := Skeleton.exists_nodeAt e.flip h.here
  have hspelled₁ : Spells m root
      (plug (.nodeAt e.flip (.nodeAt e.flip x node y) p v) (⟨e, g, w⟩ :: rest)) := h.spells
  obtain ⟨m₁, root₁, hrotate₁, hrot₁, hspells₁⟩ := rotate_spec hspelled₁ (by simpa using hparent)
  obtain ⟨hspelled, -, hnodup, -⟩ := h.spells
  obtain ⟨hgp, hgn⟩ : g ≠ p ∧ g ≠ node := by
    have hsub := (nodup_nodeAt.mp (@nodup_plug _ _ rest hnodup).1).1.1
    constructor <;> rintro rfl <;> exact hsub (by simp [Skeleton.mem_inorder_nodeAt])
  have hlink₁ : parentOf m₁ g = (rest.map Frame.addr).head? := by
    rw [hrot₁.parent_other g hgp hgn, hlink]
  rw [Skeleton.nodeAt_flip, Skeleton.nodeAt_flip, plug] at hspells₁
  obtain ⟨m₂, root₂, hrotate₂, hrot₂, hspells₂⟩ := rotate_spec hspells₁ hlink₁
  have hturned : Turned m m₂ node .inner (.nodeAt e.flip x node y)
      (⟨e.flip, p, v⟩ :: ⟨e, g, w⟩ :: rest) node
      (.nodeAt e (.nodeAt e v p y) node (.nodeAt e x g w)) rest := .inner hblack hrot₁ hrot₂
  have hkept : FramesKept m m₂ rest := hturned.kept hnodup
  have hframes := (shaped_plug.mp hspelled).2.2.2.2.2.2.2
  have hframes₂ := (shaped_plug.mp hspells₂.shaped).2
  refine ⟨m₂, root₂, _, _, by simp [turn, hrotate₁, hrotate₂], ⟨hspells₂, ?_, ?_, ?_, ?_⟩, hturned⟩
  · exact Skeleton.root_nodeAt ..
  · rw [hrot₂.parent_p, hlink₁]
  · rw [hkept.pathLinked_tail hframes hframes₂, hclimb]
  · intro f hf
    rw [hkept.color f (List.mem_of_getLast? hf) _ (.inl rfl)]
    refine h.top f ?_
    simp_all [List.getLast?_cons]

/-- A turn of the loop below a red parent. That parent is not the root, so the
path goes on above it. -/
theorem Focus.turned {f : Frame Addr} {fs : List (Frame Addr)} (h : Focus m root node s (f :: fs))
    (hred : colorOf m f.addr = some .r) :
    ∃ m' root' node' turn s' fs', fixStep m root node f.addr = some (m', root', node') ∧
      Focus m' root' node' s' fs' ∧ Turned m m' node turn s (f :: fs) node' s' fs' := by
  obtain ⟨d, p, v⟩ := f
  cases fs with
  | nil => exact absurd hred (h.top ⟨d, p, v⟩ rfl)
  | cons f rest =>
    obtain ⟨e, g, w⟩ := f
    have hclimb := h.climb
    rw [pathOf_cons, pathOf_cons, pathLinked_cons_cons] at hclimb
    obtain ⟨hparent, hlink, hclimb⟩ := hclimb hred
    rw [map_fst_pathOf] at hlink
    obtain ⟨-, hframes⟩ := shaped_plug.mp h.spells.shaped
    rw [h.here] at hframes
    obtain ⟨hhole, hother, -, hframes⟩ := hframes
    have hside := side_eq hframes ((nodup_plug_frame h.spells.nodup).2 _ (by simp)).2
    have hinner : childOf m e.flip p = some node ↔ d ≠ e := by
      rcases Dir.eq_or_eq_flip e d with rfl | rfl
      · have hnot := ((nodup_plug h.spells.nodup).2 node (Skeleton.mem_inorder_of_root h.here)
          ⟨d, p, v⟩ (by simp)).2
        simp only [hother, ne_eq, not_true_eq_false, iff_false]
        exact fun hroot => hnot (Skeleton.mem_inorder_of_root hroot)
      · simpa using hhole
    have hg : (m g).isSome :=
      h.spells.alloc g (mem_inorder_plug.mpr (.inr ⟨⟨e, g, w⟩, by simp, .inl rfl⟩))
    have hbeside : childOf m e.flip g = w.root := hframes.2.1
    rw [fixStep_eq (by simpa using h.link) hparent hg hside hinner, hbeside]
    rw [hbeside] at hclimb
    cases huncle : w.root.filter fun u => colorOf m u = some .r with
    | some u =>
      obtain ⟨hu, hcolor⟩ := Option.filter_eq_some_iff.mp huncle
      have hcolor' : colorOf m u = some .r := by simpa using hcolor
      rw [if_pos (.inl (by simpa [hu] using hcolor'))] at hclimb
      obtain ⟨m', s', fs', hm', hfocus, hturned⟩ := h.recolour hu hcolor' hlink hclimb
      exact ⟨m', root, g, .recolour, s', fs', by simp [hm'], hfocus, hturned⟩
    | none =>
      have hblack : w.root.bind (colorOf m) ≠ some .r := by
        cases hu : w.root with
        | none => simp
        | some u => simpa [hu, Option.filter] using huncle
      rcases Dir.eq_or_eq_flip e d with rfl | rfl
      · rw [if_neg (by simp [hblack])] at hclimb
        obtain ⟨m', root', s', fs', hturn, hfocus, hturned⟩ := h.outer hblack hlink hclimb
        exact ⟨m', root', node, .outer, s', fs', by simp [hturn], hfocus, hturned⟩
      · rw [if_pos (by simp)] at hclimb
        obtain ⟨m', root', s', fs', hturn, hfocus, hturned⟩ := h.inner hblack hparent hlink hclimb
        exact ⟨m', root', node, .inner, s', fs', by simp [hturn], hfocus, hturned⟩

end Turn

/-- The loop rule. What every turn keeps holds when the loop ends, below a
parent that is not red. -/
theorem Focus.loop {Inv : Nodes V → Addr → Skeleton Addr → List (Frame Addr) → Prop}
    (hturn : ∀ {m m' : Nodes V} {root root' : Option Addr} {node node' : Addr} {turn : Turn}
      {s s' : Skeleton Addr} {f : Frame Addr} {fs fs' : List (Frame Addr)},
      Focus m root node s (f :: fs) → colorOf m f.addr = some .r →
      Focus m' root' node' s' fs' → Turned m m' node turn s (f :: fs) node' s' fs' →
      Inv m node s (f :: fs) → Inv m' node' s' fs')
    {bound : Nat} {m : Nodes V} {root : Option Addr} {node : Addr} {s : Skeleton Addr}
    {fs : List (Frame Addr)} (h : Focus m root node s fs) (hinv : Inv m node s fs)
    (hbound : fs.length < bound) :
    ∃ m' root' node' s' fs', fixLoop bound m root node = some (m', root') ∧
      Focus m' root' node' s' fs' ∧ Inv m' node' s' fs' ∧
        ∀ f, fs'.head? = some f → colorOf m' f.addr ≠ some .r := by
  induction bound generalizing m root node s fs with
  | zero => omega
  | succ bound ih =>
    rw [fixLoop, redParent_eq h]
    cases hred : (fs.map Frame.addr).head?.filter fun p => colorOf m p = some .r with
    | none =>
      refine ⟨m, root, node, s, fs, rfl, h, hinv, fun f hf => ?_⟩
      simpa [List.head?_map, hf, Option.filter] using hred
    | some p =>
      obtain ⟨hhead, hcolor⟩ := Option.filter_eq_some_iff.mp hred
      cases fs with
      | nil => simp at hhead
      | cons f fs =>
        obtain rfl : f.addr = p := by simpa using hhead
        have hcolor' : colorOf m f.addr = some .r := by simpa using hcolor
        obtain ⟨m₁, root₁, node₁, turn, s₁, fs₁, hstep, hfocus, hturned⟩ := h.turned hcolor'
        have hheight := hturned.height
        obtain ⟨m₂, root₂, node₂, s₂, fs₂, hloop, hlast⟩ :=
          ih hfocus (hturn h hcolor' hfocus hturned hinv) (by simp at hbound hheight; omega)
        exact ⟨m₂, root₂, node₂, s₂, fs₂, by simp [hstep, hloop], hlast⟩

theorem Focus.repair {Inv : Nodes V → Addr → Skeleton Addr → List (Frame Addr) → Prop}
    (hturn : ∀ {m m' : Nodes V} {root root' : Option Addr} {node node' : Addr} {turn : Turn}
      {s s' : Skeleton Addr} {f : Frame Addr} {fs fs' : List (Frame Addr)},
      Focus m root node s (f :: fs) → colorOf m f.addr = some .r →
      Focus m' root' node' s' fs' → Turned m m' node turn s (f :: fs) node' s' fs' →
      Inv m node s (f :: fs) → Inv m' node' s' fs')
    {bound : Nat} {m : Nodes V} {root : Option Addr} {node : Addr} {s : Skeleton Addr}
    {fs : List (Frame Addr)} (h : Focus m root node s fs) (hinv : Inv m node s fs)
    (hbound : fs.length < bound) :
    ∃ m₁ m' root' node' s' fs' top, fixAfterInsert bound m root node = some (m', root') ∧
      Inv m₁ node' s' fs' ∧ (∀ f, fs'.head? = some f → colorOf m₁ f.addr ≠ some .r) ∧
      Spells m' root' (plug s' fs') ∧ (plug s' fs').root = some top ∧
      (plug s' fs').inorder = (plug s fs).inorder ∧ (∀ a, entryOf m' a = entryOf m a) ∧
        Recolored m₁ m' ∧ ∀ x, colorOf m' x = if x = top then some .b else colorOf m₁ x := by
  let Inv' (m₁ : Nodes V) (node₁ : Addr) (s₁ : Skeleton Addr) (fs₁ : List (Frame Addr)) : Prop :=
    Inv m₁ node₁ s₁ fs₁ ∧ (plug s₁ fs₁).inorder = (plug s fs).inorder ∧
      ∀ a, entryOf m₁ a = entryOf m a
  have hinit : Inv' m node s fs := ⟨hinv, rfl, fun _ => rfl⟩
  obtain ⟨m₁, root', node', s', fs', hloop, hfocus, ⟨hinv', hinorder, hentry⟩, hdone⟩ :=
    Focus.loop (fun h hred h' hturned ⟨hinv, hinorder, hentry⟩ =>
      ⟨hturn h hred h' hturned hinv, hturned.inorder.trans hinorder,
        fun a => (hturned.entry a).trans (hentry a)⟩) h hinit hbound
  have hnode : node' ∈ (plug s' fs').inorder :=
    mem_inorder_plug.mpr (.inl (Skeleton.mem_inorder_of_root hfocus.here))
  cases ht : (plug s' fs').root with
  | none =>
    rw [Skeleton.root_eq_none.mp ht] at hnode
    simp [Skeleton.inorder] at hnode
  | some top =>
    have hroot : root' = some top := hfocus.spells.root_eq.trans ht
    obtain ⟨m', hm', hrecolored, hcolor⟩ :=
      exists_write_color (hfocus.spells.alloc top (Skeleton.mem_inorder_of_root ht)) .b
    refine ⟨m₁, m', root', node', s', fs', top, ?_, hinv', hdone, hrecolored.spells hfocus.spells,
      ht, hinorder, fun a => by rw [hrecolored.entry, hentry], hrecolored, hcolor⟩
    simp [fixAfterInsert, hloop, hroot, hm']

theorem fixAfterInsert_spec {bound : Nat} {m : Nodes V} {root : Option Addr} {node : Addr}
    {s : Skeleton Addr} {fs : List (Frame Addr)} (h : Focus m root node s fs)
    (hbound : fs.length < bound) :
    ∃ m' root' t, fixAfterInsert bound m root node = some (m', root') ∧ Spells m' root' t ∧
      t.inorder = (plug s fs).inorder ∧ (∀ a, entryOf m' a = entryOf m a) ∧
        root'.bind (colorOf m') = some .b := by
  let Inv (_ : Nodes V) (_ : Addr) (_ : Skeleton Addr) (_ : List (Frame Addr)) : Prop := True
  have hinit : Inv m node s fs := trivial
  obtain ⟨m₁, m', root', node', s', fs', top, hfix, -, -, hspells, htop, hinorder, hentry, -,
    hcolor⟩ := h.repair (fun _ _ _ _ _ => trivial) hinit hbound
  refine ⟨m', root', _, hfix, hspells, hinorder, hentry, ?_⟩
  rw [hspells.root_eq, htop, Option.bind_some, hcolor, if_pos rfl]

end SmtpMta.Common.TreeRepair
