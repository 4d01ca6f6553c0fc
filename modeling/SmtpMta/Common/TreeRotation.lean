import SmtpMta.Common.RedBlackTree

/-! What one rotation and one turn of the repair loop do to a subtree that the
child pointers spell, when the parent pointers they follow are right. -/
namespace SmtpMta.Common.TreeRotation
open Library.CString Library.SearchTree ListHead RedBlackTree

variable {V : Type}

def childOf (m : Nodes V) (d : Dir) (a : Addr) : Option Addr := (m a).bind (·.child d)
def parentOf (m : Nodes V) (a : Addr) : Option Addr := (m a).bind TreeNode.parent

def entryOf (m : Nodes V) (a : Addr) : Option (Bytes × V) :=
  (m a).map fun n => (n.key, n.value)

@[simp] theorem child_setChild (n : TreeNode V) (d e : Dir) (target : Option Addr) :
    (n.setChild d target).child e = if e = d then target else n.child e := by
  cases d <;> cases e <;> simp [TreeNode.child, TreeNode.setChild]

@[simp] theorem parent_setChild (n : TreeNode V) (d : Dir) (target : Option Addr) :
    (n.setChild d target).parent = n.parent := by
  cases d <;> rfl

@[simp] theorem color_setChild (n : TreeNode V) (d : Dir) (target : Option Addr) :
    (n.setChild d target).color = n.color := by
  cases d <;> rfl

@[simp] theorem key_setChild (n : TreeNode V) (d : Dir) (target : Option Addr) :
    (n.setChild d target).key = n.key := by
  cases d <;> rfl

@[simp] theorem value_setChild (n : TreeNode V) (d : Dir) (target : Option Addr) :
    (n.setChild d target).value = n.value := by
  cases d <;> rfl

theorem write_eq {m : Nodes V} {a : Addr} {n : TreeNode V} (h : m a = some n)
    (f : TreeNode V → TreeNode V) : write m a f = some (Function.update m a (some (f n))) := by
  simp [write, h]

theorem childOf_update {m : Nodes V} {a x : Addr} {n : TreeNode V} {d : Dir} :
    childOf (Function.update m a (some n)) d x = if x = a then n.child d else childOf m d x := by
  by_cases h : x = a <;> simp [childOf, Function.update, h]

theorem parentOf_update {m : Nodes V} {a x : Addr} {n : TreeNode V} :
    parentOf (Function.update m a (some n)) x = if x = a then n.parent else parentOf m x := by
  by_cases h : x = a <;> simp [parentOf, Function.update, h]

theorem colorOf_update {m : Nodes V} {a x : Addr} {n : TreeNode V} :
    colorOf (Function.update m a (some n)) x = if x = a then some n.color else colorOf m x := by
  by_cases h : x = a <;> simp [colorOf, Function.update, h]

theorem entryOf_update {m : Nodes V} {a x : Addr} {n : TreeNode V} :
    entryOf (Function.update m a (some n)) x =
      if x = a then some (n.key, n.value) else entryOf m x := by
  by_cases h : x = a <;> simp [entryOf, Function.update, h]

theorem isSome_entryOf {m : Nodes V} {a : Addr} : (entryOf m a).isSome = (m a).isSome := by
  simp [entryOf]

/-- The two nodes of a rotation after its assignments. -/
def lowered (d : Dir) (n pivot : TreeNode V) (p : Addr) : TreeNode V :=
  { n.setChild d (pivot.child d.flip) with parent := some p, color := .r }

def raised (d : Dir) (n pivot : TreeNode V) (g : Addr) : TreeNode V :=
  { pivot.setChild d.flip (some g) with parent := n.parent, color := n.color }

theorem child_lowered (d e : Dir) (n pivot : TreeNode V) (p : Addr) :
    (lowered d n pivot p).child e = if e = d then pivot.child d.flip else n.child e := by
  cases d <;> cases e <;> rfl

theorem child_raised (d e : Dir) (n pivot : TreeNode V) (g : Addr) :
    (raised d n pivot g).child e = if e = d.flip then some g else pivot.child e := by
  cases d <;> cases e <;> rfl

theorem rotateLinks_eq {d : Dir} {m : Nodes V} {g p : Addr} {n pivot : TreeNode V}
    (hg : m g = some n) (hp : m p = some pivot) (hne : p ≠ g) :
    rotateLinks d m g p n.parent = some (Function.update
      (Function.update m g (some (lowered d n pivot p))) p (some (raised d n pivot g))) := by
  simp only [rotateLinks, hg, hp, write, Option.bind_eq_bind, Option.bind_some, Option.map_some,
    Function.update_self, ne_eq, hne, hne.symm, not_false_eq_true, Function.update_of_ne,
    color_setChild, Function.update_idem, Function.update_comm hne]
  rfl

/-- The link fields after a rotation at `g` that raised its `d` child `p`. -/
structure Rotated (d : Dir) (m m' : Nodes V) (g p : Addr) : Prop where
  child_g : ∀ e, childOf m' e g = if e = d then childOf m d.flip p else childOf m e g
  child_p : ∀ e, childOf m' e p = if e = d.flip then some g else childOf m e p
  child_parent : ∀ q, parentOf m g = some q → ∀ e, childOf m' e q =
    if e = (if childOf m .left q = some g then .left else .right) then some p else childOf m e q
  child_other : ∀ x, x ≠ g → x ≠ p → parentOf m g ≠ some x → ∀ e, childOf m' e x = childOf m e x
  parent_g : parentOf m' g = some p
  parent_p : parentOf m' p = parentOf m g
  parent_other : ∀ x, x ≠ g → x ≠ p → parentOf m' x = parentOf m x
  color_p : colorOf m' p = colorOf m g
  color_g : colorOf m' g = some .r
  color_other : ∀ x, x ≠ g → x ≠ p → colorOf m' x = colorOf m x
  entry : ∀ x, entryOf m' x = entryOf m x

theorem rotate_rotated (d : Dir) {m : Nodes V} (root : Option Addr) {g p : Addr}
    (hg : (m g).isSome) (hp : (m p).isSome) (hchild : childOf m d g = some p) (hne : p ≠ g)
    (hparent : ∀ q, parentOf m g = some q → (m q).isSome ∧ q ≠ g ∧ q ≠ p) :
    ∃ m', rotate d m root g =
      some (m', if parentOf m g = none then some p else root) ∧ Rotated d m m' g p := by
  obtain ⟨n, hn⟩ := Option.isSome_iff_exists.mp hg
  obtain ⟨pivot, hpivot⟩ := Option.isSome_iff_exists.mp hp
  have hchild' : n.child d = some p := by simpa [childOf, hn] using hchild
  have hlinks := rotateLinks_eq (d := d) hn hpivot hne
  have hparentOf : parentOf m g = n.parent := by simp [parentOf, hn]
  have hcolorOf : colorOf m g = some n.color := by simp [colorOf, hn]
  generalize hm₂ : Function.update (Function.update m g (some (lowered d n pivot p))) p
    (some (raised d n pivot g)) = m₂ at hlinks
  have hrotate : rotate d m root g = replaceChild m₂ root n.parent g p := by
    simp [rotate, hn, hchild', hlinks]
  have hchild₂ (e : Dir) (x : Addr) : childOf m₂ e x =
      if x = p then (if e = d.flip then some g else childOf m e p)
      else if x = g then (if e = d then childOf m d.flip p else childOf m e g)
      else childOf m e x := by
    rw [← hm₂, childOf_update, childOf_update, child_raised, child_lowered]
    simp [childOf, hn, hpivot]
  have hparent₂ (x : Addr) : parentOf m₂ x =
      if x = p then n.parent else if x = g then some p else parentOf m x := by
    rw [← hm₂, parentOf_update, parentOf_update]
    rfl
  have hcolor₂ (x : Addr) : colorOf m₂ x =
      if x = p then some n.color else if x = g then some .r else colorOf m x := by
    rw [← hm₂, colorOf_update, colorOf_update]
    rfl
  have hentry₂ (x : Addr) : entryOf m₂ x = entryOf m x := by
    rw [← hm₂, entryOf_update, entryOf_update]
    by_cases hxp : x = p
    · simp [hxp, raised, entryOf, hpivot]
    · by_cases hxg : x = g
      · simp [hxg, hne.symm, lowered, entryOf, hn]
      · simp [hxp, hxg]
  have hgp := hne.symm
  cases hq : n.parent with
  | none =>
    refine ⟨m₂, by simp [hrotate, replaceChild, hq, hparentOf], ?_⟩
    constructor
    case child_parent | child_other => simp_all
    case child_g | child_p => simp [hchild₂, hgp]
    case parent_g | parent_p | parent_other => simp_all
    case color_p | color_g | color_other => simp_all
    case entry => exact hentry₂
  | some q =>
    obtain ⟨hqsome, hqg, hqp⟩ := hparent q (by rw [hparentOf, hq])
    obtain ⟨nq, hnq⟩ := Option.isSome_iff_exists.mp hqsome
    have hm₂q : m₂ q = some nq := by simp [← hm₂, hqg, hqp, hnq]
    let side := if nq.left = some g then Dir.left else Dir.right
    have hside : side = if childOf m .left q = some g then .left else .right := by
      simp [side, childOf, hnq, TreeNode.child]
    refine ⟨Function.update m₂ q (some (nq.setChild side (some p))), ?_, ?_⟩
    · simp [hrotate, replaceChild, hq, hparentOf, hm₂q, write, side]
    constructor
    case child_parent =>
      intro q' hq' e
      obtain rfl : q = q' := by simpa [hparentOf, hq] using hq'
      rw [childOf_update, if_pos rfl, child_setChild, hside]
      simp [childOf, hnq]
    case child_g =>
      intro e
      rw [childOf_update, if_neg hqg.symm, hchild₂, if_neg hgp, if_pos rfl]
    case child_p =>
      intro e
      rw [childOf_update, if_neg hqp.symm, hchild₂, if_pos rfl]
    case child_other =>
      intro x hxg hxp hx e
      have hxq : x ≠ q := fun heq => hx (by rw [hparentOf, hq, heq])
      rw [childOf_update, if_neg hxq, hchild₂, if_neg hxp, if_neg hxg]
    case parent_g => rw [parentOf_update, if_neg hqg.symm, hparent₂, if_neg hgp, if_pos rfl]
    case parent_p => rw [parentOf_update, if_neg hqp.symm, hparent₂, if_pos rfl, hparentOf]
    case parent_other =>
      intro x hxg hxp
      have hnq' : parentOf m q = nq.parent := by simp [parentOf, hnq]
      rw [parentOf_update, hparent₂, if_neg hxp, if_neg hxg]
      split
      · rename_i heq
        rw [heq, hnq', parent_setChild]
      · rfl
    case color_p => rw [colorOf_update, if_neg hqp.symm, hcolor₂, if_pos rfl, hcolorOf]
    case color_g => rw [colorOf_update, if_neg hqg.symm, hcolor₂, if_neg hgp, if_pos rfl]
    case color_other =>
      intro x hxg hxp
      have hnq' : colorOf m q = some nq.color := by simp [colorOf, hnq]
      rw [colorOf_update, hcolor₂, if_neg hxp, if_neg hxg]
      split
      · rename_i heq
        rw [heq, hnq', color_setChild]
      · rfl
    case entry =>
      intro x
      rw [entryOf_update, hentry₂]
      split
      · rename_i heq
        simp [heq, entryOf, hnq]
      · rfl

theorem side_eq {child : Dir → Addr → Option Addr} {g : Addr} {f : Frame Addr}
    {fs : List (Frame Addr)} (hframes : ShapedFrames child (some g) (f :: fs))
    (hg : g ∉ f.sibling.inorder) :
    (if child .left f.addr = some g then Dir.left else .right) = f.dir := by
  obtain ⟨hhole, hother, -, -⟩ := hframes
  cases hd : f.dir with
  | left => simp [← hd, hhole]
  | right =>
    have hleft : child .left f.addr = f.sibling.root := by simpa [hd, Dir.flip] using hother
    rw [if_neg]
    rw [hleft]
    exact fun hroot => hg (Skeleton.mem_inorder_of_root hroot)

/-- The memory below `*root` is this tree of addresses. -/
structure Spells (m : Nodes V) (root : Option Addr) (t : Skeleton Addr) : Prop where
  shaped : Shaped (childOf m) t
  root_eq : root = t.root
  nodup : t.inorder.Nodup
  alloc : ∀ a ∈ t.inorder, (m a).isSome

/-- A rotation at `g`, with the right parent pointer there, turns the subtree
that the child pointers spell and leaves everything around it in place. -/
theorem rotate_spec {d : Dir} {m : Nodes V} {root : Option Addr} {g p : Addr}
    {x b u : Skeleton Addr} {fs : List (Frame Addr)}
    (hspells : Spells m root (plug (.nodeAt d (.nodeAt d x p b) g u) fs))
    (hlink : parentOf m g = (fs.map Frame.addr).head?) :
    ∃ m' root', rotate d m root g = some (m', root') ∧ Rotated d m m' g p ∧
      Spells m' root' (plug (.nodeAt d x p (.nodeAt d b g u)) fs) := by
  obtain ⟨hspelled, hroot, hnodup, halloc⟩ := hspells
  obtain ⟨hshaped, hframes⟩ := shaped_plug.mp hspelled
  rw [Skeleton.root_nodeAt] at hframes
  obtain ⟨hsub, hapart⟩ := nodup_plug hnodup
  obtain ⟨⟨hgl, hgu⟩, hl, hu, hlu⟩ := nodup_nodeAt.mp hsub
  obtain ⟨⟨hpx, hpb⟩, hx, hb, hxb⟩ := nodup_nodeAt.mp hl
  obtain ⟨hgd, hgf, hshl, hshu⟩ := shaped_nodeAt.mp hshaped
  obtain ⟨hpd, hpf, hshx, hshb⟩ := shaped_nodeAt.mp hshl
  have hmem_p : p ∈ (Skeleton.nodeAt d x p b).inorder := Skeleton.mem_inorder_nodeAt.mpr (by simp)
  have hne : p ≠ g := fun heq => hgl (heq ▸ hmem_p)
  have hmem_sub (a : Addr) (ha : a ∈ (Skeleton.nodeAt d (.nodeAt d x p b) g u).inorder) :
      a ∈ (plug (.nodeAt d (.nodeAt d x p b) g u) fs).inorder :=
    mem_inorder_plug.mpr (.inl ha)
  have hg_sub : g ∈ (Skeleton.nodeAt d (.nodeAt d x p b) g u).inorder :=
    Skeleton.mem_inorder_nodeAt.mpr (by simp)
  have hp_sub : p ∈ (Skeleton.nodeAt d (.nodeAt d x p b) g u).inorder :=
    Skeleton.mem_inorder_nodeAt.mpr (.inl hmem_p)
  have hparent_mem (q : Addr) (hq : parentOf m g = some q) : ∃ f ∈ fs, q = f.addr := by
    rw [hlink] at hq
    obtain ⟨f, hf, rfl⟩ := List.mem_map.mp (List.mem_of_head? hq)
    exact ⟨f, hf, rfl⟩
  obtain ⟨m', hrotate, hrot⟩ := rotate_rotated d root
    (halloc g (hmem_sub g hg_sub)) (halloc p (hmem_sub p hp_sub))
    (by rw [hgd, Skeleton.root_nodeAt]) hne (by
      intro q hq
      obtain ⟨f, hf, rfl⟩ := hparent_mem q hq
      exact ⟨halloc _ (mem_inorder_plug.mpr (.inr ⟨f, hf, .inl rfl⟩)),
        (hapart g hg_sub f hf).1.symm, (hapart p hp_sub f hf).1.symm⟩)
  -- addresses in the three moved subtrees keep their child pointers
  have hkeep (a : Addr) (ha : a ∈ x.inorder ∨ a ∈ b.inorder ∨ a ∈ u.inorder) (e : Dir) :
      childOf m' e a = childOf m e a := by
    have ha_sub : a ∈ (Skeleton.nodeAt d (.nodeAt d x p b) g u).inorder := by
      simp only [Skeleton.mem_inorder_nodeAt]
      tauto
    have hag : a ≠ g := by
      rintro rfl
      simp only [Skeleton.mem_inorder_nodeAt, not_or] at hgl
      tauto
    have hap : a ≠ p := by
      rintro rfl
      have := hlu hmem_p
      tauto
    refine hrot.child_other a hag hap (fun hq => ?_) e
    obtain ⟨f, hf, rfl⟩ := hparent_mem a hq
    exact (hapart f.addr ha_sub f hf).1 rfl
  have hinorder := inorder_plug_congr (inorder_rotate d x b u p g) fs
  refine ⟨m', _, hrotate, hrot, shaped_plug.mpr ⟨?_, ?_⟩, ?_, hinorder ▸ hnodup, ?_⟩
  · rw [shaped_nodeAt, shaped_nodeAt, Skeleton.root_nodeAt]
    refine ⟨?_, ?_, hshx.congr fun a ha => hkeep a (.inl ha), ?_, ?_,
      hshb.congr fun a ha => hkeep a (.inr (.inl ha)),
      hshu.congr fun a ha => hkeep a (.inr (.inr ha))⟩
    · simp [hrot.child_p, hpd]
    · simp [hrot.child_p]
    · simp [hrot.child_g, hpf]
    · simp [hrot.child_g, hgf]
  · rw [Skeleton.root_nodeAt]
    refine hframes.replace ?_ ?_ ?_
    · intro f hf
      obtain ⟨fs', rfl⟩ : ∃ fs', fs = f :: fs' := List.head?_eq_some_iff.mp hf
      have hside := side_eq hframes (hapart g hg_sub f (by simp)).2
      rw [hrot.child_parent f.addr (by simpa using hlink), hside, if_pos rfl]
    · intro f hf a ha e he
      have ha_plug : a ≠ g ∧ a ≠ p := by
        constructor
        · rintro rfl
          exact ha.elim (hapart a hg_sub f hf).1 (hapart a hg_sub f hf).2
        · rintro rfl
          exact ha.elim (hapart a hp_sub f hf).1 (hapart a hp_sub f hf).2
      by_cases hq : parentOf m g = some a
      · cases fs with
        | nil => simp at hf
        | cons f₀ fs =>
          obtain rfl : f₀.addr = a := by simpa [hlink] using hq
          have hside := side_eq hframes (hapart g hg_sub f₀ (by simp)).2
          rw [hrot.child_parent f₀.addr hq, hside, if_neg]
          exact fun heq => he f₀ rfl ⟨rfl, heq⟩
      · exact hrot.child_other a ha_plug.1 ha_plug.2 hq e
    · intro f hf
      obtain ⟨fs', rfl⟩ : ∃ fs', fs = f :: fs' := List.head?_eq_some_iff.mp hf
      exact nodup_plug_frame hnodup
  · rw [hlink, hroot, root_plug, root_plug]
    cases fs with
    | nil => simp
    | cons f fs => simp [List.getLast?_eq_some_getLast]
  · intro a ha
    rw [← isSome_entryOf, hrot.entry, isSome_entryOf]
    exact halloc a (hinorder ▸ ha)

end SmtpMta.Common.TreeRotation
