import Mathlib.Algebra.Order.Group.Nat
import SmtpMta.Library.SearchTree

/-! Red-black trees, on trees of addresses with a colour for each address. A
subtree in focus and the frames around it are balanced apart from each other,
so that a repair walking up may leave a red node below a red one at the focus. -/
namespace SmtpMta.Library.RedBlack
open SearchTree

variable {α : Type} {red : α → Bool}

def BlackRoot (red : α → Bool) (t : Skeleton α) : Prop :=
  ∀ a, t.root = some a → red a = false

def NoRedRed (red : α → Bool) : Skeleton α → Prop
  | .nil => True
  | .node left a right =>
    (red a = true → BlackRoot red left ∧ BlackRoot red right) ∧ NoRedRed red left ∧
      NoRedRed red right

/-- Every path down to a null child passes this number of black nodes. -/
def BlackHeight (red : α → Bool) : Skeleton α → Nat → Prop
  | .nil, height => height = 0
  | .node left a right, height =>
    ∃ below, height = below + (if red a then 0 else 1) ∧ BlackHeight red left below ∧
      BlackHeight red right below

structure IsRedBlack (red : α → Bool) (t : Skeleton α) : Prop where
  root : BlackRoot red t
  noRedRed : NoRedRed red t
  height : ∃ height, BlackHeight red t height

structure Balanced (red : α → Bool) (t : Skeleton α) (height : Nat) : Prop where
  noRedRed : NoRedRed red t
  height : BlackHeight red t height

instance decidableBlackRoot (red : α → Bool) : ∀ t, Decidable (BlackRoot red t)
  | .nil => isTrue fun a ha => by simp [Skeleton.root] at ha
  | .node _ a _ => decidable_of_iff (red a = false) (by simp [BlackRoot, Skeleton.root])

instance decidableNoRedRed (red : α → Bool) : ∀ t, Decidable (NoRedRed red t)
  | .nil => inferInstanceAs (Decidable True)
  | .node left _ right =>
    have := decidableNoRedRed red left
    have := decidableNoRedRed red right
    inferInstanceAs (Decidable ((_ → _ ∧ _) ∧ _ ∧ _))

@[simp] theorem blackRoot_nil : BlackRoot red .nil := by
  simp [BlackRoot, Skeleton.root]

@[simp] theorem blackRoot_nodeAt {d : Dir} {t other : Skeleton α} {a : α} :
    BlackRoot red (.nodeAt d t a other) ↔ red a = false := by
  simp [BlackRoot]

@[simp] theorem balanced_nil {height : Nat} : Balanced red .nil height ↔ height = 0 :=
  ⟨fun h => h.height, fun h => ⟨trivial, h⟩⟩

theorem balanced_nodeAt {d : Dir} {t other : Skeleton α} {a : α} {height : Nat} :
    Balanced red (.nodeAt d t a other) height ↔
      (red a = true → BlackRoot red t ∧ BlackRoot red other) ∧
        ∃ below, height = below + (if red a then 0 else 1) ∧ Balanced red t below ∧
          Balanced red other below := by
  cases d with
  | left =>
    constructor
    · rintro ⟨⟨hroots, hleft, hright⟩, below, hheight, hl, hr⟩
      exact ⟨hroots, below, hheight, ⟨hleft, hl⟩, ⟨hright, hr⟩⟩
    · rintro ⟨hroots, below, hheight, ⟨hleft, hl⟩, ⟨hright, hr⟩⟩
      exact ⟨⟨hroots, hleft, hright⟩, below, hheight, hl, hr⟩
  | right =>
    constructor
    · rintro ⟨⟨hroots, hright, hleft⟩, below, hheight, hr, hl⟩
      exact ⟨fun ha => (hroots ha).symm, below, hheight, ⟨hleft, hl⟩, ⟨hright, hr⟩⟩
    · rintro ⟨hroots, below, hheight, ⟨hleft, hl⟩, ⟨hright, hr⟩⟩
      exact ⟨⟨fun ha => (hroots ha).symm, hright, hleft⟩, below, hheight, hr, hl⟩

/-- A black node above two subtrees of one height. -/
theorem Balanced.under_black {d : Dir} {t other : Skeleton α} {a : α} {height : Nat}
    (ht : Balanced red t height) (hother : Balanced red other height) (ha : red a = false) :
    Balanced red (.nodeAt d t a other) (height + 1) :=
  balanced_nodeAt.mpr ⟨by simp [ha], height, by simp [ha], ht, hother⟩

/-- A red node above two subtrees of one height with black roots. -/
theorem Balanced.under_red {d : Dir} {t other : Skeleton α} {a : α} {height : Nat}
    (ht : Balanced red t height) (hother : Balanced red other height) (ha : red a = true)
    (htroot : BlackRoot red t) (hroot : BlackRoot red other) :
    Balanced red (.nodeAt d t a other) height :=
  balanced_nodeAt.mpr ⟨fun _ => ⟨htroot, hroot⟩, height, by simp [ha], ht, hother⟩

/-- A black tree of height zero is empty. -/
theorem Balanced.eq_nil {t : Skeleton α} (h : Balanced red t 0) (hroot : BlackRoot red t) :
    t = .nil := by
  cases t with
  | nil => rfl
  | node left a right =>
    obtain ⟨below, hbelow, -⟩ := h.height
    have ha := hroot a rfl
    simp [ha] at hbelow

theorem BlackRoot.congr {red' : α → Bool} {t : Skeleton α} (h : BlackRoot red t)
    (heq : ∀ a ∈ t.inorder, red' a = red a) : BlackRoot red' t := by
  intro a ha
  rw [heq a (Skeleton.mem_inorder_of_root ha)]
  exact h a ha

theorem Balanced.congr {red' : α → Bool} {t : Skeleton α} {height : Nat} (h : Balanced red t height)
    (heq : ∀ a ∈ t.inorder, red' a = red a) : Balanced red' t height := by
  induction t generalizing height with
  | nil => simpa using h
  | node left a right ihl ihr =>
    have hleft (b : α) (hb : b ∈ left.inorder) : red' b = red b :=
      heq b (by simp [Skeleton.inorder, hb])
    have hright (b : α) (hb : b ∈ right.inorder) : red' b = red b :=
      heq b (by simp [Skeleton.inorder, hb])
    have ha : red' a = red a := heq a (by simp [Skeleton.inorder])
    obtain ⟨hroots, below, hheight, hl, hr⟩ := (balanced_nodeAt (d := .left)).mp h
    refine (balanced_nodeAt (d := .left)).mpr ⟨?_, below, ha ▸ hheight, ihl hl hleft, ihr hr hright⟩
    intro hred
    rw [ha] at hred
    exact ⟨(hroots hred).1.congr hleft, (hroots hred).2.congr hright⟩

/-- Turning the root black costs at most one more black node on every path. -/
theorem Balanced.blacken {red' : α → Bool} {t : Skeleton α} {height : Nat} {top : α}
    (h : Balanced red t height) (htop : t.root = some top) (hnodup : t.inorder.Nodup)
    (hblack : red' top = false) (heq : ∀ a, a ≠ top → red' a = red a) : IsRedBlack red' t := by
  obtain ⟨child, other, rfl⟩ := Skeleton.exists_nodeAt .left htop
  obtain ⟨⟨hchild, hother⟩, -⟩ := nodup_nodeAt.mp hnodup
  obtain ⟨-, below, -, hl, hr⟩ := balanced_nodeAt.mp h
  have hl' := hl.congr fun a ha => heq a (by rintro rfl; exact hchild ha)
  have hr' := hr.congr fun a ha => heq a (by rintro rfl; exact hother ha)
  have hwhole : Balanced red' (.nodeAt .left child top other) (below + 1) := hl'.under_black hr' hblack
  exact ⟨blackRoot_nodeAt.mpr hblack, hwhole.noRedRed, _, hwhole.height⟩

/-- Frames around a subtree of the given height: without it they break no rule. -/
def BalancedFrames (red : α → Bool) : List (Frame α) → Nat → Prop
  | [], _ => True
  | f :: fs, height =>
    Balanced red f.sibling height ∧
      (red f.addr = true → BlackRoot red f.sibling ∧ ∀ g, fs.head? = some g → red g.addr = false) ∧
        BalancedFrames red fs (height + if red f.addr then 0 else 1)

def Fits (red : α → Bool) (t : Skeleton α) (fs : List (Frame α)) : Prop :=
  ∀ f, fs.head? = some f → red f.addr = true → BlackRoot red t

theorem exists_balanced_plug {t : Skeleton α} {fs : List (Frame α)} :
    (∃ height, Balanced red (plug t fs) height) ↔
      ∃ height, Balanced red t height ∧ BalancedFrames red fs height ∧ Fits red t fs := by
  induction fs generalizing t with
  | nil => simp [plug, BalancedFrames, Fits]
  | cons f fs ih =>
    rw [plug, ih]
    constructor
    · rintro ⟨height, hnode, hframes, hfits⟩
      obtain ⟨hroots, below, rfl, ht, hsibling⟩ := balanced_nodeAt.mp hnode
      refine ⟨below, ht, ⟨hsibling, fun hred => ⟨(hroots hred).2, fun g hg => ?_⟩, hframes⟩, ?_⟩
      · have := hfits g hg
        simp only [blackRoot_nodeAt, hred] at this
        simpa using this
      · intro g hg hred
        obtain rfl : f = g := by simpa using hg
        exact (hroots hred).1
    · rintro ⟨height, ht, ⟨hsibling, hred_f, hframes⟩, hfits⟩
      refine ⟨_, balanced_nodeAt.mpr ⟨?_, height, rfl, ht, hsibling⟩, hframes, ?_⟩
      · exact fun hred => ⟨hfits f rfl hred, (hred_f hred).1⟩
      · intro g hg hred
        rw [blackRoot_nodeAt]
        by_contra hf
        simp only [Bool.not_eq_false] at hf
        simp [(hred_f hf).2 g hg] at hred

theorem BalancedFrames.congr {red' : α → Bool} {fs : List (Frame α)} {height : Nat}
    (h : BalancedFrames red fs height)
    (heq : ∀ f ∈ fs, ∀ a, (a = f.addr ∨ a ∈ f.sibling.inorder) → red' a = red a) :
    BalancedFrames red' fs height := by
  induction fs generalizing height with
  | nil => trivial
  | cons f fs ih =>
    obtain ⟨hsibling, hred, hrest⟩ := h
    have hf := heq f (by simp)
    have haddr : red' f.addr = red f.addr := hf _ (.inl rfl)
    refine ⟨hsibling.congr fun a ha => hf a (.inr ha), fun hred' => ?_, ?_⟩
    · obtain ⟨hroot, habove⟩ := hred (haddr ▸ hred')
      refine ⟨hroot.congr fun a ha => hf a (.inr ha), fun g hg => ?_⟩
      rw [heq g (by simp [List.mem_of_head? hg]) _ (.inl rfl)]
      exact habove g hg
    · rw [haddr]
      exact ih hrest fun g hg => heq g (by simp [hg])

section Turns
variable {red' : α → Bool} {p g u node : α} {d e : Dir} {s v w x y : Skeleton α}
  {rest : List (Frame α)} {height : Nat}

/-- Frames below a red parent: the node above it is black. -/
theorem BalancedFrames.below_red
    (h : BalancedFrames red (⟨d, p, v⟩ :: ⟨e, g, w⟩ :: rest) height) (hp : red p = true) :
    red g = false ∧ Balanced red v height ∧ BlackRoot red v ∧ Balanced red w height ∧
      BalancedFrames red rest (height + 1) := by
  obtain ⟨hv, hred, hw, -, hrest⟩ := h
  obtain ⟨hvroot, habove⟩ := hred hp
  have hg : red g = false := habove _ rfl
  simp only [hp, hg, if_true, Nat.add_zero] at hw hrest
  exact ⟨hg, hv, hvroot, hw, hrest⟩

/-- Colouring a red parent and a red uncle black and the node above them red. -/
theorem Balanced.recolour (hs : Balanced red s height)
    (hframes : BalancedFrames red (⟨d, p, v⟩ :: ⟨e, g, w⟩ :: rest) height) (hp : red p = true)
    (hu : w.root = some u) (hured : red u = true)
    (hnodup : (plug (.nodeAt e (.nodeAt d s p v) g w) rest).inorder.Nodup)
    (hp' : red' p = false) (hu' : red' u = false) (hg' : red' g = true)
    (hother : ∀ a, a ≠ p → a ≠ u → a ≠ g → red' a = red a) :
    Balanced red' (.nodeAt e (.nodeAt d s p v) g w) (height + 1) ∧
      BalancedFrames red' rest (height + 1) := by
  obtain ⟨-, hv, -, hw, hrest⟩ := hframes.below_red hp
  obtain ⟨child, other, rfl⟩ := Skeleton.exists_nodeAt .left hu
  obtain ⟨hsub, -⟩ := nodup_plug hnodup
  obtain ⟨⟨hgl, hgw⟩, hl, hwnodup, hlw⟩ := nodup_nodeAt.mp hsub
  obtain ⟨⟨hps, hpv⟩, -⟩ := nodup_nodeAt.mp hl
  obtain ⟨⟨huc, huo⟩, -⟩ := nodup_nodeAt.mp hwnodup
  have hup : u ∉ (Skeleton.nodeAt d s p v).inorder := fun hmem =>
    hlw hmem (Skeleton.mem_inorder_nodeAt.mpr (by simp))
  simp only [Skeleton.mem_inorder_nodeAt, not_or] at hgl hgw hup
  have hpw : p ∉ (Skeleton.nodeAt .left child u other).inorder := fun hmem =>
    hlw (Skeleton.mem_inorder_nodeAt.mpr (by simp)) hmem
  simp only [Skeleton.mem_inorder_nodeAt, not_or] at hpw
  obtain ⟨-, below, hbelow, hc, ho⟩ := balanced_nodeAt.mp hw
  obtain rfl : height = below := by simpa [hured] using hbelow
  have keep (t : Skeleton α) (ht : Balanced red t height) (htp : p ∉ t.inorder)
      (htu : u ∉ t.inorder) (htg : g ∉ t.inorder) : Balanced red' t height :=
    ht.congr fun a ha => hother a (by rintro rfl; exact htp ha) (by rintro rfl; exact htu ha)
      (by rintro rfl; exact htg ha)
  constructor
  · refine Balanced.under_red ?_ ?_ hg' (by simpa using hp') (by simpa using hu')
    · exact (keep s hs hps hup.1 hgl.1).under_black (keep v hv hpv hup.2.2 hgl.2.2) hp'
    · exact (keep child hc hpw.1 huc hgw.1).under_black (keep other ho hpw.2.2 huo hgw.2.2) hu'
  · refine hrest.congr fun f hf a ha => ?_
    have hne (b : α) (hb : b ∈ (Skeleton.nodeAt e (.nodeAt d s p v) g
        (.nodeAt .left child u other)).inorder) : a ≠ b := ne_of_nodup_plug hnodup hb hf ha
    exact hother a (hne p (by simp [Skeleton.mem_inorder_nodeAt]))
      (hne u (by simp [Skeleton.mem_inorder_nodeAt])) (hne g (by simp [Skeleton.mem_inorder_nodeAt]))

/-- The outer turn: the parent takes the place and the colour of the node above
it, which becomes red. -/
theorem BalancedFrames.outer (hframes : BalancedFrames red (⟨d, p, v⟩ :: ⟨d, g, w⟩ :: rest) height)
    (hs : Balanced red s height) (hp : red p = true) (hw : BlackRoot red w)
    (hnodup : (plug (.nodeAt d (.nodeAt d s p v) g w) rest).inorder.Nodup)
    (hp' : red' p = false) (hg' : red' g = true) (hother : ∀ a, a ≠ g → a ≠ p → red' a = red a) :
    Balanced red' s height ∧ BalancedFrames red' (⟨d, p, .nodeAt d v g w⟩ :: rest) height := by
  obtain ⟨-, hv, hvroot, hw', hrest⟩ := hframes.below_red hp
  obtain ⟨hsub, -⟩ := nodup_plug hnodup
  obtain ⟨⟨hgl, hgw⟩, hl, -, hlw⟩ := nodup_nodeAt.mp hsub
  obtain ⟨⟨hps, hpv⟩, -⟩ := nodup_nodeAt.mp hl
  have hpw : p ∉ w.inorder := fun hmem => hlw (Skeleton.mem_inorder_nodeAt.mpr (by simp)) hmem
  simp only [Skeleton.mem_inorder_nodeAt, not_or] at hgl
  have same (t : Skeleton α) (htp : p ∉ t.inorder) (htg : g ∉ t.inorder) (a : α)
      (ha : a ∈ t.inorder) : red' a = red a :=
    hother a (by rintro rfl; exact htg ha) (by rintro rfl; exact htp ha)
  refine ⟨hs.congr (same s hps hgl.1), ?_, by simp [hp'], ?_⟩
  · exact (hv.congr (same v hpv hgl.2.2)).under_red (hw'.congr (same w hpw hgw)) hg'
      (hvroot.congr (same v hpv hgl.2.2)) (hw.congr (same w hpw hgw))
  · simp only [hp']
    refine hrest.congr fun f hf a ha => ?_
    have hne (b : α) (hb : b ∈ (Skeleton.nodeAt d (.nodeAt d s p v) g w).inorder) : a ≠ b :=
      ne_of_nodup_plug hnodup hb hf ha
    exact hother a (hne g (by simp [Skeleton.mem_inorder_nodeAt]))
      (hne p (by simp [Skeleton.mem_inorder_nodeAt]))

/-- The inner turn at a red node: it takes the place and the colour of the node
two levels above it, between two red nodes. -/
theorem Balanced.inner (hs : Balanced red (.nodeAt e.flip x node y) height)
    (hframes : BalancedFrames red (⟨e.flip, p, v⟩ :: ⟨e, g, w⟩ :: rest) height) (hp : red p = true)
    (hnode : red node = true) (hw : BlackRoot red w)
    (hnodup : (plug (.nodeAt e (.nodeAt e.flip (.nodeAt e.flip x node y) p v) g w) rest).inorder.Nodup)
    (hnode' : red' node = false) (hp' : red' p = true) (hg' : red' g = true)
    (hother : ∀ a, a ≠ node → a ≠ p → a ≠ g → red' a = red a) :
    Balanced red' (.nodeAt e (.nodeAt e v p y) node (.nodeAt e x g w)) (height + 1) ∧
      BalancedFrames red' rest (height + 1) := by
  obtain ⟨-, hv, hvroot, hw', hrest⟩ := hframes.below_red hp
  obtain ⟨hroots, below, hbelow, hx, hy⟩ := balanced_nodeAt.mp hs
  obtain ⟨hxroot, hyroot⟩ := hroots hnode
  obtain rfl : height = below := by simpa [hnode] using hbelow
  have hsub := (nodup_plug hnodup).1
  obtain ⟨⟨hgl, hgw⟩, hl, -, hlw⟩ := nodup_nodeAt.mp hsub
  obtain ⟨⟨hps, hpv⟩, hsn, -, hsv⟩ := nodup_nodeAt.mp hl
  obtain ⟨⟨hnx, hny⟩, -⟩ := nodup_nodeAt.mp hsn
  have hnv : node ∉ v.inorder := fun hmem => hsv (Skeleton.mem_inorder_nodeAt.mpr (by simp)) hmem
  have hnw : node ∉ w.inorder := fun hmem => hlw (by simp [Skeleton.mem_inorder_nodeAt]) hmem
  have hpw : p ∉ w.inorder := fun hmem => hlw (by simp [Skeleton.mem_inorder_nodeAt]) hmem
  simp only [Skeleton.mem_inorder_nodeAt, not_or] at hgl hps
  have same (t : Skeleton α) (htn : node ∉ t.inorder) (htp : p ∉ t.inorder) (htg : g ∉ t.inorder)
      (a : α) (ha : a ∈ t.inorder) : red' a = red a :=
    hother a (by rintro rfl; exact htn ha) (by rintro rfl; exact htp ha)
      (by rintro rfl; exact htg ha)
  have samex := same x hnx hps.1 hgl.1.1
  have samey := same y hny hps.2.2 hgl.1.2.2
  have samev := same v hnv hpv hgl.2.2
  have samew := same w hnw hpw hgw
  constructor
  · refine Balanced.under_black ?_ ?_ hnode'
    · exact (hv.congr samev).under_red (hy.congr samey) hp' (hvroot.congr samev) (hyroot.congr samey)
    · exact (hx.congr samex).under_red (hw'.congr samew) hg' (hxroot.congr samex) (hw.congr samew)
  · refine hrest.congr fun f hf a ha => ?_
    have hne (b : α) (hb : b ∈ (Skeleton.nodeAt e (.nodeAt e.flip (.nodeAt e.flip x node y) p v)
        g w).inorder) : a ≠ b := ne_of_nodup_plug hnodup hb hf ha
    exact hother a (hne node (by simp [Skeleton.mem_inorder_nodeAt]))
      (hne p (by simp [Skeleton.mem_inorder_nodeAt])) (hne g (by simp [Skeleton.mem_inorder_nodeAt]))

end Turns

section Depth

def depth : Skeleton α → Nat
  | .nil => 0
  | .node left _ right => max (depth left) (depth right) + 1

theorem depth_le_length (t : Skeleton α) : depth t ≤ t.inorder.length := by
  induction t with
  | nil => exact Nat.le_refl 0
  | node left a right ihl ihr =>
    simp only [depth, Skeleton.inorder, List.length_append, List.length_cons]
    omega

/-- Below a black root every red node of a path has a black one above it. -/
theorem Balanced.depth_le {t : Skeleton α} {height : Nat} (h : Balanced red t height) :
    depth t ≤ 2 * height + 1 ∧ (BlackRoot red t → depth t ≤ 2 * height) := by
  induction t generalizing height with
  | nil => simp [depth]
  | node left a right ihl ihr =>
    obtain ⟨hroots, below, hheight, hl, hr⟩ := (balanced_nodeAt (d := .left)).mp h
    obtain ⟨hleft, hleft'⟩ := ihl hl
    obtain ⟨hright, hright'⟩ := ihr hr
    cases ha : red a with
    | true =>
      obtain ⟨hlroot, hrroot⟩ := hroots ha
      have hl2 := hleft' hlroot
      have hr2 := hright' hrroot
      simp only [ha, if_true] at hheight
      refine ⟨by simp only [depth]; omega, fun hroot => ?_⟩
      have hblack : red a = false := hroot a rfl
      simp [ha] at hblack
    | false =>
      simp only [ha, Bool.false_eq_true, if_false] at hheight
      have hdepth : depth (Skeleton.nodeAt .left left a right) ≤ 2 * height := by
        simp only [Skeleton.nodeAt, depth]
        omega
      exact ⟨hdepth.trans (Nat.le_succ _), fun _ => hdepth⟩

theorem Balanced.two_pow_le {t : Skeleton α} {height : Nat} (h : Balanced red t height) :
    2 ^ height ≤ t.inorder.length + 1 := by
  induction t generalizing height with
  | nil => simp [balanced_nil.mp h]
  | node left a right ihl ihr =>
    obtain ⟨-, below, hheight, hl, hr⟩ := (balanced_nodeAt (d := .left)).mp h
    have hleft := ihl hl
    have hright := ihr hr
    have hlength : (Skeleton.node left a right).inorder.length + 1 =
        (left.inorder.length + 1) + (right.inorder.length + 1) := by
      simp [Skeleton.inorder]
      omega
    have hpow : 2 ^ height ≤ 2 ^ below + 2 ^ below := by
      rw [hheight, ← Nat.mul_two, ← Nat.pow_succ]
      exact Nat.pow_le_pow_right (by decide) (by split <;> omega)
    rw [hlength]
    exact hpow.trans (Nat.add_le_add hleft hright)

/-- The depth of a red-black tree is at most twice the logarithm of its size. -/
theorem IsRedBlack.depth_le {t : Skeleton α} (h : IsRedBlack red t) :
    depth t ≤ 2 * Nat.log2 (t.inorder.length + 1) := by
  obtain ⟨hroot, hno, height, hheight⟩ := h
  have hbalanced : Balanced red t height := ⟨hno, hheight⟩
  have hlog : height ≤ Nat.log2 (t.inorder.length + 1) :=
    (Nat.le_log2 (Nat.succ_ne_zero _)).mpr hbalanced.two_pow_le
  exact (hbalanced.depth_le.2 hroot).trans (Nat.mul_le_mul_left 2 hlog)

end Depth

end SmtpMta.Library.RedBlack
