import Mathlib.Data.List.Perm.Basic
import Mathlib.Data.List.Lattice
import Mathlib.Data.List.Nodup
import Mathlib.Order.Lattice

/-! Binary trees laid out in memory. A tree of addresses is what the child
pointers of a memory spell; a focused subtree and the frames around it say
where a loop walking up from a leaf has arrived. Rotations and insertions are
stated on both, with the in-order sequence as the meaning they keep. -/
namespace SmtpMta.Library.SearchTree

inductive Dir where
  | left
  | right
deriving DecidableEq

def Dir.flip : Dir → Dir
  | .left => .right
  | .right => .left

@[simp] theorem Dir.flip_ne (d : Dir) : d.flip ≠ d := by
  cases d <;> decide

@[simp] theorem Dir.ne_flip (d : Dir) : d ≠ d.flip := by
  cases d <;> decide

theorem Dir.eq_or_eq_flip (d e : Dir) : e = d ∨ e = d.flip := by
  cases d <;> cases e <;> decide

inductive Skeleton (α : Type) where
  | nil
  | node (left : Skeleton α) (addr : α) (right : Skeleton α)

variable {α : Type}

def Skeleton.root : Skeleton α → Option α
  | .nil => none
  | .node _ a _ => some a

def Skeleton.inorder : Skeleton α → List α
  | .nil => []
  | .node left a right => left.inorder ++ a :: right.inorder

def Skeleton.nodeAt (d : Dir) (child : Skeleton α) (a : α) (other : Skeleton α) : Skeleton α :=
  match d with
  | .left => .node child a other
  | .right => .node other a child

@[simp] theorem Skeleton.root_nodeAt (d : Dir) (child : Skeleton α) (a : α) (other : Skeleton α) :
    (nodeAt d child a other).root = some a := by
  cases d <;> rfl

theorem Skeleton.nodeAt_flip (d : Dir) (child : Skeleton α) (a : α) (other : Skeleton α) :
    nodeAt d.flip child a other = nodeAt d other a child := by
  cases d <;> rfl

theorem Skeleton.exists_nodeAt (d : Dir) {t : Skeleton α} {a : α} (h : t.root = some a) :
    ∃ child other, t = nodeAt d child a other := by
  cases t with
  | nil => simp [root] at h
  | node left b right =>
    obtain rfl : b = a := by simpa [root] using h
    cases d with
    | left => exact ⟨left, right, rfl⟩
    | right => exact ⟨right, left, rfl⟩

theorem Skeleton.root_eq_none {t : Skeleton α} : t.root = none ↔ t = .nil := by
  cases t <;> simp [root]

theorem Skeleton.mem_inorder_of_root {t : Skeleton α} {a : α} (h : t.root = some a) :
    a ∈ t.inorder := by
  cases t with
  | nil => simp [root] at h
  | node left b right =>
    obtain rfl : b = a := by simpa [root] using h
    simp [inorder]

theorem Skeleton.mem_inorder_nodeAt {d : Dir} {child other : Skeleton α} {a x : α} :
    x ∈ (nodeAt d child a other).inorder ↔ x ∈ child.inorder ∨ x = a ∨ x ∈ other.inorder := by
  cases d with
  | left => simp [nodeAt, inorder]
  | right =>
    simp only [nodeAt, inorder, List.mem_append, List.mem_cons]
    tauto

/-- One step of the way from a subtree up to the root: the direction in which
its parent holds it, the parent, and the other subtree there. -/
structure Frame (α : Type) where
  dir : Dir
  addr : α
  sibling : Skeleton α

/-- The whole tree around a subtree; the innermost frame comes first. -/
def plug : Skeleton α → List (Frame α) → Skeleton α
  | t, [] => t
  | t, f :: fs => plug (.nodeAt f.dir t f.addr f.sibling) fs

/-- What precedes and follows the subtree in the in-order sequence. -/
def before : List (Frame α) → List α
  | [] => []
  | f :: fs => before fs ++ if f.dir = .left then [] else f.sibling.inorder ++ [f.addr]

def after : List (Frame α) → List α
  | [] => []
  | f :: fs => (if f.dir = .left then f.addr :: f.sibling.inorder else []) ++ after fs

theorem inorder_plug (t : Skeleton α) (fs : List (Frame α)) :
    (plug t fs).inorder = before fs ++ t.inorder ++ after fs := by
  induction fs generalizing t with
  | nil => simp [plug, before, after]
  | cons f fs ih =>
    cases hd : f.dir <;> simp [plug, ih, before, after, Skeleton.nodeAt, Skeleton.inorder, hd]

theorem inorder_plug_congr {t t' : Skeleton α} (h : t.inorder = t'.inorder) (fs : List (Frame α)) :
    (plug t fs).inorder = (plug t' fs).inorder := by
  rw [inorder_plug, inorder_plug, h]

/-- The rotation that raises the `d` child keeps the in-order sequence. -/
theorem inorder_rotate (d : Dir) (outer inner other : Skeleton α) (p g : α) :
    (Skeleton.nodeAt d outer p (.nodeAt d inner g other)).inorder =
      (Skeleton.nodeAt d (.nodeAt d outer p inner) g other).inorder := by
  cases d <;> simp [Skeleton.nodeAt, Skeleton.inorder]

/-- So do the two rotations that raise a node of the inner side by two levels. -/
theorem inorder_rotate_inner (e : Dir) (x y v w : Skeleton α) (node p g : α) :
    (Skeleton.nodeAt e (.nodeAt e v p y) node (.nodeAt e x g w)).inorder =
      (Skeleton.nodeAt e (.nodeAt e.flip (.nodeAt e.flip x node y) p v) g w).inorder := by
  cases e <;> simp [Skeleton.nodeAt, Skeleton.inorder, Dir.flip]

theorem mem_inorder_plug {t : Skeleton α} {fs : List (Frame α)} {x : α} :
    x ∈ (plug t fs).inorder ↔
      x ∈ t.inorder ∨ ∃ f ∈ fs, x = f.addr ∨ x ∈ f.sibling.inorder := by
  induction fs generalizing t with
  | nil => simp [plug]
  | cons f fs ih =>
    simp only [plug, ih, Skeleton.mem_inorder_nodeAt, List.mem_cons, exists_eq_or_imp, or_assoc]

theorem nodup_nodeAt {d : Dir} {child other : Skeleton α} {a : α} :
    (Skeleton.nodeAt d child a other).inorder.Nodup ↔
      (a ∉ child.inorder ∧ a ∉ other.inorder) ∧ child.inorder.Nodup ∧ other.inorder.Nodup ∧
        child.inorder.Disjoint other.inorder := by
  cases d with
  | left =>
    simp only [Skeleton.nodeAt, Skeleton.inorder, List.nodup_append', List.nodup_cons,
      List.disjoint_cons_right]
    tauto
  | right =>
    have hcomm : other.inorder.Disjoint child.inorder ↔ child.inorder.Disjoint other.inorder :=
      ⟨List.Disjoint.symm, List.Disjoint.symm⟩
    simp only [Skeleton.nodeAt, Skeleton.inorder, List.nodup_append', List.nodup_cons,
      List.disjoint_cons_right, hcomm]
    tauto

/-- Without a repeated address, the subtree and its frames share none. -/
theorem nodup_plug {t : Skeleton α} {fs : List (Frame α)} (h : (plug t fs).inorder.Nodup) :
    t.inorder.Nodup ∧ ∀ a ∈ t.inorder, ∀ f ∈ fs, a ≠ f.addr ∧ a ∉ f.sibling.inorder := by
  induction fs generalizing t with
  | nil => exact ⟨h, by simp⟩
  | cons f fs ih =>
    obtain ⟨hnode, houter⟩ := ih h
    obtain ⟨⟨hchild, hother⟩, hnodup, -, hdisjoint⟩ := nodup_nodeAt.mp hnode
    refine ⟨hnodup, ?_⟩
    intro a ha g hg
    rcases List.mem_cons.mp hg with rfl | hg
    · exact ⟨fun heq => hchild (heq ▸ ha), fun hmem => hdisjoint ha hmem⟩
    · exact houter a (Skeleton.mem_inorder_nodeAt.mpr (.inl ha)) g hg

theorem ne_of_nodup_plug {t : Skeleton α} {fs : List (Frame α)} (h : (plug t fs).inorder.Nodup)
    {a b : α} (ha : a ∈ t.inorder) {f : Frame α} (hf : f ∈ fs)
    (hb : b = f.addr ∨ b ∈ f.sibling.inorder) : b ≠ a := by
  obtain ⟨haddr, hsibling⟩ := (nodup_plug h).2 a ha f hf
  rintro rfl
  exact hb.elim haddr hsibling

/-- The innermost frame is apart from its sibling and from the frames around it. -/
theorem nodup_plug_frame {t : Skeleton α} {f : Frame α} {fs : List (Frame α)}
    (h : (plug t (f :: fs)).inorder.Nodup) :
    f.addr ∉ f.sibling.inorder ∧ ∀ g ∈ fs, f.addr ≠ g.addr ∧ f.addr ∉ g.sibling.inorder := by
  obtain ⟨hnode, houter⟩ := @nodup_plug _ _ fs h
  exact ⟨(nodup_nodeAt.mp hnode).1.2,
    houter f.addr (Skeleton.mem_inorder_nodeAt.mpr (.inr (.inl rfl)))⟩

theorem length_le_inorder_plug (t : Skeleton α) (fs : List (Frame α)) :
    fs.length + t.inorder.length ≤ (plug t fs).inorder.length := by
  induction fs generalizing t with
  | nil => simp [plug]
  | cons f fs ih =>
    have hstep := ih (.nodeAt f.dir t f.addr f.sibling)
    have hnode : t.inorder.length + 1 ≤ (Skeleton.nodeAt f.dir t f.addr f.sibling).inorder.length := by
      cases f.dir <;> simp [Skeleton.nodeAt, Skeleton.inorder]
    simp only [plug, List.length_cons]
    omega

theorem root_plug (t : Skeleton α) (fs : List (Frame α)) :
    (plug t fs).root = match fs.getLast? with
      | none => t.root
      | some f => some f.addr := by
  induction fs generalizing t with
  | nil => rfl
  | cons f fs ih =>
    rw [plug, ih]
    cases fs with
    | nil => simp
    | cons g fs => rw [List.getLast?_cons_cons, List.getLast?_eq_some_getLast (by simp)]

section Search
variable {β : Type} [LinearOrder β] (key : α → β) (k : β)

/-- Where a search for a key ends: at a member, or at a hole between frames. -/
def Skeleton.locate : Skeleton α → List (Frame α) → α ⊕ List (Frame α)
  | .nil, fs => .inr fs
  | .node left a right, fs =>
    if k < key a then left.locate (⟨.left, a, right⟩ :: fs)
    else if key a < k then right.locate (⟨.right, a, left⟩ :: fs)
    else .inl a

/-- The members are in the order of their keys. -/
def Sorted (members : List α) : Prop :=
  members.Pairwise fun a b => key a < key b

/-- Everything before a focus is smaller than the key, everything after greater. -/
structure Between (fs : List (Frame α)) : Prop where
  lower : ∀ a ∈ before fs, key a < k
  upper : ∀ a ∈ after fs, k < key a

variable {key k}

/-- Two members of a sorted list with the same key are the same. -/
theorem Sorted.eq_of_key {members : List α} (h : Sorted key members) {a b : α} (ha : a ∈ members)
    (hb : b ∈ members) (heq : key a = key b) : a = b := by
  have hnodup : (members.map key).Nodup :=
    List.pairwise_map.mpr (List.Pairwise.imp (fun hlt => hlt.ne) h)
  exact List.inj_on_of_nodup_map hnodup ha hb heq

theorem Sorted.congr {key' : α → β} {members : List α} (h : Sorted key members)
    (heq : ∀ a ∈ members, key' a = key a) : Sorted key' members := by
  refine List.Pairwise.imp_of_mem ?_ h
  intro a b ha hb hlt
  rwa [heq a ha, heq b hb]

/-- A new member where the search ended keeps the order. -/
theorem Between.sorted_insert {fs : List (Frame α)} (h : Between key k fs) {a : α} (ha : key a = k)
    (hsorted : Sorted key (before fs ++ after fs)) : Sorted key (before fs ++ a :: after fs) := by
  obtain ⟨hleft, hright, hcross⟩ := List.pairwise_append.mp hsorted
  refine List.pairwise_append.mpr ⟨hleft, ?_, ?_⟩
  · exact List.pairwise_cons.mpr ⟨fun b hb => ha ▸ h.upper b hb, hright⟩
  · intro b hb c hc
    rcases List.mem_cons.mp hc with rfl | hc
    · exact ha ▸ h.lower b hb
    · exact hcross b hb c hc

theorem Between.not_mem {fs : List (Frame α)} (h : Between key k fs) {a : α}
    (ha : a ∈ before fs ++ after fs) : key a ≠ k := by
  rcases List.mem_append.mp ha with ha | ha
  · exact (h.lower a ha).ne
  · exact (h.upper a ha).ne'

theorem Skeleton.locate_inl {t : Skeleton α} {fs : List (Frame α)} {a : α}
    (h : t.locate key k fs = .inl a) : a ∈ t.inorder ∧ key a = k := by
  induction t generalizing fs with
  | nil => simp [locate] at h
  | node left b right ihl ihr =>
    rw [locate] at h
    split at h
    · exact ⟨by simp [inorder, (ihl h).1], (ihl h).2⟩
    · split at h
      · exact ⟨by simp [inorder, (ihr h).1], (ihr h).2⟩
      · rename_i hlt hgt
        obtain rfl : b = a := by simpa using h
        exact ⟨by simp [inorder], le_antisymm (not_lt.mp hlt) (not_lt.mp hgt)⟩

theorem Skeleton.locate_inr {t : Skeleton α} {fs fs' : List (Frame α)}
    (h : t.locate key k fs = .inr fs')
    (hsorted : Sorted key (plug t fs).inorder) (hbetween : Between key k fs) :
    plug .nil fs' = plug t fs ∧ Between key k fs' := by
  induction t generalizing fs with
  | nil =>
    obtain rfl : fs = fs' := by simpa [locate] using h
    exact ⟨rfl, hbetween⟩
  | node left a right ihl ihr =>
    have hmid : Sorted key (left.inorder ++ a :: right.inorder) := by
      rw [inorder_plug, Skeleton.inorder] at hsorted
      exact (List.pairwise_append.mp (List.pairwise_append.mp hsorted).1).2.1
    obtain ⟨-, hright, hcross⟩ := List.pairwise_append.mp hmid
    rw [locate] at h
    split at h
    · rename_i hlt
      refine ihl h hsorted ⟨fun b hb => hbetween.lower b (by simpa [before] using hb), fun b hb => ?_⟩
      simp only [after, if_pos, List.cons_append, List.mem_cons, List.mem_append] at hb
      rcases hb with rfl | hb | hb
      · exact hlt
      · exact hlt.trans ((List.pairwise_cons.mp hright).1 b hb)
      · exact hbetween.upper b hb
    · split at h
      · rename_i hgt
        refine ihr h hsorted ⟨fun b hb => ?_, fun b hb => hbetween.upper b (by simpa [after] using hb)⟩
        simp only [before, reduceCtorEq, if_false, List.mem_append, List.mem_singleton] at hb
        rcases hb with hb | hb | rfl
        · exact hbetween.lower b hb
        · exact (hcross b hb a (by simp)).trans hgt
        · exact hgt
      · simp at h

/-- The frames around the hole where a search ends are the whole tree. -/
theorem Skeleton.plug_of_locate {t : Skeleton α} {fs fs' : List (Frame α)}
    (h : t.locate key k fs = .inr fs') : plug .nil fs' = plug t fs := by
  induction t generalizing fs with
  | nil =>
    obtain rfl : fs = fs' := by simpa [locate] using h
    rfl
  | node left a right ihl ihr =>
    rw [locate] at h
    split at h
    · exact ihl h
    · split at h
      · exact ihr h
      · simp at h

theorem Skeleton.locate_congr {key' : α → β} {t : Skeleton α} (h : ∀ a ∈ t.inorder, key' a = key a)
    (fs : List (Frame α)) : t.locate key' k fs = t.locate key k fs := by
  induction t generalizing fs with
  | nil => rfl
  | node left a right ihl ihr =>
    have ha := h a (by simp [inorder])
    rw [locate, locate, ha, ihl fun b hb => h b (by simp [inorder, hb]),
      ihr fun b hb => h b (by simp [inorder, hb])]

end Search

/-! The memory side: `child d a` is the pointer that the node at `a` holds in
direction `d`. -/

def Shaped (child : Dir → α → Option α) : Skeleton α → Prop
  | .nil => True
  | .node left a right =>
    child .left a = left.root ∧ child .right a = right.root ∧ Shaped child left ∧
      Shaped child right

instance decidableShaped [DecidableEq α] (child : Dir → α → Option α) :
    ∀ t, Decidable (Shaped child t)
  | .nil => inferInstanceAs (Decidable True)
  | .node left _ right =>
    have := decidableShaped child left
    have := decidableShaped child right
    inferInstanceAs (Decidable (_ = _ ∧ _ = _ ∧ _ ∧ _))

def ShapedFrames (child : Dir → α → Option α) : Option α → List (Frame α) → Prop
  | _, [] => True
  | hole, f :: fs =>
    child f.dir f.addr = hole ∧ child f.dir.flip f.addr = f.sibling.root ∧
      Shaped child f.sibling ∧ ShapedFrames child (some f.addr) fs

theorem shaped_nodeAt {child : Dir → α → Option α} {d : Dir} {t other : Skeleton α} {a : α} :
    Shaped child (.nodeAt d t a other) ↔
      child d a = t.root ∧ child d.flip a = other.root ∧ Shaped child t ∧ Shaped child other := by
  cases d with
  | left => simp [Skeleton.nodeAt, Shaped, Dir.flip]
  | right =>
    simp only [Skeleton.nodeAt, Shaped, Dir.flip]
    tauto

theorem shaped_plug {child : Dir → α → Option α} {t : Skeleton α} {fs : List (Frame α)} :
    Shaped child (plug t fs) ↔ Shaped child t ∧ ShapedFrames child t.root fs := by
  induction fs generalizing t with
  | nil => simp [plug, ShapedFrames]
  | cons f fs ih =>
    rw [plug, ih, shaped_nodeAt, ShapedFrames, Skeleton.root_nodeAt]
    tauto

theorem Shaped.congr {child child' : Dir → α → Option α} {t : Skeleton α} (h : Shaped child t)
    (heq : ∀ a ∈ t.inorder, ∀ d, child' d a = child d a) : Shaped child' t := by
  induction t with
  | nil => trivial
  | node left a right ihl ihr =>
    obtain ⟨hl, hr, hleft, hright⟩ := h
    have ha := heq a (by simp [Skeleton.inorder])
    refine ⟨by rw [ha, hl], by rw [ha, hr], ihl hleft ?_, ihr hright ?_⟩
    · intro b hb
      exact heq b (by simp [Skeleton.inorder, hb])
    · intro b hb
      exact heq b (by simp [Skeleton.inorder, hb])

theorem ShapedFrames.congr {child child' : Dir → α → Option α} {hole : Option α}
    {fs : List (Frame α)} (h : ShapedFrames child hole fs)
    (heq : ∀ f ∈ fs, ∀ a, (a = f.addr ∨ a ∈ f.sibling.inorder) → ∀ d, child' d a = child d a) :
    ShapedFrames child' hole fs := by
  induction fs generalizing hole with
  | nil => trivial
  | cons f fs ih =>
    obtain ⟨hhole, hother, hsibling, hrest⟩ := h
    have hf := heq f (by simp)
    refine ⟨by rw [hf f.addr (.inl rfl), hhole], by rw [hf f.addr (.inl rfl), hother],
      hsibling.congr fun a ha => hf a (.inr ha), ih hrest fun g hg => heq g (by simp [hg])⟩

/-- Frames around a subtree whose root moved: only the innermost parent holds
a pointer to it. -/
theorem ShapedFrames.replace {child child' : Dir → α → Option α} {hole hole' : Option α}
    {fs : List (Frame α)} (h : ShapedFrames child hole fs)
    (hhead : ∀ f, fs.head? = some f → child' f.dir f.addr = hole')
    (heq : ∀ f ∈ fs, ∀ a, (a = f.addr ∨ a ∈ f.sibling.inorder) → ∀ d,
      (∀ g, fs.head? = some g → ¬(a = g.addr ∧ d = g.dir)) → child' d a = child d a)
    (hnodup : ∀ f, fs.head? = some f → f.addr ∉ f.sibling.inorder ∧
      ∀ g ∈ fs.tail, f.addr ≠ g.addr ∧ f.addr ∉ g.sibling.inorder) :
    ShapedFrames child' hole' fs := by
  cases fs with
  | nil => trivial
  | cons f fs =>
    obtain ⟨-, hother, hsibling, hrest⟩ := h
    obtain ⟨hself, htail⟩ := hnodup f rfl
    have hf := heq f (by simp)
    refine ⟨hhead f rfl, ?_, hsibling.congr ?_, hrest.congr ?_⟩
    · rw [hf f.addr (.inl rfl), hother]
      simp
    · intro a ha d
      refine hf a (.inr ha) d ?_
      rintro g hg ⟨rfl, -⟩
      obtain rfl : f = g := by simpa using hg
      exact hself ha
    · intro g hg a ha d
      refine heq g (by simp [hg]) a ha d ?_
      rintro k hk ⟨rfl, -⟩
      obtain rfl : f = k := by simpa using hk
      have := htail g hg
      rcases ha with ha | ha
      · exact this.1 ha
      · exact this.2 ha

end SmtpMta.Library.SearchTree
