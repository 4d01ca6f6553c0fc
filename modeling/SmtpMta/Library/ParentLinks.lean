import SmtpMta.Library.SearchTree

/-! Parent pointers beside the child pointers of a tree in memory, and the ways
from the root to its nodes. -/
namespace SmtpMta.Library.ParentLinks
open SearchTree

variable {α : Type}

/-- The parent pointers of a tree that hangs below `above`. -/
def Parented (parent : α → Option α) : Option α → Skeleton α → Prop
  | _, .nil => True
  | above, .node left a right =>
    parent a = above ∧ Parented parent (some a) left ∧ Parented parent (some a) right

/-- The parent pointers of the nodes around a subtree. -/
def ParentedFrames (parent : α → Option α) : List (Frame α) → Prop
  | [] => True
  | f :: fs =>
    parent f.addr = (fs.map Frame.addr).head? ∧ Parented parent (some f.addr) f.sibling ∧
      ParentedFrames parent fs

theorem parented_nodeAt {parent : α → Option α} {above : Option α} {d : Dir} {t other : Skeleton α}
    {a : α} : Parented parent above (.nodeAt d t a other) ↔
      parent a = above ∧ Parented parent (some a) t ∧ Parented parent (some a) other := by
  cases d with
  | left => simp [Skeleton.nodeAt, Parented]
  | right =>
    simp only [Skeleton.nodeAt, Parented]
    tauto

theorem parented_plug {parent : α → Option α} {t : Skeleton α} {fs : List (Frame α)} :
    Parented parent none (plug t fs) ↔
      Parented parent (fs.map Frame.addr).head? t ∧ ParentedFrames parent fs := by
  induction fs generalizing t with
  | nil => simp [plug, ParentedFrames]
  | cons f fs ih =>
    rw [plug, ih, parented_nodeAt, ParentedFrames]
    simp only [List.map_cons, List.head?_cons]
    tauto

theorem Parented.root {parent : α → Option α} {above : Option α} {t : Skeleton α} {a : α}
    (h : Parented parent above t) (ha : t.root = some a) : parent a = above := by
  obtain ⟨child, other, rfl⟩ := Skeleton.exists_nodeAt .left ha
  exact (parented_nodeAt.mp h).1

theorem Parented.congr {parent parent' : α → Option α} {above : Option α} {t : Skeleton α}
    (h : Parented parent above t) (heq : ∀ a ∈ t.inorder, parent' a = parent a) :
    Parented parent' above t := by
  induction t generalizing above with
  | nil => trivial
  | node left a right ihl ihr =>
    obtain ⟨ha, hl, hr⟩ := h
    refine ⟨by rw [heq a (by simp [Skeleton.inorder]), ha], ihl hl ?_, ihr hr ?_⟩
    · intro b hb
      exact heq b (by simp [Skeleton.inorder, hb])
    · intro b hb
      exact heq b (by simp [Skeleton.inorder, hb])

theorem ParentedFrames.congr {parent parent' : α → Option α} {fs : List (Frame α)}
    (h : ParentedFrames parent fs)
    (heq : ∀ f ∈ fs, ∀ a, (a = f.addr ∨ a ∈ f.sibling.inorder) → parent' a = parent a) :
    ParentedFrames parent' fs := by
  induction fs with
  | nil => trivial
  | cons f fs ih =>
    obtain ⟨haddr, hsibling, hrest⟩ := h
    have hf := heq f (by simp)
    exact ⟨by rw [hf _ (.inl rfl), haddr], hsibling.congr fun a ha => hf a (.inr ha),
      ih hrest fun g hg => heq g (by simp [hg])⟩

/-- Where the child pointers lead along a path. -/
def follow (child : Dir → α → Option α) : Option α → List Dir → Option α
  | start, [] => start
  | start, d :: path => start.bind fun a => follow child (child d a) path

@[simp] theorem follow_none (child : Dir → α → Option α) (path : List Dir) :
    follow child none path = none := by
  cases path <;> rfl

section Paths
variable {child : Dir → α → Option α} {t : Skeleton α} {path : List Dir} {a : α}

/-- A path goes on below the child its first step names. -/
theorem follow_cons {b : α} {d : Dir} {sub : Skeleton α} (hsub : child d b = sub.root) :
    follow child (some b) (d :: path) = follow child sub.root path := by
  rw [← hsub, follow, Option.bind_some]

/-- A path ends at the root or goes on in one of the two subtrees. -/
theorem follow_cases {left right : Skeleton α} {b : α} (hl : child .left b = left.root)
    (hr : child .right b = right.root) (h : follow child (some b) path = some a) :
    (path = [] ∧ b = a) ∨
      (∃ rest, path = .left :: rest ∧ follow child left.root rest = some a) ∨
      ∃ rest, path = .right :: rest ∧ follow child right.root rest = some a := by
  cases path with
  | nil => exact .inl ⟨rfl, Option.some.inj h⟩
  | cons d rest =>
    cases d with
    | left => exact .inr (.inl ⟨rest, rfl, (follow_cons hl).symm.trans h⟩)
    | right => exact .inr (.inr ⟨rest, rfl, (follow_cons hr).symm.trans h⟩)

theorem mem_of_follow (hshaped : Shaped child t) (h : follow child t.root path = some a) :
    a ∈ t.inorder := by
  induction t generalizing path with
  | nil => simp [Skeleton.root] at h
  | node left b right ihl ihr =>
    obtain ⟨hl, hr, hleft, hright⟩ := hshaped
    rcases follow_cases hl hr h with ⟨-, rfl⟩ | ⟨rest, -, h⟩ | ⟨rest, -, h⟩
    · simp [Skeleton.inorder]
    · simp [Skeleton.inorder, ihl hleft h]
    · simp [Skeleton.inorder, ihr hright h]

/-- Every node of the tree is reached along some path. -/
theorem exists_follow (hshaped : Shaped child t) (ha : a ∈ t.inorder) :
    ∃ path, follow child t.root path = some a := by
  induction t with
  | nil => simp [Skeleton.inorder] at ha
  | node left b right ihl ihr =>
    obtain ⟨hl, hr, hleft, hright⟩ := hshaped
    simp only [Skeleton.inorder, List.mem_append, List.mem_cons] at ha
    rcases ha with ha | rfl | ha
    · obtain ⟨path, hpath⟩ := ihl hleft ha
      exact ⟨.left :: path, (follow_cons hl).trans hpath⟩
    · exact ⟨[], rfl⟩
    · obtain ⟨path, hpath⟩ := ihr hright ha
      exact ⟨.right :: path, (follow_cons hr).trans hpath⟩

/-- No node is reached along two paths. -/
theorem follow_injective (hshaped : Shaped child t) (hnodup : t.inorder.Nodup) {path' : List Dir}
    (h : follow child t.root path = some a) (h' : follow child t.root path' = some a) :
    path = path' := by
  induction t generalizing path path' with
  | nil => simp [Skeleton.root] at h
  | node left b right ihl ihr =>
    obtain ⟨hl, hr, hleft, hright⟩ := hshaped
    obtain ⟨⟨hbl, hbr⟩, hnl, hnr, hdisjoint⟩ := (nodup_nodeAt (d := .left)).mp hnodup
    rcases follow_cases hl hr h with ⟨rfl, rfl⟩ | ⟨rest, rfl, hrest⟩ | ⟨rest, rfl, hrest⟩
    · rcases follow_cases hl hr h' with ⟨rfl, -⟩ | ⟨rest', rfl, hrest'⟩ | ⟨rest', rfl, hrest'⟩
      · rfl
      · exact absurd (mem_of_follow hleft hrest') hbl
      · exact absurd (mem_of_follow hright hrest') hbr
    · have hmem := mem_of_follow hleft hrest
      rcases follow_cases hl hr h' with ⟨-, rfl⟩ | ⟨rest', rfl, hrest'⟩ | ⟨rest', rfl, hrest'⟩
      · exact absurd hmem hbl
      · rw [ihl hleft hnl hrest hrest']
      · exact absurd (mem_of_follow hright hrest') (hdisjoint hmem)
    · have hmem := mem_of_follow hright hrest
      rcases follow_cases hl hr h' with ⟨-, rfl⟩ | ⟨rest', rfl, hrest'⟩ | ⟨rest', rfl, hrest'⟩
      · exact absurd hmem hbr
      · exact absurd hmem (hdisjoint (mem_of_follow hleft hrest'))
      · rw [ihr hright hnr hrest hrest']

/-- A child reached through a node points back to it. -/
theorem Parented.follow_child {parent : α → Option α} {above : Option α}
    (h : Parented parent above t) (hshaped : Shaped child t)
    (hpath : follow child t.root path = some a) {d : Dir} {c : α} (hchild : child d a = some c) :
    parent c = some a := by
  induction t generalizing above path with
  | nil => simp [Skeleton.root] at hpath
  | node left b right ihl ihr =>
    obtain ⟨-, hpl, hpr⟩ := h
    obtain ⟨hl, hr, hleft, hright⟩ := hshaped
    rcases follow_cases hl hr hpath with ⟨-, rfl⟩ | ⟨rest, -, hpath⟩ | ⟨rest, -, hpath⟩
    · cases d with
      | left => exact hpl.root (hl.symm.trans hchild)
      | right => exact hpr.root (hr.symm.trans hchild)
    · exact ihl hpl hleft hpath
    · exact ihr hpr hright hpath

end Paths

/-- The child pointers spell one tree only. -/
theorem shaped_unique {child : Dir → α → Option α} {t t' : Skeleton α} (h : Shaped child t)
    (h' : Shaped child t') (hroot : t.root = t'.root) : t = t' := by
  induction t generalizing t' with
  | nil =>
    cases t' with
    | nil => rfl
    | node => simp [Skeleton.root] at hroot
  | node left a right ihl ihr =>
    cases t' with
    | nil => simp [Skeleton.root] at hroot
    | node left' a' right' =>
      obtain rfl : a = a' := by simpa [Skeleton.root] using hroot
      obtain ⟨hl, hr, hleft, hright⟩ := h
      obtain ⟨hl', hr', hleft', hright'⟩ := h'
      rw [ihl hleft hleft' (hl.symm.trans hl'), ihr hright hright' (hr.symm.trans hr')]

end SmtpMta.Library.ParentLinks
