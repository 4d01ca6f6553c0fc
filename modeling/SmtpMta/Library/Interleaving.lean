import SmtpMta.Library.CString
import Mathlib.Data.List.Infix

/-! Streams to which several parties append. Each item carries the party it came
from, so that the items of one party can be read off; and a stream of blocks, each
with a mark behind it, can be cut at the marks again. -/
namespace SmtpMta.Library.Interleaving

section Parties
variable {π α : Type}

/-- The items as one party appends them. -/
def tagged (p : π) (items : List α) : List (π × α) :=
  items.map fun item => (p, item)

@[simp] theorem map_snd_tagged (p : π) (items : List α) : (tagged p items).map Prod.snd = items := by
  simp [tagged, Function.comp_def]

variable [DecidableEq π]

def own (p : π) (stream : List (π × α)) : List α :=
  (stream.filter fun item => item.1 = p).map Prod.snd

@[simp] theorem own_nil (p : π) : own p ([] : List (π × α)) = [] := rfl

@[simp] theorem own_append (p : π) (left right : List (π × α)) :
    own p (left ++ right) = own p left ++ own p right := by
  simp [own]

@[simp] theorem own_singleton_self (p : π) (item : α) : own p [(p, item)] = [item] := by
  simp [own]

theorem own_singleton_ne {p q : π} (h : q ≠ p) (item : α) : own p [(q, item)] = [] := by
  simp [own, h]

theorem mem_own {p : π} {item : α} {stream : List (π × α)} :
    item ∈ own p stream ↔ (p, item) ∈ stream := by
  simp [own]

theorem own_map {β : Type} (p : π) (f : α → β) (stream : List (π × α)) :
    own p (stream.map fun item => (item.1, f item.2)) = (own p stream).map f := by
  simp [own, List.filter_map, Function.comp_def]

end Parties

section Blocks
variable {α : Type}

def joined (mark : α) (blocks : List (List α)) : List α :=
  (blocks.map fun block => block ++ [mark]).flatten

@[simp] theorem joined_nil (mark : α) : joined mark [] = [] := rfl

theorem joined_cons (mark : α) (block : List α) (blocks : List (List α)) :
    joined mark (block :: blocks) = block ++ mark :: joined mark blocks := by
  simp [joined]

/-- The first mark of a stream tells what stands before it and behind it. -/
theorem first_mark_unique {mark : α} {left left' right right' : List α} (hl : mark ∉ left)
    (hl' : mark ∉ left') (h : left ++ mark :: right = left' ++ mark :: right') :
    left = left' ∧ right = right' := by
  induction left generalizing left' with
  | nil =>
    cases left' with
    | nil => exact ⟨rfl, List.tail_eq_of_cons_eq h⟩
    | cons item left' => exact absurd (List.head_eq_of_cons_eq h) (fun he => hl' (by simp [he]))
  | cons item left ih =>
    cases left' with
    | nil => exact absurd (List.head_eq_of_cons_eq h) (fun he => hl (by simp [he]))
    | cons item' left' =>
      obtain ⟨rfl, hrest⟩ := List.cons.inj h
      obtain ⟨rfl, hright⟩ := ih (fun hmem => hl (by simp [hmem])) (fun hmem => hl' (by simp [hmem])) hrest
      exact ⟨rfl, hright⟩

variable [DecidableEq α]

/-- The blocks that have the mark behind them, and what stands behind the last mark. -/
def cut (mark : α) : List α → List (List α) × List α
  | [] => ([], [])
  | item :: rest =>
    if item = mark then ([] :: (cut mark rest).1, (cut mark rest).2)
    else
      match (cut mark rest).1 with
      | [] => ([], item :: (cut mark rest).2)
      | block :: blocks => ((item :: block) :: blocks, (cut mark rest).2)

theorem cut_append_mark {mark : α} {block : List α} (h : mark ∉ block) (rest : List α) :
    cut mark (block ++ mark :: rest) = (block :: (cut mark rest).1, (cut mark rest).2) := by
  induction block with
  | nil => simp [cut]
  | cons item block ih =>
    obtain ⟨hitem, hblock⟩ := not_or.mp (List.mem_cons.not.mp h)
    rw [List.cons_append, cut, if_neg (Ne.symm hitem), ih hblock]

theorem cut_of_notMem {mark : α} {tail : List α} (h : mark ∉ tail) : cut mark tail = ([], tail) := by
  induction tail with
  | nil => rfl
  | cons item tail ih =>
    obtain ⟨hitem, htail⟩ := not_or.mp (List.mem_cons.not.mp h)
    rw [cut, if_neg (Ne.symm hitem), ih htail]

/-- Blocks without the mark are read back, and what is not yet whole is the rest. -/
theorem cut_joined {mark : α} {blocks : List (List α)} {tail : List α}
    (hblocks : ∀ block ∈ blocks, mark ∉ block) (htail : mark ∉ tail) :
    cut mark (joined mark blocks ++ tail) = (blocks, tail) := by
  induction blocks with
  | nil => exact cut_of_notMem htail
  | cons block blocks ih =>
    obtain ⟨hblock, hblocks⟩ := List.forall_mem_cons.mp hblocks
    rw [joined_cons, List.append_assoc, List.cons_append, cut_append_mark hblock, ih hblocks]

end Blocks

end SmtpMta.Library.Interleaving
