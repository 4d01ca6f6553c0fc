import SmtpMta.Library.Stdio
import Mathlib.Logic.Function.Basic

/-! `read_file`: the chunks of a mail file in an array of pointers, of which
`init_mail_text` clears only the first part. A result of `none` is a memory
fault. -/
namespace SmtpMta.Client.MailFile
open Library.CString Library.Stdio

def maxStrLength : Nat := 255

def maxStrCount : Nat := 1000000

/-- A pointer in an array: null, to a string that the program stored there, or
whatever the memory held before; that may be readable as a string. -/
inductive Slot where
  | null
  | stored (text : Bytes)
  | stray (text : Option Bytes)
deriving DecidableEq

def Slot.read : Slot → Option Bytes
  | .null => none
  | .stored text => some text
  | .stray text => text

abbrev Slots := Nat → Slot

def pointerSize : Nat := 8

/-- `memset(arr, 0, n)` clears bytes, not pointers. -/
def memsetSlots (n : Nat) (arr : Slots) : Slots := fun i =>
  if pointerSize * (i + 1) ≤ n then .null else arr i

/-- What `read_file` finds: whether there is memory for the array and for each
chunk, what the array holds at first, and whether the file can be closed. -/
structure Surroundings where
  room : Bool
  chunkRoom : Nat → Bool
  memory : Slots
  closes : Bool

def initMailText (s : Surroundings) : Option Slots :=
  if s.room then some (memsetSlots maxStrCount s.memory) else none

/-- The pointers before the first null one are freed. -/
def clearMailText (arr : Option Slots) : Option Unit :=
  match arr with
  | none => some ()
  | some arr => go maxStrCount 0 arr
where
  go : Nat → Nat → Slots → Option Unit
    | 0, _, _ => some ()
    | n + 1, i, arr =>
      match arr i with
      | .null => some ()
      | .stored _ => go n (i + 1) arr
      -- not a block that malloc handed out
      | .stray _ => none

def copyStrToArr (room : Bool) (str : Bytes) (arr : Option Slots) (pos : Nat) :
    Option (Int × Option Slots) :=
  if room then do
    let slots ← arr
    if maxStrCount ≤ pos then none
    else if slots pos ≠ .null then some (-1, arr)
    else some (0, some (Function.update slots pos (.stored (cstr str))))
  else some (-1, arr)

/-- The loop of `read_file`; no result for the caller when a chunk cannot be
stored. The number bounds the chunks. -/
def readChunks (s : Surroundings) :
    Nat → Bytes → Option Slots → Nat → Option (Option (Option Slots × Nat))
  | 0, _, _, _ => none
  | bound + 1, file, arr, pos =>
    match fgets maxStrLength file with
    | none => some (some (arr, pos))
    | some (chunk, file) => do
        let (ret, arr) ← copyStrToArr (s.chunkRoom pos) (chunk ++ [nul]) arr pos
        if ret ≠ 0 then
          clearMailText arr
          some none
        else readChunks s bound file arr (pos + 1)

/-- The array and the number of chunks, or a null pointer. Without content the
file could not be opened. -/
def readFile (s : Surroundings) (file : Option Bytes) : Option (Option (Slots × Nat)) :=
  let filetext := initMailText s
  match file with
  | none => some none
  | some file => do
      match ← readChunks s (file.length + 1) file filetext 0 with
      | none => some none
      | some (arr, pos) =>
          if s.closes then some (arr.map (·, pos))
          else do
            clearMailText arr
            some none

/-- The array with chunks from a position on. -/
def withChunks (arr : Slots) (pos : Nat) (chunks : List Bytes) : Slots := fun i =>
  if i < pos then arr i else (chunks[i - pos]?).elim (arr i) fun chunk => .stored (cstr chunk)

@[simp] theorem withChunks_nil (arr : Slots) (pos : Nat) : withChunks arr pos [] = arr := by
  funext i
  simp [withChunks]

theorem withChunks_cons (arr : Slots) (pos : Nat) (chunk : Bytes) (chunks : List Bytes) :
    withChunks (Function.update arr pos (.stored (cstr chunk))) (pos + 1) chunks =
      withChunks arr pos (chunk :: chunks) := by
  funext i
  rcases Nat.lt_trichotomy i pos with hlt | rfl | hgt
  · simp [withChunks, hlt, Nat.lt_succ_of_lt hlt, hlt.ne]
  · simp [withChunks]
  · obtain ⟨k, rfl⟩ := Nat.exists_eq_add_of_lt hgt
    have hnot : ¬pos + k + 1 < pos + 1 := by omega
    have hnot' : ¬pos + k + 1 < pos := by omega
    have hsub : pos + k + 1 - (pos + 1) = k := by omega
    have hsub' : pos + k + 1 - pos = k + 1 := by omega
    have hne : pos + k + 1 ≠ pos := by omega
    simp [withChunks, hnot, hnot', hsub, hsub', hne]

theorem copyStrToArr_eq {room : Bool} {str : Bytes} {arr arr' : Option Slots} {pos : Nat}
    (h : copyStrToArr room str arr pos = some (0, arr')) :
    ∃ slots, arr = some slots ∧ arr' = some (Function.update slots pos (.stored (cstr str))) := by
  unfold copyStrToArr at h
  split at h
  · obtain ⟨slots, rfl, h⟩ := Option.bind_eq_some_iff.mp h
    refine ⟨slots, rfl, ?_⟩
    split at h
    · simp at h
    · split at h
      · simp at h
      · exact (Prod.mk.inj (Option.some.inj h)).2.symm
  · simp at h

theorem readChunks_spec {s : Surroundings} {bound : Nat} {file : Bytes} {arr arr' : Option Slots}
    {pos n : Nat} (h : readChunks s bound file arr pos = some (some (arr', n))) :
    ∃ chunks, Chunked maxStrLength file chunks ∧ n = pos + chunks.length ∧
      arr' = arr.map fun slots => withChunks slots pos chunks := by
  induction bound generalizing file arr pos with
  | zero => simp [readChunks] at h
  | succ bound ih =>
    rw [readChunks] at h
    cases hget : fgets maxStrLength file with
    | none =>
      rw [hget] at h
      obtain ⟨rfl, rfl⟩ := Prod.mk.inj (Option.some.inj (Option.some.inj h))
      have hfile : file = [] := by
        by_contra hne
        simp [fgets, hne] at hget
      refine ⟨[], hfile ▸ .eof, rfl, ?_⟩
      cases arr <;> simp
    | some next =>
      obtain ⟨chunk, file'⟩ := next
      rw [hget] at h
      obtain ⟨⟨ret, stored⟩, hcopy, h⟩ := Option.bind_eq_some_iff.mp h
      dsimp only at h
      split at h
      · obtain ⟨-, -, h⟩ := Option.bind_eq_some_iff.mp h
        simp at h
      · rename_i hret
        obtain rfl : ret = 0 := by simpa using hret
        obtain ⟨slots, rfl, rfl⟩ := copyStrToArr_eq hcopy
        obtain ⟨chunks, hchunks, rfl, rfl⟩ := ih h
        have hcstr : cstr (chunk ++ [nul]) = cstr chunk := cstr_pad chunk 1
        refine ⟨chunk :: chunks, .line hget hchunks, ?_, ?_⟩
        · rw [List.length_cons]
          omega
        · simp [hcstr, withChunks_cons]

theorem readFile_spec {s : Surroundings} {file : Bytes} {lines : Slots} {strNum : Nat}
    (h : readFile s (some file) = some (some (lines, strNum))) :
    ∃ chunks, Chunked maxStrLength file chunks ∧ strNum = chunks.length ∧
      lines = withChunks (memsetSlots maxStrCount s.memory) 0 chunks := by
  obtain ⟨result, hread, h⟩ := Option.bind_eq_some_iff.mp h
  cases result with
  | none => simp at h
  | some result =>
    obtain ⟨arr, pos⟩ := result
    obtain ⟨chunks, hchunks, rfl, rfl⟩ := readChunks_spec hread
    dsimp only at h
    split at h
    · obtain ⟨slots, hslots, hlines⟩ := Option.map_eq_some_iff.mp (Option.some.inj h)
      obtain ⟨rfl, rfl⟩ := Prod.mk.inj hlines
      obtain ⟨arr, harr, rfl⟩ := Option.map_eq_some_iff.mp hslots
      unfold initMailText at harr
      split at harr
      · obtain rfl := Option.some.inj harr
        exact ⟨chunks, hchunks, by simp, rfl⟩
      · simp at harr
    · obtain ⟨-, -, h⟩ := Option.bind_eq_some_iff.mp h
      simp at h

end SmtpMta.Client.MailFile
