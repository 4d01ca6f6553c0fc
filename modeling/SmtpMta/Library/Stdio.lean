import SmtpMta.Library.CString

/-! `fgets` on a file: the pieces that successive calls return, and how they
put the file together again. -/
namespace SmtpMta.Library.Stdio
open CString

def takeLine : Nat → Bytes → Bytes
  | 0, _ => []
  | _, [] => []
  | n + 1, b :: file => if b = lf then [b] else b :: takeLine n file

/-- `fgets` with a buffer of `len` bytes: what it stores before the terminator,
and the rest of the file. -/
def fgets (len : Nat) (file : Bytes) : Option (Bytes × Bytes) :=
  if file = [] then none
  else
    let line := takeLine (len - 1) file
    some (line, file.drop line.length)

theorem takeLine_append_drop (n : Nat) (file : Bytes) :
    takeLine n file ++ file.drop (takeLine n file).length = file := by
  induction n generalizing file with
  | zero => simp [takeLine]
  | succ n ih =>
    cases file with
    | nil => simp [takeLine]
    | cons b file =>
      rw [takeLine]
      split
      · simp
      · simpa using ih file

theorem length_takeLine (n : Nat) (file : Bytes) : (takeLine n file).length ≤ n := by
  induction n generalizing file with
  | zero => simp [takeLine]
  | succ n ih =>
    cases file with
    | nil => simp [takeLine]
    | cons b file =>
      rw [takeLine]
      split
      · simp
      · simpa using ih file

theorem takeLine_ne_nil {n : Nat} {file : Bytes} (hn : 0 < n) (hfile : file ≠ []) :
    takeLine n file ≠ [] := by
  obtain ⟨b, file, rfl⟩ := List.exists_cons_of_ne_nil hfile
  obtain ⟨n, rfl⟩ := Nat.exists_eq_succ_of_ne_zero hn.ne'
  rw [takeLine]
  split <;> simp

/-- A line feed ends the line. -/
theorem lf_notMem_takeLine (n : Nat) (file : Bytes) : lf ∉ (takeLine n file).dropLast := by
  induction n generalizing file with
  | zero => simp [takeLine]
  | succ n ih =>
    cases file with
    | nil => simp [takeLine]
    | cons b file =>
      rw [takeLine]
      split
      · simp
      · rename_i hb
        cases hrest : takeLine n file with
        | nil => simp
        | cons c rest =>
          rw [List.dropLast_cons_cons, List.mem_cons, not_or, ← hrest]
          exact ⟨Ne.symm hb, ih file⟩

/-- A line that fits is taken whole. -/
theorem takeLine_line {n : Nat} {text : Bytes} (hlf : lf ∉ text) (hfits : text.length < n)
    (file : Bytes) : takeLine n (text ++ lf :: file) = text ++ [lf] := by
  induction text generalizing n with
  | nil =>
    obtain ⟨n, rfl⟩ := Nat.exists_eq_succ_of_ne_zero (Nat.ne_zero_of_lt hfits)
    simp [takeLine]
  | cons b text ih =>
    obtain ⟨n, rfl⟩ := Nat.exists_eq_succ_of_ne_zero (Nat.ne_zero_of_lt hfits)
    simp only [List.mem_cons, not_or] at hlf
    rw [List.cons_append, takeLine, if_neg (Ne.symm hlf.1), ih hlf.2 (Nat.lt_of_succ_lt_succ hfits)]
    rfl

/-- So is the last line of a file without a line feed. -/
theorem takeLine_all {n : Nat} {text : Bytes} (hlf : lf ∉ text) (hfits : text.length ≤ n) :
    takeLine n text = text := by
  induction text generalizing n with
  | nil => cases n <;> rfl
  | cons b text ih =>
    obtain ⟨n, rfl⟩ := Nat.exists_eq_succ_of_ne_zero (Nat.ne_zero_of_lt hfits)
    simp only [List.mem_cons, not_or] at hlf
    rw [takeLine, if_neg (Ne.symm hlf.1), ih hlf.2 (Nat.le_of_succ_le_succ hfits)]

theorem fgets_line {len : Nat} {text : Bytes} (hlf : lf ∉ text) (hfits : text.length < len - 1)
    (file : Bytes) : fgets len (text ++ lf :: file) = some (text ++ [lf], file) := by
  rw [fgets, if_neg (by simp), takeLine_line hlf hfits]
  simp

theorem fgets_last {len : Nat} {text : Bytes} (hlf : lf ∉ text) (hfits : text.length ≤ len - 1)
    (hne : text ≠ []) : fgets len text = some (text, []) := by
  rw [fgets, if_neg hne, takeLine_all hlf hfits]
  simp

theorem fgets_append {len : Nat} {file line rest : Bytes} (h : fgets len file = some (line, rest)) :
    line ++ rest = file := by
  unfold fgets at h
  split at h
  · simp at h
  · obtain ⟨rfl, rfl⟩ := Prod.mk.inj (Option.some.inj h)
    exact takeLine_append_drop ..

/-- What successive calls return until the end of the file. -/
inductive Chunked (len : Nat) : Bytes → List Bytes → Prop
  | eof : Chunked len [] []
  | line {file line rest : Bytes} {lines : List Bytes} (h : fgets len file = some (line, rest))
    (hrest : Chunked len rest lines) : Chunked len file (line :: lines)

theorem Chunked.flatten {len : Nat} {file : Bytes} {lines : List Bytes}
    (h : Chunked len file lines) : lines.flatten = file := by
  induction h with
  | eof => rfl
  | line h _ ih => rw [List.flatten_cons, ih, fgets_append h]

theorem fgets_shorter {len : Nat} {file line rest : Bytes} (hlen : 1 < len)
    (h : fgets len file = some (line, rest)) : rest.length < file.length := by
  have hline : line ≠ [] := by
    unfold fgets at h
    split at h
    · simp at h
    · obtain ⟨rfl, -⟩ := Prod.mk.inj (Option.some.inj h)
      exact takeLine_ne_nil (by omega) ‹_›
  have hpos := List.length_pos_iff.mpr hline
  rw [← fgets_append h, List.length_append]
  omega

theorem Chunked.count_le {len : Nat} {file : Bytes} {lines : List Bytes}
    (h : Chunked len file lines) (hlen : 1 < len) : lines.length ≤ file.length := by
  induction h with
  | eof => simp
  | line h _ ih =>
    have := fgets_shorter hlen h
    rw [List.length_cons]
    omega

theorem Chunked.length_le {len : Nat} {file : Bytes} {lines : List Bytes}
    (h : Chunked len file lines) : ∀ line ∈ lines, line.length ≤ len - 1 := by
  induction h with
  | eof => simp
  | line h _ ih =>
    unfold fgets at h
    split at h
    · simp at h
    · obtain ⟨rfl, -⟩ := Prod.mk.inj (Option.some.inj h)
      exact List.forall_mem_cons.mpr ⟨length_takeLine .., ih⟩

theorem Chunked.lf_notMem {len : Nat} {file : Bytes} {lines : List Bytes}
    (h : Chunked len file lines) : ∀ line ∈ lines, lf ∉ line.dropLast := by
  induction h with
  | eof => simp
  | line h _ ih =>
    unfold fgets at h
    split at h
    · simp at h
    · obtain ⟨rfl, -⟩ := Prod.mk.inj (Option.some.inj h)
      exact List.forall_mem_cons.mpr ⟨lf_notMem_takeLine _ _, ih⟩

/-- A line that fits into the buffer is a piece of its own. -/
theorem Chunked.cons_line {len : Nat} {text file : Bytes} {lines : List Bytes}
    (h : Chunked len (text ++ lf :: file) lines) (hlf : lf ∉ text) (hfits : text.length < len - 1) :
    ∃ rest, lines = (text ++ [lf]) :: rest ∧ Chunked len file rest := by
  generalize hwhole : text ++ lf :: file = whole at h
  cases h with
  | eof => simp at hwhole
  | line h hrest =>
    subst hwhole
    rw [fgets_line hlf hfits] at h
    obtain ⟨rfl, rfl⟩ := Prod.mk.inj (Option.some.inj h)
    exact ⟨_, rfl, hrest⟩

/-- So are several such lines. -/
theorem Chunked.append_lines {len : Nat} {texts : List Bytes} {file : Bytes} {lines : List Bytes}
    (h : Chunked len ((texts.map (· ++ [lf])).flatten ++ file) lines)
    (hlf : ∀ text ∈ texts, lf ∉ text) (hfits : ∀ text ∈ texts, text.length < len - 1) :
    ∃ rest, lines = texts.map (· ++ [lf]) ++ rest ∧ Chunked len file rest := by
  induction texts generalizing lines with
  | nil => exact ⟨lines, rfl, h⟩
  | cons text texts ih =>
    simp only [List.forall_mem_cons] at hlf hfits
    simp only [List.map_cons, List.flatten_cons, List.append_assoc, List.singleton_append] at h
    obtain ⟨rest, rfl, hrest⟩ := h.cons_line hlf.1 hfits.1
    obtain ⟨rest', rfl, hrest'⟩ := ih hrest hlf.2 hfits.2
    exact ⟨rest', rfl, hrest'⟩

end SmtpMta.Library.Stdio
