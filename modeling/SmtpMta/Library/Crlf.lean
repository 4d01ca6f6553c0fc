import SmtpMta.Library.CString

/-! Lines of a byte stream. A line ends at a CR LF pair; the bytes after the
last pair are the unfinished tail. The splitting is unique, and splitting a
stream piecewise only has to carry the tail of what came before. -/
namespace SmtpMta.Library.Crlf
open CString

def crlf : Bytes := [cr, lf]

/-- The bytes up to the first pair, put before a split of what follows. -/
def prepend (b : Byte) : List Bytes × Bytes → List Bytes × Bytes
  | ([], tail) => ([], b :: tail)
  | (line :: lines, tail) => ((b :: line) :: lines, tail)

/-- The finished lines of a stream, without their pairs, and its tail. -/
def splitCrlf : Bytes → List Bytes × Bytes
  | [] => ([], [])
  | [b] => ([], [b])
  | b :: c :: rest =>
    if b = cr ∧ c = lf then
      let split := splitCrlf rest
      ([] :: split.1, split.2)
    else prepend b (splitCrlf (c :: rest))

/-- The stream that a split came from. -/
def joinCrlf (lines : List Bytes) (tail : Bytes) : Bytes :=
  lines.flatMap (· ++ crlf) ++ tail

@[simp] theorem joinCrlf_nil (tail : Bytes) : joinCrlf [] tail = tail := rfl

@[simp] theorem joinCrlf_cons (line : Bytes) (lines : List Bytes) (tail : Bytes) :
    joinCrlf (line :: lines) tail = line ++ crlf ++ joinCrlf lines tail := by
  simp [joinCrlf]

theorem joinCrlf_append (left right : List Bytes) (tail : Bytes) :
    joinCrlf (left ++ right) tail = joinCrlf left (joinCrlf right tail) := by
  simp [joinCrlf]

theorem joinCrlf_tail_append (lines : List Bytes) (tail more : Bytes) :
    joinCrlf lines (tail ++ more) = joinCrlf lines tail ++ more := by
  simp [joinCrlf]

theorem length_le_joinCrlf (lines : List Bytes) (tail : Bytes) :
    lines.length ≤ (joinCrlf lines tail).length := by
  induction lines with
  | nil => exact Nat.zero_le _
  | cons line lines ih =>
    rw [joinCrlf_cons, List.length_append, List.length_append]
    simp only [crlf, List.length_cons, List.length_nil]
    omega

def NoCrlf (text : Bytes) : Prop :=
  ¬crlf <:+: text

/-- The cut between two pieces falls inside a pair. -/
def Straddles (left right : Bytes) : Prop :=
  left.getLast? = some cr ∧ right.head? = some lf

instance (left right : Bytes) : Decidable (Straddles left right) :=
  inferInstanceAs (Decidable (_ ∧ _))

@[simp] theorem noCrlf_nil : NoCrlf [] := by simp [NoCrlf, crlf]

theorem noCrlf_cons {b : Byte} {text : Bytes} :
    NoCrlf (b :: text) ↔ ¬(b = cr ∧ text.head? = some lf) ∧ NoCrlf text := by
  unfold NoCrlf crlf
  rw [List.infix_cons_iff, not_or]
  apply and_congr_left
  intro _
  cases text with
  | nil => simp
  | cons c text => simp [List.cons_prefix_cons, eq_comm]

theorem NoCrlf.of_sub {left right : Bytes} (h : NoCrlf right) (hsub : left <:+: right) :
    NoCrlf left :=
  fun hpair => h (hpair.trans hsub)

theorem noCrlf_append {left right : Bytes} :
    NoCrlf (left ++ right) ↔ NoCrlf left ∧ NoCrlf right ∧ ¬Straddles left right := by
  induction left with
  | nil => simp [Straddles]
  | cons b left ih =>
    rw [List.cons_append, noCrlf_cons, noCrlf_cons, ih]
    cases left with
    | nil => simp [Straddles]; tauto
    | cons c left => simp [Straddles]; tauto

/-- A byte other than the two of a pair cannot complete one. -/
theorem noCrlf_of_cr_notMem {text : Bytes} (h : cr ∉ text) : NoCrlf text :=
  fun hpair => h (hpair.subset (by simp [crlf]))

theorem splitCrlf_eq_of_noCrlf {text : Bytes} (h : NoCrlf text) : splitCrlf text = ([], text) := by
  induction text using splitCrlf.induct with
  | case1 => rfl
  | case2 b => rfl
  | case3 b c rest hpair =>
    rw [noCrlf_cons] at h
    exact absurd ⟨hpair.1, by simp [hpair.2]⟩ h.1
  | case4 b c rest hpair ih =>
    rw [splitCrlf, if_neg hpair, ih (noCrlf_cons.mp h).2, prepend]

theorem splitCrlf_line {line : Bytes} (h : NoCrlf line) (rest : Bytes) :
    splitCrlf (line ++ crlf ++ rest) = (line :: (splitCrlf rest).1, (splitCrlf rest).2) := by
  induction line with
  | nil => simp [crlf, splitCrlf]
  | cons b line ih =>
    rw [noCrlf_cons] at h
    cases line with
    | nil =>
      have hb : ¬(b = cr ∧ cr = lf) := by simp [cr, lf]
      have hih := ih h.2
      simp only [crlf, List.nil_append, List.cons_append] at hih ⊢
      rw [splitCrlf, if_neg hb, hih, prepend]
    | cons c line =>
      have hb : ¬(b = cr ∧ c = lf) := fun hpair => h.1 ⟨hpair.1, by simp [hpair.2]⟩
      have hih := ih h.2
      simp only [List.cons_append] at hih ⊢
      rw [splitCrlf, if_neg hb, hih, prepend]

private theorem strstr_go_of_noCrlf {text : Bytes} (h : NoCrlf text) (k : Nat) :
    strstr.go crlf text k = none := by
  induction text generalizing k with
  | nil => rfl
  | cons b text ih =>
    have hno : crlf.isPrefixOf (b :: text) = false := by
      rw [Bool.eq_false_iff, Ne, List.isPrefixOf_iff_prefix]
      exact fun hpair => h hpair.isInfix
    rw [strstr.go, hno, if_neg Bool.false_ne_true]
    exact ih (noCrlf_cons.mp h).2 (k + 1)

private theorem strstr_go_line {line : Bytes} (h : NoCrlf line) (rest : Bytes) (k : Nat) :
    strstr.go crlf (line ++ crlf ++ rest) k = some (k + line.length) := by
  induction line generalizing k with
  | nil => simp [crlf, strstr.go]
  | cons b line ih =>
    have hno : crlf.isPrefixOf (b :: (line ++ crlf ++ rest)) = false := by
      rw [Bool.eq_false_iff, Ne, List.isPrefixOf_iff_prefix]
      intro hpair
      have hhead := (noCrlf_cons.mp h).1
      cases line with
      | nil =>
        simp [crlf, cr, lf, List.cons_prefix_cons] at hpair
      | cons c line =>
        obtain ⟨rfl, hnext⟩ := List.cons_prefix_cons.mp hpair
        rw [List.cons_append, List.cons_append, List.cons_prefix_cons] at hnext
        exact hhead ⟨rfl, by simp [← hnext.1]⟩
    rw [List.cons_append, List.cons_append, strstr.go, hno, if_neg Bool.false_ne_true,
      ih (noCrlf_cons.mp h).2, List.length_cons]
    congr 1
    omega

/-- `strstr` finds the first pair. -/
theorem strstr_crlf_eq_none {str : Bytes} (h : NoCrlf (cstr str)) : strstr str crlf = none :=
  strstr_go_of_noCrlf h 0

theorem strstr_crlf_line {str line rest : Bytes} (hline : NoCrlf line)
    (h : cstr str = line ++ crlf ++ rest) : strstr str crlf = some line.length := by
  have hgo := strstr_go_line hline rest 0
  rw [← h, Nat.zero_add] at hgo
  exact hgo

/-- A stream without a pair is all tail; otherwise its first line is found. -/
theorem exists_first_line (text : Bytes) :
    NoCrlf text ∨ ∃ line rest, text = line ++ crlf ++ rest ∧ NoCrlf line := by
  induction text with
  | nil => exact .inl noCrlf_nil
  | cons b text ih =>
    by_cases hpair : b = cr ∧ text.head? = some lf
    · obtain ⟨rest, rfl⟩ : ∃ rest, text = lf :: rest := by
        cases text with
        | nil => simp at hpair
        | cons c rest => exact ⟨rest, by simpa using hpair.2⟩
      exact .inr ⟨[], rest, by simp [crlf, hpair.1], noCrlf_nil⟩
    · rcases ih with hno | ⟨line, rest, rfl, hline⟩
      · exact .inl (noCrlf_cons.mpr ⟨hpair, hno⟩)
      · refine .inr ⟨b :: line, rest, by simp, noCrlf_cons.mpr ⟨?_, hline⟩⟩
        rintro ⟨rfl, hhead⟩
        apply hpair
        refine ⟨rfl, ?_⟩
        cases line with
        | nil => simp at hhead
        | cons c line => simpa using hhead

theorem splitCrlf_cases (text : Bytes) : (NoCrlf text ∧ splitCrlf text = ([], text)) ∨
    ∃ line rest, NoCrlf line ∧ text = line ++ crlf ++ rest ∧
      splitCrlf text = (line :: (splitCrlf rest).1, (splitCrlf rest).2) := by
  rcases exists_first_line text with hnone | ⟨line, rest, rfl, hline⟩
  · exact .inl ⟨hnone, splitCrlf_eq_of_noCrlf hnone⟩
  · exact .inr ⟨line, rest, hline, rfl, splitCrlf_line hline rest⟩

/-- Induction over the lines of a stream. -/
theorem lines_induction {motive : Bytes → Prop}
    (tail : ∀ text, NoCrlf text → motive text)
    (line : ∀ line rest, NoCrlf line → motive rest → motive (line ++ crlf ++ rest))
    (text : Bytes) : motive text := by
  induction hlen : text.length using Nat.strongRecOn generalizing text with
  | _ n ih =>
    rcases exists_first_line text with hno | ⟨first, rest, rfl, hfirst⟩
    · exact tail text hno
    · apply line first rest hfirst
      apply ih rest.length _ rest rfl
      simp only [List.length_append, crlf, List.length_cons, List.length_nil] at hlen
      omega

theorem joinCrlf_splitCrlf (text : Bytes) :
    joinCrlf (splitCrlf text).1 (splitCrlf text).2 = text := by
  induction text using lines_induction with
  | tail text h => simp [splitCrlf_eq_of_noCrlf h]
  | line line rest h ih => rw [splitCrlf_line h, joinCrlf_cons, ih]

theorem length_splitCrlf_le (text : Bytes) : (splitCrlf text).1.length ≤ text.length := by
  have hle := length_le_joinCrlf (splitCrlf text).1 (splitCrlf text).2
  rwa [joinCrlf_splitCrlf] at hle

theorem noCrlf_of_mem_splitCrlf {text line : Bytes} (h : line ∈ (splitCrlf text).1) :
    NoCrlf line := by
  induction text using lines_induction with
  | tail text hno => simp [splitCrlf_eq_of_noCrlf hno] at h
  | line first rest hfirst ih =>
    rw [splitCrlf_line hfirst, List.mem_cons] at h
    rcases h with rfl | h
    · exact hfirst
    · exact ih h

theorem noCrlf_splitCrlf_tail (text : Bytes) : NoCrlf (splitCrlf text).2 := by
  induction text using lines_induction with
  | tail text h => simpa [splitCrlf_eq_of_noCrlf h] using h
  | line line rest h ih => rwa [splitCrlf_line h]

/-- Lines without a pair inside determine the split. -/
theorem splitCrlf_joinCrlf {lines : List Bytes} {tail : Bytes}
    (hlines : ∀ line ∈ lines, NoCrlf line) (htail : NoCrlf tail) :
    splitCrlf (joinCrlf lines tail) = (lines, tail) := by
  induction lines with
  | nil => exact splitCrlf_eq_of_noCrlf htail
  | cons line lines ih =>
    rw [joinCrlf_cons, splitCrlf_line (hlines line (by simp)),
      ih fun other hother => hlines other (by simp [hother])]

/-- Splitting piecewise: only the unfinished tail is carried over a cut. -/
theorem splitCrlf_append (left right : Bytes) :
    splitCrlf (left ++ right) =
      ((splitCrlf left).1 ++ (splitCrlf ((splitCrlf left).2 ++ right)).1,
        (splitCrlf ((splitCrlf left).2 ++ right)).2) := by
  induction left using lines_induction with
  | tail text h => simp [splitCrlf_eq_of_noCrlf h]
  | line line rest h ih =>
    rw [List.append_assoc, splitCrlf_line h, splitCrlf_line h, ih]
    rfl

/-- Finished lines in front of a text come out again, in front of its own. -/
theorem splitCrlf_joinCrlf_text {lines : List Bytes} (hlines : ∀ line ∈ lines, NoCrlf line)
    (text : Bytes) :
    splitCrlf (joinCrlf lines text) = (lines ++ (splitCrlf text).1, (splitCrlf text).2) := by
  have hsplit := splitCrlf_append (joinCrlf lines []) text
  rwa [splitCrlf_joinCrlf hlines noCrlf_nil, ← joinCrlf_tail_append, List.nil_append] at hsplit

/-- The lines of a text whose last line need not be finished. -/
def crlfLines (text : Bytes) : List Bytes :=
  (splitCrlf text).1 ++ [(splitCrlf text).2]

/-- A pair finishes the last line. -/
theorem splitCrlf_crlf (text rest : Bytes) :
    splitCrlf (text ++ crlf ++ rest) = (crlfLines text ++ (splitCrlf rest).1, (splitCrlf rest).2) := by
  rw [List.append_assoc, splitCrlf_append, ← List.append_assoc,
    splitCrlf_line (noCrlf_splitCrlf_tail text)]
  simp [crlfLines]

/-- A shorter text has no other lines. -/
theorem splitCrlf_front {left right : Bytes} (h : left <+: right) :
    (splitCrlf left).1 <+: (splitCrlf right).1 := by
  obtain ⟨more, rfl⟩ := h
  rw [splitCrlf_append]
  exact List.prefix_append _ _

def attach (held : Bytes) : List Bytes × Bytes → List Bytes × Bytes
  | ([], tail) => ([], held ++ tail)
  | (line :: lines, tail) => ((held ++ line) :: lines, tail)

@[simp] theorem attach_nil (split : List Bytes × Bytes) : attach [] split = split := by
  obtain ⟨lines, tail⟩ := split
  cases lines <;> rfl

theorem length_attach (held : Bytes) (split : List Bytes × Bytes) :
    (attach held split).1.length = split.1.length := by
  obtain ⟨lines, tail⟩ := split
  cases lines <;> rfl

theorem joinCrlf_attach (held : Bytes) (split : List Bytes × Bytes) :
    joinCrlf (attach held split).1 (attach held split).2 = held ++ joinCrlf split.1 split.2 := by
  obtain ⟨lines, tail⟩ := split
  cases lines <;> simp [attach]

/-- Every line stands somewhere in the stream. -/
theorem infix_joinCrlf {lines : List Bytes} {line : Bytes} (h : line ∈ lines) (tail : Bytes) :
    line <:+: joinCrlf lines tail := by
  obtain ⟨before, after, rfl⟩ := List.append_of_mem h
  refine ⟨joinCrlf before [], crlf ++ joinCrlf after tail, ?_⟩
  simp [joinCrlf]

/-- Where the cut does not fall inside a pair, the carried tail only
lengthens the first line, or the tail, of the next piece. -/
theorem splitCrlf_append_of_noCrlf {left : Bytes} (hleft : NoCrlf left) {right : Bytes}
    (hcut : ¬Straddles left right) : splitCrlf (left ++ right) = attach left (splitCrlf right) := by
  rcases exists_first_line right with hno | ⟨line, rest, rfl, hline⟩
  · rw [splitCrlf_eq_of_noCrlf hno,
      splitCrlf_eq_of_noCrlf (noCrlf_append.mpr ⟨hleft, hno, hcut⟩)]
    rfl
  · have hfirst : NoCrlf (left ++ line) := by
      refine noCrlf_append.mpr ⟨hleft, hline, ?_⟩
      rintro ⟨hlast, hhead⟩
      cases line with
      | nil => simp at hhead
      | cons b line => exact hcut ⟨hlast, by simpa using hhead⟩
    rw [splitCrlf_line hline, ← List.append_assoc, ← List.append_assoc, splitCrlf_line hfirst]
    rfl

end SmtpMta.Library.Crlf
