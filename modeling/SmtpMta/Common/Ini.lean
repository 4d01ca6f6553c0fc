import SmtpMta.Common.StringUtils
import SmtpMta.Library.Stdio

/-! `ini_read_file_to_dict`: the lines of a configuration file, and the calls of
`dict_set` that they make. -/
namespace SmtpMta.Common.Ini
open Library.CString Library.Stdio StringUtils

def iniMaxLineLen : Nat := 256

/-- The scan over a line up to the first semicolon. Each equals sign is overwritten,
and the value starts behind the last one. -/
def iniScan : Nat → Nat → Bytes → Option Nat → Bytes × Option Nat
  | 0, _, str, value => (str, value)
  | bound + 1, i, str, value =>
    if str[i]? = some 59 then (str, value)
    else if str[i]? = some 61 then iniScan bound (i + 1) (str.set i nul) (some (i + 1))
    else iniScan bound (i + 1) str value

/-- `__ini_read_line`: the result, and the key and the value that are set. The key is
trimmed in place, before the first equals sign, so that the value is as it was. -/
def iniReadLine (keyRoom valueRoom : Bool) (line : Bytes) : Int × Option (Bytes × Bytes) :=
  match iniScan (strlen line) 0 line none with
  | (_, none) => (-1, none)
  | (line, some value) =>
    let key := strtrim line
    let value := strtrim (line.drop value)
    if keyRoom then if valueRoom then (0, some (key, value)) else (-1, none) else (-1, none)

/-- The loop over the file, which is at a line; `strdup` is called twice a line. -/
def iniReadLines (room : Nat → Bool) : Nat → Nat → Bytes → Option (List (Bytes × Bytes) × Int)
  | 0, _, _ => none
  | bound + 1, k, file =>
    match fgets iniMaxLineLen file with
    | none => some ([], 0)
    | some (line, file) =>
      let (ret, call) := iniReadLine (room (2 * k)) (room (2 * k + 1)) (line ++ [nul])
      if ret ≠ 0 then some (call.toList, -1)
      else (iniReadLines room bound (k + 1) file).map fun (calls, ret) => (call.toList ++ calls, ret)

/-- The calls of `dict_set` and the result. -/
def iniReadFileToDict (room : Nat → Bool) (file : Bytes) : Option (List (Bytes × Bytes) × Int) :=
  iniReadLines room (file.length + 1) 0 file

inductive Line where
  | blank (text : Bytes)
  | comment (text : Bytes)
  | entry (key value : Bytes) (remark : Option Bytes)

/-- A comment with its semicolon. -/
def commentText (remark : Option Bytes) : Bytes :=
  remark.elim [] (59 :: ·)

def Line.text : Line → Bytes
  | .blank text => text
  | .comment text => 59 :: text
  | .entry key value remark => key ++ 61 :: (value ++ commentText remark)

/-- The lines that the format has. -/
def Line.InFormat : Line → Prop
  | .blank text => ∀ b ∈ text, isspace b = true
  | .comment _ => True
  | .entry key value _ => (∃ b ∈ key, isspace b = false) ∧ 61 ∉ key ∧ 59 ∉ key ∧ 59 ∉ value ∧
      (strtrim key).length ≤ 127

/-- A line of the format, as a text of its own that the buffer has room for. -/
structure FormatLine (line : Line) : Prop where
  format : line.InFormat
  oneLine : lf ∉ line.text
  nulFree : NulFree line.text
  short : line.text.length < 255

/-- What a line sets: its trimmed key to the trimmed text between the first equals
sign and the comment. -/
def Line.sets : Line → Option (Bytes × Bytes)
  | .blank _ | .comment _ => none
  | .entry key value _ => some (strtrim key, strtrim value)

def fileOf (lines : List Line) (last : Option Line) : Bytes :=
  (lines.map (·.text ++ [lf])).flatten ++ last.elim [] Line.text

/-- The file is accepted, and each of its key lines is set, in their order. -/
def Accepted (room : Nat → Bool) (lines : List Line) (last : Option Line) : Prop :=
  iniReadFileToDict room (fileOf lines last) =
    some ((lines ++ last.toList).filterMap Line.sets, 0)

/-- A key line with one equals sign and no comment. -/
def Line.Plain : Line → Prop
  | .blank _ | .comment _ => False
  | .entry _ value remark => 61 ∉ value ∧ remark = none

section Scan
variable {done seg rest : Bytes} {n : Nat} {value : Option Nat}

theorem iniScan_plain (hseg : ∀ b ∈ seg, b ≠ 59 ∧ b ≠ 61) :
    iniScan (seg.length + n) done.length (done ++ (seg ++ rest)) value =
      iniScan n (done.length + seg.length) (done ++ (seg ++ rest)) value := by
  induction seg generalizing done with
  | nil => simp
  | cons b seg ih =>
    rw [List.forall_mem_cons] at hseg
    have hnext := @ih (done ++ [b]) hseg.2
    have hbound : (b :: seg).length + n = seg.length + n + 1 := by
      rw [List.length_cons]
      omega
    have hget : (done ++ (b :: seg ++ rest))[done.length]? = some b := by simp
    rw [hbound, iniScan, hget, if_neg (by simpa using hseg.1.1), if_neg (by simpa using hseg.1.2)]
    simp only [List.length_append, List.length_singleton, List.append_assoc,
      List.singleton_append] at hnext
    rw [List.cons_append, hnext, List.length_cons, Nat.add_assoc, Nat.add_comm 1]

theorem iniScan_equals :
    iniScan (n + 1) done.length (done ++ 61 :: rest) value =
      iniScan n (done.length + 1) (done ++ nul :: rest) (some (done.length + 1)) := by
  have hget : (done ++ 61 :: rest)[done.length]? = some 61 := by simp
  rw [iniScan, hget, if_neg (by decide), if_pos rfl]
  simp

theorem iniScan_semicolon :
    iniScan n done.length (done ++ 59 :: rest) value = (done ++ 59 :: rest, value) := by
  cases n with
  | zero => rfl
  | succ n =>
    have hget : (done ++ 59 :: rest)[done.length]? = some 59 := by simp
    rw [iniScan, hget, if_pos rfl]

theorem iniScan_passes (hseg : 59 ∉ seg) : ∃ seg' value', seg'.length = seg.length ∧
    iniScan (seg.length + n) done.length (done ++ (seg ++ rest)) value =
      iniScan n (done.length + seg.length) (done ++ (seg' ++ rest)) value' := by
  induction seg generalizing done value with
  | nil => exact ⟨[], value, rfl, by simp⟩
  | cons b seg ih =>
    rw [List.mem_cons, not_or] at hseg
    have hbound : (b :: seg).length + n = seg.length + n + 1 := by
      rw [List.length_cons]
      omega
    by_cases hb : b = 61
    · subst hb
      obtain ⟨seg', value', hlen, hscan⟩ := @ih (done ++ [nul]) (some (done.length + 1)) hseg.2
      refine ⟨nul :: seg', value', by simp [hlen], ?_⟩
      simp only [List.length_append, List.length_singleton, List.append_assoc,
        List.singleton_append] at hscan
      rw [hbound, List.cons_append, iniScan_equals, hscan, List.length_cons, Nat.add_assoc,
        Nat.add_comm 1, List.cons_append]
    · obtain ⟨seg', value', hlen, hscan⟩ := @ih (done ++ [b]) value hseg.2
      refine ⟨b :: seg', value', by simp [hlen], ?_⟩
      have hone := @iniScan_plain done [b] (seg ++ rest) (seg.length + n) value (by
        simpa using ⟨Ne.symm hseg.1, hb⟩)
      simp only [List.length_append, List.length_singleton, List.append_assoc,
        List.singleton_append] at hscan hone
      rw [hbound, Nat.add_comm _ 1, List.cons_append, hone, hscan, List.length_cons, Nat.add_assoc,
        Nat.add_comm 1, List.cons_append]

theorem iniScan_tail {remark : Option Bytes} {ending : Bytes} (hending : ∀ b ∈ ending, b ≠ 59 ∧ b ≠ 61) :
    iniScan (commentText remark ++ ending).length done.length
        (done ++ (commentText remark ++ (ending ++ [nul]))) value =
      (done ++ (commentText remark ++ (ending ++ [nul])), value) := by
  cases remark with
  | some text => exact iniScan_semicolon
  | none => exact @iniScan_plain done ending [nul] 0 value hending

theorem exists_last_equals {text : Bytes} (h : 61 ∈ text) :
    ∃ left right, text = left ++ 61 :: right ∧ 61 ∉ right := by
  induction text with
  | nil => simp at h
  | cons b text ih =>
    by_cases hmem : 61 ∈ text
    · obtain ⟨left, right, rfl, hright⟩ := ih hmem
      exact ⟨b :: left, right, rfl, hright⟩
    · obtain rfl : 61 = b := (List.mem_cons.mp h).resolve_right hmem
      exact ⟨[], text, rfl, hmem⟩

theorem iniScan_value (hseg : 59 ∉ seg) (hvalue : value = some done.length) :
    ∃ mid last, last <:+ seg ∧ mid.length + last.length = seg.length ∧ (61 ∉ seg → last = seg) ∧
      61 ∉ last ∧ iniScan (seg.length + n) done.length (done ++ (seg ++ rest)) value =
        iniScan n (done.length + seg.length) (done ++ (mid ++ (last ++ rest)))
          (some (done.length + mid.length)) := by
  by_cases hmem : 61 ∈ seg
  · obtain ⟨left, right, rfl, hright⟩ := exists_last_equals hmem
    simp only [List.mem_append, List.mem_cons, not_or] at hseg
    obtain ⟨left', value', hlen, hleft⟩ := @iniScan_passes done left (61 :: (right ++ rest))
      (right.length + n + 1) value hseg.1
    have hequals := @iniScan_equals (done ++ left') (right ++ rest) (right.length + n) value'
    have hplain := @iniScan_plain (done ++ (left' ++ [nul])) right rest n
      (some (done.length + left.length + 1)) fun b hb =>
        ⟨fun heq => hseg.2.2 (heq ▸ hb), fun heq => hright (heq ▸ hb)⟩
    refine ⟨left' ++ [nul], right, ⟨left ++ [61], by simp⟩, ?_, fun hnot => absurd hmem hnot, hright, ?_⟩
    · simp [hlen]
      omega
    · simp only [List.length_append, List.append_assoc, hlen, List.length_cons, List.length_nil,
        Nat.zero_add, List.cons_append, List.nil_append] at hequals hplain hleft ⊢
      have hbound : left.length + (right.length + 1) + n = left.length + (right.length + n + 1) := by omega
      rw [hbound, hleft, hequals]
      simp only [← Nat.add_assoc] at hplain ⊢
      rw [hplain]
      have hindex : done.length + left.length + 1 + right.length =
          done.length + left.length + right.length + 1 := by omega
      rw [hindex]
  · refine ⟨[], seg, List.suffix_refl _, by simp, fun _ => rfl, hmem, ?_⟩
    rw [iniScan_plain fun b hb => ⟨fun heq => hseg (heq ▸ hb), fun heq => hmem (heq ▸ hb)⟩, hvalue]
    rfl

end Scan

section Lines
variable {keyRoom valueRoom : Bool} {line : Line} {ending : Bytes}

def LineEnd (ending : Bytes) : Prop := ending = [] ∨ ending = [lf]

theorem LineEnd.spaces (h : LineEnd ending) : ∀ b ∈ ending, isspace b = true := by
  rcases h with rfl | rfl
  · simp
  · rw [List.forall_mem_singleton]
    decide

theorem LineEnd.nulFree (h : LineEnd ending) : NulFree ending := by
  rcases h with rfl | rfl <;> decide

theorem spaces_plain {text : Bytes} (h : ∀ b ∈ text, isspace b = true) :
    ∀ b ∈ text, b ≠ 59 ∧ b ≠ 61 := by
  intro b hb
  have hspace := h b hb
  exact ⟨by rintro rfl; exact absurd hspace (by decide), by rintro rfl; exact absurd hspace (by decide)⟩

theorem strlen_block {text : Bytes} (h : NulFree text) : strlen (text ++ [nul]) = text.length := by
  rw [strlen, cstr_append_nul h]

theorem iniReadLine_blank {text : Bytes} (hfree : NulFree text)
    (hspaces : ∀ b ∈ text, isspace b = true) :
    iniReadLine keyRoom valueRoom (text ++ [nul]) = (-1, none) := by
  have hscan := @iniScan_plain [] text [nul] 0 none (spaces_plain hspaces)
  simp only [List.nil_append, List.length_nil, Nat.add_zero, iniScan] at hscan
  rw [iniReadLine, strlen_block hfree, hscan]

theorem iniReadLine_comment (text : Bytes) :
    iniReadLine keyRoom valueRoom (59 :: text) = (-1, none) := by
  have hscan := @iniScan_semicolon [] text (strlen (59 :: text)) none
  simp only [List.nil_append, List.length_nil] at hscan
  rw [iniReadLine, hscan]

/-- The scan over a key line: its equals signs are overwritten, and what is left of the
value begins behind the last one. -/
theorem iniScan_entry {key value : Bytes} {remark : Option Bytes} (hending : LineEnd ending)
    (hline : FormatLine (.entry key value remark)) :
    ∃ mid last, last <:+ value ∧ (61 ∉ value → last = value) ∧ 61 ∉ last ∧
      iniScan (strlen ((Line.entry key value remark).text ++ ending ++ [nul])) 0
        ((Line.entry key value remark).text ++ ending ++ [nul]) none =
      (key ++ nul :: (mid ++ (last ++ (commentText remark ++ (ending ++ [nul])))),
        some (key.length + 1 + mid.length)) := by
  obtain ⟨⟨-, hkey, hkey', hvalue, -⟩, -, hfree, -⟩ := hline
  have hkeyPlain : ∀ b ∈ key, b ≠ 59 ∧ b ≠ 61 :=
    fun b hb => ⟨fun heq => hkey' (heq ▸ hb), fun heq => hkey (heq ▸ hb)⟩
  obtain ⟨mid, last, hlast, hlen, hwhole, hnone, hscan⟩ := @iniScan_value (key ++ [nul]) value
    (commentText remark ++ (ending ++ [nul])) (commentText remark ++ ending).length
    (some (key ++ [nul]).length) hvalue rfl
  refine ⟨mid, last, hlast, hwhole, hnone, ?_⟩
  have hblock : (Line.entry key value remark).text ++ ending ++ [nul] =
      key ++ 61 :: (value ++ (commentText remark ++ (ending ++ [nul]))) := by simp [Line.text]
  have hstrlen : strlen ((Line.entry key value remark).text ++ ending ++ [nul]) =
      key.length + (value.length + (commentText remark ++ ending).length + 1) := by
    rw [strlen_block (nulFree_append.mpr ⟨hfree, hending.nulFree⟩)]
    simp [Line.text]
  have hfirst := @iniScan_plain [] key (61 :: (value ++ (commentText remark ++ (ending ++ [nul]))))
    (value.length + (commentText remark ++ ending).length + 1) none hkeyPlain
  have hequals := @iniScan_equals key (value ++ (commentText remark ++ (ending ++ [nul])))
    (value.length + (commentText remark ++ ending).length) none
  have htail := @iniScan_tail (key ++ nul :: (mid ++ last)) (some (key.length + 1 + mid.length))
    remark ending (spaces_plain hending.spaces)
  simp only [List.nil_append, List.length_nil, Nat.zero_add] at hfirst
  simp only [List.length_append, List.length_cons, List.length_nil, Nat.zero_add,
    List.append_assoc, List.cons_append, List.nil_append] at hscan hequals htail
  have hindex : key.length + 1 + value.length = key.length + (mid.length + last.length + 1) := by omega
  rw [hstrlen, hblock, hfirst, List.length_append, hequals, hscan, hindex, htail]

theorem iniReadLine_entry {key value : Bytes} {remark : Option Bytes} (hending : LineEnd ending)
    (hline : FormatLine (.entry key value remark)) :
    ∃ last, last <:+ value ∧ (61 ∉ value → last = value) ∧ 61 ∉ last ∧
      iniReadLine keyRoom valueRoom ((Line.entry key value remark).text ++ ending ++ [nul]) =
        if keyRoom then if valueRoom then (0, some (strtrim key, strtrim (last ++ commentText remark)))
          else (-1, none) else (-1, none) := by
  obtain ⟨mid, last, hlast, hwhole, hnone, hscan⟩ := iniScan_entry hending hline
  refine ⟨last, hlast, hwhole, hnone, ?_⟩
  have hfree := hline.nulFree
  simp only [Line.text, nulFree_append, nulFree_cons] at hfree
  obtain ⟨hkeyFree, -, hvalueFree, hremarkFree⟩ := hfree
  have hdrop : (key ++ nul :: (mid ++ (last ++ (commentText remark ++ (ending ++ [nul]))))).drop
      (key.length + 1 + mid.length) = last ++ commentText remark ++ ending ++ [nul] := by
    have hshape : key ++ nul :: (mid ++ (last ++ (commentText remark ++ (ending ++ [nul])))) =
        (key ++ nul :: mid) ++ (last ++ commentText remark ++ ending ++ [nul]) := by simp
    have hlength : key.length + 1 + mid.length = (key ++ nul :: mid).length := by
      simp
      omega
    rw [hshape, hlength, List.drop_left]
  have hlastFree : NulFree (last ++ commentText remark ++ ending) := by
    rw [nulFree_append, nulFree_append]
    exact ⟨⟨hvalueFree.of_sublist hlast.sublist, hremarkFree⟩, hending.nulFree⟩
  have htrimKey : strtrim (key ++ nul :: (mid ++ (last ++ (commentText remark ++ (ending ++ [nul]))))) =
      strtrim key :=
    strtrim_cstr (by rw [cstr_append_nul hkeyFree, cstr_of_nulFree hkeyFree])
  have htrimValue : strtrim (last ++ commentText remark ++ ending ++ [nul]) =
      strtrim (last ++ commentText remark) := by
    rw [← strtrim_append_spaces hlastFree hending.spaces]
    exact strtrim_cstr (by rw [cstr_append_nul hlastFree, cstr_of_nulFree hlastFree])
  simp only [iniReadLine, hscan, hdrop, htrimKey, htrimValue]

theorem iniReadLine_ok (hending : LineEnd ending) (hline : FormatLine line)
    (hok : (iniReadLine keyRoom valueRoom (line.text ++ ending ++ [nul])).1 = 0) :
    (iniReadLine keyRoom valueRoom (line.text ++ ending ++ [nul])).2.isSome ∧ line.sets.isSome := by
  cases line with
  | blank text =>
    rw [iniReadLine_blank (nulFree_append.mpr ⟨hline.nulFree, hending.nulFree⟩)
      (List.forall_mem_append.mpr ⟨hline.format, hending.spaces⟩)] at hok
    exact absurd hok (by decide)
  | comment text =>
    rw [Line.text, List.cons_append, List.cons_append, iniReadLine_comment] at hok
    exact absurd hok (by decide)
  | entry key value remark =>
    obtain ⟨last, -, -, -, hread⟩ := iniReadLine_entry hending hline
    rw [hread] at hok ⊢
    cases keyRoom with
    | false => simp at hok
    | true =>
      cases valueRoom with
      | false => simp at hok
      | true => exact ⟨rfl, rfl⟩

theorem iniReadLine_iff (hending : LineEnd ending) (hline : FormatLine line) :
    iniReadLine keyRoom valueRoom (line.text ++ ending ++ [nul]) = (0, line.sets) ↔
      line.Plain ∧ keyRoom = true ∧ valueRoom = true := by
  cases line with
  | blank text =>
    rw [iniReadLine_blank (nulFree_append.mpr ⟨hline.nulFree, hending.nulFree⟩)
      (List.forall_mem_append.mpr ⟨hline.format, hending.spaces⟩)]
    simp [Line.Plain]
  | comment text =>
    rw [Line.text, List.cons_append, List.cons_append, iniReadLine_comment]
    simp [Line.Plain]
  | entry key value remark =>
    obtain ⟨last, hsuffix, hwhole, hnone, hread⟩ := iniReadLine_entry hending hline
    have hnoRemark : 59 ∉ value := hline.format.2.2.2.1
    have hfree := hline.nulFree
    simp only [Line.text, nulFree_append, nulFree_cons] at hfree
    have hlastFree : NulFree (last ++ commentText remark) :=
      nulFree_append.mpr ⟨hfree.2.2.1.of_sublist hsuffix.sublist, hfree.2.2.2⟩
    have hvalue : strtrim (last ++ commentText remark) = strtrim value ↔ 61 ∉ value ∧ remark = none := by
      constructor
      · intro heq
        have hsub {text : Bytes} (hfree : NulFree text) : ∀ b ∈ strtrim text, b ∈ text := by
          intro b hb
          have hinfix : strtrim text <:+: cstr text := strtrim_infix text
          have hmem := hinfix.subset hb
          rwa [cstr_of_nulFree hfree] at hmem
        cases remark with
        | some text =>
          have hsemicolon := mem_strtrim hlastFree (b := 59) (by simp [commentText]) (by decide)
          rw [heq] at hsemicolon
          exact absurd (hsub hfree.2.2.1 59 hsemicolon) hnoRemark
        | none =>
          refine ⟨fun hmem => ?_, rfl⟩
          have hequals := mem_strtrim hfree.2.2.1 hmem (by decide)
          rw [← heq] at hequals
          exact hnone (by simpa [commentText] using hsub hlastFree 61 hequals)
      · rintro ⟨hplain, rfl⟩
        rw [hwhole hplain]
        simp [commentText]
    rw [hread]
    cases keyRoom with
    | false => simp
    | true => cases valueRoom <;> simp [Line.sets, Line.Plain, hvalue]

end Lines

section Files
variable {room : Nat → Bool} {line : Line} {ending file rest : Bytes} {bound k : Nat}

theorem iniReadLines_step (hending : LineEnd ending) (hline : FormatLine line)
    (hget : fgets iniMaxLineLen file = some (line.text ++ ending, rest)) (calls : List (Bytes × Bytes)) :
    iniReadLines room (bound + 1) k file = some (line.sets.toList ++ calls, 0) ↔
      (line.Plain ∧ room (2 * k) = true ∧ room (2 * k + 1) = true) ∧
        iniReadLines room bound (k + 1) rest = some (calls, 0) := by
  have hok := @iniReadLine_ok (room (2 * k)) (room (2 * k + 1)) line ending hending hline
  rw [← iniReadLine_iff hending hline, iniReadLines, hget]
  rcases hread : iniReadLine (room (2 * k)) (room (2 * k + 1)) (line.text ++ ending ++ [nul]) with
    ⟨ret, call⟩
  rw [hread] at hok
  simp only [hread]
  by_cases hret : ret = 0
  · subst hret
    obtain ⟨hcall, hsets⟩ := hok rfl
    obtain ⟨call, rfl⟩ := Option.isSome_iff_exists.mp hcall
    obtain ⟨set, hset⟩ := Option.isSome_iff_exists.mp hsets
    simp only [hset, ne_eq, not_true_eq_false, if_false, Option.map_eq_some_iff, Prod.exists,
      Option.toList_some, List.singleton_append, Prod.mk.injEq, List.cons.injEq, Option.some.injEq,
      true_and]
    constructor
    · rintro ⟨calls', ret, hrest, ⟨rfl, rfl⟩, rfl⟩
      exact ⟨rfl, hrest⟩
    · rintro ⟨rfl, hrest⟩
      exact ⟨calls, 0, hrest, ⟨rfl, rfl⟩, rfl⟩
  · simp [hret]

theorem filterMap_sets_cons (line : Line) (lines : List Line) :
    (line :: lines).filterMap Line.sets = line.sets.toList ++ lines.filterMap Line.sets := by
  cases hsets : line.sets <;> simp [hsets]

/-- The lines from a position on are plain key lines, and there is memory for them. -/
def PlainFrom (room : Nat → Bool) (k : Nat) (lines : List Line) : Prop :=
  ∀ i line, lines[i]? = some line →
    line.Plain ∧ room (2 * (k + i)) = true ∧ room (2 * (k + i) + 1) = true

theorem plainFrom_cons {lines : List Line} : PlainFrom room k (line :: lines) ↔
    (line.Plain ∧ room (2 * k) = true ∧ room (2 * k + 1) = true) ∧ PlainFrom room (k + 1) lines := by
  have hindex (i : Nat) : k + 1 + i = k + (i + 1) := by omega
  constructor
  · intro h
    exact ⟨h 0 line rfl, fun i next hi => by rw [hindex]; exact h (i + 1) next hi⟩
  · rintro ⟨hline, hlines⟩ (_ | i) next hi
    · obtain rfl : line = next := by simpa using hi
      exact hline
    · have := hlines i next hi
      rwa [hindex] at this

theorem iniReadLines_iff {lines : List Line} {last : Option Line}
    (hlines : ∀ line ∈ lines ++ last.toList, FormatLine line)
    (hlast : ∀ line ∈ last, line.text ≠ []) (hbound : (fileOf lines last).length < bound) :
    iniReadLines room bound k (fileOf lines last) =
        some ((lines ++ last.toList).filterMap Line.sets, 0) ↔
      PlainFrom room k (lines ++ last.toList) := by
  induction lines generalizing bound k with
  | nil =>
    obtain ⟨bound, rfl⟩ := Nat.exists_eq_succ_of_ne_zero (Nat.ne_zero_of_lt hbound)
    cases last with
    | none => simp [fileOf, iniReadLines, fgets, PlainFrom]
    | some line =>
      have hline := hlines line (by simp)
      have hne := hlast line rfl
      obtain ⟨bound, rfl⟩ : ∃ n, bound = n + 1 := by
        have hpos := List.length_pos_iff.mpr hne
        have hlength : (fileOf [] (some line)).length = line.text.length := by simp [fileOf]
        exact Nat.exists_eq_succ_of_ne_zero (by omega)
      have hget : fgets iniMaxLineLen (fileOf [] (some line)) = some (line.text ++ [], []) := by
        rw [List.append_nil]
        exact fgets_last hline.oneLine (Nat.le_of_lt hline.short) hne
      have hstep := @iniReadLines_step room line [] _ [] (bound + 1) k (.inl rfl) hline hget []
      have hend : iniReadLines room (bound + 1) (k + 1) [] = some ([], 0) := rfl
      have hnone : PlainFrom room (k + 1) [] := fun i line hi => by simp at hi
      rw [List.nil_append, Option.toList_some, filterMap_sets_cons, List.filterMap_nil, hstep,
        plainFrom_cons, and_iff_left hend, and_iff_left hnone]
  | cons line lines ih =>
    rw [List.cons_append, List.forall_mem_cons] at hlines
    obtain ⟨bound, rfl⟩ := Nat.exists_eq_succ_of_ne_zero (Nat.ne_zero_of_lt hbound)
    have hshape : fileOf (line :: lines) last = line.text ++ lf :: fileOf lines last := by
      simp [fileOf]
    have hget : fgets iniMaxLineLen (fileOf (line :: lines) last) =
        some (line.text ++ [lf], fileOf lines last) := by
      rw [hshape]
      exact fgets_line hlines.1.oneLine hlines.1.short _
    have hlength : (fileOf lines last).length < bound := by
      rw [hshape, List.length_append, List.length_cons] at hbound
      omega
    rw [List.cons_append, filterMap_sets_cons, iniReadLines_step (.inr rfl) hlines.1 hget,
      ih hlines.2 hlength, plainFrom_cons]

end Files

/-- A configuration file is accepted as its format says exactly if every line is a
plain key line. -/
theorem ini_accepts_iff (room : Nat → Bool) (lines : List Line) (last : Option Line)
    (hlines : ∀ line ∈ lines ++ last.toList, FormatLine line)
    (hlast : ∀ line ∈ last, line.text ≠ []) :
    Accepted room lines last ↔ PlainFrom room 0 (lines ++ last.toList) :=
  iniReadLines_iff hlines hlast (Nat.lt_succ_self _)

def portLine : Line := .entry (ascii "port ") (ascii " 3001") none

theorem portLine_format : FormatLine portLine :=
  ⟨⟨⟨112, by decide, by decide⟩, by decide, by decide, by decide, by decide⟩, by decide, by decide,
    by decide⟩

def mailLine : Line := .entry (ascii "mail_path") (ascii "./mail dir ") none

def logsLine : Line := .entry (ascii "logs_path ") (ascii "./logs") none

/-- Three keys, the last on a line without an end. -/
theorem ini_accepts_iff_settings :
    Accepted (fun _ => true) [portLine, mailLine] (some logsLine) ∧
      iniReadFileToDict (fun _ => true)
          (ascii "port = 3001\nmail_path=./mail dir \nlogs_path =./logs") =
        some ([(ascii "port", ascii "3001"), (ascii "mail_path", ascii "./mail dir"),
          (ascii "logs_path", ascii "./logs")], 0) := by
  refine ⟨(ini_accepts_iff (fun _ => true) [portLine, mailLine] (some logsLine) ?_ ?_).mpr ?_,
    by decide +kernel⟩
  · have hmail : FormatLine mailLine :=
      ⟨⟨⟨109, by decide, by decide⟩, by decide, by decide, by decide, by decide⟩, by decide,
        by decide, by decide⟩
    have hlogs : FormatLine logsLine :=
      ⟨⟨⟨108, by decide, by decide⟩, by decide, by decide, by decide, by decide⟩, by decide,
        by decide, by decide⟩
    intro line hmem
    simp only [Option.toList_some, List.cons_append, List.nil_append, List.mem_cons,
      List.not_mem_nil, or_false] at hmem
    rcases hmem with rfl | rfl | rfl
    · exact portLine_format
    · exact hmail
    · exact hlogs
  · intro line hmem
    obtain rfl := Option.mem_some_iff.mp hmem
    decide
  · exact plainFrom_cons.mpr ⟨⟨⟨by decide, rfl⟩, rfl, rfl⟩,
      plainFrom_cons.mpr ⟨⟨⟨by decide, rfl⟩, rfl, rfl⟩,
        plainFrom_cons.mpr ⟨⟨⟨by decide, rfl⟩, rfl, rfl⟩, fun i line hi => by simp at hi⟩⟩⟩

/-- The file is refused for a comment in front of its key. -/
theorem refuses_comments :
    (∀ line ∈ [Line.comment (ascii " server"), portLine], FormatLine line) ∧
    iniReadFileToDict (fun _ => true) (ascii "; server\nport = 3001\n") = some ([], -1) ∧
    ¬Accepted (fun _ => true) [.comment (ascii " server"), portLine] none := by
  have hread : iniReadFileToDict (fun _ => true) (ascii "; server\nport = 3001\n") = some ([], -1) := by
    decide
  refine ⟨?_, hread, fun haccepted => ?_⟩
  · exact List.forall_mem_cons.mpr
      ⟨⟨trivial, by decide, by decide, by decide⟩, by simpa using portLine_format⟩
  · have hfile : fileOf [.comment (ascii " server"), portLine] none =
        ascii "; server\nport = 3001\n" := by decide
    rw [Accepted, hfile, hread] at haccepted
    simp at haccepted

end SmtpMta.Common.Ini
