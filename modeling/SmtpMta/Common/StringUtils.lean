import SmtpMta.Library.CrlfScan

/-! The string functions of `string_utils.c`. A `char *` is the block it points
into; a result inside the same string is an offset or the text from there. -/
namespace SmtpMta.Common.StringUtils
open Library.CString Library.Crlf

/-- `isspace` in the C locale. -/
def isspace (c : Byte) : Bool := c = 32 ∨ (9 ≤ c ∧ c ≤ 13)

/-- `tolower` in the C locale. -/
def tolower (c : Byte) : Byte := if 65 ≤ c ∧ c ≤ 90 then c + 32 else c

/-- The trimmed text: `start` and `fin` are the two offsets that the loop moves
while `c` walks over the string. -/
def strtrim (str : Bytes) : Bytes :=
  let ends := go (cstr str) 0 0 0
  ((cstr str).take ends.2).drop ends.1
where
  go : Bytes → Nat → Nat → Nat → Nat × Nat
    | [], _, start, fin => (start, fin)
    | b :: rest, c, start, fin =>
      if isspace b then go rest (c + 1) start fin
      else go rest (c + 1) (if start = fin then c else start) (c + 1)

def strstartswith (str pre : Bytes) (ignoreCase : Bool) : Bool :=
  go (cstr str) (cstr pre)
where
  go : Bytes → Bytes → Bool
    | _, [] => true
    | [], _ :: _ => false
    | b :: str, p :: pre =>
      if ignoreCase then if tolower b = tolower p then go str pre else false
      else if b = p then go str pre else false

/-- The offset of the first pair the scan finds. After a mismatch the pattern
starts over with the next byte, not with the one that did not match. -/
def strcrlf (str : Bytes) : Option Nat :=
  go (cstr str) crlf 0
where
  go : Bytes → Bytes → Nat → Option Nat
    | _, [], sp => some (sp - 2)
    | [], _ :: _, _ => none
    | b :: str, p :: pp, sp => if b = p then go str pp (sp + 1) else go str crlf (sp + 1)

theorem strtrim_infix (str : Bytes) : strtrim str <:+: cstr str := by
  unfold strtrim
  exact (List.drop_suffix _ _).isInfix.trans (List.take_prefix _ _).isInfix

private theorem strtrim_go_of_started {text : Bytes} {c start fin : Nat} (hlt : start < fin)
    (hfin : fin ≤ c) : (strtrim.go text c start fin).1 = start := by
  induction text generalizing c fin with
  | nil => rfl
  | cons b text ih =>
    rw [strtrim.go]
    split
    · exact ih hlt (by omega)
    · rw [if_neg (by omega)]
      exact ih (by omega) (by omega)

private theorem strtrim_go_last (text : Bytes) {b : Byte} (hb : isspace b = false)
    (c start fin : Nat) : (strtrim.go (text ++ [b]) c start fin).2 = c + text.length + 1 := by
  induction text generalizing c start fin with
  | nil => simp [strtrim.go, hb]
  | cons a text ih =>
    rw [List.cons_append, strtrim.go]
    split
    · rw [ih, List.length_cons]
      omega
    · rw [ih, List.length_cons]
      omega

private theorem strtrim_go_append (left right : Bytes) (c start fin : Nat) :
    strtrim.go (left ++ right) c start fin = strtrim.go right (c + left.length)
      (strtrim.go left c start fin).1 (strtrim.go left c start fin).2 := by
  induction left generalizing c start fin with
  | nil => rfl
  | cons b left ih =>
    have hindex : c + (b :: left).length = c + 1 + left.length := by
      rw [List.length_cons]
      omega
    rw [List.cons_append, strtrim.go, strtrim.go, hindex]
    split <;> rw [ih]

private theorem strtrim_go_spaces {text : Bytes} (h : ∀ b ∈ text, isspace b = true)
    (c start fin : Nat) : strtrim.go text c start fin = (start, fin) := by
  induction text generalizing c with
  | nil => rfl
  | cons b text ih =>
    rw [List.forall_mem_cons] at h
    rw [strtrim.go, if_pos h.1, ih h.2]

structure Trimmed (text : Bytes) : Prop where
  head : ∀ b, text.head? = some b → isspace b = false
  last : ∀ b, text.getLast? = some b → isspace b = false

theorem strtrim_of_split {left core right : Bytes} (hfree : NulFree (left ++ (core ++ right)))
    (hleft : ∀ b ∈ left, isspace b = true) (hcore : Trimmed core)
    (hright : ∀ b ∈ right, isspace b = true) : strtrim (left ++ (core ++ right)) = core := by
  rw [strtrim, cstr_of_nulFree hfree, strtrim_go_append, strtrim_go_append, strtrim_go_spaces hleft,
    strtrim_go_spaces hright]
  rcases core.eq_nil_or_concat with rfl | ⟨init, last, hconcat⟩
  · rfl
  · rw [List.concat_eq_append] at hconcat
    have hfin : (strtrim.go core (0 + left.length) 0 0).2 = left.length + core.length := by
      rw [hconcat, strtrim_go_last init (hcore.last last (by simp [hconcat])), List.length_append]
      simp only [List.length_singleton]
      omega
    have hstart : (strtrim.go core (0 + left.length) 0 0).1 = left.length := by
      cases hcons : core with
      | nil => simp [hconcat] at hcons
      | cons b rest =>
        rw [strtrim.go, hcore.head b (by rw [hcons]; rfl), Nat.zero_add]
        exact strtrim_go_of_started (Nat.lt_succ_self _) le_rfl
    rw [hfin, hstart, ← List.append_assoc, ← List.length_append, List.take_left, List.drop_left]

theorem strtrim_cstr {block text : Bytes} (h : cstr block = cstr text) : strtrim block = strtrim text := by
  rw [strtrim, strtrim, h]

theorem strtrim_eq_self {text : Bytes} (h : NulFree text) (htrimmed : Trimmed text) :
    strtrim text = text := by
  have hsplit := @strtrim_of_split [] text [] (by simpa using h) (by simp) htrimmed (by simp)
  simpa using hsplit

private theorem exists_spaces (text : Bytes) : ∃ left rest, text = left ++ rest ∧
    (∀ b ∈ left, isspace b = true) ∧ ∀ b, rest.head? = some b → isspace b = false := by
  induction text with
  | nil => exact ⟨[], [], rfl, by simp, by simp⟩
  | cons b text ih =>
    cases hb : isspace b with
    | true =>
      obtain ⟨left, rest, rfl, hleft, hrest⟩ := ih
      exact ⟨b :: left, rest, rfl, List.forall_mem_cons.mpr ⟨hb, hleft⟩, hrest⟩
    | false => exact ⟨[], b :: text, rfl, by simp, by simp [hb]⟩

theorem strtrim_spec {text : Bytes} (h : NulFree text) : ∃ left right,
    text = left ++ (strtrim text ++ right) ∧ (∀ b ∈ left, isspace b = true) ∧
      (∀ b ∈ right, isspace b = true) ∧ Trimmed (strtrim text) := by
  obtain ⟨left, rest, rfl, hleft, hhead⟩ := exists_spaces text
  obtain ⟨right, core, hrest, hright, hlast⟩ := exists_spaces rest.reverse
  obtain rfl : rest = core.reverse ++ right.reverse := by
    rw [← List.reverse_append, ← hrest, List.reverse_reverse]
  have hcore : Trimmed core.reverse := by
    refine ⟨fun b hb => hhead b ?_, fun b hb => hlast b ?_⟩
    · rw [List.head?_append, hb]
      rfl
    · rwa [List.getLast?_reverse] at hb
  have hright' : ∀ b ∈ right.reverse, isspace b = true :=
    fun b hb => hright b (List.mem_reverse.mp hb)
  have htrim := strtrim_of_split h hleft hcore hright'
  exact ⟨left, right.reverse, by rw [htrim], hleft, hright', by rwa [htrim]⟩

/-- The string between two ends of white space is found, whatever lies inside
it, and there is only one. -/
theorem strtrim_unique (str : Bytes) :
    (∃ left right, cstr str = left ++ (strtrim str ++ right) ∧
      (∀ b ∈ left, isspace b = true) ∧ (∀ b ∈ right, isspace b = true) ∧ Trimmed (strtrim str)) ∧
    (∀ left core right, cstr str = left ++ (core ++ right) → (∀ b ∈ left, isspace b = true) →
      (∀ b ∈ right, isspace b = true) → Trimmed core → core = strtrim str) ∧
    strtrim (strtrim str) = strtrim str := by
  have hfree : NulFree (cstr str) := cstr_nulFree str
  have hcstr : strtrim (cstr str) = strtrim str := strtrim_cstr (cstr_cstr str)
  obtain ⟨left, right, hsplit, hleft, hright, htrimmed⟩ := strtrim_spec hfree
  rw [hcstr] at hsplit htrimmed
  refine ⟨⟨left, right, hsplit, hleft, hright, htrimmed⟩, ?_, ?_⟩
  · intro left core right hsplit hleft hright hcore
    rw [← hcstr, hsplit, strtrim_of_split (hsplit ▸ hfree) hleft hcore hright]
  · have hinner : NulFree (strtrim str) := by
      rw [hsplit, nulFree_append, nulFree_append] at hfree
      exact hfree.2.1
    exact strtrim_eq_self hinner htrimmed

theorem strtrim_append_spaces {text spaces : Bytes} (h : NulFree (text ++ spaces))
    (hspaces : ∀ b ∈ spaces, isspace b = true) : strtrim (text ++ spaces) = strtrim text := by
  obtain ⟨left, right, htext, hleft, hright, htrimmed⟩ := strtrim_spec (nulFree_append.mp h).1
  have hsplit : text ++ spaces = left ++ (strtrim text ++ (right ++ spaces)) := by
    rw [← List.append_assoc (strtrim text), ← List.append_assoc left, ← htext]
  rw [hsplit] at h ⊢
  exact strtrim_of_split h hleft htrimmed fun b hb => (List.mem_append.mp hb).elim (hright b) (hspaces b)

theorem mem_strtrim {text : Bytes} (h : NulFree text) {b : Byte} (hb : b ∈ text)
    (hspace : isspace b = false) : b ∈ strtrim text := by
  obtain ⟨left, right, htext, hleft, hright, -⟩ := strtrim_spec h
  rw [htext, List.mem_append, List.mem_append] at hb
  rcases hb with hb | hb | hb
  · simp [hleft b hb] at hspace
  · exact hb
  · simp [hright b hb] at hspace

/-- The bytes of the pattern already matched. -/
private def matched (seen : Bool) : Bytes := if seen then [cr] else []

private theorem strcrlf_go (seen : Bool) (text : Bytes) (sp : Nat) (hsp : (matched seen).length ≤ sp) :
    match strcrlf.go text (if seen then [lf] else crlf) sp with
    | none => scanCrlf seen text = ([], matched seen ++ text)
    | some found => ∃ k, found + (matched seen).length = sp + k ∧
        k + 2 ≤ (matched seen ++ text).length ∧
        scanCrlf seen text = ((matched seen ++ text).take k ::
          (scanCrlf false ((matched seen ++ text).drop (k + 2))).1,
          (scanCrlf false ((matched seen ++ text).drop (k + 2))).2) := by
  induction text generalizing seen sp with
  | nil => cases seen <;> simp [strcrlf.go, crlf, scanCrlf, matched]
  | cons b rest ih =>
    have hnext := ih false (sp + 1) (Nat.zero_le _)
    cases seen with
    | false =>
      by_cases hcr : b = cr
      · have hseen := ih true (sp + 1) (Nat.succ_le_succ (Nat.zero_le sp))
        simpa [strcrlf.go, crlf, scanCrlf, matched, hcr, Nat.add_right_comm sp 1] using hseen
      · simp only [strcrlf.go, crlf, scanCrlf, matched, hcr, Bool.false_eq_true, if_false,
          List.nil_append] at hnext ⊢
        split
        · rename_i hgo
          simp only [hgo] at hnext
          simp [hnext, prepend]
        · rename_i found hgo
          simp only [hgo] at hnext
          obtain ⟨k, hk, hlen, hscan⟩ := hnext
          refine ⟨k + 1, ?_, ?_, by simp [hscan, prepend]⟩
          · simpa [Nat.add_assoc, Nat.add_comm 1] using hk
          · simpa using hlen
    | true =>
      have hpos : 1 ≤ sp := hsp
      by_cases hlf : b = lf
      · simp only [strcrlf.go, scanCrlf, matched, hlf, if_true]
        exact ⟨0, by simp; omega, by simp, by simp⟩
      · simp only [strcrlf.go, crlf, scanCrlf, matched, hlf, Bool.false_eq_true, if_false, if_true,
          List.nil_append] at hnext ⊢
        split
        · rename_i hgo
          simp only [hgo] at hnext
          simp [hnext, prepend]
        · rename_i found hgo
          simp only [hgo] at hnext
          obtain ⟨k, hk, hlen, hscan⟩ := hnext
          refine ⟨k + 2, ?_, ?_, by simp [hscan, prepend]⟩
          · simp only [List.length_nil, List.length_singleton] at hk ⊢
            omega
          · simpa using hlen

theorem strcrlf_eq_none {str : Bytes} (h : strcrlf str = none) :
    scanCrlf false (cstr str) = ([], cstr str) := by
  have hgo := strcrlf_go false (cstr str) 0 (Nat.zero_le _)
  rw [strcrlf] at h
  simpa [h, matched] using hgo

theorem strcrlf_eq_some {str : Bytes} {found : Nat} (h : strcrlf str = some found) :
    found + 2 ≤ strlen str ∧ scanCrlf false (cstr str) =
      ((cstr str).take found :: (scanCrlf false ((cstr str).drop (found + 2))).1,
        (scanCrlf false ((cstr str).drop (found + 2))).2) := by
  have hgo := strcrlf_go false (cstr str) 0 (Nat.zero_le _)
  rw [strcrlf] at h
  simp only [Bool.false_eq_true, if_false, h] at hgo
  obtain ⟨k, hk, hlen, hscan⟩ := hgo
  obtain rfl : found = k := by simpa [matched] using hk
  exact ⟨by simpa [matched, strlen] using hlen, by simpa [matched] using hscan⟩

/-- What the scan looks for after a text without a pair: a CR that the text ends
with counts only where the run of CRs it belongs to is odd. -/
private theorem strcrlf_go_line {line : Bytes} (h : NoCrlf line) (rest : Bytes) (sp : Nat) :
    strcrlf.go (line ++ rest) crlf sp =
      strcrlf.go rest (if crRun line % 2 = 1 then [lf] else crlf) (sp + line.length) := by
  induction line using List.reverseRecOn generalizing rest with
  | nil => simp [crRun]
  | append_singleton line b ih =>
    obtain ⟨hline, -, hcut⟩ := noCrlf_append.mp h
    rw [List.append_assoc, ih hline, List.singleton_append, crRun_append_singleton,
      List.length_append, List.length_singleton, ← Nat.add_assoc]
    have hlf : lf ≠ cr := by decide
    rcases Nat.mod_two_eq_zero_or_one (crRun line) with hrun | hrun
    · by_cases hb : b = cr
      · have hrun' : (crRun line + 1) % 2 = 1 := by omega
        simp [strcrlf.go, crlf, hrun, hrun', hb]
      · simp [strcrlf.go, crlf, hrun, hb]
    · -- the text ends with a CR, so that no LF follows it
      have hb : b ≠ lf := by
        intro hb
        refine hcut ⟨?_, by simp [hb]⟩
        have hne : crRun line ≠ 0 := by omega
        exact getLast?_of_crRun_ne_zero hne
      by_cases hcr : b = cr
      · have hrun' : (crRun line + 1) % 2 = 0 := by omega
        simp [strcrlf.go, hrun, hrun', hcr, hlf.symm]
      · simp [strcrlf.go, hrun, hcr, hb]

private theorem le_strcrlf_go {text : Bytes} {sp found : Nat}
    (h : strcrlf.go text crlf sp = some found) : sp ≤ found := by
  have hgo := strcrlf_go false text sp (Nat.zero_le _)
  simp only [Bool.false_eq_true, if_false, h] at hgo
  obtain ⟨k, hk, -⟩ := hgo
  have hfound : found = sp + k := by simpa [matched] using hk
  omega

/-- The first pair is found exactly where an odd number of CRs stands before its
LF, and no other is taken for it where there is none. -/
theorem strcrlf_firstPair_iff (str : Bytes) :
    FirstPair (cstr str) (strcrlf str) ↔
      ∀ i, FirstPair (cstr str) (some i) → crRun ((cstr str).take (i + 1)) % 2 = 1 := by
  have hstr : strcrlf str = strcrlf.go (cstr str) crlf 0 := rfl
  rw [hstr]
  rcases exists_first_line (cstr str) with hnone | ⟨line, rest, htext, hline⟩
  · have hgo := strcrlf_go_line hnone [] 0
    have hend (pattern : Bytes) (h : pattern ≠ []) (sp : Nat) : strcrlf.go [] pattern sp = none := by
      cases pattern with
      | nil => exact absurd rfl h
      | cons p pattern => rfl
    rw [List.append_nil, hend _ (by split <;> simp [crlf])] at hgo
    rw [hgo, ← noCrlf_iff_pairAt]
    exact ⟨fun _ i hi => absurd hi.1 ((noCrlf_iff_pairAt _).mp hnone i), fun _ => hnone⟩
  · have htake : (line ++ crlf ++ rest).take (line.length + 1) = line ++ [cr] := by
      rw [List.append_assoc, List.take_length_add_append]
      rfl
    have hgo : strcrlf.go (line ++ crlf ++ rest) crlf 0 = strcrlf.go (crlf ++ rest)
        (if crRun line % 2 = 1 then [lf] else crlf) (0 + line.length) := by
      rw [List.append_assoc, strcrlf_go_line hline]
    have hrun : crRun (line ++ [cr]) = crRun line + 1 := by simp [crRun_append_singleton]
    have hlf : lf ≠ cr := by decide
    rw [htext, hgo]
    simp only [firstPair_line hline]
    constructor
    · intro hfound i hi
      obtain rfl : i = line.length := Option.some.inj hi
      rw [htake, hrun]
      by_contra hodd
      have hseen : crRun line % 2 = 1 := by omega
      -- the CR of the pair is used up by the mismatch
      have hnext : strcrlf.go (crlf ++ rest) [lf] (0 + line.length) =
          strcrlf.go rest crlf (0 + line.length + 2) := by
        simp [strcrlf.go, crlf, hlf, hlf.symm]
      rw [if_pos hseen, hnext] at hfound
      have hle := le_strcrlf_go hfound
      omega
    · intro h
      have hodd := h line.length rfl
      rw [htake, hrun] at hodd
      have hseen : crRun line % 2 ≠ 1 := by omega
      rw [if_neg hseen]
      simp [strcrlf.go, crlf]

/-- Of two CRs before an LF the second is passed over. -/
theorem strcrlf_cr_pair : ¬FirstPair (cstr [cr, cr, lf]) (strcrlf [cr, cr, lf]) := by
  intro h
  have hnone : strcrlf [cr, cr, lf] = none := by decide
  rw [hnone] at h
  exact h 1 ⟨by decide, by decide⟩

end SmtpMta.Common.StringUtils
