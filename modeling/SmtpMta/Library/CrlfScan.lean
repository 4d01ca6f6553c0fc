import Mathlib.Data.List.Induction
import SmtpMta.Library.Crlf

/-! A scanner for CR LF pairs that never looks at a byte twice: after a CR, a
byte that is not LF is passed over, even where it is a CR itself. It misses a
pair where an even number of CRs stands before the LF, and no other. -/
namespace SmtpMta.Library.Crlf
open CString

/-- The lines the scanner finds and the rest. The flag says that the byte
before was taken for the first of a pair. -/
def scanCrlf : Bool → Bytes → List Bytes × Bytes
  | false, [] => ([], [])
  | true, [] => ([], [cr])
  | false, b :: rest => if b = cr then scanCrlf true rest else prepend b (scanCrlf false rest)
  | true, b :: rest =>
    if b = lf then
      let scan := scanCrlf false rest
      ([] :: scan.1, scan.2)
    else prepend cr (prepend b (scanCrlf false rest))

/-- How many CRs stand at the end. -/
def crRun (text : Bytes) : Nat :=
  (text.reverse.takeWhile (· = cr)).length

/-- Before every LF that follows a CR stands an odd number of them. -/
def PairsAligned (text : Bytes) : Prop :=
  ∀ j < text.length, text[j]? = some lf → crRun (text.take j) ≠ 0 → crRun (text.take j) % 2 = 1

instance (text : Bytes) : Decidable (PairsAligned text) :=
  inferInstanceAs (Decidable (∀ j < text.length, _))

theorem crRun_append_singleton (text : Bytes) (b : Byte) :
    crRun (text ++ [b]) = if b = cr then crRun text + 1 else 0 := by
  unfold crRun
  rw [List.reverse_append, List.reverse_singleton, List.singleton_append, List.takeWhile_cons]
  by_cases hb : b = cr <;> simp [hb]

theorem getLast?_of_crRun_ne_zero {text : Bytes} (h : crRun text ≠ 0) : text.getLast? = some cr := by
  induction text using List.reverseRecOn with
  | nil => simp [crRun] at h
  | append_singleton text b _ =>
    rw [crRun_append_singleton] at h
    have hb : b = cr := by
      by_contra hb
      simp [hb] at h
    simp [hb]

/-- A pair stands at the offset. -/
def PairAt (text : Bytes) (i : Nat) : Prop :=
  text[i]? = some cr ∧ text[i + 1]? = some lf

/-- The offset is that of the first pair; there is none where no offset is given. -/
def FirstPair (text : Bytes) : Option Nat → Prop
  | none => ∀ i, ¬PairAt text i
  | some i => PairAt text i ∧ ∀ j < i, ¬PairAt text j

theorem noCrlf_iff_pairAt (text : Bytes) : NoCrlf text ↔ FirstPair text none := by
  induction text with
  | nil => simp [FirstPair, PairAt]
  | cons b text ih =>
    rw [noCrlf_cons, ih]
    constructor
    · rintro ⟨hhead, htext⟩ i hpair
      cases i with
      | zero => exact hhead (by simpa [PairAt, List.head?_eq_getElem?] using hpair)
      | succ i => exact htext i (by simpa [PairAt] using hpair)
    · intro h
      refine ⟨fun hpair => h 0 ?_, fun i hpair => h (i + 1) (by simpa [PairAt] using hpair)⟩
      simpa [PairAt, List.head?_eq_getElem?] using hpair

theorem firstPair_line {line : Bytes} (h : NoCrlf line) (rest : Bytes) {found : Option Nat} :
    FirstPair (line ++ crlf ++ rest) found ↔ found = some line.length := by
  have hpair : PairAt (line ++ crlf ++ rest) line.length := by simp [PairAt, crlf]
  have hbefore (j : Nat) (hj : j < line.length) : ¬PairAt (line ++ crlf ++ rest) j := by
    rintro ⟨hcr, hlf⟩
    rw [List.append_assoc, List.getElem?_append_left hj] at hcr
    rw [List.append_assoc] at hlf
    by_cases hnext : j + 1 < line.length
    · rw [List.getElem?_append_left hnext] at hlf
      exact (noCrlf_iff_pairAt line).mp h j ⟨hcr, hlf⟩
    · have hend : j + 1 - line.length = 0 := by omega
      rw [List.getElem?_append_right (by omega), hend] at hlf
      simp [crlf, cr, lf] at hlf
  cases found with
  | none => exact ⟨fun hnone => absurd hpair (hnone _), fun hfound => by simp at hfound⟩
  | some i =>
    constructor
    · rintro ⟨hi, hfirst⟩
      rcases Nat.lt_trichotomy i line.length with hlt | heq | hgt
      · exact absurd hi (hbefore i hlt)
      · rw [heq]
      · exact absurd hpair (hfirst _ hgt)
    · intro hi
      obtain rfl : i = line.length := Option.some.inj hi
      exact ⟨hpair, hbefore⟩

/-- The condition on the rest of a text, after a run of CRs. -/
def alignedFrom : Nat → Bytes → Prop
  | _, [] => True
  | run, b :: rest =>
    (b = lf → run ≠ 0 → run % 2 = 1) ∧ alignedFrom (if b = cr then run + 1 else 0) rest

theorem alignedFrom_iff (seen rest : Bytes) :
    alignedFrom (crRun seen) rest ↔ ∀ j < rest.length, rest[j]? = some lf →
      crRun (seen ++ rest.take j) ≠ 0 → crRun (seen ++ rest.take j) % 2 = 1 := by
  induction rest generalizing seen with
  | nil => simp [alignedFrom]
  | cons b rest ih =>
    rw [alignedFrom, ← crRun_append_singleton, ih, List.length_cons]
    constructor
    · rintro ⟨hhead, hrest⟩ j hj
      cases j with
      | zero => simpa using hhead
      | succ j => simpa using hrest j (by omega)
    · intro h
      exact ⟨by simpa using h 0 (by omega), fun j hj => by simpa using h (j + 1) (by omega)⟩

theorem pairsAligned_iff (text : Bytes) : PairsAligned text ↔ alignedFrom 0 text :=
  (alignedFrom_iff [] text).symm

/-- The number of pairs that the rest of a text completes. -/
def pairsFrom : Bool → Bytes → Nat
  | _, [] => 0
  | afterCr, b :: rest => (if afterCr ∧ b = lf then 1 else 0) + pairsFrom (b = cr) rest

theorem pairsFrom_true (text : Bytes) :
    pairsFrom true text = pairsFrom false text + if text.head? = some lf then 1 else 0 := by
  cases text with
  | nil => rfl
  | cons b rest => simp [pairsFrom, Nat.add_comm]

theorem length_prepend (b : Byte) (split : List Bytes × Bytes) :
    (prepend b split).1.length = split.1.length := by
  obtain ⟨lines, tail⟩ := split
  cases lines <;> rfl

theorem splitCrlf_cons_of_ne {b : Byte} (hb : b ≠ cr) (rest : Bytes) :
    splitCrlf (b :: rest) = prepend b (splitCrlf rest) := by
  cases rest with
  | nil => rfl
  | cons c rest => rw [splitCrlf, if_neg fun h => hb h.1]

theorem splitCrlf_cr {rest : Bytes} (hrest : rest.head? ≠ some lf) :
    splitCrlf (cr :: rest) = prepend cr (splitCrlf rest) := by
  cases rest with
  | nil => rfl
  | cons c rest => rw [splitCrlf, if_neg fun h => hrest (by simp [h.2])]

theorem length_splitCrlf (text : Bytes) : (splitCrlf text).1.length = pairsFrom false text := by
  induction text using splitCrlf.induct with
  | case1 => rfl
  | case2 b => simp [splitCrlf, pairsFrom]
  | case3 b c rest hpair ih =>
    obtain ⟨rfl, rfl⟩ := hpair
    simp [splitCrlf, pairsFrom, ih, cr, lf, Nat.add_comm]
  | case4 b c rest hpair ih =>
    rw [splitCrlf, if_neg hpair, length_prepend, ih]
    by_cases hb : b = cr
    · have hc : c ≠ lf := fun hc => hpair ⟨hb, hc⟩
      simp [hb, pairsFrom.eq_2 false, pairsFrom_true, hc]
    · simp [hb, pairsFrom.eq_2 false b]

theorem pairsFrom_append (afterCr : Bool) (left right : Bytes) (hleft : left ≠ []) :
    pairsFrom afterCr (left ++ right) =
      pairsFrom afterCr left + pairsFrom (left.getLast? = some cr) right := by
  induction left generalizing afterCr with
  | nil => exact absurd rfl hleft
  | cons b left ih =>
    rw [List.cons_append, pairsFrom, pairsFrom]
    cases left with
    | nil => simp [pairsFrom]
    | cons c left =>
      rw [ih _ (by simp), List.getLast?_cons_cons]
      omega

/-- The pairs of two pieces, and the one that the cut may fall into. -/
theorem length_splitCrlf_append (left right : Bytes) :
    (splitCrlf (left ++ right)).1.length = (splitCrlf left).1.length +
      (splitCrlf right).1.length + if Straddles left right then 1 else 0 := by
  simp only [length_splitCrlf]
  by_cases hleft : left = []
  · simp [hleft, pairsFrom, Straddles]
  · rw [pairsFrom_append false left right hleft]
    by_cases hcr : left.getLast? = some cr
    · simp [hcr, pairsFrom_true, Straddles, Nat.add_assoc]
    · simp [hcr, Straddles]

/-- The scanner finds at most the pairs there are, and all of them if they are aligned. -/
theorem length_scanCrlf (run : Nat) (text : Bytes) :
    (scanCrlf (run % 2 = 1) text).1.length ≤ pairsFrom (run ≠ 0) text ∧
      ((scanCrlf (run % 2 = 1) text).1.length = pairsFrom (run ≠ 0) text ↔
        alignedFrom run text) := by
  induction text generalizing run with
  | nil => cases hrun : decide (run % 2 = 1) <;> simp [scanCrlf, pairsFrom, alignedFrom]
  | cons b rest ih =>
    have hcl : lf ≠ cr := by decide
    rw [pairsFrom, alignedFrom]
    by_cases hcr : b = cr
    · -- a CR changes the parity of the run
      have hlf : b ≠ lf := fun h => hcl (h.symm.trans hcr)
      have hnext := ih (run + 1)
      rcases Nat.mod_two_eq_zero_or_one run with hrun | hrun
      · have hrun' : (run + 1) % 2 = 1 := by omega
        simpa [scanCrlf, hrun, hrun', hcr, hcl.symm] using hnext
      · have hrun' : (run + 1) % 2 = 0 := by omega
        simpa [scanCrlf, hrun, hrun', hcr, hcl.symm, length_prepend] using hnext
    · have hnext := ih 0
      by_cases hlf : b = lf
      · rcases Nat.mod_two_eq_zero_or_one run with hrun | hrun
        · by_cases hzero : run = 0
          · simpa [scanCrlf, hzero, hlf, hcl, length_prepend] using hnext
          · -- the pair is missed
            have hscan : (scanCrlf (run % 2 = 1) (b :: rest)).1.length =
                (scanCrlf false rest).1.length := by
              simp [scanCrlf, hrun, hlf, hcl, length_prepend]
            have hle : (scanCrlf false rest).1.length ≤ pairsFrom false rest := by
              simpa using hnext.1
            have hmiss : ¬(b = lf → run ≠ 0 → run % 2 = 1) := by simp [hlf, hzero, hrun]
            have hpairs : (if decide (run ≠ 0) = true ∧ b = lf then 1 else 0) = 1 := by
              simp [hlf, hzero]
            have hcr' : decide (b = cr) = false := by simpa using hcr
            rw [hscan, hpairs, hcr']
            exact ⟨by omega, fun h => by omega, fun h => absurd h.1 hmiss⟩
        · have hzero : run ≠ 0 := by omega
          simpa [scanCrlf, hrun, hzero, hlf, hcl, Nat.add_comm] using hnext
      · rcases Nat.mod_two_eq_zero_or_one run with hrun | hrun
        · simpa [scanCrlf, hrun, hcr, hlf, length_prepend] using hnext
        · simpa [scanCrlf, hrun, hcr, hlf, length_prepend] using hnext

theorem scanCrlf_of_alignedFrom (run : Nat) {text : Bytes} (h : alignedFrom run text) :
    scanCrlf (run % 2 = 1) text = splitCrlf ((if run % 2 = 1 then [cr] else []) ++ text) := by
  have hcl : lf ≠ cr := by decide
  induction text generalizing run with
  | nil =>
    rcases Nat.mod_two_eq_zero_or_one run with hrun | hrun <;> simp [hrun, scanCrlf, splitCrlf]
  | cons b rest ih =>
    obtain ⟨hhead, hrest⟩ := h
    have hnext := ih _ hrest
    rcases Nat.mod_two_eq_zero_or_one run with hrun | hrun
    · by_cases hcr : b = cr
      · have hrun' : (run + 1) % 2 = 1 := by omega
        simpa [scanCrlf, hrun, hrun', hcr] using hnext
      · simpa [scanCrlf, hrun, hcr, splitCrlf_cons_of_ne hcr] using congrArg (prepend b) hnext
    · by_cases hlf : b = lf
      · have hscan : scanCrlf false rest = splitCrlf rest := by simpa [hlf, hcl] using hnext
        simp [scanCrlf, hrun, hlf, splitCrlf, hscan]
      · have hsplit : splitCrlf (cr :: b :: rest) = prepend cr (splitCrlf (b :: rest)) :=
          splitCrlf_cr (by simpa using hlf)
        by_cases hcr : b = cr
        · have hrun' : (run + 1) % 2 = 0 := by omega
          have hscan : scanCrlf false rest = splitCrlf rest := by simpa [hcr, hrun'] using hnext
          -- the run is even now, so that no LF may follow
          have hno : rest.head? ≠ some lf := by
            cases rest with
            | nil => simp
            | cons c rest =>
              intro hc
              rw [if_pos hcr] at hrest
              have := hrest.1 (by simpa using hc) (by omega)
              omega
          have hsplit' : splitCrlf (b :: rest) = prepend cr (splitCrlf rest) := by
            rw [hcr]
            exact splitCrlf_cr hno
          have hgoal : scanCrlf true (b :: rest) = splitCrlf (cr :: b :: rest) := by
            rw [hsplit, hsplit', scanCrlf, if_neg hlf, hscan, hcr]
          simpa [hrun] using hgoal
        · have hscan : scanCrlf false rest = splitCrlf rest := by simpa [hcr] using hnext
          simp [scanCrlf, hrun, hlf, hsplit, splitCrlf_cons_of_ne hcr, hscan]

theorem scanCrlf_eq_splitCrlf_iff (text : Bytes) :
    scanCrlf false text = splitCrlf text ↔ PairsAligned text := by
  rw [pairsAligned_iff]
  obtain ⟨-, hlength⟩ := length_scanCrlf 0 text
  refine ⟨fun h => hlength.mp ?_, fun h => by simpa using scanCrlf_of_alignedFrom 0 h⟩
  simp [h, length_splitCrlf]

theorem length_scanCrlf_le (text : Bytes) :
    (scanCrlf false text).1.length ≤ (splitCrlf text).1.length := by
  simpa [length_splitCrlf] using (length_scanCrlf 0 text).1

theorem length_scanCrlf_eq_iff (text : Bytes) :
    (scanCrlf false text).1.length = (splitCrlf text).1.length ↔ PairsAligned text := by
  rw [pairsAligned_iff]
  simpa [length_splitCrlf] using (length_scanCrlf 0 text).2

theorem joinCrlf_prepend (b : Byte) (split : List Bytes × Bytes) :
    joinCrlf (prepend b split).1 (prepend b split).2 = b :: joinCrlf split.1 split.2 := by
  obtain ⟨lines, tail⟩ := split
  cases lines <;> simp [prepend]

/-- No byte is lost or added. -/
theorem joinCrlf_scanCrlf (seen : Bool) (text : Bytes) :
    joinCrlf (scanCrlf seen text).1 (scanCrlf seen text).2 = (if seen then [cr] else []) ++ text := by
  induction text generalizing seen with
  | nil => cases seen <;> rfl
  | cons b rest ih =>
    cases seen with
    | false =>
      by_cases hcr : b = cr
      · simp [scanCrlf, hcr, ih]
      · simp [scanCrlf, hcr, joinCrlf_prepend, ih]
    | true =>
      by_cases hlf : b = lf
      · simp [scanCrlf, hlf, ih, crlf]
      · simp [scanCrlf, hlf, joinCrlf_prepend, ih]

section Pairs

theorem attach_prepend (held : Bytes) (b : Byte) (split : List Bytes × Bytes) :
    attach held (prepend b split) = attach (held ++ [b]) split := by
  obtain ⟨lines, tail⟩ := split
  cases lines <;> simp [attach, prepend]

/-- How a scan goes on behind what it has read. -/
theorem scanCrlf_append (seen : Bytes) : ∃ lines held, ∀ rest, scanCrlf false (seen ++ rest) =
    (lines ++ (attach held (scanCrlf (crRun seen % 2 = 1) rest)).1,
      (attach held (scanCrlf (crRun seen % 2 = 1) rest)).2) := by
  induction seen using List.reverseRecOn with
  | nil => exact ⟨[], [], fun rest => by simp [crRun]⟩
  | append_singleton seen b ih =>
    obtain ⟨lines, held, hscan⟩ := ih
    have hcl : lf ≠ cr := by decide
    have hline (split : List Bytes × Bytes) :
        attach held ([] :: split.1, split.2) = (held :: split.1, split.2) := by simp [attach]
    simp only [List.append_assoc, List.singleton_append, hscan, crRun_append_singleton]
    rcases Nat.mod_two_eq_zero_or_one (crRun seen) with hrun | hrun
    · by_cases hcr : b = cr
      · have hnext : (crRun seen + 1) % 2 = 1 := by omega
        exact ⟨lines, held, fun rest => by simp [hrun, hcr, hnext, scanCrlf]⟩
      · exact ⟨lines, held ++ [b], fun rest => by simp [hrun, hcr, scanCrlf, attach_prepend]⟩
    · by_cases hlf : b = lf
      · refine ⟨lines ++ [held], [], fun rest => ?_⟩
        simp [hrun, hlf, hcl, scanCrlf, hline]
      · have hnext : ¬(if b = cr then crRun seen + 1 else 0) % 2 = 1 := by split <;> omega
        refine ⟨lines, held ++ [cr, b], fun rest => ?_⟩
        simp [hrun, hlf, hnext, scanCrlf, attach_prepend]

/-- The read passes over the pair before `fin`: the cut falls inside it, or it stands
behind an odd number of CRs. -/
def PairMissed (input rest fin : Bytes) : Prop :=
  rest = lf :: fin ∨ ∃ line more, input = line ++ crlf ++ more ∧ more ++ rest = fin ∧
    crRun line % 2 = 1

/-- What a read does with the pair before `fin`. -/
inductive PairRead (input rest fin : Bytes) : Prop where
  | later : crlf ++ fin <:+ rest → PairRead input rest fin
  | cut : rest = lf :: fin → cr ∈ (scanCrlf false input).2 → PairRead input rest fin
  | missed {lines : List Bytes} {held more : Bytes} : more ++ rest = fin → cr ∈ held →
      scanCrlf false input = (lines ++ (attach held (scanCrlf false more)).1,
        (attach held (scanCrlf false more)).2) →
      PairMissed input rest fin → PairRead input rest fin
  | found {lines : List Bytes} {line more : Bytes} : more ++ rest = fin →
      scanCrlf false input = (lines ++ line :: (scanCrlf false more).1, (scanCrlf false more).2) →
      ¬PairMissed input rest fin → PairRead input rest fin

theorem PairMissed.length_le {input rest fin : Bytes} (h : PairMissed input rest fin) :
    rest.length ≤ fin.length + 1 := by
  rcases h with rfl | ⟨line, more, -, rfl, -⟩
  · exact le_rfl
  · rw [List.length_append]
    omega

theorem pairRead {input rest before fin : Bytes}
    (h : input ++ rest = before ++ (crlf ++ fin)) : PairRead input rest fin := by
  obtain ⟨lines, held, hscan⟩ := scanCrlf_append before
  rcases List.append_eq_append_iff.mp h with ⟨more, -, hrest⟩ | ⟨start, rfl, hstart⟩
  · exact .later ⟨more, hrest.symm⟩
  rcases start with _ | ⟨b, _ | ⟨c, more⟩⟩
  · exact .later ⟨[], by simpa using hstart⟩
  · -- the cut falls inside the pair
    obtain ⟨rfl, rfl⟩ : cr = b ∧ lf :: fin = rest := by simpa [crlf] using hstart
    refine .cut rfl ?_
    have hcr (split : List Bytes × Bytes) (hsplit : split.1 = []) (hmem : cr ∈ split.2) :
        cr ∈ (attach held split).2 := by
      obtain ⟨_, tail⟩ := split
      obtain rfl := hsplit
      simp only [attach]
      exact List.mem_append_right _ hmem
    rw [hscan]
    cases decide (crRun before % 2 = 1) with
    | false => exact hcr _ (by simp [scanCrlf]) (by simp [scanCrlf])
    | true => exact hcr _ (by simp [scanCrlf, cr, lf, prepend]) (by simp [scanCrlf, cr, lf, prepend])
  · obtain ⟨rfl, rfl, hmore⟩ : cr = b ∧ lf = c ∧ fin = more ++ rest := by simpa [crlf] using hstart
    have hinput : before ++ cr :: lf :: more = before ++ crlf ++ more := by simp [crlf]
    by_cases hrun : crRun before % 2 = 1
    · have hlost : scanCrlf true (cr :: lf :: more) =
          prepend cr (prepend cr (prepend lf (scanCrlf false more))) := by
        simp [scanCrlf, cr, lf]
      refine @PairRead.missed _ _ _ lines (held ++ [cr, cr, lf]) more hmore.symm (by simp) ?_
        (.inr ⟨before, more, hinput, hmore.symm, hrun⟩)
      rw [hscan, decide_eq_true hrun, hlost]
      simp [attach_prepend]
    · have hfound : scanCrlf false (cr :: lf :: more) =
          ([] :: (scanCrlf false more).1, (scanCrlf false more).2) := by
        simp [scanCrlf, cr, lf]
      refine @PairRead.found _ _ _ lines held more hmore.symm ?_ ?_
      · rw [hscan, decide_eq_false hrun, hfound]
        simp [attach]
      · rintro (rfl | ⟨line, more', hline, hmore', hodd⟩)
        · have hlength := congrArg List.length hmore
          simp at hlength
          omega
        · obtain rfl := List.append_cancel_right (hmore'.trans hmore)
          rw [hinput, List.append_assoc, List.append_assoc] at hline
          obtain rfl := List.append_cancel_right hline
          exact hrun hodd

end Pairs

section Pieces

/-- The lines of a stream that comes in pieces, each scanned on its own; what
is left of a piece is put before the next one. -/
def framePieces : Bytes → List Bytes → List Bytes × Bytes
  | held, [] => ([], held)
  | held, piece :: pieces =>
    let first := attach held (scanCrlf false piece)
    let rest := framePieces first.2 pieces
    (first.1 ++ rest.1, rest.2)

/-- No cut falls inside a pair, and in no piece is a pair missed. -/
def WellCut (pieces : List Bytes) : Prop :=
  (∀ piece ∈ pieces, PairsAligned piece) ∧ pieces.IsChain fun left right => ¬Straddles left right

theorem joinCrlf_framePieces (held : Bytes) (pieces : List Bytes) :
    joinCrlf (framePieces held pieces).1 (framePieces held pieces).2 = held ++ pieces.flatten := by
  induction pieces generalizing held with
  | nil => simp [framePieces]
  | cons piece pieces ih =>
    have hpiece : joinCrlf (scanCrlf false piece).1 (scanCrlf false piece).2 = piece :=
      joinCrlf_scanCrlf false piece
    simp only [framePieces, joinCrlf_append, ih, List.flatten_cons]
    rw [joinCrlf_tail_append, joinCrlf_attach, hpiece, List.append_assoc]

theorem straddles_append {left right rest : Bytes} (hright : right ≠ []) :
    Straddles left (right ++ rest) ↔ Straddles left right := by
  cases right with
  | nil => exact absurd rfl hright
  | cons b right => simp [Straddles]

/-- In a well cut stream the next cut does not fall inside a pair either. -/
theorem WellCut.next {piece : Bytes} {pieces : List Bytes} (hne : ∀ p ∈ pieces, p ≠ [])
    (h : WellCut (piece :: pieces)) :
    PairsAligned piece ∧ ¬Straddles piece pieces.flatten ∧ WellCut pieces := by
  obtain ⟨haligned, hchain⟩ := h
  refine ⟨haligned piece (by simp), ?_, fun p hp => haligned p (by simp [hp]), hchain.of_cons⟩
  cases pieces with
  | nil => simp [Straddles]
  | cons next pieces =>
    rw [List.flatten_cons, straddles_append (hne next (by simp))]
    exact (List.isChain_cons_cons.mp hchain).1

/-- At most the pairs of the stream are found; where all are, the stream is well cut. -/
theorem length_framePieces (held : Bytes) {pieces : List Bytes} (hne : ∀ p ∈ pieces, p ≠ []) :
    (framePieces held pieces).1.length ≤ (splitCrlf pieces.flatten).1.length ∧
      ((framePieces held pieces).1.length = (splitCrlf pieces.flatten).1.length →
        WellCut pieces) := by
  induction pieces generalizing held with
  | nil => exact ⟨Nat.zero_le _, fun _ => ⟨by simp, .nil⟩⟩
  | cons piece pieces ih =>
    obtain ⟨-, hne'⟩ := List.forall_mem_cons.mp hne
    obtain ⟨hle, heq⟩ := ih (attach held (scanCrlf false piece)).2 hne'
    have hpiece := length_scanCrlf_le piece
    simp only [framePieces, List.length_append, length_attach, List.flatten_cons,
      length_splitCrlf_append]
    refine ⟨by omega, fun h => ?_⟩
    have haligned := (length_scanCrlf_eq_iff piece).mp (by omega)
    have hcut : ¬Straddles piece pieces.flatten := by
      intro hcut
      rw [if_pos hcut] at h
      omega
    obtain ⟨hall, hchain⟩ := heq (by omega)
    refine ⟨List.forall_mem_cons.mpr ⟨haligned, hall⟩, ?_⟩
    cases pieces with
    | nil => exact .singleton piece
    | cons next pieces =>
      rw [List.flatten_cons, straddles_append (hne' next (by simp))] at hcut
      exact .cons_cons hcut hchain

theorem framePieces_of_wellCut {held : Bytes} (hheld : NoCrlf held) {pieces : List Bytes}
    (hne : ∀ p ∈ pieces, p ≠ []) (hcut : ¬Straddles held pieces.flatten) (h : WellCut pieces) :
    framePieces held pieces = splitCrlf (held ++ pieces.flatten) := by
  induction pieces generalizing held with
  | nil => simp [framePieces, splitCrlf_eq_of_noCrlf hheld]
  | cons piece pieces ih =>
    obtain ⟨hpiece, hne'⟩ := List.forall_mem_cons.mp hne
    obtain ⟨haligned, hnext, hwell⟩ := h.next hne'
    rw [List.flatten_cons, straddles_append hpiece] at hcut
    have hfirst : attach held (scanCrlf false piece) = splitCrlf (held ++ piece) := by
      rw [(scanCrlf_eq_splitCrlf_iff piece).mpr haligned, splitCrlf_append_of_noCrlf hheld hcut]
    have htail : NoCrlf (splitCrlf (held ++ piece)).2 := noCrlf_splitCrlf_tail _
    -- the carried tail ends like the piece it is the end of
    have hnext' : ¬Straddles (splitCrlf (held ++ piece)).2 pieces.flatten := by
      rintro ⟨hlast, hhead⟩
      refine hnext ⟨?_, hhead⟩
      have hjoin := joinCrlf_splitCrlf (held ++ piece)
      obtain ⟨init, hinit⟩ := List.getLast?_eq_some_iff.mp hlast
      rw [hinit, joinCrlf_tail_append] at hjoin
      have hend : (held ++ piece).getLast? = some cr := by rw [← hjoin, List.getLast?_concat]
      rwa [List.getLast?_append_of_ne_nil held hpiece] at hend
    rw [framePieces, hfirst, ih htail hne' hnext' hwell, List.flatten_cons, ← List.append_assoc,
      splitCrlf_append (held ++ piece)]

/-- Scanning the pieces gives the lines of the stream exactly where it is well cut. -/
theorem framePieces_eq_splitCrlf_iff {pieces : List Bytes} (hne : ∀ p ∈ pieces, p ≠ []) :
    framePieces [] pieces = splitCrlf pieces.flatten ↔ WellCut pieces := by
  refine ⟨fun h => (length_framePieces [] hne).2 (by rw [h]), fun h => ?_⟩
  exact framePieces_of_wellCut noCrlf_nil hne (by simp [Straddles]) h

end Pieces

end SmtpMta.Library.Crlf
