import SmtpMta.Client.Recipients
import Mathlib.Data.Nat.Find

/-! The two loops of the parser that stop at a mark: the header scan, which looks
for a blank line only, and the loop over the hosts, which looks at a slot before
it looks at the index. -/
namespace SmtpMta.Client.HeaderScan
open Library.CString Library.Stdio MailFile MailParser MailBody Recipients

/-- A line that ends the header, and one that does not. -/
def Blank (lines : Slots) (sn : Nat) : Prop :=
  ∃ line, (lines sn).read = some line ∧ isBlank line = true

def Unblank (lines : Slots) (sn : Nat) : Prop :=
  ∃ line, (lines sn).read = some line ∧ isBlank line = false

/-- The scan looks at `mail_file_text[sn]`. It stores each line that is not blank
in `to_raws[sn - 1]` before it looks at the next one. -/
inductive Scans (lines : Slots) : Nat → Prop where
  | start : Scans lines 1
  | next {sn : Nat} (before : Scans lines sn) (goes : Unblank lines sn) : Scans lines (sn + 1)

def Found (s : MailParser.Surroundings) (isHomeMode : Int) (hosts : Slots) (i : Nat) : Prop :=
  ∃ host addr port, (hosts i).read = some host ∧
    getAddressFromReciever (s.lookup i) host isHomeMode = some (some addr, port)

inductive Tests (s : MailParser.Surroundings) (isHomeMode : Int) (hosts : Slots) : Nat → Prop where
  | start : Tests s isHomeMode hosts 0
  | next {i : Nat} (before : Tests s isHomeMode hosts i) (below : i < maxToCount)
    (found : Found s isHomeMode hosts i) : Tests s isHomeMode hosts (i + 1)

theorem scans_iff {lines : Slots} {sn : Nat} :
    Scans lines sn ↔ 1 ≤ sn ∧ ∀ i, 1 ≤ i → i < sn → Unblank lines i := by
  constructor
  · intro h
    induction h with
    | start => exact ⟨le_rfl, fun i hle hlt => absurd hlt (by omega)⟩
    | @next sn before goes ih =>
      refine ⟨by omega, fun i hle hlt => ?_⟩
      rcases Nat.lt_succ_iff_lt_or_eq.mp hlt with hlt | rfl
      · exact ih.2 i hle hlt
      · exact goes
  · rintro ⟨hpos, hbefore⟩
    induction sn, hpos using Nat.le_induction with
    | base => exact .start
    | succ sn hpos ih =>
      exact .next (ih fun i hle hlt => hbefore i hle (by omega)) (hbefore sn hpos (by omega))

theorem tests_iff {s : MailParser.Surroundings} {isHomeMode : Int} {hosts : Slots} {i : Nat} :
    Tests s isHomeMode hosts i ↔ i ≤ maxToCount ∧ ∀ j < i, Found s isHomeMode hosts j := by
  constructor
  · intro h
    induction h with
    | start => exact ⟨Nat.zero_le _, fun j hj => absurd hj (by omega)⟩
    | @next i before below found ih =>
      refine ⟨below, fun j hj => ?_⟩
      rcases Nat.lt_succ_iff_lt_or_eq.mp hj with hlt | rfl
      · exact ih.2 j hlt
      · exact found
  · rintro ⟨hle, hbefore⟩
    induction i with
    | zero => exact .start
    | succ i ih =>
      exact .next (ih (by omega) fun j hj => hbefore j (by omega)) hle (hbefore i (by omega))

theorem unblank_of_not_blank {lines : Slots} {sn : Nat} {text : Bytes}
    (hstored : lines sn = .stored text) (h : ¬Blank lines sn) : Unblank lines sn := by
  refine ⟨text, by rw [hstored]; rfl, ?_⟩
  by_contra hblank
  exact h ⟨text, by rw [hstored]; rfl, by simpa using hblank⟩

theorem Blank.not_unblank {lines : Slots} {sn : Nat} (h : Blank lines sn) : ¬Unblank lines sn := by
  rintro ⟨line, hread, hgoes⟩
  obtain ⟨line', hread', hblank⟩ := h
  obtain rfl := Option.some.inj (hread.symm.trans hread')
  simp [hgoes] at hblank

theorem Blank.scans_le {lines : Slots} {b sn : Nat} (h : Blank lines b) (hpos : 1 ≤ b)
    (hscans : Scans lines sn) : sn ≤ b := by
  by_contra hlt
  exact h.not_unblank ((scans_iff.mp hscans).2 b hpos (by omega))

theorem scanHeader_blank {lines toRaws : Slots} {bound sn m : Nat}
    (hpos : 1 ≤ sn) (hbefore : ∀ k < m, Unblank lines (sn + k)) (hblank : Blank lines (sn + m))
    (hbound : m < bound) (hroom : sn + m ≤ maxToCount + 1) :
    ∃ toRaws', scanHeader lines bound sn toRaws = some (sn + m - 1, toRaws') := by
  induction m generalizing bound sn toRaws with
  | zero =>
    obtain ⟨bound, rfl⟩ := Nat.exists_eq_succ_of_ne_zero (Nat.ne_zero_of_lt hbound)
    obtain ⟨line, hread, hline⟩ := hblank
    rw [Nat.add_zero] at hread
    exact ⟨toRaws, by simp [scanHeader, hread, hline]⟩
  | succ m ih =>
    obtain ⟨bound, rfl⟩ := Nat.exists_eq_succ_of_ne_zero (Nat.ne_zero_of_lt hbound)
    obtain ⟨line, hread, hline⟩ := hbefore 0 (by omega)
    rw [Nat.add_zero] at hread
    have hnext (k : Nat) : sn + 1 + k = sn + (k + 1) := by omega
    have hnot : ¬maxToCount ≤ sn - 1 := by omega
    obtain ⟨toRaws', hrest⟩ := @ih (Function.update toRaws (sn - 1) (lines sn)) bound (sn + 1)
      (by omega) (fun k hk => by rw [hnext]; exact hbefore (k + 1) (by omega)) (by rw [hnext]; exact hblank)
      (by omega) (by omega)
    rw [hnext] at hrest
    exact ⟨toRaws', by simp [scanHeader, hread, hline, hnot, hrest]⟩

/-- The scan keeps to the lines of the file and to the slots of its array, and a
file without a blank line, or with too many lines before it, is refused. -/
structure HeaderInBounds (s : MailParser.Surroundings) (lines : Slots) (strNum : Nat)
    (isHomeMode : Int) : Prop where
  ends : ∃ toCount toRaws, scanHeader lines (maxToCount + 1) 1 (memsetSlots maxToCount s.toRaws) =
    some (toCount, toRaws)
  reads : ∀ sn, Scans lines sn → sn < strNum
  writes : ∀ sn, Scans lines sn → Unblank lines sn → sn - 1 < maxToCount
  rejects : (∀ sn, 1 ≤ sn → sn < strNum → Unblank lines sn) ∨
      (∀ sn, 1 ≤ sn → sn ≤ maxToCount + 1 → sn < strNum ∧ Unblank lines sn) →
    ∃ freed, parseMail s lines strNum isHomeMode = some (none, freed)

def HostsInBounds (s : MailParser.Surroundings) (isHomeMode : Int) (hosts : Slots) : Prop :=
  ∀ i, Tests s isHomeMode hosts i → i < maxToCount

/-- A blank line comes in the file, after no more recipients than there are slots. -/
def BlankInTime (lines : Slots) (strNum : Nat) : Prop :=
  ∃ sn, 1 ≤ sn ∧ sn < strNum ∧ sn ≤ maxToCount + 1 ∧ Blank lines sn

theorem headerInBounds_iff {s : MailParser.Surroundings} {lines : Slots} {strNum : Nat}
    {isHomeMode : Int} (hlines : 3 ≤ strNum)
    (hstored : ∀ i < strNum, ∃ text, lines i = .stored text) :
    HeaderInBounds s lines strNum isHomeMode ↔ BlankInTime lines strNum := by
  constructor
  · intro h
    by_contra hlate
    have hunblank (sn : Nat) (hpos : 1 ≤ sn) (hlt : sn < strNum) (hle : sn ≤ maxToCount + 1) :
        Unblank lines sn := by
      obtain ⟨text, htext⟩ := hstored sn hlt
      exact unblank_of_not_blank htext fun hblank => hlate ⟨sn, hpos, hlt, hle, hblank⟩
    -- the scan runs past the file, or past its array
    rcases Nat.lt_or_ge (maxToCount + 1) strNum with hlong | hshort
    · have hscans : Scans lines (maxToCount + 1) :=
        scans_iff.mpr ⟨by omega, fun i hle hlt => hunblank i hle (by omega) (by omega)⟩
      have := h.writes _ hscans (hunblank _ (by omega) hlong le_rfl)
      omega
    · have hscans : Scans lines strNum :=
        scans_iff.mpr ⟨by omega, fun i hle hlt => hunblank i hle hlt (by omega)⟩
      exact absurd (h.reads _ hscans) (lt_irrefl _)
  · classical
    intro htime
    obtain ⟨hpos, hlt, hle, hblank⟩ := Nat.find_spec htime
    have hfirst (i : Nat) (hi : 1 ≤ i) (hbefore : i < Nat.find htime) : Unblank lines i := by
      obtain ⟨text, htext⟩ := hstored i (by omega)
      exact unblank_of_not_blank htext
        fun hblank' => Nat.find_min htime hbefore ⟨hi, by omega, by omega, hblank'⟩
    constructor
    case ends =>
      have hsum : 1 + (Nat.find htime - 1) = Nat.find htime := by omega
      obtain ⟨toRaws, hscan⟩ := @scanHeader_blank lines (memsetSlots maxToCount s.toRaws)
        (maxToCount + 1) 1 (Nat.find htime - 1) le_rfl (fun k hk => hfirst _ (by omega) (by omega))
        (hsum.symm ▸ hblank) (by omega) (by omega)
      exact ⟨_, toRaws, hscan⟩
    case reads =>
      intro sn hscans
      have := hblank.scans_le hpos hscans
      omega
    case writes =>
      intro sn hscans hgoes
      have hbefore := hblank.scans_le hpos hscans
      have hstart := (scans_iff.mp hscans).1
      have hne : sn ≠ Nat.find htime := by
        rintro rfl
        exact hblank.not_unblank hgoes
      omega
    case rejects =>
      rintro (hnone | hmany)
      · exact absurd (hnone _ hpos hlt) hblank.not_unblank
      · exact absurd (hmany _ hpos hle).2 hblank.not_unblank

theorem hostsInBounds_iff {s : MailParser.Surroundings} {isHomeMode : Int} {hosts : Slots} :
    HostsInBounds s isHomeMode hosts ↔ ∃ i < maxToCount, ¬Found s isHomeMode hosts i := by
  constructor
  · intro h
    by_contra hall
    push Not at hall
    exact absurd (h maxToCount (tests_iff.mpr ⟨le_rfl, hall⟩)) (lt_irrefl _)
  · rintro ⟨i, hi, hnot⟩ j hj
    obtain ⟨hle, hfound⟩ := tests_iff.mp hj
    by_contra hlt
    exact hnot (hfound i (by omega))

/-- The header scan stays in bounds exactly on the files with a blank line in
time, and the loop over the hosts exactly where one slot of the array does not
hold a host whose address is found. -/
theorem parser_bounds_iff (s : MailParser.Surroundings) (lines : Slots) (strNum : Nat)
    (isHomeMode : Int) (hosts : Slots) (hlines : 3 ≤ strNum)
    (hstored : ∀ i < strNum, ∃ text, lines i = .stored text) :
    (HeaderInBounds s lines strNum isHomeMode ↔ BlankInTime lines strNum) ∧
      (HostsInBounds s isHomeMode hosts ↔ ∃ i < maxToCount, ¬Found s isHomeMode hosts i) :=
  ⟨headerInBounds_iff hlines hstored, hostsInBounds_iff⟩

theorem readFile_of_decide {s : MailFile.Surroundings} {file : Bytes} {P : Slots × Nat → Prop}
    [∀ read, Decidable (P read)]
    (h : (readFile s (some file)).map (Option.map fun read => decide (P read)) =
      some (some true)) :
    ∃ lines strNum, readFile s (some file) = some (some (lines, strNum)) ∧ P (lines, strNum) := by
  obtain ⟨found, hfound, hread⟩ := Option.map_eq_some_iff.mp h
  obtain ⟨⟨lines, strNum⟩, rfl, hholds⟩ := Option.map_eq_some_iff.mp hread
  exact ⟨lines, strNum, hfound, of_decide_eq_true hholds⟩

def shortLines : Slots := fun i =>
  (([ascii "From: <a@b.com>\n", ascii "To: <c@d.com>\n", ascii "\n", ascii "text\n"] : List Bytes)[i]?).elim
    .null .stored

/-- A sender, two recipients, a blank line and a text. -/
def pairLines : Slots := fun i =>
  (([ascii "From: <a@b.com>\n", ascii "To: <c@d.com>\n", ascii "To: <e@f.org>\n", ascii "\n",
    ascii "text\n"] : List Bytes)[i]?).elim .null .stored

theorem parser_bounds_iff_short :
    HeaderInBounds roomyParser shortLines 4 1 ∧ HostsInBounds roomyParser 1 shortLines := by
  have hstored : ∀ i < 4, ∃ text, shortLines i = .stored text
    | 0, _ | 1, _ | 2, _ | 3, _ => ⟨_, rfl⟩
  obtain ⟨hheader, hhosts⟩ := parser_bounds_iff roomyParser shortLines 4 1 shortLines (by decide) hstored
  refine ⟨hheader.mpr ⟨2, by decide, by decide, by decide, _, rfl, by decide⟩,
    hhosts.mpr ⟨4, by decide, ?_⟩⟩
  rintro ⟨host, addr, port, hread, -⟩
  simp [shortLines, Slot.read] at hread

/-- A file whose header does not end. -/
def endlessFile : Bytes := ascii "From: <a@b.com>\nTo: <c@d.com>\nText\n"

/-- A file with as many recipients as there are slots. -/
def fullFile : Bytes :=
  mailFile (ascii "From: <a@b.com>") (List.replicate maxToCount (ascii "To: <c@d.com>")) [] (ascii "Text\n")

/-- What the loop over the recipient lines makes of a file, with empty arrays. -/
def keptOf (file : Bytes) : Option (Kept ⊕ List Freed) := do
  let (lines, _) ← (← readFile roomyFile (some file))
  let (_, toRaws) ← scanHeader lines (maxToCount + 1) 1 fun _ => .null
  keepRecievers roomyParser 1 toRaws maxToCount 0 ⟨fun _ => .null, fun _ => .null, 0, []⟩

theorem scans_past_the_file :
    (∃ lines strNum, readFile roomyFile (some endlessFile) = some (some (lines, strNum)) ∧ 3 ≤ strNum ∧
      ¬HeaderInBounds roomyParser lines strNum 1) ∧
      ∃ kept, keptOf fullFile = some (.inl kept) ∧ kept.rhc = maxToCount ∧
        ¬HostsInBounds roomyParser 1 kept.hosts := by
  constructor
  · have hread : (readFile roomyFile (some endlessFile)).map (Option.map fun read =>
        decide (read.2 = 3 ∧ (read.1 1).read.map isBlank = some false ∧
          (read.1 2).read.map isBlank = some false)) = some (some true) := by decide +kernel
    obtain ⟨lines, strNum, hfound, hlines, hfirst, hsecond⟩ := readFile_of_decide hread
    obtain rfl : strNum = 3 := hlines
    refine ⟨lines, 3, hfound, le_rfl, fun h => ?_⟩
    have hscans : Scans lines 3 := .next (.next .start (Option.map_eq_some_iff.mp hfirst))
      (Option.map_eq_some_iff.mp hsecond)
    exact absurd (h.reads 3 hscans) (lt_irrefl _)
  · have hkept : (keptOf fullFile).map (fun result => match result with
        | .inl kept => decide (kept.rhc = maxToCount ∧ ∀ i < maxToCount, ∃ host ∈ (kept.hosts i).read,
            ((getAddressFromReciever (roomyParser.lookup i) host 1).bind Prod.fst).isSome)
        | .inr _ => false) = some true := by decide +kernel
    obtain ⟨result, hresult, hkept⟩ := Option.map_eq_some_iff.mp hkept
    cases result with
    | inr freed => simp at hkept
    | inl kept =>
      obtain ⟨hrhc, hfound⟩ := of_decide_eq_true hkept
      refine ⟨kept, hresult, hrhc, fun h => ?_⟩
      obtain ⟨i, hi, hnot⟩ := hostsInBounds_iff.mp h
      obtain ⟨host, hread, haddr⟩ := hfound i hi
      obtain ⟨addr, haddr⟩ := Option.isSome_iff_exists.mp haddr
      obtain ⟨⟨_, port⟩, hget, rfl⟩ := Option.bind_eq_some_iff.mp haddr
      exact hnot ⟨host, addr, port, hread, hget⟩

end SmtpMta.Client.HeaderScan
