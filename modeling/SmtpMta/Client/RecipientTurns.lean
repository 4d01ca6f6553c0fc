import SmtpMta.Client.HeaderScan

/-! The turns of the loop over the recipient lines: what `parse_mail` has kept
when it looks at a slot of its array, and what becomes of the call from there. -/
namespace SmtpMta.Client.RecipientTurns
open Library.CString MailFile MailParser HeaderScan

variable {s : MailParser.Surroundings} {isHomeMode : Int} {lines toRaws : Slots}
  {strNum toCount : Nat}

/-- The slots that `memset` clears, given that the array has `MAX_TO_COUNT` of them. -/
def Cleared (j : Nat) : Prop := pointerSize * (j + 1) ≤ maxToCount

instance (j : Nat) : Decidable (Cleared j) :=
  inferInstanceAs (Decidable (_ ≤ _))

theorem cleared_iff {j : Nat} : Cleared j ↔ j < 2 := by
  unfold Cleared pointerSize maxToCount
  omega

theorem memsetSlots_cleared (arr : Slots) {j : Nat} (h : Cleared j) :
    memsetSlots maxToCount arr j = .null :=
  if_pos h

/-- Before the first recipient nothing is kept. -/
def nothingKept (s : MailParser.Surroundings) : Kept :=
  ⟨memsetSlots maxToCount s.tos, memsetSlots maxToCount s.hosts, 0, []⟩

/-- A recipient whose address and host were cut is kept, or skipped as local. -/
def keepOne (kept : Kept) (isHomeMode : Int) (mailTo host : Bytes) : Kept :=
  if strcmp host homeHost = 0 ∧ isHomeMode = 0 then
    { kept with freed := kept.freed ++ [.host, .mailTo] }
  else
    { kept with tos := Function.update kept.tos kept.rhc (.stored mailTo),
                hosts := Function.update kept.hosts kept.rhc (.stored host),
                rhc := kept.rhc + 1 }

/-- Both cuts of a recipient line succeed. -/
structure Cuts (s : MailParser.Surroundings) (i : Nat) (toRaw mailTo host : Bytes) : Prop where
  address : cutAddressesFromMailFormat (s.toCut i) toRaw = some (some mailTo)
  host : cutHostFromReciever (s.hostCut i) mailTo = some (some host)

/-- The loop looks at `to_raws[i]`, or has got to the end of the array, with what
is kept from the slots before. -/
inductive Keeps (s : MailParser.Surroundings) (isHomeMode : Int) (toRaws : Slots) :
    Nat → Kept → Prop where
  | start : Keeps s isHomeMode toRaws 0 (nothingKept s)
  | next {i : Nat} {kept : Kept} {toRaw mailTo host : Bytes} (before : Keeps s isHomeMode toRaws i kept)
    (below : i < maxToCount) (some : toRaws i ≠ .null) (read : (toRaws i).read = .some toRaw)
    (cuts : Cuts s i toRaw mailTo host) :
    Keeps s isHomeMode toRaws (i + 1) (keepOne kept isHomeMode mailTo host)

theorem keepRecievers_next {bound i : Nat} {kept : Kept} {toRaw mailTo host : Bytes}
    (hsome : toRaws i ≠ .null) (hread : (toRaws i).read = some toRaw)
    (hcuts : Cuts s i toRaw mailTo host) :
    keepRecievers s isHomeMode toRaws (bound + 1) i kept =
      keepRecievers s isHomeMode toRaws bound (i + 1) (keepOne kept isHomeMode mailTo host) := by
  simp only [keepRecievers, hsome, hread, hcuts.address, hcuts.host, Option.bind_eq_bind,
    Option.bind_some, if_false, keepOne]
  split <;> rfl

theorem Keeps.keepRecievers {i : Nat} {kept : Kept} (h : Keeps s isHomeMode toRaws i kept) :
    keepRecievers s isHomeMode toRaws maxToCount 0 (nothingKept s) =
      MailParser.keepRecievers s isHomeMode toRaws (maxToCount - i) i kept := by
  induction h with
  | start => rfl
  | @next i kept toRaw mailTo host before below hsome hread hcuts ih =>
    have hleft : maxToCount - i = maxToCount - (i + 1) + 1 := by omega
    rw [ih, hleft, keepRecievers_next hsome hread hcuts]

structure Scanned (s : MailParser.Surroundings) (lines : Slots) (strNum toCount : Nat)
    (toRaws : Slots) :
    Prop where
  enough : 3 ≤ strNum
  scan : scanHeader lines (maxToCount + 1) 1 (memsetSlots maxToCount s.toRaws) = some (toCount, toRaws)
  mailRoom : s.mailRoom = true
  tosRoom : s.tosRoom = true

structure Started (s : MailParser.Surroundings) (lines : Slots) (strNum toCount : Nat)
    (toRaws : Slots) (mailFrom : Bytes) : Prop extends Scanned s lines strNum toCount toRaws where
  sender : ∃ fromRaw, (lines 0).read = some fromRaw ∧
    cutAddressesFromMailFormat s.fromCut fromRaw = some (some mailFrom)

theorem parseMail_of_no_room (henough : 3 ≤ strNum)
    (hscan : scanHeader lines (maxToCount + 1) 1 (memsetSlots maxToCount s.toRaws) =
      some (toCount, toRaws)) (hroom : ¬(s.mailRoom = true ∧ s.tosRoom = true)) :
    parseMail s lines strNum isHomeMode = some (none, if s.mailRoom then [.mail] else []) := by
  have hnot : ¬strNum < 3 := Nat.not_lt.mpr henough
  rw [MailParser.parseMail, if_neg hnot, hscan]
  cases hmail : s.mailRoom with
  | false => rfl
  | true =>
    have htos : s.tosRoom = false := by simpa [hmail] using hroom
    simp [htos]

/-- What the loop over the recipient lines leaves to the rest of the call. -/
def afterLoop (s : MailParser.Surroundings) (lines : Slots) (strNum : Nat) (isHomeMode : Int)
    (mailFrom : Bytes) (toCount : Nat) :
    Option (Kept ⊕ List Freed) → Option (Option Mail × List Freed)
  | none => none
  | some (.inr freed) => some (none, freed)
  | some (.inl kept) => finishMail s lines strNum isHomeMode mailFrom toCount kept

theorem Scanned.parseMail (h : Scanned s lines strNum toCount toRaws) {fromRaw : Bytes}
    (hread : (lines 0).read = some fromRaw) :
    parseMail s lines strNum isHomeMode =
      (cutAddressesFromMailFormat s.fromCut fromRaw).bind fun mailFrom =>
        mailFrom.elim (some (none, [.mail, .tos])) fun mailFrom =>
          afterLoop s lines strNum isHomeMode mailFrom toCount
            (keepRecievers s isHomeMode toRaws maxToCount 0 (nothingKept s)) := by
  have hnot : ¬strNum < 3 := Nat.not_lt.mpr h.enough
  simp only [MailParser.parseMail, hnot, h.scan, h.mailRoom, h.tosRoom, hread, Option.bind_eq_bind,
    Option.bind_some, if_false, Bool.true_eq_false]
  cases cutAddressesFromMailFormat s.fromCut fromRaw with
  | none => rfl
  | some mailFrom =>
    cases mailFrom with
    | none => rfl
    | some mailFrom =>
      simp only [Option.bind_some, Option.elim_some, nothingKept]
      cases keepRecievers s isHomeMode toRaws maxToCount 0
          ⟨memsetSlots maxToCount s.tos, memsetSlots maxToCount s.hosts, 0, []⟩ with
      | none => rfl
      | some result => cases result <;> rfl

theorem Started.parseMail {mailFrom : Bytes} (h : Started s lines strNum toCount toRaws mailFrom)
    {i : Nat} {kept : Kept} (hkeeps : Keeps s isHomeMode toRaws i kept) :
    parseMail s lines strNum isHomeMode = afterLoop s lines strNum isHomeMode mailFrom toCount
      (MailParser.keepRecievers s isHomeMode toRaws (maxToCount - i) i kept) := by
  obtain ⟨fromRaw, hread, hsender⟩ := h.sender
  rw [h.toScanned.parseMail hread, hsender, hkeeps.keepRecievers, Option.bind_some,
    Option.elim_some]

theorem Scanned.toRaws_eq (h : Scanned s lines strNum toCount toRaws) :
    toCount ≤ maxToCount ∧ ∀ j < toCount, toRaws j = lines (j + 1) := by
  obtain ⟨-, hmax, -, hrows, -⟩ := Recipients.scanHeader_rows (n := 0) h.scan (by decide)
  exact ⟨hmax, fun j hj => hrows j (Nat.zero_le j) hj⟩

def recipientAt (s : MailParser.Surroundings) (raws : Slots) (j : Nat) : Option (Bytes × Bytes) := do
  let toRaw ← (raws j).read
  let mailTo ← (cutAddressesFromMailFormat (s.toCut j) toRaw).join
  let host ← (cutHostFromReciever (s.hostCut j) mailTo).join
  some (mailTo, host)

def IsLocal (isHomeMode : Int) (recipient : Bytes × Bytes) : Prop :=
  strcmp recipient.2 homeHost = 0 ∧ isHomeMode = 0

instance (isHomeMode : Int) (recipient : Bytes × Bytes) : Decidable (IsLocal isHomeMode recipient) :=
  inferInstanceAs (Decidable (_ ∧ _))

/-- The recipients of the first slots that are not skipped. -/
def away (s : MailParser.Surroundings) (isHomeMode : Int) (raws : Slots) (i : Nat) :
    List (Bytes × Bytes) :=
  ((List.range i).filterMap (recipientAt s raws)).filter fun recipient => ¬IsLocal isHomeMode recipient

/-- An array with strings in its first slots. -/
def filled (texts : List Bytes) (arr : Slots) : Slots := fun j =>
  (texts[j]?).elim (arr j) .stored

section Arrays
variable {texts : List Bytes} {arr : Slots}

theorem filled_nil (arr : Slots) : filled [] arr = arr := by
  funext j
  simp [filled]

theorem filled_get {j : Nat} {text : Bytes} (h : texts[j]? = some text) :
    filled texts arr j = .stored text := by
  simp [filled, h]

theorem filled_beyond {j : Nat} (h : texts.length ≤ j) : filled texts arr j = arr j := by
  simp [filled, List.getElem?_eq_none h]

theorem filled_stored (arr : Slots) {j : Nat} (h : j < texts.length) :
    ∃ text, filled texts arr j = .stored text :=
  ⟨_, filled_get (List.getElem?_eq_getElem h)⟩

theorem filled_concat (texts : List Bytes) (arr : Slots) (text : Bytes) :
    Function.update (filled texts arr) texts.length (.stored text) = filled (texts ++ [text]) arr := by
  funext j
  rcases Nat.lt_trichotomy j texts.length with hlt | rfl | hgt
  · rw [Function.update_of_ne (Nat.ne_of_lt hlt)]
    simp [filled, List.getElem?_append_left hlt]
  · rw [Function.update_self]
    simp [filled]
  · have hlen : (texts ++ [text]).length ≤ j := by
      rw [List.length_append]
      exact hgt
    rw [Function.update_of_ne (Nat.ne_of_gt hgt), filled_beyond (Nat.le_of_lt hgt), filled_beyond hlen]

end Arrays

section Kept
variable {raws : Slots} {i : Nat} {kept : Kept}

theorem recipientAt_iff {toRaw mailTo host : Bytes} (hread : (raws i).read = some toRaw) :
    recipientAt s raws i = some (mailTo, host) ↔ Cuts s i toRaw mailTo host := by
  simp only [recipientAt, hread, Option.bind_eq_bind, Option.bind_some, Option.bind_eq_some_iff,
    Option.join_eq_some_iff, Option.some.injEq, Prod.mk.injEq]
  constructor
  · rintro ⟨mailTo, haddress, host, hhost, rfl, rfl⟩
    exact ⟨haddress, hhost⟩
  · intro h
    exact ⟨mailTo, h.address, host, h.host, rfl, rfl⟩

theorem away_succ {recipient : Bytes × Bytes} (h : recipientAt s raws i = some recipient) :
    away s isHomeMode raws (i + 1) = away s isHomeMode raws i ++
      if IsLocal isHomeMode recipient then [] else [recipient] := by
  by_cases hlocal : IsLocal isHomeMode recipient <;>
    simp [away, List.range_succ, List.filterMap_append, h, hlocal]

theorem length_away_le (s : MailParser.Surroundings) (isHomeMode : Int) (raws : Slots) (i : Nat) :
    (away s isHomeMode raws i).length ≤ i := by
  have hfilter := List.length_filter_le (fun recipient => decide ¬IsLocal isHomeMode recipient)
    ((List.range i).filterMap (recipientAt s raws))
  have hmap := List.length_filterMap_le (recipientAt s raws) (List.range i)
  rw [List.length_range] at hmap
  exact hfilter.trans hmap

/-- What is kept when the loop looks at a slot. -/
def keptAt (s : MailParser.Surroundings) (isHomeMode : Int) (raws : Slots) (i : Nat)
    (freed : List Freed) : Kept where
  tos := filled ((away s isHomeMode raws i).map Prod.fst) (memsetSlots maxToCount s.tos)
  hosts := filled ((away s isHomeMode raws i).map Prod.snd) (memsetSlots maxToCount s.hosts)
  rhc := (away s isHomeMode raws i).length
  freed := freed

theorem keptAt_succ {mailTo host : Bytes} (h : recipientAt s raws i = some (mailTo, host))
    (freed : List Freed) :
    ∃ freed', keepOne (keptAt s isHomeMode raws i freed) isHomeMode mailTo host =
      keptAt s isHomeMode raws (i + 1) freed' := by
  unfold keepOne keptAt
  rw [away_succ h]
  by_cases hlocal : strcmp host homeHost = 0 ∧ isHomeMode = 0
  · refine ⟨freed ++ [.host, .mailTo], ?_⟩
    have hlocal' : IsLocal isHomeMode (mailTo, host) := hlocal
    rw [if_pos hlocal, if_pos hlocal', List.append_nil]
  · refine ⟨freed, ?_⟩
    have hlocal' : ¬IsLocal isHomeMode (mailTo, host) := hlocal
    have htos := filled_concat ((away s isHomeMode raws i).map Prod.fst)
      (memsetSlots maxToCount s.tos) mailTo
    have hhosts := filled_concat ((away s isHomeMode raws i).map Prod.snd)
      (memsetSlots maxToCount s.hosts) host
    rw [List.length_map] at htos hhosts
    rw [if_neg hlocal, if_neg hlocal']
    simp [htos, hhosts]

theorem Keeps.kept_eq (h : Keeps s isHomeMode raws i kept) :
    ∃ freed, kept = keptAt s isHomeMode raws i freed := by
  induction h with
  | start => exact ⟨[], by simp [keptAt, nothingKept, away, filled_nil]⟩
  | @next i kept toRaw mailTo host before below hsome hread hcuts ih =>
    obtain ⟨freed, rfl⟩ := ih
    exact keptAt_succ ((recipientAt_iff hread).mpr hcuts) freed

theorem Keeps.cut (h : Keeps s isHomeMode raws i kept) :
    ∀ j < i, raws j ≠ .null ∧ (recipientAt s raws j).isSome := by
  induction h with
  | start => exact fun j hj => absurd hj (Nat.not_lt_zero j)
  | @next i kept toRaw mailTo host before below hsome hread hcuts ih =>
    intro j hj
    rcases Nat.lt_succ_iff_lt_or_eq.mp hj with hlt | rfl
    · exact ih j hlt
    · exact ⟨hsome, by simp [(recipientAt_iff hread).mpr hcuts]⟩

theorem exists_keeps (isHomeMode : Int) (hi : i ≤ maxToCount)
    (hcut : ∀ j < i, raws j ≠ .null ∧ (recipientAt s raws j).isSome) :
    ∃ kept, Keeps s isHomeMode raws i kept := by
  induction i with
  | zero => exact ⟨_, .start⟩
  | succ i ih =>
    obtain ⟨kept, hkeeps⟩ := ih (by omega) fun j hj => hcut j (by omega)
    obtain ⟨hsome, hat⟩ := hcut i (Nat.lt_succ_self i)
    obtain ⟨⟨mailTo, host⟩, hat⟩ := Option.isSome_iff_exists.mp hat
    obtain ⟨toRaw, hread, -⟩ := Option.bind_eq_some_iff.mp hat
    exact ⟨_, hkeeps.next hi hsome hread ((recipientAt_iff hread).mp hat)⟩

end Kept

end SmtpMta.Client.RecipientTurns
