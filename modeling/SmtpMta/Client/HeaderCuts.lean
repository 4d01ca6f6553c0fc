import SmtpMta.Client.RecipientTurns

/-! What `parse_mail` cuts from a line of the header. The lengths are computed
before any delimiter is known to be there. -/
namespace SmtpMta.Client.HeaderCuts
open Library.CString MailFile MailParser MailBody Recipients HeaderScan RecipientTurns

/-- The length that goes to `malloc`, and less one to `strncpy` and the terminator,
is the distance of two delimiters that are there, in this order. -/
def LengthSound (address : Nat) (first last : Option Nat) : Prop :=
  ∃ f l, first = some f ∧ last = some l ∧ f < l ∧ pointerDiff address last first = (l - f : Nat)

def hostOf (address : Bytes) : Option Bytes :=
  (strchr address 64).map fun k => (cstr address).drop (k + 1)

/-- A line with a `<` before its last `>`, which an `int` can count the bytes of. -/
def Bracketed (line : Bytes) : Prop :=
  ∃ first last, strchr line 60 = some first ∧ strrchr line 62 = some last ∧ first < last ∧
    last - first < 2 ^ 31

/-- An address with an `@`. -/
def Sited (address : Bytes) : Prop :=
  ∃ k, strchr address 64 = some k ∧ strlen address - k < 2 ^ 31

structure SenderCut (s : MailParser.Surroundings) (lines : Slots) (strNum : Nat) (isHomeMode : Int)
    (fromRaw : Bytes) : Prop where
  length : LengthSound s.fromCut.address (strchr fromRaw 60) (strrchr fromRaw 62)
  result : (∃ mailFrom, cutAddressesFromMailFormat s.fromCut fromRaw = some (some mailFrom) ∧
      addressOf fromRaw = some mailFrom) ∨
    ∃ freed, parseMail s lines strNum isHomeMode = some (none, freed)

/-- A recipient line gives its address and its host, or the call a null pointer. -/
structure RecipientCut (s : MailParser.Surroundings) (lines : Slots) (strNum : Nat)
    (isHomeMode : Int) (i : Nat) (toRaw : Bytes) : Prop where
  length : LengthSound (s.toCut i).address (strchr toRaw 60) (strrchr toRaw 62)
  hostLength : ∀ mailTo, cutAddressesFromMailFormat (s.toCut i) toRaw = some (some mailTo) →
    LengthSound (s.hostCut i).address (strchr mailTo 64) (some (strlen mailTo))
  result : (∃ mailTo host, Cuts s i toRaw mailTo host ∧ addressOf toRaw = some mailTo ∧
      hostOf mailTo = some host) ∨
    ∃ freed, parseMail s lines strNum isHomeMode = some (none, freed)

/-- The first slots of both arrays are set, so that they can be freed. -/
structure FreesSet (kept : Kept) (tos hosts : Nat) : Prop where
  tos : ∀ j < tos, ∀ text, kept.tos j ≠ .stray text
  hosts : ∀ j < hosts, ∀ text, kept.hosts j ≠ .stray text

/-- The line and its address have their delimiters, and where there is no memory
for a copy, the slots that are then freed are set. -/
def Cuttable (s : MailParser.Surroundings) (i : Nat) (kept : Kept) (toRaw : Bytes) : Prop :=
  Bracketed toRaw ∧
    if (s.toCut i).room then (∀ address ∈ addressOf toRaw, Sited address) ∧
      ((s.hostCut i).room = false → FreesSet kept (i - 1) i)
    else FreesSet kept i (i - 1)

theorem pointerDiff_lt (address : Nat) (last first : Option Nat) :
    pointerDiff address last first < 2 ^ 31 := by
  simp only [pointerDiff]
  omega

theorem lengthSound_iff {address : Nat} {first last : Option Nat} : LengthSound address first last ↔
    ∃ f l, first = some f ∧ last = some l ∧ f < l ∧ l - f < 2 ^ 31 := by
  constructor
  · rintro ⟨f, l, rfl, rfl, hlt, hlength⟩
    have hbound := pointerDiff_lt address (some l) (some f)
    exact ⟨f, l, rfl, rfl, hlt, by omega⟩
  · rintro ⟨f, l, rfl, rfl, hlt, hnear⟩
    exact ⟨f, l, rfl, rfl, hlt, pointerDiff_eq hlt hnear⟩

theorem hostLength_iff {address : Nat} {mailTo : Bytes} :
    LengthSound address (strchr mailTo 64) (some (strlen mailTo)) ↔ Sited mailTo := by
  rw [lengthSound_iff]
  constructor
  · rintro ⟨f, l, hfirst, hlast, -, hnear⟩
    obtain rfl := Option.some.inj hlast
    exact ⟨f, hfirst, hnear⟩
  · rintro ⟨k, hfirst, hnear⟩
    exact ⟨k, _, hfirst, rfl, strchr_lt hfirst, hnear⟩

theorem cutBetween_ordered {cut : Cut} {str : Bytes} {first last : Nat} (hfree : NulFree str)
    (hlt : first < last) (hnear : last - first < 2 ^ 31) :
    cutBetween cut str (some first) (some last) =
      some (if cut.room then some ((str.drop (first + 1)).take (last - first - 1)) else none) := by
  cases hroom : cut.room with
  | false => simp [cutBetween, hroom]
  | true =>
    obtain ⟨text, htext⟩ : ∃ text, cutBetween cut str (some first) (some last) = some (some text) := by
      have hpos : ¬((last - first : Nat) : Int) < 0 := by omega
      have hne : ((last - first : Nat) : Int) ≠ 0 := by omega
      simp only [cutBetween, pointerDiff_eq hlt hnear, hpos, hroom, hne, Bool.true_eq_false,
        or_self, if_false]
      split
      · exact ⟨[], rfl⟩
      · exact ⟨_, rfl⟩
    rw [htext, cutBetween_eq hfree hlt hnear htext, if_pos rfl]

theorem Bracketed.address {line : Bytes} (h : Bracketed line) (hfree : NulFree line) :
    ∃ address, addressOf line = some address ∧ NulFree address ∧
      ∀ cut, cutAddressesFromMailFormat cut line = some (if cut.room then some address else none) := by
  obtain ⟨first, last, hfirst, hlast, hlt, hnear⟩ := h
  have haddress : addressOf line = some ((line.drop (first + 1)).take (last - first - 1)) := by
    simp [addressOf, hfirst, hlast, hlt, cstr_of_nulFree hfree]
  refine ⟨_, haddress, ?_, fun cut => ?_⟩
  · exact (cstr_nulFree line).of_sublist (addressOf_sublist haddress)
  · rw [cutAddressesFromMailFormat, hfirst, hlast, cutBetween_ordered hfree hlt hnear]

theorem Sited.host {address : Bytes} (h : Sited address) (hfree : NulFree address) :
    ∃ host, hostOf address = some host ∧
      ∀ cut, cutHostFromReciever cut address = some (if cut.room then some host else none) := by
  obtain ⟨k, hk, hnear⟩ := h
  refine ⟨(cstr address).drop (k + 1), by simp [hostOf, hk], fun cut => ?_⟩
  have hlt := strchr_lt hk
  have hwhole : (address.drop (k + 1)).take (strlen address - k - 1) = address.drop (k + 1) := by
    rw [strlen, cstr_of_nulFree hfree]
    exact List.take_of_length_le (by simp; omega)
  rw [cutHostFromReciever, hk, cutBetween_ordered hfree hlt hnear, hwhole, cstr_of_nulFree hfree]

theorem freeSlots_isSome_iff {freed : Nat → Freed} {arr : Slots} {n : Nat} :
    (∃ js, freeSlots freed arr (List.range n) = some js) ↔ ∀ j < n, ∀ text, arr j ≠ .stray text := by
  unfold freeSlots
  split
  · rename_i hany
    obtain ⟨j, hj, hstray⟩ := List.any_eq_true.mp hany
    simp only [reduceCtorEq, exists_false, false_iff]
    intro hset
    split at hstray
    · exact hset j (List.mem_range.mp hj) _ ‹_›
    · simp at hstray
  · rename_i hany
    refine ⟨fun _ j hj text htext => hany ?_, fun _ => ⟨_, rfl⟩⟩
    exact List.any_eq_true.mpr ⟨j, List.mem_range.mpr hj, by simp [htext]⟩

section Turn
variable {s : MailParser.Surroundings} {lines toRaws : Slots} {strNum toCount i : Nat}
  {isHomeMode : Int} {mailFrom toRaw mailTo : Bytes} {kept : Kept}

theorem afterLoop_frees {tos hosts : Nat} {all : List Freed → List Freed → List Freed} :
    (∃ freed, afterLoop s lines strNum isHomeMode mailFrom toCount
      ((freeSlots .tosSlot kept.tos (List.range tos)).bind fun tos =>
        (freeSlots .hostsSlot kept.hosts (List.range hosts)).bind fun hosts =>
          some (.inr (all tos hosts))) = some (none, freed)) ↔ FreesSet kept tos hosts := by
  have hset : FreesSet kept tos hosts ↔ (∃ js, freeSlots .tosSlot kept.tos (List.range tos) = some js) ∧
      ∃ js, freeSlots .hostsSlot kept.hosts (List.range hosts) = some js := by
    rw [freeSlots_isSome_iff, freeSlots_isSome_iff]
    exact ⟨fun h => ⟨h.tos, h.hosts⟩, fun h => ⟨h.1, h.2⟩⟩
  rw [hset]
  cases freeSlots .tosSlot kept.tos (List.range tos) with
  | none => simp [afterLoop]
  | some js => cases freeSlots .hostsSlot kept.hosts (List.range hosts) <;> simp [afterLoop]

theorem keepRecievers_noAddress (hi : i < maxToCount) (hread : (toRaws i).read = some toRaw)
    (hcut : cutAddressesFromMailFormat (s.toCut i) toRaw = some none) :
    keepRecievers s isHomeMode toRaws (maxToCount - i) i kept =
      (freeSlots .tosSlot kept.tos (List.range i)).bind fun tos =>
        (freeSlots .hostsSlot kept.hosts (List.range (i - 1))).bind fun hosts =>
          some (.inr (kept.freed ++ tos ++ hosts ++ [.mailFrom, .mail, .tos])) := by
  have hleft : maxToCount - i = maxToCount - i - 1 + 1 := by omega
  have hsome : toRaws i ≠ .null := by
    intro hnull
    simp [hnull, Slot.read] at hread
  rw [hleft, keepRecievers]
  simp [hsome, hread, hcut]

theorem keepRecievers_noHost (hi : i < maxToCount) (hread : (toRaws i).read = some toRaw)
    (haddress : cutAddressesFromMailFormat (s.toCut i) toRaw = some (some mailTo))
    (hcut : cutHostFromReciever (s.hostCut i) mailTo = some none) :
    keepRecievers s isHomeMode toRaws (maxToCount - i) i kept =
      (freeSlots .tosSlot kept.tos (List.range (i - 1))).bind fun tos =>
        (freeSlots .hostsSlot kept.hosts (List.range i)).bind fun hosts =>
          some (.inr (kept.freed ++ tos ++ hosts ++ [.mailTo, .mailFrom, .mail, .tos])) := by
  have hleft : maxToCount - i = maxToCount - i - 1 + 1 := by omega
  have hsome : toRaws i ≠ .null := by
    intro hnull
    simp [hnull, Slot.read] at hread
  rw [hleft, keepRecievers]
  simp [hsome, hread, haddress, hcut]

theorem Started.noAddress (h : Started s lines strNum toCount toRaws mailFrom)
    (hkeeps : Keeps s isHomeMode toRaws i kept) (hi : i < maxToCount)
    (hraw : toRaws i = .stored toRaw)
    (hcut : cutAddressesFromMailFormat (s.toCut i) toRaw = some none) :
    (∃ freed, parseMail s lines strNum isHomeMode = some (none, freed)) ↔ FreesSet kept i (i - 1) := by
  have hread : (toRaws i).read = some toRaw := by rw [hraw]; rfl
  rw [h.parseMail hkeeps, keepRecievers_noAddress hi hread hcut]
  exact afterLoop_frees

theorem Started.noHost (h : Started s lines strNum toCount toRaws mailFrom)
    (hkeeps : Keeps s isHomeMode toRaws i kept) (hi : i < maxToCount)
    (hraw : toRaws i = .stored toRaw)
    (haddress : cutAddressesFromMailFormat (s.toCut i) toRaw = some (some mailTo))
    (hcut : cutHostFromReciever (s.hostCut i) mailTo = some none) :
    (∃ freed, parseMail s lines strNum isHomeMode = some (none, freed)) ↔ FreesSet kept (i - 1) i := by
  have hread : (toRaws i).read = some toRaw := by rw [hraw]; rfl
  rw [h.parseMail hkeeps, keepRecievers_noHost hi hread haddress hcut]
  exact afterLoop_frees

theorem senderCut_iff (h : Scanned s lines strNum toCount toRaws) {fromRaw : Bytes}
    (hraw : lines 0 = .stored fromRaw) (hfree : NulFree fromRaw) :
    SenderCut s lines strNum isHomeMode fromRaw ↔ Bracketed fromRaw := by
  constructor
  · exact fun hcut => lengthSound_iff.mp hcut.length
  · intro hbracketed
    refine ⟨lengthSound_iff.mpr hbracketed, ?_⟩
    obtain ⟨address, haddress, -, hcut⟩ := hbracketed.address hfree
    have hread : (lines 0).read = some fromRaw := by rw [hraw]; rfl
    cases hroom : s.fromCut.room with
    | true => exact .inl ⟨address, by simp [hcut, hroom], haddress⟩
    | false => exact .inr ⟨_, by rw [h.parseMail hread, hcut, hroom]; rfl⟩

theorem recipientCut_of_no_room (h : Started s lines strNum toCount toRaws mailFrom)
    (hkeeps : Keeps s isHomeMode toRaws i kept) (hi : i < maxToCount)
    (hraw : toRaws i = .stored toRaw) (hfree : NulFree toRaw) (hbracketed : Bracketed toRaw)
    (hroom : (s.toCut i).room = false) :
    RecipientCut s lines strNum isHomeMode i toRaw ↔ FreesSet kept i (i - 1) := by
  obtain ⟨address, -, -, hcut⟩ := hbracketed.address hfree
  have hnone : cutAddressesFromMailFormat (s.toCut i) toRaw = some none := by simp [hcut, hroom]
  rw [← Started.noAddress h hkeeps hi hraw hnone]
  constructor
  · intro hcut'
    refine hcut'.result.resolve_left ?_
    rintro ⟨mailTo, host, hcuts, -⟩
    simp [hcuts.address] at hnone
  · intro hrefused
    refine ⟨lengthSound_iff.mpr hbracketed, fun mailTo hmailTo => ?_, .inr hrefused⟩
    simp [hmailTo] at hnone

theorem recipientCut_of_room (h : Started s lines strNum toCount toRaws mailFrom)
    (hkeeps : Keeps s isHomeMode toRaws i kept) (hi : i < maxToCount)
    (hraw : toRaws i = .stored toRaw) (hfree : NulFree toRaw) (hbracketed : Bracketed toRaw)
    (hroom : (s.toCut i).room = true) :
    RecipientCut s lines strNum isHomeMode i toRaw ↔
      (∀ address ∈ addressOf toRaw, Sited address) ∧
        ((s.hostCut i).room = false → FreesSet kept (i - 1) i) := by
  obtain ⟨address, haddress, haddress_free, hcut⟩ := hbracketed.address hfree
  have hsome : cutAddressesFromMailFormat (s.toCut i) toRaw = some (some address) := by
    simp [hcut, hroom]
  have hnoHost (hsited : Sited address) (hhostRoom : (s.hostCut i).room = false) :
      cutHostFromReciever (s.hostCut i) address = some none := by
    obtain ⟨host, -, hhost⟩ := hsited.host haddress_free
    simp [hhost, hhostRoom]
  constructor
  · rintro ⟨-, hhostLength, hresult⟩
    have hsited : Sited address := hostLength_iff.mp (hhostLength address hsome)
    refine ⟨by simpa [haddress] using hsited, fun hhostRoom => ?_⟩
    have hnone := hnoHost hsited hhostRoom
    refine (Started.noHost h hkeeps hi hraw hsome hnone).mp (hresult.resolve_left ?_)
    rintro ⟨mailTo, host, hcuts, haddress', -⟩
    obtain rfl : address = mailTo := Option.some.inj (haddress.symm.trans haddress')
    simp [hcuts.host] at hnone
  · rintro ⟨hsited, hset⟩
    have hsited : Sited address := hsited address haddress
    refine ⟨lengthSound_iff.mpr hbracketed, fun mailTo hmailTo => ?_, ?_⟩
    · obtain rfl : address = mailTo := Option.some.inj (Option.some.inj (hsome.symm.trans hmailTo))
      exact hostLength_iff.mpr hsited
    · obtain ⟨host, hhostOf, hhost⟩ := hsited.host haddress_free
      cases hhostRoom : (s.hostCut i).room with
      | true => exact .inl ⟨address, host, ⟨hsome, by simp [hhost, hhostRoom]⟩, haddress, hhostOf⟩
      | false =>
        have hnone := hnoHost hsited hhostRoom
        exact .inr ((Started.noHost h hkeeps hi hraw hsome hnone).mpr (hset hhostRoom))

theorem recipientCut_iff (h : Started s lines strNum toCount toRaws mailFrom)
    (hkeeps : Keeps s isHomeMode toRaws i kept) (hi : i < toCount)
    (hline : lines (i + 1) = .stored toRaw) (hfree : NulFree toRaw) :
    RecipientCut s lines strNum isHomeMode i toRaw ↔ Cuttable s i kept toRaw := by
  obtain ⟨hmax, hlines⟩ := h.toScanned.toRaws_eq
  have hraw : toRaws i = .stored toRaw := (hlines i hi).trans hline
  have hbelow : i < maxToCount := by omega
  unfold Cuttable
  by_cases hbracketed : Bracketed toRaw
  · rw [and_iff_right hbracketed]
    cases hroom : (s.toCut i).room with
    | true => exact recipientCut_of_room h hkeeps hbelow hraw hfree hbracketed hroom
    | false => exact recipientCut_of_no_room h hkeeps hbelow hraw hfree hbracketed hroom
  · have hno : ¬RecipientCut s lines strNum isHomeMode i toRaw :=
      fun hcut => hbracketed (lengthSound_iff.mp hcut.length)
    simp [hno, hbracketed]

end Turn

/-- A line is cut as it should be, or refused, exactly if its delimiters are there
in their order; the parser does not look. -/
theorem header_cuts_iff (s : MailParser.Surroundings) (lines : Slots) (strNum : Nat)
    (isHomeMode : Int) (toCount : Nat) (toRaws : Slots)
    (h : Scanned s lines strNum toCount toRaws) :
    (∀ fromRaw, lines 0 = .stored fromRaw → NulFree fromRaw →
      (SenderCut s lines strNum isHomeMode fromRaw ↔ Bracketed fromRaw)) ∧
    ∀ mailFrom i kept toRaw, Started s lines strNum toCount toRaws mailFrom →
      Keeps s isHomeMode toRaws i kept → i < toCount → lines (i + 1) = .stored toRaw →
      NulFree toRaw →
      (RecipientCut s lines strNum isHomeMode i toRaw ↔ Cuttable s i kept toRaw) :=
  ⟨fun _ hraw hfree => senderCut_iff h hraw hfree,
    fun _ _ _ _ hstarted hkeeps hi hline hfree => recipientCut_iff hstarted hkeeps hi hline hfree⟩

theorem header_cuts_iff_short :
    SenderCut roomyParser shortLines 4 1 (ascii "From: <a@b.com>\n") ∧
      RecipientCut roomyParser shortLines 4 1 0 (ascii "To: <c@d.com>\n") := by
  obtain ⟨toRaws, hscan⟩ := @scanHeader_blank shortLines (memsetSlots maxToCount roomyParser.toRaws)
    (maxToCount + 1) 1 1 le_rfl (fun
      | 0, _ => ⟨_, rfl, by decide⟩) ⟨_, rfl, by decide⟩ (by decide) (by decide)
  have hscanned : Scanned roomyParser shortLines 4 1 toRaws := ⟨by decide, hscan, rfl, rfl⟩
  have hstarted : Started roomyParser shortLines 4 1 toRaws (ascii "a@b.com") :=
    ⟨hscanned, _, rfl, by decide⟩
  obtain ⟨hsender, hrecipient⟩ := header_cuts_iff roomyParser shortLines 4 1 1 toRaws hscanned
  constructor
  · exact (hsender _ rfl (by decide)).mpr ⟨6, 14, by decide, by decide, by decide, by decide⟩
  · refine (hrecipient _ 0 _ _ hstarted .start (by decide) rfl (by decide)).mpr
      ⟨⟨4, 12, by decide, by decide, by decide, by decide⟩, ?_, fun hroom => absurd hroom (by decide)⟩
    intro address haddress
    obtain rfl : ascii "c@d.com" = address := by
      have : addressOf (ascii "To: <c@d.com>\n") = some (ascii "c@d.com") := by decide
      exact Option.some.inj (this.symm.trans haddress)
    exact ⟨1, by decide, by decide⟩

def bareSender : Bytes := ascii "From: a@b.com\nTo: <c@d.com>\n\nText\n"

def bareRecipient : Bytes := ascii "From: <a@b.com>\nTo: <cd.com>\n\nText\n"

theorem cuts_without_delimiters :
    (∃ lines strNum, readFile roomyFile (some bareSender) = some (some (lines, strNum)) ∧
      lines 0 = .stored (ascii "From: a@b.com\n") ∧
      ¬SenderCut roomyParser lines strNum 1 (ascii "From: a@b.com\n") ∧
      parseMail roomyParser lines strNum 1 = none) ∧
    ∃ lines strNum, readFile roomyFile (some bareRecipient) = some (some (lines, strNum)) ∧
      lines 1 = .stored (ascii "To: <cd.com>\n") ∧
      ¬RecipientCut roomyParser lines strNum 1 0 (ascii "To: <cd.com>\n") := by
  constructor
  · have hread : (readFile roomyFile (some bareSender)).map (Option.map fun read =>
        decide (read.1 0 = .stored (ascii "From: a@b.com\n") ∧
          (parseMail roomyParser read.1 read.2 1).isNone)) = some (some true) := by decide +kernel
    obtain ⟨lines, strNum, hfound, hline, hnone⟩ := readFile_of_decide hread
    refine ⟨lines, strNum, hfound, hline, fun h => ?_, Option.isNone_iff_eq_none.mp hnone⟩
    obtain ⟨f, l, hfirst, -⟩ := h.length
    have hmissing : strchr (ascii "From: a@b.com\n") 60 = none := by decide
    simp [hmissing] at hfirst
  · have hread : (readFile roomyFile (some bareRecipient)).map (Option.map fun read =>
        decide (read.1 1 = .stored (ascii "To: <cd.com>\n"))) = some (some true) := by decide +kernel
    obtain ⟨lines, strNum, hfound, hline⟩ := readFile_of_decide hread
    refine ⟨lines, strNum, hfound, hline, fun h => ?_⟩
    have hcut : cutAddressesFromMailFormat (roomyParser.toCut 0) (ascii "To: <cd.com>\n") =
        some (some (ascii "cd.com")) := by decide
    obtain ⟨f, l, hfirst, -⟩ := h.hostLength _ hcut
    have hmissing : strchr (ascii "cd.com") 64 = none := by decide
    simp [hmissing] at hfirst

end SmtpMta.Client.HeaderCuts
