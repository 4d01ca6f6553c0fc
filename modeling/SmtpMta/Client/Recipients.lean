import SmtpMta.Client.MailBody

/-! The recipients of a mail file: `parse_mail` keeps all of them that it does
not skip as local. -/
namespace SmtpMta.Client.Recipients
open Library.CString Library.Stdio MailFile MailParser MailBody

/-- The lines of a header up to the blank one, in the chunks that `fgets` makes of them. -/
def headerLines : Nat → Bytes → List Bytes
  | 0, _ => []
  | bound + 1, file =>
    match fgets maxStrLength file with
    | none => []
    | some (line, file) => if isBlank line then [] else line :: headerLines bound file

def recipientLines (file : Bytes) : List Bytes :=
  match fgets maxStrLength file with
  | none => []
  | some (_, file) => headerLines file.length file

/-- The address between the brackets of a line. -/
def addressOf (line : Bytes) : Option Bytes := do
  let first ← strchr line 60
  let last ← strrchr line 62
  if first < last then some (((cstr line).drop (first + 1)).take (last - first - 1)) else none

def IsHome (address : Bytes) : Prop :=
  (strchr address 64).map (fun k => address.drop (k + 1)) = some homeHost

instance (address : Bytes) : Decidable (IsHome address) :=
  inferInstanceAs (Decidable (_ = _))

/-- The recipients of a mail that are not skipped as local. A line without an address
between brackets, at which the parser follows a null pointer, is one without an address. -/
def recipients (isHomeMode : Int) (file : Bytes) : List (Option Bytes) :=
  ((recipientLines file).map addressOf).filter fun recipient =>
    ¬(recipient.any (IsHome ·) ∧ isHomeMode = 0)

theorem strchr_lt {str : Bytes} {c : Byte} {k : Nat} (h : strchr str c = some k) :
    k < strlen str := by
  obtain ⟨hlt, -⟩ := List.findIdx?_eq_some_iff_getElem.mp h
  exact hlt

theorem strrchr_lt {str : Bytes} {c : Byte} {k : Nat} (h : strrchr str c = some k) :
    k < strlen str := by
  obtain ⟨j, hj, rfl⟩ := Option.map_eq_some_iff.mp h
  obtain ⟨hlt, -⟩ := List.findIdx?_eq_some_iff_getElem.mp hj
  rw [List.length_reverse] at hlt
  have hlen : strlen str = (cstr str).length := rfl
  omega

theorem pointerDiff_eq {address first last : Nat} (hlt : first < last)
    (hnear : last - first < 2 ^ 31) :
    pointerDiff address (some last) (some first) = (last - first : Nat) := by
  simp only [pointerDiff, Option.elim_some]
  omega

theorem cutBetween_eq {cut : Cut} {str text : Bytes} {first last : Nat} (hfree : NulFree str)
    (hlt : first < last) (hnear : last - first < 2 ^ 31)
    (h : cutBetween cut str (some first) (some last) = some (some text)) :
    text = (str.drop (first + 1)).take (last - first - 1) := by
  simp only [cutBetween, pointerDiff_eq hlt hnear] at h
  split at h
  · simp at h
  split at h
  · simp at h
  split at h
  · rename_i hone
    obtain rfl : [] = text := by simpa using h
    have : last - first - 1 = 0 := by omega
    rw [this, List.take_zero]
  · have hrest : NulFree (str.drop (first + 1)) := hfree.of_sublist (List.drop_sublist ..)
    have htake : NulFree ((str.drop (first + 1)).take (last - first - 1)) :=
      hrest.of_sublist (List.take_sublist ..)
    obtain rfl := Option.some.inj (Option.some.inj h)
    rw [Int.toNat_natCast, strncpy, cstr_of_nulFree hrest]
    rw [List.drop_nil, List.append_nil, List.append_assoc, ← List.replicate_succ', cstr_pad,
      cstr_of_nulFree htake]

theorem cutBetween_none {cut : Cut} {str text : Bytes} {last : Option Nat}
    (h : cutBetween cut str none last = some (some text)) : text = [] := by
  simp only [cutBetween] at h
  split at h
  · simp at h
  split at h
  · simp at h
  split at h
  · exact (Option.some.inj (Option.some.inj h)).symm
  · simp at h

theorem addressOf_sublist {line address : Bytes} (h : addressOf line = some address) :
    address.Sublist (cstr line) := by
  obtain ⟨first, -, h⟩ := Option.bind_eq_some_iff.mp h
  obtain ⟨last, -, h⟩ := Option.bind_eq_some_iff.mp h
  split at h
  · obtain rfl := Option.some.inj h
    exact (List.take_sublist ..).trans (List.drop_sublist ..)
  · simp at h

theorem cutAddresses_eq {cut : Cut} {raw address text : Bytes} (hfree : NulFree raw)
    (hshort : raw.length < 2 ^ 31) (haddress : addressOf raw = some address)
    (h : cutAddressesFromMailFormat cut raw = some (some text)) : text = address := by
  obtain ⟨first, hfirst, haddress⟩ := Option.bind_eq_some_iff.mp haddress
  obtain ⟨last, hlast, haddress⟩ := Option.bind_eq_some_iff.mp haddress
  split at haddress
  · rename_i hlt
    obtain rfl := Option.some.inj haddress
    rw [cutAddressesFromMailFormat, hfirst, hlast] at h
    have hbound := strrchr_lt hlast
    rw [strlen, cstr_of_nulFree hfree] at hbound
    rw [cstr_of_nulFree hfree]
    exact cutBetween_eq hfree hlt (by omega) h
  · simp at haddress

theorem cutHost_home {cut : Cut} {address host : Bytes} (hfree : NulFree address)
    (hshort : address.length < 2 ^ 31) (h : cutHostFromReciever cut address = some (some host))
    (hhome : strcmp host homeHost = 0) : IsHome address := by
  rw [strcmp_eq_zero, cstr_of_nulFree (show NulFree homeHost by decide)] at hhome
  unfold cutHostFromReciever at h
  cases hat : strchr address 64 with
  | none =>
    rw [hat] at h
    rw [cutBetween_none h] at hhome
    exact absurd hhome (by decide)
  | some k =>
    have hk := strchr_lt hat
    rw [hat] at h
    rw [strlen, cstr_of_nulFree hfree] at hk
    rw [strlen, cstr_of_nulFree hfree] at h
    have hhost := cutBetween_eq hfree hk (by omega) h
    rw [List.take_of_length_le (by simp; omega)] at hhost
    have hfree' : NulFree host := by
      rw [hhost]
      exact hfree.of_sublist (List.drop_sublist ..)
    rw [cstr_of_nulFree hfree', hhost] at hhome
    simp [IsHome, hat, hhome]

section Keeping
variable {s : MailParser.Surroundings} {isHomeMode : Int} {toRaws : Slots}

theorem keepRecievers_succ {bound i : Nat} {kept kept' : Kept}
    (h : keepRecievers s isHomeMode toRaws (bound + 1) i kept = some (.inl kept')) :
    (toRaws i = .null ∧ kept' = kept) ∨
      ∃ toRaw mailTo host next, (toRaws i).read = some toRaw ∧
        cutAddressesFromMailFormat (s.toCut i) toRaw = some (some mailTo) ∧
        cutHostFromReciever (s.hostCut i) mailTo = some (some host) ∧
        keepRecievers s isHomeMode toRaws bound (i + 1) next = some (.inl kept') ∧
        ((strcmp host homeHost = 0 ∧ isHomeMode = 0 ∧ next.tos = kept.tos ∧ next.rhc = kept.rhc) ∨
          (next.tos = Function.update kept.tos kept.rhc (.stored mailTo) ∧
            next.rhc = kept.rhc + 1)) := by
  rw [keepRecievers] at h
  split at h
  · rename_i hnull
    exact .inl ⟨hnull, by simpa using h.symm⟩
  · obtain ⟨toRaw, hread, h⟩ := Option.bind_eq_some_iff.mp h
    obtain ⟨mailTo, hto, h⟩ := Option.bind_eq_some_iff.mp h
    cases mailTo with
    | none =>
      obtain ⟨tos, -, h⟩ := Option.bind_eq_some_iff.mp h
      obtain ⟨hosts, -, h⟩ := Option.bind_eq_some_iff.mp h
      simp at h
    | some mailTo =>
      obtain ⟨host, hhost, h⟩ := Option.bind_eq_some_iff.mp h
      cases host with
      | none =>
        obtain ⟨tos, -, h⟩ := Option.bind_eq_some_iff.mp h
        obtain ⟨hosts, -, h⟩ := Option.bind_eq_some_iff.mp h
        simp at h
      | some host =>
        refine .inr ⟨toRaw, mailTo, host, ?_⟩
        dsimp only at h
        split at h
        · rename_i hskip
          exact ⟨_, hread, hto, hhost, h, .inl ⟨hskip.1, hskip.2, rfl, rfl⟩⟩
        · exact ⟨_, hread, hto, hhost, h, .inr ⟨rfl, rfl⟩⟩

theorem keepRecievers_stays {bound i : Nat} {kept kept' : Kept}
    (h : keepRecievers s isHomeMode toRaws bound i kept = some (.inl kept')) :
    kept.rhc ≤ kept'.rhc ∧ ∀ t < kept.rhc, kept'.tos t = kept.tos t := by
  induction bound generalizing i kept with
  | zero =>
    obtain rfl : kept = kept' := by simpa [keepRecievers] using h
    exact ⟨le_rfl, fun _ _ => rfl⟩
  | succ bound ih =>
    rcases keepRecievers_succ h with ⟨-, rfl⟩ | ⟨toRaw, mailTo, host, next, -, -, -, hnext, hstep⟩
    · exact ⟨le_rfl, fun _ _ => rfl⟩
    · obtain ⟨hle, hsame⟩ := ih hnext
      rcases hstep with ⟨-, -, htos, hrhc⟩ | ⟨htos, hrhc⟩
      · rw [hrhc] at hle hsame
        exact ⟨hle, fun t ht => by rw [hsame t ht, htos]⟩
      · rw [hrhc] at hle hsame
        refine ⟨by omega, fun t ht => ?_⟩
        rw [hsame t (by omega), htos, Function.update_of_ne (by omega)]

theorem keepRecievers_keeps {bound i k : Nat} {kept kept' : Kept} {raw address : Bytes}
    (h : keepRecievers s isHomeMode toRaws bound i kept = some (.inl kept')) (hk : k < bound)
    (hstored : ∀ j ≤ k, toRaws (i + j) ≠ .null) (hraw : toRaws (i + k) = .stored raw)
    (hfree : NulFree raw) (hshort : raw.length < 2 ^ 31) (haddress : addressOf raw = some address)
    (haway : ¬(IsHome address ∧ isHomeMode = 0)) :
    ∃ t < kept'.rhc, kept'.tos t = .stored address := by
  induction bound generalizing i k kept with
  | zero => omega
  | succ bound ih =>
    rcases keepRecievers_succ h with ⟨hnull, -⟩ |
      ⟨toRaw, mailTo, host, next, hread, hto, hhost, hnext, hstep⟩
    · exact absurd hnull (hstored 0 (Nat.zero_le k))
    · cases k with
      | succ k =>
        have hshift (j : Nat) : i + 1 + j = i + (j + 1) := by omega
        exact ih hnext (Nat.lt_of_succ_lt_succ hk)
          (fun j hj => by rw [hshift]; exact hstored (j + 1) (by omega))
          (by rw [hshift]; exact hraw)
      | zero =>
        rw [Nat.add_zero] at hraw
        obtain rfl : raw = toRaw := by simpa [hraw, Slot.read] using hread
        obtain rfl := cutAddresses_eq hfree hshort haddress hto
        have hsub := addressOf_sublist haddress
        rw [cstr_of_nulFree hfree] at hsub
        rcases hstep with ⟨hhome, hmode, -⟩ | ⟨htos, hrhc⟩
        · have hlength := hsub.length_le
          exact absurd ⟨cutHost_home (hfree.of_sublist hsub) (by omega) hhost hhome, hmode⟩ haway
        · obtain ⟨hle, hsame⟩ := keepRecievers_stays hnext
          refine ⟨kept.rhc, by omega, ?_⟩
          rw [hsame kept.rhc (by omega), htos, Function.update_self]

end Keeping

theorem scanHeader_rows {lines : Slots} {bound n toCount : Nat} {toRaws toRaws' : Slots}
    (h : scanHeader lines bound (n + 1) toRaws = some (toCount, toRaws')) (hn : n ≤ maxToCount) :
    n ≤ toCount ∧ toCount ≤ maxToCount ∧ (∀ j < n, toRaws' j = toRaws j) ∧
      (∀ j, n ≤ j → j < toCount → toRaws' j = lines (j + 1)) ∧
      ∃ line, (lines (toCount + 1)).read = some line ∧ isBlank line = true := by
  induction bound generalizing n toRaws with
  | zero => simp [scanHeader] at h
  | succ bound ih =>
    rw [scanHeader, Nat.add_sub_cancel] at h
    obtain ⟨line, hread, h⟩ := Option.bind_eq_some_iff.mp h
    split at h
    · rename_i hblank
      obtain ⟨rfl, rfl⟩ := Prod.mk.inj (Option.some.inj h)
      exact ⟨le_rfl, hn, fun _ _ => rfl, fun j hle hlt => by omega, line, hread, hblank⟩
    · split at h
      · simp at h
      · obtain ⟨hle, hmax, hbefore, hrows, hend⟩ := ih h (by omega)
        refine ⟨by omega, hmax, fun j hj => ?_, fun j hnj hj => ?_, hend⟩
        · rw [hbefore j (by omega), Function.update_of_ne (by omega)]
        · rcases Nat.lt_or_eq_of_le hnj with hlt | rfl
          · exact hrows j hlt hj
          · rw [hbefore n (by omega), Function.update_self]

theorem headerLines_eq {file : Bytes} {chunks : List Bytes} (h : Chunked maxStrLength file chunks)
    {bound : Nat} (hbound : chunks.length ≤ bound) :
    headerLines bound file = chunks.takeWhile fun chunk => !isBlank chunk := by
  induction h generalizing bound with
  | eof => cases bound <;> simp [headerLines, fgets]
  | @line file line rest lines hget _ ih =>
    rw [List.length_cons] at hbound
    obtain ⟨bound, rfl⟩ := Nat.exists_eq_succ_of_ne_zero (Nat.ne_zero_of_lt hbound)
    rw [headerLines, hget]
    by_cases hblank : isBlank line
    · simp [hblank]
    · simp [hblank, ih (Nat.le_of_succ_le_succ hbound)]

theorem isBlank_cstr (line : Bytes) : isBlank (cstr line) = isBlank line := by
  rw [Bool.eq_iff_iff, isBlank_iff, isBlank_iff, cstr_cstr]

theorem addressOf_cstr (line : Bytes) : addressOf (cstr line) = addressOf line := by
  simp [addressOf, strchr, strrchr, strlen]

theorem recipients_kept {s : MailFile.Surroundings} {t : MailParser.Surroundings} {file : Bytes}
    {lines : Slots} {strNum : Nat} {isHomeMode : Int} {mail : Mail} {freed : List Freed}
    (hread : readFile s (some file) = some (some (lines, strNum)))
    (hparse : parseMail t lines strNum isHomeMode = some (some mail, freed)) {address : Bytes}
    (haddress : some address ∈ recipients isHomeMode file) :
    ∃ toNum < mail.tosCount, mail.recievers toNum = .stored address := by
  obtain ⟨chunks, hchunks, -, rfl⟩ := readFile_spec hread
  obtain ⟨toCount, toRaws, kept, kept', hscan, hkeep, -, -, hrecievers, htosCount⟩ :=
    parseMail_mail hparse
  obtain ⟨-, hmax, -, hrows, blank, hblank_read, hblank⟩ := scanHeader_rows (n := 0) hscan (by decide)
  simp only [recipients, List.mem_filter, List.mem_map, Option.any_some, decide_eq_true_eq] at haddress
  obtain ⟨⟨line, hline, haddr⟩, haway⟩ := haddress
  cases hchunks with
  | eof => simp [recipientLines, fgets] at hline
  | @line file sender rest chunks hget hrest =>
    simp only [recipientLines, hget, headerLines_eq hrest (hrest.count_le (by decide))] at hline
    obtain ⟨k, hk, hat⟩ := List.getElem_of_mem hline
    have hfront : chunks.takeWhile (fun chunk => !isBlank chunk) <+: chunks :=
      List.takeWhile_prefix _
    -- the lines up to this one are stored, and none of them is blank
    have hchunk {j : Nat} (hj : j ≤ k) : ∃ chunk ∈ chunks, isBlank chunk = false ∧
        withChunks (memsetSlots maxStrCount s.memory) 0 (sender :: chunks) (j + 1) =
          .stored (cstr chunk) ∧ (j = k → chunk = line) := by
      have hlt := Nat.lt_of_le_of_lt hj hk
      have hmem := List.getElem_mem hlt
      have hget : chunks[j]? = some (chunks.takeWhile fun chunk => !isBlank chunk)[j] := by
        rw [hfront.getElem hlt]
        exact List.getElem?_eq_getElem (Nat.lt_of_lt_of_le hlt hfront.length_le)
      refine ⟨_, List.mem_of_getElem? hget, by simpa using List.mem_takeWhile_imp hmem, ?_, ?_⟩
      · simp [withChunks, hget]
      · rintro rfl
        exact hat
    have hbefore : k < toCount := by
      by_contra hnot
      obtain ⟨chunk, -, hnonblank, hstored, -⟩ := hchunk (Nat.le_of_not_lt hnot)
      obtain rfl : cstr chunk = blank := by simpa [hstored, Slot.read] using hblank_read
      rw [isBlank_cstr, hnonblank] at hblank
      simp at hblank
    have hrow {j : Nat} (hj : j ≤ k) : ∃ chunk ∈ chunks, toRaws j = .stored (cstr chunk) ∧
        (j = k → chunk = line) := by
      obtain ⟨chunk, hmem, -, hstored, hlast⟩ := hchunk hj
      exact ⟨chunk, hmem, by rw [hrows j (Nat.zero_le j) (by omega), hstored], hlast⟩
    obtain ⟨chunk, hmem, hraw, hlast⟩ := hrow le_rfl
    obtain rfl := hlast rfl
    have hshort : (cstr chunk).length < 2 ^ 31 := by
      have hle := hrest.length_le chunk hmem
      have hcstr : (cstr chunk).length ≤ chunk.length := (List.takeWhile_sublist _).length_le
      have : maxStrLength - 1 < 2 ^ 31 := by decide
      omega
    rw [hrecievers, htosCount]
    refine keepRecievers_keeps hkeep (Nat.lt_of_lt_of_le hbefore hmax) (fun j hj => ?_)
      (by rw [Nat.zero_add]; exact hraw) (cstr_nulFree chunk) hshort (by rw [addressOf_cstr]; exact haddr)
      haway
    obtain ⟨chunk', -, hraw', -⟩ := hrow hj
    rw [Nat.zero_add, hraw']
    simp

end SmtpMta.Client.Recipients
