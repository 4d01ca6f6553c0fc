import SmtpMta.Client.RecipientTurns

/-! What `parse_mail` reads of its local arrays. `memset` clears as many bytes as
an array has slots, so that both loops run past what was set, unless the file has
one recipient only. -/
namespace SmtpMta.Client.StackSlots
open Library.CString MailFile MailParser MailBody HeaderScan RecipientTurns

/-- A file with `m` recipient lines before its blank line. -/
structure Headed (lines : Slots) (strNum m : Nat) : Prop where
  stored : ∀ i < strNum, ∃ text, lines i = .stored text
  recipients : ∀ j < m, Unblank lines (j + 1)
  blank : Blank lines (m + 1)
  fits : m + 1 < strNum

def hostAt (s : MailParser.Surroundings) (lines : Slots) (j : Nat) : Option Bytes :=
  (recipientAt s (fun j => lines (j + 1)) j).map Prod.snd

def awayBefore (s : MailParser.Surroundings) (lines : Slots) (isHomeMode : Int) (i : Nat) : Nat :=
  (away s isHomeMode (fun j => lines (j + 1)) i).length

/-- How many slots of `hosts` are freed when a cut of this line fails. -/
def freedHosts (s : MailParser.Surroundings) (i : Nat) (toRaw : Bytes) : Nat :=
  match cutAddressesFromMailFormat (s.toCut i) toRaw with
  | none => 0
  | some none => i - 1
  | some (some mailTo) => if cutHostFromReciever (s.hostCut i) mailTo = some none then i else 0

/-- A slot of `hosts` that was assigned or cleared. -/
def HostSet (kept : Kept) (j : Nat) : Prop :=
  j < kept.rhc ∨ Cleared j

/-- The loop is at a slot, in a call that gets to it. -/
def Turn (s : MailParser.Surroundings) (lines : Slots) (strNum : Nat) (isHomeMode : Int) (m : Nat)
    (toRaws : Slots) (i : Nat) (kept : Kept) : Prop :=
  (∃ mailFrom, Started s lines strNum m toRaws mailFrom) ∧ Keeps s isHomeMode toRaws i kept

/-- Both loops look only at slots that were set, and end where these end; the
call does not depend on what the arrays held before. -/
structure ReadsSet (s : MailParser.Surroundings) (lines : Slots) (strNum : Nat) (isHomeMode : Int)
    (m : Nat) : Prop where
  recipients : ∀ toRaws i kept, Turn s lines strNum isHomeMode m toRaws i kept →
    (i < maxToCount → i < m ∨ Cleared i) ∧ (i = maxToCount ∨ toRaws i = .null → i = m)
  freed : ∀ toRaws i kept, Turn s lines strNum isHomeMode m toRaws i kept → i < maxToCount →
    ∀ toRaw ∈ (toRaws i).read, ∀ j < freedHosts s i toRaw, HostSet kept j
  hosts : ∀ toRaws i kept, Turn s lines strNum isHomeMode m toRaws i kept →
    (i = maxToCount ∨ toRaws i = .null) → ∀ j, Tests s isHomeMode kept.hosts j →
      HostSet kept j ∧ (j = maxToCount ∨ kept.hosts j = .null → j = kept.rhc)
  result : ∀ toRaws hosts, parseMail { s with toRaws, hosts } lines strNum isHomeMode =
    parseMail s lines strNum isHomeMode

/-- The call gets to its loop over the recipients. -/
def Begins (s : MailParser.Surroundings) (lines : Slots) : Prop :=
  s.mailRoom = true ∧ s.tosRoom = true ∧
    ((lines 0).read.bind fun fromRaw => (cutAddressesFromMailFormat s.fromCut fromRaw).join).isSome

instance (s : MailParser.Surroundings) (lines : Slots) : Decidable (Begins s lines) :=
  inferInstanceAs (Decidable (_ ∧ _ ∧ _))

/-- There is one recipient, or the loop does not begin, or it ends at a line whose
cut fails, where the slots that are freed are assigned or cleared. -/
def Settled (s : MailParser.Surroundings) (lines : Slots) (isHomeMode : Int) (m : Nat) : Prop :=
  m = 1 ∨ ¬Begins s lines ∨ ∃ f < m, (∀ j < f, (hostAt s lines j).isSome) ∧ hostAt s lines f = none ∧
    ∀ toRaw ∈ (lines (f + 1)).read, freedHosts s f toRaw ≤ max (awayBefore s lines isHomeMode f) 2

section Scan
variable {s : MailParser.Surroundings} {isHomeMode : Int} {lines toRaws : Slots} {strNum m : Nat}

theorem scanHeader_beyond {bound n toCount : Nat} {toRaws' : Slots}
    (h : scanHeader lines bound (n + 1) toRaws = some (toCount, toRaws')) (j : Nat)
    (hj : toCount ≤ j) :
    n ≤ toCount ∧ toRaws' j = toRaws j := by
  induction bound generalizing n toRaws with
  | zero => simp [scanHeader] at h
  | succ bound ih =>
    rw [scanHeader, Nat.add_sub_cancel] at h
    obtain ⟨line, -, h⟩ := Option.bind_eq_some_iff.mp h
    split at h
    · obtain ⟨rfl, rfl⟩ := Prod.mk.inj (Option.some.inj h)
      exact ⟨le_rfl, rfl⟩
    · split at h
      · simp at h
      · obtain ⟨hle, heq⟩ := ih h
        exact ⟨by omega, by rw [heq, Function.update_of_ne (by omega)]⟩

theorem Headed.scan (h : Headed lines strNum m) (hm : m ≤ maxToCount) (toRaws : Slots) :
    ∃ toRaws', scanHeader lines (maxToCount + 1) 1 toRaws = some (m, toRaws') := by
  have hcomm (k : Nat) : 1 + k = k + 1 := Nat.add_comm ..
  obtain ⟨toRaws', hscan⟩ := @scanHeader_blank lines toRaws (maxToCount + 1) 1 m le_rfl
    (fun k hk => by rw [hcomm]; exact h.recipients k hk) (by rw [hcomm]; exact h.blank) (by omega)
    (by omega)
  rw [Nat.add_sub_cancel_left] at hscan
  exact ⟨toRaws', hscan⟩

theorem Headed.line (h : Headed lines strNum m) {j : Nat} (hj : j < m) :
    ∃ text, lines (j + 1) = .stored text :=
  h.stored (j + 1) (by have := h.fits; omega)

theorem toRaws_beyond (h : Scanned s lines strNum m toRaws) {j : Nat} (hj : m ≤ j) :
    toRaws j = memsetSlots maxToCount s.toRaws j :=
  (scanHeader_beyond (n := 0) h.scan j hj).2

theorem begins_iff (h : Headed lines strNum m) (hm : m ≤ maxToCount) (hpos : 1 ≤ m) :
    Begins s lines ↔ ∃ toRaws mailFrom, Started s lines strNum m toRaws mailFrom := by
  constructor
  · rintro ⟨hmail, htos, hsender⟩
    obtain ⟨mailFrom, hsender⟩ := Option.isSome_iff_exists.mp hsender
    obtain ⟨fromRaw, hread, hcut⟩ := Option.bind_eq_some_iff.mp hsender
    obtain ⟨toRaws, hscan⟩ := h.scan hm (memsetSlots maxToCount s.toRaws)
    have hfits := h.fits
    exact ⟨toRaws, mailFrom, ⟨⟨by omega, hscan, hmail, htos⟩, fromRaw, hread,
      Option.join_eq_some_iff.mp hcut⟩⟩
  · rintro ⟨toRaws, mailFrom, hstarted⟩
    obtain ⟨fromRaw, hread, hcut⟩ := hstarted.sender
    exact ⟨hstarted.mailRoom, hstarted.tosRoom, by simp [hread, hcut]⟩

end Scan

section Keeping
variable {s : MailParser.Surroundings} {isHomeMode : Int} {lines toRaws : Slots} {i : Nat}
  {kept : Kept}

theorem cuts_iff_hostAt {toRaw host : Bytes} (hread : (lines (i + 1)).read = some toRaw) :
    (∃ mailTo, Cuts s i toRaw mailTo host) ↔ hostAt s lines i = some host := by
  simp [hostAt, Option.map_eq_some_iff, @recipientAt_iff s (fun j => lines (j + 1)) i _ _ _ hread]

theorem recipientAt_congr (h : toRaws i = lines (i + 1)) :
    recipientAt s toRaws i = recipientAt s (fun j => lines (j + 1)) i := by
  simp only [recipientAt, h]

theorem away_congr (h : ∀ j < i, toRaws j = lines (j + 1)) :
    away s isHomeMode toRaws i = away s isHomeMode (fun j => lines (j + 1)) i := by
  rw [away, away, List.filterMap_congr fun j hj => recipientAt_congr (h j (List.mem_range.mp hj))]

/-- What a turn finds: the hosts so far were cut, those not skipped are kept in
order, and behind them nothing was written. -/
structure Progress (s : MailParser.Surroundings) (lines : Slots) (isHomeMode : Int) (i : Nat)
    (kept : Kept) : Prop where
  cut : ∀ j < i, (hostAt s lines j).isSome
  rhc : kept.rhc = awayBefore s lines isHomeMode i
  assigned : ∀ j < kept.rhc, ∃ host, kept.hosts j = .stored host
  beyond : ∀ j, kept.rhc ≤ j → kept.hosts j = memsetSlots maxToCount s.hosts j

theorem Keeps.progress (h : Keeps s isHomeMode toRaws i kept)
    (hlines : ∀ j < i, toRaws j = lines (j + 1)) : Progress s lines isHomeMode i kept := by
  have hcut := h.cut
  obtain ⟨freed, rfl⟩ := h.kept_eq
  constructor
  · intro j hj
    rw [hostAt, Option.isSome_map, ← recipientAt_congr (hlines j hj)]
    exact (hcut j hj).2
  · exact congrArg List.length (away_congr hlines)
  · intro j hj
    exact filled_stored _ (by rwa [List.length_map])
  · intro j hj
    exact filled_beyond (by rwa [List.length_map])

theorem exists_keeps_lines {m : Nat} (isHomeMode : Int)
    (hlines : ∀ j < m, toRaws j = lines (j + 1))
    (hstored : ∀ j < m, ∃ text, lines (j + 1) = .stored text) (hi : i ≤ m) (hm : m ≤ maxToCount)
    (hcut : ∀ j < i, (hostAt s lines j).isSome) : ∃ kept, Keeps s isHomeMode toRaws i kept := by
  refine exists_keeps isHomeMode (hi.trans hm) fun j hj => ?_
  have hline := hlines j (by omega)
  obtain ⟨text, htext⟩ := hstored j (by omega)
  refine ⟨by simp [hline, htext], ?_⟩
  rw [recipientAt_congr hline, ← Option.isSome_map]
  exact hcut j hj

end Keeping

/-- Two runs keep the same, on what was set. -/
structure Agree (kept kept' : Kept) : Prop where
  tos : kept'.tos = kept.tos
  rhc : kept'.rhc = kept.rhc
  freed : kept'.freed = kept.freed
  hosts : ∀ j, HostSet kept j → kept'.hosts j = kept.hosts j

section Agree
variable {s : MailParser.Surroundings} {isHomeMode : Int} {toRaws toRaws' arr hosts : Slots}
  {i : Nat} {kept kept' : Kept}

theorem Agree.keepOne (h : Agree kept kept') (mailTo host : Bytes) :
    Agree (keepOne kept isHomeMode mailTo host) (keepOne kept' isHomeMode mailTo host) := by
  obtain ⟨htos, hrhc, hfreed, hhosts⟩ := h
  unfold RecipientTurns.keepOne
  split
  · exact ⟨htos, hrhc, by rw [hfreed], hhosts⟩
  · rw [htos, hrhc]
    refine ⟨rfl, rfl, hfreed, fun j hj => ?_⟩
    by_cases hjr : j = kept.rhc
    · simp [hjr]
    · have hset : HostSet kept j := hj.imp_left fun hlt => Nat.lt_of_le_of_ne (Nat.le_of_lt_succ hlt) hjr
      simpa [hjr] using hhosts j hset

theorem Keeps.agree (h : Keeps s isHomeMode toRaws i kept) (arr hosts : Slots)
    (hsame : ∀ j < i, toRaws' j = toRaws j) :
    ∃ kept', Keeps { s with toRaws := arr, hosts } isHomeMode toRaws' i kept' ∧ Agree kept kept' := by
  induction h with
  | start =>
    refine ⟨_, .start, rfl, rfl, rfl, fun j hj => ?_⟩
    have hcleared : Cleared j := hj.resolve_left (Nat.not_lt_zero j)
    exact (memsetSlots_cleared hosts hcleared).trans (memsetSlots_cleared s.hosts hcleared).symm
  | @next i kept toRaw mailTo host before below hsome hread hcuts ih =>
    obtain ⟨kept', hkeeps, hagree⟩ := ih fun j hj => hsame j (by omega)
    have hi := hsame i (by omega)
    exact ⟨_, hkeeps.next below (hi ▸ hsome) (hi ▸ hread) ⟨hcuts.address, hcuts.host⟩,
      hagree.keepOne mailTo host⟩

theorem freeSlots_congr {freed : Nat → Freed} {arr' : Slots} {js : List Nat}
    (h : ∀ j ∈ js, arr' j = arr j) : freeSlots freed arr' js = freeSlots freed arr js := by
  simp only [freeSlots, List.any_eq_true]
  refine if_congr (exists_congr fun j => and_congr_right fun hj => ?_) rfl rfl
  rw [h j hj]

theorem keepRecievers_fails {lines : Slots} {bound : Nat} {toRaw : Bytes}
    (hread : (toRaws i).read = some toRaw)
    (hline : (lines (i + 1)).read = some toRaw) (hnone : hostAt s lines i = none)
    (hsame : toRaws' i = toRaws i) (hagree : Agree kept kept')
    (hfreed : ∀ j < freedHosts s i toRaw, HostSet kept j) :
    keepRecievers { s with toRaws := arr, hosts } isHomeMode toRaws' (bound + 1) i kept' =
        keepRecievers s isHomeMode toRaws (bound + 1) i kept ∧
      ∀ last, keepRecievers s isHomeMode toRaws (bound + 1) i kept ≠ some (.inl last) := by
  have hsome : toRaws i ≠ .null := by
    intro hnull
    simp [hnull, Slot.read] at hread
  simp only [hostAt, recipientAt, hline, Option.bind_eq_bind, Option.bind_some] at hnone
  simp only [keepRecievers, hsame, hsome, hread, if_false, Option.bind_eq_bind, Option.bind_some,
    hagree.tos, hagree.freed]
  unfold freedHosts at hfreed
  cases haddress : cutAddressesFromMailFormat (s.toCut i) toRaw with
  | none => simp
  | some mailTo =>
    rw [haddress] at hnone hfreed
    cases mailTo with
    | none =>
      have hhosts : freeSlots .hostsSlot kept'.hosts (List.range (i - 1)) =
          freeSlots .hostsSlot kept.hosts (List.range (i - 1)) :=
        freeSlots_congr fun j hj => hagree.hosts j (hfreed j (List.mem_range.mp hj))
      simp [hhosts, Option.bind_eq_some_iff]
    | some mailTo =>
      cases hhost : cutHostFromReciever (s.hostCut i) mailTo with
      | none => simp [hhost]
      | some host =>
        obtain rfl : host = none := by
          cases host with
          | none => rfl
          | some host => simp [hhost] at hnone
        simp only [hhost, if_true] at hfreed
        have hhosts : freeSlots .hostsSlot kept'.hosts (List.range i) =
            freeSlots .hostsSlot kept.hosts (List.range i) :=
          freeSlots_congr fun j hj => hagree.hosts j (hfreed j (List.mem_range.mp hj))
        simp [hhost, hhosts, Option.bind_eq_some_iff]

theorem resolveHosts_agree {held held' : Slots} {bound k rhc : Nat} {addrs : Slots}
    {ports : Nat → Int} (hnull : held k = .null) (hsame : ∀ j ≤ k, held' j = held j) (hi : i ≤ k) :
    resolveHosts { s with toRaws := arr, hosts } isHomeMode held' bound i rhc addrs ports =
      resolveHosts s isHomeMode held bound i rhc addrs ports := by
  induction bound generalizing i rhc addrs ports with
  | zero => rfl
  | succ bound ih =>
    rw [resolveHosts, resolveHosts, hsame i hi]
    by_cases hend : held i = .null
    · rw [if_pos hend, if_pos hend]
    · have hlt : i + 1 ≤ k := by
        rcases Nat.lt_or_eq_of_le hi with hlt | rfl
        · exact hlt
        · exact absurd hnull hend
      rw [if_neg hend, if_neg hend]
      simp only [ih hlt]

theorem copyText_agree {lines : Slots} {toCount bound : Nat} :
    copyText { s with toRaws := arr, hosts } lines toCount bound i = copyText s lines toCount bound i := by
  induction bound generalizing i with
  | zero => rfl
  | succ bound ih =>
    rw [copyText, copyText]
    simp only [ih]

/-- With one slot in use and a null one behind it, the rest of the call reads only
what was set. -/
theorem finishMail_agree {lines : Slots} {strNum : Nat} {mailFrom : Bytes}
    (hagree : Agree kept kept') (hrhc : kept.rhc ≤ 1) (hnull : kept.hosts 1 = .null) :
    finishMail { s with toRaws := arr, hosts } lines strNum isHomeMode mailFrom 1 kept' =
      finishMail s lines strNum isHomeMode mailFrom 1 kept := by
  have hsame : ∀ j ≤ 1, kept'.hosts j = kept.hosts j := fun j hj =>
    hagree.hosts j (.inr (cleared_iff.mpr (Nat.lt_succ_of_le hj)))
  have hresolve : getRecieversFromHosts { s with toRaws := arr, hosts } kept'.hosts isHomeMode =
      getRecieversFromHosts s kept.hosts isHomeMode := by
    unfold getRecieversFromHosts
    split
    · exact resolveHosts_agree hnull hsame (Nat.zero_le 1)
    · rfl
  have hfree (n : Nat) (hn : n ≤ 1) : freeSlots .hostsSlot kept'.hosts (List.range n) =
      freeSlots .hostsSlot kept.hosts (List.range n) := by
    refine freeSlots_congr fun j hj => hsame j ?_
    have := List.mem_range.mp hj
    omega
  unfold finishMail
  simp only [hresolve, copyText_agree, hfree 1 le_rfl, hagree.tos, hagree.rhc, hagree.freed,
    hfree kept.rhc hrhc]

end Agree

section Call
variable {s : MailParser.Surroundings} {isHomeMode : Int} {lines toRaws : Slots}
  {strNum m i f : Nat} {kept : Kept} {mailFrom : Bytes}

theorem Keeps.le_of_none (h : Keeps s isHomeMode toRaws i kept) (hraw : toRaws f = lines (f + 1))
    (hnone : hostAt s lines f = none) : i ≤ f := by
  induction h with
  | start => exact Nat.zero_le f
  | @next i kept toRaw mailTo host before below hsome hread hcuts ih =>
    refine Nat.lt_of_le_of_ne ih ?_
    rintro rfl
    have hat := (cuts_iff_hostAt (hraw ▸ hread)).mp ⟨mailTo, hcuts⟩
    simp [hnone] at hat

theorem Keeps.le_of_null (h : Keeps s isHomeMode toRaws i kept) (hnull : toRaws f = .null) :
    i ≤ f := by
  induction h with
  | start => exact Nat.zero_le f
  | next before below hsome hread hcuts ih =>
    refine Nat.lt_of_le_of_ne ih ?_
    rintro rfl
    exact hsome hnull

theorem parseMail_of_not_begins (h : Headed lines strNum m) (hm : m ≤ maxToCount) (hpos : 1 ≤ m)
    (hnot : ¬Begins s lines) (arr hosts : Slots) :
    parseMail { s with toRaws := arr, hosts } lines strNum isHomeMode =
      parseMail s lines strNum isHomeMode := by
  obtain ⟨toRaws, hscan⟩ := h.scan hm (memsetSlots maxToCount s.toRaws)
  obtain ⟨toRaws', hscan'⟩ := h.scan hm (memsetSlots maxToCount arr)
  have hfits := h.fits
  obtain ⟨fromRaw, hfrom⟩ := h.stored 0 (by omega)
  have hread : (lines 0).read = some fromRaw := by rw [hfrom]; rfl
  by_cases hroom : s.mailRoom = true ∧ s.tosRoom = true
  · obtain ⟨hmail, htos⟩ := hroom
    have hscanned : Scanned s lines strNum m toRaws := ⟨by omega, hscan, hmail, htos⟩
    have hother : Scanned { s with toRaws := arr, hosts } lines strNum m toRaws' :=
      ⟨by omega, hscan', hmail, htos⟩
    have hcut : (cutAddressesFromMailFormat s.fromCut fromRaw).join = none := by
      by_contra hsome
      exact hnot ⟨hmail, htos, by simpa [hread, Option.isSome_iff_ne_none] using hsome⟩
    have hend (rest : Bytes → Option (Option Mail × List Freed)) :
        ((cutAddressesFromMailFormat s.fromCut fromRaw).bind fun mailFrom =>
          mailFrom.elim (some (none, [.mail, .tos])) rest) =
        (cutAddressesFromMailFormat s.fromCut fromRaw).map fun _ => (none, [.mail, .tos]) := by
      cases hresult : cutAddressesFromMailFormat s.fromCut fromRaw with
      | none => rfl
      | some mailFrom =>
        obtain rfl : mailFrom = none := by simpa [hresult] using hcut
        rfl
    exact (hother.parseMail hread).trans ((hend _).trans ((hscanned.parseMail hread).trans (hend _)).symm)
  · have hother := @parseMail_of_no_room { s with toRaws := arr, hosts } isHomeMode lines toRaws' strNum m
      (by omega) hscan' hroom
    exact hother.trans (parseMail_of_no_room (by omega) hscan hroom).symm

theorem Started.other (hstarted : Started s lines strNum m toRaws mailFrom)
    (h : Headed lines strNum m) (hm : m ≤ maxToCount) (arr hosts : Slots) :
    ∃ toRaws', Started { s with toRaws := arr, hosts } lines strNum m toRaws' mailFrom ∧
      ∀ j < m, toRaws' j = toRaws j := by
  obtain ⟨toRaws', hscan⟩ := h.scan hm (memsetSlots maxToCount arr)
  have hother : Scanned { s with toRaws := arr, hosts } lines strNum m toRaws' :=
    ⟨hstarted.enough, hscan, hstarted.mailRoom, hstarted.tosRoom⟩
  refine ⟨toRaws', ⟨hother, hstarted.sender⟩, fun j hj => ?_⟩
  rw [hother.toRaws_eq.2 j hj, hstarted.toScanned.toRaws_eq.2 j hj]

theorem afterLoop_congr {s' : MailParser.Surroundings} {result : Option (Kept ⊕ List Freed)}
    (hnot : ∀ last, result ≠ some (.inl last)) :
    afterLoop s' lines strNum isHomeMode mailFrom m result =
      afterLoop s lines strNum isHomeMode mailFrom m result := by
  cases result with
  | none => rfl
  | some result =>
    cases result with
    | inr freed => rfl
    | inl last => exact absurd rfl (hnot last)

theorem freedHosts_zero (toRaw : Bytes) : freedHosts s 0 toRaw = 0 := by
  unfold freedHosts
  split
  · rfl
  · rfl
  · split <;> rfl

theorem freedHosts_of_cuts {toRaw mailTo host : Bytes} (h : Cuts s i toRaw mailTo host) :
    freedHosts s i toRaw = 0 := by
  simp [freedHosts, h.address, h.host]

theorem readsSet_of_fails (h : Headed lines strNum m) (hm : m < maxToCount) (hf : f < m)
    (hcut : ∀ j < f, (hostAt s lines j).isSome) (hnone : hostAt s lines f = none)
    (hfreed : ∀ toRaw ∈ (lines (f + 1)).read,
      freedHosts s f toRaw ≤ max (awayBefore s lines isHomeMode f) 2) :
    ReadsSet s lines strNum isHomeMode m := by
  obtain ⟨text, htext⟩ := h.line hf
  have hline : (lines (f + 1)).read = some text := by rw [htext]; rfl
  have hset {toRaws : Slots} {kept : Kept} (hkeeps : Keeps s isHomeMode toRaws f kept)
      (hlines : ∀ j < m, toRaws j = lines (j + 1)) : ∀ j < freedHosts s f text, HostSet kept j := by
    intro j hj
    have hle := hfreed text hline
    rw [← (Keeps.progress hkeeps fun j hj => hlines j (by omega)).rhc] at hle
    have hlt := Nat.lt_of_lt_of_le hj hle
    rcases Nat.lt_or_ge j kept.rhc with hkept | hbeyond
    · exact .inl hkept
    · exact .inr (cleared_iff.mpr (by omega))
  constructor
  case recipients =>
    rintro toRaws i kept ⟨⟨mailFrom, hstarted⟩, hkeeps⟩
    have hlines := hstarted.toScanned.toRaws_eq.2
    have hle := Keeps.le_of_none hkeeps (hlines f hf) hnone
    refine ⟨fun _ => .inl (by omega), ?_⟩
    rintro (rfl | hnull)
    · omega
    · obtain ⟨text', htext'⟩ := h.line (show i < m by omega)
      simp [hlines i (by omega), htext'] at hnull
  case freed =>
    rintro toRaws i kept ⟨⟨mailFrom, hstarted⟩, hkeeps⟩ hi toRaw hread
    have hlines := hstarted.toScanned.toRaws_eq.2
    rcases Nat.lt_or_eq_of_le (Keeps.le_of_none hkeeps (hlines f hf) hnone) with hlt | rfl
    · have hraw : (lines (i + 1)).read = some toRaw := hlines i (by omega) ▸ hread
      obtain ⟨host, hhost⟩ := Option.isSome_iff_exists.mp (hcut i hlt)
      obtain ⟨mailTo, hcuts⟩ := (cuts_iff_hostAt hraw).mpr hhost
      simp [freedHosts_of_cuts hcuts]
    · obtain rfl : text = toRaw := by
        rw [hlines i hf, hline] at hread
        exact Option.some.inj hread
      exact hset hkeeps hlines
  case hosts =>
    rintro toRaws i kept ⟨⟨mailFrom, hstarted⟩, hkeeps⟩ hend
    have hlines := hstarted.toScanned.toRaws_eq.2
    have hle := Keeps.le_of_none hkeeps (hlines f hf) hnone
    obtain ⟨text', htext'⟩ := h.line (show i < m by omega)
    rcases hend with rfl | hnull
    · omega
    · simp [hlines i (by omega), htext'] at hnull
  case result =>
    intro arr hosts
    by_cases hbegins : Begins s lines
    · obtain ⟨toRaws, mailFrom, hstarted⟩ := (begins_iff h (by omega) (by omega)).mp hbegins
      have hlines := hstarted.toScanned.toRaws_eq.2
      obtain ⟨kept, hkeeps⟩ := exists_keeps_lines isHomeMode hlines (fun j hj => h.line hj)
        (Nat.le_of_lt hf) (Nat.le_of_lt hm) hcut
      obtain ⟨toRaws', hstarted', hsame⟩ := Started.other hstarted h (Nat.le_of_lt hm) arr hosts
      obtain ⟨kept', hkeeps', hagree⟩ := Keeps.agree hkeeps arr hosts
        fun j hj => hsame j (by omega)
      have hleft : maxToCount - f = maxToCount - f - 1 + 1 := by omega
      have hread : (toRaws f).read = some text := by rw [hlines f hf, hline]
      obtain ⟨heq, hnot⟩ := @keepRecievers_fails s isHomeMode toRaws toRaws' arr hosts f kept kept' lines
        (maxToCount - f - 1) text hread hline hnone (hsame f hf) hagree (hset hkeeps hlines)
      rw [← hleft] at heq hnot
      refine (hstarted'.parseMail hkeeps').trans (Eq.trans ?_ (hstarted.parseMail hkeeps).symm)
      rw [heq]
      exact afterLoop_congr hnot
    · exact parseMail_of_not_begins h (by omega) (by omega) hbegins arr hosts

theorem Started.null_at_one (h : Started s lines strNum 1 toRaws mailFrom) : toRaws 1 = .null := by
  rw [toRaws_beyond h.toScanned le_rfl]
  exact memsetSlots_cleared _ (cleared_iff.mpr (by decide))

theorem Progress.at_most_one (h : Progress s lines isHomeMode i kept) (hi : i ≤ 1) :
    kept.rhc ≤ 1 ∧ kept.hosts 1 = .null := by
  have hrhc : kept.rhc ≤ 1 := by
    rw [h.rhc]
    exact (length_away_le ..).trans hi
  exact ⟨hrhc, (h.beyond 1 hrhc).trans (memsetSlots_cleared _ (cleared_iff.mpr (by decide)))⟩

theorem Tests.le_of_null {held : Slots} {j k : Nat} (h : Tests s isHomeMode held j)
    (hnull : held k = .null) : j ≤ k := by
  by_contra hlt
  obtain ⟨host, addr, port, hread, -⟩ := (tests_iff.mp h).2 k (by omega)
  simp [hnull, Slot.read] at hread

theorem readsSet_of_one (h : Headed lines strNum 1) (hcut : (hostAt s lines 0).isSome) :
    ReadsSet s lines strNum isHomeMode 1 := by
  obtain ⟨text, htext⟩ := h.line Nat.one_pos
  constructor
  case recipients =>
    rintro toRaws i kept ⟨⟨mailFrom, hstarted⟩, hkeeps⟩
    have hle := Keeps.le_of_null hkeeps (Started.null_at_one hstarted)
    refine ⟨fun _ => .inr (cleared_iff.mpr (by omega)), ?_⟩
    rintro (rfl | hnull)
    · simp [maxToCount] at hle
    · have hlines := hstarted.toScanned.toRaws_eq.2
      by_contra hne
      obtain rfl : i = 0 := by omega
      simp [hlines 0 Nat.one_pos, htext] at hnull
  case freed =>
    rintro toRaws i kept ⟨⟨mailFrom, hstarted⟩, hkeeps⟩ hi toRaw hread j hj
    have hle := Keeps.le_of_null hkeeps (Started.null_at_one hstarted)
    have hfreed : freedHosts s i toRaw ≤ i := by
      unfold freedHosts
      split
      · exact Nat.zero_le i
      · exact Nat.sub_le i 1
      · split
        · exact le_rfl
        · exact Nat.zero_le i
    exact .inr (cleared_iff.mpr (by omega))
  case hosts =>
    rintro toRaws i kept ⟨⟨mailFrom, hstarted⟩, hkeeps⟩ - j htests
    have hle := Keeps.le_of_null hkeeps (Started.null_at_one hstarted)
    have hlines := hstarted.toScanned.toRaws_eq.2
    have hprogress := Keeps.progress hkeeps fun j hj => hlines j (by omega)
    obtain ⟨hrhc, hnull⟩ := hprogress.at_most_one hle
    have hj := Tests.le_of_null htests hnull
    refine ⟨.inr (cleared_iff.mpr (by omega)), ?_⟩
    rintro (rfl | hend)
    · simp [maxToCount] at hj
    · rcases Nat.lt_or_ge j kept.rhc with hlt | hge
      · obtain ⟨host, hhost⟩ := hprogress.assigned j hlt
        simp [hhost] at hend
      · -- the loop does not get past the first slot that was not assigned
        have hcleared : kept.hosts kept.rhc = .null := (hprogress.beyond _ le_rfl).trans
          (memsetSlots_cleared _ (cleared_iff.mpr (by omega)))
        have := Tests.le_of_null htests hcleared
        omega
  case result =>
    intro arr hosts
    by_cases hbegins : Begins s lines
    · obtain ⟨toRaws, mailFrom, hstarted⟩ := (begins_iff h (by decide) le_rfl).mp hbegins
      have hlines := hstarted.toScanned.toRaws_eq.2
      obtain ⟨kept, hkeeps⟩ := exists_keeps_lines isHomeMode hlines (fun j hj => h.line hj)
        le_rfl (by decide) fun j hj => by
          obtain rfl : j = 0 := by omega
          exact hcut
      obtain ⟨toRaws', hstarted', hsame⟩ := Started.other hstarted h (by decide) arr hosts
      obtain ⟨kept', hkeeps', hagree⟩ := Keeps.agree hkeeps arr hosts hsame
      obtain ⟨hrhc, hnull⟩ := (Keeps.progress hkeeps hlines).at_most_one le_rfl
      have hends {s : MailParser.Surroundings} {toRaws : Slots} {kept : Kept} (h : toRaws 1 = .null) :
          keepRecievers s isHomeMode toRaws (maxToCount - 1) 1 kept = some (.inl kept) := by
        have hleft : maxToCount - 1 = 14 + 1 := rfl
        rw [hleft, keepRecievers, if_pos h]
      refine (hstarted'.parseMail hkeeps').trans (Eq.trans ?_ (hstarted.parseMail hkeeps).symm)
      rw [hends (Started.null_at_one hstarted'), hends (Started.null_at_one hstarted)]
      exact finishMail_agree hagree hrhc hnull
    · exact parseMail_of_not_begins h (by decide) le_rfl hbegins arr hosts

theorem readsSet_of_not_begins (h : Headed lines strNum m) (hm : m ≤ maxToCount) (hpos : 1 ≤ m)
    (hnot : ¬Begins s lines) : ReadsSet s lines strNum isHomeMode m := by
  have hno {toRaws : Slots} {i : Nat} {kept : Kept}
      (hturn : Turn s lines strNum isHomeMode m toRaws i kept) : False := by
    obtain ⟨⟨mailFrom, hstarted⟩, -⟩ := hturn
    exact hnot ((begins_iff h hm hpos).mpr ⟨toRaws, mailFrom, hstarted⟩)
  exact ⟨fun _ _ _ hturn => (hno hturn).elim, fun _ _ _ hturn => (hno hturn).elim,
    fun _ _ _ hturn => (hno hturn).elim, parseMail_of_not_begins h hm hpos hnot⟩

end Call

section Unset
variable {s : MailParser.Surroundings} {isHomeMode : Int} {lines : Slots} {strNum m i : Nat}

theorem exists_turn (isHomeMode : Int) (h : Headed lines strNum m) (hm : m ≤ maxToCount)
    (hpos : 1 ≤ m)
    (hbegins : Begins s lines) (hi : i ≤ m) (hcut : ∀ j < i, (hostAt s lines j).isSome) :
    ∃ toRaws kept, Turn s lines strNum isHomeMode m toRaws i kept ∧
      ∀ j < m, toRaws j = lines (j + 1) := by
  obtain ⟨toRaws, mailFrom, hstarted⟩ := (begins_iff h hm hpos).mp hbegins
  have hlines := hstarted.toScanned.toRaws_eq.2
  obtain ⟨kept, hkeeps⟩ := exists_keeps_lines isHomeMode hlines (fun j hj => h.line hj) hi hm hcut
  exact ⟨toRaws, kept, ⟨⟨mailFrom, hstarted⟩, hkeeps⟩, hlines⟩

theorem not_readsSet_of_cuts (h : Headed lines strNum m) (hm : m < maxToCount) (hmany : 2 ≤ m)
    (hbegins : Begins s lines) (hcut : ∀ j < m, (hostAt s lines j).isSome) :
    ¬ReadsSet s lines strNum isHomeMode m := by
  intro hset
  obtain ⟨toRaws, kept, hturn, -⟩ :=
    exists_turn isHomeMode h (Nat.le_of_lt hm) (by omega) hbegins le_rfl hcut
  rcases (hset.recipients toRaws m kept hturn).1 hm with hlt | hcleared
  · exact lt_irrefl m hlt
  · have := cleared_iff.mp hcleared
    omega

end Unset

/-- The parser reads only what it has set exactly on the files with one recipient,
and where it does not get past an earlier line. -/
theorem parser_reads_set_iff (s : MailParser.Surroundings) (lines : Slots) (strNum : Nat)
    (isHomeMode : Int) (m : Nat) (h : Headed lines strNum m) (hpos : 1 ≤ m) (hm : m < maxToCount) :
    ReadsSet s lines strNum isHomeMode m ↔ Settled s lines isHomeMode m := by
  constructor
  · intro hset
    by_contra hnot
    simp only [Settled, not_or, not_not] at hnot
    obtain ⟨hone, hbegins, hfails⟩ := hnot
    by_cases hall : ∀ j < m, (hostAt s lines j).isSome
    · exact not_readsSet_of_cuts h hm (by omega) hbegins hall hset
    · -- it frees a slot of `hosts` that nothing was assigned to
      push Not at hall
      obtain ⟨f, ⟨hf, hnone⟩, hmin⟩ := (Nat.findX hall)
      have hnone : hostAt s lines f = none := by simpa using hnone
      have hcut : ∀ j < f, (hostAt s lines j).isSome := by
        intro j hj
        by_contra hsome
        exact hmin j hj ⟨by omega, hsome⟩
      obtain ⟨toRaws, kept, hturn, hlines⟩ :=
        exists_turn isHomeMode h (Nat.le_of_lt hm) hpos hbegins (Nat.le_of_lt hf) hcut
      refine hfails ⟨f, hf, hcut, hnone, fun toRaw hread => ?_⟩
      by_contra hmany
      have hrhc := (Keeps.progress hturn.2 fun j hj => hlines j (by omega)).rhc
      have hslot : max kept.rhc 2 < freedHosts s f toRaw := by
        rw [hrhc]
        exact Nat.lt_of_not_le hmany
      rcases hset.freed toRaws f kept hturn (by omega) toRaw (hlines f hf ▸ hread) _ hslot with hlt | hcleared
      · omega
      · have := cleared_iff.mp hcleared
        omega
  · rintro (rfl | hnot | ⟨f, hf, hcut, hnone, hfreed⟩)
    · cases hcut : hostAt s lines 0 with
      | some host => exact readsSet_of_one h (by simp [hcut])
      | none =>
        refine readsSet_of_fails h hm Nat.one_pos (fun j hj => absurd hj (Nat.not_lt_zero j)) hcut ?_
        intro toRaw _
        simp [freedHosts_zero]
    · exact readsSet_of_not_begins h (Nat.le_of_lt hm) hpos hnot
    · exact readsSet_of_fails h hm hf hcut hnone hfreed

theorem headed_of_decide {lines : Slots} {strNum m : Nat}
    (hstored : ∀ i < strNum, (lines i).read.map .stored = some (lines i))
    (hrecipients : ∀ j < m, (lines (j + 1)).read.map isBlank = some false)
    (hblank : (lines (m + 1)).read.map isBlank = some true) (hfits : m + 1 < strNum) :
    Headed lines strNum m where
  stored i hi := by
    obtain ⟨text, -, htext⟩ := Option.map_eq_some_iff.mp (hstored i hi)
    exact ⟨text, htext.symm⟩
  recipients j hj := Option.map_eq_some_iff.mp (hrecipients j hj)
  blank := Option.map_eq_some_iff.mp hblank
  fits := hfits

def crampedParser : MailParser.Surroundings :=
  { roomyParser with toCut := fun i => ⟨i = 0, 4096⟩ }

/-- The loop ends at the second recipient, where the slots are set. -/
theorem parser_reads_set_iff_cramped : ReadsSet crampedParser pairLines 5 1 2 := by
  have hheaded : Headed pairLines 5 2 :=
    headed_of_decide (by decide) (by decide) (by decide) (by decide)
  refine (parser_reads_set_iff crampedParser pairLines 5 1 2 hheaded (by decide) (by decide)).mpr
    (.inr (.inr ⟨1, by decide, ?_, ?_, ?_⟩))
  · decide +kernel
  · decide +kernel
  · decide +kernel

def twoRecipients : Bytes :=
  ascii "X-FROM: <danila1@alfabank.com>\nX-TO: <danila2@alfabank.com>\nX-TO: <danila3@alfabank.com>\n\nHello world!\n"

/-- Arrays that held something unreadable before. -/
def dirtyParser : MailParser.Surroundings :=
  { roomyParser with toRaws := fun _ => .stray none, hosts := fun _ => .stray none }

theorem reads_past_recipients :
    ∃ lines strNum, readFile roomyFile (some twoRecipients) = some (some (lines, strNum)) ∧
      Headed lines strNum 2 ∧ ¬ReadsSet roomyParser lines strNum 1 2 ∧
      (parseMail roomyParser lines strNum 1).isSome ∧ parseMail dirtyParser lines strNum 1 = none := by
  have hread : (readFile roomyFile (some twoRecipients)).map (Option.map fun read =>
      decide (read.2 = 5 ∧ (∀ i < 5, (read.1 i).read.map .stored = some (read.1 i)) ∧
        (∀ j < 2, (read.1 (j + 1)).read.map isBlank = some false) ∧
        (read.1 3).read.map isBlank = some true ∧ Begins roomyParser read.1 ∧
        (∀ j < 2, (hostAt roomyParser read.1 j).isSome) ∧
        (parseMail roomyParser read.1 5 1).isSome ∧ (parseMail dirtyParser read.1 5 1).isNone)) =
      some (some true) := by decide +kernel
  obtain ⟨lines, strNum, hfound, hlines, hstored, hrecipients, hblank, hbegins, hcut, hroomy,
    hdirty⟩ := readFile_of_decide hread
  obtain rfl : strNum = 5 := hlines
  have hheaded : Headed lines 5 2 := headed_of_decide hstored hrecipients hblank (by decide)
  exact ⟨lines, 5, hfound, hheaded, not_readsSet_of_cuts hheaded (by decide) le_rfl hbegins hcut, hroomy,
    Option.isNone_iff_eq_none.mp hdirty⟩

end SmtpMta.Client.StackSlots
