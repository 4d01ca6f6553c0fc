import SmtpMta.Client.KeptRecipients
import SmtpMta.Client.HeaderCuts

/-! What the loops at the ends of `parse_mail` free of its two arrays. Each has
bounds of its own, which count lines; the arrays hold the recipients that are kept. -/
namespace SmtpMta.Client.Cleanup
open Library.CString MailFile MailParser MailBody HeaderScan RecipientTurns StackSlots HeaderCuts
  KeptRecipients

/-- How a call ends once its loop has begun: a cut of a line fails, one of the later
allocations or the name server does, or a mail is returned. -/
inductive Ending where
  | address
  | host
  | ports
  | addrs
  | text
  | line
  | mail

/-- How many slots of `tos` are freed, by the turn of the loop, the number of lines
and the number of recipients that are kept. -/
def Ending.tosBound : Ending → Nat → Nat → Nat → Nat
  | .address, i, _, _ => i
  | .host, i, _, _ => i - 1
  | .ports, _, _, rhc | .text, _, _, rhc => rhc
  | .addrs, _, toCount, _ | .line, _, toCount, _ => toCount
  | .mail, _, _, _ => 0

def Ending.hostsBound : Ending → Nat → Nat → Nat → Nat
  | .address, i, _, _ => i - 1
  | .host, i, _, _ => i
  | .ports, _, _, rhc | .text, _, _, rhc => rhc
  | .addrs, _, toCount, _ | .line, _, toCount, _ | .mail, _, toCount, _ => toCount

/-- The loop is over when it gets to a slot. -/
def Over (toRaws : Slots) (i : Nat) : Prop :=
  i = maxToCount ∨ toRaws i = .null

/-- What makes a call end so, with the loop at a slot and some hosts kept. -/
inductive Ends (s : MailParser.Surroundings) (lines : Slots) (strNum : Nat) (isHomeMode : Int)
    (toCount : Nat) (toRaws : Slots) (i : Nat) (hosts : Slots) : Ending → Prop where
  | address {toRaw : Bytes} (below : i < maxToCount) (read : (toRaws i).read = some toRaw)
    (cut : cutAddressesFromMailFormat (s.toCut i) toRaw = some none) :
    Ends s lines strNum isHomeMode toCount toRaws i hosts .address
  | host {toRaw mailTo : Bytes} (below : i < maxToCount) (read : (toRaws i).read = some toRaw)
    (cut : cutAddressesFromMailFormat (s.toCut i) toRaw = some (some mailTo))
    (host : cutHostFromReciever (s.hostCut i) mailTo = some none) :
    Ends s lines strNum isHomeMode toCount toRaws i hosts .host
  | ports (ended : Over toRaws i) (room : s.portsRoom = false) :
    Ends s lines strNum isHomeMode toCount toRaws i hosts .ports
  | addrs {freed : List Freed} (ended : Over toRaws i) (room : s.portsRoom = true)
    (resolve : getRecieversFromHosts s hosts isHomeMode = some (.inr freed)) :
    Ends s lines strNum isHomeMode toCount toRaws i hosts .addrs
  | text {resolved : Slots × (Nat → Int)} (ended : Over toRaws i) (room : s.portsRoom = true)
    (resolve : getRecieversFromHosts s hosts isHomeMode = some (.inl resolved))
    (text : s.textRoom = false) : Ends s lines strNum isHomeMode toCount toRaws i hosts .text
  | line {resolved : Slots × (Nat → Int)} {made : Nat} (ended : Over toRaws i)
    (room : s.portsRoom = true)
    (resolve : getRecieversFromHosts s hosts isHomeMode = some (.inl resolved))
    (text : s.textRoom = true)
    (copy : copyText s lines toCount (strNum - toCount - 2) 0 = some (.inr made)) :
    Ends s lines strNum isHomeMode toCount toRaws i hosts .line
  | mail {resolved : Slots × (Nat → Int)} {texts : List Bytes} (ended : Over toRaws i)
    (room : s.portsRoom = true)
    (resolve : getRecieversFromHosts s hosts isHomeMode = some (.inl resolved))
    (text : s.textRoom = true)
    (copy : copyText s lines toCount (strNum - toCount - 2) 0 = some (.inl texts)) :
    Ends s lines strNum isHomeMode toCount toRaws i hosts .mail

/-- A call that gets to its loop and ends so, with what is kept then. -/
def EndsAt (s : MailParser.Surroundings) (lines : Slots) (strNum : Nat) (isHomeMode : Int) (m : Nat)
    (ending : Ending) (i : Nat) (kept : Kept) : Prop :=
  ∃ toRaws, Turn s lines strNum isHomeMode m toRaws i kept ∧
    Ends s lines strNum isHomeMode m toRaws i kept.hosts ending

/-- Of the first slots of an array, those that are not null are the first `n`; a null
pointer is freed without effect. -/
def Releases (arr : Slots) (bound n : Nat) : Prop :=
  (List.range bound).filter (fun j => arr j ≠ .null) = List.range n

/-- A call frees exactly the strings that it holds, or the hosts, when the mail takes
the recipients over. -/
def ReleasesHeld (s : MailParser.Surroundings) (lines : Slots) (strNum : Nat) (isHomeMode : Int)
    (m : Nat) : Prop :=
  ∀ ending i kept, EndsAt s lines strNum isHomeMode m ending i kept →
    Releases kept.hosts (ending.hostsBound i m kept.rhc) kept.rhc ∧
      (ending ≠ .mail → Releases kept.tos (ending.tosBound i m kept.rhc) kept.rhc)

/-- The slots of an array from `n` on, up to a bound, are null before the loop. -/
def Clear (arr : Slots) (n bound : Nat) : Prop :=
  ∀ j, n ≤ j → j < bound → memsetSlots maxToCount arr j = .null

/-- The bounds of an ending fit the number of recipients that are kept by then. -/
def Fits (s : MailParser.Surroundings) (m i n : Nat) : Ending → Prop
  | .address => (i = 0 ∨ n < i) ∧ Clear s.tos n i ∧ Clear s.hosts n (i - 1)
  | .host => (i = 0 ∨ n < i) ∧ Clear s.tos n (i - 1) ∧ Clear s.hosts n i
  | .ports | .text => True
  | .addrs | .line => n ≤ m ∧ Clear s.tos n m ∧ Clear s.hosts n m
  | .mail => n ≤ m ∧ Clear s.hosts n m

structure Reaches (s : MailParser.Surroundings) (lines : Slots) (m i : Nat) : Prop where
  begins : Begins s lines
  below : i ≤ maxToCount
  cut : ∀ j < i, scannedRaws s lines m j ≠ .null ∧ (recipientAt s (scannedRaws s lines m) j).isSome

def keptHosts (s : MailParser.Surroundings) (isHomeMode : Int) (toRaws : Slots) (i : Nat) : Slots :=
  filled ((away s isHomeMode toRaws i).map Prod.snd) (memsetSlots maxToCount s.hosts)

def Balanced (s : MailParser.Surroundings) (lines : Slots) (strNum : Nat) (isHomeMode : Int)
    (m : Nat) : Prop :=
  ∀ ending i, Reaches s lines m i →
    Ends s lines strNum isHomeMode m (scannedRaws s lines m) i
      (keptHosts s isHomeMode (scannedRaws s lines m) i) ending →
    Fits s m i (away s isHomeMode (scannedRaws s lines m) i).length ending

section Slots

theorem filter_range_eq_iff {p : Nat → Bool} {k n : Nat} (hp : ∀ j < n, p j = true) :
    (List.range k).filter p = List.range n ↔ n ≤ k ∧ ∀ j, n ≤ j → j < k → p j = false := by
  constructor
  · intro h
    have hmem (j : Nat) : j < k ∧ p j = true ↔ j < n := by
      rw [← List.mem_range, ← List.mem_filter, h, List.mem_range]
    refine ⟨?_, fun j hn hk => ?_⟩
    · by_contra hlt
      exact absurd ((hmem k).mpr (by omega)).1 (lt_irrefl k)
    · by_contra hj
      exact absurd ((hmem j).mp ⟨hk, by simpa using hj⟩) (Nat.not_lt.mpr hn)
  · rintro ⟨hle, hnot⟩
    obtain ⟨d, rfl⟩ := Nat.exists_eq_add_of_le hle
    have hfirst : (List.range n).filter p = List.range n :=
      List.filter_eq_self.mpr fun j hj => hp j (List.mem_range.mp hj)
    have hrest : ((List.range d).map (n + ·)).filter p = [] := by
      rw [List.filter_eq_nil_iff]
      intro j hj
      obtain ⟨k, hk, rfl⟩ := List.mem_map.mp hj
      have hk := List.mem_range.mp hk
      simp [hnot (n + k) (by omega) (by omega)]
    rw [List.range_add, List.filter_append, hfirst, hrest, List.append_nil]

/-- The slots with strings are freed if they lie below the bound, and the others if
they are not null. -/
theorem releases_filled_iff {texts : List Bytes} {arr : Slots} {bound : Nat} :
    Releases (filled texts (memsetSlots maxToCount arr)) bound texts.length ↔
      texts.length ≤ bound ∧ Clear arr texts.length bound := by
  rw [Releases, filter_range_eq_iff fun j hj => ?_]
  · refine and_congr_right fun _ => forall_congr' fun j => forall_congr' fun hj => ?_
    simp [filled_beyond hj]
  · obtain ⟨text, htext⟩ := filled_stored (memsetSlots maxToCount arr) hj
    simp [htext]

theorem clear_self (arr : Slots) (n : Nat) : Clear arr n n :=
  fun _ hn hj => absurd hj (Nat.not_lt.mpr hn)

end Slots

section Call
variable {s : MailParser.Surroundings} {lines toRaws : Slots} {strNum m i : Nat} {isHomeMode : Int}
  {ending : Ending} {kept : Kept}

/-- What fits is that the bounds are the number of recipients that are kept, up to
slots that are null. -/
theorem fits_iff {n : Nat} (hn : n ≤ i) : Fits s m i n ending ↔
    (n ≤ ending.hostsBound i m n ∧ Clear s.hosts n (ending.hostsBound i m n)) ∧
      (ending ≠ .mail → n ≤ ending.tosBound i m n ∧ Clear s.tos n (ending.tosBound i m n)) := by
  have hbefore : n ≤ i - 1 ↔ i = 0 ∨ n < i := by omega
  cases ending with
  | address =>
    simp only [Fits, Ending.hostsBound, Ending.tosBound, hbefore, hn, true_and, ne_eq, reduceCtorEq,
      not_false_eq_true, forall_const]
    tauto
  | host =>
    simp only [Fits, Ending.hostsBound, Ending.tosBound, hbefore, hn, true_and, ne_eq, reduceCtorEq,
      not_false_eq_true, forall_const]
    tauto
  | ports => simp [Fits, Ending.hostsBound, Ending.tosBound, clear_self]
  | text => simp [Fits, Ending.hostsBound, Ending.tosBound, clear_self]
  | addrs =>
    simp only [Fits, Ending.hostsBound, Ending.tosBound, ne_eq, reduceCtorEq, not_false_eq_true,
      forall_const]
    tauto
  | line =>
    simp only [Fits, Ending.hostsBound, Ending.tosBound, ne_eq, reduceCtorEq, not_false_eq_true,
      forall_const]
    tauto
  | mail => simp [Fits, Ending.hostsBound]

theorem Turn.reaches (h : Headed lines strNum m) (hm : m ≤ maxToCount) (hpos : 1 ≤ m)
    (hturn : Turn s lines strNum isHomeMode m toRaws i kept) :
    toRaws = scannedRaws s lines m ∧ Reaches s lines m i ∧
      ∃ freed, kept = keptAt s isHomeMode toRaws i freed := by
  obtain ⟨⟨mailFrom, hstarted⟩, hkeeps⟩ := hturn
  obtain rfl := raws_eq hstarted.toScanned
  refine ⟨rfl, ⟨(begins_iff h hm hpos).mpr ⟨_, _, hstarted⟩, ?_,
    RecipientTurns.Keeps.cut hkeeps⟩, RecipientTurns.Keeps.kept_eq hkeeps⟩
  cases hkeeps with
  | start => exact Nat.zero_le _
  | next before below hsome hread hcuts => exact below

theorem Reaches.turn (h : Headed lines strNum m) (hm : m ≤ maxToCount) (hpos : 1 ≤ m)
    (hreaches : Reaches s lines m i) (isHomeMode : Int) :
    ∃ freed, Turn s lines strNum isHomeMode m (scannedRaws s lines m) i
      (keptAt s isHomeMode (scannedRaws s lines m) i freed) := by
  obtain ⟨toRaws, mailFrom, hstarted⟩ := (begins_iff h hm hpos).mp hreaches.begins
  obtain rfl := raws_eq hstarted.toScanned
  obtain ⟨kept, hkeeps⟩ := RecipientTurns.exists_keeps isHomeMode hreaches.below hreaches.cut
  obtain ⟨freed, rfl⟩ := RecipientTurns.Keeps.kept_eq hkeeps
  exact ⟨freed, ⟨mailFrom, hstarted⟩, hkeeps⟩

theorem releases_keptAt_iff (toRaws : Slots) (freed : List Freed) :
    (Releases (keptAt s isHomeMode toRaws i freed).hosts
        (ending.hostsBound i m (keptAt s isHomeMode toRaws i freed).rhc)
        (keptAt s isHomeMode toRaws i freed).rhc ∧
      (ending ≠ .mail → Releases (keptAt s isHomeMode toRaws i freed).tos
        (ending.tosBound i m (keptAt s isHomeMode toRaws i freed).rhc)
        (keptAt s isHomeMode toRaws i freed).rhc)) ↔
      Fits s m i (away s isHomeMode toRaws i).length ending := by
  rw [fits_iff (length_away_le s isHomeMode toRaws i)]
  have hreleases (part : Bytes × Bytes → Bytes) (arr : Slots) (bound : Nat) :
      Releases (filled ((away s isHomeMode toRaws i).map part) (memsetSlots maxToCount arr)) bound
          (away s isHomeMode toRaws i).length ↔
        (away s isHomeMode toRaws i).length ≤ bound ∧
          Clear arr (away s isHomeMode toRaws i).length bound := by
    have hiff := @releases_filled_iff ((away s isHomeMode toRaws i).map part) arr bound
    rwa [List.length_map] at hiff
  simp only [keptAt, hreleases]

end Call

def slotOf : Freed → Option (Nat ⊕ Nat)
  | .tosSlot j => some (.inl j)
  | .hostsSlot j => some (.inr j)
  | _ => none

section Result
variable {s : MailParser.Surroundings} {lines toRaws : Slots} {strNum m i : Nat} {isHomeMode : Int}
  {ending : Ending} {kept : Kept}

theorem freeSlots_eq {freed : Nat → Freed} {arr : Slots} {js : List Nat} {all : List Freed}
    (h : freeSlots freed arr js = some all) : all = js.map freed := by
  unfold freeSlots at h
  split at h
  · simp at h
  · exact (Option.some.inj h).symm

theorem slots_tos (js : List Nat) : js.filterMap (slotOf ∘ .tosSlot) = js.map .inl :=
  congrFun List.filterMap_eq_map js

theorem slots_hosts (js : List Nat) : js.filterMap (slotOf ∘ .hostsSlot) = js.map .inr :=
  congrFun List.filterMap_eq_map js

theorem slots_addrs (js : List Nat) : js.filterMap (slotOf ∘ .addrsSlot) = [] :=
  List.filterMap_eq_nil_iff.mpr fun _ _ => rfl

theorem slots_text (js : List Nat) : js.filterMap (slotOf ∘ .textSlot) = [] :=
  List.filterMap_eq_nil_iff.mpr fun _ _ => rfl

theorem Keeps.slots (h : Keeps s isHomeMode toRaws i kept) : kept.freed.filterMap slotOf = [] := by
  induction h with
  | start => rfl
  | @next i kept toRaw mailTo host before below hsome hread hcuts ih =>
    unfold keepOne
    split
    · rw [List.filterMap_append, ih]
      rfl
    · exact ih

theorem resolveHosts_slots {hosts : Slots} {bound rhc : Nat} {addrs : Slots} {ports : Nat → Int}
    {freed : List Freed}
    (h : resolveHosts s isHomeMode hosts bound i rhc addrs ports = some (.inr freed)) :
    freed.filterMap slotOf = [] := by
  induction bound generalizing i rhc addrs ports with
  | zero => simp [resolveHosts] at h
  | succ bound ih =>
    rw [resolveHosts] at h
    split at h
    · simp at h
    · obtain ⟨host, -, h⟩ := Option.bind_eq_some_iff.mp h
      obtain ⟨⟨addr, port⟩, -, h⟩ := Option.bind_eq_some_iff.mp h
      cases addr with
      | none =>
        obtain ⟨all, hall, h⟩ := Option.bind_eq_some_iff.mp h
        obtain rfl := freeSlots_eq hall
        obtain rfl : _ = freed := Sum.inr.inj (Option.some.inj h)
        simp [slots_addrs, List.filterMap_cons, slotOf]
      | some addr =>
        dsimp only at h
        split at h
        · exact ih h
        · exact ih h

theorem getRecieversFromHosts_slots {hosts : Slots} {freed : List Freed}
    (h : getRecieversFromHosts s hosts isHomeMode = some (.inr freed)) :
    freed.filterMap slotOf = [] := by
  unfold getRecieversFromHosts at h
  split at h
  · exact resolveHosts_slots h
  · obtain rfl : [] = freed := Sum.inr.inj (Option.some.inj h)
    rfl

theorem keepRecievers_over (hover : Over toRaws i) :
    keepRecievers s isHomeMode toRaws (maxToCount - i) i kept = some (.inl kept) := by
  rcases hover with rfl | hnull
  · rfl
  · cases hleft : maxToCount - i with
    | zero => rfl
    | succ bound => rw [keepRecievers, if_pos hnull]

theorem freeSlots_both {tos hosts : Slots} {js ks : List Nat} {β : Type}
    {f : List Freed → List Freed → Option β} {out : β}
    (h : (freeSlots .tosSlot tos js).bind (fun tos =>
      (freeSlots .hostsSlot hosts ks).bind fun hosts => f tos hosts) = some out) :
    f (js.map .tosSlot) (ks.map .hostsSlot) = some out := by
  obtain ⟨freedTos, htos, h⟩ := Option.bind_eq_some_iff.mp h
  obtain ⟨freedHosts, hhosts, h⟩ := Option.bind_eq_some_iff.mp h
  obtain rfl := freeSlots_eq htos
  obtain rfl := freeSlots_eq hhosts
  exact h

theorem afterLoop_slots {mailFrom : Bytes} {tos hosts : Nat} {last freed : List Freed}
    {result : Option Mail}
    (h : afterLoop s lines strNum isHomeMode mailFrom m
      ((freeSlots .tosSlot kept.tos (List.range tos)).bind fun tos =>
        (freeSlots .hostsSlot kept.hosts (List.range hosts)).bind fun hosts =>
          some (.inr (kept.freed ++ tos ++ hosts ++ last))) = some (result, freed))
    (hlast : last.filterMap slotOf = []) :
    result = none ∧ freed.filterMap slotOf =
      kept.freed.filterMap slotOf ++ ((List.range tos).map .inl ++ (List.range hosts).map .inr) := by
  cases htos : freeSlots .tosSlot kept.tos (List.range tos) with
  | none => simp [htos, afterLoop] at h
  | some js =>
    cases hhosts : freeSlots .hostsSlot kept.hosts (List.range hosts) with
    | none => simp [htos, hhosts, afterLoop] at h
    | some ks =>
      obtain rfl := freeSlots_eq htos
      obtain rfl := freeSlots_eq hhosts
      rw [htos, hhosts] at h
      obtain ⟨rfl, rfl⟩ := Prod.mk.inj (Option.some.inj h)
      simp only [List.filterMap_append, List.filterMap_map, slots_tos, slots_hosts, hlast,
        List.append_nil, List.append_assoc, and_self]

def Ending.Cut (ending : Ending) : Prop := ending = .address ∨ ending = .host

theorem finishMail_slots {mailFrom : Bytes} {result : Option Mail} {freed : List Freed}
    (hends : Ends s lines strNum isHomeMode m toRaws i kept.hosts ending) (hcut : ¬ending.Cut)
    (h : finishMail s lines strNum isHomeMode mailFrom m kept = some (result, freed)) :
    freed.filterMap slotOf = kept.freed.filterMap slotOf ++
        ((List.range (ending.tosBound i m kept.rhc)).map .inl ++
          (List.range (ending.hostsBound i m kept.rhc)).map .inr) ∧
      (result.isSome ↔ ending = .mail) := by
  cases hends with
  | address => exact absurd (.inl rfl) hcut
  | host => exact absurd (.inr rfl) hcut
  | ports _ hroom =>
    rw [finishMail, if_neg (by simp [hroom])] at h
    obtain ⟨rfl, rfl⟩ := Prod.mk.inj (Option.some.inj (freeSlots_both h))
    simp [slots_tos, slots_hosts, List.filterMap_cons, slotOf, Ending.tosBound, Ending.hostsBound]
  | addrs _ hroom hresolve =>
    rw [finishMail, if_pos hroom, hresolve] at h
    simp only [Option.bind_eq_bind, Option.bind_some] at h
    obtain ⟨rfl, rfl⟩ := Prod.mk.inj (Option.some.inj (freeSlots_both h))
    simp [getRecieversFromHosts_slots hresolve, slots_tos, slots_hosts, List.filterMap_cons, slotOf,
      Ending.tosBound, Ending.hostsBound]
  | text _ hroom hresolve htext =>
    rw [finishMail, if_pos hroom, hresolve] at h
    simp only [Option.bind_eq_bind, Option.bind_some, htext, Bool.false_eq_true, if_false] at h
    obtain ⟨addrs, haddrs, h⟩ := Option.bind_eq_some_iff.mp (freeSlots_both h)
    obtain rfl := freeSlots_eq haddrs
    obtain ⟨rfl, rfl⟩ := Prod.mk.inj (Option.some.inj h)
    simp [slots_tos, slots_hosts, slots_addrs, List.filterMap_cons, slotOf, Ending.tosBound,
      Ending.hostsBound]
  | line _ hroom hresolve htext hcopy =>
    rw [finishMail, if_pos hroom, hresolve] at h
    simp only [Option.bind_eq_bind, Option.bind_some, htext, if_true, hcopy] at h
    obtain ⟨addrs, haddrs, h⟩ := Option.bind_eq_some_iff.mp (freeSlots_both h)
    obtain rfl := freeSlots_eq haddrs
    obtain ⟨rfl, rfl⟩ := Prod.mk.inj (Option.some.inj h)
    simp [slots_tos, slots_hosts, slots_addrs, slots_text, List.filterMap_cons, slotOf,
      Ending.tosBound, Ending.hostsBound]
  | mail _ hroom hresolve htext hcopy =>
    rw [finishMail, if_pos hroom, hresolve] at h
    simp only [Option.bind_eq_bind, Option.bind_some, htext, if_true, hcopy] at h
    obtain ⟨hosts, hhosts, h⟩ := Option.bind_eq_some_iff.mp h
    obtain rfl := freeSlots_eq hhosts
    obtain ⟨rfl, rfl⟩ := Prod.mk.inj (Option.some.inj h)
    rw [List.filterMap_append, List.filterMap_map, slots_hosts]
    simp [Ending.tosBound, Ending.hostsBound]

theorem Ends.loop_ended {hosts : Slots} (h : Ends s lines strNum isHomeMode m toRaws i hosts ending)
    (hcut : ¬ending.Cut) : Over toRaws i := by
  cases h with
  | address => exact absurd (.inl rfl) hcut
  | host => exact absurd (.inr rfl) hcut
  | ports hover | addrs hover | text hover | line hover | mail hover => exact hover

theorem EndsAt.slots (h : EndsAt s lines strNum isHomeMode m ending i kept) {result : Option Mail}
    {freed : List Freed} (hparse : parseMail s lines strNum isHomeMode = some (result, freed)) :
    freed.filterMap slotOf = (List.range (ending.tosBound i m kept.rhc)).map .inl ++
        (List.range (ending.hostsBound i m kept.rhc)).map .inr ∧
      (result.isSome ↔ ending = .mail) := by
  obtain ⟨toRaws, ⟨⟨mailFrom, hstarted⟩, hkeeps⟩, hends⟩ := h
  have hkept := Keeps.slots hkeeps
  rw [hstarted.parseMail hkeeps] at hparse
  by_cases hcut : ending.Cut
  · cases hends with
    | address hi hread hnone =>
      rw [keepRecievers_noAddress hi hread hnone] at hparse
      obtain ⟨rfl, hslots⟩ := afterLoop_slots hparse rfl
      exact ⟨by simpa [hkept, Ending.tosBound, Ending.hostsBound] using hslots, by simp⟩
    | host hi hread haddress hnone =>
      rw [keepRecievers_noHost hi hread haddress hnone] at hparse
      obtain ⟨rfl, hslots⟩ := afterLoop_slots hparse rfl
      exact ⟨by simpa [hkept, Ending.tosBound, Ending.hostsBound] using hslots, by simp⟩
    | ports | addrs | text | line | mail => simp [Ending.Cut] at hcut
  · rw [keepRecievers_over (Ends.loop_ended hends hcut)] at hparse
    have hslots := finishMail_slots hends hcut hparse
    rwa [hkept, List.nil_append] at hslots

end Result

/-- The parser releases what it holds exactly if, wherever it ends, no local recipient
and no leftover pointer comes between the bounds and the recipients that are kept, and
no cut fails right behind recipients of which all are kept. -/
theorem releases_held_iff (s : MailParser.Surroundings) (lines : Slots) (strNum : Nat)
    (isHomeMode : Int) (m : Nat) (h : Headed lines strNum m) (hpos : 1 ≤ m) (hm : m ≤ 15) :
    ReleasesHeld s lines strNum isHomeMode m ↔ Balanced s lines strNum isHomeMode m := by
  have hmax : m ≤ maxToCount := hm.trans (by decide)
  constructor
  · intro hheld ending i hreaches hends
    obtain ⟨freed, hturn⟩ := hreaches.turn h hmax hpos isHomeMode
    exact (releases_keptAt_iff _ freed).mp (hheld ending i _ ⟨_, hturn, hends⟩)
  · rintro hbalanced ending i kept ⟨toRaws, hturn, hends⟩
    obtain ⟨rfl, hreaches, freed, rfl⟩ := Turn.reaches h hmax hpos hturn
    exact (releases_keptAt_iff _ freed).mpr (hbalanced ending i hreaches hends)

/-- With memory for everything a mail for two recipients takes both of them over. -/
theorem releases_held_iff_pair : ReleasesHeld roomyParser pairLines 5 1 2 := by
  have hheaded : Headed pairLines 5 2 :=
    headed_of_decide (by decide) (by decide) (by decide) (by decide)
  have hnull : scannedRaws roomyParser pairLines 2 2 = .null := rfl
  have hcut : ∀ j < 2, scannedRaws roomyParser pairLines 2 j ≠ .null ∧
      (recipientAt roomyParser (scannedRaws roomyParser pairLines 2) j).isSome := by decide +kernel
  have hkept : (away roomyParser 1 (scannedRaws roomyParser pairLines 2) 2).length = 2 := by
    decide +kernel
  refine (releases_held_iff roomyParser pairLines 5 1 2 hheaded (by decide) (by decide)).mpr ?_
  intro ending i hreaches hends
  have hi : i ≤ 2 := by
    by_contra hlt
    exact (hreaches.cut 2 (by omega)).1 hnull
  rcases Nat.lt_or_eq_of_le hi with hlt | rfl
  · obtain ⟨hsome, hat⟩ := hcut i hlt
    have hnot : ¬Over (scannedRaws roomyParser pairLines 2) i := by
      rintro (hend | hend)
      · simp [maxToCount] at hend
        omega
      · exact hsome hend
    cases hends with
    | address _ hread hfails => simp [recipientAt, hread, hfails] at hat
    | host _ hread haddress hfails => simp [recipientAt, hread, haddress, hfails] at hat
    | ports hover | addrs hover | text hover | line hover | mail hover => exact absurd hover hnot
  · rw [hkept]
    cases hends with
    | address _ hread | host _ hread => simp [hnull, Slot.read] at hread
    | ports | text => trivial
    | addrs | line => exact ⟨le_rfl, clear_self _ 2, clear_self _ 2⟩
    | mail => exact ⟨le_rfl, clear_self _ 2⟩

theorem leaks_a_host :
    ∃ lines strNum, readFile roomyFile (some twoRecipients) = some (some (lines, strNum)) ∧
      Headed lines strNum 2 ∧ ¬ReleasesHeld crampedParser lines strNum 1 2 := by
  have hread : (readFile roomyFile (some twoRecipients)).map (Option.map fun read =>
      decide (read.2 = 5 ∧ (∀ i < 5, (read.1 i).read.map .stored = some (read.1 i)) ∧
        (∀ j < 2, (read.1 (j + 1)).read.map isBlank = some false) ∧
        (read.1 3).read.map isBlank = some true ∧ Begins crampedParser read.1 ∧
        (∀ j < 1, scannedRaws crampedParser read.1 2 j ≠ .null ∧
          (recipientAt crampedParser (scannedRaws crampedParser read.1 2) j).isSome) ∧
        (away crampedParser 1 (scannedRaws crampedParser read.1 2) 1).length = 1 ∧
        ((scannedRaws crampedParser read.1 2 1).read.bind fun toRaw =>
          cutAddressesFromMailFormat (crampedParser.toCut 1) toRaw) = some none)) =
      some (some true) := by decide +kernel
  obtain ⟨lines, strNum, hfound, hlines, hstored, hrecipients, hblank, hbegins, hcut, hkept,
    hfails⟩ := readFile_of_decide hread
  obtain rfl : strNum = 5 := hlines
  have hheaded : Headed lines 5 2 := headed_of_decide hstored hrecipients hblank (by decide)
  refine ⟨lines, 5, hfound, hheaded, fun hheld => ?_⟩
  have hreaches : Reaches crampedParser lines 2 1 := ⟨hbegins, by decide, hcut⟩
  obtain ⟨freed, hturn⟩ := hreaches.turn hheaded (by decide) (by decide) 1
  obtain ⟨toRaw, hline, hnone⟩ := Option.bind_eq_some_iff.mp hfails
  have hfits := (releases_keptAt_iff _ freed).mp
    (hheld .address 1 _ ⟨_, hturn, .address (by decide) hline hnone⟩)
  rw [hkept] at hfits
  exact absurd hfits.1 (by decide)

end SmtpMta.Client.Cleanup
