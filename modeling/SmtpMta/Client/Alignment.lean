import SmtpMta.Client.KeptRecipients
import SmtpMta.Client.HeaderCuts

/-! The three arrays of a mail: the recipients that are kept, with the address and
the port of each one's domain in the same slot. -/
namespace SmtpMta.Client.Alignment
open Library.CString MailFile MailParser MailBody Recipients HeaderScan RecipientTurns StackSlots
  HeaderCuts KeptRecipients

/-- A recipient as its header line gives it. -/
structure Recipient where
  mailLocal : Bytes
  domain : Bytes

def Recipient.address (r : Recipient) : Bytes :=
  r.mailLocal ++ 64 :: r.domain

/-- A header line with its `<local@domain>`: no bracket opens before it, none
closes behind it, and the local part has no `@`. -/
def Addressed (line : Bytes) (r : Recipient) : Prop :=
  NulFree line ∧ 64 ∉ r.mailLocal ∧
    ∃ left right, line = left ++ 60 :: (r.address ++ 62 :: right) ∧ 60 ∉ left ∧ 62 ∉ right

structure MailLines (lines : Slots) (strNum : Nat) (rs : List Recipient) : Prop where
  stored : ∀ i < strNum, ∃ text, lines i = .stored text ∧ text.length < maxStrLength
  sender : ∃ line r, lines 0 = .stored line ∧ Addressed line r
  recipients : ∀ j r, rs[j]? = some r → ∃ line, lines (j + 1) = .stored line ∧ Addressed line r
  blank : Blank lines (rs.length + 1)
  fits : rs.length + 1 < strNum

/-- The recipients that are not skipped as local. -/
def notLocal (isHomeMode : Int) (rs : List Recipient) : List Recipient :=
  rs.filter fun r => ¬(r.domain = homeHost ∧ isHomeMode = 0)

/-- The records that the name server has for a domain lead to one address. -/
def Resolves (dns : Bytes → Bytes) (lookup : Lookup) (domain : Bytes) : Prop :=
  ∃ mx, getRecord true lookup.mx = some (some mx) ∧
    getRecord true (lookup.a mx) = some (some (dns domain))

/-- An address as an `A` record gives it: digits and dots. -/
def Dotted (address : Bytes) : Prop :=
  (∀ b ∈ address, b = 46 ∨ (48 ≤ b ∧ b ≤ 57)) ∧ address.length < maxHostAdrLen

def destination (dns : Bytes → Bytes) (domain : Bytes) : Bytes × Int :=
  if domain = homeHost then (homeIp, homePort) else (dns domain, smtpPort)

/-- Each slot holds a recipient, in the order of the file, and where its mail goes. -/
structure Aligned (dns : Bytes → Bytes) (rs : List Recipient) (mail : Mail) : Prop where
  count : mail.tosCount = rs.length
  slots : ∀ i r, rs[i]? = some r → mail.recievers i = .stored r.address ∧
    mail.hosts i = .stored (destination dns r.domain).1 ∧
    mail.ports i = (destination dns r.domain).2

structure Roomy (s : MailParser.Surroundings) : Prop where
  mail : s.mailRoom = true
  tos : s.tosRoom = true
  fromCut : s.fromCut.room = true
  toCut : ∀ i, (s.toCut i).room = true
  hostCut : ∀ i, (s.hostCut i).room = true
  ports : s.portsRoom = true
  addrs : s.addrsRoom = true
  mx : ∀ i, (s.lookup i).mxRoom = true
  a : ∀ i, (s.lookup i).aRoom = true
  lookup : ∀ i, (s.lookup i).room = true
  text : s.textRoom = true
  line : ∀ i, s.lineRoom i = true

section Lines
variable {line : Bytes} {r : Recipient}

theorem Addressed.address_nulFree (h : Addressed line r) : NulFree r.address := by
  obtain ⟨hfree, -, left, right, rfl, -, -⟩ := h
  simp only [nulFree_append, nulFree_cons] at hfree
  exact hfree.2.2.1

theorem Addressed.domain_nulFree (h : Addressed line r) : NulFree r.domain :=
  (nulFree_cons.mp (nulFree_append.mp h.address_nulFree).2).2

theorem Addressed.delimiters (h : Addressed line r) : ∃ left : Bytes,
    strchr line 60 = some left.length ∧
      strrchr line 62 = some (left.length + r.address.length + 1) ∧
      (line.drop (left.length + 1)).take r.address.length = r.address := by
  obtain ⟨hfree, -, left, right, rfl, hleft, hright⟩ := h
  refine ⟨left, strchr_append hfree hleft, ?_, ?_⟩
  · have hsplit : left ++ 60 :: (r.address ++ 62 :: right) =
        (left ++ 60 :: r.address) ++ 62 :: right := by simp
    rw [hsplit] at hfree ⊢
    rw [strrchr_append hfree hright, List.length_append, List.length_cons, Nat.add_assoc]
  · have hdrop : (left ++ 60 :: (r.address ++ 62 :: right)).drop (left.length + 1) =
        r.address ++ 62 :: right := by
      rw [← List.drop_drop, List.drop_left]
      rfl
    rw [hdrop, List.take_left]

theorem Addressed.addressOf (h : Addressed line r) : addressOf line = some r.address := by
  obtain ⟨left, hfirst, hlast, htext⟩ := h.delimiters
  have hlt : left.length < left.length + r.address.length + 1 := by omega
  have hlen : left.length + r.address.length + 1 - left.length - 1 = r.address.length := by omega
  simp [Recipients.addressOf, hfirst, hlast, hlt, hlen, cstr_of_nulFree h.1, htext]

theorem Addressed.bracketed (h : Addressed line r) (hshort : line.length < maxStrLength) :
    Bracketed line := by
  obtain ⟨left, hfirst, hlast, -⟩ := h.delimiters
  have hlt := strrchr_lt hlast
  rw [strlen, cstr_of_nulFree h.1] at hlt
  unfold maxStrLength at hshort
  exact ⟨_, _, hfirst, hlast, by omega, by omega⟩

theorem Addressed.sited (h : Addressed line r) (hshort : line.length < maxStrLength) :
    Sited r.address ∧ hostOf r.address = some r.domain := by
  have hat : strchr r.address 64 = some r.mailLocal.length :=
    strchr_append h.address_nulFree h.2.1
  have hfree := h.address_nulFree
  constructor
  · obtain ⟨left, -, hlast, -⟩ := h.delimiters
    have hlt := strrchr_lt hlast
    rw [strlen, cstr_of_nulFree h.1] at hlt
    refine ⟨_, hat, ?_⟩
    unfold maxStrLength at hshort
    rw [strlen, cstr_of_nulFree hfree]
    omega
  · rw [hostOf, hat, Option.map_some, cstr_of_nulFree hfree, Recipient.address, ← List.drop_drop,
      List.drop_left]
    rfl

theorem Addressed.unblank (h : Addressed line r) : isBlank line = false := by
  by_contra hblank
  obtain ⟨hfree, -, left, right, rfl, -, -⟩ := h
  have hmem : (60 : Byte) ∈ left ++ 60 :: (r.address ++ 62 :: right) := by simp
  rcases (isBlank_iff _).mp (by simpa using hblank) with hlf | hcrlf
  · rw [cstr_of_nulFree hfree] at hlf
    rw [hlf] at hmem
    exact absurd hmem (by decide)
  · rw [cstr_of_nulFree hfree] at hcrlf
    rw [hcrlf] at hmem
    exact absurd hmem (by decide)

theorem Addressed.recipientAt (h : Addressed line r) (hshort : line.length < maxStrLength)
    {s : MailParser.Surroundings} {raws : Slots} {j : Nat} (hline : raws j = .stored line) :
    recipientAt s raws j = if (s.toCut j).room ∧ (s.hostCut j).room then some (r.address, r.domain)
      else none := by
  have hread : (raws j).read = some line := by rw [hline]; rfl
  obtain ⟨address, haddress, -, hcut⟩ := (h.bracketed hshort).address h.1
  obtain rfl : r.address = address := Option.some.inj (h.addressOf.symm.trans haddress)
  obtain ⟨hsited, hhostOf⟩ := h.sited hshort
  obtain ⟨host, hhost, hcutHost⟩ := hsited.host h.address_nulFree
  obtain rfl : r.domain = host := Option.some.inj (hhostOf.symm.trans hhost)
  simp only [RecipientTurns.recipientAt, hread, hcut, Option.bind_eq_bind, Option.bind_some]
  cases hroom : (s.toCut j).room with
  | false => simp
  | true => cases hhostRoom : (s.hostCut j).room <;> simp [hcutHost, hhostRoom]

end Lines

section Recipients
variable {s : MailParser.Surroundings} {lines : Slots} {strNum : Nat} {isHomeMode : Int}
  {rs : List Recipient}

theorem MailLines.headed (h : MailLines lines strNum rs) : Headed lines strNum rs.length where
  stored i hi := by
    obtain ⟨text, htext, -⟩ := h.stored i hi
    exact ⟨text, htext⟩
  recipients j hj := by
    obtain ⟨line, hline, haddressed⟩ := h.recipients j _ (List.getElem?_eq_getElem hj)
    exact ⟨line, by rw [hline]; rfl, haddressed.unblank⟩
  blank := h.blank
  fits := h.fits

theorem MailLines.raw (h : MailLines lines strNum rs) (s : MailParser.Surroundings) {j : Nat}
    {r : Recipient} (hr : rs[j]? = some r) :
    ∃ line, scannedRaws s lines rs.length j = .stored line ∧ Addressed line r ∧
      line.length < maxStrLength := by
  obtain ⟨line, hline, haddressed⟩ := h.recipients j r hr
  obtain ⟨hj, -⟩ := List.getElem?_eq_some_iff.mp hr
  obtain ⟨text, htext, hshort⟩ := h.stored (j + 1) (by have := h.fits; omega)
  obtain rfl : line = text := by simpa [hline] using htext
  exact ⟨line, by rw [scannedRaws, if_pos hj, hline], haddressed, hshort⟩

theorem MailLines.recipientAt (h : MailLines lines strNum rs) {j : Nat} {r : Recipient}
    (hr : rs[j]? = some r) :
    recipientAt s (scannedRaws s lines rs.length) j =
      if (s.toCut j).room ∧ (s.hostCut j).room then some (r.address, r.domain) else none := by
  obtain ⟨line, hline, haddressed, hshort⟩ := h.raw s hr
  exact haddressed.recipientAt hshort hline

theorem MailLines.away (h : MailLines lines strNum rs)
    (hcut : ∀ j < rs.length, (RecipientTurns.recipientAt s (scannedRaws s lines rs.length) j).isSome) :
    away s isHomeMode (scannedRaws s lines rs.length) rs.length =
      (notLocal isHomeMode rs).map fun r => (r.address, r.domain) := by
  have hprefix (k : Nat) (hk : k ≤ rs.length) :
      (List.range k).filterMap (RecipientTurns.recipientAt s (scannedRaws s lines rs.length)) =
        (rs.take k).map fun r => (r.address, r.domain) := by
    induction k with
    | zero => rfl
    | succ k ih =>
      have hr : rs[k]? = some rs[k] := List.getElem?_eq_getElem hk
      have hat : RecipientTurns.recipientAt s (scannedRaws s lines rs.length) k =
          some (rs[k].address, rs[k].domain) := by
        have hsome := hcut k hk
        rw [h.recipientAt hr] at hsome ⊢
        split at hsome
        · rw [if_pos ‹_›]
        · simp at hsome
      have hlast : [k].filterMap (RecipientTurns.recipientAt s (scannedRaws s lines rs.length)) =
          [rs[k]].map fun r => (r.address, r.domain) := by simp [hat]
      rw [List.range_succ, List.filterMap_append, ih (Nat.le_of_succ_le hk), hlast, ← List.map_append,
        List.take_add_one, hr]
      rfl
  rw [RecipientTurns.away, hprefix rs.length le_rfl, List.take_length, List.filter_map, notLocal]
  congr 1
  apply List.filter_congr
  intro r hr
  obtain ⟨j, hj⟩ := List.mem_iff_getElem?.mp hr
  obtain ⟨line, -, haddressed, -⟩ := h.raw s hj
  have hhome : NulFree homeHost := by decide
  simp [IsLocal, strcmp_eq_zero, cstr_of_nulFree haddressed.domain_nulFree, cstr_of_nulFree hhome]

theorem MailLines.kept (h : MailLines lines strNum rs) (isHomeMode : Int) (freed : List Freed)
    (hcut : ∀ j < rs.length, (RecipientTurns.recipientAt s (scannedRaws s lines rs.length) j).isSome) :
    keptAt s isHomeMode (scannedRaws s lines rs.length) rs.length freed =
      { tos := filled ((notLocal isHomeMode rs).map Recipient.address) (memsetSlots maxToCount s.tos)
        hosts := filled ((notLocal isHomeMode rs).map Recipient.domain) (memsetSlots maxToCount s.hosts)
        rhc := (notLocal isHomeMode rs).length
        freed } := by
  simp [keptAt, h.away hcut, Function.comp_def]

end Recipients

section Resolution
variable {s : MailParser.Surroundings} {isHomeMode : Int} {dns : Bytes → Bytes}

theorem Dotted.not_home {address : Bytes} (h : Dotted address) : strcmp address (ascii "home") ≠ 0 := by
  intro heq
  rw [strcmp_eq_zero] at heq
  have hhome : cstr (ascii "home") = ascii "home" := by decide
  have hmem : (104 : Byte) ∈ cstr address := by
    rw [heq, hhome]
    decide
  rcases h.1 104 ((List.takeWhile_sublist _).subset hmem) with hdot | hdigit
  · exact absurd hdot (by decide)
  · exact absurd hdigit (by decide)

theorem getRecord_room {rows : Option Bytes} {text : Bytes} (room : Bool)
    (h : getRecord true rows = some (some text)) :
    getRecord room rows = some (if room then some text else none) := by
  cases room with
  | true => exact h
  | false =>
    cases rows with
    | none => simp [getRecord] at h
    | some rows =>
      unfold getRecord
      dsimp only
      split <;> rfl

theorem getAddress_eq {lookup : Lookup} {domain : Bytes} (hfree : NulFree domain)
    (hlocal : ¬(domain = homeHost ∧ isHomeMode = 0))
    (hdns : domain ≠ homeHost → Resolves dns lookup domain) (hdotted : Dotted (dns domain)) :
    ∃ found : Bool, getAddressFromReciever lookup domain isHomeMode = some (if found then
        (some (destination dns domain).1, some (destination dns domain).2) else (none, none)) ∧
      (lookup.mxRoom = true → lookup.aRoom = true → lookup.room = true → found = true) := by
  have hstrcmp : strcmp domain homeHost = 0 ↔ domain = homeHost := by
    have hhome : NulFree homeHost := by decide
    rw [strcmp_eq_zero, cstr_of_nulFree hfree, cstr_of_nulFree hhome]
  unfold getAddressFromReciever destination
  by_cases hhome : domain = homeHost
  · have hmode : isHomeMode ≠ 0 := fun hzero => hlocal ⟨hhome, hzero⟩
    rw [if_pos (hstrcmp.mpr hhome), if_pos hmode, if_pos hhome]
    refine ⟨lookup.room, ?_, fun _ _ hroom => hroom⟩
    split <;> rfl
  · obtain ⟨mx, hmx, ha⟩ := hdns hhome
    have hlong : ¬maxHostAdrLen ≤ (dns domain).length := Nat.not_le.mpr hdotted.2
    rw [if_neg (mt hstrcmp.mp hhome), if_neg hhome, getRecord_room lookup.mxRoom hmx]
    cases lookup.mxRoom with
    | false => exact ⟨false, rfl, fun hroom => absurd hroom (by decide)⟩
    | true =>
      simp only [if_true, Option.bind_eq_bind, Option.bind_some]
      rw [getRecord_room lookup.aRoom ha]
      cases lookup.aRoom with
      | false => exact ⟨false, rfl, fun _ hroom => absurd hroom (by decide)⟩
      | true =>
        refine ⟨lookup.room, ?_, fun _ _ hroom => hroom⟩
        simp only [if_true, Option.bind_some, if_neg hlong]
        split <;> rfl

/-- The lookups for the domains of an array, in its order. -/
structure Resolved (s : MailParser.Surroundings) (isHomeMode : Int) (dns : Bytes → Bytes)
    (domains : List Bytes) : Prop where
  nulFree : ∀ domain ∈ domains, NulFree domain
  away : ∀ domain ∈ domains, ¬(domain = homeHost ∧ isHomeMode = 0)
  resolves : ∀ i domain, domains[i]? = some domain → domain ≠ homeHost →
    Resolves dns (s.lookup i) domain
  dotted : ∀ domain, Dotted (dns domain)

theorem Resolved.found {domains : List Bytes} (h : Resolved s isHomeMode dns domains) {i : Nat}
    {domain : Bytes} (hi : domains[i]? = some domain) :
    ∃ found : Bool, getAddressFromReciever (s.lookup i) domain isHomeMode = some (if found then
        (some (destination dns domain).1, some (destination dns domain).2) else (none, none)) ∧
      ((s.lookup i).mxRoom = true → (s.lookup i).aRoom = true → (s.lookup i).room = true →
        found = true) :=
  have hmem := List.mem_of_getElem? hi
  getAddress_eq (h.nulFree _ hmem) (h.away _ hmem) (h.resolves i domain hi) (h.dotted domain)

theorem Resolved.not_home {domains : List Bytes} (h : Resolved s isHomeMode dns domains)
    (domain : Bytes) : strcmp (destination dns domain).1 (ascii "home") ≠ 0 := by
  unfold destination
  split
  · decide
  · exact (h.dotted domain).not_home

theorem Resolved.turn {domains : List Bytes} (h : Resolved s isHomeMode dns domains) {i : Nat}
    {domain : Bytes} (hi : domains[i]? = some domain) (arr : Slots) (bound : Nat) (addrs : Slots)
    (ports : Nat → Int) :
    ∃ found : Bool, resolveHosts s isHomeMode (filled domains arr) (bound + 1) i i addrs ports =
        (if found then
          resolveHosts s isHomeMode (filled domains arr) bound (i + 1) (i + 1)
            (Function.update addrs i (.stored (destination dns domain).1))
            (Function.update ports i (destination dns domain).2)
        else (freeSlots .addrsSlot addrs (List.range i)).map fun freed => .inr (freed ++ [.addrs])) ∧
      ((s.lookup i).mxRoom = true → (s.lookup i).aRoom = true → (s.lookup i).room = true →
        found = true) := by
  obtain ⟨found, hget, hroom⟩ := h.found hi
  refine ⟨found, ?_, hroom⟩
  have hslot : filled domains arr i = .stored domain := filled_get hi
  have hread : (filled domains arr i).read = some domain := by rw [hslot]; rfl
  have hnull : filled domains arr i ≠ .null := by simp [hslot]
  rw [resolveHosts, if_neg hnull, hread]
  simp only [Option.bind_eq_bind, Option.bind_some, hget]
  cases found with
  | true => simp [h.not_home domain]
  | false =>
    simp only [Bool.false_eq_true, if_false]
    cases freeSlots .addrsSlot addrs (List.range i) <;> rfl

theorem Resolved.aligned {domains : List Bytes} (h : Resolved s isHomeMode dns domains) {arr : Slots}
    {bound i : Nat} {addrs addrs' : Slots} {ports ports' : Nat → Int}
    (harr : ∀ j, arr j = .null) (hbound : domains.length ≤ i + bound)
    (hbefore : ∀ j < i, ∀ domain ∈ domains[j]?, addrs j = .stored (destination dns domain).1 ∧
      ports j = (destination dns domain).2)
    (hresolve : resolveHosts s isHomeMode (filled domains arr) bound i i addrs ports =
      some (.inl (addrs', ports'))) :
    ∀ j, ∀ domain ∈ domains[j]?, addrs' j = .stored (destination dns domain).1 ∧
      ports' j = (destination dns domain).2 := by
  induction bound generalizing i addrs ports with
  | zero =>
    obtain ⟨rfl, rfl⟩ : addrs = addrs' ∧ ports = ports' := by simpa [resolveHosts] using hresolve
    intro j domain hj
    obtain ⟨hlt, -⟩ := List.getElem?_eq_some_iff.mp hj
    exact hbefore j (by omega) domain hj
  | succ bound ih =>
    cases hi : domains[i]? with
    | none =>
      have hlen := List.getElem?_eq_none_iff.mp hi
      rw [resolveHosts, if_pos (by rw [filled_beyond hlen, harr])] at hresolve
      obtain ⟨rfl, rfl⟩ : addrs = addrs' ∧ ports = ports' := by simpa using hresolve
      intro j domain hj
      obtain ⟨hlt, -⟩ := List.getElem?_eq_some_iff.mp hj
      exact hbefore j (by omega) domain hj
    | some domain =>
      obtain ⟨found, hturn, -⟩ := h.turn hi arr bound addrs ports
      rw [hturn] at hresolve
      cases found with
      | false =>
        obtain ⟨freed, -, hfreed⟩ := Option.map_eq_some_iff.mp hresolve
        simp at hfreed
      | true =>
        refine ih (by omega) (fun j hj domain' hdomain' => ?_) hresolve
        rcases Nat.lt_succ_iff_lt_or_eq.mp hj with hlt | rfl
        · rw [Function.update_of_ne (Nat.ne_of_lt hlt), Function.update_of_ne (Nat.ne_of_lt hlt)]
          exact hbefore j hlt domain' hdomain'
        · obtain rfl : domain = domain' := Option.some.inj (hi.symm.trans hdomain')
          rw [Function.update_self, Function.update_self]
          exact ⟨rfl, rfl⟩

theorem Resolved.resolves_all {domains : List Bytes} (h : Resolved s isHomeMode dns domains)
    {arr : Slots} (harr : ∀ j, arr j = .null) (hroom : Roomy s) (bound i : Nat) (addrs : Slots)
    (ports : Nat → Int) :
    ∃ resolved, resolveHosts s isHomeMode (filled domains arr) bound i i addrs ports =
      some (.inl resolved) := by
  induction bound generalizing i addrs ports with
  | zero => exact ⟨_, rfl⟩
  | succ bound ih =>
    cases hi : domains[i]? with
    | none =>
      rw [resolveHosts, if_pos (by rw [filled_beyond (List.getElem?_eq_none_iff.mp hi), harr])]
      exact ⟨_, rfl⟩
    | some domain =>
      obtain ⟨found, hturn, hfound⟩ := h.turn hi arr bound addrs ports
      obtain rfl := hfound (hroom.mx i) (hroom.a i) (hroom.lookup i)
      rw [hturn, if_pos rfl]
      exact ih (i + 1) _ _

end Resolution

section Mail
variable {s : MailParser.Surroundings} {lines : Slots} {strNum : Nat} {isHomeMode : Int}
  {rs : List Recipient} {dns : Bytes → Bytes}

theorem notLocal_resolved (h : MailLines lines strNum rs)
    (hdns : ∀ i r, (notLocal isHomeMode rs)[i]? = some r → r.domain ≠ homeHost →
      Resolves dns (s.lookup i) r.domain) (hdotted : ∀ domain, Dotted (dns domain)) :
    Resolved s isHomeMode dns ((notLocal isHomeMode rs).map Recipient.domain) where
  nulFree domain hdomain := by
    obtain ⟨r, hr, rfl⟩ := List.mem_map.mp hdomain
    obtain ⟨j, hj⟩ := List.mem_iff_getElem?.mp (List.mem_of_mem_filter hr)
    obtain ⟨line, -, haddressed⟩ := h.recipients j r hj
    exact haddressed.domain_nulFree
  away domain hdomain := by
    obtain ⟨r, hr, rfl⟩ := List.mem_map.mp hdomain
    exact of_decide_eq_true (List.mem_filter.mp hr).2
  resolves i domain hi hne := by
    rw [List.getElem?_map] at hi
    obtain ⟨r, hr, rfl⟩ := Option.map_eq_some_iff.mp hi
    exact hdns i r hr hne
  dotted := hdotted

theorem Keeps.at_end (h : MailLines lines strNum rs) (hmany : rs.length < maxToCount)
    (hraws : ∀ j, memsetSlots maxToCount s.toRaws j = .null) {n : Nat} {kept : Kept}
    (hkeeps : Keeps s isHomeMode (scannedRaws s lines rs.length) n kept)
    (hend : n = maxToCount ∨ scannedRaws s lines rs.length n = .null) : n = rs.length := by
  have hnull : scannedRaws s lines rs.length rs.length = .null := by
    rw [scannedRaws, if_neg (lt_irrefl _), hraws]
  have hle : n ≤ rs.length := by
    by_contra hlt
    exact (RecipientTurns.Keeps.cut hkeeps rs.length (by omega)).1 hnull
  rcases hend with rfl | hnull'
  · omega
  · by_contra hne
    obtain ⟨line, hline, -⟩ := h.raw s (List.getElem?_eq_getElem (show n < rs.length by omega))
    simp [hline] at hnull'

theorem copyText_roomy {toCount bound i : Nat} (hroom : ∀ i, s.lineRoom i = true)
    (hlines : ∀ j, i ≤ j → j < i + bound → ∃ line, lines (j + toCount + 2) = .stored line ∧
      line.length < maxStrLength) :
    ∃ texts, copyText s lines toCount bound i = some (.inl texts) := by
  induction bound generalizing i with
  | zero => exact ⟨[], rfl⟩
  | succ bound ih =>
    obtain ⟨line, hline, hshort⟩ := hlines i le_rfl (by omega)
    obtain ⟨texts, htexts⟩ := @ih (i + 1) fun j hle hlt => hlines j (by omega) (by omega)
    have hread : (lines (i + toCount + 2)).read = some line := by rw [hline]; rfl
    refine ⟨line :: texts, ?_⟩
    simp [copyText, hroom, hread, Nat.not_le.mpr hshort, htexts]

theorem parseMail_roomy (h : MailLines lines strNum rs) (hpos : 1 ≤ rs.length)
    (hmany : rs.length < maxToCount) (hraws : ∀ j, memsetSlots maxToCount s.toRaws j = .null)
    (hhosts : ∀ j, memsetSlots maxToCount s.hosts j = .null)
    (hresolved : Resolved s isHomeMode dns ((notLocal isHomeMode rs).map Recipient.domain))
    (hroom : Roomy s) :
    ∃ mail freed, parseMail s lines strNum isHomeMode = some (some mail, freed) := by
  have hcut : ∀ j < rs.length, scannedRaws s lines rs.length j ≠ .null ∧
      (RecipientTurns.recipientAt s (scannedRaws s lines rs.length) j).isSome := by
    intro j hj
    have hr := List.getElem?_eq_getElem hj
    obtain ⟨line, hline, -⟩ := h.raw s hr
    exact ⟨by simp [hline], by simp [h.recipientAt hr, hroom.toCut, hroom.hostCut]⟩
  have hbegins : Begins s lines := by
    obtain ⟨line, r, hline, haddressed⟩ := h.sender
    obtain ⟨text, htext, hshort⟩ := h.stored 0 (by have := h.fits; omega)
    obtain rfl : line = text := by simpa [hline] using htext
    obtain ⟨address, -, -, hfrom⟩ := (haddressed.bracketed hshort).address haddressed.1
    exact ⟨hroom.mail, hroom.tos, by simp [hline, Slot.read, hfrom, hroom.fromCut]⟩
  obtain ⟨raws, mailFrom, hstarted⟩ := (begins_iff h.headed (Nat.le_of_lt hmany) hpos).mp hbegins
  obtain rfl := raws_eq hstarted.toScanned
  obtain ⟨kept, hkeeps⟩ :=
    RecipientTurns.exists_keeps isHomeMode (Nat.le_of_lt hmany) hcut
  obtain ⟨freed, rfl⟩ := RecipientTurns.Keeps.kept_eq hkeeps
  have hnull : scannedRaws s lines rs.length rs.length = .null := by
    rw [scannedRaws, if_neg (lt_irrefl _), hraws]
  have hends : keepRecievers s isHomeMode (scannedRaws s lines rs.length) (maxToCount - rs.length)
      rs.length (keptAt s isHomeMode (scannedRaws s lines rs.length) rs.length freed) =
      some (.inl (keptAt s isHomeMode (scannedRaws s lines rs.length) rs.length freed)) := by
    obtain ⟨bound, hbound⟩ := Nat.exists_eq_succ_of_ne_zero (Nat.sub_ne_zero_of_lt hmany)
    rw [hbound, keepRecievers, if_pos hnull]
  rw [h.kept isHomeMode freed fun j hj => (hcut j hj).2] at hkeeps hends
  obtain ⟨⟨addrs, ports⟩, hresolve⟩ := hresolved.resolves_all hhosts hroom maxToCount 0
    (memsetSlots maxToCount s.addrs) s.ports
  obtain ⟨texts, htexts⟩ := @copyText_roomy s lines rs.length (strNum - rs.length - 2) 0 hroom.line
    fun j _ hlt => h.stored (j + rs.length + 2) (by omega)
  obtain ⟨js, hjs⟩ : ∃ js, freeSlots .hostsSlot
      (filled ((notLocal isHomeMode rs).map Recipient.domain) (memsetSlots maxToCount s.hosts))
      (List.range rs.length) = some js := by
    apply freeSlots_isSome_iff.mpr
    intro j _ text
    rcases Nat.lt_or_ge j ((notLocal isHomeMode rs).map Recipient.domain).length with hlt | hge
    · obtain ⟨stored, hstored⟩ := filled_stored (memsetSlots maxToCount s.hosts) hlt
      simp [hstored]
    · simp [filled_beyond hge, hhosts]
  rw [hstarted.parseMail hkeeps, hends, afterLoop, finishMail, if_pos hroom.ports,
    getRecieversFromHosts, if_pos hroom.addrs, hresolve]
  simp [hroom.text, htexts, hjs]

end Mail

/-- The arrays of the mail stay in step: each recipient that is not skipped stands
in the slot of the address and of the port of its domain. -/
theorem recipients_aligned (s : MailParser.Surroundings) (lines : Slots) (strNum : Nat)
    (isHomeMode : Int) (rs : List Recipient) (dns : Bytes → Bytes)
    (h : MailLines lines strNum rs) (hpos : 1 ≤ rs.length) (hmany : rs.length ≤ 15)
    (hraws : ∀ j, memsetSlots maxToCount s.toRaws j = .null)
    (hhosts : ∀ j, memsetSlots maxToCount s.hosts j = .null)
    (hdns : ∀ i r, (notLocal isHomeMode rs)[i]? = some r → r.domain ≠ homeHost →
      Resolves dns (s.lookup i) r.domain) (hdotted : ∀ domain, Dotted (dns domain)) :
    (∀ mail freed, parseMail s lines strNum isHomeMode = some (some mail, freed) →
      Aligned dns (notLocal isHomeMode rs) mail) ∧
    (Roomy s → ∃ mail freed, parseMail s lines strNum isHomeMode = some (some mail, freed)) := by
  have hmax : rs.length < maxToCount := Nat.lt_succ_of_le hmany
  have hresolved := notLocal_resolved h hdns hdotted
  refine ⟨fun mail freed hparse => ?_,
    parseMail_roomy h hpos hmax hraws hhosts hresolved⟩
  obtain ⟨raws, mailFrom, n, kept, hstarted, hkeeps, hend, hfinish⟩ :=
    parseMail_started h.headed (Nat.le_of_lt hmax) hpos hparse
  obtain rfl := raws_eq hstarted.toScanned
  obtain rfl := Keeps.at_end h hmax hraws hkeeps hend
  obtain ⟨freed', rfl⟩ := RecipientTurns.Keeps.kept_eq hkeeps
  obtain ⟨hresolve, -, -, hrecievers, hcount⟩ := finishMail_mail hfinish
  rw [h.kept isHomeMode freed' fun j hj => (RecipientTurns.Keeps.cut hkeeps j hj).2]
    at hresolve hrecievers hcount
  have hlen : (notLocal isHomeMode rs).length ≤ rs.length := List.length_filter_le ..
  rw [getRecieversFromHosts] at hresolve
  split at hresolve
  · have hslots := hresolved.aligned hhosts (by rw [List.length_map]; omega)
      (fun j hj => absurd hj (Nat.not_lt_zero j)) hresolve
    refine ⟨hcount, fun i r hr => ⟨?_, hslots i r.domain (by simp [hr])⟩⟩
    rw [hrecievers]
    exact filled_get (by simp [hr])
  · simp at hresolve

def mixedTexts : List Bytes :=
  [ascii "From: <a@b.com>\n", ascii "To: <c@d.com>\n", ascii "To: <e@alfabank.com>\n",
    ascii "To: <g@h.com>\n", ascii "\n", ascii "text\n"]

def mixedRecipients : List Recipient :=
  [⟨ascii "c", ascii "d.com"⟩, ⟨ascii "e", homeHost⟩, ⟨ascii "g", ascii "h.com"⟩]

theorem recipients_aligned_mixed : ∃ mail freed,
    parseMail roomyParser (filled mixedTexts fun _ => .null) 6 0 = some (some mail, freed) ∧
      mail.tosCount = 2 ∧ mail.recievers 1 = .stored (ascii "g@h.com") ∧
      mail.hosts 1 = .stored (ascii "10.0.0.1") ∧ mail.ports 1 = 25 := by
  have hlines : MailLines (filled mixedTexts fun _ => .null) 6 mixedRecipients := by
    constructor
    case stored =>
      intro i hi
      have hshort : ∀ text ∈ mixedTexts, text.length < maxStrLength := by decide
      have hget := List.getElem?_eq_getElem (show i < mixedTexts.length from hi)
      exact ⟨_, filled_get hget, hshort _ (List.mem_of_getElem? hget)⟩
    case sender =>
      exact ⟨_, ⟨ascii "a", ascii "b.com"⟩, rfl, by decide, by decide, ascii "From: ", ascii "\n",
        by decide, by decide, by decide⟩
    case recipients =>
      have hparts : ∀ r ∈ mixedRecipients, NulFree (ascii "To: <" ++ r.address ++ ascii ">\n") ∧
          64 ∉ r.mailLocal ∧ ascii "To: <" ++ r.address ++ ascii ">\n" =
            ascii "To: " ++ 60 :: (r.address ++ 62 :: ascii "\n") := by decide
      have htexts : ∀ j < 3, mixedTexts[j + 1]? =
          (mixedRecipients[j]?).map fun r => ascii "To: <" ++ r.address ++ ascii ">\n" := by decide
      intro j r hr
      obtain ⟨hj, -⟩ := List.getElem?_eq_some_iff.mp hr
      obtain ⟨hfree, hlocal, hsplit⟩ := hparts r (List.mem_of_getElem? hr)
      exact ⟨_, filled_get (by rw [htexts j hj, hr]; rfl),
        hfree, hlocal, _, _, hsplit, by decide, by decide⟩
    case blank => exact ⟨_, rfl, by decide⟩
    case fits => decide
  have hresolves : Resolves (fun _ => ascii "10.0.0.1") (roomyParser.lookup 0) [] :=
    ⟨ascii "mx.d.com.", by decide, by decide⟩
  have hdotted : Dotted (ascii "10.0.0.1") := ⟨by simp [ascii], by decide⟩
  obtain ⟨haligned, hreturns⟩ := recipients_aligned roomyParser (filled mixedTexts fun _ => .null) 6 0
    mixedRecipients (fun _ => ascii "10.0.0.1") hlines (by decide) (by decide)
    (fun j => by simp [memsetSlots, roomyParser]) (fun j => by simp [memsetSlots, roomyParser])
    (fun _ _ _ _ => hresolves) (fun _ => hdotted)
  obtain ⟨mail, freed, hmail⟩ := hreturns ⟨rfl, rfl, rfl, fun _ => rfl, fun _ => rfl, rfl, rfl,
    fun _ => rfl, fun _ => rfl, fun _ => rfl, rfl, fun _ => rfl⟩
  obtain ⟨hcount, hslots⟩ := haligned mail freed hmail
  have hkept : notLocal 0 mixedRecipients = [⟨ascii "c", ascii "d.com"⟩, ⟨ascii "g", ascii "h.com"⟩] := by
    rfl
  obtain ⟨hreciever, hhost, hport⟩ := hslots 1 ⟨ascii "g", ascii "h.com"⟩ (by rw [hkept]; rfl)
  rw [hkept] at hcount
  have hdestination : destination (fun _ => ascii "10.0.0.1") (ascii "h.com") = (ascii "10.0.0.1", 25) := by
    decide
  rw [hdestination] at hhost hport
  exact ⟨mail, freed, hmail, hcount, hreciever, hhost, hport⟩

end SmtpMta.Client.Alignment
