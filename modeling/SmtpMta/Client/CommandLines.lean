import SmtpMta.Client.Recipients

/-! The commands that the addresses of a header end up in: one line each. -/
namespace SmtpMta.Client.CommandLines
open Library.CString Library.Stdio Common.SharedStrings Fsm Queue MailFile MailParser MailBody
  Recipients

/-- Behind what was queued the send buffer holds one more line; the `int` of the source
counts both while they are below 2^31 bytes. -/
def OneMoreLine (c c' : Conn) : Prop :=
  ∃ queued command, unsent c = some queued ∧ c'.sendBuf = some (queued ++ command) ∧
    ((queued ++ command).length < 2 ^ 31 → unsent c'.stored = some (queued ++ command)) ∧
    command.count lf = 1 ∧ command.getLast? = some lf

/-- The handler queues one more line. If it returns although an allocation failed, it was
the one for the send buffer, which stays as it is. -/
structure QueuesLine (handle : (Nat → Bool) → State → Conn → Option (State × Conn)) (c : Conn) :
    Prop where
  queues : ∀ room state, (∀ k, room k = true) → (unsent c).isSome →
    ∃ c', handle room state c = some (state, c') ∧ OneMoreLine c c'
  returns : ∀ room state next c', handle room state c = some (next, c') →
    (room 3 = false ∧ c'.toSend = -1 ∧ c'.sendBuf = c.sendBuf) ∨ OneMoreLine c c'

section Handlers
variable {room : Nat → Bool} {state next : State} {c c' : Conn}

theorem queue_cases {parts : List Bytes} (hne : parts ≠ []) (hparts : ∀ part ∈ parts, NulFree part)
    (h : queue room state parts c = some (next, c')) :
    (room parts.length = false ∧ c'.toSend = -1 ∧ c'.sendBuf = c.sendBuf) ∨
      ∃ queued, unsent c = some queued ∧ c' = sending c next (queued ++ parts.flatten) := by
  simp only [queue, Option.bind_eq_bind, Option.bind_eq_some_iff] at h
  obtain ⟨⟨comm, newLen⟩, hcomm, ⟨sendBuf, toSend⟩, hsend, h⟩ := h
  obtain ⟨rfl, rfl⟩ : state = next ∧ { c with state, sendBuf, toSend } = c' := by simpa using h
  cases hroom : room parts.length with
  | false =>
    rw [hroom] at hsend
    obtain ⟨rfl, rfl⟩ : c.sendBuf = sendBuf ∧ -1 = toSend := by
      simpa [concatDynamicStrings] using hsend
    exact .inl ⟨rfl, rfl, rfl⟩
  | true =>
    rw [hroom] at hsend
    obtain ⟨queued, hqueued, hright⟩ := Option.bind_eq_some_iff.mp hsend
    obtain ⟨right, hright, -⟩ := Option.bind_eq_some_iff.mp hright
    -- the length can be copied, so no allocation before failed
    have hlen : 0 ≤ newLen := by
      rw [show newLen = right.length from memcpyFrom_eq hright]
      exact Int.natCast_nonneg _
    have hwhole := (concatParts_room hcomm hlen).1
    rw [concatParts_new (fun _ => rfl) hne hparts] at hwhole
    obtain ⟨rfl, rfl⟩ := Prod.mk.inj (Option.some.inj hwhole)
    rw [concatDynamicStrings_eq hqueued (memcpyFrom_self parts.flatten)] at hsend
    obtain ⟨rfl, rfl⟩ := Prod.mk.inj (Option.some.inj hsend)
    exact .inr ⟨queued, hqueued, rfl⟩

theorem line_of_parts {verb address : Bytes} (hverb : lf ∉ verb) (haddress : lf ∉ address) :
    [verb, address, ascii ">\r\n"].flatten.count lf = 1 ∧
      [verb, address, ascii ">\r\n"].flatten.getLast? = some lf := by
  constructor
  · have hcount : (ascii ">\r\n").count lf = 1 := by decide
    simp [hcount, List.count_eq_zero_of_not_mem hverb, List.count_eq_zero_of_not_mem haddress]
  · have hlast : (ascii ">\r\n").getLast? = some lf := by decide
    have hne : ascii ">\r\n" ≠ [] := by decide
    simp only [List.flatten_cons, List.flatten_nil, List.append_nil]
    rw [List.getLast?_append_of_ne_nil _ (by simp [hne]), List.getLast?_append_of_ne_nil _ hne,
      hlast]

theorem queue_line {verb address : Bytes} (hverb : NulFree verb ∧ lf ∉ verb)
    (haddress : NulFree address ∧ lf ∉ address) :
    QueuesLine (fun room state => queue room state [verb, address, ascii ">\r\n"]) c := by
  have hclose : NulFree (ascii ">\r\n") := by decide
  have hparts : ∀ part ∈ [verb, address, ascii ">\r\n"], NulFree part := by
    simp [hverb.1, haddress.1, hclose]
  have hline := line_of_parts hverb.2 haddress.2
  constructor
  · intro room state hroom hsome
    obtain ⟨queued, hqueued⟩ := Option.isSome_iff_exists.mp hsome
    exact ⟨_, queue_text hroom (by simp) hparts hqueued state, queued, _, hqueued, rfl,
      unsent_stored (unsent_sending _ _ _), hline⟩
  · intro room state next c' h
    refine (queue_cases (by simp) hparts h).imp_right fun ⟨queued, hqueued, hsending⟩ => ?_
    subst hsending
    exact ⟨queued, _, hqueued, rfl, unsent_stored (unsent_sending _ _ _), hline⟩

theorem handleEhlo_line (hfree : NulFree c.mailFrom) (hlf : lf ∉ c.mailFrom) :
    QueuesLine handleEhlo c :=
  have h := @queue_line c (ascii "MAIL FROM:<") c.mailFrom ⟨by decide, by decide⟩ ⟨hfree, hlf⟩
  ⟨h.queues, h.returns⟩

theorem handleMf_line (hfree : NulFree c.mailTo) (hlf : lf ∉ c.mailTo) : QueuesLine handleMf c :=
  have h := @queue_line c (ascii "RCPT TO:<") c.mailTo ⟨by decide, by decide⟩ ⟨hfree, hlf⟩
  ⟨h.queues, h.returns⟩

end Handlers

section Headers
variable {s : MailFile.Surroundings} {file : Bytes} {lines : Slots} {strNum : Nat}

theorem readFile_line (hread : readFile s (some file) = some (some (lines, strNum))) {i : Nat}
    (hi : i < strNum) :
    ∃ chunk, lines i = .stored (cstr chunk) ∧ lf ∉ chunk.dropLast ∧ chunk.length < maxStrLength := by
  obtain ⟨chunks, hchunks, rfl, rfl⟩ := readFile_spec hread
  have hmem : chunks[i] ∈ chunks := List.getElem_mem hi
  refine ⟨chunks[i], by simp [withChunks, hi], hchunks.lf_notMem _ hmem, ?_⟩
  exact Nat.lt_of_le_pred (by decide) (hchunks.length_le _ hmem)

theorem lf_notMem_addressOf {chunk address : Bytes} (hlf : lf ∉ chunk.dropLast)
    (h : addressOf (cstr chunk) = some address) : lf ∉ address := by
  obtain ⟨first, -, h⟩ := Option.bind_eq_some_iff.mp h
  obtain ⟨last, hlast, h⟩ := Option.bind_eq_some_iff.mp h
  split at h
  · obtain rfl := Option.some.inj h
    have hbound := strrchr_lt hlast
    rw [strlen, cstr_cstr] at hbound
    have hsub : (((cstr (cstr chunk)).drop (first + 1)).take (last - first - 1)).Sublist
        chunk.dropLast := by
      have hpre : cstr chunk <+: chunk := List.takeWhile_prefix _
      have htake : (cstr chunk).take last <+: chunk.dropLast := by
        have hle := hpre.length_le
        rw [List.dropLast_eq_take, List.prefix_take_iff, List.length_take]
        exact ⟨(List.take_prefix ..).trans hpre, by omega⟩
      rw [cstr_cstr, Nat.sub_sub, ← List.drop_take]
      exact (List.drop_sublist ..).trans htake.sublist
    exact fun hmem => hlf (hsub.subset hmem)
  · cases h

/-- An address that is cut out of a line with its brackets in order makes one
line of each command, whatever else the line holds. -/
theorem header_queues_one_line (hread : readFile s (some file) = some (some (lines, strNum)))
    {i : Nat} (hi : i < strNum) {raw : Bytes} (hraw : (lines i).read = some raw) {first last : Nat}
    (hfirst : strchr raw 60 = some first) (hlast : strrchr raw 62 = some last)
    (horder : first < last) {cut : Cut} {address : Bytes}
    (hcut : cutAddressesFromMailFormat cut raw = some (some address)) :
    lf ∉ address ∧ ∀ c : Conn, (c.mailFrom = address → QueuesLine handleEhlo c) ∧
      (c.mailTo = address → QueuesLine handleMf c) := by
  obtain ⟨chunk, hstored, hlf, hlength⟩ := readFile_line hread hi
  obtain rfl : cstr chunk = raw := by simpa [hstored, Slot.read] using hraw
  have haddress : addressOf (cstr chunk) =
      some (((cstr (cstr chunk)).drop (first + 1)).take (last - first - 1)) := by
    simp [addressOf, hfirst, hlast, horder]
  have hshort : (cstr chunk).length < 2 ^ 31 := by
    have hcstr : (cstr chunk).length ≤ chunk.length := (List.takeWhile_sublist _).length_le
    have hmax : maxStrLength < 2 ^ 31 := by decide
    omega
  obtain rfl := cutAddresses_eq (cstr_nulFree chunk) hshort haddress hcut
  have hnone := lf_notMem_addressOf hlf haddress
  have hfree := (cstr_nulFree _).of_sublist (addressOf_sublist haddress)
  refine ⟨hnone, fun c => ⟨fun hfrom => ?_, fun hto => ?_⟩⟩
  · exact handleEhlo_line (hfrom ▸ hfree) (hfrom ▸ hnone)
  · exact handleMf_line (hto ▸ hfree) (hto ▸ hnone)

/-- The address of a header with nested brackets, text behind them and a line feed. -/
def nestedConn : Conn :=
  { newConn with mailFrom := ascii "<a@b>, x", mailTo := ascii "<a@b>, x" }

theorem header_queues_one_line_nested :
    (∃ c', handleEhlo (fun _ => true) .sEhlo nestedConn = some (.sEhlo, c') ∧
      OneMoreLine nestedConn c') ∧
    ∃ c', handleMf (fun _ => true) .sMf nestedConn = some (.sMf, c') ∧ OneMoreLine nestedConn c' := by
  have hrun : ((readFile roomyFile (some (ascii "From: <<a@b>, x> y\n\nhi\n"))).bind fun r =>
      r.bind fun (lines, strNum) => (lines 0).read.map fun raw =>
        decide (0 < strNum ∧ strchr raw 60 = some 6 ∧ strrchr raw 62 = some 15 ∧
          cutAddressesFromMailFormat ⟨true, 4096⟩ raw = some (some (ascii "<a@b>, x")))) =
      some true := by decide
  obtain ⟨r, hread, hrun⟩ := Option.bind_eq_some_iff.mp hrun
  obtain ⟨⟨lines, strNum⟩, rfl, hrun⟩ := Option.bind_eq_some_iff.mp hrun
  obtain ⟨raw, hraw, hfacts⟩ := Option.map_eq_some_iff.mp hrun
  obtain ⟨hi, hfirst, hlast, hcut⟩ := of_decide_eq_true hfacts
  have hlines := (header_queues_one_line hread hi hraw hfirst hlast (by decide) hcut).2 nestedConn
  exact ⟨(hlines.1 rfl).queues _ _ (fun _ => rfl) rfl, (hlines.2 rfl).queues _ _ (fun _ => rfl) rfl⟩

end Headers

end SmtpMta.Client.CommandLines
