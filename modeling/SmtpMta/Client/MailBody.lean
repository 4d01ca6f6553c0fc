import SmtpMta.Client.MailParser
import SmtpMta.Client.Queue

/-! The body of a mail file on its way through `read_file`, `parse_mail` and
`concat_mail_text`. -/
namespace SmtpMta.Client.MailBody
open Library.CString Library.Stdio Common.SharedStrings Fsm MailFile MailParser

theorem isBlank_iff (line : Bytes) :
    isBlank line = true ↔ cstr line = [lf] ∨ cstr line = [cr, lf] := by
  have hlf : cstr (ascii "\n") = [lf] := by decide
  have hcrlf : cstr (ascii "\r\n") = [cr, lf] := by decide
  simp [isBlank, strcmp_eq_zero, hlf, hcrlf]

theorem scanHeader_count {lines : Slots} {bound sn m toCount : Nat} {toRaws toRaws' : Slots}
    (h : scanHeader lines bound sn toRaws = some (toCount, toRaws'))
    (hheader : ∀ k < m, ∃ line, (lines (sn + k)).read = some line ∧ isBlank line = false)
    (hblank : ∃ line, (lines (sn + m)).read = some line ∧ isBlank line = true) :
    toCount = sn + m - 1 := by
  induction m generalizing bound sn toRaws with
  | zero =>
    obtain ⟨line, hread, hline⟩ := hblank
    cases bound with
    | zero => simp [scanHeader] at h
    | succ bound =>
      rw [Nat.add_zero] at hread
      simp only [scanHeader, hread, hline, if_true, Option.bind_eq_bind, Option.bind_some,
        Option.some.injEq, Prod.mk.injEq] at h
      omega
  | succ m ih =>
    cases bound with
    | zero => simp [scanHeader] at h
    | succ bound =>
      obtain ⟨line, hread, hline⟩ := hheader 0 (by omega)
      rw [Nat.add_zero] at hread
      simp only [scanHeader, hread, hline, Option.bind_eq_bind, Option.bind_some] at h
      split at h
      · simp_all
      · split at h
        · simp at h
        · have hnext (k : Nat) : sn + 1 + k = sn + (k + 1) := by omega
          have := ih h (fun k hk => by rw [hnext]; exact hheader (k + 1) (by omega))
            (by rw [hnext]; exact hblank)
          omega

theorem copyText_spec {s : MailParser.Surroundings} {lines : Slots} {toCount bound i : Nat}
    {texts : List Bytes} (h : copyText s lines toCount bound i = some (.inl texts)) :
    texts.map some = (List.range' (i + toCount + 2) bound).map fun j => (lines j).read := by
  induction bound generalizing i texts with
  | zero =>
    obtain rfl : [] = texts := by simpa [copyText] using h
    rfl
  | succ bound ih =>
    rw [copyText] at h
    split at h
    · obtain ⟨line, hread, h⟩ := Option.bind_eq_some_iff.mp h
      split at h
      · simp at h
      · obtain ⟨result, hrest, h⟩ := Option.bind_eq_some_iff.mp h
        cases result with
        | inr made => simp at h
        | inl rest =>
          obtain rfl : line :: rest = texts := by simpa using h
          have hnext : i + 1 + toCount + 2 = i + toCount + 2 + 1 := by omega
          rw [List.map_cons, ih hrest, List.range'_succ, List.map_cons, hread, hnext]
    · simp at h

theorem finishMail_mail {s : MailParser.Surroundings} {lines : Slots} {strNum toCount : Nat}
    {isHomeMode : Int} {mailFrom : Bytes} {kept : Kept} {mail : Mail} {freed : List Freed}
    (h : finishMail s lines strNum isHomeMode mailFrom toCount kept = some (some mail, freed)) :
    getRecieversFromHosts s kept.hosts isHomeMode = some (.inl (mail.hosts, mail.ports)) ∧
      copyText s lines toCount (strNum - toCount - 2) 0 = some (.inl mail.mailText) ∧
        mail.textLen = (strNum : Int) - toCount - 2 ∧ mail.recievers = kept.tos ∧
          mail.tosCount = kept.rhc := by
  unfold finishMail at h
  split at h
  · obtain ⟨resolved, hresolved, h⟩ := Option.bind_eq_some_iff.mp h
    cases resolved with
    | inr addrs =>
      obtain ⟨tos, -, h⟩ := Option.bind_eq_some_iff.mp h
      obtain ⟨hosts, -, h⟩ := Option.bind_eq_some_iff.mp h
      simp at h
    | inl addrs =>
      dsimp only at h
      split at h
      · obtain ⟨copied, hcopy, h⟩ := Option.bind_eq_some_iff.mp h
        cases copied with
        | inl mailText =>
          obtain ⟨hosts, -, h⟩ := Option.bind_eq_some_iff.mp h
          obtain ⟨hmail, -⟩ := Prod.mk.inj (Option.some.inj h)
          obtain rfl := Option.some.inj hmail
          exact ⟨hresolved, hcopy, rfl, rfl, rfl⟩
        | inr made =>
          obtain ⟨tos, -, h⟩ := Option.bind_eq_some_iff.mp h
          obtain ⟨hosts, -, h⟩ := Option.bind_eq_some_iff.mp h
          obtain ⟨freed, -, h⟩ := Option.bind_eq_some_iff.mp h
          simp at h
      · obtain ⟨tos, -, h⟩ := Option.bind_eq_some_iff.mp h
        obtain ⟨hosts, -, h⟩ := Option.bind_eq_some_iff.mp h
        obtain ⟨freed, -, h⟩ := Option.bind_eq_some_iff.mp h
        simp at h
  · obtain ⟨tos, -, h⟩ := Option.bind_eq_some_iff.mp h
    obtain ⟨hosts, -, h⟩ := Option.bind_eq_some_iff.mp h
    simp at h

theorem parseMail_mail {s : MailParser.Surroundings} {lines : Slots} {strNum : Nat}
    {isHomeMode : Int} {mail : Mail} {freed : List Freed}
    (h : parseMail s lines strNum isHomeMode = some (some mail, freed)) :
    ∃ toCount toRaws kept kept', scanHeader lines (maxToCount + 1) 1
        (memsetSlots maxToCount s.toRaws) = some (toCount, toRaws) ∧
      keepRecievers s isHomeMode toRaws maxToCount 0 kept = some (.inl kept') ∧
      copyText s lines toCount (strNum - toCount - 2) 0 = some (.inl mail.mailText) ∧
      mail.textLen = (strNum : Int) - toCount - 2 ∧ mail.recievers = kept'.tos ∧
        mail.tosCount = kept'.rhc := by
  unfold parseMail at h
  split at h
  · simp at h
  · obtain ⟨⟨toCount, toRaws⟩, hscan, h⟩ := Option.bind_eq_some_iff.mp h
    dsimp only at h
    split at h
    · simp at h
    · split at h
      · simp at h
      · obtain ⟨fromRaw, -, h⟩ := Option.bind_eq_some_iff.mp h
        obtain ⟨mailFrom, -, h⟩ := Option.bind_eq_some_iff.mp h
        cases mailFrom with
        | none => simp at h
        | some mailFrom =>
          obtain ⟨result, hkeep, h⟩ := Option.bind_eq_some_iff.mp h
          cases result with
          | inr freed => simp at h
          | inl kept => exact ⟨toCount, toRaws, _, kept, hscan, hkeep, (finishMail_mail h).2⟩

structure HeaderText (text : Bytes) : Prop where
  line : lf ∉ text
  fits : text.length < 254

/-- A header that is not over yet. -/
structure RecipientText (text : Bytes) : Prop extends HeaderText text where
  ne_nil : text ≠ []
  ne_cr : text ≠ [cr]

def mailFile (sender : Bytes) (recipients : List Bytes) (blank body : Bytes) : Bytes :=
  ((sender :: recipients).map (· ++ [lf])).flatten ++ (blank ++ lf :: body)

theorem mailFile_chunks {sender blank body : Bytes} {recipients chunks : List Bytes}
    (hsender : HeaderText sender) (hrecipients : ∀ text ∈ recipients, HeaderText text)
    (hblank : blank = [] ∨ blank = [cr])
    (h : Chunked maxStrLength (mailFile sender recipients blank body) chunks) :
    ∃ rest, chunks = (sender :: recipients).map (· ++ [lf]) ++ (blank ++ [lf]) :: rest ∧
      rest.flatten = body := by
  have htexts : ∀ text ∈ sender :: recipients, HeaderText text :=
    List.forall_mem_cons.mpr ⟨hsender, hrecipients⟩
  obtain ⟨rest, rfl, hrest⟩ := h.append_lines (fun text ht => (htexts text ht).line)
    fun text ht => (htexts text ht).fits
  have hblank_line : lf ∉ blank ∧ blank.length < maxStrLength - 1 := by
    rcases hblank with rfl | rfl <;> decide
  obtain ⟨bodyChunks, rfl, hbody⟩ := hrest.cons_line hblank_line.1 hblank_line.2
  exact ⟨bodyChunks, rfl, hbody.flatten⟩

theorem read_withChunks {arr : Slots} {chunks : List Bytes} {i : Nat} {chunk : Bytes}
    (h : chunks[i]? = some chunk) (hfree : NulFree chunk) :
    (withChunks arr 0 chunks i).read = some chunk := by
  simp [withChunks, h, Slot.read, cstr_of_nulFree hfree]

theorem isBlank_recipient {text : Bytes} (h : RecipientText text) (hfree : NulFree (text ++ [lf])) :
    isBlank (text ++ [lf]) = false := by
  rw [Bool.eq_false_iff, ne_eq, isBlank_iff, cstr_of_nulFree hfree]
  rintro (hlf | hcrlf)
  · exact h.ne_nil (by simpa using hlf)
  · exact h.ne_cr (List.append_cancel_right (show text ++ [lf] = [cr] ++ [lf] from hcrlf))

theorem parseMail_body {t : MailParser.Surroundings} {arr : Slots} {sender blank body : Bytes}
    {recipients chunks : List Bytes} {isHomeMode : Int} {mail : Mail} {freed : List Freed}
    (hsender : HeaderText sender) (hrecipients : ∀ text ∈ recipients, RecipientText text)
    (hblank : blank = [] ∨ blank = [cr])
    (hfree : NulFree (mailFile sender recipients blank body))
    (hchunks : Chunked maxStrLength (mailFile sender recipients blank body) chunks)
    (hparse : parseMail t (withChunks arr 0 chunks) chunks.length isHomeMode =
      some (some mail, freed)) :
    mail.mailText.flatten = body ∧ mail.textLen = mail.mailText.length := by
  have hchunk_free : ∀ chunk ∈ chunks, NulFree chunk := by
    rw [← hchunks.flatten] at hfree
    exact nulFree_flatten.mp hfree
  obtain ⟨rest, hsplit, hbody⟩ :=
    mailFile_chunks hsender (fun text ht => (hrecipients text ht).toHeaderText) hblank hchunks
  obtain ⟨toCount, toRaws, -, -, hscan, -, hcopy, htextLen, -⟩ := parseMail_mail hparse
  have hread {i : Nat} {chunk : Bytes} (h : chunks[i]? = some chunk) :
      (withChunks arr 0 chunks i).read = some chunk :=
    read_withChunks h (hchunk_free chunk (List.mem_of_getElem? h))
  -- the scan stops at the blank line
  have hcount : toCount = recipients.length := by
    have hscanned := scanHeader_count hscan (m := recipients.length) (fun k hk => ?_) ?_
    · omega
    · have hget : chunks[1 + k]? = some (recipients[k] ++ [lf]) := by
        rw [hsplit, Nat.add_comm]
        simp [List.getElem?_append, hk]
      refine ⟨_, hread hget, isBlank_recipient (hrecipients _ (List.getElem_mem hk)) ?_⟩
      exact hchunk_free _ (List.mem_of_getElem? hget)
    · have hget : chunks[1 + recipients.length]? = some (blank ++ [lf]) := by
        rw [hsplit, Nat.add_comm]
        simp
      refine ⟨_, hread hget, (isBlank_iff _).mpr ?_⟩
      rw [cstr_of_nulFree (hchunk_free _ (List.mem_of_getElem? hget))]
      rcases hblank with rfl | rfl
      · exact .inl rfl
      · exact .inr rfl
  subst hcount
  have hlength : chunks.length = recipients.length + 2 + rest.length := by
    rw [hsplit]
    simp
    omega
  have htext : mail.mailText.map some = rest.map some := by
    rw [copyText_spec hcopy, hlength]
    apply List.ext_getElem
    · simp
      omega
    · intro k hk hk'
      rw [List.length_map] at hk'
      have hget : chunks[recipients.length + 2 + k]? = some rest[k] := by
        have hlast : recipients.length + 2 + k - ((sender :: recipients).map (· ++ [lf])).length =
            k + 1 := by
          simp
          omega
        rw [hsplit, List.getElem?_append_right (by simp; omega), hlast]
        simp [hk']
      have hindex : 0 + recipients.length + 2 + k = recipients.length + 2 + k := by omega
      rw [List.getElem_map, List.getElem_range', List.getElem_map, Nat.one_mul, hindex, hread hget]
  have hrest : mail.mailText = rest :=
    List.map_injective_iff.mpr (fun _ _ => Option.some.inj) htext
  rw [hrest, htextLen, hlength]
  exact ⟨hbody, by omega⟩

theorem concatParts_room {room : Nat → Bool} {k : Nat} {comm text : Option Bytes}
    {len newLen : Int} {parts : List Bytes}
    (h : concatParts room k (comm, len) parts = some (text, newLen)) (hlen : 0 ≤ newLen) :
    concatParts (fun _ => true) k (comm, len) parts = some (text, newLen) ∧ 0 ≤ len := by
  induction parts generalizing k comm len with
  | nil =>
    obtain ⟨rfl, rfl⟩ := Prod.mk.inj (Option.some.inj h)
    exact ⟨rfl, hlen⟩
  | cons part parts ih =>
    obtain ⟨⟨comm', len'⟩, hconcat, h⟩ := Option.bind_eq_some_iff.mp h
    obtain ⟨hparts, hlen'⟩ := ih h
    cases hroom : room k with
    | false =>
      obtain ⟨-, rfl⟩ : comm = comm' ∧ -1 = len' := by
        simpa [concatDynamicStrings, hroom] using hconcat
      simp at hlen'
    | true =>
      rw [hroom] at hconcat
      refine ⟨by simp [concatParts, hconcat, hparts], ?_⟩
      unfold concatDynamicStrings at hconcat
      obtain ⟨left, hleft, -⟩ := Option.bind_eq_some_iff.mp hconcat
      rw [memcpyFrom_eq hleft]
      exact Int.natCast_nonneg _

/-- Whenever `parse_mail` returns a mail for what `read_file` read, the text that
`concat_mail_text` puts together from it is the body of the file. -/
theorem body_survives {s : MailFile.Surroundings} {t : MailParser.Surroundings}
    {sender blank body : Bytes} {recipients : List Bytes} {lines : Slots} {strNum : Nat}
    {isHomeMode : Int} {mail : Mail} {freed : List Freed}
    (hsender : HeaderText sender) (hrecipients : ∀ text ∈ recipients, RecipientText text)
    (hblank : blank = [] ∨ blank = [cr]) (hbody : body ≠ [])
    (hfree : NulFree (mailFile sender recipients blank body))
    (hread : readFile s (some (mailFile sender recipients blank body)) = some (some (lines, strNum)))
    (hparse : parseMail t lines strNum isHomeMode = some (some mail, freed)) :
    mail.textLen = mail.mailText.length ∧
      concatParts (fun _ => true) 0 (none, 0) mail.mailText = some (some body, (body.length : Int)) ∧
      ∀ room text newLen, concatParts room 0 (none, 0) mail.mailText = some (text, newLen) →
        0 ≤ newLen → text.map (List.take newLen.toNat) = some body := by
  obtain ⟨chunks, hchunks, rfl, rfl⟩ := readFile_spec hread
  obtain ⟨hflatten, hlen⟩ := parseMail_body hsender hrecipients hblank hfree hchunks hparse
  have htexts : ∀ line ∈ mail.mailText, NulFree line := by
    rw [mailFile, nulFree_append, nulFree_append, nulFree_cons] at hfree
    exact nulFree_flatten.mp (hflatten ▸ hfree.2.2.2)
  have hwhole : concatParts (fun _ => true) 0 (none, 0) mail.mailText =
      some (some body, (body.length : Int)) := by
    rw [Queue.concatParts_new (fun _ => rfl) (ne_nil_of_flatten (hflatten ▸ hbody)) htexts,
      hflatten]
  refine ⟨hlen, hwhole, fun room text newLen hconcat hnonneg => ?_⟩
  rw [(concatParts_room hconcat hnonneg).1] at hwhole
  obtain ⟨rfl, rfl⟩ := Prod.mk.inj (Option.some.inj hwhole)
  simp

def roomyFile : MailFile.Surroundings :=
  { room := true, chunkRoom := fun _ => true, memory := fun _ => .null, closes := true }

def roomyParser : MailParser.Surroundings :=
  let cut : Cut := ⟨true, 4096⟩
  let lookup : Lookup :=
    { mx := some (ascii "d.com. 5M IN MX 10 mx.d.com."), mxRoom := true,
      a := fun _ => some (ascii "mx.d.com. 5M IN A 10.0.0.1"), aRoom := true, room := true }
  { toRaws := fun _ => .null, hosts := fun _ => .null, tos := fun _ => .null,
    addrs := fun _ => .null, ports := fun _ => 0, mailRoom := true, tosRoom := true, fromCut := cut,
    toCut := fun _ => cut, hostCut := fun _ => cut, portsRoom := true, addrsRoom := true,
    lookup := fun _ => lookup, textRoom := true, lineRoom := fun _ => true }

/-- A body with a blank line, a line that is too long for one chunk, and no line
feed at its end. -/
def longBody : Bytes :=
  lf :: (List.replicate 300 97 ++ lf :: ascii "end")

theorem body_survives_long :
    ∃ lines strNum mail freed,
      readFile roomyFile (some (mailFile (ascii "From: <a@b.com>")
        [ascii "To: <c@d.com>", ascii "To: <e@f.com>\r"] [cr] longBody)) =
          some (some (lines, strNum)) ∧
      parseMail roomyParser lines strNum 1 = some (some mail, freed) ∧
      concatParts (fun _ => true) 0 (none, 0) mail.mailText =
        some (some longBody, (longBody.length : Int)) := by
  have hrun : (((readFile roomyFile (some (mailFile (ascii "From: <a@b.com>")
      [ascii "To: <c@d.com>", ascii "To: <e@f.com>\r"] [cr] longBody))).bind id).bind fun read =>
        (parseMail roomyParser read.1 read.2 1).bind fun parsed => parsed.1).isSome = true := by
    decide +kernel
  obtain ⟨mail, hmail⟩ := Option.isSome_iff_exists.mp hrun
  obtain ⟨⟨lines, strNum⟩, hread, hmail⟩ := Option.bind_eq_some_iff.mp hmail
  obtain ⟨result, hread, hresult⟩ := Option.bind_eq_some_iff.mp hread
  obtain ⟨⟨parsed, freed⟩, hparse, rfl⟩ := Option.bind_eq_some_iff.mp hmail
  obtain rfl : result = some (lines, strNum) := hresult
  refine ⟨lines, strNum, mail, freed, hread, hparse, ?_⟩
  exact (body_survives ⟨by decide, by decide⟩
    (List.forall_mem_cons.mpr ⟨⟨⟨by decide, by decide⟩, by decide, by decide⟩,
      List.forall_mem_cons.mpr ⟨⟨⟨by decide, by decide⟩, by decide, by decide⟩, by simp⟩⟩)
    (.inr rfl) (by decide) (by decide +kernel) hread hparse).2.1

end SmtpMta.Client.MailBody
