import SmtpMta.Server.Release
import SmtpMta.Server.Replies
import SmtpMta.Server.Sharing

/-! The character arrays of a session. Each is made to hold one text, and can be
read as a string only if a NUL follows the text inside the array. -/
namespace SmtpMta.Server.StoredTexts
open Library.CString Library.Crlf Library.Regex Library.Ring Common.ListHead Common.StringUtils Smtp
  ReadLoop Lines Protocol SessionInvariant Reading Sharing Release Replies

/-- The array holds the text and a NUL behind it. -/
def Ended (block text : Bytes) : Prop := ∃ rest, block = text ++ nul :: rest

theorem ended_cstr {block : Bytes} (h : nul ∈ block) : Ended block (cstr block) := by
  obtain ⟨text, rest, rfl, hfree⟩ := List.eq_append_cons_of_mem h
  exact ⟨rest, by rw [cstr_append_nul hfree]⟩

theorem nul_mem_fill (data : Bytes) (len : Nat) :
    nul ∈ strncpy (List.replicate (len + 1) nul) data len := by
  simp [strncpy]

/-- `list_foreach` over lines, with the array of each. -/
def foreachBlock (mem : Memory) (lines : Option Addr) : Option (List Bytes) :=
  match lines with
  | none => some []
  | some head => do
      let members ← listForeach mem.lists head mem.bound head
      members.mapM mem.text

/-- Every array of the session holds its text of the dialogue, and ends it. -/
structure Ends (w : World) (d : Dialogue) : Prop where
  buffer : ∃ blocks, foreachBlock w.mem w.session.buffer = some blocks ∧
    List.Forall₂ Ended blocks d.held
  recipients : ∃ blocks, foreachBlock w.mem w.session.envelope.recipients = some blocks ∧
    List.Forall₂ Ended blocks d.recipients
  data : ∃ blocks, foreachBlock w.mem w.session.envelope.data = some blocks ∧
    List.Forall₂ Ended blocks d.lines
  sender : ∀ block, w.session.envelope.mailFrom = some block →
    ∃ text, d.sender = some text ∧ Ended block text

def Terminated (mem : Memory) (members : List Addr) : Prop :=
  ∀ a ∈ members, ∀ block, mem.text a = some block → nul ∈ block

theorem Holds.foreachBlock {mem : Memory} {lines : Option Addr} {members : List Addr}
    {texts : List Bytes} (h : Holds mem lines members texts) (hbound : members.length ≤ mem.brk)
    (hnul : Terminated mem members) :
    ∃ blocks, StoredTexts.foreachBlock mem lines = some blocks ∧ List.Forall₂ Ended blocks texts := by
  have hblocks : ∃ blocks, members.map mem.text = blocks.map some ∧
      List.Forall₂ Ended blocks texts := by
    have htexts := h.texts
    clear h hbound
    induction members generalizing texts with
    | nil =>
      obtain rfl : texts = [] := List.map_eq_nil_iff.mp htexts.symm
      exact ⟨[], rfl, .nil⟩
    | cons a members ih =>
      cases texts with
      | nil => simp at htexts
      | cons text texts =>
        obtain ⟨hhead, htail⟩ := List.cons.inj htexts
        obtain ⟨block, hblock, rfl⟩ := Option.map_eq_some_iff.mp hhead
        obtain ⟨blocks, hmap, hall⟩ := ih (fun a ha => hnul a (by simp [ha])) htail
        exact ⟨block :: blocks, by simp [hblock, hmap],
          .cons (ended_cstr (hnul a (by simp) block hblock)) hall⟩
  obtain ⟨blocks, hmap, hall⟩ := hblocks
  refine ⟨blocks, ?_, hall⟩
  cases lines with
  | none =>
    obtain ⟨rfl, rfl⟩ := h.nil_of_none
    cases hall
    rfl
  | some head =>
    obtain ⟨rest, rfl⟩ := h.cons_of_some
    have hlt : rest.length < mem.bound := by
      rw [List.length_cons] at hbound
      exact Nat.lt_succ_of_lt hbound
    have hwalk := listForeach_ring (h.ring (by simp)) hlt
    simp only [StoredTexts.foreachBlock, hwalk, Option.bind_eq_bind, Option.bind_some]
    exact mapM_eq_some hmap

theorem Owns.unique {w : World} {d d' : Dialogue} {ms : List Addr} (h : Owns w d ms)
    (h' : Represents w d') : d = d' := by
  obtain ⟨bs, rs, ls, hfits⟩ := h'
  have hcontents := (Owns.contents_eq h).symm.trans (Owns.contents_eq hfits.owns)
  cases d
  cases d'
  simp only [Contents.mk.injEq, Option.some.injEq] at hcontents
  obtain ⟨hheld, -, hstate, hrecipients, hlines, hsender⟩ := hcontents
  rw [hheld, hstate, hsender, hrecipients, hlines]

theorem Owns.ends_iff {w : World} {d : Dialogue} {ms : List Addr} (h : Owns w d ms)
    (hnul : Terminated w.mem ms) : Ends w d ↔ w.session.envelope.mailFrom = none := by
  obtain ⟨bs, rs, ls, rfl, hfits⟩ := h
  obtain ⟨hbs, hrs, hls⟩ := hfits.length_le
  constructor
  · intro hends
    cases hsender : w.session.envelope.mailFrom with
    | none => rfl
    | some block =>
      obtain ⟨text, htext, rest, hblock⟩ := hends.sender block hsender
      obtain rfl : block = text := Option.some.inj (hsender.symm.trans (hfits.sender.trans htext))
      have hlength := congrArg List.length hblock
      rw [List.length_append, List.length_cons] at hlength
      omega
  · intro hnone
    exact ⟨Holds.foreachBlock hfits.buffer hbs fun a ha => hnul a (by simp [ha]),
      Holds.foreachBlock hfits.recipients hrs fun a ha => hnul a (by simp [ha]),
      Holds.foreachBlock hfits.data hls fun a ha => hnul a (by simp [ha]),
      fun block hblock => by simp [hnone] at hblock⟩

/-- What a step does to the arrays of lines: those that are there stay, and a new
one has a NUL. -/
def TextsKept (mem mem' : Memory) : Prop :=
  ∀ a block, mem'.text a = some block → mem.text a = some block ∨ nul ∈ block

theorem TextsKept.of_eq {mem mem' : Memory} (h : mem'.text = mem.text) : TextsKept mem mem' :=
  fun _ _ hblock => .inl (h ▸ hblock)

theorem TextsKept.of_malloc {mem mem' : Memory} (h : TextsKept mem.malloc.1 mem') :
    TextsKept mem mem' := h

theorem TextsKept.trans {mem₁ mem₂ mem₃ : Memory} (h : TextsKept mem₁ mem₂)
    (h' : TextsKept mem₂ mem₃) : TextsKept mem₁ mem₃ :=
  fun a block hblock => (h' a block hblock).elim (h a block) .inr

section Texts
variable {mem mem' : Memory} {w w' : World} {line : Addr} {lines lines' : Option Addr} {len : Nat}
  {command : Bytes} {ret ret' : Int}

theorem freeLine_texts (h : freeLine mem line = some mem') : TextsKept mem mem' := by
  obtain ⟨links, -, rfl⟩ := Option.map_eq_some_iff.mp h
  intro a block hblock
  by_cases ha : a = line
  · simp [ha] at hblock
  · exact .inl (by simpa [Function.update_of_ne ha] using hblock)

theorem freeLines_texts {bound : Nat} {head next : Addr}
    (h : freeLines line bound mem head next = some mem') : TextsKept mem mem' := by
  induction bound generalizing mem head next with
  | zero => cases h
  | succ bound ih =>
    obtain ⟨mem₁, hfree, h⟩ := Option.bind_eq_some_iff.mp h
    split at h
    · obtain ⟨after, -, h⟩ := Option.bind_eq_some_iff.mp h
      exact (freeLine_texts hfree).trans (ih h)
    · exact Option.some.inj h ▸ freeLine_texts hfree

theorem freeIfAny_texts (h : freeIfAny mem lines = some mem') : TextsKept mem mem' := by
  cases lines with
  | none => exact Option.some.inj h ▸ .of_eq rfl
  | some line =>
    obtain ⟨next, -, h⟩ := Option.bind_eq_some_iff.mp h
    exact freeLines_texts h

theorem bufferReset_texts (h : bufferReset w = some w') : TextsKept w.mem w'.mem := by
  obtain ⟨mem, hfree, h⟩ := Option.bind_eq_some_iff.mp h
  exact Option.some.inj h ▸ freeIfAny_texts hfree

theorem sessionReset_texts {state : SmtpState} (h : smtpSessionReset w state = some w') :
    TextsKept w.mem w'.mem := by
  obtain ⟨w₁, hreset, h⟩ := Option.bind_eq_some_iff.mp h
  obtain ⟨mem₂, hfree, h⟩ := Option.bind_eq_some_iff.mp h
  obtain ⟨mem₁, hfree₁, hfree₂⟩ := Option.bind_eq_some_iff.mp hfree
  have henvelope := (freeIfAny_texts hfree₁).trans (freeIfAny_texts hfree₂)
  exact Option.some.inj h ▸ (bufferReset_texts hreset).trans henvelope

theorem fillLine_texts {data : Bytes} (h : fillLine mem line data len = some mem') :
    TextsKept mem mem' := by
  obtain ⟨lists, -, h⟩ := Option.bind_eq_some_iff.mp h
  obtain rfl := Option.some.inj h
  intro a block hblock
  by_cases ha : a = line
  · have hfill : strncpy (List.replicate (len + 1) nul) data len = block := by
      simpa [ha] using hblock
    exact .inr (hfill ▸ nul_mem_fill data len)
  · exact .inl (by simpa [Function.update_of_ne ha] using hblock)

theorem storeLine_texts (h : storeLine mem lines line = some (mem', lines')) :
    TextsKept mem mem' := by
  cases lines with
  | none =>
    obtain ⟨rfl, -⟩ := Prod.mk.inj (Option.some.inj h)
    exact .of_eq rfl
  | some head =>
    obtain ⟨lists, -, h⟩ := Option.bind_eq_some_iff.mp h
    obtain ⟨rfl, -⟩ := Prod.mk.inj (Option.some.inj h)
    exact .of_eq rfl

theorem bufferLine_texts {start : Bytes} (h : bufferLine start w = some w') :
    TextsKept w.mem w'.mem := by
  unfold bufferLine Memory.malloc at h
  cases hroom : w.mem.oom w.mem.brk with
  | true =>
    simp only [hroom, if_true, Option.some.injEq] at h
    exact h ▸ .of_eq rfl
  | false =>
    simp only [hroom, Bool.false_eq_true, if_false] at h
    obtain ⟨mem, hfill, h⟩ := Option.bind_eq_some_iff.mp h
    have hline : TextsKept w.mem mem := .of_malloc (fillLine_texts hfill)
    cases hbuffer : w.session.buffer with
    | none =>
      simp only [hbuffer, Option.some.injEq] at h
      exact h ▸ hline
    | some head =>
      simp only [hbuffer] at h
      obtain ⟨lists, -, h⟩ := Option.bind_eq_some_iff.mp h
      exact Option.some.inj h ▸ hline.trans (.of_eq rfl)

theorem joinCommand_texts {start : Bytes} {fin : Nat}
    (h : joinCommand start fin w = some (command, w')) : TextsKept w.mem w'.mem := by
  obtain ⟨block, -, h⟩ := Option.bind_eq_some_iff.mp h
  obtain ⟨joined, -, h⟩ := Option.bind_eq_some_iff.mp h
  obtain ⟨command', -, h⟩ := Option.bind_eq_some_iff.mp h
  obtain ⟨-, rfl⟩ := Prod.mk.inj (Option.some.inj h)
  exact .of_eq rfl

theorem reply_texts {text : String} (h : some (ret, snprintf w len text) = some (ret', w')) :
    TextsKept w.mem w'.mem := by
  obtain ⟨-, rfl⟩ := Prod.mk.inj (Option.some.inj h)
  exact .of_eq rfl

theorem mail_texts (h : smtpMail command len w = some (ret, w')) : TextsKept w.mem w'.mem := by
  unfold smtpMail at h
  split at h
  · exact reply_texts h
  split at h
  · exact reply_texts h
  obtain ⟨block, -, h⟩ := Option.bind_eq_some_iff.mp h
  exact (Prod.mk.inj (Option.some.inj h)).2 ▸ .of_eq rfl

theorem rcpt_texts (h : smtpRcpt command len w = some (ret, w')) : TextsKept w.mem w'.mem := by
  unfold smtpRcpt at h
  split at h
  · exact reply_texts h
  split at h
  · exact reply_texts h
  obtain ⟨recipient, -, h⟩ := Option.bind_eq_some_iff.mp h
  obtain ⟨mem, hfill, h⟩ := Option.bind_eq_some_iff.mp h
  obtain ⟨⟨mem', recipients⟩, hstore, h⟩ := Option.bind_eq_some_iff.mp h
  have hline : TextsKept w.mem mem := .of_malloc (fillLine_texts hfill)
  exact (Prod.mk.inj (Option.some.inj h)).2 ▸ hline.trans (storeLine_texts hstore)

theorem data_texts (h : smtpData command len w = some (ret, w')) : TextsKept w.mem w'.mem := by
  unfold smtpData at h
  split_ifs at h <;> obtain ⟨-, rfl⟩ := Prod.mk.inj (Option.some.inj h) <;> exact .of_eq rfl

theorem readData_texts {mailPath : Bytes} (h : smtpReadData command len mailPath w = some (ret, w')) :
    TextsKept w.mem w'.mem := by
  unfold smtpReadData at h
  split at h
  · obtain ⟨w₁, hreset, h⟩ := Option.bind_eq_some_iff.mp h
    obtain ⟨-, rfl⟩ := Prod.mk.inj (Option.some.inj h)
    have hkept := sessionReset_texts hreset
    exact hkept
  simp only [Memory.malloc] at h
  split at h
  · obtain ⟨-, rfl⟩ := Prod.mk.inj (Option.some.inj h)
    exact .of_eq rfl
  obtain ⟨mem, hfill, h⟩ := Option.bind_eq_some_iff.mp h
  obtain ⟨⟨mem', lines⟩, hstore, h⟩ := Option.bind_eq_some_iff.mp h
  have hline : TextsKept w.mem mem := .of_malloc (fillLine_texts hfill)
  exact (Prod.mk.inj (Option.some.inj h)).2 ▸ hline.trans (storeLine_texts hstore)

theorem reset_texts {state : SmtpState} {text : String}
    (h : (smtpSessionReset w state >>= fun w => some (ret, snprintf w len text)) = some (ret', w')) :
    TextsKept w.mem w'.mem := by
  obtain ⟨w₁, hreset, h⟩ := Option.bind_eq_some_iff.mp h
  obtain ⟨-, rfl⟩ := Prod.mk.inj (Option.some.inj h)
  have hkept := sessionReset_texts hreset
  exact hkept

theorem processCommand_texts {mailPath : Bytes}
    (h : smtpProcessCommand command len mailPath w = some (ret, w')) : TextsKept w.mem w'.mem := by
  obtain ⟨w₁, hreset, h⟩ := Option.bind_eq_some_iff.mp h
  refine (bufferReset_texts hreset).trans ?_
  split at h
  · exact readData_texts h
  dsimp only at h
  rw [dispatch_eq] at h
  cases hverb : verbOf (strtrim command) with
  | ehlo => rw [hverb] at h; exact reset_texts h
  | mail => rw [hverb] at h; exact mail_texts h
  | rcpt => rw [hverb] at h; exact rcpt_texts h
  | data => rw [hverb] at h; exact data_texts h
  | rset =>
    rw [hverb] at h
    dsimp only [smtpReset] at h
    split at h
    · exact reply_texts h
    · exact reset_texts h
  | quit =>
    rw [hverb] at h
    dsimp only [smtpQuit] at h
    split at h
    · exact reply_texts h
    · exact reset_texts h
  | vrfy | unknown => rw [hverb] at h; exact reply_texts h

end Texts

/-- MAIL in a session that waits for it, with an address. -/
def AcceptsMail (w : World) (command : Bytes) : Prop :=
  w.session.state = .established ∧ verbOf (strtrim command) = .mail ∧
    (address mailPattern (strtrim command)).isSome

instance (w : World) (command : Bytes) : Decidable (AcceptsMail w command) :=
  inferInstanceAs (Decidable (_ ∧ _))

theorem nulFree_address {p : Pattern Byte} {command text : Bytes}
    (h : address p command = some text) : NulFree text := by
  obtain ⟨cut, -, rfl⟩ := Option.map_eq_some_iff.mp h
  exact (cstr_nulFree command).of_sublist ((List.take_sublist ..).trans (List.drop_sublist ..))

theorem Represents.sender_eq {w : World} {d : Dialogue} (h : Represents w d) :
    w.session.envelope.mailFrom = d.sender := by
  obtain ⟨bs, rs, ls, hfits⟩ := h
  exact hfits.sender

theorem call_sender {w w' : World} {d : Dialogue} (h : Represents w d)
    (hroom : w.mem.oom w.mem.brk = false) {command mailPath : Bytes} {len : Nat} {ret : Int}
    (hcall : smtpProcessCommand command len mailPath w = some (ret, w')) :
    (AcceptsMail w command → ∃ block, w'.session.envelope.mailFrom = some block ∧ NulFree block) ∧
      (¬AcceptsMail w command → w.session.envelope.mailFrom = none →
        w'.session.envelope.mailFrom = none) := by
  have hfollows := h.processCommand command len mailPath
  rw [hroom, Bool.not_false, hcall] at hfollows
  obtain ⟨ret', text, d', hanswer⟩ := answer_succeeds command d
  rw [hanswer] at hfollows
  obtain ⟨w₁, heq, hrep, -⟩ := hfollows
  obtain ⟨-, rfl⟩ := Prod.mk.inj (Option.some.inj heq)
  rw [Represents.sender_eq h, Represents.sender_eq hrep, AcceptsMail, h.state_eq]
  constructor
  · rintro ⟨hstate, hverb, haddress⟩
    obtain ⟨sender, haddress⟩ := Option.isSome_iff_exists.mp haddress
    have hmail : answer true command d = some (0, some "250 OK\r\n",
        { d with held := [], state := .mailRcpt, sender := some sender }) := by
      simp [answer, mail, hstate, hverb, haddress]
    obtain ⟨-, hd⟩ := Prod.mk.inj (Option.some.inj (hanswer.symm.trans hmail))
    obtain ⟨-, rfl⟩ := Prod.mk.inj hd
    exact ⟨sender, rfl, nulFree_address haddress⟩
  · intro hother hnone
    have houtcome : Outcome true command { d with held := [] } ret' text d' :=
      answer_outcome rfl hanswer
    cases houtcome with
    | sender hstate hverb haddress => exact absurd ⟨hstate, hverb, by simp [haddress]⟩ hother
    | ended | reset => rfl
    | stored | dropped | recipient | started | refused => exact hnone

/-- A session whose lines have all come since the memory was as given. -/
structure Since (mem : Memory) (w : World) : Prop where
  oom : ∀ a, w.mem.oom a = false
  owns : ∃ d ms, Owns w d ms ∧ ∀ a ∈ ms, mem.brk ≤ a
  brk : mem.brk ≤ w.mem.brk
  texts : TextsKept mem w.mem

theorem Since.next {mem : Memory} {w w' : World} {d' : Dialogue} {ms ms' : List Addr} {n : Nat}
    (h : Since mem w) (hms : ∀ a ∈ ms, mem.brk ≤ a) (howns : Owns w' d' ms')
    (hoom : w'.mem.oom = w.mem.oom) (hconfined : Confined w w' ms ms' n)
    (htexts : TextsKept w.mem w'.mem) : Since mem w' := by
  refine ⟨fun a => by rw [hoom, h.oom], ⟨d', ms', howns, fun a ha => ?_⟩, ?_, h.texts.trans htexts⟩
  · rcases hconfined.members a ha with hold | hnew
    · exact hms a hold
    · exact h.brk.trans hnew
  · rw [hconfined.brk]
    exact h.brk.trans (Nat.le_add_right ..)

section Steps
variable {mem : Memory} {w w' : World} {start command mailPath : Bytes}

theorem Since.reply (h : Since mem w) (reply : Bytes) : Since mem { w with reply } := by
  obtain ⟨d, ms, howns, hms⟩ := h.owns
  exact ⟨h.oom, ⟨d, ms, howns.frame rfl (fun a _ => .refl w.mem a) le_rfl, hms⟩, h.brk, h.texts⟩

theorem Since.bufferLine (h : Since mem w) (hline : ReadLoop.bufferLine start w = some w') :
    Since mem w' ∧ w'.session.envelope.mailFrom = w.session.envelope.mailFrom := by
  obtain ⟨d, ms, howns, hms⟩ := h.owns
  obtain ⟨w₁, ms', hline', howns', hkept, hconfined, -⟩ := Owns.bufferLine howns start
  obtain rfl : w' = w₁ := Option.some.inj (hline.symm.trans hline')
  refine ⟨h.next hms howns' hkept.oom hconfined (bufferLine_texts hline), ?_⟩
  rw [Represents.sender_eq howns.represents, Represents.sender_eq howns'.represents]

theorem Since.joinCommand (h : Since mem w) {fin : Nat} (hfin : fin ≤ strlen start)
    (hjoin : ReadLoop.joinCommand start fin w = some (command, w')) :
    Since mem w' ∧ w'.session.envelope.mailFrom = w.session.envelope.mailFrom := by
  obtain ⟨d, ms, ⟨bs, rs, ls, rfl, hfits⟩, hms⟩ := h.owns
  obtain ⟨command', w₁, hjoin', -, -, hfits', hkept, hconfined, -⟩ :=
    Fits.joinCommand hfits (h.oom _) hfin
  obtain ⟨rfl, rfl⟩ := Prod.mk.inj (Option.some.inj (hjoin.symm.trans hjoin'))
  refine ⟨h.next hms hfits'.owns hkept.oom hconfined (joinCommand_texts hjoin), ?_⟩
  rw [hfits.sender, hfits'.sender]

theorem Since.processCommand (h : Since mem w) {len : Nat} {ret : Int}
    (hcall : smtpProcessCommand command len mailPath w = some (ret, w')) : Since mem w' := by
  obtain ⟨d, ms, howns, hms⟩ := h.owns
  have hwithin := howns.processCommand command len mailPath
  rw [h.oom, Bool.not_false, hcall] at hwithin
  obtain ⟨ret', text, d', hanswer⟩ := answer_succeeds command d
  rw [hanswer] at hwithin
  obtain ⟨w₁, ms', heq, howns', hkept, hconfined, -⟩ := hwithin
  obtain ⟨-, rfl⟩ := Prod.mk.inj (Option.some.inj heq)
  exact h.next hms howns' hkept.oom hconfined (processCommand_texts hcall)

end Steps

def SenderEnds (w : World) : Prop :=
  ∀ block, w.session.envelope.mailFrom = some block → nul ∈ block

/-- What has become of the senders in the calls so far. -/
structure Sound (mem : Memory) (c : Connection) : Prop where
  since : Since mem c.world
  accepted : ∀ call ∈ c.calls, AcceptsMail call.before call.command → ¬SenderEnds call.after
  none : (∀ call ∈ c.calls, ¬AcceptsMail call.before call.command) →
    c.world.session.envelope.mailFrom = none ∧ ∀ call ∈ c.calls, SenderEnds call.after

theorem Sound.turn {mem : Memory} {mailPath start start' : Bytes} {c c' : Connection}
    (h : Sound mem c) (hturn : Release.turn mailPath start c = some (start', c')) :
    Sound mem c' := by
  obtain ⟨fin, command, w, ret, w', hscan, hjoin, hcall, -, rfl⟩ := turn_cases hturn
  have hlen := (strcrlf_eq_some hscan).1
  obtain ⟨hsince, hsender⟩ := h.since.joinCommand (by omega) hjoin
  obtain ⟨d, ms, howns, -⟩ := hsince.owns
  obtain ⟨haccepted, hother⟩ := call_sender howns.represents (hsince.oom _) hcall
  have hcommand : AcceptsMail w (cstr command) ↔ AcceptsMail w command := by
    rw [AcceptsMail, AcceptsMail, strtrim_cstr (cstr_cstr command)]
  refine ⟨hsince.processCommand hcall, fun call hmem => ?_, fun hno => ?_⟩
  · rcases List.mem_append.mp hmem with hmem | hmem
    · exact h.accepted call hmem
    · obtain rfl := List.mem_singleton.mp hmem
      intro haccepts hends
      obtain ⟨block, hblock, hfree⟩ := haccepted (hcommand.mp haccepts)
      exact hfree (hends block hblock)
  · obtain ⟨hnone, hends⟩ := h.none fun call hmem => hno call (by simp [hmem])
    have hlast := hno ⟨w, cstr command, w'⟩ (by simp)
    have hafter : w'.session.envelope.mailFrom = Option.none :=
      hother (fun haccepts => hlast (hcommand.mpr haccepts)) (hsender.trans hnone)
    refine ⟨hafter, fun call hmem => ?_⟩
    rcases List.mem_append.mp hmem with hmem | hmem
    · exact hends call hmem
    · obtain rfl := List.mem_singleton.mp hmem
      intro block hblock
      simp [hafter] at hblock

theorem preserved_sound (mem : Memory) (mailPath : Bytes) : Preserved mailPath (Sound mem) where
  clear := fun c h => ⟨h.since.reply [], h.accepted, h.none⟩
  line := fun start c world h hline => by
    obtain ⟨hsince, hsender⟩ := h.since.bufferLine hline
    refine ⟨hsince, h.accepted, fun hno => ?_⟩
    obtain ⟨hnone, hends⟩ := h.none hno
    exact ⟨hsender.trans hnone, hends⟩
  turn := fun start c start' c' h hturn => h.turn hturn

/-- What has been said in some reads and in the first pieces of another one. -/
def spoken (reads pieces : List Bytes) : Option Served := do
  let s ← (reads.map cstr).foldlM readText greeted
  pieces.foldlM obey { s with reply := [] }

theorem Shows.turns {mailPath start start' : Bytes} {c c' : Connection} {s : Served} (h : Shows c s)
    (hturns : Turns mailPath start c start' c') :
    ∃ pieces s', (scanCrlf false (cstr start)).1 = pieces ++ (scanCrlf false (cstr start')).1 ∧
      pieces.foldlM obey s = some s' ∧ Shows c' s' := by
  induction hturns generalizing s with
  | refl => exact ⟨[], s, rfl, rfl, h⟩
  | @step start start₁ start' c c₁ c' _ hopen hturn _ ih =>
    obtain ⟨fin, command, w, ret, w', hscan, hjoin, hcall, rfl, rfl⟩ := turn_cases hturn
    obtain ⟨hlen, hsplit⟩ := strcrlf_eq_some hscan
    have hfin : fin ≤ strlen start := by omega
    have hmatches := h.matches_obey (h.closed.symm.trans hopen) mailPath hfin
    simp only [hjoin, hcall, Option.bind_eq_bind, Option.bind_some] at hmatches
    cases hobey : obey s ((cstr start).take fin) with
    | none => simp [hobey, Matches] at hmatches
    | some s₁ =>
      rw [hobey] at hmatches
      obtain ⟨c₁, heq, hshows⟩ := hmatches
      obtain rfl := Option.some.inj heq
      obtain ⟨pieces, s', hpieces, hrest, hshows'⟩ := ih hshows
      refine ⟨(cstr start).take fin :: pieces, s', ?_, by simp [hobey, hrest], hshows'⟩
      rw [hsplit, ← cstr_drop hlen, List.cons_append, hpieces]

theorem acceptConnection_sound {w : World} {c₀ : Connection} (hoom : ∀ a, w.mem.oom a = false)
    (haccept : acceptConnection w = some c₀) : Sound w.mem c₀ ∧ Shows c₀ greeted := by
  obtain ⟨c, hc, hshows⟩ := acceptConnection_shows hoom
  obtain rfl := Option.some.inj (haccept.symm.trans hc)
  obtain ⟨c', ms, hc', howns, hconfined, -⟩ := acceptConnection_owns w
  obtain rfl := Option.some.inj (haccept.symm.trans hc')
  have hcalls : c₀.calls = [] := by
    have hcalls := hshows.calls
    rwa [greeted, List.forall₂_nil_right_iff] at hcalls
  have htexts : TextsKept w.mem c₀.world.mem := by
    unfold acceptConnection smtpStartSession at haccept
    obtain ⟨⟨ret, w₁⟩, hstart, haccept⟩ := Option.bind_eq_some_iff.mp haccept
    obtain ⟨w₂, hreset, hstart⟩ := Option.bind_eq_some_iff.mp hstart
    obtain ⟨-, rfl⟩ := Prod.mk.inj (Option.some.inj hstart)
    obtain rfl := Option.some.inj haccept
    have hkept := sessionReset_texts hreset
    exact hkept
  have hsender : c₀.world.session.envelope.mailFrom = none := Represents.sender_eq howns.represents
  refine ⟨⟨⟨hshows.oom, ⟨_, ms, howns, fun a ha => ?_⟩, ?_, htexts⟩, ?_, fun _ => ⟨hsender, ?_⟩⟩,
    hshows⟩
  · exact (hconfined.members a ha).resolve_left (by simp)
  · rw [hconfined.brk]
    exact le_rfl
  · simp [hcalls]
  · simp [hcalls]

/-- At every point of a run all arrays of the session end their texts, and the
sender's did after every call, if and only if no MAIL has been accepted. -/
theorem stored_texts_end_iff {mailPath start input : Bytes} {w : World} {c₀ c₁ c : Connection}
    {reads : List Bytes} (hfree : ∀ a, w.mem.brk ≤ a → w.mem.text a = none)
    (hoom : ∀ a, w.mem.oom a = false) (haccept : acceptConnection w = some c₀)
    (hreads : ∀ input ∈ reads, input.length ≤ serverCommandMaxLen)
    (hserve : serve mailPath c₀ reads = some c₁)
    (hturns : Turns mailPath (readBuffer input) { c₁ with world := { c₁.world with reply := [] } }
      start c) :
    ∃ pieces s, (scanCrlf false (cstr input)).1 = pieces ++ (scanCrlf false (cstr start)).1 ∧
      spoken reads pieces = some s ∧
      ((Ends c.world s.dialogue ∧ ∀ call ∈ c.calls, SenderEnds call.after) ↔
        ∀ call ∈ c.calls, ¬AcceptsMail call.before call.command) := by
  obtain ⟨hsound₀, hshows₀⟩ := acceptConnection_sound hoom haccept
  have hpreserved := preserved_sound w.mem mailPath
  have hsound₁ : Sound w.mem c₁ := hpreserved.serve hserve hsound₀
  have hsound : Sound w.mem c := hpreserved.turns hturns (hpreserved.clear c₁ hsound₁)
  -- the same run without the memory
  have hmatches := hshows₀.matches_serve mailPath hreads
  rw [hserve] at hmatches
  cases hs₁ : (reads.map cstr).foldlM readText greeted with
  | none => simp [hs₁, Matches] at hmatches
  | some s₁ =>
    rw [hs₁] at hmatches
    obtain ⟨c₁', heq, hshows₁⟩ := hmatches
    obtain rfl := Option.some.inj heq
    have hclear : Shows { c₁ with world := { c₁.world with reply := [] } } { s₁ with reply := [] } :=
      ⟨hshows₁.dialogue.reply [], hshows₁.oom, rfl, hshows₁.calls, hshows₁.sent, hshows₁.closed⟩
    obtain ⟨pieces, s, hpieces, hobey, hshows⟩ := Shows.turns hclear hturns
    rw [readBuffer, cstr_pad] at hpieces
    refine ⟨pieces, s, hpieces, by simp [spoken, hs₁, hobey], ?_⟩
    obtain ⟨d, ms, howns, hms⟩ := hsound.since.owns
    obtain rfl : d = s.dialogue := Owns.unique howns hshows.dialogue
    have hnul : Terminated c.world.mem ms := fun a ha block hblock =>
      (hsound.since.texts a block hblock).resolve_left (by simp [hfree a (hms a ha)])
    rw [Owns.ends_iff howns hnul]
    exact ⟨fun h call hmem haccepts => hsound.accepted call hmem haccepts (h.2 call hmem),
      fun hno => hsound.none hno⟩

/-- Three reads, with a command kept at the end of each, and a MAIL that is refused. -/
theorem stored_texts_end_iff_refused : ∃ c₀ c₁ s, acceptConnection idle = some c₀ ∧
    serve (ascii "./mail") c₀
      [ascii "EHLO x\r\nMA", ascii "IL FROM:<>\r\nNO", ascii "OP\r\nDA"] = some c₁ ∧
      spoken [ascii "EHLO x\r\nMA", ascii "IL FROM:<>\r\nNO", ascii "OP\r\nDA"] [] = some s ∧
      Ends { c₁.world with reply := [] } s.dialogue := by
  have hrun : ((acceptConnection idle).bind fun c₀ => serve (ascii "./mail") c₀
      [ascii "EHLO x\r\nMA", ascii "IL FROM:<>\r\nNO", ascii "OP\r\nDA"]).map (fun c =>
        decide (∀ call ∈ c.calls, ¬AcceptsMail call.before call.command)) = some true := by
    decide +kernel
  obtain ⟨c₁, hrun, hno⟩ := Option.map_eq_some_iff.mp hrun
  obtain ⟨c₀, haccept, hserve⟩ := Option.bind_eq_some_iff.mp hrun
  have hreads : ∀ input ∈ [ascii "EHLO x\r\nMA", ascii "IL FROM:<>\r\nNO", ascii "OP\r\nDA"],
      input.length ≤ serverCommandMaxLen := by decide
  obtain ⟨pieces, s, hpieces, hspoken, hiff⟩ := stored_texts_end_iff (fun _ _ => rfl) (fun _ => rfl)
    haccept hreads hserve (.refl (readBuffer []) _)
  obtain rfl : pieces = [] := (List.nil_eq_append_iff.mp hpieces).1
  exact ⟨c₀, c₁, s, haccept, hserve, hspoken, (hiff.mpr (of_decide_eq_true hno)).1⟩

/-- The array of the sender is as long as the address. -/
theorem sender_not_ended : ∃ c₀ c₁, acceptConnection idle = some c₀ ∧
    serve (ascii "./mail") c₀ [ascii "EHLO x\r\nMAIL FROM:<a@b>\r\n"] = some c₁ ∧
      c₁.world.session.envelope.mailFrom = some (ascii "a@b") ∧ ∀ d, ¬Ends c₁.world d := by
  have hrun : ((acceptConnection idle).bind fun c₀ =>
      serve (ascii "./mail") c₀ [ascii "EHLO x\r\nMAIL FROM:<a@b>\r\n"]).map (fun c =>
        c.world.session.envelope.mailFrom) = some (some (ascii "a@b")) := by
    decide +kernel
  obtain ⟨c₁, hrun, hsender⟩ := Option.map_eq_some_iff.mp hrun
  obtain ⟨c₀, haccept, hserve⟩ := Option.bind_eq_some_iff.mp hrun
  refine ⟨c₀, c₁, haccept, hserve, hsender, fun d hends => ?_⟩
  obtain ⟨text, -, rest, hblock⟩ := hends.sender _ hsender
  have hnul : nul ∈ ascii "a@b" := by simp [hblock]
  exact absurd hnul (by decide)

end SmtpMta.Server.StoredTexts
