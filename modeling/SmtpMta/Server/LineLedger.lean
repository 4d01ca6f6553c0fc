import SmtpMta.Server.MemorySafety

/-! The lines of all sessions in one account. Whatever is allocated can be reached from
a session that is not released, or could be reached from one when it was: no step of any
client loses a line, but a session that is closed with lines takes them with it. -/
namespace SmtpMta.Server.LineLedger
open Library.CString Library.FiniteMap Library.Trace Library.Ring Common.ListHead Common.StringUtils
  Smtp ReadLoop Lines Protocol Sharing Release Replies MainLoop Isolation MemorySafety

/-- A walk from one of the three lists of the session comes to the line. -/
def Reachable (mem : Memory) (s : Session) (a : Addr) : Prop :=
  ∃ head, (s.buffer = some head ∨ s.envelope.recipients = some head ∨ s.envelope.data = some head) ∧
    Reaches mem.lists head a

theorem reaches_holds {mem : Memory} {lines : Option Addr} {members : List Addr}
    {texts : List Bytes} (h : Holds mem lines members texts) {a : Addr} :
    (∃ head, lines = some head ∧ Reaches mem.lists head a) ↔ a ∈ members := by
  cases members with
  | nil => simp [h.head]
  | cons head rest => simp [h.head, (h.ring (by simp)).reaches_iff]

section Owned
variable {w w' w₁ : World} {d d' : Dialogue} {ms ms' : List Addr} {a : Addr}

theorem Owns.reachable_iff (h : Owns w d ms) : Reachable w.mem w.session a ↔ a ∈ ms := by
  obtain ⟨bs, rs, ls, rfl, hfits⟩ := h
  rw [List.mem_append, List.mem_append, ← reaches_holds hfits.buffer,
    ← reaches_holds hfits.recipients, ← reaches_holds hfits.data]
  simp only [Reachable, or_and_right, exists_or]

theorem Owns.nodup (h : Owns w d ms) : ms.Nodup := by
  obtain ⟨bs, rs, ls, rfl, hfits⟩ := h
  exact hfits.nodup

theorem Owns.isSome (h : Owns w d ms) (ha : a ∈ ms) : (w.mem.lists a).isSome := by
  obtain ⟨bs, rs, ls, rfl, hfits⟩ := h
  have hring {lines : Option Addr} {members : List Addr} {texts : List Bytes}
      (hholds : Holds w.mem lines members texts) (hmem : a ∈ members) : (w.mem.lists a).isSome :=
    (hholds.ring (List.ne_nil_of_mem hmem)).isSome hmem
  simp only [List.mem_append] at ha
  rcases ha with ha | ha | ha
  · exact hring hfits.buffer ha
  · exact hring hfits.recipients ha
  · exact hring hfits.data ha

theorem Owns.length (h : Owns w d ms) :
    ms.length = d.held.length + (d.recipients.length + d.lines.length) := by
  obtain ⟨bs, rs, ls, rfl, hfits⟩ := h
  have hlen {lines : Option Addr} {members : List Addr} {texts : List Bytes}
      (hholds : Holds w.mem lines members texts) : members.length = texts.length := by
    simpa using congrArg List.length hholds.texts
  rw [List.length_append, List.length_append, hlen hfits.buffer, hlen hfits.recipients,
    hlen hfits.data]

/-- A step loses no line: what is allocated after it is a line of the session, or was
allocated before and none of its lines. -/
def Tight (w w' : World) : Prop :=
  ∀ a, (w'.mem.lists a).isSome → Reachable w'.mem w'.session a ∨
    (w.mem.lists a).isSome ∧ ¬Reachable w.mem w.session a

theorem Tight.refl (w : World) : Tight w w := fun a ha =>
  (em (Reachable w.mem w.session a)).imp_right fun hnot => ⟨ha, hnot⟩

theorem Tight.trans (h : Tight w w₁) (h' : Tight w₁ w') : Tight w w' := by
  intro a ha
  refine (h' a ha).imp_right fun ⟨hsome, hnot⟩ => ?_
  exact (h a hsome).resolve_left hnot

theorem Tight.of_eq (hlists : w'.mem.lists = w.mem.lists)
    (hbuffer : w'.session.buffer = w.session.buffer)
    (hrecipients : w'.session.envelope.recipients = w.session.envelope.recipients)
    (hdata : w'.session.envelope.data = w.session.envelope.data) : Tight w w' := by
  intro a ha
  simp only [Reachable, hlists, hbuffer, hrecipients, hdata] at ha ⊢
  exact Tight.refl w a ha

theorem Tight.freed {freed : List Addr} (h : Owns w d ms) (h' : Owns w' d' ms')
    (hfreed : Freed w.mem w'.mem freed) (hall : ∀ a ∈ ms, a ∈ ms' ∨ a ∈ freed) : Tight w w' := by
  intro a ha
  have hnot : a ∉ freed := fun hmem => by simp [hfreed.gone a hmem] at ha
  rw [(hfreed.same a hnot).1] at ha
  rw [Owns.reachable_iff h', Owns.reachable_iff h]
  by_cases hmem : a ∈ ms
  · exact .inl ((hall a hmem).resolve_right hnot)
  · exact .inr ⟨ha, hmem⟩

theorem Tight.stored (h : Owns w d ms) (h' : Owns w' d' ms') (hconfined : Confined w w' ms ms' 1)
    (hlength : ms'.length = ms.length + 1)
    (halloc : ∀ a, (w'.mem.lists a).isSome → a = w.mem.brk ∨ (w.mem.lists a).isSome) :
    Tight w w' := by
  have hsub : ms' ⊆ w.mem.brk :: ms := by
    intro a ha
    rcases hconfined.members a ha with hmem | hle
    · simp [hmem]
    · have hlt := h'.below a ha
      rw [hconfined.brk] at hlt
      have heq : a = w.mem.brk := Nat.le_antisymm (Nat.lt_succ_iff.mp hlt) hle
      simp [heq]
  have hperm : ms'.Perm (w.mem.brk :: ms) :=
    ((Owns.nodup h').subperm hsub).perm_of_length_le (by rw [List.length_cons, hlength])
  intro a ha
  rw [Owns.reachable_iff h', Owns.reachable_iff h, hperm.mem_iff, List.mem_cons]
  rcases halloc a ha with heq | hsome
  · exact .inl (.inl heq)
  · by_cases hmem : a ∈ ms
    · exact .inl (.inr hmem)
    · exact .inr ⟨hsome, hmem⟩

end Owned

section Allocations
variable {mem mem' : Memory} {line a : Addr} {lines lines' : Option Addr} {len : Nat} {data : Bytes}

theorem listAddBetween_isSome {m m' : Lists} {prev next e : Addr}
    (h : listAddBetween m prev next e = some m') (x : Addr) : (m' x).isSome = (m x).isSome := by
  obtain ⟨m₁, h₁, h⟩ := Option.bind_eq_some_iff.mp h
  obtain ⟨m₂, h₂, h⟩ := Option.bind_eq_some_iff.mp h
  obtain ⟨m₃, h₃, h₄⟩ := Option.bind_eq_some_iff.mp h
  rw [(setPrev_eq_some h₄).2.2.1, (setNext_eq_some h₃).2.2.1, (setNext_eq_some h₂).2.2.1,
    (setPrev_eq_some h₁).2.2.1]

theorem fillLine_isSome (h : fillLine mem line data len = some mem')
    (ha : (mem'.lists a).isSome) : a = line ∨ (mem.lists a).isSome := by
  obtain ⟨lists, hinit, h⟩ := Option.bind_eq_some_iff.mp h
  obtain rfl := Option.some.inj h
  obtain ⟨m₁, h₁, h₂⟩ := Option.bind_eq_some_iff.mp hinit
  dsimp only at ha
  rw [(setPrev_eq_some h₂).2.2.1, (setNext_eq_some h₁).2.2.1] at ha
  by_cases hline : a = line
  · exact .inl hline
  · exact .inr (by rwa [Function.update_of_ne hline] at ha)

theorem storeLine_isSome (h : storeLine mem lines line = some (mem', lines')) (a : Addr) :
    (mem'.lists a).isSome = (mem.lists a).isSome := by
  cases lines with
  | none =>
    obtain ⟨rfl, -⟩ := Prod.mk.inj (Option.some.inj h)
    rfl
  | some head =>
    obtain ⟨lists, hadd, h⟩ := Option.bind_eq_some_iff.mp h
    obtain ⟨rfl, -⟩ := Prod.mk.inj (Option.some.inj h)
    obtain ⟨next, -, hadd⟩ := Option.bind_eq_some_iff.mp hadd
    exact listAddBetween_isSome hadd a

end Allocations

section Calls
variable {w w' : World} {d : Dialogue} {ms : List Addr} {len : Nat} {command : Bytes} {ret : Int}

theorem bufferReset_tight (h : Owns w d ms) (hreset : bufferReset w = some w') : Tight w w' := by
  obtain ⟨bs, rs, ls, rfl, hfits⟩ := h
  obtain ⟨w₁, hreset₁, hfits₁, -⟩ := hfits.bufferReset
  obtain rfl := Option.some.inj (hreset.symm.trans hreset₁)
  obtain ⟨mem, hfree, hfreed⟩ := freeIfAny_freed hfits.buffer hfits.length_le.1
  simp only [bufferReset, hfree, Option.bind_eq_bind, Option.bind_some, Option.some.injEq] at hreset
  subst hreset
  refine Tight.freed hfits.owns hfits₁.owns hfreed fun a ha => ?_
  simpa [or_comm, or_assoc] using ha

theorem sessionReset_tight {state : SmtpState} (h : Owns w d ms)
    (hreset : smtpSessionReset w state = some w') : Tight w w' := by
  obtain ⟨bs, rs, ls, rfl, hfits⟩ := h
  obtain ⟨w₂, hreset₂, howns, -⟩ := hfits.sessionReset state
  obtain rfl := Option.some.inj (hreset.symm.trans hreset₂)
  obtain ⟨w₁, hreset₁, hfits₁, -⟩ := hfits.bufferReset
  refine (bufferReset_tight hfits.owns hreset₁).trans ?_
  -- the two lists of the envelope, one after the other
  obtain ⟨mem₁, hfree₁, hfreed₁⟩ := freeIfAny_freed hfits₁.recipients hfits₁.length_le.2.1
  obtain ⟨-, -, hdisjoint⟩ := List.nodup_append'.mp hfits₁.nodup.of_append_right
  have hdata : Holds mem₁ w₁.session.envelope.data ls d.lines :=
    hfits₁.data.frame fun a ha => hfreed₁.same a fun hr => hdisjoint hr ha
  obtain ⟨mem₂, hfree₂, hfreed₂⟩ := freeIfAny_freed hdata (hfreed₁.brk ▸ hfits₁.length_le.2.2)
  simp only [smtpSessionReset, hreset₁, envelopeFree, hfree₁, hfree₂, Option.bind_eq_bind,
    Option.bind_some, Option.some.injEq] at hreset
  subst hreset
  exact Tight.freed hfits₁.owns howns (hfreed₁.trans hfreed₂) fun a ha => .inr ha

theorem bufferLine_tight {start : Bytes} (h : Owns w d ms) (hline : bufferLine start w = some w') :
    Tight w w' := by
  cases hoom : w.mem.oom w.mem.brk with
  | true =>
    simp only [bufferLine, Memory.malloc, hoom, if_true, Option.some.injEq] at hline
    subst hline
    exact .of_eq rfl rfl rfl rfl
  | false =>
    obtain ⟨w₁, ms', hline₁, howns, -, hconfined, -⟩ := Owns.bufferLine h start
    obtain rfl := Option.some.inj (hline.symm.trans hline₁)
    rw [hoom] at howns
    refine Tight.stored h howns hconfined ?_ fun a ha => ?_
    · rw [Owns.length h, Owns.length howns]
      simp
      omega
    · simp only [bufferLine, Memory.malloc, hoom, Bool.false_eq_true, if_false] at hline
      obtain ⟨mem, hfill, hline⟩ := Option.bind_eq_some_iff.mp hline
      have hfilled : (mem.lists a).isSome := by
        cases hbuffer : w.session.buffer with
        | none =>
          simp only [hbuffer, Option.some.injEq] at hline
          subst hline
          exact ha
        | some head =>
          simp only [hbuffer] at hline
          obtain ⟨lists, hadd, hline⟩ := Option.bind_eq_some_iff.mp hline
          obtain ⟨prev, -, hadd⟩ := Option.bind_eq_some_iff.mp hadd
          obtain rfl := Option.some.inj hline
          rw [← listAddBetween_isSome hadd]
          exact ha
      have hnew := fillLine_isSome hfill hfilled
      exact hnew

theorem joinCommand_tight {start : Bytes} {fin : Nat}
    (hjoin : joinCommand start fin w = some (command, w')) : Tight w w' := by
  obtain ⟨block, -, h⟩ := Option.bind_eq_some_iff.mp hjoin
  obtain ⟨joined, -, h⟩ := Option.bind_eq_some_iff.mp h
  obtain ⟨command', -, h⟩ := Option.bind_eq_some_iff.mp h
  obtain ⟨-, rfl⟩ := Prod.mk.inj (Option.some.inj h)
  exact .of_eq rfl rfl rfl rfl

theorem reply_tight {text : String} {ret' : Int}
    (hcall : some (ret', snprintf w len text) = some (ret, w')) :
    Tight w w' := by
  obtain ⟨-, rfl⟩ := Prod.mk.inj (Option.some.inj hcall)
  exact .of_eq rfl rfl rfl rfl

theorem reset_tight {state : SmtpState} {text : String} {ret' : Int} (h : Owns w d ms)
    (hcall : (smtpSessionReset w state >>= fun w => some (ret', snprintf w len text)) =
      some (ret, w')) : Tight w w' := by
  obtain ⟨w₁, hreset, hcall⟩ := Option.bind_eq_some_iff.mp hcall
  obtain ⟨-, rfl⟩ := Prod.mk.inj (Option.some.inj hcall)
  exact (sessionReset_tight h hreset).trans (.of_eq rfl rfl rfl rfl)

theorem mail_tight (hcall : smtpMail command len w = some (ret, w')) : Tight w w' := by
  unfold smtpMail at hcall
  split at hcall
  · exact reply_tight hcall
  split at hcall
  · exact reply_tight hcall
  obtain ⟨block, -, hcall⟩ := Option.bind_eq_some_iff.mp hcall
  obtain ⟨-, rfl⟩ := Prod.mk.inj (Option.some.inj hcall)
  exact .of_eq rfl rfl rfl rfl

theorem data_tight (hcall : smtpData command len w = some (ret, w')) : Tight w w' := by
  unfold smtpData at hcall
  split_ifs at hcall <;> obtain ⟨-, rfl⟩ := Prod.mk.inj (Option.some.inj hcall) <;>
    exact .of_eq rfl rfl rfl rfl

theorem stored_tight {d' : Dialogue} {ms' : List Addr} {mem mem' : Memory} {data : Bytes} {n : Nat}
    {lines lines' : Option Addr} (h : Owns w d ms) (h' : Owns w' d' ms')
    (hconfined : Confined w w' ms ms' 1)
    (hcount : d'.held.length + (d'.recipients.length + d'.lines.length) =
      d.held.length + (d.recipients.length + d.lines.length) + 1)
    (hfill : fillLine w.mem.malloc.1 w.mem.brk data n = some mem)
    (hstore : storeLine mem lines w.mem.brk = some (mem', lines'))
    (hlists : w'.mem.lists = mem'.lists) : Tight w w' := by
  refine Tight.stored h h' hconfined ?_ fun a ha => ?_
  · rw [Owns.length h, Owns.length h', hcount]
  · rw [hlists, storeLine_isSome hstore] at ha
    have hnew := fillLine_isSome hfill ha
    exact hnew

theorem insertSecond_length {α : Type} (x : α) (xs : List α) :
    (insertSecond x xs).length = xs.length + 1 := by
  simpa using (insertSecond_perm x xs).length_eq

theorem rcpt_tight (h : Owns w d ms) (hcall : smtpRcpt command len w = some (ret, w')) :
    Tight w w' := by
  have hwithin := h.rcpt len command
  rw [hcall] at hwithin
  unfold smtpRcpt at hcall
  split at hcall
  · exact reply_tight hcall
  rename_i so eo hexec
  split at hcall
  · exact reply_tight hcall
  rename_i hstate
  have hready : d.state = .mailRcpt := by
    rw [← h.state_eq]
    simpa using hstate
  obtain ⟨recipient, hroom, hcall⟩ := Option.bind_eq_some_iff.mp hcall
  obtain ⟨hoom, rfl⟩ : w.mem.oom w.mem.brk = false ∧ w.mem.brk = recipient := by
    simpa [Memory.malloc] using hroom
  obtain ⟨mem, hfill, hstored⟩ := Option.bind_eq_some_iff.mp hcall
  obtain ⟨⟨mem', recipients⟩, hstore, hanswer⟩ := Option.bind_eq_some_iff.mp hstored
  simp only [rcpt, address, hexec, hready, hoom, FollowsWithin, Option.map_some, Option.isSome_some,
    Bool.not_false, if_true, not_true_eq_false, if_false, ne_eq, and_self] at hwithin
  obtain ⟨w₁, ms', heq, howns, -, hconfined, -⟩ := hwithin
  obtain ⟨-, rfl⟩ := Prod.mk.inj (Option.some.inj heq)
  refine stored_tight h howns hconfined ?_ hfill hstore ?_
  · simp only [insertSecond_length]
    omega
  · obtain ⟨-, rfl⟩ := Prod.mk.inj (Option.some.inj hanswer)
    rfl

theorem readData_tight {mailPath : Bytes} (h : Owns w d ms)
    (hcall : smtpReadData command len mailPath w = some (ret, w')) : Tight w w' := by
  have hwithin := h.readData len command mailPath
  rw [hcall] at hwithin
  unfold smtpReadData at hcall
  by_cases hdot : cstr command = ascii "."
  · rw [if_pos ((strcmp_dot command).mpr hdot)] at hcall
    obtain ⟨w₁, hreset, hcall⟩ := Option.bind_eq_some_iff.mp hcall
    obtain ⟨-, rfl⟩ := Prod.mk.inj (Option.some.inj hcall)
    have hreplied : Owns (snprintf w len "250 OK\r\n") d ms :=
      h.frame rfl (fun a _ => .refl w.mem a) le_rfl
    have hfreed : Tight (snprintf w len "250 OK\r\n") w₁ := sessionReset_tight hreplied hreset
    have hsame : Tight w (snprintf w len "250 OK\r\n") := .of_eq rfl rfl rfl rfl
    exact hsame.trans hfreed
  rw [if_neg (fun hcmp => hdot ((strcmp_dot command).mp hcmp))] at hcall
  simp only [Memory.malloc] at hcall
  cases hoom : w.mem.oom w.mem.brk with
  | true =>
    simp only [hoom, if_true, Option.some.injEq, Prod.mk.injEq] at hcall
    obtain ⟨-, rfl⟩ := hcall
    exact .of_eq rfl rfl rfl rfl
  | false =>
    simp only [hoom, Bool.false_eq_true, if_false] at hcall
    obtain ⟨mem, hfill, hcall⟩ := Option.bind_eq_some_iff.mp hcall
    obtain ⟨⟨mem', lines⟩, hstore, hcall⟩ := Option.bind_eq_some_iff.mp hcall
    simp only [readData, hdot, hoom, FollowsWithin, Bool.not_false, if_true, if_false] at hwithin
    obtain ⟨w₁, ms', heq, howns, -, hconfined, -⟩ := hwithin
    obtain ⟨-, rfl⟩ := Prod.mk.inj (Option.some.inj heq)
    refine stored_tight h howns hconfined ?_ hfill hstore ?_
    · simp only [insertSecond_length]
      omega
    · obtain ⟨-, rfl⟩ := Prod.mk.inj (Option.some.inj hcall)
      rfl

theorem processCommand_tight {mailPath : Bytes} (h : Owns w d ms)
    (hcall : smtpProcessCommand command len mailPath w = some (ret, w')) : Tight w w' := by
  obtain ⟨w₁, hreset, hcall⟩ := Option.bind_eq_some_iff.mp hcall
  refine (bufferReset_tight h hreset).trans ?_
  obtain ⟨bs, rs, ls, rfl, hfits⟩ := h
  obtain ⟨w₂, hreset₂, hfits₁, -⟩ := hfits.bufferReset
  obtain rfl := Option.some.inj (hreset.symm.trans hreset₂)
  have howns := hfits₁.owns
  split at hcall
  · exact readData_tight howns hcall
  dsimp only at hcall
  rw [dispatch_eq] at hcall
  cases hverb : verbOf (strtrim command) with
  | ehlo => rw [hverb] at hcall; exact reset_tight howns hcall
  | mail => rw [hverb] at hcall; exact mail_tight hcall
  | rcpt => rw [hverb] at hcall; exact rcpt_tight howns hcall
  | data => rw [hverb] at hcall; exact data_tight hcall
  | rset =>
    rw [hverb] at hcall
    dsimp only [smtpReset] at hcall
    split at hcall
    · exact reply_tight hcall
    · exact reset_tight howns hcall
  | quit =>
    rw [hverb] at hcall
    dsimp only [smtpQuit] at hcall
    split at hcall
    · exact reply_tight hcall
    · exact reset_tight howns hcall
  | vrfy | unknown => rw [hverb] at hcall; exact reply_tight hcall

end Calls

section Read
variable {mailPath : Bytes} {c c' : Connection} {d : Dialogue} {ms : List Addr}

theorem preserved_tight (mailPath : Bytes) (w : World) :
    Preserved mailPath fun c => (∃ d, Represents c.world d) ∧ Tight w c.world where
  clear := fun c ⟨⟨d, h⟩, htight⟩ =>
    ⟨⟨d, h.reply []⟩, htight.trans (.of_eq rfl rfl rfl rfl)⟩
  line := fun start c world ⟨⟨d, h⟩, htight⟩ hline => by
    obtain ⟨bs, rs, ls, hfits⟩ := h
    have hrep := (preserved_represents mailPath).line start c world ⟨d, bs, rs, ls, hfits⟩ hline
    exact ⟨hrep, htight.trans (bufferLine_tight hfits.owns hline)⟩
  turn := fun start c start' c' ⟨⟨d, h⟩, htight⟩ hturn => by
    have hrep := (preserved_represents mailPath).turn start c start' c' ⟨d, h⟩ hturn
    obtain ⟨fin, command, w₁, ret, w', hscan, hjoin, hcall, -, rfl⟩ := turn_cases hturn
    have hfin : fin ≤ strlen start := by
      have hlen := (strcrlf_eq_some hscan).1
      omega
    obtain ⟨⟨bs, rs, ls, hfits⟩, -⟩ := joinCommand_represents h hfin hjoin
    have hcommand := processCommand_tight hfits.owns hcall
    exact ⟨hrep, htight.trans ((joinCommand_tight hjoin).trans hcommand)⟩

theorem serveRead_tight {bytes : Bytes} (h : Owns c.world d ms)
    (hread : serveRead mailPath c bytes = some c') : Tight c.world c'.world :=
  ((preserved_tight mailPath c.world).serveRead hread ⟨⟨d, h.represents⟩, .refl _⟩).2

theorem acceptConnection_lists {w : World} (h : acceptConnection w = some c) :
    c.world.mem.lists = w.mem.lists ∧ c.world.mem.brk = w.mem.brk := by
  obtain rfl := Option.some.inj h
  exact ⟨rfl, rfl⟩

end Read

section Server
variable {mailPath : Bytes} {serverSocket : Descriptor} {w w' : ServerState} {input : Input}
  {output : Output} {lines : Nat → List Addr} {lost : Set Addr} {session : Nat} {a : Addr}

/-- Every allocated line is of one session, or it is lost and of none. -/
structure Ledger (lost : Set Addr) (w : ServerState) (lines : Nat → List Addr) : Prop where
  separate : Separate w lines
  account : ∀ a, (w.mem.lists a).isSome →
    (∃ session, (w.heap session).isSome ∧ a ∈ lines session) ∨ a ∈ lost
  allocated : ∀ a ∈ lost, (w.mem.lists a).isSome ∧ a < w.mem.brk
  unowned : ∀ a ∈ lost, ∀ session, (w.heap session).isSome → a ∉ lines session

theorem Ledger.congr (h : Ledger lost w lines) (hmem : w'.mem = w.mem) (hheap : w'.heap = w.heap) :
    Ledger lost w' lines := by
  refine ⟨h.separate.congr hmem hheap, ?_, ?_, ?_⟩
  · rw [hmem, hheap]
    exact h.account
  · rw [hmem]
    exact h.allocated
  · rw [hheap]
    exact h.unowned

theorem Ledger.reachable_iff (h : Ledger lost w lines) {s : Session}
    (hs : w.heap session = some s) : Reachable w.mem s a ↔ a ∈ lines session := by
  obtain ⟨d, hkeeps⟩ := h.separate.keeps session s hs
  exact Owns.reachable_iff (hkeeps fun _ => false)

theorem Ledger.accepted (h : Ledger lost w lines) {fails : Nat → Bool} {c : Connection}
    (hfresh : w.heap session = none)
    (haccept : acceptConnection (w.world fails newSession) = some c)
    (hmem : w'.mem = c.world.mem)
    (hheap : w'.heap = Function.update w.heap session (some c.world.session)) :
    Ledger lost w' (Function.update lines session []) := by
  obtain ⟨c', ms, hc, howns, hconfined, -⟩ := acceptConnection_owns (w.world fails newSession)
  obtain rfl := Option.some.inj (hc.symm.trans haccept)
  obtain ⟨hlists, hbrk⟩ := acceptConnection_lists haccept
  have hother (other : Nat) (hne : other ≠ session) : w'.heap other = w.heap other := by
    rw [hheap, Function.update_of_ne hne]
  have hfree : ms = [] := List.length_eq_zero_iff.mp (by simp [Owns.length howns, fresh])
  subst hfree
  have hold {other : Nat} (hsome : (w.heap other).isSome) : other ≠ session := by
    rintro rfl
    simp [hfresh] at hsome
  refine ⟨h.separate.act hconfined hmem (fun _ _ _ => List.disjoint_nil_right _) hother
    fun s hs => ⟨fresh .initial, ?_⟩, fun a ha => ?_, fun a ha => ?_, fun a ha other hsome => ?_⟩
  · obtain rfl : c'.world.session = s := by simpa [hheap] using hs
    exact keeps_of_owns howns hmem
  · rw [hmem, hlists] at ha
    refine (h.account a ha).imp_left ?_
    rintro ⟨other, hsome, hmember⟩
    have hne := hold hsome
    exact ⟨other, by rwa [hother other hne], by rwa [Function.update_of_ne hne]⟩
  · rw [hmem, hlists, hbrk]
    exact h.allocated a ha
  · by_cases hne : other = session
    · subst hne
      simp
    · rw [Function.update_of_ne hne]
      exact h.unowned a ha other (by rwa [← hother other hne])

theorem Ledger.served (h : Ledger lost w lines) {held : Session} {fails : Nat → Bool}
    {bytes : Bytes} {c : Connection} (hheld : w.heap session = some held)
    (hserve : serveRead mailPath ⟨w.world fails held, [], [], false⟩ bytes = some c)
    (hmem : w'.mem = c.world.mem)
    (hheap : w'.heap = Function.update w.heap session (some c.world.session)) :
    ∃ lines', Ledger lost w' lines' := by
  obtain ⟨d, hkeeps⟩ := h.separate.keeps session held hheld
  have hheld' : Owns (w.world fails held) d (lines session) := hkeeps fails
  have htight : Tight (w.world fails held) c.world := serveRead_tight hheld' hserve
  have hother (other : Nat) (hne : other ≠ session) : w'.heap other = w.heap other := by
    rw [hheap, Function.update_of_ne hne]
  obtain ⟨d', ms', n, howns, hconfined, hseparate⟩ := separate_served h.separate hheld hserve hmem
    hother fun s hs => by simpa [hheap] using hs.symm
  have hlive : (w'.heap session).isSome := by simp [hheap]
  refine ⟨Function.update lines session ms', hseparate, fun a ha => ?_, fun a ha => ?_,
    fun a ha other hsome => ?_⟩
  · rw [hmem] at ha
    rcases htight a ha with hreach | ⟨hold, hnot⟩
    · refine .inl ⟨session, hlive, ?_⟩
      rw [Function.update_self]
      exact (Owns.reachable_iff howns).mp hreach
    · rw [Owns.reachable_iff hheld'] at hnot
      refine (h.account a hold).imp_left ?_
      rintro ⟨other, hsome, hmember⟩
      have hne : other ≠ session := by
        rintro rfl
        exact hnot hmember
      exact ⟨other, by rwa [hother other hne], by rwa [Function.update_of_ne hne]⟩
  · obtain ⟨hsome, hlt⟩ := h.allocated a ha
    have hnot : a ∉ lines session := h.unowned a ha session (by simp [hheld])
    have hsame : c.world.mem.lists a = w.mem.lists a := (hconfined.same a hlt hnot).1
    have hbrk : c.world.mem.brk = w.mem.brk + n := hconfined.brk
    rw [hmem, hsame, hbrk]
    exact ⟨hsome, hlt.trans_le (Nat.le_add_right ..)⟩
  · by_cases hne : other = session
    · subst hne
      rw [Function.update_self]
      intro hmember
      rcases hconfined.members a hmember with hold | hnew
      · exact h.unowned a ha other (by simp [hheld]) hold
      · exact absurd (h.allocated a ha).2 (Nat.not_lt.mpr hnew)
    · rw [Function.update_of_ne hne]
      exact h.unowned a ha other (by rwa [← hother other hne])

theorem Ledger.released (h : Ledger lost w lines) {s : Session} (hs : w.heap session = some s)
    (hmem : w'.mem = w.mem) (hheap : w'.heap = Function.update w.heap session none) :
    Ledger (lost ∪ {a | Reachable w.mem s a}) w' lines := by
  have hlive {other : Nat} (hsome : (w'.heap other).isSome) :
      other ≠ session ∧ (w.heap other).isSome := by
    rw [hheap] at hsome
    have hne : other ≠ session := by
      rintro rfl
      simp at hsome
    rw [Function.update_of_ne hne] at hsome
    exact ⟨hne, hsome⟩
  have hsession : (w.heap session).isSome := by simp [hs]
  obtain ⟨d, hkeeps⟩ := h.separate.keeps session s hs
  have howns : Owns (w.world (fun _ => false) s) d (lines session) := hkeeps fun _ => false
  refine ⟨⟨fun other s' hs' => ?_, fun other other' hne hsome hsome' => ?_⟩, fun a ha => ?_,
    fun a ha => ?_, fun a ha other hsome => ?_⟩
  · obtain ⟨hne, -⟩ := hlive (by rw [hs']; rfl)
    rw [hheap, Function.update_of_ne hne] at hs'
    obtain ⟨d', hkeeps'⟩ := h.separate.keeps other s' hs'
    exact ⟨d', hkeeps'.congr hmem⟩
  · exact h.separate.disjoint other other' hne (hlive hsome).2 (hlive hsome').2
  · rw [hmem] at ha
    rcases h.account a ha with ⟨other, hsome, hmember⟩ | hlost
    · by_cases hne : other = session
      · subst hne
        exact .inr (.inr ((h.reachable_iff hs).mpr hmember))
      · exact .inl ⟨other, by rwa [hheap, Function.update_of_ne hne], hmember⟩
    · exact .inr (.inl hlost)
  · rw [hmem]
    rcases ha with hlost | hreach
    · exact h.allocated a hlost
    · have hmember := (h.reachable_iff hs).mp hreach
      exact ⟨Owns.isSome howns hmember, howns.below a hmember⟩
  · obtain ⟨hne, hsome⟩ := hlive hsome
    rcases ha with hlost | hreach
    · exact h.unowned a hlost other hsome
    · intro hmember
      exact h.separate.disjoint other session hne hsome hsession hmember
        ((h.reachable_iff hs).mp hreach)

/-- The lines that were still on the lists of a session when it was released. -/
def Taken (history : History) : Set Addr :=
  {a | ∃ st ∈ history, ∃ session c, st.output = .client session (.served c) ∧ c.closed = true ∧
    Reachable c.world.mem c.world.session a}

theorem taken_append (past : History) (st : Step ServerState Input Output) :
    Taken (past ++ [st]) = Taken past ∪ Taken [st] := by
  ext a
  simp [Taken, or_and_right, exists_or]

theorem taken_of_open {st : Step ServerState Input Output}
    (h : ∀ session c, st.output = .client session (.served c) → c.closed = false) :
    Taken [st] = ∅ := by
  refine Set.eq_empty_of_forall_notMem ?_
  rintro a ⟨st', hst, session, c, houtput, hclosed, -⟩
  obtain rfl := List.mem_singleton.mp hst
  rw [h session c houtput] at hclosed
  cases hclosed

theorem taken_of_closed {st : Step ServerState Input Output} {c : Connection}
    (houtput : st.output = .client session (.served c)) (hclosed : c.closed = true) :
    Taken [st] = {a | Reachable c.world.mem c.world.session a} := by
  ext a
  constructor
  · rintro ⟨st', hst, session', c', houtput', -, hreach⟩
    obtain rfl := List.mem_singleton.mp hst
    cases houtput.symm.trans houtput'
    exact hreach
  · exact fun hreach => ⟨st, by simp, session, c, houtput, hclosed, hreach⟩

theorem Ledger.step (h : Ledger lost w lines)
    (hcount : ∀ session, (w.heap session).isSome → session < w.count)
    (htook : Took mailPath serverSocket w input output w') :
    ∃ lines', Ledger (lost ∪ Taken [⟨w, input, output, w'⟩]) w' lines' := by
  have hsame (hquiet : ∀ session c, output = .client session (.served c) → c.closed = false) :
      lost ∪ Taken [⟨w, input, output, w'⟩] = lost := by
    rw [taken_of_open hquiet, Set.union_empty]
  cases htook with
  | stopped | selected | declined | refused | unknown | lost =>
    rw [hsame (by simp)]
    exact ⟨lines, h.congr rfl rfl⟩
  | @accepted todo fd c todo_eq socket closed room entered start =>
    rw [hsame (by simp)]
    have hfresh : w.heap w.count = none := by
      by_contra hheld
      exact (hcount _ (Option.isSome_iff_ne_none.mpr hheld)).false
    exact ⟨_, h.accepted hfresh start rfl rfl⟩
  | served todo_eq client found received nonempty heap_eq serve goes =>
    rw [hsame fun session c houtput => by cases houtput; exact goes]
    exact h.served heap_eq serve rfl rfl
  | @quit todo fd session bytes held c todo_eq client found received nonempty heap_eq serve ends =>
    -- it is served, and then released
    let served : ServerState :=
      { w with mem := c.world.mem, heap := Function.update w.heap session (some c.world.session) }
    obtain ⟨lines', hserved⟩ : ∃ lines', Ledger lost served lines' :=
      h.served heap_eq serve rfl rfl
    have hheld : served.heap session = some c.world.session := Function.update_self ..
    rw [taken_of_closed rfl ends]
    exact ⟨lines', hserved.released hheld rfl (Function.update_idem ..).symm⟩

theorem counted_step (hcount : ∀ session, (w.heap session).isSome → session < w.count)
    (hfound : ∀ key session, valueAt w.sessions key = some session → session < w.count)
    (htook : Took mailPath serverSocket w input output w') {session : Nat}
    (hsome : (w'.heap session).isSome) : session < w'.count := by
  cases htook with
  | stopped | selected | declined | unknown | lost => exact hcount session hsome
  | refused => exact (hcount session hsome).trans (Nat.lt_succ_self _)
  | accepted =>
    by_cases hne : session = w.count
    · exact hne ▸ Nat.lt_succ_self _
    · dsimp only at hsome
      rw [Function.update_of_ne hne] at hsome
      exact (hcount session hsome).trans (Nat.lt_succ_self _)
  | @served todo fd acting | @quit todo fd acting =>
    by_cases hne : session = acting
    · subst hne
      apply hfound
      assumption
    · dsimp only at hsome
      rw [Function.update_of_ne hne] at hsome
      exact hcount session hsome

variable {serverSocket : Descriptor} {mem : Memory} {dirs : Maildirs} {inputs : List Input}
  {history done rest : History} {last : ServerState} {st : Step ServerState Input Output} in
theorem ledger_run (hnone : ∀ a, mem.lists a = none)
    (h : (serverMachine mailPath serverSocket).exec (startServer serverSocket mem dirs) inputs =
      some (history, last)) (hsplit : history = done ++ st :: rest) :
    (∀ session, (st.before.heap session).isSome → session < st.before.count) ∧
      ∃ lines, Ledger (Taken done) st.before lines := by
  let Inv (past : History) (w : ServerState) : Prop :=
    Tidy w ∧ (∀ session, (w.heap session).isSome → session < w.count) ∧
      ∃ lines, Ledger (Taken past) w lines
  have hstep : ∀ past w input output w', Inv past w →
      (serverMachine mailPath serverSocket).step w input = some (output, w') →
        Inv (past ++ [⟨w, input, output, w'⟩]) w' := by
    intro past w input output w' ⟨htidy, hcount, lines, hledger⟩ hstep
    have htook := step_took hstep
    refine ⟨htidy.step htook, fun session => counted_step hcount htidy.below htook, ?_⟩
    rw [taken_append]
    exact hledger.step hcount htook
  have hinit : Inv [] (startServer serverSocket mem dirs) := by
    refine ⟨tidy_start serverSocket mem dirs, by simp [startServer], fun _ => [], ?_⟩
    refine ⟨⟨by simp [startServer], by simp [startServer]⟩, fun a ha => ?_, ?_, ?_⟩
    · simp [startServer, hnone] at ha
    · simp [Taken]
    · simp [Taken]
  exact ((Machine.exec_steps hstep hinit h).2 done st rest hsplit).2.1.2

/-- Before any step of a run, a line is allocated if and only if it can be reached from
a session that is not released, and then from one only, or could be reached from one
at the QUIT that released it, and from none since. -/
theorem line_ledger {mailPath : Bytes} {serverSocket : Descriptor} {mem : Memory} {dirs : Maildirs}
    (hnone : ∀ a, mem.lists a = none) {inputs : List Input} {history done rest : History}
    {last : ServerState} {st : Step ServerState Input Output}
    (h : (serverMachine mailPath serverSocket).exec (startServer serverSocket mem dirs) inputs =
      some (history, last)) (hsplit : history = done ++ st :: rest) (a : Addr) :
    (st.before.mem.lists a).isSome ↔
      (∃! session, ∃ s, st.before.heap session = some s ∧ Reachable st.before.mem s a) ∨
      a ∈ Taken done ∧ ∀ session s, st.before.heap session = some s →
        ¬Reachable st.before.mem s a := by
  obtain ⟨-, lines, hledger⟩ := ledger_run hnone h hsplit
  constructor
  · intro ha
    rcases hledger.account a ha with ⟨session, hsome, hmember⟩ | hlost
    · obtain ⟨s, hs⟩ := Option.isSome_iff_exists.mp hsome
      refine .inl ⟨session, ⟨s, hs, (hledger.reachable_iff hs).mpr hmember⟩, ?_⟩
      rintro other ⟨s', hs', hreach⟩
      by_contra hne
      exact hledger.separate.disjoint other session hne (by rw [hs']; rfl) hsome
        ((hledger.reachable_iff hs').mp hreach) hmember
    · refine .inr ⟨hlost, fun session s hs hreach => ?_⟩
      exact hledger.unowned a hlost session (by rw [hs]; rfl) ((hledger.reachable_iff hs).mp hreach)
  · rintro (⟨session, ⟨s, hs, hreach⟩, -⟩ | ⟨hlost, -⟩)
    · obtain ⟨d, hkeeps⟩ := hledger.separate.keeps session s hs
      have howns : Owns (st.before.world (fun _ => false) s) d (lines session) := hkeeps fun _ => false
      exact Owns.isSome howns ((hledger.reachable_iff hs).mp hreach)
    · exact (hledger.allocated a hlost).1

/-- A client that leaves a message with a QUIT that is malformed, and another one on its
descriptor. -/
def farewell : List Input :=
  [{ quiet with ready := some [listener] }, { quiet with clientSocket := some caller },
   { quiet with ready := some [caller] },
   { quiet with
     received := some (ascii "EHLO x\r\nMAIL FROM:<a@b>\r\nRCPT TO:<c@d>\r\nQUIT now\r\n") },
   { quiet with ready := some [listener] }, { quiet with clientSocket := some caller }, quiet]

/-- Its recipient line is lost: it is allocated, and no session of the server has it. -/
theorem line_ledger_farewell : ∃ history last done st,
    (serverMachine (ascii "./mail") listener).exec
      (startServer listener emptyMemory fun _ _ => []) farewell = some (history, last) ∧
    history = done ++ [st] ∧ (st.before.mem.lists 4).isSome ∧ 4 ∈ Taken done ∧
      ∀ session s, st.before.heap session = some s → ¬Reachable st.before.mem s 4 := by
  have hruns : ((serverMachine (ascii "./mail") listener).exec
      (startServer listener emptyMemory fun _ _ => []) farewell).bind (fun run =>
        run.1.getLast?.map fun st => decide ((st.before.mem.lists 4).isSome ∧ st.before.count = 2 ∧
          (st.before.heap 0).isNone ∧ (st.before.heap 1).map (fun s =>
            (s.buffer, s.envelope.recipients, s.envelope.data)) = some (none, none, none))) =
      some true := by decide +kernel
  obtain ⟨⟨history, last⟩, hexec, hlast⟩ := Option.bind_eq_some_iff.mp hruns
  obtain ⟨st, hget, hfacts⟩ := Option.map_eq_some_iff.mp hlast
  obtain ⟨hsome, hcount, hfirst, hsecond⟩ := of_decide_eq_true hfacts
  obtain ⟨done, rfl⟩ : ∃ done, history = done ++ [st] := List.getLast?_eq_some_iff.mp hget
  have hunreached : ∀ session s, st.before.heap session = some s → ¬Reachable st.before.mem s 4 := by
    rintro session s hs ⟨head, hhead, -⟩
    have hlt := (ledger_run (fun _ => rfl) hexec rfl).1 session (by rw [hs]; rfl)
    obtain rfl | rfl : session = 0 ∨ session = 1 := by omega
    · simp [hs] at hfirst
    · obtain ⟨s', hs', hlists⟩ := Option.map_eq_some_iff.mp hsecond
      obtain rfl : s = s' := Option.some.inj (hs.symm.trans hs')
      simp_all
  have hledger := (line_ledger (fun _ => rfl) hexec rfl 4).mp hsome
  refine ⟨_, last, done, st, hexec, rfl, hsome, ?_, hunreached⟩
  rcases hledger with ⟨session, ⟨s, hs, hreach⟩, -⟩ | ⟨htaken, -⟩
  · exact absurd hreach (hunreached session s hs)
  · exact htaken

end Server

end SmtpMta.Server.LineLedger
