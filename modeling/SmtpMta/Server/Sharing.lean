import SmtpMta.Server.Reading

/-! Sessions whose lines lie in one memory. A read works on no line of another
session, and two sessions that hold the same dialogue, each in lines of its own
and perhaps in another memory, do the same. -/
namespace SmtpMta.Server.Sharing
open Library.CString Common.ListHead Common.StringUtils Smtp ReadLoop Lines Protocol

structure Contents where
  buffer : Option (List Bytes)
  bufferSize : Nat
  state : SmtpState
  recipients : Option (List Bytes)
  data : Option (List Bytes)
  mailFrom : Option Bytes

def contents (w : World) : Contents :=
  ⟨foreachText w.mem w.session.buffer, w.session.bufferSize, w.session.state,
    foreachText w.mem w.session.envelope.recipients, foreachText w.mem w.session.envelope.data,
    w.session.envelope.mailFrom⟩

theorem Owns.contents_eq {w : World} {d : Dialogue} {ms : List Addr} (h : Owns w d ms) :
    contents w = ⟨some d.held, d.held.flatten.length, d.state, some d.recipients, some d.lines,
      d.sender⟩ := by
  obtain ⟨bs, rs, ls, rfl, hfits⟩ := h
  obtain ⟨hbuffer, hrecipients, hdata⟩ := hfits.length_le
  rw [contents, hfits.buffer.foreachText hbuffer, hfits.recipients.foreachText hrecipients,
    hfits.data.foreachText hdata, hfits.size, hfits.state, hfits.sender]

/-- Two sessions with the same dialogue, whose next allocations come out alike. -/
structure Alike (w w₀ : World) (d : Dialogue) (ms ms₀ : List Addr) : Prop where
  owns : Owns w d ms
  owns₀ : Owns w₀ d ms₀
  reply : w.reply = w₀.reply
  fails : ∀ k, w.mem.oom (w.mem.brk + k) = w₀.mem.oom (w₀.mem.brk + k)

theorem fails_advance {w w₀ w' w₀' : World} {ms ms₀ ms' ms₀' : List Addr} {n : Nat}
    (h : ∀ k, w.mem.oom (w.mem.brk + k) = w₀.mem.oom (w₀.mem.brk + k))
    (hkept : Kept w w') (hkept₀ : Kept w₀ w₀') (hconfined : Confined w w' ms ms' n)
    (hconfined₀ : Confined w₀ w₀' ms₀ ms₀' n) (k : Nat) :
    w'.mem.oom (w'.mem.brk + k) = w₀'.mem.oom (w₀'.mem.brk + k) := by
  rw [hkept.oom, hkept₀.oom, hconfined.brk, hconfined₀.brk, Nat.add_assoc, Nat.add_assoc]
  exact h (n + k)

section Calls
variable {w w₀ w' : World} {d : Dialogue} {ms ms₀ : List Addr}

theorem Owns.bufferLine (h : Owns w d ms) (start : Bytes) :
    ∃ w' ms', ReadLoop.bufferLine start w = some w' ∧
      Owns w' { d with held := if w.mem.oom w.mem.brk then d.held else d.held ++ [cstr start] } ms' ∧
      Kept w w' ∧ Confined w w' ms ms' 1 ∧ w'.reply = w.reply := by
  obtain ⟨bs, rs, ls, rfl, hfits⟩ := h
  cases hoom : w.mem.oom w.mem.brk with
  | true =>
    obtain ⟨hfits', hconfined⟩ := hfits.malloc
    refine ⟨{ w with mem := { w.mem with brk := w.mem.brk + 1 } }, _, ?_, hfits'.owns, ⟨rfl, rfl⟩,
      hconfined, rfl⟩
    simp only [ReadLoop.bufferLine, Memory.malloc, hoom, if_true]
  | false =>
    obtain ⟨w', hline, hfits', hkept, hconfined, hreply⟩ := Reading.Fits.bufferLine hfits hoom start
    exact ⟨w', _, hline, hfits'.owns, hkept, hconfined, hreply⟩

theorem Alike.bufferLine (h : Alike w w₀ d ms ms₀) {start : Bytes}
    (hline : ReadLoop.bufferLine start w = some w') :
    ∃ w₀' d' ms' ms₀' n, ReadLoop.bufferLine start w₀ = some w₀' ∧ Alike w' w₀' d' ms' ms₀' ∧
      Confined w w' ms ms' n := by
  obtain ⟨w₁, ms', hline₁, howns, hkept, hconfined, hreply⟩ := Owns.bufferLine h.owns start
  obtain ⟨w₀', ms₀', hline₀, howns₀, hkept₀, hconfined₀, hreply₀⟩ := Owns.bufferLine h.owns₀ start
  obtain rfl : w' = w₁ := Option.some.inj (hline.symm.trans hline₁)
  have hroom : w.mem.oom w.mem.brk = w₀.mem.oom w₀.mem.brk := h.fails 0
  rw [← hroom] at howns₀
  refine ⟨w₀', _, ms', ms₀', 1, hline₀, ⟨howns, howns₀, ?_, ?_⟩, hconfined⟩
  · rw [hreply, hreply₀, h.reply]
  · exact fails_advance h.fails hkept hkept₀ hconfined hconfined₀

theorem joinCommand_eq_none {start : Bytes} {fin : Nat} (hoom : w.mem.oom w.mem.brk = true) :
    ReadLoop.joinCommand start fin w = none := by
  simp [ReadLoop.joinCommand, Memory.malloc, hoom]

theorem Alike.joinCommand (h : Alike w w₀ d ms ms₀) {start command : Bytes} {fin : Nat}
    (hfin : fin ≤ strlen start) (hjoin : ReadLoop.joinCommand start fin w = some (command, w')) :
    ∃ command₀ w₀', ReadLoop.joinCommand start fin w₀ = some (command₀, w₀') ∧
      cstr command₀ = cstr command ∧ Alike w' w₀' d ms ms₀ ∧ Confined w w' ms ms 1 := by
  obtain ⟨bs, rs, ls, rfl, hfits⟩ := h.owns
  obtain ⟨bs₀, rs₀, ls₀, rfl, hfits₀⟩ := h.owns₀
  have hroom : w.mem.oom w.mem.brk = w₀.mem.oom w₀.mem.brk := h.fails 0
  cases hoom : w.mem.oom w.mem.brk with
  | true =>
    rw [joinCommand_eq_none hoom] at hjoin
    cases hjoin
  | false =>
    rw [hoom] at hroom
    obtain ⟨command₁, w₁, hjoin₁, htext, -, hfits', hkept, hconfined, hreply⟩ :=
      Reading.Fits.joinCommand hfits hoom hfin
    obtain ⟨command₀, w₀', hjoin₀, htext₀, -, hfits₀', hkept₀, hconfined₀, hreply₀⟩ :=
      Reading.Fits.joinCommand hfits₀ hroom.symm hfin
    obtain ⟨rfl, rfl⟩ := Prod.mk.inj (Option.some.inj (hjoin.symm.trans hjoin₁))
    refine ⟨command₀, w₀', hjoin₀, htext₀.trans htext.symm, ⟨hfits'.owns, hfits₀'.owns, ?_, ?_⟩,
      hconfined⟩
    · rw [hreply, hreply₀, h.reply]
    · exact fails_advance h.fails hkept hkept₀ hconfined hconfined₀

theorem allocations_cstr (command : Bytes) (d : Dialogue) :
    allocations (cstr command) d = allocations command d := by
  have htrim : strtrim (cstr command) = strtrim command := by simp [strtrim]
  rw [allocations, htrim, cstr_cstr]
  rfl

theorem Alike.processCommand (h : Alike w w₀ d ms ms₀) {command command₀ : Bytes}
    (htext : cstr command₀ = cstr command) {len : Nat} {mailPath : Bytes} {ret : Int}
    (hcall : smtpProcessCommand command len mailPath w = some (ret, w')) :
    ∃ w₀' d' ms' ms₀' n, smtpProcessCommand command₀ len mailPath w₀ = some (ret, w₀') ∧
      Alike w' w₀' d' ms' ms₀' ∧ Confined w w' ms ms' n := by
  have hroom : w.mem.oom w.mem.brk = w₀.mem.oom w₀.mem.brk := h.fails 0
  have hwithin := h.owns.processCommand command len mailPath
  have hwithin₀ := h.owns₀.processCommand command₀ len mailPath
  -- both answer the same
  rw [← answer_cstr, ← allocations_cstr, htext, answer_cstr, allocations_cstr, ← hroom] at hwithin₀
  cases hanswer : answer (!w.mem.oom w.mem.brk) command d with
  | none =>
    rw [hanswer, hcall] at hwithin
    cases hwithin
  | some answered =>
    obtain ⟨ret', text, d'⟩ := answered
    rw [hanswer, hcall] at hwithin
    rw [hanswer] at hwithin₀
    obtain ⟨w₁, ms', heq, howns, hkept, hconfined, hreply⟩ := hwithin
    obtain ⟨w₀', ms₀', hcall₀, howns₀, hkept₀, hconfined₀, hreply₀⟩ := hwithin₀
    obtain ⟨rfl, rfl⟩ := Prod.mk.inj (Option.some.inj heq)
    refine ⟨w₀', d', ms', ms₀', _, hcall₀, ⟨howns, howns₀, ?_, ?_⟩, hconfined⟩
    · rw [hreply, hreply₀, h.reply]
    · exact fails_advance h.fails hkept hkept₀ hconfined hconfined₀

end Calls

/-- What an event of a client shows. -/
structure Record where
  commands : List Bytes
  sent : Bytes
  closed : Bool
  session : Contents

def record (c : Connection) : Record :=
  ⟨c.commands, c.sent, c.closed, contents c.world⟩

/-- Two connections that have come equally far. -/
structure Twins (c c₀ : Connection) (d : Dialogue) (ms ms₀ : List Addr) : Prop where
  alike : Alike c.world c₀.world d ms ms₀
  commands : c.commands = c₀.commands
  sent : c.sent = c₀.sent
  closed : c.closed = c₀.closed

section Connections
variable {c c₀ c' : Connection} {d : Dialogue} {ms ms₀ : List Addr} {mailPath : Bytes}

theorem Twins.record_eq (h : Twins c c₀ d ms ms₀) : record c = record c₀ := by
  rw [record, record, Owns.contents_eq h.alike.owns, Owns.contents_eq h.alike.owns₀, h.commands,
    h.sent, h.closed]

theorem Twins.commandLoop {bound : Nat} {start : Bytes} (h : Twins c c₀ d ms ms₀)
    (hloop : ReadLoop.commandLoop mailPath bound start c = some c') :
    ∃ c₀' d' ms' ms₀' n, ReadLoop.commandLoop mailPath bound start c₀ = some c₀' ∧
      Twins c' c₀' d' ms' ms₀' ∧ Confined c.world c'.world ms ms' n := by
  induction bound generalizing start c c₀ d ms ms₀ with
  | zero => simp [ReadLoop.commandLoop] at hloop
  | succ bound ih =>
    rw [ReadLoop.commandLoop] at hloop ⊢
    by_cases hempty : strlen start = 0
    · rw [if_pos hempty] at hloop ⊢
      obtain rfl := Option.some.inj hloop
      exact ⟨c₀, d, ms, ms₀, 0, rfl, h, .refl c.world ms⟩
    rw [if_neg hempty] at hloop ⊢
    cases hclosed : c.closed with
    | true => simp [hclosed] at hloop
    | false =>
      have hopen₀ : c₀.closed = false := h.closed.symm.trans hclosed
      simp only [hclosed, hopen₀, Bool.false_eq_true, if_false] at hloop ⊢
      cases hscan : strcrlf start with
      | none =>
        simp only [hscan] at hloop ⊢
        obtain ⟨w', hline, hloop⟩ := Option.bind_eq_some_iff.mp hloop
        obtain rfl := Option.some.inj hloop
        obtain ⟨w₀', d', ms', ms₀', n, hline₀, halike, hconfined⟩ := h.alike.bufferLine hline
        exact ⟨⟨w₀', c₀.calls, c₀.sent, false⟩, d', ms', ms₀', n, by simp [hline₀],
          ⟨halike, h.commands, h.sent, rfl⟩, hconfined⟩
      | some fin =>
        simp only [hscan] at hloop ⊢
        obtain ⟨⟨command, w₁⟩, hjoin, hloop⟩ := Option.bind_eq_some_iff.mp hloop
        obtain ⟨⟨ret, w₂⟩, hcall, hloop⟩ := Option.bind_eq_some_iff.mp hloop
        have hfin : fin ≤ strlen start := by
          have hlen := (strcrlf_eq_some hscan).1
          omega
        obtain ⟨command₀, w₀₁, hjoin₀, htext, halike₁, hconfined₁⟩ := h.alike.joinCommand hfin hjoin
        obtain ⟨w₀₂, d₂, ms₂, ms₀₂, n₂, hcall₀, halike₂, hconfined₂⟩ :=
          halike₁.processCommand htext hcall
        have htwins : Twins ⟨w₂, c.calls ++ [⟨w₁, cstr command, w₂⟩], c.sent ++ w₂.reply, ret < 0⟩
            ⟨w₀₂, c₀.calls ++ [⟨w₀₁, cstr command₀, w₀₂⟩], c₀.sent ++ w₀₂.reply, ret < 0⟩
            d₂ ms₂ ms₀₂ := by
          refine ⟨halike₂, ?_, ?_, rfl⟩
          · have hcommands := h.commands
            simp only [Connection.commands] at hcommands
            simp [Connection.commands, hcommands, htext]
          · rw [h.sent, halike₂.reply]
        obtain ⟨c₀', d', ms', ms₀', n', hloop₀, htwins', hconfined'⟩ := ih htwins hloop
        refine ⟨c₀', d', ms', ms₀', _, ?_, htwins', hconfined₁.trans (hconfined₂.trans hconfined')⟩
        simpa [hjoin₀, hcall₀] using hloop₀

theorem Twins.serveRead {input : Bytes} (h : Twins c c₀ d ms ms₀) (hopen : c.closed = false)
    (hserve : ReadLoop.serveRead mailPath c input = some c') :
    ∃ c₀' d' ms' ms₀' n, ReadLoop.serveRead mailPath c₀ input = some c₀' ∧
      Twins c' c₀' d' ms' ms₀' ∧ Confined c.world c'.world ms ms' n := by
  have hopen₀ : c₀.closed = false := h.closed.symm.trans hopen
  have hempty {w : World} {ms : List Addr} (hw : Owns w d ms) : Owns { w with reply := [] } d ms :=
    hw.frame rfl (fun a _ => .refl w.mem a) le_rfl
  have hblank : Twins { c with world := { c.world with reply := [] } }
      { c₀ with world := { c₀.world with reply := [] } } d ms ms₀ :=
    ⟨⟨hempty h.alike.owns, hempty h.alike.owns₀, rfl, h.alike.fails⟩, h.commands, h.sent, h.closed⟩
  rw [ReadLoop.serveRead, if_neg (by simp [hopen])] at hserve
  rw [ReadLoop.serveRead, if_neg (by simp [hopen₀])]
  obtain ⟨c₀', d', ms', ms₀', n, hloop₀, htwins, hconfined⟩ := hblank.commandLoop hserve
  exact ⟨c₀', d', ms', ms₀', n, hloop₀, htwins, hconfined.same, hconfined.members, hconfined.brk⟩

theorem serveRead_confined {input : Bytes} (h : Owns c.world d ms) (hopen : c.closed = false)
    (hserve : ReadLoop.serveRead mailPath c input = some c') :
    ∃ d' ms' n, Owns c'.world d' ms' ∧ Confined c.world c'.world ms ms' n := by
  have htwins : Twins c c d ms ms := ⟨⟨h, h, rfl, fun _ => rfl⟩, rfl, rfl, rfl⟩
  obtain ⟨c₀', d', ms', ms₀', n, -, htwins', hconfined⟩ := htwins.serveRead hopen hserve
  exact ⟨d', ms', n, htwins'.alike.owns, hconfined⟩

theorem acceptConnection_owns (w : World) :
    ∃ c ms, acceptConnection w = some c ∧ Owns c.world (fresh .initial) ms ∧
      Confined w c.world [] ms 0 ∧ c.commands = [] ∧ c.sent = ascii "220\r\n" ∧
        c.closed = false := by
  have hfits : Owns { w with session := newSession, reply := [] } (fresh .initial) [] :=
    (fits_fresh rfl).owns
  obtain ⟨w', ms, hstart, howns, -, hconfined, hreply⟩ := hfits.startSession serverReplyMaxLen
  refine ⟨⟨w', [], w'.reply, false⟩, ms, by simp [acceptConnection, hstart], howns,
    ⟨hconfined.same, hconfined.members, hconfined.brk⟩, rfl, hreply, rfl⟩

theorem acceptConnection_record {w w₀ : World} (h : acceptConnection w = some c)
    (h₀ : acceptConnection w₀ = some c₀) : record c = record c₀ := by
  obtain ⟨c', ms, hc, howns, -, hcommands, hsent, hclosed⟩ := acceptConnection_owns w
  obtain ⟨c₀', ms₀, hc₀, howns₀, -, hcommands₀, hsent₀, hclosed₀⟩ := acceptConnection_owns w₀
  obtain rfl := Option.some.inj (hc.symm.trans h)
  obtain rfl := Option.some.inj (hc₀.symm.trans h₀)
  rw [record, record, hcommands, hcommands₀, hsent, hsent₀, hclosed, hclosed₀,
    Owns.contents_eq howns, Owns.contents_eq howns₀]

end Connections

end SmtpMta.Server.Sharing
