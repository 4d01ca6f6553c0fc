import SmtpMta.Server.Protocol
import SmtpMta.Server.ReadLoop

/-! A connection without its memory. A read on the linked session does what it
does here: the scanner cuts it, the first piece ends the held command, and the
rest is held. -/
namespace SmtpMta.Server.Reading
open Library.CString Library.Crlf Library.Ring Common.ListHead Common.StringUtils Smtp ReadLoop Lines
  Protocol

/-- A command, with the dialogue before it and the reply buffer after it. -/
structure Answered where
  before : Dialogue
  command : Bytes
  reply : Bytes

structure Served where
  dialogue : Dialogue
  reply : Bytes
  answers : List Answered
  sent : Bytes
  closed : Bool

def Served.commands (s : Served) : List Bytes :=
  s.answers.map (·.command)

def greeted : Served :=
  ⟨fresh .initial, ascii "220\r\n", [], ascii "220\r\n", false⟩

/-- A piece that ends a command. After QUIT there is no session to obey. -/
def obey (s : Served) (piece : Bytes) : Option Served :=
  if s.closed then none
  else
    let command := s.dialogue.held.flatten ++ piece
    (answer true command s.dialogue).map fun (ret, text, dialogue) =>
      let reply := replied serverReplyMaxLen text s.reply
      ⟨dialogue, reply, s.answers ++ [⟨s.dialogue, command, reply⟩], s.sent ++ reply, ret < 0⟩

/-- The piece after the last pair. -/
def hold (tail : Bytes) (s : Served) : Option Served :=
  if tail = [] then some s
  else if s.closed then none
  else some { s with dialogue := { s.dialogue with held := s.dialogue.held ++ [tail] } }

def take (split : List Bytes × Bytes) (s : Served) : Option Served := do
  hold split.2 (← split.1.foldlM obey s)

def readText (s : Served) (text : Bytes) : Option Served :=
  if s.closed then some s else take (scanCrlf false text) { s with reply := [] }

/-- The call on the linked session is this one. -/
structure ShowsCall (call : Call) (a : Answered) : Prop where
  before : Represents call.before a.before
  command : call.command = a.command
  reply : call.after.reply = a.reply

structure Shows (c : Connection) (s : Served) : Prop where
  dialogue : Represents c.world s.dialogue
  oom : ∀ a, c.world.mem.oom a = false
  reply : c.world.reply = s.reply
  calls : List.Forall₂ ShowsCall c.calls s.answers
  sent : c.sent = s.sent
  closed : c.closed = s.closed

theorem Shows.commands {c : Connection} {s : Served} (h : Shows c s) : c.commands = s.commands := by
  have hcommands : List.Forall₂ (· = ·) c.commands s.commands :=
    List.rel_map (fun call a (hcall : ShowsCall call a) => hcall.command) h.calls
  rwa [List.forall₂_eq_eq_eq] at hcommands

theorem perm_store_first (x : Addr) (bs rs ls : List Addr) :
    ((bs ++ [x]) ++ (rs ++ ls)).Perm (x :: (bs ++ (rs ++ ls))) := by
  rw [List.append_assoc, List.singleton_append]
  exact List.perm_middle

theorem Fits.bufferLine {w : World} {d : Dialogue} {bs rs ls : List Addr} (h : Fits w d bs rs ls)
    (hroom : w.mem.oom w.mem.brk = false) (start : Bytes) :
    ∃ w', ReadLoop.bufferLine start w = some w' ∧
      Fits w' { d with held := d.held ++ [cstr start] } (bs ++ [w.mem.brk]) rs ls ∧ Kept w w' ∧
        Confined w w' (bs ++ (rs ++ ls)) (bs ++ [w.mem.brk] ++ (rs ++ ls)) 1 ∧
          w'.reply = w.reply := by
  obtain ⟨mem, hfill, hline, hbrk, hoom, hsame⟩ := fillLine_holds
    { w.mem with brk := w.mem.brk + 1 } w.mem.brk start (strlen start)
  rw [strlen, List.take_length] at hline
  obtain ⟨-, hrest, hdisjoint⟩ := List.nodup_append'.mp h.nodup
  have hold (a : Addr) (ha : a < w.mem.brk) : Same w.mem mem a := hsame a ha.ne
  have hnew : w.mem.brk ∉ bs := fun hmem => (h.below _ (by simp [hmem])).ne rfl
  have hbuffer : Holds mem w.session.buffer bs d.held :=
    h.buffer.frame fun a ha => hold a (h.below a (by simp [ha]))
  obtain ⟨hnodup', hbelow, hmembers⟩ := h.members_stored (perm_store_first w.mem.brk bs rs ls)
  have hbelow' : ∀ a ∈ bs ++ [w.mem.brk] ++ (rs ++ ls), a < mem.brk :=
    fun a ha => (hbelow a ha).trans_eq hbrk.symm
  have hsize : w.session.bufferSize + strlen start = (d.held ++ [cstr start]).flatten.length := by
    simp [h.size, strlen]
  have hrecipients : Holds mem w.session.envelope.recipients rs d.recipients :=
    h.recipients.frame fun a ha => hold a (h.below a (by simp [ha]))
  have hdata : Holds mem w.session.envelope.data ls d.lines :=
    h.data.frame fun a ha => hold a (h.below a (by simp [ha]))
  cases hhead : w.session.buffer with
  | none =>
    rw [hhead] at hbuffer
    obtain ⟨rfl, hheld⟩ := hbuffer.nil_of_none
    simp only [ReadLoop.bufferLine, Memory.malloc, hroom, Bool.false_eq_true, if_false, hfill,
      hhead, Option.bind_eq_bind, Option.bind_some]
    refine ⟨_, rfl, ?_, ⟨hoom, rfl⟩, ⟨fun a ha _ => hold a ha, hmembers, hbrk⟩, rfl⟩
    constructor
    case buffer => simpa [hheld] using hline
    case recipients => exact hrecipients
    case data => exact hdata
    case size => exact hsize
    case sender => exact h.sender
    case state => exact h.state
    case nodup => exact hnodup'
    case below => exact hbelow'
  | some head =>
    rw [hhead] at hbuffer
    obtain ⟨lists, hadd, hholds, hframe⟩ := hbuffer.append hline hnew
    have hframe' (a : Addr) (ha : a < w.mem.brk) (hb : a ∉ bs) : Same mem { mem with lists } a :=
      ⟨hframe a ha.ne hb, rfl⟩
    have hsame' (a : Addr) (ha : a ∈ rs ++ ls) : Same mem { mem with lists } a :=
      hframe' a (h.below a (by simp [List.mem_append.mp ha])) fun hb => hdisjoint hb ha
    simp only [ReadLoop.bufferLine, Memory.malloc, hroom, Bool.false_eq_true, if_false, hfill,
      hhead, hadd, Option.bind_eq_bind, Option.bind_some]
    refine ⟨_, rfl, ?_, ⟨hoom, rfl⟩, ⟨fun a ha hnot => (hold a ha).trans (hframe' a ha fun hb =>
      hnot (by simp [hb])), hmembers, hbrk⟩, rfl⟩
    constructor
    case buffer => simpa [hhead] using hholds
    case recipients => exact hrecipients.frame fun a ha => hsame' a (by simp [ha])
    case data => exact hdata.frame fun a ha => hsame' a (by simp [ha])
    case size => exact hsize
    case sender => exact h.sender
    case state => exact h.state
    case nodup => exact hnodup'
    case below => exact hbelow'

theorem catLines_text {mem : Memory} {members : List Addr} {texts : List Bytes}
    (h : members.map (fun a => (mem.text a).map cstr) = texts.map some) {command : Bytes}
    (hroom : (cstr command).length + texts.flatten.length < command.length) :
    ∃ block, members.foldlM (fun command line => do strcat command (← mem.text line)) command =
        some block ∧ block.length = command.length ∧ cstr block = cstr command ++ texts.flatten := by
  induction members generalizing texts command with
  | nil =>
    obtain rfl : texts = [] := List.map_eq_nil_iff.mp h.symm
    exact ⟨command, rfl, rfl, by simp⟩
  | cons a members ih =>
    cases texts with
    | nil => simp at h
    | cons text texts =>
      obtain ⟨hhead, htail⟩ := List.cons.inj h
      obtain ⟨block, hblock, rfl⟩ := Option.map_eq_some_iff.mp hhead
      simp only [List.flatten_cons, List.length_append] at hroom
      have hcat : (cstr block).take (strlen block) = cstr block := List.take_length
      have hfits : (cstr command ++ (cstr block).take (strlen block)).length < command.length := by
        rw [hcat, List.length_append]
        omega
      obtain ⟨command', hstrcat, hlen, htext⟩ := strncat_fits hfits
      rw [hcat] at htext
      have hroom' : (cstr command').length + texts.flatten.length < command'.length := by
        rw [htext, hlen, List.length_append]
        omega
      obtain ⟨block', hfold, hlen', htext'⟩ := ih htail hroom'
      refine ⟨block', ?_, hlen'.trans hlen, by rw [htext', htext]; simp⟩
      simp only [List.foldlM_cons, hblock, Option.bind_eq_bind, Option.bind_some]
      rw [strcat, hstrcat]
      exact hfold

theorem Holds.joinLines {mem : Memory} {buffer : Option Addr} {members : List Addr}
    {texts : List Bytes} (h : Holds mem buffer members texts) (hbound : members.length ≤ mem.brk)
    {command : Bytes} (hroom : (cstr command).length + texts.flatten.length < command.length) :
    ∃ block, ReadLoop.joinLines mem buffer command = some block ∧ block.length = command.length ∧
      cstr block = cstr command ++ texts.flatten := by
  cases buffer with
  | none =>
    obtain ⟨-, rfl⟩ := h.nil_of_none
    exact ⟨command, rfl, rfl, by simp⟩
  | some head =>
    obtain ⟨rest, rfl⟩ := h.cons_of_some
    have hlt : rest.length < mem.bound := by
      rw [List.length_cons] at hbound
      exact Nat.lt_succ_of_lt hbound
    have hwalk := listForeach_ring (h.ring (by simp)) hlt
    simp only [ReadLoop.joinLines, hwalk, Option.bind_eq_bind, Option.bind_some]
    exact catLines_text h.texts hroom

theorem Fits.joinCommand {w : World} {d : Dialogue} {bs rs ls : List Addr} (h : Fits w d bs rs ls)
    (hroom : w.mem.oom w.mem.brk = false) {start : Bytes} {fin : Nat} (hfin : fin ≤ strlen start) :
    ∃ command w', ReadLoop.joinCommand start fin w = some (command, w') ∧
      cstr command = d.held.flatten ++ (cstr start).take fin ∧
      command.length = fin + w.session.bufferSize + 1 ∧ Fits w' d bs rs ls ∧ Kept w w' ∧
        Confined w w' (bs ++ (rs ++ ls)) (bs ++ (rs ++ ls)) 1 ∧ w'.reply = w.reply := by
  let mem := { w.mem with brk := w.mem.brk + 1 }
  obtain ⟨hfits, hconfined⟩ : Fits { w with mem } d bs rs ls ∧ Confined w { w with mem } _ _ 1 :=
    h.malloc
  have hpiece : ((cstr start).take fin).length = fin := List.length_take_of_le hfin
  have hblank (n : Nat) : cstr (List.replicate (n + 1) nul) = [] := by
    simp [cstr, List.replicate_succ]
  have hlength : (List.replicate (fin + w.session.bufferSize + 1) nul).length =
      fin + d.held.flatten.length + 1 := by simp [h.size]
  have hroom' : (cstr (List.replicate (fin + w.session.bufferSize + 1) nul)).length +
      d.held.flatten.length < (List.replicate (fin + w.session.bufferSize + 1) nul).length := by
    rw [hblank, hlength, List.length_nil]
    omega
  obtain ⟨block, hjoin, hlen, htext⟩ := Holds.joinLines hfits.buffer hfits.length_le.1 hroom'
  rw [hblank, List.nil_append] at htext
  have hfit : (cstr block ++ (cstr start).take fin).length < block.length := by
    rw [htext, List.length_append, hpiece, hlen, hlength]
    omega
  obtain ⟨command, hcat, hlen', hcommand⟩ := strncat_fits hfit
  have hsize : command.length = fin + w.session.bufferSize + 1 := by
    rw [hlen', hlen, List.length_replicate]
  refine ⟨command, { w with mem }, ?_, by rw [hcommand, htext], hsize, hfits, ⟨rfl, rfl⟩, hconfined,
    rfl⟩
  simp only [ReadLoop.joinCommand, Memory.malloc, hroom, Bool.false_eq_true, if_false,
    Option.bind_eq_bind, Option.bind_some]
  rw [hjoin, Option.bind_some, hcat, Option.bind_some]

/-- The linked connection ends where the other does. -/
def Matches (result : Option Connection) (served : Option Served) : Prop :=
  match served with
  | none => result = none
  | some s => ∃ c, result = some c ∧ Shows c s

theorem Shows.matches_hold {c : Connection} {s : Served} (h : Shows c s) (hopen : s.closed = false)
    {start : Bytes} (hstart : cstr start ≠ []) :
    Matches ((ReadLoop.bufferLine start c.world).map fun world => { c with world })
      (hold (cstr start) s) := by
  obtain ⟨bs, rs, ls, hfits⟩ := h.dialogue
  obtain ⟨w', hline, hfits', hkept, -, hreply⟩ := Fits.bufferLine hfits (h.oom _) start
  simp only [Reading.hold, hstart, hopen, Bool.false_eq_true, if_false, hline, Option.map_some]
  refine ⟨_, rfl, ⟨_, _, _, hfits'⟩, fun a => ?_, hreply.trans h.reply, h.calls, h.sent,
    h.closed.trans hopen⟩
  rw [hkept.oom]
  exact h.oom a

theorem Shows.matches_obey {c : Connection} {s : Served} (h : Shows c s) (hopen : s.closed = false)
    (mailPath : Bytes) {start : Bytes} {fin : Nat} (hfin : fin ≤ strlen start) :
    Matches (do
      let (command, w) ← ReadLoop.joinCommand start fin c.world
      let (ret, w') ← smtpProcessCommand command serverReplyMaxLen mailPath w
      some ⟨w', c.calls ++ [⟨w, cstr command, w'⟩], c.sent ++ w'.reply, ret < 0⟩)
      (obey s ((cstr start).take fin)) := by
  obtain ⟨bs, rs, ls, hfits⟩ := h.dialogue
  obtain ⟨command, w₁, hjoin, htext, -, hfits₁, hkept₁, -, hreply₁⟩ :=
    Fits.joinCommand hfits (h.oom _) hfin
  have hrep : Represents w₁ s.dialogue := ⟨bs, rs, ls, hfits₁⟩
  have hoom₁ (a : Addr) : w₁.mem.oom a = false := by rw [hkept₁.oom]; exact h.oom a
  have hfollows := hrep.processCommand command serverReplyMaxLen mailPath
  rw [hoom₁, Bool.not_false, ← answer_cstr, htext] at hfollows
  obtain ⟨ret, text, d', hanswer⟩ :=
    answer_succeeds (s.dialogue.held.flatten ++ (cstr start).take fin) s.dialogue
  rw [hanswer] at hfollows
  obtain ⟨w₂, hcall, hrep₂, hkept₂, hreply₂⟩ := hfollows
  rw [hreply₁, h.reply] at hreply₂
  simp only [hjoin, hcall, Option.bind_eq_bind, Option.bind_some, Reading.obey, hopen,
    Bool.false_eq_true, if_false, hanswer, Option.map_some]
  refine ⟨_, rfl, hrep₂, fun a => by rw [hkept₂.oom]; exact hoom₁ a, hreply₂, ?_, ?_, rfl⟩
  · exact List.rel_append h.calls (.cons ⟨hrep, htext, hreply₂⟩ .nil)
  · rw [h.sent, hreply₂]

theorem Matches.bind {result : Option Connection} {served : Option Served}
    {f : Connection → Option Connection} {g : Served → Option Served} (h : Matches result served)
    (hnext : ∀ c s, Shows c s → Matches (f c) (g s)) :
    Matches (result.bind f) (served.bind g) := by
  cases served with
  | none =>
    obtain rfl : result = none := h
    rfl
  | some s =>
    obtain ⟨c, rfl, hshows⟩ := h
    exact hnext c s hshows

theorem take_cons (s : Served) (piece : Bytes) (pieces : List Bytes) (tail : Bytes) :
    take (piece :: pieces, tail) s = (obey s piece).bind (take (pieces, tail)) := by
  simp only [take, List.foldlM_cons, Option.bind_eq_bind, Option.bind_assoc]
  rfl

theorem Shows.matches_commandLoop (mailPath : Bytes) (bound : Nat) {start : Bytes}
    (hbound : strlen start < bound) {c : Connection} {s : Served} (h : Shows c s) :
    Matches (commandLoop mailPath bound start c) (take (scanCrlf false (cstr start)) s) := by
  induction bound generalizing start c s with
  | zero => exact absurd hbound (Nat.not_lt_zero _)
  | succ bound ih =>
    rw [commandLoop]
    by_cases hempty : cstr start = []
    · rw [if_pos (by simp [strlen, hempty]), hempty]
      exact ⟨c, rfl, h⟩
    rw [if_neg (by simpa [strlen] using hempty)]
    cases hscan : strcrlf start with
    | none =>
      rw [strcrlf_eq_none hscan]
      cases hopen : s.closed with
      | true => simp [take, hold, hempty, hopen, h.closed, Matches]
      | false =>
        have hhold := h.matches_hold hopen hempty
        simpa [take, Option.map_eq_bind, h.closed, hopen] using hhold
    | some fin =>
      obtain ⟨hlen, hsplit⟩ := strcrlf_eq_some hscan
      rw [hsplit, take_cons]
      cases hopen : s.closed with
      | true => simp [obey, hopen, h.closed, Matches]
      | false =>
        have hfin : fin ≤ strlen start := by omega
        have hdrop : cstr (start.drop (fin + 2)) = (cstr start).drop (fin + 2) := cstr_drop hlen
        have hbound' : strlen (start.drop (fin + 2)) < bound := by
          have hlength := congrArg List.length hdrop
          rw [List.length_drop] at hlength
          simp only [strlen] at hlength hbound hlen ⊢
          omega
        have hrest := (h.matches_obey hopen mailPath hfin).bind fun c s h => ih hbound' h
        rw [hdrop] at hrest
        simpa [h.closed, hopen, Option.bind_assoc] using hrest

theorem Shows.matches_read (mailPath : Bytes) {c : Connection} {s : Served} (h : Shows c s)
    {input : Bytes} (hinput : input.length ≤ serverCommandMaxLen) :
    Matches (serveRead mailPath c input) (readText s (cstr input)) := by
  unfold serveRead readText
  rw [h.closed]
  cases hopen : s.closed with
  | true => exact ⟨c, rfl, h⟩
  | false =>
    have htext := cstr_pad input (serverCommandMaxLen + 1 - input.length)
    have hreset : Shows { c with world := { c.world with reply := [] } } { s with reply := [] } :=
      ⟨h.dialogue.reply [], h.oom, rfl, h.calls, h.sent, h.closed⟩
    have hbound : strlen (input ++ List.replicate (serverCommandMaxLen + 1 - input.length) nul) <
        (input ++ List.replicate (serverCommandMaxLen + 1 - input.length) nul).length := by
      have hle : (cstr input).length ≤ input.length := (List.takeWhile_sublist _).length_le
      rw [strlen, htext, List.length_append, List.length_replicate]
      omega
    have hloop := hreset.matches_commandLoop mailPath _ hbound
    rw [htext] at hloop
    simpa [h.closed, hopen] using hloop

theorem Shows.matches_serve (mailPath : Bytes) {c : Connection} {s : Served} (h : Shows c s)
    {reads : List Bytes} (hreads : ∀ input ∈ reads, input.length ≤ serverCommandMaxLen) :
    Matches (serve mailPath c reads) ((reads.map cstr).foldlM readText s) := by
  induction reads generalizing c s with
  | nil => exact ⟨c, rfl, h⟩
  | cons input reads ih =>
    obtain ⟨hinput, hrest⟩ := List.forall_mem_cons.mp hreads
    exact (h.matches_read mailPath hinput).bind fun c s h => ih h hrest

theorem acceptConnection_shows {w : World} (hoom : ∀ a, w.mem.oom a = false) :
    Matches (acceptConnection w) (some greeted) := by
  have hfits : Represents { w with session := newSession, reply := [] } (fresh .initial) :=
    ⟨[], [], [], fits_fresh rfl⟩
  obtain ⟨w', hstart, hrep, hkept, hreply⟩ := hfits.startSession serverReplyMaxLen
  have hgreeting : w'.reply = ascii "220\r\n" := hreply
  refine ⟨⟨w', [], w'.reply, false⟩, by simp [acceptConnection, hstart], hrep, fun a => ?_,
    hgreeting, .nil, hgreeting, rfl⟩
  rw [hkept.oom]
  exact hoom a

end SmtpMta.Server.Reading
