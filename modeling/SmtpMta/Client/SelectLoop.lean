import SmtpMta.Client.Script
import SmtpMta.Client.ReplyFraming
import SmtpMta.Client.MailParser
import Mathlib.Data.List.Forall2

/-! The connections of a worker and the select loop of `process_mails`. -/
namespace SmtpMta.Client.SelectLoop
open Library.CString Library.Trace Fsm Transfer MailFile MailParser
open Script (Regular)

def fdSetsize : Nat := 1024

/-- `conn_t`; the mail is given by its position among those of the worker. -/
structure Connection where
  conn : Conn
  mail : Nat
  host : Slot
  port : Int
  socket : Nat

structure Call where
  number : Nat
  connection : Connection
  event : Event
  room : Nat → Bool

def Call.state (call : Call) : State :=
  call.connection.conn.state

/-- What is left of a round: the descriptors of the `for` loop that are in one
of the sets, and the look at the connections behind it. -/
inductive Task where
  | read (i : Nat)
  | write (i : Nat)
  | check
deriving DecidableEq

/-- Without tasks the loop is at `select`. -/
structure Loop where
  pipeDescr : Nat
  connections : List Connection
  saveWriteFS : List Nat
  tasks : List Task

/-- How the calls of one step to the outside come out: which descriptors are
ready, what `recv` and `send` do, and what memory is like. -/
structure Input where
  ready : Option (List Nat × List Nat)
  recv : Option Bytes
  accepted : Option Nat
  memory : Transfer.Surroundings

structure Output where
  ending : Option Ending
  call : Option Call

def getActiveConnection (connections : List Connection) (socket : Nat) :
    Option (Nat × Connection) :=
  do
    let k ← connections.findIdx? fun connection => connection.socket = socket
    let connection ← connections[k]?
    some (k, connection)

def Finished (c : Conn) : Prop :=
  c.state = .invalid ∨ c.state = .finish ∨ c.state = .sError

instance (c : Conn) : Decidable (Finished c) :=
  inferInstanceAs (Decidable (_ ∨ _))

def checkConnectionsForFinish (connections : List Connection) : Bool :=
  connections.all fun connection => Finished connection.conn

def setConnectionsNeedWrite (connections : List Connection) : List Nat :=
  (connections.filter fun connection =>
    connection.conn.toSend > 0 ∧ ¬Finished connection.conn).map Connection.socket

def Loop.saveReadFS (w : Loop) : List Nat :=
  w.pipeDescr :: w.connections.map Connection.socket

def roundTasks (readFS writeFS : List Nat) : List Task :=
  ((List.range fdSetsize).flatMap fun i =>
    (if i ∈ readFS then [.read i] else []) ++ (if i ∈ writeFS then [.write i] else [])) ++ [.check]

/-- The end of a call as the loop sees it: a result is only logged. -/
def stops : Ending → Option Ending
  | .returned _ => none
  | ending => some ending

/-- The body of the `for` loop for one ready descriptor. -/
def visit (w : Loop) (i : Nat) (room : Nat → Bool)
    (process : Conn → Option (Ending × Option Event × Conn)) : Output × Loop :=
  if i = w.pipeDescr then (⟨some (.returned (-1)), none⟩, w)
  else
    match getActiveConnection w.connections i with
    | none => (⟨none, none⟩, w)
    | some (number, connection) =>
      match process connection.conn with
      | none => (⟨some .fault, none⟩, w)
      | some (ending, event, conn) =>
          (⟨stops ending, event.map fun event => ⟨number, connection, event, room⟩⟩,
            { w with connections := w.connections.set number { connection with conn } })

def processRead (input : Input) (c : Conn) : Option (Ending × Option Event × Conn) :=
  (processConnRead input.memory input.recv c).map fun (output, c) => (output.ending, output.event, c)

def processWrite (input : Input) (c : Conn) : Option (Ending × Option Event × Conn) :=
  (processConnWrite input.memory input.accepted c).map fun (ending, _, c) =>
    (ending, if input.accepted = none then some .error else none, c)

/-- One call of the loop and what it does with the outcome. What the handlers
put into `saveWriteFS` is gone at the end of the round. -/
def step (w : Loop) (input : Input) : Output × Loop :=
  match w.tasks with
  | [] =>
    match input.ready with
    | none => (⟨some (.returned (-1)), none⟩, w)
    | some (readable, writable) =>
        (⟨none, none⟩, { w with tasks := roundTasks (w.saveReadFS.filter (· ∈ readable))
                                  (w.saveWriteFS.filter (· ∈ writable)) })
  | .read i :: tasks => visit { w with tasks } i input.memory.handlerRoom (processRead input)
  | .write i :: tasks => visit { w with tasks } i input.memory.handlerRoom (processWrite input)
  | .check :: tasks =>
    if checkConnectionsForFinish w.connections then (⟨some (.returned 0), none⟩, w)
    else (⟨none, none⟩,
      { w with saveWriteFS := setConnectionsNeedWrite w.connections, tasks })

def selectMachine : Machine Loop Input Output where
  step w input := some (step w input)
  stop output := output.ending.isSome

/-- What `process_mails` finds: the results of `malloc` for the array, for each
connection and its buffers, those of `connect`, and the inputs of the loop. -/
structure Environment where
  room : Bool
  connRoom : Nat → Bool
  sendBuf : Nat → Option Bytes
  receiveBuf : Nat → Option Bytes
  connect : Nat → Bytes → Int → Option Nat
  memory : Transfer.Surroundings
  inputs : List Input

def destinations (mails : List Mail) : List (Nat × Mail × Nat) :=
  mails.zipIdx.flatMap fun (mail, m) => (List.range mail.tosCount).map fun toNum => (m, mail, toNum)

def countMailsConnections (mails : List Mail) : Nat :=
  (mails.map Mail.tosCount).sum

/-- `init_connections`, with no socket yet. `parse_mail` has stored every recipient it counts. -/
def initConnections (env : Environment) (mails : List Mail) : List Connection :=
  (destinations mails).mapIdx fun k (m, mail, toNum) =>
    { conn := initConnection mail.mailText mail.mailFrom ((mail.recievers toNum).read.getD [])
        (env.sendBuf k) (env.receiveBuf k)
      mail := m
      host := mail.hosts toNum
      port := mail.ports toNum
      socket := 0 }

/-- The connections with their sockets, or how the machine took the error of the
first that failed. -/
def connectionsStart (env : Environment) :
    Nat → List Connection → Option (List Connection ⊕ (Ending × Call))
  | _, [] => some (.inl [])
  | k, connection :: connections => do
      let host ← connection.host.read
      match env.connect k host connection.port with
      | none =>
          some (.inr ((deliver env.memory (-1) .error connection.conn).1,
            ⟨k, connection, .error, env.memory.handlerRoom⟩))
      | some socket =>
          match ← connectionsStart env (k + 1) connections with
          | .inl connections => some (.inl ({ connection with socket } :: connections))
          | .inr failed => some (.inr failed)

/-- How a call came out; without an ending it goes on. -/
structure Run where
  ending : Option Ending
  calls : List Call

/-- `process_mails` up to the select loop. After a failed `init_connection` the
freed array is written. -/
def openConnections (env : Environment) (mails : List Mail) : Run ⊕ List Connection :=
  if env.room = false then .inl ⟨some (.returned (-1)), []⟩
  else if ¬∀ k < countMailsConnections mails, env.connRoom k then .inl ⟨some .fault, []⟩
  else
    match connectionsStart env 0 (initConnections env mails) with
    | none => .inl ⟨some .fault, []⟩
    | some (.inr (ending, call)) => .inl ⟨some ending, [call]⟩
    | some (.inl connections) => .inr connections

def callsOf (history : List (Step Loop Input Output)) : List Call :=
  history.filterMap fun st => st.output.call

def runLoop (env : Environment) (w : Loop) : Run :=
  let history := (selectMachine.exec w env.inputs).elim [] Prod.fst
  ⟨history.getLast?.bind fun st => st.output.ending, callsOf history⟩

def startLoop (pipeDescr : Nat) (connections : List Connection) : Loop :=
  ⟨pipeDescr, connections, [], []⟩

def processMails (env : Environment) (pipeDescr : Nat) (mails : List Mail) : Run :=
  match openConnections env mails with
  | .inl run => run
  | .inr connections => runLoop env (startLoop pipeDescr connections)

def Reads (c c' : Conn) : Prop :=
  ∃ receiveBuf received toReceive, c' = { c with receiveBuf, received, toReceive }

section Calls
variable {c c' : Conn} {ending : Ending} {event : Option Event}

theorem connRead_reads {room : Bool} {recv : Option Bytes} {len : Int}
    (h : connRead room recv c = some (len, c')) : Reads c c' := by
  unfold connRead at h
  split at h
  · obtain ⟨-, rfl⟩ : -1 = len ∧ c = c' := by simpa using h
    exact ⟨c.receiveBuf, c.received, c.toReceive, rfl⟩
  · obtain ⟨-, rfl⟩ : 0 = len ∧ c = c' := by simpa using h
    exact ⟨c.receiveBuf, c.received, c.toReceive, rfl⟩
  · obtain ⟨⟨receiveBuf, newLen⟩, -, h⟩ := Option.bind_eq_some_iff.mp h
    obtain ⟨-, rfl⟩ := Prod.mk.inj (Option.some.inj h)
    exact ⟨receiveBuf, c.received, newLen, rfl⟩

theorem Reads.trans {c'' : Conn} (h : Reads c c') (h' : Reads c' c'') : Reads c c'' := by
  obtain ⟨receiveBuf, received, toReceive, rfl⟩ := h
  obtain ⟨receiveBuf', received', toReceive', rfl⟩ := h'
  exact ⟨receiveBuf', received', toReceive', rfl⟩

theorem readReply_reads {turns : Nat → Turn} {bound k : Nat} {messages messages' : List Bytes}
    {ret : Int} (h : readReply turns bound k messages c = some (ret, event, messages', c')) :
    Reads c c' ∧ event ≠ some .connected := by
  induction bound generalizing k messages c with
  | zero => simp [readReply] at h
  | succ bound ih =>
    rw [readReply] at h
    obtain ⟨buf, -, h⟩ := Option.bind_eq_some_iff.mp h
    obtain ⟨parsed, -, h⟩ := Option.bind_eq_some_iff.mp h
    have hparsed : Reads c { c with receiveBuf := some parsed.buf, toReceive := parsed.newLen } :=
      ⟨_, _, _, rfl⟩
    dsimp only at h
    split at h
    · simp only [Option.some.injEq, Prod.mk.injEq] at h
      obtain ⟨-, rfl, -, rfl⟩ := h
      exact ⟨hparsed, by simp⟩
    split at h
    · simp only [Option.some.injEq, Prod.mk.injEq] at h
      obtain ⟨-, rfl, -, rfl⟩ := h
      exact ⟨hparsed, by simp⟩
    obtain ⟨message, -, h⟩ := Option.bind_eq_some_iff.mp h
    have hcounted : Reads c { c with receiveBuf := some parsed.buf, toReceive := parsed.newLen,
                                     received := c.received + parsed.len } := ⟨_, _, _, rfl⟩
    split at h
    · simp only [Option.some.injEq, Prod.mk.injEq] at h
      obtain ⟨-, rfl, -, rfl⟩ := h
      exact ⟨hcounted, by simp⟩
    split at h
    · obtain ⟨hreads, hevent⟩ := ih h
      exact ⟨hcounted.trans hreads, hevent⟩
    · simp only [Option.some.injEq, Prod.mk.injEq] at h
      obtain ⟨-, rfl, -, rfl⟩ := h
      exact ⟨hcounted, by simp⟩

/-- The event that a read brings to the state machine: an error, the end of the
stream, or what the parse loop finds in the text received. -/
def readEvent (s : Transfer.Surroundings) (recv : Option Bytes) (c : Conn) : Option Event := do
  let (readLen, c) ← connRead s.room recv c
  if readLen < 0 then some .error
  else if readLen = 0 then some .connectionLost
  else do
    let (_, event, _) ← readReply s.turns (c.toReceive.toNat + 1) 0 [] c
    event

/-- What a call does to its connection: nothing to the state, or one step of
the state machine. -/
inductive Served (s : Transfer.Surroundings) (c : Conn) : Ending → Option Event → Conn → Prop
  | quiet {c' : Conn} (ret : Int) (state : c'.state = c.state) (mailText : c'.mailText = c.mailText)
      (mailTo : c'.mailTo = c.mailTo) : Served s c (.returned ret) none c'
  | stepped {c₁ : Conn} (ret : Int) {event : Event} (valid : event ≠ .connected)
      (state : c₁.state = c.state) (mailText : c₁.mailText = c.mailText)
      (mailTo : c₁.mailTo = c.mailTo) :
      Served s c (deliver s ret event c₁).1 (some event) (deliver s ret event c₁).2

theorem Reads.served_quiet (h : Reads c c') (s : Transfer.Surroundings) (ret : Int) :
    Served s c (.returned ret) none c' := by
  obtain ⟨receiveBuf, received, toReceive, rfl⟩ := h
  exact .quiet ret rfl rfl rfl

theorem Reads.served_stepped (h : Reads c c') (s : Transfer.Surroundings) (ret : Int)
    {event : Event} (hvalid : event ≠ .connected) :
    Served s c (deliver s ret event c').1 (some event) (deliver s ret event c').2 := by
  obtain ⟨receiveBuf, received, toReceive, rfl⟩ := h
  exact .stepped ret hvalid rfl rfl rfl

theorem processRead_served {input : Input} (h : processRead input c = some (ending, event, c')) :
    Served input.memory c ending event c' ∧ event = readEvent input.memory input.recv c := by
  obtain ⟨⟨output, c₁⟩, hread, heq⟩ := Option.map_eq_some_iff.mp h
  obtain ⟨rfl, rfl, rfl⟩ : output.ending = ending ∧ output.event = event ∧ c₁ = c' := by
    simpa using heq
  obtain ⟨⟨readLen, c₂⟩, hconn, hread⟩ := Option.bind_eq_some_iff.mp hread
  have hreads := connRead_reads hconn
  dsimp only at hread
  split at hread
  · rename_i hneg
    obtain ⟨rfl, rfl⟩ := Prod.mk.inj (Option.some.inj hread)
    exact ⟨hreads.served_stepped _ _ (by simp), by simp [readEvent, hconn, hneg]⟩
  split at hread
  · rename_i hneg hzero
    obtain ⟨rfl, rfl⟩ := Prod.mk.inj (Option.some.inj hread)
    exact ⟨hreads.served_stepped _ _ (by simp), by simp [readEvent, hconn, hzero]⟩
  · rename_i hneg hzero
    obtain ⟨⟨ret, event, messages, c₃⟩, hreply, hread⟩ := Option.bind_eq_some_iff.mp hread
    obtain ⟨hreads', hevent⟩ := readReply_reads hreply
    have hreadEvent : readEvent input.memory input.recv c = event := by
      simp [readEvent, hconn, hneg, hzero, hreply]
    cases event with
    | none =>
      obtain ⟨rfl, rfl⟩ := Prod.mk.inj (Option.some.inj hread)
      exact ⟨(hreads.trans hreads').served_quiet _ _, hreadEvent.symm⟩
    | some event =>
      obtain ⟨rfl, rfl⟩ := Prod.mk.inj (Option.some.inj hread)
      exact ⟨(hreads.trans hreads').served_stepped _ _ (by simpa using hevent), hreadEvent.symm⟩

theorem processRead_isSome {input : Input} {e : Event}
    (h : readEvent input.memory input.recv c = some e) : (processRead input c).isSome := by
  obtain ⟨⟨readLen, c₂⟩, hconn, h⟩ := Option.bind_eq_some_iff.mp h
  dsimp only at h
  split at h
  · rename_i hneg
    simp [processRead, processConnRead, hconn, hneg]
  split at h
  · rename_i hneg hzero
    simp [processRead, processConnRead, hconn, hzero]
  · rename_i hneg hzero
    obtain ⟨⟨ret, event, messages, c₃⟩, hreply, h⟩ := Option.bind_eq_some_iff.mp h
    obtain rfl : event = some e := h
    simp [processRead, processConnRead, hconn, hneg, hzero, hreply]

/-- The error event of a write. -/
def writeEvent (accepted : Option Nat) (c : Conn) : Option Event :=
  if accepted = none ∧ (offered c).isSome then some .error else none

theorem processWrite_served {input : Input} (h : processWrite input c = some (ending, event, c')) :
    Served input.memory c ending event c' ∧ event = writeEvent input.accepted c := by
  obtain ⟨⟨ending, sent, c₁⟩, hwrite, heq⟩ := Option.map_eq_some_iff.mp h
  obtain ⟨rfl, rfl, rfl⟩ := heq
  obtain ⟨⟨len, sent, c₂⟩, hconn, hwrite⟩ := Option.bind_eq_some_iff.mp hwrite
  obtain ⟨buf, hoffered, hconn⟩ := Option.bind_eq_some_iff.mp hconn
  cases haccepted : input.accepted with
  | none =>
    rw [haccepted] at hconn
    simp only [Option.some.injEq, Prod.mk.injEq] at hconn
    obtain ⟨rfl, rfl, rfl⟩ := hconn
    obtain ⟨rfl, -, rfl⟩ := hwrite
    exact ⟨.stepped _ (by simp) rfl rfl rfl, by simp [writeEvent, hoffered]⟩
  | some accepted =>
    rw [haccepted] at hconn
    simp only [Option.some.injEq, Prod.mk.injEq] at hconn
    obtain ⟨rfl, -, rfl⟩ := hconn
    have hlen : ¬((buf.take accepted).length : Int) < 0 := by omega
    simp only [hlen, if_false] at hwrite
    obtain ⟨rfl, -, rfl⟩ := hwrite
    exact ⟨.quiet _ rfl rfl rfl, by simp [writeEvent]⟩

theorem processWrite_isSome {input : Input} {e : Event}
    (h : writeEvent input.accepted c = some e) : (processWrite input c).isSome := by
  unfold writeEvent at h
  split at h
  · rename_i hfails
    obtain ⟨buf, hbuf⟩ := Option.isSome_iff_exists.mp hfails.2
    simp [processWrite, processConnWrite, connWrite, hbuf, hfails.1]
  · simp at h

end Calls

/-- The connection that the next task is about. -/
def due (w : Loop) : Option (Nat × Connection) :=
  match w.tasks with
  | .read i :: _ | .write i :: _ =>
      if i = w.pipeDescr then none else getActiveConnection w.connections i
  | _ => none

/-- The event that the next task brings to that connection. -/
def arriving (w : Loop) (input : Input) (c : Conn) : Option Event :=
  match w.tasks with
  | .read _ :: _ => readEvent input.memory input.recv c
  | .write _ :: _ => writeEvent input.accepted c
  | _ => none

theorem getActiveConnection_eq {connections : List Connection} {i number : Nat}
    {connection : Connection} (h : getActiveConnection connections i = some (number, connection)) :
    connections[number]? = some connection := by
  obtain ⟨k, -, h⟩ := Option.bind_eq_some_iff.mp h
  obtain ⟨connection', hget, h⟩ := Option.bind_eq_some_iff.mp h
  obtain ⟨rfl, rfl⟩ : k = number ∧ connection' = connection := by simpa using h
  exact hget

theorem due_eq {w : Loop} {number : Nat} {connection : Connection}
    (h : due w = some (number, connection)) : w.connections[number]? = some connection := by
  unfold due at h
  split at h
  · split at h
    · simp at h
    · exact getActiveConnection_eq h
  · split at h
    · simp at h
    · exact getActiveConnection_eq h
  · simp at h

/-- What one step can do: leave the connections alone, or serve the one that is due. -/
inductive Took (w : Loop) (input : Input) : Output → List Connection → Prop
  | aside (ending : Option Ending) (lives : ending ≠ some .exited)
      (still : ∀ number connection, due w = some (number, connection) →
        arriving w input connection.conn = none) : Took w input ⟨ending, none⟩ w.connections
  | served {number : Nat} {connection : Connection} {ending : Ending} {event : Option Event}
      {conn : Conn} (turn : due w = some (number, connection))
      (event_eq : event = arriving w input connection.conn)
      (served : Served input.memory connection.conn ending event conn) :
      Took w input
        ⟨stops ending, event.map fun event =>
          ⟨number, connection, event, input.memory.handlerRoom⟩⟩
        (w.connections.set number { connection with conn })

theorem visit_took {w w₀ : Loop} {input : Input} {i : Nat}
    {process : Conn → Option (Ending × Option Event × Conn)}
    (hpipe : w.pipeDescr = w₀.pipeDescr) (hconnections : w.connections = w₀.connections)
    (hdue : due w₀ = if i = w₀.pipeDescr then none else getActiveConnection w₀.connections i)
    (hserved : ∀ c ending event c', process c = some (ending, event, c') →
      Served input.memory c ending event c' ∧ event = arriving w₀ input c)
    (hsome : ∀ c, (arriving w₀ input c).isSome → (process c).isSome) :
    Took w₀ input (visit w i input.memory.handlerRoom process).1
      (visit w i input.memory.handlerRoom process).2.connections := by
  unfold visit
  rw [hpipe, hconnections]
  by_cases hi : i = w₀.pipeDescr
  · rw [if_pos hi, hconnections]
    exact .aside _ (by simp) fun number connection h => by simp [hdue, hi] at h
  rw [if_neg hi] at hdue ⊢
  cases hactive : getActiveConnection w₀.connections i with
  | none =>
    dsimp only
    rw [hconnections]
    exact .aside _ (by simp) fun number connection h => by simp [hdue, hactive] at h
  | some found =>
    obtain ⟨number, connection⟩ := found
    rw [hactive] at hdue
    cases hprocess : process connection.conn with
    | none =>
      simp only [hprocess, hconnections]
      refine .aside _ (by simp) fun number' connection' h => ?_
      obtain ⟨rfl, rfl⟩ : number = number' ∧ connection = connection' := by simpa [hdue] using h
      have hnone := mt (hsome connection.conn)
      simpa [hprocess] using hnone
    | some result =>
      obtain ⟨ending, event, conn⟩ := result
      obtain ⟨hserve, hevent⟩ := hserved _ _ _ _ hprocess
      simp only [hprocess]
      exact .served hdue hevent hserve

theorem step_took (w : Loop) (input : Input) :
    Took w input (step w input).1 (step w input).2.connections := by
  rcases htasks : w.tasks with _ | ⟨task, tasks⟩
  · have hnone : ∀ number connection, due w = some (number, connection) →
        arriving w input connection.conn = none := by simp [due, htasks]
    cases hready : input.ready with
    | none => simpa [step, htasks, hready] using Took.aside _ (by simp) hnone
    | some ready => simpa [step, htasks, hready] using Took.aside _ (by simp) hnone
  cases task with
  | read i =>
    have harriving (c : Conn) : arriving w input c = readEvent input.memory input.recv c := by
      simp [arriving, htasks]
    rw [step, htasks]
    refine visit_took rfl rfl (by simp [due, htasks]) (fun c ending event c' h => ?_) fun c h => ?_
    · rw [harriving]
      exact processRead_served h
    · rw [harriving] at h
      obtain ⟨e, he⟩ := Option.isSome_iff_exists.mp h
      exact processRead_isSome he
  | write i =>
    have harriving (c : Conn) : arriving w input c = writeEvent input.accepted c := by
      simp [arriving, htasks]
    rw [step, htasks]
    refine visit_took rfl rfl (by simp [due, htasks]) (fun c ending event c' h => ?_) fun c h => ?_
    · rw [harriving]
      exact processWrite_served h
    · rw [harriving] at h
      obtain ⟨e, he⟩ := Option.isSome_iff_exists.mp h
      exact processWrite_isSome he
  | check =>
    have hnone : ∀ number connection, due w = some (number, connection) →
        arriving w input connection.conn = none := by simp [due, htasks]
    by_cases hfinish : checkConnectionsForFinish w.connections
    · simpa [step, htasks, hfinish] using Took.aside _ (by simp) hnone
    · simpa [step, htasks, hfinish] using Took.aside _ (by simp) hnone

theorem deliver_cases (s : Transfer.Surroundings) (ret : Int) (event : Event) (c : Conn) :
    deliver s ret event c = (.fault, c) ∨
      (deliver s ret event c = (.exited, c) ∧ (transTable c.state event).2 = .invalid) ∨
      ∃ c', deliver s ret event c = (.returned ret, c') ∧ Moves c.state event c'.state ∧
        Keeps c c' := by
  cases hstep : clientFsmStep s.handlerRoom s.behind c.state event c with
  | none => exact .inl (by simp [deliver, hstep])
  | some stepped =>
    cases stepped with
    | exited => exact .inr (.inl ⟨by simp [deliver, hstep], clientFsmStep_exited hstep⟩)
    | stepped state c' =>
      exact .inr (.inr ⟨c', by simp [deliver, hstep], clientFsmStep_moves hstep⟩)

theorem Served.exited {s : Transfer.Surroundings} {c c' : Conn} {event : Option Event}
    (h : Served s c .exited event c') :
    ∃ e, event = some e ∧ (transTable c.state e).2 = .invalid := by
  generalize hending : Ending.exited = ending at h
  cases h with
  | quiet ret => cases hending
  | @stepped c₁ ret e valid state =>
    rcases deliver_cases s ret e c₁ with hfault | ⟨-, hinvalid⟩ | ⟨c', hreturned, -⟩
    · simp [hfault] at hending
    · exact ⟨_, rfl, by rwa [state] at hinvalid⟩
    · simp [hreturned] at hending

theorem regular_invalid {state : State} {event : Event} (hregular : Regular state)
    (hevent : event ≠ .connected) :
    (transTable state event).2 = .invalid ↔ state = .finish ∧ event ≠ .connectionLost := by
  cases state <;> cases event <;> simp_all [transTable, Regular]

theorem moves_regular {s s' : State} {event : Event} (h : Moves s event s') (hregular : Regular s)
    (hevent : event ≠ .connected) : Regular s' := by
  rcases h with ⟨rfl, hvalid⟩ | ⟨-, -, rfl⟩ | ⟨-, rfl⟩
  · cases s <;> cases event <;> simp_all [transTable, Regular]
  · simp [Regular]
  · exact hregular

theorem Served.regular {s : Transfer.Surroundings} {c c' : Conn} {ending : Ending}
    {event : Option Event} (h : Served s c ending event c') (hregular : Regular c.state) :
    Regular c'.state := by
  cases h with
  | quiet ret state => rwa [state]
  | stepped ret valid state =>
    rw [← state] at hregular
    rcases deliver_cases s ret _ _ with hfault | ⟨hexited, -⟩ | ⟨c', hreturned, hmoves, -⟩
    · rwa [hfault]
    · rwa [hexited]
    · rw [hreturned]
      exact moves_regular hmoves hregular valid

def Orderly (connections : List Connection) : Prop :=
  ∀ connection ∈ connections, Regular connection.conn.state

theorem Took.orderly {w : Loop} {input : Input} {output : Output} {connections : List Connection}
    (h : Took w input output connections) (horderly : Orderly w.connections) :
    Orderly connections := by
  cases h with
  | aside => exact horderly
  | served turn event_eq served =>
    intro connection hmem
    rcases List.mem_or_eq_of_mem_set hmem with hmem | rfl
    · exact horderly connection hmem
    · exact served.regular (horderly _ (List.mem_of_getElem? (due_eq turn)))

/-- A finished connection brings something other than the end of the stream. -/
def Disturbed (w : Loop) (input : Input) : Prop :=
  ∃ number connection event, due w = some (number, connection) ∧ connection.conn.state = .finish ∧
    arriving w input connection.conn = some event ∧ event ≠ .connectionLost

def Valid (call : Call) : Prop :=
  (transTable call.state call.event).2 ≠ .invalid

theorem arriving_ne_connected {w : Loop} {input : Input} {c : Conn} :
    arriving w input c ≠ some .connected := by
  unfold arriving
  split
  · intro h
    obtain ⟨⟨ending, event, c'⟩, hread⟩ := Option.isSome_iff_exists.mp (processRead_isSome h)
    obtain ⟨hserved, hevent⟩ := processRead_served hread
    rw [h] at hevent
    subst hevent
    cases hserved with
    | stepped ret valid => exact valid rfl
  · simp [writeEvent]
  · simp

theorem Took.valid_iff {w : Loop} {input : Input} {output : Output} {connections : List Connection}
    (h : Took w input output connections) (horderly : Orderly w.connections) :
    (∀ call, output.call = some call → Valid call) ↔ ¬Disturbed w input := by
  cases h with
  | aside ending lives still =>
    refine ⟨fun _ hdisturbed => ?_, fun _ call h => by simp at h⟩
    obtain ⟨number, connection, event, hdue, -, harriving, -⟩ := hdisturbed
    simp [still number connection hdue] at harriving
  | @served number connection ending event conn turn event_eq served =>
    have hregular := horderly connection (List.mem_of_getElem? (due_eq turn))
    cases event with
    | none =>
      refine ⟨fun _ hdisturbed => ?_, fun _ call h => by simp at h⟩
      obtain ⟨number', connection', e, hdue, -, harriving, -⟩ := hdisturbed
      obtain ⟨rfl, rfl⟩ : number = number' ∧ connection = connection' := by simpa [turn] using hdue
      simp [← event_eq] at harriving
    | some e =>
      have hconnected : e ≠ .connected := by
        rintro rfl
        exact arriving_ne_connected event_eq.symm
      have hinvalid := regular_invalid hregular hconnected
      constructor
      · rintro hvalid ⟨number', connection', e', hdue, hstate, harriving, hlost⟩
        obtain ⟨rfl, rfl⟩ : number = number' ∧ connection = connection' := by
          simpa [turn] using hdue
        obtain rfl : e = e' := by simpa [← event_eq] using harriving
        exact hvalid _ rfl (hinvalid.mpr ⟨hstate, hlost⟩)
      · intro hquiet call hcall
        obtain rfl := Option.some.inj hcall
        intro hbad
        obtain ⟨hstate, hlost⟩ := hinvalid.mp hbad
        exact hquiet ⟨number, connection, e, turn, hstate, event_eq.symm, hlost⟩

theorem Took.exited {w : Loop} {input : Input} {output : Output} {connections : List Connection}
    (h : Took w input output connections) (hexited : output.ending = some .exited) :
    ∃ call, output.call = some call ∧ ¬Valid call := by
  cases h with
  | aside ending lives still => exact absurd hexited lives
  | @served number connection ending event conn turn event_eq served =>
    obtain rfl : ending = .exited := by
      cases ending <;> simp_all [stops]
    obtain ⟨e, rfl, hinvalid⟩ := served.exited
    exact ⟨_, rfl, fun hvalid => hvalid hinvalid⟩

theorem exists_exec (w : Loop) (inputs : List Input) :
    ∃ history last, selectMachine.exec w inputs = some (history, last) := by
  let Inv (_ : Loop) : Prop := True
  have hstep : ∀ w input, Inv w → True → ∃ o w', selectMachine.step w input = some (o, w') ∧ Inv w' :=
    fun w input _ _ => ⟨(step w input).1, (step w input).2, rfl, trivial⟩
  have hinit : Inv w := trivial
  obtain ⟨history, last, hexec, -⟩ := Machine.exec_always hstep hinit
    (Machine.throughout_of_forall (fun _ _ => trivial) w inputs)
  exact ⟨history, last, hexec⟩

theorem took_of_step {w w' : Loop} {input : Input} {output : Output}
    (h : selectMachine.step w input = some (output, w')) : Took w input output w'.connections := by
  have hstep : step w input = (output, w') := Option.some.inj h
  have htook := step_took w input
  rwa [hstep] at htook

theorem connectionsStart_spec {env : Environment} {k : Nat} {connections : List Connection}
    {result : List Connection ⊕ (Ending × Call)}
    (h : connectionsStart env k connections = some result) :
    match result with
    | .inl started => List.Forall₂ (fun connection opened => opened =
        { connection with socket := opened.socket }) connections started
    | .inr (ending, call) => call.connection ∈ connections ∧ call.event = .error ∧
        ending = (deliver env.memory (-1) .error call.connection.conn).1 := by
  induction connections generalizing k result with
  | nil =>
    obtain rfl : .inl [] = result := by simpa [connectionsStart] using h
    exact .nil
  | cons connection connections ih =>
    rw [connectionsStart] at h
    obtain ⟨host, -, h⟩ := Option.bind_eq_some_iff.mp h
    split at h
    · obtain rfl := Option.some.inj h
      exact ⟨by simp, rfl, rfl⟩
    · obtain ⟨rest, hrest, h⟩ := Option.bind_eq_some_iff.mp h
      have hspec := ih hrest
      cases rest with
      | inl started =>
        obtain rfl := Option.some.inj h
        exact .cons rfl hspec
      | inr failed =>
        obtain rfl := Option.some.inj h
        exact ⟨by simp [hspec.1], hspec.2⟩

theorem initConnections_init {env : Environment} {mails : List Mail} {connection : Connection}
    (h : connection ∈ initConnections env mails) : connection.conn.state = .init := by
  obtain ⟨k, hk, rfl⟩ := List.mem_mapIdx.mp h
  rfl

theorem openConnections_run {env : Environment} {mails : List Mail} {run : Run}
    (h : openConnections env mails = .inl run) :
    (∀ call ∈ run.calls, call.state = .init ∧ Valid call) ∧
      run.ending ≠ some .exited := by
  unfold openConnections at h
  split at h
  · obtain rfl := Sum.inl.inj h
    simp
  split at h
  · obtain rfl := Sum.inl.inj h
    simp
  split at h
  · obtain rfl := Sum.inl.inj h
    simp
  · rename_i ending call hstart
    obtain rfl := Sum.inl.inj h
    obtain ⟨hmem, hevent, hending⟩ := connectionsStart_spec hstart
    have hinit := initConnections_init hmem
    have hvalid : Valid call := by simp [Valid, Call.state, hinit, hevent, transTable]
    refine ⟨fun call' hcall => ?_, ?_⟩
    · obtain rfl := List.mem_singleton.mp hcall
      exact ⟨hinit, hvalid⟩
    · rcases deliver_cases env.memory (-1) .error call.connection.conn with
        hfault | ⟨-, hinvalid⟩ | ⟨c', hreturned, -⟩
      · simp [hending, hfault]
      · exact absurd hinvalid (by simp [hinit, transTable])
      · simp [hending, hreturned]
  · simp at h

theorem openConnections_opened {env : Environment} {mails : List Mail} {opened : List Connection}
    (h : openConnections env mails = .inr opened) :
    List.Forall₂ (fun connection opened => opened = { connection with socket := opened.socket })
      (initConnections env mails) opened := by
  unfold openConnections at h
  split at h
  · simp at h
  split at h
  · simp at h
  split at h
  · simp at h
  · simp at h
  · rename_i started hstart
    obtain rfl := Sum.inr.inj h
    exact connectionsStart_spec hstart

theorem openConnections_init {env : Environment} {mails : List Mail} {opened : List Connection}
    (h : openConnections env mails = .inr opened) {connection : Connection}
    (hmem : connection ∈ opened) : connection.conn.state = .init := by
  have hopened := openConnections_opened h
  obtain ⟨k, hk, rfl⟩ := List.getElem_of_mem hmem
  have hk' : k < (initConnections env mails).length := by rwa [hopened.length_eq]
  have hconn : opened[k].conn = (initConnections env mails)[k].conn :=
    (congrArg Connection.conn (hopened.get hk' hk) :)
  rw [hconn]
  exact initConnections_init (List.getElem_mem hk')

/-- The worker asks its machine only with valid pairs in the runs in which no
finished connection is disturbed, and in no others. -/
theorem machine_never_exits (env : Environment) (pipeDescr : Nat) (mails : List Mail) :
    ((∀ call ∈ (processMails env pipeDescr mails).calls, Valid call) ∧
        (processMails env pipeDescr mails).ending ≠ some .exited) ↔
      ∀ connections, openConnections env mails = .inr connections →
        selectMachine.Throughout (fun w input => ¬Disturbed w input)
          (startLoop pipeDescr connections) env.inputs := by
  unfold processMails
  cases hopen : openConnections env mails with
  | inl run =>
    obtain ⟨hcalls, hending⟩ := openConnections_run hopen
    exact ⟨fun _ connections h => by simp at h, fun _ => ⟨fun call h => (hcalls call h).2, hending⟩⟩
  | inr connections =>
    obtain ⟨history, last, hexec⟩ := exists_exec (startLoop pipeDescr connections) env.inputs
    have horderly : Orderly (startLoop pipeDescr connections).connections := by
      intro connection hmem
      rw [openConnections_init hopen hmem]
      simp [Regular]
    let Inv (w : Loop) : Prop := Orderly w.connections
    have hinit : Inv (startLoop pipeDescr connections) := horderly
    have htook {st : Step Loop Input Output} (hmem : st ∈ history) :
        Took st.before st.input st.output st.after.connections ∧ Orderly st.before.connections := by
      have hkept : ∀ w input o w', Inv w → selectMachine.step w input = some (o, w') → Inv w' :=
        fun w input o w' h hstep => (took_of_step hstep).orderly h
      obtain ⟨hstep, hbefore⟩ := Machine.exec_kept hkept hinit hexec hmem
      exact ⟨took_of_step hstep, hbefore⟩
    have hcalls : (∀ call ∈ callsOf history, Valid call) ↔
        ∀ st ∈ history, ¬Disturbed st.before st.input := by
      simp only [callsOf, List.mem_filterMap]
      constructor
      · intro h st hmem
        obtain ⟨hst, hbefore⟩ := htook hmem
        exact (hst.valid_iff hbefore).mp fun call hcall => h call ⟨st, hmem, hcall⟩
      · rintro h call ⟨st, hmem, hcall⟩
        obtain ⟨hst, hbefore⟩ := htook hmem
        exact (hst.valid_iff hbefore).mpr (h st hmem) call hcall
    simp only [runLoop, hexec, Option.elim_some, Sum.inr.injEq, forall_eq']
    rw [Machine.throughout_iff hexec, ← hcalls]
    refine ⟨And.left, fun h => ⟨h, fun hexited => ?_⟩⟩
    obtain ⟨st, hlast, hending⟩ := Option.bind_eq_some_iff.mp hexited
    have hmem := List.mem_of_getLast? hlast
    obtain ⟨call, hcall, hbad⟩ := (htook hmem).1.exited hending
    exact hbad (h call (List.mem_filterMap.mpr ⟨st, hmem, hcall⟩))

def twoRecipients : Mail where
  mailText := [ascii "hi\r\n"]
  mailFrom := ascii "a@b"
  recievers j := .stored (if j = 0 then ascii "c@d" else ascii "e@f")
  hosts _ := .stored (ascii "1.2.3.4")
  ports _ := 25
  tosCount := 2
  textLen := 1

/-- The server of the first socket says `250 ok` again and again; the other one is silent. -/
def talkative (rounds : Nat) : Environment where
  room := true
  connRoom _ := true
  sendBuf _ := some (List.replicate initBufSize nul)
  receiveBuf _ := some (List.replicate initBufSize nul)
  connect k _ _ := some (4 + k)
  memory := ReplyFraming.calm
  -- each round takes an input for select, one for the read and one for the check
  inputs := List.replicate (3 * rounds)
    ⟨some ([4], []), some (ascii "250 ok\r\n"), none, ReplyFraming.calm⟩

/-- The reply behind the one to QUIT ends the worker, and with it the other delivery. -/
theorem extra_reply_exits :
    (processMails (talkative 8) 3 [twoRecipients]).ending = some .exited ∧
      (processMails (talkative 8) 3 [twoRecipients]).calls.getLast?.map (fun call =>
        (call.number, call.state, call.event)) = some (0, .finish, .ok) := by
  decide +kernel

end SmtpMta.Client.SelectLoop
