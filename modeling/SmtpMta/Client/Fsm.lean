import SmtpMta.Common.SharedStrings

/-! The generated state machine of a client connection, with its handlers. -/
namespace SmtpMta.Client.Fsm
open Library.CString Common.SharedStrings

inductive State where
  | init
  | initialized
  | sEhlo
  | sMf
  | sRt
  | sData
  | sMail
  | sQuit
  | finish
  | sError
  | invalid
  | done
deriving DecidableEq

/-- `te_client_fsm_event` without its end mark, which no caller passes. -/
inductive Event where
  | connected
  | ok
  | bad
  | connectionLost
  | error
deriving DecidableEq

inductive Transition where
  | connect
  | data
  | ehlo
  | error
  | finish
  | invalid
  | mf
  | quit
  | rt
deriving DecidableEq

/-- `client_fsm_trans_table`; it has no rows for the last two states. -/
def transTable : State → Event → State × Transition
  | .init, .connected => (.invalid, .invalid)
  | .init, .ok => (.initialized, .connect)
  | .init, .bad => (.sError, .error)
  | .init, .connectionLost => (.finish, .error)
  | .init, .error => (.sError, .error)
  | .initialized, .connected => (.invalid, .invalid)
  | .initialized, .ok => (.sEhlo, .ehlo)
  | .initialized, .bad => (.sError, .error)
  | .initialized, .connectionLost => (.finish, .error)
  | .initialized, .error => (.sError, .error)
  | .sEhlo, .connected => (.invalid, .invalid)
  | .sEhlo, .ok => (.sMf, .mf)
  | .sEhlo, .bad => (.sError, .error)
  | .sEhlo, .connectionLost => (.finish, .error)
  | .sEhlo, .error => (.sError, .error)
  | .sMf, .connected => (.invalid, .invalid)
  | .sMf, .ok => (.sRt, .rt)
  | .sMf, .bad => (.sError, .error)
  | .sMf, .connectionLost => (.finish, .error)
  | .sMf, .error => (.sError, .error)
  | .sRt, .connected => (.invalid, .invalid)
  | .sRt, .ok => (.sData, .data)
  | .sRt, .bad => (.sError, .error)
  | .sRt, .connectionLost => (.finish, .error)
  | .sRt, .error => (.sError, .error)
  | .sData, .connected => (.invalid, .invalid)
  | .sData, .ok => (.sQuit, .quit)
  | .sData, .bad => (.sError, .error)
  | .sData, .connectionLost => (.finish, .error)
  | .sData, .error => (.sError, .error)
  | .sMail, _ => (.invalid, .invalid)
  | .sQuit, .connected => (.invalid, .invalid)
  | .sQuit, .ok => (.finish, .finish)
  | .sQuit, .bad => (.sError, .error)
  | .sQuit, .connectionLost => (.finish, .error)
  | .sQuit, .error => (.sError, .error)
  | .finish, .connected => (.invalid, .invalid)
  | .finish, .ok => (.invalid, .invalid)
  | .finish, .bad => (.invalid, .invalid)
  | .finish, .connectionLost => (.finish, .finish)
  | .finish, .error => (.invalid, .invalid)
  | .sError, _ => (.sError, .error)
  | .invalid, _ => (.invalid, .invalid)
  | .done, _ => (.invalid, .invalid)

/-- `conn_t`, as far as the exchange with the server uses it. The lines of the
mail text, the sender and the recipient are strings. The counters go on without a
bound; the `int`s of the source hold `stored` of them. -/
structure Conn where
  mailText : List Bytes
  mailFrom : Bytes
  mailTo : Bytes
  state : State
  sendBuf : Option Bytes
  receiveBuf : Option Bytes
  sended : Int
  toSend : Int
  received : Int
  toReceive : Int

/-- The connection as its `int`s hold it. -/
def Conn.stored (c : Conn) : Conn :=
  { c with
    sended := toInt c.sended
    toSend := toInt c.toSend
    received := toInt c.received
    toReceive := toInt c.toReceive }

@[simp] theorem Conn.stored_stored (c : Conn) : c.stored.stored = c.stored := by
  simp [stored]

def initBufSize : Nat := 1024

/-- `init_connection`. The buffers are as `malloc` returns them, which is not checked. -/
def initConnection (mailText : List Bytes) (mailFrom mailTo : Bytes)
    (sendBuf receiveBuf : Option Bytes) : Conn :=
  ⟨mailText, mailFrom, mailTo, .init, sendBuf, receiveBuf, 0, 0, 0, 0⟩

/-- A connection for a mail of one line. -/
def newConn : Conn :=
  initConnection [ascii "hi\r\n"] (ascii "a@b") (ascii "c@d")
    (some (List.replicate initBufSize nul)) (some (List.replicate initBufSize nul))

def domain : Bytes := ascii "alfabank.com"

section Handlers
-- `room k` tells whether the handler's call number `k` of `calloc` succeeds
variable (room : Nat → Bool)

/-- The calls that put a command together piece by piece. -/
def concatParts : Nat → Option Bytes × Int → List Bytes → Option (Option Bytes × Int)
  | _, comm, [] => some comm
  | k, (comm, newLen), part :: parts => do
      let comm ← concatDynamicStrings (room k) comm (some part) newLen (strlen part)
      concatParts (k + 1) comm parts

def queue (nextState : State) (parts : List Bytes) (c : Conn) : Option (State × Conn) := do
  let c := { c with state := nextState }
  let (comm, newLen) ← concatParts room 0 (none, 0) parts
  let (sendBuf, newLen) ← concatDynamicStrings (room parts.length) c.sendBuf comm c.toSend newLen
  some (nextState, { c with sendBuf, toSend := newLen })

def handleConnect (nextState : State) (c : Conn) : Option (State × Conn) :=
  queue room nextState [ascii "EHLO ", domain, ascii "\r\n"] c

def handleEhlo (nextState : State) (c : Conn) : Option (State × Conn) :=
  queue room nextState [ascii "MAIL FROM:<", c.mailFrom, ascii ">\r\n"] c

def handleMf (nextState : State) (c : Conn) : Option (State × Conn) :=
  queue room nextState [ascii "RCPT TO:<", c.mailTo, ascii ">\r\n"] c

def handleRt (nextState : State) (c : Conn) : Option (State × Conn) :=
  queue room nextState [ascii "DATA", ascii "\r\n"] c

def handleQuit (nextState : State) (c : Conn) : Option (State × Conn) :=
  queue room nextState [ascii "QUIT\r\n"] c

def handleFinish (nextState : State) (c : Conn) : Option (State × Conn) :=
  some (nextState, { c with state := nextState })

def handleError (nextState : State) (c : Conn) : Option (State × Conn) :=
  some (nextState, { c with state := nextState })

def concatMailText (mailText : List Bytes) : Option (Option Bytes) := do
  let (text, _) ← concatParts room 0 (none, 0) mailText
  some text

/-- The text block has no terminator, so that `strlen` reads on in the memory
`behind` it, up to the first NUL there. -/
def handleData (behind : Bytes) (nextState : State) (c : Conn) : Option (State × Conn) := do
  let c := { c with state := nextState }
  match ← concatMailText room c.mailText with
  | none => handleError .sError c
  | some text =>
      let k := c.mailText.length
      let text := text ++ behind
      let (comm, newLen) ← concatDynamicStrings (room k) none (some text) 0 (strlen text)
      let (comm, newLen) ←
        concatDynamicStrings (room (k + 1)) comm (some (ascii "\r\n.\r\n")) newLen 5
      let (sendBuf, newLen) ←
        concatDynamicStrings (room (k + 2)) c.sendBuf comm c.toSend newLen
      some (nextState, { c with sendBuf, toSend := newLen })

inductive Stepped where
  | exited
  | stepped (state : State) (c : Conn)

/-- A result of `none` is a memory fault in a handler. -/
def clientFsmStep (behind : Bytes) (state : State) (event : Event) (c : Conn) : Option Stepped :=
  if state = .invalid ∨ state = .done then some (.stepped .init c)
  else
    let (nxtSt, transition) := transTable state event
    let stepped (r : State × Conn) : Stepped := .stepped r.1 r.2
    match transition with
    | .connect => (handleConnect room nxtSt c).map stepped
    | .data => (handleData room behind nxtSt c).map stepped
    | .ehlo => (handleEhlo room nxtSt c).map stepped
    | .error => (handleError nxtSt c).map stepped
    | .finish => (handleFinish nxtSt c).map stepped
    | .invalid => some .exited
    | .mf => (handleMf room nxtSt c).map stepped
    | .quit => (handleQuit room nxtSt c).map stepped
    | .rt => (handleRt room nxtSt c).map stepped

end Handlers

/-- Where a step can lead. A mail without text ends in an error. -/
def Moves (s : State) (event : Event) (s' : State) : Prop :=
  (s' = (transTable s event).1 ∧ (transTable s event).2 ≠ .invalid) ∨
    (s = .sRt ∧ event = .ok ∧ s' = .sError) ∨ ((s = .invalid ∨ s = .done) ∧ s' = s)

section Steps
variable {room : Nat → Bool} {behind : Bytes} {event : Event} {c c' : Conn} {s : State}

/-- What a step may change: not the mail, and not what was received. -/
def Keeps (c c' : Conn) : Prop :=
  ∃ sendBuf toSend, c' = { c with state := c'.state, sendBuf, toSend }

theorem queue_keeps {nextState : State} {parts : List Bytes}
    (h : queue room nextState parts c = some (s, c')) : c'.state = nextState ∧ Keeps c c' := by
  simp only [queue, Option.bind_eq_bind, Option.bind_eq_some_iff] at h
  obtain ⟨⟨comm, newLen⟩, -, ⟨sendBuf, toSend⟩, -, h⟩ := h
  obtain ⟨rfl, rfl⟩ : nextState = s ∧ { c with state := nextState, sendBuf, toSend } = c' := by
    simpa using h
  exact ⟨rfl, sendBuf, toSend, rfl⟩

theorem handleData_keeps {nextState : State}
    (h : handleData room behind nextState c = some (s, c')) :
    (c'.state = nextState ∨ c'.state = .sError) ∧ Keeps c c' := by
  simp only [handleData, Option.bind_eq_bind, Option.bind_eq_some_iff] at h
  obtain ⟨text, -, h⟩ := h
  cases text with
  | none =>
    obtain ⟨rfl, rfl⟩ : State.sError = s ∧ { c with state := .sError } = c' := by
      simpa [handleError] using h
    exact ⟨.inr rfl, c.sendBuf, c.toSend, rfl⟩
  | some text =>
    obtain ⟨⟨comm, newLen⟩, -, h⟩ := Option.bind_eq_some_iff.mp h
    obtain ⟨⟨comm, newLen⟩, -, h⟩ := Option.bind_eq_some_iff.mp h
    obtain ⟨⟨sendBuf, toSend⟩, -, h⟩ := Option.bind_eq_some_iff.mp h
    obtain ⟨rfl, rfl⟩ : nextState = s ∧ { c with state := nextState, sendBuf, toSend } = c' := by
      simpa using h
    exact ⟨.inl rfl, sendBuf, toSend, rfl⟩

theorem transTable_data {state nextState : State}
    (h : transTable state event = (nextState, .data)) : state = .sRt ∧ event = .ok := by
  cases state <;> cases event <;> simp_all [transTable]

theorem clientFsmStep_moves (h : clientFsmStep room behind c.state event c = some (.stepped s c')) :
    Moves c.state event c'.state ∧ Keeps c c' := by
  unfold clientFsmStep at h
  split at h
  · rename_i hdone
    obtain ⟨-, rfl⟩ : State.init = s ∧ c = c' := by simpa using h
    exact ⟨.inr (.inr ⟨hdone, rfl⟩), c.sendBuf, c.toSend, rfl⟩
  rcases htable : transTable c.state event with ⟨nxtSt, transition⟩
  rw [htable] at h
  -- a command is queued, and the state is the one of the table
  have hqueue (parts : List Bytes) (hvalid : transition ≠ .invalid)
      (hq : (queue room nxtSt parts c).map (fun r => Stepped.stepped r.1 r.2) =
        some (.stepped s c')) : Moves c.state event c'.state ∧ Keeps c c' := by
    obtain ⟨⟨s₁, c₁⟩, hqueued, heq⟩ := Option.map_eq_some_iff.mp hq
    obtain ⟨-, rfl⟩ : s₁ = s ∧ c₁ = c' := by simpa using heq
    obtain ⟨hstate, hkeeps⟩ := queue_keeps hqueued
    exact ⟨.inl ⟨by rw [hstate, htable], by rwa [htable]⟩, hkeeps⟩
  have hplain (hvalid : transition ≠ .invalid)
      (hq : some (Stepped.stepped nxtSt { c with state := nxtSt }) = some (.stepped s c')) :
      Moves c.state event c'.state ∧ Keeps c c' := by
    obtain ⟨-, rfl⟩ : nxtSt = s ∧ { c with state := nxtSt } = c' := by simpa using hq
    exact ⟨.inl ⟨by rw [htable], by rwa [htable]⟩, c.sendBuf, c.toSend, rfl⟩
  cases transition with
  | connect => exact hqueue _ (by decide) h
  | ehlo => exact hqueue _ (by decide) h
  | mf => exact hqueue _ (by decide) h
  | rt => exact hqueue _ (by decide) h
  | quit => exact hqueue _ (by decide) h
  | finish => exact hplain (by decide) h
  | error => exact hplain (by decide) h
  | invalid => simp at h
  | data =>
    obtain ⟨hstate, hevent⟩ := transTable_data htable
    obtain ⟨⟨s₁, c₁⟩, hq, heq⟩ := Option.map_eq_some_iff.mp h
    obtain ⟨-, rfl⟩ : s₁ = s ∧ c₁ = c' := by simpa using heq
    obtain ⟨hnext, hkeeps⟩ := handleData_keeps hq
    refine ⟨?_, hkeeps⟩
    rcases hnext with hnext | herror
    · exact .inl ⟨by rw [hnext, htable], by simp [htable]⟩
    · exact .inr (.inl ⟨hstate, hevent, herror⟩)

theorem clientFsmStep_exited (h : clientFsmStep room behind c.state event c = some .exited) :
    (transTable c.state event).2 = .invalid := by
  unfold clientFsmStep at h
  split at h
  · simp at h
  rcases htable : transTable c.state event with ⟨nxtSt, transition⟩
  rw [htable] at h
  cases transition with
  | invalid => rfl
  | _ => simp [Option.map_eq_some_iff] at h

end Steps

end SmtpMta.Client.Fsm
