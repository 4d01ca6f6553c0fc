import SmtpMta.Client.Fsm
import SmtpMta.Client.ReplyParser

/-! Reading from and writing to one connection, from `client.c`. -/
namespace SmtpMta.Client.Transfer
open Library.CString Common.SharedStrings Fsm ReplyParser

def bufsize : Nat := 1000000

/-- What one turn of the parse loop finds in memory: what lies behind the
receive buffer, the message and the array of the code, and whether the message
can be allocated. -/
structure Turn where
  behind : Bytes
  room : Bool
  stray : Bytes
  num : Bytes

/-- What one call finds in memory. `room` is for the receive buffer, the last
two are for the handler. -/
structure Surroundings where
  room : Bool
  turns : Nat → Turn
  handlerRoom : Nat → Bool
  behind : Bytes

/-- How a call ends: with its result, or in the handler. -/
inductive Ending where
  | returned (ret : Int)
  | exited
  | fault
deriving DecidableEq

structure Output where
  ending : Ending
  event : Option Event
  messages : List Bytes

/-- The length that `recv` returned and the connection after it. Without a
result the call has failed; no bytes are the end of the stream. -/
def connRead (room : Bool) (recv : Option Bytes) (c : Conn) : Option (Int × Conn) :=
  match recv with
  | none => some (-1, c)
  | some [] => some (0, c)
  | some buf => do
      let (receiveBuf, newLen) ←
        concatDynamicStrings room c.receiveBuf (some buf) c.toReceive buf.length
      some (buf.length, { c with receiveBuf, toReceive := newLen })

/-- `stray` lies behind the message. -/
def processMessage (stray num : Bytes) (message : Bytes) : Int :=
  let text := message ++ stray
  if strlen text < 4 then -1
  else if text[3]? = some 45 then 0
  else
    let responseCode := parseReturnCode num text
    if responseCode < 200 ∨ responseCode > 600 then -1
    else if responseCode ≥ 200 ∧ responseCode < 400 then 1
    else -1

/-- The parse loop of `process_conn_read`, up to the step of the state machine
that ends it; the number bounds its turns. -/
def readReply (turns : Nat → Turn) :
    Nat → Nat → List Bytes → Conn → Option (Int × Option Event × List Bytes × Conn)
  | 0, _, _, _ => none
  | bound + 1, k, messages, c => do
      let turn := turns k
      let buf ← c.receiveBuf
      let parsed ← tryParseMessagePart turn.behind turn.room buf c.toReceive
      let c := { c with receiveBuf := some parsed.buf, toReceive := parsed.newLen }
      if parsed.len = -1 then some (-1, some .error, messages, c)
      else if c.toReceive = 0 ∧
          (parsed.message.elim true fun message => strlen (message ++ turn.stray) = 0) then
        some (0, none, messages, c)
      else do
        let c := { c with received := c.received + parsed.len }
        -- process_message does not ask for a null pointer
        let message ← parsed.message
        let res := processMessage turn.stray turn.num message
        let messages := messages ++ [message]
        if res < 0 then some (0, some .bad, messages, c)
        else if res = 0 then readReply turns bound (k + 1) messages c
        else some (0, some .ok, messages, c)

/-- `client_fsm_step` for an event that ends a call. -/
def deliver (s : Surroundings) (ret : Int) (event : Event) (c : Conn) : Ending × Conn :=
  match clientFsmStep s.handlerRoom s.behind c.state event c with
  | none => (.fault, c)
  | some .exited => (.exited, c)
  | some (.stepped _ c) => (.returned ret, c)

/-- A result of `none` is a memory fault before the state machine is asked. -/
def processConnRead (s : Surroundings) (recv : Option Bytes) (c : Conn) :
    Option (Output × Conn) := do
  let (readLen, c) ← connRead s.room recv c
  if readLen < 0 then
    let (ending, c) := deliver s (-1) .error c
    some (⟨ending, some .error, []⟩, c)
  else if readLen = 0 then
    let (ending, c) := deliver s 0 .connectionLost c
    some (⟨ending, some .connectionLost, []⟩, c)
  else
    let (ret, event, messages, c) ← readReply s.turns (c.toReceive.toNat + 1) 0 [] c
    match event with
    | none => some (⟨.returned ret, none, messages⟩, c)
    | some event =>
        let (ending, c) := deliver s ret event c
        some (⟨ending, some event, messages⟩, c)

/-- The bytes that `send` is offered. -/
def offered (c : Conn) : Option Bytes :=
  let sendSize := if c.toSend < bufsize then c.toSend else bufsize
  if sendSize < 0 then none
  else if sendSize = 0 then some []
  else do
    let block ← c.sendBuf
    if (block.length : Int) < c.toSend then none else some (strncpy [] block sendSize.toNat)

/-- The length that `send` returned, the bytes it took, and the connection
after it. Without an accepted number of bytes the call has failed. -/
def connWrite (accepted : Option Nat) (c : Conn) : Option (Int × Bytes × Conn) := do
  let buf ← offered c
  match accepted with
  | none => some (-1, [], c)
  | some accepted =>
      let sent := buf.take accepted
      let newSize := c.toSend - sent.length
      let sendBuf := c.sendBuf.map fun block =>
        (block.drop sent.length).take newSize.toNat ++ block.drop newSize.toNat
      some (sent.length, sent,
        { c with sendBuf, sended := c.sended + sent.length, toSend := newSize })

/-- The bytes put on the wire are part of the result. -/
def processConnWrite (s : Surroundings) (accepted : Option Nat) (c : Conn) :
    Option (Ending × Bytes × Conn) := do
  let (len, sent, c) ← connWrite accepted c
  if len < 0 then
    let (ending, c) := deliver s (-1) .error c
    some (ending, sent, c)
  else some (.returned 0, sent, c)

end SmtpMta.Client.Transfer
