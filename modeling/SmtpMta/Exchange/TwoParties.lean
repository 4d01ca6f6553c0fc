import SmtpMta.Client.Transfer
import SmtpMta.Library.Trace
import SmtpMta.Server.ReadLoop

/-! One connection of the client with one session of the server, over two
channels that keep the order of the bytes and lose none. Each action is one call
of one side; how much a read or a write moves is up to the channel. -/
namespace SmtpMta.Exchange.TwoParties
open Library.CString Library.Trace Client.Fsm Client.Transfer Server.ReadLoop

structure Parties where
  client : Conn
  server : Connection
  toServer : Bytes
  toClient : Bytes

inductive Action where
  | clientReads (s : Surroundings) (n : Nat)
  | clientLosesConnection (s : Surroundings)
  | recvFails (s : Surroundings)
  | clientWrites (s : Surroundings) (n : Nat)
  | sendFails (s : Surroundings)
  | serverReads (n : Nat)

/-- The event that a call gave to the state machine of the client, and whether
the client is still there. -/
structure Seen where
  event : Option Event
  stopped : Bool

def Ending.stops : Ending → Bool
  | .returned _ => false
  | .exited => true
  | .fault => true

/-- `process_conn_read` on what `recv` returned. -/
def clientReceives (s : Surroundings) (recv : Option Bytes) (e : Parties) :
    Option (Seen × Parties) := do
  let (o, client) ← processConnRead s recv e.client
  some (⟨o.event, Ending.stops o.ending⟩, { e with client })

/-- `process_conn_write` with the number of bytes that `send` accepts. -/
def clientSends (s : Surroundings) (accepted : Option Nat) (e : Parties) :
    Option (Seen × Parties) := do
  let (ending, sent, client) ← processConnWrite s accepted e.client
  let event := if accepted.isNone then some .error else none
  some (⟨event, Ending.stops ending⟩, { e with client, toServer := e.toServer ++ sent })

/-- A side that has nothing to read is not called. A result of `none` is a crash. -/
def exchangeStep (mailPath : Bytes) (e : Parties) : Action → Option (Seen × Parties)
  | .clientReads s n =>
      match e.toClient.take (min n bufsize) with
      | [] => some (⟨none, false⟩, e)
      | recv => clientReceives s (some recv) { e with toClient := e.toClient.drop recv.length }
  | .clientLosesConnection s => clientReceives s (some []) e
  | .recvFails s => clientReceives s none e
  | .clientWrites s n => clientSends s (some n) e
  | .sendFails s => clientSends s none e
  | .serverReads n =>
      match e.toServer.take (min n serverCommandMaxLen) with
      | [] => some (⟨none, false⟩, e)
      | input => do
          let server ← serveRead mailPath e.server input
          some (⟨none, false⟩, { e with
            server, toServer := e.toServer.drop input.length,
            toClient := e.toClient ++ server.sent.drop e.server.sent.length })

def exchangeMachine (mailPath : Bytes) : Machine Parties Action Seen where
  step := exchangeStep mailPath
  stop seen := seen.stopped

/-- The greeting is on its way. -/
def accepted (client : Conn) (server : Connection) : Parties :=
  ⟨client, server, [], server.sent⟩

def EndOfData (call : Call) : Prop :=
  call.before.session.state = .mailData ∧ call.command = ascii "." ∧
    call.after.reply = ascii "250 OK\r\n"

instance (call : Call) : Decidable (EndOfData call) :=
  inferInstanceAs (Decidable (_ ∧ _))

end SmtpMta.Exchange.TwoParties
