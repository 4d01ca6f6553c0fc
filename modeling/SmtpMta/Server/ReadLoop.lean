import SmtpMta.Server.Smtp

/-! What `server_start` does with the bytes of one connection: a read is cut at
the pairs that `strcrlf` finds, a finished command is joined with the lines kept
in the session, and an unfinished one is kept there. -/
namespace SmtpMta.Server.ReadLoop
open Library.CString Common.ListHead Common.StringUtils Smtp

def serverReplyMaxLen : Nat := 256

def serverCommandMaxLen : Nat := 1024

def newSession : Session := ⟨none, 0, .initial, ⟨none, none, none⟩⟩

structure Call where
  before : World
  command : Bytes
  after : World

/-- A connection with its session. `calls` are the calls so far and `sent` the
bytes of the answers. A closed connection has no session any more. -/
structure Connection where
  world : World
  calls : List Call
  sent : Bytes
  closed : Bool

def Connection.commands (c : Connection) : List Bytes :=
  c.calls.map (·.command)

def acceptConnection (w : World) : Option Connection := do
  let (_, w) ← smtpStartSession serverReplyMaxLen { w with session := newSession, reply := [] }
  some ⟨w, [], w.reply, false⟩

/-- Keep the text from `start` on as a new last line. -/
def bufferLine (start : Bytes) (w : World) : Option World := do
  let len := strlen start
  let (mem, line) := w.mem.malloc
  match line with
  | none => some { w with mem }
  | some line =>
      let mem ← fillLine mem line start len
      let bufferSize := w.session.bufferSize + len
      match w.session.buffer with
      | none => some { w with mem, session := { w.session with buffer := some line, bufferSize } }
      | some head =>
          let lists ← listAddTail mem.lists head line
          some { w with mem := { mem with lists }, session := { w.session with bufferSize } }

/-- `strcat` over the kept lines. -/
def joinLines (mem : Memory) (buffer : Option Addr) (command : Bytes) : Option Bytes :=
  match buffer with
  | none => some command
  | some head => do
      let lines ← listForeach mem.lists head mem.bound head
      lines.foldlM (fun command line => do strcat command (← mem.text line)) command

def joinCommand (start : Bytes) (fin : Nat) (w : World) : Option (Bytes × World) := do
  let commandSize := fin + w.session.bufferSize
  let (mem, block) := w.mem.malloc
  -- memset does not ask for a null pointer
  let _ ← block
  let command ← joinLines mem w.session.buffer (List.replicate (commandSize + 1) nul)
  let command ← strncat command start fin
  some (command, { w with mem })

/-- The loop over the bytes of one read; the first argument bounds its turns. -/
def commandLoop (mailPath : Bytes) : Nat → Bytes → Connection → Option Connection
  | 0, _, _ => none
  | bound + 1, start, c =>
      if strlen start = 0 then some c
      -- the session has been freed
      else if c.closed then none
      else match strcrlf start with
        | none => do
            let world ← bufferLine start c.world
            some { c with world }
        | some fin => do
            let (command, w) ← joinCommand start fin c.world
            let (ret, w') ← smtpProcessCommand command serverReplyMaxLen mailPath w
            commandLoop mailPath bound (start.drop (fin + 2))
              ⟨w', c.calls ++ [⟨w, cstr command, w'⟩], c.sent ++ w'.reply, ret < 0⟩

/-- One read. The descriptor of a closed connection is not read any more. -/
def serveRead (mailPath : Bytes) (c : Connection) (input : Bytes) : Option Connection :=
  if c.closed then some c
  else
    let buf := input ++ List.replicate (serverCommandMaxLen + 1 - input.length) nul
    commandLoop mailPath buf.length buf { c with world := { c.world with reply := [] } }

def serve (mailPath : Bytes) (c : Connection) (reads : List Bytes) : Option Connection :=
  reads.foldlM (serveRead mailPath) c

end SmtpMta.Server.ReadLoop
