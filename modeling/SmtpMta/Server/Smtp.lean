import SmtpMta.Common.ListHead
import SmtpMta.Common.StringUtils
import SmtpMta.Library.Regex

/-! The session machine of `smtp.c`, on a memory in which the lines of a session
are linked records. A result of `none` is a null or dangling dereference. -/
namespace SmtpMta.Server.Smtp
open Library.CString Library.Regex Library.Ring Common.ListHead Common.StringUtils

/-- The linked lines. `text` is the `data` block of a line; addresses from
`brk` on are free, and `oom` says which allocations fail. -/
structure Memory where
  lists : Lists
  text : Addr → Option Bytes
  brk : Addr
  oom : Addr → Bool

inductive SmtpState where
  | initial
  | established
  | mailRcpt
  | mailData
deriving DecidableEq

/-- `mailFrom` is the block that the `from` pointer points to. -/
structure Envelope where
  recipients : Option Addr
  data : Option Addr
  mailFrom : Option Bytes
deriving DecidableEq

structure Session where
  buffer : Option Addr
  bufferSize : Nat
  state : SmtpState
  envelope : Envelope
deriving DecidableEq

/-- The contents of the files in `<mail_path>/<mailbox>/new`. -/
abbrev Maildirs := Bytes → Bytes → List Bytes

/-- What a call reads and changes. `reply` is the text in the reply buffer. -/
structure World where
  mem : Memory
  session : Session
  reply : Bytes
  dirs : Maildirs

/-- Positions that a walk over linked lines can visit. -/
def Memory.bound (mem : Memory) : Nat := mem.brk + 1

def Memory.malloc (mem : Memory) : Memory × Option Addr :=
  ({ mem with brk := mem.brk + 1 }, if mem.oom mem.brk then none else some mem.brk)

/-- `memset`, `list_init` and `strncpy` on a fresh line with room for `len`
bytes and a terminator. -/
def fillLine (mem : Memory) (line : Addr) (data : Bytes) (len : Nat) : Option Memory := do
  let lists ← listInit (Function.update mem.lists line (some ⟨none, none⟩)) line
  let block := strncpy (List.replicate (len + 1) nul) data len
  some { mem with lists, text := Function.update mem.text line (some block) }

/-- `free`; the line must be allocated. -/
def freeLine (mem : Memory) (line : Addr) : Option Memory :=
  (mem.lists line).map fun _ =>
    { mem with lists := Function.update mem.lists line none,
               text := Function.update mem.text line none }

/-- The loop of `free_smtp_lines`; the first argument bounds its turns. -/
def freeLines (lines : Addr) : Nat → Memory → Addr → Addr → Option Memory
  | 0, _, _, _ => none
  | bound + 1, mem, head, next => do
      let mem ← freeLine mem head
      if next ≠ lines then freeLines lines bound mem next (← nextOf mem.lists next)
      else some mem

def freeSmtpLines (mem : Memory) (lines : Addr) : Option Memory := do
  freeLines lines mem.bound mem lines (← nextOf mem.lists lines)

def freeIfAny (mem : Memory) (lines : Option Addr) : Option Memory :=
  match lines with
  | none => some mem
  | some lines => freeSmtpLines mem lines

def envelopeFree (mem : Memory) (envelope : Envelope) : Option Memory := do
  let mem ← freeIfAny mem envelope.recipients
  freeIfAny mem envelope.data

def bufferReset (w : World) : Option World := do
  let mem ← freeIfAny w.mem w.session.buffer
  some { w with mem, session := { w.session with buffer := none, bufferSize := 0 } }

def smtpSessionReset (w : World) (state : SmtpState) : Option World := do
  let w ← bufferReset w
  let mem ← envelopeFree w.mem w.session.envelope
  some { w with mem, session := { w.session with state, envelope := ⟨none, none, none⟩ } }

/-- `snprintf` of a text without conversions. -/
def snprintf (w : World) (len : Nat) (text : String) : World :=
  { w with reply := (ascii text).take (len - 1) }

def smtpStartSession (len : Nat) (w : World) : Option (Int × World) := do
  let w ← smtpSessionReset w .initial
  some (0, snprintf w len "220\r\n")

def smtpFreeSession (w : World) : Option World :=
  smtpSessionReset w .initial

section Patterns

/-- A literal text in a pattern with `REG_ICASE`. -/
def anyCase (text : String) : RegularExpression Byte :=
  sequence ((ascii text).map fun c => if 97 ≤ tolower c ∧ tolower c ≤ 122 then
    [tolower c, tolower c - 32] else [c])

/-- The class `[0-9a-zA-Z\-]`, in which the backslash stands for itself. -/
def atomChars : Bytes := ascii "0123456789abcdefghijklmnopqrstuvwxyzABCDEFGHIJKLMNOPQRSTUVWXYZ\\-"

def regexAtom : RegularExpression Byte := plus (oneOf atomChars)

def regexDomain : RegularExpression Byte := regexAtom * (.char 46 * regexAtom).star

def regexMail : RegularExpression Byte := regexDomain * .char 64 * regexDomain

/-- The characters that `.` stands for: all but the terminator. -/
def anyChars : Bytes := (List.range' 1 255).map UInt8.ofNat

def mailPattern : Pattern Byte :=
  ⟨anyCase "MAIL FROM:<", regexMail, .char 62 * (oneOf anyChars).star⟩

def rcptPattern : Pattern Byte :=
  ⟨anyCase "RCPT TO:<", regexMail, .char 62⟩

end Patterns

def smtpEhlo (_command : Bytes) (len : Nat) (w : World) : Option (Int × World) := do
  let w ← smtpSessionReset w .established
  some (0, snprintf w len "250\r\n")

def smtpMail (command : Bytes) (len : Nat) (w : World) : Option (Int × World) := do
  match mailPattern.exec (cstr command) with
  | none => some (0, snprintf w len "500\r\n")
  | some (so, eo) =>
      if w.session.state ≠ .established then some (0, snprintf w len "503\r\n")
      else
        let fromLen := eo - so
        let (mem, block) := w.mem.malloc
        -- memset comes before the test for a null pointer
        let _ ← block
        let mailFrom := strncpy (List.replicate fromLen nul) (command.drop so) fromLen
        let envelope := { w.session.envelope with mailFrom := some mailFrom }
        let w := { w with mem, session := { w.session with state := .mailRcpt, envelope } }
        some (0, snprintf w len "250 OK\r\n")

def storeLine (mem : Memory) (lines : Option Addr) (line : Addr) :
    Option (Memory × Option Addr) :=
  match lines with
  | none => some (mem, some line)
  | some head => do
      let lists ← listAdd mem.lists head line
      some ({ mem with lists }, some head)

def smtpRcpt (command : Bytes) (len : Nat) (w : World) : Option (Int × World) := do
  match rcptPattern.exec (cstr command) with
  | none => some (0, snprintf w len "500\r\n")
  | some (so, eo) =>
      if w.session.state ≠ .mailRcpt then some (0, snprintf w len "503\r\n")
      else
        let recipientLen := eo - so
        let (mem, recipient) := w.mem.malloc
        -- memset comes before the test for a null pointer
        let recipient ← recipient
        let mem ← fillLine mem recipient (command.drop so) recipientLen
        let (mem, recipients) ← storeLine mem w.session.envelope.recipients recipient
        let envelope := { w.session.envelope with recipients }
        let w := { w with mem, session := { w.session with envelope } }
        some (0, snprintf w len "250\r\n")

def smtpData (command : Bytes) (len : Nat) (w : World) : Option (Int × World) :=
  if ¬(anyCase "DATA").rmatch (cstr command) then some (0, snprintf w len "500\r\n")
  else if w.session.state ≠ .mailRcpt then some (0, snprintf w len "503\r\n")
  else
    let w := { w with session := { w.session with state := .mailData } }
    some (0, snprintf w len "354\r\n")

/-- The source returns here before its delivery loop, so no file is written. -/
def envelopeSave (_envelope : Envelope) (_mailPath : Bytes) (dirs : Maildirs) : Int × Maildirs :=
  (0, dirs)

def smtpReadData (command : Bytes) (len : Nat) (mailPath : Bytes) (w : World) :
    Option (Int × World) := do
  if strcmp (ascii ".") command = 0 then
    let (ret, dirs) := envelopeSave w.session.envelope mailPath w.dirs
    let w := { w with dirs }
    let w := if ret ≠ 0 then snprintf w len "500\r\n" else snprintf w len "250 OK\r\n"
    let w ← smtpSessionReset w .established
    some (0, w)
  else
    let dataLen := strlen command
    let (mem, data) := w.mem.malloc
    match data with
    | none => some (0, snprintf { w with mem } len "500\r\n")
    | some line =>
        -- the reply buffer keeps its text
        let mem ← fillLine mem line command dataLen
        let (mem, lines) ← storeLine mem w.session.envelope.data line
        let envelope := { w.session.envelope with data := lines }
        some (0, { w with mem, session := { w.session with envelope } })

def smtpReset (command : Bytes) (len : Nat) (w : World) : Option (Int × World) := do
  if ¬(anyCase "RSET").rmatch (cstr command) then some (0, snprintf w len "500\r\n")
  else
    let w ← smtpSessionReset w
      (if w.session.state = .initial then .initial else .established)
    some (0, snprintf w len "250 OK\r\n")

def smtpQuit (command : Bytes) (len : Nat) (w : World) : Option (Int × World) := do
  if ¬(anyCase "QUIT").rmatch (cstr command) then some (-1, snprintf w len "500\r\n")
  else
    let w ← smtpFreeSession w
    some (-1, snprintf w len "221 OK\r\n")

def smtpProcessCommand (command : Bytes) (len : Nat) (mailPath : Bytes) (w : World) :
    Option (Int × World) := do
  let w ← bufferReset w
  if w.session.state = .mailData then smtpReadData command len mailPath w
  else
    let command := strtrim command
    let starts (verb : String) : Bool := strstartswith command (ascii verb) true
    if starts "EHLO" || starts "HELO" then smtpEhlo command len w
    else if starts "MAIL" then smtpMail command len w
    else if starts "RCPT" then smtpRcpt command len w
    else if starts "DATA" then smtpData command len w
    else if starts "RSET" then smtpReset command len w
    else if starts "QUIT" then smtpQuit command len w
    else if starts "VRFY" || starts "VERIFY" then
      some (0, snprintf w len "502 Not implemented\r\n")
    else some (0, snprintf w len "500 Unknown command\r\n")

end SmtpMta.Server.Smtp
