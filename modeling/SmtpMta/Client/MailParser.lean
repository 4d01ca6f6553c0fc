import SmtpMta.Client.MailFile

/-! `parse_mail` and its helpers. The local arrays keep what the stack held
where `memset` does not reach. A result of `none` is a memory fault: a null or
unreadable pointer is followed, an array is written past its end, or a pointer
that `malloc` did not return is freed. -/
namespace SmtpMta.Client.MailParser
open Library.CString MailFile

def maxToCount : Nat := 16

def homeHost : Bytes := ascii "alfabank.com"

def homeIp : Bytes := ascii "127.0.0.1"

def homePort : Int := 3001

def smtpPort : Int := 25

def maxHostAdrLen : Nat := 256

/-- What a helper that cuts a string finds: whether there is memory for the
copy, and the address of the string. -/
structure Cut where
  room : Bool
  address : Nat

/-- The difference of two pointers, null where there is no offset, as an `int`. -/
def pointerDiff (address : Nat) (last first : Option Nat) : Int :=
  let pointer (offset : Option Nat) : Int := offset.elim 0 fun k => address + k
  (pointer last - pointer first + 2 ^ 31) % 2 ^ 32 - 2 ^ 31

/-- The copy of what follows the first delimiter, cut down to the length that the
two delimiters give. A negative length is too much for `malloc`, and a length of
zero becomes the largest one for `strncpy`. -/
def cutBetween (cut : Cut) (str : Bytes) (first last : Option Nat) : Option (Option Bytes) :=
  let len := pointerDiff cut.address last first
  if len < 0 ∨ cut.room = false then some none
  else if len = 0 then none
  else if len = 1 then some (some [])
  else do
    let start ← first
    some (some (cstr (strncpy [] (str.drop (start + 1)) (len.toNat - 1) ++ [nul])))

def cutAddressesFromMailFormat (cut : Cut) (addrStrRaw : Bytes) : Option (Option Bytes) :=
  cutBetween cut addrStrRaw (strchr addrStrRaw 60) (strrchr addrStrRaw 62)

def cutHostFromReciever (cut : Cut) (reciever : Bytes) : Option (Option Bytes) :=
  cutBetween cut reciever (strchr reciever 64) (some (strlen reciever))

/-- How the questions to the name server for one host come out: the first record
of each answer as text, if there is one, and whether there is memory for the
copies. -/
structure Lookup where
  mx : Option Bytes
  mxRoom : Bool
  a : Bytes → Option Bytes
  aRoom : Bool
  room : Bool

/-- The last field of the record that the name server returned. -/
def getRecord (room : Bool) (rows : Option Bytes) : Option (Option Bytes) :=
  match rows with
  | none => some none
  | some rows =>
    let tmpSp := (strrchr rows 32).elim 0 (· + 1)
    let tmpTb := (strrchr rows 9).elim 0 (· + 1)
    if strrchr rows 32 = none ∧ strrchr rows 9 = none then if room then none else some none
    else if room then some (some (cstr (rows.drop (max tmpSp tmpTb)))) else some none

/-- The address, and the port where one is written. -/
def getAddressFromReciever (lookup : Lookup) (recieverHost : Bytes) (isHomeMode : Int) :
    Option (Option Bytes × Option Int) :=
  if strcmp recieverHost homeHost = 0 then
    if isHomeMode ≠ 0 then
      if lookup.room then some (some homeIp, some homePort) else some (none, none)
    else some (some (ascii "home"), none)
  else do
    match ← getRecord lookup.mxRoom lookup.mx with
    | none => some (none, none)
    | some mx =>
      match ← getRecord lookup.aRoom (lookup.a mx) with
      | none => some (none, none)
      | some addr =>
        if lookup.room then
          if maxHostAdrLen ≤ addr.length then none else some (some addr, some smtpPort)
        else some (none, none)

structure Surroundings where
  toRaws : Slots
  hosts : Slots
  tos : Slots
  addrs : Slots
  ports : Nat → Int
  mailRoom : Bool
  tosRoom : Bool
  fromCut : Cut
  toCut : Nat → Cut
  hostCut : Nat → Cut
  portsRoom : Bool
  addrsRoom : Bool
  lookup : Nat → Lookup
  textRoom : Bool
  lineRoom : Nat → Bool

inductive Freed where
  | mail
  | mailFrom
  | mailTo
  | host
  | tos
  | ports
  | addrs
  | text
  | tosSlot (j : Nat)
  | hostsSlot (j : Nat)
  | addrsSlot (j : Nat)
  | textSlot (j : Nat)
deriving DecidableEq

def freeSlots (freed : Nat → Freed) (arr : Slots) (js : List Nat) : Option (List Freed) :=
  if js.any fun j => (arr j matches .stray _) then none else some (js.map freed)

/-- `mail_t`. The text is the strings of `mail_text[0..text_len)`. -/
structure Mail where
  mailText : List Bytes
  mailFrom : Bytes
  recievers : Slots
  hosts : Slots
  ports : Nat → Int
  tosCount : Nat
  textLen : Int

def isBlank (line : Bytes) : Bool :=
  strcmp line (ascii "\n") = 0 || strcmp line (ascii "\r\n") = 0

/-- The header scan: how many recipient lines there are, and the array of them.
The number bounds the lines, as the array has room for that many. -/
def scanHeader (mailFileText : Slots) : Nat → Nat → Slots → Option (Nat × Slots)
  | 0, _, _ => none
  | bound + 1, sn, toRaws => do
      let line ← (mailFileText sn).read
      if isBlank line then some (sn - 1, toRaws)
      else if maxToCount ≤ sn - 1 then none
      else
        scanHeader mailFileText bound (sn + 1)
          (Function.update toRaws (sn - 1) (mailFileText sn))

structure Kept where
  tos : Slots
  hosts : Slots
  rhc : Nat
  freed : List Freed

/-- The loop over the recipient lines; a failed cut ends it with what is freed
then. -/
def keepRecievers (s : Surroundings) (isHomeMode : Int) (toRaws : Slots) :
    Nat → Nat → Kept → Option (Kept ⊕ List Freed)
  | 0, _, kept => some (.inl kept)
  | bound + 1, i, kept =>
    if toRaws i = .null then some (.inl kept)
    else do
      let toRaw ← (toRaws i).read
      match ← cutAddressesFromMailFormat (s.toCut i) toRaw with
      | none =>
          let tos ← freeSlots .tosSlot kept.tos (List.range i)
          let hosts ← freeSlots .hostsSlot kept.hosts (List.range (i - 1))
          some (.inr (kept.freed ++ tos ++ hosts ++ [.mailFrom, .mail, .tos]))
      | some mailTo =>
        match ← cutHostFromReciever (s.hostCut i) mailTo with
        | none =>
            let tos ← freeSlots .tosSlot kept.tos (List.range (i - 1))
            let hosts ← freeSlots .hostsSlot kept.hosts (List.range i)
            some (.inr (kept.freed ++ tos ++ hosts ++ [.mailTo, .mailFrom, .mail, .tos]))
        | some host =>
            if strcmp host homeHost = 0 ∧ isHomeMode = 0 then
              keepRecievers s isHomeMode toRaws bound (i + 1)
                { kept with freed := kept.freed ++ [.host, .mailTo] }
            else
              keepRecievers s isHomeMode toRaws bound (i + 1)
                { kept with tos := Function.update kept.tos kept.rhc (.stored mailTo),
                            hosts := Function.update kept.hosts kept.rhc (.stored host),
                            rhc := kept.rhc + 1 }

/-- The loop of `get_recievers_from_hosts`, which looks at one slot more than the
array has before it ends. -/
def resolveHosts (s : Surroundings) (isHomeMode : Int) (hosts : Slots) :
    Nat → Nat → Nat → Slots → (Nat → Int) → Option ((Slots × (Nat → Int)) ⊕ List Freed)
  | 0, _, _, addrs, ports => some (.inl (addrs, ports))
  | bound + 1, i, rhc, addrs, ports =>
    if hosts i = .null then some (.inl (addrs, ports))
    else do
      let host ← (hosts i).read
      let (addr, port) ← getAddressFromReciever (s.lookup i) host isHomeMode
      let ports := port.elim ports fun port => Function.update ports rhc port
      match addr with
      | none => do
          let freed ← freeSlots .addrsSlot addrs (List.range rhc)
          some (.inr (freed ++ [.addrs]))
      | some addr =>
          if strcmp addr (ascii "home") = 0 then
            resolveHosts s isHomeMode hosts bound (i + 1) rhc addrs ports
          else
            resolveHosts s isHomeMode hosts bound (i + 1) (rhc + 1)
              (Function.update addrs rhc (.stored addr)) ports

def getRecieversFromHosts (s : Surroundings) (hosts : Slots) (isHomeMode : Int) :
    Option ((Slots × (Nat → Int)) ⊕ List Freed) :=
  if s.addrsRoom then
    resolveHosts s isHomeMode hosts maxToCount 0 0 (memsetSlots maxToCount s.addrs) s.ports
  else some (.inr [])

/-- The copies of the lines after the blank one, or how many were made when
there was no memory for the next. -/
def copyText (s : Surroundings) (mailFileText : Slots) (toCount : Nat) :
    Nat → Nat → Option (List Bytes ⊕ Nat)
  | 0, _ => some (.inl [])
  | bound + 1, i =>
    if s.lineRoom i then do
      let line ← (mailFileText (i + toCount + 2)).read
      if maxStrLength ≤ line.length then none
      else
        match ← copyText s mailFileText toCount bound (i + 1) with
        | .inl lines => some (.inl (line :: lines))
        | .inr made => some (.inr made)
    else some (.inr i)

def finishMail (s : Surroundings) (mailFileText : Slots) (strNum : Nat) (isHomeMode : Int)
    (mailFrom : Bytes) (toCount : Nat) (kept : Kept) : Option (Option Mail × List Freed) :=
  if s.portsRoom then do
    match ← getRecieversFromHosts s kept.hosts isHomeMode with
    | .inr freed =>
        let tos ← freeSlots .tosSlot kept.tos (List.range toCount)
        let hosts ← freeSlots .hostsSlot kept.hosts (List.range toCount)
        some (none, kept.freed ++ freed ++ tos ++ hosts ++ [.ports, .mailFrom, .mail, .tos])
    | .inl (addrs, ports) =>
        if s.textRoom then
          match ← copyText s mailFileText toCount (strNum - toCount - 2) 0 with
          | .inr made =>
              let tos ← freeSlots .tosSlot kept.tos (List.range toCount)
              let hosts ← freeSlots .hostsSlot kept.hosts (List.range toCount)
              let addrs ← freeSlots .addrsSlot addrs (List.range toCount)
              some (none, kept.freed ++ (List.range made).map .textSlot ++ tos ++ hosts ++ addrs ++
                [.ports, .mailFrom, .addrs, .text, .mail, .tos])
          | .inl mailText =>
              let hosts ← freeSlots .hostsSlot kept.hosts (List.range toCount)
              some (some { mailText, mailFrom, recievers := kept.tos, hosts := addrs, ports,
                           tosCount := kept.rhc, textLen := (strNum : Int) - toCount - 2 },
                kept.freed ++ hosts)
        else
          let tos ← freeSlots .tosSlot kept.tos (List.range kept.rhc)
          let hosts ← freeSlots .hostsSlot kept.hosts (List.range kept.rhc)
          let freed ← freeSlots .addrsSlot addrs (List.range kept.rhc)
          some (none, kept.freed ++ tos ++ hosts ++ freed ++ [.ports, .mailFrom, .addrs, .mail, .tos])
  else do
    let tos ← freeSlots .tosSlot kept.tos (List.range kept.rhc)
    let hosts ← freeSlots .hostsSlot kept.hosts (List.range kept.rhc)
    some (none, kept.freed ++ tos ++ hosts ++ [.mailFrom, .mail, .tos])

/-- The mail, or a null pointer, and what was freed. -/
def parseMail (s : Surroundings) (mailFileText : Slots) (strNum : Nat) (isHomeMode : Int) :
    Option (Option Mail × List Freed) :=
  if strNum < 3 then some (none, [])
  else do
    let fromRaw := mailFileText 0
    let (toCount, toRaws) ←
      scanHeader mailFileText (maxToCount + 1) 1 (memsetSlots maxToCount s.toRaws)
    if s.mailRoom = false then some (none, [])
    else if s.tosRoom = false then some (none, [.mail])
    else do
      let fromRaw ← fromRaw.read
      match ← cutAddressesFromMailFormat s.fromCut fromRaw with
      | none => some (none, [.mail, .tos])
      | some mailFrom =>
        let kept : Kept := ⟨memsetSlots maxToCount s.tos, memsetSlots maxToCount s.hosts, 0, []⟩
        match ← keepRecievers s isHomeMode toRaws maxToCount 0 kept with
        | .inr freed => some (none, freed)
        | .inl kept => finishMail s mailFileText strNum isHomeMode mailFrom toCount kept

end SmtpMta.Client.MailParser
