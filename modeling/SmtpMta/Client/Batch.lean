import SmtpMta.Client.Answers
import SmtpMta.Client.Recipients
import Mathlib.Data.List.Nodup
import Mathlib.Data.List.Pairwise

/-! From the mail directory to the workers and back: `batch_files_for_processes`,
`process_mail_files` and the turn of `main_loop` that removes the files. A mail
file is its content. -/
namespace SmtpMta.Client.Batch
open Library.CString Fsm MailFile MailParser Recipients SelectLoop Answers
open Transfer (Ending)

/-- What one worker finds: whether the files can be opened, what memory is like
for each of them, and what `process_mails` finds. -/
structure Worker where
  opens : Nat → Bool
  reading : Nat → MailFile.Surroundings
  parsing : Nat → MailParser.Surroundings
  mailsRoom : Bool
  sending : Environment

def clearMail (mail : Mail) : Option Unit := do
  let _ ← freeSlots .tosSlot mail.recievers (List.range mail.tosCount)
  let _ ← freeSlots .addrsSlot mail.hosts (List.range mail.tosCount)
  some ()

def clearMails (mails : List Mail) : Option Unit :=
  mails.forM clearMail

section Workers
variable (files : List Bytes) (isHomeMode : Int)

/-- The first loop of `process_mail_files`: the mails of the files, or nothing
when one of them cannot be read or parsed. -/
def parseFiles (w : Worker) : List Nat → List Mail → Option (Option (List Mail))
  | [], mails => some (some mails)
  | i :: is, mails => do
      match ← readFile (w.reading i) (if w.opens i then files[i]? else none) with
      | none => do
          clearMails mails
          some none
      | some (mailText, strCount) =>
          match ← parseMail (w.parsing i) mailText strCount isHomeMode with
          | (none, _) => do
              clearMails mails
              clearMailText (some mailText)
              some none
          | (some mail, _) => do
              clearMailText (some mailText)
              if w.mailsRoom then parseFiles w is (mails ++ [mail]) else none

/-- `process_mail_files` as the process that is forked for it runs it. -/
def processMailFiles (w : Worker) (pipeDescr startInd endInd : Nat) : Run :=
  match parseFiles files isHomeMode w (List.range' startInd (endInd + 1 - startInd)) [] with
  | none => ⟨some .fault, []⟩
  | some none => ⟨some (.returned (-1)), []⟩
  | some (some mails) =>
    let run := processMails w.sending pipeDescr mails
    { run with
      ending := run.ending.map fun
        | .returned ret =>
          match clearMails mails with
          | none => .fault
          | some () => .returned (if ret ≠ 0 then -1 else 0)
        | ending => ending }

/-- The ranges of the loop of `batch_files_for_processes`; the number bounds its turns. -/
def packs (mailsCount pack : Nat) : Nat → Nat → List (Nat × Nat)
  | 0, _ => []
  | bound + 1, start =>
    if start < mailsCount then
      let last := if start + pack ≥ mailsCount then mailsCount - 1 else start + pack - 1
      (start, last) :: packs mailsCount pack bound (last + 1)
    else []

def packsOf (mailsCount processesCount : Nat) : List (Nat × Nat) :=
  let pack := mailsCount / processesCount
  let pack := if mailsCount % processesCount ≠ 0 then pack + 1 else pack
  packs mailsCount pack mailsCount 0

structure Forks where
  succeeds : Nat → Bool
  worker : Nat → Worker

def workerRuns (forks : Forks) (processesCount pipeDescr : Nat) : List Run :=
  ((packsOf files.length processesCount).zipIdx.takeWhile fun pack => forks.succeeds pack.2).map
    fun ((startInd, endInd), ind) =>
      processMailFiles files isHomeMode (forks.worker ind) pipeDescr startInd endInd

/-- The result of `batch_files_for_processes`; without one it waits for a
worker. The status of a worker is only logged. -/
def batchFilesForProcesses (forks : Forks) (processesCount pipeDescr : Nat) : Option Int :=
  let runs := workerRuns files isHomeMode forks processesCount pipeDescr
  if runs.length < (packsOf files.length processesCount).length then some (-1)
  else if runs.all fun run => run.ending.isSome then some 0
  else none

end Workers

/-- One turn of `main_loop` with what `check_directory` returned: which of the
files are passed to `remove`, and the flag `run`. -/
def mainLoopTurn (mails : Option (List Bytes)) (isHomeMode : Int) (forks : Forks)
    (processesCount pipeDescr : Nat) : Option (List Nat × Bool) :=
  match mails with
  | none => some ([], false)
  | some files =>
    if files.length = 0 then some ([], true)
    else do
      let ret ← batchFilesForProcesses files isHomeMode forks processesCount pipeDescr
      if ret ≠ 0 then some ([], false) else some (List.range files.length, true)

theorem packs_partition {mailsCount pack bound start : Nat} (hpack : 0 < pack)
    (hbound : mailsCount - start ≤ bound) :
    ((packs mailsCount pack bound start).flatMap fun range =>
      List.range' range.1 (range.2 + 1 - range.1)) = List.range' start (mailsCount - start) := by
  induction bound generalizing start with
  | zero =>
    have hdone : mailsCount - start = 0 := by omega
    simp [packs, hdone]
  | succ bound ih =>
    rw [packs]
    split
    · dsimp only
      split
      · have hrest : mailsCount - (mailsCount - 1 + 1) = 0 := by omega
        have hcount : mailsCount - 1 + 1 - start = mailsCount - start := by omega
        rw [List.flatMap_cons, ih (by omega), hrest, hcount]
        simp
      · have hcount : start + pack - 1 + 1 - start = pack := by omega
        have hnext : start + pack - 1 + 1 = start + 1 * pack := by omega
        have htotal : mailsCount - start = pack + (mailsCount - (start + 1 * pack)) := by omega
        rw [List.flatMap_cons, ih (by omega), hcount, hnext, htotal, Nat.one_mul,
          List.range'_append_1]
    · have hdone : mailsCount - start = 0 := by omega
      simp [hdone]

theorem packs_length {mailsCount pack bound start : Nat} (hpack : 0 < pack) :
    (packs mailsCount pack bound start).length * pack < mailsCount - start + pack := by
  induction bound generalizing start with
  | zero =>
    simp only [packs, List.length_nil]
    omega
  | succ bound ih =>
    rw [packs]
    split
    · dsimp only
      split
      · have hrest := @ih (mailsCount - 1 + 1)
        rw [List.length_cons, Nat.succ_mul]
        have hzero : (packs mailsCount pack bound (mailsCount - 1 + 1)).length = 0 := by
          by_contra hpos
          have := Nat.le_mul_of_pos_left pack (Nat.pos_of_ne_zero hpos)
          omega
        rw [hzero]
        omega
      · have hrest := @ih (start + pack - 1 + 1)
        rw [List.length_cons, Nat.succ_mul]
        omega
    · simp only [List.length_nil]
      omega

theorem packsOf_partition (mailsCount : Nat) {processesCount : Nat} (h : 0 < processesCount) :
    ((packsOf mailsCount processesCount).flatMap fun range =>
        List.range' range.1 (range.2 + 1 - range.1)) = List.range mailsCount ∧
      (packsOf mailsCount processesCount).length ≤ processesCount := by
  generalize hpack : (if mailsCount % processesCount ≠ 0 then mailsCount / processesCount + 1
    else mailsCount / processesCount) = pack
  have hpacks : packsOf mailsCount processesCount = packs mailsCount pack mailsCount 0 := by
    rw [packsOf, hpack]
  have hdiv := Nat.div_add_mod mailsCount processesCount
  have hmod := Nat.mod_lt mailsCount h
  -- a pack has room for its share, rounded up
  have hshare : mailsCount ≤ processesCount * pack := by
    split at hpack
    · subst hpack
      rw [Nat.mul_add]
      omega
    · subst hpack
      omega
  rcases Nat.eq_zero_or_pos mailsCount with rfl | hcount
  · simp [packsOf, packs]
  have hpos : 0 < pack := by
    by_contra hzero
    obtain rfl : pack = 0 := by omega
    omega
  rw [hpacks]
  constructor
  · rw [packs_partition hpos (by omega), Nat.sub_zero, List.range_eq_range']
  · have hlength := @packs_length mailsCount pack mailsCount 0 hpos
    have hbound : (packs mailsCount pack mailsCount 0).length * pack < (processesCount + 1) * pack := by
      rw [Nat.succ_mul]
      omega
    exact Nat.le_of_lt_succ (Nat.lt_of_mul_lt_mul_right hbound)

theorem pack_unique {n i : Nat} (hprocesses : 0 < processesCount) (hi : i < n) :
    ∃! pack, pack ∈ packsOf n processesCount ∧ pack.1 ≤ i ∧ i ≤ pack.2 := by
  obtain ⟨hparts, -⟩ := packsOf_partition n hprocesses
  let part (pack : Nat × Nat) : List Nat := List.range' pack.1 (pack.2 + 1 - pack.1)
  have hmem {pack : Nat × Nat} : i ∈ part pack ↔ pack.1 ≤ i ∧ i ≤ pack.2 := by
    rw [List.mem_range'_1]
    omega
  have hin : i ∈ List.range n := List.mem_range.mpr hi
  rw [← hparts, List.mem_flatMap] at hin
  obtain ⟨pack, hpack, hrange⟩ := hin
  refine ⟨pack, ⟨hpack, hmem.mp hrange⟩, ?_⟩
  rintro other ⟨hother, hrange'⟩
  have hnodup := List.nodup_range (n := n)
  rw [← hparts, List.nodup_flatMap] at hnodup
  by_contra hne
  have hsymm : Std.Symm (Function.onFun List.Disjoint part) := ⟨fun _ _ h _ ha hb => h hb ha⟩
  exact hnodup.2.forall hother hpack hne (hmem.mpr hrange') hrange

/-- A worker can take a file: it opens it, reads it, parses it and frees its text. -/
def Parses (files : List Bytes) (isHomeMode : Int) (w : Worker) (i : Nat) (mail : Mail) : Prop :=
  ∃ file lines strNum freed, w.opens i = true ∧ files[i]? = some file ∧
    readFile (w.reading i) (some file) = some (some (lines, strNum)) ∧
    parseMail (w.parsing i) lines strNum isHomeMode = some (some mail, freed) ∧
    (clearMailText (some lines)).isSome

theorem parseFiles_mails {files : List Bytes} {isHomeMode : Int} {w : Worker} {is : List Nat}
    {mails mails' : List Mail}
    (h : parseFiles files isHomeMode w is mails = some (some mails')) :
    ∃ parsed, mails' = mails ++ parsed ∧ List.Forall₂ (Parses files isHomeMode w) is parsed := by
  induction is generalizing mails with
  | nil =>
    obtain rfl : mails = mails' := by simpa [parseFiles] using h
    exact ⟨[], by simp, .nil⟩
  | cons i is ih =>
    rw [parseFiles] at h
    obtain ⟨read, hread, h⟩ := Option.bind_eq_some_iff.mp h
    cases read with
    | none =>
      obtain ⟨-, -, h⟩ := Option.bind_eq_some_iff.mp h
      simp at h
    | some read =>
      obtain ⟨lines, strNum⟩ := read
      obtain ⟨⟨mail, freed⟩, hparse, h⟩ := Option.bind_eq_some_iff.mp h
      cases mail with
      | none =>
        obtain ⟨-, -, h⟩ := Option.bind_eq_some_iff.mp h
        obtain ⟨-, -, h⟩ := Option.bind_eq_some_iff.mp h
        simp at h
      | some mail =>
        obtain ⟨_, hclear, h⟩ := Option.bind_eq_some_iff.mp h
        split at h
        · obtain ⟨parsed, rfl, hparsed⟩ := ih h
          obtain ⟨file, hfile⟩ : ∃ file, (if w.opens i then files[i]? else none) = some file := by
            cases hopens : if w.opens i then files[i]? else none with
            | none => simp [hopens, readFile] at hread
            | some file => exact ⟨file, rfl⟩
          rw [hfile] at hread
          obtain ⟨hopens, hget⟩ : w.opens i = true ∧ files[i]? = some file := by simpa using hfile
          exact ⟨mail :: parsed, by simp,
            .cons ⟨file, lines, strNum, freed, hopens, hget, hread, hparse, by simp [hclear]⟩ hparsed⟩
        · simp at h

theorem mem_destinations {mails : List Mail} {m toNum : Nat} {mail : Mail}
    (hget : mails[m]? = some mail)
    (hto : toNum < mail.tosCount) : (m, mail, toNum) ∈ destinations mails := by
  simp only [destinations, List.mem_flatMap, List.mem_map, List.mem_range]
  exact ⟨(mail, m), List.mk_mem_zipIdx_iff_getElem?.mpr hget, toNum, hto, rfl⟩

/-- A worker that has parsed its files and opened its connections has one for
every recipient. -/
theorem recipient_connected {files : List Bytes} {isHomeMode : Int} {w : Worker}
    {startInd count m : Nat} {mails : List Mail} {opened : List Connection}
    (hparse : parseFiles files isHomeMode w (List.range' startInd count) [] = some (some mails))
    (hopen : openConnections w.sending mails = .inr opened) (hm : m < count) {file address : Bytes}
    (hfile : files[startInd + m]? = some file)
    (haddress : some address ∈ recipients isHomeMode file) :
    ∃ number : Nat, opened[number]?.map label = some (m, address) := by
  obtain ⟨parsed, hmails, hparsed⟩ := parseFiles_mails hparse
  obtain rfl : mails = parsed := by simpa using hmails
  have hlength : mails.length = count := by rw [← hparsed.length_eq, List.length_range']
  have hm' : m < (List.range' startInd count).length := by rwa [List.length_range']
  obtain ⟨file', lines, strNum, freed, -, hget, hread, hparseMail, -⟩ :=
    hparsed.get hm' (hlength ▸ hm)
  obtain rfl : file = file' := by simpa [hfile] using hget
  obtain ⟨toNum, hto, hstored⟩ := recipients_kept hread hparseMail haddress
  obtain ⟨number, hnumber, hdestination⟩ := List.getElem_of_mem
    (mem_destinations (List.getElem?_eq_getElem (hlength ▸ hm)) hto)
  have hinit : number < (initConnections w.sending mails).length := by
    simpa [initConnections] using hnumber
  have hopened := openConnections_opened hopen
  have hnumber' : number < opened.length := hopened.length_eq ▸ hinit
  have hlabel : label (initConnections w.sending mails)[number] = (m, address) := by
    simp only [initConnections, List.getElem_mapIdx, hdestination, label, initConnection]
    rw [show mails[m].recievers toNum = .stored address from hstored]
    rfl
  have hsame : label opened[number] = label (initConnections w.sending mails)[number] :=
    (congrArg label (hopened.get hinit hnumber') :)
  exact ⟨number, by rw [List.getElem?_eq_getElem hnumber', Option.map_some, hsame, hlabel]⟩

def AnsweredFor (run : Run) (mail : Nat) (address : Bytes) : Prop :=
  ∃ call ∈ run.calls, label call.connection = (mail, address) ∧ IsAnswer call

theorem mem_callsOn {number : Nat} {calls : List Call} {call : Call} :
    call ∈ callsOn number calls ↔ call ∈ calls ∧ call.number = number := by
  simp [callsOn]

section Turns
variable (files : List Bytes) (isHomeMode : Int) (forks : Forks) (processesCount pipeDescr : Nat)

/-- A property of the worker that has a file, and of the place of the file in its pack. -/
def ByWorker (P : Worker → Nat → Nat → Nat → Prop) (i : Nat) : Prop :=
  ∃ ind startInd endInd, (packsOf files.length processesCount)[ind]? = some (startInd, endInd) ∧
    startInd ≤ i ∧ i ≤ endInd ∧ P (forks.worker ind) startInd endInd (i - startInd)

def Delivered (i : Nat) (address : Bytes) : Prop :=
  ByWorker files forks processesCount (fun w startInd endInd mail =>
    AnsweredFor (processMailFiles files isHomeMode w pipeDescr startInd endInd) mail address) i

def ForkFails : Prop :=
  ∃ ind < (packsOf files.length processesCount).length, forks.succeeds ind = false

def Waits : Prop :=
  ∃ ind startInd endInd, (packsOf files.length processesCount)[ind]? = some (startInd, endInd) ∧
    (processMailFiles files isHomeMode (forks.worker ind) pipeDescr startInd endInd).ending = none

theorem forks_all : (∀ x ∈ (packsOf files.length processesCount).zipIdx, forks.succeeds x.2 = true) ↔
    ¬ForkFails files forks processesCount := by
  simp only [ForkFails, not_exists, not_and, Bool.not_eq_false]
  constructor
  · intro h ind hlt
    exact h ((packsOf files.length processesCount)[ind], ind)
      (List.mk_mem_zipIdx_iff_getElem?.mpr (by simp [hlt]))
  · rintro h ⟨range, ind⟩ hmem
    exact h ind (List.getElem?_eq_some_iff.mp (List.mk_mem_zipIdx_iff_getElem?.mp hmem)).1

theorem workerRuns_length_lt :
    (workerRuns files isHomeMode forks processesCount pipeDescr).length <
      (packsOf files.length processesCount).length ↔ ForkFails files forks processesCount := by
  have hprefix : (packsOf files.length processesCount).zipIdx.takeWhile
      (fun pack => forks.succeeds pack.2) <+: (packsOf files.length processesCount).zipIdx :=
    List.takeWhile_prefix _
  have hle := hprefix.length_le
  have hself := (@List.takeWhile_eq_self_iff _ (fun pack => forks.succeeds pack.2)
    (packsOf files.length processesCount).zipIdx).trans (forks_all files forks processesCount)
  simp only [List.length_zipIdx] at hle
  rw [workerRuns, List.length_map]
  constructor
  · intro hlt
    by_contra hnot
    have hlength := congrArg List.length (hself.mpr hnot)
    simp only [List.length_zipIdx] at hlength
    omega
  · intro hfails
    have := mt hprefix.eq_of_length fun heq => hself.mp heq hfails
    simp only [List.length_zipIdx] at this
    omega

theorem batch_zero :
    batchFilesForProcesses files isHomeMode forks processesCount pipeDescr = some 0 ↔
      ¬ForkFails files forks processesCount ∧
        ¬Waits files isHomeMode forks processesCount pipeDescr := by
  by_cases hfails : ForkFails files forks processesCount
  · have hlt := (workerRuns_length_lt files isHomeMode forks processesCount pipeDescr).mpr hfails
    simp [batchFilesForProcesses, hlt, hfails]
  · have hlt := mt (workerRuns_length_lt files isHomeMode forks processesCount pipeDescr).mp hfails
    have hall := List.takeWhile_eq_self_iff.mpr ((forks_all files forks processesCount).mpr hfails)
    have hruns : (workerRuns files isHomeMode forks processesCount pipeDescr).all
        (fun run => run.ending.isSome) = true ↔
          ¬Waits files isHomeMode forks processesCount pipeDescr := by
      rw [workerRuns, hall]
      simp only [List.all_eq_true, List.mem_map, Waits, not_exists, not_and]
      constructor
      · intro h ind startInd endInd hget hnone
        have := h _ ⟨((startInd, endInd), ind), List.mk_mem_zipIdx_iff_getElem?.mpr hget, rfl⟩
        simp [hnone] at this
      · rintro h run ⟨⟨⟨startInd, endInd⟩, ind⟩, hmem, rfl⟩
        exact Option.isSome_iff_ne_none.mpr
          (h ind startInd endInd (List.mk_mem_zipIdx_iff_getElem?.mp hmem))
    simp [batchFilesForProcesses, hlt, hruns, hfails]

theorem mainLoopTurn_removes {i : Nat} :
    (∃ removed run, mainLoopTurn (some files) isHomeMode forks processesCount pipeDescr =
        some (removed, run) ∧ i ∈ removed) ↔
      i < files.length ∧ ¬ForkFails files forks processesCount ∧
        ¬Waits files isHomeMode forks processesCount pipeDescr := by
  rw [← batch_zero]
  by_cases hempty : files.length = 0
  · simp [mainLoopTurn, hempty]
  · cases hbatch : batchFilesForProcesses files isHomeMode forks processesCount pipeDescr with
    | none => simp [mainLoopTurn, hempty, hbatch]
    | some ret =>
      by_cases hret : ret = 0
      · simp [mainLoopTurn, hempty, hbatch, hret]
      · simp [mainLoopTurn, hempty, hbatch, hret]

/-- Nothing goes wrong in a worker: it can take its files, opens all its connections, and its
loop runs smoothly. -/
structure Untroubled (w : Worker) (startInd endInd : Nat) (mails : List Mail) : Prop where
  mailsRoom : w.mailsRoom = true
  parses : List.Forall₂ (Parses files isHomeMode w)
    (List.range' startInd (endInd + 1 - startInd)) mails
  room : w.sending.room = true
  connRoom : ∀ k < countMailsConnections mails, w.sending.connRoom k = true
  connects : ∀ k connection, (initConnections w.sending mails)[k]? = some connection →
    ∃ host, connection.host.read = some host ∧ (w.sending.connect k host connection.port).isSome
  smooth : ∀ opened, openConnections w.sending mails = .inr opened →
    selectMachine.Throughout Smooth (startLoop pipeDescr opened) w.sending.inputs

/-- A fork fails; or the recipients that are not skipped have an address each, and nothing goes
wrong in a worker that has one of them. -/
def Safe : Prop :=
  ForkFails files forks processesCount ∨
    ∀ ind startInd endInd i file, (packsOf files.length processesCount)[(ind : Nat)]? =
        some (startInd, endInd) → startInd ≤ i → i ≤ endInd → files[i]? = some file →
      recipients isHomeMode file ≠ [] → none ∉ recipients isHomeMode file ∧
        ∃ mails, Untroubled files isHomeMode pipeDescr (forks.worker ind) startInd endInd mails

theorem parseFiles_of_parses {w : Worker} (hroom : w.mailsRoom = true) {is : List Nat}
    {parsed : List Mail} (h : List.Forall₂ (Parses files isHomeMode w) is parsed)
    (mails : List Mail) :
    parseFiles files isHomeMode w is mails = some (some (mails ++ parsed)) := by
  induction h generalizing mails with
  | nil => simp [parseFiles]
  | @cons i mail is parsed hmail _ ih =>
    obtain ⟨file, lines, strNum, freed, hopens, hfile, hread, hparse, hclear⟩ := hmail
    obtain ⟨_, hclear⟩ := Option.isSome_iff_exists.mp hclear
    simp [parseFiles, hopens, hfile, hread, hparse, hclear, hroom, ih]

theorem connectionsStart_of_connects {env : Environment} {connections : List Connection} {k : Nat}
    (h : ∀ j connection, connections[j]? = some connection →
      ∃ host, connection.host.read = some host ∧ (env.connect (k + j) host connection.port).isSome) :
    ∃ opened, connectionsStart env k connections = some (.inl opened) := by
  induction connections generalizing k with
  | nil => exact ⟨[], rfl⟩
  | cons connection connections ih =>
    obtain ⟨host, hread, hconnect⟩ := h 0 connection rfl
    obtain ⟨socket, hsocket⟩ := Option.isSome_iff_exists.mp hconnect
    rw [Nat.add_zero] at hsocket
    obtain ⟨opened, hopened⟩ := ih (k := k + 1) fun j connection hget => by
      rw [Nat.add_assoc, Nat.add_comm 1]
      exact h (j + 1) connection hget
    exact ⟨{ connection with socket } :: opened, by simp [connectionsStart, hread, hsocket, hopened]⟩

variable {files isHomeMode pipeDescr} in
theorem Untroubled.answers {w : Worker} {startInd endInd : Nat} {mails : List Mail}
    (h : Untroubled files isHomeMode pipeDescr w startInd endInd mails)
    (hends : (processMailFiles files isHomeMode w pipeDescr startInd endInd).ending.isSome)
    {i : Nat} (hstart : startInd ≤ i) (hend : i ≤ endInd) {file address : Bytes}
    (hfile : files[i]? = some file) (haddress : some address ∈ recipients isHomeMode file) :
    AnsweredFor (processMailFiles files isHomeMode w pipeDescr startInd endInd) (i - startInd)
      address := by
  have hparse := parseFiles_of_parses files isHomeMode h.mailsRoom h.parses []
  rw [List.nil_append] at hparse
  obtain ⟨opened, hopened⟩ := connectionsStart_of_connects (k := 0) fun j connection hget => by
    rw [Nat.zero_add]
    exact h.connects j connection hget
  have hopen : openConnections w.sending mails = .inr opened := by
    simpa [openConnections, h.room, hopened] using h.connRoom
  have hnext : startInd + (i - startInd) = i := by omega
  obtain ⟨number, hlabel⟩ := recipient_connected hparse hopen (m := i - startInd) (by omega)
    (by rw [hnext]; exact hfile) haddress
  have hlt : number < opened.length := by
    by_contra hnot
    rw [List.getElem?_eq_none (Nat.le_of_not_lt hnot)] at hlabel
    simp at hlabel
  have hloop : (runLoop w.sending (startLoop pipeDescr opened)).ending.isSome := by
    simpa [processMailFiles, hparse, processMails, hopen] using hends
  have hinit (connection : Connection) (hmem : connection ∈ opened) := openConnections_init hopen hmem
  obtain ⟨call, hon, hanswer⟩ := runLoop_answers hinit (h.smooth opened hopen) hloop hlt
  obtain ⟨hmem, rfl⟩ := mem_callsOn.mp hon
  refine ⟨call, ?_, ?_, hanswer⟩
  · simpa [processMailFiles, hparse, processMails, hopen] using hmem
  · have hcall := (@runLoop_settled w.sending pipeDescr opened hinit).labelled call hmem
    rw [hlabel] at hcall
    exact (Option.some.inj hcall).symm

end Turns

def shortMail : Bytes :=
  ascii "From: <a@b>\nTo: <c@d>\n\nhi\n"

def blindWorker : Worker :=
  ⟨fun _ => false, fun _ => MailBody.roomyFile, fun _ => MailBody.roomyParser, true, talkative 0⟩

end SmtpMta.Client.Batch
