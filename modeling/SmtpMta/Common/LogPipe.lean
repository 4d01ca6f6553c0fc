import SmtpMta.Common.Logger
import SmtpMta.Library.Trace
import Mathlib.Data.List.AList

/-! The logging process and the processes that send to it. All of them hold the write
end of one pipe, which a fork passes on; the logging process moves what it reads to the
file of the day. A run is any order in which the kernel lets them take their steps. -/
namespace SmtpMta.Common.LogPipe
open Library.CString Library.Interleaving Library.Trace Logger

/-- `PIPE_BUF`: what one `write` of this size puts into a pipe stays together. -/
def pipeBuf : Nat := 4096

def logBufferSize : Nat := 128

def logMaxFilenameSize : Nat := 16

/-- The files of the log by their paths, oldest first. -/
abbrev LogFiles := List (Bytes × Bytes)

def LogFiles.text (files : LogFiles) : Bytes :=
  (files.map Prod.snd).flatten

/-- `fopen` with mode `a`, and what reaches the file before it is closed. -/
def appendFile (path chunk : Bytes) : LogFiles → LogFiles
  | [] => [(path, chunk)]
  | file :: files =>
    if file.1 = path then (path, file.2 ++ chunk) :: files else file :: appendFile path chunk files

/-- What the calls in one turn of the loop do: the bytes that `read` returns, the name
that `strftime` makes of the day, whether the file opens, what `fwrite` returns, and how
many bytes are in the file when `fclose` is through. -/
structure LogTurn where
  nread : Nat
  filename : Bytes
  opens : Bool
  fwrite : Nat
  flushed : Nat
  deriving DecidableEq

/-- The path of the file, if it could be opened. -/
def loggerOpenFile (logDir : Bytes) (t : LogTurn) : Option Bytes :=
  if t.filename = [] ∨ logMaxFilenameSize ≤ t.filename.length then none
  else
    let pathSize := strlen logDir + logMaxFilenameSize + 2
    let path := (cstr logDir ++ (47 : Byte) :: t.filename).take (pathSize - 1)
    if t.opens then some path else none

/-- One turn of `logger_main` behind `read`: whether the loop goes on, and the files. -/
def loggerTurn (logDir : Bytes) (t : LogTurn) (chunk : Bytes) (files : LogFiles) :
    Bool × LogFiles :=
  match loggerOpenFile logDir t with
  | none => (false, files)
  | some path => (decide (t.nread ≤ t.fwrite), appendFile path (chunk.take t.flushed) files)

def LogTurn.Succeeds (logDir : Bytes) (t : LogTurn) : Prop :=
  (loggerOpenFile logDir t).isSome ∧ t.nread ≤ t.fwrite

theorem appendFile_text {path : Bytes} {files : LogFiles} (h : path ∉ files.dropLast.map Prod.fst)
    (chunk : Bytes) : (appendFile path chunk files).text = files.text ++ chunk := by
  induction files with
  | nil => simp [appendFile, LogFiles.text]
  | cons file files ih =>
    unfold appendFile
    cases files with
    | nil => split <;> simp [LogFiles.text, appendFile]
    | cons next files =>
      obtain ⟨hfile, hrest⟩ : path ≠ file.1 ∧ path ∉ (next :: files).dropLast.map Prod.fst := by
        simpa using h
      rw [if_neg (Ne.symm hfile)]
      have hnext := ih hrest
      simp only [LogFiles.text, List.map_cons, List.flatten_cons] at hnext ⊢
      rw [hnext]
      simp only [List.append_assoc]

theorem loggerTurn_text {logDir : Bytes} {t : LogTurn} {chunk : Bytes} {files : LogFiles}
    (hchunk : chunk.length = t.nread) (hflush : min t.fwrite t.nread ≤ t.flushed)
    (hforward : ∀ path ∈ loggerOpenFile logDir t, path ∉ files.dropLast.map Prod.fst) :
    ∃ n, (loggerTurn logDir t chunk files).2.text = files.text ++ chunk.take n ∧
      ((loggerTurn logDir t chunk files).1 = true → chunk.length ≤ n) := by
  unfold loggerTurn
  cases hopen : loggerOpenFile logDir t with
  | none => exact ⟨0, by simp, by simp⟩
  | some path =>
    refine ⟨t.flushed, appendFile_text (hforward path hopen) _, fun hgoes => ?_⟩
    have hle : t.nread ≤ t.fwrite := by simpa using hgoes
    omega

theorem loggerTurn_goes {logDir : Bytes} {t : LogTurn} (h : t.Succeeds logDir) (chunk : Bytes)
    (files : LogFiles) : (loggerTurn logDir t chunk files).1 = true := by
  obtain ⟨hopen, hall⟩ := h
  obtain ⟨path, hpath⟩ := Option.isSome_iff_exists.mp hopen
  simp [loggerTurn, hpath, hall]

/-- A process that has, or had, the write end of the pipe. -/
inductive Writer where
  | idle
  | writing (record : Bytes) (done : Nat)
  | closed
  deriving DecidableEq

def Writer.rest : Writer → Bytes
  | .writing record done => record.drop done
  | _ => []

/-- The pipe takes `n` more bytes of a call. -/
def Writer.put (n : Nat) : Writer → Option (Bytes × Writer)
  | .writing record done =>
    if 0 < n ∧ done + n ≤ record.length ∧ (record.length ≤ pipeBuf → n = record.length) then
      some ((record.drop done).take n,
        if done + n = record.length then .idle else .writing record (done + n))
    else none
  | _ => none

structure LogSystem (π : Type) where
  writers : AList fun _ : π => Writer
  pipe : List (π × Byte)
  reading : Bool
  files : LogFiles

inductive LogEvent (π : Type) where
  | fork (parent child : π)
  | log (p : π) (malloc : Bool) (stamp : Bytes) (level : LogMsgType) (message : Bytes)
  | put (p : π) (n : Nat)
  /-- A `write` without a reader: `SIGPIPE` ends the process unless it is ignored. -/
  | broken (p : π) (killed : Bool)
  | close (p : π)
  | turn (t : LogTurn)
  | eof

/-- What a step hands to `write`, puts into the pipe and takes out of it. -/
structure LogOutput (π : Type) where
  handed : List (π × Bytes) := []
  entered : List (π × Bytes) := []
  taken : List (π × Byte) := []

section System
variable {π : Type}

abbrev LogHistory (π : Type) := List (Step (LogSystem π) (LogEvent π) (LogOutput π))

def handed (history : LogHistory π) : List (π × Bytes) :=
  history.flatMap fun st => st.output.handed

def entered (history : LogHistory π) : List (π × Bytes) :=
  history.flatMap fun st => st.output.entered

def taken (history : LogHistory π) : List (π × Byte) :=
  history.flatMap fun st => st.output.taken

section Snoc
variable (history : LogHistory π) (st : Step (LogSystem π) (LogEvent π) (LogOutput π))

@[simp] theorem handed_snoc : handed (history ++ [st]) = handed history ++ st.output.handed := by
  simp [handed]

@[simp] theorem entered_snoc : entered (history ++ [st]) = entered history ++ st.output.entered := by
  simp [entered]

@[simp] theorem taken_snoc : taken (history ++ [st]) = taken history ++ st.output.taken := by
  simp [taken]

end Snoc

variable [DecidableEq π]

def LogSystem.set (s : LogSystem π) (p : π) (w : Writer) : LogSystem π :=
  { s with writers := s.writers.insert p w }

def LogSystem.push (s : LogSystem π) (p : π) (bytes : Bytes) : LogSystem π :=
  { s with pipe := s.pipe ++ tagged p bytes }

/-- The system right after `logger_init`, in a directory that may hold files already. -/
def LogSystem.start (p : π) (files : LogFiles) : LogSystem π :=
  LogSystem.set ⟨∅, [], true, files⟩ p .idle

def LogSystem.AllClosed (s : LogSystem π) : Prop :=
  ∀ entry ∈ s.writers.entries, entry.2 = .closed

instance (s : LogSystem π) : Decidable s.AllClosed :=
  inferInstanceAs (Decidable (∀ entry ∈ _, _))

/-- A step of one of the processes, or of the logging process. A step that cannot be
taken, or that writes behind a buffer, has no result. -/
def logStep (logDir : Bytes) (logger : LoggerT) (s : LogSystem π) :
    LogEvent π → Option (LogOutput π × LogSystem π)
  | .fork parent child =>
    if s.writers.lookup parent = some .idle ∧ s.writers.lookup child = none then
      some ({}, s.set child .idle)
    else none
  | .log p malloc stamp level message =>
    if s.writers.lookup p = some .idle then do
      match ← loggerLog logger malloc stamp level message with
      | .returns _ => some ({}, s)
      | .writes record => some ({ handed := [(p, record)] }, s.set p (.writing record 0))
    else none
  | .put p n =>
    if s.reading then do
      let w ← s.writers.lookup p
      let (bytes, w) ← w.put n
      some ({ entered := [(p, bytes)] }, (s.set p w).push p bytes)
    else none
  | .broken p killed =>
    if s.reading = false ∧ ∃ w ∈ s.writers.lookup p, w ≠ .idle ∧ w ≠ .closed then
      some ({}, s.set p (if killed then .closed else .idle))
    else none
  | .close p =>
    if ∃ w ∈ s.writers.lookup p, w ≠ .closed then some ({}, s.set p .closed) else none
  | .turn t =>
    if s.reading ∧ 0 < t.nread ∧ t.nread ≤ logBufferSize ∧ t.nread ≤ s.pipe.length then
      let chunk := s.pipe.take t.nread
      let (reading, files) := loggerTurn logDir t (chunk.map Prod.snd) s.files
      some ({ taken := chunk },
        { s with pipe := s.pipe.drop t.nread, reading := reading, files := files })
    else none
  | .eof =>
    if s.reading ∧ s.pipe = [] ∧ s.AllClosed then some ({}, { s with reading := false })
    else none

def logMachine (logDir : Bytes) (logger : LoggerT) :
    Machine (LogSystem π) (LogEvent π) (LogOutput π) where
  step := logStep logDir logger

/-- What the steps can do, with the guards under which they do it. -/
inductive Stepped (logDir : Bytes) (logger : LoggerT) (s : LogSystem π) :
    LogEvent π → LogOutput π → LogSystem π → Prop where
  | fork {parent child : π} (hparent : s.writers.lookup parent = some .idle)
    (hnew : s.writers.lookup child = none) :
    Stepped logDir logger s (.fork parent child) {} (s.set child .idle)
  | silent {p : π} {malloc : Bool} {stamp : Bytes} {level : LogMsgType} {message : Bytes} :
    Stepped logDir logger s (.log p malloc stamp level message) {} s
  | log {p : π} {malloc : Bool} {stamp : Bytes} {level : LogMsgType} {message : Bytes}
    (hidle : s.writers.lookup p = some .idle) :
    Stepped logDir logger s (.log p malloc stamp level message)
      { handed := [(p, logLine stamp level message ++ [nul])] }
      (s.set p (.writing (logLine stamp level message ++ [nul]) 0))
  | put {p : π} {n : Nat} {w w' : Writer} {bytes : Bytes} (hreading : s.reading = true)
    (hw : s.writers.lookup p = some w) (hput : w.put n = some (bytes, w')) :
    Stepped logDir logger s (.put p n) { entered := [(p, bytes)] }
      ((s.set p w').push p bytes)
  | broken {p : π} {killed : Bool} {w : Writer} (hreading : s.reading = false)
    (hw : s.writers.lookup p = some w) (hopen : w ≠ .closed) :
    Stepped logDir logger s (.broken p killed) {} (s.set p (if killed then .closed else .idle))
  | close {p : π} {w : Writer} (hw : s.writers.lookup p = some w) :
    Stepped logDir logger s (.close p) {} (s.set p .closed)
  | turn {t : LogTurn} (hreading : s.reading = true) (hread : t.nread ≤ s.pipe.length) :
    Stepped logDir logger s (.turn t) { taken := s.pipe.take t.nread }
      { s with
        pipe := s.pipe.drop t.nread
        reading := (loggerTurn logDir t ((s.pipe.take t.nread).map Prod.snd) s.files).1
        files := (loggerTurn logDir t ((s.pipe.take t.nread).map Prod.snd) s.files).2 }
  | eof (hpipe : s.pipe = []) (hclosed : s.AllClosed) :
    Stepped logDir logger s .eof {} { s with reading := false }

theorem logStep_stepped {logDir : Bytes} {logger : LoggerT} {s s' : LogSystem π} {i : LogEvent π}
    {o : LogOutput π} (h : logStep logDir logger s i = some (o, s')) :
    Stepped logDir logger s i o s' := by
  cases i with
  | fork parent child =>
    simp only [logStep, Option.ite_none_right_eq_some, Option.some.injEq, Prod.mk.injEq] at h
    obtain ⟨⟨hparent, hnew⟩, rfl, rfl⟩ := h
    exact .fork hparent hnew
  | log p malloc stamp level message =>
    simp only [logStep, Option.ite_none_right_eq_some] at h
    obtain ⟨hidle, h⟩ := h
    obtain ⟨call, hcall, h⟩ := Option.bind_eq_some_iff.mp h
    cases call with
    | returns len =>
      obtain ⟨rfl, rfl⟩ := Prod.mk.inj (Option.some.inj h)
      exact .silent
    | writes record =>
      obtain ⟨rfl, rfl⟩ := Prod.mk.inj (Option.some.inj h)
      obtain rfl := loggerLog_record hcall
      exact .log hidle
  | put p n =>
    simp only [logStep, Option.ite_none_right_eq_some] at h
    obtain ⟨hreading, h⟩ := h
    obtain ⟨w, hw, h⟩ := Option.bind_eq_some_iff.mp h
    obtain ⟨⟨bytes, w'⟩, hput, h⟩ := Option.bind_eq_some_iff.mp h
    obtain ⟨rfl, rfl⟩ := Prod.mk.inj (Option.some.inj h)
    exact .put hreading hw hput
  | broken p killed =>
    simp only [logStep, Option.ite_none_right_eq_some, Option.some.injEq, Prod.mk.injEq] at h
    obtain ⟨⟨hreading, w, hw, -, hopen⟩, rfl, rfl⟩ := h
    exact .broken hreading hw hopen
  | close p =>
    simp only [logStep, Option.ite_none_right_eq_some, Option.some.injEq, Prod.mk.injEq] at h
    obtain ⟨⟨w, hw, -⟩, rfl, rfl⟩ := h
    exact .close hw
  | turn t =>
    simp only [logStep, Option.ite_none_right_eq_some, Option.some.injEq, Prod.mk.injEq] at h
    obtain ⟨⟨hreading, -, -, hread⟩, rfl, rfl⟩ := h
    exact .turn hreading hread
  | eof =>
    simp only [logStep, Option.ite_none_right_eq_some, Option.some.injEq, Prod.mk.injEq] at h
    obtain ⟨⟨-, hpipe, hclosed⟩, rfl, rfl⟩ := h
    exact .eof hpipe hclosed

def LogSystem.Live (s : LogSystem π) (p : π) : Prop :=
  s.reading = true ∧ s.writers.lookup p ≠ some .closed

theorem live_set (s : LogSystem π) (p q : π) (w : Writer) :
    (s.set q w).Live p ↔ s.reading = true ∧ if p = q then w ≠ .closed else s.Live p := by
  unfold LogSystem.Live LogSystem.set
  by_cases h : p = q
  · subst h
    simp
  · simp [h, AList.lookup_insert_ne]

@[simp] theorem lookup_set_self (s : LogSystem π) (p : π) (w : Writer) :
    (s.set p w).writers.lookup p = some w := by
  simp [LogSystem.set]

theorem lookup_set_ne (s : LogSystem π) {p q : π} (h : p ≠ q) (w : Writer) :
    (s.set q w).writers.lookup p = s.writers.lookup p := by
  simp [LogSystem.set, AList.lookup_insert_ne h]

/-- A way to count what is written, in bytes or in records: what one call counts, and
what a call in progress still has to count. -/
structure Count (β : Type) where
  unit : Bytes → List β
  rest : Writer → List β
  rest_idle : rest .idle = [] := by rfl
  rest_writing : ∀ record, rest (.writing record 0) = unit record := by intro; rfl

def byRecord : Count Bytes where
  unit record := [record]
  rest
    | .writing record _ => [record]
    | _ => []

@[simp] theorem byRecord_unit : byRecord.unit = fun record => [record] := rfl

section Balance
variable {β : Type} (c : Count β)

def Count.restOf (s : LogSystem π) (p : π) : List β :=
  ((s.writers.lookup p).map c.rest).getD []

/-- What has entered the pipe is, for each process, the first part of what it has handed
to `write`; while the process can write, only the rest of its last call is missing. -/
def Count.Balanced (history : LogHistory π) (s : LogSystem π) : Prop :=
  ∀ p, (own p (entered history)).flatMap c.unit <+: (own p (handed history)).flatMap c.unit ∧
    (s.Live p → (own p (entered history)).flatMap c.unit ++ c.restOf s p =
      (own p (handed history)).flatMap c.unit)

theorem Count.balanced_start (p : π) (files : LogFiles) :
    c.Balanced [] (LogSystem.start p files) := by
  intro q
  have hrest : c.restOf (LogSystem.start p files) q = [] := by
    by_cases hq : q = p
    · subst hq
      simp [Count.restOf, LogSystem.start, c.rest_idle]
    · rw [Count.restOf, LogSystem.start, lookup_set_ne _ hq]
      rfl
  refine ⟨⟨[], rfl⟩, fun _ => ?_⟩
  rw [hrest]
  rfl

variable {logDir : Bytes} {logger : LoggerT} {history : LogHistory π} {s s' : LogSystem π}
  {i : LogEvent π} {o : LogOutput π} {c}

theorem Count.Balanced.quiet (hinv : c.Balanced history s) (hhanded : o.handed = [])
    (hentered : o.entered = [])
    (hkept : ∀ p, s'.Live p → s.Live p ∧ c.restOf s' p = c.restOf s p) :
    c.Balanced (history ++ [⟨s, i, o, s'⟩]) s' := by
  intro p
  obtain ⟨hfront, hall⟩ := hinv p
  simp only [entered_snoc, handed_snoc, hhanded, hentered, List.append_nil]
  refine ⟨hfront, fun hlive => ?_⟩
  obtain ⟨hlive, hrest⟩ := hkept p hlive
  rw [hrest]
  exact hall hlive

theorem Count.balanced_step (hinv : c.Balanced history s) (h : Stepped logDir logger s i o s')
    (hput : ∀ q n w w' bytes, i = .put q n → s.writers.lookup q = some w →
      w.put n = some (bytes, w') → w ≠ .closed ∧ c.unit bytes ++ c.rest w' = c.rest w) :
    c.Balanced (history ++ [⟨s, i, o, s'⟩]) s' := by
  cases h with
  | @fork parent child hparent hnew =>
    refine hinv.quiet rfl rfl fun p hlive => ?_
    rw [live_set] at hlive
    by_cases hp : p = child
    · subst hp
      exact ⟨⟨hlive.1, by simp [hnew]⟩, by simp [Count.restOf, hnew, c.rest_idle]⟩
    · rw [if_neg hp] at hlive
      exact ⟨hlive.2, by rw [Count.restOf, lookup_set_ne _ hp, Count.restOf]⟩
  | silent => exact hinv.quiet rfl rfl fun p hlive => ⟨hlive, rfl⟩
  | @log q _ stamp level message hidle =>
    intro p
    obtain ⟨hfront, hall⟩ := hinv p
    simp only [entered_snoc, handed_snoc, List.append_nil, own_append, List.flatMap_append]
    refine ⟨hfront.trans (List.prefix_append _ _), fun hlive => ?_⟩
    rw [live_set] at hlive
    by_cases hp : p = q
    · subst hp
      -- the call before this one is through
      have hdone := hall ⟨hlive.1, by simp [hidle]⟩
      have hrest : c.restOf s p = [] := by simp [Count.restOf, hidle, c.rest_idle]
      rw [hrest, List.append_nil] at hdone
      simp [hdone, Count.restOf, c.rest_writing]
    · rw [if_neg hp] at hlive
      rw [Count.restOf, lookup_set_ne _ hp, own_singleton_ne (Ne.symm hp), ← hall hlive.2]
      simp [Count.restOf]
  | @put q n w w' bytes hreading hw hmoved =>
    intro p
    obtain ⟨hfront, hall⟩ := hinv p
    obtain ⟨hopen, hbytes⟩ := hput q n w w' bytes rfl hw hmoved
    have hlookup : ((s.set q w').push q bytes).writers.lookup p = (s.set q w').writers.lookup p := rfl
    simp only [entered_snoc, handed_snoc, List.append_nil, own_append, List.flatMap_append]
    by_cases hp : p = q
    · subst hp
      have hdone := hall ⟨hreading, by simpa [hw] using hopen⟩
      have hrest : c.restOf s p = c.unit bytes ++ c.rest w' := by simp [Count.restOf, hw, hbytes]
      have hnew : (own p (entered history)).flatMap c.unit ++ c.unit bytes ++ c.rest w' =
          (own p (handed history)).flatMap c.unit := by
        rw [← hdone, hrest, List.append_assoc]
      have hone : (own p [(p, bytes)]).flatMap c.unit = c.unit bytes := by simp
      rw [hone, Count.restOf, hlookup, lookup_set_self]
      exact ⟨⟨c.rest w', hnew⟩, fun _ => hnew⟩
    · rw [own_singleton_ne (Ne.symm hp), Count.restOf, hlookup, lookup_set_ne _ hp, List.flatMap_nil,
        List.append_nil]
      refine ⟨hfront, fun hlive => hall ⟨hreading, ?_⟩⟩
      rw [← lookup_set_ne s hp w']
      exact hlive.2
  | @broken q killed w hreading hw hopen =>
    refine hinv.quiet rfl rfl fun p hlive => ?_
    rw [live_set] at hlive
    exact absurd hlive.1 (by simp [hreading])
  | @close q w hw =>
    refine hinv.quiet rfl rfl fun p hlive => ?_
    rw [live_set] at hlive
    by_cases hp : p = q
    · exact absurd hlive.2 (by simp [hp])
    · rw [if_neg hp] at hlive
      exact ⟨hlive.2, by rw [Count.restOf, lookup_set_ne _ hp, Count.restOf]⟩
  | @turn t hreading hread => exact hinv.quiet rfl rfl fun p hlive => ⟨⟨hreading, hlive.2⟩, rfl⟩
  | eof hpipe hclosed => exact hinv.quiet rfl rfl fun p hlive => absurd hlive.1 (by simp)

end Balance

theorem Writer.put_open {w w' : Writer} {n : Nat} {bytes : Bytes}
    (h : w.put n = some (bytes, w')) : w' ≠ .closed := by
  cases w with
  | writing record done =>
    simp only [Writer.put, Option.ite_none_right_eq_some, Option.some.injEq, Prod.mk.injEq] at h
    obtain ⟨-, -, rfl⟩ := h
    split <;> simp
  | idle => cases h
  | closed => cases h

theorem Writer.put_whole {record bytes : Bytes} {w' : Writer} {n : Nat}
    (h : (Writer.writing record 0).put n = some (bytes, w')) (hsize : record.length ≤ pipeBuf) :
    bytes = record ∧ w' = .idle := by
  simp only [Writer.put, Option.ite_none_right_eq_some, Option.some.injEq, Prod.mk.injEq] at h
  obtain ⟨⟨-, -, hall⟩, rfl, rfl⟩ := h
  simp [hall hsize]

/-- The pipe keeps the bytes in order, and nothing leaves it but what is read. -/
def Piped (history : LogHistory π) (s : LogSystem π) : Prop :=
  taken history ++ s.pipe = (entered history).flatMap fun e => tagged e.1 e.2

section Stored
variable {logDir : Bytes} {logger : LoggerT} {history : LogHistory π} {s s' : LogSystem π}
  {i : LogEvent π} {o : LogOutput π}

theorem piped_step (hinv : Piped history s) (h : Stepped logDir logger s i o s') :
    Piped (history ++ [⟨s, i, o, s'⟩]) s' := by
  unfold Piped at hinv ⊢
  cases h with
  | put hreading hw hput =>
    simp [LogSystem.push, LogSystem.set, ← hinv]
  | turn hreading hread =>
    simp [← hinv]
  | _ => simpa [LogSystem.set] using hinv

/-- The day of a turn is that of the last file, or one without a file: the clock was not
set back to an earlier day. -/
def Forward (logDir : Bytes) (s : LogSystem π) : LogEvent π → Prop
  | .turn t => ∀ path ∈ loggerOpenFile logDir t, path ∉ s.files.dropLast.map Prod.fst
  | _ => True

/-- What `fwrite` took is in the file when `fclose` is through. -/
def Flushes : LogEvent π → Prop
  | .turn t => min t.fwrite t.nread ≤ t.flushed
  | _ => True

/-- The file opens and takes all bytes. -/
def Succeeds (logDir : Bytes) : LogEvent π → Prop
  | .turn t => t.Succeeds logDir
  | _ => True

instance (logDir : Bytes) (s : LogSystem π) : ∀ i, Decidable (Forward logDir s i)
  | .turn t => inferInstanceAs (Decidable (∀ path ∈ loggerOpenFile logDir t, _))
  | .fork .. | .log .. | .put .. | .broken .. | .close .. | .eof => inferInstanceAs (Decidable True)

instance : ∀ i : LogEvent π, Decidable (Flushes i)
  | .turn _ => inferInstanceAs (Decidable (_ ≤ _))
  | .fork .. | .log .. | .put .. | .broken .. | .close .. | .eof => inferInstanceAs (Decidable True)

instance (logDir : Bytes) : ∀ i : LogEvent π, Decidable (Succeeds logDir i)
  | .turn _ => inferInstanceAs (Decidable (_ ∧ _))
  | .fork .. | .log .. | .put .. | .broken .. | .close .. | .eof => inferInstanceAs (Decidable True)

end Stored

end System

end SmtpMta.Common.LogPipe
