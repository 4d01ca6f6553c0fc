import SmtpMta.Common.LogPipe

/-! Whole runs of the logging process: what the files of the log hold, whatever the
order in which the processes write, and wherever the logging stops. -/
namespace SmtpMta.Common.LogRuns
open Library.CString Library.Interleaving Library.Trace Logger LogPipe

section Runs
variable {π : Type} [DecidableEq π] {logDir : Bytes} {logger : LoggerT}

theorem logMachine_runs {Inv : LogHistory π → LogSystem π → Prop}
    (hstep : ∀ history s i o s', Inv history s → Stepped logDir logger s i o s' →
      Inv (history ++ [⟨s, i, o, s'⟩]) s') {s last : LogSystem π} (hinit : Inv [] s)
    {events : List (LogEvent π)} {history : LogHistory π}
    (h : (logMachine logDir logger).exec s events = some (history, last)) : Inv history last :=
  (Machine.exec_steps (fun past s i o s' hinv hs => hstep past s i o s' hinv (logStep_stepped hs))
    hinit h).1

variable {p : π} {files : LogFiles} {events : List (LogEvent π)} {history : LogHistory π}
  {last : LogSystem π}

theorem piped_run
    (h : (logMachine logDir logger).exec (LogSystem.start p files) events = some (history, last)) :
    Piped history last :=
  logMachine_runs (fun _ _ _ _ _ => piped_step) rfl h

/-- A turn in which the disk takes all that is read. -/
def plainTurn (nread : Nat) : LogTurn := ⟨nread, ascii "2024-12-01.log", true, nread, nread⟩

/-- A process and its child: the second record is written first, and the first turn
takes a part of the other one, too. -/
def twoWriters : List (LogEvent Nat) :=
  [.fork 0 1, .log 0 true (ascii "2024-12-01 10:00:00\t") .infoLog (ascii "Started"),
    .log 1 true (ascii "2024-12-01 10:00:00\t") .errorLog (ascii "Failed"), .put 1 34, .put 0 34,
    .turn (plainTurn 50), .close 1, .turn (plainTurn 18), .close 0, .eof]

/-- The stamp is a string, and the record with its NUL is one that a pipe keeps together. -/
def Short : LogEvent π → Prop
  | .log _ _ stamp level message => NulFree stamp ∧ (logLine stamp level message).length < pipeBuf
  | _ => True

instance : ∀ i : LogEvent π, Decidable (Short i)
  | .log .. => inferInstanceAs (Decidable (_ ∧ _))
  | .fork .. | .put .. | .broken .. | .close .. | .turn .. | .eof => inferInstanceAs (Decidable True)

def linesOf (records : List (π × Bytes)) : List (π × Bytes) :=
  records.map fun record => (record.1, record.2.dropLast)

structure Whole (history : LogHistory π) (s : LogSystem π) : Prop where
  line : ∀ record ∈ handed history, ∃ line, NulFree line ∧ record.2 = line ++ [nul]
  fresh : ∀ q record done, s.writers.lookup q = some (.writing record done) →
    done = 0 ∧ record.length ≤ pipeBuf
  balanced : byRecord.Balanced history s

theorem whole_start (p : π) (files : LogFiles) : Whole [] (LogSystem.start p files) := by
  refine ⟨by simp [handed], fun q record done hq => ?_, Count.balanced_start byRecord p files⟩
  by_cases h : q = p
  · subst h
    rw [LogSystem.start, lookup_set_self] at hq
    cases hq
  · rw [LogSystem.start, lookup_set_ne _ h] at hq
    cases hq

theorem whole_step {s s' : LogSystem π} {i : LogEvent π} {o : LogOutput π}
    (hinv : Whole history s) (h : Stepped logDir logger s i o s') (hshort : Short i) :
    Whole (history ++ [⟨s, i, o, s'⟩]) s' := by
  have hput : ∀ q n w w' bytes, i = .put q n → s.writers.lookup q = some w →
      w.put n = some (bytes, w') →
      w ≠ .closed ∧ byRecord.unit bytes ++ byRecord.rest w' = byRecord.rest w := by
    intro q n w w' bytes _ hw hmoved
    cases w with
    | writing record done =>
      obtain ⟨rfl, hsize⟩ := hinv.fresh q record done hw
      obtain ⟨rfl, rfl⟩ := Writer.put_whole hmoved hsize
      exact ⟨by simp, rfl⟩
    | _ => cases hmoved
  have hbalanced := Count.balanced_step hinv.balanced h hput
  -- a step that sets one process to a state other than `writing`
  have hset : ∀ (q : π) (w : Writer), (∀ record done, w ≠ .writing record done) →
      ∀ q' record done, (s.set q w).writers.lookup q' = some (.writing record done) →
        done = 0 ∧ record.length ≤ pipeBuf := by
    intro q w hw q' record done hq'
    by_cases hq : q' = q
    · subst hq
      rw [lookup_set_self] at hq'
      exact absurd (Option.some.inj hq') (hw record done)
    · rw [lookup_set_ne _ hq] at hq'
      exact hinv.fresh q' record done hq'
  refine ⟨?_, ?_, hbalanced⟩
  · cases h with
    | @log q _ stamp level message hidle =>
      intro record hmem
      rw [handed_snoc, List.mem_append] at hmem
      rcases hmem with hmem | hmem
      · exact hinv.line record hmem
      · obtain rfl := List.mem_singleton.mp hmem
        exact ⟨_, nulFree_logLine hshort.1 level message, rfl⟩
    | _ => simpa using hinv.line
  · cases h with
    | fork hparent hnew => exact hset _ _ (by simp)
    | @log q _ stamp level message hidle =>
      intro q' record done hq'
      by_cases hq : q' = q
      · subst hq
        rw [lookup_set_self] at hq'
        obtain ⟨rfl, rfl⟩ := Writer.writing.inj (Option.some.inj hq')
        refine ⟨rfl, ?_⟩
        rw [List.length_append, List.length_singleton]
        exact hshort.2
      · rw [lookup_set_ne _ hq] at hq'
        exact hinv.fresh q' record done hq'
    | @put q n w w' bytes hreading hw hmoved =>
      have hidle : w' = .idle := by
        cases w with
        | writing record done =>
          obtain ⟨rfl, hsize⟩ := hinv.fresh q record done hw
          exact (Writer.put_whole hmoved hsize).2
        | _ => cases hmoved
      exact hset q w' (by simp [hidle])
    | @broken q killed w hreading hw hopen => exact hset _ _ (by cases killed <;> simp)
    | close hw => exact hset _ _ (by simp)
    | _ => exact hinv.fresh

theorem Whole.lines {s : LogSystem π} (hwhole : Whole history s) :
    (∀ q, own q (entered history) <+: own q (handed history)) ∧
      (∀ line ∈ (linesOf (entered history)).map Prod.snd, NulFree line) ∧
      ((entered history).flatMap fun e => tagged e.1 e.2).map Prod.snd =
        joined nul ((linesOf (entered history)).map Prod.snd) := by
  have hfront (q : π) : own q (entered history) <+: own q (handed history) := by
    have hq := (hwhole.balanced q).1
    simpa using hq
  have hmem : ∀ e ∈ entered history, ∃ line, NulFree line ∧ e.2 = line ++ [nul] := by
    intro e he
    have hown : e.2 ∈ own e.1 (entered history) := mem_own.mpr he
    exact hwhole.line e (mem_own.mp ((hfront e.1).subset hown))
  refine ⟨hfront, ?_, ?_⟩
  · intro line hline
    simp only [linesOf, List.map_map, List.mem_map] at hline
    obtain ⟨e, he, rfl⟩ := hline
    obtain ⟨line, hfree, heq⟩ := hmem e he
    simpa [heq] using hfree
  · have hpiece : ∀ e ∈ entered history, e.2 = e.2.dropLast ++ [nul] := by
      intro e he
      obtain ⟨line, -, heq⟩ := hmem e he
      simp [heq]
    simp only [linesOf, joined, List.map_map, Function.comp_def, List.flatMap_def, List.map_flatten,
      map_snd_tagged]
    congr 1
    exact List.map_congr_left hpiece

/-- A process ends between two calls. -/
def Orderly (s : LogSystem π) : LogEvent π → Prop
  | .close q => s.writers.lookup q = some .idle
  | _ => True

instance (s : LogSystem π) : ∀ i : LogEvent π, Decidable (Orderly s i)
  | .close _ => inferInstanceAs (Decidable (_ = _))
  | .fork .. | .log .. | .put .. | .broken .. | .turn .. | .eof => inferInstanceAs (Decidable True)

def Gone (s : LogSystem π) (q : π) : Prop :=
  ∀ w, s.writers.lookup q = some w → w = .closed

/-- Who has closed the pipe has written all its records, and the logging process reads
until all have closed it and the pipe is empty. -/
structure Finished (files : LogFiles) (history : LogHistory π) (s : LogSystem π) : Prop where
  closed : ∀ q, Gone s q → own q (entered history) = own q (handed history)
  drained : s.reading = false → s.pipe = [] ∧ ∀ q, Gone s q
  text : s.files.text = files.text ++ (taken history).map Prod.snd

theorem gone_of_allClosed {s : LogSystem π} (h : s.AllClosed) (q : π) : Gone s q :=
  fun w hw => h ⟨q, w⟩ (AList.mem_lookup_iff.mp hw)

theorem Gone.of_set {s : LogSystem π} {q q' : π} {w : Writer} (hw : w ≠ .closed)
    (h : Gone (s.set q w) q') : q ≠ q' ∧ Gone s q' := by
  have hne : q ≠ q' := by
    rintro rfl
    exact hw (h w (lookup_set_self s q w))
  refine ⟨hne, fun w' hw' => h w' ?_⟩
  rw [lookup_set_ne _ (Ne.symm hne)]
  exact hw'

theorem finished_step {s s' : LogSystem π} {i : LogEvent π} {o : LogOutput π}
    (hinv : Finished files history s) (hwhole : Whole history s)
    (h : Stepped logDir logger s i o s') (hforward : Forward logDir s i) (hflush : Flushes i)
    (hsucceeds : Succeeds logDir i) (horderly : Orderly s i) :
    Finished files (history ++ [⟨s, i, o, s'⟩]) s' := by
  obtain ⟨hclosed, hdrained, htext⟩ := hinv
  -- a step of a process that is open is not taken behind the end of the logging
  have hopen {q : π} {w : Writer} (hw : s.writers.lookup q = some w) (hne : w ≠ .closed) :
      s.reading = true := by
    by_contra hreading
    exact hne ((hdrained (by simpa using hreading)).2 q w hw)
  cases h with
  | fork hparent hnew =>
    have hreading := hopen hparent (by simp)
    refine ⟨fun q hq => ?_, fun hend => ?_, ?_⟩
    · simpa using hclosed q (hq.of_set (by simp)).2
    · exact absurd (hreading.symm.trans hend) (by simp)
    · rw [taken_snoc, List.append_nil]
      exact htext
  | silent => exact ⟨by simpa using hclosed, hdrained, by simpa using htext⟩
  | @log q _ stamp level message hidle =>
    have hreading := hopen hidle (by simp)
    refine ⟨fun q' hq' => ?_, fun hend => ?_, ?_⟩
    · obtain ⟨hne, hgone⟩ := hq'.of_set (by simp)
      simpa [own_singleton_ne hne] using hclosed q' hgone
    · exact absurd (hreading.symm.trans hend) (by simp)
    · rw [taken_snoc, List.append_nil]
      exact htext
  | @put q n w w' bytes hreading hw hmoved =>
    refine ⟨fun q' hq' => ?_, fun hend => ?_, ?_⟩
    · have hq' : Gone (s.set q w') q' := hq'
      obtain ⟨hne, hgone⟩ := hq'.of_set (Writer.put_open hmoved)
      simpa [own_singleton_ne hne] using hclosed q' hgone
    · exact absurd (hreading.symm.trans hend) (by simp)
    · rw [taken_snoc, List.append_nil]
      exact htext
  | @broken q killed w hreading hw hne => exact absurd (hopen hw hne) (by simp [hreading])
  | @close q w hw =>
    have hidle : s.writers.lookup q = some .idle := horderly
    have hreading := hopen hidle (by simp)
    refine ⟨fun q' hq' => ?_, fun hend => ?_, ?_⟩
    · simp only [entered_snoc, handed_snoc, List.append_nil]
      by_cases hq : q' = q
      · subst hq
        have hdone := (hwhole.balanced q').2 ⟨hreading, by simp [hidle]⟩
        simpa [Count.restOf, hidle, byRecord.rest_idle] using hdone
      · exact hclosed q' fun w' hw' => hq' w' (by rw [lookup_set_ne _ hq]; exact hw')
    · exact absurd (hreading.symm.trans hend) (by simp)
    · rw [taken_snoc, List.append_nil]
      exact htext
  | @turn t hreading hread =>
    have hchunk : ((s.pipe.take t.nread).map Prod.snd).length = t.nread := by
      simpa using Nat.min_eq_left hread
    have hgoes := loggerTurn_goes hsucceeds ((s.pipe.take t.nread).map Prod.snd) s.files
    obtain ⟨n, hturn, hall⟩ := loggerTurn_text hchunk hflush hforward
    refine ⟨fun q hq => ?_, fun hend => ?_, ?_⟩
    · simpa using hclosed q hq
    · exact absurd (hgoes.symm.trans hend) (by simp)
    · rw [hturn, List.take_of_length_le (hall hgoes), htext, taken_snoc, List.map_append,
        List.append_assoc]
  | eof hpipe hall =>
    refine ⟨fun q hq => ?_, fun _ => ⟨hpipe, gone_of_allClosed hall⟩, by simpa using htext⟩
    simpa using hclosed q hq

/-- What a run has to be for a log that is complete: the disk takes everything, the
records are short, and each process ends between two calls. -/
structure Undisturbed (logDir : Bytes) (s : LogSystem π) (i : LogEvent π) : Prop where
  forward : Forward logDir s i
  flushes : Flushes i
  succeeds : Succeeds logDir i
  short : Short i
  orderly : Orderly s i

instance (logDir : Bytes) (s : LogSystem π) (i : LogEvent π) : Decidable (Undisturbed logDir s i) :=
  decidable_of_iff (Forward logDir s i ∧ Flushes i ∧ Succeeds logDir i ∧ Short i ∧ Orderly s i)
    ⟨fun ⟨hf, hl, hs, ht, ho⟩ => ⟨hf, hl, hs, ht, ho⟩, fun h => ⟨h.1, h.2, h.3, h.4, h.5⟩⟩

/-- When the logging process has come to the end of its input, the files hold every
record that any process handed to `write`, each as one whole line and those of each process
in order; and the lines can be read back. -/
theorem log_complete
    (h : (logMachine logDir logger).exec (LogSystem.start p files) events = some (history, last))
    (hall : ∀ st ∈ history, Undisturbed logDir st.before st.input) (hend : last.reading = false) :
    ∃ lines : List (π × Bytes), last.files.text = files.text ++ joined nul (lines.map Prod.snd) ∧
      cut nul (joined nul (lines.map Prod.snd)) = (lines.map Prod.snd, []) ∧
      ∀ q, own q lines = own q (linesOf (handed history)) := by
  let Inv (past : LogHistory π) (s : LogSystem π) : Prop :=
    (∀ st ∈ past, Undisturbed logDir st.before st.input) → Whole past s ∧ Finished files past s
  have hstep : ∀ past s i o s', Inv past s → Stepped logDir logger s i o s' →
      Inv (past ++ [⟨s, i, o, s'⟩]) s' := by
    intro past s i o s' hinv hs hall
    obtain ⟨hwhole, hfinished⟩ := hinv fun st hst => hall st (by simp [hst])
    obtain ⟨hforward, hflush, hsucceeds, hshort, horderly⟩ := hall ⟨s, i, o, s'⟩ (by simp)
    exact ⟨whole_step hwhole hs hshort,
      finished_step hfinished hwhole hs hforward hflush hsucceeds horderly⟩
  have hinit : Inv [] (LogSystem.start p files) := by
    intro _
    refine ⟨whole_start p files, fun q _ => rfl, fun hr => Bool.noConfusion hr, ?_⟩
    simp [LogSystem.start, LogSystem.set, taken]
  obtain ⟨hwhole, ⟨hclosed, hdrained, htext⟩⟩ := logMachine_runs hstep hinit h hall
  obtain ⟨hfront, hfree, hjoined⟩ := hwhole.lines
  obtain ⟨hpipe, hends⟩ := hdrained hend
  have hpiped := piped_run h
  rw [Piped, hpipe, List.append_nil] at hpiped
  refine ⟨linesOf (entered history), ?_, ?_, fun q => ?_⟩
  · rw [htext, hpiped, hjoined]
  · have htail : nul ∉ ([] : Bytes) := by simp
    simpa using cut_joined hfree htail
  · rw [linesOf, linesOf, own_map, own_map, hclosed q (hends q)]

theorem log_complete_twoWriters : ∃ history last,
    (logMachine (ascii "log") ⟨2⟩).exec (LogSystem.start 0 []) twoWriters = some (history, last) ∧
    ∃ lines : List (Nat × Bytes),
      last.files.text = LogFiles.text [] ++ joined nul (lines.map Prod.snd) ∧
      cut nul (joined nul (lines.map Prod.snd)) = (lines.map Prod.snd, []) ∧
      ∀ q, own q lines = own q (linesOf (handed history)) := by
  have hrun : ((logMachine (ascii "log") ⟨2⟩).exec (LogSystem.start 0 []) twoWriters).map
      (fun r => r.2.reading) = some false := by decide
  obtain ⟨⟨history, last⟩, h, hend⟩ := Option.map_eq_some_iff.mp hrun
  have hall := (Machine.throughout_iff (P := Undisturbed (ascii "log")) h).mp (by decide)
  exact ⟨history, last, h, log_complete h hall hend⟩

end Runs

end SmtpMta.Common.LogRuns
