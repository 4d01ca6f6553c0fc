import SmtpMta.Library.Interleaving

/-! The sending side of `logger.c`: a record is put together in a buffer on the heap
and goes to the logging process with one call of `write`. A result of `none` is a
write behind the end of the buffer. -/
namespace SmtpMta.Common.Logger
open Library.CString Library.Interleaving

inductive LogMsgType where
  | debugLog | infoLog | warningLog | errorLog | system
  deriving DecidableEq

def LogMsgType.code : LogMsgType → Nat
  | .debugLog => 1
  | .infoLog => 2
  | .warningLog => 3
  | .errorLog => 4
  | .system => 15

/-- The field `level` of a `logger_t`, which need not be one of the types. -/
structure LoggerT where
  level : Nat
  deriving DecidableEq

def logMaxPrefixSize : Nat := 32

def tab : Byte := 9

def getLogMsgType : LogMsgType → Bytes
  | .debugLog => ascii "DEBUG"
  | .infoLog => ascii "INFO"
  | .warningLog => ascii "WARNING"
  | .errorLog => ascii "ERROR"
  | .system => ascii "NONE"

/-- The text behind the time: `%s\t%s\n`. -/
def logText (level : LogMsgType) (msg : Bytes) : Bytes :=
  getLogMsgType level ++ tab :: (msg ++ [lf])

/-- The inner `none` is the result -1. The stamp is what `strftime` makes of the time;
`snprintf` starts behind it and is told that the whole buffer is still free. -/
def formatMessage (size : Nat) (stamp : Bytes) (level : LogMsgType) (msg : Bytes) :
    Option (Option Bytes) :=
  if stamp = [] ∨ size ≤ stamp.length then some none
  else
    let text := logText level msg
    let written := (text.take (size - 1)).length + 1
    if size < stamp.length + written then none
    else if size < stamp.length + text.length then some none
    else some (some (stamp ++ text))

/-- A call of `logger_log` comes back at once, or passes a record on to `write`. -/
inductive LogCall where
  | returns (len : Int)
  | writes (record : Bytes)
  deriving DecidableEq

def loggerLog (logger : LoggerT) (malloc : Bool) (stamp : Bytes) (level : LogMsgType)
    (message : Bytes) : Option LogCall :=
  if level.code < logger.level then some (.returns 0)
  else
    let size := logMaxPrefixSize + strlen message
    if malloc then do
      let len ← formatMessage size stamp level (cstr message)
      some (len.elim (.returns (-1)) fun text => .writes (text ++ [nul]))
    else some (.returns (-1))

def logLine (stamp : Bytes) (level : LogMsgType) (message : Bytes) : Bytes :=
  stamp ++ logText level (cstr message)

/-- The stamp and the name of the type leave room for the two separators and the NUL. -/
def StampFits (stamp : Bytes) (level : LogMsgType) : Prop :=
  stamp.length + (getLogMsgType level).length ≤ 29

instance (stamp : Bytes) (level : LogMsgType) : Decidable (StampFits stamp level) :=
  inferInstanceAs (Decidable (_ ≤ _))

@[simp] theorem length_logText (level : LogMsgType) (msg : Bytes) :
    (logText level msg).length = (getLogMsgType level).length + msg.length + 2 := by
  simp [logText]
  omega

theorem length_getLogMsgType (level : LogMsgType) : (getLogMsgType level).length ≤ 7 := by
  cases level <;> decide

theorem tab_notMem_getLogMsgType (level : LogMsgType) : tab ∉ getLogMsgType level := by
  cases level <;> decide

theorem nulFree_getLogMsgType (level : LogMsgType) : NulFree (getLogMsgType level) := by
  cases level <;> decide

section Format
variable {stamp msg : Bytes} {level : LogMsgType}

theorem formatMessage_fits (hstamp : stamp ≠ []) (h : StampFits stamp level) (msg : Bytes) :
    formatMessage (logMaxPrefixSize + msg.length) stamp level msg =
      some (some (stamp ++ logText level msg)) := by
  unfold StampFits at h
  have hsize : ¬(stamp = [] ∨ logMaxPrefixSize + msg.length ≤ stamp.length) := by
    simp only [hstamp, false_or, logMaxPrefixSize]
    omega
  have hroom : ¬logMaxPrefixSize + msg.length <
      stamp.length + (((logText level msg).take (logMaxPrefixSize + msg.length - 1)).length + 1) := by
    rw [List.length_take, length_logText, logMaxPrefixSize]
    omega
  have hcheck : ¬logMaxPrefixSize + msg.length < stamp.length + (logText level msg).length := by
    rw [length_logText, logMaxPrefixSize]
    omega
  simp only [formatMessage, if_neg hsize, if_neg hroom, if_neg hcheck]

theorem formatMessage_overflow (hstamp : stamp ≠ []) (h : ¬StampFits stamp level)
    (hsize : stamp.length < logMaxPrefixSize + msg.length) :
    formatMessage (logMaxPrefixSize + msg.length) stamp level msg = none := by
  unfold StampFits at h
  have hstart : ¬(stamp = [] ∨ logMaxPrefixSize + msg.length ≤ stamp.length) := by
    simpa [hstamp] using hsize
  have hout : logMaxPrefixSize + msg.length <
      stamp.length + (((logText level msg).take (logMaxPrefixSize + msg.length - 1)).length + 1) := by
    have hpos := List.length_pos_iff.mpr hstamp
    rw [List.length_take, length_logText]
    unfold logMaxPrefixSize at hsize ⊢
    omega
  simp only [formatMessage, if_neg hstart, if_pos hout]

/-- The check behind `snprintf` comes too late: what fails it has already been
written outside of the buffer. -/
theorem formatMessage_check_late {size : Nat} (h : formatMessage size stamp level msg = some none) :
    stamp = [] ∨ size ≤ stamp.length := by
  by_contra hstart
  simp only [formatMessage, if_neg hstart] at h
  split at h
  · cases h
  · rename_i hroom
    split at h
    · rename_i hcheck
      rw [not_or] at hstart
      have hpos := List.length_pos_iff.mpr hstart.1
      rw [List.length_take] at hroom
      omega
    · cases h

end Format

/-- When a call stays inside its buffer. -/
theorem loggerLog_isSome_iff (logger : LoggerT) (malloc : Bool) (stamp : Bytes) (level : LogMsgType)
    (message : Bytes) :
    (loggerLog logger malloc stamp level message).isSome ↔
      level.code < logger.level ∨ malloc = false ∨ stamp = [] ∨
        logMaxPrefixSize + strlen message ≤ stamp.length ∨ StampFits stamp level := by
  unfold loggerLog
  split
  · rename_i hlevel
    simp [hlevel]
  · rename_i hlevel
    cases malloc with
    | false => simp
    | true =>
      simp only [hlevel, if_true, false_or, Bool.true_eq_false]
      by_cases hstart : stamp = [] ∨ logMaxPrefixSize + strlen message ≤ stamp.length
      · have hnone : formatMessage (logMaxPrefixSize + strlen message) stamp level (cstr message) =
            some none := by
          rw [formatMessage, if_pos hstart]
        rw [hnone, ← or_assoc]
        simp [hstart]
      · obtain ⟨hstamp, hsize⟩ := not_or.mp hstart
        by_cases hfits : StampFits stamp level
        · have htext := formatMessage_fits hstamp hfits (cstr message)
          rw [strlen, htext]
          simp [hfits]
        · have hout := formatMessage_overflow hstamp hfits (not_le.mp hsize)
          rw [strlen, hout]
          simpa [hstamp, hfits, strlen] using hsize

theorem loggerLog_writes {logger : LoggerT} {stamp : Bytes} {level : LogMsgType}
    (hlevel : logger.level ≤ level.code) (hstamp : stamp ≠ []) (h : StampFits stamp level)
    (message : Bytes) :
    loggerLog logger true stamp level message =
      some (.writes (logLine stamp level message ++ [nul])) := by
  have htext := formatMessage_fits hstamp h (cstr message)
  simp only [loggerLog, if_neg (not_lt.mpr hlevel), if_true, strlen, htext]
  rfl

theorem loggerLog_record {logger : LoggerT} {malloc : Bool} {stamp record : Bytes}
    {level : LogMsgType} {message : Bytes}
    (h : loggerLog logger malloc stamp level message = some (.writes record)) :
    record = logLine stamp level message ++ [nul] := by
  unfold loggerLog at h
  split at h
  · cases h
  · split at h
    · obtain ⟨len, hlen, h⟩ := Option.bind_eq_some_iff.mp h
      cases len with
      | none => cases h
      | some text =>
        obtain rfl : text ++ [nul] = record := by simpa using h
        unfold formatMessage at hlen
        split at hlen
        · cases hlen
        · dsimp only at hlen
          split at hlen
          · cases hlen
          · split at hlen
            · cases hlen
            · obtain rfl : stamp ++ logText level (cstr message) = text := by simpa using hlen
              rfl
    · cases h

theorem nulFree_logLine {stamp : Bytes} (h : NulFree stamp) (level : LogMsgType) (message : Bytes) :
    NulFree (logLine stamp level message) := by
  have hrest : NulFree (tab :: (cstr message ++ [lf])) := by
    rw [nulFree_cons, nulFree_append]
    exact ⟨by decide, cstr_nulFree message, by decide⟩
  simp only [logLine, logText, nulFree_append]
  exact ⟨h, nulFree_getLogMsgType level, hrest⟩

/-- A line tells the time, the name of the type and the message: the time ends at the
first tab and the name at the second, and no name holds one. -/
theorem logLine_injective {date date' message message' : Bytes} {level level' : LogMsgType}
    (hdate : tab ∉ date) (hdate' : tab ∉ date')
    (h : logLine (date ++ [tab]) level message = logLine (date' ++ [tab]) level' message') :
    date = date' ∧ level = level' ∧ cstr message = cstr message' := by
  simp only [logLine, logText, List.append_assoc, List.singleton_append] at h
  obtain ⟨hdates, h⟩ := first_mark_unique hdate hdate' h
  obtain ⟨hnames, h⟩ := first_mark_unique (tab_notMem_getLogMsgType level)
    (tab_notMem_getLogMsgType level') h
  refine ⟨hdates, ?_, List.append_cancel_right h⟩
  revert hnames
  cases level <;> cases level' <;> decide

end SmtpMta.Common.Logger
