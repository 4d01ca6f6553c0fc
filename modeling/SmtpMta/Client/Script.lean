import SmtpMta.Client.Advance
import SmtpMta.Client.Success

/-! The bytes of a connection on their way to the server: what the handlers
append is the script of the protocol, and what `send` accepts is a beginning of
what they appended. -/
namespace SmtpMta.Client.Script
open Library.CString Library.Trace Common.SharedStrings Fsm Queue Transfer Advance Success

def script (mailFrom mailTo text : Bytes) : List Bytes :=
  [ascii "EHLO " ++ domain ++ ascii "\r\n",
   ascii "MAIL FROM:<" ++ mailFrom ++ ascii ">\r\n",
   ascii "RCPT TO:<" ++ mailTo ++ ascii ">\r\n",
   ascii "DATA\r\n",
   text ++ ascii "\r\n.\r\n",
   ascii "QUIT\r\n"]

/-- What a handler appends. A mail without lines is not sent. -/
def command (behind : Bytes) (c : Conn) : Transition → Bytes
  | .connect => ascii "EHLO " ++ domain ++ ascii "\r\n"
  | .ehlo => ascii "MAIL FROM:<" ++ c.mailFrom ++ ascii ">\r\n"
  | .mf => ascii "RCPT TO:<" ++ c.mailTo ++ ascii ">\r\n"
  | .rt => ascii "DATA\r\n"
  | .data => if c.mailText = [] then [] else queuedText c.mailText behind ++ ascii "\r\n.\r\n"
  | .quit => ascii "QUIT\r\n"
  | .finish => []
  | .error => []
  | .invalid => []

/-- The handler that the machine calls for a transition. For an invalid one the
process exits instead. -/
def handle (room : Nat → Bool) (behind : Bytes) (nextState : State) (c : Conn) :
    Transition → Option (State × Conn)
  | .connect => handleConnect room nextState c
  | .data => handleData room behind nextState c
  | .ehlo => handleEhlo room nextState c
  | .error => handleError nextState c
  | .finish => handleFinish nextState c
  | .mf => handleMf room nextState c
  | .quit => handleQuit room nextState c
  | .rt => handleRt room nextState c
  | .invalid => none

def reached (nextState : State) (c : Conn) (transition : Transition) : State :=
  if transition = .data ∧ c.mailText = [] then .sError else nextState

structure Texts (c : Conn) : Prop where
  sender : NulFree c.mailFrom
  recipient : NulFree c.mailTo
  lines : ∀ line ∈ c.mailText, NulFree line

section Handlers
variable {room : Nat → Bool} {behind queued : Bytes} {nextState : State} {c : Conn}

def appending (c : Conn) (state : State) (queued text : Bytes) : Conn :=
  if text = [] then { c with state } else sending c state (queued ++ text)

theorem appending_keeps (c : Conn) (state : State) (queued text : Bytes) :
    (appending c state queued text).state = state ∧ Keeps c (appending c state queued text) ∧
      (appending c state queued text).sended = c.sended := by
  unfold appending
  split
  · exact ⟨rfl, ⟨c.sendBuf, c.toSend, rfl⟩, rfl⟩
  · exact ⟨rfl, ⟨_, _, rfl⟩, rfl⟩

theorem unsent_appending (hqueued : unsent c = some queued) (state : State) (text : Bytes) :
    unsent (appending c state queued text) = some (queued ++ text) := by
  unfold appending
  split
  · rename_i htext
    rw [htext, List.append_nil]
    exact hqueued
  · exact unsent_sending ..

theorem handle_appends (hroom : ∀ k, room k = true) (behind : Bytes) (nextState : State)
    (htexts : Texts c) (hqueued : unsent c = some queued) {transition : Transition}
    (hvalid : transition ≠ .invalid) :
    handle room behind nextState c transition =
      some (reached nextState c transition,
        appending c (reached nextState c transition) queued (command behind c transition)) := by
  -- a command is put together from its parts
  have hqueue (parts : List Bytes) (hparts : ∀ part ∈ parts, NulFree part)
      (hne : parts.flatten ≠ []) :
      queue room nextState parts c =
        some (nextState, appending c nextState queued parts.flatten) := by
    rw [queue_text hroom (ne_nil_of_flatten hne) hparts hqueued, appending, if_neg hne]
  have hbracketed (verb : String) (hverb : NulFree (ascii verb) ∧ ascii verb ≠ []) {text : Bytes}
      (htext : NulFree text) : queue room nextState [ascii verb, text, ascii ">\r\n"] c =
        some (nextState, appending c nextState queued (ascii verb ++ text ++ ascii ">\r\n")) := by
    have hend : NulFree (ascii ">\r\n") := by decide
    have hflatten : [ascii verb, text, ascii ">\r\n"].flatten =
        ascii verb ++ text ++ ascii ">\r\n" := by simp
    rw [hqueue _ (by simp [hverb.1, htext, hend]) (by simp [hverb.2]), hflatten]
  cases transition with
  | connect => exact hqueue _ (by decide) (by decide)
  | ehlo => exact hbracketed _ (by decide) htexts.sender
  | mf => exact hbracketed _ (by decide) htexts.recipient
  | rt => exact hqueue _ (by decide) (by decide)
  | quit => exact hqueue _ (by decide) (by decide)
  | data =>
    by_cases hlines : c.mailText = []
    · simp [handle, handleData, concatMailText, concatParts, hlines, reached, command, appending,
        handleError]
    · rw [handle, handleData_text hroom htexts.lines hlines hqueued]
      simp [reached, command, appending, hlines, ascii]
  | finish => rfl
  | error => rfl
  | invalid => exact absurd rfl hvalid

theorem clientFsmStep_handle (room : Nat → Bool) (behind : Bytes) (c : Conn) {state : State}
    {event : Event}
    (hlive : ¬(state = .invalid ∨ state = .done)) (hvalid : (transTable state event).2 ≠ .invalid) :
    clientFsmStep room behind state event c =
      (handle room behind (transTable state event).1 c (transTable state event).2).map
        fun r => .stepped r.1 r.2 := by
  simp only [clientFsmStep, hlive, if_false]
  rcases htable : transTable state event with ⟨nxtSt, transition⟩
  rw [htable] at hvalid
  cases transition with
  | invalid => exact absurd rfl hvalid
  | _ => rfl

theorem clientFsmStep_invalid {state : State} {event : Event}
    (hlive : ¬(state = .invalid ∨ state = .done))
    (hinvalid : (transTable state event).2 = .invalid) :
    clientFsmStep room behind state event c = some .exited := by
  simp only [clientFsmStep, hlive, if_false, hinvalid]

end Handlers

section Conservation

/-- What happens to a send buffer: a handler of any phase, or a write of which
`send` accepts some bytes. -/
inductive Use where
  | handler (transition : Transition) (nextState : State) (room : Nat → Bool) (behind : Bytes)
  | write (accepted : Nat)

/-- The counters are stored in `int`s. The output is what `send` accepted. -/
def queueMachine : Machine Conn Use Bytes where
  step c
    | .handler transition nextState room behind =>
        (handle room behind nextState c transition).map fun r => ([], r.2.stored)
    | .write accepted => (connWrite (some accepted) c).map fun r => (r.2.1, r.2.2.stored)

/-- A handler for which memory does not run out. -/
def Able : Use → Prop
  | .handler transition _ room _ => transition ≠ .invalid ∧ ∀ k, room k = true
  | .write _ => True

/-- The counter that a step makes larger is still an `int`. -/
def Fits (c : Conn) : Use → Prop
  | .handler transition _ _ behind => c.toSend + (command behind c transition).length < 2 ^ 31
  | .write accepted => c.sended + (min accepted (min bufsize c.toSend.toNat) : Nat) < 2 ^ 31

instance (c : Conn) : ∀ use, Decidable (Fits c use)
  | .handler .. => inferInstanceAs (Decidable (_ < _))
  | .write _ => inferInstanceAs (Decidable (_ < _))

def appended (st : Step Conn Use Bytes) : Bytes :=
  match st.input with
  | .handler transition _ _ behind => command behind st.before transition
  | .write _ => []

/-- Nothing is lost, sent twice or out of order. -/
structure Conserved (history : List (Step Conn Use Bytes)) (c : Conn) : Prop where
  bytes : ∃ queued, unsent c = some queued ∧
    (history.map Step.output).flatten ++ queued = (history.map appended).flatten
  sended : c.sended = (history.map Step.output).flatten.length
  toSend : 0 ≤ c.toSend

def Conserving (c : Conn) (uses : List Use) : Prop :=
  ∃ history last, queueMachine.exec c uses = some (history, last) ∧
    ∀ done st rest, history = done ++ st :: rest → Conserved (done ++ [st]) st.after

variable {history : List (Step Conn Use Bytes)} {c : Conn} {queued text : Bytes}

theorem command_nulFree (htexts : Texts c) (behind : Bytes) (transition : Transition) :
    NulFree (command behind c transition) := by
  have hend : NulFree (ascii ">\r\n") := by decide
  cases transition with
  | ehlo => exact nulFree_append.mpr ⟨nulFree_append.mpr ⟨by decide, htexts.sender⟩, hend⟩
  | mf => exact nulFree_append.mpr ⟨nulFree_append.mpr ⟨by decide, htexts.recipient⟩, hend⟩
  | data =>
    simp only [command]
    split
    · exact nulFree_nil
    · exact nulFree_append.mpr ⟨queuedText_nulFree htexts.lines behind, by decide⟩
  | _ => simp only [command]; decide

theorem texts_of_keeps {c' : Conn} (h : Keeps c c') (htexts : Texts c) : Texts c' := by
  obtain ⟨sendBuf, toSend, heq⟩ := h
  rw [heq]
  exact ⟨htexts.sender, htexts.recipient, htexts.lines⟩

theorem length_lt_of_unsent_stored (hqueued : unsent c.stored = some queued) :
    queued.length < 2 ^ 31 := by
  have hlen : toInt c.toSend = queued.length := memcpyFrom_eq hqueued
  have hlt := toInt_lt c.toSend
  omega

/-- The invariant of a run. The queue is a string, as `strncpy` takes it for one. -/
structure Flows (history : List (Step Conn Use Bytes)) (c : Conn) : Prop where
  conserved : Conserved history c
  texts : Texts c
  queued : ∀ queued, unsent c = some queued → NulFree queued
  ints : c.stored = c

theorem Flows.handler (h : Flows history c) {transition : Transition} (nextState : State)
    {room : Nat → Bool} (behind : Bytes) (hvalid : transition ≠ .invalid)
    (hroom : ∀ k, room k = true) :
    ∃ c', queueMachine.step c (.handler transition nextState room behind) = some ([], c') ∧
      let st : Step Conn Use Bytes := ⟨c, .handler transition nextState room behind, [], c'⟩
      (Conserved (history ++ [st]) c' ↔ Fits c st.input) ∧
        (Fits c st.input → Flows (history ++ [st]) c') := by
  obtain ⟨queued, hqueued, hbytes⟩ := h.conserved.bytes
  have hhandle := handle_appends hroom behind nextState h.texts hqueued hvalid
  obtain ⟨-, hkeeps, hsended⟩ := appending_keeps c (reached nextState c transition) queued
    (command behind c transition)
  have hunsent := unsent_appending hqueued (reached nextState c transition)
    (command behind c transition)
  generalize happending : appending c (reached nextState c transition) queued
    (command behind c transition) = c₁ at hhandle hkeeps hsended hunsent
  refine ⟨c₁.stored, by simp only [queueMachine, hhandle, Option.map_some], ?_⟩
  intro st
  have hfits : Fits c st.input ↔ (queued ++ command behind c transition).length < 2 ^ 31 := by
    have hlen : c.toSend = queued.length := memcpyFrom_eq hqueued
    simp only [st, Fits, List.length_append]
    omega
  have hints : toInt c.sended = c.sended := congrArg Conn.sended h.ints
  have hbytes' (queued' : Bytes) : ((history ++ [st]).map Step.output).flatten ++ queued' =
      ((history ++ [st]).map appended).flatten ↔ queued' = queued ++ command behind c transition := by
    simp [st, ← hbytes, appended]
  have hconserved (hfits : (queued ++ command behind c transition).length < 2 ^ 31) :
      Conserved (history ++ [st]) c₁.stored := by
    have hstored := unsent_stored hunsent hfits
    refine ⟨⟨_, hstored, (hbytes' _).mpr rfl⟩, ?_, ?_⟩
    · have hcount := h.conserved.sended
      simpa [st, Conn.stored, hsended, hints] using hcount
    · rw [show c₁.stored.toSend = _ from memcpyFrom_eq hstored]
      exact Int.natCast_nonneg _
  rw [hfits]
  refine ⟨⟨fun hlaw => ?_, hconserved⟩, fun hfits => ⟨hconserved hfits, ?_, fun queued' hqueued' => ?_, ?_⟩⟩
  · obtain ⟨queued', hqueued', hbytes⟩ := hlaw.bytes
    rw [← (hbytes' queued').mp hbytes]
    exact length_lt_of_unsent_stored hqueued'
  · have htexts := texts_of_keeps hkeeps h.texts
    exact ⟨htexts.sender, htexts.recipient, htexts.lines⟩
  · obtain rfl := Option.some.inj ((unsent_stored hunsent hfits).symm.trans hqueued')
    exact nulFree_append.mpr ⟨h.queued queued hqueued, command_nulFree h.texts behind transition⟩
  · exact Conn.stored_stored c₁

/-- A write takes the start of the queue away, and the law goes on as long as the bytes that
were sent can be counted. -/
theorem Flows.write (h : Flows history c) (accepted : Nat) :
    ∃ sent c', queueMachine.step c (.write accepted) = some (sent, c') ∧
      let st : Step Conn Use Bytes := ⟨c, .write accepted, sent, c'⟩
      (Conserved (history ++ [st]) c' ↔ Fits c st.input) ∧
        (Fits c st.input → Flows (history ++ [st]) c') := by
  obtain ⟨queued, hqueued, hbytes⟩ := h.conserved.bytes
  have hlen : c.toSend = queued.length := memcpyFrom_eq hqueued
  obtain ⟨sent, rest, sendBuf, hwrite, rfl, hrest⟩ :=
    connWrite_sends hqueued (h.queued queued hqueued) accepted
  have htook := connWrite_length hqueued (h.queued _ hqueued) hwrite
  have hshort : rest.length < 2 ^ 31 := by
    have hint : toInt c.toSend = c.toSend := congrArg Conn.toSend h.ints
    have hlt := toInt_lt c.toSend
    rw [List.length_append] at hlen
    omega
  generalize hafter : { c with
    sendBuf, sended := c.sended + sent.length, toSend := c.toSend - sent.length } = c₁ at hwrite
  have hunsent : unsent c₁ = some rest := by
    rw [← hafter]
    exact hrest
  have hstored := unsent_stored hunsent hshort
  have hcount : c₁.sended = c.sended + sent.length := by rw [← hafter]
  refine ⟨sent, c₁.stored, by simp only [queueMachine, hwrite, Option.map_some], ?_⟩
  intro st
  have hfits : Fits c st.input ↔ c.sended + sent.length < 2 ^ 31 := by
    simp only [st, Fits, htook, hlen, Int.toNat_natCast]
  have houtput : (((history ++ [st]).map Step.output).flatten.length : Int) =
      c.sended + sent.length := by
    rw [h.conserved.sended]
    simp [st]
  have hconserved (hfits : c.sended + sent.length < 2 ^ 31) : Conserved (history ++ [st]) c₁.stored := by
    refine ⟨⟨rest, hstored, by simp [st, ← hbytes, appended]⟩, ?_, ?_⟩
    · have hint : toInt c₁.sended = c₁.sended := by
        rw [hcount]
        exact toInt_eq (by have := h.conserved.sended; omega) hfits
      rw [houtput, ← hcount]
      exact hint
    · rw [show c₁.stored.toSend = _ from memcpyFrom_eq hstored]
      exact Int.natCast_nonneg _
  rw [hfits]
  refine ⟨⟨fun hlaw => ?_, hconserved⟩, fun hfits => ⟨hconserved hfits, ?_, fun queued' hqueued' => ?_, ?_⟩⟩
  · rw [← houtput, ← hlaw.sended]
    exact toInt_lt _
  · rw [← hafter]
    exact ⟨h.texts.sender, h.texts.recipient, h.texts.lines⟩
  · obtain rfl := Option.some.inj (hstored.symm.trans hqueued')
    exact (nulFree_append.mp (h.queued _ hqueued)).2
  · exact Conn.stored_stored c₁

theorem flows_init {mailText : List Bytes} {mailFrom mailTo : Bytes}
    (hfrom : NulFree mailFrom) (hto : NulFree mailTo) (hlines : ∀ line ∈ mailText, NulFree line)
    (sendBuf receiveBuf : Option Bytes) :
    Flows [] (initConnection mailText mailFrom mailTo sendBuf receiveBuf) := by
  have hnone : unsent (initConnection mailText mailFrom mailTo sendBuf receiveBuf) = some [] := rfl
  refine ⟨⟨⟨[], hnone, rfl⟩, rfl, Int.le_refl 0⟩, ⟨hfrom, hto, hlines⟩, fun queued hqueued => ?_, rfl⟩
  obtain rfl := Option.some.inj (hnone.symm.trans hqueued)
  exact nulFree_nil

/-- Whatever the handlers append and however `send` cuts it, the bytes it has accepted and
those that are left are what was appended, exactly as long as the counters fit. -/
theorem queue_conserved_iff {mailText : List Bytes} {mailFrom mailTo : Bytes}
    (hfrom : NulFree mailFrom) (hto : NulFree mailTo) (hlines : ∀ line ∈ mailText, NulFree line)
    (sendBuf receiveBuf : Option Bytes) {uses : List Use} (huses : ∀ use ∈ uses, Able use) :
    Conserving (initConnection mailText mailFrom mailTo sendBuf receiveBuf) uses ↔
      queueMachine.Throughout Fits
        (initConnection mailText mailFrom mailTo sendBuf receiveBuf) uses := by
  have hstep : ∀ past c use, Flows past c → Able use → ∃ sent c',
      queueMachine.step c use = some (sent, c') ∧
        (Conserved (past ++ [⟨c, use, sent, c'⟩]) c' ↔ Fits c use) ∧
        (Fits c use → Flows (past ++ [⟨c, use, sent, c'⟩]) c') := by
    intro past c use h hable
    cases use with
    | handler transition nextState room behind =>
      obtain ⟨c', hstep, hlaw⟩ := h.handler nextState behind hable.1 hable.2
      exact ⟨[], c', hstep, hlaw⟩
    | write accepted => exact h.write accepted
  exact Machine.exec_law_iff hstep (flows_init hfrom hto hlines sendBuf receiveBuf) huses

/-- Two commands, with a write that stops inside the first. -/
theorem queue_conserved_iff_newConn : Conserving newConn
    [.handler .connect .initialized (fun _ => true) [], .write 7,
      .handler .ehlo .sEhlo (fun _ => true) [], .write 1000] :=
  (queue_conserved_iff (by decide) (by decide) (by decide) _ _ (by simp [Able])).mpr (by decide)

theorem queueMachine_handler {transition : Transition} {nextState : State} {room : Nat → Bool}
    {behind sent : Bytes} {c' : Conn}
    (h : queueMachine.step c (.handler transition nextState room behind) = some (sent, c')) :
    sent = [] ∧ c'.toSend < 2 ^ 31 := by
  obtain ⟨r, -, h⟩ := Option.map_eq_some_iff.mp h
  obtain ⟨rfl, rfl⟩ := Prod.mk.inj h
  exact ⟨rfl, toInt_lt _⟩

theorem not_conserving_replicate {n : Nat} (h : 2 ^ 31 ≤ n * 6) :
    ¬Conserving newConn (List.replicate n (.handler .rt .sData (fun _ => true) [])) := by
  rintro ⟨history, last, hexec, hall⟩
  have hinputs := (Machine.exec_inputs hexec).2 fun _ _ => rfl
  have hinput : ∀ st ∈ history, st.input = .handler .rt .sData (fun _ => true) [] := fun st hst =>
    List.eq_of_mem_replicate (hinputs ▸ List.mem_map_of_mem hst)
  have hcalled : ∀ st ∈ history, st.output = [] ∧ st.after.toSend < 2 ^ 31 := fun st hst => by
    have hstep := Machine.exec_step hexec hst
    rw [hinput st hst] at hstep
    exact queueMachine_handler hstep
  have hlength : history.length = n := by simpa using congrArg List.length hinputs
  rcases List.eq_nil_or_concat' history with rfl | ⟨done, last, rfl⟩
  · rw [← hlength] at h
    simp at h
  obtain ⟨queued, hqueued, hbytes⟩ := (hall done last [] rfl).bytes
  have hsent : ((done ++ [last]).map Step.output).flatten = [] := by
    rw [List.flatten_eq_nil_iff]
    rintro _ hmem
    obtain ⟨st, hst, rfl⟩ := List.mem_map.mp hmem
    exact (hcalled st hst).1
  have hcommands : (done ++ [last]).map appended = List.replicate n (ascii "DATA\r\n") := by
    rw [List.eq_replicate_iff, List.length_map]
    refine ⟨hlength, fun command hmem => ?_⟩
    obtain ⟨st, hst, rfl⟩ := List.mem_map.mp hmem
    rw [appended, hinput st hst]
    rfl
  rw [hsent, hcommands, List.nil_append] at hbytes
  have hcount : last.after.toSend = queued.length := memcpyFrom_eq hqueued
  have hlt := (hcalled last (by simp)).2
  have htotal : queued.length = n * 6 := by
    rw [hbytes, List.length_flatten, List.map_replicate, List.sum_replicate_nat]
    rfl
  omega

/-- The queue of `DATA` commands of which none is sent, until its length is negative. -/
theorem queue_overflows : ¬Conserving newConn
    (List.replicate 357913942 (.handler .rt .sData (fun _ => true) [])) :=
  not_conserving_replicate (by decide)

end Conservation

section Lockstep
variable {mailText : List Bytes} {mailFrom mailTo : Bytes} {c c' : Conn} {call : Call}
  {history : List (Step Conn Call Bool)}

/-- The OKs before the first other event. -/
def acknowledged (events : List Event) : Nat :=
  (events.takeWhile (· = .ok)).length

@[simp] theorem acknowledged_nil : acknowledged [] = 0 := rfl

theorem acknowledged_ok {events : List Event} (h : ∀ e ∈ events, e = .ok) :
    acknowledged (events ++ [.ok]) = acknowledged events + 1 := by
  have hall : (events ++ [Event.ok]).takeWhile (fun e => e = .ok) = events ++ [.ok] :=
    List.takeWhile_eq_self_iff.mpr (by simpa [or_imp, forall_and] using h)
  have hall' : events.takeWhile (fun e => e = .ok) = events :=
    List.takeWhile_eq_self_iff.mpr (by simpa using h)
  rw [acknowledged, acknowledged, hall, hall', List.length_append, List.length_singleton]

theorem acknowledged_append {events : List Event} {event : Event}
    (h : ¬∀ e ∈ events ++ [event], e = .ok) :
    acknowledged (events ++ [event]) = acknowledged events := by
  induction events with
  | nil =>
    have hne : event ≠ .ok := by simpa using h
    simp [acknowledged, hne]
  | cons first events ih =>
    by_cases hfirst : first = .ok
    · have hrest : ¬∀ e ∈ events ++ [event], e = .ok := by
        intro hall
        exact h (by simpa [hfirst] using hall)
      simpa [acknowledged, hfirst] using ih hrest
    · simp [acknowledged, hfirst]

/-- The state after as many OKs. -/
def progress : Nat → State
  | 0 => .init
  | 1 => .initialized
  | 2 => .sEhlo
  | 3 => .sMf
  | 4 => .sRt
  | 5 => .sData
  | 6 => .sQuit
  | _ => .finish

def Closed (state : State) : Prop :=
  state = .sError ∨ state = .finish

instance (state : State) : Decidable (Closed state) :=
  inferInstanceAs (Decidable (_ ∨ _))

theorem progress_ok {k : Nat} (hk : k < 7) : ∃ transition,
    transTable (progress k) .ok = (progress (k + 1), transition) ∧ transition ≠ .invalid ∧
      (transition = .data ↔ k = 4) ∧
      ((k = 4 → c.mailText ≠ []) → ∀ {behind}, cstr behind = [] →
        ((script c.mailFrom c.mailTo c.mailText.flatten).take (k + 1)).flatten =
          ((script c.mailFrom c.mailTo c.mailText.flatten).take k).flatten ++
            command behind c transition) := by
  rcases k with _ | _ | _ | _ | _ | _ | _ | k
  · exact ⟨.connect, rfl, by decide, by decide, fun _ _ _ => by simp [script, command]⟩
  · exact ⟨.ehlo, rfl, by decide, by decide, fun _ _ _ => by simp [script, command]⟩
  · exact ⟨.mf, rfl, by decide, by decide, fun _ _ _ => by simp [script, command]⟩
  · exact ⟨.rt, rfl, by decide, by decide, fun _ _ _ => by simp [script, command]⟩
  · refine ⟨.data, rfl, by decide, by decide, fun hlines behind hbehind => ?_⟩
    simp [script, command, hlines rfl, queuedText, hbehind]
  · exact ⟨.quit, rfl, by decide, by decide, fun _ _ _ => by simp [script, command]⟩
  · exact ⟨.finish, rfl, by decide, by decide, fun _ _ _ => by simp [script, command]⟩
  · omega

def Regular (state : State) : Prop :=
  state ∉ [.sMail, .invalid, .done]

theorem regular_progress (k : Nat) : Regular (progress k) := by
  rcases k with _ | _ | _ | _ | _ | _ | _ | k <;> simp [Regular, progress]

theorem closes {state : State} {event : Event} (hregular : Regular state)
    (hevent : event ≠ .connected) (hclose : event ≠ .ok ∨ Closed state)
    (hvalid : (transTable state event).2 ≠ .invalid) :
    Closed (transTable state event).1 ∧
      ((transTable state event).2 = .error ∨ (transTable state event).2 = .finish) := by
  cases state <;> cases event <;> simp_all [transTable, Closed, Regular]

structure Ordinary (call : Call) : Prop where
  event : call.event ≠ .connected
  room : ∀ k, call.room k = true
  exact : cstr call.behind = []

theorem fsmMachine_step (hcall : Ordinary call) (htexts : Texts c) (hregular : Regular c.state)
    {queued : Bytes} (hqueued : unsent c = some queued) :
    ((transTable c.state call.event).2 = .invalid ∧ fsmMachine.step c call = some (true, c)) ∨
      ((transTable c.state call.event).2 ≠ .invalid ∧
        ∃ state c', state = reached (transTable c.state call.event).1 c (transTable c.state call.event).2 ∧
          c' = appending c state queued (command call.behind c (transTable c.state call.event).2) ∧
          clientFsmStep call.room call.behind c.state call.event c = some (.stepped state c') ∧
          fsmMachine.step c call = some (false, c')) := by
  have hlive : ¬(c.state = .invalid ∨ c.state = .done) := by
    simp only [Regular, List.mem_cons, List.not_mem_nil, or_false, not_or] at hregular
    exact not_or.mpr hregular.2
  by_cases hvalid : (transTable c.state call.event).2 = .invalid
  · exact .inl ⟨hvalid, by simp only [fsmMachine, clientFsmStep_invalid hlive hvalid, Option.map_some]⟩
  · have hstep := clientFsmStep_handle call.room call.behind c hlive hvalid
    rw [handle_appends hcall.room call.behind _ htexts hqueued hvalid, Option.map_some] at hstep
    exact .inr ⟨hvalid, _, _, rfl, rfl, hstep, by simp only [fsmMachine, hstep, Option.map_some]⟩

def eventsOf (history : List (Step Conn Call Bool)) : List Event :=
  history.map (·.input.event)

def spoken (mailText : List Bytes) (k : Nat) : Nat :=
  if mailText = [] then min k 4 else k

variable (mailText mailFrom mailTo) in
/-- The events of a run decide what the client has said. -/
structure Speaks (history : List (Step Conn Call Bool)) (c : Conn) : Prop where
  text : c.mailText = mailText
  sender : c.mailFrom = mailFrom
  recipient : c.mailTo = mailTo
  said : unsent c = some ((script mailFrom mailTo mailText.flatten).take
    (spoken mailText (acknowledged (eventsOf history)))).flatten
  onTrack : (∀ e ∈ eventsOf history, e = .ok) →
    c.state = if mailText = [] ∧ 5 ≤ acknowledged (eventsOf history) then .sError
      else progress (acknowledged (eventsOf history))
  offTrack : ¬(∀ e ∈ eventsOf history, e = .ok) → Closed c.state
  returned : ∀ st ∈ history, clientFsmStep st.input.room st.input.behind st.before.state
    st.input.event st.before = some (.stepped st.after.state st.after)
  closed : ∀ done st rest, history = done ++ st :: rest → Closed st.after.state →
    Closed c.state ∧ unsent c = unsent st.after

theorem Speaks.regular (h : Speaks mailText mailFrom mailTo history c) : Regular c.state := by
  by_cases hall : ∀ e ∈ eventsOf history, e = .ok
  · rw [h.onTrack hall]
    split
    · simp [Regular]
    · exact regular_progress _
  · rcases h.offTrack hall with hstate | hstate <;> simp [hstate, Regular]

theorem Speaks.advance (h : Speaks mailText mailFrom mailTo history c)
    (hall : ∀ e ∈ eventsOf history, e = .ok) (hexact : cstr call.behind = [])
    (hvalid : (transTable c.state .ok).2 ≠ .invalid) :
    let k := acknowledged (eventsOf history)
    reached (transTable c.state .ok).1 c (transTable c.state .ok).2 =
        (if mailText = [] ∧ 5 ≤ k + 1 then .sError else progress (k + 1)) ∧
      ((script mailFrom mailTo mailText.flatten).take (spoken mailText (k + 1))).flatten =
        ((script mailFrom mailTo mailText.flatten).take (spoken mailText k)).flatten ++
          command call.behind c (transTable c.state .ok).2 := by
  intro k
  obtain ⟨rfl, rfl, rfl⟩ := And.intro h.text (And.intro h.sender h.recipient)
  have hstate := h.onTrack hall
  by_cases hnone : c.mailText = [] ∧ 5 ≤ k
  · rw [if_pos hnone] at hstate
    have hnext : c.mailText = [] ∧ 5 ≤ k + 1 := ⟨hnone.1, by omega⟩
    have hsame : min (k + 1) 4 = min k 4 := by omega
    simp [hstate, transTable, reached, command, hnext, spoken, hsame]
  · rw [if_neg hnone] at hstate
    have hlt : k < 7 := by
      by_contra hge
      obtain ⟨n, hn⟩ : ∃ n, k = n + 7 := ⟨k - 7, by omega⟩
      rw [hstate, show acknowledged (eventsOf history) = n + 7 from hn] at hvalid
      simp [progress, transTable] at hvalid
    obtain ⟨transition, htable, -, hdata, hcommand⟩ := @progress_ok c k hlt
    rw [hstate, htable]
    by_cases hlines : c.mailText = []
    · have hle : k ≤ 4 := by
        by_contra hgt
        exact hnone ⟨hlines, by omega⟩
      rcases hle.lt_or_eq with hearly | hfour
      · -- the text is not asked for yet
        have hother : transition ≠ .data := fun heq => by have := hdata.mp heq; omega
        have hnext : ¬5 ≤ k + 1 := by omega
        have hmin : min (k + 1) 4 = k + 1 ∧ min k 4 = k := by omega
        have happend := hcommand (fun heq => by omega) hexact
        simpa [reached, hother, hnext, spoken, hlines, hmin] using happend
      · have htext : transition = .data := hdata.mpr hfour
        simp [reached, htext, hlines, spoken, command, hfour]
    · have happend := hcommand (fun _ => hlines) hexact
      simpa [reached, hlines, spoken] using happend

theorem Speaks.step (h : Speaks mailText mailFrom mailTo history c) (htexts : Texts c)
    (hcall : Ordinary call) :
    fsmMachine.step c call = some (true, c) ∨
      ∃ c', fsmMachine.step c call = some (false, c') ∧ Texts c' ∧
        Speaks mailText mailFrom mailTo (history ++ [⟨c, call, false, c'⟩]) c' := by
  rcases fsmMachine_step hcall htexts h.regular h.said with
    ⟨-, hexit⟩ | ⟨hvalid, state, c', hstate, hc', hstep, hmachine⟩
  · exact .inl hexit
  right
  have hevents : eventsOf (history ++ [⟨c, call, false, c'⟩]) = eventsOf history ++ [call.event] := by
    simp [eventsOf]
  obtain ⟨hstate', hkeeps, -⟩ := appending_keeps c state (((script mailFrom mailTo
    mailText.flatten).take (spoken mailText (acknowledged (eventsOf history)))).flatten)
    (command call.behind c (transTable c.state call.event).2)
  have hunsent := unsent_appending h.said state
    (command call.behind c (transTable c.state call.event).2)
  rw [← hc'] at hstate' hkeeps hunsent
  have hsame := hkeeps
  obtain ⟨sendBuf, toSend, hfields⟩ := hsame
  -- nothing is appended on the way out
  have hquiet (hclose : call.event ≠ .ok ∨ Closed c.state) :
      Closed c'.state ∧ unsent c' = unsent c := by
    obtain ⟨hclosed, hlast⟩ := closes h.regular hcall.event hclose hvalid
    have hreached : state = (transTable c.state call.event).1 := by
      rw [hstate, reached, if_neg]
      rintro ⟨hdata, -⟩
      rcases hlast with hlast | hlast <;> simp [hlast] at hdata
    have hnothing : command call.behind c (transTable c.state call.event).2 = [] := by
      rcases hlast with hlast | hlast <;> rw [hlast] <;> rfl
    rw [hstate', hreached, hunsent, hnothing, List.append_nil, h.said]
    exact ⟨hclosed, rfl⟩
  have hother (hoff : ¬∀ e ∈ eventsOf history ++ [call.event], e = .ok) :
      call.event ≠ .ok ∨ Closed c.state := by
    by_contra hon
    obtain ⟨hok, hopen⟩ := not_or.mp hon
    refine hoff fun e hmem => ?_
    rcases List.mem_append.mp hmem with hmem | hmem
    · exact not_not.mp (mt h.offTrack hopen) e hmem
    · rw [List.mem_singleton.mp hmem]
      exact not_not.mp hok
  have hadvance (hon : ∀ e ∈ eventsOf history ++ [call.event], e = .ok) :
      call.event = .ok ∧ ∀ e ∈ eventsOf history, e = .ok :=
    ⟨hon _ (by simp), fun e hmem => hon e (by simp [hmem])⟩
  refine ⟨c', hmachine, texts_of_keeps hkeeps htexts, ?_⟩
  constructor
  case text => rw [hfields]; exact h.text
  case sender => rw [hfields]; exact h.sender
  case recipient => rw [hfields]; exact h.recipient
  case said =>
    rw [hevents]
    by_cases hon : ∀ e ∈ eventsOf history ++ [call.event], e = .ok
    · obtain ⟨hok, hall⟩ := hadvance hon
      rw [hok] at hvalid hunsent
      obtain ⟨-, hbytes⟩ := h.advance hall hcall.exact hvalid
      rw [hok, acknowledged_ok hall, hbytes]
      exact hunsent
    · rw [acknowledged_append hon, (hquiet (hother hon)).2, h.said]
  case onTrack =>
    rw [hevents]
    intro hon
    obtain ⟨hok, hall⟩ := hadvance hon
    rw [hok] at hvalid hstate
    rw [hok, acknowledged_ok hall, hstate', hstate]
    exact (h.advance hall hcall.exact hvalid).1
  case offTrack =>
    rw [hevents]
    exact fun hoff => (hquiet (hother hoff)).1
  case returned =>
    intro st hmem
    rcases List.mem_append.mp hmem with hmem | hmem
    · exact h.returned st hmem
    · obtain rfl := List.mem_singleton.mp hmem
      rw [hstate']
      exact hstep
  case closed =>
    intro done st rest hsplit hclosed
    rcases List.eq_nil_or_concat' rest with rfl | ⟨rest, last, rfl⟩
    · obtain ⟨-, rfl⟩ := List.append_singleton_inj.mp hsplit
      exact ⟨hclosed, rfl⟩
    · rw [← List.cons_append, ← List.append_assoc] at hsplit
      obtain ⟨hpast, -⟩ := List.append_singleton_inj.mp hsplit
      obtain ⟨hstay, heq⟩ := h.closed done st rest hpast hclosed
      obtain ⟨hclosed', hunsent'⟩ := hquiet (.inr hstay)
      exact ⟨hclosed', hunsent'.trans heq⟩

theorem Speaks.run (h : Speaks mailText mailFrom mailTo history c) (htexts : Texts c)
    {calls : List Call} (hcalls : ∀ call ∈ calls, Ordinary call) :
    ∃ taken last, fsmMachine.exec c calls = some (taken, last) ∧
      ((∀ st ∈ taken, st.output = false) →
        Speaks mailText mailFrom mailTo (history ++ taken) last) := by
  induction calls generalizing history c with
  | nil => exact ⟨[], c, rfl, fun _ => by rwa [List.append_nil]⟩
  | cons call calls ih =>
    obtain ⟨hcall, hrest⟩ := List.forall_mem_cons.mp hcalls
    rcases h.step htexts hcall with hexit | ⟨c', hstep, htexts', hnext⟩
    · refine ⟨[⟨c, call, true, c⟩], c, Machine.exec_stops hexit rfl calls, fun hlive => ?_⟩
      have hfalse := hlive ⟨c, call, true, c⟩ (by simp)
      cases hfalse
    · obtain ⟨taken, last, hexec, hspeaks⟩ := ih hnext htexts' hrest
      refine ⟨⟨c, call, false, c'⟩ :: taken, last, Machine.exec_goes hstep rfl hexec,
        fun hlive => ?_⟩
      rw [List.append_cons]
      exact hspeaks fun st hmem => hlive st (by simp [hmem])

end Lockstep

end SmtpMta.Client.Script
