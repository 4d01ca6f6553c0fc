import SmtpMta.Client.SelectLoop
import SmtpMta.Client.Success

/-! Which connections of a worker get their message acknowledged: those whose
first six events are OKs. -/
namespace SmtpMta.Client.Answers
open Library.CString Library.Trace Fsm SelectLoop
open Transfer (deliver Ending)
open Script (progress)
open Success (BeforeAnswer)

def IsAnswer (call : Call) : Prop :=
  call.state = .sData ∧ call.event = .ok

/-- Call number `k` gets the connection on: its event is an OK, and at DATA there is a text. -/
def Good (k : Nat) (call : Call) : Prop :=
  call.event = .ok ∧ (k = 4 → concatMailText call.room call.connection.conn.mailText ≠ some none)

/-- The greeting and the replies to EHLO, MAIL, RCPT, DATA and the text are OKs. -/
def Accepted (calls : List Call) : Prop :=
  ∀ k < 6, ∃ call, calls[k]? = some call ∧ Good k call

inductive Course (calls : List Call) (state : State) : Prop
  | early (short : calls.length ≤ 5) (at_progress : state = progress calls.length)
      (good : ∀ k call, calls[k]? = some call → Good k call ∧ call.state = progress k)
  | answered (past : ¬BeforeAnswer state) (accepted : Accepted calls)
      (answer : ∃ call ∈ calls, IsAnswer call)
  | spoiled (past : ¬BeforeAnswer state) {k : Nat} (early : k < 6) {call : Call}
      (get : calls[k]? = some call) (bad : ¬Good k call)
      (unanswered : ∀ call ∈ calls, ¬IsAnswer call)

def Leads (call : Call) (state : State) : Prop :=
  Moves call.state call.event state ∧
    (call.state = .sRt → call.event = .ok →
      (state = .sData ↔ concatMailText call.room call.connection.conn.mailText ≠ some none))

section Courses
variable {calls : List Call} {call : Call} {state : State}

theorem progress_beforeAnswer {k : Nat} : BeforeAnswer (progress k) ↔ k ≤ 5 := by
  rcases k with _ | _ | _ | _ | _ | _ | _ | k <;> simp [progress, BeforeAnswer]

theorem progress_sData {k : Nat} : progress k = .sData ↔ k = 5 := by
  rcases k with _ | _ | _ | _ | _ | _ | _ | k <;> simp [progress]

theorem accepted_append (h : Accepted calls) (more : List Call) : Accepted (calls ++ more) := by
  intro k hk
  obtain ⟨call, hget, hgood⟩ := h k hk
  exact ⟨call, List.getElem?_append_left (List.getElem?_eq_some_iff.mp hget).1 ▸ hget, hgood⟩

theorem getElem?_append_one {k : Nat} {call' : Call} (h : (calls ++ [call])[k]? = some call') :
    calls[k]? = some call' ∨ (k = calls.length ∧ call' = call) := by
  rcases Nat.lt_trichotomy k calls.length with hlt | rfl | hgt
  · rw [List.getElem?_append_left hlt] at h
    exact .inl h
  · exact .inr ⟨rfl, by simpa using h.symm⟩
  · rw [List.getElem?_eq_none (by simp; omega)] at h
    simp at h

theorem Course.iff (h : Course calls state) : Accepted calls ↔ ∃ call ∈ calls, IsAnswer call := by
  cases h with
  | early short at_progress good =>
    constructor
    · intro haccepted
      obtain ⟨call, hget, -⟩ := haccepted 5 (by omega)
      have := (List.getElem?_eq_some_iff.mp hget).1
      omega
    · rintro ⟨call, hmem, hdata, -⟩
      obtain ⟨k, hget⟩ := List.mem_iff_getElem?.mp hmem
      have hlt := (List.getElem?_eq_some_iff.mp hget).1
      have hk := progress_sData.mp ((good k call hget).2.symm.trans hdata)
      omega
  | answered past accepted answer => exact iff_of_true accepted answer
  | spoiled past early get bad unanswered =>
    refine iff_of_false (fun haccepted => ?_) fun ⟨call, hmem, h⟩ => unanswered call hmem h
    obtain ⟨call', hget, hgood⟩ := haccepted _ early
    obtain rfl : call' = _ := Option.some.inj (hget.symm.trans get)
    exact bad hgood

theorem Course.push (h : Course calls call.state) :
    Accepted (calls ++ [call]) ↔ ∃ call' ∈ calls ++ [call], IsAnswer call' := by
  cases h with
  | early short at_progress good =>
    have hanswer : IsAnswer call ↔ calls.length = 5 ∧ call.event = .ok := by
      rw [IsAnswer, at_progress, progress_sData]
    constructor
    · intro haccepted
      obtain ⟨call', hget, hgood⟩ := haccepted 5 (by omega)
      rcases getElem?_append_one hget with hold | ⟨hlen, rfl⟩
      · have := (List.getElem?_eq_some_iff.mp hold).1
        omega
      · exact ⟨call', by simp, hanswer.mpr ⟨hlen.symm, hgood.1⟩⟩
    · rintro ⟨call', hmem, hdata, hok⟩
      have hlast : calls.length = 5 ∧ call.event = .ok := by
        rcases List.mem_append.mp hmem with hmem | hmem
        · obtain ⟨k, hget⟩ := List.mem_iff_getElem?.mp hmem
          have hlt := (List.getElem?_eq_some_iff.mp hget).1
          have hk := progress_sData.mp ((good k call' hget).2.symm.trans hdata)
          omega
        · obtain rfl := List.mem_singleton.mp hmem
          exact hanswer.mp ⟨hdata, hok⟩
      intro k hk
      obtain ⟨call'', hget⟩ : ∃ call'', (calls ++ [call])[k]? = some call'' :=
        ⟨_, List.getElem?_eq_getElem (by simp; omega)⟩
      refine ⟨call'', hget, ?_⟩
      rcases getElem?_append_one hget with hold | ⟨hlen, rfl⟩
      · exact (good k call'' hold).1
      · exact ⟨hlast.2, by omega⟩
  | answered past accepted answer =>
    obtain ⟨call', hmem, h⟩ := answer
    exact iff_of_true (accepted_append accepted _) ⟨call', by simp [hmem], h⟩
  | spoiled past early get bad unanswered =>
    refine iff_of_false (fun haccepted => ?_) ?_
    · obtain ⟨call', hget, hgood⟩ := haccepted _ early
      rw [List.getElem?_append_left (List.getElem?_eq_some_iff.mp get).1, get] at hget
      obtain rfl := Option.some.inj hget
      exact bad hgood
    · rintro ⟨call', hmem, hdata, hok⟩
      rcases List.mem_append.mp hmem with hmem | hmem
      · exact unanswered call' hmem ⟨hdata, hok⟩
      · obtain rfl := List.mem_singleton.mp hmem
        exact past (by simp [hdata, BeforeAnswer])

theorem Leads.progress {k : Nat} (h : Leads call state) (hk : k ≤ 5)
    (hstate : call.state = progress k) :
    (Good k call → state = Script.progress (k + 1)) ∧ (¬Good k call → ¬BeforeAnswer state) := by
  obtain ⟨hmoves, htext⟩ := h
  rw [hstate] at hmoves htext
  rcases hmoves with ⟨rfl, -⟩ | ⟨hrt, hok, rfl⟩ | ⟨hdone, -⟩
  · rcases k with _ | _ | _ | _ | _ | _ | k
    all_goals try omega
    all_goals
      cases hevent : call.event <;>
        simp_all [Good, Script.progress, transTable, BeforeAnswer]
  · have hfour : k = 4 := by
      rcases k with _ | _ | _ | _ | _ | _ | _ | k <;> simp_all [Script.progress]
    subst hfour
    have hnone : concatMailText call.room call.connection.conn.mailText = some none := by
      simpa [Script.progress, hok] using htext
    simp [Good, hnone, BeforeAnswer]
  · rcases k with _ | _ | _ | _ | _ | _ | _ | k <;> simp [Script.progress] at hdone

theorem Course.step (h : Course calls call.state) (hleads : Leads call state) :
    Course (calls ++ [call]) state := by
  cases h with
  | early short at_progress good =>
    have hnext := hleads.progress short at_progress
    by_cases hgood : Good calls.length call
    · have hstate := hnext.1 hgood
      have hall : ∀ k call', (calls ++ [call])[k]? = some call' →
          Good k call' ∧ call'.state = Script.progress k := by
        intro k call' hget
        rcases getElem?_append_one hget with hold | ⟨rfl, rfl⟩
        · exact good k call' hold
        · exact ⟨hgood, at_progress⟩
      by_cases hlen : calls.length = 5
      · refine .answered ?_ (fun k hk => ?_) ⟨call, by simp, ?_, hgood.1⟩
        · rw [hstate, progress_beforeAnswer]
          omega
        · obtain ⟨call', hget⟩ : ∃ call', (calls ++ [call])[k]? = some call' :=
            ⟨_, List.getElem?_eq_getElem (by simp; omega)⟩
          exact ⟨call', hget, (hall k call' hget).1⟩
        · rw [at_progress, progress_sData]
          exact hlen
      · exact .early (by simp; omega) (by simpa using hstate) hall
    · refine .spoiled (hnext.2 hgood) (Nat.lt_succ_of_le short) (by simp) hgood
        fun call' hmem hanswer => ?_
      obtain ⟨hdata, hok⟩ := hanswer
      rcases List.mem_append.mp hmem with hmem | hmem
      · obtain ⟨k, hget⟩ := List.mem_iff_getElem?.mp hmem
        have hlt := (List.getElem?_eq_some_iff.mp hget).1
        have hk := progress_sData.mp ((good k call' hget).2.symm.trans hdata)
        omega
      · obtain rfl := List.mem_singleton.mp hmem
        have hk := progress_sData.mp (at_progress.symm.trans hdata)
        exact hgood ⟨hok, by omega⟩
  | answered past accepted answer =>
    obtain ⟨call', hmem, h⟩ := answer
    exact .answered (fun hbefore => past (Success.moves_before_answer hleads.1 hbefore).1)
      (accepted_append accepted _) ⟨call', by simp [hmem], h⟩
  | @spoiled past k early call' get bad unanswered =>
    refine .spoiled (fun hbefore => past (Success.moves_before_answer hleads.1 hbefore).1) early
      ((List.getElem?_append_left (List.getElem?_eq_some_iff.mp get).1).trans get) bad
      fun call'' hmem hanswer => ?_
    rcases List.mem_append.mp hmem with hmem | hmem
    · exact unanswered call'' hmem hanswer
    · obtain rfl := List.mem_singleton.mp hmem
      exact past (by simp [hanswer.1, BeforeAnswer])

end Courses

theorem handleData_text {room : Nat → Bool} {behind : Bytes} {nextState s : State} {c c' : Conn}
    (h : handleData room behind nextState c = some (s, c')) :
    (concatMailText room c.mailText = some none ∧ c'.state = .sError) ∨
      (concatMailText room c.mailText ≠ some none ∧ c'.state = nextState) := by
  obtain ⟨text, htext, h⟩ := Option.bind_eq_some_iff.mp h
  have htext' : concatMailText room c.mailText = some text := htext
  cases text with
  | none =>
    obtain ⟨-, rfl⟩ := Prod.mk.inj (Option.some.inj h)
    exact .inl ⟨htext', rfl⟩
  | some text =>
    obtain ⟨⟨comm, newLen⟩, -, h⟩ := Option.bind_eq_some_iff.mp h
    obtain ⟨⟨comm, newLen⟩, -, h⟩ := Option.bind_eq_some_iff.mp h
    obtain ⟨⟨sendBuf, toSend⟩, -, h⟩ := Option.bind_eq_some_iff.mp h
    obtain ⟨-, rfl⟩ := Prod.mk.inj (Option.some.inj h)
    exact .inr ⟨by simp [htext'], rfl⟩

theorem leads_of_returned {s : Transfer.Surroundings} {number : Nat} {connection : Connection}
    {event : Event} {c₁ c' : Conn} {ret ret' : Int} (hstate : c₁.state = connection.conn.state)
    (htext : c₁.mailText = connection.conn.mailText)
    (h : deliver s ret event c₁ = (.returned ret', c')) :
    Leads ⟨number, connection, event, s.handlerRoom⟩ c'.state := by
  obtain ⟨state, hstep⟩ : ∃ state,
      clientFsmStep s.handlerRoom s.behind c₁.state event c₁ = some (.stepped state c') := by
    unfold deliver at h
    cases hstep : clientFsmStep s.handlerRoom s.behind c₁.state event c₁ with
    | none => simp [hstep] at h
    | some stepped =>
      cases stepped with
      | exited => simp [hstep] at h
      | stepped state c'' =>
        obtain ⟨-, rfl⟩ : ret = ret' ∧ c'' = c' := by simpa [hstep] using h
        exact ⟨state, rfl⟩
  have hmoves := (clientFsmStep_moves hstep).1
  rw [hstate] at hmoves
  refine ⟨hmoves, fun hrt hok => ?_⟩
  obtain rfl : event = .ok := hok
  have hrt' : c₁.state = .sRt := hstate.trans hrt
  obtain ⟨⟨s₁, c₂⟩, hdata, heq⟩ : ∃ r, handleData s.handlerRoom s.behind .sData c₁ = some r ∧
      Stepped.stepped r.1 r.2 = .stepped state c' := by
    simpa [clientFsmStep, hrt', transTable] using hstep
  obtain ⟨-, rfl⟩ : s₁ = state ∧ c₂ = c' := by simpa using heq
  rcases handleData_text hdata with ⟨hnone, hstate'⟩ | ⟨hsome, hstate'⟩
  · simp [hstate', ← htext, hnone]
  · simpa [hstate', ← htext] using hsome

def callsOn (number : Nat) (calls : List Call) : List Call :=
  calls.filter fun call => call.number = number

/-- The mail and the recipient, which a connection keeps. -/
def label (connection : Connection) : Nat × Bytes :=
  (connection.mail, connection.conn.mailTo)

/-- The state of a connection; one that does not exist would be at its start. -/
def stateAt (connections : List Connection) (number : Nat) : State :=
  (connections[number]?.elim .init) fun connection => connection.conn.state

def Labelled (opened : List Connection) (calls : List Call) : Prop :=
  ∀ call ∈ calls, opened[call.number]?.map label = some (label call.connection)

structure Underway (opened : List Connection) (history : List (Step Loop Input Output)) (w : Loop) :
    Prop where
  courses : ∀ number, Course (callsOn number (callsOf history)) (stateAt w.connections number)
  labels : w.connections.map label = opened.map label
  labelled : Labelled opened (callsOf history)

structure Settled (opened : List Connection) (calls : List Call) : Prop where
  accepted_iff : ∀ number, Accepted (callsOn number calls) ↔ ∃ call ∈ callsOn number calls, IsAnswer call
  labelled : Labelled opened calls

theorem Underway.settled {opened : List Connection} {history : List (Step Loop Input Output)}
    {w : Loop} (h : Underway opened history w) : Settled opened (callsOf history) :=
  ⟨fun number => (h.courses number).iff, h.labelled⟩

theorem callsOf_append (history : List (Step Loop Input Output)) (st : Step Loop Input Output) :
    callsOf (history ++ [st]) = callsOf history ++ st.output.call.toList := by
  cases hcall : st.output.call <;> simp [callsOf, hcall]

theorem callsOn_append (number : Nat) (calls : List Call) (call : Call) :
    callsOn number (calls ++ [call]) =
      callsOn number calls ++ if call.number = number then [call] else [] := by
  by_cases h : call.number = number <;> simp [callsOn, h]

theorem stateAt_set {connections : List Connection} {number : Nat} {connection : Connection}
    (h : connections[number]? = some connection) (conn : Conn) (number' : Nat) :
    stateAt (connections.set number { connection with conn }) number' =
      if number = number' then conn.state else stateAt connections number' := by
  have hlt := (List.getElem?_eq_some_iff.mp h).1
  by_cases hnumber : number = number'
  · subst hnumber
    simp [stateAt, hlt]
  · simp [stateAt, List.getElem?_set_ne hnumber, hnumber]

theorem labels_set {connections : List Connection} {number : Nat} {connection : Connection}
    (h : connections[number]? = some connection) {conn : Conn}
    (hto : conn.mailTo = connection.conn.mailTo) :
    (connections.set number { connection with conn }).map label = connections.map label := by
  have hlt := (List.getElem?_eq_some_iff.mp h).1
  apply List.ext_getElem?
  intro k
  rw [List.getElem?_map, List.getElem?_map]
  by_cases hk : number = k
  · subst hk
    rw [List.getElem?_set_self hlt, h]
    simp [label, hto]
  · rw [List.getElem?_set_ne hk]

theorem stateAt_due {connections : List Connection} {number : Nat} {connection : Connection}
    (h : connections[number]? = some connection) :
    stateAt connections number = connection.conn.state := by
  simp [stateAt, h]

section Steps
variable {opened : List Connection} {history : List (Step Loop Input Output)} {w w' : Loop}
  {input : Input} {output : Output}

theorem Underway.labelled_append (h : Underway opened history w) {number : Nat}
    {connection : Connection} (hdue : w.connections[number]? = some connection) (event : Event)
    (room : Nat → Bool) :
    Labelled opened (callsOf history ++ [⟨number, connection, event, room⟩]) := by
  intro call hmem
  rcases List.mem_append.mp hmem with hmem | hmem
  · exact h.labelled call hmem
  · obtain rfl := List.mem_singleton.mp hmem
    have hlabels := congrArg (·[number]?) h.labels
    simp only [List.getElem?_map, hdue, Option.map_some] at hlabels
    exact hlabels.symm

theorem Underway.push (h : Underway opened history w) {number : Nat} {connection : Connection}
    (hdue : w.connections[number]? = some connection) (event : Event) (room : Nat → Bool) :
    Settled opened (callsOf history ++ [⟨number, connection, event, room⟩]) := by
  refine ⟨fun number' => ?_, h.labelled_append hdue event room⟩
  have hcourse := h.courses number'
  rw [callsOn_append]
  by_cases hnumber : number = number'
  · subst hnumber
    rw [stateAt_due hdue] at hcourse
    rw [if_pos rfl]
    exact @Course.push _ ⟨number, connection, event, room⟩ hcourse
  · rw [if_neg hnumber, List.append_nil]
    exact hcourse.iff

theorem Underway.advance (h : Underway opened history w) {number : Nat} {connection : Connection}
    (hdue : w.connections[number]? = some connection) {event : Event} {room : Nat → Bool}
    {conn : Conn} (hto : conn.mailTo = connection.conn.mailTo)
    (hleads : Leads ⟨number, connection, event, room⟩ conn.state)
    {st : Step Loop Input Output} (hcall : st.output.call = some ⟨number, connection, event, room⟩)
    (hconnections : w'.connections = w.connections.set number { connection with conn }) :
    Underway opened (history ++ [st]) w' := by
  have hcalls : callsOf (history ++ [st]) = callsOf history ++ [⟨number, connection, event, room⟩] := by
    rw [callsOf_append, hcall, Option.toList_some]
  refine ⟨fun number' => ?_, ?_, ?_⟩
  · have hcourse := h.courses number'
    rw [hcalls, callsOn_append, hconnections, stateAt_set hdue]
    by_cases hnumber : number = number'
    · subst hnumber
      rw [stateAt_due hdue] at hcourse
      rw [if_pos rfl, if_pos rfl]
      exact @Course.step _ ⟨number, connection, event, room⟩ _ hcourse hleads
    · rw [if_neg hnumber, if_neg hnumber, List.append_nil]
      exact hcourse
  · rw [hconnections, labels_set hdue hto, h.labels]
  · rw [hcalls]
    exact h.labelled_append hdue event room

theorem Underway.quiet (h : Underway opened history w) {st : Step Loop Input Output}
    (hcall : st.output.call = none)
    (hstate : ∀ number, stateAt w'.connections number = stateAt w.connections number)
    (hlabels : w'.connections.map label = w.connections.map label) :
    Underway opened (history ++ [st]) w' := by
  have hcalls : callsOf (history ++ [st]) = callsOf history := by
    rw [callsOf_append, hcall, Option.toList_none, List.append_nil]
  refine ⟨fun number => ?_, ?_, ?_⟩
  · rw [hcalls, hstate]
    exact h.courses number
  · rw [hlabels, h.labels]
  · rw [hcalls]
    exact h.labelled

theorem Underway.step (h : Underway opened history w)
    (hstep : selectMachine.step w input = some (output, w')) :
    Settled opened (callsOf (history ++ [⟨w, input, output, w'⟩])) ∧
      (selectMachine.stop output = false → Underway opened (history ++ [⟨w, input, output, w'⟩]) w') := by
  have htook := took_of_step hstep
  generalize hconnections : w'.connections = connections at htook
  cases htook with
  | aside ending lives still =>
    have hquiet : Underway opened (history ++ [⟨w, input, ⟨ending, none⟩, w'⟩]) w' :=
      h.quiet rfl (fun number => by rw [hconnections]) (by rw [hconnections])
    exact ⟨hquiet.settled, fun _ => hquiet⟩
  | @served number connection ending event conn turn event_eq served =>
    have hdue := due_eq turn
    cases served with
    | quiet ret state mailText mailTo =>
      have hquiet : Underway opened (history ++
          [⟨w, input, ⟨stops (.returned ret), none⟩, w'⟩]) w' := by
        refine h.quiet rfl (fun number' => ?_) ?_
        · rw [hconnections, stateAt_set hdue]
          by_cases hnumber : number = number'
          · subst hnumber
            rw [if_pos rfl, state, stateAt_due hdue]
          · rw [if_neg hnumber]
        · rw [hconnections, labels_set hdue mailTo]
      exact ⟨hquiet.settled, fun _ => hquiet⟩
    | @stepped c₁ ret e valid state mailText mailTo =>
      constructor
      · rw [callsOf_append]
        exact h.push hdue e input.memory.handlerRoom
      · intro hgo
        rcases hdeliver : deliver input.memory ret e c₁ with ⟨ending, c'⟩
        rw [hdeliver] at hgo hconnections
        cases ending with
        | exited => simp [selectMachine, stops] at hgo
        | fault => simp [selectMachine, stops] at hgo
        | returned ret' =>
          have hkeeps := ReplyFraming.deliver_keeps input.memory ret e c₁
          rw [hdeliver] at hkeeps
          obtain ⟨sendBuf, toSend, hc'⟩ := hkeeps
          have hto : c'.mailTo = connection.conn.mailTo :=
            (congrArg Conn.mailTo hc').trans mailTo
          exact h.advance hdue hto (leads_of_returned state mailText hdeliver) rfl hconnections

end Steps

theorem stateAt_start {connections : List Connection}
    (hinit : ∀ connection ∈ connections, connection.conn.state = .init) (number : Nat) :
    stateAt connections number = .init := by
  cases hget : connections[number]? with
  | none => simp [stateAt, hget]
  | some connection => rw [stateAt_due hget, hinit connection (List.mem_of_getElem? hget)]

theorem runLoop_settled {env : Environment} {pipeDescr : Nat} {opened : List Connection}
    (hinit : ∀ connection ∈ opened, connection.conn.state = .init) :
    Settled opened (runLoop env (startLoop pipeDescr opened)).calls := by
  obtain ⟨history, last, hexec⟩ := exists_exec (startLoop pipeDescr opened) env.inputs
  have hstart : Underway opened [] (startLoop pipeDescr opened) := by
    refine ⟨fun number => .early (by simp [callsOf, callsOn]) (stateAt_start hinit number)
      (by simp [callsOf, callsOn]), rfl, by simp [Labelled, callsOf]⟩
  let Final (history : List (Step Loop Input Output)) : Prop := Settled opened (callsOf history)
  have hfinal : ∀ history w, Underway opened history w → Final history := fun _ _ h => h.settled
  have hsettled : Final ([] ++ history) :=
    Machine.exec_history hfinal (fun _ _ _ _ _ h hstep => h.step hstep) hstart hexec
  rw [runLoop, hexec]
  exact hsettled

/-- What a connection that waits for its answer may bring: an OK, at RCPT with a text to send. -/
def Welcome (room : Nat → Bool) (c : Conn) (event : Event) : Prop :=
  event = .ok ∧ (c.state = .sRt → concatMailText room c.mailText ≠ some none)

instance (room : Nat → Bool) (c : Conn) (event : Event) : Decidable (Welcome room c event) :=
  inferInstanceAs (Decidable (_ ∧ (_ → _)))

/-- The call neither crashes nor exits from the machine. -/
def Returns : Option (Ending × Option Event × Conn) → Prop
  | some (.returned _, _, _) => True
  | _ => False

instance : ∀ result, Decidable (Returns result)
  | some (.returned _, _, _) => inferInstanceAs (Decidable True)
  | some (.exited, _, _) | some (.fault, _, _) | none => inferInstanceAs (Decidable False)

/-- The loop may go on: `select` works, the pipe says nothing and the call for the connection
returns. -/
def Goes (w : Loop) (input : Input) : List Task → Prop
  | [] => input.ready.isSome
  | .read i :: _ => i ≠ w.pipeDescr ∧
      ∀ found ∈ getActiveConnection w.connections i, Returns (processRead input found.2.conn)
  | .write i :: _ => i ≠ w.pipeDescr ∧
      ∀ found ∈ getActiveConnection w.connections i, Returns (processWrite input found.2.conn)
  | .check :: _ => True

instance (w : Loop) (input : Input) : ∀ tasks, Decidable (Goes w input tasks)
  | [] => inferInstanceAs (Decidable (input.ready.isSome = true))
  | .read i :: _ => inferInstanceAs (Decidable (i ≠ w.pipeDescr ∧ ∀ _, _ → _))
  | .write i :: _ => inferInstanceAs (Decidable (i ≠ w.pipeDescr ∧ ∀ _, _ → _))
  | .check :: _ => inferInstanceAs (Decidable True)

def NoneWaits (connections : List Connection) : Prop :=
  ∀ connection ∈ connections, ¬BeforeAnswer connection.conn.state

/-- The counters of the connections are below 2^31, with what `recv` brings: as long as they
are, they go on as the `int`s of the source do. -/
def InInts (connections : List Connection) (input : Input) : Prop :=
  ∀ connection ∈ connections,
    ReplyFraming.Counted connection.conn (input.memory, input.recv.getD []) ∧
      connection.conn.sended + connection.conn.toSend < 2 ^ 31

instance (connections : List Connection) (input : Input) : Decidable (InInts connections input) :=
  inferInstanceAs (Decidable (∀ _ ∈ connections, _ ∧ _))

/-- As long as a connection waits for its answer, the loop may go on, and the connection that
is due brings nothing else than an OK before its answer. -/
def Smooth (w : Loop) (input : Input) : Prop :=
  NoneWaits w.connections ∨ (Goes w input w.tasks ∧ InInts w.connections input ∧
    ∀ found ∈ due w, BeforeAnswer found.2.conn.state →
      ∀ event ∈ arriving w input found.2.conn, Welcome input.memory.handlerRoom found.2.conn event)

instance (w : Loop) (input : Input) : Decidable (Smooth w input) :=
  inferInstanceAs (Decidable ((∀ connection ∈ w.connections, ¬BeforeAnswer connection.conn.state) ∨
    (Goes w input w.tasks ∧ InInts w.connections input ∧
      ∀ found ∈ due w, BeforeAnswer found.2.conn.state →
        ∀ event ∈ arriving w input found.2.conn,
          Welcome input.memory.handlerRoom found.2.conn event)))

def Answering (calls : List Call) (state : State) : Prop :=
  (calls.length ≤ 5 ∧ state = progress calls.length) ∨ ∃ call ∈ calls, IsAnswer call

section Smoothly
variable {calls : List Call} {call : Call} {state : State} {w w' : Loop} {input : Input}
  {output : Output} {history : List (Step Loop Input Output)}

theorem Answering.mono (h : ∃ call ∈ calls, IsAnswer call) (more : List Call) :
    Answering (calls ++ more) state := by
  obtain ⟨call, hmem, hanswer⟩ := h
  exact .inr ⟨call, List.mem_append_left more hmem, hanswer⟩

theorem Answering.answered (h : Answering calls state) (hpast : ¬BeforeAnswer state) :
    ∃ call ∈ calls, IsAnswer call := by
  refine h.resolve_left fun ⟨hlength, hstate⟩ => hpast ?_
  rw [hstate, progress_beforeAnswer]
  exact hlength

theorem Answering.step (h : Answering calls call.state) (hleads : Leads call state)
    (hwelcome : BeforeAnswer call.state → Welcome call.room call.connection.conn call.event) :
    Answering (calls ++ [call]) state := by
  rcases h with ⟨hlength, hstate⟩ | hanswer
  · have hbefore : BeforeAnswer call.state := by
      rw [hstate, progress_beforeAnswer]
      exact hlength
    obtain ⟨hok, htext⟩ := hwelcome hbefore
    have hgood : Good calls.length call :=
      ⟨hok, fun hfour => htext (hstate.trans (by rw [hfour, progress]))⟩
    rcases Nat.lt_or_eq_of_le hlength with hlt | hlast
    · refine .inl ⟨by rw [List.length_append]; exact hlt, ?_⟩
      rw [(hleads.progress hlength hstate).1 hgood, List.length_append, List.length_singleton]
    · exact .inr ⟨call, by simp, hstate.trans (progress_sData.mpr hlast), hok⟩
  · exact .mono hanswer [call]

theorem visit_goes {i : Nat} {room : Nat → Bool}
    {process : Conn → Option (Ending × Option Event × Conn)} (hpipe : i ≠ w.pipeDescr)
    (hreturns : ∀ found ∈ getActiveConnection w.connections i, Returns (process found.2.conn)) :
    (visit w i room process).1.ending = none := by
  rw [visit, if_neg hpipe]
  split
  · rfl
  · rename_i number connection hactive
    have hreturn := hreturns (number, connection) hactive
    rcases hprocess : process connection.conn with _ | ⟨ending, event, conn⟩
    · simp [hprocess, Returns] at hreturn
    · cases ending <;> simp_all [Returns, stops]

theorem goes_ending (hgoes : Goes w input w.tasks) (hends : (step w input).1.ending.isSome) :
    NoneWaits w.connections := by
  rcases htasks : w.tasks with _ | ⟨_ | _ | _, tasks⟩
  all_goals
    simp only [Goes, htasks] at hgoes
    simp only [SelectLoop.step, htasks] at hends
  · obtain ⟨ready, hready⟩ := Option.isSome_iff_exists.mp hgoes
    simp [hready] at hends
  · rw [visit_goes (w := { w with tasks }) hgoes.1 hgoes.2] at hends
    simp at hends
  · rw [visit_goes (w := { w with tasks }) hgoes.1 hgoes.2] at hends
    simp at hends
  · intro connection hmem hbefore
    split at hends
    · rename_i hfinish
      have hdone := of_decide_eq_true (List.all_eq_true.mp hfinish connection hmem)
      rcases hdone with hstate | hstate | hstate <;> simp [hstate, BeforeAnswer] at hbefore
    · simp at hends

theorem stateAt_waits {connections : List Connection} {number : Nat}
    (hnone : NoneWaits connections) (hlt : number < connections.length) :
    ¬BeforeAnswer (stateAt connections number) := by
  rw [stateAt_due (List.getElem?_eq_getElem hlt)]
  exact hnone _ (List.getElem_mem hlt)

theorem took_length {connections : List Connection} (h : Took w input output connections) :
    connections.length = w.connections.length := by
  cases h <;> simp

theorem answering_step {number : Nat}
    (h : Answering (callsOn number (callsOf history)) (stateAt w.connections number))
    (hsmooth : Smooth w input) (hstep : selectMachine.step w input = some (output, w')) :
    Answering (callsOn number (callsOf (history ++ [⟨w, input, output, w'⟩])))
      (stateAt w'.connections number) := by
  have hcalls (call : Option Call) : callsOn number
      (callsOf (history ++ [⟨w, input, ⟨output.ending, call⟩, w'⟩])) =
        callsOn number (callsOf history) ++ callsOn number call.toList := by
    rw [callsOf_append]
    exact List.filter_append ..
  rcases h with hearly | hanswer
  swap
  · rw [hcalls output.call]
    exact .mono hanswer _
  have hbefore : BeforeAnswer (stateAt w.connections number) := by
    rw [hearly.2, progress_beforeAnswer]
    exact hearly.1
  have hends : ∀ ending, (step w input).1.ending = some ending → NoneWaits w.connections :=
    fun ending hending => hsmooth.elim id fun h => goes_ending h.1 (by simp [hending])
  have houtput : (step w input).1 = output := by
    rw [show step w input = (output, w') from Option.some.inj hstep]
  have htook := took_of_step hstep
  generalize hconnections : w'.connections = connections at htook
  cases htook with
  | aside ending lives still =>
    rw [hcalls none, Option.toList_none]
    simpa [callsOn] using show Answering _ _ from .inl hearly
  | @served number' connection ending event conn turn event_eq served =>
    have hdue := due_eq turn
    by_cases hnumber : number' = number
    swap
    · rw [hcalls, stateAt_set hdue, if_neg hnumber]
      have hother : callsOn number (event.map fun event =>
          (⟨number', connection, event, input.memory.handlerRoom⟩ : Call)).toList = [] := by
        cases event <;> simp [callsOn, hnumber]
      rw [hother, List.append_nil]
      exact .inl hearly
    subst hnumber
    have hwaits : ¬NoneWaits w.connections := fun hnone =>
      stateAt_waits hnone (List.getElem?_eq_some_iff.mp hdue).1 hbefore
    rw [stateAt_due hdue] at hearly hbefore
    cases served with
    | quiet ret state mailText mailTo =>
      rw [hcalls, stateAt_set hdue, if_pos rfl, state]
      simpa [callsOn] using show Answering _ _ from .inl hearly
    | @stepped c₁ ret e valid state mailText mailTo =>
      have hwelcome := (hsmooth.resolve_left hwaits).2.2 _ turn hbefore e event_eq.symm
      rcases hdeliver : deliver input.memory ret e c₁ with ⟨ending, c'⟩
      rw [hdeliver] at houtput hconnections hcalls
      cases ending with
      | exited => exact absurd (hends .exited (by rw [houtput]; rfl)) hwaits
      | fault => exact absurd (hends .fault (by rw [houtput]; rfl)) hwaits
      | returned ret' =>
        rw [hcalls, stateAt_set hdue, if_pos rfl]
        have hleads : Leads ⟨number', connection, e, input.memory.handlerRoom⟩ c'.state :=
          leads_of_returned state mailText hdeliver
        have hone : callsOn number' [(⟨number', connection, e, input.memory.handlerRoom⟩ : Call)] =
            [⟨number', connection, e, input.memory.handlerRoom⟩] := by simp [callsOn]
        simpa [hone] using Answering.step (.inl hearly) hleads fun _ => hwelcome

theorem runLoop_answers {env : Environment} {pipeDescr : Nat} {opened : List Connection}
    (hinit : ∀ connection ∈ opened, connection.conn.state = .init)
    (hsmooth : selectMachine.Throughout Smooth (startLoop pipeDescr opened) env.inputs)
    (hends : (runLoop env (startLoop pipeDescr opened)).ending.isSome) {number : Nat}
    (hlt : number < opened.length) :
    ∃ call ∈ callsOn number (runLoop env (startLoop pipeDescr opened)).calls, IsAnswer call := by
  let Answered (history : List (Step Loop Input Output)) : Prop :=
    ∀ number < opened.length, ∃ call ∈ callsOn number (callsOf history), IsAnswer call
  -- a step that ends the loop finds every connection with its answer
  let Inv (history : List (Step Loop Input Output)) (w : Loop) : Prop :=
    (∀ number, Answering (callsOn number (callsOf history)) (stateAt w.connections number)) ∧
      w.connections.length = opened.length ∧
      ∀ st, history.getLast? = some st → st.output.ending.isSome → Answered history
  have hstep : ∀ history w input, Inv history w → Smooth w input →
      ∃ output w', selectMachine.step w input = some (output, w') ∧
        Inv (history ++ [⟨w, input, output, w'⟩]) w' := by
    rintro history w input ⟨hanswering, hlength, -⟩ hsmooth
    refine ⟨(step w input).1, (step w input).2, rfl, fun number =>
      answering_step (hanswering number) hsmooth rfl, ?_, ?_⟩
    · rw [← hlength]
      exact took_length (step_took w input)
    · intro st hlast hends number hlt
      obtain rfl := Option.some.inj ((List.getLast?_concat ..).symm.trans hlast)
      have hnone : NoneWaits w.connections := hsmooth.elim id fun h => goes_ending h.1 hends
      obtain ⟨call, hmem, hanswer⟩ :=
        (hanswering number).answered (stateAt_waits hnone (hlength ▸ hlt))
      refine ⟨call, ?_, hanswer⟩
      rw [callsOf_append, callsOn, List.filter_append]
      exact List.mem_append_left _ hmem
  have hstart : Inv [] (startLoop pipeDescr opened) :=
    ⟨fun number => .inl ⟨by simp [callsOf, callsOn], stateAt_start hinit number⟩, rfl, by simp⟩
  obtain ⟨history, last, hexec, ⟨-, -, hanswered⟩, -⟩ := Machine.exec_invariant hstep hstart hsmooth
  simp only [runLoop, hexec, Option.elim_some] at hends ⊢
  obtain ⟨ending, hending⟩ := Option.isSome_iff_exists.mp hends
  obtain ⟨st, hlast, hst⟩ := Option.bind_eq_some_iff.mp hending
  exact hanswered st hlast (by simp [hst]) number hlt

end Smoothly

end SmtpMta.Client.Answers
