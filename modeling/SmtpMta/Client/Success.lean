import SmtpMta.Client.Fsm
import SmtpMta.Library.Trace

/-! When a connection that has finished may be called successful. -/
namespace SmtpMta.Client.Success
open Library.CString Library.Trace Fsm

/-- One call of `client_fsm_step`: its event, and what memory is like. -/
structure Call where
  event : Event
  room : Nat → Bool
  behind : Bytes

/-- A connection that takes one event after another; the output says that the
process has exited. -/
def fsmMachine : Machine Conn Call Bool where
  step c call := (clientFsmStep call.room call.behind c.state call.event c).map fun
    | .exited => (true, c)
    | .stepped _ c' => (false, c')
  stop exited := exited

def Acknowledged (history : List (Step Conn Call Bool)) : Prop :=
  ∃ st ∈ history, st.before.state = .sData ∧ st.input.event = .ok

def BeforeAnswer (state : State) : Prop :=
  state ∈ [.init, .initialized, .sEhlo, .sMf, .sRt, .sData]

instance (state : State) : Decidable (BeforeAnswer state) :=
  inferInstanceAs (Decidable (_ ∈ _))

def LostEarly (c : Conn) (call : Call) : Prop :=
  call.event = .connectionLost ∧ BeforeAnswer c.state

instance (c : Conn) (call : Call) : Decidable (LostEarly c call) :=
  inferInstanceAs (Decidable (_ ∧ _))

/-- The state says whether the end of the data has been answered, unless the
connection was lost before. -/
structure Invariant (history : List (Step Conn Call Bool)) (c : Conn) : Prop where
  answered : Acknowledged history → ¬BeforeAnswer c.state
  finished : (∀ st ∈ history, ¬LostEarly st.before st.input) →
    c.state = .sQuit ∨ c.state = .finish → Acknowledged history

theorem moves_before_answer {s s' : State} {event : Event} (h : Moves s event s')
    (hs' : BeforeAnswer s') : BeforeAnswer s ∧ ¬(s = .sData ∧ event = .ok) := by
  rcases h with ⟨rfl, -⟩ | ⟨-, -, rfl⟩ | ⟨hs, rfl⟩
  · cases s <;> cases event <;> simp_all [transTable, BeforeAnswer]
  · simp [BeforeAnswer] at hs'
  · rcases hs with rfl | rfl <;> simp [BeforeAnswer] at hs'

theorem moves_finished {s s' : State} {event : Event} (h : Moves s event s')
    (hs' : s' = .sQuit ∨ s' = .finish) :
    (s = .sData ∧ event = .ok) ∨ (event = .connectionLost ∧ BeforeAnswer s) ∨
      s = .sQuit ∨ s = .finish := by
  rcases h with ⟨rfl, -⟩ | ⟨-, -, rfl⟩ | ⟨hs, rfl⟩
  · cases s <;> cases event <;> simp_all [transTable, BeforeAnswer]
  · simp at hs'
  · rcases hs with rfl | rfl <;> simp at hs'

theorem acknowledged_append {history : List (Step Conn Call Bool)} {st : Step Conn Call Bool} :
    Acknowledged (history ++ [st]) ↔
      Acknowledged history ∨ (st.before.state = .sData ∧ st.input.event = .ok) := by
  simp [Acknowledged, or_and_right, exists_or]

theorem step_moves {c c' : Conn} {call : Call} {exited : Bool}
    (hstep : fsmMachine.step c call = some (exited, c')) :
    (exited = true ∧ c' = c ∧ ¬(c.state = .sData ∧ call.event = .ok)) ∨
      (exited = false ∧ Moves c.state call.event c'.state) := by
  obtain ⟨result, hresult, heq⟩ := Option.map_eq_some_iff.mp hstep
  cases result with
  | exited =>
    obtain ⟨rfl, rfl⟩ : true = exited ∧ c = c' := by simpa using heq
    have hinvalid := clientFsmStep_exited hresult
    refine .inl ⟨rfl, rfl, fun ⟨hstate, hevent⟩ => ?_⟩
    rw [hstate, hevent] at hinvalid
    simp [transTable] at hinvalid
  | stepped s c₁ =>
    obtain ⟨rfl, rfl⟩ : false = exited ∧ c₁ = c' := by simpa using heq
    exact .inr ⟨rfl, (clientFsmStep_moves hresult).1⟩

theorem Invariant.step {history : List (Step Conn Call Bool)} {c c' : Conn} {call : Call}
    {exited : Bool} (h : Invariant history c) (hstep : fsmMachine.step c call = some (exited, c')) :
    Invariant (history ++ [⟨c, call, exited, c'⟩]) c' := by
  rcases step_moves hstep with ⟨-, rfl, hno⟩ | ⟨-, hmoves⟩
  · have hsame : Acknowledged (history ++ [⟨c', call, exited, c'⟩]) ↔ Acknowledged history := by
      rw [acknowledged_append]
      tauto
    refine ⟨fun hack => h.answered (hsame.mp hack), fun hall hstate => ?_⟩
    exact hsame.mpr (h.finished (fun st hmem => hall st (by simp [hmem])) hstate)
  · constructor
    · intro hack hbefore
      obtain ⟨hbefore', hno⟩ := moves_before_answer hmoves hbefore
      rcases acknowledged_append.mp hack with hack | hack
      · exact h.answered hack hbefore'
      · exact hno hack
    · intro hall hstate
      rw [acknowledged_append]
      rcases moves_finished hmoves hstate with hok | hlost | hstate'
      · exact .inr hok
      · exact absurd hlost (hall ⟨c, call, exited, c'⟩ (by simp))
      · exact .inl (h.finished (fun st hmem => hall st (by simp [hmem])) hstate')

theorem lost_finishes {c c' : Conn} {call : Call} {exited : Bool}
    (hstep : fsmMachine.step c call = some (exited, c')) (hlost : LostEarly c call) :
    c'.state = .finish := by
  obtain ⟨hevent, hbefore⟩ := hlost
  simp only [BeforeAnswer, List.mem_cons, List.not_mem_nil, or_false] at hbefore
  have htable : transTable c.state .connectionLost = (.finish, .error) := by
    rcases hbefore with h | h | h | h | h | h <;> rw [h] <;> rfl
  have hlive : ¬(c.state = .invalid ∨ c.state = .done) := by
    rcases hbefore with h | h | h | h | h | h <;> simp [h]
  obtain ⟨-, rfl⟩ : false = exited ∧ { c with state := .finish } = c' := by
    simpa [fsmMachine, clientFsmStep, hevent, hlive, htable, handleError] using hstep
  rfl

theorem ok_quits {c c' : Conn} {call : Call} {exited : Bool}
    (hstep : fsmMachine.step c call = some (exited, c')) (hdata : c.state = .sData)
    (hok : call.event = .ok) : c'.state = .sQuit := by
  rcases step_moves hstep with ⟨-, -, hno⟩ | ⟨-, hmoves⟩
  · exact absurd ⟨hdata, hok⟩ hno
  · rw [hdata, hok] at hmoves
    rcases hmoves with ⟨hnext, -⟩ | ⟨hrt, -⟩ | ⟨hdone, -⟩
    · exact hnext
    · simp at hrt
    · simp at hdone

/-- A connection finishes with its message acknowledged, in the runs in which
the connection is not lost before, and in no others. -/
theorem finish_acknowledged {c last : Conn} (hinit : c.state = .init) {calls : List Call}
    {history : List (Step Conn Call Bool)}
    (hexec : fsmMachine.exec c calls = some (history, last)) :
    (∀ done st rest, history = done ++ st :: rest → st.after.state = .finish →
        Acknowledged done) ↔
      fsmMachine.Throughout (fun c call => ¬LostEarly c call) c calls := by
  rw [Machine.throughout_iff hexec]
  have hinv : Invariant [] c :=
    ⟨by simp [Acknowledged], fun _ hstate => by simp [hinit] at hstate⟩
  obtain ⟨-, hsteps⟩ := Machine.exec_steps (fun _ _ _ _ _ h hstep => Invariant.step h hstep) hinv hexec
  simp only [List.nil_append] at hsteps
  refine ⟨fun hall st hmem hlost => ?_, fun hall done st rest hsplit hstate => ?_⟩
  · obtain ⟨done, rest, hsplit⟩ := List.append_of_mem hmem
    obtain ⟨hstep, hbefore, -⟩ := hsteps done st rest hsplit
    have hfinish := lost_finishes hstep hlost
    exact hbefore.answered (hall done st rest hsplit hfinish) hlost.2
  · obtain ⟨hstep, -, hafter⟩ := hsteps done st rest hsplit
    have hack := hafter.finished (fun st' hmem' => hall st' ?_) (.inr hstate)
    · rcases acknowledged_append.mp hack with hack | ⟨hdata, hok⟩
      · exact hack
      · have hquit := ok_quits hstep hdata hok
        simp [hquit] at hstate
    · rw [hsplit]
      simp only [List.mem_append, List.mem_singleton] at hmem'
      simp only [List.mem_append, List.mem_cons]
      tauto

theorem finish_acknowledged_newConn : ∃ history last,
    fsmMachine.exec newConn (List.replicate 7 ⟨.ok, fun _ => true, []⟩) = some (history, last) ∧
      last.state = .finish ∧
      ((∀ done st rest, history = done ++ st :: rest → st.after.state = .finish →
          Acknowledged done) ↔
        fsmMachine.Throughout (fun c call => ¬LostEarly c call) newConn
          (List.replicate 7 ⟨.ok, fun _ => true, []⟩)) := by
  have hrun : (fsmMachine.exec newConn (List.replicate 7 ⟨.ok, fun _ => true, []⟩)).map
      (fun r => r.2.state) = some .finish := by decide
  obtain ⟨⟨history, last⟩, hexec, hstate⟩ := Option.map_eq_some_iff.mp hrun
  exact ⟨history, last, hexec, hstate, finish_acknowledged rfl hexec⟩

/-- A server that hangs up at once gets no mail, and still the connection finishes. -/
theorem lost_connection_finishes :
    ((fsmMachine.exec newConn [⟨.connectionLost, fun _ => true, []⟩]).map fun r =>
      (r.1.map fun st => (st.before.state, st.input.event), r.2.state)) =
      some ([(.init, .connectionLost)], .finish) := by
  decide

end SmtpMta.Client.Success
