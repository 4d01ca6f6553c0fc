import Mathlib.Data.List.Basic

/-! Runs of a deterministic machine that takes one input after another. A step
is partial: without a result the program has crashed. A run keeps the history
of the steps it took, so that properties can speak about the past. -/
namespace SmtpMta.Library.Trace

structure Machine (σ ι ο : Type) where
  step : σ → ι → Option (ο × σ)
  /-- Outputs after which no further input is taken. -/
  stop : ο → Bool := fun _ => false

structure Step (σ ι ο : Type) where
  before : σ
  input : ι
  output : ο
  after : σ

variable {σ ι ο : Type}

def Machine.exec (M : Machine σ ι ο) : σ → List ι → Option (List (Step σ ι ο) × σ)
  | s, [] => some ([], s)
  | s, i :: inputs => do
    let (o, s') ← M.step s i
    if M.stop o then some ([⟨s, i, o, s'⟩], s')
    else
      let (history, last) ← exec M s' inputs
      some (⟨s, i, o, s'⟩ :: history, last)

theorem Machine.exec_stops {M : Machine σ ι ο} {s s' : σ} {i : ι} {o : ο}
    (hstep : M.step s i = some (o, s')) (hstop : M.stop o = true) (inputs : List ι) :
    M.exec s (i :: inputs) = some ([⟨s, i, o, s'⟩], s') := by
  simp [exec, hstep, hstop]

theorem Machine.exec_goes {M : Machine σ ι ο} {s s' last : σ} {i : ι} {o : ο} {inputs : List ι}
    {history : List (Step σ ι ο)} (hstep : M.step s i = some (o, s')) (hgo : M.stop o = false)
    (hexec : M.exec s' inputs = some (history, last)) :
    M.exec s (i :: inputs) = some (⟨s, i, o, s'⟩ :: history, last) := by
  simp [exec, hstep, hgo, hexec]

/-- A run that nothing stops goes on. -/
theorem Machine.exec_append {M : Machine σ ι ο} {s t last : σ} {inputs rest : List ι}
    {history later : List (Step σ ι ο)} (h : M.exec s inputs = some (history, t))
    (hgo : ∀ st ∈ history, M.stop st.output = false) (hrest : M.exec t rest = some (later, last)) :
    M.exec s (inputs ++ rest) = some (history ++ later, last) := by
  induction inputs generalizing s history with
  | nil =>
    obtain ⟨rfl, rfl⟩ : [] = history ∧ s = t := by simpa [exec] using h
    exact hrest
  | cons i inputs ih =>
    obtain ⟨⟨o, s'⟩, hstep, h⟩ := Option.bind_eq_some_iff.mp h
    dsimp only at h
    split at h
    · rename_i hstop
      obtain ⟨rfl, -⟩ := Prod.mk.inj (Option.some.inj h)
      simp [hstop] at hgo
    · rename_i hstop
      obtain ⟨⟨taken, t'⟩, hexec, h⟩ := Option.bind_eq_some_iff.mp h
      obtain ⟨rfl, rfl⟩ := Prod.mk.inj (Option.some.inj h)
      have htaken : ∀ st ∈ taken, M.stop st.output = false := fun st hst => hgo st (by simp [hst])
      exact exec_goes hstep (by simpa using hstop) (ih hexec htaken)

/-- Every step of the run is taken where the condition holds. -/
def Machine.Throughout (M : Machine σ ι ο) (P : σ → ι → Prop) : σ → List ι → Prop
  | _, [] => True
  | s, i :: inputs =>
    P s i ∧ (M.step s i).elim True fun r => M.stop r.1 = true ∨ Throughout M P r.2 inputs

instance decidableThroughout (M : Machine σ ι ο) (P : σ → ι → Prop) [∀ s i, Decidable (P s i)] :
    ∀ s inputs, Decidable (M.Throughout P s inputs)
  | _, [] => inferInstanceAs (Decidable True)
  | _, _ :: inputs =>
    have : ∀ r : Option (ο × σ), Decidable (r.elim True fun r =>
        M.stop r.1 = true ∨ M.Throughout P r.2 inputs)
      | none => inferInstanceAs (Decidable True)
      | some r =>
        have := decidableThroughout M P r.2 inputs
        inferInstanceAs (Decidable (_ ∨ _))
    inferInstanceAs (Decidable (_ ∧ _))

theorem Machine.throughout_of_forall {M : Machine σ ι ο} {P : σ → ι → Prop} (h : ∀ s i, P s i)
    (s : σ) (inputs : List ι) : M.Throughout P s inputs := by
  induction inputs generalizing s with
  | nil => trivial
  | cons i inputs ih =>
    refine ⟨h s i, ?_⟩
    cases M.step s i with
    | none => trivial
    | some r => exact .inr (ih r.2)

/-- Two conditions that an invariant makes one hold throughout the same runs. -/
theorem Machine.throughout_congr {M : Machine σ ι ο} {P Q : σ → ι → Prop} {Inv : σ → Prop}
    (hstep : ∀ s i o s', Inv s → M.step s i = some (o, s') → Inv s')
    (hiff : ∀ s i, Inv s → (P s i ↔ Q s i)) {s : σ} (hinv : Inv s) (inputs : List ι) :
    M.Throughout P s inputs ↔ M.Throughout Q s inputs := by
  induction inputs generalizing s with
  | nil => exact Iff.rfl
  | cons i inputs ih =>
    rw [Throughout, Throughout, hiff s i hinv]
    cases hs' : M.step s i with
    | none => exact Iff.rfl
    | some r => rw [Option.elim_some, Option.elim_some, ih (hstep s i r.1 r.2 hinv hs')]

/-- A condition on the inputs alone joins a condition on the steps. -/
theorem Machine.Throughout.and_inputs {M : Machine σ ι ο} {P : σ → ι → Prop} {Q : ι → Prop} {s : σ}
    {inputs : List ι} (h : M.Throughout P s inputs) (hQ : ∀ i ∈ inputs, Q i) :
    M.Throughout (fun s i => P s i ∧ Q i) s inputs := by
  induction inputs generalizing s with
  | nil => trivial
  | cons i inputs ih =>
    obtain ⟨hi, hrest⟩ := h
    refine ⟨⟨hi, hQ i (by simp)⟩, ?_⟩
    cases hs : M.step s i with
    | none => trivial
    | some r =>
      rw [hs] at hrest
      exact hrest.imp_right fun hrest => ih hrest fun j hj => hQ j (by simp [hj])

theorem Machine.throughout_of_inputs {M : Machine σ ι ο} {Q : ι → Prop} (s : σ) {inputs : List ι}
    (hQ : ∀ i ∈ inputs, Q i) : M.Throughout (fun _ i => Q i) s inputs := by
  have htrue : M.Throughout (fun _ _ => True) s inputs := throughout_of_forall (fun _ _ => trivial) ..
  simpa using htrue.and_inputs hQ

/-- The run rule. An invariant over the history and the state that every step
keeps, where the condition on its start holds, holds after every step; and the
run gets to its end. -/
theorem Machine.exec_invariant {M : Machine σ ι ο} {P : σ → ι → Prop}
    {Inv : List (Step σ ι ο) → σ → Prop}
    (hstep : ∀ history s i, Inv history s → P s i →
      ∃ o s', M.step s i = some (o, s') ∧ Inv (history ++ [⟨s, i, o, s'⟩]) s')
    {s : σ} {past : List (Step σ ι ο)} (hinv : Inv past s) {inputs : List ι}
    (hP : M.Throughout P s inputs) :
    ∃ history last, M.exec s inputs = some (history, last) ∧ Inv (past ++ history) last ∧
      ∀ done st rest, history = done ++ st :: rest → Inv (past ++ (done ++ [st])) st.after := by
  induction inputs generalizing s past with
  | nil => exact ⟨[], s, rfl, by simpa using hinv, fun done st rest hsplit => by simp at hsplit⟩
  | cons i inputs ih =>
    obtain ⟨hi, hrest⟩ := hP
    obtain ⟨o, s', hs', hinv'⟩ := hstep past s i hinv hi
    rw [hs'] at hrest
    by_cases hstop : M.stop o
    · refine ⟨[⟨s, i, o, s'⟩], s', by simp [exec, hs', hstop], hinv', fun done st rest hsplit => ?_⟩
      obtain ⟨rfl, rfl, rfl⟩ : done = [] ∧ st = ⟨s, i, o, s'⟩ ∧ rest = [] := by
        cases done <;> simp_all
      simpa using hinv'
    · obtain ⟨history, last, hexec, hlast, hall⟩ := ih hinv' (hrest.resolve_left hstop)
      refine ⟨⟨s, i, o, s'⟩ :: history, last, by simp [exec, hs', hstop, hexec],
        by simpa using hlast, fun done st rest hsplit => ?_⟩
      cases done with
      | nil =>
        obtain ⟨rfl, rfl⟩ := List.cons.inj hsplit
        simpa using hinv'
      | cons first done =>
        obtain ⟨rfl, rfl⟩ := List.cons.inj hsplit
        simpa using hall done st rest rfl

/-- The run rule for an invariant of the state alone. -/
theorem Machine.exec_always {M : Machine σ ι ο} {P : σ → ι → Prop} {Inv : σ → Prop}
    (hstep : ∀ s i, Inv s → P s i → ∃ o s', M.step s i = some (o, s') ∧ Inv s')
    {s : σ} (hinv : Inv s) {inputs : List ι} (hP : M.Throughout P s inputs) :
    ∃ history last, M.exec s inputs = some (history, last) ∧ Inv last ∧
      ∀ st ∈ history, Inv st.after := by
  let Always (_ : List (Step σ ι ο)) (t : σ) : Prop := Inv t
  have hinit : Always [] s := hinv
  obtain ⟨history, last, hexec, hlast, hall⟩ :=
    @exec_invariant _ _ _ M P Always (fun _ => hstep) s [] hinit inputs hP
  refine ⟨history, last, hexec, hlast, fun st hst => ?_⟩
  obtain ⟨done, rest, hsplit⟩ := List.append_of_mem hst
  exact hall done st rest hsplit

/-- What a finished run says about its first step and about the rest. -/
theorem Machine.exec_cons {M : Machine σ ι ο} {s last : σ} {i : ι} {inputs : List ι}
    {history : List (Step σ ι ο)} (h : M.exec s (i :: inputs) = some (history, last)) :
    ∃ o s' rest, M.step s i = some (o, s') ∧ history = ⟨s, i, o, s'⟩ :: rest ∧
      ((M.stop o = true ∧ rest = [] ∧ last = s') ∨
        (M.stop o = false ∧ M.exec s' inputs = some (rest, last))) := by
  obtain ⟨⟨o, s'⟩, hs', h⟩ := Option.bind_eq_some_iff.mp h
  dsimp only at h
  split at h
  · rename_i hstop
    obtain ⟨rfl, rfl⟩ : [⟨s, i, o, s'⟩] = history ∧ s' = last := by simpa using h
    exact ⟨o, s', [], hs', rfl, .inl ⟨hstop, rfl, rfl⟩⟩
  · rename_i hstop
    obtain ⟨⟨rest, last'⟩, hrest, h⟩ := Option.bind_eq_some_iff.mp h
    obtain ⟨rfl, rfl⟩ : ⟨s, i, o, s'⟩ :: rest = history ∧ last' = last := by simpa using h
    exact ⟨o, s', rest, hs', rfl, .inr ⟨by simpa using hstop, hrest⟩⟩

/-- The run rule for a law that a step keeps if and only if the condition on its start holds:
it holds after every step if and only if the condition holds throughout. -/
theorem Machine.exec_law_iff {M : Machine σ ι ο} {P : σ → ι → Prop} {Q : ι → Prop}
    {Inv Law : List (Step σ ι ο) → σ → Prop}
    (hstep : ∀ past s i, Inv past s → Q i → ∃ o s', M.step s i = some (o, s') ∧
      (Law (past ++ [⟨s, i, o, s'⟩]) s' ↔ P s i) ∧ (P s i → Inv (past ++ [⟨s, i, o, s'⟩]) s'))
    {s : σ} {past : List (Step σ ι ο)} (hinv : Inv past s) {inputs : List ι}
    (hQ : ∀ i ∈ inputs, Q i) :
    (∃ history last, M.exec s inputs = some (history, last) ∧
      ∀ done st rest, history = done ++ st :: rest → Law (past ++ (done ++ [st])) st.after) ↔
      M.Throughout P s inputs := by
  induction inputs generalizing s past with
  | nil =>
    refine iff_of_true ⟨[], s, rfl, fun done st rest hsplit => ?_⟩ trivial
    simp at hsplit
  | cons i inputs ih =>
    obtain ⟨hi, hrest⟩ := List.forall_mem_cons.mp hQ
    obtain ⟨o, s', hs', hlaw, hnext⟩ := hstep past s i hinv hi
    rw [Throughout, hs', Option.elim_some, ← hlaw]
    refine ⟨fun ⟨history, last, hexec, hall⟩ => ?_, fun ⟨hfirst, hlater⟩ => ?_⟩
    · obtain ⟨o', s'', taken, hs'', rfl, hgo⟩ := exec_cons hexec
      obtain ⟨rfl, rfl⟩ := Prod.mk.inj (Option.some.inj (hs'.symm.trans hs''))
      have hfirst := hall [] ⟨s, i, o, s'⟩ taken rfl
      refine ⟨hfirst, hgo.imp And.left fun ⟨_, htaken⟩ => ?_⟩
      refine (ih (hnext (hlaw.mp hfirst)) hrest).mp ⟨taken, last, htaken, fun done st rest hsplit => ?_⟩
      simpa using hall (⟨s, i, o, s'⟩ :: done) st rest (by simp [hsplit])
    · have hsplits (taken : List (Step σ ι ο)) (hall : ∀ done st rest, taken = done ++ st :: rest →
          Law (past ++ [⟨s, i, o, s'⟩] ++ (done ++ [st])) st.after) :
          ∀ done st rest, (⟨s, i, o, s'⟩ : Step σ ι ο) :: taken = done ++ st :: rest →
            Law (past ++ (done ++ [st])) st.after := by
        intro done st rest hsplit
        cases done with
        | nil =>
          obtain ⟨rfl, -⟩ := List.cons.inj hsplit
          exact hfirst
        | cons first done =>
          obtain ⟨rfl, htaken⟩ := List.cons.inj hsplit
          simpa using hall done st rest htaken
      cases hstop : M.stop o with
      | true =>
        refine ⟨_, s', exec_stops hs' hstop inputs, hsplits [] fun done st rest hsplit => ?_⟩
        simp at hsplit
      | false =>
        obtain ⟨taken, last, htaken, hall⟩ :=
          (ih (hnext (hlaw.mp hfirst)) hrest).mpr (hlater.resolve_left (by simp [hstop]))
        exact ⟨_, last, exec_goes hs' hstop htaken, hsplits taken hall⟩

/-- The run rule for a run that got to its end: an invariant that every step
keeps holds before and after each step. -/
theorem Machine.exec_steps {M : Machine σ ι ο} {Inv : List (Step σ ι ο) → σ → Prop}
    (hstep : ∀ history s i o s', Inv history s → M.step s i = some (o, s') →
      Inv (history ++ [⟨s, i, o, s'⟩]) s')
    {s last : σ} {past : List (Step σ ι ο)} (hinv : Inv past s) {inputs : List ι}
    {history : List (Step σ ι ο)} (h : M.exec s inputs = some (history, last)) :
    Inv (past ++ history) last ∧ ∀ done st rest, history = done ++ st :: rest →
      M.step st.before st.input = some (st.output, st.after) ∧ Inv (past ++ done) st.before ∧
        Inv (past ++ (done ++ [st])) st.after := by
  induction inputs generalizing s past history with
  | nil =>
    obtain ⟨rfl, rfl⟩ : [] = history ∧ s = last := by simpa [exec] using h
    exact ⟨by simpa using hinv, fun done st rest hsplit => by simp at hsplit⟩
  | cons i inputs ih =>
    obtain ⟨o, s', taken, hs', rfl, hnext⟩ := exec_cons h
    have hinv' : Inv (past ++ [⟨s, i, o, s'⟩]) s' := hstep past s i o s' hinv hs'
    -- the rest of the run, whether or not it stops here
    have hrest : Inv (past ++ [⟨s, i, o, s'⟩] ++ taken) last ∧
        ∀ done st rest, taken = done ++ st :: rest →
          M.step st.before st.input = some (st.output, st.after) ∧
            Inv (past ++ [⟨s, i, o, s'⟩] ++ done) st.before ∧
            Inv (past ++ [⟨s, i, o, s'⟩] ++ (done ++ [st])) st.after := by
      rcases hnext with ⟨-, rfl, rfl⟩ | ⟨-, hexec⟩
      · exact ⟨by simpa using hinv', fun done st rest hsplit => by simp at hsplit⟩
      · exact ih hinv' hexec
    refine ⟨by simpa using hrest.1, fun done st rest hsplit => ?_⟩
    cases done with
    | nil =>
      obtain ⟨rfl, rfl⟩ := List.cons.inj hsplit
      exact ⟨hs', by simpa using hinv, by simpa using hinv'⟩
    | cons first done =>
      obtain ⟨rfl, rfl⟩ := List.cons.inj hsplit
      simpa using hrest.2 done st rest rfl

/-- The same for an invariant of the state alone. -/
theorem Machine.exec_kept {M : Machine σ ι ο} {Inv : σ → Prop}
    (hstep : ∀ s i o s', Inv s → M.step s i = some (o, s') → Inv s') {s last : σ} (hinv : Inv s)
    {inputs : List ι} {history : List (Step σ ι ο)} (h : M.exec s inputs = some (history, last))
    {st : Step σ ι ο} (hmem : st ∈ history) :
    M.step st.before st.input = some (st.output, st.after) ∧ Inv st.before := by
  obtain ⟨done, rest, hsplit⟩ := List.append_of_mem hmem
  let Kept (_ : List (Step σ ι ο)) (t : σ) : Prop := Inv t
  have hkept : ∀ past t i o t', Kept past t → M.step t i = some (o, t') →
      Kept (past ++ [⟨t, i, o, t'⟩]) t' := fun _ => hstep
  have hinit : Kept [] s := hinv
  obtain ⟨htaken, hbefore, -⟩ :=
    (@exec_steps _ _ _ M Kept hkept s last [] hinit inputs history h).2 done st rest hsplit
  exact ⟨htaken, hbefore⟩

theorem Machine.exec_step {M : Machine σ ι ο} {s last : σ} {inputs : List ι}
    {history : List (Step σ ι ο)} (h : M.exec s inputs = some (history, last)) {st : Step σ ι ο}
    (hmem : st ∈ history) : M.step st.before st.input = some (st.output, st.after) := by
  let Inv (_ : σ) : Prop := True
  have hkept : ∀ s i o s', Inv s → M.step s i = some (o, s') → Inv s' := fun _ _ _ _ _ _ => trivial
  have hinit : Inv s := trivial
  exact (exec_kept hkept hinit h hmem).1

/-- The run rule for what holds of a whole run, also of one that was stopped: the
invariant has to be kept only by the steps after which the run goes on. -/
theorem Machine.exec_history {M : Machine σ ι ο} {Inv : List (Step σ ι ο) → σ → Prop}
    {Final : List (Step σ ι ο) → Prop} (hfinal : ∀ past s, Inv past s → Final past)
    (hstep : ∀ past s i o s', Inv past s → M.step s i = some (o, s') →
      Final (past ++ [⟨s, i, o, s'⟩]) ∧ (M.stop o = false → Inv (past ++ [⟨s, i, o, s'⟩]) s'))
    {s last : σ} {past : List (Step σ ι ο)} (hinv : Inv past s) {inputs : List ι}
    {history : List (Step σ ι ο)} (h : M.exec s inputs = some (history, last)) :
    Final (past ++ history) := by
  induction inputs generalizing s past history with
  | nil =>
    obtain ⟨rfl, -⟩ : [] = history ∧ s = last := by simpa [exec] using h
    simpa using hfinal past s hinv
  | cons i inputs ih =>
    obtain ⟨o, s', taken, hs', rfl, hnext⟩ := exec_cons h
    obtain ⟨hstopped, hgoes⟩ := hstep past s i o s' hinv hs'
    rcases hnext with ⟨-, rfl, -⟩ | ⟨hgo, hexec⟩
    · exact hstopped
    · simpa using ih (hgoes hgo) hexec

/-- A step starts where the one before it ended. -/
theorem Machine.exec_before {M : Machine σ ι ο} {s last : σ} {inputs : List ι}
    {history : List (Step σ ι ο)} (h : M.exec s inputs = some (history, last))
    {done rest : List (Step σ ι ο)} {st : Step σ ι ο} (hsplit : history = done ++ st :: rest) :
    st.before = (done.getLast?.map Step.after).getD s := by
  let Inv (past : List (Step σ ι ο)) (t : σ) : Prop := t = (past.getLast?.map Step.after).getD s
  have hstep : ∀ past t i o t', Inv past t → M.step t i = some (o, t') →
      Inv (past ++ [⟨t, i, o, t'⟩]) t' := fun past t i o t' _ _ => by simp [Inv]
  have hinit : Inv [] s := rfl
  exact ((exec_steps hstep hinit h).2 done st rest hsplit).2.1

/-- In a run that got to its end, a condition holds throughout if each step
that was taken meets it. -/
theorem Machine.throughout_iff {M : Machine σ ι ο} {P : σ → ι → Prop} {s last : σ}
    {inputs : List ι} {history : List (Step σ ι ο)} (h : M.exec s inputs = some (history, last)) :
    M.Throughout P s inputs ↔ ∀ st ∈ history, P st.before st.input := by
  induction inputs generalizing s history with
  | nil =>
    obtain ⟨rfl, -⟩ : [] = history ∧ s = last := by simpa [exec] using h
    simp [Throughout]
  | cons i inputs ih =>
    obtain ⟨o, s', taken, hs', rfl, hnext⟩ := exec_cons h
    rcases hnext with ⟨hstop, rfl, -⟩ | ⟨hstop, hexec⟩
    · simp [Throughout, hs', hstop]
    · simp [Throughout, hs', hstop, ih hexec]

/-- Where an invariant says exactly when a step can be taken, a run gets to its end
if and only if each of its steps can. -/
theorem Machine.exec_isSome_iff {M : Machine σ ι ο} {P : σ → ι → Prop} {Q : ι → Prop}
    {Inv : σ → Prop} (hstep : ∀ s i, Inv s → Q i → ((M.step s i).isSome ↔ P s i))
    (hkept : ∀ s i o s', Inv s → Q i → M.step s i = some (o, s') → Inv s') {s : σ} (hinv : Inv s)
    {inputs : List ι} (hQ : ∀ i ∈ inputs, Q i) :
    (M.exec s inputs).isSome ↔ M.Throughout P s inputs := by
  induction inputs generalizing s with
  | nil => simp [exec, Throughout]
  | cons i inputs ih =>
    obtain ⟨hi, hrest⟩ := List.forall_mem_cons.mp hQ
    rw [Throughout, ← hstep s i hinv hi, exec]
    cases hs : M.step s i with
    | none => simp
    | some r =>
      have hnext := ih (hkept s i r.1 r.2 hinv hi hs) hrest
      simp only [Option.bind_eq_bind, Option.bind_some, Option.isSome_some, Option.elim_some,
        true_and]
      cases hstop : M.stop r.1 with
      | true => simp
      | false =>
        rw [← hnext]
        cases M.exec r.2 inputs <;> simp

theorem rel_eq {α : Type} (x : Option α) : Option.Rel Eq x x := by
  cases x with
  | none => exact .none
  | some _ => exact .some rfl

theorem rel_bind {α β γ δ : Type} {r : α → β → Prop} {q : γ → δ → Prop} {x : Option α} {y : Option β}
    {f : α → Option γ} {g : β → Option δ} (h : Option.Rel r x y)
    (hnext : ∀ a b, r a b → Option.Rel q (f a) (g b)) : Option.Rel q (x.bind f) (y.bind g) := by
  cases h with
  | none => exact .none
  | some h => exact hnext _ _ h

/-- Two machines that stay related step by step: both crash, or both get to the end
with the same outputs. Where a step stops the runs, only the weaker relation is left. -/
theorem Machine.exec_rel {τ : Type} {M : Machine σ ι ο} {N : Machine τ ι ο} {P : σ → ι → Prop}
    {R F : σ → τ → Prop} (hstop : ∀ o, M.stop o = N.stop o) (hfinal : ∀ s t, R s t → F s t)
    (hstep : ∀ s t i, R s t → P s i → Option.Rel (fun x y => x.1 = y.1 ∧ F x.2 y.2 ∧
      (M.stop x.1 = false → R x.2 y.2)) (M.step s i) (N.step t i))
    {s : σ} {t : τ} (hrel : R s t) {inputs : List ι} (hP : M.Throughout P s inputs) :
    Option.Rel (fun x y => x.1.map Step.output = y.1.map Step.output ∧ F x.2 y.2)
      (M.exec s inputs) (N.exec t inputs) := by
  induction inputs generalizing s t with
  | nil => exact .some ⟨rfl, hfinal s t hrel⟩
  | cons i inputs ih =>
    obtain ⟨hhere, hrest⟩ := hP
    have hboth := hstep s t i hrel hhere
    simp only [exec, Option.bind_eq_bind]
    generalize M.step s i = x, N.step t i = y at hboth hrest ⊢
    cases hboth with
    | none => exact .none
    | @some x y h =>
      obtain ⟨o, s'⟩ := x
      obtain ⟨o', t'⟩ := y
      obtain ⟨rfl, hF, hnext⟩ := h
      simp only [Option.bind_some, ← hstop o]
      cases hgo : M.stop o with
      | true => exact .some ⟨rfl, hF⟩
      | false =>
        have hrun := ih (hnext hgo) (hrest.resolve_left (by simp [hgo]))
        exact rel_bind hrun fun x y ⟨houtputs, hlast⟩ => .some ⟨by simp [houtputs], hlast⟩

/-- A run takes the inputs in order, and all of them if nothing stops it. -/
theorem Machine.exec_inputs {M : Machine σ ι ο} {s last : σ} {inputs : List ι}
    {history : List (Step σ ι ο)} (h : M.exec s inputs = some (history, last)) :
    history.map Step.input <+: inputs ∧
      ((∀ st ∈ history, M.stop st.output = false) → history.map Step.input = inputs) := by
  induction inputs generalizing s history with
  | nil =>
    obtain ⟨rfl, rfl⟩ : [] = history ∧ s = last := by simpa [exec] using h
    simp
  | cons i inputs ih =>
    obtain ⟨o, s', taken, hs', rfl, hnext⟩ := exec_cons h
    rcases hnext with ⟨hstop, rfl, -⟩ | ⟨-, hexec⟩
    · refine ⟨by simp, fun hgo => ?_⟩
      simp [hstop] at hgo
    · obtain ⟨htaken, hall⟩ := ih hexec
      refine ⟨by simpa using htaken, fun hstop => ?_⟩
      simpa using hall fun st hst => hstop st (by simp [hst])

end SmtpMta.Library.Trace
