import SmtpMta.Server.Isolation

/-! A round of the main loop: each descriptor that `pselect` reports has its turn before the
next call of `pselect`, and finds its session as it was at the report. -/
namespace SmtpMta.Server.Rounds
open Library.CString Library.FiniteMap Library.Trace MainLoop Isolation Smtp

def turns (w : ServerState) (ready : List Descriptor) : List Descriptor :=
  (List.finRange fdSetsize).filter fun fd => fd ∈ w.fds ∧ ready.contains fd

section Span
variable {mailPath : Bytes} {serverSocket : Descriptor} {w w' : ServerState} {input : Input}
  {output : Output}

/-- `nfds` is above every watched descriptor, so that `pselect` sees them all. -/
def Spanned (w : ServerState) : Prop :=
  ∀ fd ∈ w.fds, fd < w.nfds

theorem Spanned.step (h : Spanned w) (htook : Took mailPath serverSocket w input output w') :
    Spanned w' := by
  cases htook with
  | stopped | selected | declined | refused | served => exact fun fd hfd => h fd hfd
  | @accepted todo fd c todo_eq socket closed room entered start =>
    intro fd' hfd'
    rcases Finset.mem_insert.mp hfd' with rfl | hold
    · exact lt_max_of_lt_right (Nat.lt_succ_self _)
    · exact lt_max_of_lt_left (h fd' hold)
  | unknown | lost | quit => exact fun fd' hfd' => h fd' (Finset.mem_of_mem_erase hfd')

end Span

section Round
variable {mailPath : Bytes} {serverSocket : Descriptor} {start w w' : ServerState}
  {served : List Descriptor} {n : Nat} {input : Input} {output : Output}

/-- The descriptor is watched, and its session is what it was at the start. -/
structure Undisturbed (start w : ServerState) (fd : Descriptor) : Prop where
  watched : fd ∈ w.fds
  entry : valueAt w.sessions (sessionKey fd) = valueAt start.sessions (sessionKey fd)
  session : ∀ session, valueAt start.sessions (sessionKey fd) = some session →
    w.heap session = start.heap session

/-- After `n` turns of the round. -/
structure Round (start : ServerState) (served : List Descriptor) (n : Nat) (w : ServerState) :
    Prop where
  todo : w.todo = served.drop n
  waiting : ∀ fd ∈ served.drop n, Undisturbed start w fd

theorem undisturbed_turn {fd other : Descriptor} {todo : List Descriptor} (htidy : Tidy w)
    (htodo : w.todo = fd :: todo) (hother : other ∈ todo) (h : Undisturbed start w other)
    (htook : Took mailPath serverSocket w input output w') : Undisturbed start w' other := by
  obtain ⟨hwatched, hentry, hsession⟩ := h
  have hne : other ≠ fd := by
    rintro rfl
    have hnodup := htidy.nodup
    rw [htodo] at hnodup
    exact (List.nodup_cons.mp hnodup).1 hother
  -- the session of the turn is not that of another descriptor
  have hforeign {mine : Nat} (hmine : valueAt w.sessions (sessionKey fd) = some mine)
      {session : Nat} (hfound : valueAt start.sessions (sessionKey other) = some session) :
      session ≠ mine := by
    rintro rfl
    exact hne (sessionKey_injective (htidy.unique _ _ _ (hentry.trans hfound) hmine))
  cases htook with
  | stopped idle | selected idle => simp [idle] at htodo
  | declined | refused => exact ⟨hwatched, hentry, hsession⟩
  | @accepted _ fresh c todo_eq socket closed room entered start =>
    refine ⟨Finset.mem_insert_of_mem hwatched, ?_, fun session hfound => ?_⟩
    · have hfree : other ≠ fresh := by
        rintro rfl
        exact closed hwatched
      dsimp only
      rw [valueAt_insert_ne _ (fun hkey => hfree (sessionKey_injective hkey)), hentry]
    · have hlt : session < w.count := htidy.below _ _ (hentry.trans hfound)
      dsimp only
      rw [Function.update_of_ne hlt.ne, hsession session hfound]
  | unknown todo_eq | lost todo_eq =>
    obtain ⟨rfl, rfl⟩ := List.cons.inj (htodo.symm.trans todo_eq)
    exact ⟨Finset.mem_erase.mpr ⟨hne, hwatched⟩, hentry, hsession⟩
  | @served _ _ mine bytes held c todo_eq client found received nonempty heap_eq serve goes =>
    obtain ⟨rfl, rfl⟩ := List.cons.inj (htodo.symm.trans todo_eq)
    refine ⟨hwatched, hentry, fun session hfound => ?_⟩
    dsimp only
    rw [Function.update_of_ne (hforeign found hfound), hsession session hfound]
  | @quit _ _ mine bytes held c todo_eq client found received nonempty heap_eq serve ends =>
    obtain ⟨rfl, rfl⟩ := List.cons.inj (htodo.symm.trans todo_eq)
    refine ⟨Finset.mem_erase.mpr ⟨hne, hwatched⟩, ?_, fun session hfound => ?_⟩
    · have hkey : sessionKey other ≠ sessionKey fd := fun hkey => hne (sessionKey_injective hkey)
      unfold dictSet
      split
      · dsimp only
        rw [valueAt_insert_ne _ hkey, hentry]
      · exact hentry
    · dsimp only
      rw [Function.update_of_ne (hforeign found hfound), hsession session hfound]

theorem Round.turn (h : Round start served n w) (htidy : Tidy w) (hn : n < served.length)
    (htook : Took mailPath serverSocket w input output w') : Round start served (n + 1) w' := by
  have htodo : w.todo = served[n] :: served.drop (n + 1) := by
    rw [h.todo, List.drop_eq_getElem_cons hn]
  refine ⟨?_, fun fd hfd => ?_⟩
  · cases htook with
    | stopped idle | selected idle =>
      rw [idle] at htodo
      cases htodo
    | declined todo_eq | refused todo_eq | accepted todo_eq | unknown todo_eq | lost todo_eq
    | served todo_eq | quit todo_eq => exact (List.cons.inj (todo_eq.symm.trans htodo)).2
  · have hwaits : fd ∈ served.drop n := by
      rw [List.drop_eq_getElem_cons hn]
      exact List.mem_cons_of_mem _ hfd
    exact undisturbed_turn htidy htodo hfd (h.waiting fd hwaits) htook

end Round

end SmtpMta.Server.Rounds
