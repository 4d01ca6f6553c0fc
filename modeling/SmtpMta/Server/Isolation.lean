import SmtpMta.Server.MainLoop
import SmtpMta.Server.Sharing

/-! Clients do not influence each other. What a session does in a run with any
number of clients is what it does in the run with only its own steps. The two
runs are tied together step by step; a step of another client leaves the tie. -/
namespace SmtpMta.Server.Isolation
open Library.CString Library.FiniteMap Library.Trace Common.ListHead Smtp ReadLoop Protocol Sharing
  MainLoop

abbrev History := List (Step ServerState Input Output)

def eventOf (session : Nat) (st : Step ServerState Input Output) :
    Option (Input × Outcome Connection) :=
  match st.output with
  | .client other outcome => if other = session then some (st.input, outcome) else none
  | .idle | .stopped => none

def eventsOf (session : Nat) (history : History) : List (Input × Outcome Connection) :=
  history.filterMap (eventOf session)

def seen (session : Nat) (history : History) : List (Outcome Record) :=
  (eventsOf session history).map fun event => event.2.map record

/-- Only this descriptor is ready. -/
def select (fd : Descriptor) (input : Input) : Input :=
  { input with ready := some [fd] }

/-- One step of a session alone on its descriptor. -/
def soloInputs (serverSocket fd : Descriptor) : Input × Outcome Connection → List Input
  | (input, .refused) | (input, .accepted _) =>
      [select serverSocket input, { input with clientSocket := some fd }]
  | (input, .lost) | (input, .served _) => [select fd input, input]

theorem eventsOf_append (session : Nat) (past later : History) :
    eventsOf session (past ++ later) = eventsOf session past ++ eventsOf session later :=
  List.filterMap_append

theorem seen_append (session : Nat) (past later : History) :
    seen session (past ++ later) = seen session past ++ seen session later := by
  rw [seen, eventsOf_append, List.map_append]
  rfl

section Memory
variable {w w' : ServerState} {lines : Nat → List Addr}

/-- The session holds the dialogue in these lines, wherever the next allocations
may fail. -/
def Keeps (w : ServerState) (s : Session) (d : Dialogue) (ms : List Addr) : Prop :=
  ∀ fails, Owns (w.world fails s) d ms

theorem keeps_of_owns {world : World} {d : Dialogue} {ms : List Addr} (h : Owns world d ms)
    (hmem : w.mem = world.mem) : Keeps w world.session d ms := by
  intro fails
  have hbrk : w.mem.brk = world.mem.brk := congrArg Memory.brk hmem
  refine h.frame rfl (fun a _ => ?_) hbrk.ge
  exact ⟨congrArg (fun mem => mem.lists a) hmem, congrArg (fun mem => mem.text a) hmem⟩

theorem Keeps.congr {s : Session} {d : Dialogue} {ms : List Addr} (h : Keeps w s d ms)
    (hmem : w'.mem = w.mem) : Keeps w' s d ms := by
  intro fails
  have hbrk : w'.mem.brk = w.mem.brk := congrArg Memory.brk hmem
  refine (h fails).frame rfl (fun a _ => ?_) hbrk.ge
  exact ⟨congrArg (fun mem => mem.lists a) hmem, congrArg (fun mem => mem.text a) hmem⟩

theorem Keeps.frame {s : Session} {d : Dialogue} {ms : List Addr} (h : Keeps w s d ms)
    {fails : Nat → Bool} {acting : Session} {world : World} {used used' : List Addr} {n : Nat}
    (hconfined : Confined (w.world fails acting) world used used' n) (hmem : w'.mem = world.mem)
    (hdisjoint : ms.Disjoint used) : Keeps w' s d ms := by
  intro fails'
  have hbrk : w.mem.brk ≤ w'.mem.brk := by
    rw [hmem, hconfined.brk]
    exact Nat.le_add_right ..
  refine (h fails').frame rfl (fun a ha => ?_) hbrk
  have hsame : Lines.Same w.mem world.mem a :=
    hconfined.same a ((h fails').below a ha) (hdisjoint ha)
  rw [← hmem] at hsame
  exact hsame

/-- Every session has lines of its own. -/
structure Separate (w : ServerState) (lines : Nat → List Addr) : Prop where
  keeps : ∀ session s, w.heap session = some s → ∃ d, Keeps w s d (lines session)
  disjoint : ∀ session session', session ≠ session' → (w.heap session).isSome →
    (w.heap session').isSome → (lines session).Disjoint (lines session')

theorem Separate.act (h : Separate w lines) {session : Nat} {fails : Nat → Bool} {acting : Session}
    {world : World} {used used' : List Addr} {n : Nat}
    (hconfined : Confined (w.world fails acting) world used used' n) (hmem : w'.mem = world.mem)
    (hused : ∀ other, other ≠ session → (w.heap other).isSome → (lines other).Disjoint used)
    (hheap : ∀ other, other ≠ session → w'.heap other = w.heap other)
    (hacting : ∀ s, w'.heap session = some s → ∃ d, Keeps w' s d used') :
    Separate w' (Function.update lines session used') := by
  -- what the session takes anew was nobody's
  have hfresh {other : Nat} (hne : other ≠ session) (hsome : (w.heap other).isSome) :
      (lines other).Disjoint used' := by
    obtain ⟨s, hs⟩ := Option.isSome_iff_exists.mp hsome
    obtain ⟨d, hkeeps⟩ := h.keeps other s hs
    intro a ha ha'
    rcases hconfined.members a ha' with hmem | hnew
    · exact hused other hne hsome ha hmem
    · exact Nat.not_le.mpr ((hkeeps fails).below a ha) hnew
  constructor
  · intro other s hs
    by_cases hother : other = session
    · subst hother
      rw [Function.update_self]
      exact hacting s hs
    · rw [Function.update_of_ne hother]
      rw [hheap other hother] at hs
      obtain ⟨d, hkeeps⟩ := h.keeps other s hs
      exact ⟨d, hkeeps.frame hconfined hmem (hused other hother (by rw [hs]; rfl))⟩
  · intro other other' hne hsome hsome'
    by_cases hother : other = session
    · subst hother
      rw [hheap other' hne.symm] at hsome'
      rw [Function.update_self, Function.update_of_ne hne.symm]
      exact (hfresh hne.symm hsome').symm
    · rw [hheap other hother] at hsome
      rw [Function.update_of_ne hother]
      by_cases hother' : other' = session
      · subst hother'
        rw [Function.update_self]
        exact hfresh hne hsome
      · rw [hheap other' hother'] at hsome'
        rw [Function.update_of_ne hother']
        exact h.disjoint other other' hne hsome hsome'

theorem Separate.congr (h : Separate w lines) (hmem : w'.mem = w.mem) (hheap : w'.heap = w.heap) :
    Separate w' lines := by
  constructor
  · intro session s hs
    obtain ⟨d, hkeeps⟩ := h.keeps session s (hheap ▸ hs)
    exact ⟨d, hkeeps.congr hmem⟩
  · rw [hheap]
    exact h.disjoint

end Memory

section Table
variable {mailPath : Bytes} {serverSocket : Descriptor} {w w' : ServerState} {input : Input}
  {output : Output}

/-- A session is under one key only, and the descriptors that are still to be
visited are watched. Entries of lost clients may be left in the table. -/
structure Tidy (w : ServerState) : Prop where
  opened : ∀ fd ∈ w.todo, fd ∈ w.fds
  nodup : w.todo.Nodup
  below : ∀ key session, valueAt w.sessions key = some session → session < w.count
  unique : ∀ key key' session, valueAt w.sessions key = some session →
    valueAt w.sessions key' = some session → key = key'

theorem tidy_start (serverSocket : Descriptor) (mem : Memory) (dirs : Maildirs) :
    Tidy (startServer serverSocket mem dirs) := by
  constructor <;> simp [startServer]

theorem valueAt_dictSet_none {room : Bool} {sessions : Bindings Bytes Nat} {key key' : Bytes}
    {session : Nat} (h : valueAt (dictSet room sessions key none).2 key' = some session) :
    valueAt sessions key' = some session := by
  unfold dictSet at h
  split at h
  · exact ((valueAt_insert_eq_some.mp h).resolve_left (by simp)).2
  · exact h

theorem Tidy.next (h : Tidy w) {fd : Descriptor} {todo : List Descriptor}
    (htodo : w.todo = fd :: todo) :
    fd ∈ w.fds ∧ todo.Nodup ∧ (∀ fd' ∈ todo, fd' ∈ w.fds) ∧ ∀ fd' ∈ todo, fd' ∈ w.fds.erase fd := by
  have hnodup := h.nodup
  have hopened := h.opened
  rw [htodo] at hnodup hopened
  obtain ⟨hfd, hrest⟩ := List.nodup_cons.mp hnodup
  refine ⟨hopened fd (by simp), hrest, fun fd' hmem => hopened fd' (by simp [hmem]),
    fun fd' hmem => ?_⟩
  rw [Finset.mem_erase]
  exact ⟨fun heq => hfd (heq ▸ hmem), hopened fd' (by simp [hmem])⟩

theorem Tidy.step (h : Tidy w) (htook : Took mailPath serverSocket w input output w') :
    Tidy w' := by
  cases htook with
  | stopped idle ready => exact ⟨h.opened, h.nodup, h.below, h.unique⟩
  | selected idle ready ready_eq =>
    constructor
    case opened =>
      intro fd hfd
      dsimp only at hfd ⊢
      rw [List.mem_filter, decide_eq_true_eq] at hfd
      exact hfd.2.2.1
    case nodup =>
      dsimp only
      exact (List.nodup_finRange fdSetsize).filter _
    case below => exact h.below
    case unique => exact h.unique
  | declined todo_eq no_socket =>
    obtain ⟨-, hnodup, hopened, -⟩ := h.next todo_eq
    exact ⟨hopened, hnodup, h.below, h.unique⟩
  | refused todo_eq socket closed room full =>
    obtain ⟨-, hnodup, hopened, -⟩ := h.next todo_eq
    exact ⟨hopened, hnodup, fun key session hkey => (h.below key session hkey).trans_le
      (Nat.le_succ _), h.unique⟩
  | @accepted todo fd c todo_eq socket closed room entered start =>
    obtain ⟨-, hnodup, hopened, -⟩ := h.next todo_eq
    refine ⟨fun fd' hfd' => by simp [hopened fd' hfd'], hnodup, fun key session hkey => ?_,
      fun key key' session hkey hkey' => ?_⟩
    · rcases valueAt_insert_eq_some.mp hkey with ⟨-, heq⟩ | ⟨-, hold⟩
      · exact Option.some.inj heq ▸ Nat.lt_succ_self _
      · exact (h.below key session hold).trans (Nat.lt_succ_self _)
    · -- no other session has the new number
      rcases valueAt_insert_eq_some.mp hkey with ⟨rfl, heq⟩ | ⟨-, hold⟩ <;>
        rcases valueAt_insert_eq_some.mp hkey' with ⟨rfl, heq'⟩ | ⟨-, hold'⟩
      · rfl
      · exact absurd (h.below _ _ hold') (Option.some.inj heq ▸ Nat.lt_irrefl _)
      · exact absurd (h.below _ _ hold) (Option.some.inj heq' ▸ Nat.lt_irrefl _)
      · exact h.unique key key' session hold hold'
  | unknown todo_eq client missing | lost todo_eq client found gone =>
    obtain ⟨-, hnodup, -, hopened⟩ := h.next todo_eq
    exact ⟨hopened, hnodup, h.below, h.unique⟩
  | served todo_eq client found received nonempty heap_eq serve goes =>
    obtain ⟨-, hnodup, hopened, -⟩ := h.next todo_eq
    exact ⟨hopened, hnodup, h.below, h.unique⟩
  | @quit todo fd session bytes held c todo_eq client found received nonempty heap_eq serve ends =>
    obtain ⟨-, hnodup, -, hopened⟩ := h.next todo_eq
    have hold {key : Bytes} {session : Nat} (hkey : valueAt
        (dictSet input.dictRoom w.sessions (sessionKey fd) none).2 key = some session) :
        valueAt w.sessions key = some session := valueAt_dictSet_none hkey
    exact ⟨hopened, hnodup, fun key session hkey => h.below key session (hold hkey),
      fun key key' session hkey hkey' => h.unique key key' session (hold hkey) (hold hkey')⟩

end Table

section Alone
variable {mailPath : Bytes} {serverSocket fd : Descriptor} {mem₀ : Memory} {dirs₀ : Maildirs}
  {session : Nat} {lines : Nat → List Addr} {w w' v v' : ServerState} {input : Input}

theorem select_step (hidle : v.todo = []) (hopen : fd ∈ v.fds) (hlt : fd < v.nfds) (input : Input) :
    step mailPath serverSocket v (select fd input) = some (.idle, { v with todo := [fd] }) := by
  have hready : (List.finRange fdSetsize).filter (fun fd' : Descriptor =>
      fd' < v.nfds ∧ fd' ∈ v.fds ∧ fd' ∈ [fd]) = [fd] := by
    have hsame (fd' : Descriptor) :
        decide (fd' < v.nfds ∧ fd' ∈ v.fds ∧ fd' ∈ [fd]) = decide (fd' = fd) := by
      rw [decide_eq_decide, List.mem_singleton]
      constructor
      · exact fun h => h.2.2
      · rintro rfl
        exact ⟨hlt, hopen, rfl⟩
    rw [List.filter_congr fun fd' _ => hsame fd', List.filter_eq,
      List.count_eq_one_of_mem (List.nodup_finRange _) (List.mem_finRange fd)]
    rfl
  rw [step, hidle]
  simp only [select]
  rw [hready]

/-- How far the session is. `v` is the state of the run with its steps only. -/
inductive Phase (serverSocket fd : Descriptor) (mem₀ : Memory) (dirs₀ : Maildirs) (session : Nat)
    (lines : Nat → List Addr) (w v : ServerState) : Prop
  | fresh (ahead : w.count ≤ session) (start : v = startServer serverSocket mem₀ dirs₀) :
      Phase serverSocket fd mem₀ dirs₀ session lines w v
  | live {s s₀ : Session} {d : Dialogue} {ms₀ : List Addr} (below : session < w.count)
      (heap_eq : w.heap session = some s) (keeps : Keeps w s d (lines session))
      (heap_eq₀ : v.heap 0 = some s₀) (keeps₀ : Keeps v s₀ d ms₀) (idle : v.todo = [])
      (found : valueAt v.sessions (sessionKey fd) = some 0) (opened : fd ∈ v.fds)
      (lt : fd < v.nfds) : Phase serverSocket fd mem₀ dirs₀ session lines w v
  | gone (below : session < w.count) (unwatched : ∀ fd' ∈ w.fds, fd' ≠ serverSocket →
      valueAt w.sessions (sessionKey fd') ≠ some session) :
      Phase serverSocket fd mem₀ dirs₀ session lines w v

theorem Phase.others {lines' : Nat → List Addr}
    (h : Phase serverSocket fd mem₀ dirs₀ session lines w v) (hle : w.count ≤ w'.count)
    (hahead : w.count ≤ session → w'.count ≤ session) (hheap : w'.heap session = w.heap session)
    (hkeeps : ∀ s d, w.heap session = some s → Keeps w s d (lines session) →
      Keeps w' s d (lines' session))
    (hwatched : ∀ fd' ∈ w'.fds, fd' ≠ serverSocket →
      valueAt w'.sessions (sessionKey fd') = some session →
        fd' ∈ w.fds ∧ valueAt w.sessions (sessionKey fd') = some session) :
    Phase serverSocket fd mem₀ dirs₀ session lines' w' v := by
  cases h with
  | fresh ahead start => exact .fresh (hahead ahead) start
  | live below heap_eq keeps heap_eq₀ keeps₀ idle found opened lt =>
    exact .live (below.trans_le hle) (hheap.trans heap_eq) (hkeeps _ _ heap_eq keeps) heap_eq₀
      keeps₀ idle found opened lt
  | gone below unwatched =>
    refine .gone (below.trans_le hle) fun fd' hopen hclient hfound => ?_
    obtain ⟨hopen', hfound'⟩ := hwatched fd' hopen hclient hfound
    exact unwatched fd' hopen' hclient hfound'

/-- The run of the session alone takes the step too, if it is one of its own. -/
def Matched (mailPath : Bytes) (serverSocket fd : Descriptor) (mem₀ : Memory) (dirs₀ : Maildirs)
    (session : Nat) (v : ServerState) (st : Step ServerState Input Output) : Prop :=
  ∃ lines alone v', Separate st.after lines ∧
    (serverMachine mailPath serverSocket).exec v
      ((eventsOf session [st]).flatMap (soloInputs serverSocket fd)) = some (alone, v') ∧
    (∀ st ∈ alone, (serverMachine mailPath serverSocket).stop st.output = false) ∧
    seen 0 alone = seen session [st] ∧
    Phase serverSocket fd mem₀ dirs₀ session lines st.after v'

theorem matched_of_other {st : Step ServerState Input Output} (hevent : eventOf session st = none)
    (hseparate : Separate st.after lines)
    (hphase : Phase serverSocket fd mem₀ dirs₀ session lines st.after v) :
    Matched mailPath serverSocket fd mem₀ dirs₀ session v st := by
  refine ⟨lines, [], v, hseparate, ?_, by simp, ?_, hphase⟩
  · simp [eventsOf, hevent, Machine.exec]
  · simp [seen, eventsOf, hevent]

theorem matched_of_own {st : Step ServerState Input Output} {x : Descriptor} {input' : Input}
    {outcome outcome₀ : Outcome Connection} (houtput : st.output = .client session outcome)
    (hinputs : soloInputs serverSocket fd (st.input, outcome) = [select x st.input, input'])
    (hidle : v.todo = []) (hopen : x ∈ v.fds) (hlt : x < v.nfds)
    (hstep : step mailPath serverSocket { v with todo := [x] } input' =
      some (.client 0 outcome₀, v'))
    (hrecord : outcome₀.map record = outcome.map record)
    (hseparate : Separate st.after lines)
    (hphase : Phase serverSocket fd mem₀ dirs₀ session lines st.after v') :
    Matched mailPath serverSocket fd mem₀ dirs₀ session v st := by
  have hevent : eventOf session st = some (st.input, outcome) := by simp [eventOf, houtput]
  let first : Step ServerState Input Output :=
    ⟨v, select x st.input, .idle, { v with todo := [x] }⟩
  let second : Step ServerState Input Output :=
    ⟨{ v with todo := [x] }, input', .client 0 outcome₀, v'⟩
  have hlast : (serverMachine mailPath serverSocket).exec { v with todo := [x] } [input'] =
      some ([second], v') := Machine.exec_goes hstep rfl rfl
  have hexec : (serverMachine mailPath serverSocket).exec v [select x st.input, input'] =
      some ([first, second], v') := Machine.exec_goes (select_step hidle hopen hlt _) rfl hlast
  refine ⟨lines, [first, second], v', hseparate, ?_, ?_, ?_, hphase⟩
  · simpa [eventsOf, hevent, hinputs] using hexec
  · simp [first, second, serverMachine]
  · have halone : seen 0 [first, second] = [outcome₀.map record] := rfl
    rw [halone, hrecord]
    simp [seen, eventsOf, hevent]

theorem refuse_alone (mailPath : Bytes) (mem₀ : Memory) (dirs₀ : Maildirs)
    (hfd : fd ≠ serverSocket) (hroom : input.sessionRoom = true) (hfull : input.dictRoom = false) :
    ∃ v', step mailPath serverSocket
      { startServer serverSocket mem₀ dirs₀ with todo := [serverSocket] }
      { input with clientSocket := some fd } = some (.client 0 .refused, v') := by
  simp [step, acceptClient, startServer, hfd, hroom, hfull, dictSet, Option.filter]

theorem accept_alone (mailPath : Bytes) (mem₀ : Memory) (dirs₀ : Maildirs)
    (hfd : fd ≠ serverSocket) (hroom : input.sessionRoom = true)
    (hentered : input.dictRoom = true) :
    ∃ c₀ ms₀ v', step mailPath serverSocket
        { startServer serverSocket mem₀ dirs₀ with todo := [serverSocket] }
        { input with clientSocket := some fd } = some (.client 0 (.accepted c₀), v') ∧
      acceptConnection ((startServer serverSocket mem₀ dirs₀).world input.fails newSession) =
        some c₀ ∧
      Owns c₀.world (fresh .initial) ms₀ ∧ v'.mem = c₀.world.mem ∧
      v'.heap 0 = some c₀.world.session ∧ v'.todo = [] ∧
      valueAt v'.sessions (sessionKey fd) = some 0 ∧ fd ∈ v'.fds ∧ fd < v'.nfds := by
  obtain ⟨c₀, ms₀, hstart, howns, -⟩ :=
    acceptConnection_owns ((startServer serverSocket mem₀ dirs₀).world input.fails newSession)
  refine ⟨c₀, ms₀, { startServer serverSocket mem₀ dirs₀ with
    mem := c₀.world.mem, dirs := c₀.world.dirs, count := 1,
    heap := Function.update (fun _ => none) 0 (some c₀.world.session),
    sessions := AList.insert (sessionKey fd) (some 0) ∅, fds := insert fd {serverSocket},
    nfds := max (serverSocket + 1) (fd + 1) }, ?_, hstart, howns, rfl, by simp, rfl,
    valueAt_insert_self .., by simp, lt_max_of_lt_right (Nat.lt_succ_self _)⟩
  simp only [startServer, ServerState.world] at hstart
  simp [step, acceptClient, startServer, ServerState.world, hfd, hroom, hentered, dictSet,
    Option.filter, hstart]

theorem serveClient_served {bytes : Bytes} {s : Session} {c : Connection}
    (hfound : valueAt w.sessions (sessionKey fd) = some session)
    (hreceived : input.received = some bytes) (hbytes : bytes ≠ [])
    (hheap : w.heap session = some s)
    (hserve : serveRead mailPath ⟨w.world input.fails s, [], [], false⟩
      (bytes.take serverCommandMaxLen) = some c) :
    ∃ w', serveClient mailPath fd input w = some (.client session (.served c), w') ∧
      (c.closed = false → w'.mem = c.world.mem ∧ w'.heap session = some c.world.session ∧
        w'.todo = w.todo ∧ w'.sessions = w.sessions ∧ w'.fds = w.fds ∧ w'.nfds = w.nfds) := by
  unfold serveClient
  cases bytes with
  | nil => exact absurd rfl hbytes
  | cons b bytes =>
    cases hclosed : c.closed with
    | true => simp [hfound, hreceived, hheap, hserve, hclosed]
    | false => simp [hfound, hreceived, hheap, hserve, hclosed]

end Alone

section Together
variable {mailPath : Bytes} {serverSocket fd x : Descriptor} {mem₀ : Memory} {dirs₀ : Maildirs}
  {session : Nat} {lines : Nat → List Addr} {w w' v : ServerState} {input : Input}
  {todo : List Descriptor}

theorem matched_still {output : Output}
    (hevent : eventOf session ⟨w, input, output, w'⟩ = none) (hseparate : Separate w lines)
    (hphase : Phase serverSocket fd mem₀ dirs₀ session lines w v) (hmem : w'.mem = w.mem)
    (hheap : w'.heap = w.heap) (hle : w.count ≤ w'.count)
    (hahead : w.count ≤ session → w'.count ≤ session) (hfds : ∀ fd' ∈ w'.fds, fd' ∈ w.fds)
    (hsessions : w'.sessions = w.sessions) :
    Matched mailPath serverSocket fd mem₀ dirs₀ session v ⟨w, input, output, w'⟩ := by
  refine matched_of_other hevent (hseparate.congr hmem hheap) ?_
  refine hphase.others hle hahead (by rw [hheap]) (fun s d _ hkeeps => hkeeps.congr hmem) ?_
  intro fd' hopen _ hfound
  exact ⟨hfds fd' hopen, hsessions ▸ hfound⟩

theorem gone_of_erase {v' : ServerState} {lines' : Nat → List Addr} (htidy : Tidy w)
    (hfound : valueAt w.sessions (sessionKey x) = some session) (hfds : w'.fds = w.fds.erase x)
    (hsessions : ∀ key s, valueAt w'.sessions key = some s → valueAt w.sessions key = some s)
    (hcount : w'.count = w.count) :
    Phase serverSocket fd mem₀ dirs₀ session lines' w' v' := by
  refine .gone (hcount ▸ htidy.below _ _ hfound) fun fd' hopen _ hfound' => ?_
  have hkey := htidy.unique _ _ session (hsessions _ _ hfound') hfound
  rw [hfds, sessionKey_injective hkey] at hopen
  exact absurd hopen (Finset.notMem_erase x w.fds)

theorem Phase.of_found (h : Phase serverSocket fd mem₀ dirs₀ session lines w v) (htidy : Tidy w)
    (htodo : w.todo = x :: todo) (hclient : x ≠ serverSocket)
    (hfound : valueAt w.sessions (sessionKey x) = some session) :
    ∃ s s₀ d ms₀, w.heap session = some s ∧ Keeps w s d (lines session) ∧ v.heap 0 = some s₀ ∧
      Keeps v s₀ d ms₀ ∧ v.todo = [] ∧ valueAt v.sessions (sessionKey fd) = some 0 ∧
        fd ∈ v.fds ∧ fd < v.nfds := by
  cases h with
  | fresh ahead start => exact absurd (htidy.below _ _ hfound) (Nat.not_lt.mpr ahead)
  | live below heap_eq keeps heap_eq₀ keeps₀ idle found opened lt =>
    exact ⟨_, _, _, _, heap_eq, keeps, heap_eq₀, keeps₀, idle, found, opened, lt⟩
  | gone below unwatched =>
    exact absurd hfound (unwatched x (htidy.next htodo).1 hclient)

theorem matched_refused (hfd : fd ≠ serverSocket) (hseparate : Separate w lines)
    (hphase : Phase serverSocket fd mem₀ dirs₀ session lines w v) (htidy : Tidy w)
    (hroom : input.sessionRoom = true) (hfull : input.dictRoom = false) :
    Matched mailPath serverSocket fd mem₀ dirs₀ session v ⟨w, input, .client w.count .refused,
      { w with todo, count := w.count + 1, released := w.released ++ [w.count] }⟩ := by
  by_cases hown : w.count = session
  · subst hown
    cases hphase with
    | live below | gone below => exact absurd below (Nat.lt_irrefl _)
    | fresh ahead start =>
      obtain ⟨v', hstep⟩ := refuse_alone mailPath mem₀ dirs₀ hfd hroom hfull
      subst start
      refine matched_of_own rfl rfl rfl (by simp [startServer]) (by simp [startServer]) hstep rfl
        (hseparate.congr rfl rfl) (.gone (Nat.lt_succ_self _) fun fd' _ _ hfound => ?_)
      exact Nat.lt_irrefl _ (htidy.below _ _ hfound)
  · refine matched_still ?_ hseparate hphase rfl rfl (Nat.le_succ _)
      (fun hle => Nat.lt_of_le_of_ne hle hown) (fun _ hopen => hopen) rfl
    simp [eventOf, hown]

theorem matched_accepted {c : Connection} (hfd : fd ≠ serverSocket) (hseparate : Separate w lines)
    (hphase : Phase serverSocket fd mem₀ dirs₀ session lines w v)
    (hroom : input.sessionRoom = true) (hentered : input.dictRoom = true)
    (hstart : acceptConnection (w.world input.fails newSession) = some c) :
    Matched mailPath serverSocket fd mem₀ dirs₀ session v
      ⟨w, input, .client w.count (.accepted c),
        { w with todo, count := w.count + 1, mem := c.world.mem, dirs := c.world.dirs,
                 heap := Function.update w.heap w.count (some c.world.session),
                 sessions := w.sessions.insert (sessionKey x) (some w.count),
                 fds := insert x w.fds, nfds := max w.nfds (x + 1) }⟩ := by
  obtain ⟨c', ms, hc, howns, hconfined, -⟩ := acceptConnection_owns (w.world input.fails newSession)
  obtain rfl := Option.some.inj (hc.symm.trans hstart)
  generalize hw' : ({ w with
    todo, count := w.count + 1, mem := c'.world.mem, dirs := c'.world.dirs,
    heap := Function.update w.heap w.count (some c'.world.session),
    sessions := w.sessions.insert (sessionKey x) (some w.count),
    fds := insert x w.fds, nfds := max w.nfds (x + 1) } : ServerState) = w'
  have hmem : w'.mem = c'.world.mem := by rw [← hw']
  have hheap : w'.heap = Function.update w.heap w.count (some c'.world.session) := by rw [← hw']
  have hcount : w'.count = w.count + 1 := by rw [← hw']
  have hkeeps : Keeps w' c'.world.session (fresh .initial) ms := keeps_of_owns howns hmem
  have hseparate' : Separate w' (Function.update lines w.count ms) := by
    refine hseparate.act hconfined hmem (fun _ _ _ => List.disjoint_nil_right _)
      (fun other hne => by rw [hheap, Function.update_of_ne hne]) fun s hs => ?_
    rw [hheap, Function.update_self] at hs
    exact ⟨_, Option.some.inj hs ▸ hkeeps⟩
  by_cases hown : w.count = session
  · subst hown
    cases hphase with
    | live below | gone below => exact absurd below (Nat.lt_irrefl _)
    | fresh ahead start =>
      obtain ⟨c₀, ms₀, v', hstep, hstart₀, howns₀, hmem₀, hheap₀, hidle, hfound, hopen, hlt⟩ :=
        accept_alone mailPath mem₀ dirs₀ hfd hroom hentered
      subst start
      have hrecord := acceptConnection_record hstart₀ hstart
      refine matched_of_own rfl rfl rfl (by simp [startServer]) (by simp [startServer]) hstep
        (by simp [Outcome.map, hrecord]) hseparate' ?_
      refine .live (hcount ▸ Nat.lt_succ_self _) (by rw [hheap, Function.update_self]) ?_ hheap₀
        (keeps_of_owns howns₀ hmem₀) hidle hfound hopen hlt
      rw [Function.update_self]
      exact hkeeps
  · have hne : session ≠ w.count := fun heq => hown heq.symm
    refine matched_of_other (by simp [eventOf, hown]) hseparate' ?_
    refine hphase.others (hcount ▸ Nat.le_succ _) (fun hle => hcount ▸ Nat.lt_of_le_of_ne hle hown)
      (by rw [hheap, Function.update_of_ne hne]) (fun s d _ hkept => ?_) fun fd' hopen _ hfound => ?_
    · rw [Function.update_of_ne hne]
      exact hkept.frame hconfined hmem (List.disjoint_nil_right _)
    · rw [← hw'] at hopen hfound
      rcases valueAt_insert_eq_some.mp hfound with ⟨-, heq⟩ | ⟨hkey, hold⟩
      · exact absurd (Option.some.inj heq) hown
      · refine ⟨(Finset.mem_insert.mp hopen).resolve_left ?_, hold⟩
        rintro rfl
        exact hkey rfl

theorem matched_lost (hseparate : Separate w lines)
    (hphase : Phase serverSocket fd mem₀ dirs₀ session lines w v) (htidy : Tidy w)
    (htodo : w.todo = x :: todo) (hclient : x ≠ serverSocket) {acting : Nat}
    (hfd : fd ≠ serverSocket)
    (hfound : valueAt w.sessions (sessionKey x) = some acting)
    (hgone : input.received = none ∨ input.received = some []) :
    Matched mailPath serverSocket fd mem₀ dirs₀ session v
      ⟨w, input, .client acting .lost, { w with todo, fds := w.fds.erase x }⟩ := by
  by_cases hown : acting = session
  · subst hown
    obtain ⟨s, s₀, d, ms₀, -, -, -, -, hidle, hfound₀, hopen, hlt⟩ :=
      hphase.of_found htidy htodo hclient hfound
    have hstep : step mailPath serverSocket { v with todo := [fd] } input =
        some (.client 0 .lost, { v with todo := [], fds := v.fds.erase fd }) := by
      rcases hgone with hgone | hgone <;> simp [step, hfd, serveClient, hfound₀, hgone]
    exact matched_of_own rfl rfl hidle hopen hlt hstep rfl (hseparate.congr rfl rfl)
      (gone_of_erase htidy hfound rfl (fun _ _ hkey => hkey) rfl)
  · refine matched_still ?_ hseparate hphase rfl rfl le_rfl id
      (fun _ hopen => Finset.mem_of_mem_erase hopen) rfl
    simp [eventOf, hown]

theorem matched_served (hseparate : Separate w lines)
    (hphase : Phase serverSocket fd mem₀ dirs₀ session lines w v) (htidy : Tidy w)
    (htodo : w.todo = x :: todo) (hclient : x ≠ serverSocket) (hfd : fd ≠ serverSocket)
    {acting : Nat} {bytes : Bytes} {held : Session} {c : Connection}
    (hfound : valueAt w.sessions (sessionKey x) = some acting)
    (hreceived : input.received = some bytes) (hbytes : bytes ≠ [])
    (hheld : w.heap acting = some held)
    (hserve : serveRead mailPath ⟨w.world input.fails held, [], [], false⟩
      (bytes.take serverCommandMaxLen) = some c)
    (hmem : w'.mem = c.world.mem) (hcount : w'.count = w.count)
    (hheap : w'.heap = Function.update w.heap acting
      (if c.closed then none else some c.world.session))
    (hfds : ∀ fd' ∈ w'.fds, fd' ∈ w.fds)
    (hsessions : ∀ key s, valueAt w'.sessions key = some s → valueAt w.sessions key = some s)
    (hends : c.closed = true → w'.fds = w.fds.erase x) :
    Matched mailPath serverSocket fd mem₀ dirs₀ session v
      ⟨w, input, .client acting (.served c), w'⟩ := by
  have hused : ∀ other, other ≠ acting → (w.heap other).isSome →
      (lines other).Disjoint (lines acting) := fun other hne hsome =>
    hseparate.disjoint other acting hne hsome (by rw [hheld]; rfl)
  have hothers : ∀ other, other ≠ acting → w'.heap other = w.heap other := fun other hne => by
    rw [hheap, Function.update_of_ne hne]
  -- what the session holds after the read, in the lines that the read leaves it
  have hacting {d' : Dialogue} {ms' : List Addr} (howns : Owns c.world d' ms') (s : Session)
      (hs : w'.heap acting = some s) : Keeps w' s d' ms' := by
    rw [hheap, Function.update_self] at hs
    split at hs
    · cases hs
    · exact Option.some.inj hs ▸ keeps_of_owns howns hmem
  by_cases hown : acting = session
  · subst hown
    obtain ⟨s, s₀, d, ms₀, hs, hkeeps, hheap₀, hkeeps₀, hidle, hfound₀, hopen, hlt⟩ :=
      hphase.of_found htidy htodo hclient hfound
    obtain rfl := Option.some.inj (hs.symm.trans hheld)
    have htwins : Twins ⟨w.world input.fails s, [], [], false⟩ ⟨v.world input.fails s₀, [], [], false⟩
        d (lines acting) ms₀ :=
      ⟨⟨hkeeps _, hkeeps₀ _, rfl, fun k => by simp [ServerState.world]⟩, rfl, rfl, rfl⟩
    obtain ⟨c₀, d', ms', ms₀', n, hserve₀, htwins', hconfined⟩ := htwins.serveRead rfl hserve
    obtain ⟨v', hstep, hstays⟩ := serveClient_served (w := { v with todo := [] }) hfound₀ hreceived
      hbytes hheap₀ hserve₀
    have hstep' : step mailPath serverSocket { v with todo := [fd] } input =
        some (.client 0 (.served c₀), v') := by
      simp only [step, hfd, if_false]
      exact hstep
    have howns : Owns c.world d' ms' := htwins'.alike.owns
    refine matched_of_own rfl rfl hidle hopen hlt hstep'
      (by simp [Outcome.map, htwins'.record_eq])
      (hseparate.act hconfined hmem hused hothers fun s hs => ⟨d', hacting howns s hs⟩) ?_
    cases hclosed : c.closed with
    | true => exact gone_of_erase htidy hfound (hends hclosed) hsessions hcount
    | false =>
      obtain ⟨hmem₀, hheap₀', htodo₀, hsessions₀, hfds₀, hnfds₀⟩ :=
        hstays (htwins'.closed.symm.trans hclosed)
      have hheap' : w'.heap acting = some c.world.session := by
        simp [hheap, hclosed]
      refine .live (hcount ▸ htidy.below _ _ hfound) hheap' ?_ hheap₀'
        (keeps_of_owns htwins'.alike.owns₀ hmem₀) htodo₀ (hsessions₀ ▸ hfound₀) (hfds₀ ▸ hopen)
        (hnfds₀ ▸ hlt)
      rw [Function.update_self]
      exact hacting howns _ hheap'
  · have hne : session ≠ acting := fun heq => hown heq.symm
    obtain ⟨d, hkeeps⟩ := hseparate.keeps acting held hheld
    have hheld' : Owns (Connection.mk (w.world input.fails held) [] [] false).world d (lines acting) :=
      hkeeps input.fails
    obtain ⟨d', ms', n, howns, hconfined⟩ := serveRead_confined hheld' rfl hserve
    refine matched_of_other (by simp [eventOf, hown])
      (hseparate.act hconfined hmem hused hothers fun s hs => ⟨d', hacting howns s hs⟩) ?_
    refine hphase.others hcount.ge (fun hle => hcount ▸ hle) (hothers session hne)
      (fun s d hs hkept => ?_) fun fd' hopen _ hfound' => ⟨hfds fd' hopen, hsessions _ _ hfound'⟩
    rw [Function.update_of_ne hne]
    exact hkept.frame hconfined hmem (hused session hne (by rw [hs]; rfl))

theorem matched_step {output : Output} (hfd : fd ≠ serverSocket) (hseparate : Separate w lines)
    (hphase : Phase serverSocket fd mem₀ dirs₀ session lines w v) (htidy : Tidy w)
    (htook : Took mailPath serverSocket w input output w') (hgo : output ≠ .stopped) :
    Matched mailPath serverSocket fd mem₀ dirs₀ session v ⟨w, input, output, w'⟩ := by
  cases htook with
  | stopped idle ready => exact absurd rfl hgo
  | selected | declined =>
    exact matched_still rfl hseparate hphase rfl rfl le_rfl id (fun _ hopen => hopen) rfl
  | refused todo_eq socket closed room full =>
    exact matched_refused hfd hseparate hphase htidy room full
  | accepted todo_eq socket closed room entered start =>
    exact matched_accepted hfd hseparate hphase room entered start
  | unknown todo_eq client missing =>
    exact matched_still rfl hseparate hphase rfl rfl le_rfl id
      (fun _ hopen => Finset.mem_of_mem_erase hopen) rfl
  | lost todo_eq client found gone =>
    exact matched_lost hseparate hphase htidy todo_eq client hfd found gone
  | served todo_eq client found received nonempty heap_eq serve goes =>
    refine matched_served hseparate hphase htidy todo_eq client hfd found received nonempty heap_eq
      serve rfl rfl (by simp [goes]) (fun _ hopen => hopen) (fun _ _ hkey => hkey) fun hends => ?_
    rw [goes] at hends
    cases hends
  | quit todo_eq client found received nonempty heap_eq serve ends =>
    refine matched_served hseparate hphase htidy todo_eq client hfd found received nonempty heap_eq
      serve rfl rfl (by simp [ends]) (fun _ hopen => Finset.mem_of_mem_erase hopen) ?_
      fun _ => rfl
    exact fun _ _ hkey => valueAt_dictSet_none hkey

end Together

/-- What the server does with a session, whatever the others do and whichever
descriptors they reuse, is what it does with the session alone. -/
theorem clients_isolated (mailPath : Bytes) {serverSocket : Descriptor} {mem : Memory}
    {dirs : Maildirs} {inputs : List Input} {history : History} {last : ServerState}
    (h : (serverMachine mailPath serverSocket).exec (startServer serverSocket mem dirs) inputs =
      some (history, last)) (session : Nat) {fd : Descriptor} (hfd : fd ≠ serverSocket)
    (mem₀ : Memory) (dirs₀ : Maildirs) :
    ∃ alone last₀, (serverMachine mailPath serverSocket).exec (startServer serverSocket mem₀ dirs₀)
        ((eventsOf session history).flatMap (soloInputs serverSocket fd)) = some (alone, last₀) ∧
      seen 0 alone = seen session history := by
  let M := serverMachine mailPath serverSocket
  let start₀ := startServer serverSocket mem₀ dirs₀
  let Final (past : History) : Prop := ∃ alone last₀,
    M.exec start₀ ((eventsOf session past).flatMap (soloInputs serverSocket fd)) =
      some (alone, last₀) ∧ seen 0 alone = seen session past
  let Inv (past : History) (w : ServerState) : Prop := Tidy w ∧ ∃ lines alone v, Separate w lines ∧
    M.exec start₀ ((eventsOf session past).flatMap (soloInputs serverSocket fd)) =
      some (alone, v) ∧ (∀ st ∈ alone, M.stop st.output = false) ∧
    seen 0 alone = seen session past ∧ Phase serverSocket fd mem₀ dirs₀ session lines w v
  have hfinal : ∀ past w, Inv past w → Final past := by
    intro past w ⟨_, _, alone, v, _, hexec, _, hseen, _⟩
    exact ⟨alone, v, hexec, hseen⟩
  have hstep : ∀ past w input output w', Inv past w → M.step w input = some (output, w') →
      Final (past ++ [⟨w, input, output, w'⟩]) ∧
        (M.stop output = false → Inv (past ++ [⟨w, input, output, w'⟩]) w') := by
    intro past w input output w' hinv hstep
    have htook : Took mailPath serverSocket w input output w' := step_took hstep
    by_cases hstopped : output = .stopped
    · subst hstopped
      obtain ⟨alone, last₀, hexec, hseen⟩ := hfinal past w hinv
      have hsilent : eventsOf session [⟨w, input, .stopped, w'⟩] = [] := rfl
      have hnothing : seen session [⟨w, input, .stopped, w'⟩] = [] := rfl
      refine ⟨⟨alone, last₀, ?_, ?_⟩, fun hgo => by cases hgo⟩
      · rw [eventsOf_append, hsilent, List.append_nil]
        exact hexec
      · rw [seen_append, hnothing, List.append_nil]
        exact hseen
    · obtain ⟨htidy, lines, alone, v, hseparate, hexec, hgo, hseen, hphase⟩ := hinv
      obtain ⟨lines', later, v', hseparate', hexec', hgo', hseen', hphase'⟩ :=
        matched_step hfd hseparate hphase htidy htook hstopped
      have hinv' : Inv (past ++ [⟨w, input, output, w'⟩]) w' := by
        refine ⟨htidy.step htook, lines', alone ++ later, v', hseparate', ?_,
          List.forall_mem_append.mpr ⟨hgo, hgo'⟩, ?_, hphase'⟩
        · rw [eventsOf_append, List.flatMap_append]
          exact Machine.exec_append hexec hgo hexec'
        · rw [seen_append, seen_append, hseen, hseen']
      exact ⟨hfinal _ w' hinv', fun _ => hinv'⟩
  have hinit : Inv [] (startServer serverSocket mem dirs) := by
    refine ⟨tidy_start serverSocket mem dirs, fun _ => [], [], start₀, ⟨?_, ?_⟩, rfl, by simp, rfl,
      .fresh (Nat.zero_le _) rfl⟩
    · intro other s hs
      cases hs
    · intro other other' _ hsome
      cases hsome
  exact Machine.exec_history hfinal hstep hinit h

def visits : List Input :=
  let second : Descriptor := ⟨5, by decide⟩
  [{ quiet with ready := some [listener] }, { quiet with clientSocket := some caller },
   { quiet with ready := some [listener, caller] }, { quiet with clientSocket := some second },
   { quiet with received := some (ascii "EHLO x\r\n") },
   { quiet with ready := some [caller, second] }, { quiet with received := some (ascii "QUIT\r\n") },
   { quiet with received := some (ascii "EHLO y\r\nMAIL") },
   { quiet with ready := some [listener] }, { quiet with clientSocket := some caller },
   { quiet with ready := some [caller, second] }, { quiet with received := some (ascii "RSET\r\n") },
   { quiet with received := some (ascii " FROM:<a@b>\r\n") }]

theorem clients_isolated_pair : ∃ history last,
    (serverMachine (ascii "./mail") listener).exec (startServer listener emptyMemory fun _ _ => [])
      visits = some (history, last) ∧
    (eventsOf 1 history).length = 3 ∧
    ∃ alone last₀, (serverMachine (ascii "./mail") listener).exec
        (startServer listener emptyMemory fun _ _ => [])
        ((eventsOf 1 history).flatMap (soloInputs listener caller)) = some (alone, last₀) ∧
      seen 0 alone = seen 1 history := by
  have hrun : ((serverMachine (ascii "./mail") listener).exec
      (startServer listener emptyMemory fun _ _ => []) visits).map
        (fun r => (eventsOf 1 r.1).length) = some 3 := by
    decide +kernel
  obtain ⟨⟨history, last⟩, hexec, hlength⟩ := Option.map_eq_some_iff.mp hrun
  exact ⟨history, last, hexec, hlength,
    clients_isolated (ascii "./mail") hexec 1 (by decide) emptyMemory fun _ _ => []⟩

end SmtpMta.Server.Isolation
