import SmtpMta.Library.FiniteMap
import SmtpMta.Library.Trace
import SmtpMta.Server.ReadLoop
import Mathlib.Data.Finset.Basic
import Mathlib.Data.Fintype.Fin

/-! The main loop of `server_start` over all its clients, whose sessions have
their lines in one memory. The dictionary of the sessions is a finite map. -/
namespace SmtpMta.Server.MainLoop
open Library.CString Library.FiniteMap Library.Trace Smtp ReadLoop

def fdSetsize : Nat := 1024

abbrev Descriptor := Fin fdSetsize

def sessionKeyMaxLen : Nat := 8

def sessionKey (fd : Descriptor) : Bytes :=
  (ascii (Nat.repr fd)).take (sessionKeyMaxLen - 1)

/-- The state of the loop. A session is known by the number of its `malloc`;
`heap` holds those that are not freed, and `released` lists the freed ones.
`todo` are the descriptors that are still to be visited in this round. -/
structure ServerState where
  mem : Memory
  dirs : Maildirs
  heap : Nat → Option Session
  count : Nat
  released : List Nat
  sessions : Bindings Bytes Nat
  fds : Finset Descriptor
  nfds : Nat
  todo : List Descriptor

/-- How the calls of one step to the outside come out. `fails` numbers the
allocations for lines and commands. -/
structure Input where
  ready : Option (List Descriptor)
  clientSocket : Option Descriptor
  sessionRoom : Bool
  dictRoom : Bool
  fails : Nat → Bool
  received : Option Bytes

/-- What happens to a session in one step. -/
inductive Outcome (γ : Type) where
  | refused
  | accepted (c : γ)
  | lost
  | served (c : γ)

def Outcome.map {γ δ : Type} (f : γ → δ) : Outcome γ → Outcome δ
  | .refused => .refused
  | .accepted c => .accepted (f c)
  | .lost => .lost
  | .served c => .served (f c)

inductive Output where
  | idle
  | client (session : Nat) (outcome : Outcome Connection)
  | stopped

/-- What a call of the session functions finds. The reply buffer is empty in
each turn of the loop. -/
def ServerState.world (w : ServerState) (fails : Nat → Bool) (session : Session) : World :=
  ⟨{ w.mem with oom := fun a => fails (a - w.mem.brk) }, session, [], w.dirs⟩

/-- The entry is allocated first, also for a key that is there. -/
def dictSet (room : Bool) (sessions : Bindings Bytes Nat) (key : Bytes) (value : Option Nat) :
    Int × Bindings Bytes Nat :=
  if room then (0, sessions.insert key value) else (-1, sessions)

/-- The branch for the listening socket. The kernel does not return a descriptor
that is open. -/
def acceptClient (input : Input) (w : ServerState) : Option (Output × ServerState) :=
  match input.clientSocket.filter fun fd => fd ∉ w.fds with
  | none => some (.idle, w)
  | some clientSocket =>
    -- the fields are set before the test for a null pointer
    if input.sessionRoom = false then none
    else
      let session := w.count
      let w := { w with count := w.count + 1 }
      let (ret, sessions) :=
        dictSet input.dictRoom w.sessions (sessionKey clientSocket) (some session)
      if ret ≠ 0 then
        some (.client session .refused, { w with released := w.released ++ [session] })
      else do
        let c ← acceptConnection (w.world input.fails newSession)
        some (.client session (.accepted c),
          { w with mem := c.world.mem, dirs := c.world.dirs,
                   heap := Function.update w.heap session (some c.world.session), sessions,
                   fds := insert clientSocket w.fds, nfds := max w.nfds (clientSocket + 1) })

/-- The branch for a client. -/
def serveClient (mailPath : Bytes) (fd : Descriptor) (input : Input) (w : ServerState) :
    Option (Output × ServerState) :=
  let key := sessionKey fd
  match valueAt w.sessions key with
  | none => some (.idle, { w with fds := w.fds.erase fd })
  | some session =>
    match input.received with
    | none | some [] => some (.client session .lost, { w with fds := w.fds.erase fd })
    | some bytes => do
        let held ← w.heap session
        let c ← serveRead mailPath ⟨w.world input.fails held, [], [], false⟩
          (bytes.take serverCommandMaxLen)
        let w := { w with mem := c.world.mem, dirs := c.world.dirs }
        if c.closed then
          -- the result of dict_set is not looked at
          let (_, sessions) := dictSet input.dictRoom w.sessions key none
          some (.client session (.served c),
            { w with heap := Function.update w.heap session none,
                     released := w.released ++ [session], sessions, fds := w.fds.erase fd })
        else
          some (.client session (.served c),
            { w with heap := Function.update w.heap session (some c.world.session) })

/-- At `pselect`, or at the next ready descriptor. When `pselect` fails the loop
ends and the sessions of the dictionary are freed. -/
def step (mailPath : Bytes) (serverSocket : Descriptor) (w : ServerState) (input : Input) :
    Option (Output × ServerState) :=
  match w.todo with
  | [] =>
    match input.ready with
    | none => some (.stopped, { w with released := w.released ++ values w.sessions })
    | some ready =>
        some (.idle, { w with todo := (List.finRange fdSetsize).filter fun fd =>
          fd < w.nfds ∧ fd ∈ w.fds ∧ fd ∈ ready })
  | fd :: todo =>
      let w := { w with todo }
      if fd = serverSocket then acceptClient input w else serveClient mailPath fd input w

def serverMachine (mailPath : Bytes) (serverSocket : Descriptor) :
    Machine ServerState Input Output where
  step := step mailPath serverSocket
  stop
    | .stopped => true
    | _ => false

def startServer (serverSocket : Descriptor) (mem : Memory) (dirs : Maildirs) : ServerState :=
  ⟨mem, dirs, fun _ => none, 0, [], ∅, {serverSocket}, serverSocket + 1, []⟩

theorem sessionKey_eq (fd : Descriptor) :
    sessionKey fd = (Nat.toDigits 10 fd).map fun c => UInt8.ofNat c.toNat := by
  have hlength : (Nat.toDigits 10 fd).length ≤ 7 := by
    rw [Nat.length_toDigits_le_iff (by decide) (by decide)]
    exact Nat.lt_trans fd.isLt (by decide)
  have hkey : (Nat.toDigits 10 fd).length ≤ sessionKeyMaxLen - 1 := hlength
  rw [sessionKey, ascii, Nat.toList_repr, List.take_of_length_le (by simpa using hkey)]

theorem sessionKey_injective : Function.Injective sessionKey := by
  intro fd fd' h
  have hdigit {c : Char} (hc : c.isDigit) : Char.ofNat (UInt8.ofNat c.toNat).toNat = c := by
    have hlt : c.toNat < 256 := by
      simp only [Char.isDigit, Bool.and_eq_true, decide_eq_true_eq] at hc
      have := hc.2
      have hnat : c.toNat ≤ 57 := this
      omega
    rw [UInt8.toNat_ofNat_of_lt' hlt, Char.ofNat_toNat]
  have hback (fd : Descriptor) :
      (sessionKey fd).map (fun b => Char.ofNat b.toNat) = Nat.toDigits 10 fd := by
    rw [sessionKey_eq, List.map_map]
    conv_rhs => rw [← List.map_id (Nat.toDigits 10 fd)]
    apply List.map_congr_left
    intro c hc
    exact hdigit (Nat.isDigit_of_mem_toDigits (by decide) (by decide) hc)
  have hdigits : Nat.toDigits 10 fd = Nat.toDigits 10 fd' := by
    rw [← hback, ← hback, h]
  have hvalue := congrArg (Nat.ofDigitChars 10 · 0) hdigits
  simp only [Nat.ofDigitChars_ten_toDigits] at hvalue
  exact Fin.ext hvalue

/-- What one step can do. -/
inductive Took (mailPath : Bytes) (serverSocket : Descriptor) (w : ServerState) (input : Input) :
    Output → ServerState → Prop
  | stopped (idle : w.todo = []) (ready : input.ready = none) :
      Took mailPath serverSocket w input .stopped
        { w with released := w.released ++ values w.sessions }
  | selected (idle : w.todo = []) (ready : List Descriptor) (ready_eq : input.ready = some ready) :
      Took mailPath serverSocket w input .idle
        { w with todo := (List.finRange fdSetsize).filter fun fd =>
            fd < w.nfds ∧ fd ∈ w.fds ∧ fd ∈ ready }
  | declined {todo : List Descriptor} (todo_eq : w.todo = serverSocket :: todo)
      (no_socket : input.clientSocket.filter (fun fd => fd ∉ w.fds) = none) :
      Took mailPath serverSocket w input .idle { w with todo }
  | refused {todo : List Descriptor} {fd : Descriptor} (todo_eq : w.todo = serverSocket :: todo)
      (socket : input.clientSocket = some fd) (closed : fd ∉ w.fds)
      (room : input.sessionRoom = true) (full : input.dictRoom = false) :
      Took mailPath serverSocket w input (.client w.count .refused)
        { w with todo, count := w.count + 1, released := w.released ++ [w.count] }
  | accepted {todo : List Descriptor} {fd : Descriptor} {c : Connection}
      (todo_eq : w.todo = serverSocket :: todo) (socket : input.clientSocket = some fd)
      (closed : fd ∉ w.fds) (room : input.sessionRoom = true) (entered : input.dictRoom = true)
      (start : acceptConnection (w.world input.fails newSession) = some c) :
      Took mailPath serverSocket w input (.client w.count (.accepted c))
        { w with todo, count := w.count + 1, mem := c.world.mem, dirs := c.world.dirs,
                 heap := Function.update w.heap w.count (some c.world.session),
                 sessions := w.sessions.insert (sessionKey fd) (some w.count),
                 fds := insert fd w.fds, nfds := max w.nfds (fd + 1) }
  | unknown {todo : List Descriptor} {fd : Descriptor} (todo_eq : w.todo = fd :: todo)
      (client : fd ≠ serverSocket) (missing : valueAt w.sessions (sessionKey fd) = none) :
      Took mailPath serverSocket w input .idle { w with todo, fds := w.fds.erase fd }
  | lost {todo : List Descriptor} {fd : Descriptor} {session : Nat} (todo_eq : w.todo = fd :: todo)
      (client : fd ≠ serverSocket) (found : valueAt w.sessions (sessionKey fd) = some session)
      (gone : input.received = none ∨ input.received = some []) :
      Took mailPath serverSocket w input (.client session .lost)
        { w with todo, fds := w.fds.erase fd }
  | served {todo : List Descriptor} {fd : Descriptor} {session : Nat} {bytes : Bytes}
      {held : Session} {c : Connection} (todo_eq : w.todo = fd :: todo) (client : fd ≠ serverSocket)
      (found : valueAt w.sessions (sessionKey fd) = some session)
      (received : input.received = some bytes) (nonempty : bytes ≠ [])
      (heap_eq : w.heap session = some held)
      (serve : serveRead mailPath ⟨w.world input.fails held, [], [], false⟩
        (bytes.take serverCommandMaxLen) = some c)
      (goes : c.closed = false) :
      Took mailPath serverSocket w input (.client session (.served c))
        { w with todo, mem := c.world.mem, dirs := c.world.dirs,
                 heap := Function.update w.heap session (some c.world.session) }
  | quit {todo : List Descriptor} {fd : Descriptor} {session : Nat} {bytes : Bytes}
      {held : Session} {c : Connection} (todo_eq : w.todo = fd :: todo) (client : fd ≠ serverSocket)
      (found : valueAt w.sessions (sessionKey fd) = some session)
      (received : input.received = some bytes) (nonempty : bytes ≠ [])
      (heap_eq : w.heap session = some held)
      (serve : serveRead mailPath ⟨w.world input.fails held, [], [], false⟩
        (bytes.take serverCommandMaxLen) = some c)
      (ends : c.closed = true) :
      Took mailPath serverSocket w input (.client session (.served c))
        { w with todo, mem := c.world.mem, dirs := c.world.dirs,
                 heap := Function.update w.heap session none,
                 released := w.released ++ [session],
                 sessions := (dictSet input.dictRoom w.sessions (sessionKey fd) none).2,
                 fds := w.fds.erase fd }

theorem step_took {mailPath : Bytes} {serverSocket : Descriptor} {w w' : ServerState}
    {input : Input} {output : Output} (h : step mailPath serverSocket w input = some (output, w')) :
    Took mailPath serverSocket w input output w' := by
  unfold step at h
  split at h
  · rename_i hidle
    split at h
    · rename_i hready
      obtain ⟨rfl, rfl⟩ := Prod.mk.inj (Option.some.inj h)
      exact .stopped hidle hready
    · rename_i ready hready
      obtain ⟨rfl, rfl⟩ := Prod.mk.inj (Option.some.inj h)
      exact .selected hidle ready hready
  · rename_i fd todo htodo
    dsimp only at h
    split at h
    · rename_i hserver
      subst hserver
      unfold acceptClient at h
      split at h
      · rename_i hnone
        obtain ⟨rfl, rfl⟩ := Prod.mk.inj (Option.some.inj h)
        exact .declined htodo hnone
      · rename_i clientSocket hsocket
        obtain ⟨hsocket, hclosed⟩ := Option.filter_eq_some_iff.mp hsocket
        split at h
        · simp at h
        · rename_i hroom
          have hfree : clientSocket ∉ w.fds := by simpa using hclosed
          have hroom : input.sessionRoom = true := by simpa using hroom
          cases hdict : input.dictRoom with
          | false =>
            simp only [dictSet, hdict, Bool.false_eq_true, if_false] at h
            obtain ⟨rfl, rfl⟩ := Prod.mk.inj (Option.some.inj h)
            exact .refused htodo hsocket hfree hroom hdict
          | true =>
            simp only [dictSet, hdict, if_true, ne_eq, not_true_eq_false, if_false] at h
            obtain ⟨c, hstart, h⟩ := Option.bind_eq_some_iff.mp h
            obtain ⟨rfl, rfl⟩ := Prod.mk.inj (Option.some.inj h)
            exact .accepted htodo hsocket hfree hroom hdict hstart
    · rename_i hclient
      unfold serveClient at h
      dsimp only at h
      split at h
      · rename_i hmissing
        obtain ⟨rfl, rfl⟩ := Prod.mk.inj (Option.some.inj h)
        exact .unknown htodo hclient hmissing
      · rename_i session hfound
        split at h
        · rename_i hgone
          obtain ⟨rfl, rfl⟩ := Prod.mk.inj (Option.some.inj h)
          exact .lost htodo hclient hfound (.inl hgone)
        · rename_i hgone
          obtain ⟨rfl, rfl⟩ := Prod.mk.inj (Option.some.inj h)
          exact .lost htodo hclient hfound (.inr hgone)
        · rename_i bytes hnonempty hreceived
          obtain ⟨held, hheld, h⟩ := Option.bind_eq_some_iff.mp h
          obtain ⟨c, hserve, h⟩ := Option.bind_eq_some_iff.mp h
          have hbytes : bytes ≠ [] := by
            rintro rfl
            exact hnonempty rfl
          split at h
          · rename_i hends
            obtain ⟨rfl, rfl⟩ := Prod.mk.inj (Option.some.inj h)
            exact .quit htodo hclient hfound hreceived hbytes hheld hserve hends
          · rename_i hgoes
            obtain ⟨rfl, rfl⟩ := Prod.mk.inj (Option.some.inj h)
            exact .served htodo hclient hfound hreceived hbytes hheld hserve (by simpa using hgoes)

section Agreement
variable {mailPath : Bytes} {serverSocket : Descriptor} {w w' : ServerState} {input : Input}
  {output : Output}

structure Agree (serverSocket : Descriptor) (w : ServerState) : Prop where
  watched : ∀ fd ∈ w.fds, fd ≠ serverSocket →
    ∃ session, valueAt w.sessions (sessionKey fd) = some session
  stored : ∀ key session, valueAt w.sessions key = some session →
    ∃ fd ∈ w.fds, fd ≠ serverSocket ∧ key = sessionKey fd

/-- The read brings QUIT to the session. -/
def Quits (mailPath : Bytes) (w : ServerState) (input : Input) (session : Nat) : Prop :=
  ∃ bytes held c, input.received = some bytes ∧ bytes ≠ [] ∧ w.heap session = some held ∧
    serveRead mailPath ⟨w.world input.fails held, [], [], false⟩
      (bytes.take serverCommandMaxLen) = some c ∧ c.closed = true

/-- The descriptor of a client is closed, and its session stays in the table: the
read gets no bytes, or it brings QUIT and there is no memory for the entry. -/
def Forgets (mailPath : Bytes) (serverSocket : Descriptor) (w : ServerState) (input : Input) :
    Prop :=
  ∃ fd session, w.todo.head? = some fd ∧ fd ≠ serverSocket ∧
    valueAt w.sessions (sessionKey fd) = some session ∧
    (input.received = none ∨ input.received = some [] ∨
      Quits mailPath w input session ∧ input.dictRoom = false)

/-- A session is freed once, or it is in the table. -/
def Released (w : ServerState) : Prop :=
  (w.released ++ values w.sessions).Perm (List.range w.count)

structure Kept (serverSocket : Descriptor) (w : ServerState) : Prop where
  listening : serverSocket ∈ w.fds
  agree : Agree serverSocket w
  released : Released w

theorem kept_start (mem : Memory) (dirs : Maildirs) :
    Kept serverSocket (startServer serverSocket mem dirs) := by
  constructor
  case listening => simp [startServer]
  case agree =>
    constructor
    · intro fd hfd hclient
      exact absurd (by simpa [startServer] using hfd) hclient
    · intro key session hstored
      simp [startServer] at hstored
  case released => simp [Released, startServer]

theorem Agree.congr (h : Agree serverSocket w) (hsessions : w'.sessions = w.sessions)
    (hfds : w'.fds = w.fds) : Agree serverSocket w' := by
  constructor
  · rw [hsessions, hfds]
    exact h.watched
  · rw [hsessions, hfds]
    exact h.stored

theorem Kept.congr (h : Kept serverSocket w) (hsessions : w'.sessions = w.sessions)
    (hfds : w'.fds = w.fds) (hreleased : w'.released = w.released) (hcount : w'.count = w.count) :
    Kept serverSocket w' := by
  refine ⟨by rw [hfds]; exact h.listening, h.agree.congr hsessions hfds, ?_⟩
  rw [Released, hsessions, hreleased, hcount]
  exact h.released

theorem Kept.accept (h : Kept serverSocket w) {fd : Descriptor} (hclosed : fd ∉ w.fds) :
    valueAt w.sessions (sessionKey fd) = none ∧ fd ≠ serverSocket := by
  constructor
  · cases hstored : valueAt w.sessions (sessionKey fd) with
    | none => rfl
    | some session =>
      obtain ⟨fd', hopen, -, hkey⟩ := h.agree.stored _ _ hstored
      exact absurd (sessionKey_injective hkey ▸ hopen) hclosed
  · rintro rfl
    exact hclosed h.listening

theorem Agree.insert (h : Agree serverSocket w) {fd : Descriptor} (hclient : fd ≠ serverSocket)
    {session : Nat} (hw' : w'.sessions = w.sessions.insert (sessionKey fd) (some session))
    (hfds : w'.fds = insert fd w.fds) : Agree serverSocket w' := by
  constructor
  · intro fd' hopen hclient'
    rw [hw']
    by_cases hfd : fd' = fd
    · exact ⟨session, by rw [hfd, valueAt_insert_self]⟩
    · rw [hfds, Finset.mem_insert] at hopen
      rw [valueAt_insert_ne _ (fun hkey => hfd (sessionKey_injective hkey))]
      exact h.watched fd' (hopen.resolve_left hfd) hclient'
  · intro key session' hstored
    rw [hw'] at hstored
    rcases valueAt_insert_eq_some.mp hstored with ⟨hkey, -⟩ | ⟨-, hold⟩
    · exact ⟨fd, by simp [hfds], hclient, hkey⟩
    · obtain ⟨fd', hopen, hclient', hkey⟩ := h.stored key session' hold
      exact ⟨fd', by simp [hfds, hopen], hclient', hkey⟩

theorem Agree.erase (h : Agree serverSocket w) {fd : Descriptor}
    (hgone : valueAt w'.sessions (sessionKey fd) = none)
    (hothers : ∀ key, key ≠ sessionKey fd → valueAt w'.sessions key = valueAt w.sessions key)
    (hfds : w'.fds = w.fds.erase fd) : Agree serverSocket w' := by
  constructor
  · intro fd' hopen hclient
    rw [hfds, Finset.mem_erase] at hopen
    rw [hothers _ (fun hkey => hopen.1 (sessionKey_injective hkey))]
    exact h.watched fd' hopen.2 hclient
  · intro key session hstored
    have hne : key ≠ sessionKey fd := by
      rintro rfl
      rw [hgone] at hstored
      cases hstored
    rw [hothers key hne] at hstored
    obtain ⟨fd', hopen, hclient, rfl⟩ := h.stored key session hstored
    refine ⟨fd', ?_, hclient, rfl⟩
    rw [hfds, Finset.mem_erase]
    exact ⟨fun hfd => hne (by rw [hfd]), hopen⟩

theorem Kept.step (h : Kept serverSocket w) (hkept : ¬Forgets mailPath serverSocket w input)
    (htook : Took mailPath serverSocket w input output w') (hgo : output ≠ .stopped) :
    Kept serverSocket w' := by
  cases htook with
  | stopped idle ready => exact absurd rfl hgo
  | selected | declined => exact h.congr rfl rfl rfl rfl
  | refused =>
    refine ⟨h.listening, h.agree.congr rfl rfl, ?_⟩
    have hperm : (w.released ++ [w.count] ++ values w.sessions).Perm
        (w.released ++ values w.sessions ++ [w.count]) := by
      rw [List.append_assoc, List.append_assoc]
      exact List.perm_append_comm.append_left w.released
    rw [Released, List.range_succ]
    exact hperm.trans (h.released.append_right _)
  | @accepted todo fd c todo_eq socket closed room entered start =>
    obtain ⟨hfree, hclient⟩ := h.accept closed
    refine ⟨by simp [h.listening], h.agree.insert hclient rfl rfl, ?_⟩
    have hvalues := values_insert w.sessions (sessionKey fd) (some w.count)
    rw [hfree, Option.toList_none, List.nil_append, Option.toList_some] at hvalues
    have hperm := hvalues.append_left w.released
    rw [Released, List.range_succ]
    exact hperm.trans (List.perm_middle.trans ((List.perm_append_singleton _ _).symm.trans
      (h.released.append_right _)))
  | unknown todo_eq client missing =>
    refine ⟨?_, h.agree.erase missing (fun _ _ => rfl) rfl, h.released⟩
    exact Finset.mem_erase.mpr ⟨client.symm, h.listening⟩
  | lost todo_eq client found gone =>
    refine absurd ⟨_, _, ?_, client, found, gone.imp_right .inl⟩ hkept
    rw [todo_eq, List.head?_cons]
  | served => exact h.congr rfl rfl rfl rfl
  | @quit todo fd session bytes held c todo_eq client found received nonempty heap_eq serve ends =>
    have hroom : input.dictRoom = true := by
      by_contra hfull
      refine hkept ⟨fd, session, by rw [todo_eq, List.head?_cons], client, found, .inr (.inr ?_)⟩
      exact ⟨⟨bytes, held, c, received, nonempty, heap_eq, serve, ends⟩, by simpa using hfull⟩
    simp only [dictSet, hroom, if_true]
    refine ⟨Finset.mem_erase.mpr ⟨client.symm, h.listening⟩, ?_, ?_⟩
    · exact h.agree.erase (valueAt_insert_self ..) (fun key hkey => valueAt_insert_ne _ hkey _) rfl
    · have hvalues := values_insert w.sessions (sessionKey fd) none
      rw [found, Option.toList_none, List.nil_append, Option.toList_some] at hvalues
      have hperm := hvalues.append_left w.released
      rw [← List.append_assoc] at hperm
      exact hperm.trans h.released

/-- The descriptor is closed in the step. -/
def Outcome.Ends : Outcome Connection → Prop
  | .refused | .lost => True
  | .accepted _ => False
  | .served c => c.closed = true

/-- What holds of a step: at `pselect` the two structures agree; the step that
closes a descriptor, and no other, frees the session and leaves none of it in the
table; at the end all are freed. -/
structure InOrder (serverSocket : Descriptor) (st : Step ServerState Input Output) : Prop where
  agree : st.before.todo = [] → Agree serverSocket st.before ∧ Released st.before
  ended : ∀ session outcome, st.output = .client session outcome →
    (session ∈ st.after.released ∧ session ∉ values st.after.sessions ↔ outcome.Ends)
  stopped : st.output = .stopped → st.after.released.Perm (List.range st.after.count)

theorem Kept.notMem_released (h : Kept serverSocket w) {session : Nat}
    (hheld : session ∈ values w.sessions ∨ w.count ≤ session) : session ∉ w.released := by
  intro hmem
  have hnodup : (w.released ++ values w.sessions).Nodup :=
    h.released.nodup_iff.mpr List.nodup_range
  rcases hheld with hvalue | hfresh
  · exact (List.nodup_append'.mp hnodup).2.2 hmem hvalue
  · have hlt : session < w.count :=
      List.mem_range.mp (h.released.mem_iff.mp (List.mem_append_left _ hmem))
    exact Nat.not_le.mpr hlt hfresh

theorem Kept.notMem_values (h : Kept serverSocket w) {session : Nat} (hmem : session ∈ w.released) :
    session ∉ values w.sessions := fun hvalue =>
  h.notMem_released (.inl hvalue) hmem

theorem Kept.ended (h : Kept serverSocket w) (h' : Kept serverSocket w')
    (hkept : ¬Forgets mailPath serverSocket w input)
    (htook : Took mailPath serverSocket w input output w') {session : Nat}
    {outcome : Outcome Connection} (houtput : output = .client session outcome) :
    session ∈ w'.released ∧ session ∉ values w'.sessions ↔ outcome.Ends := by
  have hfreed : session ∈ w'.released ∧ session ∉ values w'.sessions ↔ session ∈ w'.released :=
    and_iff_left_of_imp h'.notMem_values
  rw [hfreed]
  cases htook with
  | stopped | selected | declined | unknown => cases houtput
  | refused =>
    cases houtput
    simp [Outcome.Ends]
  | accepted =>
    cases houtput
    simpa [Outcome.Ends] using h.notMem_released (.inr le_rfl)
  | lost todo_eq client found gone =>
    refine absurd ⟨_, _, ?_, client, found, gone.imp_right .inl⟩ hkept
    rw [todo_eq, List.head?_cons]
  | served todo_eq client found received nonempty heap_eq serve goes =>
    cases houtput
    simpa [Outcome.Ends, goes] using h.notMem_released (.inl (mem_values found))
  | quit todo_eq client found received nonempty heap_eq serve ends =>
    cases houtput
    simp [Outcome.Ends, ends]

theorem Kept.inOrder {st : Step ServerState Input Output} (h : Kept serverSocket st.before)
    (hkept : ¬Forgets mailPath serverSocket st.before st.input)
    (htook : Took mailPath serverSocket st.before st.input st.output st.after) :
    InOrder serverSocket st := by
  refine ⟨fun _ => ⟨h.agree, h.released⟩, fun session outcome houtput => ?_, fun houtput => ?_⟩
  · have hgo : st.output ≠ .stopped := by simp [houtput]
    exact h.ended (h.step hkept htook hgo) hkept htook houtput
  · generalize st.output = output, st.after = after at htook houtput
    cases htook with
    | stopped idle ready => exact h.released
    | selected | declined | refused | accepted | unknown | lost | served | quit => cases houtput

theorem Forgets.took (h : Forgets mailPath serverSocket w input) (hkept : Kept serverSocket w)
    (htook : Took mailPath serverSocket w input output w') :
    ∃ session outcome, output = .client session outcome ∧ outcome.Ends ∧
      ¬(session ∈ w'.released ∧ session ∉ values w'.sessions) := by
  obtain ⟨fd, session, hhead, hclient, hfound, hforgets⟩ := h
  cases htook with
  | stopped idle ready => simp [idle] at hhead
  | selected idle ready ready_eq => simp [idle] at hhead
  | declined todo_eq no_socket | refused todo_eq socket closed room full
  | accepted todo_eq socket closed room entered start =>
    rw [todo_eq, List.head?_cons, Option.some_inj] at hhead
    exact absurd hhead.symm hclient
  | unknown todo_eq client missing =>
    rw [todo_eq, List.head?_cons, Option.some_inj] at hhead
    rw [← hhead, missing] at hfound
    cases hfound
  | lost todo_eq client found gone =>
    exact ⟨_, .lost, rfl, trivial, fun hfreed =>
      hkept.notMem_released (.inl (mem_values found)) hfreed.1⟩
  | @served todo fd' session' bytes held c todo_eq client found received nonempty heap_eq serve
      goes =>
    rw [todo_eq, List.head?_cons, Option.some_inj] at hhead
    subst hhead
    obtain rfl : session' = session := Option.some.inj (found.symm.trans hfound)
    rw [received] at hforgets
    simp only [reduceCtorEq, Option.some.injEq, nonempty, false_or] at hforgets
    obtain ⟨⟨bytes', held', c', hreceived, -, hheld, hserve, hends⟩, -⟩ := hforgets
    obtain rfl : bytes = bytes' := Option.some.inj (received.symm.trans hreceived)
    obtain rfl : held = held' := Option.some.inj (heap_eq.symm.trans hheld)
    obtain rfl : c = c' := Option.some.inj (serve.symm.trans hserve)
    rw [goes] at hends
    cases hends
  | @quit todo fd' session' bytes held c todo_eq client found received nonempty heap_eq serve ends =>
    rw [received] at hforgets
    simp only [reduceCtorEq, Option.some.injEq, nonempty, false_or] at hforgets
    refine ⟨session', .served c, rfl, ends, fun hfreed => hfreed.2 ?_⟩
    -- the entry is still that of the freed session
    simpa [dictSet, hforgets.2] using mem_values found

theorem Kept.inOrder_iff {st : Step ServerState Input Output} (h : Kept serverSocket st.before)
    (htook : Took mailPath serverSocket st.before st.input st.output st.after) :
    InOrder serverSocket st ↔ ¬Forgets mailPath serverSocket st.before st.input := by
  refine ⟨fun horder hforgets => ?_, fun hkept => h.inOrder hkept htook⟩
  obtain ⟨session, outcome, houtput, hends, hnot⟩ := hforgets.took h htook
  exact hnot ((horder.ended session outcome houtput).mpr hends)

/-- The table and the watched descriptors agree, and every session is freed once
in time, if and only if no session is forgotten. -/
theorem sessions_agree_iff (mailPath : Bytes) {serverSocket : Descriptor} {mem : Memory}
    {dirs : Maildirs} {inputs : List Input} {history : List (Step ServerState Input Output)}
    {last : ServerState}
    (h : (serverMachine mailPath serverSocket).exec (startServer serverSocket mem dirs) inputs =
      some (history, last)) :
    (∀ st ∈ history, InOrder serverSocket st) ↔
      (serverMachine mailPath serverSocket).Throughout
        (fun w input => ¬Forgets mailPath serverSocket w input) (startServer serverSocket mem dirs) inputs := by
  let Faithful (past : List (Step ServerState Input Output)) : Prop :=
    ∀ st ∈ past, ¬Forgets mailPath serverSocket st.before st.input
  let Final (past : List (Step ServerState Input Output)) : Prop :=
    (∀ st ∈ past, InOrder serverSocket st) ↔ Faithful past
  let Inv (past : List (Step ServerState Input Output)) (w : ServerState) : Prop :=
    Final past ∧ (Faithful past → Kept serverSocket w)
  have hstep : ∀ past w input output w', Inv past w →
      (serverMachine mailPath serverSocket).step w input = some (output, w') →
      Final (past ++ [⟨w, input, output, w'⟩]) ∧
        ((serverMachine mailPath serverSocket).stop output = false →
          Inv (past ++ [⟨w, input, output, w'⟩]) w') := by
    intro past w input output w' ⟨hpast, hinv⟩ hstep
    let st : Step ServerState Input Output := ⟨w, input, output, w'⟩
    have htook : Took mailPath serverSocket st.before st.input st.output st.after := step_took hstep
    have hfinal : Final (past ++ [st]) := by
      simp only [Final, Faithful, List.forall_mem_append, List.forall_mem_singleton]
      exact (and_congr_left' hpast).trans
        (and_congr_right fun hbefore => Kept.inOrder_iff (hinv hbefore) htook)
    refine ⟨hfinal, fun hgo => ⟨hfinal, fun hfaithful => ?_⟩⟩
    obtain ⟨hbefore, hnow⟩ := List.forall_mem_append.mp hfaithful
    refine (hinv hbefore).step (hnow st (List.mem_singleton_self st)) htook ?_
    rintro rfl
    cases hgo
  have hinit : Inv [] (startServer serverSocket mem dirs) :=
    ⟨⟨fun _ st hst => by simp at hst, fun _ st hst => by simp at hst⟩, fun _ => kept_start mem dirs⟩
  rw [Machine.throughout_iff h]
  exact Machine.exec_history (fun _ _ hinv => hinv.1) hstep hinit h

end Agreement

section Runs

def listener : Descriptor := ⟨3, by decide⟩

def caller : Descriptor := ⟨4, by decide⟩

/-- Nothing is ready, and no allocation fails. -/
def quiet : Input := ⟨none, none, true, true, fun _ => false, none⟩

def emptyMemory : Memory := ⟨fun _ => none, fun _ => none, 0, fun _ => false⟩

/-- A client whose read returns these bytes, if any, and another one on the same
descriptor before the loop ends. -/
def reconnects (received : Bytes) : List Input :=
  [{ quiet with ready := some [listener] }, { quiet with clientSocket := some caller },
   { quiet with ready := some [caller] }, { quiet with received := some received },
   { quiet with ready := some [listener] }, { quiet with clientSocket := some caller }, quiet]

def replay (received : Bytes) : Option (List (Step ServerState Input Output) × ServerState) :=
  (serverMachine (ascii "./mail") listener).exec (startServer listener emptyMemory fun _ _ => [])
    (reconnects received)

/-- The second client takes the place of the first one's session in the table,
which is then never freed. -/
theorem lost_session_leaks : ∃ history last, replay [] = some (history, last) ∧
    (∃ st ∈ history, st.before.todo = [] ∧ ¬Agree listener st.before) ∧
      ∃ st ∈ history, st.output = .stopped ∧ st.after.count = 2 ∧ st.after.released = [1] := by
  let stale (st : Step ServerState Input Output) : Bool :=
    decide (st.before.todo = [] ∧ valueAt st.before.sessions (sessionKey caller) = some 0 ∧
      caller ∉ st.before.fds)
  let leaks (st : Step ServerState Input Output) : Bool :=
    st.output matches .stopped && decide (st.after.count = 2 ∧ st.after.released = [1])
  have hrun : ((replay []).map fun r => (r.1.any stale, r.1.any leaks)) = some (true, true) := by
    decide +kernel
  obtain ⟨⟨history, last⟩, hreplay, hboth⟩ := Option.map_eq_some_iff.mp hrun
  obtain ⟨hstale, hleaks⟩ := Prod.mk.inj hboth
  obtain ⟨st, hst, hstale⟩ := List.any_eq_true.mp hstale
  obtain ⟨st', hst', hleaks⟩ := List.any_eq_true.mp hleaks
  refine ⟨history, last, hreplay, ⟨st, hst, ?_⟩, st', hst', ?_⟩
  · obtain ⟨hidle, hstored, hclosed⟩ := of_decide_eq_true hstale
    refine ⟨hidle, fun hagree => ?_⟩
    obtain ⟨fd, hopen, -, hkey⟩ := hagree.stored _ _ hstored
    exact hclosed (sessionKey_injective hkey ▸ hopen)
  · obtain ⟨hstopped, hleaks⟩ := (Bool.and_eq_true ..).mp hleaks
    refine ⟨?_, of_decide_eq_true hleaks⟩
    cases houtput : st'.output with
    | stopped => rfl
    | idle | client session outcome => simp [houtput] at hstopped

theorem sessions_agree_quit : ∃ history last, replay (ascii "QUIT\r\n") = some (history, last) ∧
    ∀ st ∈ history, InOrder listener st := by
  let heard (st : Step ServerState Input Output) : Bool :=
    decide (st.before.todo.head? = none ∨ st.before.todo.head? = some listener ∨
      st.input.received = some (ascii "QUIT\r\n") ∧ st.input.dictRoom = true)
  have hrun : ((replay (ascii "QUIT\r\n")).map fun r => r.1.all heard) = some true := by
    decide +kernel
  obtain ⟨⟨history, last⟩, hreplay, hheard⟩ := Option.map_eq_some_iff.mp hrun
  have hall := List.all_eq_true.mp hheard
  refine ⟨history, last, hreplay, (sessions_agree_iff (ascii "./mail") hreplay).mpr ?_⟩
  rw [Machine.throughout_iff hreplay]
  intro st hst ⟨fd, session, hhead, hclient, _, hforgets⟩
  rcases of_decide_eq_true (hall st hst) with hnone | hlistener | ⟨hreceived, hroom⟩
  · simp [hnone] at hhead
  · rw [hlistener, Option.some_inj] at hhead
    exact hclient hhead.symm
  · rcases hforgets with hgone | hgone | ⟨-, hfull⟩
    · simp [hreceived] at hgone
    · rw [hreceived] at hgone
      revert hgone
      decide
    · simp [hroom] at hfull

end Runs

end SmtpMta.Server.MainLoop
