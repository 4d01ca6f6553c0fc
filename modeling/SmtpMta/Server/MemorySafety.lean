import SmtpMta.Server.Isolation
import SmtpMta.Server.Replies

/-! The server never follows a pointer that leads nowhere, in no run with any number of
clients, as long as no client says anything behind its QUIT: the one way to a released
session is a read that goes on after it. -/
namespace SmtpMta.Server.MemorySafety
open Library.CString Library.FiniteMap Library.Trace Common.ListHead Common.StringUtils Smtp ReadLoop
  Protocol Sharing Release Replies MainLoop Isolation

section Read
variable {mailPath start : Bytes} {c c' : Connection}

def Roomy (c : Connection) : Prop :=
  (∃ d, Represents c.world d) ∧ ∀ a, c.world.mem.oom a = false

theorem Roomy.joinCommand (h : Roomy c) {fin : Nat} (hfin : fin ≤ strlen start) :
    ∃ command w, ReadLoop.joinCommand start fin c.world = some (command, w) ∧
      (∃ d, Represents w d) ∧ ∀ a, w.mem.oom a = false := by
  obtain ⟨⟨d, bs, rs, ls, hfits⟩, hoom⟩ := h
  obtain ⟨command, w, hjoin, -, -, hfits', hkept, -, -⟩ := Reading.Fits.joinCommand hfits (hoom _) hfin
  exact ⟨command, w, hjoin, ⟨d, bs, rs, ls, hfits'⟩, fun a => by rw [hkept.oom]; exact hoom a⟩

theorem processCommand_roomy {w : World} {d : Dialogue} (h : Represents w d)
    (hoom : ∀ a, w.mem.oom a = false) (command : Bytes) (len : Nat) (mailPath : Bytes) :
    ∃ ret w', smtpProcessCommand command len mailPath w = some (ret, w') ∧
      (∃ d', Represents w' d') ∧ ∀ a, w'.mem.oom a = false := by
  obtain ⟨ret, text, d', hanswer⟩ := answer_succeeds command d
  have hfollows := h.processCommand command len mailPath
  rw [hoom, Bool.not_false, hanswer] at hfollows
  obtain ⟨w', hcall, hrep, hkept, -⟩ := hfollows
  exact ⟨ret, w', hcall, ⟨d', hrep⟩, fun a => by rw [hkept.oom]; exact hoom a⟩

theorem Roomy.turn (h : Roomy c) (hscan : (strcrlf start).isSome) :
    ∃ start' c', Release.turn mailPath start c = some (start', c') ∧ Roomy c' := by
  obtain ⟨fin, hfin⟩ := Option.isSome_iff_exists.mp hscan
  have hlen := (strcrlf_eq_some hfin).1
  have hle : fin ≤ strlen start := by omega
  obtain ⟨command, w, hjoin, ⟨d, hrep⟩, hoom⟩ := h.joinCommand hle
  obtain ⟨ret, w', hcall, hrep', hoom'⟩ :=
    processCommand_roomy hrep hoom command serverReplyMaxLen mailPath
  refine ⟨start.drop (fin + 2), ⟨w', c.calls ++ [⟨w, cstr command, w'⟩], c.sent ++ w'.reply,
    ret < 0⟩, ?_, hrep', hoom'⟩
  simp [Release.turn, hfin, hjoin, hcall]

theorem Roomy.bufferLine (h : Roomy c) (start : Bytes) :
    (ReadLoop.bufferLine start c.world).isSome := by
  obtain ⟨⟨d, bs, rs, ls, hfits⟩, hoom⟩ := h
  obtain ⟨w', hline, -⟩ := Reading.Fits.bufferLine hfits (hoom _) start
  simp [hline]

theorem Roomy.commandLoop_isSome_iff (h : Roomy c) (hopen : c.closed = false) {bound : Nat}
    (hbound : strlen start < bound) :
    (commandLoop mailPath bound start c).isSome ↔ EndsRead mailPath start c := by
  induction bound generalizing start c with
  | zero => omega
  | succ bound ih =>
    by_cases hstart : strlen start = 0
    · have hends : EndsRead mailPath start c := by
        intro start' c' hturns hclosed
        cases hturns with
        | refl => simp [hopen] at hclosed
        | step hne => exact absurd hstart hne
      simpa [commandLoop, hstart] using hends
    cases hscan : strcrlf start with
    | none =>
      have hturn : Release.turn mailPath start c = none := by simp [Release.turn, hscan]
      have hline := h.bufferLine start
      have hends := endsRead_of_none hopen hturn
      simp only [commandLoop, hstart, hopen, hscan, if_false, Bool.false_eq_true]
      cases hworld : ReadLoop.bufferLine start c.world with
      | none => simp [hworld] at hline
      | some world => simpa using hends
    | some fin =>
      have hsome : (strcrlf start).isSome := by rw [hscan]; rfl
      obtain ⟨start', c', hturn, hroomy⟩ : ∃ start' c',
        Release.turn mailPath start c = some (start', c') ∧ Roomy c' := h.turn hsome
      obtain ⟨hshorter, -⟩ := turn_shortens hturn
      rw [commandLoop_turn hstart hopen hsome, hturn, Option.bind_some, endsRead_turn hopen hturn]
      dsimp only
      cases hclosed : c'.closed with
      | false => exact ih hroomy hclosed (by omega)
      | true =>
        -- behind QUIT nothing may be left
        rw [endsRead_closed hclosed]
        obtain ⟨n, rfl⟩ : ∃ n, bound = n + 1 := ⟨bound - 1, by omega⟩
        by_cases hempty : strlen start' = 0
        · simp [commandLoop, hempty, looksIn]
        · simp [commandLoop, hempty, hclosed, looksIn, hroomy.2]

theorem Roomy.serveRead_isSome_iff (h : Roomy c) (hopen : c.closed = false) {input : Bytes}
    (hinput : input.length ≤ serverCommandMaxLen) :
    (serveRead mailPath c input).isSome ↔
      EndsRead mailPath (readBuffer input) { c with world := { c.world with reply := [] } } := by
  obtain ⟨⟨d, hrep⟩, hoom⟩ := h
  have hblank : Roomy { c with world := { c.world with reply := [] } } := ⟨⟨d, hrep.reply []⟩, hoom⟩
  have hbound : strlen (readBuffer input) < (readBuffer input).length := by
    have hle : (cstr input).length ≤ input.length := (List.takeWhile_sublist _).length_le
    rw [strlen, readBuffer, cstr_pad input, List.length_append, List.length_replicate]
    omega
  rw [serveRead, if_neg (by simp [hopen])]
  exact hblank.commandLoop_isSome_iff hopen hbound

end Read

section Server
variable {mailPath : Bytes} {serverSocket : Descriptor} {w w' : ServerState} {input : Input}
  {output : Output}

/-- Every session that can be read from is allocated. -/
def Live (serverSocket : Descriptor) (w : ServerState) : Prop :=
  ∀ fd ∈ w.fds, fd ≠ serverSocket → ∀ session, valueAt w.sessions (sessionKey fd) = some session →
    (w.heap session).isSome

theorem Live.step (h : Live serverSocket w) (htidy : Tidy w)
    (htook : Took mailPath serverSocket w input output w') : Live serverSocket w' := by
  cases htook with
  | stopped | selected | declined | refused =>
    intro fd hopen hclient session hfound
    exact h fd hopen hclient session hfound
  | @accepted todo fd c todo_eq socket closed room entered start =>
    intro fd' hopen hclient session hfound
    rcases valueAt_insert_eq_some.mp hfound with ⟨-, heq⟩ | ⟨hkey, hold⟩
    · obtain rfl := Option.some.inj heq
      simp
    · have hne : fd' ≠ fd := fun he => hkey (by rw [he])
      have hlt : session < w.count := htidy.below _ _ hold
      have hopen' : fd' ∈ w.fds := (Finset.mem_insert.mp hopen).resolve_left hne
      dsimp only
      rw [Function.update_of_ne hlt.ne]
      exact h fd' hopen' hclient session hold
  | unknown todo_eq client missing | lost todo_eq client found gone =>
    intro fd' hopen
    exact h fd' (Finset.mem_of_mem_erase hopen)
  | @served todo fd session bytes held c todo_eq client found received nonempty heap_eq serve goes =>
    intro fd' hopen hclient other hfound
    by_cases hother : other = session
    · subst hother
      simp
    · dsimp only
      rw [Function.update_of_ne hother]
      exact h fd' hopen hclient other hfound
  | @quit todo fd session bytes held c todo_eq client found received nonempty heap_eq serve ends =>
    intro fd' hopen hclient other hfound
    have hold := valueAt_dictSet_none hfound
    obtain ⟨hne, hopen'⟩ := Finset.mem_erase.mp hopen
    -- the released session is under no other key
    have hother : other ≠ session := by
      rintro rfl
      exact hne (sessionKey_injective (htidy.unique _ _ _ hold found))
    dsimp only
    rw [Function.update_of_ne hother]
    exact h fd' hopen' hclient other hold

theorem separate_served {lines : Nat → List Addr} (h : Separate w lines) {acting : Nat}
    {held : Session} {fails : Nat → Bool} {bytes : Bytes} {c : Connection}
    (hheld : w.heap acting = some held)
    (hserve : serveRead mailPath ⟨w.world fails held, [], [], false⟩ bytes = some c)
    (hmem : w'.mem = c.world.mem) (hheap : ∀ other, other ≠ acting → w'.heap other = w.heap other)
    (hacting : ∀ s, w'.heap acting = some s → s = c.world.session) :
    ∃ d' ms' n, Owns c.world d' ms' ∧ Confined (w.world fails held) c.world (lines acting) ms' n ∧
      Separate w' (Function.update lines acting ms') := by
  obtain ⟨d, hkeeps⟩ := h.keeps acting held hheld
  have hheld' : Owns (Connection.mk (w.world fails held) [] [] false).world d (lines acting) :=
    hkeeps fails
  obtain ⟨d', ms', n, howns, hconfined⟩ := serveRead_confined hheld' rfl hserve
  refine ⟨d', ms', n, howns, hconfined, h.act hconfined hmem (fun other hne hsome => ?_) hheap
    fun s hs => ⟨d', ?_⟩⟩
  · exact h.disjoint other acting hne hsome (by rw [hheld]; rfl)
  · obtain rfl := hacting s hs
    exact keeps_of_owns howns hmem

theorem exists_separate_served {lines : Nat → List Addr} (h : Separate w lines) {acting : Nat}
    {held : Session} {fails : Nat → Bool} {bytes : Bytes} {c : Connection}
    (hheld : w.heap acting = some held)
    (hserve : serveRead mailPath ⟨w.world fails held, [], [], false⟩ bytes = some c)
    (hmem : w'.mem = c.world.mem) (hheap : ∀ other, other ≠ acting → w'.heap other = w.heap other)
    (hacting : ∀ s, w'.heap acting = some s → s = c.world.session) :
    ∃ lines', Separate w' lines' := by
  obtain ⟨d', ms', n, -, -, hseparate⟩ := separate_served h hheld hserve hmem hheap hacting
  exact ⟨_, hseparate⟩

theorem separate_step {lines : Nat → List Addr} (h : Separate w lines)
    (htook : Took mailPath serverSocket w input output w') : ∃ lines', Separate w' lines' := by
  cases htook with
  | stopped | selected | declined | refused | unknown | lost => exact ⟨lines, h.congr rfl rfl⟩
  | @accepted todo fd c todo_eq socket closed room entered start =>
    obtain ⟨c', ms, hc, howns, hconfined, -⟩ := acceptConnection_owns (w.world input.fails newSession)
    obtain rfl := Option.some.inj (hc.symm.trans start)
    refine ⟨Function.update lines w.count ms, h.act hconfined rfl
      (fun _ _ _ => List.disjoint_nil_right _) (fun other hne => Function.update_of_ne hne ..)
      fun s hs => ⟨fresh .initial, ?_⟩⟩
    obtain rfl : c'.world.session = s := by simpa using hs
    exact keeps_of_owns howns rfl
  | served todo_eq client found received nonempty heap_eq serve goes =>
    exact exists_separate_served h heap_eq serve rfl (fun other hne => Function.update_of_ne hne ..)
      fun s hs => by simpa using hs.symm
  | quit todo_eq client found received nonempty heap_eq serve ends =>
    exact exists_separate_served h heap_eq serve rfl (fun other hne => Function.update_of_ne hne ..)
      fun s hs => by simp at hs

/-- What is true of the server in every run. -/
structure Safe (serverSocket : Descriptor) (w : ServerState) : Prop where
  tidy : Tidy w
  separate : ∃ lines, Separate w lines
  live : Live serverSocket w

theorem safe_start (serverSocket : Descriptor) (mem : Memory) (dirs : Maildirs) :
    Safe serverSocket (startServer serverSocket mem dirs) := by
  refine ⟨tidy_start serverSocket mem dirs, ⟨fun _ => [], ?_, ?_⟩, ?_⟩
  · intro session s hs
    cases hs
  · intro session session' _ hsome
    cases hsome
  · intro fd _ _ session hfound
    simp [startServer] at hfound

theorem Safe.step (h : Safe serverSocket w) (htook : Took mailPath serverSocket w input output w') :
    Safe serverSocket w' := by
  obtain ⟨lines, hseparate⟩ := h.separate
  exact ⟨h.tidy.step htook, separate_step hseparate htook, h.live.step h.tidy htook⟩

def Fed (input : Input) : Prop :=
  input.sessionRoom = true ∧ ∀ k, input.fails k = false

/-- The read that is to be served goes on behind a QUIT. -/
def SpeaksAfterQuit (mailPath : Bytes) (serverSocket : Descriptor) (w : ServerState)
    (input : Input) : Prop :=
  ∃ fd session bytes held, w.todo.head? = some fd ∧ fd ≠ serverSocket ∧
    valueAt w.sessions (sessionKey fd) = some session ∧ input.received = some bytes ∧
    w.heap session = some held ∧
    ¬EndsRead mailPath (readBuffer (bytes.take serverCommandMaxLen))
      ⟨{ w.world input.fails held with reply := [] }, [], [], false⟩

theorem acceptClient_isSome (hfed : Fed input) (w : ServerState) : (acceptClient input w).isSome := by
  unfold acceptClient
  cases input.clientSocket.filter fun fd => fd ∉ w.fds with
  | none => rfl
  | some fd =>
    simp only [hfed.1, Bool.true_eq_false, if_false]
    obtain ⟨c, ms, hc, -⟩ := acceptConnection_owns
      ({ w with count := w.count + 1 }.world input.fails newSession)
    cases hdict : input.dictRoom <;> simp [dictSet, hc]

theorem serveRead_nil_isSome (mailPath : Bytes) (c : Connection) :
    (serveRead mailPath c []).isSome := by
  have hnil : strlen (List.replicate (serverCommandMaxLen + 1) nul) = 0 := by
    simp [strlen, cstr, List.replicate_succ]
  unfold serveRead
  split
  · rfl
  · simp [commandLoop, hnil]

theorem serveClient_isSome_iff {fd : Descriptor} {session : Nat} {held : Session}
    (hfound : valueAt w.sessions (sessionKey fd) = some session)
    (hheld : w.heap session = some held) :
    (serveClient mailPath fd input w).isSome ↔ ∀ bytes, input.received = some bytes →
      (serveRead mailPath ⟨w.world input.fails held, [], [], false⟩
        (bytes.take serverCommandMaxLen)).isSome := by
  unfold serveClient
  simp only [hfound]
  cases hreceived : input.received with
  | none => simp
  | some bytes =>
    cases bytes with
    | nil => simpa using serveRead_nil_isSome mailPath _
    | cons b bytes =>
      simp only [hheld, Option.bind_eq_bind, Option.bind_some, Option.some.injEq, forall_eq']
      cases serveRead mailPath ⟨w.world input.fails held, [], [], false⟩
          ((b :: bytes).take serverCommandMaxLen) with
      | none => simp
      | some c => cases hclosed : c.closed <;> simp [hclosed]

theorem step_isSome_iff (h : Safe serverSocket w) (hfed : Fed input) :
    (step mailPath serverSocket w input).isSome ↔ ¬SpeaksAfterQuit mailPath serverSocket w input := by
  unfold step SpeaksAfterQuit
  cases htodo : w.todo with
  | nil => cases input.ready <;> simp
  | cons fd todo =>
    by_cases hserver : fd = serverSocket
    · have hquiet : (acceptClient input { w with todo }).isSome := acceptClient_isSome hfed _
      simpa [hserver] using hquiet
    simp only [hserver, if_false]
    have hopen : fd ∈ w.fds := h.tidy.opened fd (by simp [htodo])
    cases hfound : valueAt w.sessions (sessionKey fd) with
    | none => simp [serveClient, hfound]
    | some session =>
      obtain ⟨held, hheld⟩ := Option.isSome_iff_exists.mp (h.live fd hopen hserver session hfound)
      obtain ⟨lines, hseparate⟩ := h.separate
      obtain ⟨d, hkeeps⟩ := hseparate.keeps session held hheld
      have hroomy : Roomy ⟨w.world input.fails held, [], [], false⟩ :=
        ⟨⟨d, (hkeeps input.fails).represents⟩, fun a => hfed.2 _⟩
      have hread (bytes : Bytes) : (serveRead mailPath ⟨w.world input.fails held, [], [], false⟩
          (bytes.take serverCommandMaxLen)).isSome ↔ _ :=
        hroomy.serveRead_isSome_iff rfl (List.length_take_le serverCommandMaxLen bytes)
      have hserve : (serveClient mailPath fd input { w with todo }).isSome ↔ _ :=
        serveClient_isSome_iff hfound hheld
      rw [hserve]
      constructor
      · rintro hall ⟨fd', session', bytes, held', hhead, -, hfound', hreceived, hheld', hends⟩
        obtain rfl : fd = fd' := by simpa using hhead
        obtain rfl := Option.some.inj (hfound.symm.trans hfound')
        obtain rfl := Option.some.inj (hheld.symm.trans hheld')
        exact hends ((hread bytes).mp (hall bytes hreceived))
      · intro hquiet bytes hreceived
        refine (hread bytes).mpr ?_
        by_contra hends
        exact hquiet ⟨fd, session, bytes, held, rfl, hserver, hfound, hreceived, hheld, hends⟩

/-- A run of the server, with memory for all it allocates, gets to its end if and only if
no client says anything behind its QUIT in the same read: then no null pointer, no freed line
and no released session is followed in any of its steps. -/
theorem server_runs_iff (mailPath : Bytes) (serverSocket : Descriptor) (mem : Memory)
    (dirs : Maildirs) {inputs : List Input} (hfed : ∀ input ∈ inputs, Fed input) :
    ((serverMachine mailPath serverSocket).exec (startServer serverSocket mem dirs) inputs).isSome ↔
      (serverMachine mailPath serverSocket).Throughout
        (fun w input => ¬SpeaksAfterQuit mailPath serverSocket w input)
        (startServer serverSocket mem dirs) inputs := by
  have hkept : ∀ w input output w', Safe serverSocket w → Fed input →
      (serverMachine mailPath serverSocket).step w input = some (output, w') →
        Safe serverSocket w' := fun _ _ _ _ hsafe _ hstep => hsafe.step (step_took hstep)
  have hinit := safe_start serverSocket mem dirs
  exact @Machine.exec_isSome_iff _ _ _ (serverMachine mailPath serverSocket) _ _ (Safe serverSocket)
    (fun _ _ hsafe hfed => step_isSome_iff hsafe hfed) hkept _ hinit _ hfed

theorem server_runs_iff_visits :
    ((serverMachine (ascii "./mail") listener).exec
      (startServer listener emptyMemory fun _ _ => []) visits).isSome ↔
    (serverMachine (ascii "./mail") listener).Throughout
      (fun w input => ¬SpeaksAfterQuit (ascii "./mail") listener w input)
      (startServer listener emptyMemory fun _ _ => []) visits := by
  refine server_runs_iff (ascii "./mail") listener emptyMemory (fun _ _ => []) fun input hinput => ?_
  simp only [visits, List.mem_cons, List.not_mem_nil, or_false] at hinput
  rcases hinput with rfl | rfl | rfl | rfl | rfl | rfl | rfl | rfl | rfl | rfl | rfl | rfl | rfl <;>
    exact ⟨rfl, fun _ => rfl⟩

end Server

end SmtpMta.Server.MemorySafety
