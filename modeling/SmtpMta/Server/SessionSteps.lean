import SmtpMta.Server.MemorySafety

/-! What a step of the main loop means for each session: the one that is served goes on from
where it was, as on a connection of its own, and the others stay where they are. -/
namespace SmtpMta.Server.SessionSteps
open Library.CString Library.FiniteMap Common.ListHead Smtp ReadLoop Lines Protocol Reading Sharing
  MainLoop Isolation MemorySafety

section Reads

/-- What has been said before, and then this. -/
def after (past s : Served) : Served :=
  ⟨s.dialogue, s.reply, past.answers ++ s.answers, past.sent ++ s.sent, s.closed⟩

/-- The session as the main loop takes it up for a read. -/
def resumed (s : Served) : Served :=
  ⟨s.dialogue, [], [], [], false⟩

theorem obey_after (past s : Served) (piece : Bytes) :
    obey (after past s) piece = (obey s piece).map (after past) := by
  cases hclosed : s.closed with
  | true => simp [obey, after, hclosed]
  | false => simp [obey, after, hclosed, Function.comp_def]

theorem hold_after (past s : Served) (tail : Bytes) :
    hold tail (after past s) = (hold tail s).map (after past) := by
  by_cases htail : tail = []
  · simp [hold, after, htail]
  · cases hclosed : s.closed <;> simp [hold, after, htail, hclosed]

theorem take_after (past s : Served) (pieces : List Bytes) (tail : Bytes) :
    take (pieces, tail) (after past s) = (take (pieces, tail) s).map (after past) := by
  induction pieces generalizing s with
  | nil => exact hold_after past s tail
  | cons piece pieces ih =>
    rw [take_cons, take_cons, obey_after]
    cases obey s piece with
    | none => rfl
    | some s' => exact ih s'

theorem readText_resumed {s : Served} (h : s.closed = false) (text : Bytes) :
    readText s text = (readText (resumed s) text).map (after s) := by
  have hreset : ({ s with reply := [] } : Served) = after s (resumed s) := by
    simp [after, resumed, h]
  rw [readText, readText, if_neg (by simp [h]), if_neg (by simp [resumed]), hreset]
  exact take_after s (resumed s) _ _

theorem Owns.unique {w : World} {d d' : Dialogue} {ms ms' : List Addr} (h : Owns w d ms)
    (h' : Owns w d' ms') : d = d' := by
  have heq := (Owns.contents_eq h).symm.trans (Owns.contents_eq h')
  obtain ⟨held, state, sender, recipients, lines⟩ := d
  obtain ⟨held', state', sender', recipients', lines'⟩ := d'
  simp only [Contents.mk.injEq, Option.some_inj] at heq
  obtain ⟨rfl, -, rfl, rfl, rfl, rfl⟩ := heq
  rfl

end Reads

section Sessions
variable {mailPath : Bytes} {serverSocket : Descriptor} {w w' : ServerState} {input : Input}
  {output : Output} {lines : Nat → List Addr} {session : Nat} {s : Served}

inductive Place (serverSocket : Descriptor) (w : ServerState) (ms : List Addr) (session : Nat)
    (s : Served) : Prop where
  | live {held : Session} : w.heap session = some held → Keeps w held s.dialogue ms →
      s.closed = false → Place serverSocket w ms session s
  | gone : session < w.count → (∀ fd ∈ w.fds, fd ≠ serverSocket →
      valueAt w.sessions (sessionKey fd) ≠ some session) → Place serverSocket w ms session s

/-- The output gives a session its greeting or its answers. -/
def speaksTo (session : Nat) : Output → Bool
  | .client other (.accepted _) => other = session
  | .client other (.served _) => other = session
  | _ => false

theorem Place.frame {ms : List Addr} (h : Place serverSocket w ms session s)
    (hcount : w.count ≤ w'.count) (hheap : w'.heap session = w.heap session)
    (hkeeps : ∀ held d, w.heap session = some held → Keeps w held d ms →
      Keeps w' held d ms)
    (hwatched : ∀ fd ∈ w'.fds, fd ≠ serverSocket → valueAt w'.sessions (sessionKey fd) = some session →
      session < w.count → fd ∈ w.fds ∧ valueAt w.sessions (sessionKey fd) = some session) :
    Place serverSocket w' ms session s := by
  cases h with
  | live hheld hkept hopen => exact .live (hheap.trans hheld) (hkeeps _ _ hheld hkept) hopen
  | gone hlt hunwatched =>
    refine .gone (hlt.trans_le hcount) fun fd hfd hclient hfound => ?_
    obtain ⟨hfd', hfound'⟩ := hwatched fd hfd hclient hfound hlt
    exact hunwatched fd hfd' hclient hfound'

/-- What a step of the main loop does to the sessions. -/
structure Effect (mailPath : Bytes) (serverSocket : Descriptor) (w : ServerState) (input : Input)
    (lines : Nat → List Addr) (output : Output) (w' : ServerState)
    (lines' : Nat → List Addr) : Prop where
  separate : Separate w' lines'
  others : ∀ session s, speaksTo session output = false →
    Place serverSocket w (lines session) session s → Place serverSocket w' (lines' session) session s
  accepted : ∀ session c, output = .client session (.accepted c) →
    acceptConnection (w.world input.fails newSession) = some c ∧
      Place serverSocket w' (lines' session) session greeted
  served : ∀ session c s, output = .client session (.served c) →
    Place serverSocket w (lines session) session s → s.closed = false ∧
      ∃ bytes s', input.received = some bytes ∧ bytes ≠ [] ∧
        readText (resumed s) (cstr (bytes.take serverCommandMaxLen)) = some s' ∧
        List.Forall₂ ShowsCall c.calls s'.answers ∧ c.sent = s'.sent ∧
        Place serverSocket w' (lines' session) session (after s s')

theorem effect_still (hseparate : Separate w lines) (hmem : w'.mem = w.mem) (hheap : w'.heap = w.heap)
    (hcount : w.count ≤ w'.count) (hsessions : w'.sessions = w.sessions) (hfds : ∀ fd ∈ w'.fds, fd ∈ w.fds)
    (hsilent : ∀ session, speaksTo session output = false) :
    Effect mailPath serverSocket w input lines output w' lines where
  separate := hseparate.congr hmem hheap
  others session s _ hplace := hplace.frame hcount (by rw [hheap])
    (fun held d _ hkept => hkept.congr hmem) fun fd hfd _ hfound _ => ⟨hfds fd hfd, hsessions ▸ hfound⟩
  accepted session c houtput := by simpa [houtput, speaksTo] using hsilent session
  served session c s houtput := by simpa [houtput, speaksTo] using hsilent session

theorem effect_accepted {todo : List Descriptor} {fd : Descriptor} {c : Connection}
    (hseparate : Separate w lines) (hclosed : fd ∉ w.fds)
    (hstart : acceptConnection (w.world input.fails newSession) = some c) :
    ∃ lines', Effect mailPath serverSocket w input lines (.client w.count (.accepted c))
      { w with todo, count := w.count + 1, mem := c.world.mem, dirs := c.world.dirs,
               heap := Function.update w.heap w.count (some c.world.session),
               sessions := w.sessions.insert (sessionKey fd) (some w.count),
               fds := insert fd w.fds, nfds := max w.nfds (fd + 1) } lines' := by
  obtain ⟨c', ms, hc, howns, hconfined, -⟩ := acceptConnection_owns (w.world input.fails newSession)
  obtain rfl := Option.some.inj (hc.symm.trans hstart)
  refine ⟨Function.update lines w.count ms, ⟨hseparate.act hconfined rfl
    (fun _ _ _ => List.disjoint_nil_right _) (fun other hne => Function.update_of_ne hne ..)
    fun s hs => ⟨fresh .initial, ?_⟩, fun session s hsilent hplace => ?_, fun session c houtput => ?_,
    fun session c s houtput => ?_⟩⟩
  · obtain rfl : c'.world.session = s := by simpa using hs
    exact keeps_of_owns howns rfl
  · have hne : session ≠ w.count := by
      rintro rfl
      simp [speaksTo] at hsilent
    rw [Function.update_of_ne hne]
    refine hplace.frame (Nat.le_succ _) (Function.update_of_ne hne ..)
      (fun held d _ hkept => hkept.frame hconfined rfl (List.disjoint_nil_right _))
      fun fd' hfd' _ hfound hlt => ?_
    rcases valueAt_insert_eq_some.mp hfound with ⟨-, heq⟩ | ⟨hkey, hold⟩
    · exact absurd (Option.some.inj heq) hne.symm
    · refine ⟨(Finset.mem_insert.mp hfd').resolve_left ?_, hold⟩
      rintro rfl
      exact hkey rfl
  · obtain ⟨rfl, heq⟩ := Output.client.inj houtput
    obtain rfl := Outcome.accepted.inj heq
    refine ⟨hc, .live (Function.update_self ..) ?_ rfl⟩
    rw [Function.update_self]
    exact keeps_of_owns howns rfl
  · obtain ⟨-, heq⟩ := Output.client.inj houtput
    cases heq

theorem effect_served {fd : Descriptor} {todo : List Descriptor} {acting : Nat} {bytes : Bytes}
    {held : Session} {c : Connection} (hseparate : Separate w lines) (htidy : Tidy w)
    (htodo : w.todo = fd :: todo) (hclient : fd ≠ serverSocket) (hquiet : ∀ k, input.fails k = false)
    (hfound : valueAt w.sessions (sessionKey fd) = some acting)
    (hreceived : input.received = some bytes) (hbytes : bytes ≠ [])
    (hheld : w.heap acting = some held)
    (hserve : serveRead mailPath ⟨w.world input.fails held, [], [], false⟩
      (bytes.take serverCommandMaxLen) = some c)
    (hmem : w'.mem = c.world.mem) (hcount : w'.count = w.count)
    (hheap : w'.heap = Function.update w.heap acting
      (if c.closed then none else some c.world.session))
    (hfds : ∀ fd' ∈ w'.fds, fd' ∈ w.fds)
    (hsessions : ∀ key s, valueAt w'.sessions key = some s → valueAt w.sessions key = some s)
    (hends : c.closed = true → w'.fds = w.fds.erase fd) :
    ∃ lines', Effect mailPath serverSocket w input lines (.client acting (.served c)) w' lines' := by
  have hothers : ∀ other, other ≠ acting → w'.heap other = w.heap other := fun other hne => by
    rw [hheap, Function.update_of_ne hne]
  obtain ⟨d', ms', n, howns, hconfined, hseparate'⟩ := separate_served hseparate hheld hserve hmem
    hothers fun s hs => by
      rw [hheap, Function.update_self] at hs
      split at hs
      · cases hs
      · exact (Option.some.inj hs).symm
  refine ⟨Function.update lines acting ms', ⟨hseparate', fun session s hsilent hplace => ?_,
    fun session c houtput => ?_, fun session c' s houtput hplace => ?_⟩⟩
  · have hne : session ≠ acting := by
      rintro rfl
      simp [speaksTo] at hsilent
    rw [Function.update_of_ne hne]
    refine hplace.frame hcount.ge (hothers session hne) (fun s d hs hkept => ?_)
      fun fd' hfd' _ hfound' _ => ⟨hfds fd' hfd', hsessions _ _ hfound'⟩
    exact hkept.frame hconfined hmem
      (hseparate.disjoint session acting hne (by rw [hs]; rfl) (by rw [hheld]; rfl))
  · obtain ⟨-, heq⟩ := Output.client.inj houtput
    cases heq
  · obtain ⟨rfl, heq⟩ := Output.client.inj houtput
    obtain rfl := Outcome.served.inj heq
    have hopened : fd ∈ w.fds := (htidy.next htodo).1
    cases hplace with
    | gone _ hunwatched => exact absurd hfound (hunwatched fd hopened hclient)
    | @live held' hheld' hkept hopen =>
      obtain rfl := Option.some.inj (hheld'.symm.trans hheld)
      have hshows : Shows ⟨w.world input.fails held', [], [], false⟩ (resumed s) :=
        ⟨(hkept input.fails).represents, fun a => hquiet _, rfl, .nil, rfl, rfl⟩
      have hle : (bytes.take serverCommandMaxLen).length ≤ serverCommandMaxLen := by
        rw [List.length_take]
        omega
      have hmatches := hshows.matches_read mailPath hle
      rw [hserve] at hmatches
      cases hread : readText (resumed s) (cstr (bytes.take serverCommandMaxLen)) with
      | none =>
        rw [hread] at hmatches
        cases hmatches
      | some s' =>
        rw [hread] at hmatches
        obtain ⟨c', hc', hshows'⟩ := hmatches
        obtain rfl := Option.some.inj hc'
        obtain ⟨ms'', howns'⟩ : ∃ ms'', Owns c.world s'.dialogue ms'' := by
          obtain ⟨bs, rs, ls, hfits⟩ := hshows'.dialogue
          exact ⟨_, hfits.owns⟩
        obtain rfl := Owns.unique howns howns'
        refine ⟨hopen, bytes, s', hreceived, hbytes, hread, hshows'.calls, hshows'.sent, ?_⟩
        rw [Function.update_self]
        cases hclosed : c.closed with
        | false =>
          refine .live (by simp [hheap, hclosed]) (keeps_of_owns howns hmem) ?_
          exact hshows'.closed.symm.trans hclosed
        | true =>
          refine .gone (hcount ▸ htidy.below _ _ hfound) fun fd' hfd' _ hfound' => ?_
          have hkey := htidy.unique _ _ acting (hsessions _ _ hfound') hfound
          rw [hends hclosed, sessionKey_injective hkey] at hfd'
          exact absurd hfd' (Finset.notMem_erase fd w.fds)

theorem step_effect (hseparate : Separate w lines) (htidy : Tidy w)
    (hquiet : ∀ k, input.fails k = false) (htook : Took mailPath serverSocket w input output w') :
    ∃ lines', Effect mailPath serverSocket w input lines output w' lines' := by
  cases htook with
  | stopped | selected | declined =>
    exact ⟨lines, effect_still hseparate rfl rfl le_rfl rfl (fun _ hfd => hfd) fun _ => rfl⟩
  | refused =>
    exact ⟨lines, effect_still hseparate rfl rfl (Nat.le_succ _) rfl (fun _ hfd => hfd) fun _ => rfl⟩
  | unknown | lost =>
    exact ⟨lines, effect_still hseparate rfl rfl le_rfl rfl
      (fun _ hfd => Finset.mem_of_mem_erase hfd) fun _ => rfl⟩
  | accepted todo_eq socket closed room entered start => exact effect_accepted hseparate closed start
  | served todo_eq client found received nonempty heap_eq serve goes =>
    refine effect_served hseparate htidy todo_eq client hquiet found received nonempty heap_eq serve
      rfl rfl (by simp [goes]) (fun _ hfd => hfd) (fun _ _ hkey => hkey) fun hends => ?_
    rw [goes] at hends
    cases hends
  | quit todo_eq client found received nonempty heap_eq serve ends =>
    exact effect_served hseparate htidy todo_eq client hquiet found received nonempty heap_eq serve
      rfl rfl (by simp [ends]) (fun _ hfd => Finset.mem_of_mem_erase hfd)
      (fun _ _ hkey => valueAt_dictSet_none hkey) fun _ => rfl

end Sessions

end SmtpMta.Server.SessionSteps
