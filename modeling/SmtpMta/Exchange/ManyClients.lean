import SmtpMta.Exchange.TextAgreement
import SmtpMta.Server.SessionSteps

/-! One server and any number of clients, each with two channels to the session that the
server has for it. The calls of all of them come in any order; what each client has to do
with the server is an exchange of the two alone. -/
namespace SmtpMta.Exchange.ManyClients
open Library.CString Library.Crlf Library.FiniteMap Library.Trace Common.ListHead Client.Fsm
  Client.Transfer Client.ReplyFraming Server Server.Smtp Server.ReadLoop Server.Lines Server.Protocol Server.Reading Server.Sharing
  Server.MainLoop Server.Isolation Server.SessionSteps TwoParties

/-- A client and its channels. One that has crashed or left makes no more calls. -/
structure Link where
  client : Conn
  toServer : Bytes
  toClient : Bytes
  stopped : Bool

/-- The links are under the numbers of their sessions. -/
structure Network where
  server : ServerState
  links : Nat → Option Link

/-- A call of a client, or a step of the main loop in which `recv` returns up to so many
bytes of the channel, or tells that the client is gone. -/
inductive Move where
  | client (session : Nat) (action : Action)
  | server (input : Input) (n : Nat)
  | hangUp (input : Input)

inductive Report where
  | client (session : Nat) (action : Action) (seen : Option Seen)
  | server (output : MainLoop.Output)
  | waits

def Link.receives (around : Surroundings) (recv : Option Bytes) (l : Link) : Option (Seen × Link) := do
  let (o, client) ← processConnRead around recv l.client
  let stopped := Ending.stops o.ending
  some (⟨o.event, stopped⟩, { l with client, stopped })

def Link.sends (around : Surroundings) (accepted : Option Nat) (l : Link) : Option (Seen × Link) := do
  let (ending, sent, client) ← processConnWrite around accepted l.client
  let event := if accepted.isNone then some .error else none
  let stopped := Ending.stops ending
  some (⟨event, stopped⟩, { l with client, toServer := l.toServer ++ sent, stopped })

/-- The calls of the client in an exchange. -/
def clientCall (l : Link) : Action → Option (Seen × Link)
  | .clientReads around n =>
      match l.toClient.take (min n bufsize) with
      | [] => some (⟨none, false⟩, l)
      | recv => Link.receives around (some recv) { l with toClient := l.toClient.drop recv.length }
  | .clientLosesConnection around => Link.receives around (some []) l
  | .recvFails around => Link.receives around none l
  | .clientWrites around n => Link.sends around (some n) l
  | .sendFails around => Link.sends around none l
  | .serverReads _ => some (⟨none, false⟩, l)

/-- A crash of a client is not one of the others. -/
def clientMove (session : Nat) (action : Action) (net : Network) : Report × Network :=
  match (net.links session).filter fun l => l.stopped = false with
  | none => (.waits, net)
  | some l =>
    match clientCall l action with
    | none => (.client session action none,
        { net with links := Function.update net.links session (some { l with stopped := true }) })
    | some (seen, l) => (.client session action (some seen),
        { net with links := Function.update net.links session (some l) })

section Server
variable (mailPath : Bytes) (serverSocket : Descriptor) (clients : Nat → Conn)

/-- What the main loop has done to the channels. -/
def relink (received : Bytes) (links : Nat → Option Link) :
    MainLoop.Output → Nat → Option Link
  | .client session (.accepted c) =>
      Function.update links session (some ⟨clients session, [], c.sent, false⟩)
  | .client session (.served c) =>
      Function.update links session ((links session).map fun l =>
        { l with toServer := l.toServer.drop received.length, toClient := l.toClient ++ c.sent })
  | _ => links

def serverMove (input : Input) (net : Network) : Option (Report × Network) := do
  let (output, server) ← step mailPath serverSocket net.server input
  some (.server output,
    { server, links := relink clients (input.received.getD []) net.links output })

/-- The channel that the next turn of the main loop reads from. -/
def Network.next (net : Network) : Option Bytes := do
  let fd ← net.server.todo.head?
  let session ← valueAt net.server.sessions (sessionKey fd)
  let l ← net.links session
  some l.toServer

/-- While a channel is empty, `recv` does not return. -/
def move (net : Network) : Move → Option (Report × Network)
  | .client session action => some (clientMove session action net)
  | .server input n =>
      match net.next.map fun sent => sent.take (min n serverCommandMaxLen) with
      | some [] => some (.waits, net)
      | received => serverMove mailPath serverSocket clients { input with received } net
  | .hangUp input => serverMove mailPath serverSocket clients
      { input with received := input.received.map fun _ => [] } net

def networkMachine : Machine Network Move Report where
  step := move mailPath serverSocket clients
  stop
    | .server .stopped => true
    | _ => false

def startNetwork (mem : Memory) (dirs : Maildirs) : Network :=
  ⟨startServer serverSocket mem dirs, fun _ => none⟩

end Server

def callsIn (session : Nat) (st : Step Network Move Report) : List Call :=
  match st.output with
  | .server (.client other (.served c)) => if other = session then c.calls else []
  | _ => []

def callsOf (session : Nat) (history : List (Step Network Move Report)) : List Call :=
  history.flatMap (callsIn session)

def byClient : Action → Bool
  | .serverReads _ => false
  | _ => true

def clientSide (st : Step Parties Action Seen) : Option (Conn × Action × Seen) :=
  if byClient st.input then some (st.before.client, st.input, st.output) else none

def clientIn (session : Nat) (st : Step Network Move Report) : Option (Conn × Action × Seen) :=
  match st.output with
  | .client other action (some seen) =>
    if other = session ∧ byClient action then
      (st.before.links session).map fun l => (l.client, action, seen)
    else none
  | _ => none

/-- There is memory for the lines and commands of the server. -/
def Quiet : Move → Prop
  | .client _ _ => True
  | .server input _ => ∀ k, input.fails k = false
  | .hangUp input => ∀ k, input.fails k = false

def Link.parties (l : Link) (server : Connection) : Parties :=
  ⟨l.client, server, l.toServer, l.toClient⟩

section Exchanges
variable (mailPath : Bytes) (serverSocket : Descriptor) (clients : Nat → Conn)

/-- How a link has come to where it is, in an exchange of its two sides alone. -/
structure Follows (session : Nat) (ms : List Addr) (history : List (Step Network Move Report))
    (w : ServerState) (past : List (Step Parties Action Seen)) (server : Connection) (s : Served) :
    Prop where
  shows : Shows server s
  calls : List.Forall₂ ShowsCall (callsOf session history) s.answers
  place : Place serverSocket w ms session s
  goes : ∀ st ∈ past, st.output.stopped = false
  client : past.filterMap clientSide = history.filterMap (clientIn session)

/-- What a link has to do with the server is an exchange. -/
def Exchanges (session : Nat) (ms : List Addr) (history : List (Step Network Move Report))
    (w : ServerState) (l : Link) : Prop :=
  ∃ world start actions past server s, (∀ a, world.mem.oom a = false) ∧
    acceptConnection world = some start ∧
    (exchangeMachine mailPath).exec (accepted (clients session) start) actions =
      some (past, l.parties server) ∧ Follows serverSocket session ms history w past server s

structure Paired (history : List (Step Network Move Report)) (net : Network) : Prop where
  tidy : Tidy net.server
  unlinked : ∀ session, net.server.count ≤ session → net.links session = none ∧
    callsOf session history = [] ∧ history.filterMap (clientIn session) = []
  exchanges : ∃ lines, Separate net.server lines ∧ ∀ session l, net.links session = some l →
    l.stopped = false → Exchanges mailPath serverSocket clients session (lines session) history
      net.server l

variable {mailPath serverSocket clients} {history : List (Step Network Move Report)}
  {net net' : Network} {session : Nat} {l l' : Link} {ms ms' : List Addr} {w w' : ServerState}

theorem callsOf_append (st : Step Network Move Report) :
    callsOf session (history ++ [st]) = callsOf session history ++ callsIn session st := by
  simp [callsOf]

theorem Follows.extend {past now : List (Step Parties Action Seen)} {server server' : Connection}
    {s s' : Served} (h : Follows serverSocket session ms history w past server s)
    {st : Step Network Move Report} (hshows : Shows server' s') {answers : List Answered}
    (hanswers : s'.answers = s.answers ++ answers)
    (hcalls : List.Forall₂ ShowsCall (callsIn session st) answers)
    (hplace : Place serverSocket w' ms' session s') (hgoes : ∀ st' ∈ now, st'.output.stopped = false)
    (hclient : now.filterMap clientSide = (clientIn session st).toList) :
    Follows serverSocket session ms' (history ++ [st]) w' (past ++ now) server' s' where
  shows := hshows
  calls := by
    rw [callsOf_append, hanswers]
    exact List.rel_append h.calls hcalls
  place := hplace
  goes := List.forall_mem_append.mpr ⟨h.goes, hgoes⟩
  client := by
    rw [List.filterMap_append, List.filterMap_append, h.client, hclient]
    cases hst : clientIn session st <;> simp [hst]

theorem Exchanges.silent (h : Exchanges mailPath serverSocket clients session ms history w l)
    {st : Step Network Move Report} (hcalls : callsIn session st = [])
    (hclient : clientIn session st = none)
    (hplace : ∀ s, Place serverSocket w ms session s → Place serverSocket w' ms' session s) :
    Exchanges mailPath serverSocket clients session ms' (history ++ [st]) w' l := by
  obtain ⟨world, start, actions, past, server, s, hoom, haccept, hexec, hfollows⟩ := h
  refine ⟨world, start, actions, past ++ [], server, s, hoom, haccept, by rwa [List.append_nil], ?_⟩
  refine hfollows.extend hfollows.shows (List.append_nil _).symm ?_ (hplace s hfollows.place) (by simp)
    (by simp [hclient])
  rw [hcalls]
  exact .nil

theorem clientCall_exchange (mailPath : Bytes) (server : Connection) {action : Action} {seen : Seen}
    (hstopped : l.stopped = false) (h : clientCall l action = some (seen, l')) :
    l'.stopped = seen.stopped ∧ (byClient action = false ∧ l' = l ∨ byClient action = true ∧
      exchangeStep mailPath (l.parties server) action = some (seen, l'.parties server)) := by
  have hreceives {around : Surroundings} {recv : Option Bytes} {l : Link}
      (h : Link.receives around recv l = some (seen, l')) : l'.stopped = seen.stopped ∧
        clientReceives around recv (l.parties server) = some (seen, l'.parties server) := by
    obtain ⟨⟨o, client⟩, hread, h⟩ := Option.bind_eq_some_iff.mp h
    obtain ⟨rfl, rfl⟩ := Prod.mk.inj (Option.some.inj h)
    exact ⟨rfl, by simp [clientReceives, Link.parties, hread]⟩
  have hsends {around : Surroundings} {accepted : Option Nat}
      (h : Link.sends around accepted l = some (seen, l')) : l'.stopped = seen.stopped ∧
        clientSends around accepted (l.parties server) = some (seen, l'.parties server) := by
    obtain ⟨⟨ending, sent, client⟩, hwrite, h⟩ := Option.bind_eq_some_iff.mp h
    obtain ⟨rfl, rfl⟩ := Prod.mk.inj (Option.some.inj h)
    exact ⟨rfl, by simp [clientSends, Link.parties, hwrite]⟩
  cases action with
  | clientReads around n =>
    simp only [clientCall] at h
    split at h
    · rename_i hnothing
      obtain ⟨rfl, rfl⟩ := Prod.mk.inj (Option.some.inj h)
      exact ⟨hstopped, .inr ⟨rfl, by simp [exchangeStep, Link.parties, hnothing]⟩⟩
    · rename_i hsome
      obtain ⟨hstops, hstep⟩ := hreceives h
      refine ⟨hstops, .inr ⟨rfl, ?_⟩⟩
      simpa [exchangeStep, Link.parties, hsome] using hstep
  | clientLosesConnection around => exact (hreceives h).imp_right fun hstep => .inr ⟨rfl, hstep⟩
  | recvFails around => exact (hreceives h).imp_right fun hstep => .inr ⟨rfl, hstep⟩
  | clientWrites around n => exact (hsends h).imp_right fun hstep => .inr ⟨rfl, hstep⟩
  | sendFails around => exact (hsends h).imp_right fun hstep => .inr ⟨rfl, hstep⟩
  | serverReads n =>
    obtain ⟨rfl, rfl⟩ := Prod.mk.inj (Option.some.inj h)
    exact ⟨hstopped, .inl ⟨rfl, rfl⟩⟩

theorem Exchanges.call (h : Exchanges mailPath serverSocket clients session ms history w l)
    {action : Action} {seen : Seen} (hstopped : l.stopped = false)
    (hcall : clientCall l action = some (seen, l')) (hgoes : l'.stopped = false)
    {st : Step Network Move Report} (houtput : st.output = .client session action (some seen))
    (hbefore : st.before.links session = some l) :
    Exchanges mailPath serverSocket clients session ms (history ++ [st]) w l' := by
  have hcalls : callsIn session st = [] := by simp [callsIn, houtput]
  obtain ⟨world, start, actions, past, server, s, hoom, haccept, hexec, hfollows⟩ := id h
  obtain ⟨hstops, ⟨hserver, rfl⟩ | ⟨hclient, hstep⟩⟩ :=
    clientCall_exchange mailPath server hstopped hcall
  · exact h.silent hcalls (by simp [clientIn, houtput, hserver]) fun _ hplace => hplace
  rw [hstops] at hgoes
  let now : Step Parties Action Seen := ⟨l.parties server, action, seen, l'.parties server⟩
  have hlast : (exchangeMachine mailPath).exec (l.parties server) [action] =
      some ([now], l'.parties server) := Machine.exec_goes hstep hgoes rfl
  refine ⟨world, start, actions ++ [action], past ++ [now], server, s, hoom, haccept,
    Machine.exec_append hexec hfollows.goes hlast, hfollows.extend hfollows.shows
      (List.append_nil _).symm ?_ hfollows.place (by simpa [now] using hgoes) ?_⟩
  · rw [hcalls]
    exact .nil
  · simp [now, clientSide, clientIn, houtput, hbefore, hclient, Link.parties]

theorem Exchanges.read (h : Exchanges mailPath serverSocket clients session ms history w l)
    {st : Step Network Move Report} {c : Connection}
    (houtput : st.output = .server (.client session (.served c))) {bytes : Bytes} {n : Nat}
    (hbytes : l.toServer.take (min n serverCommandMaxLen) = bytes)
    (hserved : ∀ s, Place serverSocket w ms session s → s.closed = false ∧ bytes ≠ [] ∧ ∃ s',
      readText (resumed s) (cstr bytes) = some s' ∧ List.Forall₂ ShowsCall c.calls s'.answers ∧
      c.sent = s'.sent ∧ Place serverSocket w' ms' session (after s s')) :
    Exchanges mailPath serverSocket clients session ms' (history ++ [st]) w'
      { l with toServer := l.toServer.drop bytes.length, toClient := l.toClient ++ c.sent } := by
  obtain ⟨world, start, actions, past, server, s, hoom, haccept, hexec, hfollows⟩ := h
  obtain ⟨hopen, hne, s', hread, hcalls, hsent, hplace⟩ := hserved s hfollows.place
  have hle : bytes.length ≤ serverCommandMaxLen := by
    rw [← hbytes, List.length_take]
    omega
  have hmatches := hfollows.shows.matches_read mailPath hle
  rw [readText_resumed hopen, hread, Option.map_some] at hmatches
  obtain ⟨server', hserver, hshows⟩ := hmatches
  have hmore : server'.sent.drop server.sent.length = c.sent := by
    rw [hshows.sent, hfollows.shows.sent, hsent, after, List.drop_left]
  generalize hl' : ({ l with
    toServer := l.toServer.drop bytes.length, toClient := l.toClient ++ c.sent } : Link) = l'
  have hstep : exchangeStep mailPath (l.parties server) (.serverReads n) =
      some (⟨none, false⟩, l'.parties server') := by
    subst hl'
    cases bytes with
    | nil => exact absurd rfl hne
    | cons b bytes => simp [exchangeStep, Link.parties, hbytes, hserver, hmore]
  let now : Step Parties Action Seen :=
    ⟨l.parties server, .serverReads n, ⟨none, false⟩, l'.parties server'⟩
  have hlast : (exchangeMachine mailPath).exec (l.parties server) [.serverReads n] =
      some ([now], l'.parties server') := Machine.exec_goes hstep rfl rfl
  refine ⟨world, start, actions ++ [.serverReads n], past ++ [now], server', after s s', hoom, haccept,
    Machine.exec_append hexec hfollows.goes hlast, hfollows.extend hshows rfl ?_ hplace (by simp [now])
      (by simp [now, clientSide, byClient, clientIn, houtput])⟩
  have hcalled : callsIn session st = c.calls := by simp [callsIn, houtput]
  rwa [hcalled]

theorem took_below {input : Input} {session : Nat} {outcome : Outcome Connection} (htidy : Tidy w)
    (h : Took mailPath serverSocket w input (.client session outcome) w') : session < w'.count := by
  cases h with
  | refused | accepted => exact Nat.lt_succ_self _
  | lost _ _ found => exact htidy.below _ _ found
  | served _ _ found => exact htidy.below _ _ found
  | quit _ _ found => exact htidy.below _ _ found

theorem took_count {input : Input} {output : MainLoop.Output}
    (h : Took mailPath serverSocket w input output w') : w.count ≤ w'.count := by
  cases h with
  | refused | accepted => exact Nat.le_succ _
  | _ => exact le_rfl

theorem took_accepted {input : Input} {session : Nat} {c : Connection}
    (h : Took mailPath serverSocket w input (.client session (.accepted c)) w') :
    session = w.count := by
  cases h
  rfl

theorem took_served {input : Input} {session : Nat} {c : Connection}
    (h : Took mailPath serverSocket w input (.client session (.served c)) w') :
    ∃ fd todo bytes, w.todo = fd :: todo ∧ valueAt w.sessions (sessionKey fd) = some session ∧
      input.received = some bytes ∧ bytes ≠ [] := by
  cases h with
  | served todo_eq _ found received nonempty => exact ⟨_, _, _, todo_eq, found, received, nonempty⟩
  | quit todo_eq _ found received nonempty => exact ⟨_, _, _, todo_eq, found, received, nonempty⟩

theorem speaksTo_iff {output : MainLoop.Output} : speaksTo session output = true ↔
    (∃ c, output = .client session (.accepted c)) ∨ ∃ c, output = .client session (.served c) := by
  unfold speaksTo
  split
  · simp [eq_comm]
  · simp [eq_comm]
  · rename_i haccepted hserved
    simp only [Bool.false_eq_true, false_iff, not_or, not_exists]
    exact ⟨haccepted session, hserved session⟩

theorem relink_silent {output : MainLoop.Output} (h : speaksTo session output = false)
    (received : Bytes) (links : Nat → Option Link) :
    relink clients received links output session = links session := by
  unfold relink
  split
  · exact Function.update_of_ne (by rintro rfl; simp [speaksTo] at h) ..
  · exact Function.update_of_ne (by rintro rfl; simp [speaksTo] at h) ..
  · rfl

/-- What the main loop reads, it reads from the channel of its turn. -/
def ReadsChannel (net : Network) (input : Input) : Prop :=
  ∀ bytes, input.received = some bytes → bytes ≠ [] →
    ∃ sent n, net.next = some sent ∧ sent.take (min n serverCommandMaxLen) = bytes

theorem move_cases {mv : Move} {report : Report}
    (h : move mailPath serverSocket clients net mv = some (report, net')) :
    (∃ session action, mv = .client session action ∧ clientMove session action net = (report, net')) ∨
      (report = .waits ∧ net' = net) ∨
      ∃ input output server, (Quiet mv → ∀ k, input.fails k = false) ∧ ReadsChannel net input ∧
        step mailPath serverSocket net.server input = some (output, server) ∧
        report = .server output ∧
        net' = ⟨server, relink clients (input.received.getD []) net.links output⟩ := by
  have hstep {input : Input}
      (h : serverMove mailPath serverSocket clients input net = some (report, net'))
      (hquiet : Quiet mv → ∀ k, input.fails k = false) (hreads : ReadsChannel net input) :
      ∃ input output server, (Quiet mv → ∀ k, input.fails k = false) ∧ ReadsChannel net input ∧
        step mailPath serverSocket net.server input = some (output, server) ∧
        report = .server output ∧
        net' = ⟨server, relink clients (input.received.getD []) net.links output⟩ := by
    obtain ⟨⟨output, server⟩, hserver, h⟩ := Option.bind_eq_some_iff.mp h
    obtain ⟨rfl, rfl⟩ := Prod.mk.inj (Option.some.inj h)
    exact ⟨input, output, server, hquiet, hreads, hserver, rfl, rfl⟩
  cases mv with
  | client session action => exact .inl ⟨session, action, rfl, Option.some.inj h⟩
  | server input n =>
    simp only [move] at h
    split at h
    · obtain ⟨rfl, rfl⟩ := Prod.mk.inj (Option.some.inj h)
      exact .inr (.inl ⟨rfl, rfl⟩)
    · refine .inr (.inr (hstep h (fun hquiet => hquiet) fun bytes hreceived _ => ?_))
      obtain ⟨sent, hsent, htake⟩ := Option.map_eq_some_iff.mp hreceived
      exact ⟨sent, n, hsent, htake⟩
  | hangUp input =>
    refine .inr (.inr (hstep h (fun hquiet => hquiet) fun bytes hreceived hne => ?_))
    obtain ⟨_, -, hnil⟩ := Option.map_eq_some_iff.mp hreceived
    exact absurd hnil.symm hne

theorem clientMove_cases {session : Nat} {action : Action} {report : Report}
    (h : clientMove session action net = (report, net')) :
    (report = .waits ∧ net' = net) ∨ ∃ l l' seen, net.links session = some l ∧ l.stopped = false ∧
      report = .client session action seen ∧
      net' = { net with links := Function.update net.links session (some l') } ∧
      (l'.stopped = false → ∃ seen', seen = some seen' ∧ clientCall l action = some (seen', l')) := by
  unfold clientMove at h
  split at h
  · exact .inl ((Prod.mk.inj h).imp Eq.symm Eq.symm)
  · rename_i l hlink
    obtain ⟨hlink, hstopped⟩ := Option.filter_eq_some_iff.mp hlink
    refine .inr ⟨l, ?_⟩
    split at h
    · obtain ⟨rfl, rfl⟩ := Prod.mk.inj h
      exact ⟨_, _, hlink, by simpa using hstopped, rfl, rfl, by simp⟩
    · rename_i seen l' hcall
      obtain ⟨rfl, rfl⟩ := Prod.mk.inj h
      exact ⟨l', some seen, hlink, by simpa using hstopped, rfl, rfl, fun _ => ⟨seen, rfl, hcall⟩⟩

theorem Paired.unlinked_step (h : Paired mailPath serverSocket clients history net)
    {mv : Move} {report : Report} (hcount : net.server.count ≤ net'.server.count)
    (hlinks : ∀ session, net'.server.count ≤ session → net.links session = none →
      net'.links session = none ∧ callsIn session ⟨net, mv, report, net'⟩ = []) (session : Nat)
    (hle : net'.server.count ≤ session) : net'.links session = none ∧
      callsOf session (history ++ [⟨net, mv, report, net'⟩]) = [] ∧
      List.filterMap (clientIn session) (history ++ [⟨net, mv, report, net'⟩]) = [] := by
  obtain ⟨hnone, hcalls, hpast⟩ := h.unlinked session (hcount.trans hle)
  obtain ⟨hnone', hcalls'⟩ := hlinks session hle hnone
  have hnow : clientIn session ⟨net, mv, report, net'⟩ = none := by
    unfold clientIn
    split
    · simp [hnone]
    · rfl
  refine ⟨hnone', by rw [callsOf_append, hcalls, hcalls', List.append_nil], ?_⟩
  rw [List.filterMap_append, hpast, List.nil_append, List.filterMap_cons, hnow]
  rfl

theorem Paired.waits (h : Paired mailPath serverSocket clients history net) (mv : Move) :
    Paired mailPath serverSocket clients (history ++ [⟨net, mv, .waits, net⟩]) net := by
  obtain ⟨lines, hseparate, hexchanges⟩ := h.exchanges
  refine ⟨h.tidy, h.unlinked_step le_rfl fun _ _ hnone => ⟨hnone, rfl⟩, lines, hseparate,
    fun session l hlink hstopped => ?_⟩
  exact (hexchanges session l hlink hstopped).silent rfl rfl fun _ hplace => hplace

theorem Paired.client (h : Paired mailPath serverSocket clients history net) {session : Nat}
    {action : Action} {report : Report} (hmove : clientMove session action net = (report, net')) :
    Paired mailPath serverSocket clients
      (history ++ [⟨net, .client session action, report, net'⟩]) net' := by
  rcases clientMove_cases hmove with ⟨rfl, rfl⟩ | ⟨l, l', seen, hlink, hstopped, rfl, rfl, hcall⟩
  · exact h.waits _
  obtain ⟨lines, hseparate, hexchanges⟩ := h.exchanges
  refine ⟨h.tidy, h.unlinked_step le_rfl fun other hle hnone => ⟨?_, rfl⟩, lines, hseparate,
    fun other l₁ hother hgoes => ?_⟩
  · have hne : other ≠ session := by
      rintro rfl
      rw [hlink] at hnone
      cases hnone
    exact (Function.update_of_ne hne ..).trans hnone
  · by_cases hown : other = session
    · subst hown
      obtain rfl : l' = l₁ := by simpa using hother
      obtain ⟨seen', rfl, hcalled⟩ := hcall hgoes
      exact (hexchanges other l hlink hstopped).call hstopped hcalled hgoes rfl hlink
    · dsimp only at hother
      rw [Function.update_of_ne hown] at hother
      refine (hexchanges other l₁ hother hgoes).silent rfl ?_ fun _ hplace => hplace
      cases seen <;> simp [clientIn, Ne.symm hown]

theorem Paired.server (h : Paired mailPath serverSocket clients history net) {mv : Move}
    {input : Input} {output : MainLoop.Output} {w' : ServerState}
    (hquiet : ∀ k, input.fails k = false) (hreads : ReadsChannel net input)
    (hstep : step mailPath serverSocket net.server input = some (output, w')) :
    Paired mailPath serverSocket clients (history ++ [⟨net, mv, .server output,
      ⟨w', relink clients (input.received.getD []) net.links output⟩⟩])
      ⟨w', relink clients (input.received.getD []) net.links output⟩ := by
  have htook := step_took hstep
  obtain ⟨lines, hseparate, hexchanges⟩ := h.exchanges
  obtain ⟨lines', heffect⟩ := step_effect hseparate h.tidy hquiet htook
  have hlate {session : Nat} (hle : w'.count ≤ session) : speaksTo session output = false := by
    rw [← Bool.not_eq_true, speaksTo_iff]
    rintro (⟨c, rfl⟩ | ⟨c, rfl⟩)
    · exact Nat.not_lt.mpr hle (took_below h.tidy htook)
    · exact Nat.not_lt.mpr hle (took_below h.tidy htook)
  have hsilent {session : Nat} (hno : speaksTo session output = false) :
      callsIn session ⟨net, mv, .server output,
        ⟨w', relink clients (input.received.getD []) net.links output⟩⟩ = [] := by
    simp only [callsIn]
    split
    · rename_i other c houtput
      obtain rfl := Report.server.inj houtput
      exact if_neg (by rintro rfl; simp [speaksTo] at hno)
    · rfl
  refine ⟨h.tidy.step htook, h.unlinked_step (took_count htook) fun session hle hnone =>
    ⟨(relink_silent (hlate hle) ..).trans hnone, hsilent (hlate hle)⟩, lines', heffect.separate,
    fun session l hlink hstopped => ?_⟩
  dsimp only at hlink ⊢
  cases hspeaks : speaksTo session output with
  | false =>
    rw [relink_silent hspeaks] at hlink
    exact (hexchanges session l hlink hstopped).silent (hsilent hspeaks) rfl
      fun s hplace => heffect.others session s hspeaks hplace
  | true =>
    rcases speaksTo_iff.mp hspeaks with ⟨c, rfl⟩ | ⟨c, rfl⟩
    · -- the exchange starts here
      obtain ⟨haccept, hplace⟩ := heffect.accepted session c rfl
      obtain rfl : ⟨clients session, [], c.sent, false⟩ = l := by simpa [relink] using hlink
      have hoom : ∀ a, (net.server.world input.fails newSession).mem.oom a = false := fun a => hquiet _
      obtain ⟨server, hserver, hshows⟩ := acceptConnection_shows hoom
      obtain rfl := Option.some.inj (haccept.symm.trans hserver)
      obtain ⟨hnone, hcalls, hpast⟩ := h.unlinked session (took_accepted htook).ge
      refine ⟨_, c, [], [], c, greeted, hoom, haccept, rfl, hshows, ?_, hplace, by simp, ?_⟩
      · have hnothing : callsIn session ⟨net, mv, .server (.client session (.accepted c)),
            ⟨w', relink clients (input.received.getD []) net.links
              (.client session (.accepted c))⟩⟩ = [] := rfl
        rw [callsOf_append, hcalls, hnothing]
        exact .nil
      · rw [List.filterMap_append, hpast]
        rfl
    · obtain ⟨fd, todo, bytes, htodo, hfound, hreceived, hne⟩ := took_served htook
      obtain ⟨sent, n, hnext, htake⟩ := hreads bytes hreceived hne
      cases hold : net.links session with
      | none => simp [relink, hold] at hlink
      | some l₀ =>
        obtain rfl : sent = l₀.toServer := by
          simpa [Network.next, htodo, hfound, hold] using hnext.symm
        have hle : bytes.length ≤ serverCommandMaxLen := by
          rw [← htake, List.length_take]
          omega
        obtain rfl : { l₀ with toServer := l₀.toServer.drop bytes.length,
                               toClient := l₀.toClient ++ c.sent } = l := by
          simpa [relink, hold, hreceived] using hlink
        refine (hexchanges session l₀ hold hstopped).read rfl htake fun s hplace => ?_
        obtain ⟨hopen, bytes', s', hreceived', -, hread, hcalls, hsent, hplace'⟩ :=
          heffect.served session c s rfl hplace
        obtain rfl := Option.some.inj (hreceived.symm.trans hreceived')
        rw [List.take_of_length_le hle] at hread
        exact ⟨hopen, hne, s', hread, hcalls, hsent, hplace'⟩

theorem Paired.step (h : Paired mailPath serverSocket clients history net) {mv : Move}
    {report : Report} (hquiet : Quiet mv)
    (hstep : move mailPath serverSocket clients net mv = some (report, net')) :
    Paired mailPath serverSocket clients (history ++ [⟨net, mv, report, net'⟩]) net' := by
  rcases move_cases hstep with ⟨session, action, rfl, hmove⟩ | ⟨rfl, rfl⟩ |
    ⟨input, output, w', hfails, hreads, hserver, rfl, rfl⟩
  · exact h.client hmove
  · exact h.waits mv
  · exact h.server (hfails hquiet) hreads hserver

theorem paired_start (mem : Memory) (dirs : Maildirs) :
    Paired mailPath serverSocket clients [] (startNetwork serverSocket mem dirs) := by
  refine ⟨tidy_start serverSocket mem dirs, fun session _ => ⟨rfl, rfl, rfl⟩, fun _ => [],
    ⟨?_, ?_⟩, fun session l hlink => ?_⟩
  · intro session s hs
    cases hs
  · intro session session' _ hsome
    cases hsome
  · cases hlink

theorem network_paired {mem : Memory} {dirs : Maildirs} {moves : List Move} {last : Network}
    (hquiet : ∀ mv ∈ moves, Quiet mv)
    (hexec : (networkMachine mailPath serverSocket clients).exec (startNetwork serverSocket mem dirs)
      moves = some (history, last)) : Paired mailPath serverSocket clients history last := by
  let Inv (history : List (Step Network Move Report)) (net : Network) : Prop :=
    (∀ st ∈ history, st.input ∈ moves) → Paired mailPath serverSocket clients history net
  have hinit : Inv [] (startNetwork serverSocket mem dirs) := fun _ => paired_start mem dirs
  have hstep : ∀ history net mv report net', Inv history net →
      (networkMachine mailPath serverSocket clients).step net mv = some (report, net') →
        Inv (history ++ [⟨net, mv, report, net'⟩]) net' := by
    intro history net mv report net' hinv hstep hall
    exact (hinv fun st hst => hall st (by simp [hst])).step
      (hquiet mv (hall ⟨net, mv, report, net'⟩ (by simp))) hstep
  obtain ⟨hlast, -⟩ := Machine.exec_steps hstep hinit hexec
  exact hlast fun st hmem => (Machine.exec_inputs hexec).1.subset (List.mem_map_of_mem hmem)

/-- The two calls do the same in the same dialogue. -/
def SameCall (call call' : Call) : Prop :=
  ∃ a, ShowsCall call a ∧ ShowsCall call' a

theorem sameCalls {calls calls' : List Call} {answers : List Answered}
    (h : List.Forall₂ ShowsCall calls answers) (h' : List.Forall₂ ShowsCall calls' answers) :
    List.Forall₂ SameCall calls calls' := by
  induction h generalizing calls' with
  | nil =>
    obtain rfl := List.forall₂_nil_right_iff.mp h'
    exact .nil
  | @cons call a calls answers hcall _ ih =>
    obtain ⟨call', rest, hcall', hrest, rfl⟩ := List.forall₂_cons_right_iff.mp h'
    exact .cons ⟨a, hcall, hcall'⟩ (ih hrest)

/-- However the calls of the clients and the steps of the server come after each other, what a
client that is still there has done is its part of an exchange with the server alone, and in
both the server has been given the same commands and has answered them the same. -/
theorem network_projects (mailPath : Bytes) (serverSocket : Descriptor) (clients : Nat → Conn)
    {mem : Memory} {dirs : Maildirs} {moves : List Move} {last : Network}
    (hquiet : ∀ mv ∈ moves, Quiet mv)
    (hexec : (networkMachine mailPath serverSocket clients).exec (startNetwork serverSocket mem dirs)
      moves = some (history, last)) (session : Nat) (l : Link)
    (hlink : last.links session = some l) (hstopped : l.stopped = false) :
    ∃ world start actions past server, (∀ a, world.mem.oom a = false) ∧
      acceptConnection world = some start ∧
      (exchangeMachine mailPath).exec (accepted (clients session) start) actions =
        some (past, l.parties server) ∧
      past.filterMap clientSide = history.filterMap (clientIn session) ∧
      List.Forall₂ SameCall server.calls (callsOf session history) := by
  obtain ⟨lines, -, hexchanges⟩ := (network_paired hquiet hexec).exchanges
  obtain ⟨world, start, actions, past, server, s, hoom, haccept, hrun, hfollows⟩ :=
    hexchanges session l hlink hstopped
  exact ⟨world, start, actions, past, server, hoom, haccept, hrun, hfollows.client,
    sameCalls hfollows.shows.calls hfollows.calls⟩

end Exchanges

section Crossing

def roundOf (session : Nat) (fd : Descriptor) : List Move :=
  [.client session (.clientWrites calm 100), .server { quiet with ready := some [fd] } 0,
   .server quiet 100, .client session (.clientReads calm 100)]

theorem newcomer_bound : 5 < fdSetsize := by
  decide

def crossing : List Move :=
  let other : Descriptor := ⟨5, newcomer_bound⟩
  [.server { quiet with ready := some [listener] } 0,
   .server { quiet with clientSocket := some caller } 0,
   .server { quiet with ready := some [listener] } 0,
   .server { quiet with clientSocket := some other } 0,
   .client 0 (.clientReads calm 100), .client 1 (.clientReads calm 100)] ++
    (List.replicate 6 (roundOf 0 caller ++ roundOf 1 other)).flatten

theorem crossing_all {P : Move → Prop}
    (hserver : ∀ input n, (∀ k, input.fails k = false) → P (.server input n))
    (hreads : ∀ session n, P (.client session (.clientReads calm n)))
    (hwrites : ∀ session n, P (.client session (.clientWrites calm n))) : ∀ mv ∈ crossing, P mv := by
  have hround (session : Nat) (fd : Descriptor) : ∀ mv ∈ roundOf session fd, P mv := by
    simp only [roundOf, List.forall_mem_cons, List.not_mem_nil, false_implies, implies_true, and_true]
    exact ⟨hwrites _ _, hserver _ _ fun _ => rfl, hserver _ _ fun _ => rfl, hreads _ _⟩
  refine List.forall_mem_append.mpr ⟨?_, fun mv hmem => ?_⟩
  · simp only [List.forall_mem_cons, List.not_mem_nil, false_implies, implies_true, and_true]
    exact ⟨hserver _ _ fun _ => rfl, hserver _ _ fun _ => rfl, hserver _ _ fun _ => rfl,
      hserver _ _ fun _ => rfl, hreads _ _, hreads _ _⟩
  · obtain ⟨rounds, hrounds, hmv⟩ := List.mem_flatten.mp hmem
    obtain rfl := List.eq_of_mem_replicate hrounds
    rcases List.mem_append.mp hmv with hmv | hmv
    · exact hround _ _ mv hmv
    · exact hround _ _ mv hmv

theorem crossing_quiet : ∀ mv ∈ crossing, Quiet mv :=
  crossing_all (fun _ _ h => h) (fun _ _ => trivial) fun _ _ => trivial

theorem network_projects_crossing : ∃ history last l, last.links 1 = some l ∧
    (networkMachine (ascii "./mail") listener fun _ => newConn).exec
      (startNetwork listener emptyMemory fun _ _ => []) crossing = some (history, last) ∧
    ∃ world start actions past server, (∀ a, world.mem.oom a = false) ∧
      acceptConnection world = some start ∧
      (exchangeMachine (ascii "./mail")).exec (accepted newConn start) actions =
        some (past, l.parties server) ∧
      past.filterMap clientSide = history.filterMap (clientIn 1) ∧
      List.Forall₂ SameCall server.calls (callsOf 1 history) := by
  have hrun : ((networkMachine (ascii "./mail") listener fun _ => newConn).exec
      (startNetwork listener emptyMemory fun _ _ => []) crossing).bind (fun r => (r.2.links 1).map
        fun l => l.stopped) = some false := by
    decide +kernel
  obtain ⟨⟨history, last⟩, hexec, hlast⟩ := Option.bind_eq_some_iff.mp hrun
  obtain ⟨l, hlink, hstopped⟩ := Option.map_eq_some_iff.mp hlast
  exact ⟨history, last, l, hlink, hexec,
    network_projects (ascii "./mail") listener (fun _ => newConn) crossing_quiet hexec 1 l hlink hstopped⟩

end Crossing

end SmtpMta.Exchange.ManyClients
