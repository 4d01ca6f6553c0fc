import SmtpMta.Common.DictRelease
import SmtpMta.Server.Lines
import SmtpMta.Server.MainLoop

/-! The main loop of `server_start` with its sessions in the red-black tree of `tree.c`.
It does what the loop over a finite map does, step for step, as long as no new session
comes to a place of the tree where a parent pointer is wrong. -/
namespace SmtpMta.Server.SessionTable
open Library.CString Library.SearchTree Library.FiniteMap Library.Trace
open Common.ListHead Common.RedBlackTree Common.TreeRotation Common.TreeSearch Common.TreeInsert Common.Dictionary
open Common.TreeIteration Common.DictRelease
open Smtp ReadLoop MainLoop

/-- The state of the loop. A value of the dictionary is a session or a null pointer. -/
structure TableServer where
  mem : Smtp.Memory
  dirs : Maildirs
  heap : Nat → Option Session
  count : Nat
  released : List Nat
  sessions : Dict (Option Nat)
  fds : Finset Descriptor
  nfds : Nat
  todo : List Descriptor

/-- The same state over another table. -/
def TableServer.over (v : TableServer) (released : List Nat) (sessions : Bindings Bytes Nat) :
    ServerState :=
  ⟨v.mem, v.dirs, v.heap, v.count, released, sessions, v.fds, v.nfds, v.todo⟩

def TableServer.world (v : TableServer) (fails : Nat → Bool) (session : Session) : World :=
  ⟨{ v.mem with oom := fun a => fails (a - v.mem.brk) }, session, [], v.dirs⟩

section Loop

/-- The table in a step with or without memory for a node. -/
def roomed {V : Type} (room : Bool) (dict : Dict V) : Dict V :=
  { dict with mem := { dict.mem with oom := fun _ => !room } }

def acceptClient (input : Input) (v : TableServer) : Option (Output × TableServer) :=
  match input.clientSocket.filter fun fd => fd ∉ v.fds with
  | none => some (.idle, v)
  | some clientSocket =>
    if input.sessionRoom = false then none
    else do
      let session := v.count
      let v := { v with count := v.count + 1 }
      let (ret, sessions) ← Common.RedBlackTree.dictSet (roomed input.dictRoom v.sessions)
        (sessionKey clientSocket) (some session)
      let v := { v with sessions }
      if ret ≠ 0 then
        some (.client session .refused, { v with released := v.released ++ [session] })
      else
        let c ← acceptConnection (v.world input.fails newSession)
        some (.client session (.accepted c),
          { v with mem := c.world.mem, dirs := c.world.dirs,
                   heap := Function.update v.heap session (some c.world.session),
                   fds := insert clientSocket v.fds, nfds := max v.nfds (clientSocket + 1) })

def serveClient (mailPath : Bytes) (fd : Descriptor) (input : Input) (v : TableServer) :
    Option (Output × TableServer) := do
  let key := sessionKey fd
  let (ret, session) ← dictGet v.sessions key none
  match if ret = -1 then none else session with
  | none => some (.idle, { v with fds := v.fds.erase fd })
  | some session =>
    match input.received with
    | none | some [] => some (.client session .lost, { v with fds := v.fds.erase fd })
    | some bytes =>
        let held ← v.heap session
        let c ← serveRead mailPath ⟨v.world input.fails held, [], [], false⟩
          (bytes.take serverCommandMaxLen)
        let v := { v with mem := c.world.mem, dirs := c.world.dirs }
        if c.closed then
          let (_, sessions) ← Common.RedBlackTree.dictSet (roomed input.dictRoom v.sessions) key none
          some (.client session (.served c),
            { v with heap := Function.update v.heap session none,
                     released := v.released ++ [session], sessions, fds := v.fds.erase fd })
        else
          some (.client session (.served c),
            { v with heap := Function.update v.heap session (some c.world.session) })

def tableValues (dict : Dict (Option Nat)) : Option (List (Option Nat)) := do
  let nodes ← treeForeach dict.mem dict.root
  nodes.mapM fun a => (dict.mem.nodes a).map TreeNode.value

def step (mailPath : Bytes) (serverSocket : Descriptor) (v : TableServer) (input : Input) :
    Option (Output × TableServer) :=
  match v.todo, input.ready with
  | [], none => do
      let held ← tableValues v.sessions
      let sessions ← dictFree v.sessions
      -- free does nothing with a null pointer
      some (.stopped, { v with released := v.released ++ held.filterMap id, sessions })
  | [], some ready =>
      some (.idle, { v with todo := (List.finRange fdSetsize).filter fun fd =>
        fd < v.nfds ∧ fd ∈ v.fds ∧ ready.contains fd })
  | fd :: todo, _ =>
      let v := { v with todo }
      if fd = serverSocket then acceptClient input v else serveClient mailPath fd input v

def tableMachine (mailPath : Bytes) (serverSocket : Descriptor) :
    Machine TableServer Input Output where
  step := step mailPath serverSocket
  stop
    | .stopped => true
    | _ => false

def startTable (serverSocket : Descriptor) (mem : Smtp.Memory) (dirs : Maildirs) : TableServer :=
  ⟨mem, dirs, fun _ => none, 0, [], dictInit (Memory.fresh fun _ => false), {serverSocket},
    serverSocket + 1, []⟩

end Loop

section Table
variable {dict : Dict (Option Nat)} {map : Bindings Bytes Nat} {key : Bytes}

/-- The tree binds what the map binds. -/
def Tabled (dict : Dict (Option Nat)) (map : Bindings Bytes Nat) : Prop :=
  ∃ t, WellFormed (roomed true dict) t ∧
    ∀ key value, Binds dict.mem.nodes t.inorder key value ↔ map.lookup key = some value

theorem sessionKey_fits (fd : Descriptor) :
    NulFree (sessionKey fd) ∧ (sessionKey fd).length < treeKeyMaxLen := by
  constructor
  · rw [sessionKey_eq]
    intro hnul
    obtain ⟨c, hc, hzero⟩ := List.mem_map.mp hnul
    have hdigit := Nat.isDigit_of_mem_toDigits (by decide) (by decide) hc
    simp only [Char.isDigit, Bool.and_eq_true, decide_eq_true_eq] at hdigit
    have hlow : 48 ≤ c.toNat := hdigit.1
    have hhigh : c.toNat ≤ 57 := hdigit.2
    have hvalue := congrArg UInt8.toNat hzero
    rw [UInt8.toNat_ofNat_of_lt' (show c.toNat < 256 by omega)] at hvalue
    have hnul : (nul : Byte).toNat = 0 := rfl
    omega
  · have hlen : (sessionKey fd).length ≤ sessionKeyMaxLen - 1 := List.length_take_le ..
    exact hlen.trans_lt (by decide)

theorem tabled_init : Tabled (dictInit (Memory.fresh fun _ => false)) ∅ :=
  ⟨.nil, dictInit_wellFormed _ fun _ => rfl, by simp [Binds, Skeleton.inorder]⟩

theorem Tabled.get (h : Tabled dict map) (hkey : NulFree key) :
    ∃ ret session, dictGet dict key none = some (ret, session) ∧
      (if ret = -1 then none else session) = valueAt map key := by
  obtain ⟨t, hwf, hbinds⟩ := h
  obtain ⟨found, hfind, hfound⟩ := hwf.find key
  rw [cstr_of_nulFree hkey] at hfound
  change findTreeNode dict.mem.nodes key dict.mem.bound dict.root = some found at hfind
  cases found with
  | none =>
    refine ⟨-1, none, by simp [dictGet, hfind], ?_⟩
    have hnone : map.lookup key = none :=
      Option.eq_none_iff_forall_not_mem.mpr fun v hv => hfound v ((hbinds key v).mpr hv)
    simp [valueAt, hnone]
  | some a =>
    obtain ⟨n, hn, hvalue⟩ := hfound
    change dict.mem.nodes a = some n at hn
    refine ⟨0, n.value, by simp [dictGet, hfind, hn], ?_⟩
    have hlookup : map.lookup key = some n.value := (hbinds key _).mp ((hvalue _).mpr rfl)
    simp [valueAt, hlookup]

theorem Tabled.set (h : Tabled dict map) (hkey : NulFree key) (hlen : key.length < treeKeyMaxLen)
    (room : Bool) (hlinked : room = true → keyLinked dict key = true) (value : Option Nat) :
    ∃ dict', Common.RedBlackTree.dictSet (roomed room dict) key value =
      some ((MainLoop.dictSet room map key value).1, dict') ∧
        Tabled dict' (MainLoop.dictSet room map key value).2 := by
  obtain ⟨t, hwf, hbinds⟩ := h
  cases room with
  | false =>
    -- the address is taken, and nothing else
    have hsound : Sound (roomed false dict) t := ⟨hwf.spells, hwf.black, hwf.below, hwf.ring⟩
    obtain ⟨mem, hset, hnodes, hsound'⟩ := hsound.dictSet_oom rfl key value
    refine ⟨_, hset, t, ⟨hsound'.spells, ?_, hsound'.black, hsound'.below, hsound'.ring,
      fun _ => rfl⟩, ?_⟩
    · exact hwf.sorted.congr fun a _ => orderAt_congr (congrArg (fun m => entryOf m a) hnodes)
    · change ∀ k v, Binds mem.nodes t.inorder k v ↔ _
      rw [hnodes]
      exact hbinds
  | true =>
    obtain ⟨dict', t', hset, hwf', hrebound⟩ := hwf.dictSet hkey hlen (hlinked rfl) value
    refine ⟨dict', hset, t', ⟨hwf'.spells, hwf'.sorted, hwf'.black, hwf'.below, hwf'.ring,
      fun _ => rfl⟩, fun k v => ?_⟩
    rw [hrebound, cstr_of_nulFree hkey]
    by_cases hk : k = key
    · subst hk
      rw [if_pos rfl]
      simp [MainLoop.dictSet, eq_comm]
    · simp only [hk, if_false, MainLoop.dictSet, if_true, AList.lookup_insert_ne hk]
      exact hbinds k v

theorem Tabled.keyLinked (h : Tabled dict map) (hkey : NulFree key) {session : Nat}
    (hfound : valueAt map key = some session) : Common.Dictionary.keyLinked dict key = true := by
  obtain ⟨t, hwf, hbinds⟩ := h
  have hlinked : Common.Dictionary.keyLinked (roomed true dict) key = true := by
    refine WellFormed.keyLinked hwf ⟨some session, ?_⟩
    rw [cstr_of_nulFree hkey]
    refine (hbinds key (some session)).mpr ?_
    simpa [valueAt, Option.join_eq_some_iff] using hfound
  exact hlinked

/-- The entry of the map for a node of the tree. -/
def entryAt (dict : Dict (Option Nat)) (a : Addr) : Sigma fun _ : Bytes => Option Nat :=
  ⟨((dict.mem.nodes a).map fun n => cstr n.key).getD [], (dict.mem.nodes a).bind TreeNode.value⟩

theorem Tabled.entries {t : Skeleton Addr} (hwf : WellFormed (roomed true dict) t)
    (hbinds : ∀ key value, Binds dict.mem.nodes t.inorder key value ↔ map.lookup key = some value) :
    (t.inorder.map (entryAt dict)).Perm map.entries := by
  have hnode (a : Addr) (ha : a ∈ t.inorder) : ∃ n, dict.mem.nodes a = some n :=
    Option.isSome_iff_exists.mp (hwf.spells.alloc a ha)
  have hnodup : (t.inorder.map (entryAt dict)).Nodup := by
    refine hwf.spells.nodup.map_on fun a ha b hb hentry => hwf.sorted.eq_of_key ha hb ?_
    obtain ⟨n, hn⟩ := hnode a ha
    obtain ⟨n', hn'⟩ := hnode b hb
    change orderAt dict.mem.nodes a = orderAt dict.mem.nodes b
    rw [orderAt_eq hn, orderAt_eq hn']
    refine order_injective.mpr ?_
    simpa [entryAt, hn, hn'] using congrArg Sigma.fst hentry
  rw [List.perm_ext_iff_of_nodup hnodup map.nodupKeys.nodup]
  rintro ⟨key, value⟩
  rw [← AList.mem_lookup_iff, Option.mem_def, ← hbinds, List.mem_map]
  constructor
  · rintro ⟨a, ha, hentry⟩
    obtain ⟨n, hn⟩ := hnode a ha
    obtain ⟨hkey, hvalue⟩ : cstr n.key = key ∧ n.value = value := by simpa [entryAt, hn] using hentry
    exact ⟨a, ha, n.key, by simp [entryOf, hn, hvalue], hkey⟩
  · rintro ⟨a, ha, block, hentry, hkey⟩
    obtain ⟨n, hn⟩ := hnode a ha
    obtain ⟨rfl, rfl⟩ : n.key = block ∧ n.value = value := by simpa [entryOf, hn] using hentry
    exact ⟨a, ha, by simp [entryAt, hn, hkey]⟩

theorem Tabled.values (h : Tabled dict map) :
    ∃ held, tableValues dict = some held ∧
      (held.filterMap id).Perm (Library.FiniteMap.values map) := by
  obtain ⟨t, hwf, hbinds⟩ := h
  obtain ⟨visited, hforeach, hperm⟩ := WellFormed.foreach hwf
  change treeForeach dict.mem dict.root = some visited at hforeach
  have hheld : (visited.mapM fun a => (dict.mem.nodes a).map TreeNode.value) =
      some (visited.map fun a => (entryAt dict a).2) := by
    refine Lines.mapM_eq_some ?_
    rw [List.map_map]
    refine List.map_congr_left fun a ha => ?_
    obtain ⟨n, hn⟩ := Option.isSome_iff_exists.mp (hwf.spells.alloc a (hperm.mem_iff.mp ha))
    change dict.mem.nodes a = some n at hn
    simp [entryAt, hn]
  refine ⟨visited.map fun a => (entryAt dict a).2, by simp [tableValues, hforeach, hheld], ?_⟩
  have hentries := ((hperm.map (entryAt dict)).trans (Tabled.entries hwf hbinds)).filterMap Sigma.snd
  rw [List.filterMap_map] at hentries ⊢
  exact hentries

theorem Tabled.free (h : Tabled dict map) : (dictFree dict).isSome := by
  obtain ⟨t, hwf, -⟩ := h
  obtain ⟨nodes, hfree, -⟩ := Common.TreeLinks.freeTreeNode_spec hwf.spells.shaped hwf.spells.nodup
    hwf.spells.alloc hwf.length_lt_bound
  rw [← hwf.spells.root_eq] at hfree
  change freeTreeNode dict.mem.bound dict.mem.nodes dict.root = some nodes at hfree
  simp [dictFree, hfree]

end Table

section Refinement
variable {mailPath : Bytes} {serverSocket : Descriptor} {v v' : TableServer} {w : ServerState}
  {input : Input}

/-- The two loops differ in their tables and in the order in which the sessions were freed. -/
def Shadows (v : TableServer) (w : ServerState) : Prop :=
  ∃ released sessions, w = v.over released sessions ∧ v.released.Perm released

/-- And their tables bind the same. -/
def Follows (v : TableServer) (w : ServerState) : Prop :=
  ∃ released sessions, w = v.over released sessions ∧ v.released.Perm released ∧
    Tabled v.sessions sessions

theorem Follows.shadows (h : Follows v w) : Shadows v w := by
  obtain ⟨released, sessions, hover, hperm, -⟩ := h
  exact ⟨released, sessions, hover, hperm⟩

/-- A new session comes to a place in the tree whose parent pointers are right. -/
def Linked (serverSocket : Descriptor) (v : TableServer) (input : Input) : Prop :=
  v.todo.head? = some serverSocket → ∀ fd ∈ input.clientSocket, fd ∉ v.fds →
    keyLinked v.sessions (sessionKey fd) = true

instance (v : TableServer) : Decidable (Linked serverSocket v input) :=
  inferInstanceAs (Decidable (_ → ∀ fd ∈ _, _ → _))

/-- What the results of a step in both loops have in common, if it does not stop them. -/
def Both (x : Output × TableServer) (y : Output × ServerState) : Prop :=
  x.1 = y.1 ∧ Follows x.2 y.2

variable {released : List Nat} {sessions : Bindings Bytes Nat}

theorem acceptClient_both (hperm : v.released.Perm released) (htable : Tabled v.sessions sessions)
    (hlinked : ∀ fd ∈ input.clientSocket, fd ∉ v.fds →
      keyLinked v.sessions (sessionKey fd) = true) :
    Option.Rel Both (acceptClient input v)
      (MainLoop.acceptClient input (v.over released sessions)) := by
  unfold acceptClient MainLoop.acceptClient
  cases hsocket : input.clientSocket.filter fun fd => fd ∉ v.fds with
  | none =>
    have hsocket' : input.clientSocket.filter (fun fd => fd ∉ (v.over released sessions).fds) = none :=
      hsocket
    simp only [hsocket']
    exact .some ⟨rfl, released, sessions, rfl, hperm, htable⟩
  | some fd =>
    have hsocket' : input.clientSocket.filter (fun fd => fd ∉ (v.over released sessions).fds) =
      some fd := hsocket
    obtain ⟨hfd, hclosed⟩ := Option.filter_eq_some_iff.mp hsocket
    obtain ⟨hkey, hlen⟩ := sessionKey_fits fd
    obtain ⟨dict', hset, htable'⟩ := htable.set hkey hlen input.dictRoom
      (fun _ => hlinked fd hfd (by simpa using hclosed)) (some v.count)
    simp only [hsocket']
    cases input.sessionRoom with
    | false => exact .none
    | true =>
      simp only [Bool.true_eq_false, if_false, hset, Option.bind_eq_bind, Option.bind_some]
      cases hroom : input.dictRoom with
      | false =>
        rw [hroom] at htable'
        exact .some ⟨rfl, released ++ [v.count], sessions, rfl, hperm.append_right _, htable'⟩
      | true =>
        rw [hroom] at htable'
        simp only [TableServer.over, MainLoop.dictSet, if_true, ne_eq, not_true_eq_false, if_false]
        have hstart := rel_eq (acceptConnection (v.world input.fails newSession))
        exact rel_bind hstart fun c c' hc => hc ▸ .some ⟨rfl, released, _, rfl, hperm, htable'⟩

theorem serveClient_both (hperm : v.released.Perm released) (htable : Tabled v.sessions sessions)
    (fd : Descriptor) :
    Option.Rel Both (serveClient mailPath fd input v)
      (MainLoop.serveClient mailPath fd input (v.over released sessions)) := by
  obtain ⟨hkey, hlen⟩ := sessionKey_fits fd
  obtain ⟨ret, session, hget, hvalue⟩ := htable.get hkey
  unfold serveClient MainLoop.serveClient
  simp only [hget, Option.bind_eq_bind, Option.bind_some, hvalue]
  cases hfound : valueAt sessions (sessionKey fd) with
  | none =>
    simp only [TableServer.over, hfound]
    exact .some ⟨rfl, released, sessions, rfl, hperm, htable⟩
  | some session =>
    simp only [TableServer.over, hfound]
    cases hreceived : input.received with
    | none => exact .some ⟨rfl, released, sessions, rfl, hperm, htable⟩
    | some bytes =>
      cases bytes with
      | nil => exact .some ⟨rfl, released, sessions, rfl, hperm, htable⟩
      | cons b bytes =>
        dsimp only
        refine rel_bind (rel_eq (v.heap session)) fun held held' hheld => ?_
        subst hheld
        have hserve := rel_eq (serveRead mailPath ⟨v.world input.fails held, [], [], false⟩
          ((b :: bytes).take serverCommandMaxLen))
        refine rel_bind hserve fun c c' hc => ?_
        subst hc
        cases hclosed : c.closed with
        | false => exact .some ⟨rfl, released, sessions, rfl, hperm, htable⟩
        | true =>
          obtain ⟨dict', hset, htable'⟩ := htable.set hkey hlen input.dictRoom
            (fun _ => htable.keyLinked hkey hfound) none
          simp only [hset, if_true, Option.bind_some]
          exact .some ⟨rfl, released ++ [session], _, rfl, hperm.append_right _, htable'⟩

theorem step_both (h : Follows v w) (hlinked : Linked serverSocket v input) :
    Option.Rel (fun x y => x.1 = y.1 ∧ Shadows x.2 y.2 ∧
      ((tableMachine mailPath serverSocket).stop x.1 = false → Follows x.2 y.2))
      (step mailPath serverSocket v input) (MainLoop.step mailPath serverSocket w input) := by
  have hboth {x : Option (Output × TableServer)} {y : Option (Output × ServerState)}
      (hrel : Option.Rel Both x y) : Option.Rel (fun x y => x.1 = y.1 ∧ Shadows x.2 y.2 ∧
        ((tableMachine mailPath serverSocket).stop x.1 = false → Follows x.2 y.2)) x y := by
    cases hrel with
    | none => exact .none
    | some h => exact .some ⟨h.1, h.2.shadows, fun _ => h.2⟩
  obtain ⟨released, sessions, rfl, hperm, htable⟩ := h
  unfold step MainLoop.step
  cases htodo : v.todo with
  | nil =>
    simp only [TableServer.over, htodo]
    cases input.ready with
    | none =>
      obtain ⟨held, hvalues, hheld⟩ := htable.values
      obtain ⟨dict', hfree⟩ := Option.isSome_iff_exists.mp htable.free
      simp only [hvalues, hfree, Option.bind_eq_bind, Option.bind_some]
      refine .some ⟨rfl, ⟨_, sessions, rfl, hperm.append hheld⟩, fun hgo => ?_⟩
      simp [tableMachine] at hgo
    | some ready =>
      refine hboth (.some ⟨rfl, released, sessions, ?_, ?_, ?_⟩)
      · simp only [TableServer.over, List.contains_iff_mem]
      · exact hperm
      · exact htable
  | cons fd todo =>
    simp only [TableServer.over, htodo]
    by_cases hserver : fd = serverSocket
    · simp only [hserver, if_true]
      refine hboth (acceptClient_both (v := { v with todo }) hperm htable fun fd' hfd' hclosed => ?_)
      exact hlinked (by simp [htodo, hserver]) fd' hfd' hclosed
    · simp only [hserver, if_false]
      exact hboth (serveClient_both (v := { v with todo }) hperm htable fd)

/-- The loop over the red-black tree does what the loop over the finite map does: it crashes
where that crashes, each step comes out the same, and at the end the same sessions are freed. -/
theorem session_table_refines (mailPath : Bytes) (serverSocket : Descriptor) (mem : Smtp.Memory)
    (dirs : Maildirs) {inputs : List Input}
    (hlinked : (tableMachine mailPath serverSocket).Throughout (Linked serverSocket)
      (startTable serverSocket mem dirs) inputs) :
    Option.Rel (fun x y => x.1.map Step.output = y.1.map Step.output ∧ Shadows x.2 y.2)
      ((tableMachine mailPath serverSocket).exec (startTable serverSocket mem dirs) inputs)
      ((serverMachine mailPath serverSocket).exec (startServer serverSocket mem dirs) inputs) := by
  have hinit : Follows (startTable serverSocket mem dirs) (startServer serverSocket mem dirs) :=
    ⟨[], ∅, rfl, .nil, tabled_init⟩
  exact Machine.exec_rel (P := Linked serverSocket) (R := Follows) (fun _ => rfl)
    (fun _ _ h => h.shadows) (fun _ _ _ h hhere => step_both h hhere) hinit hlinked

def crowd (n : Nat) : List Input :=
  (List.range n).flatMap fun i =>
    [{ quiet with ready := some [listener] },
     { quiet with clientSocket := some ⟨(i + 4) % fdSetsize, Nat.mod_lt _ (by decide)⟩ }]

/-- Eight clients; one says QUIT, one hangs up, and a new one gets the descriptor of the first. -/
theorem session_table_refines_crowd :
    let inputs := crowd 8 ++
      [{ quiet with ready := some [⟨6, by decide⟩, ⟨9, by decide⟩] },
       { quiet with received := some (ascii "EHLO x\r\nQUIT\r\n") },
       { quiet with received := some [] }, { quiet with ready := some [listener] },
       { quiet with clientSocket := some ⟨6, by decide⟩ }, quiet]
    ((tableMachine (ascii "./mail") listener).exec (startTable listener emptyMemory fun _ _ => [])
        inputs).isSome ∧
      Option.Rel (fun x y => x.1.map Step.output = y.1.map Step.output ∧ Shadows x.2 y.2)
        ((tableMachine (ascii "./mail") listener).exec
          (startTable listener emptyMemory fun _ _ => []) inputs)
        ((serverMachine (ascii "./mail") listener).exec
          (startServer listener emptyMemory fun _ _ => []) inputs) :=
  ⟨by decide +kernel,
    session_table_refines (ascii "./mail") listener emptyMemory (fun _ _ => []) (by decide +kernel)⟩

/-- With twenty clients the second one is not found any more. -/
example : ((tableMachine (ascii "./mail") listener).exec
    (startTable listener emptyMemory fun _ _ => []) (crowd 20)).bind
      (fun run => dictGet run.2.sessions (ascii "5") none) = some (-1, none) := by
  decide +kernel

end Refinement

end SmtpMta.Server.SessionTable
