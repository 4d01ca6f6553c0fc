import SmtpMta.Common.Dictionary

/-! The iteration list that is threaded through the nodes of the tree. It does
not need the tree to be one: also after a repair that lost nodes, every pointer
that an insertion can follow leads to a node of the list. -/
namespace SmtpMta.Common.TreeIteration
open Library.CString Library.SearchTree Library.Ring Library.Trace
open ListHead RedBlackTree TreeInsert Dictionary

variable {V : Type}

/-- The nodes that `tree_foreach` visits, in its order; none from a null root. -/
def treeForeach (mem : Memory V) (root : Option Addr) : Option (List Addr) :=
  match root with
  | none => some []
  | some root => listForeach mem.lists root mem.bound root

/-- The node that a call of `dict_set` links: it gets one, and its search ends
at a null pointer. -/
def linkedNode (dict : Dict V) (key : Bytes) (value : V) : Option Addr := do
  let (mem, node) ← makeTreeNode dict.mem key value
  let node ← node
  let new ← mem.nodes node
  match ← descend mem.nodes new.key mem.bound dict.root none with
  | .found _ => none
  | .vacant _ => some node

def linkedNodes (history : List (Step (Dict V) (Bytes × V) Int)) : List Addr :=
  history.filterMap fun st => linkedNode st.before st.input.1 st.input.2

/-- One of the node's tree pointers is `c`. -/
def PointsTo (n : TreeNode V) (c : Addr) : Prop :=
  n.left = some c ∨ n.right = some c ∨ n.parent = some c

theorem PointsTo.child {n : TreeNode V} {d : Dir} {c : Addr} (h : n.child d = some c) :
    PointsTo n c := by
  cases d with
  | left => exact .inl h
  | right => exact .inr (.inl h)

theorem pointsTo_setChild {n : TreeNode V} {d : Dir} {target : Option Addr} {c : Addr}
    (h : PointsTo (n.setChild d target) c) : PointsTo n c ∨ target = some c := by
  cases d <;> simp only [TreeNode.setChild, PointsTo] at h ⊢ <;> tauto

/-- The tree pointers of the members lead to members. -/
def Closed (m : Nodes V) (members : List Addr) : Prop :=
  ∀ a ∈ members, ∀ n, m a = some n → ∀ c, PointsTo n c → c ∈ members

section Closed
variable {m m' : Nodes V} {members : List Addr} {root root' : Option Addr} {node : Addr} {d : Dir}

theorem Closed.assign (h : Closed m members) {a : Addr} {f : TreeNode V → TreeNode V}
    (hf : ∀ n c, PointsTo (f n) c → PointsTo n c ∨ c ∈ members)
    (hwrite : write m a f = some m') : Closed m' members := by
  obtain ⟨n, hn, rfl⟩ := Option.map_eq_some_iff.mp hwrite
  intro x hx nx hnx c hc
  by_cases hxa : x = a
  · subst hxa
    obtain rfl : f n = nx := by simpa using hnx
    exact (hf n c hc).elim (h x hx n hn c) id
  · exact h x hx nx (by simpa [hxa] using hnx) c hc

theorem Closed.write_child (h : Closed m members) {a : Addr} {target : Option Addr}
    (htarget : ∀ c ∈ target, c ∈ members)
    (hwrite : write m a (fun n => n.setChild d target) = some m') : Closed m' members :=
  h.assign (fun _ _ hc => (pointsTo_setChild hc).imp_right (htarget _)) hwrite

theorem Closed.write_parent (h : Closed m members) {a : Addr} {target : Option Addr}
    (htarget : ∀ c ∈ target, c ∈ members)
    (hwrite : write m a (fun n => { n with parent := target }) = some m') : Closed m' members := by
  refine h.assign (fun n c hc => ?_) hwrite
  rcases hc with hc | hc | hc
  · exact .inl (.inl hc)
  · exact .inl (.inr (.inl hc))
  · exact .inr (htarget c hc)

theorem Closed.write_color (h : Closed m members) {a : Addr} {color : Color}
    (hwrite : write m a (fun n => { n with color := color }) = some m') : Closed m' members :=
  h.assign (f := fun n => { n with color := color }) (fun _ _ hc => .inl hc) hwrite

theorem Closed.rotateLinks (h : Closed m members) {pivot : Addr} {parent : Option Addr}
    (hnode : node ∈ members) (hpivot : pivot ∈ members) (hparent : ∀ q ∈ parent, q ∈ members)
    (hlinks : rotateLinks d m node pivot parent = some m') : Closed m' members := by
  simp only [RedBlackTree.rotateLinks, Option.bind_eq_bind, Option.bind_eq_some_iff] at hlinks
  obtain ⟨p, hp, m₁, h₁, m₂, h₂, m₃, h₃, n, -, m₄, h₄, m₅, h₅, h₆⟩ := hlinks
  have hmoved : ∀ c ∈ p.child d.flip, c ∈ members :=
    fun c hc => h pivot hpivot p hp c (PointsTo.child hc)
  have closed₁ := h.write_child hmoved h₁
  have closed₂ := closed₁.write_parent (by simpa using hpivot) h₂
  have closed₃ := closed₂.write_child (by simpa using hnode) h₃
  have closed₄ := closed₃.write_color h₄
  have closed₅ := closed₄.write_parent hparent h₅
  exact closed₅.write_color h₆

structure Confined (m : Nodes V) (root : Option Addr) (members : List Addr) : Prop where
  closed : Closed m members
  root : ∀ top ∈ root, top ∈ members

theorem Confined.rotate (h : Confined m root members) (hnode : node ∈ members)
    (hrotate : rotate d m root node = some (m', root')) : Confined m' root' members := by
  simp only [RedBlackTree.rotate, Option.bind_eq_bind, Option.bind_eq_some_iff] at hrotate
  obtain ⟨n, hn, pivot, hpivot, m₁, hlinks, hreplace⟩ := hrotate
  have hpivot_mem : pivot ∈ members := h.closed node hnode n hn pivot (PointsTo.child hpivot)
  have hparent : ∀ q ∈ n.parent, q ∈ members :=
    fun q hq => h.closed node hnode n hn q (.inr (.inr hq))
  have closed₁ := h.closed.rotateLinks hnode hpivot_mem hparent hlinks
  cases hq : n.parent with
  | none =>
    obtain ⟨rfl, rfl⟩ : m₁ = m' ∧ some pivot = root' := by simpa [hq, replaceChild] using hreplace
    exact ⟨closed₁, by simpa using hpivot_mem⟩
  | some q =>
    simp only [hq, replaceChild, Option.bind_eq_bind, Option.bind_eq_some_iff] at hreplace
    obtain ⟨nq, -, m₂, hwrite, hresult⟩ := hreplace
    obtain ⟨rfl, rfl⟩ : m₂ = m' ∧ root = root' := by simpa using hresult
    exact ⟨closed₁.write_child (by simpa using hpivot_mem) hwrite, h.root⟩

theorem Confined.rotate_last (h : Confined m root members) {gp node' : Addr} (hgp : gp ∈ members)
    (hturn : ((RedBlackTree.rotate d m root gp).bind fun x => some (x.1, x.2, node)) =
      some (m', root', node')) : Confined m' root' members ∧ node' = node := by
  obtain ⟨⟨m₁, root₁⟩, hrotate, hresult⟩ := Option.bind_eq_some_iff.mp hturn
  obtain ⟨rfl, rfl, rfl⟩ : m₁ = m' ∧ root₁ = root' ∧ node = node' := by simpa using hresult
  exact ⟨h.rotate hgp hrotate, rfl⟩

theorem Confined.rotations (h : Confined m root members) {e : Dir} {p gp node' : Addr}
    {inner : Prop} [Decidable inner] (hp : p ∈ members) (hgp : gp ∈ members)
    (hturn : (if inner then
        (RedBlackTree.rotate d m root p).bind fun x =>
          (RedBlackTree.rotate e x.1 x.2 gp).bind fun x => some (x.1, x.2, node)
      else (some (m, root)).bind fun x =>
          (RedBlackTree.rotate e x.1 x.2 gp).bind fun x => some (x.1, x.2, node)) =
      some (m', root', node')) : Confined m' root' members ∧ node' = node := by
  split at hturn
  · obtain ⟨⟨m₁, root₁⟩, hinner, houter⟩ := Option.bind_eq_some_iff.mp hturn
    exact (h.rotate hp hinner).rotate_last hgp houter
  · exact h.rotate_last hgp hturn

theorem Confined.fixStep (h : Confined m root members) {p node' : Addr} (hnode : node ∈ members)
    (hp : p ∈ members) (hstep : fixStep m root node p = some (m', root', node')) :
    Confined m' root' members ∧ node' ∈ members := by
  simp only [RedBlackTree.fixStep, Option.bind_eq_bind, Option.bind_eq_some_iff] at hstep
  obtain ⟨np, hnp, gp, hgp, uncle, -, hstep⟩ := hstep
  have hgp_mem : gp ∈ members := h.closed p hp np hnp gp (.inr (.inr hgp))
  split at hstep
  · simp only [Option.bind_eq_some_iff] at hstep
    obtain ⟨m₁, h₁, m₂, h₂, m₃, h₃, hresult⟩ := hstep
    obtain ⟨rfl, rfl, rfl⟩ : m₃ = m' ∧ root = root' ∧ gp = node' := by simpa using hresult
    have closed₁ := h.closed.write_color h₁
    have closed₂ := closed₁.write_color h₂
    exact ⟨⟨closed₂.write_color h₃, h.root⟩, hgp_mem⟩
  · simp only [Option.bind_eq_some_iff] at hstep
    obtain ⟨ng, -, hstep⟩ := hstep
    suffices hturn : Confined m' root' members ∧ node' = node from ⟨hturn.1, hturn.2 ▸ hnode⟩
    split at hstep
    · obtain ⟨np', -, hturn⟩ := Option.bind_eq_some_iff.mp hstep
      exact h.rotations hp hgp_mem hturn
    · obtain ⟨np', -, hturn⟩ := Option.bind_eq_some_iff.mp hstep
      exact h.rotations hp hgp_mem hturn

theorem Confined.redParent (h : Confined m root members) {p : Addr} (hnode : node ∈ members)
    (hred : redParent m node = some (some p)) : p ∈ members := by
  simp only [RedBlackTree.redParent, Option.bind_eq_bind, Option.bind_eq_some_iff] at hred
  obtain ⟨n, hn, hred⟩ := hred
  cases hparent : n.parent with
  | none => simp [hparent] at hred
  | some q =>
    simp only [hparent, Option.bind_eq_some_iff] at hred
    obtain ⟨color, -, hred⟩ := hred
    split at hred
    · obtain rfl : q = p := by simpa using hred
      exact h.closed node hnode n hn q (.inr (.inr hparent))
    · simp at hred

theorem Confined.fixLoop (h : Confined m root members) {bound : Nat} (hnode : node ∈ members)
    (hloop : fixLoop bound m root node = some (m', root')) : Confined m' root' members := by
  induction bound generalizing m root node with
  | zero => simp [RedBlackTree.fixLoop] at hloop
  | succ bound ih =>
    simp only [RedBlackTree.fixLoop, Option.bind_eq_bind, Option.bind_eq_some_iff] at hloop
    obtain ⟨parent, hred, hloop⟩ := hloop
    cases parent with
    | none =>
      obtain ⟨rfl, rfl⟩ : m = m' ∧ root = root' := by simpa using hloop
      exact h
    | some p =>
      obtain ⟨⟨m₁, root₁, node₁⟩, hstep, hrest⟩ := Option.bind_eq_some_iff.mp hloop
      obtain ⟨hconfined, hnode₁⟩ := h.fixStep hnode (h.redParent hnode hred) hstep
      exact ih hconfined hnode₁ hrest

theorem Confined.fixAfterInsert (h : Confined m root members) {bound : Nat} (hnode : node ∈ members)
    (hfix : fixAfterInsert bound m root node = some (m', root')) :
    Confined m' root' members ∧ root' ≠ none := by
  simp only [RedBlackTree.fixAfterInsert, Option.bind_eq_bind, Option.bind_eq_some_iff] at hfix
  obtain ⟨⟨m₁, root₁⟩, hloop, top, htop, m₂, hwrite, hresult⟩ := hfix
  obtain ⟨rfl, rfl⟩ : m₂ = m' ∧ root₁ = root' := by simpa using hresult
  have hconfined := h.fixLoop hnode hloop
  have htop' : root₁ = some top := htop
  exact ⟨⟨hconfined.closed.write_color hwrite, hconfined.root⟩, by simp [htop']⟩

theorem Closed.descend (h : Closed m members) {key : Bytes} {bound : Nat}
    {parent slot : Option (Addr × Dir)} (hroot : ∀ top ∈ root, top ∈ members)
    (hparent : ∀ q ∈ parent, q.1 ∈ members)
    (hdescend : descend m key bound root parent = some (.vacant slot)) :
    (∀ q ∈ slot, q.1 ∈ members) ∧ (slot = none → root = none ∧ parent = none) := by
  induction bound generalizing root parent with
  | zero => simp [RedBlackTree.descend] at hdescend
  | succ bound ih =>
    cases root with
    | none =>
      obtain rfl : parent = slot := by simpa [RedBlackTree.descend] using hdescend
      exact ⟨hparent, fun hslot => ⟨rfl, hslot⟩⟩
    | some pp =>
      have hpp : pp ∈ members := hroot pp rfl
      simp only [RedBlackTree.descend, Option.bind_eq_bind, Option.bind_eq_some_iff] at hdescend
      obtain ⟨n, hn, hdescend⟩ := hdescend
      have hbelow (e : Dir) (hsearch : RedBlackTree.descend m key bound (n.child e) (some (pp, e)) =
          some (.vacant slot)) :
          (∀ q ∈ slot, q.1 ∈ members) ∧ (slot = none → some pp = none ∧ parent = none) := by
        obtain ⟨hslot, hnone⟩ :=
          ih (fun c hc => h pp hpp n hn c (PointsTo.child hc)) (by simpa using hpp) hsearch
        exact ⟨hslot, fun hs => absurd (hnone hs).2 (by simp)⟩
      split at hdescend
      · exact hbelow .left hdescend
      · split at hdescend
        · exact hbelow .right hdescend
        · simp at hdescend

theorem Confined.linkNode {mem mem' : Memory V} {parent : Option (Addr × Dir)}
    (h : Confined mem.nodes root members) {n : TreeNode V} (hn : mem.nodes node = some n)
    (hpoints : ∀ c, ¬PointsTo n c) (hparent : ∀ q ∈ parent, q.1 ∈ members)
    (hlink : linkNode mem root node parent = some (mem', root')) :
    Confined mem'.nodes root' (node :: members) ∧ mem'.brk = mem.brk ∧
      parent.elim (listInit mem.lists node) (fun q => listAdd mem.lists q.1 node) =
        some mem'.lists := by
  have hclosed : Closed mem.nodes (node :: members) := by
    intro a ha na hna c hc
    rcases List.mem_cons.mp ha with rfl | ha
    · obtain rfl : n = na := Option.some.inj (hn.symm.trans hna)
      exact absurd hc (hpoints c)
    · exact List.mem_cons_of_mem _ (h.closed a ha na hna c hc)
  cases parent with
  | none =>
    simp only [RedBlackTree.linkNode, Option.bind_eq_bind, Option.bind_some,
      Option.bind_eq_some_iff] at hlink
    obtain ⟨m₂, h₂, m₃, h₃, lists, hlists, hresult⟩ := hlink
    obtain ⟨rfl, rfl⟩ : { mem with nodes := m₃, lists } = mem' ∧ some node = root' := by
      simpa using hresult
    have closed₃ := (hclosed.write_color h₂).write_parent (by simp) h₃
    exact ⟨⟨closed₃, by simp⟩, rfl, hlists⟩
  | some q =>
    obtain ⟨a, d⟩ := q
    simp only [RedBlackTree.linkNode, Option.bind_eq_bind, Option.bind_eq_some_iff] at hlink
    obtain ⟨⟨m₁, root₁⟩, hstore, m₂, h₂, m₃, h₃, lists, hlists, hresult⟩ := hlink
    obtain ⟨m₀, hwrite, hstored⟩ := Option.map_eq_some_iff.mp hstore
    obtain ⟨rfl, rfl⟩ : m₀ = m₁ ∧ root = root₁ := by simpa using hstored
    obtain ⟨rfl, rfl⟩ : { mem with nodes := m₃, lists } = mem' ∧ root = root' := by
      simpa using hresult
    have hparent_mem : a ∈ node :: members := List.mem_cons_of_mem _ (hparent (a, d) rfl)
    have closed₁ := hclosed.write_child (by simp) hwrite
    have closed₃ := (closed₁.write_color h₂).write_parent (by simpa using hparent_mem) h₃
    exact ⟨⟨closed₃, fun top htop => List.mem_cons_of_mem _ (h.root top htop)⟩, rfl, hlists⟩

end Closed

/-- The two structures over the same nodes: the iteration list goes through the
members, and the tree does not lead out of them. -/
structure Threaded (dict : Dict V) (members : List Addr) : Prop where
  confined : Confined dict.mem.nodes dict.root members
  rooted : dict.root = none → members = []
  ring : Ringed dict.mem.lists members
  below : ∀ a ∈ members, a < dict.mem.brk

theorem dictInit_threaded (oom : Addr → Bool) :
    Threaded (dictInit (Memory.fresh oom) : Dict V) [] where
  confined := ⟨by simp [Closed], by simp [dictInit]⟩
  rooted _ := rfl
  ring := .inl rfl
  below := by simp

theorem Threaded.foreach {dict : Dict V} {members : List Addr} (h : Threaded dict members) :
    ∃ visited, treeForeach dict.mem dict.root = some visited ∧ visited.Nodup ∧
      visited.Perm members := by
  cases hroot : dict.root with
  | none =>
    obtain rfl := h.rooted hroot
    exact ⟨[], rfl, List.nodup_nil, .nil⟩
  | some top =>
    have htop : top ∈ members := h.confined.root top hroot
    rcases h.ring with rfl | ⟨ring, hring, hperm⟩
    · simp at htop
    obtain ⟨xs, ys, rfl⟩ := List.append_of_mem (hperm.mem_iff.mpr htop)
    have hrot : IsRing dict.mem.lists (top :: (ys ++ xs)) := by simpa using hring.rotate
    have hrotate : (top :: ys ++ xs).Perm (xs ++ top :: ys) := List.perm_append_comm
    have hvisited : (top :: (ys ++ xs)).Perm members := hrotate.trans hperm
    have hlength := length_le_of_forall_lt hrot.nodup
      fun a ha => h.below a (hvisited.mem_iff.mp ha)
    have hbound : (ys ++ xs).length < dict.mem.bound :=
      (Nat.lt_succ_self _).trans (Nat.lt_succ_of_le hlength)
    exact ⟨_, listForeach_ring hrot hbound, hrot.nodup, hvisited⟩

/-- The memory with a new node that nothing points to yet. -/
structure Made (mem : Memory V) (node : Addr) (n : TreeNode V) (members : List Addr) : Prop where
  holds : mem.nodes node = some n
  points : ∀ c, ¬PointsTo n c
  fresh : node ∉ members
  listed : (mem.lists node).isSome
  below : node < mem.brk

theorem Threaded.makeTreeNode {dict : Dict V} {members : List Addr} (h : Threaded dict members)
    (hoom : dict.mem.oom dict.mem.brk = false) (key : Bytes) (value : V) :
    ∃ mem n, makeTreeNode dict.mem key value = some (mem, some dict.mem.brk) ∧
      Made mem dict.mem.brk n members ∧ Threaded { dict with mem } members := by
  have hfresh : dict.mem.brk ∉ members := fun hmem => (h.below _ hmem).ne rfl
  have hne (a : Addr) (ha : a ∈ members) : a ≠ dict.mem.brk := fun heq => hfresh (heq ▸ ha)
  obtain ⟨lists, hmake, hlisted, hframe⟩ := makeTreeNode_spec hoom key value
  refine ⟨_, _, hmake, ⟨Function.update_self .., by simp [PointsTo], hfresh, hlisted,
    Nat.lt_succ_self _⟩, ?_⟩
  constructor
  case confined =>
    refine ⟨fun a ha n hn => h.confined.closed a ha n ?_, h.confined.root⟩
    simpa [hne a ha] using hn
  case rooted => exact h.rooted
  case ring => exact h.ring.congr fun a ha => hframe a (hne a ha)
  case below => exact fun a ha => (h.below a ha).trans (Nat.lt_succ_self _)

theorem Threaded.assigned {dict : Dict V} {members : List Addr} (h : Threaded dict members)
    {pp : Addr} {value : V} {m : Nodes V}
    (hwrite : write dict.mem.nodes pp (fun old => { old with value }) = some m) :
    Threaded { dict with mem := { dict.mem with nodes := m } } members := by
  have hclosed := h.confined.closed.assign (f := fun old => { old with value })
    (fun _ _ hc => .inl hc) hwrite
  exact ⟨⟨hclosed, h.confined.root⟩, h.rooted, h.ring, h.below⟩

theorem Threaded.linked {dict : Dict V} {members : List Addr} (h : Threaded dict members)
    {n : TreeNode V} (hmade : Made dict.mem node n members) {parent : Option (Addr × Dir)}
    {mem : Memory V} {m : Nodes V}
    (hdescend : descend dict.mem.nodes n.key dict.mem.bound dict.root none = some (.vacant parent))
    (hlink : linkNode dict.mem dict.root node parent = some (mem, root))
    (hfix : fixAfterInsert mem.bound mem.nodes root node = some (m, root')) :
    Threaded { dict with mem := { mem with nodes := m }, root := root' } (node :: members) := by
  obtain ⟨hparent, hvacant⟩ := h.confined.closed.descend h.confined.root (by simp) hdescend
  obtain ⟨hconfined, hbrk, hlists⟩ := h.confined.linkNode hmade.holds hmade.points hparent hlink
  obtain ⟨lists, hadd, hring, -⟩ := ringed_link h.ring hmade.fresh hmade.listed hparent
    fun hnone => h.rooted (hvacant hnone).1
  obtain ⟨hrepaired, hroot⟩ := hconfined.fixAfterInsert (by simp) hfix
  constructor
  case confined => exact hrepaired
  case rooted => exact fun hnone => absurd hnone hroot
  case ring =>
    have hsame : lists = mem.lists := by
      cases parent <;> exact Option.some.inj (hadd.symm.trans hlists)
    exact hsame ▸ hring
  case below =>
    intro a ha
    refine Nat.lt_of_lt_of_eq ?_ hbrk.symm
    rcases List.mem_cons.mp ha with rfl | ha
    · exact hmade.below
    · exact h.below a ha

theorem Threaded.dictSet {dict dict' : Dict V} {members : List Addr} (h : Threaded dict members)
    {key : Bytes} {value : V} {r : Int} (hset : dictSet dict key value = some (r, dict')) :
    Threaded dict' ((linkedNode dict key value).toList ++ members) := by
  cases hoom : dict.mem.oom dict.mem.brk with
  | true =>
    have hmake : RedBlackTree.makeTreeNode dict.mem key value =
        some ({ dict.mem with brk := dict.mem.brk + 1 }, none) := by
      simp [RedBlackTree.makeTreeNode, hoom]
    obtain ⟨-, rfl⟩ :
        -1 = r ∧ { dict with mem := { dict.mem with brk := dict.mem.brk + 1 } } = dict' := by
      simpa [RedBlackTree.dictSet, hmake] using hset
    have hlinked : linkedNode dict key value = none := by simp [linkedNode, hmake]
    rw [hlinked]
    exact ⟨h.confined, h.rooted, h.ring, fun a ha => (h.below a ha).trans (Nat.lt_succ_self _)⟩
  | false =>
    obtain ⟨mem, n, hmake, hmade, hthreaded⟩ := h.makeTreeNode hoom key value
    have hn := hmade.holds
    simp only [RedBlackTree.dictSet, hmake, Option.bind_eq_bind, Option.bind_some,
      Option.bind_eq_some_iff] at hset
    obtain ⟨⟨mem', root'⟩, hinsert, hresult⟩ := hset
    obtain ⟨-, rfl⟩ : 0 = r ∧ { dict with mem := mem', root := root' } = dict' := by
      simpa using hresult
    simp only [insertTreeNode, hn, Option.bind_eq_bind, Option.bind_some,
      Option.bind_eq_some_iff] at hinsert
    obtain ⟨slot, hdescend, hinsert⟩ := hinsert
    cases slot with
    | found pp =>
      have hlinked : linkedNode dict key value = none := by
        simp [linkedNode, hmake, hn, hdescend]
      rw [hlinked]
      obtain ⟨m, hwrite, hresult⟩ := Option.bind_eq_some_iff.mp hinsert
      obtain ⟨rfl, rfl⟩ : { mem with nodes := m } = mem' ∧ dict.root = root' := by
        simpa using hresult
      exact hthreaded.assigned hwrite
    | vacant parent =>
      have hlinked : linkedNode dict key value = some dict.mem.brk := by
        simp [linkedNode, hmake, hn, hdescend]
      rw [hlinked]
      obtain ⟨⟨mem₁, root₁⟩, hlink, hrepair⟩ := Option.bind_eq_some_iff.mp hinsert
      obtain ⟨⟨m, root₂⟩, hfix, hresult⟩ := Option.bind_eq_some_iff.mp hrepair
      obtain ⟨rfl, rfl⟩ : { mem₁ with nodes := m } = mem' ∧ root₂ = root' := by simpa using hresult
      exact hthreaded.linked hmade hdescend hlink hfix

/-- After any calls that all return, `tree_foreach` from the root visits the nodes
that the calls linked, each of them once. -/
theorem treeForeach_visits_once (oom : Addr → Bool) (calls : List (Bytes × V))
    (history : List (Step (Dict V) (Bytes × V) Int)) (dict : Dict V)
    (hexec : (dictMachine V).exec (dictInit (Memory.fresh oom)) calls = some (history, dict)) :
    ∃ visited, treeForeach dict.mem dict.root = some visited ∧ visited.Nodup ∧
      visited.Perm (linkedNodes history) := by
  let Inv (history : List (Step (Dict V) (Bytes × V) Int)) (dict : Dict V) : Prop :=
    ∃ members, Threaded dict members ∧ members.Perm (linkedNodes history)
  have hinit : Inv [] (dictInit (Memory.fresh oom)) := ⟨[], dictInit_threaded oom, .nil⟩
  have hstep : ∀ history dict call r dict', Inv history dict →
      (dictMachine V).step dict call = some (r, dict') →
      Inv (history ++ [⟨dict, call, r, dict'⟩]) dict' := by
    rintro history dict ⟨key, value⟩ r dict' ⟨members, hthreaded, hperm⟩ hset
    refine ⟨_, hthreaded.dictSet hset, ?_⟩
    have hlinked : linkedNodes (history ++ [⟨dict, (key, value), r, dict'⟩]) =
        linkedNodes history ++ (linkedNode dict key value).toList := by
      cases hnode : linkedNode dict key value <;> simp [linkedNodes, hnode]
    rw [hlinked]
    exact (hperm.append_left _).trans List.perm_append_comm
  obtain ⟨⟨members, hthreaded, hperm⟩, -⟩ := Machine.exec_steps hstep hinit hexec
  obtain ⟨visited, hforeach, hnodup, hvisited⟩ := hthreaded.foreach
  exact ⟨visited, hforeach, hnodup, hvisited.trans hperm⟩

/-- Also after a repair that lost a node of the tree. -/
theorem treeForeach_visits_once_losing :
    ∃ history dict, (dictMachine Nat).exec (dictInit (Memory.fresh fun _ => false)) losingCalls =
      some (history, dict) ∧
      ∃ visited, treeForeach dict.mem dict.root = some visited ∧ visited.Nodup ∧
        visited.Perm (linkedNodes history) := by
  have hreturns : ((dictMachine Nat).exec (dictInit (Memory.fresh fun _ => false)) losingCalls).isSome =
      true := by decide +kernel
  obtain ⟨⟨history, dict⟩, hexec⟩ := Option.isSome_iff_exists.mp hreturns
  exact ⟨history, dict, hexec, treeForeach_visits_once _ losingCalls history dict hexec⟩

end SmtpMta.Common.TreeIteration
