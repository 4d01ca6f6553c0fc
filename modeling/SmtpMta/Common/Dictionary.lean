import SmtpMta.Common.TreeInsert
import SmtpMta.Library.Trace

/-! The dictionary as a finite map: what `dict_set` does to the bindings that
`dict_get` and `dict_has` see, as long as no repair follows a parent pointer
that a rotation left behind. -/
namespace SmtpMta.Common.Dictionary
open Library.CString Library.SearchTree Library.Trace ListHead RedBlackTree TreeRotation TreeRepair
open TreeSearch TreeInsert

variable {V : Type}

structure WellFormed (dict : Dict V) (t : Skeleton Addr) : Prop where
  spells : Spells dict.mem.nodes dict.root t
  sorted : Sorted (orderAt dict.mem.nodes) t.inorder
  black : dict.root.bind (colorOf dict.mem.nodes) ≠ some .r
  below : ∀ a ∈ t.inorder, a < dict.mem.brk
  ring : Ringed dict.mem.lists t.inorder
  noOom : ∀ a, dict.mem.oom a = false

/-- One of the nodes has this key and this value. -/
def Binds (m : Nodes V) (members : List Addr) (key : Bytes) (value : V) : Prop :=
  ∃ a ∈ members, ∃ block, entryOf m a = some (block, value) ∧ cstr block = key

/-- The parent pointers that the repair after this insertion will read. -/
def keyLinked (dict : Dict V) (key : Bytes) : Bool :=
  pathLinked dict.mem.nodes (searchPath dict.mem.nodes key dict.mem.bound dict.root [])

theorem WellFormed.length_lt_bound {dict : Dict V} {t : Skeleton Addr}
    (h : WellFormed dict t) : t.inorder.length < dict.mem.bound := by
  exact Nat.lt_succ_of_le (length_le_of_forall_lt h.spells.nodup h.below)

theorem dictInit_wellFormed (oom : Addr → Bool) (hoom : ∀ a, oom a = false) :
    WellFormed (dictInit (Memory.fresh oom) : Dict V) .nil := by
  constructor
  case spells => exact ⟨trivial, rfl, List.nodup_nil, by simp [Skeleton.inorder]⟩
  case sorted => exact List.Pairwise.nil
  case black => simp [dictInit]
  case below => simp [Skeleton.inorder]
  case ring => exact .inl rfl
  case noOom => exact hoom

theorem orderAt_of_entryOf {m : Nodes V} {a : Addr} {block key : Bytes} {value : V}
    (hentry : entryOf m a = some (block, value)) (hkey : cstr block = cstr key) :
    orderAt m a = order key := by
  rw [orderAt, hentry]
  exact order_injective.mpr hkey

theorem WellFormed.find {dict : Dict V} {t : Skeleton Addr} (h : WellFormed dict t) (key : Bytes) :
    ∃ found, findTreeNode dict.mem.nodes key dict.mem.bound dict.root = some found ∧
      match found with
      | none => ∀ value, ¬Binds dict.mem.nodes t.inorder (cstr key) value
      | some a => ∃ n, dict.mem.nodes a = some n ∧
          ∀ value, Binds dict.mem.nodes t.inorder (cstr key) value ↔ value = n.value := by
  have hdescend := (descend_eq key h.spells.shaped h.spells.alloc h.length_lt_bound []).1
  rw [findTreeNode_eq_descend _ _ _ _ none, h.spells.root_eq]
  rw [pathOf_nil, List.head?_nil] at hdescend
  rw [hdescend]
  cases hlocate : t.locate (orderAt dict.mem.nodes) (order key) [] with
  | inl a =>
    obtain ⟨ha, hkey⟩ := Skeleton.locate_inl hlocate
    obtain ⟨n, hn⟩ := Option.isSome_iff_exists.mp (h.spells.alloc a ha)
    refine ⟨some a, rfl, n, hn, fun value => ⟨?_, ?_⟩⟩
    · rintro ⟨b, hb, block, hentry, hblock⟩
      obtain rfl : b = a :=
        h.sorted.eq_of_key hb ha ((orderAt_of_entryOf hentry hblock).trans hkey.symm)
      simp only [entryOf, hn, Option.map_some, Option.some.injEq, Prod.mk.injEq] at hentry
      exact hentry.2.symm
    · rintro rfl
      rw [orderAt_eq hn] at hkey
      exact ⟨a, ha, n.key, by simp [entryOf, hn], order_injective.mp hkey⟩
  | inr fs =>
    obtain ⟨hplug, hbetween⟩ := Skeleton.locate_inr hlocate h.sorted ⟨by simp [before], by simp [after]⟩
    refine ⟨none, rfl, ?_⟩
    rintro value ⟨a, ha, block, hentry, hblock⟩
    have hmem : a ∈ before fs ++ after fs := by
      have hinorder : (plug .nil fs).inorder = t.inorder := by rw [hplug, plug]
      rw [← hinorder, inorder_plug] at ha
      simpa [Skeleton.inorder] using ha
    exact hbetween.not_mem hmem (orderAt_of_entryOf hentry hblock)

structure Prepared (dict : Dict V) (t : Skeleton Addr) (mem : Memory V) (node : Addr) (key : Bytes)
    (value : V) : Prop where
  spells : Spells mem.nodes dict.root t
  fresh : node ∉ t.inorder
  nodes : ∀ a ∈ t.inorder, mem.nodes a = dict.mem.nodes a
  new : ∃ n, mem.nodes node = some n ∧ cstr n.key = cstr key ∧ n.value = value ∧
    n.left = none ∧ n.right = none
  ring : Ringed mem.lists t.inorder
  listed : (mem.lists node).isSome
  below : ∀ a ∈ node :: t.inorder, a < mem.brk
  length : t.inorder.length + 1 < mem.bound
  noOom : ∀ a, mem.oom a = false

theorem Prepared.orderAt {dict : Dict V} {t : Skeleton Addr} {mem : Memory V} {node : Addr}
    {key : Bytes} {value : V} (h : Prepared dict t mem node key value) (a : Addr)
    (ha : a ∈ t.inorder) : TreeSearch.orderAt mem.nodes a = TreeSearch.orderAt dict.mem.nodes a := by
  simp [TreeSearch.orderAt, entryOf, h.nodes a ha]

theorem WellFormed.sound {dict : Dict V} {t : Skeleton Addr} (h : WellFormed dict t) :
    Sound dict t :=
  ⟨h.spells, h.black, h.below, h.ring⟩

theorem Prepared.allocated {dict : Dict V} {t : Skeleton Addr} {mem : Memory V} {node : Addr}
    {key : Bytes} {value : V} (hwf : WellFormed dict t) (h : Prepared dict t mem node key value) :
    Allocated dict t mem node := by
  obtain ⟨n, hn, -, -, hleft, hright⟩ := h.new
  refine ⟨h.spells, h.fresh, h.nodes, ⟨n, hn, hleft, hright⟩, h.ring, h.listed, h.below, h.length,
    ?_⟩
  funext a
  rw [h.noOom, hwf.noOom]

theorem WellFormed.makeTreeNode {dict : Dict V} {t : Skeleton Addr} (h : WellFormed dict t)
    {key : Bytes} (hkey : NulFree key) (hlen : key.length < treeKeyMaxLen) (value : V) :
    ∃ mem, RedBlackTree.makeTreeNode dict.mem key value = some (mem, some dict.mem.brk) ∧
      Prepared dict t mem dict.mem.brk key value := by
  obtain ⟨mem, n, hmake, hn, hnkey, hvalue, halloc⟩ := h.sound.makeTreeNode (h.noOom _) key value
  obtain ⟨n', hn', hleft, hright⟩ := halloc.leaf
  obtain rfl : n = n' := Option.some.inj (hn.symm.trans hn')
  refine ⟨mem, hmake, halloc.spells, halloc.fresh, halloc.nodes, ⟨n, hn, ?_, hvalue, hleft, hright⟩,
    halloc.ring, halloc.listed, halloc.below, halloc.length, fun a => ?_⟩
  · have hfits : strlen key < treeKeyMaxLen := by rwa [strlen, cstr_of_nulFree hkey]
    rw [hnkey, cstr_strncpy hfits]
  · rw [halloc.oom, h.noOom]

/-- What an insertion does to the bindings. -/
def Rebound (m m' : Nodes V) (members members' : List Addr) (key : Bytes) (value : V) : Prop :=
  ∀ k v, Binds m' members' k v ↔ if k = cstr key then v = value else Binds m members k v

theorem Rebound.of_entries {m m' : Nodes V} {members members' : List Addr} {key block : Bytes}
    {value : V} {node : Addr} (hnode : node ∈ members')
    (hentry : entryOf m' node = some (block, value)) (hblock : cstr block = cstr key)
    (hsame : ∀ a, a ≠ node → (a ∈ members' ↔ a ∈ members) ∧
      (a ∈ members → entryOf m' a = entryOf m a))
    (hold : ∀ a ∈ members, a ≠ node → orderAt m a ≠ order key)
    (hnode_old : ∀ block' v, node ∈ members → entryOf m node = some (block', v) →
      cstr block' = cstr key) : Rebound m m' members members' key value := by
  intro k v
  split
  · rename_i hk
    subst hk
    constructor
    · rintro ⟨a, ha, block', hblock', hcstr⟩
      by_cases han : a = node
      · rw [han, hentry] at hblock'
        exact (congrArg Prod.snd (Option.some.inj hblock')).symm
      · have ha' := (hsame a han).1.mp ha
        rw [(hsame a han).2 ha'] at hblock'
        exact absurd (orderAt_of_entryOf hblock' hcstr) (hold a ha' han)
    · rintro rfl
      exact ⟨node, hnode, block, hentry, hblock⟩
  · rename_i hk
    constructor
    · rintro ⟨a, ha, block', hblock', rfl⟩
      have han : a ≠ node := by
        rintro rfl
        obtain ⟨rfl, -⟩ : block = block' ∧ value = v := by simpa [hentry] using hblock'
        exact hk hblock
      have ha' := (hsame a han).1.mp ha
      exact ⟨a, ha', block', (hsame a han).2 ha' ▸ hblock', rfl⟩
    · rintro ⟨a, ha, block', hblock', rfl⟩
      have han : a ≠ node := by
        rintro rfl
        exact hk (hnode_old block' v ha hblock')
      exact ⟨a, (hsame a han).1.mpr ha, block', ((hsame a han).2 ha).trans hblock', rfl⟩

section Insert
variable {dict : Dict V} {t : Skeleton Addr} {mem : Memory V} {node : Addr} {key : Bytes}
  {value : V}

theorem Prepared.entryOf_eq (h : Prepared dict t mem node key value) {a : Addr}
    (ha : a ∈ t.inorder) :
    entryOf mem.nodes a = entryOf dict.mem.nodes a := by
  simp [entryOf, h.nodes a ha]

theorem Prepared.insert_found (hwf : WellFormed dict t) (h : Prepared dict t mem node key value)
    {pp : Addr} (hpp : pp ∈ t.inorder) (hkey : TreeSearch.orderAt dict.mem.nodes pp = order key) :
    ∃ m, write mem.nodes pp (fun n => { n with value := value }) = some m ∧
      WellFormed { dict with mem := { mem with nodes := m } } t ∧
        Rebound dict.mem.nodes m t.inorder t.inorder key value := by
  obtain ⟨n, hn⟩ := Option.isSome_iff_exists.mp (h.spells.alloc pp hpp)
  obtain ⟨m, hm, hchild, hcolor, -, hentry⟩ := exists_write_value hn value
  have hentry_pp : entryOf mem.nodes pp = some (n.key, n.value) := by simp [entryOf, hn]
  have horder (a : Addr) (ha : a ∈ t.inorder) :
      TreeSearch.orderAt m a = TreeSearch.orderAt dict.mem.nodes a := by
    rw [← h.orderAt a ha, TreeSearch.orderAt, TreeSearch.orderAt, hentry]
    split
    · simp_all
    · rfl
  have hnkey : cstr n.key = cstr key := by
    rw [← h.orderAt pp hpp, orderAt_eq hn] at hkey
    exact order_injective.mp hkey
  refine ⟨m, hm, ?_, ?_⟩
  · constructor
    case spells =>
      obtain ⟨hshaped, hroot, hnodup, halloc⟩ := h.spells
      refine ⟨hchild ▸ hshaped, hroot, hnodup, fun a ha => ?_⟩
      rw [← isSome_entryOf, hentry]
      split
      · rfl
      · rw [isSome_entryOf]
        exact halloc a ha
    case sorted => exact hwf.sorted.congr horder
    case black =>
      have := (h.allocated hwf).black hwf.black
      rwa [← hcolor] at this
    case below => exact fun a ha => h.below a (by simp [ha])
    case ring => exact h.ring
    case noOom => exact h.noOom
  · refine Rebound.of_entries hpp (by simp [hentry]) hnkey ?_ ?_ ?_
    · intro a ha
      exact ⟨Iff.rfl, fun hmem => by rw [hentry, if_neg ha, h.entryOf_eq hmem]⟩
    · intro a ha hne hkey'
      exact hne (hwf.sorted.eq_of_key ha hpp (hkey'.trans hkey.symm))
    · intro block v _ hblock
      obtain ⟨rfl, -⟩ : n.key = block ∧ n.value = v := by
        rw [← h.entryOf_eq hpp, hentry_pp] at hblock
        simpa using hblock
      exact hnkey

theorem Prepared.insert_vacant (hwf : WellFormed dict t) (h : Prepared dict t mem node key value)
    {fs : List (Frame Addr)} (hplug : plug .nil fs = t)
    (hbetween : Between (TreeSearch.orderAt dict.mem.nodes) (order key) fs)
    (hclimb : pathLinked dict.mem.nodes (pathOf fs) = true) :
    ∃ mem₁ root₁ m root t', linkNode mem dict.root node (pathOf fs).head? = some (mem₁, root₁) ∧
      fixAfterInsert mem₁.bound mem₁.nodes root₁ node = some (m, root) ∧
      WellFormed { dict with mem := { mem₁ with nodes := m }, root } t' ∧
        Rebound dict.mem.nodes m t.inorder t'.inorder key value := by
  obtain ⟨n, hn, hnkey, rfl, -, -⟩ := h.new
  subst hplug
  have hmem : (plug Skeleton.nil fs).inorder = before fs ++ after fs := by
    simp [inorder_plug, Skeleton.inorder]
  obtain ⟨m₁, lists, root₁, hlink, hlinked, hfocus, hring, hheight⟩ :=
    (h.allocated hwf).link hwf.black rfl hclimb
  obtain ⟨m, root, t', hfix, hspells, hinorder, hentry, hblack⟩ :=
    fixAfterInsert_spec hfocus hheight
  have hinorder' : t'.inorder = before fs ++ node :: after fs := by
    rw [hinorder]
    simp [inorder_plug, Skeleton.inorder]
  have hentry' (a : Addr) : entryOf m a = entryOf mem.nodes a := by rw [hentry, hlinked.entry]
  have horder (a : Addr) (ha : a ∈ before fs ++ after fs) :
      TreeSearch.orderAt m a = TreeSearch.orderAt dict.mem.nodes a := by
    rw [orderAt_congr (hentry' a), h.orderAt a (hmem ▸ ha)]
  have horder_node : TreeSearch.orderAt m node = order key := by
    rw [orderAt_congr (hentry' node), orderAt_eq hn]
    exact order_injective.mpr hnkey
  have hsplit (a : Addr) : a ∈ t'.inorder ↔ a = node ∨ a ∈ (plug Skeleton.nil fs).inorder := by
    rw [hinorder', hmem]
    simp only [List.mem_append, List.mem_cons]
    tauto
  refine ⟨_, _, m, root, t', hlink, hfix, ?_, ?_⟩
  · constructor
    case spells => exact hspells
    case sorted =>
      have hbetween' : Between (TreeSearch.orderAt m) (order key) fs :=
        ⟨fun a ha => by rw [horder a (by simp [ha])]; exact hbetween.lower a ha,
          fun a ha => by rw [horder a (by simp [ha])]; exact hbetween.upper a ha⟩
      rw [hinorder']
      exact hbetween'.sorted_insert horder_node ((hmem ▸ hwf.sorted).congr horder)
    case black => simp [hblack]
    case below =>
      intro a ha
      exact h.below a (List.mem_cons.mpr ((hsplit a).mp ha))
    case ring =>
      refine hring.imp (by simp) ?_
      rintro ⟨ring, hisring, hperm⟩
      refine ⟨ring, hisring, hperm.trans ?_⟩
      rw [hmem, hinorder']
      exact List.perm_middle.symm
    case noOom => exact h.noOom
  · refine Rebound.of_entries ((hsplit node).mpr (.inl rfl)) ?_ hnkey ?_ ?_ ?_
    · rw [hentry', entryOf, hn]
      rfl
    · intro a ha
      rw [hsplit]
      exact ⟨by simp [ha], fun hmem => by rw [hentry', h.entryOf_eq hmem]⟩
    · intro a ha _
      exact hbetween.not_mem (hmem ▸ ha)
    · intro block v hnode
      exact absurd hnode h.fresh

end Insert

theorem WellFormed.dictSet {dict : Dict V} {t : Skeleton Addr} (h : WellFormed dict t) {key : Bytes}
    (hkey : NulFree key) (hlen : key.length < treeKeyMaxLen) (hclimb : keyLinked dict key = true)
    (value : V) : ∃ dict' t', RedBlackTree.dictSet dict key value = some (0, dict') ∧ WellFormed dict' t' ∧
      Rebound dict.mem.nodes dict'.mem.nodes t.inorder t'.inorder key value := by
  obtain ⟨mem, hmake, hprep⟩ := h.makeTreeNode hkey hlen value
  obtain ⟨n, hn, hnkey, rfl, -, -⟩ := hprep.new
  have hdescend := (descend_eq n.key hprep.spells.shaped hprep.spells.alloc
    (Nat.lt_of_succ_lt hprep.length) []).1
  have hpath := (descend_eq key h.spells.shaped h.spells.alloc h.length_lt_bound []).2
  rw [order_injective.mpr hnkey, Skeleton.locate_congr hprep.orderAt, ← h.spells.root_eq,
    pathOf_nil, List.head?_nil] at hdescend
  rw [← h.spells.root_eq, pathOf_nil] at hpath
  rw [keyLinked, hpath] at hclimb
  cases hlocate : t.locate (orderAt dict.mem.nodes) (order key) [] with
  | inl pp =>
    rw [hlocate] at hdescend
    obtain ⟨hpp, hkey_pp⟩ := Skeleton.locate_inl hlocate
    obtain ⟨m, hwrite, hwf, hrebound⟩ := hprep.insert_found h hpp hkey_pp
    exact ⟨_, t, by simp [RedBlackTree.dictSet, hmake, insertTreeNode, hn, hdescend, hwrite],
      hwf, hrebound⟩
  | inr fs =>
    rw [hlocate] at hdescend hclimb
    obtain ⟨hplug, hbetween⟩ := Skeleton.locate_inr hlocate h.sorted ⟨by simp [before], by simp [after]⟩
    obtain ⟨mem₁, root₁, m, root, t', hlink, hfix, hwf, hrebound⟩ :=
      hprep.insert_vacant h hplug hbetween hclimb
    exact ⟨_, t', by simp [RedBlackTree.dictSet, hmake, insertTreeNode, hn, hdescend, hlink, hfix], hwf,
      hrebound⟩

def lastSet (calls : List (Bytes × V)) (key : Bytes) : Option V :=
  (calls.filter fun call => call.1 = key).getLast?.map Prod.snd

theorem lastSet_concat (calls : List (Bytes × V)) (key : Bytes) (value : V) (k : Bytes) :
    lastSet (calls ++ [(key, value)]) k = if k = key then some value else lastSet calls k := by
  by_cases hk : k = key
  · simp [lastSet, hk]
  · simp [lastSet, hk, Ne.symm hk]

/-- Both readers return what the calls that came before bound. -/
def MapLaw (dict : Dict V) (calls : List (Bytes × V)) : Prop :=
  ∀ key value, dictGet dict key value = some (match lastSet calls (cstr key) with
      | some v => (0, v)
      | none => (-1, value)) ∧
    dictHas dict key = some (lastSet calls (cstr key)).isSome

theorem WellFormed.mapLaw {dict : Dict V} {t : Skeleton Addr} (h : WellFormed dict t)
    {calls : List (Bytes × V)} (hbinds : ∀ key value,
      Binds dict.mem.nodes t.inorder key value ↔ lastSet calls key = some value) :
    MapLaw dict calls := by
  intro key value
  obtain ⟨found, hfind, hfound⟩ := h.find key
  cases found with
  | none =>
    have hlast : lastSet calls (cstr key) = none :=
      Option.eq_none_iff_forall_not_mem.mpr fun v hv => hfound v ((hbinds _ v).mpr hv)
    simp [dictGet, dictHas, hfind, hlast]
  | some a =>
    obtain ⟨n, hn, hvalue⟩ := hfound
    have hlast : lastSet calls (cstr key) = some n.value :=
      (hbinds _ _).mp ((hvalue n.value).mpr rfl)
    simp [dictGet, dictHas, hfind, hlast, hn]

def dictMachine (V : Type) : Machine (Dict V) (Bytes × V) Int where
  step dict call := dictSet dict call.1 call.2

/-- In every run whose repairs follow right parent pointers only, the dictionary
is the finite map that the calls describe. -/
theorem dict_finite_map {oom : Addr → Bool} (hoom : ∀ a, oom a = false) (calls : List (Bytes × V))
    (hkeys : ∀ call ∈ calls, NulFree call.1 ∧ call.1.length < treeKeyMaxLen)
    (hlinked : (dictMachine V).Throughout (fun dict call => keyLinked dict call.1 = true)
      (dictInit (Memory.fresh oom)) calls) :
    ∃ history dict, (dictMachine V).exec (dictInit (Memory.fresh oom)) calls = some (history, dict) ∧
      (∀ st ∈ history, st.output = 0) ∧ MapLaw dict calls := by
  let Inv (history : List (Step (Dict V) (Bytes × V) Int)) (dict : Dict V) : Prop :=
    (∃ t, WellFormed dict t ∧ ∀ key value, Binds dict.mem.nodes t.inorder key value ↔
      lastSet (history.map Step.input) key = some value) ∧ ∀ st ∈ history, st.output = 0
  have hinit : Inv [] (dictInit (Memory.fresh oom)) := by
    refine ⟨⟨.nil, dictInit_wellFormed oom hoom, fun key value => ?_⟩, by simp⟩
    simp [Binds, Skeleton.inorder, lastSet]
  have hstep : ∀ history dict call, Inv history dict →
      (keyLinked dict call.1 = true ∧ NulFree call.1 ∧ call.1.length < treeKeyMaxLen) →
      ∃ o dict', (dictMachine V).step dict call = some (o, dict') ∧
        Inv (history ++ [⟨dict, call, o, dict'⟩]) dict' := by
    rintro history dict ⟨key, value⟩ ⟨⟨t, hwf, hbinds⟩, hzero⟩ ⟨hclimb, hkey, hlen⟩
    obtain ⟨dict', t', hset, hwf', hrebound⟩ := hwf.dictSet hkey hlen hclimb value
    refine ⟨0, dict', hset, ⟨t', hwf', fun k v => ?_⟩, ?_⟩
    · rw [hrebound, List.map_append, List.map_singleton, lastSet_concat, cstr_of_nulFree hkey]
      split
      · simp [eq_comm]
      · exact hbinds k v
    · simpa [or_imp, forall_and] using hzero
  obtain ⟨history, dict, hexec, ⟨⟨t, hwf, hbinds⟩, hzero⟩, -⟩ :=
    Machine.exec_invariant hstep hinit (hlinked.and_inputs hkeys)
  have hinputs := (Machine.exec_inputs hexec).2 fun _ _ => rfl
  rw [List.nil_append, hinputs] at hbinds
  exact ⟨history, dict, hexec, hzero, hwf.mapLaw hbinds⟩

/-- Insertions with recolourings, single and double rotations and an overwritten
value. -/
def mapCalls : List (Bytes × Nat) :=
  [(ascii "m", 0), (ascii "c", 1), (ascii "x", 2), (ascii "a", 3), (ascii "b", 4), (ascii "z", 5),
    (ascii "y", 6), (ascii "c", 7)]

theorem dict_finite_map_calls :
    ∃ history dict, (dictMachine Nat).exec (dictInit (Memory.fresh fun _ => false)) mapCalls =
      some (history, dict) ∧ (∀ st ∈ history, st.output = 0) ∧ MapLaw dict mapCalls :=
  dict_finite_map (fun _ => rfl) mapCalls (by decide) (by decide +kernel)

/-- Insertions of which the last follows a parent pointer that an earlier
rotation left behind. -/
def losingCalls : List (Bytes × Nat) :=
  [(ascii "0", 0), (ascii "1", 1), (ascii "2", 2), (ascii "5", 3), (ascii "6", 4), (ascii "3", 5),
    (ascii "8", 6), (ascii "7", 7), (ascii "4", 8)]

theorem dictSet_loses_key :
    (∀ call ∈ losingCalls, NulFree call.1 ∧ call.1.length < treeKeyMaxLen) ∧
      ((dictMachine Nat).exec (dictInit (Memory.fresh fun _ => false)) losingCalls).bind
        (fun run => dictGet run.2 (ascii "6") 9) = some (-1, 9) ∧
      lastSet losingCalls (ascii "6") = some 4 ∧
      ¬∃ history dict, (dictMachine Nat).exec (dictInit (Memory.fresh fun _ => false)) losingCalls =
        some (history, dict) ∧ MapLaw dict losingCalls := by
  have hget : ((dictMachine Nat).exec (dictInit (Memory.fresh fun _ => false)) losingCalls).bind
      (fun run => dictGet run.2 (ascii "6") 9) = some (-1, 9) := by decide +kernel
  have hlast : lastSet losingCalls (ascii "6") = some 4 := by decide +kernel
  refine ⟨by decide, hget, hlast, ?_⟩
  rintro ⟨history, dict, hexec, hlaw⟩
  have hkey : cstr (ascii "6") = ascii "6" := by decide
  have hread := (hlaw (ascii "6") 9).1
  rw [hkey, hlast] at hread
  rw [hexec, Option.bind_some, hread] at hget
  simp at hget

end SmtpMta.Common.Dictionary
