import SmtpMta.Common.TreeBalance

/-! The parent pointers of the dictionary's tree. A rotation leaves the parent
pointer of the subtree it moves behind; that subtree is empty only in the first
turn of a repair. -/
namespace SmtpMta.Common.TreeLinks
open Library.CString Library.SearchTree Library.RedBlack Library.ParentLinks Library.Trace
open ListHead RedBlackTree TreeRotation TreeRepair TreeSearch TreeInsert Dictionary TreeBalance

variable {V : Type}

def reached (dict : Dict V) (path : List Dir) : Option Addr :=
  follow (childOf dict.mem.nodes) dict.root path

/-- Every parent pointer names the one node that points down to it, and freeing
the tree frees each of its nodes once. -/
structure Consistent (dict : Dict V) : Prop where
  root : ∀ top, dict.root = some top → parentOf dict.mem.nodes top = none
  child : ∀ path a, reached dict path = some a → ∀ d c, childOf dict.mem.nodes d a = some c →
    parentOf dict.mem.nodes c = some a
  once : ∀ path path' a, reached dict path = some a → reached dict path' = some a → path = path'
  freed : ∃ m, freeTreeNode dict.mem.bound dict.mem.nodes dict.root = some m ∧
    ∀ a, ((∃ path, reached dict path = some a) → m a = none) ∧
      ((∀ path, reached dict path ≠ some a) → m a = dict.mem.nodes a)

theorem freeTreeNode_spec {bound : Nat} {m : Nodes V} {t : Skeleton Addr}
    (hshaped : Shaped (childOf m) t) (hnodup : t.inorder.Nodup)
    (halloc : ∀ a ∈ t.inorder, (m a).isSome) (hbound : t.inorder.length < bound) :
    ∃ m', freeTreeNode bound m t.root = some m' ∧ (∀ a ∈ t.inorder, m' a = none) ∧
      ∀ a, a ∉ t.inorder → m' a = m a := by
  induction t generalizing bound m with
  | nil =>
    obtain ⟨bound, rfl⟩ := Nat.exists_eq_succ_of_ne_zero (Nat.ne_zero_of_lt hbound)
    exact ⟨m, rfl, by simp [Skeleton.inorder], fun _ _ => rfl⟩
  | node left a right ihl ihr =>
    obtain ⟨bound, rfl⟩ := Nat.exists_eq_succ_of_ne_zero (Nat.ne_zero_of_lt hbound)
    obtain ⟨hl, hr, hleft, hright⟩ := hshaped
    obtain ⟨⟨hal, har⟩, hnl, hnr, hdisjoint⟩ := (nodup_nodeAt (d := .left)).mp hnodup
    simp only [Skeleton.inorder, List.mem_append, List.mem_cons, List.length_append,
      List.length_cons] at halloc hbound
    obtain ⟨n, hn⟩ := Option.isSome_iff_exists.mp (halloc a (by simp))
    have hl' : n.left = left.root := by simpa [childOf, hn, TreeNode.child] using hl
    have hr' : n.right = right.root := by simpa [childOf, hn, TreeNode.child] using hr
    obtain ⟨m₁, hfree₁, hgone₁, hkept₁⟩ := @ihr bound m hright hnr
      (fun b hb => halloc b (by simp [hb])) (by omega)
    have hleft_kept (b : Addr) (hb : b ∈ left.inorder) : m₁ b = m b :=
      hkept₁ b (hdisjoint hb)
    obtain ⟨m₂, hfree₂, hgone₂, hkept₂⟩ := @ihl bound m₁
      (hleft.congr fun b hb d => by rw [childOf, childOf, hleft_kept b hb]) hnl
      (fun b hb => by rw [hleft_kept b hb]; exact halloc b (by simp [hb])) (by omega)
    have hn₁ : m₁ a = some n := (hkept₁ a har).trans hn
    have hn₂ : m₂ a = some n := (hkept₂ a hal).trans hn₁
    refine ⟨Function.update m₂ a none, ?_, ?_, ?_⟩
    · rw [Skeleton.root, freeTreeNode]
      simp [hn, hr', hfree₁, hn₁, hl', hfree₂, hn₂]
    · intro b hb
      by_cases hba : b = a
      · simp [hba]
      · rw [Function.update_of_ne hba]
        by_cases hbl : b ∈ left.inorder
        · exact hgone₂ b hbl
        · rw [hkept₂ b hbl]
          exact hgone₁ b (by simpa [Skeleton.inorder, hba, hbl] using hb)
    · intro b hb
      simp only [Skeleton.inorder, List.mem_append, List.mem_cons, not_or] at hb
      rw [Function.update_of_ne hb.2.1, hkept₂ b hb.1, hkept₁ b hb.2.2]

theorem sound_consistent {dict : Dict V} {t : Skeleton Addr} (h : Sound dict t)
    (hparents : Parented (parentOf dict.mem.nodes) none t) : Consistent dict := by
  obtain ⟨hshaped, hroot, hnodup, halloc⟩ := h.spells
  have hreached (path : List Dir) : reached dict path = follow (childOf dict.mem.nodes) t.root path := by
    rw [reached, hroot]
  constructor
  case root =>
    intro top htop
    exact hparents.root (hroot.symm.trans htop)
  case child =>
    intro path a hpath d c hchild
    exact hparents.follow_child hshaped (hreached path ▸ hpath) hchild
  case once =>
    intro path path' a hpath hpath'
    exact follow_injective hshaped hnodup (hreached path ▸ hpath) (hreached path' ▸ hpath')
  case freed =>
    obtain ⟨m, hfree, hgone, hkept⟩ := freeTreeNode_spec hshaped hnodup halloc h.length_lt_bound
    refine ⟨m, hroot ▸ hfree, fun a => ⟨?_, fun hnot => hkept a fun ha => ?_⟩⟩
    · rintro ⟨path, hpath⟩
      exact hgone a (mem_of_follow hshaped (hreached path ▸ hpath))
    · obtain ⟨path, hpath⟩ := exists_follow hshaped ha
      exact hnot path ((hreached path).trans hpath)

theorem pathLinked_of_parented {m : Nodes V} {fs : List (Frame Addr)}
    (h : ParentedFrames (parentOf m) fs) : pathLinked m (pathOf fs) = true := by
  induction hlen : fs.length using Nat.strong_induction_on generalizing fs with
  | _ n ih =>
  match fs with
  | [] => rfl
  | [f] => rfl
  | f :: g :: rest =>
    obtain ⟨hf, -, hg, -, hrest⟩ := h
    have houter : ParentedFrames (parentOf m) (⟨f.dir, g.addr, .nil⟩ :: rest) :=
      ⟨hg, trivial, hrest⟩
    simp only [List.length_cons] at hlen
    rw [pathOf_cons, pathOf_cons, pathLinked_cons_cons]
    refine fun _ => ⟨hf, by simpa using hg, ?_⟩
    split
    · exact ih rest.length (by omega) hrest rfl
    · exact ih (rest.length + 1) (by omega) houter rfl

section Turn
variable {m m' : Nodes V} {root root' : Option Addr} {node node' : Addr} {turn : Turn}
  {s s' : Skeleton Addr} {f : Frame Addr} {fs fs' : List (Frame Addr)}

/-- A turn keeps the parent pointers right if it recolours, or if it rotates at
a new leaf: then the subtree that the rotation moves is empty. -/
theorem turned_parented {height : Nat} (h : Turned m m' node turn s (f :: fs) node' s' fs')
    (hnodup : (plug s (f :: fs)).inorder.Nodup) (hred : redIn m f.addr = true)
    (hs : Balanced (redIn m) s height) (hframes : BalancedFrames (redIn m) (f :: fs) height)
    (hhere : Parented (parentOf m) (some f.addr) s)
    (haround : ParentedFrames (parentOf m) (f :: fs))
    (hleaf : turn ≠ .recolour → redIn m node = true ∧ s = .node .nil node .nil) :
    Parented (parentOf m') (fs'.map Frame.addr).head? s' ∧ ParentedFrames (parentOf m') fs' := by
  have hkept := h.kept hnodup
  -- a red leaf has no black node below, so what is beside it is empty
  have hempty (hturn : turn ≠ .recolour) : height = 0 := by
    obtain ⟨hnode, rfl⟩ := hleaf hturn
    obtain ⟨below, hbelow, hnil, -⟩ := hs.height
    simp only [hnode, if_true, Nat.add_zero] at hbelow
    exact hbelow.trans hnil
  obtain ⟨hp, hv, haround⟩ := haround
  cases h with
  | @recolour d e p _ u s v w rest hu hcolor links color =>
    obtain ⟨hg, hw, hrest⟩ := haround
    rw [links.parent]
    exact ⟨parented_nodeAt.mpr ⟨hg, parented_nodeAt.mpr ⟨hp, hhere, hv⟩, hw⟩, hrest⟩
  | @outer d p g s v w rest hblack rotated =>
    obtain ⟨-, rfl⟩ := hleaf (by simp)
    obtain rfl := hempty (by simp)
    obtain ⟨-, hv', hvroot, -⟩ := hframes.below_red hred
    obtain rfl := hv'.eq_nil hvroot
    obtain ⟨hg, hw, hrest⟩ := haround
    obtain ⟨⟨hgl, hgw⟩, hl, -, hlw⟩ := nodup_nodeAt.mp (@nodup_plug _ _ rest hnodup).1
    obtain ⟨⟨hpn, -⟩, -⟩ := nodup_nodeAt.mp hl
    simp only [Skeleton.mem_inorder_nodeAt, not_or] at hgl
    have hother (t : Skeleton Addr) (hgt : g ∉ t.inorder) (hpt : p ∉ t.inorder) (a : Addr)
        (ha : a ∈ t.inorder) : parentOf m' a = parentOf m a :=
      rotated.parent_other a (fun heq => hgt (heq ▸ ha)) fun heq => hpt (heq ▸ ha)
    refine ⟨hhere.congr (hother _ hgl.1 hpn), rotated.parent_p.trans hg, ?_,
      hrest.congr hkept.parent⟩
    refine parented_nodeAt.mpr ⟨rotated.parent_g, trivial, hw.congr (hother w hgw ?_)⟩
    exact hlw (Skeleton.mem_inorder_nodeAt.mpr (by simp))
  | @inner e p g x y v w rest m₁ hblack lower upper =>
    obtain ⟨-, hs_eq⟩ := hleaf (by simp)
    obtain ⟨rfl, rfl⟩ : x = .nil ∧ y = .nil := by
      cases e <;> simpa [Skeleton.nodeAt, Dir.flip, and_comm] using hs_eq
    obtain ⟨hg, hw, hrest⟩ := haround
    obtain ⟨⟨hgl, hgw⟩, hl, -, hlw⟩ := nodup_nodeAt.mp (@nodup_plug _ _ fs' hnodup).1
    obtain ⟨⟨hpn, hpv⟩, -, -, hnv⟩ := nodup_nodeAt.mp hl
    simp only [Skeleton.mem_inorder_nodeAt, Skeleton.inorder, List.not_mem_nil, false_or, or_false,
      not_or] at hgl hpn
    have hother (t : Skeleton Addr) (hgt : g ∉ t.inorder) (hpt : p ∉ t.inorder)
        (hnt : node ∉ t.inorder) (a : Addr) (ha : a ∈ t.inorder) : parentOf m' a = parentOf m a := by
      have hag : a ≠ g := fun heq => hgt (heq ▸ ha)
      have hap : a ≠ p := fun heq => hpt (heq ▸ ha)
      have han : a ≠ node := fun heq => hnt (heq ▸ ha)
      rw [upper.parent_other a hag han, lower.parent_other a hap han]
    have hnode_v : node ∉ v.inorder := hnv (Skeleton.mem_inorder_nodeAt.mpr (by simp))
    have hp_w : p ∉ w.inorder := hlw (Skeleton.mem_inorder_nodeAt.mpr (by simp))
    have hnode_w : node ∉ w.inorder := hlw (by simp [Skeleton.mem_inorder_nodeAt])
    refine ⟨parented_nodeAt.mpr ⟨?_, parented_nodeAt.mpr ⟨?_, ?_, trivial⟩,
      parented_nodeAt.mpr ⟨upper.parent_g, trivial, hw.congr (hother w hgw hp_w hnode_w)⟩⟩,
      hrest.congr hkept.parent⟩
    · rw [upper.parent_p, lower.parent_other g hgl.2.1 hgl.1, hg]
    · rw [upper.parent_other p (Ne.symm hgl.2.1) hpn, lower.parent_g]
    · exact hv.congr (hother v hgl.2.2 hpv hnode_v)

/-- The parent pointers are right, and will be: a rotation comes at the leaf
that was inserted or not at all. -/
structure Tied (m : Nodes V) (node : Addr) (s : Skeleton Addr) (fs : List (Frame Addr)) : Prop where
  poised : Poised m node s fs
  here : Parented (parentOf m) (fs.map Frame.addr).head? s
  around : ParentedFrames (parentOf m) fs
  turns : (redIn m node = true ∧ s = .node .nil node .nil ∧
      ∀ t ∈ (pathTurns m (pathOf fs)).tail, t = .recolour) ∨
    ∀ t ∈ pathTurns m (pathOf fs), t = .recolour

theorem turned_tied (h : Turned m m' node turn s (f :: fs) node' s' fs')
    (hfocus : Focus m root node s (f :: fs)) (hred : colorOf m f.addr = some .r)
    (hfocus' : Focus m' root' node' s' fs') (htied : Tied m node s (f :: fs)) :
    Tied m' node' s' fs' := by
  obtain ⟨hpoised, hhere, haround, hturns⟩ := htied
  rw [turned_pathTurns h hfocus hred hfocus', List.tail_cons] at hturns
  have hlater : ∀ t ∈ pathTurns m' (pathOf fs'), t = .recolour := by
    rcases hturns with ⟨-, -, hturns⟩ | hturns
    · exact hturns
    · exact fun t ht => hturns t (by simp [ht])
  have hleaf (hturn : turn ≠ .recolour) : redIn m node = true ∧ s = .node .nil node .nil := by
    rcases hturns with ⟨hnode, hs, -⟩ | hturns
    · exact ⟨hnode, hs⟩
    · exact absurd (hturns turn (by simp)) hturn
  obtain ⟨height, hs, hframes⟩ := hpoised.balanced
  obtain ⟨hhere', haround'⟩ := turned_parented h hfocus.spells.nodup (redIn_of_eq hred) hs hframes
    hhere haround hleaf
  exact ⟨turned_poised h hfocus hred hfocus' hpoised, hhere', haround', .inr hlater⟩

end Turn

/-- A repair after this call rotates in its first turn or not at all; or there
is none, as the call gets no node. -/
def RotatesFirst (dict : Dict V) (key : Bytes) : Prop :=
  dict.mem.oom dict.mem.brk = true ∨ ∀ t ∈ (keyTurns dict key).tail, t = .recolour

instance (dict : Dict V) (key : Bytes) : Decidable (RotatesFirst dict key) :=
  inferInstanceAs (Decidable (_ ∨ ∀ t ∈ _, _))

theorem apart_of_tail {turns : List Turn} (h : ∀ t ∈ turns.tail, t = .recolour) : Apart turns := by
  cases turns with
  | nil => simp [Apart]
  | cons t turns =>
    simp only [List.tail_cons] at h
    induction turns generalizing t with
    | nil => simp [Apart]
    | cons t' turns ih =>
      have ht' : t' = .recolour := h t' (by simp)
      exact List.isChain_cons_cons.mpr ⟨by simp [ht'], ih t' fun u hu => h u (by simp [hu])⟩

theorem linking_tied {dict : Dict V} {t : Skeleton Addr} {fs : List (Frame Addr)} {mem : Memory V}
    {root : Option Addr} {node : Addr} {key : Bytes} (h : Linking dict t fs mem root node)
    (hsound : Sound dict t) (hrb : IsRedBlack (redIn dict.mem.nodes) t)
    (haround : ParentedFrames (parentOf dict.mem.nodes) fs)
    (hpath : insertPath dict key = pathOf fs)
    (hfirst : ∀ t ∈ (keyTurns dict key).tail, t = .recolour) :
    Tied mem.nodes node (.node .nil node .nil) fs := by
  refine ⟨linking_poised h hsound hrb hpath (apart_of_tail hfirst),
    ⟨h.focus.link, trivial, trivial⟩,
    haround.congr fun f hf a ha => h.parent a ?_, .inl ⟨redIn_of_eq h.red, rfl, ?_⟩⟩
  · exact h.whole ▸ mem_inorder_plug.mpr (.inr ⟨f, hf, ha⟩)
  · rwa [linking_pathTurns h hsound hpath]

theorem dictSet_parented {dict : Dict V} {t : Skeleton Addr} (h : Sound dict t)
    (hrb : IsRedBlack (redIn dict.mem.nodes) t)
    (hparents : Parented (parentOf dict.mem.nodes) none t)
    {key : Bytes} (hfirst : RotatesFirst dict key) (value : V) :
    ∃ r dict' t', dictSet dict key value = some (r, dict') ∧ Sound dict' t' ∧
      IsRedBlack (redIn dict'.mem.nodes) t' ∧ Parented (parentOf dict'.mem.nodes) none t' := by
  cases hoom : dict.mem.oom dict.mem.brk with
  | true =>
    obtain ⟨mem, hset, hnodes, hsound⟩ := h.dictSet_oom hoom key value
    exact ⟨-1, _, t, hset, hsound, by rwa [hnodes], by rwa [hnodes]⟩
  | false =>
    have hturns := hfirst.resolve_left (by simp [hoom])
    have hclimb : pathLinked dict.mem.nodes (insertPath dict key) = true := by
      have hpath := (descend_eq (strncpy [] key treeKeyMaxLen) h.spells.shaped h.spells.alloc
        h.length_lt_bound []).2
      rw [insertPath, h.spells.root_eq, ← pathOf_nil, hpath]
      cases hlocate : t.locate (orderAt dict.mem.nodes) (order (strncpy [] key treeKeyMaxLen)) [] with
      | inl a => rfl
      | inr fs =>
        have hwhole : plug .nil fs = t := Skeleton.plug_of_locate hlocate
        exact pathLinked_of_parented (parented_plug.mp (hwhole ▸ hparents)).2
    rcases h.dictSet hoom hclimb value with ⟨mem, hset, hsound, hkept⟩ |
      ⟨fs, mem, root, node, hpath, hlinking, hset⟩
    · exact ⟨0, _, t, hset, hsound, isRedBlack_congr hrb fun a ha => (hkept a ha).1,
        hparents.congr fun a ha => (hkept a ha).2⟩
    · have haround := (parented_plug.mp (hlinking.whole ▸ hparents)).2
      obtain ⟨m₁, m', root', node', s', fs', top, hfix, htied, hdone, hspells, htop, hinorder, -,
        hrecolored, hcolor⟩ := hlinking.focus.repair (fun h hred h' hturned =>
          turned_tied hturned h hred h') (linking_tied hlinking h hrb haround hpath hturns)
            hlinking.height
      refine ⟨0, _, plug s' fs', by rw [hset, hfix]; rfl, ?_, ?_, ?_⟩
      · exact hlinking.sound hspells hinorder htop (by simp [hcolor])
      · exact htied.poised.isRedBlack hdone hspells.nodup htop hcolor
      · rw [hrecolored.parent]
        exact parented_plug.mpr ⟨htied.here, htied.around⟩

/-- In every run whose keys end in their arrays, and whose repairs rotate in their first turn or
not at all, the parent pointers are right at any time. -/
theorem dict_consistent (oom : Addr → Bool) (calls : List (Bytes × V))
    (hfirst : (dictMachine V).Throughout
      (fun dict call => Terminated call.1 ∧ RotatesFirst dict call.1) (dictInit (Memory.fresh oom)) calls) :
    ∃ history dict, (dictMachine V).exec (dictInit (Memory.fresh oom)) calls =
      some (history, dict) ∧ Consistent dict ∧ ∀ st ∈ history, Consistent st.after := by
  let Inv (dict : Dict V) : Prop := ∃ t, Sound dict t ∧ IsRedBlack (redIn dict.mem.nodes) t ∧
    Parented (parentOf dict.mem.nodes) none t
  have hinit : Inv (dictInit (Memory.fresh oom)) :=
    ⟨.nil, dictInit_sound oom, ⟨blackRoot_nil, trivial, 0, rfl⟩, trivial⟩
  have hstep : ∀ dict call, Inv dict → (Terminated call.1 ∧ RotatesFirst dict call.1) →
      ∃ o dict', (dictMachine V).step dict call = some (o, dict') ∧ Inv dict' := by
    rintro dict ⟨key, value⟩ ⟨t, hsound, hrb, hparents⟩ ⟨-, hfirst⟩
    obtain ⟨r, dict', t', hset, hsound', hrb', hparents'⟩ :=
      dictSet_parented hsound hrb hparents hfirst value
    exact ⟨r, dict', hset, t', hsound', hrb', hparents'⟩
  have hconsistent (dict : Dict V) (h : Inv dict) : Consistent dict := by
    obtain ⟨t, hsound, -, hparents⟩ := h
    exact sound_consistent hsound hparents
  obtain ⟨history, dict, hexec, hlast, hall⟩ := Machine.exec_always hstep hinit hfirst
  exact ⟨history, dict, hexec, hconsistent dict hlast, fun st hst => hconsistent _ (hall st hst)⟩

def linkedCalls : List (Bytes × Nat) :=
  [(ascii "m", 0), (ascii "c", 1), (ascii "x", 2), (ascii "a", 3), (ascii "b", 4), (ascii "z", 5),
    (ascii "y", 6)]

theorem dict_consistent_calls :
    ∃ history dict, (dictMachine Nat).exec (dictInit (Memory.fresh fun _ => false)) linkedCalls =
      some (history, dict) ∧ Consistent dict ∧ ∀ st ∈ history, Consistent st.after :=
  dict_consistent (fun _ => false) linkedCalls (by decide +kernel)

def unlinkingCalls : List (Bytes × Nat) :=
  [(ascii "0", 0), (ascii "1", 1), (ascii "2", 2), (ascii "3", 3), (ascii "4", 4), (ascii "6", 5),
    (ascii "5", 6)]

theorem dictSet_unlinks :
    ∃ history dict, (dictMachine Nat).exec (dictInit (Memory.fresh fun _ => false)) unlinkingCalls =
      some (history, dict) ∧ ¬Consistent dict := by
  have hrun : ((dictMachine Nat).exec (dictInit (Memory.fresh fun _ => false)) unlinkingCalls).map
      (fun run => decide (reached run.2 [.left] = some 1 ∧
        childOf run.2.mem.nodes .right 1 = some 2 ∧ parentOf run.2.mem.nodes 2 ≠ some 1)) =
      some true := by decide +kernel
  obtain ⟨⟨history, dict⟩, hexec, hlinks⟩ := Option.map_eq_some_iff.mp hrun
  obtain ⟨hreached, hchild, hparent⟩ := of_decide_eq_true hlinks
  exact ⟨history, dict, hexec, fun h => hparent (h.child _ _ hreached _ _ hchild)⟩

end SmtpMta.Common.TreeLinks
