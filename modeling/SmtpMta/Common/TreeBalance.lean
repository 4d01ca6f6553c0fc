import SmtpMta.Common.Dictionary
import SmtpMta.Library.ParentLinks
import SmtpMta.Library.RedBlack
import Mathlib.Data.List.Chain

/-! The balance of the dictionary's tree. A repair keeps it, except where it
takes an inner turn from a node that an inner turn has just coloured black. -/
namespace SmtpMta.Common.TreeBalance
open Library.CString Library.SearchTree Library.RedBlack Library.ParentLinks Library.Trace
open ListHead RedBlackTree TreeRotation TreeRepair TreeSearch TreeInsert Dictionary

variable {V : Type}

/-- The turns that a repair takes from below `p`, with the path above `p` given
lowest first, as long as the parent pointers on it are right. -/
def climbTurns (m : Nodes V) : Addr × Dir → List (Addr × Dir) → List Turn
  | _, [] => []
  | (p, d), (g, e) :: rest =>
    if colorOf m p = some .r then
      if (childOf m e.flip g).bind (colorOf m) = some .r then
        .recolour :: match rest with
          | [] => []
          | q :: rest => climbTurns m q rest
      else if d ≠ e then
        .inner :: match rest with
          | [] => []
          | q :: rest => climbTurns m q rest
      else .outer :: climbTurns m (g, d) rest
    else []

def pathTurns (m : Nodes V) : List (Addr × Dir) → List Turn
  | [] => []
  | q :: rest => climbTurns m q rest

/-- The turns of the repair after an insertion. -/
def keyTurns (dict : Dict V) (key : Bytes) : List Turn :=
  pathTurns dict.mem.nodes (insertPath dict key)

theorem pathTurns_cons_cons (m : Nodes V) (p g : Addr) (d e : Dir) (rest : List (Addr × Dir)) :
    pathTurns m ((p, d) :: (g, e) :: rest) =
      if colorOf m p = some .r then
        if (childOf m e.flip g).bind (colorOf m) = some .r then .recolour :: pathTurns m rest
        else if d ≠ e then .inner :: pathTurns m rest
        else .outer :: pathTurns m ((g, d) :: rest)
      else [] := by
  cases rest <;> rfl

theorem pathTurns_of_ne {m : Nodes V} {q : Addr × Dir} (h : colorOf m q.1 ≠ some .r)
    (rest : List (Addr × Dir)) : pathTurns m (q :: rest) = [] := by
  cases rest with
  | nil => rfl
  | cons x rest => rw [pathTurns_cons_cons, if_neg h]

theorem pathTurns_congr {m m' : Nodes V} {p p' : Addr} {d : Dir} {rest : List (Addr × Dir)}
    (hcolor : colorOf m' p' = colorOf m p)
    (hcolors : ∀ x ∈ rest, colorOf m' x.1 = colorOf m x.1)
    (hbeside : ∀ x ∈ rest, (childOf m' x.2.flip x.1).bind (colorOf m') =
      (childOf m x.2.flip x.1).bind (colorOf m)) :
    pathTurns m' ((p', d) :: rest) = pathTurns m ((p, d) :: rest) := by
  induction hlen : rest.length using Nat.strong_induction_on generalizing p p' d rest with
  | _ n ih =>
  match rest with
  | [] => rfl
  | (g, e) :: rest =>
    simp only [List.forall_mem_cons] at hcolors hbeside
    have houter : pathTurns m' ((g, d) :: rest) = pathTurns m ((g, d) :: rest) :=
      ih rest.length (by simp [← hlen]) hcolors.1 hcolors.2 hbeside.2 rfl
    have hinner : pathTurns m' rest = pathTurns m rest := by
      match rest with
      | [] => rfl
      | x :: rest =>
        simp only [List.forall_mem_cons] at hcolors hbeside
        refine ih rest.length ?_ hcolors.2.1 hcolors.2.2 hbeside.2.2 rfl
        simp only [← hlen, List.length_cons]
        omega
    rw [pathTurns_cons_cons, pathTurns_cons_cons, houter, hinner, hcolor, hbeside.1]

theorem framesKept_pathTurns {m m' : Nodes V} {hole hole' : Option Addr} {p p' : Addr} {d : Dir}
    {fs : List (Frame Addr)} (hkept : FramesKept m m' fs)
    (hframes : ShapedFrames (childOf m) hole fs) (hframes' : ShapedFrames (childOf m') hole' fs)
    (hcolor : colorOf m' p' = colorOf m p) :
    pathTurns m' ((p', d) :: pathOf fs) =
      pathTurns m ((p, d) :: pathOf fs) := by
  refine pathTurns_congr hcolor ?_ ?_ <;> intro x hx <;> obtain ⟨f, hf, rfl⟩ := List.mem_map.mp hx
  · exact hkept.color f hf _ (.inl rfl)
  · rw [childOf_flip_frame hframes hf, childOf_flip_frame hframes' hf]
    cases hroot : f.sibling.root with
    | none => rfl
    | some a => exact hkept.color f hf a (.inr (Skeleton.mem_inorder_of_root hroot))

theorem framesKept_pathTurns_tail {m m' : Nodes V} {hole hole' : Option Addr}
    {fs : List (Frame Addr)} (hkept : FramesKept m m' fs)
    (hframes : ShapedFrames (childOf m) hole fs) (hframes' : ShapedFrames (childOf m') hole' fs) :
    pathTurns m' (pathOf fs) = pathTurns m (pathOf fs) := by
  cases fs with
  | nil => rfl
  | cons f fs =>
    exact framesKept_pathTurns hkept.tail hframes.2.2.2 hframes'.2.2.2
      (hkept.color f (by simp) _ (.inl rfl))

/-- The colours as the rules of balance read them. -/
def redIn (m : Nodes V) (a : Addr) : Bool := colorOf m a = some .r

theorem redIn_congr {m m' : Nodes V} {a b : Addr} (h : colorOf m' a = colorOf m b) :
    redIn m' a = redIn m b := by
  rw [redIn, redIn, h]

theorem redIn_of_eq {m : Nodes V} {a : Addr} (h : colorOf m a = some .r) : redIn m a = true := by
  simp [redIn, h]

theorem redIn_of_ne {m : Nodes V} {a : Addr} (h : colorOf m a ≠ some .r) : redIn m a = false := by
  simp [redIn, h]

theorem blackRoot_of_ne {m : Nodes V} {w : Skeleton Addr}
    (h : w.root.bind (colorOf m) ≠ some .r) : BlackRoot (redIn m) w := by
  intro a ha
  exact redIn_of_ne (by simpa [ha] using h)

section Turn
variable {m m' : Nodes V} {root root' : Option Addr} {node node' : Addr} {turn : Turn}
  {s s' : Skeleton Addr} {f : Frame Addr} {fs fs' : List (Frame Addr)}

theorem turned_pathTurns (h : Turned m m' node turn s (f :: fs) node' s' fs')
    (hfocus : Focus m root node s (f :: fs)) (hred : colorOf m f.addr = some .r)
    (hfocus' : Focus m' root' node' s' fs') :
    pathTurns m (pathOf (f :: fs)) = turn :: pathTurns m' (pathOf fs') := by
  obtain ⟨-, hframes⟩ := shaped_plug.mp hfocus.spells.shaped
  obtain ⟨-, hframes'⟩ := shaped_plug.mp hfocus'.spells.shaped
  have hkept := h.kept hfocus.spells.nodup
  cases h with
  | @recolour d e p _ u s v w rest hu hcolor =>
    have hbeside : childOf m e.flip node' = w.root := hframes.2.2.2.2.1
    rw [List.tail_cons] at hkept
    rw [pathOf_cons, pathOf_cons, pathTurns_cons_cons, if_pos hred, hbeside, hu, Option.bind_some,
      if_pos hcolor, framesKept_pathTurns_tail hkept hframes.2.2.2.2.2.2 hframes']
  | @outer d p g s v w rest hblack rotated =>
    have hbeside : childOf m d.flip g = w.root := hframes.2.2.2.2.1
    rw [List.tail_cons] at hkept
    rw [pathOf_cons, pathOf_cons, pathTurns_cons_cons, if_pos hred, hbeside, if_neg hblack,
      if_neg (by simp), pathOf_cons,
      framesKept_pathTurns hkept hframes.2.2.2.2.2.2 hframes'.2.2.2 rotated.color_p]
  | @inner e p g x y v w rest m₁ hblack =>
    have hbeside : childOf m e.flip g = w.root := hframes.2.2.2.2.1
    rw [List.tail_cons] at hkept
    rw [pathOf_cons, pathOf_cons, pathTurns_cons_cons, if_pos hred, hbeside, if_neg hblack,
      if_pos (by simp), framesKept_pathTurns_tail hkept hframes.2.2.2.2.2.2 hframes']

/-- No inner turn follows right after another one. -/
def Apart (turns : List Turn) : Prop :=
  turns.IsChain fun t t' => t = .inner → t' ≠ .inner

instance (turns : List Turn) : Decidable (Apart turns) :=
  inferInstanceAs (Decidable (List.IsChain _ _))

theorem Apart.tail {t : Turn} {turns : List Turn} (h : Apart (t :: turns)) : Apart turns :=
  List.IsChain.tail h

/-- The turns to come, with the one before them where it left a black node. -/
def turnsFrom (m : Nodes V) (node : Addr) (fs : List (Frame Addr)) : List Turn :=
  (if redIn m node then [] else [.inner]) ++ pathTurns m (pathOf fs)

/-- The subtree in focus and what is around it are balanced, and an inner turn
will only be taken from a red node. -/
structure Poised (m : Nodes V) (node : Addr) (s : Skeleton Addr) (fs : List (Frame Addr)) :
    Prop where
  balanced : ∃ height, Balanced (redIn m) s height ∧ BalancedFrames (redIn m) fs height
  apart : Apart (turnsFrom m node fs)

theorem turned_poised (h : Turned m m' node turn s (f :: fs) node' s' fs')
    (hfocus : Focus m root node s (f :: fs)) (hred : colorOf m f.addr = some .r)
    (hfocus' : Focus m' root' node' s' fs') (hpoised : Poised m node s (f :: fs)) :
    Poised m' node' s' fs' := by
  obtain ⟨⟨height, hs, hframes⟩, hapart⟩ := hpoised
  have hnodup := hfocus.spells.nodup
  have hturns := turned_pathTurns h hfocus hred hfocus'
  have hredIn := redIn_of_eq hred
  rw [turnsFrom, hturns] at hapart
  -- without the turn before this one, and without this one
  have hthis : Apart (turn :: pathTurns m' (pathOf fs')) := by
    cases hnode : redIn m node with
    | true => simpa [hnode] using hapart
    | false => exact Apart.tail (by simpa [hnode] using hapart)
  cases h with
  | @recolour d e p _ u s v w rest hu hcolor links color =>
    obtain ⟨⟨hgl, hgw⟩, -⟩ := nodup_nodeAt.mp (@nodup_plug _ _ fs' hnodup).1
    have hgp : p ≠ node' := by
      rintro rfl
      exact hgl (by simp [Skeleton.mem_inorder_nodeAt])
    have hgu : u ≠ node' := by
      rintro rfl
      exact hgw (Skeleton.mem_inorder_of_root hu)
    refine ⟨⟨height + 1, Balanced.recolour hs hframes hredIn hu (redIn_of_eq hcolor) hnodup
      (redIn_of_ne (by simp [color, hgp])) (redIn_of_ne (by simp [color, hgu]))
      (redIn_of_eq (by simp [color])) fun a hap hau hag => redIn_congr (by simp [*])⟩, ?_⟩
    rw [turnsFrom, redIn_of_eq (by simp [color])]
    exact hthis.tail
  | @outer d p g s v w rest hblack rotated =>
    have hg := (hframes.below_red hredIn).1
    have hp' : redIn m' p = false := (redIn_congr rotated.color_p).trans hg
    refine ⟨⟨height, hframes.outer hs hredIn (blackRoot_of_ne hblack) hnodup hp'
      (redIn_of_eq rotated.color_g) fun a hag hap => redIn_congr (rotated.color_other a hag hap)⟩, ?_⟩
    have hdone : pathTurns m' (pathOf (⟨d, p, .nodeAt d v g w⟩ :: rest)) = [] :=
      pathTurns_of_ne (by simpa [redIn] using hp') _
    rw [turnsFrom, hdone]
    split <;> simp [Apart]
  | @inner e p g x y v w rest m₁ hblack lower upper =>
    have hg := (hframes.below_red hredIn).1
    have hnode : redIn m node = true := by
      by_contra hnode
      simp [hnode, Apart] at hapart
    have hsub := (@nodup_plug _ _ fs' hnodup).1
    obtain ⟨⟨hgl, -⟩, hl, -⟩ := nodup_nodeAt.mp hsub
    have hgp : g ≠ p := by
      rintro rfl
      exact hgl (by simp [Skeleton.mem_inorder_nodeAt])
    have hgn : g ≠ node := by
      rintro rfl
      exact hgl (by simp [Skeleton.mem_inorder_nodeAt])
    have hpn : p ≠ node := by
      rintro rfl
      exact (nodup_nodeAt.mp hl).1.1 (by simp [Skeleton.mem_inorder_nodeAt])
    have hnode' : redIn m' node = false := by
      rw [redIn_congr upper.color_p, redIn_congr (lower.color_other g hgp hgn), hg]
    have hp' : redIn m' p = true := by
      rw [redIn_congr (upper.color_other p hgp.symm hpn), redIn_of_eq lower.color_g]
    refine ⟨⟨height + 1, Balanced.inner hs hframes hredIn hnode (blackRoot_of_ne hblack) hnodup
      hnode' hp' (redIn_of_eq upper.color_g) fun a han hap hag => ?_⟩, ?_⟩
    · rw [redIn_congr (upper.color_other a hag han), redIn_congr (lower.color_other a hap han)]
    · rw [turnsFrom, hnode']
      exact hthis

end Turn

section Insert
variable {dict : Dict V} {t : Skeleton Addr} {fs : List (Frame Addr)} {mem : Memory V}
  {root : Option Addr} {node : Addr} {key : Bytes}

theorem linking_pathTurns (h : Linking dict t fs mem root node) (hsound : Sound dict t)
    (hpath : insertPath dict key = pathOf fs) :
    pathTurns mem.nodes (pathOf fs) = keyTurns dict key := by
  obtain ⟨-, hframes⟩ := shaped_plug.mp (h.whole ▸ hsound.spells.shaped)
  obtain ⟨-, hframes'⟩ := shaped_plug.mp h.focus.spells.shaped
  have hmem (f) (hf : f ∈ fs) (a) (ha : a = f.addr ∨ a ∈ f.sibling.inorder) : a ∈ t.inorder :=
    h.whole ▸ mem_inorder_plug.mpr (.inr ⟨f, hf, ha⟩)
  have hkept : FramesKept dict.mem.nodes mem.nodes fs :=
    ⟨fun f hf a ha => h.color a (hmem f hf a ha), fun f hf a ha => h.parent a (hmem f hf a ha)⟩
  rw [keyTurns, hpath, framesKept_pathTurns_tail hkept hframes hframes']

theorem linking_balanced (h : Linking dict t fs mem root node)
    (hrb : IsRedBlack (redIn dict.mem.nodes) t) :
    Balanced (redIn mem.nodes) (.node .nil node .nil) 0 ∧
      BalancedFrames (redIn mem.nodes) fs 0 := by
  obtain ⟨-, hno, height, hheight⟩ := hrb
  have hwhole : ∃ height, Balanced (redIn dict.mem.nodes) (plug .nil fs) height := by
    rw [h.whole]
    exact ⟨height, hno, hheight⟩
  obtain ⟨height', hnil, hframes, -⟩ := exists_balanced_plug.mp hwhole
  obtain rfl : height' = 0 := balanced_nil.mp hnil
  refine ⟨?_, hframes.congr fun f hf a ha => ?_⟩
  · have hnil' : Balanced (redIn mem.nodes) .nil 0 := balanced_nil.mpr rfl
    exact hnil'.under_red (d := .left) hnil' (redIn_of_eq h.red) blackRoot_nil blackRoot_nil
  · refine redIn_congr (h.color a ?_)
    exact h.whole ▸ mem_inorder_plug.mpr (.inr ⟨f, hf, ha⟩)

theorem linking_poised (h : Linking dict t fs mem root node) (hsound : Sound dict t)
    (hrb : IsRedBlack (redIn dict.mem.nodes) t) (hpath : insertPath dict key = pathOf fs)
    (hapart : Apart (keyTurns dict key)) : Poised mem.nodes node (.node .nil node .nil) fs := by
  refine ⟨⟨0, linking_balanced h hrb⟩, ?_⟩
  rw [turnsFrom, redIn_of_eq h.red, linking_pathTurns h hsound hpath]
  exact hapart

theorem Poised.isRedBlack {m m' : Nodes V} {s : Skeleton Addr} {top : Addr}
    (h : Poised m node s fs) (hdone : ∀ f, fs.head? = some f → colorOf m f.addr ≠ some .r)
    (hnodup : (plug s fs).inorder.Nodup) (htop : (plug s fs).root = some top)
    (hcolor : ∀ x, colorOf m' x = if x = top then some .b else colorOf m x) :
    IsRedBlack (redIn m') (plug s fs) := by
  obtain ⟨height, hs, hframes⟩ := h.balanced
  have hfits : Fits (redIn m) s fs := fun f hf hred => by
    simp [redIn_of_ne (hdone f hf)] at hred
  obtain ⟨whole, hbalanced⟩ := exists_balanced_plug.mpr ⟨height, hs, hframes, hfits⟩
  exact hbalanced.blacken htop hnodup (redIn_of_ne (by simp [hcolor])) fun a ha =>
    redIn_congr (by simp [hcolor, ha])

end Insert

/-- The repair after this call reads right parent pointers and takes no inner
turn right after another one; or there is none, as the call gets no node. -/
def Repairable (dict : Dict V) (key : Bytes) : Prop :=
  dict.mem.oom dict.mem.brk = true ∨
    pathLinked dict.mem.nodes (insertPath dict key) = true ∧ Apart (keyTurns dict key)

instance (dict : Dict V) (key : Bytes) : Decidable (Repairable dict key) :=
  inferInstanceAs (Decidable (_ ∨ _ ∧ _))

theorem isRedBlack_congr {m m' : Nodes V} {t : Skeleton Addr} (h : IsRedBlack (redIn m) t)
    (hcolor : ∀ a ∈ t.inorder, colorOf m' a = colorOf m a) : IsRedBlack (redIn m') t := by
  obtain ⟨hroot, hno, height, hheight⟩ := h
  have hred (a : Addr) (ha : a ∈ t.inorder) : redIn m' a = redIn m a := redIn_congr (hcolor a ha)
  have hbalanced := Balanced.congr ⟨hno, hheight⟩ hred
  exact ⟨hroot.congr hred, hbalanced.noRedRed, height, hbalanced.height⟩

theorem dictSet_redBlack {dict : Dict V} {t : Skeleton Addr} (h : Sound dict t)
    (hrb : IsRedBlack (redIn dict.mem.nodes) t) {key : Bytes} (hrepair : Repairable dict key)
    (value : V) : ∃ r dict' t', dictSet dict key value = some (r, dict') ∧ Sound dict' t' ∧
      IsRedBlack (redIn dict'.mem.nodes) t' := by
  cases hoom : dict.mem.oom dict.mem.brk with
  | true =>
    obtain ⟨mem, hset, hnodes, hsound⟩ := h.dictSet_oom hoom key value
    exact ⟨-1, _, t, hset, hsound, by rwa [hnodes]⟩
  | false =>
    obtain ⟨hclimb, hapart⟩ := hrepair.resolve_left (by simp [hoom])
    rcases h.dictSet hoom hclimb value with ⟨mem, hset, hsound, hkept⟩ |
      ⟨fs, mem, root, node, hpath, hlinking, hset⟩
    · exact ⟨0, _, t, hset, hsound, isRedBlack_congr hrb fun a ha => (hkept a ha).1⟩
    · obtain ⟨m₁, m', root', node', s', fs', top, hfix, hpoised, hdone, hspells, htop, hinorder, -, -,
        hcolor⟩ := hlinking.focus.repair (fun h hred h' hturned => turned_poised hturned h hred h')
          (linking_poised hlinking h hrb hpath hapart) hlinking.height
      refine ⟨0, _, plug s' fs', by rw [hset, hfix]; rfl, ?_, ?_⟩
      · exact hlinking.sound hspells hinorder htop (by simp [hcolor])
      · exact hpoised.isRedBlack hdone hspells.nodup htop hcolor

/-- The tree that the child pointers spell is a red-black tree. -/
def RedBlack (dict : Dict V) : Prop :=
  ∃ t, Spells dict.mem.nodes dict.root t ∧ IsRedBlack (redIn dict.mem.nodes) t

/-- In every run whose keys end in their arrays, and whose repairs read right parent pointers
and never take two inner turns one after the other, the tree is a red-black tree at any time. -/
theorem dict_balanced (oom : Addr → Bool) (calls : List (Bytes × V))
    (hrepair : (dictMachine V).Throughout
      (fun dict call => Terminated call.1 ∧ Repairable dict call.1)
      (dictInit (Memory.fresh oom)) calls) :
    ∃ history dict, (dictMachine V).exec (dictInit (Memory.fresh oom)) calls =
      some (history, dict) ∧ RedBlack dict ∧ ∀ st ∈ history, RedBlack st.after := by
  let Inv (dict : Dict V) : Prop := ∃ t, Sound dict t ∧ IsRedBlack (redIn dict.mem.nodes) t
  have hinit : Inv (dictInit (Memory.fresh oom)) :=
    ⟨.nil, dictInit_sound oom, blackRoot_nil, trivial, 0, rfl⟩
  have hstep : ∀ dict call, Inv dict → (Terminated call.1 ∧ Repairable dict call.1) →
      ∃ o dict', (dictMachine V).step dict call = some (o, dict') ∧ Inv dict' := by
    rintro dict ⟨key, value⟩ ⟨t, hsound, hrb⟩ ⟨-, hrepair⟩
    obtain ⟨r, dict', t', hset, hsound', hrb'⟩ := dictSet_redBlack hsound hrb hrepair value
    exact ⟨r, dict', hset, t', hsound', hrb'⟩
  have hred (dict : Dict V) (h : Inv dict) : RedBlack dict := by
    obtain ⟨t, hsound, hrb⟩ := h
    exact ⟨t, hsound.spells, hrb⟩
  obtain ⟨history, dict, hexec, hlast, hall⟩ := Machine.exec_always hstep hinit hrepair
  exact ⟨history, dict, hexec, hred dict hlast, fun st hst => hred _ (hall st hst)⟩

def balancedCalls : List (Bytes × Nat) :=
  [(ascii "0", 0), (ascii "1", 1), (ascii "2", 2), (ascii "5", 3), (ascii "3", 4), (ascii "6", 5),
    (ascii "7", 6)]

theorem dict_balanced_calls :
    ∃ history dict, (dictMachine Nat).exec (dictInit (Memory.fresh fun _ => false)) balancedCalls =
      some (history, dict) ∧ RedBlack dict ∧ ∀ st ∈ history, RedBlack st.after :=
  dict_balanced (fun _ => false) balancedCalls (by decide +kernel)

/-- Insertions of which the last takes an inner turn at a node that an inner
turn has just coloured black. -/
def unbalancingCalls : List (Bytes × Nat) :=
  [(ascii "0", 0), (ascii "1", 1), (ascii "2", 2), (ascii "5", 3), (ascii "6", 4), (ascii "4", 5),
    (ascii "3", 6)]

def unbalanced : Skeleton Addr :=
  .node (.node (.node .nil 0 .nil) 1 (.node .nil 2 .nil)) 6
    (.node (.node .nil 5 .nil) 3 (.node .nil 4 .nil))

theorem dictSet_unbalances :
    ∃ history dict, (dictMachine Nat).exec (dictInit (Memory.fresh fun _ => false))
      unbalancingCalls = some (history, dict) ∧ ¬RedBlack dict := by
  have hrun : ((dictMachine Nat).exec (dictInit (Memory.fresh fun _ => false))
      unbalancingCalls).map (fun run => decide (Shaped (childOf run.2.mem.nodes) unbalanced ∧
        run.2.root = unbalanced.root ∧ ¬NoRedRed (redIn run.2.mem.nodes) unbalanced)) =
      some true := by decide +kernel
  obtain ⟨⟨history, dict⟩, hexec, htree⟩ := Option.map_eq_some_iff.mp hrun
  obtain ⟨hshaped, hroot, hred⟩ := of_decide_eq_true htree
  refine ⟨history, dict, hexec, ?_⟩
  rintro ⟨t, hspells, hrb⟩
  obtain rfl : t = unbalanced :=
    shaped_unique hspells.shaped hshaped (hspells.root_eq.symm.trans hroot)
  exact hred hrb.noRedRed

end SmtpMta.Common.TreeBalance
