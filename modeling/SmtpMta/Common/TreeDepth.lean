import SmtpMta.Common.DictRelease
import SmtpMta.Common.TreeBalance

/-! How long a search takes. A search goes down one path, and in a balanced tree
no path is longer than twice the logarithm of the number of keys. -/
namespace SmtpMta.Common.TreeDepth
open Library.CString Library.SearchTree Library.RedBlack Library.Trace
open ListHead RedBlackTree TreeRotation TreeSearch TreeInsert TreeBalance Dictionary TreeIteration
open DictRelease

variable {V : Type}

section Search
variable {m : Nodes V} {t : Skeleton Addr}

theorem descend_depth (hshaped : Shaped (childOf m) t) (halloc : ∀ a ∈ t.inorder, (m a).isSome)
    {turns : Nat} (hturns : depth t < turns) (key : Bytes) (parent : Option (Addr × Dir)) :
    (descend m key turns t.root parent).isSome ∧
      descend m key turns t.root parent = descend m key (depth t + 1) t.root parent := by
  induction t generalizing turns parent with
  | nil =>
    obtain ⟨turns, rfl⟩ := Nat.exists_eq_succ_of_ne_zero (Nat.ne_zero_of_lt hturns)
    exact ⟨rfl, rfl⟩
  | node left a right ihl ihr =>
    obtain ⟨turns, rfl⟩ := Nat.exists_eq_succ_of_ne_zero (Nat.ne_zero_of_lt hturns)
    obtain ⟨hl, hr, hleft, hright⟩ := hshaped
    obtain ⟨n, hn⟩ := Option.isSome_iff_exists.mp (halloc a (by simp [Skeleton.inorder]))
    have hl' : n.left = left.root := by simpa [childOf, hn, TreeNode.child] using hl
    have hr' : n.right = right.root := by simpa [childOf, hn, TreeNode.child] using hr
    have hallocl (b : Addr) (hb : b ∈ left.inorder) : (m b).isSome :=
      halloc b (by simp [Skeleton.inorder, hb])
    have hallocr (b : Addr) (hb : b ∈ right.inorder) : (m b).isSome :=
      halloc b (by simp [Skeleton.inorder, hb])
    have hdl : depth left < depth (Skeleton.node left a right) := by
      simp only [depth]
      omega
    have hdr : depth right < depth (Skeleton.node left a right) := by
      simp only [depth]
      omega
    have hbelow := ihl hleft hallocl (hdl.trans_le (Nat.le_of_lt_succ hturns)) (some (a, .left))
    have hbelow' := ihl hleft hallocl hdl (some (a, .left))
    have habove := ihr hright hallocr (hdr.trans_le (Nat.le_of_lt_succ hturns)) (some (a, .right))
    have habove' := ihr hright hallocr hdr (some (a, .right))
    simp only [descend, Skeleton.root, hn, hl', hr', Option.bind_eq_bind, Option.bind_some]
    split
    · exact ⟨hbelow.1, hbelow.2.trans hbelow'.2.symm⟩
    split
    · exact ⟨habove.1, habove.2.trans habove'.2.symm⟩
    · exact ⟨rfl, rfl⟩

theorem findTreeNode_depth (hshaped : Shaped (childOf m) t)
    (halloc : ∀ a ∈ t.inorder, (m a).isSome) {turns : Nat} (hturns : depth t < turns)
    (key : Bytes) : (findTreeNode m key turns t.root).isSome ∧
      findTreeNode m key turns t.root = findTreeNode m key (depth t + 1) t.root := by
  obtain ⟨hsome, heq⟩ := descend_depth hshaped halloc hturns key none
  simp only [findTreeNode_eq_descend _ _ _ _ none]
  exact ⟨by simpa using hsome, by rw [heq]⟩

end Search

/-- After any calls whose repairs keep the tree balanced, the searches of `dict_get` and
`dict_set` end within twice the logarithm of the number of linked nodes, and one turn. -/
theorem dict_search_logarithmic (oom : Addr → Bool) (calls : List (Bytes × V))
    (hrepair : (dictMachine V).Throughout
      (fun dict call => Terminated call.1 ∧ Repairable dict call.1)
      (dictInit (Memory.fresh oom)) calls) :
    ∃ history dict, (dictMachine V).exec (dictInit (Memory.fresh oom)) calls =
      some (history, dict) ∧
      let turns := 2 * Nat.log2 ((linkedNodes history).length + 1) + 1
      ∀ key, Terminated key → (findTreeNode dict.mem.nodes key turns dict.root).isSome ∧
        findTreeNode dict.mem.nodes key turns dict.root =
          findTreeNode dict.mem.nodes key dict.mem.bound dict.root ∧
        descend dict.mem.nodes key turns dict.root none =
          descend dict.mem.nodes key dict.mem.bound dict.root none := by
  let Inv (history : List (Step (Dict V) (Bytes × V) Int)) (dict : Dict V) : Prop :=
    ∃ t members, Sound dict t ∧ IsRedBlack (redIn dict.mem.nodes) t ∧ Threaded dict members ∧
      members.Perm (linkedNodes history)
  have hinit : Inv [] (dictInit (Memory.fresh oom)) :=
    ⟨.nil, [], dictInit_sound oom, ⟨blackRoot_nil, trivial, 0, rfl⟩, dictInit_threaded oom, .nil⟩
  have hstep : ∀ history dict call, Inv history dict →
      (Terminated call.1 ∧ Repairable dict call.1) →
      ∃ o dict', (dictMachine V).step dict call = some (o, dict') ∧
        Inv (history ++ [⟨dict, call, o, dict'⟩]) dict' := by
    rintro history dict ⟨key, value⟩ ⟨t, members, hsound, hrb, hthreaded, hperm⟩ ⟨-, hrepair⟩
    obtain ⟨r, dict', t', hset, hsound', hrb'⟩ := dictSet_redBlack hsound hrb hrepair value
    refine ⟨r, dict', hset, t', _, hsound', hrb', hthreaded.dictSet hset, ?_⟩
    have hlinked : linkedNodes (history ++ [⟨dict, (key, value), r, dict'⟩]) =
        linkedNodes history ++ (linkedNode dict key value).toList := by
      cases hnode : linkedNode dict key value <;> simp [linkedNodes, hnode]
    rw [hlinked]
    exact (hperm.append_left _).trans List.perm_append_comm
  obtain ⟨history, dict, hexec, ⟨t, members, hsound, hrb, hthreaded, hperm⟩, -⟩ :=
    Machine.exec_invariant hstep hinit hrepair
  refine ⟨history, dict, hexec, ?_⟩
  intro turns key _
  have hlength : t.inorder.length = (linkedNodes history).length :=
    ((Sound.perm hsound hthreaded).symm.trans hperm).length_eq
  have hturns : depth t < turns := by
    have hdepth := hrb.depth_le
    rw [hlength] at hdepth
    exact Nat.lt_succ_of_le hdepth
  have hbound : depth t < dict.mem.bound := (depth_le_length t).trans_lt hsound.length_lt_bound
  obtain ⟨hshaped, hroot, -, halloc⟩ := hsound.spells
  obtain ⟨hsome, hfind⟩ := findTreeNode_depth hshaped halloc hturns key
  obtain ⟨-, hfind'⟩ := findTreeNode_depth hshaped halloc hbound key
  obtain ⟨-, hdescend⟩ := descend_depth hshaped halloc hturns key none
  obtain ⟨-, hdescend'⟩ := descend_depth hshaped halloc hbound key none
  rw [hroot]
  exact ⟨hsome, hfind.trans hfind'.symm, hdescend.trans hdescend'.symm⟩

theorem dict_search_logarithmic_calls :
    ∃ history dict, (dictMachine Nat).exec (dictInit (Memory.fresh fun _ => false)) balancedCalls =
      some (history, dict) ∧
      let turns := 2 * Nat.log2 ((linkedNodes history).length + 1) + 1
      ∀ key, Terminated key → (findTreeNode dict.mem.nodes key turns dict.root).isSome ∧
        findTreeNode dict.mem.nodes key turns dict.root =
          findTreeNode dict.mem.nodes key dict.mem.bound dict.root ∧
        descend dict.mem.nodes key turns dict.root none =
          descend dict.mem.nodes key dict.mem.bound dict.root none :=
  dict_search_logarithmic (fun _ => false) balancedCalls (by decide +kernel)

end SmtpMta.Common.TreeDepth
