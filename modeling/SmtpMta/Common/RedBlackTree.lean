import SmtpMta.Common.ListHead
import SmtpMta.Library.CString
import SmtpMta.Library.SearchTree

/-! The red-black tree and the dictionary of `tree.c`, on a memory of nodes
with explicit parent and child pointers. A result of `none` is a null or
dangling dereference, or a loop that has not ended within its bound. -/
namespace SmtpMta.Common.RedBlackTree
open Library.CString Library.SearchTree ListHead

def treeKeyMaxLen : Nat := 128

/-- The two values of the `color` field. -/
inductive Color where
  | r
  | b
deriving DecidableEq

structure TreeNode (V : Type) where
  key : Bytes
  value : V
  parent : Option Addr
  left : Option Addr
  right : Option Addr
  color : Color

variable {V : Type}

def TreeNode.child (n : TreeNode V) : Dir → Option Addr
  | .left => n.left
  | .right => n.right

def TreeNode.setChild (n : TreeNode V) (d : Dir) (target : Option Addr) : TreeNode V :=
  match d with
  | .left => { n with left := target }
  | .right => { n with right := target }

abbrev Nodes (V : Type) := Addr → Option (TreeNode V)

def write (m : Nodes V) (a : Addr) (f : TreeNode V → TreeNode V) : Option (Nodes V) :=
  (m a).map fun n => Function.update m a (some (f n))

/-- The assignments to a rotated node and to the child that takes its place.
The subtree that moves between them keeps its old parent pointer, as in the
source. -/
def rotateLinks (d : Dir) (m : Nodes V) (node pivot : Addr) (parent : Option Addr) :
    Option (Nodes V) := do
  let moved := (← m pivot).child d.flip
  let m ← write m node fun n => n.setChild d moved
  let m ← write m node fun n => { n with parent := some pivot }
  let m ← write m pivot fun p => p.setChild d.flip (some node)
  let color := (← m node).color
  let m ← write m pivot fun p => { p with color := color }
  let m ← write m pivot fun p => { p with parent := parent }
  write m node fun n => { n with color := .r }

/-- Make the former parent, or `*root`, point to the node that moved up. -/
def replaceChild (m : Nodes V) (root parent : Option Addr) (node pivot : Addr) :
    Option (Nodes V × Option Addr) := do
  match parent with
  | none => some (m, some pivot)
  | some q =>
      let side := if (← m q).left = some node then Dir.left else Dir.right
      let m ← write m q fun n => n.setChild side (some pivot)
      some (m, root)

/-- Raise the `d` child of a node into its place. -/
def rotate (d : Dir) (m : Nodes V) (root : Option Addr) (node : Addr) :
    Option (Nodes V × Option Addr) := do
  let n ← m node
  let pivot ← n.child d
  let m ← rotateLinks d m node pivot n.parent
  replaceChild m root n.parent node pivot

def rightRotate (m : Nodes V) (root : Option Addr) (node : Addr) :
    Option (Nodes V × Option Addr) :=
  rotate .right m root node

def leftRotate (m : Nodes V) (root : Option Addr) (node : Addr) :
    Option (Nodes V × Option Addr) :=
  rotate .left m root node

def getUncle (m : Nodes V) (node : Addr) : Option (Option Addr) := do
  let p ← (← m node).parent
  let gp ← (← m p).parent
  let g ← m gp
  if g.left = some p then some g.right else some g.left

def colorOf (m : Nodes V) (a : Addr) : Option Color := (m a).map TreeNode.color

/-- `node->parent && node->parent->color == 'r'`: the red parent, if any. -/
def redParent (m : Nodes V) (node : Addr) : Option (Option Addr) := do
  let n ← m node
  match n.parent with
  | none => some none
  | some p =>
      let color ← colorOf m p
      some (if color = .r then some p else none)

/-- One turn of the loop: recolour and go on from the grandparent, or rotate
and go on from the same node. -/
def fixStep (m : Nodes V) (root : Option Addr) (node p : Addr) :
    Option (Nodes V × Option Addr × Addr) := do
  let gp ← (← m p).parent
  let uncle ← getUncle m node
  match uncle.filter fun u => colorOf m u = some .r with
  | some u =>
      let m ← write m p fun n => { n with color := .b }
      let m ← write m u fun n => { n with color := .b }
      let m ← write m gp fun n => { n with color := .r }
      some (m, root, gp)
  | none =>
      if (← m gp).left = some p then
        let (m, root) ←
          if (← m p).right = some node then rightRotate m root p else some (m, root)
        let (m, root) ← leftRotate m root gp
        some (m, root, node)
      else
        let (m, root) ←
          if (← m p).left = some node then leftRotate m root p else some (m, root)
        let (m, root) ← rightRotate m root gp
        some (m, root, node)

def fixLoop : Nat → Nodes V → Option Addr → Addr → Option (Nodes V × Option Addr)
  | 0, _, _, _ => none
  | bound + 1, m, root, node => do
      match ← redParent m node with
      | none => some (m, root)
      | some p =>
          let (m, root, node) ← fixStep m root node p
          fixLoop bound m root node

def fixAfterInsert (bound : Nat) (m : Nodes V) (root : Option Addr) (node : Addr) :
    Option (Nodes V × Option Addr) := do
  let (m, root) ← fixLoop bound m root node
  let top ← root
  let m ← write m top fun n => { n with color := .b }
  some (m, root)

/-- Where the search of an insertion ends: at a node with an equal key, or at
a null pointer, given by the node that holds it (none for `*root`). -/
inductive Slot where
  | found (pp : Addr)
  | vacant (parent : Option (Addr × Dir))

def descend (m : Nodes V) (key : Bytes) : Nat → Option Addr → Option (Addr × Dir) → Option Slot
  | 0, _, _ => none
  | _ + 1, none, parent => some (.vacant parent)
  | bound + 1, some pp, _ => do
      let n ← m pp
      let cmp := strcmp n.key key
      if cmp > 0 then descend m key bound n.left (some (pp, .left))
      else if cmp < 0 then descend m key bound n.right (some (pp, .right))
      else some (.found pp)

/-- All memory of a dictionary. Addresses from `brk` on are free; `oom` says
which allocations fail. -/
structure Memory (V : Type) where
  nodes : Nodes V
  lists : Lists
  brk : Addr
  oom : Addr → Bool

/-- No loop below visits more positions than there are allocated nodes. -/
def Memory.bound (mem : Memory V) : Nat := mem.brk + 1

/-- Storing the node where the search ended and linking it to its parent and
the iteration list, before the tree is repaired. -/
def linkNode (mem : Memory V) (root : Option Addr) (node : Addr) (parent : Option (Addr × Dir)) :
    Option (Memory V × Option Addr) := do
  let (m, root) ←
    match parent with
    | none => some (mem.nodes, some node)
    | some (a, d) => (write mem.nodes a fun n => n.setChild d (some node)).map (·, root)
  let m ← write m node fun n => { n with color := .r }
  let m ← write m node fun n => { n with parent := parent.map Prod.fst }
  let lists ←
    match parent with
    | none => listInit mem.lists node
    | some (a, _) => listAdd mem.lists a node
  some ({ mem with nodes := m, lists }, root)

def insertTreeNode (mem : Memory V) (root : Option Addr) (node : Addr) :
    Option (Memory V × Option Addr) := do
  let new ← mem.nodes node
  match ← descend mem.nodes new.key mem.bound root none with
  | .found pp =>
      let m ← write mem.nodes pp fun n => { n with value := new.value }
      some ({ mem with nodes := m }, root)
  | .vacant parent =>
      let (mem, root) ← linkNode mem root node parent
      let (m, root) ← fixAfterInsert mem.bound mem.nodes root node
      some ({ mem with nodes := m }, root)

/-- The key ends inside its array. A longer one fills the array without a NUL, and `strcmp`
may read on into `value`; the model ends it with the array. -/
def Terminated (key : Bytes) : Prop :=
  strlen key < treeKeyMaxLen

instance (key : Bytes) : Decidable (Terminated key) :=
  inferInstanceAs (Decidable (_ < _))

/-- `malloc` and the assignments of `make_tree_node`; a null pointer when the
allocation fails. -/
def makeTreeNode (mem : Memory V) (key : Bytes) (value : V) :
    Option (Memory V × Option Addr) := do
  let node := mem.brk
  if mem.oom node then some ({ mem with brk := node + 1 }, none)
  else
    let new : TreeNode V :=
      { key := strncpy [] key treeKeyMaxLen, value, parent := none, left := none, right := none,
        color := .b }
    let lists ← listInit (Function.update mem.lists node (some ⟨none, none⟩)) node
    some ({ mem with nodes := Function.update mem.nodes node (some new), lists,
                     brk := node + 1 }, some node)

def findTreeNode (m : Nodes V) (key : Bytes) : Nat → Option Addr → Option (Option Addr)
  | 0, _ => none
  | _ + 1, none => some none
  | bound + 1, some p => do
      let n ← m p
      let cmp := strcmp n.key key
      if cmp > 0 then findTreeNode m key bound n.left
      else if cmp < 0 then findTreeNode m key bound n.right
      else some (some p)

/-- The nodes of a subtree go back to `malloc`, right subtree first. Freeing a
node twice, or reading one that is freed, has no result. -/
def freeTreeNode : Nat → Nodes V → Option Addr → Option (Nodes V)
  | 0, _, _ => none
  | _ + 1, m, none => some m
  | bound + 1, m, some node => do
      let m ← freeTreeNode bound m (← m node).right
      let m ← freeTreeNode bound m (← m node).left
      let _ ← m node
      some (Function.update m node none)

/-- A `dict_t` and the memory its nodes live in. -/
structure Dict (V : Type) where
  mem : Memory V
  root : Option Addr
  size : Nat

def Memory.fresh (oom : Addr → Bool) : Memory V :=
  { nodes := fun _ => none, lists := fun _ => none, brk := 0, oom }

def dictInit (mem : Memory V) : Dict V :=
  { mem, root := none, size := 0 }

def dictHas (dict : Dict V) (key : Bytes) : Option Bool := do
  let node ← findTreeNode dict.mem.nodes key dict.mem.bound dict.root
  some node.isSome

def dictSet (dict : Dict V) (key : Bytes) (value : V) : Option (Int × Dict V) := do
  let (mem, node) ← makeTreeNode dict.mem key value
  match node with
  | none => some (-1, { dict with mem })
  | some node =>
      let (mem, root) ← insertTreeNode mem dict.root node
      some (0, { dict with mem, root })

/-- The return value and what `*value` holds afterwards. -/
def dictGet (dict : Dict V) (key : Bytes) (value : V) : Option (Int × V) := do
  match ← findTreeNode dict.mem.nodes key dict.mem.bound dict.root with
  | none => some (-1, value)
  | some node => some (0, (← dict.mem.nodes node).value)

end SmtpMta.Common.RedBlackTree
