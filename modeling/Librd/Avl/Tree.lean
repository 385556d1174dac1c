import Mathlib.Order.Basic

/-!
# The AVL tree of `rdavl.c`

Nodes are embedded in the caller's elements and linked by `ran_p[2]`. A node that is linked is reached through exactly
one link, so a node pointer is modelled by the tree below it (`Tree`), with the node's own address `ran` kept in it:
`rd_avl_insert` clears the node it is given before it looks at the tree, which matters when that node is already
linked (`Tree.memset`). Following a NULL pointer gives `none`.

`rd_avl_balance_node` and `rd_avl_rotate` call each other; they carry a fuel, and `balanceNode` starts with more than
the recursion ever uses on the trees that the operations build (`balance_ok` in `Balance.lean`).
-/

namespace Librd.Avl

/-- `rd_avl_dir_t`. -/
inductive Dir
  | left
  | right
  deriving DecidableEq, Repr

/-- `odirmap`: the opposite direction. -/
def Dir.opposite : Dir → Dir
  | .left => .right
  | .right => .left

/-- `rd_avl_node_t` without its links: its address, `ran_height` and `ran_elm`. -/
structure Node (ν α : Type) where
  ran : ν
  height : Nat
  elm : α
  deriving DecidableEq, Repr

/-- A node pointer with everything reachable through `ran_p`; `nil` is NULL. -/
inductive Tree (ν α : Type)
  | nil
  | node (l : Tree ν α) (n : Node ν α) (r : Tree ν α)
  deriving DecidableEq, Repr

variable {ν α : Type}

namespace Tree

/-- `RD_AVL_NODE_HEIGHT`. -/
def height : Tree ν α → Nat
  | nil => 0
  | node _ n _ => n.height

/-- `ran->ran_p[dir]`. -/
def child : Tree ν α → Dir → Option (Tree ν α)
  | nil, _ => none
  | node l _ _, .left => some l
  | node _ _ r, .right => some r

/-- `ran->ran_p[dir] = t`. -/
def setChild : Tree ν α → Dir → Tree ν α → Option (Tree ν α)
  | nil, _, _ => none
  | node _ n r, .left, t => some (node t n r)
  | node l n _, .right, t => some (node l n t)

/-- `RD_AVL_NODE_DELTA`. -/
def delta : Tree ν α → Option Int
  | nil => none
  | node l _ r => some ((l.height : Int) - r.height)

/-- The last lines of `rd_avl_balance_node`: `ran_height` from the children. -/
def updateHeight : Tree ν α → Option (Tree ν α)
  | nil => none
  | node l n r =>
    let h := 0
    let h := if l.height > h then l.height else h
    let h := if r.height > h then r.height else h
    some (node l { n with height := h + 1 } r)

/-- The stored nodes in order, each with its element. -/
def inorder : Tree ν α → List (ν × α)
  | nil => []
  | node l n r => l.inorder ++ (n.ran, n.elm) :: r.inorder

/-- `memset(ran, 0, sizeof(*ran)); ran->ran_elm = elm`, as seen from a tree in which `ran` may be linked. -/
def memset [DecidableEq ν] (ran : ν) (elm : α) : Tree ν α → Tree ν α
  | nil => nil
  | node l n r => if n.ran = ran then node nil ⟨ran, 0, elm⟩ nil else node (l.memset ran elm) n (r.memset ran elm)

end Tree

open Librd.Avl.Tree

/-- `RD_DELTA_MAX`. -/
def deltaMax : Int := 1

mutual

/-- `rd_avl_rotate`. -/
def rotate : Nat → Tree ν α → Dir → Option (Tree ν α)
  | 0, _, _ => none
  | fuel + 1, ran, dir => do
    let odir := dir.opposite
    let n ← ran.child odir
    let ran ← ran.setChild odir (← n.child dir)
    let n ← n.setChild dir (← balance fuel ran)
    balance fuel n

/-- `rd_avl_balance_node`, with fuel. -/
def balance : Nat → Tree ν α → Option (Tree ν α)
  | 0, _ => none
  | fuel + 1, ran => do
    let d ← ran.delta
    if d < -deltaMax then
      let right ← ran.child .right
      let ran ← if (← right.delta) > 0 then ran.setChild .right (← rotate fuel right .right) else some ran
      rotate fuel ran .left
    else if d > deltaMax then
      let left ← ran.child .left
      let ran ← if (← left.delta) < 0 then ran.setChild .left (← rotate fuel left .left) else some ran
      rotate fuel ran .right
    else
      ran.updateHeight

end

/-- Fuel for `balance`: linear in the height of the higher child. -/
def balanceFuel : Tree ν α → Nat
  | .nil => 0
  | .node l _ r => 2 * max l.height r.height + 6

/-- `rd_avl_balance_node`. -/
def balanceNode (ran : Tree ν α) : Option (Tree ν α) := balance (balanceFuel ran) ran

section Operations

variable (cmp : α → α → Int)

/-- `rd_avl_insert_node`: the new subtree and `*existing`. -/
def insertNode (ran : Node ν α) : Tree ν α → Option (Tree ν α × Option (Node ν α))
  | nil => some (node nil ran nil, none)
  | node l parent r =>
    let c := cmp ran.elm parent.elm
    if c = 0 then
      some (node l { ran with height := parent.height } r, some parent)
    else if c < 0 then do
      let (l, existing) ← insertNode ran l
      return (← balanceNode (node l parent r), existing)
    else do
      let (r, existing) ← insertNode ran r
      return (← balanceNode (node l parent r), existing)

/-- `rd_avl_move`. -/
def move (src : Tree ν α) (dir : Dir) : Tree ν α → Option (Tree ν α)
  | nil => some src
  | node l n r =>
    match dir with
    | .left => do balanceNode (node (← move src dir l) n r)
    | .right => do balanceNode (node l n (← move src dir r))

/-- `rd_avl_remove_node0` on a node with the given children. -/
def removeNode0 (l r : Tree ν α) : Option (Tree ν α) := move r .right l

/-- `rd_avl_remove_elm0`. -/
def removeElm0 (elm : α) : Tree ν α → Option (Tree ν α)
  | nil => some nil
  | node l parent r =>
    let c := cmp elm parent.elm
    if c = 0 then
      removeNode0 l r
    else if c < 0 then do
      balanceNode (node (← removeElm0 elm l) parent r)
    else do
      balanceNode (node l parent (← removeElm0 elm r))

/-- `rd_avl_find_node`. -/
def findNode (elm : α) : Tree ν α → Option (Node ν α)
  | nil => none
  | node l begin r =>
    let c := cmp elm begin.elm
    if c = 0 then some begin else if c < 0 then findNode elm l else findNode elm r

/-- `rd_avl_insert` on the root: the new root and the element that was replaced. -/
def insert [DecidableEq ν] (elm : α) (ran : ν) (root : Tree ν α) : Option (Tree ν α × Option α) := do
  let (root, existing) ← insertNode cmp ⟨ran, 0, elm⟩ (root.memset ran elm)
  return (root, existing.map Node.elm)

/-- `rd_avl_remove_elm` on the root. -/
def removeElm (elm : α) (root : Tree ν α) : Option (Tree ν α) := removeElm0 cmp elm root

/-- `rd_avl_find`. -/
def find (elm : α) (root : Tree ν α) : Option α := (findNode cmp elm root).map Node.elm

end Operations

end Librd.Avl
