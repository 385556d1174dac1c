import Librd.Avl.Foreach

/-!
# The AVL tree in memory

`Tree.lean` has a pointer as the tree below it, which is right as long as every node is reached through one link. Here
the functions of `rdavl.c` work on the nodes in memory (`Cells`): they follow pointers, and write one field of one node
at a time. Following NULL, or a pointer to a node that is not allocated, is a fault.

A tree lies in memory (`InMem`) if its nodes have the links, heights and elements of the tree and no two of them have
one address. Each function does to the memory what its model in `Tree.lean` does to the tree, and writes to no node but
those of the tree and the one that is inserted: `balance_sim` for the rotations, and `Trees.lean` for the operations.
-/

namespace Librd.Avl

open Librd.Avl.Tree

variable {ν α : Type}

/-- The nodes in memory. -/
abbrev Cells (ν α : Type) : Type := ν → Option (Cell ν α)

/-- `ran_p[dir] = p`. -/
def Cell.setP (cell : Cell ν α) (p : Option ν) : Dir → Cell ν α
  | .left => { cell with left := p }
  | .right => { cell with right := p }

namespace Memory

/-! ## The code -/

/-- `ran->ran_p[dir]`. -/
def child (cells : Cells ν α) (ran : ν) (dir : Dir) : Option (Option ν) := (cells ran).map fun cell => cell.p dir

/-- `RD_AVL_NODE_HEIGHT`. -/
def height (cells : Cells ν α) : Option ν → Option Nat
  | none => some 0
  | some ran => (cells ran).map Cell.height

/-- `RD_AVL_NODE_DELTA`. -/
def delta (cells : Cells ν α) (ran : ν) : Option Int := do
  let l ← height cells (← child cells ran .left)
  let r ← height cells (← child cells ran .right)
  return (l : Int) - r

section Code

variable [DecidableEq ν]

/-- A write to the fields of `ran`. -/
def modify (cells : Cells ν α) (ran : ν) (f : Cell ν α → Cell ν α) : Option (Cells ν α) :=
  (cells ran).map fun cell => Function.update cells ran (some (f cell))

/-- `ran->ran_p[dir] = p`. -/
def setChild (cells : Cells ν α) (ran : ν) (dir : Dir) (p : Option ν) : Option (Cells ν α) :=
  modify cells ran fun cell => cell.setP p dir

/-- `ran->ran_height = h`. -/
def setHeight (cells : Cells ν α) (ran : ν) (h : Nat) : Option (Cells ν α) :=
  modify cells ran fun cell => { cell with height := h }

/-- `if ((h = RD_AVL_NODE_HEIGHT(ran->ran_p[dir])) > ran->ran_height) ran->ran_height = h`. -/
def raiseHeight (cells : Cells ν α) (ran : ν) (dir : Dir) : Option (Cells ν α) := do
  let h ← height cells (← child cells ran dir)
  if h > (← cells ran).height then setHeight cells ran h else some cells

/-- The last lines of `rd_avl_balance_node`. -/
def updateHeight (cells : Cells ν α) (ran : ν) : Option (Cells ν α) := do
  let cells ← setHeight cells ran 0
  let cells ← raiseHeight cells ran .left
  let cells ← raiseHeight cells ran .right
  setHeight cells ran ((← cells ran).height + 1)

mutual

/-- `rd_avl_rotate`. -/
def rotate : Nat → Cells ν α → ν → Dir → Option (Cells ν α × ν)
  | 0, _, _, _ => none
  | fuel + 1, cells, ran, dir => do
    let odir := dir.opposite
    let n ← (← child cells ran odir)
    let cells ← setChild cells ran odir (← child cells n dir)
    let (cells, p) ← balance fuel cells ran
    let cells ← setChild cells n dir (some p)
    balance fuel cells n

/-- `rd_avl_balance_node`, with fuel. -/
def balance : Nat → Cells ν α → ν → Option (Cells ν α × ν)
  | 0, _, _ => none
  | fuel + 1, cells, ran => do
    let d ← delta cells ran
    if d < -deltaMax then
      let right ← (← child cells ran .right)
      let cells ←
        if (← delta cells right) > 0 then
          (rotate fuel cells right .right).bind fun (cells, p) => setChild cells ran .right (some p)
        else some cells
      rotate fuel cells ran .left
    else if d > deltaMax then
      let left ← (← child cells ran .left)
      let cells ←
        if (← delta cells left) < 0 then
          (rotate fuel cells left .left).bind fun (cells, p) => setChild cells ran .left (some p)
        else some cells
      rotate fuel cells ran .right
    else
      (updateHeight cells ran).map (·, ran)

end

/-- Fuel for `balance`, as for the tree. -/
def balanceFuel (cells : Cells ν α) (ran : ν) : Nat :=
  match cells ran with
  | none => 0
  | some cell => 2 * max ((height cells cell.left).getD 0) ((height cells cell.right).getD 0) + 6

/-- `rd_avl_balance_node`. -/
def balanceNode (cells : Cells ν α) (ran : ν) : Option (Cells ν α × ν) := balance (balanceFuel cells ran) cells ran

/-- `RD_AVL_ELM_SET_NL`. -/
def elmSet (cells : Cells ν α) (ran : ν) (elm : α) : Option (Cells ν α) :=
  modify cells ran fun cell => { cell with elm := elm }

variable (cmp : α → α → Int)

/-- `dir = r < 0 ? RD_AVL_LEFT : RD_AVL_RIGHT`. -/
def dirOf (r : Int) : Dir := if r < 0 then .left else .right

/-- The new node gets the links and the height of the one that it replaces. -/
def replace (cells : Cells ν α) (ran parent : ν) : Option (Cells ν α) := do
  let cells ← setChild cells ran .left (← child cells parent .left)
  let cells ← setChild cells ran .right (← child cells parent .right)
  setHeight cells ran (← cells parent).height

/-- `rd_avl_insert_node`, with fuel for the depth: the new subtree and `*existing`. -/
def insertNode (ran : ν) : Nat → Cells ν α → Option ν → Option (Cells ν α × ν × Option ν)
  | 0, _, _ => none
  | _ + 1, cells, none => some (cells, ran, none)
  | fuel + 1, cells, some parent => do
    let r := cmp (← cells ran).elm (← cells parent).elm
    if r = 0 then
      (replace cells ran parent).map fun cells => (cells, ran, some parent)
    else
      let (cells, p, existing) ← insertNode ran fuel cells (← child cells parent (dirOf r))
      let cells ← setChild cells parent (dirOf r) (some p)
      let (cells, p) ← balanceNode cells parent
      return (cells, p, existing)

/-- `rd_avl_move`, with fuel for the depth. -/
def move (src : Option ν) (dir : Dir) : Nat → Cells ν α → Option ν → Option (Cells ν α × Option ν)
  | 0, _, _ => none
  | _ + 1, cells, none => some (cells, src)
  | fuel + 1, cells, some dst => do
    let (cells, p) ← move src dir fuel cells (← child cells dst dir)
    let cells ← setChild cells dst dir p
    let (cells, p) ← balanceNode cells dst
    return (cells, some p)

/-- `rd_avl_remove_node0`. -/
def removeNode0 (fuel : Nat) (cells : Cells ν α) (ran : ν) : Option (Cells ν α × Option ν) := do
  let (cells, tmp) ← move (← child cells ran .right) .right fuel cells (← child cells ran .left)
  let cells ← setChild cells ran .right none
  let cells ← setChild cells ran .left none
  return (cells, tmp)

/-- `rd_avl_remove_elm0`, with fuel for the depth. -/
def removeElm0 (elm : α) : Nat → Cells ν α → Option ν → Option (Cells ν α × Option ν)
  | 0, _, _ => none
  | _ + 1, cells, none => some (cells, none)
  | fuel + 1, cells, some parent => do
    let r := cmp elm (← cells parent).elm
    if r = 0 then
      removeNode0 fuel cells parent
    else
      let (cells, p) ← removeElm0 elm fuel cells (← child cells parent (dirOf r))
      let cells ← setChild cells parent (dirOf r) p
      let (cells, p) ← balanceNode cells parent
      return (cells, some p)

end Code

/-- `rd_avl_find_node`, with fuel for the depth. -/
def findNode (cmp : α → α → Int) (elm : α) : Nat → Cells ν α → Option ν → Option (Option ν)
  | 0, _, _ => none
  | _ + 1, _, none => some none
  | fuel + 1, cells, some begin => do
    let r := cmp elm (← cells begin).elm
    if r = 0 then some (some begin) else findNode cmp elm fuel cells (← child cells begin (dirOf r))

/-- Fuel for the depth of a tree: its height is not less than the depth by more than one. -/
def depthFuel (cells : Cells ν α) (root : Option ν) : Nat := (height cells root).getD 0 + 2

/-- `rd_avl_insert` on the root: the new root and the element that was replaced. -/
def insert [DecidableEq ν] (cmp : α → α → Int) (elm : α) (ran : ν) (cells : Cells ν α) (root : Option ν) :
    Option (Cells ν α × Option ν × Option α) := do
  let cells ← modify cells ran fun _ => ⟨none, none, 0, elm⟩
  let (cells, root, existing) ← insertNode cmp ran (depthFuel cells root) cells root
  match existing with
  | none => return (cells, some root, none)
  | some existing => return (cells, some root, some (← cells existing).elm)

/-- `rd_avl_remove_elm` on the root. -/
def removeElm [DecidableEq ν] (cmp : α → α → Int) (elm : α) (cells : Cells ν α) (root : Option ν) :
    Option (Cells ν α × Option ν) :=
  removeElm0 cmp elm (depthFuel cells root) cells root

/-- `rd_avl_find` on the root. -/
def find (cmp : α → α → Int) (elm : α) (cells : Cells ν α) (root : Option ν) : Option (Option α) := do
  match ← findNode cmp elm (depthFuel cells root) cells root with
  | none => return none
  | some ran => return some (← cells ran).elm

end Memory

/-! ## Nodes with a direction -/

/-- A node with the subtree `s` in the direction `dir` and `o` in the other one. -/
def Tree.ofDir : Dir → Tree ν α → Node ν α → Tree ν α → Tree ν α
  | .left, s, n, o => .node s n o
  | .right, s, n, o => .node o n s

/-- The node in memory with the pointer `p` in the direction `dir` and `q` in the other one. -/
def Cell.ofDir : Dir → Option ν → Node ν α → Option ν → Cell ν α
  | .left, p, n, q => ⟨p, q, n.height, n.elm⟩
  | .right, p, n, q => ⟨q, p, n.height, n.elm⟩

section OfDir

variable (dir : Dir) (s : Tree ν α) (n : Node ν α) (o : Tree ν α) (p q : Option ν)

@[simp] theorem Dir.opposite_opposite : dir.opposite.opposite = dir := by cases dir <;> rfl

@[simp] theorem Cell.p_ofDir : (Cell.ofDir dir p n q).p dir = p := by cases dir <;> rfl

@[simp] theorem Cell.setP_ofDir (p' : Option ν) : (Cell.ofDir dir p n q).setP p' dir = Cell.ofDir dir p' n q := by
  cases dir <;> rfl

@[simp] theorem Cell.height_ofDir : (Cell.ofDir dir p n q).height = n.height := by cases dir <;> rfl

@[simp] theorem Cell.elm_ofDir : (Cell.ofDir dir p n q).elm = n.elm := by cases dir <;> rfl

theorem Cell.ofDir_opposite : Cell.ofDir dir.opposite p n q = Cell.ofDir dir q n p := by cases dir <;> rfl

theorem Tree.ofDir_opposite : Tree.ofDir dir.opposite s n o = Tree.ofDir dir o n s := by cases dir <;> rfl

@[simp] theorem Tree.ptr_ofDir : (Tree.ofDir dir s n o).ptr = some n.ran := by cases dir <;> rfl

theorem Tree.mem_rans_ofDir {a : ν} : a ∈ (Tree.ofDir dir s n o).rans ↔ a = n.ran ∨ a ∈ s.rans ∨ a ∈ o.rans := by
  cases dir with
  | left => simp [Tree.ofDir, rans_node, or_left_comm]
  | right =>
    simp only [Tree.ofDir, rans_node, List.mem_append, List.mem_cons]
    tauto

variable {dir s n o}

/-- A tree that is not empty, seen from a direction. -/
theorem Tree.exists_ofDir {t : Tree ν α} {ran : ν} (h : t.ptr = some ran) (dir : Dir) :
    ∃ s n o, t = Tree.ofDir dir s n o ∧ n.ran = ran := by
  cases t with
  | nil => cases h
  | node l n r =>
    cases dir with
    | left => exact ⟨l, n, r, rfl, Option.some.inj h⟩
    | right => exact ⟨r, n, l, rfl, Option.some.inj h⟩

end OfDir

/-! ## Trees in memory -/

/-- The tree lies in memory, each of its nodes at an address of its own. -/
structure InMem (cells : Cells ν α) (t : Tree ν α) : Prop where
  linked : Linked cells t
  nodup : t.rans.Nodup

/-- What is known of a node and its subtrees that lie in memory. -/
theorem inMem_ofDir {cells : Cells ν α} (dir : Dir) {s o : Tree ν α} {n : Node ν α} :
    InMem cells (Tree.ofDir dir s n o) ↔ cells n.ran = some (Cell.ofDir dir s.ptr n o.ptr) ∧ InMem cells s ∧
      InMem cells o ∧ n.ran ∉ s.rans ∧ n.ran ∉ o.rans ∧ ∀ a ∈ s.rans, a ∉ o.rans := by
  have hnodup : ∀ {l r : Tree ν α}, (Tree.node l n r).rans.Nodup ↔ l.rans.Nodup ∧ r.rans.Nodup ∧ n.ran ∉ l.rans ∧
      n.ran ∉ r.rans ∧ ∀ a ∈ l.rans, a ∉ r.rans := by
    intro l r
    rw [rans_node, List.nodup_middle, List.nodup_cons, List.mem_append, not_or, List.nodup_append']
    simp only [List.Disjoint]
    tauto
  cases dir with
  | left =>
    constructor
    · rintro ⟨⟨hn, hl, hr⟩, hnd⟩
      obtain ⟨hnl, hnr, h1, h2, h3⟩ := hnodup.1 hnd
      exact ⟨hn, ⟨hl, hnl⟩, ⟨hr, hnr⟩, h1, h2, h3⟩
    · rintro ⟨hn, ⟨hl, hnl⟩, ⟨hr, hnr⟩, h1, h2, h3⟩
      exact ⟨⟨hn, hl, hr⟩, hnodup.2 ⟨hnl, hnr, h1, h2, h3⟩⟩
  | right =>
    constructor
    · rintro ⟨⟨hn, hl, hr⟩, hnd⟩
      obtain ⟨hnl, hnr, h1, h2, h3⟩ := hnodup.1 hnd
      exact ⟨hn, ⟨hr, hnr⟩, ⟨hl, hnl⟩, h2, h1, fun a ha hb => h3 a hb ha⟩
    · rintro ⟨hn, ⟨hl, hnl⟩, ⟨hr, hnr⟩, h1, h2, h3⟩
      exact ⟨⟨hn, hr, hl⟩, hnodup.2 ⟨hnr, hnl, h2, h1, fun a ha hb => h3 a hb ha⟩⟩

theorem inMem_nil (cells : Cells ν α) : InMem cells .nil := ⟨trivial, .nil⟩

theorem InMem.frame {cells cells' : Cells ν α} {t : Tree ν α} (h : InMem cells t)
    (hsame : ∀ a ∈ t.rans, cells' a = cells a) : InMem cells' t := ⟨h.linked.frame hsame, h.nodup⟩

/-- The memory after a function that made `t'` of `t` and returned `p`. -/
structure Made (cells cells' : Cells ν α) (t t' : Tree ν α) (p : Option ν) : Prop where
  ptr : t'.ptr = p
  inMem : InMem cells' t'
  other : ∀ a ∉ t.rans, cells' a = cells a

namespace Memory

section Reads

variable {cells : Cells ν α} {dir : Dir} {s o t : Tree ν α} {n : Node ν α}

theorem child_eq {p q : Option ν} (h : cells n.ran = some (Cell.ofDir dir p n q)) : child cells n.ran dir = some p := by
  simp [child, h]

theorem height_eq (h : InMem cells t) : height cells t.ptr = some t.height := by
  cases t with
  | nil => rfl
  | node l n r =>
    obtain ⟨hn, -⟩ := (inMem_ofDir .left).1 h
    simp [height, ptr, hn]

theorem delta_eq {ran : ν} (h : InMem cells t) (hran : t.ptr = some ran) : delta cells ran = t.delta := by
  obtain ⟨l, n, r, rfl, rfl⟩ := exists_ofDir hran .left
  obtain ⟨hn, hl, hr, -⟩ := (inMem_ofDir .left).1 h
  have hleft := child_eq hn
  rw [← Cell.ofDir_opposite] at hn
  have hright := child_eq hn
  simp only [Dir.opposite] at hright
  simp [delta, hleft, hright, height_eq hl, height_eq hr, Tree.ofDir, Tree.delta]

end Reads

section Writes

variable [DecidableEq ν] {cells : Cells ν α} {dir : Dir} {s s' o t : Tree ν α} {n : Node ν α}

/-- `ran_p[dir]` is written. -/
theorem setChild_cell {p q : Option ν} (hn : cells n.ran = some (Cell.ofDir dir p n q)) (p' : Option ν) :
    ∃ cells', setChild cells n.ran dir p' = some cells' ∧ cells' n.ran = some (Cell.ofDir dir p' n q) ∧
      ∀ a, a ≠ n.ran → cells' a = cells a :=
  ⟨_, by rw [setChild, modify, hn, Option.map_some, Cell.setP_ofDir], Function.update_self ..,
    fun a ha => Function.update_of_ne ha ..⟩

/-- **Another subtree** is linked below a node. -/
theorem setChild_ok {p : Option ν} (hn : cells n.ran = some (Cell.ofDir dir p n o.ptr)) (hs : InMem cells s)
    (ho : InMem cells o) (hns : n.ran ∉ s.rans) (hno : n.ran ∉ o.rans) (hdisj : ∀ a ∈ s.rans, a ∉ o.rans) :
    ∃ cells', setChild cells n.ran dir s.ptr = some cells' ∧ InMem cells' (ofDir dir s n o) ∧
      ∀ a, a ≠ n.ran → cells' a = cells a := by
  obtain ⟨cells', h, hn', hother⟩ := setChild_cell hn s.ptr
  refine ⟨cells', h, (inMem_ofDir dir).2 ⟨hn', ?_, ?_, hns, hno, hdisj⟩, hother⟩
  · exact hs.frame fun a ha => hother a (by rintro rfl; exact hns ha)
  · exact ho.frame fun a ha => hother a (by rintro rfl; exact hno ha)

/-- `ran_height` is written. -/
theorem setHeight_ok {p q : Option ν} (hn : cells n.ran = some (Cell.ofDir dir p n q)) (h : Nat) :
    ∃ cells', setHeight cells n.ran h = some cells' ∧
      cells' n.ran = some (Cell.ofDir dir p { n with height := h } q) ∧ ∀ a, a ≠ n.ran → cells' a = cells a := by
  refine ⟨_, by rw [setHeight, modify, hn, Option.map_some], (Function.update_self ..).trans ?_,
    fun a ha => Function.update_of_ne ha ..⟩
  cases dir <;> rfl

theorem raiseHeight_ok {q : Option ν} (hn : cells n.ran = some (Cell.ofDir dir s.ptr n q)) (hs : InMem cells s) :
    ∃ cells', raiseHeight cells n.ran dir = some cells' ∧
      cells' n.ran = some (Cell.ofDir dir s.ptr { n with height := max n.height s.height } q) ∧
      ∀ a, a ≠ n.ran → cells' a = cells a := by
  have hrun : raiseHeight cells n.ran dir =
      if s.height > n.height then setHeight cells n.ran s.height else some cells := by
    simp [raiseHeight, child_eq hn, height_eq hs, hn]
  rw [hrun]
  split
  · rw [Nat.max_eq_right (by omega)]
    exact setHeight_ok hn s.height
  · rw [Nat.max_eq_left (by omega)]
    exact ⟨cells, rfl, hn, fun _ _ => rfl⟩

/-- **The height of a node** is set from its children. -/
theorem updateHeight_ok {l r : Tree ν α} (h : InMem cells (.node l n r)) :
    ∃ cells', updateHeight cells n.ran = some cells' ∧ InMem cells' (mk l n r) ∧
      ∀ a, a ≠ n.ran → cells' a = cells a := by
  obtain ⟨hn, hl, hr, hnl, hnr, hdisj⟩ := (inMem_ofDir .left).1 h
  have hsame : ∀ {cells' : Cells ν α}, (∀ a, a ≠ n.ran → cells' a = cells a) → InMem cells' l ∧ InMem cells' r := by
    intro cells' hother
    exact ⟨hl.frame fun a ha => hother a (by rintro rfl; exact hnl ha),
      hr.frame fun a ha => hother a (by rintro rfl; exact hnr ha)⟩
  obtain ⟨c₁, h₁, hn₁, ho₁⟩ := setHeight_ok hn 0
  obtain ⟨c₂, h₂, hn₂, ho₂⟩ := raiseHeight_ok (n := { n with height := 0 }) hn₁ (hsame ho₁).1
  have ho₂' : ∀ a, a ≠ n.ran → c₂ a = cells a := fun a ha => (ho₂ a ha).trans (ho₁ a ha)
  rw [← Cell.ofDir_opposite] at hn₂
  obtain ⟨c₃, h₃, hn₃, ho₃⟩ := raiseHeight_ok (n := { n with height := max 0 l.height }) hn₂ (hsame ho₂').2
  have ho₃' : ∀ a, a ≠ n.ran → c₃ a = cells a := fun a ha => (ho₃ a ha).trans (ho₂' a ha)
  obtain ⟨c₄, h₄, hn₄, ho₄⟩ := setHeight_ok (n := { n with height := max (max 0 l.height) r.height }) hn₃
    (max l.height r.height + 1)
  have ho₄' : ∀ a, a ≠ n.ran → c₄ a = cells a := fun a ha => (ho₄ a ha).trans (ho₃' a ha)
  refine ⟨c₄, ?_, ?_, ho₄'⟩
  · simp only [Dir.opposite] at h₃
    simp [updateHeight, h₁, h₂, h₃, hn₃, h₄]
  · rw [Cell.ofDir_opposite] at hn₄
    exact (inMem_ofDir .left).2 ⟨hn₄, (hsame ho₄').1, (hsame ho₄').2, hnl, hnr, hdisj⟩

end Writes

end Memory

/-! ## Balancing -/

theorem rotate_ofDir (f : Nat) (dir : Dir) (v : Tree ν α) (m : Node ν α) (w : Tree ν α) (n : Node ν α) (o : Tree ν α) :
    rotate (f + 1) (ofDir dir.opposite (ofDir dir v m w) n o) dir =
      (balance f (ofDir dir.opposite v n o)).bind fun x => balance f (ofDir dir x m w) := by
  cases dir with
  | left => exact rotate_left f o n v m w
  | right => exact rotate_right f w m v n o

/-- A rotation moves up a child. -/
theorem rotate_shape {f : Nat} {dir : Dir} {t t' : Tree ν α} (h : rotate f t dir = some t') :
    ∃ f' v m w n o, f = f' + 1 ∧ t = ofDir dir.opposite (ofDir dir v m w) n o := by
  cases f with
  | zero => cases h
  | succ f =>
    cases dir with
    | left =>
      cases t with
      | nil => cases h
      | node o n u =>
        cases u with
        | nil => cases h
        | node v m w => exact ⟨f, v, m, w, n, o, rfl, rfl⟩
    | right =>
      cases t with
      | nil => cases h
      | node u n o =>
        cases u with
        | nil => cases h
        | node w m v => exact ⟨f, v, m, w, n, o, rfl, rfl⟩

/-- The comparison of `rd_avl_balance_node` for a child in the direction `dir`, which has the difference `e`. -/
def Dir.leans (e : Int) : Dir → Bool
  | .left => e < 0
  | .right => e > 0

/-- A node that is heavy in the direction `dir`. -/
theorem balance_heavy (f : Nat) (dir : Dir) {s o : Tree ν α} (n : Node ν α) (h : o.height + 1 < s.height) :
    balance (f + 1) (ofDir dir s n o) = s.delta.bind fun e =>
      if dir.leans e then (rotate f s dir).bind fun x => rotate f (ofDir dir x n o) dir.opposite
      else rotate f (ofDir dir s n o) dir.opposite := by
  cases dir with
  | left => simpa [Dir.leans, Tree.ofDir, Dir.opposite] using balance_heavy_left f n h
  | right => simpa [Dir.leans, Tree.ofDir, Dir.opposite] using balance_heavy_right f n h

namespace Memory

variable [DecidableEq ν] {cells : Cells ν α}

theorem balance_heavy (f : Nat) {dir : Dir} {s o : Tree ν α} {n : Node ν α} {ran : ν}
    (h : InMem cells (ofDir dir s n o)) (hran : s.ptr = some ran) (hlt : o.height + 1 < s.height) :
    balance (f + 1) cells n.ran = (delta cells ran).bind fun e =>
      if dir.leans e then
        (rotate f cells ran dir).bind fun (cells, p) =>
          (setChild cells n.ran dir (some p)).bind fun cells => rotate f cells n.ran dir.opposite
      else rotate f cells n.ran dir.opposite := by
  have hd := delta_eq h (ptr_ofDir ..)
  have hchild := child_eq ((inMem_ofDir dir).1 h).1
  rw [hran] at hchild
  cases dir with
  | left =>
    have h3 : ¬ ((s.height : Int) - o.height < -deltaMax) := by unfold deltaMax; omega
    have h4 : (s.height : Int) - o.height > deltaMax := by unfold deltaMax; omega
    rw [balance, hd]
    simp [Tree.ofDir, Tree.delta, h3, h4, hchild, Dir.leans, Dir.opposite, Option.bind_assoc]
  | right =>
    have h3 : (o.height : Int) - s.height < -deltaMax := by unfold deltaMax; omega
    rw [balance, hd]
    simp [Tree.ofDir, Tree.delta, h3, hchild, Dir.leans, Dir.opposite, Option.bind_assoc]

theorem balance_light (f : Nat) {l r : Tree ν α} {n : Node ν α} (h : InMem cells (.node l n r))
    (h1 : l.height ≤ r.height + 1) (h2 : r.height ≤ l.height + 1) :
    balance (f + 1) cells n.ran = (updateHeight cells n.ran).map (·, n.ran) := by
  have hd := delta_eq h rfl
  have h3 : ¬ ((l.height : Int) - r.height < -deltaMax) := by unfold deltaMax; omega
  have h4 : ¬ ((l.height : Int) - r.height > deltaMax) := by unfold deltaMax; omega
  rw [balance, hd]
  simp [Tree.delta, h3, h4]

end Memory

/-- Rotations keep the order, given that for the recursive calls. -/
theorem rotate_inorder_of {f : Nat} (hb : ∀ {t t' : Tree ν α}, balance f t = some t' → t'.inorder = t.inorder)
    {t t' : Tree ν α} {dir : Dir} (h : rotate (f + 1) t dir = some t') : t'.inorder = t.inorder := by
  obtain ⟨f', v, m, w, n, o, hf, rfl⟩ := rotate_shape h
  rw [rotate_ofDir] at h
  obtain ⟨x, hx, h⟩ := Option.bind_eq_some_iff.1 h
  have hx := hb hx
  rw [hb h]
  cases dir with
  | left =>
    simp only [Tree.ofDir, Dir.opposite, inorder] at hx ⊢
    rw [hx, List.append_assoc, List.cons_append]
  | right =>
    simp only [Tree.ofDir, Dir.opposite, inorder] at hx ⊢
    rw [hx, List.append_assoc, List.cons_append]

theorem balance_inorder : ∀ {f : Nat} {t t' : Tree ν α}, balance f t = some t' → t'.inorder = t.inorder
  | 0, _, _, h => by cases h
  | _ + 1, .nil, _, h => by cases h
  | f + 1, .node l n r, t', h => by
    have hrot : ∀ {t t' : Tree ν α} {dir : Dir}, rotate f t dir = some t' → t'.inorder = t.inorder := by
      cases f with
      | zero => intro t t' dir h; cases h
      | succ f => exact fun h => rotate_inorder_of balance_inorder h
    have hheavy : ∀ (dir : Dir) (s o : Tree ν α), o.height + 1 < s.height →
        balance (f + 1) (ofDir dir s n o) = some t' → t'.inorder = (ofDir dir s n o).inorder := by
      intro dir s o hlt h
      rw [balance_heavy f dir n hlt] at h
      obtain ⟨e, -, h⟩ := Option.bind_eq_some_iff.1 h
      split at h
      · obtain ⟨x, hx, h⟩ := Option.bind_eq_some_iff.1 h
        rw [hrot h]
        have hin := hrot hx
        cases dir <;> simp [Tree.ofDir, inorder, hin]
      · exact hrot h
    rcases Nat.lt_or_ge (l.height + 1) r.height with h1 | h1
    · exact hheavy .right r l h1 h
    · rcases Nat.lt_or_ge (r.height + 1) l.height with h2 | h2
      · exact hheavy .left l r h2 h
      · rw [balance_even f n h2 h1] at h
        cases h
        rfl

theorem balance_rans {f : Nat} {t t' : Tree ν α} (h : balance f t = some t') : t'.rans = t.rans := by
  rw [rans, balance_inorder h, rans]

namespace Memory

variable [DecidableEq ν]

/-- `rd_avl_balance_node` does to the memory what it does to the tree. -/
def BalanceSim (ν α : Type) [DecidableEq ν] (f : Nat) : Prop :=
  ∀ {cells : Cells ν α} {t t' : Tree ν α} {ran : ν}, InMem cells t → t.ptr = some ran → Avl.balance f t = some t' →
    ∃ cells' p, balance f cells ran = some (cells', p) ∧ Made cells cells' t t' (some p)

/-- `rd_avl_rotate` too. -/
def RotateSim (ν α : Type) [DecidableEq ν] (f : Nat) : Prop :=
  ∀ {cells : Cells ν α} {t t' : Tree ν α} {ran : ν} {dir : Dir}, InMem cells t → t.ptr = some ran →
    Avl.rotate f t dir = some t' →
    ∃ cells' p, rotate f cells ran dir = some (cells', p) ∧ Made cells cells' t t' (some p)

/-- **One rotation**, given the recursive calls: the child is unlinked, what was below it is linked in its place, and
the node below it. -/
theorem rotate_sim_of {f : Nat} (hb : BalanceSim ν α f) : RotateSim ν α (f + 1) := by
  intro cells t t' ran dir h hran hrot
  obtain ⟨f', v, m, w, n, o, hf, rfl⟩ := rotate_shape hrot
  obtain rfl : n.ran = ran := by simpa using hran
  rw [rotate_ofDir] at hrot
  obtain ⟨x, hx, hx'⟩ := Option.bind_eq_some_iff.1 hrot
  obtain ⟨hn, hu, ho, hnu, hno, huo⟩ := (inMem_ofDir _).1 h
  obtain ⟨hm, hv, hw, hmv, hmw, hvw⟩ := (inMem_ofDir dir).1 hu
  simp only [mem_rans_ofDir, not_or] at hnu huo
  -- what is below the child in the direction goes to the node
  obtain ⟨c₁, h₁, hin₁, ho₁⟩ := setChild_ok hn hv ho hnu.2.1 hno fun a ha => huo a (.inr (.inl ha))
  obtain ⟨c₂, p, h₂, hx₂⟩ := hb hin₁ (ptr_ofDir ..) hx
  have hrans : ∀ a, a ∈ x.rans ↔ a = n.ran ∨ a ∈ v.rans ∨ a ∈ o.rans := by
    intro a
    rw [balance_rans hx, mem_rans_ofDir]
  have hother : ∀ a, a ∉ x.rans → c₂ a = cells a := by
    intro a ha
    rw [balance_rans hx] at ha
    rw [hx₂.other a ha]
    exact ho₁ a fun hne => ha ((mem_rans_ofDir ..).2 (.inl hne))
  have hmx : m.ran ∉ x.rans := by
    rw [hrans, not_or, not_or]
    exact ⟨Ne.symm hnu.1, hmv, huo m.ran (.inl rfl)⟩
  have hxw : ∀ a ∈ x.rans, a ∉ w.rans := by
    intro a ha haw
    rcases (hrans a).1 ha with rfl | hav | hao
    · exact hnu.2.2 haw
    · exact hvw a hav haw
    · exact huo a (.inr (.inr haw)) hao
  -- the balanced node goes below the child
  have hm₂ : c₂ m.ran = some (Cell.ofDir dir v.ptr m w.ptr) := by rw [hother _ hmx, hm]
  obtain ⟨c₃, h₃, hin₃, ho₃⟩ := setChild_ok hm₂ hx₂.inMem
    (hw.frame fun a ha => hother a fun hax => hxw a hax ha) hmx hmw hxw
  obtain ⟨c₄, p', h₄, hx₄⟩ := hb hin₃ (ptr_ofDir ..) hx'
  refine ⟨c₄, p', ?_, hx₄.ptr, hx₄.inMem, fun a ha => ?_⟩
  · rw [hx₂.ptr] at h₃
    have hchild := child_eq hn
    rw [ptr_ofDir] at hchild
    simp [rotate, hchild, child_eq hm, h₁, h₂, h₃, h₄]
  · simp only [mem_rans_ofDir, not_or] at ha
    obtain ⟨han, ⟨ham, hav, haw⟩, hao⟩ := ha
    have hax : a ∉ x.rans := by
      rw [hrans, not_or, not_or]
      exact ⟨han, hav, hao⟩
    rw [hx₄.other a, ho₃ a ham, hother a hax]
    simp only [mem_rans_ofDir, not_or]
    exact ⟨ham, hax, haw⟩

/-- **A heavy node**, given the rotations. -/
theorem heavy_sim {f : Nat} (hrot : RotateSim ν α f) {cells : Cells ν α} (dir : Dir) {s o t' : Tree ν α} {n : Node ν α}
    (h : InMem cells (ofDir dir s n o)) (hlt : o.height + 1 < s.height)
    (hbal : Avl.balance (f + 1) (ofDir dir s n o) = some t') :
    ∃ cells' p, balance (f + 1) cells n.ran = some (cells', p) ∧ Made cells cells' (ofDir dir s n o) t' (some p) := by
  obtain ⟨hn, hs, ho, hns, hno, hdisj⟩ := (inMem_ofDir dir).1 h
  obtain ⟨ran, hran⟩ : ∃ ran, s.ptr = some ran := by
    cases s with
    | nil => exact absurd hlt (by simp)
    | node _ m _ => exact ⟨m.ran, rfl⟩
  rw [Avl.balance_heavy f dir n hlt] at hbal
  obtain ⟨e, he, hbal⟩ := Option.bind_eq_some_iff.1 hbal
  rw [balance_heavy f h hran hlt, delta_eq hs hran, he, Option.bind_some]
  by_cases hlean : dir.leans e
  · rw [if_pos hlean] at hbal ⊢
    -- the child is rotated first
    obtain ⟨x, hx, hbal⟩ := Option.bind_eq_some_iff.1 hbal
    obtain ⟨c₁, p, h₁, hx₁⟩ := hrot hs hran hx
    have hrans : x.rans = s.rans := by
      cases f with
      | zero => cases hx
      | succ f => rw [rans, rotate_inorder_of balance_inorder hx, rans]
    have hn₁ : c₁ n.ran = some (Cell.ofDir dir s.ptr n o.ptr) := by rw [hx₁.other _ hns, hn]
    obtain ⟨c₂, h₂, hin₂, ho₂⟩ := setChild_ok hn₁ hx₁.inMem
      (ho.frame fun a ha => hx₁.other a fun has => hdisj a has ha) (hrans ▸ hns) hno (hrans ▸ hdisj)
    obtain ⟨c₃, p', h₃, hx₃⟩ := hrot hin₂ (ptr_ofDir ..) hbal
    refine ⟨c₃, p', ?_, hx₃.ptr, hx₃.inMem, fun a ha => ?_⟩
    · rw [hx₁.ptr] at h₂
      simp only [h₁, Option.bind_some, h₂, h₃]
    · simp only [mem_rans_ofDir, not_or] at ha
      obtain ⟨han, has, hao⟩ := ha
      rw [hx₃.other a, ho₂ a han, hx₁.other a has]
      simp only [mem_rans_ofDir, not_or, hrans]
      exact ⟨han, has, hao⟩
  · rw [if_neg hlean] at hbal ⊢
    exact hrot h (ptr_ofDir ..) hbal

/-- **`rd_avl_balance_node`.** -/
theorem balance_sim (f : Nat) : BalanceSim ν α f := by
  induction f using Nat.strong_induction_on with
  | _ f ih =>
    intro cells t t' ran h hran hbal
    obtain ⟨l, n, r, rfl, rfl⟩ := exists_ofDir hran .left
    cases f with
    | zero => cases hbal
    | succ f =>
      have hrot : RotateSim ν α f := by
        cases f with
        | zero => intro cells t t' ran dir _ _ hrot; cases hrot
        | succ f => exact rotate_sim_of (ih f (by omega))
      rcases Nat.lt_or_ge (l.height + 1) r.height with h1 | h1
      · exact heavy_sim hrot .right h h1 hbal
      · rcases Nat.lt_or_ge (r.height + 1) l.height with h2 | h2
        · exact heavy_sim hrot .left h h2 hbal
        · obtain rfl : mk l n r = t' := Option.some.inj ((balance_even f n h2 h1).symm.trans hbal)
          obtain ⟨c₁, h₁, hin₁, ho₁⟩ := updateHeight_ok h
          refine ⟨c₁, n.ran, by rw [balance_light f h h2 h1, h₁, Option.map_some], rfl, hin₁, fun a ha => ho₁ a ?_⟩
          rintro rfl
          exact ha ((mem_rans_ofDir ..).2 (.inl rfl))

theorem balanceNode_sim {cells : Cells ν α} {t t' : Tree ν α} {ran : ν} (h : InMem cells t) (hran : t.ptr = some ran)
    (hbal : Avl.balanceNode t = some t') :
    ∃ cells' p, balanceNode cells ran = some (cells', p) ∧ Made cells cells' t t' (some p) := by
  have hfuel : balanceFuel cells ran = Avl.balanceFuel t := by
    obtain ⟨l, n, r, rfl, rfl⟩ := exists_ofDir hran .left
    obtain ⟨hn, hl, hr, -⟩ := (inMem_ofDir .left).1 h
    simp [balanceFuel, Avl.balanceFuel, hn, Cell.ofDir, Tree.ofDir, height_eq hl, height_eq hr]
  rw [balanceNode, hfuel]
  exact balance_sim _ h hran hbal

end Memory

end Librd.Avl
