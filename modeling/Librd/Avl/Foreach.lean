import Librd.Avl.Height
import Librd.Avl.Reinsert

/-!
# Walking over a tree whose elements are freed on the way

`rd_avl_foreach_node` is about accesses to memory, so it is modelled on the nodes in memory: a node has its two links,
its height and its element (`Cell`), a node that was freed cannot be read, and every read of a node and every call of
the callback is recorded (`Event`). The callback may do with the node that is embedded in its element what it wants:
leave it, overwrite it or free it.

`Linked cells t` says that the tree `t` lies in memory. A walk over it visits the left subtree, the right subtree and
then the node, and touches nothing else, so that no node is read after its callback has run (`foreachNode_ok`). The
empty tree is the exception: `rd_avl_foreach` passes its NULL root on, and `rd_avl_foreach_node` reads the links of
the node it is given without looking (`foreach_iff`).
-/

namespace Librd.Avl

open Librd.Avl.Tree

variable {ν α σ : Type}

/-! ## Nodes in memory -/

/-- `rd_avl_node_t` in memory: `ran_p[RD_AVL_LEFT]`, `ran_p[RD_AVL_RIGHT]`, `ran_height` and `ran_elm`. -/
structure Cell (ν α : Type) where
  left : Option ν
  right : Option ν
  height : Nat
  elm : α
  deriving DecidableEq, Repr

/-- `ran_p[dir]`. -/
def Cell.p (cell : Cell ν α) : Dir → Option ν
  | .left => cell.left
  | .right => cell.right

/-- What the walk does to memory: it reads fields of a node, or calls the callback for one. -/
inductive Event (ν α : Type)
  | read (ran : ν)
  | call (ran : ν) (elm : α)
  deriving DecidableEq, Repr

/-- The node of an event. -/
def Event.ran : Event ν α → ν
  | .read ran => ran
  | .call ran _ => ran

/-- The memory, what `opaque` points at, and the events so far. -/
structure Walk (ν α σ : Type) where
  cells : ν → Option (Cell ν α)
  opq : σ
  trace : List (Event ν α)

/-- `rd_avl_foreach_cb`: called with an element and `opaque`, it leaves something of the element's node, or nothing
when it frees the element. -/
abbrev ForeachCb (ν α σ : Type) : Type := α → σ → Option (Cell ν α) × σ

/-- Reading a field of `ran`. -/
def Walk.read (ran : ν) (s : Walk ν α σ) : Option (Cell ν α × Walk ν α σ) :=
  (s.cells ran).map fun cell => (cell, { s with trace := s.trace ++ [.read ran] })

/-- `cb(elm, opaque)` for the element of `ran`. -/
def Walk.call [DecidableEq ν] (cb : ForeachCb ν α σ) (ran : ν) (elm : α) (s : Walk ν α σ) : Walk ν α σ where
  cells := Function.update s.cells ran (cb elm s.opq).1
  opq := (cb elm s.opq).2
  trace := s.trace ++ [.call ran elm]

/-! ## The walk -/

/-- `if (ran->ran_p[dir]) rd_avl_foreach_node(ran->ran_p[dir], cb, opaque)`. -/
def foreachChild (visit : Option ν → Walk ν α σ → Option (Walk ν α σ)) (ran : ν) (dir : Dir) (s : Walk ν α σ) :
    Option (Walk ν α σ) := do
  let (cell, s) ← s.read ran
  match cell.p dir with
  | none => some s
  | some _ =>
    let (cell, s) ← s.read ran
    visit (cell.p dir) s

/-- `rd_avl_foreach_node`, with fuel for the depth of the recursion. -/
def foreachNode [DecidableEq ν] (cb : ForeachCb ν α σ) : Nat → Option ν → Walk ν α σ → Option (Walk ν α σ)
  | 0, _, _ => none
  | _ + 1, none, _ => none
  | fuel + 1, some ran, s => do
    let s ← foreachChild (foreachNode cb fuel) ran .left s
    let s ← foreachChild (foreachNode cb fuel) ran .right s
    let (cell, s) ← s.read ran
    return s.call cb ran cell.elm

/-- `rd_avl_foreach` on `ravl_root`. -/
def foreach [DecidableEq ν] (cb : ForeachCb ν α σ) (fuel : Nat) (root : Option ν) (cells : ν → Option (Cell ν α))
    (opq : σ) : Option (Walk ν α σ) :=
  foreachNode cb fuel root ⟨cells, opq, []⟩

/-- The elements the callback was called with. -/
def calls (tr : List (Event ν α)) : List α := tr.filterMap fun
  | .read _ => none
  | .call _ elm => some elm

/-- A read of a node whose callback has been called. -/
def ReadAfter : Event ν α → Event ν α → Prop
  | .call ran _, .read ran' => ran = ran'
  | _, _ => False

/-- No field of a node is read after its callback has run. -/
def NoReadAfter (tr : List (Event ν α)) : Prop := tr.Pairwise fun e e' => ¬ ReadAfter e e'

/-! ## Trees in memory -/

/-- The pointer to the root of a tree. -/
def Tree.ptr : Tree ν α → Option ν
  | .nil => none
  | .node _ n _ => some n.ran

/-- The tree lies in memory. -/
def Linked (cells : ν → Option (Cell ν α)) : Tree ν α → Prop
  | .nil => True
  | .node l n r => cells n.ran = some ⟨l.ptr, r.ptr, n.height, n.elm⟩ ∧ Linked cells l ∧ Linked cells r

/-- A tree lies in every memory that has its nodes as they are. -/
theorem Linked.frame {cells cells' : ν → Option (Cell ν α)} : ∀ {t : Tree ν α}, Linked cells t →
    (∀ ran ∈ t.rans, cells' ran = cells ran) → Linked cells' t
  | .nil, _, _ => trivial
  | .node l n r, ⟨hn, hl, hr⟩, h => by
    simp only [rans_node, List.mem_append, List.mem_cons] at h
    refine ⟨(h n.ran (.inr (.inl rfl))).trans hn, hl.frame fun ran hran => ?_, hr.frame fun ran hran => ?_⟩
    · exact h ran (.inl hran)
    · exact h ran (.inr (.inr hran))

/-! ## What a walk leaves behind -/

/-- The elements in the order of the walk. -/
def Tree.postorder : Tree ν α → List α
  | .nil => []
  | .node l n r => l.postorder ++ r.postorder ++ [n.elm]

theorem postorder_perm : ∀ t : Tree ν α, t.postorder.Perm t.elms
  | .nil => .nil
  | .node l n r => by
    have hl := postorder_perm l
    have hr := postorder_perm r
    simp only [postorder, elms, inorder, List.map_append, List.map_cons, List.append_assoc] at hl hr ⊢
    exact hl.append ((List.perm_append_singleton ..).trans (hr.cons _))

/-- The events of a walk over `t`: the callback is called for the elements one after another, no node is read after
its callback, and no other node is touched. -/
structure Visits (t : Tree ν α) (tr : List (Event ν α)) : Prop where
  calls : calls tr = t.postorder
  noReadAfter : NoReadAfter tr
  on : ∀ e ∈ tr, e.ran ∈ t.rans

theorem Visits.nil : Visits (.nil : Tree ν α) [] := ⟨rfl, .nil, fun e he => by cases he⟩

theorem not_readAfter_of_ne {e e' : Event ν α} (h : e.ran ≠ e'.ran) : ¬ ReadAfter e e' := by
  cases e with
  | read ran => exact fun h => h
  | call ran elm =>
    cases e' with
    | read ran' => exact h
    | call ran' elm' => exact fun h => h

@[simp] theorem calls_append (tr tr' : List (Event ν α)) : Avl.calls (tr ++ tr') = Avl.calls tr ++ Avl.calls tr' :=
  List.filterMap_append

theorem calls_reads {tr : List (Event ν α)} {ran : ν} (h : ∀ e ∈ tr, e = .read ran) : Avl.calls tr = [] := by
  refine List.filterMap_eq_nil_iff.2 fun e he => ?_
  rw [h e he]

/-- Reads may stand before everything. -/
theorem NoReadAfter.reads_append {pre tr : List (Event ν α)} {ran : ν} (hpre : ∀ e ∈ pre, e = .read ran)
    (h : NoReadAfter tr) : NoReadAfter (pre ++ tr) := by
  induction pre with
  | nil => exact h
  | cons e pre ih =>
    refine List.pairwise_cons.2 ⟨fun e' _ => ?_, ih fun e he => hpre e (List.mem_cons_of_mem _ he)⟩
    rw [hpre e List.mem_cons_self]
    exact fun h => h

/-- A walk may stand before everything that touches other nodes. -/
theorem Visits.append {t : Tree ν α} {tv tr : List (Event ν α)} (hv : Visits t tv) (h : NoReadAfter tr)
    (hne : ∀ e ∈ tr, e.ran ∉ t.rans) : NoReadAfter (tv ++ tr) := by
  refine List.pairwise_append.2 ⟨hv.noReadAfter, h, fun e he e' he' => ?_⟩
  apply not_readAfter_of_ne
  intro hran
  exact hne e' he' (hran ▸ hv.on e he)

/-- Reads of the node, the walk over the left subtree, reads of the node, the walk over the right subtree, a last read
of the node and its call. -/
theorem Visits.node {l r : Tree ν α} {n : Node ν α} (hn : (Tree.node l n r).rans.Nodup)
    {pl tl pr tr : List (Event ν α)} (hpl : ∀ e ∈ pl, e = .read n.ran) (hl : Visits l tl)
    (hpr : ∀ e ∈ pr, e = .read n.ran) (hr : Visits r tr) :
    Visits (.node l n r) (pl ++ (tl ++ (pr ++ (tr ++ [.read n.ran, .call n.ran n.elm])))) := by
  obtain ⟨-, -, hnl, hnr, hd⟩ := nodup_node hn
  have hlast : ∀ e ∈ [Event.read n.ran, .call n.ran n.elm], e.ran = n.ran := by simp [Event.ran]
  have hreads : ∀ {pre : List (Event ν α)}, (∀ e ∈ pre, e = .read n.ran) → ∀ e ∈ pre, e.ran = n.ran := by
    intro pre hpre e he
    rw [hpre e he]; rfl
  refine ⟨?_, ?_, ?_⟩
  · have hcall : Avl.calls [Event.read n.ran, .call n.ran n.elm] = [n.elm] := rfl
    simp [calls_reads hpl, calls_reads hpr, hl.calls, hr.calls, postorder, hcall]
  · have h1 : NoReadAfter [Event.read n.ran, .call n.ran n.elm] := by simp [NoReadAfter, ReadAfter]
    have h2 := hr.append h1 (fun e he => by rw [hlast e he]; exact hnr)
    refine NoReadAfter.reads_append hpl (hl.append (NoReadAfter.reads_append hpr h2) fun e he => ?_)
    rcases List.mem_append.1 he with he | he
    · rw [hreads hpr e he]; exact hnl
    · rcases List.mem_append.1 he with he | he
      · exact fun hmem => hd hmem (hr.on e he)
      · rw [hlast e he]; exact hnl
  · intro e he
    rw [rans_node, List.mem_append, List.mem_cons]
    simp only [List.mem_append] at he
    rcases he with he | he | he | he | he
    · exact .inr (.inl (hreads hpl e he))
    · exact .inl (hl.on e he)
    · exact .inr (.inl (hreads hpr e he))
    · exact .inr (.inr (hr.on e he))
    · exact .inr (.inl (hlast e he))

/-! ## The walk over a tree in memory -/

section Run

/-- From `s` to `s'` there is a walk over `t`, which changes no other node. -/
structure Walked (t : Tree ν α) (pre tr : List (Event ν α)) (s s' : Walk ν α σ) : Prop where
  trace : s'.trace = s.trace ++ (pre ++ tr)
  visits : Visits t tr
  frame : ∀ ran ∉ t.rans, s'.cells ran = s.cells ran

theorem read_ok {s : Walk ν α σ} {ran : ν} {cell : Cell ν α} (h : s.cells ran = some cell) :
    s.read ran = some (cell, { s with trace := s.trace ++ [.read ran] }) := by
  simp [Walk.read, h]

/-- The visit of a child, given the walk over it. -/
theorem foreachChild_ok (visit : Option ν → Walk ν α σ → Option (Walk ν α σ)) (dir : Dir) {t : Tree ν α}
    {s : Walk ν α σ} {ran : ν} {cell : Cell ν α} (hc : s.cells ran = some cell) (hp : cell.p dir = t.ptr)
    (hv : t ≠ .nil → ∀ s1 : Walk ν α σ, s1.cells = s.cells → ∃ s' tr, visit t.ptr s1 = some s' ∧ Walked t [] tr s1 s') :
    ∃ s' pre tr, foreachChild visit ran dir s = some s' ∧ (∀ e ∈ pre, e = .read ran) ∧ Walked t pre tr s s' := by
  let s1 : Walk ν α σ := { s with trace := s.trace ++ [.read ran] }
  let s2 : Walk ν α σ := { s1 with trace := s1.trace ++ [.read ran] }
  have h1 : s.read ran = some (cell, s1) := read_ok hc
  have h2 : s1.read ran = some (cell, s2) := read_ok hc
  cases t with
  | nil =>
    -- the test of the link is the only read
    refine ⟨s1, [.read ran], [], ?_, by simp, by simp [s1], .nil, fun _ _ => rfl⟩
    simp [foreachChild, h1, hp, ptr]
  | node l n r =>
    obtain ⟨s', tr, he, htr, hvis, hf⟩ := hv (by simp) s2 rfl
    refine ⟨s', [.read ran, .read ran], tr, ?_, by simp, by simp [htr, s2, s1], hvis, hf⟩
    simpa [foreachChild, h1, h2, hp, ptr] using he

variable [DecidableEq ν]

/-- **`rd_avl_foreach_node`** with fuel for the depth of the tree returns, visits the tree and touches nothing else. -/
theorem foreachNode_ok (cb : ForeachCb ν α σ) : ∀ {t : Tree ν α} {fuel : Nat} {s : Walk ν α σ}, t ≠ .nil →
    t.trueHeight ≤ fuel → t.rans.Nodup → Linked s.cells t →
    ∃ s' tr, foreachNode cb fuel t.ptr s = some s' ∧ Walked t [] tr s s'
  | .nil, _, _, h, _, _, _ => absurd rfl h
  | .node l n r, 0, _, _, h, _, _ => by simp [trueHeight] at h
  | .node l n r, fuel + 1, s, _, hfuel, hn, ⟨hc, hl, hr⟩ => by
    obtain ⟨hnl', hnr', hnl, hnr, hd⟩ := nodup_node hn
    rw [trueHeight] at hfuel
    obtain ⟨s1, pl, tl, he1, hpl, htl, hvl, hfl⟩ := foreachChild_ok (foreachNode cb fuel) .left (t := l) hc rfl
      fun hne s0 hs0 => foreachNode_ok cb hne (by omega) hnl' (hs0 ▸ hl)
    -- the node and its right subtree are still as they were
    have hc1 : s1.cells n.ran = some ⟨l.ptr, r.ptr, n.height, n.elm⟩ := (hfl n.ran hnl).trans hc
    have hr1 : Linked s1.cells r := hr.frame fun ran hran => hfl ran fun h => hd h hran
    obtain ⟨s2, pr, tr, he2, hpr, htr, hvr, hfr⟩ := foreachChild_ok (foreachNode cb fuel) .right (t := r) hc1 rfl
      fun hne s0 hs0 => foreachNode_ok cb hne (by omega) hnr' (hs0 ▸ hr1)
    have hc2 : s2.cells n.ran = some ⟨l.ptr, r.ptr, n.height, n.elm⟩ := (hfr n.ran hnr).trans hc1
    let s3 : Walk ν α σ := { s2 with trace := s2.trace ++ [.read n.ran] }
    refine ⟨s3.call cb n.ran n.elm, _, ?_, ?_, Visits.node hn hpl hvl hpr hvr, ?_⟩
    · simp only [ptr, foreachNode, he1, he2, read_ok hc2, Option.bind_eq_bind, Option.bind_some, Option.pure_def, s3]
    · simp [Walk.call, s3, htr, htl]
    · intro ran hran
      simp only [rans_node, List.mem_append, List.mem_cons, not_or] at hran
      obtain ⟨h1, h2, h3⟩ := hran
      simp only [Walk.call, s3, Function.update_of_ne h2]
      exact (hfr ran h3).trans (hfl ran h1)

/-- The walk from the root of a formed tree. -/
theorem Formed.foreach {c : Comparator α} {t : Tree ν α} (ht : Formed c t) (hne : t ≠ .nil) (cb : ForeachCb ν α σ)
    {cells : ν → Option (Cell ν α)} (opq : σ) (hlink : Linked cells t) :
    ∃ s, Avl.foreach cb t.trueHeight t.ptr cells opq = some s ∧ (calls s.trace).Nodup ∧
      (∀ e, e ∈ calls s.trace ↔ e ∈ t.elms) ∧ NoReadAfter s.trace := by
  obtain ⟨s, tr, he, htr, hv, -⟩ := foreachNode_ok cb (s := ⟨cells, opq, []⟩) hne le_rfl ht.nodup hlink
  have htr' : s.trace = tr := by simpa using htr
  have hperm : (calls s.trace).Perm t.elms := by
    rw [htr', hv.calls]
    exact postorder_perm t
  refine ⟨s, he, ?_, ?_, ?_⟩
  · exact hperm.nodup_iff.2 ht.sorted.nodup_elms
  · exact fun e => hperm.mem_iff
  · rw [htr']
    exact hv.noReadAfter

/-- A NULL node is followed at once. -/
theorem foreachNode_null (cb : ForeachCb ν α σ) (fuel : Nat) (s : Walk ν α σ) : foreachNode cb fuel none s = none := by
  cases fuel <;> rfl

/-- **`rd_avl_foreach`**: after every run of calls with embedded nodes, in every memory in which the tree lies, and
whatever the callback does with its element, the walk ends without following a NULL node or reading a freed one, calls
the callback once for each stored element and for no other, and reads no node after its callback, if and only if the
tree is not empty. -/
theorem foreach_iff (c : Comparator α) (ops : List (Op ν α)) (h : (machine c).Each EmbeddedOk init ops) :
    ∃ t os, (machine c).run init ops = some (t, os) ∧
    ∀ (cb : ForeachCb ν α σ) (cells : ν → Option (Cell ν α)) (opq : σ),
      Linked cells t →
      ((∃ fuel s, foreach cb fuel t.ptr cells opq = some s ∧ (calls s.trace).Nodup ∧
        (∀ e, e ∈ calls s.trace ↔ e ∈ t.elms) ∧ NoReadAfter s.trace) ↔ t ≠ .nil) := by
  obtain ⟨t, os, hr, ht⟩ := run_formed ops h
  refine ⟨t, os, hr, fun cb cells opq hlink => ?_⟩
  constructor
  · rintro ⟨fuel, s, he, -⟩ rfl
    rw [foreach, ptr, foreachNode_null] at he
    cases he
  · intro hne
    exact ⟨t.trueHeight, ht.foreach hne cb opq hlink⟩

end Run

/-! ## Every reachable tree lies in some memory -/

section Layout

variable [DecidableEq ν]

/-- The memory that holds the nodes of a tree and nothing else. -/
def Tree.cells : Tree ν α → ν → Option (Cell ν α)
  | .nil, _ => none
  | .node l n r, ran => if ran = n.ran then some ⟨l.ptr, r.ptr, n.height, n.elm⟩ else (l.cells ran).or (r.cells ran)

theorem cells_isSome : ∀ {t : Tree ν α} {ran : ν}, (t.cells ran).isSome ↔ ran ∈ t.rans
  | .nil, ran => by simp [Tree.cells, rans, inorder]
  | .node l n r, ran => by
    rw [Tree.cells, rans_node, List.mem_append, List.mem_cons, ← cells_isSome (t := l), ← cells_isSome (t := r)]
    split
    · simp [*]
    · simp [*]

/-- The memory of a formed tree holds the tree. -/
theorem linked_cells : ∀ {t : Tree ν α}, t.rans.Nodup → Linked t.cells t
  | .nil, _ => trivial
  | .node l n r, hn => by
    obtain ⟨hl, hr, hnl, hnr, hd⟩ := nodup_node hn
    refine ⟨by simp [Tree.cells], (linked_cells hl).frame fun ran hran => ?_,
      (linked_cells hr).frame fun ran hran => ?_⟩
    · have hne : ran ≠ n.ran := fun e => hnl (e ▸ hran)
      obtain ⟨cell, hcell⟩ := Option.isSome_iff_exists.1 (cells_isSome.2 hran)
      rw [Tree.cells, if_neg hne, hcell, Option.some_or]
    · have hne : ran ≠ n.ran := fun e => hnr (e ▸ hran)
      have hnone : l.cells ran = none := by
        rw [← Option.not_isSome_iff_eq_none, cells_isSome]
        exact fun h => hd h hran
      rw [Tree.cells, if_neg hne, hnone, Option.none_or]

end Layout

/-- A callback that counts the elements and frees each of them. -/
def countFree : ForeachCb Nat Int Nat := fun _ count => (none, count + 1)

/-- Three elements inserted, and the tree they make. -/
def threeOps : List (Op Nat Int) := [.insert 2 0, .insert 1 1, .insert 3 2]

def threeTree : Tree Nat Int := .node (.node .nil ⟨1, 0, 1⟩ .nil) ⟨0, 1, 2⟩ (.node .nil ⟨2, 0, 3⟩ .nil)

theorem foreach_iff_three :
    (machine intComparator).Each EmbeddedOk init threeOps ∧
    (machine intComparator).run init threeOps = some (threeTree, [none, none, none]) ∧
    Linked threeTree.cells threeTree ∧
    ∃ fuel s, foreach countFree fuel threeTree.ptr threeTree.cells 0 = some s ∧ (calls s.trace).Nodup ∧
      (∀ e, e ∈ calls s.trace ↔ e ∈ threeTree.elms) ∧ NoReadAfter s.trace := by
  have hok : (machine intComparator).Each EmbeddedOk init threeOps := by decide
  have hrun : (machine intComparator).run init threeOps = some (threeTree, [none, none, none]) := by decide
  have hlink : Linked threeTree.cells threeTree := linked_cells (by decide)
  obtain ⟨t, os, hr, h⟩ := @foreach_iff Nat Int Nat _ intComparator threeOps hok
  obtain ⟨rfl, -⟩ : threeTree = t ∧ [none, none, none] = os := by simpa [hrun] using hr
  exact ⟨hok, hrun, hlink, (h countFree _ 0 hlink).2 (by simp [threeTree])⟩

/-- The empty tree, here after its only element was removed, has a NULL root, which the walk follows. -/
theorem foreach_of_empty :
    (machine intComparator).Each EmbeddedOk (init : Tree Nat Int) [.insert 1 0, .removeElm 1] ∧
    ∃ t, (machine intComparator).run (init : Tree Nat Int) [.insert 1 0, .removeElm 1] = some (t, [none, none]) ∧
      Linked t.cells t ∧ ∀ fuel, foreach countFree fuel t.ptr t.cells 0 = none :=
  ⟨by decide, .nil, by decide, trivial, fun fuel => foreachNode_null countFree fuel _⟩

end Librd.Avl
