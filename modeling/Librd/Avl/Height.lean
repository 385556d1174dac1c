import Mathlib.Data.Nat.Fib.Basic
import Librd.Avl.Map

/-!
# Stored heights and true heights

`rd_avl_insert_node` links a new node with the height 0 that `memset` gave it, while `rd_avl_balance_node` gives a
childless node the height 1. So the stored heights of a reachable tree are its true heights exactly when no node is
left with height 0 (`heightsExact_iff`), and a run keeps exact heights exactly as long as every insertion replaces an
equivalent element instead of linking a node (`always_exact_iff`).

The stored heights stay balanced all the same, and a fresh node hides at most one level, so a tree of true height `h`
holds at least `Fib (h + 1) - 1` elements on every run (`run_depth`).
-/

namespace Librd.Avl

open Librd.Avl.Tree

variable {ν α : Type}

/-- The number of nodes on the longest path down. -/
def Tree.trueHeight : Tree ν α → Nat
  | .nil => 0
  | .node l _ r => max l.trueHeight r.trueHeight + 1

/-- Every stored height is the true height, and the true heights of two siblings differ by at most `RD_DELTA_MAX`. -/
def HeightsExact : Tree ν α → Prop
  | .nil => True
  | .node l n r => n.height = (Tree.node l n r).trueHeight ∧ (l.trueHeight : Int) - r.trueHeight ≤ deltaMax ∧
      (r.trueHeight : Int) - l.trueHeight ≤ deltaMax ∧ HeightsExact l ∧ HeightsExact r

/-- No node has the height 0 of a node that was linked and never balanced. -/
def NoFresh : Tree ν α → Prop
  | .nil => True
  | .node l n r => n.height ≠ 0 ∧ NoFresh l ∧ NoFresh r

theorem HeightsExact.height_eq {t : Tree ν α} (h : HeightsExact t) : t.height = t.trueHeight := by
  cases t with
  | nil => rfl
  | node l n r => exact h.1

theorem HeightsExact.noFresh : ∀ {t : Tree ν α}, HeightsExact t → NoFresh t
  | .nil, _ => trivial
  | .node l n r, ⟨h, _, _, hl, hr⟩ => ⟨by simp [h, trueHeight], hl.noFresh, hr.noFresh⟩

theorem HeightsExact.balanced : ∀ {t : Tree ν α}, HeightsExact t → Balanced t
  | .nil, _ => .nil
  | .node l n r, ⟨h, h1, h2, hl, hr⟩ => by
    have e1 := hl.height_eq
    have e2 := hr.height_eq
    unfold deltaMax at h1 h2
    exact .node hl.balanced hr.balanced (by rw [h, trueHeight, e1, e2]) (by omega) (by omega)

theorem Balanced.heightsExact {t : Tree ν α} (hb : Balanced t) (hf : NoFresh t) : HeightsExact t := by
  induction hb with
  | nil => trivial
  | fresh n h => exact absurd h hf.1
  | @node l n r hl hr h h1 h2 ihl ihr =>
    have el := ihl hf.2.1
    have er := ihr hf.2.2
    have e1 := el.height_eq
    have e2 := er.height_eq
    refine ⟨by rw [h, trueHeight, e1, e2], ?_, ?_, el, er⟩ <;> unfold deltaMax <;> omega

/-- Exact heights are stored-balanced heights without a fresh node. -/
theorem heightsExact_iff {t : Tree ν α} : HeightsExact t ↔ Balanced t ∧ NoFresh t :=
  ⟨fun h => ⟨h.balanced, h.noFresh⟩, fun h => h.1.heightsExact h.2⟩

/-! ## Size and depth -/

/-- A fresh node hides one level, and only at the bottom of a path. -/
theorem Balanced.trueHeight_le {t : Tree ν α} (hb : Balanced t) : t.trueHeight ≤ t.height + 1 := by
  induction hb with
  | nil => exact Nat.zero_le _
  | fresh n h => simp [trueHeight, h]
  | node hl hr h _ _ ihl ihr =>
    rw [trueHeight, height_node, h]
    omega

/-- A tree of stored height `h` holds at least as many nodes as the smallest AVL tree of height `h`. -/
theorem Balanced.fib_le_length {t : Tree ν α} (hb : Balanced t) : Nat.fib (t.height + 2) ≤ t.inorder.length + 1 := by
  induction hb with
  | nil => simp [inorder]
  | fresh n h => simp [inorder, h]
  | @node l n r hl hr h h1 h2 ihl ihr =>
    have hsize : (Tree.node l n r).inorder.length = l.inorder.length + r.inorder.length + 1 := by
      simp only [inorder, List.length_append, List.length_cons]
      omega
    -- one child has the maximum of the heights, the other at least one less
    have hfib : Nat.fib (max l.height r.height + 1) + Nat.fib (max l.height r.height + 1 + 1) ≤
        Nat.fib (l.height + 2) + Nat.fib (r.height + 2) := by
      rcases Nat.le_total l.height r.height with hle | hle
      · rw [Nat.max_eq_right hle]
        exact Nat.add_le_add (Nat.fib_mono (by omega)) le_rfl
      · rw [Nat.max_eq_left hle, Nat.add_comm (Nat.fib (l.height + 1))]
        exact Nat.add_le_add le_rfl (Nat.fib_mono (by omega))
    rw [height_node, h, hsize, Nat.fib_add_two]
    omega

/-- The true height against the number of elements. -/
theorem Balanced.fib_trueHeight_le {t : Tree ν α} (hb : Balanced t) :
    Nat.fib (t.trueHeight + 1) - 1 ≤ t.elms.length := by
  have hh : Nat.fib (t.trueHeight + 1) ≤ Nat.fib (t.height + 2) := by
    apply Nat.fib_mono
    have := hb.trueHeight_le
    omega
  have := hb.fib_le_length
  rw [elms, List.length_map]
  omega

/-! ## Rebalancing makes no fresh nodes -/

/-- No fresh node below the root. -/
def NoFreshBelow : Tree ν α → Prop
  | .nil => True
  | .node l _ r => NoFresh l ∧ NoFresh r

theorem NoFresh.below {t : Tree ν α} (h : NoFresh t) : NoFreshBelow t := by
  cases t with
  | nil => trivial
  | node l n r => exact h.2

theorem rotate_noFresh_of {f : Nat}
    (hb : ∀ {t t' : Tree ν α}, balance f t = some t' → NoFreshBelow t → NoFresh t') {d : Dir} {t t' : Tree ν α}
    (h : rotate (f + 1) t d = some t') (ht : NoFreshBelow t) : NoFresh t' := by
  cases t with
  | nil => cases d <;> simp [rotate, child] at h
  | node l n r =>
    obtain ⟨hl, hr⟩ := ht
    cases d with
    | left =>
      cases r with
      | nil => simp [rotate, Dir.opposite, child] at h
      | node a m b =>
        rw [rotate_left] at h
        obtain ⟨u, hu, h⟩ := Option.bind_eq_some_iff.1 h
        exact hb h ⟨hb hu ⟨hl, hr.2.1⟩, hr.2.2⟩
    | right =>
      cases l with
      | nil => simp [rotate, Dir.opposite, child] at h
      | node a m b =>
        rw [rotate_right] at h
        obtain ⟨u, hu, h⟩ := Option.bind_eq_some_iff.1 h
        exact hb h ⟨hl.2.1, hb hu ⟨hl.2.2, hr⟩⟩

/-- The node that is balanced gets a new height. -/
theorem balance_noFresh : ∀ {f : Nat} {t t' : Tree ν α}, balance f t = some t' → NoFreshBelow t → NoFresh t'
  | 0, _, _, h, _ => by simp [balance] at h
  | f + 1, .nil, _, h, _ => by simp [balance, delta] at h
  | f + 1, .node l n r, t', h, ht => by
    obtain ⟨hl, hr⟩ := ht
    have hrot : ∀ {d : Dir} {t t' : Tree ν α}, rotate f t d = some t' → NoFreshBelow t → NoFresh t' := by
      cases f with
      | zero => intro d t t' h; simp [rotate] at h
      | succ f => exact rotate_noFresh_of balance_noFresh
    rcases Nat.lt_or_ge (l.height + 1) r.height with h1 | h1
    · rw [balance_heavy_right f n h1] at h
      obtain ⟨e, -, h⟩ := Option.bind_eq_some_iff.1 h
      split at h
      · obtain ⟨u, hu, h⟩ := Option.bind_eq_some_iff.1 h
        exact hrot h ⟨hl, hrot hu hr.below⟩
      · exact hrot h ⟨hl, hr⟩
    · rcases Nat.lt_or_ge (r.height + 1) l.height with h2 | h2
      · rw [balance_heavy_left f n h2] at h
        obtain ⟨e, -, h⟩ := Option.bind_eq_some_iff.1 h
        split at h
        · obtain ⟨u, hu, h⟩ := Option.bind_eq_some_iff.1 h
          exact hrot h ⟨hrot hu hl.below, hr⟩
        · exact hrot h ⟨hl, hr⟩
      · rw [balance_even f n h2 h1] at h
        cases h
        exact ⟨Nat.succ_ne_zero _, hl, hr⟩

theorem balanceNode_noFresh {l r t : Tree ν α} {n : Node ν α} (hl : NoFresh l) (hr : NoFresh r)
    (h : balanceNode (node l n r) = some t) : NoFresh t := balance_noFresh h ⟨hl, hr⟩

/-! ## The operations -/

theorem move_noFresh {src : Tree ν α} (hs : NoFresh src) : ∀ {dst t : Tree ν α}, NoFresh dst →
    move src .right dst = some t → NoFresh t
  | .nil, _, _, h => by cases h; exact hs
  | .node l n r, t, hd, h => by
    simp only [move, Option.bind_eq_bind] at h
    obtain ⟨r', hr', h⟩ := Option.bind_eq_some_iff.1 h
    exact balanceNode_noFresh hd.2.1 (move_noFresh hs hd.2.2 hr') h

theorem removeElm0_noFresh {cmp : α → α → Int} {e : α} : ∀ {t t' : Tree ν α}, NoFresh t →
    removeElm0 cmp e t = some t' → NoFresh t'
  | .nil, _, _, h => by cases h; trivial
  | .node l n r, t', ht, h => by
    simp only [removeElm0, Option.bind_eq_bind] at h
    split at h
    · exact move_noFresh ht.2.2 ht.2.1 h
    · split at h
      · obtain ⟨l', hl', h⟩ := Option.bind_eq_some_iff.1 h
        exact balanceNode_noFresh (removeElm0_noFresh ht.2.1 hl') ht.2.2 h
      · obtain ⟨r', hr', h⟩ := Option.bind_eq_some_iff.1 h
        exact balanceNode_noFresh ht.2.1 (removeElm0_noFresh ht.2.2 hr') h

/-- Replacing an equivalent element makes no fresh node. -/
theorem insertNode_replace {cmp : α → α → Int} {ran x : Node ν α} : ∀ {t t' : Tree ν α}, NoFresh t →
    insertNode cmp ran t = some (t', some x) → NoFresh t'
  | .nil, _, _, h => by simp [insertNode] at h
  | .node l n r, t', ht, h => by
    simp only [insertNode, Option.bind_eq_bind, Option.pure_def] at h
    split at h
    · cases h; exact ht
    · split at h
      · obtain ⟨⟨l', ex⟩, hl', h⟩ := Option.bind_eq_some_iff.1 h
        obtain ⟨u, hu, h⟩ := Option.bind_eq_some_iff.1 h
        cases h
        exact balanceNode_noFresh (insertNode_replace ht.2.1 hl') ht.2.2 hu
      · obtain ⟨⟨r', ex⟩, hr', h⟩ := Option.bind_eq_some_iff.1 h
        obtain ⟨u, hu, h⟩ := Option.bind_eq_some_iff.1 h
        cases h
        exact balanceNode_noFresh ht.2.1 (insertNode_replace ht.2.2 hr') hu

/-- A node that is linked into a tree with exact heights counts as absent: nothing is rotated, no height changes, and
the new node is left with height 0. -/
theorem insertNode_link {cmp : α → α → Int} {ran : Node ν α} (hran : ran.height = 0) :
    ∀ {t t' : Tree ν α}, HeightsExact t → insertNode cmp ran t = some (t', none) → t'.height = t.height ∧ ¬ NoFresh t'
  | .nil, _, _, h => by
    cases h
    exact ⟨hran, fun h => h.1 hran⟩
  | .node l n r, t', ht, h => by
    obtain ⟨h0, h1, h2, hl, hr⟩ := ht
    have el := hl.height_eq
    have er := hr.height_eq
    unfold deltaMax at h1 h2
    simp only [insertNode, Option.bind_eq_bind, Option.pure_def] at h
    split at h
    · cases h
    · split at h
      · obtain ⟨⟨l', ex⟩, hl', h⟩ := Option.bind_eq_some_iff.1 h
        obtain ⟨u, hu, h⟩ := Option.bind_eq_some_iff.1 h
        cases h
        obtain ⟨e, hf⟩ := insertNode_link hran hl hl'
        simp only at hu
        rw [balanceNode, balanceFuel, balance_even _ n (by omega) (by omega)] at hu
        cases hu
        exact ⟨by simp [h0, trueHeight, e, el, er], fun h => hf h.2.1⟩
      · obtain ⟨⟨r', ex⟩, hr', h⟩ := Option.bind_eq_some_iff.1 h
        obtain ⟨u, hu, h⟩ := Option.bind_eq_some_iff.1 h
        cases h
        obtain ⟨e, hf⟩ := insertNode_link hran hr hr'
        simp only at hu
        rw [balanceNode, balanceFuel, balance_even _ n (by omega) (by omega)] at hu
        cases hu
        exact ⟨by simp [h0, trueHeight, e, el, er], fun h => hf h.2.2⟩

/-! ## Runs -/

section Runs

variable [DecidableEq ν]

/-- An insertion that finds an equivalent element in the tree; the other operations. -/
def Replaces (c : Comparator α) (t : Tree ν α) : Op ν α → Prop
  | .insert elm _ => ∃ x ∈ t.elms, c.cmp elm x = 0
  | _ => True

variable {c : Comparator α}

/-- One call on a tree with exact heights keeps them exact unless it links a new node. -/
theorem step_exact_iff {t : Tree ν α} (op : Op ν α) (ht : HeightsExact t) (hs : Sorted c t.inorder)
    (hok : (machine c).Ok t op) : ∃ t' o, (machine c).step t op = some (t', o) ∧ Balanced t' ∧ Sorted c t'.inorder ∧
      (HeightsExact t' ↔ Replaces c t op) := by
  have hb := ht.balanced
  cases op with
  | insert elm ran =>
    obtain ⟨t', ex, he, hb', hi, hex⟩ := insertNode_ok ⟨ran, 0, elm⟩ rfl hb hs
    refine ⟨t', ex.map Node.elm, ?_, hb', by rw [hi]; exact hs.insert (ran, elm), ?_⟩
    · simp [machine, insert, memset_of_not_mem elm hok, he]
    · have hrep : Replaces c t (.insert elm ran) ↔ ex ≠ none := by
        rw [← Option.isSome_iff_ne_none, ← Option.isSome_map, hex, stored, List.find?_isSome]
        simp only [Replaces, elms, List.mem_map, decide_eq_true_eq]
        constructor
        · rintro ⟨_, ⟨y, hy, rfl⟩, h0⟩; exact ⟨y, hy, h0⟩
        · rintro ⟨y, hy, h0⟩; exact ⟨_, ⟨y, hy, rfl⟩, h0⟩
      rw [hrep]
      cases ex with
      | none => exact ⟨fun h => absurd h.noFresh (insertNode_link rfl ht he).2, fun h => absurd rfl h⟩
      | some x => exact ⟨fun _ => by simp, fun _ => hb'.heightsExact (insertNode_replace ht.noFresh he)⟩
  | removeElm elm =>
    obtain ⟨t', he, hb', hi⟩ := removeElm0_ok (e := elm) hb hs
    refine ⟨t', none, by simp [machine, removeElm, he], hb', by rw [hi]; exact hs.remove elm, ?_⟩
    exact ⟨fun _ => trivial, fun _ => hb'.heightsExact (removeElm0_noFresh ht.noFresh he)⟩
  | find elm => exact ⟨t, _, rfl, hb, hs, fun _ => trivial, fun _ => ht⟩

/-- All trees of a run have exact heights if and only if no insertion of the run links a node. -/
theorem always_exact_iff (c : Comparator α) : ∀ (ops : List (Op ν α)) (t : Tree ν α), HeightsExact t →
    Sorted c t.inorder → (machine c).Admits t ops →
    ((machine c).Always HeightsExact t ops ↔ (machine c).Each (Replaces c) t ops)
  | [], t, ht, _, _ => ⟨fun _ => trivial, fun _ => ht⟩
  | op :: ops, t, ht, hs, ha => by
    obtain ⟨t', o, he, hb, hs', hiff⟩ := step_exact_iff op ht hs ha.1
    rw [Machine.always_cons he, Machine.each_cons he]
    constructor
    · rintro ⟨-, h⟩
      have ht' := Machine.always_head h
      exact ⟨hiff.1 ht', (always_exact_iff c ops t' ht' hs' ((Machine.each_cons he).1 ha).2).1 h⟩
    · rintro ⟨hr, h⟩
      have ht' := hiff.2 hr
      exact ⟨ht, (always_exact_iff c ops t' ht' hs' ((Machine.each_cons he).1 ha).2).2 h⟩

/-- **Exact heights along a run**: from a tree whose heights are exact, such as the empty one, all trees of a run have
exact heights if and only if every insertion of the run finds an equivalent element to replace; and the last tree,
whatever the run did, has exact heights if and only if no node of it still has the height 0 of a node that was linked
and never balanced. -/
theorem run_exact_iff (c : Comparator α) (t : Tree ν α) (ops : List (Op ν α)) (ht : HeightsExact t)
    (hs : Sorted c t.inorder) (ha : (machine c).Admits t ops) :
    ((machine c).Always HeightsExact t ops ↔ (machine c).Each (Replaces c) t ops) ∧
      ∃ t' os, (machine c).run t ops = some (t', os) ∧ (HeightsExact t' ↔ NoFresh t') := by
  refine ⟨always_exact_iff c ops t ht hs ha, ?_⟩
  obtain ⟨t', os, hr, hb, -⟩ := run_ok ops ht.balanced hs ha
  exact ⟨t', os, hr, fun h => h.noFresh, fun h => hb.heightsExact h⟩

/-- **Depth along a run**: no run of insertions and removals (and searches) faults, and the tree it leaves, with `h`
nodes on its longest path, holds at least `Fib (h + 1) - 1` elements, however many of its nodes are fresh. -/
theorem run_depth (c : Comparator α) (ops : List (Op ν α)) (ha : (machine c).Admits init ops) :
    ∃ t os, (machine c).run init ops = some (t, os) ∧ Nat.fib (t.trueHeight + 1) - 1 ≤ t.elms.length := by
  obtain ⟨t, os, hr, hb, -⟩ := run_ok ops .nil .nil ha
  exact ⟨t, os, hr, hb.fib_trueHeight_le⟩

end Runs

/-- Inserting 3, 2 and 1 leaves a path of three nodes, so the bound is met with a deeper tree than exact
heights allow. -/
theorem run_depth_path :
    (machine intComparator).Admits init [.insert 3 0, .insert 2 1, .insert 1 2] ∧
    ∃ t os, (machine intComparator).run (init : Tree Nat Int) [.insert 3 0, .insert 2 1, .insert 1 2] = some (t, os) ∧
      Nat.fib (t.trueHeight + 1) - 1 ≤ t.elms.length :=
  ⟨by decide, run_depth intComparator [.insert 3 0, .insert 2 1, .insert 1 2] (by decide)⟩

/-- A tree with exact heights, left by inserting 2 and 1 and removing 2. -/
def oneLeaf : Tree Nat Int := .node .nil ⟨1, 1, 1⟩ .nil

theorem run_exact_iff_oneLeaf :
    (machine intComparator).run init [.insert 2 0, .insert 1 1, .removeElm 2] = some (oneLeaf, [none, none, none]) ∧
    ((machine intComparator).Always HeightsExact oneLeaf [.insert 1 7, .removeElm 4] ↔
      (machine intComparator).Each (Replaces intComparator) oneLeaf [.insert 1 7, .removeElm 4]) ∧
    ∃ t' os, (machine intComparator).run oneLeaf [.insert 1 7, .removeElm 4] = some (t', os) ∧
      (HeightsExact t' ↔ NoFresh t') :=
  ⟨by decide, run_exact_iff intComparator oneLeaf [.insert 1 7, .removeElm 4]
    (by simp [oneLeaf, HeightsExact, trueHeight, deltaMax]) (by simp [oneLeaf, Sorted, inorder]) (by decide)⟩

/-- After inserting 3, 2 and 1 the tree is a path: its root has the stored height 2 and the true height 3, and its
subtrees have the true heights 2 and 0. -/
theorem heights_of_path :
    ∃ l n r os, (machine intComparator).run init [.insert 3 0, .insert 2 1, .insert 1 2] = some (.node l n r, os) ∧
      n.height = 2 ∧ (Tree.node l n r).trueHeight = 3 ∧ l.trueHeight = 2 ∧ r.trueHeight = 0 ∧
      ¬ HeightsExact (Tree.node l n r) :=
  ⟨.node (.node .nil ⟨2, 0, 1⟩ .nil) ⟨1, 1, 2⟩ .nil, ⟨0, 2, 3⟩, .nil, [none, none, none], by decide, by decide,
    by decide, by decide, by decide, by simp [HeightsExact, trueHeight]⟩

end Librd.Avl
