import Librd.Lib.Machine
import Librd.Avl.Order
import Mathlib.Data.Quot
import Mathlib.Logic.Function.Basic

/-!
# The AVL tree as a map

What the tree is for: a finite map from the classes of the comparator to the element stored for the class
(`ClassMap`), with the operations `mapSpec`. Every run of `rd_avl_insert`, `rd_avl_remove_elm` and `rd_avl_find` from
`rd_avl_init`, with nodes that are not linked when they are inserted, gives the results of the map, and the elements of
the tree are at every moment the values of the map, in strictly increasing order (`run_refines_map`).
-/

namespace Librd.Avl

open Librd.Avl.Tree

variable {ν α : Type}

/-! ## Maps keyed by classes -/

/-- Equivalence of elements under the comparator. -/
def Comparator.setoid (c : Comparator α) : Setoid α where
  r a b := c.cmp a b = 0
  iseqv := {
    refl := c.self
    symm := c.zero_comm.1
    trans := fun {a b d} h1 h2 => by
      have h3 := c.trans a b d (Int.le_of_eq h1) (Int.le_of_eq h2)
      have h4 := c.trans d b a (Int.le_of_eq (c.zero_comm.1 h2)) (Int.le_of_eq (c.zero_comm.1 h1))
      have h5 := c.swap a d
      omega }

/-- The classes of the comparator. -/
def Class (c : Comparator α) : Type := Quotient c.setoid

/-- The class of an element. -/
def classOf (c : Comparator α) (e : α) : Class c := Quotient.mk c.setoid e

theorem classOf_eq {c : Comparator α} {a b : α} : classOf c a = classOf c b ↔ c.cmp a b = 0 := by
  exact @Quotient.eq _ c.setoid a b

instance (c : Comparator α) : DecidableEq (Class c) := fun x y =>
  Quotient.recOnSubsingleton₂ x y fun _ _ => decidable_of_iff _ classOf_eq.symm

/-- What the tree stands for: the element stored for each class. -/
abbrev ClassMap (c : Comparator α) : Type := Class c → Option α

/-- The calls of the public interface. -/
inductive Op (ν α : Type)
  | insert (elm : α) (ran : ν)
  | removeElm (elm : α)
  | find (elm : α)
  deriving DecidableEq, Repr

/-- The operations on maps, with their results. -/
def mapSpec (c : Comparator α) (m : ClassMap c) : Op ν α → ClassMap c × Option α
  | .insert elm _ => (Function.update m (classOf c elm) (some elm), m (classOf c elm))
  | .removeElm elm => (Function.update m (classOf c elm) none, none)
  | .find elm => (m, m (classOf c elm))

/-! ## The machine of the tree -/

/-- The elements of a tree in order. -/
def Tree.elms (t : Tree ν α) : List α := t.inorder.map Prod.snd

/-- The addresses of the linked nodes. -/
def Tree.rans (t : Tree ν α) : List ν := t.inorder.map Prod.fst

/-- `rd_avl_init`: an empty tree. -/
def init : Tree ν α := .nil

/-- The public interface as a machine; only nodes that are not linked may be inserted. -/
def machine [DecidableEq ν] (c : Comparator α) : Machine (Tree ν α) (Op ν α) (Option α) where
  Ok t
    | .insert _ ran => ran ∉ t.rans
    | _ => True
  step t
    | .insert elm ran => insert c.cmp elm ran t
    | .removeElm elm => (removeElm c.cmp elm t).map fun t' => (t', none)
    | .find elm => some (t, find c.cmp elm t)

instance [DecidableEq ν] (c : Comparator α) (t : Tree ν α) : ∀ op : Op ν α, Decidable ((machine c).Ok t op)
  | .insert _ ran => inferInstanceAs (Decidable (ran ∉ t.rans))
  | .removeElm _ => .isTrue trivial
  | .find _ => .isTrue trivial

/-- Clearing a node that is not linked does not touch the tree. -/
theorem memset_of_not_mem [DecidableEq ν] {ran : ν} (elm : α) :
    ∀ {t : Tree ν α}, ran ∉ t.rans → t.memset ran elm = t
  | .nil, _ => rfl
  | .node l n r, h => by
    simp only [rans, inorder, List.map_append, List.map_cons, List.mem_append, List.mem_cons, not_or] at h
    obtain ⟨hl, hn, hr⟩ := h
    rw [memset, if_neg (fun e => hn e.symm), memset_of_not_mem elm hl, memset_of_not_mem elm hr]

/-- `m` is the map of the elements `es`. -/
def Represents {c : Comparator α} (es : List α) (m : ClassMap c) : Prop :=
  ∀ e x, m (classOf c e) = some x ↔ x ∈ es ∧ c.cmp e x = 0

section Parts

variable {c : Comparator α} {L : List (ν × α)} {e x : α}

theorem mem_parts {y : ν × α} : y ∈ below c e L ∨ y ∈ above c e L ↔ y ∈ L ∧ c.cmp e y.2 ≠ 0 := by
  have h1 := c.swap y.2 e
  simp only [below, above, List.mem_filter, decide_eq_true_eq, ← and_or_left]
  refine and_congr_right fun _ => ?_
  omega

theorem stored_eq_some (hs : Sorted c L) :
    (stored c e L).map Prod.snd = some x ↔ x ∈ L.map Prod.snd ∧ c.cmp e x = 0 := by
  constructor
  · intro h
    obtain ⟨y, hy, rfl⟩ := Option.map_eq_some_iff.1 h
    have h0 := List.find?_some hy
    exact ⟨List.mem_map_of_mem (List.mem_of_find?_eq_some hy), by simpa using h0⟩
  · rintro ⟨hx, h0⟩
    obtain ⟨y, hy, rfl⟩ := List.mem_map.1 hx
    obtain ⟨xs, ys, rfl⟩ := List.append_of_mem hy
    rw [(hs.split_eq h0).2.2]; rfl

/-- The result of a lookup is the value of the map. -/
theorem Represents.stored_eq (hs : Sorted c L) {m : ClassMap c} (hm : Represents (L.map Prod.snd) m) (e : α) :
    (stored c e L).map Prod.snd = m (classOf c e) := by
  ext x
  rw [stored_eq_some hs, hm e x]

theorem mem_elms_remove : x ∈ (below c e L ++ above c e L).map Prod.snd ↔ x ∈ L.map Prod.snd ∧ c.cmp e x ≠ 0 := by
  simp only [List.mem_map, List.mem_append, mem_parts]
  constructor
  · rintro ⟨y, ⟨hy, h0⟩, rfl⟩; exact ⟨⟨y, hy, rfl⟩, h0⟩
  · rintro ⟨⟨y, hy, rfl⟩, h0⟩; exact ⟨y, ⟨hy, h0⟩, rfl⟩

theorem mem_elms_insert (ran : ν) :
    x ∈ (below c e L ++ (ran, e) :: above c e L).map Prod.snd ↔ x = e ∨ x ∈ L.map Prod.snd ∧ c.cmp e x ≠ 0 := by
  rw [← mem_elms_remove]
  simp only [List.map_append, List.map_cons, List.mem_append, List.mem_cons]
  tauto

/-- Replacing the middle is an update of the map. -/
theorem Represents.insert {m : ClassMap c} (hm : Represents (L.map Prod.snd) m) (ran : ν) (e : α) :
    Represents ((below c e L ++ (ran, e) :: above c e L).map Prod.snd) (Function.update m (classOf c e) (some e)) := by
  intro e' x
  rw [mem_elms_insert, ne_eq, ← classOf_eq (a := e), ← classOf_eq (a := e')]
  by_cases he : classOf c e' = classOf c e
  · rw [he, Function.update_self]
    constructor
    · intro h
      obtain rfl := Option.some.inj h
      exact ⟨.inl rfl, rfl⟩
    · rintro ⟨rfl | ⟨-, hne⟩, h⟩
      · rfl
      · exact absurd h hne
  · rw [Function.update_of_ne he, hm e' x, ← classOf_eq]
    constructor
    · rintro ⟨hx, h⟩
      exact ⟨.inr ⟨hx, fun h' => he (h.trans h'.symm)⟩, h⟩
    · rintro ⟨rfl | ⟨hx, -⟩, h⟩
      · exact absurd h he
      · exact ⟨hx, h⟩

/-- Removing the middle clears the class. -/
theorem Represents.remove {m : ClassMap c} (hm : Represents (L.map Prod.snd) m) (e : α) :
    Represents ((below c e L ++ above c e L).map Prod.snd) (Function.update m (classOf c e) none) := by
  intro e' x
  rw [mem_elms_remove, ne_eq, ← classOf_eq (a := e), ← classOf_eq (a := e')]
  by_cases he : classOf c e' = classOf c e
  · rw [he, Function.update_self]
    constructor
    · intro h; cases h
    · rintro ⟨⟨-, hne⟩, h⟩; exact absurd h hne
  · rw [Function.update_of_ne he, hm e' x, ← classOf_eq]
    constructor
    · rintro ⟨hx, h⟩; exact ⟨⟨hx, fun h' => he (h.trans h'.symm)⟩, h⟩
    · rintro ⟨⟨hx, -⟩, h⟩; exact ⟨hx, h⟩

end Parts

/-! ## Runs -/

/-- The tree is well formed and stands for the map `m`. -/
structure Refines (c : Comparator α) (t : Tree ν α) (m : ClassMap c) : Prop where
  balanced : Balanced t
  sorted : Sorted c t.inorder
  represents : Represents t.elms m

theorem init_refines {c : Comparator α} : Refines c (init : Tree ν α) (fun _ => none) :=
  ⟨.nil, .nil, fun e x => by simp [init, elms, inorder]⟩

section Runs

variable [DecidableEq ν] {c : Comparator α}

theorem insert_ok {t : Tree ν α} (hb : Balanced t) (hs : Sorted c t.inorder) (elm : α) {ran : ν} (h : ran ∉ t.rans) :
    ∃ t', insert c.cmp elm ran t = some (t', (stored c elm t.inorder).map Prod.snd) ∧ Balanced t' ∧
      t'.inorder = below c elm t.inorder ++ (ran, elm) :: above c elm t.inorder := by
  obtain ⟨t', ex, he, hb', hi, hex⟩ := insertNode_ok ⟨ran, 0, elm⟩ rfl hb hs
  refine ⟨t', ?_, hb', hi⟩
  have hx : ex.map Node.elm = (stored c elm t.inorder).map Prod.snd := by
    rw [← hex, Option.map_map]; rfl
  simp [insert, memset_of_not_mem elm h, he, hx]

theorem step_removeElm {t : Tree ν α} (hb : Balanced t) (hs : Sorted c t.inorder) (elm : α) :
    ∃ t', (machine c).step t (.removeElm elm) = some (t', none) ∧ Balanced t' ∧
      t'.inorder = below c elm t.inorder ++ above c elm t.inorder := by
  obtain ⟨t', he, hb', hi⟩ := removeElm0_ok (e := elm) hb hs
  exact ⟨t', by simp [machine, removeElm, he], hb', hi⟩

/-- Every call returns and keeps the tree well formed. -/
theorem step_ok {t : Tree ν α} (op : Op ν α) (hb : Balanced t) (hs : Sorted c t.inorder) (hok : (machine c).Ok t op) :
    ∃ t' o, (machine c).step t op = some (t', o) ∧ Balanced t' ∧ Sorted c t'.inorder := by
  cases op with
  | insert elm ran =>
    obtain ⟨t', he, hb', hi⟩ := insert_ok hb hs elm hok
    exact ⟨t', _, he, hb', by rw [hi]; exact hs.insert (ran, elm)⟩
  | removeElm elm =>
    obtain ⟨t', he, hb', hi⟩ := step_removeElm hb hs elm
    exact ⟨t', none, he, hb', by rw [hi]; exact hs.remove elm⟩
  | find elm => exact ⟨t, _, rfl, hb, hs⟩

/-- Every admitted run returns and keeps the tree well formed. -/
theorem run_ok (ops : List (Op ν α)) {t : Tree ν α} (hb : Balanced t) (hs : Sorted c t.inorder)
    (ha : (machine c).Admits t ops) :
    ∃ t' os, (machine c).run t ops = some (t', os) ∧ Balanced t' ∧ Sorted c t'.inorder :=
  Machine.run_inv (I := fun t => Balanced t ∧ Sorted c t.inorder) (fun _ op h hok => step_ok op h.1 h.2 hok) ops
    ⟨hb, hs⟩ ha

/-- Every call keeps the tree well formed and does what it does to the map. -/
theorem step_refines {t : Tree ν α} {m : ClassMap c} (op : Op ν α) (h : Refines c t m) (hok : (machine c).Ok t op) :
    ∃ t', (machine c).step t op = some (t', (mapSpec c m op).2) ∧ Refines c t' (mapSpec c m op).1 := by
  obtain ⟨hb, hs, hm⟩ := h
  cases op with
  | insert elm ran =>
    obtain ⟨t', he, hb', hi⟩ := insert_ok hb hs elm hok
    refine ⟨t', ?_, hb', ?_, ?_⟩
    · simpa [machine, mapSpec, hm.stored_eq hs] using he
    · rw [hi]; exact hs.insert (ran, elm)
    · rw [elms, hi]; exact hm.insert ran elm
  | removeElm elm =>
    obtain ⟨t', he, hb', hi⟩ := step_removeElm hb hs elm
    refine ⟨t', he, hb', ?_, ?_⟩
    · rw [hi]; exact hs.remove elm
    · rw [elms, hi]; exact hm.remove elm
  | find elm =>
    refine ⟨t, ?_, hb, hs, hm⟩
    have hf : find c.cmp elm t = (stored c elm t.inorder).map Prod.snd := by
      rw [← findNode_ok hs, Option.map_map]; rfl
    simp [machine, mapSpec, hf, hm.stored_eq hs]

/-- **The tree is a map**: every admitted sequence of calls from `rd_avl_init` returns, gives the results of the map
operations, and leaves the values of the map in strictly increasing order. -/
theorem run_refines_map (c : Comparator α) (ops : List (Op ν α)) (h : (machine c).Admits init ops) :
    ∃ t, (machine c).run init ops = some (t, (Machine.specRun (mapSpec c) (fun _ => none) ops).2) ∧
      t.elms.Pairwise (fun x y => c.cmp x y < 0) ∧
      Represents t.elms (Machine.specRun (mapSpec c) (fun _ => none) ops).1 := by
  obtain ⟨t, hr, -, hs, hm⟩ :=
    Machine.run_sim (fun t m op ht hok => step_refines op ht hok) ops init (fun _ => none) init_refines h
  exact ⟨t, hr, List.pairwise_map.2 hs, hm⟩

end Runs

/-- Numbers compared by subtraction. -/
def intComparator : Comparator Int where
  cmp a b := a - b
  swap := by omega
  trans := by omega

/-- Three keys, a replacement, a lookup, a removal and a lookup again. -/
def keyOps : List (Op Nat Int) :=
  [.insert 5 0, .insert 3 1, .insert 8 2, .insert 3 3, .find 3, .removeElm 5, .find 5, .insert 5 0]

theorem run_refines_map_keys :
    (∃ t, (machine intComparator).run init keyOps =
        some (t, (Machine.specRun (mapSpec intComparator) (fun _ => none) keyOps).2) ∧
      t.elms.Pairwise (fun x y => intComparator.cmp x y < 0) ∧
      Represents t.elms (Machine.specRun (mapSpec intComparator) (fun _ => none) keyOps).1) ∧
    (Machine.specRun (mapSpec intComparator) (fun _ => none) keyOps).2 =
      [none, none, none, some 3, some 3, none, none, none] :=
  ⟨run_refines_map intComparator keyOps (by decide), by decide⟩

end Librd.Avl
