import Librd.Avl.Map
import Mathlib.Data.List.Nodup
import Mathlib.Data.List.Perm.Subperm

/-!
# Inserting an element that is in the tree

Nodes are embedded in their elements, so the node that `rd_avl_insert` is given is linked exactly when the element is
in the tree (`EmbeddedOk`). `rd_avl_insert` clears the node before it searches for its place: in the tree that is
searched, the linked node has lost its children and everything below them (`Tree.memset`). The search then meets the
node itself and replaces it by itself, and the way back up rebalances; so what the call leaves is the cleared tree in
order (`insertNode_linked`).

Such a call therefore does what the description of `RD_AVL_INSERT` says exactly when the node had no children
(`reinsert_iff`).
-/

namespace Librd.Avl

open Librd.Avl.Tree

variable {ν α : Type}

/-- The node `ran` has no children where it is linked. -/
def Childless (ran : ν) : Tree ν α → Prop
  | .nil => True
  | .node l n r => (n.ran = ran → l = .nil ∧ r = .nil) ∧ Childless ran l ∧ Childless ran r

instance Childless.decidable [DecidableEq ν] [DecidableEq α] (ran : ν) : ∀ t : Tree ν α, Decidable (Childless ran t)
  | .nil => .isTrue trivial
  | .node l n r =>
    have := Childless.decidable ran l
    have := Childless.decidable ran r
    inferInstanceAs (Decidable ((n.ran = ran → l = .nil ∧ r = .nil) ∧ Childless ran l ∧ Childless ran r))

/-- What embedding the nodes in the elements promises: a node that is linked when it is inserted is the node of the
element it is inserted with. -/
def EmbeddedOk (t : Tree ν α) : Op ν α → Prop
  | .insert elm ran => ran ∈ t.rans → (ran, elm) ∈ t.inorder
  | _ => True

instance [DecidableEq ν] [DecidableEq α] (t : Tree ν α) : ∀ op : Op ν α, Decidable (EmbeddedOk t op)
  | .insert elm ran => inferInstanceAs (Decidable (ran ∈ t.rans → (ran, elm) ∈ t.inorder))
  | .removeElm _ => .isTrue trivial
  | .find _ => .isTrue trivial

/-! ## The cleared tree -/

section Memset

variable {l r t : Tree ν α} {n : Node ν α} {ran : ν} {elm : α}

theorem mem_rans {p : ν × α} (h : p ∈ t.inorder) : p.1 ∈ t.rans := List.mem_map_of_mem h

theorem rans_node : (Tree.node l n r).rans = l.rans ++ n.ran :: r.rans := by simp [rans, inorder]

theorem inorder_eq_nil (h : t.inorder = []) : t = .nil := by
  cases t with
  | nil => rfl
  | node l n r => simp [inorder] at h

/-- The nodes of the two subtrees and of the root are different ones. -/
theorem nodup_node (h : (Tree.node l n r).rans.Nodup) : l.rans.Nodup ∧ r.rans.Nodup ∧ n.ran ∉ l.rans ∧ n.ran ∉ r.rans ∧
    l.rans.Disjoint r.rans := by
  rw [rans_node, List.nodup_append', List.nodup_cons, List.disjoint_cons_right] at h
  obtain ⟨hl, ⟨hnr, hr⟩, hnl, hd⟩ := h
  exact ⟨hl, hr, hnl, hnr, hd⟩

theorem childless_of_not_mem : ∀ {t : Tree ν α}, ran ∉ t.rans → Childless ran t
  | .nil, _ => trivial
  | .node l n r, h => by
    simp only [rans_node, List.mem_append, List.mem_cons, not_or] at h
    obtain ⟨hl, hn, hr⟩ := h
    exact ⟨fun e => absurd e.symm hn, childless_of_not_mem hl, childless_of_not_mem hr⟩

/-- Where the linked node is the root, which is `(ran, elm)` and nothing else, or in one of the subtrees. -/
theorem linked_cases (hn : (Tree.node l n r).rans.Nodup) (h : (ran, elm) ∈ (Tree.node l n r).inorder) :
    (n.ran = ran ∧ n.elm = elm) ∨ (n.ran ≠ ran ∧ (ran, elm) ∈ l.inorder ∧ ran ∉ r.rans) ∨
      (n.ran ≠ ran ∧ (ran, elm) ∈ r.inorder ∧ ran ∉ l.rans) := by
  obtain ⟨-, -, hnl, hnr, hd⟩ := nodup_node hn
  rcases List.mem_append.1 h with h | h
  · have hl := mem_rans h
    exact .inr (.inl ⟨fun e => hnl (e ▸ hl), h, fun hr => hd hl hr⟩)
  · rcases List.mem_cons.1 h with h | h
    · obtain ⟨rfl, rfl⟩ := Prod.mk.inj h
      exact .inl ⟨rfl, rfl⟩
    · have hr := mem_rans h
      exact .inr (.inr ⟨fun e => hnr (e ▸ hr), h, fun hl => hd hl hr⟩)

variable [DecidableEq ν]

/-- Clearing a linked node takes entries out of the sequence, and takes none out exactly when it has no children. -/
theorem memset_inorder : ∀ {t : Tree ν α}, t.rans.Nodup → (ran, elm) ∈ t.inorder →
    (t.memset ran elm).inorder.Sublist t.inorder ∧ ((t.memset ran elm).inorder = t.inorder ↔ Childless ran t)
  | .nil, _, h => by cases h
  | .node l n r, hn, h => by
    obtain ⟨hl, hr, hnl, hnr, -⟩ := nodup_node hn
    rcases linked_cases hn h with ⟨rfl, rfl⟩ | ⟨hne, h, hnot⟩ | ⟨hne, h, hnot⟩
    · rw [memset, if_pos rfl]
      refine ⟨by simp [inorder], ?_⟩
      constructor
      · intro e
        have e' := congrArg List.length e
        simp only [inorder, List.nil_append, List.length_append, List.length_cons, List.length_nil] at e'
        have hl0 : l = .nil := inorder_eq_nil (List.length_eq_zero_iff.1 (by omega))
        have hr0 : r = .nil := inorder_eq_nil (List.length_eq_zero_iff.1 (by omega))
        exact ⟨fun _ => ⟨hl0, hr0⟩, childless_of_not_mem hnl, childless_of_not_mem hnr⟩
      · intro hc
        obtain ⟨rfl, rfl⟩ := hc.1 rfl
        rfl
    · obtain ⟨hs, hiff⟩ := memset_inorder hl h
      rw [memset, if_neg hne, memset_of_not_mem elm hnot]
      refine ⟨hs.append_right _, ?_⟩
      simp [inorder, Childless, hne, hiff, childless_of_not_mem hnot]
    · obtain ⟨hs, hiff⟩ := memset_inorder hr h
      rw [memset, if_neg hne, memset_of_not_mem elm hnot]
      refine ⟨(hs.cons_cons _).append_left _, ?_⟩
      simp [inorder, Childless, hne, hiff, childless_of_not_mem hnot]

end Memset

/-! ## The call -/

section Sequences

variable {c : Comparator α}

/-- Strictly increasing elements are different ones. -/
theorem Sorted.nodup_elms {L : List (ν × α)} (hs : Sorted c L) : (L.map Prod.snd).Nodup := by
  refine List.pairwise_map.2 (hs.imp fun {x y} hlt e => ?_)
  rw [e, c.self] at hlt
  exact Int.lt_irrefl 0 hlt

/-- Entries with different nodes stay so in a part of them. -/
theorem Sorted.nodup_rans {M L : List (ν × α)} (hM : Sorted c M) (hsub : M ⊆ L) (hL : (L.map Prod.fst).Nodup) :
    (M.map Prod.fst).Nodup := by
  refine List.Nodup.map_on (fun x hx y hy e => ?_) hM.nodup_elms.of_map
  exact List.inj_on_of_nodup_map hL (hsub hx) (hsub hy) e

/-- A part of a sequence of different elements that has all of its elements is the sequence. -/
theorem Sorted.eq_of_elms {L L' : List (ν × α)} (hs : Sorted c L) (hsub : L'.Sublist L)
    (h : ∀ x, x ∈ L'.map Prod.snd ↔ x ∈ L.map Prod.snd) : L' = L := by
  have hperm : (L'.map Prod.snd).Perm (L.map Prod.snd) :=
    (List.perm_ext_iff_of_nodup (Sorted.nodup_elms (hs.sublist hsub)) hs.nodup_elms).2 h
  apply hsub.eq_of_length
  simpa using hperm.length_eq

theorem parts_subset {L : List (ν × α)} (e : α) : below c e L ++ above c e L ⊆ L := by
  intro x hx
  exact (mem_parts.1 (List.mem_append.1 hx)).1

end Sequences

section Call

variable [DecidableEq ν] {c : Comparator α} {ran : ν} {elm : α}

/-- **`rd_avl_insert_node` with a node that is linked** meets that node, and leaves the cleared tree in order. -/
theorem insertNode_linked : ∀ {t : Tree ν α}, Balanced t → Sorted c t.inorder → t.rans.Nodup →
    (ran, elm) ∈ t.inorder → ∃ t', insertNode c.cmp ⟨ran, 0, elm⟩ (t.memset ran elm) = some (t', some ⟨ran, 0, elm⟩) ∧
      Balanced t' ∧ t'.inorder = (t.memset ran elm).inorder
  | .nil, _, _, _, h => by cases h
  | .node l n r, hb, hs, hn, h => by
    obtain ⟨hbl, hbr⟩ := hb.children
    obtain ⟨hl, hr, -⟩ := nodup_node hn
    simp only [inorder] at hs
    rcases linked_cases hn h with ⟨rfl, rfl⟩ | ⟨hne, h, hnot⟩ | ⟨hne, h, hnot⟩
    · -- the node itself, cleared: the comparator says 0
      refine ⟨.node .nil ⟨n.ran, 0, n.elm⟩ .nil, ?_, .fresh _ rfl, ?_⟩
      · simp [memset, insertNode]
      · simp [memset]
    · have hlt : c.cmp elm n.elm < 0 := hs.lt_mid _ h
      obtain ⟨l', he, hbl', hil⟩ := insertNode_linked hbl hs.left hl h
      obtain ⟨t', ht, hbt, -, hit⟩ := balanceNode_ok n hbl' hbr
      rw [memset, if_neg hne, memset_of_not_mem elm hnot]
      refine ⟨t', ?_, hbt, ?_⟩
      · simp [insertNode, Int.ne_of_lt hlt, hlt, he, ht]
      · rw [hit, hil, inorder]
    · have hgt : 0 < c.cmp elm n.elm := (c.swap _ _).1 (hs.mid_lt _ h)
      obtain ⟨r', he, hbr', hir⟩ := insertNode_linked hbr hs.right hr h
      obtain ⟨t', ht, hbt, -, hit⟩ := balanceNode_ok n hbl hbr'
      rw [memset, if_neg hne, memset_of_not_mem elm hnot]
      refine ⟨t', ?_, hbt, ?_⟩
      · simp [insertNode, Int.ne_of_gt hgt, Int.not_lt.2 (Int.le_of_lt hgt), he, ht]
      · rw [hit, hir, inorder]

/-- The call on the tree: the element is given back, and the cleared tree is left in order. -/
theorem insert_linked {t : Tree ν α} (hb : Balanced t) (hs : Sorted c t.inorder) (hn : t.rans.Nodup)
    (h : (ran, elm) ∈ t.inorder) : ∃ t', insert c.cmp elm ran t = some (t', some elm) ∧ Balanced t' ∧
      t'.inorder = (t.memset ran elm).inorder := by
  obtain ⟨t', he, hb', hi⟩ := insertNode_linked hb hs hn h
  exact ⟨t', by simp [insert, he], hb', hi⟩

end Call

/-! ## Runs -/

section Runs

/-- Stored-balanced, in strictly increasing order, and every node linked once. -/
structure Formed (c : Comparator α) (t : Tree ν α) : Prop where
  balanced : Balanced t
  sorted : Sorted c t.inorder
  nodup : t.rans.Nodup

variable {c : Comparator α}

theorem init_formed : Formed c (init : Tree ν α) := ⟨.nil, .nil, .nil⟩

variable [DecidableEq ν]

/-- Every call with an embedded node returns and keeps the tree formed, also when the node is linked. -/
theorem step_formed {t : Tree ν α} (op : Op ν α) (ht : Formed c t) (hok : EmbeddedOk t op) :
    ∃ t' o, (machine c).step t op = some (t', o) ∧ Formed c t' := by
  obtain ⟨hb, hs, hn⟩ := ht
  cases op with
  | insert elm ran =>
    by_cases hran : ran ∈ t.rans
    · obtain ⟨t', he, hb', hi⟩ := insert_linked hb hs hn (hok hran)
      have hsub := (memset_inorder hn (hok hran)).1
      rw [← hi] at hsub
      exact ⟨t', some elm, he, hb', hs.sublist hsub, hn.sublist (hsub.map Prod.fst)⟩
    · obtain ⟨t', he, hb', hi⟩ := insert_ok hb hs elm hran
      refine ⟨t', _, he, hb', by rw [hi]; exact hs.insert (ran, elm), ?_⟩
      have hparts := Sorted.nodup_rans (hs.remove elm) (parts_subset elm) hn
      rw [rans, hi, List.map_append, List.map_cons, List.nodup_middle, List.nodup_cons, ← List.map_append]
      refine ⟨fun hmem => ?_, hparts⟩
      obtain ⟨x, hx, rfl⟩ := List.mem_map.1 hmem
      exact hran (mem_rans (parts_subset elm hx))
  | removeElm elm =>
    obtain ⟨t', he, hb', hi⟩ := step_removeElm hb hs elm
    refine ⟨t', none, he, hb', by rw [hi]; exact hs.remove elm, ?_⟩
    rw [rans, hi]
    exact Sorted.nodup_rans (hs.remove elm) (parts_subset elm) hn
  | find elm => exact ⟨t, _, rfl, hb, hs, hn⟩

/-- Every run with embedded nodes returns and leaves a formed tree. -/
theorem run_formed (ops : List (Op ν α)) (h : (machine c).Each EmbeddedOk init ops) :
    ∃ t os, (machine c).run init ops = some (t, os) ∧ Formed c t :=
  Machine.run_hist (I := fun t _ => Formed c t) (fun _ _ op ht hok => step_formed op ht hok) ops init [] init_formed h

/-- Inserting an element again gives it back, and keeps the set of elements exactly when its node has no children. -/
theorem Formed.reinsert {t : Tree ν α} (ht : Formed c t) {elm : α} {ran : ν} (h : (ran, elm) ∈ t.inorder) :
    (∃ t', insert c.cmp elm ran t = some (t', some elm) ∧ ∀ x, x ∈ t'.elms ↔ x ∈ t.elms) ↔ Childless ran t := by
  obtain ⟨t', he, -, hi⟩ := insert_linked ht.balanced ht.sorted ht.nodup h
  obtain ⟨hsub, hiff⟩ := memset_inorder ht.nodup h
  rw [← hiff, ← hi]
  constructor
  · rintro ⟨t'', he', hx⟩
    obtain ⟨rfl, -⟩ : t' = t'' ∧ True := by simpa [he] using he'
    exact ht.sorted.eq_of_elms (hi ▸ hsub) hx
  · intro e
    exact ⟨t', he, fun x => by rw [elms, elms, e]⟩

/-- **Inserting an element again**: after every run of calls with embedded nodes, `RD_AVL_INSERT` of an element that is
in the tree gives the element back and leaves the set of elements unchanged if and only if the element's node has no
children in the tree. -/
theorem reinsert_iff (c : Comparator α) (ops : List (Op ν α)) (h : (machine c).Each EmbeddedOk init ops) :
    ∃ t os, (machine c).run init ops = some (t, os) ∧ ∀ elm ran, (ran, elm) ∈ t.inorder →
      ((∃ t', insert c.cmp elm ran t = some (t', some elm) ∧ ∀ x, x ∈ t'.elms ↔ x ∈ t.elms) ↔ Childless ran t) := by
  obtain ⟨t, os, hr, ht⟩ := run_formed ops h
  exact ⟨t, os, hr, fun elm ran hmem => ht.reinsert hmem⟩

end Runs

/-- Two elements, the second one, a leaf, inserted twice. -/
def leafTwice : List (Op Nat Int) := [.insert 2 0, .insert 1 1, .insert 1 1]

theorem reinsert_iff_leaf :
    (machine intComparator).Each EmbeddedOk init leafTwice ∧
    ∃ t os, (machine intComparator).run init leafTwice = some (t, os) ∧ ∀ elm ran, (ran, elm) ∈ t.inorder →
      ((∃ t', insert intComparator.cmp elm ran t = some (t', some elm) ∧ ∀ x, x ∈ t'.elms ↔ x ∈ t.elms) ↔
        Childless ran t) :=
  ⟨by decide, reinsert_iff intComparator leafTwice (by decide)⟩

/-- After inserting 2 and 1 the node of 2 is the root with the node of 1 below it; inserting 2 again loses 1. -/
theorem reinsert_loses_child :
    (machine intComparator).Each EmbeddedOk (init : Tree Nat Int) [.insert 2 0, .insert 1 1] ∧
    ∃ t t', (machine intComparator).run (init : Tree Nat Int) [.insert 2 0, .insert 1 1] = some (t, [none, none]) ∧
      ((0, 2) : Nat × Int) ∈ t.inorder ∧ insert intComparator.cmp 2 0 t = some (t', some 2) ∧
      ¬ ∀ x, x ∈ t'.elms ↔ x ∈ t.elms := by
  refine ⟨by decide, .node (.node .nil ⟨1, 0, 1⟩ .nil) ⟨0, 1, 2⟩ .nil, .node .nil ⟨0, 0, 2⟩ .nil, by decide,
    ?_, by decide, fun h => ?_⟩
  · simp [inorder]
  · have h1 := (h 1).2
    simp [elms, inorder] at h1

end Librd.Avl
