import Librd.Avl.Balance
import Mathlib.Data.List.Pairwise

/-!
# The operations and the order of the nodes

What each operation does to the in-order sequence of a stored-balanced tree whose elements are strictly increasing: it
splits at the given element into the part below it, the equivalent entry if there is one (`stored`) and the part above
it, and the operations keep or replace the middle (`insertNode_ok`, `removeElm0_ok`, `findNode_ok`). They return, follow
no NULL pointer, and leave a stored-balanced tree.
-/

namespace Librd.Avl

open Librd.Avl.Tree

/-! ## Comparators -/

/-- An `rd_avl_cmp_t` whose sign is a total preorder. -/
structure Comparator (α : Type) where
  cmp : α → α → Int
  swap : ∀ a b, cmp a b < 0 ↔ 0 < cmp b a
  trans : ∀ a b c, cmp a b ≤ 0 → cmp b c ≤ 0 → cmp a c ≤ 0

variable {ν α : Type} (c : Comparator α)

namespace Comparator

@[simp] theorem self (a : α) : c.cmp a a = 0 := by
  have := c.swap a a
  omega

theorem zero_comm {a b : α} : c.cmp a b = 0 ↔ c.cmp b a = 0 := by
  have h1 := c.swap a b
  have h2 := c.swap b a
  omega

theorem lt_of_lt_of_le {a b d : α} (h1 : c.cmp a b < 0) (h2 : c.cmp b d ≤ 0) : c.cmp a d < 0 := by
  have h3 := c.swap a d
  have h4 := c.swap d a
  have h5 := c.trans b d a h2
  have h6 := c.swap a b
  omega

theorem lt_of_le_of_lt {a b d : α} (h1 : c.cmp a b ≤ 0) (h2 : c.cmp b d < 0) : c.cmp a d < 0 := by
  have h3 := c.swap a d
  have h4 := c.swap d a
  have h5 := c.trans d a b
  have h6 := c.swap b d
  omega

end Comparator

/-! ## Strictly increasing sequences -/

/-- Strictly increasing in-order sequences. -/
def Sorted (L : List (ν × α)) : Prop := L.Pairwise fun x y => c.cmp x.2 y.2 < 0

/-- The entries below `e`. -/
def below (e : α) (L : List (ν × α)) : List (ν × α) := L.filter fun x => c.cmp x.2 e < 0

/-- The entries above `e`. -/
def above (e : α) (L : List (ν × α)) : List (ν × α) := L.filter fun x => c.cmp e x.2 < 0

/-- The entry equivalent to `e`. -/
def stored (e : α) (L : List (ν × α)) : Option (ν × α) := L.find? fun x => c.cmp e x.2 = 0

variable {c}

@[simp] theorem below_append (e : α) (xs ys : List (ν × α)) : below c e (xs ++ ys) = below c e xs ++ below c e ys :=
  List.filter_append ..

@[simp] theorem above_append (e : α) (xs ys : List (ν × α)) : above c e (xs ++ ys) = above c e xs ++ above c e ys :=
  List.filter_append ..

@[simp] theorem stored_append (e : α) (xs ys : List (ν × α)) :
    stored c e (xs ++ ys) = (stored c e xs).or (stored c e ys) := List.find?_append

/-- A part that is above `e`. -/
theorem parts_above {L : List (ν × α)} {e : α} (h : ∀ y ∈ L, c.cmp e y.2 < 0) :
    below c e L = [] ∧ above c e L = L ∧ stored c e L = none := by
  refine ⟨List.filter_eq_nil_iff.2 fun y hy => ?_, List.filter_eq_self.2 fun y hy => ?_,
    List.find?_eq_none.2 fun y hy => ?_⟩
  · have h1 := h y hy
    have h2 := c.swap y.2 e
    simp only [decide_eq_true_eq]
    omega
  · simpa using h y hy
  · have h1 := h y hy
    simp only [decide_eq_true_eq]
    omega

/-- A part that is below `e`. -/
theorem parts_below {L : List (ν × α)} {e : α} (h : ∀ y ∈ L, c.cmp y.2 e < 0) :
    below c e L = L ∧ above c e L = [] ∧ stored c e L = none := by
  have h' : ∀ y ∈ L, 0 < c.cmp e y.2 := fun y hy => (c.swap _ _).1 (h y hy)
  refine ⟨List.filter_eq_self.2 fun y hy => ?_, List.filter_eq_nil_iff.2 fun y hy => ?_,
    List.find?_eq_none.2 fun y hy => ?_⟩
  · simpa using h y hy
  · have h1 := h' y hy
    simp only [decide_eq_true_eq]
    omega
  · have h1 := h' y hy
    simp only [decide_eq_true_eq]
    omega

section Split

variable {xs ys : List (ν × α)} {p : ν × α} {e : α} (hs : Sorted c (xs ++ p :: ys))
include hs

theorem Sorted.left : Sorted c xs := (List.pairwise_append.1 hs).1

theorem Sorted.right : Sorted c ys := (List.pairwise_cons.1 (List.pairwise_append.1 hs).2.1).2

theorem Sorted.lt_mid : ∀ x ∈ xs, c.cmp x.2 p.2 < 0 := fun x hx =>
  (List.pairwise_append.1 hs).2.2 x hx p List.mem_cons_self

theorem Sorted.mid_lt : ∀ y ∈ ys, c.cmp p.2 y.2 < 0 := (List.pairwise_cons.1 (List.pairwise_append.1 hs).2.1).1

/-- The middle entry is above `e`. -/
theorem Sorted.split_lt (hp : c.cmp e p.2 < 0) :
    below c e (xs ++ p :: ys) = below c e xs ∧ above c e (xs ++ p :: ys) = above c e xs ++ p :: ys ∧
      stored c e (xs ++ p :: ys) = stored c e xs := by
  obtain ⟨h1, h2, h3⟩ := parts_above (c := c) (L := p :: ys) (e := e) (fun y hy => by
    rcases List.mem_cons.1 hy with rfl | hy
    · exact hp
    · exact c.lt_of_lt_of_le hp (Int.le_of_lt (hs.mid_lt y hy)))
  simp [h1, h2, h3]

/-- The middle entry is below `e`. -/
theorem Sorted.split_gt (hp : 0 < c.cmp e p.2) :
    below c e (xs ++ p :: ys) = xs ++ p :: below c e ys ∧ above c e (xs ++ p :: ys) = above c e ys ∧
      stored c e (xs ++ p :: ys) = stored c e ys := by
  have hp' : c.cmp p.2 e < 0 := (c.swap _ _).2 hp
  obtain ⟨h1, h2, h3⟩ := parts_below (c := c) (L := xs ++ [p]) (e := e) (fun y hy => by
    rcases List.mem_append.1 hy with hy | hy
    · exact c.lt_of_lt_of_le (hs.lt_mid y hy) (Int.le_of_lt hp')
    · rw [List.mem_singleton.1 hy]; exact hp')
  rw [show xs ++ p :: ys = (xs ++ [p]) ++ ys by simp, below_append, above_append, stored_append, h1, h2, h3]
  simp

/-- The middle entry is equivalent to `e`. -/
theorem Sorted.split_eq (hp : c.cmp e p.2 = 0) :
    below c e (xs ++ p :: ys) = xs ∧ above c e (xs ++ p :: ys) = ys ∧ stored c e (xs ++ p :: ys) = some p := by
  obtain ⟨h1, h2, h3⟩ := parts_below (c := c) (L := xs) (e := e)
    (fun x hx => c.lt_of_lt_of_le (hs.lt_mid x hx) (Int.le_of_eq (c.zero_comm.1 hp)))
  obtain ⟨h4, h5, h6⟩ := parts_above (c := c) (L := ys) (e := e)
    (fun y hy => c.lt_of_le_of_lt (Int.le_of_eq hp) (hs.mid_lt y hy))
  have h7 : below c e (p :: ys) = below c e ys := by simp [below, c.zero_comm.1 hp]
  have h8 : above c e (p :: ys) = above c e ys := by simp [above, hp]
  have h9 : stored c e (p :: ys) = some p := by simp [stored, hp]
  simp [h1, h2, h3, h4, h5, h7, h8, h9]

end Split

/-- The two parts with or without a new middle are strictly increasing again. -/
theorem Sorted.insert {L : List (ν × α)} (hs : Sorted c L) (x : ν × α) :
    Sorted c (below c x.2 L ++ x :: above c x.2 L) := by
  refine List.pairwise_append.2 ⟨hs.filter _, List.pairwise_cons.2 ⟨?_, hs.filter _⟩, ?_⟩
  · intro y hy
    simpa using (List.mem_filter.1 hy).2
  · intro y hy z hz
    have h1 : c.cmp y.2 x.2 < 0 := by simpa using (List.mem_filter.1 hy).2
    rcases List.mem_cons.1 hz with rfl | hz
    · exact h1
    · have h2 : c.cmp x.2 z.2 < 0 := by simpa using (List.mem_filter.1 hz).2
      exact c.lt_of_lt_of_le h1 (Int.le_of_lt h2)

theorem Sorted.remove {L : List (ν × α)} (hs : Sorted c L) (e : α) : Sorted c (below c e L ++ above c e L) := by
  refine List.pairwise_append.2 ⟨hs.filter _, hs.filter _, ?_⟩
  intro y hy z hz
  have h1 : c.cmp y.2 e < 0 := by simpa using (List.mem_filter.1 hy).2
  have h2 : c.cmp e z.2 < 0 := by simpa using (List.mem_filter.1 hz).2
  exact c.lt_of_lt_of_le h1 (Int.le_of_lt h2)

/-! ## The operations -/

/-- **`rd_avl_insert_node`** puts the new node between the two parts and gives back the entry it replaces. -/
theorem insertNode_ok (ran : Node ν α) (hran : ran.height = 0) :
    ∀ {t : Tree ν α}, Balanced t → Sorted c t.inorder → ∃ t' ex, insertNode c.cmp ran t = some (t', ex) ∧ Balanced t' ∧
      t'.inorder = below c ran.elm t.inorder ++ (ran.ran, ran.elm) :: above c ran.elm t.inorder ∧
      ex.map (fun n => (n.ran, n.elm)) = stored c ran.elm t.inorder := by
  intro t
  induction t with
  | nil =>
    intro _ _
    exact ⟨_, none, rfl, .fresh ran hran, rfl, rfl⟩
  | node l p r ihl ihr =>
    intro hb hs
    obtain ⟨hl, hr⟩ := hb.children
    simp only [insertNode]
    simp only [inorder] at hs ⊢
    split
    · rename_i h0
      obtain ⟨h1, h2, h3⟩ := hs.split_eq (p := (p.ran, p.elm)) h0
      refine ⟨_, _, rfl, ?_, by simp [inorder, h1, h2], by simp [h3]⟩
      cases hb with
      | fresh _ h => exact .fresh _ h
      | node hl hr h h' h'' => exact .node hl hr h h' h''
    · rename_i h0
      split
      · rename_i hlt
        obtain ⟨h1, h2, h3⟩ := hs.split_lt (p := (p.ran, p.elm)) hlt
        obtain ⟨l', ex, he, hbl, hil, hex⟩ := ihl hl hs.left
        obtain ⟨t', ht, hbt, -, hit⟩ := balanceNode_ok p hbl hr
        exact ⟨t', ex, by simp [he, ht], hbt, by simp [hit, hil, h1, h2], by rw [hex, h3]⟩
      · rename_i hge
        obtain ⟨h1, h2, h3⟩ := hs.split_gt (p := (p.ran, p.elm)) (e := ran.elm) (by simp only; omega)
        obtain ⟨r', ex, he, hbr, hir, hex⟩ := ihr hr hs.right
        obtain ⟨t', ht, hbt, -, hit⟩ := balanceNode_ok p hl hbr
        exact ⟨t', ex, by simp [he, ht], hbt, by simp [hit, hir, h1, h2], by rw [hex, h3]⟩

/-- **`rd_avl_move`** appends. -/
theorem move_ok {src dst : Tree ν α} (hsrc : Balanced src) (hb : Balanced dst) :
    ∃ t, move src .right dst = some t ∧ Balanced t ∧ t.inorder = dst.inorder ++ src.inorder := by
  induction dst with
  | nil => exact ⟨src, rfl, hsrc, rfl⟩
  | node l n r _ ih =>
    obtain ⟨hl, hr⟩ := hb.children
    obtain ⟨r', he, hbr, hir⟩ := ih hr
    obtain ⟨t, ht, hbt, -, hit⟩ := balanceNode_ok n hl hbr
    exact ⟨t, by simp [move, he, ht], hbt, by simp [hit, hir, inorder]⟩

/-- **Any two heights**: over two stored-balanced subtrees the recursion of `rd_avl_balance_node` and `rd_avl_rotate`
ends with one result for all fuels from some on, and `rd_avl_move` appends one subtree to the other. -/
theorem balance_any {l r : Tree ν α} (n : Node ν α) (hl : Balanced l) (hr : Balanced r) :
    (∃ t, (∃ f₀, ∀ f ≥ f₀, balance f (node l n r) = some t) ∧ balanceNode (node l n r) = some t ∧
      Rebalanced l n r t) ∧
    ∃ t, move r .right l = some t ∧ Balanced t ∧ t.inorder = l.inorder ++ r.inorder := by
  obtain ⟨t, ht, hok⟩ := balanceNode_ok n hl hr
  have hfuel : ∀ f ≥ balanceFuel (node l n r), balance f (node l n r) = some t := fun f hf => balance_mono_le ht hf
  exact ⟨⟨t, ⟨_, hfuel⟩, ht, hok⟩, move_ok hr hl⟩

/-- A right subtree three higher than the left one, where the first double rotation is undone. -/
theorem balance_any_three :
    let l : Tree Nat Int := .nil
    let a : Tree Nat Int := .node .nil ⟨1, 2, 20⟩ (.node .nil ⟨2, 1, 30⟩ .nil)
    let r : Tree Nat Int := .node a ⟨3, 3, 40⟩ (.node .nil ⟨4, 1, 50⟩ .nil)
    (∃ t, (∃ f₀, ∀ f ≥ f₀, balance f (node l ⟨0, 0, 10⟩ r) = some t) ∧ balanceNode (node l ⟨0, 0, 10⟩ r) = some t ∧
      Rebalanced l ⟨0, 0, 10⟩ r t) ∧
    ∃ t, move r .right l = some t ∧ Balanced t ∧ t.inorder = l.inorder ++ r.inorder := by
  intro l a r
  have leaf : ∀ n : Node Nat Int, n.height = 1 → Balanced (.node .nil n .nil) := fun n h =>
    .node .nil .nil h (by decide) (by decide)
  have hr : Balanced r := .node (.node .nil (leaf _ rfl) rfl (by decide) (by decide)) (leaf _ rfl) rfl (by decide)
    (by decide)
  exact balance_any ⟨0, 0, 10⟩ .nil hr

/-- **`rd_avl_remove_elm0`** leaves the two parts. -/
theorem removeElm0_ok {e : α} {t : Tree ν α} (hb : Balanced t) (hs : Sorted c t.inorder) :
    ∃ t', removeElm0 c.cmp e t = some t' ∧ Balanced t' ∧ t'.inorder = below c e t.inorder ++ above c e t.inorder := by
  induction t with
  | nil => exact ⟨.nil, rfl, .nil, rfl⟩
  | node l p r ihl ihr =>
    obtain ⟨hl, hr⟩ := hb.children
    simp only [removeElm0]
    simp only [inorder] at hs ⊢
    split
    · rename_i h0
      obtain ⟨h1, h2, -⟩ := hs.split_eq (p := (p.ran, p.elm)) h0
      obtain ⟨t, ht, hbt, hit⟩ := move_ok hr hl
      exact ⟨t, ht, hbt, by rw [hit, h1, h2]⟩
    · rename_i h0
      split
      · rename_i hlt
        obtain ⟨h1, h2, -⟩ := hs.split_lt (p := (p.ran, p.elm)) hlt
        obtain ⟨l', he, hbl, hil⟩ := ihl hl hs.left
        obtain ⟨t', ht, hbt, -, hit⟩ := balanceNode_ok p hbl hr
        exact ⟨t', by simp [he, ht], hbt, by simp [hit, hil, h1, h2]⟩
      · rename_i hge
        obtain ⟨h1, h2, -⟩ := hs.split_gt (p := (p.ran, p.elm)) (e := e) (by simp only; omega)
        obtain ⟨r', he, hbr, hir⟩ := ihr hr hs.right
        obtain ⟨t', ht, hbt, -, hit⟩ := balanceNode_ok p hl hbr
        exact ⟨t', by simp [he, ht], hbt, by simp [hit, hir, h1, h2]⟩

/-- **`rd_avl_find_node`** gives the equivalent entry. -/
theorem findNode_ok {e : α} {t : Tree ν α} (hs : Sorted c t.inorder) :
    (findNode c.cmp e t).map (fun n => (n.ran, n.elm)) = stored c e t.inorder := by
  induction t with
  | nil => rfl
  | node l p r ihl ihr =>
    simp only [findNode]
    simp only [inorder] at hs ⊢
    split
    · rename_i h0
      rw [(hs.split_eq (p := (p.ran, p.elm)) h0).2.2]; rfl
    · rename_i h0
      split
      · rename_i hlt
        rw [(hs.split_lt (p := (p.ran, p.elm)) hlt).2.2, ihl hs.left]
      · rename_i hge
        rw [(hs.split_gt (p := (p.ran, p.elm)) (e := e) (by simp only; omega)).2.2, ihr hs.right]

end Librd.Avl
