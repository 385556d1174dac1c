import Librd.Avl.Trees

/-!
# Several trees in one memory

An application has any number of trees, and elements with nodes for them, all in one memory (`Store`). It inserts nodes,
removes and looks up elements, and in between it writes, allocates and frees the nodes that are in no tree.

What it may count on is said without trees: the entries that it inserted, and what it wrote itself into the nodes that
it has not given to a tree since (`App`, `spec`). If it gives `rd_avl_insert` only nodes that it allocated and that are
in no tree, and leaves the nodes that are in a tree alone, then no call follows a NULL pointer or reads a node that was
freed, the calls return what the entries say, and the nodes that are in no tree stay as they were written
(`forest_run`).
-/

namespace Librd.Avl.Forest

open Librd.Avl.Tree

variable {ι ν α : Type}

/-! ## The memory -/

/-- The nodes, and `ravl_root` of each tree. -/
structure Store (ι ν α : Type) where
  cells : Cells ν α
  root : ι → Option ν

/-- What an application does: it writes to a node of its own (allocates it, or frees it), or calls a function of
`rdavl.h` for a tree. -/
inductive Op (ι ν α : Type)
  | write (ran : ν) (cell : Option (Cell ν α))
  | init (ravl : ι)
  | insert (ravl : ι) (elm : α) (ran : ν)
  | removeElm (ravl : ι) (elm : α)
  | find (ravl : ι) (elm : α)
  | elmSet (ran : ν) (elm : α)

variable [DecidableEq ι] [DecidableEq ν]

/-- The calls on the memory; every tree has a comparator of its own. -/
def Store.step (cmp : ι → α → α → Int) (s : Store ι ν α) : Op ι ν α → Option (Store ι ν α × Option α)
  | .write ran cell => some ({ s with cells := Function.update s.cells ran cell }, none)
  | .init ravl => some ({ s with root := Function.update s.root ravl none }, none)
  | .insert ravl elm ran => (Memory.insert (cmp ravl) elm ran s.cells (s.root ravl)).map fun (cells, root, old) =>
    (⟨cells, Function.update s.root ravl root⟩, old)
  | .removeElm ravl elm => (Memory.removeElm (cmp ravl) elm s.cells (s.root ravl)).map fun (cells, root) =>
    (⟨cells, Function.update s.root ravl root⟩, none)
  | .find ravl elm => (Memory.find (cmp ravl) elm s.cells (s.root ravl)).map fun found => (s, found)
  | .elmSet ran elm => (Memory.elmSet s.cells ran elm).map fun cells => ({ s with cells := cells }, none)

/-! ## What the application knows -/

/-- A node is free, or the application wrote it itself, or it gave it to a tree after that. -/
inductive Slot (ν α : Type)
  | free
  | own (cell : Cell ν α)
  | lent

/-- An element in a tree, with its node. -/
structure Entry (ι ν α : Type) where
  ravl : ι
  ran : ν
  elm : α

/-- The nodes, and the entries of all trees. -/
structure App (ι ν α : Type) where
  slot : ν → Slot ν α
  entries : List (Entry ι ν α)

/-- The nodes that are in trees. -/
def App.rans (a : App ι ν α) : List ν := a.entries.map Entry.ran

variable (c : ι → Comparator α)

/-- The entry is the one of the tree `ravl` for `elm`. -/
def Entry.Same (ravl : ι) (elm : α) (e : Entry ι ν α) : Prop := e.ravl = ravl ∧ (c ravl).cmp elm e.elm = 0

instance (ravl : ι) (elm : α) (e : Entry ι ν α) : Decidable (e.Same c ravl elm) :=
  inferInstanceAs (Decidable (_ ∧ _))

/-- What a call is to do to the entries, and what it returns. -/
def spec (a : App ι ν α) : Op ι ν α → App ι ν α × Option α
  | .write ran none => ({ a with slot := Function.update a.slot ran .free }, none)
  | .write ran (some cell) => ({ a with slot := Function.update a.slot ran (.own cell) }, none)
  | .init ravl => ({ a with entries := a.entries.filter fun e => e.ravl ≠ ravl }, none)
  | .insert ravl elm ran =>
    (⟨Function.update a.slot ran .lent, ⟨ravl, ran, elm⟩ :: a.entries.filter fun e => ¬ e.Same c ravl elm⟩,
      (a.entries.find? fun e => e.Same c ravl elm).map Entry.elm)
  | .removeElm ravl elm => ({ a with entries := a.entries.filter fun e => ¬ e.Same c ravl elm }, none)
  | .find ravl elm => (a, (a.entries.find? fun e => e.Same c ravl elm).map Entry.elm)
  | .elmSet ran elm =>
      ({ a with entries := a.entries.map fun e => if e.ran = ran then { e with elm := elm } else e }, none)

/-- The node is not free. -/
def Slot.live : Slot ν α → Bool
  | .free => false
  | .own _ | .lent => true

/-- The application writes to no node that is in a tree, and inserts nodes that it allocated and that are in no tree. It
sets another element only for a node that is in a tree, and one that compares equal. -/
def Op.Ok (a : App ι ν α) : Op ι ν α → Prop
  | .write ran _ => ran ∉ a.rans
  | .insert _ _ ran => ran ∉ a.rans ∧ (a.slot ran).live
  | .elmSet ran elm => ∃ e ∈ a.entries, e.ran = ran ∧ (c e.ravl).cmp elm e.elm = 0
  | .init _ | .removeElm .. | .find .. => True

instance (a : App ι ν α) : ∀ op : Op ι ν α, Decidable (op.Ok c a)
  | .write ran _ => inferInstanceAs (Decidable (ran ∉ a.rans))
  | .insert _ _ ran => inferInstanceAs (Decidable (ran ∉ a.rans ∧ (a.slot ran).live))
  | .elmSet ran elm => inferInstanceAs (Decidable (∃ e ∈ a.entries, e.ran = ran ∧ (c e.ravl).cmp elm e.elm = 0))
  | .init _ | .removeElm .. | .find .. => .isTrue trivial

/-- The memory as a machine. -/
def store : Machine (Store ι ν α) (Op ι ν α) (Option α) where
  Ok _ _ := True
  step s op := s.step (fun ravl => (c ravl).cmp) op

/-- The entries as a machine. -/
def app : Machine (App ι ν α) (Op ι ν α) (Option α) where
  Ok a op := op.Ok c a
  step a op := some (spec c a op)

instance (a : App ι ν α) (op : Op ι ν α) : Decidable ((app c).Ok a op) := inferInstanceAs (Decidable (op.Ok c a))

/-! ## The trees in memory -/

/-- The slot says what is in memory. -/
def Slot.Fits : Slot ν α → Option (Cell ν α) → Prop
  | .free, p => p = none
  | .own cell, p => p = some cell
  | .lent, p => p.isSome

omit [DecidableEq ι] [DecidableEq ν] in
theorem Slot.Fits.isSome {sl : Slot ν α} {p : Option (Cell ν α)} (h : sl.Fits p) (hlive : sl.live) : p.isSome := by
  cases sl with
  | free => cases hlive
  | own cell => rw [show p = some cell from h, Option.isSome_some]
  | lent => exact h

/-- The entries of one tree. -/
def inTree (es : List (Entry ι ν α)) (ravl : ι) : List (ν × α) :=
  (es.filter fun e => e.ravl = ravl).map fun e => (e.ran, e.elm)

/-- The memory has a tree for each `ravl`, with its entries, and every node is in one tree at most. -/
structure Holds (trees : ι → Tree ν α) (s : Store ι ν α) (a : App ι ν α) : Prop where
  root : ∀ ravl, s.root ravl = (trees ravl).ptr
  inMem : ∀ ravl, InMem s.cells (trees ravl)
  balanced : ∀ ravl, Balanced (trees ravl)
  sorted : ∀ ravl, Sorted (c ravl) (trees ravl).inorder
  entries : ∀ ravl, (inTree a.entries ravl).Perm (trees ravl).inorder
  nodup : a.rans.Nodup
  slots : ∀ ran, (a.slot ran).Fits (s.cells ran)
  lent : ∀ ran ∈ a.rans, a.slot ran = .lent

section Entries

variable {c} {es : List (Entry ι ν α)} {ravl ravl' : ι} {elm : α}

omit [DecidableEq ν] in
theorem mem_inTree {x : ν × α} : x ∈ inTree es ravl ↔ ∃ e ∈ es, e.ravl = ravl ∧ (e.ran, e.elm) = x := by
  simp [inTree, and_assoc]

omit [DecidableEq ν] in
theorem inTree_cons_same {e : Entry ι ν α} (h : e.ravl = ravl) :
    inTree (e :: es) ravl = (e.ran, e.elm) :: inTree es ravl := by
  simp [inTree, h]

omit [DecidableEq ν] in
theorem inTree_cons_other {e : Entry ι ν α} (h : e.ravl ≠ ravl) : inTree (e :: es) ravl = inTree es ravl := by
  simp [inTree, h]

omit [DecidableEq ν] in
/-- Entries of other trees are left. -/
theorem inTree_filter_other (h : ravl' ≠ ravl) :
    inTree (es.filter fun e => ¬ e.Same c ravl elm) ravl' = inTree es ravl' := by
  rw [inTree, inTree, List.filter_filter]
  congr 1
  apply List.filter_congr
  rintro e -
  by_cases he : e.ravl = ravl'
  · simp [Entry.Same, he, h]
  · simp [he]

omit [DecidableEq ν] in
/-- Of the tree itself the entry for the element goes. -/
theorem inTree_filter_same : inTree (es.filter fun e => ¬ e.Same c ravl elm) ravl =
    (inTree es ravl).filter fun x => (c ravl).cmp elm x.2 ≠ 0 := by
  rw [inTree, inTree, List.filter_map, List.filter_filter, List.filter_filter]
  congr 1
  apply List.filter_congr
  rintro e -
  by_cases he : e.ravl = ravl <;> simp [Entry.Same, he]

/-- An element is set. -/
theorem inTree_setElm {ran : ν} : inTree (es.map fun e => if e.ran = ran then { e with elm := elm } else e) ravl =
    (inTree es ravl).map fun x => if x.1 = ran then (x.1, elm) else x := by
  have hravl : ∀ e : Entry ι ν α, (if e.ran = ran then { e with elm := elm } else e).ravl = e.ravl := by
    intro e
    split <;> rfl
  rw [inTree, inTree, List.filter_map, List.map_map, List.map_map]
  simp only [Function.comp_def, hravl]
  apply List.map_congr_left
  intro e _
  split <;> rfl

end Entries

omit [DecidableEq ι] [DecidableEq ν] in
/-- The two parts are what is not equivalent. -/
theorem parts_perm (c : Comparator α) (e : α) (L : List (ν × α)) :
    (below c e L ++ above c e L).Perm (L.filter fun x => c.cmp e x.2 ≠ 0) := by
  induction L with
  | nil => exact .nil
  | cons x L ih =>
    have hswap := c.swap x.2 e
    simp only [below, above] at ih ⊢
    rcases Int.lt_trichotomy (c.cmp e x.2) 0 with hlt | h0 | hgt
    · have h1 : ¬ c.cmp x.2 e < 0 := by omega
      have h2 : c.cmp e x.2 ≠ 0 := by omega
      simp only [List.filter_cons, h1, hlt, h2, decide_true, decide_false, ne_eq, not_false_eq_true, if_true]
      exact List.perm_middle.trans (ih.cons x)
    · have h1 : ¬ c.cmp x.2 e < 0 := by omega
      simpa [List.filter_cons, h0, h1] using ih
    · have h1 : c.cmp x.2 e < 0 := by omega
      have h2 : ¬ c.cmp e x.2 < 0 := by omega
      have h3 : c.cmp e x.2 ≠ 0 := by omega
      simp only [List.filter_cons, h1, h2, h3, decide_true, decide_false, ne_eq, not_false_eq_true, if_true,
        List.cons_append]
      exact ih.cons x

namespace Holds

variable {c} {trees : ι → Tree ν α} {s : Store ι ν α} {a : App ι ν α} (h : Holds c trees s a)
include h

omit [DecidableEq ν] in
theorem mem_rans {ravl : ι} {ran : ν} : ran ∈ (trees ravl).rans ↔ ∃ e ∈ a.entries, e.ravl = ravl ∧ e.ran = ran := by
  rw [rans, ← ((h.entries ravl).map Prod.fst).mem_iff, List.mem_map]
  constructor
  · rintro ⟨x, hx, rfl⟩
    obtain ⟨e, he, hravl, rfl⟩ := mem_inTree.1 hx
    exact ⟨e, he, hravl, rfl⟩
  · rintro ⟨e, he, hravl, rfl⟩
    exact ⟨_, mem_inTree.2 ⟨e, he, hravl, rfl⟩, rfl⟩

omit [DecidableEq ν] in
theorem mem_of_tree {ravl : ι} {ran : ν} (hran : ran ∈ (trees ravl).rans) : ran ∈ a.rans := by
  obtain ⟨e, he, -, rfl⟩ := h.mem_rans.1 hran
  exact List.mem_map_of_mem he

omit [DecidableEq ν] in
/-- No node is in two trees. -/
theorem separate {ravl ravl' : ι} {ran : ν} (h1 : ran ∈ (trees ravl).rans) (h2 : ran ∈ (trees ravl').rans) :
    ravl = ravl' := by
  obtain ⟨e, he, rfl, hran⟩ := h.mem_rans.1 h1
  obtain ⟨e', he', rfl, hran'⟩ := h.mem_rans.1 h2
  rw [List.inj_on_of_nodup_map h.nodup he he' (hran.trans hran'.symm)]

omit [DecidableEq ν] in
/-- **The result of a lookup** in the tree is the one in the entries. -/
theorem stored_eq (ravl : ι) (elm : α) : (stored (c ravl) elm (trees ravl).inorder).map Prod.snd =
    (a.entries.find? fun e => e.Same c ravl elm).map Entry.elm := by
  have hmem : ∀ e ∈ a.entries, e.Same c ravl elm →
      (stored (c ravl) elm (trees ravl).inorder).map Prod.snd = some e.elm := by
    rintro e he ⟨hravl, h0⟩
    rw [stored_eq_some (h.sorted ravl)]
    refine ⟨List.mem_map.2 ⟨(e.ran, e.elm), (h.entries ravl).mem_iff.1 ?_, rfl⟩, h0⟩
    exact mem_inTree.2 ⟨e, he, hravl, rfl⟩
  cases hfind : a.entries.find? fun e => e.Same c ravl elm with
  | some e => exact hmem e (List.mem_of_find?_eq_some hfind) (by simpa using List.find?_some hfind)
  | none =>
    rw [List.find?_eq_none] at hfind
    rw [Option.map_none, Option.map_eq_none_iff, stored, List.find?_eq_none]
    intro x hx
    obtain ⟨e, he, hravl, rfl⟩ := mem_inTree.1 ((h.entries ravl).mem_iff.2 hx)
    intro h0
    exact hfind e he (decide_eq_true ⟨hravl, of_decide_eq_true h0⟩)

/-- **A call changes one tree** and the nodes that are given to it. -/
theorem update {ravl : ι} {t' : Tree ν α} {cells' : Cells ν α} {new : ν → Prop} {slot' : ν → Slot ν α}
    {es' : List (Entry ι ν α)} (hch : Changed new s.cells cells' (trees ravl) t') (hnew : ∀ ran, new ran → ran ∉ a.rans)
    (hlent : ∀ ran, new ran → slot' ran = .lent ∧ (cells' ran).isSome)
    (hslot : ∀ ran, ¬ new ran → slot' ran = a.slot ran) (hb : Balanced t') (hs : Sorted (c ravl) t'.inorder)
    (hes : (inTree es' ravl).Perm t'.inorder) (hother : ∀ ravl' ≠ ravl, inTree es' ravl' = inTree a.entries ravl')
    (hsub : ∀ e ∈ es', new e.ran ∨ e.ran ∈ a.rans) (hnodup : (es'.map Entry.ran).Nodup) :
    Holds c (Function.update trees ravl t') ⟨cells', Function.update s.root ravl t'.ptr⟩ ⟨slot', es'⟩ := by
  refine ⟨fun ravl' => ?_, fun ravl' => ?_, fun ravl' => ?_, fun ravl' => ?_, fun ravl' => ?_, hnodup,
    fun ran => ?_, fun ran hran => ?_⟩
  · by_cases he : ravl' = ravl
    · simp [he]
    · simp [he, h.root ravl']
  · by_cases he : ravl' = ravl
    · simpa [he] using hch.inMem
    · rw [Function.update_of_ne he]
      refine (h.inMem ravl').frame fun ran hran => hch.other ran (fun hn => hnew ran hn (h.mem_of_tree hran)) ?_
      exact fun hran' => he (h.separate hran hran')
  · by_cases he : ravl' = ravl
    · simpa [he] using hb
    · simpa [he] using h.balanced ravl'
  · by_cases he : ravl' = ravl
    · subst he
      simpa using hs
    · simpa [he] using h.sorted ravl'
  · by_cases he : ravl' = ravl
    · simpa [he] using hes
    · simpa [he, hother ravl' he] using h.entries ravl'
  · by_cases hn : new ran
    · simp only [hlent ran hn, Slot.Fits]
    · simp only [hslot ran hn]
      by_cases hran : ran ∈ (trees ravl).rans
      · rw [h.lent ran (h.mem_of_tree hran)]
        exact hch.alloc ran ((h.inMem ravl).isSome hran)
      · rw [hch.other ran hn hran]
        exact h.slots ran
  · obtain ⟨e, he, rfl⟩ := List.mem_map.1 hran
    by_cases hn : new e.ran
    · exact (hlent _ hn).1
    · exact (hslot _ hn).trans (h.lent _ ((hsub e he).resolve_left hn))

/-! ## The calls, one by one -/

/-- The application writes to a node that is in no tree. -/
theorem write_ok {ran : ν} (hran : ran ∉ a.rans) (p : Option (Cell ν α)) {sl : Slot ν α} (hfit : sl.Fits p) :
    Holds c trees { s with cells := Function.update s.cells ran p }
      { a with slot := Function.update a.slot ran sl } := by
  refine ⟨h.root, fun ravl => ?_, h.balanced, h.sorted, h.entries, h.nodup, fun ran' => ?_, fun ran' hran' => ?_⟩
  · exact (h.inMem ravl).frame fun ran' hran' =>
      Function.update_of_ne (by rintro rfl; exact hran (h.mem_of_tree hran')) ..
  · by_cases he : ran' = ran
    · simpa [he] using hfit
    · simpa [he] using h.slots ran'
  · exact (Function.update_of_ne (by rintro rfl; exact hran hran') ..).trans (h.lent ran' hran')

/-- **`rd_avl_init`** forgets the nodes of the tree. -/
theorem init_ok (ravl : ι) : Holds c (Function.update trees ravl .nil)
    { s with root := Function.update s.root ravl none }
    { a with entries := a.entries.filter fun e => e.ravl ≠ ravl } := by
  have hch : Changed (fun _ => False) s.cells s.cells (trees ravl) .nil :=
    .of_eq (inMem_nil _) (by simp [rans, inorder])
  have hnil : inTree (a.entries.filter fun e => e.ravl ≠ ravl) ravl = [] := by
    simp [inTree, List.filter_filter]
  refine h.update hch (fun _ => False.elim) (fun _ => False.elim) (fun _ _ => rfl) .nil .nil ?_ (fun ravl' hne => ?_)
    (fun e he => .inr (List.mem_map_of_mem (List.mem_of_mem_filter he))) (h.nodup.sublist (List.filter_sublist.map _))
  · rw [hnil]; rfl
  · rw [inTree, inTree, List.filter_filter]
    congr 1
    apply List.filter_congr
    rintro e -
    by_cases he : e.ravl = ravl'
    · simp [he, hne]
    · simp [he]

/-- **`rd_avl_insert`** adds an entry in the place of the one that compares equal. -/
theorem insert_ok {ravl : ι} {elm : α} {ran : ν} (hran : ran ∉ a.rans) (hlive : (a.slot ran).live) :
    ∃ cells' t', Memory.insert (c ravl).cmp elm ran s.cells (s.root ravl) =
        some (cells', t'.ptr, (a.entries.find? fun e => e.Same c ravl elm).map Entry.elm) ∧
      Holds c (Function.update trees ravl t') ⟨cells', Function.update s.root ravl t'.ptr⟩
        ⟨Function.update a.slot ran .lent, ⟨ravl, ran, elm⟩ :: a.entries.filter fun e => ¬ e.Same c ravl elm⟩ := by
  have hnot : ran ∉ (trees ravl).rans := fun hmem => hran (h.mem_of_tree hmem)
  have halloc := (h.slots ran).isSome hlive
  obtain ⟨t', hins, hb, hi⟩ := Avl.insert_ok (h.balanced ravl) (h.sorted ravl) elm hnot
  obtain ⟨cells', hmem, hch⟩ := Memory.insert_sim (h.balanced ravl) (h.inMem ravl) halloc hnot hins
  have hsorted : Sorted (c ravl) t'.inorder := hi ▸ (h.sorted ravl).insert (ran, elm)
  refine ⟨cells', t', by rw [h.root, hmem, h.stored_eq], h.update hch (fun _ hn => hn ▸ hran) (fun ran' hn => ?_)
    (fun ran' hne => Function.update_of_ne hne ..) hb hsorted ?_ (fun ravl' hne => ?_) (fun e he => ?_) ?_⟩
  · rw [hn, Function.update_self]
    exact ⟨rfl, hch.alloc ran halloc⟩
  · rw [inTree_cons_same rfl, inTree_filter_same, hi]
    have hperm := ((h.entries ravl).filter _).trans (parts_perm (c ravl) elm (trees ravl).inorder).symm
    exact (hperm.cons _).trans List.perm_middle.symm
  · exact (inTree_cons_other (Ne.symm hne)).trans (inTree_filter_other hne)
  · rcases List.mem_cons.1 he with rfl | he
    · exact .inl rfl
    · exact .inr (List.mem_map_of_mem (List.mem_of_mem_filter he))
  · rw [List.map_cons, List.nodup_cons]
    refine ⟨fun hmem => hran ?_, h.nodup.sublist (List.filter_sublist.map _)⟩
    exact (List.filter_sublist.map _).subset hmem

/-- **`rd_avl_remove_elm`** takes the entry out that compares equal. -/
theorem removeElm_ok (ravl : ι) (elm : α) :
    ∃ cells' t', Memory.removeElm (c ravl).cmp elm s.cells (s.root ravl) = some (cells', t'.ptr) ∧
      Holds c (Function.update trees ravl t') ⟨cells', Function.update s.root ravl t'.ptr⟩
        { a with entries := a.entries.filter fun e => ¬ e.Same c ravl elm } := by
  obtain ⟨t', hrem, hb, hi⟩ := removeElm0_ok (e := elm) (h.balanced ravl) (h.sorted ravl)
  obtain ⟨cells', hmem, hch⟩ := Memory.removeElm_sim (h.balanced ravl) (h.inMem ravl) hrem
  have hsorted : Sorted (c ravl) t'.inorder := hi ▸ (h.sorted ravl).remove elm
  refine ⟨cells', t', by rw [h.root, hmem], h.update hch (fun _ => False.elim) (fun _ => False.elim) (fun _ _ => rfl)
    hb hsorted ?_ (fun ravl' hne => inTree_filter_other hne)
    (fun e he => .inr (List.mem_map_of_mem (List.mem_of_mem_filter he))) (h.nodup.sublist (List.filter_sublist.map _))⟩
  rw [inTree_filter_same, hi]
  exact ((h.entries ravl).filter _).trans (parts_perm (c ravl) elm (trees ravl).inorder).symm

omit [DecidableEq ν] in
theorem find_ok (ravl : ι) (elm : α) : Memory.find (c ravl).cmp elm s.cells (s.root ravl) =
    some ((a.entries.find? fun e => e.Same c ravl elm).map Entry.elm) := by
  rw [h.root, Memory.find_sim elm (h.balanced ravl) (h.inMem ravl), ← h.stored_eq, ← findNode_ok (h.sorted ravl),
    Option.map_map]
  rfl

/-- **`RD_AVL_ELM_SET_NL`** with an element that compares equal. -/
theorem elmSet_ok {e : Entry ι ν α} (he : e ∈ a.entries) {elm : α} (h0 : (c e.ravl).cmp elm e.elm = 0) :
    ∃ cells' t', Memory.elmSet s.cells e.ran elm = some cells' ∧
      Holds c (Function.update trees e.ravl t') { s with cells := cells' }
        { a with entries := a.entries.map fun e' => if e'.ran = e.ran then { e' with elm := elm } else e' } := by
  have hran : e.ran ∈ (trees e.ravl).rans := h.mem_rans.2 ⟨e, he, rfl, rfl⟩
  obtain ⟨cells', hset, hch⟩ := Memory.elmSet_sim elm (h.inMem e.ravl) hran
  have hsame : ∀ x ∈ (trees e.ravl).inorder, x.1 = e.ran → (c e.ravl).cmp elm x.2 = 0 := by
    intro x hx heq
    obtain ⟨e', he', -, rfl⟩ := mem_inTree.1 ((h.entries e.ravl).mem_iff.2 hx)
    rw [List.inj_on_of_nodup_map h.nodup he' he heq, h0]
  have hrans :
    (a.entries.map fun e' => if e'.ran = e.ran then { e' with elm := elm } else e').map Entry.ran = a.rans := by
    rw [List.map_map, App.rans]
    apply List.map_congr_left
    intro e' _
    simp only [Function.comp]
    split <;> rfl
  refine ⟨cells', (trees e.ravl).setElm e.ran elm, hset, ?_⟩
  have hroot : Function.update s.root e.ravl ((trees e.ravl).setElm e.ran elm).ptr = s.root := by
    rw [ptr_setElm, ← h.root, Function.update_eq_self]
  rw [← hroot]
  refine h.update hch (fun _ => False.elim) (fun _ => False.elim) (fun _ _ => rfl) (h.balanced e.ravl).setElm
    (sorted_setElm (h.sorted e.ravl) hsame) ?_ (fun ravl' hne => ?_) (fun e' he' => .inr ?_) (hrans ▸ h.nodup)
  · rw [inTree_setElm, inorder_setElm]
    exact (h.entries e.ravl).map _
  · rw [inTree_setElm]
    refine (List.map_congr_left (g := id) fun x hx => ?_).trans (List.map_id _)
    obtain ⟨e', he', hravl, rfl⟩ := mem_inTree.1 hx
    refine if_neg fun heq => hne ?_
    rw [← hravl, List.inj_on_of_nodup_map h.nodup he' he heq]
  · exact hrans ▸ List.mem_map_of_mem he'

end Holds

/-! ## Runs -/

/-- No tree, and no node. -/
def Store.start : Store ι ν α := ⟨fun _ => none, fun _ => none⟩

def App.start : App ι ν α := ⟨fun _ => .free, []⟩

variable {c}

omit [DecidableEq ν] in
theorem start_holds : Holds c (fun _ => .nil) (Store.start : Store ι ν α) App.start where
  root _ := rfl
  inMem _ := inMem_nil _
  balanced _ := .nil
  sorted _ := .nil
  entries _ := .nil
  nodup := .nil
  slots _ := rfl
  lent ran hran := by simp [App.rans, App.start] at hran

/-- One call. -/
theorem step_holds {s : Store ι ν α} {a : App ι ν α} {op : Op ι ν α} (h : ∃ trees, Holds c trees s a)
    (hok : (app c).Ok a op) :
    ∃ s', (store c).step s op = some (s', (spec c a op).2) ∧ ∃ trees, Holds c trees s' (spec c a op).1 := by
  obtain ⟨trees, h⟩ := h
  cases op with
  | write ran p =>
    cases p with
    | none => exact ⟨_, rfl, trees, h.write_ok hok none rfl⟩
    | some cell => exact ⟨_, rfl, trees, h.write_ok hok (some cell) rfl⟩
  | init ravl => exact ⟨_, rfl, _, h.init_ok ravl⟩
  | insert ravl elm ran =>
    obtain ⟨cells', t', hins, h'⟩ := h.insert_ok hok.1 hok.2
    exact ⟨_, by simp [store, Store.step, hins, spec], _, h'⟩
  | removeElm ravl elm =>
    obtain ⟨cells', t', hrem, h'⟩ := h.removeElm_ok ravl elm
    exact ⟨_, by simp [store, Store.step, hrem, spec], _, h'⟩
  | find ravl elm => exact ⟨s, by simp [store, Store.step, h.find_ok, spec], trees, h⟩
  | elmSet ran elm =>
    obtain ⟨e, he, rfl, h0⟩ := hok
    obtain ⟨cells', t', hset, h'⟩ := h.elmSet_ok he h0
    exact ⟨_, by simp [store, Store.step, hset, spec], _, h'⟩

variable (c) in
/-- **Trees in one memory**: every run in which the application keeps to the contract goes through, each call returns
what the entries say, and at the end the memory has a balanced and sorted tree with the entries of each `ravl`, no node
in two of them, and the nodes that the application has not given to a tree as it wrote them. -/
theorem forest_run (ops : List (Op ι ν α)) (h : (app c).Admits App.start ops) :
    ∃ s trees, (store c).run Store.start ops = some (s, (Machine.specRun (spec c) App.start ops).2) ∧
      Holds c trees s (Machine.specRun (spec c) App.start ops).1 := by
  obtain ⟨s, hrun, trees, hs⟩ := Machine.run_sim_admits (A := app c) (R := fun s a => ∃ trees, Holds c trees s a)
    (fun _ _ => rfl) (fun _ _ _ => step_holds) ops Store.start App.start ⟨_, start_holds⟩ h
  exact ⟨s, trees, hrun, hs⟩

/-- Keys with values, compared by the keys. -/
def keyed : Comparator (Int × Int) where
  cmp a b := a.1 - b.1
  swap := by omega
  trans := by omega

/-- Two trees: a node that was replaced and one that was removed are freed, an element is set, and a tree is dropped. -/
def forestOps : List (Op Bool Nat (Int × Int)) :=
  [.write 1 (some ⟨none, none, 0, (0, 0)⟩), .write 2 (some ⟨none, none, 0, (0, 0)⟩),
    .write 3 (some ⟨none, none, 0, (0, 0)⟩), .write 4 (some ⟨none, none, 0, (0, 0)⟩),
    .insert true (5, 1) 1, .insert false (5, 2) 2, .insert true (8, 3) 3, .insert true (5, 4) 4, .write 1 none,
    .find true (5, 0), .elmSet 4 (5, 6), .find true (5, 0), .find false (5, 0), .removeElm true (5, 0), .write 4 none,
    .find true (5, 0), .init false, .write 2 none, .find true (8, 0)]

theorem forest_run_two :
    (∃ s trees, (store fun _ => keyed).run Store.start forestOps =
        some (s, (Machine.specRun (spec fun _ => keyed) App.start forestOps).2) ∧
      Holds (fun _ => keyed) trees s (Machine.specRun (spec fun _ => keyed) App.start forestOps).1) ∧
    (Machine.specRun (spec fun _ => keyed) App.start forestOps).2 =
      [none, none, none, none, none, none, none, some (5, 1), none, some (5, 4), none, some (5, 6), some (5, 2), none,
        none, none, none, none, some (8, 3)] :=
  ⟨forest_run (fun _ => keyed) forestOps (by decide), by decide⟩

end Librd.Avl.Forest
