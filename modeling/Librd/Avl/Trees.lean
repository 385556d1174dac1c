import Librd.Avl.Memory

/-!
# The operations of a tree in memory

What `rd_avl_insert`, `rd_avl_remove_elm` and `rd_avl_find` do to the nodes in memory is what their models in
`Tree.lean` do to the tree (`insert_sim`, `removeElm_sim`, `find_sim`). The induction is on the fuel for the depth, with
one case for each branch of the recursion; on the way back the new subtree is linked below its parent, which is balanced
(`relink_sim`). `Changed` says which nodes may be written: those of the tree and the new one, and none is freed.
-/

namespace Librd.Avl

open Librd.Avl.Tree

variable {ν α : Type}

/-! ## The functions by direction -/

section OfDir

variable (dir : Dir) (s : Tree ν α) (n : Node ν α) (o : Tree ν α)

theorem trueHeight_ofDir : (ofDir dir s n o).trueHeight = max s.trueHeight o.trueHeight + 1 := by
  cases dir with
  | left => rfl
  | right => rw [Nat.max_comm]; rfl

theorem node_eq_ofDir (l r : Tree ν α) : ∃ s o, Tree.node l n r = ofDir dir s n o := by
  cases dir with
  | left => exact ⟨l, r, rfl⟩
  | right => exact ⟨r, l, rfl⟩

variable {cmp : α → α → Int} {elm : α} {ran : Node ν α} {src : Tree ν α}

theorem insertNode_ofDir (h : cmp ran.elm n.elm ≠ 0) :
    insertNode cmp ran (ofDir (Memory.dirOf (cmp ran.elm n.elm)) s n o) = (insertNode cmp ran s).bind fun (s', ex) =>
      (balanceNode (ofDir (Memory.dirOf (cmp ran.elm n.elm)) s' n o)).map (·, ex) := by
  by_cases hlt : cmp ran.elm n.elm < 0
  · simp [Memory.dirOf, hlt, Tree.ofDir, insertNode, h, Option.map_eq_bind]
  · simp [Memory.dirOf, hlt, Tree.ofDir, insertNode, h, Option.map_eq_bind]

theorem insertNode_same (h : cmp ran.elm n.elm = 0) {l r : Tree ν α} :
    insertNode cmp ran (.node l n r) = some (.node l { ran with height := n.height } r, some n) := by
  simp [insertNode, h]

theorem removeElm0_same (h : cmp elm n.elm = 0) {l r : Tree ν α} :
    removeElm0 cmp elm (.node l n r) = removeNode0 l r := by
  simp [removeElm0, h]

theorem findNode_same (h : cmp elm n.elm = 0) {l r : Tree ν α} : findNode cmp elm (.node l n r) = some n := by
  simp [findNode, h]

theorem move_ofDir : move src dir (ofDir dir s n o) =
    (move src dir s).bind fun s' => balanceNode (ofDir dir s' n o) := by
  cases dir with
  | left => rfl
  | right => rfl

theorem removeElm0_ofDir (h : cmp elm n.elm ≠ 0) :
    removeElm0 cmp elm (ofDir (Memory.dirOf (cmp elm n.elm)) s n o) = (removeElm0 cmp elm s).bind fun s' =>
      balanceNode (ofDir (Memory.dirOf (cmp elm n.elm)) s' n o) := by
  by_cases hlt : cmp elm n.elm < 0
  · simp [Memory.dirOf, hlt, Tree.ofDir, removeElm0, h]
  · simp [Memory.dirOf, hlt, Tree.ofDir, removeElm0, h]

theorem findNode_ofDir (h : cmp elm n.elm ≠ 0) :
    findNode cmp elm (ofDir (Memory.dirOf (cmp elm n.elm)) s n o) = findNode cmp elm s := by
  by_cases hlt : cmp elm n.elm < 0
  · simp [Memory.dirOf, hlt, Tree.ofDir, findNode, h]
  · simp [Memory.dirOf, hlt, Tree.ofDir, findNode, h]

end OfDir

theorem balanceNode_rans {t t' : Tree ν α} (h : balanceNode t = some t') : t'.rans = t.rans := balance_rans h

/-! ## The operations of one tree -/

/-- The nodes of a tree in memory are allocated. -/
theorem InMem.isSome {cells : Cells ν α} {a : ν} : ∀ {t : Tree ν α}, InMem cells t → a ∈ t.rans → (cells a).isSome
  | .nil, _, ha => by simp [rans, inorder] at ha
  | .node l n r, h, ha => by
    obtain ⟨hn, hl, hr, -⟩ := (inMem_ofDir .left).1 h
    rw [rans_node, List.mem_append, List.mem_cons] at ha
    rcases ha with ha | rfl | ha
    · exact hl.isSome ha
    · simp [hn]
    · exact hr.isSome ha

/-- The memory after an operation made `t'` of `t` and of the nodes `new`. -/
structure Changed (new : ν → Prop) (cells cells' : Cells ν α) (t t' : Tree ν α) : Prop where
  inMem : InMem cells' t'
  mem : ∀ a ∈ t'.rans, new a ∨ a ∈ t.rans
  other : ∀ a, ¬ new a → a ∉ t.rans → cells' a = cells a
  alloc : ∀ a, (cells a).isSome → (cells' a).isSome

theorem Changed.of_eq {new : ν → Prop} {cells : Cells ν α} {t t' : Tree ν α} (h : InMem cells t')
    (hmem : ∀ a ∈ t'.rans, new a ∨ a ∈ t.rans) : Changed new cells cells t t' :=
  ⟨h, hmem, fun _ _ _ => rfl, fun _ ha => ha⟩

namespace Memory

variable [DecidableEq ν] {cells : Cells ν α} {cmp : α → α → Int}

/-- **Back from a recursive call**: the new subtree is linked below the node, and the node is balanced. -/
theorem relink_sim {new : ν → Prop} {c₁ : Cells ν α} {dir : Dir} {s s' o t' : Tree ν α} {n : Node ν α}
    (h : InMem cells (ofDir dir s n o)) (hch : Changed new cells c₁ s s')
    (hnew : ∀ a, new a → a ∉ (ofDir dir s n o).rans) (hbal : Avl.balanceNode (ofDir dir s' n o) = some t') :
    ∃ c₂ c₃ p, setChild c₁ n.ran dir s'.ptr = some c₂ ∧ balanceNode c₂ n.ran = some (c₃, p) ∧ t'.ptr = some p ∧
      Changed new cells c₃ (ofDir dir s n o) t' ∧ ∀ a ∉ t'.rans, c₃ a = c₁ a := by
  obtain ⟨hn, hs, ho, hns, hno, hdisj⟩ := (inMem_ofDir dir).1 h
  simp only [mem_rans_ofDir, not_or] at hnew
  have hn₁ : c₁ n.ran = some (Cell.ofDir dir s.ptr n o.ptr) := by
    rw [hch.other n.ran (fun hne => (hnew _ hne).1 rfl) hns, hn]
  have ho₁ : InMem c₁ o := ho.frame fun a ha => hch.other a (fun hne => (hnew _ hne).2.2 ha) fun has => hdisj a has ha
  have hns' : n.ran ∉ s'.rans := by
    intro hmem
    rcases hch.mem _ hmem with hne | hs
    · exact (hnew _ hne).1 rfl
    · exact hns hs
  have hdisj' : ∀ a ∈ s'.rans, a ∉ o.rans := by
    intro a ha hao
    rcases hch.mem a ha with hne | hs
    · exact (hnew _ hne).2.2 hao
    · exact hdisj a hs hao
  obtain ⟨c₂, h₂, hin₂, ho₂⟩ := setChild_ok hn₁ hch.inMem ho₁ hns' hno hdisj'
  obtain ⟨c₃, p, h₃, hmade⟩ := balanceNode_sim hin₂ (ptr_ofDir ..) hbal
  have hrans : ∀ a, a ∈ t'.rans ↔ a = n.ran ∨ a ∈ s'.rans ∨ a ∈ o.rans := by
    intro a
    rw [balanceNode_rans hbal, mem_rans_ofDir]
  have hsame : ∀ a ∉ t'.rans, c₃ a = c₁ a := by
    intro a ha
    rw [balanceNode_rans hbal] at ha
    rw [hmade.other a ha]
    exact ho₂ a fun hne => ha ((mem_rans_ofDir ..).2 (.inl hne))
  have hmem : ∀ a ∈ t'.rans, new a ∨ a ∈ (ofDir dir s n o).rans := by
    intro a ha
    rw [mem_rans_ofDir]
    rcases (hrans a).1 ha with hn | hs | ho
    · exact .inr (.inl hn)
    · exact (hch.mem a hs).imp_right fun hs => .inr (.inl hs)
    · exact .inr (.inr (.inr ho))
  refine ⟨c₂, c₃, p, h₂, h₃, hmade.ptr, ⟨hmade.inMem, hmem, fun a hne ha => ?_, fun a ha => ?_⟩, hsame⟩
  · rw [hsame a fun hat => (hmem a hat).elim hne ha]
    rw [mem_rans_ofDir, not_or, not_or] at ha
    exact hch.other a hne ha.2.1
  · by_cases hat : a ∈ t'.rans
    · exact hmade.inMem.isSome hat
    · rw [hsame a hat]
      exact hch.alloc a ha

/-- What is left in memory of a node that was replaced. -/
def Replaced (cells : Cells ν α) (t t' : Tree ν α) (e : Node ν α) : Prop :=
  e.ran ∈ t.rans ∧ e.ran ∉ t'.rans ∧ (cells e.ran).map Cell.elm = some e.elm

/-- The new node takes the place of the one that it replaces. -/
theorem replace_ok {l r : Tree ν α} {n ran : Node ν α} (h : InMem cells (.node l n r))
    (hran : InMem cells (.node .nil ran .nil)) (hnot : ran.ran ∉ (Tree.node l n r).rans) :
    ∃ cells', replace cells ran.ran n.ran = some cells' ∧
      Changed (· = ran.ran) cells cells' (.node l n r) (.node l { ran with height := n.height } r) ∧
      Replaced cells' (.node l n r) (.node l { ran with height := n.height } r) n := by
  obtain ⟨hn, hl, hr, hnl, hnr, hlr⟩ := (inMem_ofDir .left).1 h
  obtain ⟨hcell, -⟩ := (inMem_ofDir .left).1 hran
  rw [rans_node, List.mem_append, List.mem_cons, not_or, not_or] at hnot
  obtain ⟨hrl, hne, hrr⟩ := hnot
  have hchild := child_eq hn
  obtain ⟨c₁, h₁, hcell₁, ho₁⟩ := setChild_cell hcell l.ptr
  rw [← Cell.ofDir_opposite] at hcell₁ hn
  have hchild₁ := child_eq ((ho₁ n.ran (Ne.symm hne)).trans hn)
  obtain ⟨c₂, h₂, hcell₂, ho₂⟩ := setChild_cell hcell₁ r.ptr
  have ho₂' : ∀ a, a ≠ ran.ran → c₂ a = cells a := fun a ha => (ho₂ a ha).trans (ho₁ a ha)
  obtain ⟨c₃, h₃, hcell₃, ho₃⟩ := setHeight_ok hcell₂ n.height
  have ho₃' : ∀ a, a ≠ ran.ran → c₃ a = cells a := fun a ha => (ho₃ a ha).trans (ho₂' a ha)
  refine ⟨c₃, ?_, ⟨?_, ?_, fun a ha _ => ho₃' a ha, fun a ha => ?_⟩, ?_, ?_, ?_⟩
  · simp only [Dir.opposite] at hchild₁ h₂
    simp [replace, hchild, h₁, hchild₁, h₂, ho₂' n.ran (Ne.symm hne), hn, h₃]
  · rw [Cell.ofDir_opposite] at hcell₃
    exact (inMem_ofDir .left).2 ⟨hcell₃, hl.frame fun a ha => ho₃' a (by rintro rfl; exact hrl ha),
      hr.frame fun a ha => ho₃' a (by rintro rfl; exact hrr ha), hrl, hrr, hlr⟩
  · intro a ha
    rw [rans_node, List.mem_append, List.mem_cons] at ha ⊢
    tauto
  · by_cases heq : a = ran.ran
    · simp [heq, hcell₃]
    · rwa [ho₃' a heq]
  · simp [rans_node]
  · simp [rans_node, hnl, hnr, Ne.symm hne]
  · simp [ho₃' n.ran (Ne.symm hne), hn]

/-- **`rd_avl_insert_node`.** -/
theorem insertNode_sim {ran : Node ν α} (hran : InMem cells (.node .nil ran .nil)) :
    ∀ (fuel : Nat) {t t' : Tree ν α} {ex : Option (Node ν α)}, t.trueHeight < fuel → InMem cells t →
      ran.ran ∉ t.rans → Avl.insertNode cmp ran t = some (t', ex) →
      ∃ cells' p, insertNode cmp ran.ran fuel cells t.ptr = some (cells', p, ex.map Node.ran) ∧ t'.ptr = some p ∧
        Changed (· = ran.ran) cells cells' t t' ∧ ∀ e ∈ ex, Replaced cells' t t' e
  | 0, _, _, _, hfuel, _, _, _ => absurd hfuel (Nat.not_lt_zero _)
  | fuel + 1, .nil, _, _, _, _, _, hins => by
    cases hins
    refine ⟨cells, ran.ran, rfl, rfl, .of_eq hran fun a ha => .inl ?_, fun e he => by cases he⟩
    simpa [rans, inorder] using ha
  | fuel + 1, .node l n r, t', ex, hfuel, h, hnot, hins => by
    obtain ⟨hn, -⟩ := (inMem_ofDir .left).1 h
    obtain ⟨hcell, -⟩ := (inMem_ofDir .left).1 hran
    by_cases h0 : cmp ran.elm n.elm = 0
    · rw [insertNode_same n h0] at hins
      cases hins
      obtain ⟨c₁, h₁, hch, hgone⟩ := replace_ok h hran hnot
      refine ⟨c₁, ran.ran, ?_, rfl, hch, fun e he => ?_⟩
      · simp [insertNode, Tree.ptr, hcell, hn, h0, h₁]
      · obtain rfl := Option.some.inj he
        exact hgone
    · obtain ⟨s, o, heq⟩ := node_eq_ofDir (dirOf (cmp ran.elm n.elm)) n l r
      rw [heq] at hfuel h hnot hins ⊢
      obtain ⟨hn, hs, -, hns, -, hdisj⟩ := (inMem_ofDir _).1 h
      rw [trueHeight_ofDir] at hfuel
      rw [insertNode_ofDir _ _ _ h0] at hins
      obtain ⟨⟨s', ex'⟩, hins', hmap⟩ := Option.bind_eq_some_iff.1 hins
      obtain ⟨u, hbal, heq⟩ := Option.map_eq_some_iff.1 hmap
      obtain ⟨rfl, rfl⟩ : u = t' ∧ ex' = ex := by simpa using heq
      have hnots : ran.ran ∉ s.rans := fun ha => hnot ((mem_rans_ofDir ..).2 (.inr (.inl ha)))
      obtain ⟨c₁, p, h₁, hp, hch, hgone⟩ := insertNode_sim hran fuel (by omega) hs hnots hins'
      obtain ⟨c₂, c₃, p', h₂, h₃, hp', hch', hsame⟩ := relink_sim h hch (by rintro a rfl; exact hnot) hbal
      refine ⟨c₃, p', ?_, hp', hch', fun e he => ?_⟩
      · rw [hp] at h₂
        simp [insertNode, hcell, hn, h0, child_eq hn, h₁, h₂, h₃]
      · obtain ⟨hes, hes', helm⟩ := hgone e he
        have het' : e.ran ∉ u.rans := by
          rw [balanceNode_rans hbal, mem_rans_ofDir, not_or, not_or]
          exact ⟨fun heq => hns (heq ▸ hes), hes', hdisj _ hes⟩
        exact ⟨(mem_rans_ofDir ..).2 (.inr (.inl hes)), het', by rw [hsame _ het', helm]⟩

/-! ## Removal -/

/-- **`rd_avl_move`.** -/
theorem move_sim {src : Tree ν α} (hsrc : InMem cells src) (dir : Dir) :
    ∀ (fuel : Nat) {t t' : Tree ν α}, t.trueHeight < fuel → InMem cells t → (∀ a ∈ src.rans, a ∉ t.rans) →
      Avl.move src dir t = some t' →
      ∃ cells', move src.ptr dir fuel cells t.ptr = some (cells', t'.ptr) ∧ Changed (· ∈ src.rans) cells cells' t t'
  | 0, _, _, hfuel, _, _, _ => absurd hfuel (Nat.not_lt_zero _)
  | fuel + 1, .nil, _, _, _, _, hmove => by
    cases hmove
    exact ⟨cells, rfl, .of_eq hsrc fun a ha => .inl ha⟩
  | fuel + 1, .node l n r, t', hfuel, h, hnot, hmove => by
    obtain ⟨s, o, heq⟩ := node_eq_ofDir dir n l r
    rw [heq] at hfuel h hnot hmove ⊢
    obtain ⟨hn, hs, -⟩ := (inMem_ofDir _).1 h
    rw [trueHeight_ofDir] at hfuel
    rw [move_ofDir] at hmove
    obtain ⟨s', hmove', hbal⟩ := Option.bind_eq_some_iff.1 hmove
    obtain ⟨c₁, h₁, hch⟩ := move_sim hsrc dir fuel (by omega) hs
      (fun a ha has => hnot a ha ((mem_rans_ofDir ..).2 (.inr (.inl has)))) hmove'
    obtain ⟨c₂, c₃, p, h₂, h₃, hp, hch', -⟩ := relink_sim h hch hnot hbal
    exact ⟨c₃, by simp [move, child_eq hn, h₁, h₂, h₃, hp], hch'⟩

/-- **`rd_avl_remove_node0`** leaves a node that is in no tree. -/
theorem removeNode0_sim (fuel : Nat) {l r t' : Tree ν α} {n : Node ν α} (hfuel : l.trueHeight < fuel)
    (h : InMem cells (.node l n r)) (hrem : Avl.removeNode0 l r = some t') :
    ∃ cells', removeNode0 fuel cells n.ran = some (cells', t'.ptr) ∧
      Changed (fun _ => False) cells cells' (.node l n r) t' := by
  obtain ⟨hn, hl, hr, hnl, hnr, hlr⟩ := (inMem_ofDir .left).1 h
  have hleft := child_eq hn
  rw [← Cell.ofDir_opposite] at hn
  have hright := child_eq hn
  obtain ⟨c₁, h₁, hch⟩ := move_sim hr .right fuel hfuel hl (fun a ha hal => hlr a hal ha) hrem
  have hn₁ : c₁ n.ran = _ := (hch.other _ hnr hnl).trans hn
  obtain ⟨c₂, h₂, hn₂, ho₂⟩ := setChild_cell hn₁ none
  rw [Cell.ofDir_opposite] at hn₂
  obtain ⟨c₃, h₃, hn₃, ho₃⟩ := setChild_cell hn₂ none
  have ho : ∀ a, a ≠ n.ran → c₃ a = c₁ a := fun a ha => (ho₃ a ha).trans (ho₂ a ha)
  have hnt : n.ran ∉ t'.rans := fun ha => (hch.mem _ ha).elim hnr hnl
  refine ⟨c₃, ?_, hch.inMem.frame fun a ha => ho a (by rintro rfl; exact hnt ha), fun a ha => .inr ?_, fun a _ ha => ?_,
    fun a ha => ?_⟩
  · simp only [Dir.opposite] at hright h₂
    simp [removeNode0, hleft, hright, h₁, h₂, h₃]
  · rw [rans_node, List.mem_append, List.mem_cons]
    exact (hch.mem a ha).elim (fun hr => .inr (.inr hr)) .inl
  · rw [rans_node, List.mem_append, List.mem_cons, not_or, not_or] at ha
    rw [ho a ha.2.1, hch.other a ha.2.2 ha.1]
  · by_cases heq : a = n.ran
    · simp [heq, hn₃]
    · rw [ho a heq]
      exact hch.alloc a ha

/-- **`rd_avl_remove_elm0`.** -/
theorem removeElm0_sim (elm : α) : ∀ (fuel : Nat) {t t' : Tree ν α}, t.trueHeight < fuel → InMem cells t →
    Avl.removeElm0 cmp elm t = some t' →
    ∃ cells', removeElm0 cmp elm fuel cells t.ptr = some (cells', t'.ptr) ∧ Changed (fun _ => False) cells cells' t t'
  | 0, _, _, hfuel, _, _ => absurd hfuel (Nat.not_lt_zero _)
  | fuel + 1, .nil, _, _, h, hrem => by
    cases hrem
    exact ⟨cells, rfl, .of_eq h fun a ha => .inr ha⟩
  | fuel + 1, .node l n r, t', hfuel, h, hrem => by
    obtain ⟨hn, -⟩ := (inMem_ofDir .left).1 h
    by_cases h0 : cmp elm n.elm = 0
    · rw [removeElm0_same n h0] at hrem
      rw [trueHeight] at hfuel
      obtain ⟨c₁, h₁, hch⟩ := removeNode0_sim fuel (by omega) h hrem
      exact ⟨c₁, by simp [removeElm0, Tree.ptr, hn, h0, h₁], hch⟩
    · obtain ⟨s, o, heq⟩ := node_eq_ofDir (dirOf (cmp elm n.elm)) n l r
      rw [heq] at hfuel h hrem ⊢
      obtain ⟨hn, hs, -⟩ := (inMem_ofDir _).1 h
      rw [trueHeight_ofDir] at hfuel
      rw [removeElm0_ofDir _ _ _ h0] at hrem
      obtain ⟨s', hrem', hbal⟩ := Option.bind_eq_some_iff.1 hrem
      obtain ⟨c₁, h₁, hch⟩ := removeElm0_sim elm fuel (by omega) hs hrem'
      obtain ⟨c₂, c₃, p, h₂, h₃, hp, hch', -⟩ := relink_sim h hch (fun _ => False.elim) hbal
      exact ⟨c₃, by simp [removeElm0, hn, h0, child_eq hn, h₁, h₂, h₃, hp], hch'⟩

/-! ## Lookup -/

omit [DecidableEq ν] in
/-- **`rd_avl_find_node`** finds in memory what it finds in the tree. -/
theorem findNode_sim (cmp : α → α → Int) (elm : α) :
    ∀ (fuel : Nat) {t : Tree ν α}, t.trueHeight < fuel → InMem cells t →
    findNode cmp elm fuel cells t.ptr = some ((Avl.findNode cmp elm t).map Node.ran) ∧
      ∀ n ∈ Avl.findNode cmp elm t, (cells n.ran).map Cell.elm = some n.elm
  | 0, _, hfuel, _ => absurd hfuel (Nat.not_lt_zero _)
  | fuel + 1, .nil, _, _ => ⟨rfl, fun n hn => by cases hn⟩
  | fuel + 1, .node l n r, hfuel, h => by
    obtain ⟨hn, -⟩ := (inMem_ofDir .left).1 h
    by_cases h0 : cmp elm n.elm = 0
    · rw [findNode_same n h0]
      refine ⟨by simp [findNode, Tree.ptr, hn, h0], fun m hm => ?_⟩
      obtain rfl := Option.some.inj hm
      simp [hn]
    · obtain ⟨s, o, heq⟩ := node_eq_ofDir (dirOf (cmp elm n.elm)) n l r
      rw [heq] at hfuel h ⊢
      obtain ⟨hn, hs, -⟩ := (inMem_ofDir _).1 h
      rw [trueHeight_ofDir] at hfuel
      obtain ⟨hfind, helm⟩ := findNode_sim cmp elm fuel (by omega) hs
      rw [findNode_ofDir _ _ _ h0]
      exact ⟨by simp [findNode, hn, h0, child_eq hn, hfind], helm⟩

/-! ## The public interface -/

omit [DecidableEq ν] in
/-- The fuel is enough for the depth. -/
theorem trueHeight_lt_depthFuel {t : Tree ν α} (hb : Balanced t) (h : InMem cells t) :
    t.trueHeight < depthFuel cells t.ptr := by
  have hle := hb.trueHeight_le
  rw [depthFuel, height_eq h, Option.getD_some]
  omega

/-- **`rd_avl_insert`** of a node that is allocated and not in the tree. -/
theorem insert_sim {elm : α} {ran : ν} {t t' : Tree ν α} {old : Option α} (hb : Balanced t) (h : InMem cells t)
    (hran : (cells ran).isSome) (hnot : ran ∉ t.rans) (hins : Avl.insert cmp elm ran t = some (t', old)) :
    ∃ cells', insert cmp elm ran cells t.ptr = some (cells', t'.ptr, old) ∧ Changed (· = ran) cells cells' t t' := by
  obtain ⟨cell, hcell⟩ := Option.isSome_iff_exists.1 hran
  have hmod : modify cells ran (fun _ => ⟨none, none, 0, elm⟩) =
      some (Function.update cells ran (some ⟨none, none, 0, elm⟩)) := by rw [modify, hcell, Option.map_some]
  have hother : ∀ a, a ≠ ran → Function.update cells ran (some ⟨none, none, 0, elm⟩) a = cells a :=
    fun a ha => Function.update_of_ne ha ..
  have hnew : InMem (Function.update cells ran (some ⟨none, none, 0, elm⟩)) (.node .nil ⟨ran, 0, elm⟩ .nil) :=
    (inMem_ofDir .left).2 ⟨Function.update_self .., inMem_nil _, inMem_nil _, by simp [rans, inorder],
      by simp [rans, inorder], by simp [rans, inorder]⟩
  have h' := h.frame fun a ha => hother a (by rintro rfl; exact hnot ha)
  rw [Avl.insert, memset_of_not_mem elm hnot] at hins
  obtain ⟨⟨u, ex⟩, hnode, heq⟩ := Option.bind_eq_some_iff.1 hins
  obtain ⟨rfl, rfl⟩ : u = t' ∧ ex.map Node.elm = old := by simpa using heq
  obtain ⟨c₁, p, h₁, hp, hch, hgone⟩ := insertNode_sim hnew _ (trueHeight_lt_depthFuel hb h') h' hnot hnode
  refine ⟨c₁, ?_, hch.inMem, hch.mem, fun a hne ha => ?_, fun a ha => hch.alloc a ?_⟩
  · cases ex with
    | none => simp [insert, hmod, h₁, hp]
    | some e =>
      obtain ⟨cell', hcell', helm⟩ := Option.map_eq_some_iff.1 (hgone e rfl).2.2
      simp [insert, hmod, h₁, hp, hcell', helm]
  · rw [hch.other a hne ha, hother a hne]
  · by_cases heq : a = ran
    · simp [heq]
    · rwa [hother a heq]

/-- **`rd_avl_remove_elm`.** -/
theorem removeElm_sim {elm : α} {t t' : Tree ν α} (hb : Balanced t) (h : InMem cells t)
    (hrem : Avl.removeElm cmp elm t = some t') : ∃ cells', removeElm cmp elm cells t.ptr = some (cells', t'.ptr) ∧
      Changed (fun _ => False) cells cells' t t' :=
  removeElm0_sim elm _ (trueHeight_lt_depthFuel hb h) h hrem

omit [DecidableEq ν] in
/-- **`rd_avl_find`.** -/
theorem find_sim (elm : α) {t : Tree ν α} (hb : Balanced t) (h : InMem cells t) :
    find cmp elm cells t.ptr = some (Avl.find cmp elm t) := by
  obtain ⟨hfind, helm⟩ := findNode_sim cmp elm _ (trueHeight_lt_depthFuel hb h) h
  rw [find, hfind, Avl.find]
  cases hn : Avl.findNode cmp elm t with
  | none => rfl
  | some n =>
    obtain ⟨cell, hcell, heq⟩ := Option.map_eq_some_iff.1 (helm n hn)
    simp [hcell, heq]

end Memory

/-! ## Another element for a node -/

section SetElm

variable [DecidableEq ν] {ran : ν} {elm : α}

/-- `ran->ran_elm = elm`, as seen from a tree. -/
def Tree.setElm (ran : ν) (elm : α) : Tree ν α → Tree ν α
  | .nil => .nil
  | .node l n r => .node (l.setElm ran elm) (if n.ran = ran then { n with elm := elm } else n) (r.setElm ran elm)

theorem ptr_setElm (t : Tree ν α) : (t.setElm ran elm).ptr = t.ptr := by
  cases t with
  | nil => rfl
  | node l n r =>
    simp only [Tree.setElm, Tree.ptr]
    split <;> rfl

theorem height_setElm (t : Tree ν α) : (t.setElm ran elm).height = t.height := by
  cases t with
  | nil => rfl
  | node l n r =>
    simp only [Tree.setElm, height_node]
    split <;> rfl

theorem inorder_setElm : ∀ t : Tree ν α,
    (t.setElm ran elm).inorder = t.inorder.map fun x => if x.1 = ran then (x.1, elm) else x
  | .nil => rfl
  | .node l n r => by
    simp only [Tree.setElm, inorder, inorder_setElm l, inorder_setElm r, List.map_append, List.map_cons]
    split <;> rfl

theorem rans_setElm (t : Tree ν α) : (t.setElm ran elm).rans = t.rans := by
  rw [rans, inorder_setElm, List.map_map, rans]
  apply List.map_congr_left
  intro x _
  simp only [Function.comp]
  split <;> rfl

theorem Balanced.setElm : ∀ {t : Tree ν α}, Balanced t → Balanced (t.setElm ran elm)
  | _, .nil => .nil
  | _, .fresh n h => .fresh _ (by split <;> exact h)
  | _, .node (n := n) hl hr h h1 h2 => by
    refine .node hl.setElm hr.setElm ?_ ?_ ?_
    · rw [height_setElm, height_setElm, ← h]
      split <;> rfl
    · rwa [height_setElm, height_setElm]
    · rwa [height_setElm, height_setElm]

/-- The order stays where the element compares equal. -/
theorem sorted_setElm {c : Comparator α} {t : Tree ν α} (hs : Sorted c t.inorder)
    (h : ∀ x ∈ t.inorder, x.1 = ran → c.cmp elm x.2 = 0) : Sorted c (t.setElm ran elm).inorder := by
  have hsame : ∀ x ∈ t.inorder, c.cmp (if x.1 = ran then (x.1, elm) else x).2 x.2 = 0 := by
    intro x hx
    split
    · exact h x hx ‹_›
    · exact c.self _
  rw [inorder_setElm, Sorted, List.pairwise_map]
  refine List.Pairwise.imp_of_mem (fun hx hy hlt => ?_) hs
  have hle := c.lt_of_le_of_lt (Int.le_of_eq (hsame _ hx)) hlt
  exact c.lt_of_lt_of_le hle (Int.le_of_eq (c.zero_comm.1 (hsame _ hy)))

theorem Memory.elmSet_sim {cells : Cells ν α} (elm : α) {t : Tree ν α} (h : InMem cells t) (hran : ran ∈ t.rans) :
    ∃ cells', elmSet cells ran elm = some cells' ∧ Changed (fun _ => False) cells cells' t (t.setElm ran elm) := by
  obtain ⟨cell, hcell⟩ := Option.isSome_iff_exists.1 (h.isSome hran)
  have hother : ∀ a, a ≠ ran → Function.update cells ran (some { cell with elm := elm }) a = cells a :=
    fun a ha => Function.update_of_ne ha ..
  have hlinked : ∀ t : Tree ν α, Linked cells t →
      Linked (Function.update cells ran (some { cell with elm := elm })) (t.setElm ran elm) := by
    intro t
    induction t with
    | nil => exact fun _ => trivial
    | node l n r ihl ihr =>
      rintro ⟨hn, hl, hr⟩
      refine ⟨?_, ihl hl, ihr hr⟩
      simp only [ptr_setElm]
      split
      · rename_i heq
        rw [heq, hcell] at hn
        cases hn
        rw [heq, Function.update_self]
      · rename_i hne
        rw [hother _ hne, hn]
  refine ⟨_, by rw [elmSet, modify, hcell, Option.map_some], ⟨hlinked t h.linked, by rw [rans_setElm]; exact h.nodup⟩,
    fun a ha => .inr ?_, fun a _ ha => hother a (by rintro rfl; exact ha hran), fun a ha => ?_⟩
  · rwa [rans_setElm] at ha
  · by_cases heq : a = ran
    · simp [heq]
    · rwa [hother a heq]

end SetElm

end Librd.Avl
