import Librd.Lib.Machine
import Librd.Sysqueue.Sysqueue

/-!
# Moving lists and queues (`LIST_MOVE` and `TAILQ_MOVE`)

Both macros copy a head. What has to change with it are the addresses inside the old head: the back pointer of the first
element, and the `tqh_last` of an empty queue. `LIST_MOVE` forgets the first, so it is right about the empty list alone
(`listMove_right_iff`); `TAILQ_MOVE` sees to it but forgets the second, so it is right about every queue but the empty
one (`tailqMove_right_iff`).

Right means that the new head has a well-formed list of the same sequence, through which later operations act on that
sequence: the operations are run on the memory and on the sequence that they are to make side by side.
-/

namespace Librd.Sysqueue

open Links

/-- An element of a list without repetition, with what is before and after it. -/
theorem exists_append {E : Type} {x : E} {xs : List E} (hx : x ∈ xs) (hn : xs.Nodup) :
    ∃ ys zs, xs = ys ++ x :: zs ∧ x ∉ ys := by
  obtain ⟨ys, zs, rfl⟩ := List.append_of_mem hx
  exact ⟨ys, zs, rfl, fun hmem => (List.nodup_cons.1 (List.nodup_middle.1 hn)).1 (List.mem_append_left zs hmem)⟩

variable {H E : Type} [DecidableEq H] [DecidableEq E]

/-- A sequence with `elm` before `listelm`. -/
def insertedBefore (listelm elm : E) : List E → List E
  | [] => []
  | x :: xs => if x = listelm then elm :: x :: xs else x :: insertedBefore listelm elm xs

theorem insertedBefore_append {listelm elm : E} : ∀ {ys : List E} (zs : List E), listelm ∉ ys →
    insertedBefore listelm elm (ys ++ listelm :: zs) = ys ++ elm :: listelm :: zs
  | [], _, _ => by simp [insertedBefore]
  | y :: ys, zs, hn => by
    rw [List.mem_cons, not_or] at hn
    obtain ⟨hne, hn⟩ := hn
    rw [List.cons_append, insertedBefore, if_neg (Ne.symm hne), insertedBefore_append zs hn, List.cons_append]

theorem erase_append {elm : E} {ys : List E} (zs : List E) (hn : elm ∉ ys) :
    (ys ++ elm :: zs).erase elm = ys ++ zs := by
  rw [List.erase_append_right _ hn, List.erase_cons_head]

/-! ## LIST -/

/-- Operations on the elements of a LIST. -/
inductive ListOp (E : Type)
  | remove (elm : E)
  | insertBefore (listelm elm : E)

namespace ListOp

/-- The operation on the memory. -/
def run (m : Links H E) : ListOp E → Links H E
  | remove elm => listRemove m elm
  | insertBefore listelm elm => listInsertBefore m listelm elm

/-- What it is to make of the sequence. -/
def seq (xs : List E) : ListOp E → List E
  | remove elm => xs.erase elm
  | insertBefore listelm elm => insertedBefore listelm elm xs

/-- It names an element of the list, and a new one. -/
def Ok (xs : List E) : ListOp E → Prop
  | remove elm => elm ∈ xs
  | insertBefore listelm elm => listelm ∈ xs ∧ elm ∉ xs

end ListOp

/-- The memory and the sequence side by side. -/
def lists : Machine (Links H E × List E) (ListOp E) Unit where
  Ok s op := op.Ok s.2
  step s op := some ((op.run s.1, op.seq s.2), ())

section List

variable {m : Links H E} {g h : H} {xs : List E}

/-- An operation on an element of a list changes its sequence and no other head. -/
theorem ListOp.chain (hc : m.Chain h xs) (hg : g ≠ h) {op : ListOp E} (hok : op.Ok xs) :
    (op.run m).Chain h (op.seq xs) ∧ (op.run m).cell (.first g) = m.cell (.first g) := by
  have hfirst : ∀ {z : E} {ys zs : List E}, m.Chain h (ys ++ z :: zs) → (.first g : Link H E) ≠ m.prev z := by
    intro z ys zs hc
    rw [hc.prev_eq]
    rcases endLink_mem (.first h) ys with rfl | ⟨y, -, he⟩
    · simpa using hg
    · simp [he]
  cases op with
  | remove elm =>
    obtain ⟨ys, zs, rfl, hn⟩ := exists_append hok hc.nodup
    rw [ListOp.seq, erase_append zs hn]
    refine ⟨chain_remove hc, ?_⟩
    simp [run, listRemove_eq hc.next_ne, Links.unlink, hfirst hc]
  | insertBefore listelm elm =>
    obtain ⟨ys, zs, rfl, hn⟩ := exists_append hok.1 hc.nodup
    rw [ListOp.seq, insertedBefore_append zs hn]
    refine ⟨chain_insertBefore hc hok.2, ?_⟩
    have hne : listelm ≠ elm := by
      rintro rfl
      exact hok.2 hok.1
    simp [run, listInsertBefore, hne, hfirst hc]

/-- **Later operations** on the elements of a list change its sequence and no other head. -/
theorem lists_always (hc : m.Chain h xs) (hg : g ≠ h) {ops : List (ListOp E)} (hops : lists.Admits (m, xs) ops) :
    lists.Always (fun s => s.1.Chain h s.2 ∧ s.1.cell (.first g) = m.cell (.first g)) (m, xs) ops := by
  apply lists.always_inv (fun _ hs => hs) _ ops (m, xs) ⟨hc, rfl⟩ hops
  rintro s op s' o ⟨hs, hcell⟩ hok hstep
  cases hstep
  obtain ⟨hs', hcell'⟩ := ListOp.chain hs hg hok
  exact ⟨hs', hcell'.trans hcell⟩

end List

/-- What `LIST_MOVE` of the list `xs` is to do: `head1` is empty, `head2` has the same sequence, and all later
operations on the elements change that of `head2` and never that of `head1`. -/
def ListMoveRight (m : Links H E) (head1 head2 : H) (xs : List E) : Prop :=
  let m' := listMove m head1 head2
  m'.Chain head1 [] ∧ m'.Chain head2 xs ∧ ∀ ops, lists.Admits (m', xs) ops →
    lists.Always (fun s => s.1.Chain head1 [] ∧ s.1.Chain head2 s.2) (m', xs) ops

theorem listMove_nil {m : Links H E} {head1 head2 : H} (hc : m.Chain head1 []) : ListMoveRight m head1 head2 [] := by
  have hmove : listMove m head1 head2 = listInit m head2 := by
    simp [listMove, listInit, chain_nil.1 hc]
  have h1 : (listMove m head1 head2).Chain head1 [] := by
    rw [chain_nil, hmove]
    simp [listInit, chain_nil.1 hc]
  have h2 : (listMove m head1 head2).Chain head2 [] := by
    rw [chain_nil, hmove]
    simp [listInit]
  refine ⟨h1, h2, fun ops hops => ?_⟩
  -- no operation names an element of an empty list
  cases ops with
  | nil => exact ⟨h1, h2⟩
  | cons op ops =>
    have hok := hops.1
    cases op with
    | remove elm => cases hok
    | insertBefore listelm elm => cases hok.1

/-- The back pointer of the first element stays where it was. -/
theorem listMove_prev {m : Links H E} {head1 head2 : H} (e : E) : (listMove m head1 head2).prev e = m.prev e := by
  rw [listMove]
  split <;> rfl

/-- **`LIST_MOVE`** does what it is to do if and only if the list is empty. -/
theorem listMove_right_iff {m : Links H E} {head1 : H} (head2 : H) {xs : List E} (hc : m.Chain head1 xs) :
    ListMoveRight m head1 head2 xs ↔ xs = [] := by
  constructor
  · rintro ⟨hempty, hmoved, -⟩
    cases xs with
    | nil => rfl
    | cons x xs =>
      exfalso
      have hprev : (Link.first head1 : Link H E) = Link.first head2 := by
        rw [← hc.seg.2.1, ← hmoved.seg.2.1, listMove_prev]
      rw [Link.first.injEq] at hprev
      subst hprev
      have hnull := chain_nil.1 hempty
      rw [hmoved.cell_first] at hnull
      cases hnull
  · rintro rfl
    exact listMove_nil hc

/-- Two heads without elements. -/
def emptyHeads : Links Nat Nat where
  cell _ := none
  prev _ := .first 0

theorem listMove_right_empty : ListMoveRight emptyHeads 0 1 [] ↔ ([] : List Nat) = [] :=
  listMove_right_iff 1 (by decide)

/-- The list of one element after `LIST_MOVE`: `LIST_REMOVE` leaves it in the new list, and `LIST_INSERT_BEFORE` puts
another one into the old list. -/
theorem listMove_wrong : (listInsertHead emptyHeads 0 7).Chain 0 [7] ∧
    ¬ ListMoveRight (listInsertHead emptyHeads 0 7) 0 1 [7] ∧
    (listRemove (listMove (listInsertHead emptyHeads 0 7) 0 1) 7).cell (.first 1) = some 7 ∧
    (listInsertBefore (listMove (listInsertHead emptyHeads 0 7) 0 1) 7 8).cell (.first 1) = some 7 ∧
    (listInsertBefore (listMove (listInsertHead emptyHeads 0 7) 0 1) 7 8).cell (.first 0) = some 8 := by
  refine ⟨by decide, fun h => ?_, by decide, by decide, by decide⟩
  have hmoved := h.2.1
  revert hmoved
  decide

/-! ## TAILQ -/

/-- Operations on a TAILQ. -/
inductive TailqOp (E : Type)
  | insertHead (elm : E)
  | insertTail (elm : E)
  | remove (elm : E)

namespace TailqOp

/-- The operation on the memory. -/
def run (m : Tailqs H E) (head : H) : TailqOp E → Tailqs H E
  | insertHead elm => tailqInsertHead m head elm
  | insertTail elm => tailqInsertTail m head elm
  | remove elm => tailqRemove m head elm

/-- What it is to make of the sequence. -/
def seq (xs : List E) : TailqOp E → List E
  | insertHead elm => elm :: xs
  | insertTail elm => xs ++ [elm]
  | remove elm => xs.erase elm

/-- A new element is inserted, one of the queue is removed. -/
def Ok (xs : List E) : TailqOp E → Prop
  | insertHead elm => elm ∉ xs
  | insertTail elm => elm ∉ xs
  | remove elm => elm ∈ xs

end TailqOp

/-- The memory and the sequence side by side, for operations through one head. -/
def tailqs (head : H) : Machine (Tailqs H E × List E) (TailqOp E) Unit where
  Ok s op := op.Ok s.2
  step s op := some ((op.run s.1 head, op.seq s.2), ())

section Tailq

variable {m : Tailqs H E} {h : H} {xs : List E}

theorem Tailq.run (hq : Tailq m h xs) {op : TailqOp E} (hok : op.Ok xs) : Tailq (op.run m h) h (op.seq xs) := by
  cases op with
  | insertHead elm => exact hq.insertHead hok
  | insertTail elm => exact hq.insertTail hok
  | remove elm =>
    obtain ⟨ys, zs, rfl, hn⟩ := exists_append hok hq.chain.nodup
    rw [TailqOp.seq, erase_append zs hn]
    exact hq.remove

/-- **Later operations** through the head of a well-formed queue act on its sequence. -/
theorem tailqs_always (hq : Tailq m h xs) {ops : List (TailqOp E)} (hops : (tailqs h).Admits (m, xs) ops) :
    (tailqs h).Always (fun s => Tailq s.1 h s.2) (m, xs) ops := by
  apply (tailqs h).always_inv (fun _ hs => hs) _ ops (m, xs) hq hops
  intro s op s' o hs hok hstep
  cases hstep
  exact hs.run hok

end Tailq

/-- What `TAILQ_MOVE` of the queue `xs` is to do: `newhead` is well formed with the same sequence, and all later
operations through it act on that sequence. -/
def TailqMoveRight (m : Tailqs H E) (newhead oldhead : H) (xs : List E) : Prop :=
  let m' := tailqMove m newhead oldhead
  Tailq m' newhead xs ∧ ∀ ops, (tailqs newhead).Admits (m', xs) ops →
    (tailqs newhead).Always (fun s => Tailq s.1 newhead s.2) (m', xs) ops

section Move

variable {m : Tailqs H E} {newhead oldhead : H} {x : E} {xs : List E}

theorem last_tailqMove : (tailqMove m newhead oldhead).last newhead = m.last oldhead := by
  rw [tailqMove]
  cases m.cell (.first oldhead) <;> exact Function.update_self ..

theorem tailqMove_cons (hq : Tailq m oldhead (x :: xs)) : Tailq (tailqMove m newhead oldhead) newhead (x :: xs) := by
  have hfirst : m.cell (.first oldhead) = some x := hq.chain.cell_first
  obtain ⟨hx, hn⟩ := List.nodup_cons.1 hq.chain.nodup
  have hcell : ∀ e, (tailqMove m newhead oldhead).cell (.next e) = m.cell (.next e) := by
    simp [tailqMove, hfirst, Tailqs.setPrev, Tailqs.store, Tailqs.setLast]
  have hprev : ∀ y ∈ xs, (tailqMove m newhead oldhead).prev y = m.prev y := by
    intro y hy
    have hne : y ≠ x := by
      rintro rfl
      exact hx hy
    simp [tailqMove, hfirst, Tailqs.setPrev, Tailqs.store, Tailqs.setLast, hne]
  refine ⟨⟨⟨?_, ?_, ?_⟩, ?_, hq.chain.nodup⟩, ?_⟩
  · simp [tailqMove, hfirst, Tailqs.setPrev, Tailqs.store, Tailqs.setLast]
  · simp [tailqMove, hfirst, Tailqs.setPrev, Tailqs.store, Tailqs.setLast]
  · exact hq.chain.seg.2.2.congr (hcell x) (fun e _ => hcell e) hprev
  · -- the end of elements is a next pointer, which the move leaves alone
    have hnull := hq.chain.null
    rw [endLink_cons] at hnull ⊢
    rcases endLink_mem (.next x) xs with rfl | ⟨y, -, he⟩
    · rw [endLink_nil] at hnull ⊢
      rw [hcell, hnull]
    · rw [he] at hnull ⊢
      rw [hcell, hnull]
  · rw [last_tailqMove, hq.last, endLink_cons, endLink_cons]

theorem tailqMove_self (hq : Tailq m oldhead []) : Tailq (tailqMove m oldhead oldhead) oldhead [] := by
  have hfirst : m.cell (.first oldhead) = none := chain_nil.1 hq.chain
  refine ⟨chain_nil.2 ?_, ?_⟩
  · simp [tailqMove, hfirst, Tailqs.store, Tailqs.setLast]
  · rw [last_tailqMove, hq.last]

/-- **`TAILQ_MOVE`** does what it is to do if and only if the queue has an element, or the heads are one. -/
theorem tailqMove_right_iff (newhead : H) (hq : Tailq m oldhead xs) :
    TailqMoveRight m newhead oldhead xs ↔ xs ≠ [] ∨ newhead = oldhead := by
  constructor
  · rintro ⟨hmoved, -⟩
    by_contra hnot
    obtain ⟨rfl, hne⟩ : xs = [] ∧ newhead ≠ oldhead := by simpa using hnot
    have hlast := hmoved.last
    rw [last_tailqMove, hq.last, endLink_nil, endLink_nil, Link.first.injEq] at hlast
    exact hne hlast.symm
  · intro h
    have hmoved : Tailq (tailqMove m newhead oldhead) newhead xs := by
      cases xs with
      | nil =>
        obtain rfl : newhead = oldhead := by simpa using h
        exact tailqMove_self hq
      | cons x xs => exact tailqMove_cons hq
    exact ⟨hmoved, fun ops hops => tailqs_always hmoved hops⟩

end Move

/-- The queue 0 of no elements. -/
def emptyQueue : Tailqs Nat Nat where
  cell _ := none
  prev _ := .first 0
  last h := .first h

/-- The queue 0 of the elements 7 and 8. -/
theorem tailqMove_right_two :
    TailqMoveRight (tailqInsertTail (tailqInsertTail emptyQueue 0 7) 0 8) 1 0 [7, 8] ↔
      ([7, 8] : List Nat) ≠ [] ∨ 1 = 0 :=
  tailqMove_right_iff 1 (by decide)

/-- The empty queue after `TAILQ_MOVE`: what is inserted at the tail of the new queue goes into the old one. -/
theorem tailqMove_wrong : Tailq emptyQueue 0 [] ∧ ¬ TailqMoveRight emptyQueue 1 0 [] ∧
    (tailqInsertTail (tailqMove emptyQueue 1 0) 1 7).cell (.first 1) = none ∧
    (tailqInsertTail (tailqMove emptyQueue 1 0) 1 7).cell (.first 0) = some 7 := by
  refine ⟨by decide, fun h => ?_, by decide, by decide⟩
  have hmoved := h.1
  revert hmoved
  decide

end Librd.Sysqueue
