import Mathlib.Data.List.Pairwise
import Mathlib.Data.List.Perm.Basic

/-!
# Ledgers of a queue

A ledger lists everything that was ever put into a queue, in order, with what became of it: still queued, delivered or
dropped, the last two with the number of the event that did it. An entry has one fate, so nothing is in two places.

* `Ledger.split_first`, `Ledger.split_last`: the entry of the first and of the last element queued;
* `Ledger.Accounts`: the ledger agrees with the queue and with the lists of what went in and came out;
* `Accounts.push`, `Accounts.deliver`, `Accounts.drop`: the ledger after a put, a get and a drop;
* `Accounts.order`: what was not dropped was delivered in the order it was put in, before what is queued.
-/

/-- What became of an element. -/
inductive Fate
  | queued
  | delivered (event : Nat)
  | dropped (event : Nat)
  deriving DecidableEq, Repr

namespace Ledger

variable {α : Type*}

/-- The elements still queued. -/
def queued (L : List (α × Fate)) : List α :=
  L.filterMap fun e => match e.2 with
    | .queued => some e.1
    | _ => none

/-- The elements delivered, each with the event that delivered it. -/
def delivered (L : List (α × Fate)) : List (Nat × α) :=
  L.filterMap fun e => match e.2 with
    | .delivered i => some (i, e.1)
    | _ => none

/-- The elements dropped, each with the event that dropped it. -/
def dropped (L : List (α × Fate)) : List (Nat × α) :=
  L.filterMap fun e => match e.2 with
    | .dropped i => some (i, e.1)
    | _ => none

/-- The elements that were not dropped. -/
def kept (L : List (α × Fate)) : List α :=
  L.filterMap fun e => match e.2 with
    | .dropped _ => none
    | _ => some e.1

/-- Nothing still queued comes before something delivered. -/
def Fifo (L : List (α × Fate)) : Prop := L.Pairwise fun a b => a.2 = .queued → ∀ i, b.2 ≠ .delivered i

section Parts

variable (x : α) (i : Nat) (L L' : List (α × Fate))

@[simp] theorem queued_nil : queued ([] : List (α × Fate)) = [] := rfl
@[simp] theorem queued_queued : queued ((x, .queued) :: L) = x :: queued L := rfl
@[simp] theorem queued_delivered : queued ((x, .delivered i) :: L) = queued L := rfl
@[simp] theorem queued_dropped : queued ((x, .dropped i) :: L) = queued L := rfl
@[simp] theorem delivered_nil : delivered ([] : List (α × Fate)) = [] := rfl
@[simp] theorem delivered_queued : delivered ((x, .queued) :: L) = delivered L := rfl
@[simp] theorem delivered_delivered : delivered ((x, .delivered i) :: L) = (i, x) :: delivered L := rfl
@[simp] theorem delivered_dropped : delivered ((x, .dropped i) :: L) = delivered L := rfl
@[simp] theorem dropped_nil : dropped ([] : List (α × Fate)) = [] := rfl
@[simp] theorem dropped_queued : dropped ((x, .queued) :: L) = dropped L := rfl
@[simp] theorem dropped_delivered : dropped ((x, .delivered i) :: L) = dropped L := rfl
@[simp] theorem dropped_dropped : dropped ((x, .dropped i) :: L) = (i, x) :: dropped L := rfl
@[simp] theorem kept_queued : kept ((x, .queued) :: L) = x :: kept L := rfl
@[simp] theorem kept_delivered : kept ((x, .delivered i) :: L) = x :: kept L := rfl
@[simp] theorem kept_dropped : kept ((x, .dropped i) :: L) = kept L := rfl

@[simp] theorem queued_append : queued (L ++ L') = queued L ++ queued L' := List.filterMap_append
@[simp] theorem delivered_append : delivered (L ++ L') = delivered L ++ delivered L' := List.filterMap_append
@[simp] theorem dropped_append : dropped (L ++ L') = dropped L ++ dropped L' := List.filterMap_append

end Parts

/-- The entry of the first element queued. -/
theorem split_first {x : α} {xs : List α} : ∀ {L : List (α × Fate)}, queued L = x :: xs →
    ∃ L₁ L₂, L = L₁ ++ (x, .queued) :: L₂ ∧ queued L₁ = [] ∧ queued L₂ = xs
  | [], h => by cases h
  | (y, .queued) :: L, h => by
    simp only [queued_queued, List.cons.injEq] at h
    exact ⟨[], L, by rw [h.1]; rfl, rfl, h.2⟩
  | (y, .delivered i) :: L, h => by
    obtain ⟨L₁, L₂, rfl, h1, h2⟩ := split_first (L := L) h
    exact ⟨(y, .delivered i) :: L₁, L₂, rfl, h1, h2⟩
  | (y, .dropped i) :: L, h => by
    obtain ⟨L₁, L₂, rfl, h1, h2⟩ := split_first (L := L) h
    exact ⟨(y, .dropped i) :: L₁, L₂, rfl, h1, h2⟩

/-- The entry of the last element queued. -/
theorem split_last {x : α} {xs : List α} : ∀ {L : List (α × Fate)}, queued L = xs ++ [x] →
    ∃ L₁ L₂, L = L₁ ++ (x, .queued) :: L₂ ∧ queued L₁ = xs ∧ queued L₂ = [] := by
  intro L
  induction L generalizing xs with
  | nil => intro h; simp at h
  | cons e L ih =>
    obtain ⟨y, f⟩ := e
    cases f with
    | queued =>
      intro h
      cases xs with
      | nil =>
        simp only [queued_queued, List.nil_append, List.cons.injEq] at h
        exact ⟨[], L, by rw [h.1]; rfl, rfl, h.2⟩
      | cons z xs =>
        simp only [queued_queued, List.cons_append, List.cons.injEq] at h
        obtain ⟨L₁, L₂, rfl, h1, h2⟩ := ih h.2
        exact ⟨(y, .queued) :: L₁, L₂, rfl, by simp [h.1, h1], h2⟩
    | delivered i =>
      intro h
      obtain ⟨L₁, L₂, rfl, h1, h2⟩ := ih h
      exact ⟨(y, .delivered i) :: L₁, L₂, rfl, h1, h2⟩
    | dropped i =>
      intro h
      obtain ⟨L₁, L₂, rfl, h1, h2⟩ := ih h
      exact ⟨(y, .dropped i) :: L₁, L₂, rfl, h1, h2⟩

/-- Nothing is delivered after something queued. -/
theorem Fifo.delivered_nil {x : α} {L : List (α × Fate)} (h : Fifo ((x, .queued) :: L)) : delivered L = [] := by
  refine List.filterMap_eq_nil_iff.2 fun e he => ?_
  have h1 := (List.pairwise_cons.1 h).1 e he rfl
  obtain ⟨y, f⟩ := e
  cases f with
  | queued => rfl
  | delivered i => exact absurd rfl (h1 i)
  | dropped i => rfl

/-- **FIFO order**: what was kept is what was delivered, in this order, and then what is queued. -/
theorem Fifo.kept_eq : ∀ {L : List (α × Fate)}, Fifo L → kept L = (delivered L).map Prod.snd ++ queued L
  | [], _ => rfl
  | (x, .queued) :: L, h => by
    have h1 := h.delivered_nil
    have h2 := kept_eq (List.Pairwise.of_cons h)
    rw [h1] at h2
    simp [h1, h2]
  | (x, .delivered i) :: L, h => by simp [kept_eq (List.Pairwise.of_cons h)]
  | (x, .dropped i) :: L, h => by simp [kept_eq (List.Pairwise.of_cons h)]

/-- The ledger `L` agrees with what was put in, what is queued, and the events that delivered and dropped. -/
structure Accounts (L : List (α × Fate)) (puts queue : List α) (gets drops : List (Nat × α)) : Prop where
  puts_eq : L.map Prod.fst = puts
  queue_eq : queued L = queue
  gets_eq : delivered L = gets
  drops_perm : (dropped L).Perm drops
  fifo : Fifo L

namespace Accounts

variable {L : List (α × Fate)} {puts queue : List α} {gets drops : List (Nat × α)}

theorem nil : Accounts ([] : List (α × Fate)) [] [] [] [] := ⟨rfl, rfl, rfl, .rfl, .nil⟩

theorem order (h : Accounts L puts queue gets drops) : kept L = gets.map Prod.snd ++ queue := by
  rw [h.fifo.kept_eq, h.gets_eq, h.queue_eq]

theorem push (h : Accounts L puts queue gets drops) (x : α) :
    Accounts (L ++ [(x, .queued)]) (puts ++ [x]) (queue ++ [x]) gets drops where
  puts_eq := by simp [h.puts_eq]
  queue_eq := by simp [h.queue_eq]
  gets_eq := by simp [h.gets_eq]
  drops_perm := by simpa using h.drops_perm
  fifo := List.pairwise_append.2 ⟨h.fifo, List.pairwise_singleton .., by simp⟩

theorem deliver {x : α} (h : Accounts L puts (x :: queue) gets drops) (i : Nat) :
    ∃ L', Accounts L' puts queue (gets ++ [(i, x)]) drops := by
  obtain ⟨L₁, L₂, rfl, h1, h2⟩ := split_first h.queue_eq
  have hf := List.pairwise_append.1 h.fifo
  have hd : delivered L₂ = [] := Fifo.delivered_nil hf.2.1
  refine ⟨L₁ ++ (x, .delivered i) :: L₂, ?_, ?_, ?_, ?_, ?_⟩
  · simpa using h.puts_eq
  · simp [h1, h2]
  · have := h.gets_eq
    simp only [delivered_append, delivered_queued, hd, List.append_nil] at this
    simp [hd, this]
  · simpa using h.drops_perm
  · refine List.pairwise_append.2 ⟨hf.1, List.pairwise_cons.2 ⟨by simp, hf.2.1.of_cons⟩, ?_⟩
    intro a ha b _ hq
    have : a.1 ∈ queued L₁ := List.mem_filterMap.2 ⟨a, ha, by rw [hq]⟩
    rw [h1] at this
    cases this

/-- Dropping an element anywhere in the queue. -/
theorem drop_split {L₁ L₂ : List (α × Fate)} {x : α} (h : Accounts (L₁ ++ (x, .queued) :: L₂) puts queue gets drops)
    (i : Nat) : Accounts (L₁ ++ (x, .dropped i) :: L₂) puts (queued L₁ ++ queued L₂) gets ((i, x) :: drops) where
  puts_eq := by simpa using h.puts_eq
  queue_eq := by simp
  gets_eq := by simpa using h.gets_eq
  drops_perm := by
    have := h.drops_perm
    simp only [dropped_append, dropped_queued, dropped_dropped] at this ⊢
    exact List.perm_middle.trans (this.cons _)
  fifo := by
    have hf := List.pairwise_append.1 h.fifo
    have hc := List.pairwise_cons.1 hf.2.1
    refine List.pairwise_append.2 ⟨hf.1, List.pairwise_cons.2 ⟨by simp, hc.2⟩, ?_⟩
    intro a ha b hb hq
    rcases List.mem_cons.1 hb with rfl | hb
    · simp
    · exact hf.2.2 a ha b (List.mem_cons_of_mem _ hb) hq

theorem drop_first {x : α} (h : Accounts L puts (x :: queue) gets drops) (i : Nat) :
    ∃ L', Accounts L' puts queue gets ((i, x) :: drops) := by
  obtain ⟨L₁, L₂, rfl, h1, h2⟩ := split_first h.queue_eq
  have h3 := h.drop_split i
  rw [h1, h2] at h3
  exact ⟨_, h3⟩

theorem drop_last {x : α} (h : Accounts L puts (queue ++ [x]) gets drops) (i : Nat) :
    ∃ L', Accounts L' puts queue gets ((i, x) :: drops) := by
  obtain ⟨L₁, L₂, rfl, h1, h2⟩ := split_last h.queue_eq
  have h3 := h.drop_split i
  rw [h1, h2, List.append_nil] at h3
  exact ⟨_, h3⟩

end Accounts

end Ledger
