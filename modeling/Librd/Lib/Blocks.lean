import Mathlib.Data.List.Perm.Basic
import Mathlib.Logic.Function.Basic

/-!
# Blocks with one owner, and lanes

A heap *holds the blocks of* a list if exactly the addresses in the list are allocated, and each stands in it once
(`Blocks`). The list says who owns what: it is put together from the lists of the owners, and a block that goes from one
owner to another permutes it.

* `Blocks.alloc`, `Blocks.free`: a block that is allocated or freed;
* `Blocks.perm`: a block that changes hands.

Several senders put their entries in one list. The *lane* of a sender is what the list has of its entries, in order.
-/

/-- Exactly the addresses in the list are allocated, and each stands in it once. -/
structure Blocks {α β : Type*} (heap : α → Option β) (owned : List α) : Prop where
  nodup : owned.Nodup
  mem_iff : ∀ a, a ∈ owned ↔ heap a ≠ none

namespace Blocks

variable {α β : Type*} {heap : α → Option β} {owned owned' : List α} {a : α}

theorem empty : Blocks (fun _ : α => (none : Option β)) [] := ⟨.nil, by simp⟩

theorem not_mem (h : Blocks heap owned) (ha : heap a = none) : a ∉ owned := fun hm => (h.mem_iff a).1 hm ha

theorem perm (h : Blocks heap owned) (hp : owned.Perm owned') : Blocks heap owned' :=
  ⟨hp.nodup_iff.1 h.nodup, fun a => hp.mem_iff.symm.trans (h.mem_iff a)⟩

theorem alloc [DecidableEq α] (h : Blocks heap owned) (ha : heap a = none) (b : β) :
    Blocks (Function.update heap a (some b)) (a :: owned) := by
  refine ⟨List.nodup_cons.2 ⟨h.not_mem ha, h.nodup⟩, fun c => ?_⟩
  by_cases hc : c = a
  · subst hc
    simp
  · rw [Function.update_of_ne hc, List.mem_cons, or_iff_right hc]
    exact h.mem_iff c

theorem free [DecidableEq α] (h : Blocks heap (a :: owned)) : Blocks (Function.update heap a none) owned := by
  obtain ⟨ha, hnodup⟩ := List.nodup_cons.1 h.nodup
  refine ⟨hnodup, fun c => ?_⟩
  by_cases hc : c = a
  · subst hc
    simp [ha]
  · rw [Function.update_of_ne hc, ← h.mem_iff c, List.mem_cons, or_iff_right hc]

end Blocks

section Lanes

variable {π α : Type*} [DecidableEq π]

/-- The entries of one sender, in order. -/
def lane (p : π) (entries : List (π × α)) : List α := (entries.filter fun e => e.1 = p).map Prod.snd

@[simp] theorem lane_nil (p : π) : lane p ([] : List (π × α)) = [] := rfl

theorem lane_append (p : π) (xs ys : List (π × α)) : lane p (xs ++ ys) = lane p xs ++ lane p ys := by
  simp [lane]

theorem lane_cons_self (p : π) (x : α) (xs : List (π × α)) : lane p ((p, x) :: xs) = x :: lane p xs := by
  simp [lane]

theorem lane_cons_of_ne {p : π} {e : π × α} (h : e.1 ≠ p) (xs : List (π × α)) : lane p (e :: xs) = lane p xs := by
  simp [lane, h]

/-- A sender without entries. -/
theorem lane_eq_nil {p : π} {xs : List (π × α)} (h : p ∉ xs.map Prod.fst) : lane p xs = [] := by
  refine List.map_eq_nil_iff.2 (List.filter_eq_nil_iff.2 fun e he hp => h ?_)
  exact List.mem_map.2 ⟨e, he, by simpa using hp⟩

/-- The first entry of its sender, taken out. -/
theorem lane_middle (p : π) {xs ys : List (π × α)} {e : π × α} (h : e.1 ∉ xs.map Prod.fst) :
    lane p (xs ++ e :: ys) = lane p [e] ++ lane p (xs ++ ys) := by
  rw [lane_append, lane_append]
  by_cases hp : e.1 = p
  · subst hp
    rw [lane_eq_nil h, lane_cons_self, lane_cons_self]
    rfl
  · rw [lane_cons_of_ne hp, lane_cons_of_ne hp]
    rfl

end Lanes
