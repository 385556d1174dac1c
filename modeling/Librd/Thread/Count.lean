import Librd.Thread.Thread
import Mathlib.Data.List.Basic

/-!
# Threads: what `rd_threads_create` returns

The loop counts the calls of `rd_thread_create` that return 0, which are those that made a thread, and takes them for
failures (`createLoop_eq`). So the number of failures is returned, and -1 if there was none; this is the number of
threads only if there are as many of the one kind as of the other (`threadsCreate_right_iff`).
-/

namespace Librd.Thread

/-- The name of a thread. -/
def nameOf ( nameprefix : Text) (i : Nat) : Text := nameprefix ++ (toString i).toList

/-- How many of `left` calls, from the `i`-th on, make a thread. -/
def made ( nameprefix : Text) (create : Nat → Text → Int) (left i : Nat) : Nat :=
  (List.range' i left).countP fun j => create j (nameOf nameprefix j) = 0

/-- The number of threads that were made, or -1 if none was and one was asked for. -/
def Counts (threadcount : Int) (made : Nat) (ret : Option Int) : Prop :=
  ∃ n, ret = some n ∧ (0 < made → n = made) ∧ (0 < threadcount → made = 0 → n = -1)

section Loop

variable { nameprefix : Text} {create : Nat → Text → Int}

/-- The names of 1000 threads fit. -/
theorem sprintfName_eq {i : Nat} (h : i < 1000) : sprintfName nameprefix i = some (nameOf nameprefix i) := by
  have hlen : (toString i).toList.length ≤ 3 := by
    rw [String.length_toList]
    exact (Nat.length_repr_le_iff (by decide)).2 h
  rw [sprintfName, nameOf, if_pos]
  rw [List.length_append]
  omega

theorem made_le (left i : Nat) : made nameprefix create left i ≤ left := by
  have hle := List.countP_le_length (p := fun j => decide (create j (nameOf nameprefix j) = 0))
    (l := List.range' i left)
  rwa [List.length_range'] at hle

/-- **The loop** counts the threads that are made. -/
theorem createLoop_eq (left i : Nat) (failed : Int) (h : i + left ≤ 1000) :
    createLoop nameprefix create left i failed = some (failed + made nameprefix create left i) := by
  induction left generalizing i failed with
  | zero => simp [createLoop, made]
  | succ left ih =>
    rw [createLoop, sprintfName_eq (by omega)]
    simp only [Option.bind_eq_bind, Option.bind_some]
    rw [ih (i + 1) _ (by omega), made, made, List.range'_succ, List.countP_cons]
    by_cases hmade : create i (nameOf nameprefix i) = 0
    · simp only [hmade, if_true, decide_true]
      push_cast
      rw [Int.add_right_comm, Int.add_assoc]
    · simp only [hmade, if_false, decide_false, Bool.false_eq_true, Nat.add_zero]

end Loop

/-- **Counting.** For fewer than 1000 threads, the result is the number of threads that were made, or -1 for none, if
and only if no thread was asked for or exactly half of the calls made one. -/
theorem threadsCreate_right_iff ( nameprefix : Text) {threadcount : Int} (h : threadcount < 1000)
    (create : Nat → Text → Int) :
    Counts threadcount (made nameprefix create threadcount.toNat 0) (threadsCreate nameprefix threadcount create) ↔
      threadcount ≤ 0 ∨ 2 * (made nameprefix create threadcount.toNat 0 : Int) = threadcount := by
  have hle := @made_le nameprefix create threadcount.toNat 0
  have hloop := @createLoop_eq nameprefix create threadcount.toNat 0 0 (by omega)
  obtain ⟨k, hk⟩ : ∃ k, k = made nameprefix create threadcount.toNat 0 := ⟨_, rfl⟩
  rw [← hk] at hle hloop ⊢
  have hret : threadsCreate nameprefix threadcount create =
      some (if (k : Int) = threadcount then -1 else threadcount - k) := by
    rw [threadsCreate, if_neg (by omega), hloop, Int.zero_add]
    simp only [Option.bind_eq_bind, Option.bind_some]
    split <;> rfl
  rw [hret]
  constructor
  · rintro ⟨n, hn, hmade, hnone⟩
    rw [Option.some.injEq] at hn
    rcases Nat.eq_zero_or_pos k with h0 | hpos
    · by_contra hnot
      have hneg := hnone (by omega) h0
      rw [← hn] at hneg
      split at hneg <;> omega
    · have heq := hmade hpos
      rw [← hn] at heq
      split at heq <;> omega
  · intro hhalf
    refine ⟨_, rfl, fun hpos => ?_, fun hcount h0 => ?_⟩
    · split <;> omega
    · omega

/-- Two threads, the second of which cannot be made. -/
theorem threadsCreate_right_two : Counts 2 (made ['w'] (fun i _ => if i = 0 then 0 else -1) 2 0)
    (threadsCreate ['w'] 2 fun i _ => if i = 0 then 0 else -1) :=
  (threadsCreate_right_iff ['w'] (by decide) fun i _ => if i = 0 then 0 else -1).2 (by decide)

/-- Two threads that are both made: the result is -1. And of two that are not, 2. -/
theorem threadsCreate_wrong : (threadsCreate ['w'] 2 (fun _ _ => 0) = some (-1) ∧
      ¬Counts 2 (made ['w'] (fun _ _ => 0) 2 0) (threadsCreate ['w'] 2 fun _ _ => 0)) ∧
    threadsCreate ['w'] 2 (fun _ _ => -1) = some 2 := by
  refine ⟨⟨by decide, ?_⟩, by decide⟩
  rintro ⟨n, hn, hmade, -⟩
  have hret : threadsCreate ['w'] 2 (fun _ _ => 0) = some (-1) := by decide
  have htwo := hmade (by decide)
  rw [hret, Option.some.injEq] at hn
  rw [← hn] at htwo
  exact absurd htwo (by decide)

end Librd.Thread
