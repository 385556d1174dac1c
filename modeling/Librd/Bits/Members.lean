import Librd.Lib.Machine
import Librd.Bits.Bitvec

/-!
# The members of a bit vector

What a bit vector is for: a set of numbers up to `rbv_max`. Every sequence of `rd_bitvec_set` and `rd_bitvec_reset`
after `rd_bitvec_init` leaves the numbers in range whose last operation was a set, a call with a number out of range
fails and changes nothing, and no call affects another number (`run_members`). The words hold no bit above `rbv_max`
(`Reached.holds`), which the scans of `rd_bitvec_fxs` rely on.
-/

namespace Librd.Bits

/-! ## Calls -/

/-- The calls that change a vector. -/
inductive Call
  | set (i : Nat)
  | reset (i : Nat)
  deriving DecidableEq, Repr

/-- The number a call is about. -/
def Call.index : Call → Nat
  | set i => i
  | reset i => i

/-- The `rd_bitvec_op_t` of a call. -/
def Call.op : Call → BitvecOp
  | set _ => .set
  | reset _ => .reset

/-- `rd_bitvec_set` and `rd_bitvec_reset` one after another, with their results. -/
def machine : Machine Bitvec Call Int where
  Ok _ _ := True
  step rbv c := some ((bitvecOp rbv c.index c.op).2, (bitvecOp rbv c.index c.op).1)

/-- `rbv` is what the calls `calls` after `rd_bitvec_init` leave. -/
def Reached (maxVal : Nat) (calls : List Call) (rbv : Bitvec) (outs : List Int) : Prop :=
  ∃ rbv₀, bitvecInit maxVal = some rbv₀ ∧ machine.run rbv₀ calls = some (rbv, outs)

/-- The last of the calls that are about `i`. -/
def lastOn (calls : List Call) (i : Nat) : Option Call := (calls.filter fun c => c.index = i).getLast?

theorem lastOn_snoc_self (calls : List Call) (c : Call) : lastOn (calls ++ [c]) c.index = some c := by
  simp [lastOn, List.filter_append]

theorem lastOn_snoc_of_ne (calls : List Call) {c : Call} {i : Nat} (h : c.index ≠ i) :
    lastOn (calls ++ [c]) i = lastOn calls i := by
  simp [lastOn, List.filter_append, h]

/-! ## One call -/

theorem max_op (rbv : Bitvec) (i : Nat) (op : BitvecOp) : (bitvecOp rbv i op).2.max = rbv.max := by
  unfold bitvecOp
  split
  · rfl
  · cases op <;> rfl

/-- A call out of range fails and changes nothing. -/
theorem op_out {rbv : Bitvec} {c : Call} (h : rbv.max < c.index) : bitvecOp rbv c.index c.op = (-1, rbv) := by
  cases c <;> simp [bitvecOp, Call.op, h]

theorem op_result {rbv : Bitvec} {c : Call} (h : c.index ≤ rbv.max) : (bitvecOp rbv c.index c.op).1 = 0 := by
  unfold bitvecOp
  rw [if_neg (Nat.not_lt.2 h)]
  cases c <;> rfl

theorem bit_op_self {rbv : Bitvec} {c : Call} (h : c.index ≤ rbv.max) :
    Bit (bitvecOp rbv c.index c.op).2 c.index ↔ c = .set c.index := by
  cases c with
  | set i => exact (bit_set h).trans (by simp [Call.index])
  | reset i => exact (bit_reset h).trans (by simp [Call.index])

/-- No call affects the bit of another number. -/
theorem bit_op_of_ne {rbv : Bitvec} {c : Call} {j : Nat} (hj : j ≠ c.index) :
    Bit (bitvecOp rbv c.index c.op).2 j ↔ Bit rbv j := by
  rcases Nat.lt_or_ge rbv.max c.index with hout | hin
  · rw [op_out hout]
  · cases c with
    | set i => exact (bit_set hin).trans (or_iff_right hj)
    | reset i => exact (bit_reset hin).trans (and_iff_right hj)

/-- The result of `rd_bitvec_test` only depends on the range and the bit. -/
theorem test_congr {rbv rbv' : Bitvec} {i : Nat} (hmax : rbv'.max = rbv.max) (hbit : Bit rbv' i ↔ Bit rbv i) :
    bitvecTest rbv' i = bitvecTest rbv i := by
  have hword : (rbv'.b.getD (i / 32) 0).getLsbD (i % 32) = (rbv.b.getD (i / 32) 0).getLsbD (i % 32) :=
    Bool.eq_iff_iff.2 hbit
  simp only [bitvecTest, bitvecOp, hmax, bitOf_eq, BitVec.and_twoPow, hword]
  split <;> rfl

/-! ## Runs -/

/-- The words hold exactly the numbers in range whose last call was a set. -/
structure Holds (n : Nat) (rbv : Bitvec) (calls : List Call) : Prop where
  max : rbv.max = n
  bit : ∀ i, Bit rbv i ↔ i ≤ n ∧ lastOn calls i = some (.set i)

theorem init_holds {n : Nat} {rbv : Bitvec} (h : bitvecInit n = some rbv) : Holds n rbv [] := by
  refine ⟨?_, fun i => iff_of_false (not_bit_init h) (by simp [lastOn])⟩
  unfold bitvecInit at h
  split at h
  · cases h
    rfl
  · cases h

theorem step_holds {n : Nat} {rbv : Bitvec} {calls : List Call} (c : Call) (h : Holds n rbv calls) :
    Holds n (bitvecOp rbv c.index c.op).2 (calls ++ [c]) := by
  refine ⟨(max_op rbv _ _).trans h.max, fun j => ?_⟩
  by_cases hj : j = c.index
  · rw [hj, lastOn_snoc_self]
    rcases Nat.lt_or_ge rbv.max c.index with hout | hin
    · have hn : ¬ c.index ≤ n := by
        rw [← h.max]
        exact Nat.not_le.2 hout
      rw [op_out hout, h.bit]
      simp [hn]
    · rw [bit_op_self hin, ← h.max]
      simp [hin]
  · rw [bit_op_of_ne hj, h.bit, lastOn_snoc_of_ne calls (Ne.symm hj)]

theorem Reached.holds {n : Nat} {calls : List Call} {rbv : Bitvec} {outs : List Int} (h : Reached n calls rbv outs) :
    Holds n rbv calls := by
  obtain ⟨rbv₀, hinit, hrun⟩ := h
  have hlen := Machine.run_length hrun
  have hkeep := Machine.run_keeps (I := fun s hist => Holds n s (hist.map Prod.fst)) (Q := fun _ _ => True)
    (fun s hist c s' o hs _ hstep => by
      obtain ⟨rfl, rfl⟩ : _ = s' ∧ _ = o := by simpa [machine] using hstep
      simpa using step_holds c hs) [] (init_holds hinit) (Machine.each_of_forall fun _ _ => trivial) hrun
  rwa [List.nil_append, List.map_fst_zip (Nat.le_of_eq hlen.symm)] at hkeep

theorem Holds.mem_iff {n : Nat} {rbv : Bitvec} {calls : List Call} (h : Holds n rbv calls) {i : Nat} :
    Mem rbv i ↔ Bit rbv i := by
  refine ⟨And.right, fun hbit => ⟨?_, hbit⟩⟩
  rw [h.max]
  exact ((h.bit i).1 hbit).1

/-- What one call does: its result, nothing at all when its number is out of range, and nothing to other numbers. -/
def CallDone (n : Nat) (rbv : Bitvec) (c : Call) (out : Int) (rbv' : Bitvec) : Prop :=
  (n < c.index → out = -1 ∧ rbv' = rbv) ∧ (c.index ≤ n → out = 0) ∧
    ∀ j, j ≠ c.index → bitvecTest rbv' j = bitvecTest rbv j

theorem step_callDone {n : Nat} {rbv : Bitvec} (hmax : rbv.max = n) (c : Call) :
    CallDone n rbv c (bitvecOp rbv c.index c.op).1 (bitvecOp rbv c.index c.op).2 := by
  subst hmax
  refine ⟨fun h => ?_, op_result, fun j hj => test_congr (max_op rbv _ _) (bit_op_of_ne hj)⟩
  rw [op_out h]
  exact ⟨rfl, rfl⟩

/-- **A bit vector is a set**: after any calls of `rd_bitvec_set` and `rd_bitvec_reset`, with any numbers,
`rd_bitvec_test` finds the numbers in range whose last call was a set; every call out of range returned -1 and changed
nothing, and no call affected another number. -/
theorem run_members (n : Nat) (hn : n ≤ 4096) (calls : List Call) :
    ∃ rbv₀ rbv outs, bitvecInit n = some rbv₀ ∧ machine.run rbv₀ calls = some (rbv, outs) ∧
      (∀ i, bitvecTest rbv i ≠ 0 ↔ i ≤ n ∧ lastOn calls i = some (.set i)) ∧
      machine.Steps (CallDone n) rbv₀ calls := by
  have hinit : bitvecInit n = some ⟨n, List.replicate (1 + n / 32) 0, List.length_replicate⟩ := if_pos hn
  obtain ⟨rbv, outs, hrun, -⟩ := Machine.run_inv (M := machine) (I := fun _ => True)
    (fun s c _ _ => ⟨_, _, rfl, trivial⟩) calls (s := ⟨n, List.replicate (1 + n / 32) 0, List.length_replicate⟩) trivial
    (Machine.each_of_forall fun _ _ => trivial)
  have hholds : Holds n rbv calls := Reached.holds ⟨_, hinit, hrun⟩
  refine ⟨_, rbv, outs, hinit, hrun, fun i => ?_, ?_⟩
  · rw [test_ne_zero, hholds.mem_iff, hholds.bit]
  · apply (Machine.steps_iff_each (I := fun s => s.max = n) (C := fun _ _ => True) (Q := fun _ _ => True)
      (fun s c hs _ _ => ⟨_, _, rfl, step_callDone hs c, (max_op s _ _).trans hs⟩)
      (fun _ _ _ _ _ _ h => absurd trivial h) calls _ (init_holds hinit).max
      (Machine.each_of_forall fun _ _ => trivial)).2
    exact Machine.each_of_forall fun _ _ => trivial

/-- Bit 31 of a word, the last number of a partial word and numbers out of range. -/
theorem run_members_sample : (40 : Nat) ≤ 4096 ∧
    ∃ rbv₀ rbv outs, bitvecInit 40 = some rbv₀ ∧
      machine.run rbv₀ [.set 31, .set 40, .set 41, .reset 40, .set 18446744073709551615] = some (rbv, outs) ∧
      bitvecTest rbv 31 ≠ 0 ∧ bitvecTest rbv 40 = 0 ∧ bitvecTest rbv 41 = 0 := by
  obtain ⟨rbv₀, rbv, outs, hinit, hrun, htest, -⟩ :=
    run_members 40 (by decide) [.set 31, .set 40, .set 41, .reset 40, .set 18446744073709551615]
  refine ⟨by decide, rbv₀, rbv, outs, hinit, hrun, (htest 31).2 (by decide), ?_, ?_⟩
  · by_contra h
    exact absurd ((htest 40).1 h) (by decide)
  · by_contra h
    exact absurd ((htest 41).1 h) (by decide)

end Librd.Bits
