import Librd.Mem.Counters

/-!
# Memory contexts: allocations that fail

`rd_memctx_alloc` does not look at what `malloc` or `calloc` returns. With `RD_MEMCTX_F_TRACK` the new `rd_memctx_ptr_t`
is written through the NULL pointer; without it NULL is returned, but the counters go up as if it had not been
(`alloc_failed`). So a context is as it should be after each failure only if there is none (`failed_clean_iff`).
-/

namespace Librd.Mem

/-- `malloc` or `calloc` returns NULL. -/
def Op.Fails : Op → Prop
  | .alloc _ _ res => res = none
  | .free _ => False
  | .freesz _ _ => False
  | .freeall => False

instance : (op : Op) → Decidable op.Fails
  | .alloc _ _ res => inferInstanceAs (Decidable (res = none))
  | .free _ => .isFalse id
  | .freesz _ _ => .isFalse id
  | .freeall => .isFalse id

/-- An allocation that fails returns NULL, and the counters and the list are what they were. -/
def Clean (s : State) (op : Op) : Prop := op.Fails → ∃ s', step s op = some (s', .ptr none) ∧ s'.rmc = s.rmc

/-- **A failure**: a NULL pointer is followed, or the allocation is counted. -/
theorem alloc_failed (s : State) (size : Nat) (type : AllocType) : step s (.alloc size type none) =
    if s.rmc.track then none
    else some ({ s with rmc := { s.rmc with out := (s.rmc.out + 1) % 2 ^ 32
                                            bytesOut := (s.rmc.bytesOut + size) % 2 ^ 64 } }, .ptr none) := by
  cases ht : s.rmc.track with
  | true => simp [step, alloc, ptrNew, ht]
  | false => simp [step, alloc, alloc0, ht]

/-- An allocation that is counted is not one less, nor the same. -/
theorem count_ne (out : Nat) : (out + 1) % 2 ^ 32 ≠ out := by omega

/-- **One call** that fails is not clean. -/
theorem clean_iff (s : State) (op : Op) : Clean s op ↔ ¬op.Fails := by
  refine ⟨fun hclean hfails => ?_, fun hnot hfails => absurd hfails hnot⟩
  obtain ⟨s', hstep, hrmc⟩ := hclean hfails
  cases op with
  | alloc size type res =>
    obtain rfl : res = none := hfails
    rw [alloc_failed] at hstep
    split at hstep
    · cases hstep
    · cases hstep
      exact count_ne s.rmc.out (congrArg Rmc.out hrmc)
  | free ptr => exact hfails
  | freesz ptr size => exact hfails
  | freeall => exact hfails

/-- **Failures.** For every context, tracked or not, each allocation of a run that fails returns NULL and leaves the
context as it was if and only if none fails. -/
theorem failed_clean_iff (s : State) (ops : List Op) :
    machine.Each Clean s ops ↔ machine.Each (fun _ op => ¬op.Fails) s ops :=
  Machine.each_iff (I := fun _ => True) (C := fun _ _ => True) (fun s op _ _ => clean_iff s op)
    (fun _ _ _ _ _ _ _ => trivial) ops trivial (Machine.each_of_forall fun _ _ => trivial)

/-- A context with `RD_MEMCTX_F_TRACK` and one without. -/
theorem failed_not_clean : machine.run (start true) [.alloc 8 .malloc none] = none ∧
    ¬machine.Each Clean (start true) [.alloc 8 .malloc none] ∧
    (∃ s, machine.run (start false) [.alloc 8 .malloc none] = some (s, [.ptr none]) ∧ s.rmc.out = 1 ∧
      s.rmc.bytesOut = 8) ∧ ¬machine.Each Clean (start false) [.alloc 8 .malloc none] := by
  refine ⟨rfl, ?_, ⟨_, rfl, rfl, rfl⟩, ?_⟩
  · intro hclean
    exact (clean_iff _ _).1 hclean.1 rfl
  · intro hclean
    exact (clean_iff _ _).1 hclean.1 rfl

end Librd.Mem
