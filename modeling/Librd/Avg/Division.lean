import Librd.Avg.Avg

/-!
# Averages: divisions and indexes

`rd_avg_new_rate` checks the number of periods but takes any duration, and `rd_avg_roll` divides by it. Indexes come
from the ring: the current one, the one before it and the next one are periods of it (`indexOf_valid`). So a run of
calls has a fault exactly if the duration is 0 and a value is put (`no_fault_iff`): the end of a period is its start
then, and the put divides by 0 to count the periods that it missed.
-/

namespace Librd.Avg

/-- The clock reading of a call. -/
def Op.clock : Op → UInt64
  | .start now => now
  | .put _ now => now
  | .avg _ clock => clock

/-- A query is of `RD_AVG_CURR` or `RD_AVG_PREV`. -/
def Op.Relative : Op → Prop
  | .avg period _ => period = -1 ∨ period = -2
  | _ => True

/-- `rd_avg_put`. -/
def Op.Puts : Op → Prop
  | .put _ _ => True
  | _ => False

instance : (op : Op) → Decidable op.Relative
  | .avg period _ => inferInstanceAs (Decidable (period = -1 ∨ period = -2))
  | .start _ => .isTrue trivial
  | .put _ _ => .isTrue trivial

instance : (op : Op) → Decidable op.Puts
  | .put _ _ => .isTrue trivial
  | .start _ => .isFalse id
  | .avg _ _ => .isFalse id

/-- A rate that was started. -/
structure Running (ra : State) : Prop where
  ring : Ring ra
  rate : ra.type = .rate
  curr : ra.curr = some ra.curri

section Calls

variable {ra : State} {val now : UInt64}

theorem openNext_running (hring : Ring ra) (hrate : ra.type = .rate) (now : UInt64) : Running (openNext ra now) :=
  ⟨openNext_ring hring now, hrate, rfl⟩

theorem Running.set (h : Running ra) (i : Nat) (p : Period) : Running { ra with period := ra.period.set i p } :=
  ⟨h.ring.set i p, h.rate, h.curr⟩

/-- `rd_avg_start`. -/
theorem Running.start (h : Running ra) (now : UInt64) :
    step ra (.start now) = some (openNext ra now, none) ∧ Running (openNext ra now) := by
  refine ⟨?_, openNext_running h.ring h.rate now⟩
  rw [step, avgStart, periodNext_eq h.ring]
  rfl

/-- **A query** of the current or the previous period: its index is in the ring. -/
theorem Running.avg (h : Running ra) {period : Int} (hp : period = -1 ∨ period = -2) (clock : UInt64) :
    ∃ i p res, step ra (.avg period clock) = some ({ ra with period := ra.period.set i p }, some res) := by
  obtain ⟨h0, hlt⟩ := indexOf_valid h.ring (hp.imp_right .inl)
  have hin : (indexOf ra period).toNat < ra.period.length := by
    rw [h.ring.length_eq]
    omega
  refine ⟨(indexOf ra period).toNat, ?_⟩
  simp only [step, rdAvg, h0, List.getElem?_eq_getElem hin]
  exact ⟨_, _, rfl⟩

theorem Running.putCurrent (h : Running ra) (val now : UInt64) :
    ∃ i p, putCurrent ra val now = some { ra with period := ra.period.set i p } := by
  obtain ⟨p, hp⟩ := h.ring.exists_current
  refine ⟨ra.curri, { record p val now with cnt := (record p val now).cnt + val }, ?_⟩
  simp [Avg.putCurrent, h.curr, hp, h.rate]

/-- **A put** with a duration other than 0. -/
theorem Running.put (h : Running ra) (hw : width ra ≠ 0) (val now : UInt64) :
    ∃ ra' o, step ra (.put val now) = some (ra', o) ∧ Running ra' ∧ width ra' = width ra := by
  obtain ⟨p, hp⟩ := h.ring.exists_current
  rw [step, put_eq h.ring hw h.curr hp]
  by_cases hend : ra.stop ≤ now
  · have hnext := openNext_running (h.ring.set ra.curri (closePeriod ra p now)) h.rate now
    obtain ⟨i, q, hput⟩ := hnext.putCurrent val now
    rw [if_pos hend, hput]
    exact ⟨_, _, rfl, hnext.set i q, rfl⟩
  · obtain ⟨i, q, hput⟩ := h.putCurrent val now
    rw [if_neg hend, hput]
    exact ⟨_, _, rfl, h.set i q, rfl⟩

/-- A put at or after the end of the period divides by the duration. -/
theorem put_of_width (hw : width ra = 0) (hend : ra.stop ≤ now) : step ra (.put val now) = none := by
  rw [step, put, if_pos hend, roll_of_width hw]
  rfl

/-- **A call** does not fault, except for a put with a duration of 0. -/
theorem Running.step (h : Running ra) {op : Op} (hrel : op.Relative) (hsafe : width ra ≠ 0 ∨ ¬op.Puts) :
    ∃ ra' o, Avg.step ra op = some (ra', o) ∧ Running ra' ∧ width ra' = width ra := by
  cases op with
  | start now => exact ⟨_, _, (h.start now).1, (h.start now).2, rfl⟩
  | put val now => exact h.put (hsafe.resolve_right fun hnot => hnot trivial) val now
  | avg period clock =>
    obtain ⟨i, p, res, hstep⟩ := h.avg hrel clock
    exact ⟨_, _, hstep, h.set i p, rfl⟩

end Calls

section Runs

variable {ra : State}

/-- **Runs** without a put, or with a duration other than 0. -/
theorem run_of_safe {ops : List Op} (h : Running ra) (hrel : ∀ op ∈ ops, op.Relative)
    (hsafe : width ra ≠ 0 ∨ ∀ op ∈ ops, ¬op.Puts) : ∃ s outs, machine.run ra ops = some (s, outs) := by
  have hcall : ∀ op ∈ ops, op.Relative ∧ (width ra ≠ 0 ∨ ¬op.Puts) := fun op hop =>
    ⟨hrel op hop, hsafe.imp_right fun hno => hno op hop⟩
  obtain ⟨s, outs, hrun, -⟩ := Machine.run_hist (M := machine) (I := fun s _ => Running s ∧ width s = width ra)
    (Q := fun _ op => op.Relative ∧ (width ra ≠ 0 ∨ ¬op.Puts)) (fun s _ op hI hQ => by
      obtain ⟨hrun, hw⟩ := hI
      obtain ⟨s', o, hstep, hrun', hw'⟩ := hrun.step hQ.1 (hw ▸ hQ.2)
      exact ⟨s', o, hstep, hrun', hw'.trans hw⟩) ops ra [] ⟨h, rfl⟩ (Machine.each_of_forall hcall)
  exact ⟨s, outs, hrun⟩

/-- **Runs** with a put and a duration of 0, where the periods end when they start. -/
theorem run_of_put {ops : List Op} (h : Running ra) (hw : width ra = 0) (hrel : ∀ op ∈ ops, op.Relative)
    (hdue : ∀ op ∈ ops, ra.stop ≤ op.clock) (hclock : (ops.map Op.clock).Pairwise (· ≤ ·))
    (hput : ∃ op ∈ ops, op.Puts) : machine.run ra ops = none := by
  induction ops generalizing ra with
  | nil => exact absurd hput (by simp)
  | cons op ops ih =>
    obtain ⟨hrel, hrels⟩ := List.forall_mem_cons.1 hrel
    obtain ⟨hdue, hdues⟩ := List.forall_mem_cons.1 hdue
    rw [List.map_cons, List.pairwise_cons] at hclock
    obtain ⟨hlater, hclock⟩ := hclock
    cases op with
    | put val now =>
      have hstep : machine.step ra (.put val now) = none := put_of_width hw hdue
      rw [Machine.run, hstep]
      rfl
    | start now =>
      have hrest : machine.run (openNext ra now) ops = none := by
        refine ih (h.start now).2 hw hrels (fun op hop => ?_) hclock (by simpa [Op.Puts] using hput)
        have hstop : (openNext ra now).stop = now := by
          rw [openNext, hw, UInt64.add_zero]
        rw [hstop]
        exact hlater _ (List.mem_map_of_mem hop)
      have hstep : machine.step ra (.start now) = some (openNext ra now, none) := (h.start now).1
      simp only [Machine.run, hstep, hrest, Option.bind_some, Option.map_none]
    | avg period clock =>
      obtain ⟨i, p, res, havg⟩ := h.avg hrel clock
      have hstep :
        machine.step ra (.avg period clock) = some ({ ra with period := ra.period.set i p }, some res) := havg
      have hrest := ih (h.set i p) hw hrels hdues hclock (by simpa [Op.Puts] using hput)
      simp only [Machine.run, hstep, hrest, Option.bind_some, Option.map_none]

end Runs

/-- **Divisions and indexes.** For a rate that `rd_avg_new_rate` made, a run of calls that begins with `rd_avg_start`
divides by no 0 and stays in the ring if and only if the duration is not 0 or no value is put. -/
theorem no_fault_iff {periods duration interval : Int} {ra : State} (hnew : newRate periods duration interval = some ra)
    (hmin : -2 ^ 31 ≤ duration) (hmax : duration < 2 ^ 31) (now : UInt64) (ops : List Op)
    (hrel : ∀ op ∈ ops, op.Relative) (hclock : ((Op.start now :: ops).map Op.clock).Pairwise (· ≤ ·)) :
    (∃ s outs, machine.run ra (.start now :: ops) = some (s, outs)) ↔ duration ≠ 0 ∨ ∀ op ∈ ops, ¬op.Puts := by
  have hring := newRate_ring hnew
  obtain ⟨hrate, rfl⟩ : ra.type = .rate ∧ ra.duration = duration := by
    rw [newRate] at hnew
    split at hnew
    · cases hnew
    · cases hnew
      exact ⟨rfl, rfl⟩
  have hstep : machine.step ra (.start now) = some (openNext ra now, none) := by
    show (avgStart ra now).map (·, none) = _
    rw [avgStart, periodNext_eq hring]
    rfl
  have hrun : Running (openNext ra now) := openNext_running hring hrate now
  have hw : width (openNext ra now) = 0 ↔ ra.duration = 0 := width_eq_zero_iff hmin hmax
  rw [List.map_cons, List.pairwise_cons] at hclock
  constructor
  · rintro ⟨s, outs, hr⟩
    obtain ⟨s', o, outs', hs, hrest, -⟩ := Machine.exists_of_run_cons hr
    obtain rfl : s' = openNext ra now := by
      rw [hstep] at hs
      cases hs
      rfl
    by_contra hnot
    push Not at hnot
    obtain ⟨h0, hput⟩ := hnot
    have hdue : ∀ op ∈ ops, (openNext ra now).stop ≤ op.clock := fun op hop => by
      have hstop : (openNext ra now).stop = now := by
        show now + width (openNext ra now) = now
        rw [hw.2 h0, UInt64.add_zero]
      rw [hstop]
      exact hclock.1 _ (List.mem_map_of_mem hop)
    rw [run_of_put hrun (hw.2 h0) hrel hdue hclock.2 hput] at hrest
    cases hrest
  · intro hsafe
    obtain ⟨s, outs, hrest⟩ := run_of_safe hrun hrel (hsafe.imp_left fun hne => mt hw.1 hne)
    exact ⟨s, none :: outs, Machine.run_cons hstep hrest⟩

/-- Two values and two queries, with periods of one second. -/
theorem no_fault_second : ∃ ra, newRate 2 1000000 0 = some ra ∧ ∃ s outs, machine.run ra
    (.start 5000000 :: [.put 7 5000000, .avg (-1) 5500000, .put 9 6000000, .avg (-2) 6500000]) = some (s, outs) := by
  have hrun : ∀ ra, newRate 2 1000000 0 = some ra → _ := fun ra hnew =>
    (no_fault_iff hnew (by decide) (by decide) 5000000
      [.put 7 5000000, .avg (-1) 5500000, .put 9 6000000, .avg (-2) 6500000] (by decide) (by decide)).2
      (.inl (by decide))
  exact ⟨_, rfl, hrun _ rfl⟩

/-- `rd_avg_new_rate` takes a duration of 0, and the first put divides by it. -/
theorem put_divides_by_zero : ∃ ra, newRate 1 0 0 = some ra ∧
    machine.run ra [.start 5000000, .put 7 5000000] = none :=
  ⟨_, rfl, rfl⟩

end Librd.Avg
