import Mathlib
import Librd.Lib.Machine

/-!
# Averages (`rdavg.c`, `rdavg.h`)

An average keeps a ring of periods. `rd_avg_put` adds a value to the current one; a put at or after its end rolls it
over first: its results are calculated and the next slot of the ring becomes the current period. `rd_avg` gives the
results of a period, and calculates them again in it.

`rd_ts_t` and the values are `uint64_t`. A `NULL` pointer that is used, an index outside of the ring and a division by
zero are faults (`none`). The average proper, a `double`, is left out; the callback of a roll-over gets the period as it
is then, and what it does to the average itself is not modelled.
-/

namespace Librd.Avg

/-- `RD_AVG_NO_VALUE`. -/
def noValue : UInt64 := 0xffffffffffffffff

/-- `rd_avg_res_t`. -/
structure Res where
  sum : UInt64
  high : UInt64
  low : UInt64
  deriving DecidableEq, Repr

/-- A result after `memset`. -/
def Res.zero : Res := { sum := 0, high := 0, low := 0 }

/-- `rd_avg_period_t`: `cnt` is `u.rate.cnt`. The buckets of a histogram are never allocated. -/
structure Period where
  last : UInt64
  duration : UInt64
  closed : UInt64
  missed : Int
  cnt : UInt64
  res : Res
  deriving DecidableEq, Repr

/-- A period after `memset`. -/
def Period.zero : Period := { last := 0, duration := 0, closed := 0, missed := 0, cnt := 0, res := .zero }

/-- `rd_avg_type_t`. -/
inductive AvgType
  | rate
  | hist
  deriving DecidableEq, Repr

/-- `rd_avg_t`: `curr` is the index that `ra_curr` points to, `stop` is `ra_end`. -/
structure State where
  type : AvgType
  curr : Option Nat
  periods : Nat
  period : List Period
  curri : Nat
  duration : Int
  start : UInt64
  stop : UInt64
  interval : Int
  val2bucket : UInt64 → Int

/-- `rd_avg_new_rate`. -/
def newRate (periods duration interval : Int) : Option State :=
  if periods < 1 ∨ periods > 10000 then none
  else some {
    type := .rate
    curr := none
    periods := periods.toNat
    period := List.replicate periods.toNat .zero
    curri := 0
    duration := duration
    start := 0
    stop := 0
    interval := interval
    val2bucket := fun _ => 0 }

/-- `rd_avg_calc`. -/
def avgCalc (type : AvgType) (p : Period) : Period :=
  if p.duration = 0 then
    -- "no data values"
    { p with res := .zero }
  else
    match type with
    | .rate => { p with res := { p.res with sum := p.cnt } }
    | .hist => { p with res := .zero }

/-- `(p->last ? : now) - ra->ra_start`. -/
def elapsed (start : UInt64) (p : Period) (now : UInt64) : UInt64 := (if p.last ≠ 0 then p.last else now) - start

/-- The index of a period, from the argument of `rd_avg`. -/
def indexOf (ra : State) (period : Int) : Int :=
  if period = -1 then ra.curri
  else if period = -2 then
    if ra.curri = 0 then ra.periods - 1 else (ra.curri - 1 : Int).tmod ra.periods
  else period

/-- `rd_avg`, where `clock` is what `rd_clock` would give. -/
def rdAvg (ra : State) (period : Int) (clock : UInt64) : Option (State × Res) := do
  guard (0 ≤ indexOf ra period)
  let i := (indexOf ra period).toNat
  let p ← ra.period[i]?
  let p := if ra.curr = some i then { p with duration := elapsed ra.start p clock } else p
  let p := avgCalc ra.type p
  return ({ ra with period := ra.period.set i p }, p.res)

/-- `ra_duration` in an addition or a division with `uint64_t`. -/
def width (ra : State) : UInt64 := UInt64.ofInt ra.duration

/-- A period without values. -/
def fresh : Period := { Period.zero with res := { Res.zero with low := noValue } }

/-- The next slot of the ring as the current period, which starts at `now`. -/
def openNext (ra : State) (now : UInt64) : State :=
  { ra with
    curri := (ra.curri + 1) % ra.periods
    curr := some ((ra.curri + 1) % ra.periods)
    start := now
    stop := now + width ra
    period := ra.period.set ((ra.curri + 1) % ra.periods) fresh }

/-- `rd_avg_period_next`. -/
def periodNext (ra : State) (now : UInt64) : Option State := do
  guard (ra.periods ≠ 0)
  let _ ← ra.period[(ra.curri + 1) % ra.periods]?
  return openNext ra now

/-- `rd_avg_start` at the clock reading `now`. -/
def avgStart (ra : State) (now : UInt64) : Option State := periodNext ra now

/-- The current period as it is rolled over. -/
def closePeriod (ra : State) (p : Period) (now : UInt64) : Period :=
  let p := avgCalc ra.type { p with closed := now, duration := elapsed ra.start p now }
  { p with missed := Int.bmod ((now - ra.stop) / width ra).toNat (2 ^ 32) }

/-- `rd_avg_roll`: also the period that `ra_roll_cb` is called for. -/
def roll (ra : State) (now : UInt64) : Option (State × Period) := do
  let i ← ra.curr
  let p ← ra.period[i]?
  guard (width ra ≠ 0)
  let p := closePeriod ra p now
  return (← periodNext { ra with period := ra.period.set i p } now, p)

/-- A value in the current period. -/
def record (p : Period) (val now : UInt64) : Period :=
  { p with
    last := now
    res := { p.res with
      high := if p.res.high < val then val else p.res.high
      low := if p.res.low > val then val else p.res.low } }

/-- `rd_avg_put` in the current period: `rd_avg_put_rate` or `rd_avg_put_hist`, whose `bucket` is `NULL`. -/
def putCurrent (ra : State) (val now : UInt64) : Option State := do
  let i ← ra.curr
  let p ← ra.period[i]?
  let p := record p val now
  match ra.type with
  | .rate => return { ra with period := ra.period.set i { p with cnt := p.cnt + val } }
  | .hist =>
    -- -1: ignore data point
    guard (ra.val2bucket val = -1)
    return { ra with period := ra.period.set i p }

/-- `rd_avg_put` at the clock reading `now`: also the period that was rolled over, if one was. -/
def put (ra : State) (val now : UInt64) : Option (State × Option Period) :=
  if ra.stop ≤ now then (roll ra now).bind fun q => (putCurrent q.1 val now).map (·, some q.2)
  else (putCurrent ra val now).map (·, none)

/-- The calls: `rd_avg_start`, `rd_avg_put` and `rd_avg`, each with the clock reading that it takes. -/
inductive Op
  | start (now : UInt64)
  | put (val now : UInt64)
  | avg (period : Int) (clock : UInt64)
  deriving DecidableEq, Repr

/-- One call; a put gives the results of the period that it rolls over. -/
def step (ra : State) : Op → Option (State × Option Res)
  | .start now => (avgStart ra now).map (·, none)
  | .put val now => (put ra val now).map fun q => (q.1, q.2.map Period.res)
  | .avg period clock => (rdAvg ra period clock).map fun q => (q.1, some q.2)

/-- The calls as a machine. -/
def machine : Machine State Op (Option Res) where
  Ok _ _ := True
  step := step

/-! ## The ring -/

/-- A ring of periods: the current one, once the average was started, is at `curri`. -/
structure Ring (ra : State) : Prop where
  periods_pos : 0 < ra.periods
  length_eq : ra.period.length = ra.periods
  curri_lt : ra.curri < ra.periods
  curr_eq : ∀ i, ra.curr = some i → i = ra.curri

section Ring

variable {ra : State} {p : Period} {val now : UInt64}

theorem newRate_ring {periods duration interval : Int} (h : newRate periods duration interval = some ra) : Ring ra := by
  rw [newRate] at h
  split at h
  · cases h
  · cases h
    exact ⟨by simp; omega, by simp, by simp; omega, by simp⟩

/-- `ra_duration` is 0 as a `uint64_t` only if it is 0. -/
theorem width_eq_zero_iff (hmin : -2 ^ 31 ≤ ra.duration) (hmax : ra.duration < 2 ^ 31) :
    width ra = 0 ↔ ra.duration = 0 := by
  refine ⟨fun hw => ?_, fun h0 => by rw [width, h0]; rfl⟩
  have hnat : (UInt64.ofNat (ra.duration % 2 ^ 64).toNat).toNat = 0 := congrArg UInt64.toNat hw
  rw [UInt64.toNat_ofNat'] at hnat
  omega

theorem width_ne_zero (hpos : 0 < ra.duration) (hlt : ra.duration < 2 ^ 31) : width ra ≠ 0 := fun hw => by
  have h0 := (width_eq_zero_iff (by omega) hlt).1 hw
  omega

theorem Ring.lt (h : Ring ra) : ra.curri < ra.period.length := h.length_eq ▸ h.curri_lt

theorem Ring.exists_current (h : Ring ra) : ∃ p, ra.period[ra.curri]? = some p :=
  ⟨_, List.getElem?_eq_getElem h.lt⟩

theorem Ring.curr_cases (h : Ring ra) : ra.curr = none ∨ ra.curr = some ra.curri := by
  cases hcurr : ra.curr with
  | none => exact .inl rfl
  | some i => exact .inr (congrArg some (h.curr_eq i hcurr))

/-- The index of a valid period. -/
theorem indexOf_valid {period : Int} (hring : Ring ra)
    (h : period = -1 ∨ period = -2 ∨ 0 ≤ period ∧ period < ra.periods) :
    0 ≤ indexOf ra period ∧ indexOf ra period < ra.periods := by
  have hpos := hring.periods_pos
  have hlt := hring.curri_lt
  rcases h with rfl | rfl | ⟨h0, hlt'⟩
  · rw [indexOf, if_pos rfl]
    omega
  · rw [indexOf, if_neg (by decide), if_pos rfl]
    split
    · omega
    · rw [Int.tmod_eq_of_lt (by omega) (by omega)]
      omega
  · rw [indexOf, if_neg (by omega), if_neg (by omega)]
    exact ⟨h0, hlt'⟩

/-- A period is replaced. -/
theorem Ring.set (h : Ring ra) (i : Nat) (p : Period) : Ring { ra with period := ra.period.set i p } :=
  { h with length_eq := by rw [List.length_set, h.length_eq] }

theorem openNext_ring (h : Ring ra) (now : UInt64) : Ring (openNext ra now) where
  periods_pos := h.periods_pos
  length_eq := by rw [openNext, List.length_set, h.length_eq]
  curri_lt := Nat.mod_lt _ h.periods_pos
  curr_eq := fun _ hi => (Option.some.inj hi).symm

theorem periodNext_eq (h : Ring ra) (now : UInt64) : periodNext ra now = some (openNext ra now) := by
  have hlt : (ra.curri + 1) % ra.periods < ra.period.length := by
    rw [h.length_eq]
    exact Nat.mod_lt _ h.periods_pos
  have hne : ra.periods ≠ 0 := Nat.ne_of_gt h.periods_pos
  simp [periodNext, hne, List.getElem?_eq_getElem hlt]

theorem openNext_current (h : Ring ra) : (openNext ra now).period[(openNext ra now).curri]? = some fresh := by
  have hlt := (openNext_ring h now).lt
  rw [openNext, List.length_set] at hlt
  exact List.getElem?_set_self hlt

/-- **A roll-over** of the current period `p`. -/
theorem roll_eq (h : Ring ra) (hw : width ra ≠ 0) (hcurr : ra.curr = some ra.curri)
    (hp : ra.period[ra.curri]? = some p) :
    roll ra now = some (openNext { ra with period := ra.period.set ra.curri (closePeriod ra p now) } now,
      closePeriod ra p now) := by
  have hnext := periodNext_eq (h.set ra.curri (closePeriod ra p now)) now
  simp only [hcurr] at hnext
  simp [roll, hcurr, hp, hw, hnext]

/-- A division by zero. -/
theorem roll_of_width (hw : width ra = 0) : roll ra now = none := by
  rw [roll]
  cases ra.curr with
  | none => rfl
  | some i => cases ra.period[i]? <;> simp [hw]

/-- **A put**: the current period is rolled over if it ended, and the value is recorded in the current period. -/
theorem put_eq (h : Ring ra) (hw : width ra ≠ 0) (hcurr : ra.curr = some ra.curri)
    (hp : ra.period[ra.curri]? = some p) : put ra val now =
    if ra.stop ≤ now then (putCurrent (openNext { ra with period := ra.period.set ra.curri (closePeriod ra p now) } now)
      val now).map (·, some (closePeriod ra p now))
    else (putCurrent ra val now).map (·, none) := by
  rw [put, roll_eq h hw hcurr hp]
  rfl

end Ring

end Librd.Avg
