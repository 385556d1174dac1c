import Mathlib
import Librd.Lib.Machine

/-!
# Timers (`rdtimer.c`, `rdtimer.h`)

`rd_timer_new`, `rd_timer_add`, `rd_timer_start`, `rd_timer_stop`, `rd_timer_destroy`, one pass of `rd_timers_run`, and
an event of `rd_timer_call` in three steps: `rd_thread_poll` takes it off the queue of its thread and lets go of the
queue, the callback begins, and the callback is over. Each works under `rd_timers_lock` or under the lock of a queue
(the start of `rd_timer_call` only reads), so an interleaving is a list of operations. The callback itself is the
application's: what it does to timers is further operations.

Timers live on a heap: using one that is not allocated is a fault, and so is a failed assertion. `rd_ts_t` is a
`uint64_t` of microseconds and `rt_called` a 32-bit `int` changed by atomic operations, which wrap around. `rd_clock` is
a sequence of readings of a monotonic clock. The queues `rdt_eventq` are one list of events here: of `rd_fifoq` only the
order is modelled, not its count `rfq_cnt`.
-/

namespace Librd.Timers

abbrev Tid := Nat

/-- The address of a timer. -/
abbrev Rt := Nat

/-- `struct timespec`. -/
structure Timespec where
  tvSec : Nat
  tvNsec : Nat
  deriving DecidableEq, Repr

/-- `rd_timer_type_t`. -/
inductive TimerType
  | once
  | recurr
  deriving DecidableEq, Repr

/-- `rd_timer_t`: `rt_thread`, `rt_type`, `rt_interval`, `rt_next`, `rt_called` and the flags `RD_TIMER_F_ATOMIC` and
`RD_TIMER_F_REMOVED`. -/
structure Timer where
  thread : Tid
  type : TimerType
  interval : Nat
  next : Nat
  called : Int
  atomic : Bool
  removed : Bool
  deriving DecidableEq, Repr

/-- A monotonic clock in microseconds: it measures from a point in the past and stays below `2 ^ 63`. -/
structure Clock where
  read : Nat → Nat
  mono : ∀ k, read k ≤ read (k + 1)
  pos : ∀ k, 0 < read k
  lt : ∀ k, read k < 2 ^ 63

abbrev Heap := Rt → Option Timer

/-- The timers, `rd_timers`, `rd_timers_next_ts`, the number of clock readings so far, the timeout of the timer thread
while it waits and nobody signalled it, and the events `rd_timer_call` that are queued (on which thread, for which
timer; oldest first), taken off a queue with their callbacks still to begin, and executing (both latest first). -/
structure State where
  timers : Heap
  rdTimers : List Rt
  nextTs : Timespec
  reads : Nat
  sleeping : Option Timespec
  eventq : List (Tid × Rt)
  popped : List (Tid × Rt)
  executing : List (Tid × Rt)

/-- The state with another timer, or none, at the address `rt`. -/
def State.set (s : State) (rt : Rt) (cell : Option Timer) : State :=
  { s with timers := Function.update s.timers rt cell }

section Set

variable (s : State) (rt : Rt) (cell : Option Timer)

@[simp] theorem set_timers_self : (s.set rt cell).timers rt = cell := Function.update_self ..
@[simp] theorem set_rdTimers : (s.set rt cell).rdTimers = s.rdTimers := rfl
@[simp] theorem set_nextTs : (s.set rt cell).nextTs = s.nextTs := rfl
@[simp] theorem set_reads : (s.set rt cell).reads = s.reads := rfl
@[simp] theorem set_sleeping : (s.set rt cell).sleeping = s.sleeping := rfl
@[simp] theorem set_eventq : (s.set rt cell).eventq = s.eventq := rfl
@[simp] theorem set_popped : (s.set rt cell).popped = s.popped := rfl
@[simp] theorem set_executing : (s.set rt cell).executing = s.executing := rfl
@[simp] theorem set_set (cell' : Option Timer) : (s.set rt cell).set rt cell' = s.set rt cell' := by
  simp [State.set]

variable {s rt}

theorem set_timers_of_ne {a : Rt} (h : a ≠ rt) : (s.set rt cell).timers a = s.timers a := Function.update_of_ne h ..

theorem set_self {cell : Option Timer} (h : s.timers rt = cell) : s.set rt cell = s := by
  rw [State.set, ← h, Function.update_eq_self]

end Set

/-! ## Time -/

/-- `TIMESPEC_TO_TS`. -/
def timespecToTs (ts : Timespec) : Nat := (1000000 * ts.tvSec + ts.tvNsec / 1000) % 2 ^ 64

/-- `TS_TO_TIMESPEC`; the macro evaluates its argument twice. -/
def tsToTimespec (tsx tsx' : Nat) : Timespec :=
  let ts : Timespec := { tvSec := tsx / 1000000, tvNsec := tsx' % 1000000 * 1000 }
  if ts.tvNsec ≥ 1000000000 then { tvSec := ts.tvSec + 1, tvNsec := ts.tvNsec - 1000000000 } else ts

variable (c : Clock)

/-- `rd_clock`; every reading is followed by a `tick`. -/
def rdClock (s : State) : Nat := c.read s.reads

/-- The state after a reading of the clock. -/
def State.tick (s : State) : State := { s with reads := s.reads + 1 }

@[simp] theorem tick_timers (s : State) : s.tick.timers = s.timers := rfl
@[simp] theorem tick_rdTimers (s : State) : s.tick.rdTimers = s.rdTimers := rfl

/-- The `rt_next` of a timer started at the clock reading `clk`: `interval_ms * 1000` is an `unsigned int`. -/
def expiry (clk intervalMs : Nat) : Nat := (clk + intervalMs * 1000 % 2 ^ 32) % 2 ^ 64

/-- `rd_timer_cmp` on the two `rt_next`: the difference of two `uint64_t` as an `int`. -/
def timerCmp (a b : Nat) : Int := Int.bmod ((a : Int) - b) (2 ^ 32)

/-- The value of an `int` that an atomic operation sets to `x`. -/
def wrapInt (x : Int) : Int := Int.bmod x (2 ^ 32)

/-! ## Operations with the lock held -/

/-- `rd_timers_next_update`. -/
def nextUpdate (s : State) : Option Rt → Option State
  | some rtFirst => do
    let t ← s.timers rtFirst
    return { s with nextTs := tsToTimespec t.next t.next, sleeping := none }
  | none =>
    some { s.tick.tick with
      nextTs := tsToTimespec ((rdClock c s + 3600 * 1000000) % 2 ^ 64) ((rdClock c s.tick + 3600 * 1000000) % 2 ^ 64)
      sleeping := none }

/-- `rd_timer_stop0`. -/
def stop0 (s : State) (rt : Rt) : Option State := do
  let t ← s.timers rt
  if t.next ≠ 0 then
    let s ← if t.called = 0 ∧ s.rdTimers.head? = some rt then nextUpdate c s s.rdTimers.tail.head? else some s
    guard (rt ∈ s.rdTimers)
    return { s with rdTimers := s.rdTimers.erase rt }.set rt (some { t with next := 0 })
  else return s

/-- `LIST_INSERT_SORTED` of `rt` into `rd_timers` with `rd_timer_cmp`. -/
def insertSorted (timers : Heap) (rt : Rt) : List Rt → Option (List Rt)
  | [] => some [rt]
  | tmp :: rest => do
    let t ← timers rt
    let t' ← timers tmp
    if timerCmp t.next t'.next ≤ 0 then return rt :: tmp :: rest
    return tmp :: (← insertSorted timers rt rest)

/-- `rd_timer_start0`. -/
def start0 (s : State) (rt : Rt) (intervalMs : Nat) (update : Bool) : Option State := do
  let s ← stop0 c s rt
  let t ← s.timers rt
  let next := expiry (rdClock c s) intervalMs
  let s := s.tick.set rt (some { t with next := next })
  if next < timespecToTs s.nextTs then
    -- this timer will be the next one to fire
    let s := { s with rdTimers := rt :: s.rdTimers }
    if update then nextUpdate c s (some rt) else return s
  else
    return { s with rdTimers := ← insertSorted s.timers rt s.rdTimers }

/-- `rd_timer_destroy0`. -/
def destroy0 (s : State) (rt : Rt) : Option State := do
  let s ← stop0 c s rt
  let t ← s.timers rt
  if t.called ≠ 0 then return s.set rt (some { t with removed := true })
  return s.set rt none

/-! ## The timer thread -/

/-- The alert of a stalled thread: the timer, `rt_called`, the thread and the milliseconds the events stand for. -/
structure Alert where
  rt : Rt
  called : Int
  thread : Tid
  value : Nat
  deriving DecidableEq, Repr

/-- The alert of `rd_timers_run` for a timer that fires, if there is one. -/
def stallAlert (rt : Rt) (t : Timer) : List Alert :=
  if t.called > 10 ∧ t.called % 10 = 0 then
    [{ rt := rt, called := t.called, thread := t.thread,
       value := (t.called * t.interval % (2 ^ 32 : Int)).toNat / 1000 }]
  else []

/-- A timer that has expired is taken off `rd_timers` and its event is queued. -/
def fire (s : State) (rt : Rt) (t : Timer) : State :=
  { s with rdTimers := s.rdTimers.tail, eventq := s.eventq ++ [(t.thread, rt)] }.set rt
    (some { t with next := 0, called := wrapInt (t.called + 1) })

/-- The first loop of a pass over `rd_timers`: also `callouts`. -/
def fireExpired (now : Nat) : List Rt → State → Option (State × List Rt × List Alert)
  | [], s => some (s, [], [])
  | rt :: rest, s => do
    let t ← s.timers rt
    if t.next ≤ now then
      let (s, callouts, alerts) ← fireExpired now rest (fire s rt t)
      return (s, rt :: callouts, stallAlert rt t ++ alerts)
    return (s, [], [])

/-- The second loop of a pass: restarts the recurring timers of `callouts`. -/
def restart : List Rt → State → Option State
  | [], s => some s
  | rt :: rest, s => do
    let t ← s.timers rt
    if t.type = .recurr then restart rest (← start0 c s rt t.interval false)
    else restart rest s

/-- One pass of `rd_timers_run`, up to the wait. -/
def timersPass (s : State) : Option (State × List Alert) := do
  let now := rdClock c s
  let s := s.tick
  let (s, callouts, alerts) ← fireExpired now s.rdTimers s
  let s ← restart c callouts s
  let s ← nextUpdate c s s.rdTimers.head?
  return ({ s with sleeping := some s.nextTs }, alerts)

/-! ## Operations -/

/-- `rd_timer_init`, with the thread resolved. -/
def initTimer (type : TimerType) (rdt : Tid) : Timer :=
  { thread := rdt, type := type, interval := 0, next := 0, called := 0, atomic := false, removed := false }

/-- `rd_timer_new` at the address `rt`. -/
def timerNew (s : State) (rt : Rt) (type : TimerType) (rdt : Tid) : State :=
  s.set rt (some (initTimer type rdt))

/-- `rd_timer_start`. -/
def timerStart (s : State) (rt : Rt) (intervalMs : Nat) : Option State := do
  let t ← s.timers rt
  start0 c (s.set rt (some { t with interval := intervalMs })) rt intervalMs true

/-- `rd_timer_add` at the address `rt`. -/
def timerAdd (s : State) (rt : Rt) (type : TimerType) (intervalMs : Nat) (rdt : Tid) : Option State := do
  let s := timerNew s rt type rdt
  let t ← s.timers rt
  timerStart c (s.set rt (some { t with atomic := true })) rt intervalMs

/-- `rd_thread_poll` up to the call of the event: a thread takes its oldest event off its queue. -/
def callPop (s : State) (tid : Tid) : Option State := do
  let e ← s.eventq.find? fun e => e.1 = tid
  return { s with eventq := s.eventq.erase e, popped := e :: s.popped }

/-- `rd_timer_call` up to the callback, for the event that the thread has taken. -/
def callBegin (s : State) (tid : Tid) : Option State := do
  let e ← s.popped.find? fun e => e.1 = tid
  let t ← s.timers e.2
  guard (t.called > 0)
  return { s with popped := s.popped.erase e, executing := e :: s.executing }

/-- `rd_timer_call` after the callback. -/
def callEnd (s : State) (tid : Tid) : Option State := do
  let e ← s.executing.find? fun e => e.1 = tid
  let t ← s.timers e.2
  let called := wrapInt (t.called - 1)
  let s := { s with executing := s.executing.erase e }.set e.2 (some { t with called := called })
  if t.removed ∧ called = 0 then destroy0 c s e.2
  else if t.type = .once ∧ t.atomic then destroy0 c s e.2
  else return s

/-- The operations of an interleaving. -/
inductive Op
  | new (rt : Rt) (type : TimerType) (rdt : Tid)
  | add (rt : Rt) (type : TimerType) (intervalMs : Nat) (rdt : Tid)
  | start (rt : Rt) (intervalMs : Nat)
  | stop (rt : Rt)
  | destroy (rt : Rt)
  | pass
  | callPop (tid : Tid)
  | callBegin (tid : Tid)
  | callEnd (tid : Tid)
  deriving DecidableEq, Repr

/-- One operation; a pass gives the alerts it raised. -/
def step (s : State) : Op → Option (State × List Alert)
  | .new rt type rdt => some (timerNew s rt type rdt, [])
  | .add rt type intervalMs rdt => (timerAdd c s rt type intervalMs rdt).map (·, [])
  | .start rt intervalMs => (timerStart c s rt intervalMs).map (·, [])
  | .stop rt => (stop0 c s rt).map (·, [])
  | .destroy rt => (destroy0 c s rt).map (·, [])
  | .pass => timersPass c s
  | .callPop tid => (callPop s tid).map (·, [])
  | .callBegin tid => (callBegin s tid).map (·, [])
  | .callEnd tid => (callEnd c s tid).map (·, [])

/-- A timer of the application that it did not destroy: it is allocated, was not made by `rd_timer_add` and is not
flagged for removal. -/
def Managed (s : State) (rt : Rt) : Prop := ∃ t, s.timers rt = some t ∧ t.atomic = false ∧ t.removed = false

/-- What the callers promise: `calloc` gives an address that is not in use, the application uses its timers until it
destroys them, and threads run the events they have, each before they take the next. -/
def Ok (s : State) : Op → Prop
  | .new rt _ _ => s.timers rt = none
  | .add rt _ _ _ => s.timers rt = none
  | .start rt _ => Managed s rt
  | .stop rt => Managed s rt
  | .destroy rt => Managed s rt
  | .pass => True
  | .callPop tid => (∃ e ∈ s.eventq, e.1 = tid) ∧ ∀ e ∈ s.popped, e.1 ≠ tid
  | .callBegin tid => ∃ e ∈ s.popped, e.1 = tid
  | .callEnd tid => ∃ e ∈ s.executing, e.1 = tid

instance (s : State) (rt : Rt) : Decidable (Managed s rt) :=
  match h : s.timers rt with
  | none => .isFalse (by simp [Managed, h])
  | some t => decidable_of_iff (t.atomic = false ∧ t.removed = false) (by simp [Managed, h])

instance (s : State) : (op : Op) → Decidable (Ok s op)
  | .new rt _ _ => inferInstanceAs (Decidable (s.timers rt = none))
  | .add rt _ _ _ => inferInstanceAs (Decidable (s.timers rt = none))
  | .start rt _ => inferInstanceAs (Decidable (Managed s rt))
  | .stop rt => inferInstanceAs (Decidable (Managed s rt))
  | .destroy rt => inferInstanceAs (Decidable (Managed s rt))
  | .pass => .isTrue trivial
  | .callPop tid => inferInstanceAs (Decidable ((∃ e ∈ s.eventq, e.1 = tid) ∧ ∀ e ∈ s.popped, e.1 ≠ tid))
  | .callBegin tid => inferInstanceAs (Decidable (∃ e ∈ s.popped, e.1 = tid))
  | .callEnd tid => inferInstanceAs (Decidable (∃ e ∈ s.executing, e.1 = tid))

/-- The timer subsystem as a machine with contracts. -/
def machine : Machine State Op (List Alert) where
  Ok := Ok
  step := step c

instance (s : State) (op : Op) : Decidable ((machine c).Ok s op) := inferInstanceAs (Decidable (Ok s op))

/-- No timers; the static variables are zero and the timer thread has not slept yet. -/
def init : State where
  timers := fun _ => none
  rdTimers := []
  nextTs := { tvSec := 0, tvNsec := 0 }
  reads := 0
  sleeping := none
  eventq := []
  popped := []
  executing := []

end Librd.Timers
