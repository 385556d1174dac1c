import Librd.Fifoq.Elements
import Librd.Thread.Deadline
import Librd.Thread.Thread

/-!
# Threads: `rd_thread_poll`

`rd_thread_poll` pops the events of its thread and calls them, until `rd_fifoq_pop0` gives up. `RD_POLL_INFINITE` is -1,
but `rd_fifoq_pop0` waits without a deadline for a timeout of 0 only, so an infinite poll waits until a millisecond
before now. That is over at once, or not a time that `pthread_cond_timedwait` takes; then the poll tries again with the
lock held, and nobody can add an event (`condTimedwait_infinite`). So a poll returns 0 as soon as it looks at an empty
queue and the clock is past the first millisecond of its second (`poll_waits_iff`).

The thread, those that add events or tell it to exit, and the clock take steps in any order. An event may poll as well,
so there may be several calls of `rd_thread_poll`. The event itself (`rd_thread_event_t`, which `rd_thread_event_call`
frees) is left out: what its function does are further steps. `pthread_cond_timedwait` reads the clock with
`gettimeofday`; what passes in between passes while it waits.
-/

namespace Librd.Thread.Poll

open Librd.Fifoq (Addr Ptr)

/-- `RD_POLL_INFINITE`. -/
def infinite : Int := -1

/-- `RD_POLL_NOWAIT`. -/
def nowait : Int := 0

/-- Where a call of `rd_thread_poll` is: before the lock in `rd_fifoq_pop0`; behind it, as `pthread_cond_timedwait` came
back with `EINVAL`; waiting, with a deadline or without; calling the event of an element. -/
inductive Place
  | entering
  | locked
  | waiting (abstime : Option Timespec)
  | calling (rfqe : Addr)
  deriving DecidableEq, Repr

/-- The element whose event is called. -/
def Place.elm? : Place → Option Addr
  | .calling rfqe => some rfqe
  | .entering => none
  | .locked => none
  | .waiting _ => none

/-- The deadline. -/
def Place.abstime? : Place → Option Timespec
  | .waiting abstime => abstime
  | .entering => none
  | .locked => none
  | .calling _ => none

/-- A call of `rd_thread_poll`. -/
structure Call where
  timeoutMs : Int
  cnt : Int
  place : Place
  deriving DecidableEq, Repr

def Call.elm? (call : Call) : Option Addr := call.place.elm?

/-- A thread with its `rdt_eventq` and its calls, the last one first. -/
structure State where
  state : ThreadState
  eventq : Fifoq.State
  calls : List Call

/-- What a step gives back. -/
inductive Out
  | silent
  | returned (cnt : Int)
  deriving DecidableEq, Repr

/-- `rd_fifoq_pop0` returns `NULL`, and `rd_thread_poll` what it counted. -/
def giveUp (s : State) (call : Call) (calls : List Call) : State × Out :=
  ({ s with eventq := { s.eventq with waiting := Function.update s.eventq.waiting 0 none }, calls := calls },
    .returned call.cnt)

/-- The body of the inner loop of `rd_fifoq_pop0`, if it is not to return at once: `rd_cond_timedwait_ms` or
`rd_cond_wait`. -/
def block (s : State) (call : Call) (calls : List Call) (tv : Timeval) : State × Out :=
  if call.timeoutMs ≠ 0 then
    match condTimedwait tv (deadline tv call.timeoutMs) with
    | .einval => ({ s with calls := { call with place := .locked } :: calls }, .silent)
    | .etimedout => giveUp s call calls
    | .waits =>
      ({ s with calls := { call with place := .waiting (some (deadline tv call.timeoutMs)) } :: calls }, .silent)
  else ({ s with calls := { call with place := .waiting none } :: calls }, .silent)

/-- The last call has the lock and looks at the queue, at the time `tv`. -/
def look (s : State) (tv : Timeval) : Option (State × Out) :=
  match s.calls with
  | [] => none
  | call :: calls => do
    let (eventq, o) ← Fifoq.popLocked s.eventq 0 (call.timeoutMs = nowait) call.timeoutMs
    let s := { s with eventq := eventq }
    match o with
    | .elm rfqe _ => return ({ s with calls := { call with place := .calling rfqe } :: calls }, .silent)
    | .blocked => return block s call calls tv
    | .null => return giveUp s call calls
    | .purged _ => none
    | .released => none

/-- `pthread_cond_timedwait` returns `ETIMEDOUT` after the last call waited. -/
def timeout (s : State) : Option (State × Out) :=
  match s.calls with
  | [] => none
  | call :: calls => some (giveUp s call calls)

/-- The function of an event returns. -/
def called (s : State) : Option (State × Out) :=
  match s.calls with
  | [] => none
  | call :: calls => do
    let (eventq, _) ← Fifoq.step s.eventq (.release (← call.elm?))
    let cnt ← Fifoq.incr call.cnt
    if s.state = .exiting then return ({ s with eventq := eventq, calls := calls }, .returned cnt)
    return ({ s with eventq := eventq, calls := { call with cnt := cnt, place := .entering } :: calls }, .silent)

/-- An event is added (`rd_thread_event_add`), the thread is told to exit, and the steps of `rd_thread_poll`. -/
inductive Op
  | add (rte : Ptr) (rfqe : Addr)
  | kill
  | poll (timeoutMs : Int)
  | look (tv : Timeval)
  | timeout
  | called
  deriving DecidableEq, Repr

def step (s : State) : Op → Option (State × Out)
  | .add rte rfqe => (Fifoq.step s.eventq (.add rte false rfqe)).map fun p => ({ s with eventq := p.1 }, .silent)
  | .kill => some ({ s with state := .exiting }, .silent)
  | .poll timeoutMs =>
    some ({ s with calls := { timeoutMs := timeoutMs, cnt := 0, place := .entering } :: s.calls }, .silent)
  | .look tv => look s tv
  | .timeout => timeout s
  | .called => called s

/-- An event is added while nobody else has the lock, a running thread polls, by itself or from an event, and the last
call goes on from where it is. Polls that begin when the thread was told to exit are left out. -/
def Ok (s : State) : Op → Prop
  | .add _ rfqe => s.eventq.heap rfqe = none ∧ ∀ call ∈ s.calls.head?, call.place ≠ .locked
  | .kill => True
  | .poll _ => s.state = .running ∧ ∀ call ∈ s.calls.head?, call.elm? ≠ none
  | .look tv => tv.Reading ∧ ∃ call ∈ s.calls.head?, call.elm? = none
  | .timeout => ∃ call ∈ s.calls.head?, call.place.abstime? ≠ none
  | .called => ∃ call ∈ s.calls.head?, call.elm? ≠ none

instance (s : State) : (op : Op) → Decidable (Ok s op)
  | .add _ rfqe => inferInstanceAs (Decidable (s.eventq.heap rfqe = none ∧ ∀ call ∈ s.calls.head?, _ ≠ _))
  | .kill => .isTrue trivial
  | .poll _ => inferInstanceAs (Decidable (s.state = .running ∧ ∀ call ∈ s.calls.head?, _ ≠ _))
  | .look tv => inferInstanceAs (Decidable (tv.Reading ∧ ∃ call ∈ s.calls.head?, _ = _))
  | .timeout => inferInstanceAs (Decidable (∃ call ∈ s.calls.head?, _ ≠ _))
  | .called => inferInstanceAs (Decidable (∃ call ∈ s.calls.head?, _ ≠ _))

def machine : Machine State Op Out where
  Ok := Ok
  step := step

instance (s : State) (op : Op) : Decidable (machine.Ok s op) := inferInstanceAs (Decidable (Ok s op))

/-- A thread that does not poll yet. -/
def start : State := { state := .running, eventq := Fifoq.start 0 0, calls := [] }

/-- An infinite poll that returns has called an event. -/
def Waits (s : State) (op : Op) : Prop :=
  ∀ s' cnt, step s op = some (s', .returned cnt) → ∀ call ∈ s.calls.head?, call.timeoutMs = infinite → cnt ≠ 0

/-- An infinite poll that called no event yet finds one, or looks in the first millisecond of a second. -/
def Finds (s : State) : Op → Prop
  | .look tv => ∀ call ∈ s.calls.head?, call.timeoutMs = infinite → call.cnt = 0 →
      s.eventq.rfq.q ≠ [] ∨ tv.usec < 1000
  | .add _ _ => True
  | .kill => True
  | .poll _ => True
  | .timeout => True
  | .called => True

/-- Neither the events in the queue nor those of a poll are counted past `INT_MAX`. -/
def Counts (s : State) : Op → Prop
  | .add rte rfqe => Fifoq.Counts s.eventq (.add rte false rfqe)
  | .called => ∀ call ∈ s.calls.head?, call.cnt < Fifoq.intMax
  | .kill => True
  | .poll _ => True
  | .look _ => True
  | .timeout => True

instance (s : State) : (op : Op) → Decidable (Finds s op)
  | .look tv => inferInstanceAs (Decidable (∀ call ∈ s.calls.head?, _ = _ → _ = _ → _ ∨ tv.usec < 1000))
  | .add _ _ => .isTrue trivial
  | .kill => .isTrue trivial
  | .poll _ => .isTrue trivial
  | .timeout => .isTrue trivial
  | .called => .isTrue trivial

/-! ## The wait of an infinite poll -/

/-- **`RD_POLL_INFINITE`** is over at once, or is no time at all. -/
theorem condTimedwait_infinite {tv : Timeval} (htv : tv.Reading) :
    condTimedwait tv (deadline tv infinite) = if tv.usec < 1000 then .einval else .etimedout := by
  have hpast : (deadline tv infinite).total ≤ tv.total := by
    rw [deadline_total, infinite]
    omega
  have hnormal : (deadline tv infinite).Normal ↔ ¬tv.usec < 1000 := by
    rw [Int.not_lt]
    exact deadline_neg_normal_iff htv
  rw [condTimedwait, if_pos hpast]
  exact if_congr (not_iff_comm.1 hnormal.symm) rfl rfl

/-! ## One step -/

/-- The queue is well formed, the calls hold the elements whose events they call, and no infinite poll waits. -/
structure Inv (s : State) : Prop where
  core : Fifoq.Core s.eventq
  held : s.eventq.held = s.calls.filterMap Call.elm?
  cnt_nonneg : ∀ call ∈ s.calls, 0 ≤ call.cnt
  never : ∀ call ∈ s.calls, call.timeoutMs = infinite → call.place.abstime? = none

theorem start_inv : Inv start where
  core := Fifoq.start_core 0 le_rfl (by decide)
  held := rfl
  cnt_nonneg := fun _ hcall => (by cases hcall)
  never := fun _ hcall => (by cases hcall)

section Steps

variable {s : State} {call : Call} {calls : List Call}

/-- A call goes on as another one, or returns. -/
theorem Inv.step_head {s' : State} (h : Inv s) (hcalls : s.calls = call :: calls) (next : List Call)
    (hs' : s'.calls = next ++ calls) (hcore : Fifoq.Core s'.eventq)
    (hheld : s'.eventq.held = next.filterMap Call.elm? ++ calls.filterMap Call.elm?)
    (hnext : ∀ call ∈ next, 0 ≤ call.cnt ∧ (call.timeoutMs = infinite → call.place.abstime? = none)) : Inv s' := by
  have hmem : ∀ c ∈ s'.calls, c ∈ next ∨ c ∈ s.calls := by
    intro c hc
    rw [hs'] at hc
    rw [hcalls]
    exact (List.mem_append.1 hc).imp_right (List.mem_cons_of_mem call)
  refine ⟨hcore, ?_, fun c hc => ?_, fun c hc => ?_⟩
  · rw [hs', List.filterMap_append, hheld]
  · exact (hmem c hc).elim (fun hn => (hnext c hn).1) (h.cnt_nonneg c)
  · exact (hmem c hc).elim (fun hn => (hnext c hn).2) (h.never c)

theorem Inv.head_nonneg (h : Inv s) (hcalls : s.calls = call :: calls) : 0 ≤ call.cnt :=
  h.cnt_nonneg call (hcalls ▸ List.mem_cons_self)

/-- The elements of the other calls, if the last one calls no event. -/
theorem Inv.held_rest (h : Inv s) (hcalls : s.calls = call :: calls) (hplace : call.elm? = none) :
    s.eventq.held = calls.filterMap Call.elm? := by
  rw [h.held, hcalls, List.filterMap_cons_none hplace]

theorem Inv.waiting (h : Inv s) (w) : Inv { s with eventq := { s.eventq with waiting := w } } :=
  { h with core := { h.core with } }

/-- A call gives up. -/
theorem Inv.giveUp (h : Inv s) (hcalls : s.calls = call :: calls) (hplace : call.elm? = none) :
    Inv (giveUp s call calls).1 := by
  refine h.step_head hcalls [] rfl (h.waiting _).core ?_ ?_
  · exact h.held_rest hcalls hplace
  · exact fun _ hcall => (by cases hcall)

/-- A call goes on without an element. -/
theorem Inv.go (h : Inv s) (hcalls : s.calls = call :: calls) (hplace : call.elm? = none) {place : Place}
    (helm : place.elm? = none) (hnever : call.timeoutMs = infinite → place.abstime? = none) :
    Inv { s with calls := { call with place := place } :: calls } := by
  have hnonneg := h.head_nonneg hcalls
  have hnone : Call.elm? { call with place := place } = none := helm
  refine h.step_head hcalls [{ call with place := place }] rfl h.core ?_ ?_
  · rw [List.filterMap_cons_none hnone]
    exact h.held_rest hcalls hplace
  · intro c hc
    rw [List.mem_singleton.1 hc]
    exact ⟨hnonneg, hnever⟩

/-- **A look at a queue with an event**: it is called. -/
theorem look_event (h : Inv s) (hcalls : s.calls = call :: calls) (hplace : call.elm? = none)
    (hq : s.eventq.rfq.q ≠ []) (tv : Timeval) : ∃ s', look s tv = some (s', .silent) ∧ Inv s' := by
  obtain ⟨a, q, hq⟩ := List.exists_cons_of_ne_nil hq
  obtain ⟨p, hp⟩ := h.core.links.queued a (hq ▸ List.mem_cons_self)
  have hcnt : 0 < s.eventq.rfq.cnt := by
    rw [h.core.cnt, hq, List.length_cons]
    omega
  have hpop := Fifoq.popLocked_cons hq hcnt hp 0 (call.timeoutMs = nowait) call.timeoutMs
  obtain ⟨eventq, o, hpop', hcore, -⟩ := Fifoq.popLocked_core h.core 0 (call.timeoutMs = nowait) call.timeoutMs
  obtain ⟨heq, rfl⟩ := Prod.mk.inj (Option.some.inj (hpop.symm.trans hpop'))
  have hheld : eventq.held = a :: s.eventq.held := heq ▸ rfl
  have hnonneg := h.head_nonneg hcalls
  refine ⟨{ s with eventq := eventq, calls := { call with place := .calling a } :: calls }, ?_, ?_⟩
  · simp only [look, hcalls, hpop']
    rfl
  · refine h.step_head hcalls [{ call with place := .calling a }] rfl hcore ?_ ?_
    · exact hheld.trans (congrArg (a :: ·) (h.held_rest hcalls hplace))
    · intro c hc
      rw [List.mem_singleton.1 hc]
      exact ⟨hnonneg, fun _ => rfl⟩

/-- **A look at an empty queue**: the call gives up or waits. -/
theorem look_empty (hcalls : s.calls = call :: calls) (hq : s.eventq.rfq.q = []) (tv : Timeval) :
    ∃ w, look s tv = some (if call.timeoutMs = nowait
      then giveUp { s with eventq := { s.eventq with waiting := w } } call calls
      else block { s with eventq := { s.eventq with waiting := w } } call calls tv) := by
  by_cases hnow : call.timeoutMs = nowait
  · refine ⟨Function.update s.eventq.waiting 0 none, ?_⟩
    simp [look, hcalls, Fifoq.popLocked, hq, hnow]
  · refine ⟨Function.update s.eventq.waiting 0 (some call.timeoutMs), ?_⟩
    simp [look, hcalls, Fifoq.popLocked, hq, hnow]

/-- **A call that blocks** keeps the invariant; an infinite one gives up after the first millisecond of a second. -/
theorem block_ok (h : Inv s) (hcalls : s.calls = call :: calls) (hplace : call.elm? = none)
    (hnow : call.timeoutMs ≠ nowait) {tv : Timeval} (htv : tv.Reading) : Inv (block s call calls tv).1 ∧
      (call.timeoutMs = infinite → (block s call calls tv).2 = if tv.usec < 1000 then .silent else
        .returned call.cnt) := by
  have hanswer : call.timeoutMs = infinite →
      condTimedwait tv (deadline tv call.timeoutMs) = if tv.usec < 1000 then .einval else .etimedout :=
    fun hinf => hinf ▸ condTimedwait_infinite htv
  rw [block, if_pos (show call.timeoutMs ≠ 0 from hnow)]
  cases hcond : condTimedwait tv (deadline tv call.timeoutMs) with
  | einval =>
    refine ⟨h.go hcalls hplace rfl fun _ => rfl, fun hinf => ?_⟩
    have hlow := hcond.symm.trans (hanswer hinf)
    split at hlow
    · rw [if_pos ‹_›]
    · cases hlow
  | etimedout =>
    refine ⟨h.giveUp hcalls hplace, fun hinf => ?_⟩
    have hlow := hcond.symm.trans (hanswer hinf)
    split at hlow
    · cases hlow
    · rw [if_neg ‹_›]
      rfl
  | waits =>
    have hfinite : call.timeoutMs ≠ infinite := by
      intro hinf
      have hlow := hcond.symm.trans (hanswer hinf)
      split at hlow <;> cases hlow
    exact ⟨h.go hcalls hplace rfl fun hinf => absurd hinf hfinite, fun hinf => absurd hinf hfinite⟩

/-- **A look at the queue** by a call without an event. -/
theorem look_ok (h : Inv s) (hcalls : s.calls = call :: calls) (hplace : call.elm? = none) {tv : Timeval}
    (htv : tv.Reading) : ∃ s' o, look s tv = some (s', o) ∧ Inv s' ∧ (call.timeoutMs = infinite →
      o = if s.eventq.rfq.q ≠ [] ∨ tv.usec < 1000 then .silent else .returned call.cnt) := by
  by_cases hq : s.eventq.rfq.q = []
  · obtain ⟨w, hlook⟩ := look_empty hcalls hq tv
    by_cases hnow : call.timeoutMs = nowait
    · rw [if_pos hnow] at hlook
      refine ⟨_, _, hlook, (h.waiting w).giveUp hcalls hplace, fun hinf => ?_⟩
      exact absurd (hnow.symm.trans hinf) (by decide)
    · rw [if_neg hnow] at hlook
      obtain ⟨hinv, hout⟩ := block_ok (h.waiting w) hcalls hplace hnow htv
      refine ⟨_, _, hlook, hinv, fun hinf => (hout hinf).trans ?_⟩
      exact if_congr (or_iff_right fun hne => hne hq).symm rfl rfl
  · obtain ⟨s', hlook, hinv⟩ := look_event h hcalls hplace hq tv
    exact ⟨s', .silent, hlook, hinv, fun _ => (if_pos (.inl hq)).symm⟩

/-- **The function of an event returns**: the element is released, and the call goes on or returns. -/
theorem called_ok (h : Inv s) (hcalls : s.calls = call :: calls) {a : Addr} (hplace : call.elm? = some a)
    (hcnt : call.cnt < Fifoq.intMax) : ∃ s' o, called s = some (s', o) ∧ Inv s' ∧
      ∀ cnt, o = .returned cnt → cnt = call.cnt + 1 := by
  have hheld : s.eventq.held = a :: calls.filterMap Call.elm? := by
    rw [h.held, hcalls, List.filterMap_cons_some hplace]
  obtain ⟨eventq, o, hrelease, hcore, -⟩ := Fifoq.release_core h.core (hheld ▸ List.mem_cons_self)
  have hheld' : eventq.held = calls.filterMap Call.elm? := by
    rw [Fifoq.release_held hrelease, hheld, List.erase_cons_head]
  have hincr : Fifoq.incr call.cnt = some (call.cnt + 1) := if_pos hcnt
  have hnonneg := h.head_nonneg hcalls
  by_cases hexit : s.state = .exiting
  · refine ⟨{ s with eventq := eventq, calls := calls }, .returned (call.cnt + 1), ?_, ?_, fun cnt hout => ?_⟩
    · simp [called, hcalls, hplace, hrelease, hincr, hexit]
    · exact h.step_head hcalls [] rfl hcore hheld' fun _ hc => (by cases hc)
    · exact (Out.returned.inj hout).symm
  · refine ⟨{ s with eventq := eventq, calls := { call with cnt := call.cnt + 1, place := .entering } :: calls },
      .silent, ?_, ?_, fun cnt hout => (by cases hout)⟩
    · simp [called, hcalls, hplace, hrelease, hincr, hexit]
    · refine h.step_head hcalls [{ call with cnt := call.cnt + 1, place := .entering }] rfl hcore hheld' ?_
      intro c hc
      rw [List.mem_singleton.1 hc]
      exact ⟨Int.add_nonneg hnonneg (by decide), fun _ => rfl⟩

/-- A count that would pass `INT_MAX`. -/
theorem called_overflow (hcalls : s.calls = call :: calls) (hcnt : ¬call.cnt < Fifoq.intMax) : called s = none := by
  have hincr : Fifoq.incr call.cnt = none := if_neg hcnt
  simp [called, hcalls, hincr]

theorem Place.elm?_of_abstime {place : Place} (h : place.abstime? ≠ none) : place.elm? = none := by
  cases place with
  | waiting abstime => rfl
  | entering => rfl
  | locked => rfl
  | calling rfqe => exact absurd rfl h

/-- The last call. -/
theorem exists_calls (h : call ∈ s.calls.head?) : ∃ calls, s.calls = call :: calls :=
  List.head?_eq_some_iff.1 h

/-- **One step** that does not count past `INT_MAX` does not fault and keeps the invariant. -/
theorem step_ok {op : Op} (h : Inv s) (hok : Ok s op) (hcounts : Counts s op) :
    ∃ s' o, step s op = some (s', o) ∧ Inv s' := by
  cases op with
  | add rte rfqe =>
    obtain ⟨eventq, o, hadd, hcore⟩ := Fifoq.step_core h.core (.add rte false rfqe) hok.1 hcounts
    refine ⟨{ s with eventq := eventq }, .silent, ?_, { h with core := hcore, held := ?_ }⟩
    · rw [step, hadd]
      rfl
    · exact (Fifoq.add_held hadd).trans h.held
  | kill => exact ⟨_, _, rfl, { h with }⟩
  | poll timeoutMs =>
    refine ⟨_, _, rfl, h.core, ?_, ?_, ?_⟩
    · exact h.held
    · exact List.forall_mem_cons.2 ⟨le_rfl, h.cnt_nonneg⟩
    · exact List.forall_mem_cons.2 ⟨fun _ => rfl, h.never⟩
  | look tv =>
    obtain ⟨htv, call, hcall, hplace⟩ := hok
    obtain ⟨calls, hcalls⟩ := exists_calls hcall
    obtain ⟨s', o, hlook, hinv, -⟩ := look_ok h hcalls hplace htv
    exact ⟨s', o, hlook, hinv⟩
  | timeout =>
    obtain ⟨call, hcall, hwait⟩ := hok
    obtain ⟨calls, hcalls⟩ := exists_calls hcall
    refine ⟨_, .returned call.cnt, ?_, h.giveUp hcalls (Place.elm?_of_abstime hwait)⟩
    simp only [step, timeout, hcalls]
    rfl
  | called =>
    obtain ⟨call, hcall, hplace⟩ := hok
    obtain ⟨calls, hcalls⟩ := exists_calls hcall
    obtain ⟨a, ha⟩ := Option.ne_none_iff_exists'.1 hplace
    obtain ⟨s', o, hcalled, hinv, -⟩ := called_ok h hcalls ha (hcounts call hcall)
    exact ⟨s', o, hcalled, hinv⟩

/-- A step that would count past `INT_MAX`. -/
theorem step_overflow {op : Op} (h : Inv s) (hok : Ok s op) (hcounts : ¬Counts s op) : step s op = none := by
  cases op with
  | add rte rfqe =>
    simp only [Counts, Fifoq.Counts, Classical.not_imp] at hcounts
    have hfull : ¬s.eventq.rfq.cnt < Fifoq.intMax := by rw [h.core.cnt]; exact hcounts.2
    rw [step, Fifoq.add_overflow h.core (fun hlimit => hlimit.1 hcounts.1) hfull]
    rfl
  | called =>
    simp only [Counts, not_forall] at hcounts
    obtain ⟨call, hcall, hcnt⟩ := hcounts
    obtain ⟨calls, hcalls⟩ := exists_calls hcall
    exact called_overflow hcalls hcnt
  | kill => exact absurd trivial hcounts
  | poll timeoutMs => exact absurd trivial hcounts
  | look tv => exact absurd trivial hcounts
  | timeout => exact absurd trivial hcounts

/-- **What an infinite poll returns** in one step. -/
theorem step_waits_iff {op : Op} (h : Inv s) (hok : Ok s op) : Waits s op ↔ Finds s op := by
  cases op with
  | add rte rfqe =>
    refine iff_of_true (fun s' cnt hstep => ?_) trivial
    obtain ⟨p, -, heq⟩ := Option.map_eq_some_iff.1 hstep
    cases heq
  | kill => exact iff_of_true (fun s' cnt hstep => by cases hstep) trivial
  | poll timeoutMs => exact iff_of_true (fun s' cnt hstep => by cases hstep) trivial
  | look tv =>
    obtain ⟨htv, call, hcall, hplace⟩ := hok
    obtain ⟨calls, hcalls⟩ := exists_calls hcall
    obtain ⟨s', o, hlook, -, hout⟩ := look_ok h hcalls hplace htv
    constructor
    · intro hwaits c hc hinf hzero
      obtain rfl : call = c := Option.some.inj (hcall.symm.trans hc)
      by_contra hnot
      rw [if_neg hnot] at hout
      exact hwaits s' call.cnt (hout hinf ▸ hlook) call hc hinf hzero
    · intro hfinds s'' cnt hstep c hc hinf hzero
      obtain rfl : call = c := Option.some.inj (hcall.symm.trans hc)
      obtain ⟨-, rfl⟩ := Prod.mk.inj (Option.some.inj (hlook.symm.trans hstep))
      have hret := hout hinf
      split at hret
      · cases hret
      · cases hret
        exact ‹¬_› (hfinds call hc hinf hzero)
  | timeout =>
    refine iff_of_true (fun s' cnt hstep c hc hinf => ?_) trivial
    obtain ⟨call, hcall, hwait⟩ := hok
    obtain rfl : call = c := Option.some.inj (hcall.symm.trans hc)
    exact absurd (h.never call (List.mem_of_mem_head? hc) hinf) hwait
  | called =>
    refine iff_of_true (fun s' cnt hstep c hc hinf => ?_) trivial
    obtain ⟨call, hcall, hplace⟩ := hok
    obtain ⟨calls, hcalls⟩ := exists_calls hcall
    obtain ⟨a, ha⟩ := Option.ne_none_iff_exists'.1 hplace
    have hcnt : call.cnt < Fifoq.intMax := by
      by_contra hfull
      exact absurd (hstep.symm.trans (called_overflow hcalls hfull)) (Option.some_ne_none _)
    obtain ⟨s'', o, hcalled, -, hret⟩ := called_ok h hcalls ha hcnt
    obtain ⟨-, rfl⟩ := Prod.mk.inj (Option.some.inj (hcalled.symm.trans hstep))
    have hnonneg := h.head_nonneg hcalls
    rw [hret cnt rfl]
    omega

theorem step_inv {op : Op} {s' : State} {o : Out} (h : Inv s) (hok : Ok s op) (hstep : step s op = some (s', o)) :
    Inv s' := by
  have hcounts : Counts s op := by
    by_contra hnot
    exact absurd (hstep.symm.trans (step_overflow h hok hnot)) (Option.some_ne_none _)
  obtain ⟨s1, o1, hstep1, hinv⟩ := step_ok h hok hcounts
  obtain ⟨rfl, -⟩ := Prod.mk.inj (Option.some.inj (hstep1.symm.trans hstep))
  exact hinv

end Steps

/-! ## Runs -/

/-- A run that does not count past `INT_MAX` does not fault. -/
theorem run_counts (ops : List Op) (hok : machine.Admits start ops) (hcounts : machine.Each Counts start ops) :
    ∃ s outs, machine.run start ops = some (s, outs) ∧ Inv s :=
  Machine.run_hist (I := fun s _ => Inv s) (fun _ _ _ h hboth => step_ok h hboth.1 hboth.2) ops start [] start_inv
    (Machine.each_and hok hcounts)

/-- **Infinite polls.** In a run of a thread, no `rd_thread_poll` with `RD_POLL_INFINITE` returns 0 if and only if each
of them finds an event in the queue when it looks for its first one, or looks in the first millisecond of a second. -/
theorem poll_waits_iff (ops : List Op) (hok : machine.Admits start ops) :
    machine.Each Waits start ops ↔ machine.Each Finds start ops :=
  Machine.each_iff (I := Inv) (C := Ok) (fun _ _ => step_waits_iff) (fun _ _ _ _ => step_inv) ops start_inv hok

/-- Two events, one of which is added while the other is called. -/
theorem poll_waits_two : machine.Each Waits start
    [.add 7 0, .poll infinite, .look ⟨10, 5000⟩, .add 8 1, .called, .look ⟨10, 6000⟩, .called, .look ⟨10, 7000⟩] :=
  (poll_waits_iff _ (by decide)).2 (by decide)

/-- An infinite poll of an empty queue returns 0. -/
theorem poll_gives_up : machine.Admits start [.poll infinite, .look ⟨10, 5000⟩] ∧
    (∃ s, machine.run start [.poll infinite, .look ⟨10, 5000⟩] = some (s, [.silent, .returned 0])) ∧
    ¬machine.Each Waits start [.poll infinite, .look ⟨10, 5000⟩] := by
  refine ⟨by decide, ⟨_, rfl⟩, ?_⟩
  rintro ⟨-, hwaits, -⟩
  exact hwaits _ 0 rfl _ rfl rfl rfl

end Librd.Thread.Poll
