import Librd.Lib.Machine
import Mathlib.Logic.Function.Basic

/-!
# The IO thread and its workers (`rdiothread.c`)

`rd_io_add` and `rd_io_del` register descriptors with epoll and keep a list of handles with references. The IO thread
waits for events, calls the handlers that promise not to block, and hands the other events to worker threads, each with
a queue of its own. Workers are taken from a list of free ones, or created up to a limit.

All of these run at the same time, so the model is a machine whose operations are one step of one thread each: a step is
what a thread does up to its next use of a lock, an atomic counter, epoll or a queue. The calls use `rioh_events` and
`rioh_fd` of their handle without a lock, and each read and each write of these is a step of its own. What is still one
step: the five stores of `rd_io_add`; what a thread reads of a handle that it is about to call or to hand to a worker;
the first `rd_atomic_add` of `rd_io_thread_started` with the start of the IO thread; and in `rd_io_hnd_destroy` the last
`rd_atomic_sub` with the assertion, the removal and the `free`. A step of a thread that has nothing to do changes
nothing. A fault is a failed assertion, or the use of a handle that was freed or of a thread that does not exist. What
the kernel answers is part of the schedule.

The counters `rioh_refcnt` and `rd_io_thread_started` are unbounded here, and `rd_thread_create` makes the worker it is
asked for: the code does not look at its result.
-/

namespace Librd.Io

/-- `RD_IO_THREAD_WORKERS_MAX`. -/
def workersMax : Nat := 100

/-- The events that one `epoll_wait` can return. -/
def eventsMax : Nat := 100

/-- `RD_IO_F_NONBLOCKING`. -/
def ioNonblocking : BitVec 32 := 0x1

/-! ## Data -/

/-- `rioh_handler`, `rioh_target_thread` and `rioh_opaque`. -/
structure Callback where
  handler : Nat
  targetThread : Option Nat
  ptr : Nat
  deriving DecidableEq, Repr

/-- `rd_io_hnd_t`, as `calloc` leaves it. -/
structure Hnd where
  fd : Int := 0
  refcnt : Int := 0
  flags : BitVec 32 := 0
  events : BitVec 32 := 0
  cb : Option Callback := none
  workerThread : Option Nat := none
  deriving DecidableEq, Repr

/-- `rd_io_hnd_event_t`, with a number that tells events apart. -/
structure HndEvent where
  rioh : Nat
  events : BitVec 32
  serial : Nat
  deriving DecidableEq, Repr

/-- Where a worker is in `rd_io_hnd_work`. -/
inductive WorkPc
  | idle
  | popped (ev : HndEvent)
  | calling (ev : HndEvent)
  | called (ev : HndEvent)
  deriving DecidableEq, Repr

/-- A worker thread: `rdt_eventq`, and what it is doing. -/
structure Worker where
  eventq : List HndEvent := []
  pc : WorkPc := .idle
  deriving DecidableEq, Repr

/-- Where the IO thread is, with the rest of the events of the last `epoll_wait`. -/
inductive IoPc
  | wait
  | batch (evs : List (Nat × BitVec 32))
  | calling (rioh : Nat) (evs : List (Nat × BitVec 32))
  | getting (ev : HndEvent) (evs : List (Nat × BitVec 32))
  | adding (rdt : Nat) (ev : HndEvent) (evs : List (Nat × BitVec 32))
  deriving DecidableEq, Repr

/-- Where a call of `rd_io_add` or `rd_io_del` is. The last `n + 1` calls of `rd_io_hnd_destroy` and the result are
`drop`. -/
inductive Task
  | addGot (rioh : Nat) (events flags : BitVec 32) (cb : Callback)
  | addNew (rioh : Nat) (new : Bool) (events flags : BitVec 32) (cb : Callback)
  | addSet (rioh : Nat) (new : Bool)
  | addStarted (rioh : Nat) (new : Bool)
  | addKept (rioh : Nat) (new : Bool)
  | addRead (rioh : Nat) (new : Bool) (fd : Int)
  | delGot (rioh : Nat)
  | delTested (rioh : Nat)
  | delRead (rioh : Nat) (fd : Int)
  | delCleared (rioh : Nat) (fd : Int)
  | drop (rioh n : Nat) (ret : Int)
  deriving DecidableEq, Repr

/-- What can be seen of a step: an event is delivered for a handle, a handler is invoked, a call returns. -/
inductive Obs
  | delivered (ev : HndEvent)
  | invoked (ev : HndEvent) (fd : Int) (cb : Option Callback)
  | returned (ret : Int)
  deriving DecidableEq, Repr

/-- Handles by address; `next` is the address of the next one. -/
structure State where
  heap : Nat → Option Hnd := fun _ => none
  next : Nat := 0
  hnds : List Nat := []
  epoll : Int → Option Nat := fun _ => none
  started : Int := 0
  up : Bool := false
  workerLru : List Nat := []
  workerCnt : Nat := 0
  workers : List Worker := []
  io : IoPc := .wait
  tasks : List Task := []
  serial : Nat := 0

namespace State

variable (s : State)

/-- A handle is changed. -/
def put (rioh : Nat) (a : Hnd) : State := { s with heap := Function.update s.heap rioh (some a) }

/-- A call goes on. -/
def setTask (t : Nat) (task : Task) : State := { s with tasks := s.tasks.set t task }

/-- A call returns. -/
def endTask (t : Nat) : State := { s with tasks := s.tasks.eraseIdx t }

/-- A worker goes on. -/
def setWorker (w : Nat) (worker : Worker) : State := { s with workers := s.workers.set w worker }

/-- The IO thread goes on. -/
def setIo (pc : IoPc) : State := { s with io := pc }

/-- An event gets its number. -/
def count : State := { s with serial := s.serial + 1 }

end State

/-! ## References -/

/-- `rd_io_hnd_keep`. -/
def ioHndKeep (s : State) (rioh : Nat) : Option State := do
  let a ← s.heap rioh
  return s.put rioh { a with refcnt := a.refcnt + 1 }

/-- `rd_io_hnd_destroy`. -/
def ioHndDestroy (s : State) (rioh : Nat) : Option State := do
  let a ← s.heap rioh
  if a.refcnt - 1 > 0 then return s.put rioh { a with refcnt := a.refcnt - 1 }
  else if a.fd = -1 then
    return { s with hnds := s.hnds.erase rioh, heap := Function.update s.heap rioh none }
  else none

/-- The handle of a descriptor: the first one in the list. -/
def findHnd (s : State) (fd : Int) : Option Nat :=
  s.hnds.find? fun rioh => (s.heap rioh).any fun a => a.fd == fd

/-- `rd_io_hnd_get`. -/
def ioHndGet (s : State) (fd : Int) (doCreate : Bool) : Option (State × Option Nat) :=
  match findHnd s fd with
  | some rioh => do return (← ioHndKeep s rioh, some rioh)
  | none =>
    if doCreate then
      let s' := s.put s.next { fd := fd, refcnt := 1 }
      some ({ s' with next := s.next + 1, hnds := s.next :: s.hnds }, some s.next)
    else some (s, none)

/-! ## Calls -/

/-- The start of `rd_io_del`. -/
def ioDel (s : State) (fd : Int) : Option (State × List Obs) := do
  match ← ioHndGet s fd false with
  | (s, none) => return (s, [.returned 0])
  | (s, some rioh) => return ({ s with tasks := s.tasks ++ [.delGot rioh] }, [])

/-- The start of `rd_io_add`. -/
def ioAdd (s : State) (fd : Int) (events flags : BitVec 32) (cb : Callback) : Option (State × List Obs) :=
  if events = 0 then ioDel s fd
  else do
    match ← ioHndGet s fd true with
    | (_, none) => none
    | (s, some rioh) => return ({ s with tasks := s.tasks ++ [.addGot rioh events flags cb] }, [])

/-- `epoll_ctl` takes a descriptor that is new, or one that it has. -/
def CtlTakes (s : State) (fd : Int) (new : Bool) : Prop := fd ≠ -1 ∧ (new = true ↔ s.epoll fd = none)

instance (s : State) (fd : Int) (new : Bool) : Decidable (CtlTakes s fd new) :=
  inferInstanceAs (Decidable (fd ≠ -1 ∧ (new = true ↔ s.epoll fd = none)))

/-- The next step of the call `t`, which is at `task`; `ok` is what the kernel answers. -/
def runTask (s : State) (t : Nat) (ok : Bool) : Task → Option (State × List Obs)
  | .addGot rioh events flags cb => do
    let a ← s.heap rioh
    return (s.setTask t (.addNew rioh (a.events = 0) events flags cb), [])
  | .addNew rioh new events flags cb => do
    let a ← s.heap rioh
    let s := s.put rioh { a with cb := some cb, events := events, flags := flags }
    return (s.setTask t (.addSet rioh new), [])
  | .addSet rioh new =>
    if s.started + 1 = 1 then
      if ok then some ({ s with started := s.started + 1, up := true }.setTask t (.addStarted rioh new), [])
      else some (s.setTask t (.drop rioh 0 (-1)), [])
    else some ({ s with started := s.started + 1 }.setTask t (.addStarted rioh new), [])
  | .addStarted rioh new => do
    let s ← ioHndKeep s rioh
    return (s.setTask t (.addKept rioh new), [])
  | .addKept rioh new => do
    let a ← s.heap rioh
    return (s.setTask t (.addRead rioh new a.fd), [])
  | .addRead rioh new fd =>
    if ok = true ∧ CtlTakes s fd new then
      some ({ s with epoll := Function.update s.epoll fd (some rioh) }.endTask t, [.returned 0])
    else some (s.setTask t (.drop rioh 1 0), [])
  | .delGot rioh => do
    let a ← s.heap rioh
    if a.fd ≠ -1 then return (s.setTask t (.delTested rioh), [])
    else return (s.setTask t (.drop rioh 0 0), [])
  | .delTested rioh => do
    let a ← s.heap rioh
    return (s.setTask t (.delRead rioh a.fd), [])
  | .delRead rioh fd => do
    let a ← s.heap rioh
    return ((s.put rioh { a with fd := -1 }).setTask t (.delCleared rioh fd), [])
  | .delCleared rioh fd =>
    -- the result of this `epoll_ctl` is not looked at
    some ({ s with epoll := Function.update s.epoll fd none }.setTask t (.drop rioh 1 0), [])
  | .drop rioh 0 ret => do
    let s ← ioHndDestroy s rioh
    return (s.endTask t, [.returned ret])
  | .drop rioh (n + 1) ret => do
    let s ← ioHndDestroy s rioh
    return (s.setTask t (.drop rioh n ret), [])

/-- A call takes its next step. -/
def taskStep (s : State) (t : Nat) (ok : Bool) : Option (State × List Obs) :=
  match s.tasks[t]? with
  | none => some (s, [])
  | some task => runTask s t ok task

/-! ## Workers -/

/-- `rd_lru_pop`: the last one. -/
def lruPop (lru : List Nat) : Option Nat × List Nat := (lru.getLast?, lru.dropLast)

/-- One round of `rd_io_worker_get`: the worker it returns, unless it has to wait. -/
def ioWorkerGet (s : State) : State × Option Nat :=
  match lruPop s.workerLru with
  | (some rdt, lru) => ({ s with workerLru := lru }, some rdt)
  | (none, lru) =>
    if s.workerCnt ≥ workersMax then ({ s with workerLru := lru }, none)
    else ({ s with workerLru := lru, workerCnt := s.workerCnt + 1, workers := s.workers ++ [{}] },
      some s.workers.length)

/-- `rd_thread_event_add` with `rd_io_hnd_work`. -/
def threadEventAdd (s : State) (rdt : Nat) (ev : HndEvent) : Option State := do
  let worker ← s.workers[rdt]?
  return s.setWorker rdt { worker with eventq := worker.eventq ++ [ev] }

/-- The next step of the worker `w` with the queue `q` in `rd_thread_poll` and `rd_io_hnd_work`. -/
def runWorker (s : State) (w : Nat) (q : List HndEvent) : WorkPc → Option (State × List Obs)
  | .idle =>
    match q with
    | [] => some (s, [])
    | ev :: q => some (s.setWorker w { eventq := q, pc := .popped ev }, [])
  | .popped ev => do
    let a ← s.heap ev.rioh
    let s ← ioHndKeep s ev.rioh
    return (s.setWorker w { eventq := q, pc := .calling ev }, [.invoked ev a.fd a.cb])
  | .calling ev => do
    let s ← ioHndDestroy s ev.rioh
    return (s.setWorker w { eventq := q, pc := .called ev }, [])
  | .called ev => do
    let s ← ioHndDestroy s ev.rioh
    return (s.setWorker w { eventq := q, pc := .idle }, [])

/-- A worker takes its next step. -/
def workerStep (s : State) (w : Nat) : Option (State × List Obs) :=
  match s.workers[w]? with
  | none => some (s, [])
  | some worker => runWorker s w worker.eventq worker.pc

/-! ## The IO thread -/

/-- `epoll_wait` returns: descriptors that are registered, each once, with their events. -/
def ioWait (s : State) (evs : List (Int × BitVec 32)) : State :=
  if s.io = .wait ∧ s.up = true ∧ evs.length ≤ eventsMax ∧ (evs.map Prod.fst).Nodup ∧
      ∀ e ∈ evs, s.epoll e.1 ≠ none then
    s.setIo (.batch (evs.filterMap fun e => (s.epoll e.1).map fun rioh => (rioh, e.2)))
  else s

/-- `rd_io_hnd_enqueue_worker` up to where it has to have a worker, or to where the handler is invoked. -/
def ioHndEnqueueWorker (s : State) (rioh : Nat) (a : Hnd) (events : BitVec 32) (evs : List (Nat × BitVec 32)) :
    Option (State × List Obs) :=
  let ev : HndEvent := { rioh := rioh, events := events, serial := s.serial }
  if a.flags &&& ioNonblocking ≠ 0 then do
    let s ← ioHndKeep s rioh
    return (s.count.setIo (.calling rioh evs), [.delivered ev, .invoked ev a.fd a.cb])
  else match a.workerThread with
    | some rdt => some (s.count.setIo (.adding rdt ev evs), [.delivered ev])
    | none => some (s.count.setIo (.getting ev evs), [.delivered ev])

/-- The next step of `rd_io_thread_main`. -/
def runIo (s : State) : IoPc → Option (State × List Obs)
  | .wait => some (s, [])
  | .batch [] => some (s.setIo .wait, [])
  | .batch ((rioh, events) :: evs) => do
    let a ← s.heap rioh
    if a.fd = -1 then return (s.setIo (.batch evs), [])
    else ioHndEnqueueWorker s rioh a events evs
  | .calling rioh evs => do
    let s ← ioHndDestroy s rioh
    return (s.setIo (.batch evs), [])
  | .getting ev evs =>
    match ioWorkerGet s with
    | (s, none) => some (s, [])
    | (s, some rdt) => some (s.setIo (.adding rdt ev evs), [])
  | .adding rdt ev evs => do
    let s ← ioHndKeep s ev.rioh
    let s ← threadEventAdd s rdt ev
    return (s.setIo (.batch evs), [])

/-! ## The machine -/

inductive Step
  | add (fd : Int) (events flags : BitVec 32) (cb : Callback)
  | del (fd : Int)
  | task (t : Nat) (ok : Bool)
  | wait (evs : List (Int × BitVec 32))
  | io
  | worker (w : Nat)
  deriving DecidableEq, Repr

def step (s : State) : Step → Option (State × List Obs)
  | .add fd events flags cb => ioAdd s fd events flags cb
  | .del fd => ioDel s fd
  | .task t ok => taskStep s t ok
  | .wait evs => some (ioWait s evs, [])
  | .io => runIo s s.io
  | .worker w => workerStep s w

/-- Calls may be made at any time, and every thread may take the next step. -/
def ioMachine : Machine State Step (List Obs) where
  Ok _ _ := True
  step := step

/-- Before the first call. -/
def initial : State := {}

/-- No call is in progress. -/
def Quiet (s : State) : Prop := s.tasks = []

end Librd.Io
