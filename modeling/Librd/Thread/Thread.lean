import Librd.Lib.Machine
import Mathlib.Logic.Function.Basic

/-!
# Threads (`rdthread.c`, `rdthread.h`)

`rd_thread_create` makes the handle of a thread and starts it; `rd_thread_exit` and `rd_thread_kill` tell it to end;
when its start routine returns, or when `pthread_create` fails, `rd_thread_destroy` frees the handle. Threads run at the
same time, so the model is a machine whose operations are one step of one thread each. Handles are numbered in the order
in which they are made; a failed assertion and the use of a freed handle are faults. What `pthread_create` answers is
part of the schedule. The `prctl` after it is left out.

`rd_threads_create` calls `rd_thread_create` for a number of threads.
-/

namespace Librd.Thread

abbrev Text := List Char

/-- `rdt_state`. -/
inductive ThreadState
  | none
  | running
  | exiting
  | dead
  deriving DecidableEq, Repr

/-- `rd_thread_t`. -/
structure Rdt where
  name : Option Text
  state : ThreadState
  deriving DecidableEq, Repr

/-- The life of a handle: not made yet; made, while `rd_thread_create` waits for `pthread_create`, with or without a
place that it is given to; in use by a thread whose start routine runs; freed. -/
inductive Slot
  | unborn
  | creating (rdt : Rdt) (place : Bool)
  | running (rdt : Rdt)
  | freed
  deriving DecidableEq, Repr

/-- The handle, unless it is not allocated. -/
def Slot.rdt? : Slot → Option Rdt
  | .creating rdt _ => some rdt
  | .running rdt => some rdt
  | _ => .none

/-- The handle is changed. -/
def Slot.set (rdt : Rdt) : Slot → Slot
  | .creating _ place => .creating rdt place
  | .running _ => .running rdt
  | slot => slot

/-- Handles by number. -/
structure State where
  slots : Nat → Slot := fun _ => .unborn
  next : Nat := 0

/-- The life of a handle goes on. -/
def State.put (s : State) (id : Nat) (slot : Slot) : State := { s with slots := Function.update s.slots id slot }

@[simp] theorem State.put_self (s : State) (id : Nat) (slot : Slot) : (s.put id slot).slots id = slot := by
  simp [State.put]

theorem State.put_of_ne (s : State) {id j : Nat} (slot : Slot) (h : j ≠ id) : (s.put id slot).slots j = s.slots j := by
  simp [State.put, h]

/-- What a step gives back: the result of `rd_thread_create`, with `*rdt` if there is one. -/
inductive Out
  | silent
  | returned (ret : Int) (rdt : Option (Option Nat))
  deriving DecidableEq, Repr

/-- `rd_thread_create0`: the handle that is made. -/
def threadCreate0 (name : Option Text) : Rdt := { name := name, state := .running }

/-- `rd_thread_create` up to `pthread_create`; `place` says whether there is an `rdt`, which is set to the handle. -/
def threadCreate (s : State) (name : Option Text) (place : Bool) : State :=
  { s.put s.next (.creating (threadCreate0 name) place) with next := s.next + 1 }

/-- `rd_thread_destroy`. -/
def threadDestroy (rdt : Rdt) : Option Slot := do
  guard (rdt.state ≠ .running)
  return .freed

/-- The rest of `rd_thread_create`, when `pthread_create` returns. -/
def threadCreated (s : State) (id : Nat) (ok : Bool) : Option (State × Out) :=
  match s.slots id with
  | .creating rdt place =>
    if ok then some (s.put id (.running rdt), .returned 0 (if place then some (some id) else .none))
    else do return (s.put id (← threadDestroy rdt), .returned (-1) (if place then some .none else .none))
  | _ => .none

/-- `rd_thread_exit` by the thread itself. -/
def threadExit (s : State) (id : Nat) : Option State := do
  let rdt ← (s.slots id).rdt?
  guard (rdt.state = .running ∨ rdt.state = .exiting)
  return s.put id ((s.slots id).set { rdt with state := .exiting })

/-- `rd_thread_kill`. -/
def threadKill (s : State) (id : Nat) : Option State := do
  let rdt ← (s.slots id).rdt?
  return s.put id ((s.slots id).set { rdt with state := .exiting })

/-- The end of `rd_thread_start_routine`, when the start routine returns. -/
def startRoutine (s : State) (id : Nat) : Option State :=
  match s.slots id with
  | .running rdt => do return s.put id (← threadDestroy rdt)
  | _ => .none

inductive Op
  | create (name : Option Text) (place : Bool)
  | pthread (id : Nat) (ok : Bool)
  | exit (id : Nat)
  | kill (id : Nat)
  | finish (id : Nat)
  deriving DecidableEq, Repr

def step (s : State) : Op → Option (State × Out)
  | .create name place => some (threadCreate s name place, .silent)
  | .pthread id ok => threadCreated s id ok
  | .exit id => (threadExit s id).map (·, .silent)
  | .kill id => (threadKill s id).map (·, .silent)
  | .finish id => (startRoutine s id).map (·, .silent)

/-- `rd_thread_create` waits for `pthread_create`. -/
def Slot.Waits : Slot → Prop
  | .creating _ _ => True
  | _ => False

/-- The start routine runs. -/
def Slot.Runs : Slot → Prop
  | .running _ => True
  | _ => False

instance : (slot : Slot) → Decidable slot.Waits
  | .creating _ _ => .isTrue trivial
  | .unborn => .isFalse id
  | .running _ => .isFalse id
  | .freed => .isFalse id

instance : (slot : Slot) → Decidable slot.Runs
  | .running _ => .isTrue trivial
  | .unborn => .isFalse id
  | .creating _ _ => .isFalse id
  | .freed => .isFalse id

/-- `pthread_create` answers a call that waits for it; a thread leaves, or ends, while its start routine runs; and a
handle is not used after it was freed. -/
def Ok (s : State) : Op → Prop
  | .create _ _ => True
  | .pthread id _ => (s.slots id).Waits
  | .exit id => (s.slots id).Runs
  | .kill id => (s.slots id).rdt? ≠ .none
  | .finish id => (s.slots id).Runs

instance (s : State) : (op : Op) → Decidable (Ok s op)
  | .create _ _ => .isTrue trivial
  | .pthread id _ => inferInstanceAs (Decidable (s.slots id).Waits)
  | .exit id => inferInstanceAs (Decidable (s.slots id).Runs)
  | .kill id => inferInstanceAs (Decidable ((s.slots id).rdt? ≠ .none))
  | .finish id => inferInstanceAs (Decidable (s.slots id).Runs)

/-- Before the first call. -/
def initial : State := {}

/-! ## `rd_threads_create` -/

/-- `sprintf(name, "%s%i", ..)`: the buffer has `strlen(nameprefix) + 4` bytes. -/
def sprintfName ( nameprefix : Text) (i : Nat) : Option Text :=
  let name := nameprefix ++ (toString i).toList
  if name.length + 1 ≤ nameprefix.length + 4 then some name else .none

/-- The loop over `left` threads from `i` on; `create` gives the result of each call of `rd_thread_create`. -/
def createLoop ( nameprefix : Text) (create : Nat → Text → Int) : Nat → Nat → Int → Option Int
  | 0, _, failed => some failed
  | left + 1, i, failed => do
    let name ← sprintfName nameprefix i
    createLoop nameprefix create left (i + 1) (if create i name = 0 then failed + 1 else failed)

/-- `rd_threads_create`. -/
def threadsCreate ( nameprefix : Text) (threadcount : Int) (create : Nat → Text → Int) : Option Int := do
  if threadcount ≥ 1000 then return -1
  let failed ← createLoop nameprefix create threadcount.toNat 0 0
  if failed = threadcount then return -1
  return threadcount - failed

end Librd.Thread
