import Librd.Lib.Machine
import Mathlib.Logic.Function.Basic

/-!
# FIFO queues (`rdqueue.c`, `rdqueue.h`)

`rd_fifoq_add0`, `rd_fifoq_pop0` and `rd_fifoq_elm_release` for any number of producers and consumers. Each of them
works under `rfq_lock`, which a waiting consumer gives up, so an interleaving is a list of operations: whole adds, the
part of a pop up to its return or its wait, the wake-ups and timeouts of waiting consumers, and releases.

Elements live on a heap: using one that is not allocated is a fault, and so are a failed assertion and an `int` that
overflows. `malloc` gives any address that is not in use, so the address is part of the operation. A wake-up needs no
signal, as condition variables allow.
-/

namespace Librd.Fifoq

abbrev Addr := Nat

abbrev Tid := Nat

/-- `void *`; 0 is `NULL`. -/
abbrev Ptr := Nat

/-- `rd_fifoq_elm_t`; the links are the list that holds it. -/
structure Elm where
  refcnt : Int
  ptr : Ptr
  deriving DecidableEq, Repr

/-- `rd_fifoq_t`. -/
structure Rfq where
  q : List Addr
  cnt : Int
  maxSize : Int
  taildrop : Bool
  inited : Bool
  deriving DecidableEq, Repr

abbrev Heap := Addr → Option Elm

/-- The queue with its elements, the consumers waiting in `rd_fifoq_pop0` with their `timeout_ms`, and the elements
that consumers got and did not release yet. -/
structure State where
  rfq : Rfq
  heap : Heap
  waiting : Tid → Option Int
  held : List Addr

/-- `INT_MAX`. -/
def intMax : Int := 2147483647

/-- `x++` for an `int`. -/
def incr (x : Int) : Option Int := if x < intMax then some (x + 1) else none

/-- `rd_fifoq_init` of a zeroed `rd_fifoq_t`. -/
def init : Rfq := { q := [], cnt := 0, maxSize := 0, taildrop := false, inited := true }

/-- `rd_fifoq_set_max_size`. -/
def setMaxSize (rfq : Rfq) (maxSize taildrop : Int) : Rfq :=
  { rfq with maxSize := maxSize, taildrop := taildrop != 0 }

/-- `rd_fifoq_elm_release0`. -/
def elmRelease0 (heap : Heap) (rfqe : Addr) : Option Heap := do
  let e ← heap rfqe
  if e.refcnt - 1 > 0 then return Function.update heap rfqe (some { e with refcnt := e.refcnt - 1 })
  return Function.update heap rfqe none

/-- The part of `rd_fifoq_add0` that drops an entry; also `purge->rfqe_ptr`. -/
def purge (rfq : Rfq) (heap : Heap) : Option (Rfq × Heap × Ptr) := do
  let purge ← if rfq.taildrop then rfq.q.getLast? else rfq.q.head?
  let e ← heap purge
  let heap ← if e.refcnt = 1 then elmRelease0 heap purge else some heap
  return ({ rfq with cnt := rfq.cnt - 1, q := rfq.q.erase purge }, heap, e.ptr)

/-- `rd_fifoq_add0` with the element at `rfqe`: also the value of `*ptr_purged`, if there is a `ptr_purged`. -/
def add0 (s : State) (ptr : Ptr) (ptrPurged : Bool) (rfqe : Addr) : Option (State × Option Ptr) := do
  guard s.rfq.inited
  let heap := Function.update s.heap rfqe (some { refcnt := 2, ptr := ptr })
  let (rfq, heap, purged) ← if s.rfq.maxSize ≠ 0 ∧ s.rfq.cnt ≥ s.rfq.maxSize then purge s.rfq heap
    else some (s.rfq, heap, 0)
  let cnt ← incr rfq.cnt
  return ({ s with rfq := { rfq with q := rfq.q ++ [rfqe], cnt := cnt }, heap := heap },
    if ptrPurged then some purged else none)

/-- What an operation gives back. -/
inductive Out
  | purged (ptr : Option Ptr)
  | null
  | blocked
  | elm (rfqe : Addr) (ptr : Ptr)
  | released
  deriving DecidableEq, Repr

/-- `rd_fifoq_pop0` with the lock held, from the test of the inner loop on: it returns an element, or `NULL`, or waits.
The `continue` after the first release leaves the outer loop as well, since `rfqe` is not `NULL`. -/
def popLocked (s : State) (tid : Tid) (nowait : Bool) (timeoutMs : Int) : Option (State × Out) :=
  match s.rfq.q.head? with
  | none =>
    if nowait then some ({ s with waiting := Function.update s.waiting tid none }, .null)
    else some ({ s with waiting := Function.update s.waiting tid (some timeoutMs) }, .blocked)
  | some rfqe => do
    guard (s.rfq.cnt > 0)
    let e ← s.heap rfqe
    let heap ← if e.refcnt = 1 then elmRelease0 s.heap rfqe else some s.heap
    let heap ← elmRelease0 heap rfqe
    return ({ rfq := { s.rfq with cnt := s.rfq.cnt - 1, q := s.rfq.q.erase rfqe }, heap := heap,
              waiting := Function.update s.waiting tid none, held := rfqe :: s.held }, .elm rfqe e.ptr)

/-- The operations of an interleaving. -/
inductive Op
  | add (ptr : Ptr) (ptrPurged : Bool) (rfqe : Addr)
  | pop (tid : Tid) (nowait : Bool) (timeoutMs : Int)
  | wake (tid : Tid)
  | timeout (tid : Tid)
  | release (rfqe : Addr)
  deriving DecidableEq, Repr

def step (s : State) : Op → Option (State × Out)
  | .add ptr ptrPurged rfqe => (add0 s ptr ptrPurged rfqe).map fun p => (p.1, .purged p.2)
  | .pop tid nowait timeoutMs => popLocked s tid nowait timeoutMs
  | .wake tid => do popLocked s tid false (← s.waiting tid)
  | .timeout tid => some ({ s with waiting := Function.update s.waiting tid none }, .null)
  | .release rfqe => do
    let heap ← elmRelease0 s.heap rfqe
    return ({ s with heap := heap, held := s.held.erase rfqe }, .released)

/-- What the environment promises: `malloc` gives an address that is not in use, only waiting consumers wake up, only
those with a timeout time out, a consumer releases the elements it got once; and an unbounded queue does not grow to
`INT_MAX` entries. -/
def Ok (s : State) : Op → Prop
  | .add _ _ rfqe => s.heap rfqe = none ∧ (s.rfq.maxSize = 0 → s.rfq.q.length < intMax)
  | .pop tid _ _ => s.waiting tid = none
  | .wake tid => s.waiting tid ≠ none
  | .timeout tid => ∃ t, s.waiting tid = some t ∧ t ≠ 0
  | .release rfqe => rfqe ∈ s.held

instance (s : State) : (op : Op) → Decidable (Ok s op)
  | .add _ _ rfqe => inferInstanceAs (Decidable (s.heap rfqe = none ∧ _))
  | .pop tid _ _ => inferInstanceAs (Decidable (s.waiting tid = none))
  | .wake tid => inferInstanceAs (Decidable (s.waiting tid ≠ none))
  | .timeout tid => match h : s.waiting tid with
    | none => .isFalse (by simp [Ok, h])
    | some t => if ht : t ≠ 0 then .isTrue ⟨t, h, ht⟩ else .isFalse (by simpa [Ok, h] using ht)
  | .release rfqe => inferInstanceAs (Decidable (rfqe ∈ s.held))

/-- The queue as a machine with contracts. -/
def machine : Machine State Op Out where
  Ok := Ok
  step := step

instance (s : State) (op : Op) : Decidable (machine.Ok s op) := inferInstanceAs (Decidable (Ok s op))

/-- A zeroed and initialised queue with its size set, and no consumer yet. -/
def start (maxSize taildrop : Int) : State where
  rfq := setMaxSize init maxSize taildrop
  heap := fun _ => none
  waiting := fun _ => none
  held := []

/-- The pointers queued. -/
def State.queued (s : State) : List (Option Ptr) := s.rfq.q.map fun a => (s.heap a).map Elm.ptr

end Librd.Fifoq
