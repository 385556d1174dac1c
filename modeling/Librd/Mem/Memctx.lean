import Mathlib
import Librd.Lib.Machine

/-!
# Memory contexts (`rdmem.c`, `rdmem.h`)

`rd_memctx_alloc`, `rd_memctx_free0` and `rd_memctx_freeall`. With `RD_MEMCTX_F_TRACK` every block starts with an
`rd_memctx_ptr_t` that is linked into `rmc_ptrs`, and the caller gets the address behind it. `rmc_out` is an
`unsigned int`, `rmc_bytes_out` a `uint64_t`, `size_t` has 64 bits and `rmcp_size` has 32; unsigned numbers wrap around.

Blocks live on a heap. Freeing a block that is not allocated, following a NULL pointer, writing outside a block and a
failed assertion are faults. What `malloc` or `calloc` returns is part of the operation. Each call works under
`RD_MEMCTX_LOCK`, if the context has one, so calls of several threads are a list of operations too.
-/

namespace Librd.Mem

abbrev Addr := Nat

/-- `rd_memctx_alloc_type_t`. -/
inductive AllocType
  | malloc
  | calloc
  deriving DecidableEq, Repr

/-- A block of the heap: its size and whether it was zeroed. -/
structure Block where
  size : Nat
  zeroed : Bool
  deriving DecidableEq, Repr

/-- `rd_memctx_ptr_t`: its address and `rmcp_size`. -/
structure Rmcp where
  addr : Addr
  size : Nat
  deriving DecidableEq, Repr

/-- `rd_memctx_t`: `RD_MEMCTX_F_TRACK`, `rmc_out`, `rmc_bytes_out` and `rmc_ptrs`. -/
structure Rmc where
  track : Bool
  out : Nat
  bytesOut : Nat
  ptrs : List Rmcp
  deriving DecidableEq, Repr

/-- What a caller got and did not free: the block and the size it asked for. -/
structure Live where
  block : Addr
  size : Nat
  deriving DecidableEq, Repr

/-- The context, the heap and the allocations of the callers, oldest first. -/
structure State where
  rmc : Rmc
  heap : Addr → Option Block
  live : List Live

/-- `sizeof(rd_memctx_ptr_t)`. -/
def ptrSize : Nat := 24

/-- The bytes of an `rd_memctx_ptr_t` up to the end of `rmcp_size`, all of which are written. -/
def ptrUsed : Nat := 20

/-- `rd_memctx_init`. -/
def init (track : Bool) : Rmc := { track := track, out := 0, bytesOut := 0, ptrs := [] }

/-- The address that the caller gets for a block. -/
def Rmc.ptrOf (rmc : Rmc) (block : Addr) : Addr := if rmc.track then block + ptrSize else block

/-- `rd_memctx_alloc0`: the block that `malloc` or `calloc` makes at `res`, unless it returns NULL. -/
def alloc0 (heap : Addr → Option Block) (size : Nat) (type : AllocType) : Option Addr → Addr → Option Block
  | none => heap
  | some a => Function.update heap a (some { size := size, zeroed := type == .calloc })

/-- `rd_memctx_ptr_new`: also the new `rd_memctx_ptr_t`. -/
def ptrNew (s : State) (size : Nat) (type : AllocType) (res : Option Addr) : Option (State × Addr) := do
  let total := (ptrSize + size) % 2 ^ 64
  let heap := alloc0 s.heap total type res
  let rmcp ← res
  guard (ptrUsed ≤ total)
  return ({ s with rmc := { s.rmc with ptrs := s.rmc.ptrs ++ [{ addr := rmcp, size := size % 2 ^ 32 }] }
                   heap := heap }, rmcp)

/-- `rd_memctx_alloc`; `res` is what `malloc` or `calloc` returns. -/
def alloc (s : State) (size : Nat) (type : AllocType) (res : Option Addr) : Option (State × Option Addr) := do
  let (s, block) ← if s.rmc.track then (ptrNew s size type res).map fun p => (p.1, some p.2)
    else some ({ s with heap := alloc0 s.heap size type res }, res)
  return ({ s with
    rmc := { s.rmc with out := (s.rmc.out + 1) % 2 ^ 32, bytesOut := (s.rmc.bytesOut + size) % 2 ^ 64 } },
    block.map s.rmc.ptrOf)

/-- `free`. -/
def free (s : State) (block : Addr) : Option State := do
  let _ ← s.heap block
  return { s with heap := Function.update s.heap block none }

/-- `rmc_bytes_out -= size`. -/
def subBytes (bytesOut size : Nat) : Nat := (bytesOut + 2 ^ 64 - size) % 2 ^ 64

/-- `TAILQ_REMOVE` from `rmc_ptrs`. -/
def removePtr (rmc : Rmc) (rmcp : Addr) : Option Rmc := do
  guard (rmc.ptrs.any fun r => r.addr = rmcp)
  return { rmc with ptrs := rmc.ptrs.eraseP fun r => r.addr = rmcp }

/-- `rd_memctx_free0`. The assertion on the unsigned difference `rmc_bytes_out - size` always holds. -/
def free0 (s : State) (ptr : Addr) (size : Nat) : Option State := do
  let rmc := if size ≠ 0 then { s.rmc with bytesOut := subBytes s.rmc.bytesOut size } else s.rmc
  guard (rmc.out > 0)
  let rmc := { rmc with out := rmc.out - 1 }
  if rmc.track then
    let rmcp := ptr - ptrSize
    let rmc ← removePtr rmc rmcp
    free { s with rmc := rmc } rmcp
  else free { s with rmc := rmc } ptr

/-- `rd_memctx_ptr_free`. -/
def ptrFree (s : State) (rmcp : Rmcp) : Option State := do
  guard (s.rmc.out > 0)
  let rmc := { s.rmc with out := s.rmc.out - 1 }
  guard (rmcp.size ≠ 0 → rmc.bytesOut > 0)
  let rmc := if rmcp.size ≠ 0 then { rmc with bytesOut := subBytes rmc.bytesOut rmcp.size } else rmc
  let rmc ← removePtr rmc rmcp.addr
  free { s with rmc := rmc } rmcp.addr

/-- The loop of `rd_memctx_freeall` over `rmc_ptrs`. -/
def freeLoop : List Rmcp → Nat → State → Option (State × Nat)
  | [], sum, s => some (s, sum)
  | rmcp :: rest, sum, s => do freeLoop rest ((sum + rmcp.size) % 2 ^ 64) (← ptrFree s rmcp)

/-- `rd_memctx_freeall`. -/
def freeall (s : State) : Option (State × Nat) := do
  guard s.rmc.track
  freeLoop s.rmc.ptrs 0 s

/-! ## Operations -/

inductive Op
  | alloc (size : Nat) (type : AllocType) (res : Option Addr)
  | free (ptr : Addr)
  | freesz (ptr : Addr) (size : Nat)
  | freeall
  deriving DecidableEq, Repr

/-- What an operation gives back. -/
inductive Out
  | ptr (ptr : Option Addr)
  | freed
  | sum (bytes : Nat)
  deriving DecidableEq, Repr

/-- The caller forgets the allocation it freed. -/
def State.forget (s : State) (ptr : Addr) : State :=
  { s with live := s.live.eraseP fun l => s.rmc.ptrOf l.block = ptr }

def step (s : State) : Op → Option (State × Out)
  | .alloc size type res => (alloc s size type res).map fun p =>
    ({ p.1 with live := p.1.live ++ res.toList.map fun a => { block := a, size := size } }, .ptr p.2)
  | .free ptr => (free0 s ptr 0).map fun s => (s.forget ptr, .freed)
  | .freesz ptr size => (free0 s ptr size).map fun s => (s.forget ptr, .freed)
  | .freeall => (freeall s).map fun p => ({ p.1 with live := [] }, .sum p.2)

/-- What callers and the allocator promise: allocations succeed at an address that is not in use, sizes are `size_t`,
callers free what they got, once, and `rd_memctx_freesz` gets the size that was asked for. -/
def Ok (s : State) : Op → Prop
  | .alloc size _ res => size < 2 ^ 64 ∧ ∃ a ∈ res, s.heap a = none
  | .free ptr => ∃ l ∈ s.live, s.rmc.ptrOf l.block = ptr
  | .freesz ptr size => ∃ l ∈ s.live, s.rmc.ptrOf l.block = ptr ∧ l.size = size
  | .freeall => True

instance (s : State) : (op : Op) → Decidable (Ok s op)
  | .alloc size _ res => inferInstanceAs (Decidable (size < 2 ^ 64 ∧ ∃ a ∈ res, s.heap a = none))
  | .free ptr => inferInstanceAs (Decidable (∃ l ∈ s.live, s.rmc.ptrOf l.block = ptr))
  | .freesz ptr size => inferInstanceAs (Decidable (∃ l ∈ s.live, s.rmc.ptrOf l.block = ptr ∧ l.size = size))
  | .freeall => .isTrue trivial

/-- A memory context as a machine with contracts. -/
def machine : Machine State Op Out where
  Ok := Ok
  step := step

instance (s : State) (op : Op) : Decidable (machine.Ok s op) := inferInstanceAs (Decidable (Ok s op))

/-- A new context, nothing allocated. -/
def start (track : Bool) : State := { rmc := init track, heap := fun _ => none, live := [] }

end Librd.Mem
