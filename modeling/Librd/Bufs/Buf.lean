import Mathlib
import Librd.Lib.Machine

/-!
# Buffers (`rdbuf.c`, `rdbuf.h`)

Buffer heads hold lists of buffers, each an allocated block with a current and an allocated length. Lengths are
`uint32_t` and are updated by an `int32_t`, so they wrap around. A fault is a failed assertion, an access outside of a
block (or through `NULL`), or an `int` that overflows.

A `TAILQ` is the list of its buffers, and a buffer in it is named by its position. What `recv` receives and what
`vsnprintf` formats are parts of the operations.
-/

namespace Librd.Bufs

inductive Fault
  | assertion
  | memory
  | overflow
  deriving DecidableEq, Repr

/-- A block of memory; a byte that was not written yet is `none`. -/
abbrev Block := List (Option UInt8)

/-- `rd_buf_t`: `rb_len`, `rb_olen`, `RD_BUF_F_OWNER`, the offset of `rb_data` from `rb_orig` and the block at
`rb_orig`, if that is not `NULL`. -/
structure Buf where
  len : Nat
  olen : Nat
  owner : Bool
  data : Nat
  orig : Option Block
  deriving DecidableEq, Repr

/-- `rd_bufh_t`: `rbh_bufs`, `rbh_len` and `RD_BUFH_F_FREE`. -/
structure Bufh where
  bufs : List Buf
  len : Nat
  free : Bool
  deriving DecidableEq, Repr

/-- `x` as a `uint32_t`. -/
def u32 (x : Int) : Nat := (x % 2 ^ 32).toNat

/-- `x` as an `int32_t`. -/
def i32 (x : Int) : Int := Int.bmod x (2 ^ 32)

/-- `sizeof(rd_buf_t)`. -/
def sizeofBuf : Nat := 48

/-- `INT_MAX`. -/
def intMax : Nat := 2147483647

/-- Copying `bytes` to the offset `off` of a block. -/
def memcpy (m : Block) (off : Nat) (bytes : Block) : Except Fault Block :=
  if off + bytes.length ≤ m.length then .ok (m.take off ++ bytes ++ m.drop (off + bytes.length)) else .error .memory

/-- Copying `bytes` to the offset `off` from a pointer. -/
def write (p : Option Block) (off : Nat) (bytes : Block) : Except Fault (Option Block) :=
  match p with
  | some m => do return some (← memcpy m off bytes)
  | none => if bytes = [] then .ok none else .error .memory

/-- The first `n` bytes from a pointer. -/
def read (p : Option Block) (n : Nat) : Except Fault Block :=
  match p with
  | some m => if n ≤ m.length then .ok (m.take n) else .error .memory
  | none => if n = 0 then .ok [] else .error .memory

/-! ## Buffers and heads -/

/-- `rd_bufh_update_len` for the `i`-th buffer. -/
def bufhUpdateLen (rbh : Bufh) (i : Nat) (len : Int) : Bufh :=
  { rbh with bufs := rbh.bufs.modify i fun rb => { rb with len := u32 (rb.len + len) }, len := u32 (rbh.len + len) }

/-- The `i`-th buffer. -/
def bufAt (rbh : Bufh) (i : Nat) : Except Fault Buf :=
  match rbh.bufs[i]? with
  | some rb => .ok rb
  | none => .error .memory

/-- Writing to the `i`-th buffer, at the offset `off` from its `rb_orig`. -/
def bufWrite (rbh : Bufh) (i : Nat) (rb : Buf) (off : Nat) (bytes : Block) : Except Fault Bufh := do
  return { rbh with bufs := rbh.bufs.set i { rb with orig := ← write rb.orig off bytes } }

/-- `rd_buf_new`. -/
def bufNew (data : Option Block) (len : Nat) (owner : Bool) : Buf :=
  if owner then { len := 0, olen := len, owner := true, data := 0, orig := data }
  else
    let len := if len < sizeofBuf then sizeofBuf else len
    { len := 0, olen := len, owner := false, data := 0, orig := some (List.replicate len none) }

/-- `rd_buf_remaining`; the comparisons with a `uint32_t` make it unsigned. -/
def bufRemaining (rb : Buf) : Nat := u32 (i32 ((rb.olen : Int) - rb.len))

/-- `rd_buf_append_data` to the `i`-th buffer; `data` are the `len` bytes read. -/
def bufAppendData (rbh : Bufh) (i : Nat) (data : Block) (len : Nat) : Except Fault Bufh := do
  let rb ← bufAt rbh i
  if bufRemaining rb < len then throw .assertion
  return bufhUpdateLen (← bufWrite rbh i rb rb.len data) i (i32 len)

/-- `rd_bufh_buf_insert`. -/
def bufhBufInsert (rbh : Bufh) (after : Option Nat) (rb : Buf) : Bufh :=
  { rbh with
    bufs := match after with
      | some i => rbh.bufs.insertIdx (i + 1) rb
      | none => rb :: rbh.bufs
    len := u32 (rbh.len + rb.len) }

/-- `TAILQ_LAST`. -/
def tailIdx (rbh : Bufh) : Option Nat := if rbh.bufs = [] then none else some (rbh.bufs.length - 1)

/-- The buffer that `rd_bufh_get_buf` chooses: the last one, if it has room and the data is to be copied, or else a new
one after it. -/
def tailOrNew (rbh : Bufh) (data : Option Block) (len : Nat) (owner : Bool) : Bufh × Nat :=
  match rbh.bufs.getLast? with
  | some tail =>
    if owner = false ∧ bufRemaining tail ≥ len then (rbh, rbh.bufs.length - 1)
    else (bufhBufInsert rbh (tailIdx rbh) (bufNew data len owner), rbh.bufs.length)
  | none => (bufhBufInsert rbh (tailIdx rbh) (bufNew data len owner), rbh.bufs.length)

/-- `rd_bufh_get_buf`; also the position of the buffer. -/
def bufhGetBuf (rbh : Bufh) (data : Option Block) (len : Nat) (owner : Bool) : Except Fault (Bufh × Nat) :=
  let p := tailOrNew rbh data len owner
  match data with
  | some d => do return (← bufAppendData p.1 p.2 d len, p.2)
  | none => return p

/-- `rd_bufh_recv`, with what `recv` gives (`none` is -1); the result is whether a buffer is returned. -/
def bufhRecv (rbh : Bufh) (len : Nat) (received : Option (List UInt8)) : Except Fault (Bufh × Bool) := do
  let (rbh, i) ← bufhGetBuf rbh none len false
  match received with
  | none => return (rbh, false)
  | some bytes =>
    let rb ← bufAt rbh i
    let rbh ← bufWrite rbh i rb (rb.data + rb.len) (bytes.map some)
    -- the `ssize_t` of `recv` as an `int`
    let r := i32 bytes.length
    if r = -1 then return (rbh, false)
    return (bufhUpdateLen rbh i r, true)

/-- `rd_bufh_append`. -/
def bufhAppend (rbh : Bufh) (data : Option Block) (len : Nat) (owner : Bool) : Except Fault Bufh := do
  return (← bufhGetBuf rbh data len owner).1

/-- `rd_bufh_prepend`. -/
def bufhPrepend (rbh : Bufh) (data : Option Block) (len : Nat) (owner : Bool) : Bufh :=
  bufhBufInsert rbh none (bufNew data len owner)

/-- `totlen + 1` for the `int` that `vsnprintf` returns. -/
def sizeWithNul (str : List UInt8) : Except Fault Nat :=
  if str.length < intMax then .ok (str.length + 1) else .error .overflow

/-- `rd_bufh_vsprintf` of a format whose result is `str`. -/
def bufhVsprintf (rbh : Bufh) (str : List UInt8) : Except Fault Bufh := do
  let n ← sizeWithNul str
  let (rbh, i) ← bufhGetBuf rbh none n false
  let rb ← bufAt rbh i
  let rbh ← bufWrite rbh i rb rb.len ((str ++ [0]).map some)
  return bufhUpdateLen rbh i str.length

/-- `rd_buf_vsprintf` of a format whose result is `str`. -/
def bufVsprintf (str : List UInt8) : Except Fault Buf := do
  let n ← sizeWithNul str
  let rb := bufNew none n false
  return { rb with orig := ← write rb.orig rb.len ((str ++ [0]).map some), len := str.length }

/-- The position of a buffer inserted after a position, or at the head. -/
def posAfter : Option Nat → Nat
  | some i => i + 1
  | none => 0

/-- The loop of `rd_bufh_move`: the buffer just moved is the next `tail`. -/
def moveLoop : List Buf → Option Nat → Bufh → Bufh
  | [], _, dst => dst
  | rb :: next, tail, dst => moveLoop next (some (posAfter tail)) (bufhBufInsert dst tail rb)

/-- `rd_bufh_move`: `dst` and `src` afterwards. -/
def bufhMove (dst src : Bufh) : Bufh × Bufh :=
  (moveLoop src.bufs (tailIdx dst) dst, { src with bufs := [], len := 0 })

/-- `rd_buf_destroy` of the `i`-th buffer. -/
def bufDestroy (rbh : Bufh) (i : Nat) : Except Fault Bufh := do
  let rb ← bufAt rbh i
  return { rbh with bufs := rbh.bufs.eraseIdx i, len := u32 (rbh.len + i32 (-(rb.len : Int))) }

/-- The loop of `rd_bufh_destroy`, over `n` buffers. -/
def destroyLoop : Nat → Bufh → Except Fault Bufh
  | 0, rbh => .ok rbh
  | n + 1, rbh => do destroyLoop n (← bufDestroy rbh 0)

/-- `rd_bufh_destroy`: the head is freed if it was allocated. -/
def bufhDestroy (rbh : Bufh) : Except Fault (Option Bufh) := do
  let rbh ← destroyLoop rbh.bufs.length rbh
  if rbh.len ≠ 0 then throw .assertion
  return if rbh.free then none else some rbh

/-- `rd_bufh_new`. -/
def bufhNew (free : Bool) : Bufh := { bufs := [], len := 0, free := free }

/-- The loop of `rd_bufh_serialize_binary_mem0`. -/
def serializeLoop : List Buf → Block → Nat → Except Fault (Block × Nat)
  | [], dst, len => .ok (dst, len)
  | rb :: rest, dst, len => do
    let dst ← memcpy dst len (← read rb.orig rb.len)
    serializeLoop rest dst (len + rb.len)

/-- `rd_bufh_copyout`: `rd_bufh_serialize` takes the path of `rd_bufh_serialize_binary_mem0`. The memory at `dst`
afterwards, and the result. -/
def bufhCopyout (rbh : Bufh) (dst : Block) : Except Fault (Block × Nat) := serializeLoop rbh.bufs dst 0

/-! ## Operations -/

/-- The heads. -/
abbrev State := Nat → Option Bufh

/-- The operations on heads. `data` are the bytes at a pointer that is not `NULL`. -/
inductive Op
  | new (h : Nat) (free : Bool)
  | append (h : Nat) (data : Option (List UInt8)) (len : Nat) (owner : Bool)
  | prepend (h : Nat) (data : Option (List UInt8)) (len : Nat) (owner : Bool)
  | sprintf (h : Nat) (str : List UInt8)
  | recv (h : Nat) (len : Nat) (received : Option (List UInt8))
  | move (dst src : Nat)
  | insert (h : Nat) (after : Option Nat) (str : List UInt8)
  | bufDestroy (h i : Nat)
  | destroy (h : Nat)
  deriving DecidableEq, Repr

/-- A head that exists. -/
def headAt (s : State) (h : Nat) : Except Fault Bufh :=
  match s h with
  | some b => .ok b
  | none => .error .memory

/-- One operation; the output is whether it returns a buffer. -/
def stepE (s : State) : Op → Except Fault (State × Bool)
  | .new h free => return (Function.update s h (some (bufhNew free)), false)
  | .append h data len owner => do
    let b ← bufhAppend (← headAt s h) (data.map (List.map some)) len owner
    return (Function.update s h (some b), true)
  | .prepend h data len owner => do
    let b := bufhPrepend (← headAt s h) (data.map (List.map some)) len owner
    return (Function.update s h (some b), true)
  | .sprintf h str => do
    let b ← bufhVsprintf (← headAt s h) str
    return (Function.update s h (some b), true)
  | .recv h len received => do
    let (b, r) ← bufhRecv (← headAt s h) len received
    return (Function.update s h (some b), r)
  | .move dst src => do
    let (d, r) := bufhMove (← headAt s dst) (← headAt s src)
    return (Function.update (Function.update s dst (some d)) src (some r), false)
  | .insert h after str => do
    let rb ← bufVsprintf str
    let b := bufhBufInsert (← headAt s h) after rb
    return (Function.update s h (some b), false)
  | .bufDestroy h i => do
    let b ← bufDestroy (← headAt s h) i
    return (Function.update s h (some b), false)
  | .destroy h => do
    let b ← bufhDestroy (← headAt s h)
    return (Function.update s h b, false)

/-- The buffers of a head, if it exists. -/
def bufsOf (s : State) (h : Nat) : List Buf := ((s h).map Bufh.bufs).getD []

/-- What the callers promise: heads exist, and those made new do not; `data` has `len` bytes, `recv` gives no
more than asked for, formatting succeeds (its length is an `int`), heads moved are distinct, and positions are
those of buffers. -/
def Ok (s : State) : Op → Prop
  | .new h _ => s h = none
  | .append h data len _ => s h ≠ none ∧ len < 2 ^ 32 ∧ ∀ d ∈ data, d.length = len
  | .prepend h data len _ => s h ≠ none ∧ len < 2 ^ 32 ∧ ∀ d ∈ data, d.length = len
  | .sprintf h str => s h ≠ none ∧ str.length ≤ intMax
  | .recv h len received => s h ≠ none ∧ len < 2 ^ 32 ∧ ∀ d ∈ received, d.length ≤ len
  | .move dst src => s dst ≠ none ∧ s src ≠ none ∧ dst ≠ src
  | .insert h after str => s h ≠ none ∧ str.length ≤ intMax ∧ ∀ i ∈ after, i < (bufsOf s h).length
  | .bufDestroy h i => s h ≠ none ∧ i < (bufsOf s h).length
  | .destroy h => s h ≠ none

instance (s : State) : (op : Op) → Decidable (Ok s op)
  | .new h _ => inferInstanceAs (Decidable (s h = none))
  | .append h data len _ => inferInstanceAs (Decidable (s h ≠ none ∧ len < 2 ^ 32 ∧ ∀ d ∈ data, d.length = len))
  | .prepend h data len _ => inferInstanceAs (Decidable (s h ≠ none ∧ len < 2 ^ 32 ∧ ∀ d ∈ data, d.length = len))
  | .sprintf h str => inferInstanceAs (Decidable (s h ≠ none ∧ str.length ≤ intMax))
  | .recv h len received => inferInstanceAs (Decidable (s h ≠ none ∧ len < 2 ^ 32 ∧ ∀ d ∈ received, d.length ≤ len))
  | .move dst src => inferInstanceAs (Decidable (s dst ≠ none ∧ s src ≠ none ∧ dst ≠ src))
  | .insert h after str =>
    inferInstanceAs (Decidable (s h ≠ none ∧ str.length ≤ intMax ∧ ∀ i ∈ after, i < (bufsOf s h).length))
  | .bufDestroy h i => inferInstanceAs (Decidable (s h ≠ none ∧ i < (bufsOf s h).length))
  | .destroy h => inferInstanceAs (Decidable (s h ≠ none))

/-- The operations as a machine with contracts; a run ends at a fault. -/
def machine : Machine State Op Bool where
  Ok := Ok
  step s op := (stepE s op).toOption

instance (s : State) (op : Op) : Decidable (machine.Ok s op) := inferInstanceAs (Decidable (Ok s op))

/-- No heads. -/
def init : State := fun _ => none

end Librd.Bufs
