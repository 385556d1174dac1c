import Librd.Lib.Blocks
import Librd.Thread.Poll

/-!
# Threads: events and calls (`rdevent.c`, `rdevent.h`)

`rd_thread_func_call` has a function called by another thread: it copies the arguments to a context, makes an event for
the context and adds it to the queue of the thread. `rd_thread_event_add` does the same with any function and pointer.
The thread polls, and `rd_thread_event_call` calls what the event says and frees the event; `rd_thread_event_func_cb`
frees the context.

The model has the contexts and the events in memory, any number of threads that post, and the thread that polls
(`Librd.Thread.Poll`); it may post as well, from a function that it calls, and poll again. A thread that posts takes two
steps: it makes the context and the event, which nobody else knows of, and adds the element under the lock. A function
that is called is the steps up to its return. Faults are the failed assertions, an argument that is not there or was not
set, and the use of a block that is not allocated.
-/

namespace Librd.Thread.Event

open Librd.Fifoq (Addr Ptr)

abbrev Pid := Nat

/-- A function with its arguments. -/
structure Invocation where
  cb : Ptr
  args : List Ptr
  deriving DecidableEq, Repr

/-- `rte_callback`: the function of `rdevent.c`, or another one. -/
inductive Callback
  | funcCb
  | other (f : Ptr)
  deriving DecidableEq, Repr

/-- `rd_thread_event_t`. -/
structure Rte where
  callback : Callback
  ptr : Ptr
  deriving DecidableEq, Repr

/-- `struct func_cb_ctx`; an argument that was not set is `none`. -/
structure FuncCbCtx where
  argcnt : Nat
  args : Nat → Option Ptr
  cb : Ptr

/-- `rd_thread_event_call` at work: the event, and the context if it is `rd_thread_event_func_cb` that it called. -/
structure Frame where
  rte : Addr
  ctx : Option Addr
  deriving DecidableEq, Repr

/-- The events and the contexts that are allocated. -/
structure Memory where
  rtes : Addr → Option Rte
  ctxs : Addr → Option FuncCbCtx

/-- The thread that polls, the memory, the events that threads have made and not added yet, and the calls of
`rd_thread_event_call`, the last one first. -/
structure State where
  thread : Poll.State
  mem : Memory
  posting : Pid → Option Addr
  frames : List Frame

/-! ## `rd_thread_func_call` -/

/-- `ctx->args[ctx->argcnt] = arg`, and `ctx->argcnt++`. -/
def FuncCbCtx.push (ctx : FuncCbCtx) (arg : Ptr) : FuncCbCtx :=
  { ctx with args := Function.update ctx.args ctx.argcnt (some arg), argcnt := ctx.argcnt + 1 }

/-- The loop of `rd_thread_func_call` over `left` more arguments. -/
def copyArgs (args : List Ptr) : Nat → FuncCbCtx → Option FuncCbCtx
  | 0, ctx => some ctx
  | left + 1, ctx => do
    let arg ← args[ctx.argcnt]?
    guard (ctx.argcnt < 4)
    copyArgs args left (ctx.push arg)

/-- The context that `rd_thread_func_call` makes. -/
def funcCallCtx (cb : Ptr) (argcnt : Int) (args : List Ptr) : Option FuncCbCtx := do
  guard (argcnt ≤ 4)
  copyArgs args argcnt.toNat { argcnt := 0, args := fun _ => none, cb := cb }

/-- The event that `rd_thread_event_add` makes. -/
def eventAdd (m : Memory) (callback : Callback) (ptr : Ptr) (rte : Addr) : Memory :=
  { m with rtes := Function.update m.rtes rte (some { callback := callback, ptr := ptr }) }

/-- The context and the event that `rd_thread_func_call` makes. -/
def funcCall (m : Memory) (cb : Ptr) (argcnt : Int) (args : List Ptr) (ctx rte : Addr) : Option Memory := do
  let c ← funcCallCtx cb argcnt args
  return eventAdd { m with ctxs := Function.update m.ctxs ctx (some c) } .funcCb ctx rte

/-- A thread made an event, and is before `rd_fifoq_add`. -/
def State.post (s : State) (pid : Pid) (mem : Memory) (rte : Addr) : State :=
  { s with mem := mem, posting := Function.update s.posting pid (some rte) }

/-- `rd_fifoq_add` of the event that a thread made. -/
def fifoqAdd (s : State) (pid : Pid) (rfqe : Addr) : Option State := do
  let rte ← s.posting pid
  let (thread, _) ← Poll.step s.thread (.add rte rfqe)
  return { s with thread := thread, posting := Function.update s.posting pid none }

/-! ## `rd_thread_event_call` -/

/-- What `rd_thread_event_func_cb` calls. -/
def funcCb (ctx : FuncCbCtx) : Option Invocation :=
  match ctx.argcnt with
  | 0 => some ⟨ctx.cb, []⟩
  | 1 => do return ⟨ctx.cb, [← ctx.args 0]⟩
  | 2 => do return ⟨ctx.cb, [← ctx.args 0, ← ctx.args 1]⟩
  | 3 => do return ⟨ctx.cb, [← ctx.args 0, ← ctx.args 1, ← ctx.args 2]⟩
  | 4 => do return ⟨ctx.cb, [← ctx.args 0, ← ctx.args 1, ← ctx.args 2, ← ctx.args 3]⟩
  | _ => none

/-- `rd_thread_event_call` up to the function that it calls, through `rd_thread_event_func_cb` or not. -/
def eventCall (m : Memory) (rte : Addr) : Option (Invocation × Frame) := do
  let e ← m.rtes rte
  match e.callback with
  | .funcCb => do
    let ctx ← m.ctxs e.ptr
    return (← funcCb ctx, ⟨rte, some e.ptr⟩)
  | .other f => return (⟨f, [e.ptr]⟩, ⟨rte, none⟩)

/-- `free` of a block that is allocated. -/
def free {β : Type} (heap : Addr → Option β) (a : Addr) : Option (Addr → Option β) := do
  let _ ← heap a
  return Function.update heap a none

/-- The rest of `rd_thread_event_call`: `free(ctx)`, if it is `rd_thread_event_func_cb` that returns, and
`free(rte)`. -/
def eventFree (m : Memory) (frame : Frame) : Option Memory := do
  let ctxs ← match frame.ctx with
    | none => some m.ctxs
    | some ctx => free m.ctxs ctx
  return { rtes := ← free m.rtes frame.rte, ctxs := ctxs }

/-! ## The machine -/

/-- What a step gives back; `invoked` is a function that begins. -/
inductive Out
  | silent
  | returned (cnt : Int)
  | invoked (call : Invocation)
  deriving DecidableEq, Repr

def Out.ofPoll : Poll.Out → Out
  | .silent => .silent
  | .returned cnt => .returned cnt

/-- `rd_thread_poll` looks at its queue, and calls the event that it pops. -/
def look (s : State) (tv : Timeval) : Option (State × Out) := do
  let (thread, o) ← Poll.look s.thread tv
  let s := { s with thread := thread }
  match o with
  | .returned cnt => return (s, .returned cnt)
  | .silent =>
    match thread.calls.head?.bind Poll.Call.elm? with
    | none => return (s, .silent)
    | some rfqe => do
      let e ← thread.eventq.heap rfqe
      let (call, frame) ← eventCall s.mem e.ptr
      return ({ s with frames := frame :: s.frames }, .invoked call)

/-- A function that was called returns: the rest of `rd_thread_event_func_cb` and `rd_thread_event_call`, and
`rd_thread_poll` goes on. -/
def called (s : State) : Option (State × Out) :=
  match s.frames with
  | [] => none
  | frame :: frames => do
    let mem ← eventFree s.mem frame
    let (thread, o) ← Poll.called s.thread
    return ({ s with thread := thread, mem := mem, frames := frames }, .ofPoll o)

inductive Op
  | funcCall (pid : Pid) (cb : Ptr) (argcnt : Int) (args : List Ptr) (ctx rte : Addr)
  | eventAdd (pid : Pid) (f ptr : Ptr) (rte : Addr)
  | fifoqAdd (pid : Pid) (rfqe : Addr)
  | kill
  | poll (timeoutMs : Int)
  | look (tv : Timeval)
  | timeout
  | called
  deriving DecidableEq, Repr

/-- A step of `rd_thread_poll` that calls nothing. -/
def onThread (s : State) (op : Poll.Op) : Option (State × Out) :=
  (Poll.step s.thread op).map fun (thread, o) => ({ s with thread := thread }, .ofPoll o)

def step (s : State) : Op → Option (State × Out)
  | .funcCall pid cb argcnt args ctx rte =>
    (funcCall s.mem cb argcnt args ctx rte).map fun mem => (s.post pid mem rte, .silent)
  | .eventAdd pid f ptr rte => some (s.post pid (eventAdd s.mem (.other f) ptr rte) rte, .silent)
  | .fifoqAdd pid rfqe => (fifoqAdd s pid rfqe).map (·, .silent)
  | .kill => onThread s .kill
  | .poll timeoutMs => onThread s (.poll timeoutMs)
  | .look tv => look s tv
  | .timeout => onThread s .timeout
  | .called => called s

/-- What the step is for the thread that polls. -/
def Op.poll? (s : State) : Op → Option Poll.Op
  | .funcCall _ _ _ _ _ _ => none
  | .eventAdd _ _ _ _ => none
  | .fifoqAdd pid rfqe => (s.posting pid).map fun rte => .add rte rfqe
  | .kill => some .kill
  | .poll timeoutMs => some (.poll timeoutMs)
  | .look tv => some (.look tv)
  | .timeout => some .timeout
  | .called => some .called

/-- A thread posts one event at a time, with at most four arguments, and `malloc` gives it blocks that are
not in use. -/
def Posts (s : State) : Op → Prop
  | .funcCall pid _ argcnt args ctx rte =>
    s.posting pid = none ∧ s.mem.ctxs ctx = none ∧ s.mem.rtes rte = none ∧ argcnt ≤ 4 ∧ argcnt ≤ args.length
  | .eventAdd pid _ _ rte => s.posting pid = none ∧ s.mem.rtes rte = none
  | .fifoqAdd pid _ => s.posting pid ≠ none
  | _ => True

/-- What the threads promise, and the contract of `rd_thread_poll`. -/
def Ok (s : State) (op : Op) : Prop := Posts s op ∧ ∀ p ∈ op.poll? s, Poll.Ok s.thread p

/-- Neither the events in the queue nor those of a poll are counted past `INT_MAX`. -/
def Counts (s : State) (op : Op) : Prop := ∀ p ∈ op.poll? s, Poll.Counts s.thread p

instance (s : State) : (op : Op) → Decidable (Posts s op)
  | .funcCall pid _ argcnt args ctx rte =>
    decidable_of_iff (s.posting pid = none ∧ (s.mem.ctxs ctx).isNone ∧ s.mem.rtes rte = none ∧ argcnt ≤ 4 ∧
      argcnt ≤ args.length) (by rw [Option.isNone_iff_eq_none]; rfl)
  | .eventAdd pid _ _ rte => inferInstanceAs (Decidable (s.posting pid = none ∧ s.mem.rtes rte = none))
  | .fifoqAdd pid _ => inferInstanceAs (Decidable (s.posting pid ≠ none))
  | .kill => .isTrue trivial
  | .poll _ => .isTrue trivial
  | .look _ => .isTrue trivial
  | .timeout => .isTrue trivial
  | .called => .isTrue trivial

instance (s : State) (op : Op) : Decidable (Ok s op) :=
  inferInstanceAs (Decidable (Posts s op ∧ ∀ p ∈ op.poll? s, Poll.Ok s.thread p))

instance (t : Poll.State) : (op : Poll.Op) → Decidable (Poll.Counts t op)
  | .add rte rfqe => inferInstanceAs (Decidable (Fifoq.Counts t.eventq (.add rte false rfqe)))
  | .called => inferInstanceAs (Decidable (∀ call ∈ t.calls.head?, call.cnt < Fifoq.intMax))
  | .kill => .isTrue trivial
  | .poll _ => .isTrue trivial
  | .look _ => .isTrue trivial
  | .timeout => .isTrue trivial

instance (s : State) (op : Op) : Decidable (Counts s op) :=
  inferInstanceAs (Decidable (∀ p ∈ op.poll? s, Poll.Counts s.thread p))

def machine : Machine State Op Out where
  Ok := Ok
  step := step

instance (s : State) (op : Op) : Decidable (machine.Ok s op) := inferInstanceAs (Decidable (Ok s op))

/-- A thread that does not poll yet, and nothing posted. -/
def start : State where
  thread := Poll.start
  mem := { rtes := fun _ => none, ctxs := fun _ => none }
  posting := fun _ => none
  frames := []

/-! ## What was posted and what was called -/

/-- The call that a step posts, with the thread that posts it. -/
def Op.posts : Op → Option (Pid × Invocation)
  | .funcCall pid cb argcnt args _ _ => some (pid, ⟨cb, args.take argcnt.toNat⟩)
  | .eventAdd pid f ptr _ => some (pid, ⟨f, [ptr]⟩)
  | _ => none

/-- The call that a step begins. -/
def Out.invoked? : Out → Option Invocation
  | .invoked call => some call
  | _ => none

/-- The calls in the queue, as memory has them. -/
def State.queued (s : State) : List (Option Invocation) :=
  s.thread.eventq.queued.map fun rte => rte.bind fun rte => (eventCall s.mem rte).map Prod.fst

/-- The call of the event that a thread has made and not added yet. -/
def State.postingCall (s : State) (pid : Pid) : Option Invocation :=
  (s.posting pid).bind fun rte => (eventCall s.mem rte).map Prod.fst

/-! ## Arguments -/

/-- A context whose first arguments are set. -/
def FuncCbCtx.Has (ctx : FuncCbCtx) (args : List Ptr) : Prop :=
  ctx.argcnt = args.length ∧ ∀ i (h : i < args.length), ctx.args i = some args[i]

theorem FuncCbCtx.Has.push {ctx : FuncCbCtx} {args : List Ptr} (hctx : ctx.Has args) (arg : Ptr) :
    (ctx.push arg).Has (args ++ [arg]) := by
  obtain ⟨hcnt, hargs⟩ := hctx
  refine ⟨by simp [FuncCbCtx.push, hcnt], fun i hi => ?_⟩
  by_cases hlast : i = ctx.argcnt
  · simp [FuncCbCtx.push, hlast, hcnt]
  · have hi' : i < args.length := by
      rw [List.length_append, List.length_singleton] at hi
      omega
    simp [FuncCbCtx.push, Function.update_of_ne hlast, hargs i hi', List.getElem_append_left hi']

theorem copyArgs_ok {args : List Ptr} : ∀ (left : Nat) (ctx : FuncCbCtx), ctx.Has (args.take ctx.argcnt) →
    ctx.argcnt + left ≤ 4 → ctx.argcnt + left ≤ args.length → ∃ ctx', copyArgs args left ctx = some ctx' ∧
      ctx'.cb = ctx.cb ∧ ctx'.Has (args.take (ctx.argcnt + left)) := by
  intro left
  induction left with
  | zero => exact fun ctx hctx _ _ => ⟨ctx, rfl, rfl, hctx⟩
  | succ left ih =>
    intro ctx hctx hfour hargs
    have hlt : ctx.argcnt < args.length := by omega
    have hpush : (ctx.push args[ctx.argcnt]).Has (args.take (ctx.argcnt + 1)) := by
      rw [List.take_add_one, List.getElem?_eq_getElem hlt]
      exact hctx.push _
    have hcnt : (ctx.push args[ctx.argcnt]).argcnt = ctx.argcnt + 1 := rfl
    obtain ⟨ctx', hcopy, hcb, hhas⟩ := ih (ctx.push args[ctx.argcnt]) hpush (by omega) (by omega)
    refine ⟨ctx', ?_, hcb, ?_⟩
    · have hguard : ctx.argcnt < 4 := by omega
      rw [copyArgs, List.getElem?_eq_getElem hlt]
      simpa [hguard] using hcopy
    · rwa [hcnt, Nat.add_assoc, Nat.add_comm 1] at hhas

/-- **The context of a call** has its function and its arguments. -/
theorem funcCallCtx_ok (cb : Ptr) {argcnt : Int} {args : List Ptr} (hfour : argcnt ≤ 4) (hargs : argcnt ≤ args.length) :
    ∃ ctx, funcCallCtx cb argcnt args = some ctx ∧ ctx.cb = cb ∧ ctx.Has (args.take argcnt.toNat) ∧ ctx.argcnt ≤ 4 := by
  have hhas : FuncCbCtx.Has { argcnt := 0, args := fun _ => none, cb := cb } (args.take 0) :=
    ⟨rfl, fun i hi => absurd hi (Nat.not_lt_zero i)⟩
  obtain ⟨ctx, hcopy, hcb, hctx⟩ := copyArgs_ok argcnt.toNat _ hhas (by simp only; omega) (by simp only; omega)
  refine ⟨ctx, by simp [funcCallCtx, hfour, hcopy], hcb, ?_, ?_⟩
  · simpa using hctx
  · have hlen := hctx.1
    simp only [List.length_take] at hlen
    omega

/-- **`rd_thread_event_func_cb`** calls the function with its arguments. -/
theorem funcCb_ok {ctx : FuncCbCtx} {args : List Ptr} (hctx : ctx.Has args) (hfour : ctx.argcnt ≤ 4) :
    funcCb ctx = some ⟨ctx.cb, args⟩ := by
  obtain ⟨hcnt, hargs⟩ := hctx
  match args with
  | [] => simp [funcCb, hcnt]
  | [a] =>
    have h0 := hargs 0 (by simp)
    simp [funcCb, hcnt, h0]
  | [a, b] =>
    have h0 := hargs 0 (by simp)
    have h1 := hargs 1 (by simp)
    simp [funcCb, hcnt, h0, h1]
  | [a, b, c] =>
    have h0 := hargs 0 (by simp)
    have h1 := hargs 1 (by simp)
    have h2 := hargs 2 (by simp)
    simp [funcCb, hcnt, h0, h1, h2]
  | [a, b, c, d] =>
    have h0 := hargs 0 (by simp)
    have h1 := hargs 1 (by simp)
    have h2 := hargs 2 (by simp)
    have h3 := hargs 3 (by simp)
    simp [funcCb, hcnt, h0, h1, h2, h3]
  | a :: b :: c :: d :: e :: rest =>
    simp only [List.length_cons] at hcnt
    omega

end Librd.Thread.Event
