import Librd.Fifoq.Conserve
import Librd.Thread.Event

/-!
# Threads: every call that is posted runs once, in order

Events have an owner: the thread that made them and did not add them yet, the queue, or the function that runs. The
invariant lists them with the call that memory has for each (`Block`). The queue of the polling thread is that of
`Librd.Fifoq`, without a limit, so nothing is pushed out of it.

So whatever the threads post, and in whatever order they and the polling thread take their steps, the functions called
and those still queued are together the posts of each thread, in the order of that thread, with its arguments
(`events_run`); and the event, the context and the element of a call are freed, once, when its function returns
(`events_clean`).
-/

namespace Librd.Thread.Event

open Librd.Fifoq (Addr Ptr)

/-! ## The thread that polls -/

/-- The queue of a thread holds the pointers `ptrs`, has no limit, and every element is in it or held by a call. -/
structure Polls (t : Poll.State) (ptrs : List Ptr) : Prop where
  inv : Poll.Inv t
  fifo : Fifoq.Inv t.eventq ptrs
  unbounded : t.eventq.rfq.maxSize = 0
  owned : Fifoq.Owned t.eventq.rfq.q t.eventq.held t.eventq.heap

section Polls

variable {t : Poll.State} {ptrs : List Ptr}

theorem start_polls : Polls Poll.start [] where
  inv := Poll.start_inv
  fifo := ⟨rfl, rfl, .nil, fun _ ha => (by cases ha), .nil, rfl, le_rfl, by decide, fun _ => le_rfl⟩
  unbounded := rfl
  owned := fun _ ha => absurd rfl ha

/-- What `rd_fifoq_add0` does to a queue without a limit. -/
theorem Polls.add0 (h : Polls t ptrs) (p : Ptr) {a : Addr} (ha : t.eventq.heap a = none)
    (hlen : (t.eventq.rfq.q.length : Int) < Fifoq.intMax) : ∃ q o, Fifoq.add0 t.eventq p false a = some (q, o) ∧
      Fifoq.Inv q (ptrs ++ [p]) ∧ q.rfq.maxSize = 0 ∧ q.held = t.eventq.held ∧ Fifoq.Owned q.rfq.q q.held q.heap := by
  have hroom : ¬(t.eventq.rfq.maxSize ≠ 0 ∧ t.eventq.rfq.cnt ≥ t.eventq.rfq.maxSize) := fun hfull => hfull.1 h.unbounded
  have hincr : Fifoq.incr t.eventq.rfq.cnt = some (t.eventq.rfq.cnt + 1) := if_pos (h.fifo.cnt ▸ hlen)
  obtain ⟨q, purged, rest, hadd, hinv, hrest⟩ := Fifoq.add0_ok h.fifo p false ha fun _ => hlen
  have heq := (Fifoq.add0_room h.fifo.inited hroom p false a).symm.trans hadd
  rw [hincr] at heq
  obtain ⟨rfl, -⟩ := Prod.mk.inj (Option.some.inj heq)
  have hlenq := hinv.length_eq
  have hlenp := h.fifo.length_eq
  simp only [List.length_append, List.length_singleton] at hlenq
  obtain rfl : rest = ptrs := by
    rcases hrest with ⟨rfl, -⟩ | rfl | rfl
    · rfl
    · simp only [List.length_cons] at hlenp
      omega
    · simp only [List.length_append, List.length_singleton] at hlenp
      omega
  refine ⟨_, _, hadd, hinv, h.unbounded, rfl, ?_⟩
  exact h.owned.update _ (.inr (.inl (by simp))) (fun b hb _ => List.mem_append_left _ hb) (fun b hb _ => hb)

/-- An event that is added. -/
theorem Polls.add (h : Polls t ptrs) {p : Ptr} {a : Addr} (hok : Poll.Ok t (.add p a))
    (hcounts : Poll.Counts t (.add p a)) : ∃ t', Poll.step t (.add p a) = some (t', .silent) ∧
      Polls t' (ptrs ++ [p]) ∧ t'.eventq.held = t.eventq.held := by
  obtain ⟨q, o, hadd, hfifo, hmax, hheld, howned⟩ := h.add0 p hok.1 (hcounts h.unbounded)
  have hstep : Poll.step t (.add p a) = some ({ t with eventq := q }, .silent) := by
    simp [Poll.step, Fifoq.step, hadd]
  obtain ⟨t', o', hstep', hinv⟩ := Poll.step_ok h.inv hok hcounts
  obtain ⟨rfl, -⟩ := Prod.mk.inj (Option.some.inj (hstep.symm.trans hstep'))
  exact ⟨_, hstep, ⟨hinv, hfifo, hmax, howned⟩, hheld⟩

/-- A step that leaves the elements as they are. -/
theorem Polls.idle {t' : Poll.State} (h : Polls t ptrs) (hinv : Poll.Inv t') (hrfq : t'.eventq.rfq = t.eventq.rfq)
    (hheap : t'.eventq.heap = t.eventq.heap) (hheld : t'.eventq.held = t.eventq.held) : Polls t' ptrs where
  inv := hinv
  fifo := by
    obtain ⟨h1, h2, h3, h4, h5, h6, h7, h8, h9⟩ := h.fifo
    exact ⟨hrfq ▸ h1, hrfq ▸ hheap ▸ h2, hrfq ▸ h3, hheld ▸ hheap ▸ h4, hheld ▸ h5, hrfq ▸ h6, hrfq ▸ h7, hrfq ▸ h8,
      hrfq ▸ h9⟩
  unbounded := hrfq ▸ h.unbounded
  owned := hrfq ▸ hheap ▸ hheld ▸ h.owned

/-- The thread begins to poll, is told to exit, or gives up waiting. -/
theorem Polls.quiet (h : Polls t ptrs) {op : Poll.Op} (hop : op = .kill ∨ (∃ ms, op = .poll ms) ∨ op = .timeout)
    (hok : Poll.Ok t op) : ∃ t' o, Poll.step t op = some (t', o) ∧ Polls t' ptrs ∧ t'.eventq.held = t.eventq.held := by
  have hcounts : Poll.Counts t op := by
    rcases hop with rfl | ⟨ms, rfl⟩ | rfl
    · trivial
    · trivial
    · trivial
  obtain ⟨t', o, hstep, hinv⟩ := Poll.step_ok h.inv hok hcounts
  have hsame : t'.eventq.rfq = t.eventq.rfq ∧ t'.eventq.heap = t.eventq.heap ∧ t'.eventq.held = t.eventq.held := by
    rcases hop with rfl | ⟨ms, rfl⟩ | rfl
    · cases hstep
      exact ⟨rfl, rfl, rfl⟩
    · cases hstep
      exact ⟨rfl, rfl, rfl⟩
    · obtain ⟨call, hcall, -⟩ := hok
      obtain ⟨calls, hcalls⟩ := Poll.exists_calls hcall
      simp only [Poll.step, Poll.timeout, hcalls] at hstep
      cases hstep
      exact ⟨rfl, rfl, rfl⟩
  exact ⟨t', o, hstep, h.idle hinv hsame.1 hsame.2.1 hsame.2.2, hsame.2.2⟩

/-- **A look at a queue with an event**: a call has the element, whose pointer is the first one. -/
theorem Polls.look_cons {p : Ptr} (h : Polls t (p :: ptrs)) (tv : Timeval) {call : Poll.Call} {calls : List Poll.Call}
    (hcalls : t.calls = call :: calls) (hplace : call.elm? = none) : ∃ t' a, Poll.look t tv = some (t', .silent) ∧
      Polls t' ptrs ∧ t'.calls = { call with place := .calling a } :: calls ∧ t'.state = t.state ∧
      t'.eventq.heap a = some { refcnt := 1, ptr := p } ∧ t'.eventq.held = a :: t.eventq.held := by
  have hne : t.eventq.rfq.q ≠ [] := List.ne_nil_of_length_pos (by rw [h.fifo.length_eq]; exact Nat.succ_pos _)
  obtain ⟨a, q, hq⟩ := List.exists_cons_of_ne_nil hne
  have helms := h.fifo.elms
  rw [hq, List.map_cons, List.map_cons] at helms
  have hcnt : 0 < t.eventq.rfq.cnt := by
    rw [h.fifo.cnt, hq, List.length_cons]
    omega
  have hpop := Fifoq.popLocked_cons hq hcnt (List.cons.inj helms).1 0 (call.timeoutMs = Poll.nowait) call.timeoutMs
  obtain ⟨q₁, a₁, hpop₁, hfifo⟩ := Fifoq.popLocked_ok h.fifo 0 (call.timeoutMs = Poll.nowait) call.timeoutMs
  obtain ⟨q₂, o₂, hpop₂, -, howned⟩ := Fifoq.popLocked_core h.inv.core 0 (call.timeoutMs = Poll.nowait) call.timeoutMs
  obtain ⟨rfl, -⟩ := Prod.mk.inj (Option.some.inj (hpop.symm.trans hpop₁))
  obtain ⟨rfl, -⟩ := Prod.mk.inj (Option.some.inj (hpop.symm.trans hpop₂))
  obtain ⟨t', hlook, hinv⟩ := Poll.look_event h.inv hcalls hplace hne tv
  obtain ⟨rfl, -⟩ : _ = t' ∧ _ := by
    simp only [Poll.look, hcalls, hpop] at hlook
    exact Prod.mk.inj (Option.some.inj hlook)
  exact ⟨_, a, hlook, ⟨hinv, hfifo, h.unbounded, howned h.owned⟩, rfl, rfl, Function.update_self .., rfl⟩

/-- A call that blocks or gives up has no element. -/
theorem block_head {call : Poll.Call} {calls : List Poll.Call} {tv : Timeval} {t' : Poll.State}
    (hblock : Poll.block t call calls tv = (t', .silent)) : t'.calls.head?.bind Poll.Call.elm? = none := by
  rw [Poll.block] at hblock
  split at hblock
  · split at hblock
    · cases hblock
      rfl
    · cases hblock
    · cases hblock
      rfl
  · cases hblock
    rfl

theorem block_eventq (t : Poll.State) (call : Poll.Call) (calls : List Poll.Call) (tv : Timeval) :
    (Poll.block t call calls tv).1.eventq.rfq = t.eventq.rfq ∧
    (Poll.block t call calls tv).1.eventq.heap = t.eventq.heap ∧
    (Poll.block t call calls tv).1.eventq.held = t.eventq.held := by
  rw [Poll.block]
  split
  · split
    · exact ⟨rfl, rfl, rfl⟩
    · exact ⟨rfl, rfl, rfl⟩
    · exact ⟨rfl, rfl, rfl⟩
  · exact ⟨rfl, rfl, rfl⟩

/-- **A look at an empty queue**. -/
theorem Polls.look_nil (h : Polls t []) {tv : Timeval} (htv : tv.Reading) {call : Poll.Call} {calls : List Poll.Call}
    (hcalls : t.calls = call :: calls) (hplace : call.elm? = none) : ∃ t' o, Poll.look t tv = some (t', o) ∧
      Polls t' [] ∧ t'.eventq.held = t.eventq.held ∧ (o = .silent → t'.calls.head?.bind Poll.Call.elm? = none) ∧
      (call.timeoutMs = Poll.nowait → o = .returned call.cnt ∧ t'.calls = calls) := by
  have hq : t.eventq.rfq.q = [] := List.length_eq_zero_iff.1 h.fifo.length_eq
  obtain ⟨t', o, hlook, hinv, -⟩ := Poll.look_ok h.inv hcalls hplace htv
  obtain ⟨w, hempty⟩ := Poll.look_empty hcalls hq tv
  have heq := Option.some.inj (hempty.symm.trans hlook)
  split at heq
  · cases heq
    exact ⟨_, _, hlook, h.idle hinv rfl rfl rfl, rfl, fun ho => (by cases ho), fun _ => ⟨rfl, rfl⟩⟩
  · have hsame := block_eventq { t with eventq := { t.eventq with waiting := w } } call calls tv
    rw [heq] at hsame
    refine ⟨t', o, hlook, h.idle hinv hsame.1 hsame.2.1 hsame.2.2, hsame.2.2, fun ho => ?_, fun hnow => ?_⟩
    · exact block_head (heq.trans (congrArg (t', ·) ho))
    · exact absurd hnow ‹_›

/-- **The function of an event returns**: its element is freed. -/
theorem Polls.called (h : Polls t ptrs) {call : Poll.Call} {calls : List Poll.Call} (hcalls : t.calls = call :: calls)
    {a : Addr} (ha : call.elm? = some a) (hcounts : call.cnt < Fifoq.intMax) : ∃ t' o, Poll.called t = some (t', o) ∧
      Polls t' ptrs ∧ t'.eventq.held.length + 1 = t.eventq.held.length ∧ (t.state = .running →
        o = .silent ∧ t'.calls = { call with cnt := call.cnt + 1, place := .entering } :: calls ∧
          t'.state = t.state) := by
  have hheld : t.eventq.held = a :: calls.filterMap Poll.Call.elm? := by
    rw [h.inv.held, hcalls, List.filterMap_cons_some ha]
  have hmem : a ∈ t.eventq.held := hheld ▸ List.mem_cons_self
  obtain ⟨q, hrelease, hfifo⟩ := Fifoq.release_ok h.fifo hmem
  obtain ⟨q₁, o₁, hrelease₁, -, howned⟩ := Fifoq.release_core h.inv.core hmem
  obtain ⟨rfl, -⟩ := Prod.mk.inj (Option.some.inj (hrelease.symm.trans hrelease₁))
  have hmax : q.rfq.maxSize = 0 := by
    obtain ⟨heap, -, hnew⟩ := Option.bind_eq_some_iff.1 hrelease
    cases hnew
    exact h.unbounded
  obtain ⟨t', o, hcalled, hinv, -⟩ := Poll.called_ok h.inv hcalls ha hcounts
  have hincr : Fifoq.incr call.cnt = some (call.cnt + 1) := if_pos hcounts
  have hend : t'.eventq = q ∧ (t.state = .running → o = .silent ∧
      t'.calls = { call with cnt := call.cnt + 1, place := .entering } :: calls ∧ t'.state = t.state) := by
    have hc := hcalled
    simp only [Poll.called, hcalls, ha, Option.bind_eq_bind, Option.bind_some, hrelease, hincr] at hc
    split at hc
    · cases hc
      refine ⟨rfl, fun hrun => ?_⟩
      cases hrun.symm.trans ‹t.state = .exiting›
    · cases hc
      exact ⟨rfl, fun _ => ⟨rfl, rfl, rfl⟩⟩
  obtain ⟨hq, hgoes⟩ := hend
  refine ⟨t', o, hcalled, ⟨hinv, hq ▸ hfifo, hq ▸ hmax, hq ▸ howned h.owned⟩, ?_, hgoes⟩
  rw [hq, Fifoq.release_held hrelease, List.length_erase_of_mem hmem]
  have hpos := List.length_pos_of_mem hmem
  omega

end Polls

/-! ## Events and contexts in memory -/

/-- An event with the thread that made it and the call that it is. -/
structure Block where
  pid : Pid
  call : Invocation
  frame : Frame

def Block.entry (b : Block) : Pid × Invocation := (b.pid, b.call)

def Block.rte (b : Block) : Addr := b.frame.rte

def Block.ctx (b : Block) : Option Addr := b.frame.ctx

/-- Memory has exactly the events of the blocks, each once, with their contexts and calls. -/
structure Holds (m : Memory) (bs : List Block) : Prop where
  calls : ∀ b ∈ bs, eventCall m b.rte = some (b.call, b.frame)
  rtes : Blocks m.rtes (bs.map Block.rte)
  ctxs : Blocks m.ctxs (bs.filterMap Block.ctx)

section Holds

variable {m m' : Memory} {b : Block} {bs bs' : List Block} {rte : Addr}

/-- An event is called the same if it and its context stay the same. -/
theorem eventCall_congr {call : Invocation} {frame : Frame} (h : eventCall m rte = some (call, frame))
    (hrte : m'.rtes rte = m.rtes rte) (hctx : ∀ ctx ∈ frame.ctx, m'.ctxs ctx = m.ctxs ctx) :
    eventCall m' rte = some (call, frame) := by
  obtain ⟨e, he, hcall⟩ := Option.bind_eq_some_iff.1 h
  obtain ⟨callback, ptr⟩ := e
  cases callback with
  | other f =>
    cases hcall
    simp [eventCall, hrte, he]
  | funcCb =>
    obtain ⟨c, hc, hfunc⟩ := Option.bind_eq_some_iff.1 hcall
    obtain ⟨call', hcb, heq⟩ := Option.bind_eq_some_iff.1 hfunc
    cases heq
    have hsame := hctx ptr rfl
    simp only at hc
    simp [eventCall, hrte, he, hsame, hc, hcb]

/-- The context is that of an event of `rd_thread_event_func_cb`. -/
theorem eventCall_ctx {call : Invocation} {frame : Frame} (h : eventCall m rte = some (call, frame)) (ctx : Addr) :
    frame.ctx = some ctx ↔ m.rtes rte = some { callback := .funcCb, ptr := ctx } := by
  obtain ⟨e, he, hcall⟩ := Option.bind_eq_some_iff.1 h
  obtain ⟨callback, ptr⟩ := e
  cases callback with
  | other f =>
    cases hcall
    simp [he]
  | funcCb =>
    obtain ⟨c, -, hfunc⟩ := Option.bind_eq_some_iff.1 hcall
    obtain ⟨call', -, heq⟩ := Option.bind_eq_some_iff.1 hfunc
    cases heq
    simp [he]

theorem Holds.empty : Holds { rtes := fun _ => none, ctxs := fun _ => none } [] := ⟨by simp, .empty, .empty⟩

theorem Holds.perm (h : Holds m bs) (hp : bs.Perm bs') : Holds m bs' :=
  ⟨fun b hb => h.calls b (hp.mem_iff.2 hb), h.rtes.perm (hp.map _), h.ctxs.perm (hp.filterMap _)⟩

/-- An event and maybe a context are made. -/
theorem Holds.make (h : Holds m bs) (hrtes : Blocks m'.rtes (b.rte :: bs.map Block.rte))
    (hctxs : Blocks m'.ctxs ((b :: bs).filterMap Block.ctx)) (hcall : eventCall m' b.rte = some (b.call, b.frame))
    (hrte : ∀ a ≠ b.rte, m'.rtes a = m.rtes a) (hctx : ∀ c, c ∉ b.ctx → m'.ctxs c = m.ctxs c) :
    Holds m' (b :: bs) := by
  refine ⟨fun b' hb' => ?_, hrtes, hctxs⟩
  rcases List.mem_cons.1 hb' with rfl | hb'
  · exact hcall
  refine eventCall_congr (h.calls b' hb') (hrte _ ?_) fun ctx hmem => hctx ctx fun hnew => ?_
  · rintro heq
    exact (List.nodup_cons.1 hrtes.nodup).1 (List.mem_map.2 ⟨b', hb', heq⟩)
  · have hnodup := hctxs.nodup
    rw [List.filterMap_cons_some (b := ctx) hnew] at hnodup
    exact (List.nodup_cons.1 hnodup).1 (List.mem_filterMap.2 ⟨b', hb', hmem⟩)

/-- **`rd_thread_event_add`** makes its event. -/
theorem Holds.eventAdd (h : Holds m bs) (ha : m.rtes rte = none) (pid : Pid) (f ptr : Ptr) :
    Holds (eventAdd m (.other f) ptr rte) (⟨pid, ⟨f, [ptr]⟩, ⟨rte, none⟩⟩ :: bs) := by
  refine h.make (h.rtes.alloc ha _) h.ctxs ?_ (fun a hne => Function.update_of_ne hne ..) fun _ _ => rfl
  simp [eventCall, Event.eventAdd, Block.rte]

/-- **`rd_thread_func_call`** makes its context and its event, which calls the function with its arguments. -/
theorem Holds.funcCall (h : Holds m bs) {ctx : Addr} (hctx : m.ctxs ctx = none) (ha : m.rtes rte = none) (pid : Pid)
    (cb : Ptr) {argcnt : Int} {args : List Ptr} (hfour : argcnt ≤ 4) (hargs : argcnt ≤ args.length) :
    ∃ m', funcCall m cb argcnt args ctx rte = some m' ∧
      Holds m' (⟨pid, ⟨cb, args.take argcnt.toNat⟩, ⟨rte, some ctx⟩⟩ :: bs) := by
  obtain ⟨c, hc, hcb, hhas, hcnt⟩ := funcCallCtx_ok cb hfour hargs
  have hfunc := funcCb_ok hhas hcnt
  refine ⟨Event.eventAdd { m with ctxs := Function.update m.ctxs ctx (some c) } .funcCb ctx rte,
    by simp [Event.funcCall, hc], ?_⟩
  refine h.make (h.rtes.alloc ha _) (h.ctxs.alloc hctx c) ?_ (fun a hne => Function.update_of_ne hne ..) fun d hd => ?_
  · simp [eventCall, Event.eventAdd, Block.rte, hfunc, hcb]
  · have hne : d ≠ ctx := fun heq => hd (heq ▸ Option.mem_some_self d)
    exact Function.update_of_ne hne ..

/-- **The end of `rd_thread_event_call`** frees the event and its context, and nothing else. -/
theorem Holds.eventFree (h : Holds m (b :: bs)) : ∃ m', eventFree m b.frame = some m' ∧ Holds m' bs := by
  have hrte : ∃ e, m.rtes b.rte = some e := Option.ne_none_iff_exists'.1 ((h.rtes.mem_iff _).1 List.mem_cons_self)
  obtain ⟨e, he⟩ := hrte
  have hrtes := Blocks.free h.rtes
  have hrest : ∀ b' ∈ bs, b'.rte ≠ b.rte := fun b' hb' heq =>
    (List.nodup_cons.1 h.rtes.nodup).1 (List.mem_map.2 ⟨b', hb', heq⟩)
  cases hctx : b.ctx with
  | none =>
    refine ⟨{ m with rtes := Function.update m.rtes b.rte none }, ?_, fun b' hb' => ?_, hrtes, ?_⟩
    · simp [Event.eventFree, free, show b.frame.ctx = none from hctx,
        show m.rtes b.frame.rte = some e from he, Block.rte]
    · exact eventCall_congr (h.calls b' (List.mem_cons_of_mem b hb')) (Function.update_of_ne (hrest b' hb') ..)
        fun _ _ => rfl
    · have hctxs := h.ctxs
      rwa [List.filterMap_cons_none hctx] at hctxs
  | some ctx =>
    have hctxs := h.ctxs
    rw [List.filterMap_cons_some hctx] at hctxs
    obtain ⟨c, hc⟩ := Option.ne_none_iff_exists'.1 ((hctxs.mem_iff ctx).1 List.mem_cons_self)
    refine ⟨⟨Function.update m.rtes b.rte none, Function.update m.ctxs ctx none⟩, ?_, fun b' hb' => ?_, hrtes,
      hctxs.free⟩
    · simp [Event.eventFree, free, show b.frame.ctx = some ctx from hctx, hc,
        show m.rtes b.frame.rte = some e from he, Block.rte]
    · refine eventCall_congr (h.calls b' (List.mem_cons_of_mem b hb')) (Function.update_of_ne (hrest b' hb') ..) ?_
      intro d hd
      refine Function.update_of_ne (fun heq => ?_) ..
      exact (List.nodup_cons.1 hctxs.nodup).1 (List.mem_filterMap.2 ⟨b', hb', heq ▸ hd⟩)

end Holds

/-! ## One step -/

/-- The blocks of the threads that post, of the queue and of the functions that run. -/
structure Owners where
  posting : List Block
  queue : List Block
  running : List Block

def Owners.all (g : Owners) : List Block := g.posting ++ (g.queue ++ g.running)

/-- Every event has one owner, and a thread has one event at most that it did not add yet. -/
structure Inv (s : State) (g : Owners) : Prop where
  thread : Polls s.thread (g.queue.map Block.rte)
  mem : Holds s.mem g.all
  pids : Blocks s.posting (g.posting.map Block.pid)
  posting : ∀ b ∈ g.posting, s.posting b.pid = some b.rte
  frames : s.frames = g.running.map Block.frame
  held : s.thread.eventq.held.length = g.running.length

abbrev Hist := List (Op × Out)

@[simp] theorem Out.invoked?_ofPoll (o : Poll.Out) : (Out.ofPoll o).invoked? = none := by
  cases o with
  | silent => rfl
  | returned cnt => rfl

/-- The functions called so far. -/
def invoked (hist : Hist) : List Invocation := (hist.map Prod.snd).filterMap Out.invoked?

/-- The calls posted so far. -/
def posted (hist : Hist) : List (Pid × Invocation) := (hist.map Prod.fst).filterMap Op.posts

theorem invoked_snoc (hist : Hist) (op : Op) (o : Out) :
    invoked (hist ++ [(op, o)]) = invoked hist ++ o.invoked?.toList := by
  rw [invoked, List.map_append, List.filterMap_append]
  cases ho : o.invoked? <;> simp [invoked, ho]

theorem posted_snoc (hist : Hist) (op : Op) (o : Out) :
    posted (hist ++ [(op, o)]) = posted hist ++ op.posts.toList := by
  rw [posted, List.map_append, List.filterMap_append]
  cases hop : op.posts <;> simp [posted, hop]

/-- What was called is `done`; with the queue and what is not added yet it is what each thread posted, in order. -/
structure Sent (hist : Hist) (g : Owners) (done : List (Pid × Invocation)) : Prop where
  invoked : invoked hist = done.map Prod.snd
  posted : ∀ pid, lane pid (posted hist) =
    lane pid (done ++ g.queue.map Block.entry) ++ lane pid (g.posting.map Block.entry)

/-- A state after a history. -/
def Good (s : State) (hist : Hist) : Prop := ∃ g done, Inv s g ∧ Sent hist g done

section Steps

variable {s : State} {g : Owners} {hist : Hist} {done : List (Pid × Invocation)}

/-- A step that posts nothing and calls nothing. -/
theorem Sent.silent (h : Sent hist g done) {op : Op} {o : Out} (hop : op.posts = none) (ho : o.invoked? = none) :
    Sent (hist ++ [(op, o)]) g done where
  invoked := by rw [invoked_snoc, ho, h.invoked, Option.toList_none, List.append_nil]
  posted := by rw [posted_snoc, hop, Option.toList_none, List.append_nil]; exact h.posted

/-- **A thread makes an event.** -/
theorem post_good (h : Inv s g) (hs : Sent hist g done) {mem : Memory} {b : Block} (hmem : Holds mem (b :: g.all))
    (hnone : s.posting b.pid = none) {op : Op} (hop : op.posts = some b.entry) :
    Good (s.post b.pid mem b.rte) (hist ++ [(op, .silent)]) := by
  have hnot := h.pids.not_mem hnone
  have hperm : (b :: g.all).Perm (g.posting ++ [b] ++ (g.queue ++ g.running)) := by
    simpa [Owners.all] using List.perm_middle.symm
  refine ⟨{ g with posting := g.posting ++ [b] }, done, ?_, ?_, fun pid => ?_⟩
  · refine { h with mem := hmem.perm hperm, pids := ?_, posting := fun b' hb' => ?_ }
    · rw [List.map_append]
      exact (h.pids.alloc hnone b.rte).perm (List.perm_append_singleton ..).symm
    · rcases List.mem_append.1 hb' with hb' | hb'
      · have hne : b'.pid ≠ b.pid := fun heq => hnot (heq ▸ List.mem_map_of_mem hb')
        exact (Function.update_of_ne hne ..).trans (h.posting b' hb')
      · rw [List.mem_singleton.1 hb']
        exact Function.update_self ..
  · rw [invoked_snoc, hs.invoked]
    exact List.append_nil _
  · rw [posted_snoc, hop, lane_append, hs.posted pid, List.map_append, lane_append pid (g.posting.map _)]
    exact List.append_assoc ..

/-- **A thread adds its event**: the queue has it. -/
theorem fifoqAdd_good (h : Inv s g) (hs : Sent hist g done) {pid : Pid} {rfqe : Addr} (hok : Ok s (.fifoqAdd pid rfqe))
    (hcounts : Counts s (.fifoqAdd pid rfqe)) : ∃ s', fifoqAdd s pid rfqe = some s' ∧
      Good s' (hist ++ [(.fifoqAdd pid rfqe, .silent)]) := by
  obtain ⟨b, hb, rfl⟩ := List.mem_map.1 ((h.pids.mem_iff pid).2 hok.1)
  have hposting := h.posting b hb
  have hpoll : Poll.Op.add b.rte rfqe ∈ (Op.fifoqAdd b.pid rfqe).poll? s := by simp [Op.poll?, hposting]
  obtain ⟨t, hadd, hthread, hheld⟩ := h.thread.add (hok.2 _ hpoll) (hcounts _ hpoll)
  obtain ⟨before, after, hsplit⟩ := List.append_of_mem hb
  have hpids := h.pids
  rw [hsplit, List.map_append, List.map_cons] at hpids
  have hfree := (hpids.perm List.perm_middle).free
  have hnot : b.pid ∉ (before ++ after).map Block.pid := by
    rw [List.map_append]
    exact (List.nodup_cons.1 (hpids.perm List.perm_middle).nodup).1
  have hperm : g.all.Perm (before ++ after ++ (g.queue ++ [b] ++ g.running)) := by
    rw [Owners.all, hsplit]
    refine (List.perm_middle.append_right _).trans ?_
    simpa using (@List.perm_middle _ b (before ++ (after ++ g.queue)) g.running).symm
  refine ⟨{ s with thread := t, posting := Function.update s.posting b.pid none }, by simp [fifoqAdd, hposting, hadd],
    { g with posting := before ++ after, queue := g.queue ++ [b] }, done, ⟨?_, h.mem.perm hperm, ?_, fun b' hb' => ?_,
    h.frames, hheld ▸ h.held⟩, ?_, fun pid => ?_⟩
  · simpa using hthread
  · simpa using hfree
  · have hne : b'.pid ≠ b.pid := fun heq => hnot (heq ▸ List.mem_map_of_mem hb')
    refine (Function.update_of_ne hne ..).trans (h.posting b' ?_)
    rw [hsplit]
    exact List.mem_append.2 ((List.mem_append.1 hb').imp_right (List.mem_cons_of_mem b))
  · rw [invoked_snoc, hs.invoked]
    exact List.append_nil _
  · have hbefore : b.entry.1 ∉ (before.map Block.entry).map Prod.fst := by
      intro hm
      rw [List.map_map] at hm
      exact hnot (List.map_append ▸ List.mem_append_left _ hm)
    rw [posted_snoc, lane_append, hs.posted pid, hsplit, List.map_append, List.map_cons, lane_middle pid hbefore]
    simp [lane_append, Op.posts]

/-- **A look at a queue with an event**: its call begins. -/
theorem Inv.look_cons {posting queue running : List Block} {b : Block} (h : Inv s ⟨posting, b :: queue, running⟩)
    (tv : Timeval) {call : Poll.Call} {calls : List Poll.Call} (hcalls : s.thread.calls = call :: calls)
    (hplace : call.elm? = none) : ∃ s' a, look s tv = some (s', .invoked b.call) ∧
      Inv s' ⟨posting, queue, b :: running⟩ ∧ s'.thread.calls = { call with place := .calling a } :: calls ∧
      s'.thread.state = s.thread.state := by
  obtain ⟨t, a, hlook, hthread, hcalls', hstate, ha, hheld⟩ := h.thread.look_cons tv hcalls hplace
  have hperm : (Owners.all ⟨posting, b :: queue, running⟩).Perm (Owners.all ⟨posting, queue, b :: running⟩) :=
    List.Perm.append_left posting List.perm_middle.symm
  have hcall := h.mem.calls b (List.mem_append_right _ List.mem_cons_self)
  have hhead : t.calls.head?.bind Poll.Call.elm? = some a := hcalls' ▸ rfl
  refine ⟨{ s with thread := t, frames := b.frame :: s.frames }, a, ?_,
    ⟨hthread, h.mem.perm hperm, h.pids, h.posting, ?_, ?_⟩, hcalls', hstate⟩
  · simp [look, hlook, hhead, ha, hcall]
  · exact congrArg (b.frame :: ·) h.frames
  · exact (congrArg List.length hheld).trans (congrArg (· + 1) h.held)

/-- **A look at an empty queue**: the call waits or returns. -/
theorem Inv.look_nil {posting running : List Block} (h : Inv s ⟨posting, [], running⟩) {tv : Timeval}
    (htv : tv.Reading) {call : Poll.Call} {calls : List Poll.Call} (hcalls : s.thread.calls = call :: calls)
    (hplace : call.elm? = none) : ∃ s' o, look s tv = some (s', o) ∧ Inv s' ⟨posting, [], running⟩ ∧
      o.invoked? = none ∧ (call.timeoutMs = Poll.nowait → o = .returned call.cnt ∧ s'.thread.calls = calls) := by
  obtain ⟨t, o, hlook, hthread, hheld, hhead, hnow⟩ := h.thread.look_nil htv hcalls hplace
  have hinv : Inv { s with thread := t } ⟨posting, [], running⟩ := { h with thread := hthread, held := hheld ▸ h.held }
  cases o with
  | silent =>
    have hnull := hhead rfl
    exact ⟨_, .silent, by simp [look, hlook, hnull], hinv, rfl, fun hms => (by cases (hnow hms).1)⟩
  | returned cnt =>
    refine ⟨_, .returned cnt, by simp [look, hlook], hinv, rfl, fun hms => ⟨?_, (hnow hms).2⟩⟩
    rw [Poll.Out.returned.inj (hnow hms).1]

/-- **A function returns**: its event and its context are freed. -/
theorem Inv.called (h : Inv s g) {call : Poll.Call} {calls : List Poll.Call} (hcalls : s.thread.calls = call :: calls)
    {a : Addr} (ha : call.elm? = some a) (hcounts : call.cnt < Fifoq.intMax) : ∃ s' o, called s = some (s', o) ∧
      Inv s' { g with running := g.running.tail } ∧ o.invoked? = none ∧ (s.thread.state = .running →
        s'.thread.calls = { call with cnt := call.cnt + 1, place := .entering } :: calls ∧
        s'.thread.state = s.thread.state) := by
  obtain ⟨t, o, hcalled, hthread, hheld, hgoes⟩ := h.thread.called hcalls ha hcounts
  obtain ⟨posting, queue, running⟩ := g
  cases running with
  | nil =>
    have := h.held
    simp only [List.length_nil] at this
    omega
  | cons b running =>
    have hperm : (Owners.all ⟨posting, queue, b :: running⟩).Perm (b :: Owners.all ⟨posting, queue, running⟩) := by
      simpa [Owners.all] using @List.perm_middle _ b (posting ++ queue) running
    obtain ⟨mem, hfree, hmem⟩ := (h.mem.perm hperm).eventFree
    have hframes : s.frames = b.frame :: running.map Block.frame := h.frames
    refine ⟨{ s with thread := t, mem := mem, frames := running.map Block.frame }, .ofPoll o, ?_,
      ⟨hthread, hmem, h.pids, h.posting, rfl, ?_⟩, Out.invoked?_ofPoll o, fun hrun => (hgoes hrun).2⟩
    · simp [Event.called, hframes, hfree, hcalled]
    · have hlen : s.thread.eventq.held.length = running.length + 1 := h.held
      exact Nat.succ.inj (hheld.trans hlen)

theorem look_good (h : Inv s g) (hs : Sent hist g done) {tv : Timeval} (hok : Ok s (.look tv)) :
    ∃ s' o, look s tv = some (s', o) ∧ Good s' (hist ++ [(.look tv, o)]) := by
  obtain ⟨htv, call, hcall, hplace⟩ := hok.2 (.look tv) rfl
  obtain ⟨calls, hcalls⟩ := Poll.exists_calls hcall
  obtain ⟨posting, queue, running⟩ := g
  cases queue with
  | nil =>
    obtain ⟨s', o, hlook, hinv, ho, -⟩ := h.look_nil htv hcalls hplace
    exact ⟨s', o, hlook, _, done, hinv, hs.silent rfl ho⟩
  | cons b queue =>
    obtain ⟨s', a, hlook, hinv, -⟩ := h.look_cons tv hcalls hplace
    refine ⟨s', _, hlook, _, done ++ [b.entry], hinv, ?_, fun pid => ?_⟩
    · rw [invoked_snoc, hs.invoked, List.map_append]
      rfl
    · rw [posted_snoc, lane_append, hs.posted pid]
      simp [Op.posts]

theorem called_good (h : Inv s g) (hs : Sent hist g done) (hok : Ok s .called) (hcounts : Counts s .called) :
    ∃ s' o, called s = some (s', o) ∧ Good s' (hist ++ [(.called, o)]) := by
  obtain ⟨call, hcall, hplace⟩ := hok.2 .called rfl
  obtain ⟨calls, hcalls⟩ := Poll.exists_calls hcall
  obtain ⟨a, ha⟩ := Option.ne_none_iff_exists'.1 hplace
  obtain ⟨s', o, hcalled, hinv, ho, -⟩ := h.called hcalls ha (hcounts .called rfl call hcall)
  have hsilent := hs.silent (show Op.called.posts = none from rfl) ho
  exact ⟨s', o, hcalled, _, done, hinv, hsilent.invoked, hsilent.posted⟩

/-- **A step of the thread** that calls nothing. -/
theorem onThread_good (h : Inv s g) (hs : Sent hist g done) {op : Op} {p : Poll.Op} (hop : op.posts = none)
    (hp : p = .kill ∨ (∃ ms, p = .poll ms) ∨ p = .timeout) (hok : Poll.Ok s.thread p) :
    ∃ s' o, onThread s p = some (s', o) ∧ Good s' (hist ++ [(op, o)]) := by
  obtain ⟨t, o, hstep, hthread, hheld⟩ := h.thread.quiet hp hok
  refine ⟨{ s with thread := t }, .ofPoll o, by simp [onThread, hstep], g, done, ?_, ?_⟩
  · exact { h with thread := hthread, held := hheld ▸ h.held }
  · exact hs.silent hop (Out.invoked?_ofPoll o)

end Steps

/-- **One step** that does not count past `INT_MAX` does not fault. -/
theorem step_good (s : State) (hist : Hist) (op : Op) (h : Good s hist) (hboth : Ok s op ∧ Counts s op) :
    ∃ s' o, step s op = some (s', o) ∧ Good s' (hist ++ [(op, o)]) := by
  obtain ⟨g, done, h, hs⟩ := h
  obtain ⟨hok, hcounts⟩ := hboth
  cases op with
  | funcCall pid cb argcnt args ctx rte =>
    obtain ⟨hnone, hctx, hrte, hfour, hargs⟩ := hok.1
    obtain ⟨mem, hcall, hmem⟩ := h.mem.funcCall hctx hrte pid cb hfour hargs
    exact ⟨_, _, by rw [step, hcall]; rfl, post_good h hs hmem hnone rfl⟩
  | eventAdd pid f ptr rte => exact ⟨_, _, rfl, post_good h hs (h.mem.eventAdd hok.1.2 pid f ptr) hok.1.1 rfl⟩
  | fifoqAdd pid rfqe =>
    obtain ⟨s', hadd, hgood⟩ := fifoqAdd_good h hs hok hcounts
    exact ⟨s', .silent, by rw [step, hadd]; rfl, hgood⟩
  | kill => exact onThread_good h hs rfl (.inl rfl) (hok.2 _ rfl)
  | poll ms => exact onThread_good h hs rfl (.inr (.inl ⟨ms, rfl⟩)) (hok.2 _ rfl)
  | look tv => exact look_good h hs hok
  | timeout => exact onThread_good h hs rfl (.inr (.inr rfl)) (hok.2 _ rfl)
  | called => exact called_good h hs hok hcounts

/-! ## Runs -/

theorem start_good : Good start [] :=
  ⟨⟨[], [], []⟩, [], ⟨start_polls, .empty, .empty, by simp, rfl, rfl⟩, rfl, fun _ => rfl⟩

theorem run_good (ops : List Op) (hok : machine.Admits start ops) (hcounts : machine.Each Counts start ops) :
    ∃ s outs, machine.run start ops = some (s, outs) ∧ Good s (ops.zip outs) :=
  Machine.run_hist step_good ops start [] start_good (Machine.each_and hok hcounts)

/-- The calls in the queue, as memory has them. -/
theorem Inv.queued_eq {s : State} {g : Owners} (h : Inv s g) :
    s.queued = (g.queue.map Block.entry).map fun e => some e.2 := by
  rw [State.queued, h.thread.fifo.queued_eq, List.map_map, List.map_map, List.map_map]
  refine List.map_congr_left fun b hb => ?_
  have hcall := h.mem.calls b (List.mem_append_right _ (List.mem_append_left _ hb))
  simp [hcall, Block.entry]

/-- What a thread made and did not add yet. -/
theorem Inv.posting_eq {s : State} {g : Owners} (h : Inv s g) (pid : Pid) :
    lane pid (g.posting.map Block.entry) = (s.postingCall pid).toList := by
  have hfst : (g.posting.map Block.entry).map Prod.fst = g.posting.map Block.pid := by
    rw [List.map_map]
    rfl
  by_cases hpid : pid ∈ g.posting.map Block.pid
  · obtain ⟨b, hb, rfl⟩ := List.mem_map.1 hpid
    have hcall := h.mem.calls b (List.mem_append_left _ hb)
    have hpost : s.postingCall b.pid = some b.call := by simp [State.postingCall, h.posting b hb, hcall]
    obtain ⟨before, after, hsplit⟩ := List.append_of_mem hb
    have hnodup := (h.pids.perm (hsplit ▸ List.perm_middle.map Block.pid)).nodup
    have hnot : b.pid ∉ ((before ++ after).map Block.entry).map Prod.fst := by
      rw [List.map_map]
      exact (List.nodup_cons.1 hnodup).1
    rw [hpost, hsplit, List.map_append, List.map_cons, lane_middle b.pid, ← List.map_append, lane_eq_nil hnot]
    · exact congrArg (· ++ []) (lane_cons_self b.pid b.call [])
    · intro hm
      rw [List.map_append, List.map_append] at hnot
      exact hnot (List.mem_append_left _ hm)
  · have hnone : s.posting pid = none := not_not.1 fun hsome => hpid ((h.pids.mem_iff pid).2 hsome)
    rw [lane_eq_nil (hfst ▸ hpid), State.postingCall, hnone]
    rfl

/-- **Every call once, in order.** Whatever threads post, and in whatever order they and the polling thread take their
steps, nothing faults; and the functions that were called, with those in the queue after them and the one that a thread
is about to add, are the posts of every thread in the order in which it made them. -/
theorem events_run (ops : List Op) (hok : machine.Admits start ops) (hcounts : machine.Each Counts start ops) :
    ∃ s outs, machine.run start ops = some (s, outs) ∧ ∃ done waiting : List (Pid × Invocation),
      outs.filterMap Out.invoked? = done.map Prod.snd ∧ s.queued = waiting.map (fun e => some e.2) ∧
      ∀ pid, lane pid (ops.filterMap Op.posts) = lane pid (done ++ waiting) ++ (s.postingCall pid).toList := by
  obtain ⟨s, outs, hrun, g, done, hinv, hs⟩ := run_good ops hok hcounts
  have hlen := Machine.run_length hrun
  have hinvoked : invoked (ops.zip outs) = outs.filterMap Out.invoked? := by
    rw [invoked, List.map_snd_zip hlen.le]
  have hposted : posted (ops.zip outs) = ops.filterMap Op.posts := by
    rw [posted, List.map_fst_zip hlen.ge]
  refine ⟨s, outs, hrun, done, g.queue.map Block.entry, ?_, hinv.queued_eq, fun pid => ?_⟩
  · rw [← hinvoked, hs.invoked]
  · rw [← hposted, hs.posted pid, hinv.posting_eq pid]

/-- Two threads post, one while the call of the other runs. -/
theorem events_run_two :
    let ops : List Op :=
      [.funcCall 1 50 2 [7, 8, 9] 0 0, .eventAdd 2 60 5 1, .fifoqAdd 2 10, .poll 100, .look ⟨10, 5000⟩,
      .fifoqAdd 1 11, .called, .look ⟨10, 5000⟩]
    ∃ s outs, machine.run start ops = some (s, outs) ∧ ∃ done waiting : List (Pid × Invocation),
      outs.filterMap Out.invoked? = done.map Prod.snd ∧ s.queued = waiting.map (fun e => some e.2) ∧
      ∀ pid, lane pid (ops.filterMap Op.posts) = lane pid (done ++ waiting) ++ (s.postingCall pid).toList :=
  events_run _ (by decide) (by decide)

/-- The events that threads are about to add. -/
theorem Inv.posting_iff {s : State} {g : Owners} (h : Inv s g) (a : Addr) :
    (∃ pid, s.posting pid = some a) ↔ ∃ b ∈ g.posting, b.rte = a := by
  constructor
  · rintro ⟨pid, hpid⟩
    obtain ⟨b, hb, rfl⟩ := List.mem_map.1 ((h.pids.mem_iff pid).2 (hpid ▸ Option.some_ne_none a))
    exact ⟨b, hb, Option.some.inj ((h.posting b hb).symm.trans hpid)⟩
  · rintro ⟨b, hb, rfl⟩
    exact ⟨b.pid, h.posting b hb⟩

/-- **No leak, and nothing is freed twice.** After every such run the events in memory are exactly those that a thread
is about to add, those in the queue and those whose function runs; every context belongs to one of these events, and has
not been freed; and an element is allocated exactly as long as it is in the queue or its event runs. -/
theorem events_owned (ops : List Op) (hok : machine.Admits start ops) (hcounts : machine.Each Counts start ops) :
    ∃ s outs, machine.run start ops = some (s, outs) ∧
      (∀ a, s.mem.rtes a ≠ none ↔
        (∃ pid, s.posting pid = some a) ∨ some a ∈ s.thread.eventq.queued ∨ ∃ frame ∈ s.frames, frame.rte = a) ∧
      (∀ c, s.mem.ctxs c ≠ none ↔ ∃ a, s.mem.rtes a = some { callback := .funcCb, ptr := c }) ∧
      (∀ a, s.thread.eventq.heap a ≠ none ↔ a ∈ s.thread.eventq.rfq.q ∨ a ∈ s.thread.eventq.held) ∧
      s.thread.eventq.held.length = s.frames.length := by
  obtain ⟨s, outs, hrun, g, done, h, -⟩ := run_good ops hok hcounts
  refine ⟨s, outs, hrun, fun a => ?_, fun c => ?_, fun a => ⟨h.thread.owned a, ?_⟩, ?_⟩
  · rw [← h.mem.rtes.mem_iff a, h.posting_iff a, h.thread.fifo.queued_eq, h.frames]
    simp only [Owners.all, List.map_append, List.mem_append, List.mem_map, Option.some.injEq, exists_eq_right,
      exists_exists_and_eq_and]
    rfl
  · rw [← h.mem.ctxs.mem_iff c, List.mem_filterMap]
    constructor
    · rintro ⟨b, hb, hctx⟩
      exact ⟨b.rte, (eventCall_ctx (h.mem.calls b hb) c).1 hctx⟩
    · rintro ⟨a, ha⟩
      obtain ⟨b, hb, rfl⟩ := List.mem_map.1 ((h.mem.rtes.mem_iff a).2 (ha ▸ Option.some_ne_none _))
      exact ⟨b, hb, (eventCall_ctx (h.mem.calls b hb) c).2 ha⟩
  · rintro (ha | ha)
    · obtain ⟨p, hp⟩ := h.thread.inv.core.links.queued a ha
      exact hp ▸ Option.some_ne_none _
    · obtain ⟨p, hp⟩ := h.thread.inv.core.links.popped a ha
      exact hp ▸ Option.some_ne_none _
  · rw [h.held, h.frames, List.length_map]

/-- A call that was added, and another one that runs. -/
theorem events_owned_two :
    let ops : List Op :=
      [.funcCall 1 50 2 [7, 8, 9] 0 0, .eventAdd 2 60 5 1, .fifoqAdd 2 10, .poll 100, .look ⟨10, 5000⟩,
      .fifoqAdd 1 11]
    ∃ s outs, machine.run start ops = some (s, outs) ∧
      (∀ a, s.mem.rtes a ≠ none ↔
        (∃ pid, s.posting pid = some a) ∨ some a ∈ s.thread.eventq.queued ∨ ∃ frame ∈ s.frames, frame.rte = a) ∧
      (∀ c, s.mem.ctxs c ≠ none ↔ ∃ a, s.mem.rtes a = some { callback := .funcCb, ptr := c }) ∧
      (∀ a, s.thread.eventq.heap a ≠ none ↔ a ∈ s.thread.eventq.rfq.q ∨ a ∈ s.thread.eventq.held) ∧
      s.thread.eventq.held.length = s.frames.length :=
  events_owned _ (by decide) (by decide)

/-! ## A poll that nobody disturbs -/

/-- A look at the queue and the call of its event, at each of the times. -/
def served (tvs : List Timeval) : List Op := tvs.flatMap fun tv => [.look tv, .called]

/-- The steps of an `rd_thread_poll` with `RD_POLL_NOWAIT`. -/
def drain (tvs : List Timeval) (tv : Timeval) : List Op := .poll Poll.nowait :: (served tvs ++ [.look tv])

/-- A call that has counted `cnt` events. -/
def entering (cnt : Int) : Poll.Call := { timeoutMs := Poll.nowait, cnt := cnt, place := .entering }

/-- The events of the queue, one after another. -/
theorem run_served {posting running : List Block} {calls : List Poll.Call} : ∀ (queue : List Block)
    (tvs : List Timeval) (s : State) (cnt : Int), Inv s ⟨posting, queue, running⟩ → tvs.length = queue.length →
    s.thread.state = .running → s.thread.calls = entering cnt :: calls → cnt + queue.length ≤ Fifoq.intMax →
    ∃ s' outs, machine.run s (served tvs) = some (s', outs) ∧ Inv s' ⟨posting, [], running⟩ ∧
      outs.filterMap Out.invoked? = queue.map Block.call ∧
      s'.thread.calls = entering (cnt + queue.length) :: calls := by
  intro queue
  induction queue with
  | nil =>
    intro tvs s cnt h hlen _ hcalls _
    obtain rfl := List.length_eq_zero_iff.1 hlen
    exact ⟨s, [], rfl, h, rfl, by simpa using hcalls⟩
  | cons b queue ih =>
    intro tvs s cnt h hlen hrun hcalls hmax
    obtain ⟨tv, tvs, rfl⟩ := List.exists_cons_of_length_eq_add_one hlen
    rw [List.length_cons] at hmax
    obtain ⟨s₁, a, hlook, h₁, hcalls₁, hstate₁⟩ := h.look_cons tv hcalls rfl
    have hcnt : cnt < Fifoq.intMax := by omega
    obtain ⟨s₂, o, hcalled, h₂, ho, hgoes⟩ := h₁.called hcalls₁ rfl hcnt
    obtain ⟨hcalls₂, hstate₂⟩ := hgoes (hstate₁.trans hrun)
    obtain ⟨s₃, outs, hrest, h₃, houts, hcalls₃⟩ := ih tvs s₂ (cnt + 1) h₂ (Nat.succ.inj hlen)
      (hstate₂.trans (hstate₁.trans hrun)) hcalls₂ (by omega)
    refine ⟨s₃, .invoked b.call :: o :: outs, ?_, h₃, ?_, ?_⟩
    · exact Machine.run_cons hlook (Machine.run_cons hcalled hrest)
    · rw [List.filterMap_cons_some (f := Out.invoked?) (b := b.call) rfl, List.filterMap_cons_none ho, houts]
      rfl
    · rw [hcalls₃, List.length_cons, Nat.cast_add, Nat.cast_one, Int.add_assoc, Int.add_comm 1]

/-- **A poll serves the queue.** After every run, an `rd_thread_poll` with `RD_POLL_NOWAIT`, by the thread or
by a function that it calls, calls everything that is queued, in order, if nobody disturbs it, and returns how
much that is. -/
theorem poll_drains (ops : List Op) {s : State} {outs : List Out} (hok : machine.Admits start ops)
    (hcounts : machine.Each Counts start ops) (hrun : machine.run start ops = some (s, outs))
    (hpoll : Poll.Ok s.thread (.poll Poll.nowait)) {tvs : List Timeval} (hlen : tvs.length = s.queued.length)
    {tv : Timeval} (htv : tv.Reading) : ∃ s' outs', machine.run s (drain tvs tv) = some (s', outs') ∧
      (outs'.filterMap Out.invoked?).map some = s.queued ∧ outs'.getLast? = some (.returned s.queued.length) ∧
      s'.queued = [] ∧ s'.thread.calls = s.thread.calls := by
  obtain ⟨s₀, outs₀, hrun₀, hgood⟩ := run_good ops hok hcounts
  obtain rfl : s = s₀ := (Prod.mk.inj (Option.some.inj (hrun.symm.trans hrun₀))).1
  obtain ⟨⟨posting, queue, running⟩, done, h, -⟩ := hgood
  have hqueued := h.queued_eq
  rw [List.map_map] at hqueued
  have hqlen : s.queued.length = queue.length := by rw [hqueued, List.length_map]
  have hmax : 0 + (queue.length : Int) ≤ Fifoq.intMax := by
    have hcnt := h.thread.inv.core.cnt_le
    rw [h.thread.fifo.cnt, h.thread.fifo.length_eq, List.length_map] at hcnt
    rwa [Int.zero_add]
  -- the call begins, serves the queue, and finds it empty
  obtain ⟨t, o, hstep, hthread, hheld⟩ := h.thread.quiet (.inr (.inl ⟨_, rfl⟩)) hpoll
  cases hstep
  have h₁ : Inv { s with thread := { s.thread with calls := entering 0 :: s.thread.calls } }
    ⟨posting, queue, running⟩ :=
    { h with thread := hthread }
  obtain ⟨s₂, outs₂, hserved, h₂, houts₂, hcalls₂⟩ :=
    run_served queue tvs _ 0 h₁ (hlen.trans hqlen) hpoll.1 rfl hmax
  obtain ⟨s₃, o₃, hlook, h₃, ho₃, hnow⟩ := h₂.look_nil htv hcalls₂ rfl
  obtain ⟨rfl, hcalls₃⟩ := hnow rfl
  have hlast : machine.run s₂ [.look tv] = some (s₃, [.returned (0 + queue.length)]) := Machine.run_cons hlook rfl
  refine ⟨s₃, .silent :: (outs₂ ++ [.returned (0 + queue.length)]), ?_, ?_, ?_, ?_, hcalls₃⟩
  · exact Machine.run_cons rfl (Machine.run_append hlast hserved)
  · rw [List.filterMap_cons_none (f := Out.invoked?) rfl, List.filterMap_append, houts₂, hqueued,
      List.map_append, List.map_map]
    exact List.append_nil _
  · rw [← List.cons_append, List.getLast?_concat, Int.zero_add, hqlen]
  · exact h₃.queued_eq

/-- A thread with two calls in its queue. -/
theorem poll_drains_two :
    let ops : List Op := [.funcCall 1 50 2 [7, 8, 9] 0 0, .eventAdd 2 60 5 1, .fifoqAdd 2 10, .fifoqAdd 1 11]
    ∃ s outs, machine.run start ops = some (s, outs) ∧
      ∃ s' outs', machine.run s (drain [⟨10, 5000⟩, ⟨10, 6000⟩] ⟨10, 7000⟩) = some (s', outs') ∧
        (outs'.filterMap Out.invoked?).map some = s.queued ∧ outs'.getLast? = some (.returned s.queued.length) ∧
        s'.queued = [] ∧ s'.thread.calls = s.thread.calls := by
  intro ops
  exact ⟨_, _, rfl, poll_drains ops (by decide) (by decide) rfl (by decide) rfl (by decide)⟩

end Librd.Thread.Event
