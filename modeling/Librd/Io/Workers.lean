import Librd.Io.Refs

/-!
# Workers: the order of events, and the pool

* Every event that is delivered waits until its handler is invoked, and is neither lost nor duplicated (`run_waiting`).
* `rioh_worker_thread` is never set, so every event goes to a worker of its own, and workers overtake each other. Events
  of a handle are handled in order in every run in which none is delivered while another one is waiting
  (`run_in_order`).
* Nothing puts a worker back into `rd_io_worker_lru`, so each event takes a new worker, up to the limit
  (`run_stuck_iff`).
-/

namespace Librd.Io

/-! ## Events that wait -/

/-- The event that a worker has taken and not called the handler for. -/
def WorkPc.waiting : WorkPc → List HndEvent
  | .popped ev => [ev]
  | _ => []

def Worker.waiting (w : Worker) : List HndEvent := w.pc.waiting ++ w.eventq

/-- The event that the IO thread has no worker for yet, or has not queued yet. -/
def IoPc.waiting : IoPc → List HndEvent
  | .getting ev _ | .adding _ ev _ => [ev]
  | _ => []

/-- The events that were delivered and whose handler was not invoked. -/
def State.waiting (s : State) : List HndEvent := s.workers.flatMap Worker.waiting ++ s.io.waiting

/-- The events delivered in a step. -/
def deliveredIn (o : List Obs) : List HndEvent :=
  o.filterMap fun
    | .delivered ev => some ev
    | _ => none

/-- The events whose handler is invoked in a step. -/
def invokedIn (o : List Obs) : List HndEvent :=
  o.filterMap fun
    | .invoked ev _ _ => some ev
    | _ => none

/-- 1 while the IO thread is in `rd_io_worker_get`. -/
def IoPc.asking : IoPc → Nat
  | .getting _ _ => 1
  | _ => 0

/-- 1 if an event is delivered for a handler that may block. -/
def handedIn : List Obs → Nat
  | [.delivered _] => 1
  | _ => 0

/-! ## What a step does to events and workers -/

/-- No handle is assigned to a worker. -/
def NoWorker (s : State) : Prop := ∀ rioh a, s.heap rioh = some a → a.workerThread = none

/-- The pool does not change, nor is a handle assigned to a worker. -/
structure SamePool (s s' : State) : Prop where
  lru : s'.workerLru = s.workerLru
  cnt : s'.workerCnt = s.workerCnt
  noWorker : NoWorker s → NoWorker s'

/-- What a step does: nothing to events, a worker goes on with its own, the IO thread delivers one, gets a worker for
one, or queues one. -/
inductive Handling (i : Step) (s s' : State) (o : List Obs) : Prop
  | rest (hworkers : s'.workers = s.workers) (hwait : s'.io.waiting = s.io.waiting)
      (hask : s'.io.asking = s.io.asking) (ho : deliveredIn o = [] ∧ invokedIn o = []) (hpool : SamePool s s')
  | work (w : Nat) (worker worker' : Worker) (hw : s.workers[w]? = some worker)
      (hworkers : s'.workers = s.workers.set w worker') (hio : s'.io = s.io)
      (hwait : worker.waiting = invokedIn o ++ worker'.waiting) (ho : deliveredIn o = []) (hpool : SamePool s s')
  | deliver (ev : HndEvent) (events : BitVec 32) (evs : List (Nat × BitVec 32)) (a : Hnd) (hi : i = .io)
      (hio : s.io = .batch ((ev.rioh, events) :: evs)) (ha : s.heap ev.rioh = some a) (hfd : a.fd ≠ -1)
      (hworkers : s'.workers = s.workers) (ho : deliveredIn o = [ev]) (hwait : invokedIn o ++ s'.io.waiting = [ev])
      (hask : a.workerThread = none → s'.io.asking = handedIn o) (hpool : SamePool s s')
  | get (rdt : Nat) (ev : HndEvent) (evs : List (Nat × BitVec 32)) (hio : s.io = .getting ev evs)
      (hio' : s'.io = .adding rdt ev evs)
      (hworkers : s'.workers.flatMap Worker.waiting = s.workers.flatMap Worker.waiting)
      (hcnt : s.workerLru = [] → s'.workerLru = [] ∧ s'.workerCnt = s.workerCnt + 1)
      (hheap : s'.heap = s.heap) (ho : o = [])
  | queue (rdt : Nat) (ev : HndEvent) (evs : List (Nat × BitVec 32)) (worker : Worker) (hio : s.io = .adding rdt ev evs)
      (hio' : s'.io = .batch evs) (hw : s.workers[rdt]? = some worker)
      (hworkers : s'.workers = s.workers.set rdt { worker with eventq := worker.eventq ++ [ev] }) (ho : o = [])
      (hpool : SamePool s s')

section Parts

variable {i : Step} {s s1 s' : State} {o : List Obs} {rioh : Nat}

theorem NoWorker.put (h : NoWorker s) (rioh : Nat) {a : Hnd} (ha : a.workerThread = none) :
    NoWorker (s.put rioh a) := by
  intro x b hb
  by_cases hx : x = rioh
  · subst hx
    obtain rfl : a = b := by simpa [State.put] using hb
    exact ha
  · exact h x b (by simpa [State.put, Function.update_of_ne hx] using hb)

theorem samePool_refl (s : State) : SamePool s s := ⟨rfl, rfl, id⟩

theorem keep_samePool (h : ioHndKeep s rioh = some s1) : SamePool s s1 := by
  obtain ⟨a, ha, rfl⟩ := ioHndKeep_eq h
  exact ⟨rfl, rfl, fun hno => hno.put rioh (hno rioh a ha)⟩

theorem destroy_samePool (h : ioHndDestroy s rioh = some s1) : SamePool s s1 := by
  obtain ⟨a, hnds, heap, ha, rfl, rfl | ⟨-, rfl⟩⟩ := ioHndDestroy_eq h
  · exact ⟨rfl, rfl, fun hno => hno.put rioh (a := { a with refcnt := a.refcnt - 1 }) (hno rioh a ha)⟩
  · refine ⟨rfl, rfl, fun hno x b hb => ?_⟩
    by_cases hx : x = rioh
    · simp [hx] at hb
    · exact hno x b (by simpa [Function.update_of_ne hx] using hb)

/-- Calls leave events and workers alone. -/
theorem handling_call (hworkers : s'.workers = s.workers) (hio : s'.io = s.io)
    (ho : deliveredIn o = [] ∧ invokedIn o = []) (hpool : SamePool s s') : Handling i s s' o :=
  .rest hworkers (by rw [hio]) (by rw [hio]) ho hpool

theorem ioHndGet_pool {fd : Int} {create : Bool} {r : Option Nat} (h : ioHndGet s fd create = some (s1, r)) :
    s1.workers = s.workers ∧ s1.io = s.io ∧ SamePool s s1 := by
  unfold ioHndGet at h
  split at h
  · obtain ⟨s2, hkeep, heq⟩ := Option.bind_eq_some_iff.1 h
    obtain ⟨rfl, -⟩ := Prod.mk.inj (Option.some.inj heq)
    have hpool := keep_samePool hkeep
    obtain ⟨a, -, rfl⟩ := ioHndKeep_eq hkeep
    exact ⟨rfl, rfl, hpool⟩
  · split at h
    · obtain ⟨rfl, -⟩ := Prod.mk.inj (Option.some.inj h)
      exact ⟨rfl, rfl, rfl, rfl, fun hno => hno.put s.next rfl⟩
    · obtain ⟨rfl, -⟩ := Prod.mk.inj (Option.some.inj h)
      exact ⟨rfl, rfl, samePool_refl s⟩

theorem ioDel_handling {fd : Int} (h : ioDel s fd = some (s', o)) : Handling i s s' o := by
  obtain ⟨⟨s1, r⟩, hget, h⟩ := Option.bind_eq_some_iff.1 h
  obtain ⟨hworkers, hio, hpool⟩ := ioHndGet_pool hget
  cases r with
  | none =>
    obtain ⟨rfl, rfl⟩ := Prod.mk.inj (Option.some.inj h)
    exact handling_call hworkers hio ⟨rfl, rfl⟩ hpool
  | some rioh =>
    obtain ⟨rfl, rfl⟩ := Prod.mk.inj (Option.some.inj h)
    exact handling_call hworkers hio ⟨rfl, rfl⟩ ⟨hpool.lru, hpool.cnt, hpool.noWorker⟩

theorem ioAdd_handling {fd : Int} {events flags : BitVec 32} {cb : Callback}
    (h : ioAdd s fd events flags cb = some (s', o)) : Handling i s s' o := by
  unfold ioAdd at h
  split at h
  · exact ioDel_handling h
  · obtain ⟨⟨s1, r⟩, hget, h⟩ := Option.bind_eq_some_iff.1 h
    obtain ⟨hworkers, hio, hpool⟩ := ioHndGet_pool hget
    cases r with
    | none => cases h
    | some rioh =>
      obtain ⟨rfl, rfl⟩ := Prod.mk.inj (Option.some.inj h)
      exact handling_call hworkers hio ⟨rfl, rfl⟩ ⟨hpool.lru, hpool.cnt, hpool.noWorker⟩

theorem runTask_handling {t : Nat} {ok : Bool} {task : Task} (h : runTask s t ok task = some (s', o)) :
    Handling i s s' o := by
  obtain ⟨s1, started, up, epoll, tasks, hstep, rfl, ho⟩ := runTask_cases h
  have hnone : deliveredIn o = [] ∧ invokedIn o = [] := by
    rcases ho with rfl | ⟨ret, rfl⟩
    · exact ⟨rfl, rfl⟩
    · exact ⟨rfl, rfl⟩
  cases hstep with
  | rest heq =>
    subst heq
    exact handling_call rfl rfl hnone ⟨rfl, rfl, id⟩
  | change rioh a b ha _ hthread heq =>
    subst heq
    exact handling_call rfl rfl hnone ⟨rfl, rfl, fun hno => hno.put rioh (hthread.trans (hno rioh a ha))⟩
  | keep rioh hkeep =>
    have hpool := keep_samePool hkeep
    obtain ⟨a, -, rfl⟩ := ioHndKeep_eq hkeep
    exact handling_call rfl rfl hnone ⟨rfl, rfl, hpool.noWorker⟩
  | destroy rioh hdestroy =>
    have hpool := destroy_samePool hdestroy
    obtain ⟨a, hnds, heap, -, rfl, -⟩ := ioHndDestroy_eq hdestroy
    exact handling_call rfl rfl hnone ⟨rfl, rfl, hpool.noWorker⟩

theorem runWorker_handling {w : Nat} {worker : Worker} (hw : s.workers[w]? = some worker)
    (h : runWorker s w worker.eventq worker.pc = some (s', o)) : Handling i s s' o := by
  obtain ⟨q, pc⟩ := worker
  cases pc with
  | idle =>
    cases q with
    | nil =>
      obtain ⟨rfl, rfl⟩ := Prod.mk.inj (Option.some.inj h)
      exact handling_call rfl rfl ⟨rfl, rfl⟩ (samePool_refl s)
    | cons ev q =>
      obtain ⟨rfl, rfl⟩ := Prod.mk.inj (Option.some.inj h)
      exact .work w _ _ hw rfl rfl rfl rfl ⟨rfl, rfl, id⟩
  | popped ev =>
    obtain ⟨a, ha, h⟩ := Option.bind_eq_some_iff.1 h
    obtain ⟨s1, hkeep, heq⟩ := Option.bind_eq_some_iff.1 h
    obtain ⟨rfl, rfl⟩ := Prod.mk.inj (Option.some.inj heq)
    have hpool := keep_samePool hkeep
    obtain ⟨a, -, rfl⟩ := ioHndKeep_eq hkeep
    exact .work w _ _ hw rfl rfl rfl rfl ⟨rfl, rfl, hpool.noWorker⟩
  | calling ev =>
    obtain ⟨s1, hdest, heq⟩ := Option.bind_eq_some_iff.1 h
    obtain ⟨rfl, rfl⟩ := Prod.mk.inj (Option.some.inj heq)
    have hpool := destroy_samePool hdest
    obtain ⟨a, hnds, heap, -, rfl, -⟩ := ioHndDestroy_eq hdest
    exact .work w _ _ hw rfl rfl rfl rfl ⟨rfl, rfl, hpool.noWorker⟩
  | called ev =>
    obtain ⟨s1, hdest, heq⟩ := Option.bind_eq_some_iff.1 h
    obtain ⟨rfl, rfl⟩ := Prod.mk.inj (Option.some.inj heq)
    have hpool := destroy_samePool hdest
    obtain ⟨a, hnds, heap, -, rfl, -⟩ := ioHndDestroy_eq hdest
    exact .work w _ _ hw rfl rfl rfl rfl ⟨rfl, rfl, hpool.noWorker⟩

theorem ioHndEnqueueWorker_handling {a : Hnd} {events : BitVec 32} {evs : List (Nat × BitVec 32)}
    (hio : s.io = .batch ((rioh, events) :: evs)) (ha : s.heap rioh = some a) (hfd : a.fd ≠ -1)
    (h : ioHndEnqueueWorker s rioh a events evs = some (s', o)) : Handling .io s s' o := by
  unfold ioHndEnqueueWorker at h
  split at h
  · obtain ⟨s1, hkeep, heq⟩ := Option.bind_eq_some_iff.1 h
    obtain ⟨rfl, rfl⟩ := Prod.mk.inj (Option.some.inj heq)
    have hpool := keep_samePool hkeep
    obtain ⟨b, -, rfl⟩ := ioHndKeep_eq hkeep
    exact .deliver _ events evs a rfl hio ha hfd rfl rfl rfl (fun _ => rfl) ⟨rfl, rfl, hpool.noWorker⟩
  · split at h
    next rdt hrdt =>
      obtain ⟨rfl, rfl⟩ := Prod.mk.inj (Option.some.inj h)
      exact .deliver _ events evs a rfl hio ha hfd rfl rfl rfl (fun hnone => nomatch hnone.symm.trans hrdt)
        ⟨rfl, rfl, id⟩
    next =>
      obtain ⟨rfl, rfl⟩ := Prod.mk.inj (Option.some.inj h)
      exact .deliver _ events evs a rfl hio ha hfd rfl rfl rfl (fun _ => rfl) ⟨rfl, rfl, id⟩

theorem ioWorkerGet_none (h : ioWorkerGet s = (s1, none)) : s1.workers = s.workers ∧ s1.io = s.io ∧ SamePool s s1 := by
  unfold ioWorkerGet lruPop at h
  split at h
  · cases h
  next lru hlru =>
    obtain ⟨hlast, rfl⟩ := Prod.mk.inj hlru
    split at h
    · obtain ⟨rfl, -⟩ := Prod.mk.inj h
      have hnil : s.workerLru = [] := List.getLast?_eq_none_iff.1 hlast
      exact ⟨rfl, rfl, by simp [hnil], rfl, id⟩
    · cases h

theorem ioWorkerGet_some {rdt : Nat} (h : ioWorkerGet s = (s1, some rdt)) :
    s1.workers.flatMap Worker.waiting = s.workers.flatMap Worker.waiting ∧ s1.io = s.io ∧ s1.heap = s.heap ∧
      (s.workerLru = [] → s1.workerLru = [] ∧ s1.workerCnt = s.workerCnt + 1) := by
  unfold ioWorkerGet lruPop at h
  split at h
  next lru hlru =>
    obtain ⟨rfl, -⟩ := Prod.mk.inj h
    refine ⟨rfl, rfl, rfl, fun hnil => ?_⟩
    rw [hnil] at hlru
    cases hlru
  next lru hlru =>
    split at h
    · cases h
    · obtain ⟨rfl, -⟩ := Prod.mk.inj h
      obtain ⟨-, rfl⟩ := Prod.mk.inj hlru
      refine ⟨?_, rfl, rfl, fun hnil => ⟨by simp [hnil], rfl⟩⟩
      simp [Worker.waiting, WorkPc.waiting]

theorem runIo_handling (h : runIo s s.io = some (s', o)) : Handling .io s s' o := by
  cases hio : s.io with
  | wait =>
    rw [hio] at h
    obtain ⟨rfl, rfl⟩ := Prod.mk.inj (Option.some.inj h)
    exact handling_call rfl rfl ⟨rfl, rfl⟩ (samePool_refl s)
  | batch evs =>
    rw [hio] at h
    cases evs with
    | nil =>
      obtain ⟨rfl, rfl⟩ := Prod.mk.inj (Option.some.inj h)
      exact .rest rfl (by rw [hio]; rfl) (by rw [hio]; rfl) ⟨rfl, rfl⟩ ⟨rfl, rfl, id⟩
    | cons e evs =>
      obtain ⟨a, ha, heq⟩ := Option.bind_eq_some_iff.1 h
      split at heq
      · obtain ⟨rfl, rfl⟩ := Prod.mk.inj (Option.some.inj heq)
        exact .rest rfl (by rw [hio]; rfl) (by rw [hio]; rfl) ⟨rfl, rfl⟩ ⟨rfl, rfl, id⟩
      next hfd => exact ioHndEnqueueWorker_handling hio ha hfd heq
  | calling rioh evs =>
    rw [hio] at h
    obtain ⟨s1, hdest, heq⟩ := Option.bind_eq_some_iff.1 h
    obtain ⟨rfl, rfl⟩ := Prod.mk.inj (Option.some.inj heq)
    have hpool := destroy_samePool hdest
    obtain ⟨a, hnds, heap, -, rfl, -⟩ := ioHndDestroy_eq hdest
    exact .rest rfl (by rw [hio]; rfl) (by rw [hio]; rfl) ⟨rfl, rfl⟩ ⟨rfl, rfl, hpool.noWorker⟩
  | getting ev evs =>
    obtain ⟨s1, rdt, hget⟩ : ∃ s1 rdt, ioWorkerGet s = (s1, rdt) := ⟨_, _, rfl⟩
    simp only [hio, runIo, hget] at h
    cases rdt with
    | none =>
      obtain ⟨rfl, rfl⟩ := Prod.mk.inj (Option.some.inj h)
      obtain ⟨hworkers, hio1, hpool⟩ := ioWorkerGet_none hget
      exact handling_call hworkers hio1 ⟨rfl, rfl⟩ hpool
    | some rdt =>
      obtain ⟨rfl, rfl⟩ := Prod.mk.inj (Option.some.inj h)
      obtain ⟨hworkers, hio1, hheap, hcnt⟩ := ioWorkerGet_some hget
      exact .get rdt ev evs hio rfl hworkers hcnt hheap rfl
  | adding rdt ev evs =>
    rw [hio] at h
    obtain ⟨s1, hkeep, h⟩ := Option.bind_eq_some_iff.1 h
    obtain ⟨s2, hadd, heq⟩ := Option.bind_eq_some_iff.1 h
    obtain ⟨rfl, rfl⟩ := Prod.mk.inj (Option.some.inj heq)
    obtain ⟨worker, hw, heq⟩ := Option.bind_eq_some_iff.1 hadd
    obtain rfl := Option.some.inj heq
    have hpool := keep_samePool hkeep
    obtain ⟨a, -, rfl⟩ := ioHndKeep_eq hkeep
    exact .queue rdt ev evs worker hio rfl hw rfl rfl ⟨rfl, rfl, hpool.noWorker⟩

/-- **One step** and events. -/
theorem step_handling (h : step s i = some (s', o)) : Handling i s s' o := by
  cases i with
  | add fd events flags cb => exact ioAdd_handling h
  | del fd => exact ioDel_handling h
  | task t ok =>
    replace h : taskStep s t ok = some (s', o) := h
    unfold taskStep at h
    split at h
    · obtain ⟨rfl, rfl⟩ := Prod.mk.inj (Option.some.inj h)
      exact handling_call rfl rfl ⟨rfl, rfl⟩ (samePool_refl s)
    · exact runTask_handling h
  | wait evs =>
    obtain ⟨rfl, rfl⟩ := Prod.mk.inj (Option.some.inj h)
    unfold ioWait
    split
    next hw => exact .rest rfl (by rw [hw.1]; rfl) (by rw [hw.1]; rfl) ⟨rfl, rfl⟩ ⟨rfl, rfl, id⟩
    next => exact handling_call rfl rfl ⟨rfl, rfl⟩ (samePool_refl s)
  | io => exact runIo_handling h
  | worker w =>
    replace h : workerStep s w = some (s', o) := h
    unfold workerStep at h
    split at h
    · obtain ⟨rfl, rfl⟩ := Prod.mk.inj (Option.some.inj h)
      exact handling_call rfl rfl ⟨rfl, rfl⟩ (samePool_refl s)
    next worker hw => exact runWorker_handling hw h

end Parts

/-! ## No event is lost or duplicated -/

section Conserve

variable {i : Step} {s s' : State} {o : List Obs}

@[simp] theorem waiting_batch (evs : List (Nat × BitVec 32)) : (IoPc.batch evs).waiting = [] := rfl

theorem count_waiting (s : State) (ev : HndEvent) :
    s.waiting.count ev = (s.workers.map fun w => w.waiting.count ev).sum + s.io.waiting.count ev := by
  rw [State.waiting, List.count_append, List.count_flatMap]
  rfl

/-- A step: what was waiting or is delivered is waiting afterwards or its handler is invoked. -/
theorem Handling.waiting_perm (h : Handling i s s' o) :
    (s.waiting ++ deliveredIn o).Perm (invokedIn o ++ s'.waiting) := by
  refine List.perm_iff_count.2 fun x => ?_
  rw [List.count_append, List.count_append, count_waiting, count_waiting]
  cases h with
  | rest hworkers hwait _ ho _ => simp [hworkers, hwait, ho]
  | work w worker worker' hw hworkers hio hwait ho _ =>
    have hsum := sum_map_set (fun w => w.waiting.count x) worker' hw
    rw [hwait, List.count_append] at hsum
    simp only [hworkers, hio, ho, List.count_nil]
    omega
  | deliver ev events evs a _ hio _ _ hworkers ho hwait _ _ =>
    have hcount := congrArg (List.count x) hwait
    rw [List.count_append] at hcount
    simp only [hio, hworkers, ho, waiting_batch, List.count_nil]
    omega
  | get rdt ev evs hio hio' hworkers _ _ ho =>
    have hcount := congrArg (List.count x) hworkers
    rw [List.count_flatMap, List.count_flatMap] at hcount
    have hsame : (s'.workers.map fun w => w.waiting.count x).sum = (s.workers.map fun w => w.waiting.count x).sum :=
      hcount
    rw [hio, hio', ho, hsame]
    exact Nat.add_comm _ 0
  | queue rdt ev evs worker hio hio' hw hworkers ho _ =>
    have hsum := sum_map_set (fun w => w.waiting.count x) { worker with eventq := worker.eventq ++ [ev] } hw
    simp only [Worker.waiting, List.count_append] at hsum
    have hev : (IoPc.adding rdt ev evs).waiting = [ev] := rfl
    simp only [hio, hio', hworkers, ho, hev, waiting_batch, Worker.waiting, List.count_append, List.count_nil]
    have hnil : List.count x (deliveredIn []) = 0 ∧ List.count x (invokedIn []) = 0 := ⟨rfl, rfl⟩
    omega

end Conserve

/-- The events delivered in a run. -/
def delivered (os : List (List Obs)) : List HndEvent := os.flatMap deliveredIn

/-- The events of a run whose handler was invoked, in the order of the invocations. -/
def invoked (os : List (List Obs)) : List HndEvent := os.flatMap invokedIn

section Runs

variable {is : List Step} {s : State} {os : List (List Obs)} {rioh : Nat}

/-- **Conservation**: what was delivered in a run is waiting, or its handler was invoked once. -/
theorem run_waiting (hrun : ioMachine.run initial is = some (s, os)) :
    (delivered os).Perm (invoked os ++ s.waiting) := by
  have hI := Machine.run_keeps (M := ioMachine) (Q := fun _ _ => True)
    (I := fun s hist => (delivered (hist.map Prod.snd)).Perm (invoked (hist.map Prod.snd) ++ s.waiting)) ?_ [] ?_
    (Machine.each_of_forall fun _ _ => trivial) hrun
  · rwa [List.nil_append, List.map_snd_zip (Machine.run_length hrun).le] at hI
  · intro s hist i s' o h _ hstep
    have hperm := (step_handling hstep).waiting_perm
    simp only [delivered, invoked, List.map_append, List.map_cons, List.map_nil, List.flatMap_append,
      List.flatMap_cons, List.flatMap_nil, List.append_nil, List.append_assoc] at h ⊢
    apply (h.append_right _).trans
    rw [List.append_assoc]
    exact hperm.append_left _
  · exact .refl _

/-! ## Order -/

/-- The events of one handle. -/
def ofHnd (rioh : Nat) (evs : List HndEvent) : List HndEvent := evs.filter fun ev => ev.rioh = rioh

/-- The handler of a handle was invoked for its events in the order in which they were delivered. -/
def InOrder (rioh : Nat) (os : List (List Obs)) : Prop := ofHnd rioh (invoked os) <+: ofHnd rioh (delivered os)

/-- An event of the handle is in the queue of a worker, or taken from it, and its handler was not invoked. -/
def Waits (s : State) (rioh : Nat) : Prop := ∃ w ∈ s.workers, ∃ ev ∈ w.waiting, ev.rioh = rioh

/-- The handle of the next event of the IO thread. -/
def IoPc.front : IoPc → Option Nat
  | .batch (e :: _) => some e.1
  | _ => none

/-- The next step of the IO thread delivers an event for the handle. -/
def Delivers (s : State) (rioh : Nat) : Prop := s.io.front = some rioh ∧ ∃ a ∈ s.heap rioh, a.fd ≠ -1

/-- An event is delivered for the handle only while no other one waits. -/
def Alone (rioh : Nat) (s : State) (i : Step) : Prop := i = .io → Delivers s rioh → ¬Waits s rioh

theorem perm_eq_of_length_le_one {α : Type} {l l' : List α} (h : l.Perm l') (hl : l.length ≤ 1) : l = l' := by
  match l, hl with
  | [], _ => exact h.nil_eq
  | [x], _ => exact (List.perm_singleton.1 h.symm).symm

/-- A step that delivers alone keeps the order, with at most one event waiting. -/
theorem Handling.order {i : Step} {s' : State} {o : List Obs} (h : Handling i s s' o) (halone : Alone rioh s i)
    (hone : (ofHnd rioh s.waiting).length ≤ 1) :
    ofHnd rioh s.waiting ++ ofHnd rioh (deliveredIn o) = ofHnd rioh (invokedIn o) ++ ofHnd rioh s'.waiting ∧
      (ofHnd rioh s'.waiting).length ≤ 1 := by
  have hlen : (ofHnd rioh (s.waiting ++ deliveredIn o)).length ≤ 1 := by
    cases h with
    | rest _ _ _ ho _ => rwa [ho.1, List.append_nil]
    | work _ _ _ _ _ _ _ ho _ => rwa [ho, List.append_nil]
    | get _ _ _ _ _ _ _ _ ho => rwa [ho, deliveredIn, List.filterMap_nil, List.append_nil]
    | queue _ _ _ _ _ _ _ _ ho _ => rwa [ho, deliveredIn, List.filterMap_nil, List.append_nil]
    | deliver ev events evs a hi hio ha hfd _ ho _ _ _ =>
      rw [ho]
      by_cases hev : ev.rioh = rioh
      · -- nothing waits: not in a worker, and the IO thread is between two events
        subst hev
        have hno := halone hi ⟨by rw [hio]; rfl, a, ha, hfd⟩
        have hnil : ofHnd ev.rioh s.waiting = [] := by
          refine List.filter_eq_nil_iff.2 fun x hx hxr => hno ?_
          rw [State.waiting, hio, waiting_batch, List.append_nil] at hx
          obtain ⟨w, hw, hxw⟩ := List.mem_flatMap.1 hx
          exact ⟨w, hw, x, hxw, of_decide_eq_true hxr⟩
        rw [ofHnd] at hnil
        rw [ofHnd, List.filter_append, hnil, List.nil_append]
        exact List.length_filter_le _ [ev]
      · rwa [ofHnd, List.filter_append, List.filter_singleton, decide_eq_false hev, cond_false, List.append_nil]
  have hperm : (ofHnd rioh (s.waiting ++ deliveredIn o)).Perm (ofHnd rioh (invokedIn o ++ s'.waiting)) :=
    h.waiting_perm.filter _
  have heq := perm_eq_of_length_le_one hperm hlen
  rw [heq] at hlen
  simp only [ofHnd, List.filter_append, List.length_append] at heq hlen ⊢
  exact ⟨heq, by omega⟩

/-- **Order**: in every run in which no event of a handle is delivered while another one waits, the handler is invoked
for the events in the order in which they were delivered. -/
theorem run_in_order (halone : ioMachine.Each (Alone rioh) initial is)
    (hrun : ioMachine.run initial is = some (s, os)) : InOrder rioh os := by
  have hI := Machine.run_keeps (M := ioMachine) (Q := Alone rioh)
    (I := fun s hist => ofHnd rioh (delivered (hist.map Prod.snd)) =
      ofHnd rioh (invoked (hist.map Prod.snd)) ++ ofHnd rioh s.waiting ∧ (ofHnd rioh s.waiting).length ≤ 1)
    ?_ [] ?_ halone hrun
  · rw [List.nil_append, List.map_snd_zip (Machine.run_length hrun).le] at hI
    exact ⟨_, hI.1.symm⟩
  · rintro s hist i s' o ⟨h, hone⟩ hi hstep
    obtain ⟨heq, hone'⟩ := (step_handling hstep).order hi hone
    refine ⟨?_, hone'⟩
    simp only [ofHnd, delivered, invoked, List.map_append, List.map_cons, List.map_nil, List.flatMap_append,
      List.flatMap_cons, List.flatMap_nil, List.append_nil, List.filter_append, List.append_assoc] at h heq ⊢
    rw [h, List.append_assoc, heq]
  · exact ⟨rfl, Nat.zero_le 1⟩

end Runs

instance (s : State) (rioh : Nat) : Decidable (Waits s rioh) :=
  inferInstanceAs (Decidable (∃ w ∈ s.workers, ∃ ev ∈ w.waiting, ev.rioh = rioh))

instance (s : State) (rioh : Nat) : Decidable (Delivers s rioh) :=
  inferInstanceAs (Decidable (s.io.front = some rioh ∧ ∃ a ∈ s.heap rioh, a.fd ≠ -1))

instance (rioh : Nat) (s : State) (i : Step) : Decidable (Alone rioh s i) :=
  inferInstanceAs (Decidable (i = .io → Delivers s rioh → ¬Waits s rioh))

/-- A descriptor is registered. -/
def registerRun : List Step :=
  [.add 5 1 0 ⟨7, none, 0⟩, .task 0 true, .task 0 true, .task 0 true, .task 0 true, .task 0 true, .task 0 true]

/-- The IO thread delivers an event for the descriptor, and queues it. -/
def deliverSteps : List Step := [.wait [(5, 1)], .io, .io, .io, .io]

/-- A worker handles an event. -/
def workSteps (w : Nat) : List Step := [.worker w, .worker w, .worker w, .worker w]

/-- The second event is delivered after the handler was invoked for the first one. -/
def inOrderRun : List Step := registerRun ++ deliverSteps ++ workSteps 0 ++ deliverSteps ++ workSteps 1

theorem run_in_order_two : ∃ s os, ioMachine.run initial inOrderRun = some (s, os) ∧
    ioMachine.Each (Alone 0) initial inOrderRun ∧ (ofHnd 0 (delivered os)).length = 2 ∧ InOrder 0 os := by
  obtain ⟨s, os, hrun, hlen⟩ : ∃ s os, ioMachine.run initial inOrderRun = some (s, os) ∧
    (ofHnd 0 (delivered os)).length = 2 := ⟨_, _, rfl, rfl⟩
  have halone : ioMachine.Each (Alone 0) initial inOrderRun := by decide
  exact ⟨s, os, hrun, halone, hlen, run_in_order halone hrun⟩

/-- Both events are delivered before a worker runs, and the second worker is faster. -/
def overtakingRun : List Step := registerRun ++ deliverSteps ++ deliverSteps ++ workSteps 1 ++ workSteps 0

theorem events_overtaken : ∃ s os, ioMachine.run initial overtakingRun = some (s, os) ∧
    (ofHnd 0 (delivered os)).map HndEvent.serial = [0, 1] ∧ (ofHnd 0 (invoked os)).map HndEvent.serial = [1, 0] ∧
    ¬InOrder 0 os :=
  ⟨_, _, rfl, rfl, rfl, by unfold InOrder; decide⟩

/-! ## The pool -/

/-- The events that were delivered for handlers that may block. -/
def handed (os : List (List Obs)) : Nat := (os.map handedIn).sum

/-- All workers are idle, with empty queues. -/
def Idle (s : State) : Prop := ∀ w ∈ s.workers, w.eventq = [] ∧ w.pc = .idle

/-- All workers are idle, and `rd_io_worker_get` cannot return one. -/
def Stuck (s : State) : Prop := Idle s ∧ (ioWorkerGet s).2 = none

/-- No worker is in the pool, and each one was created for an event. -/
structure Pool (s : State) (n : Nat) : Prop where
  lru : s.workerLru = []
  noWorker : NoWorker s
  cnt : n = s.workerCnt + s.io.asking

section Pool

variable {i : Step} {is : List Step} {s s' : State} {o : List Obs} {os : List (List Obs)} {n : Nat}

theorem handedIn_eq_zero (h : deliveredIn o = []) : handedIn o = 0 := by
  match o, h with
  | [], _ => rfl
  | .delivered ev :: o, h => simp [deliveredIn] at h
  | .invoked ev fd cb :: o, _ => rfl
  | .returned ret :: o, _ => rfl

theorem SamePool.pool (h : SamePool s s') (hp : Pool s n) {k : Nat} (hcnt : k + s.io.asking = s'.io.asking) :
    Pool s' (n + k) := by
  refine ⟨h.lru.trans hp.lru, h.noWorker hp.noWorker, ?_⟩
  have := hp.cnt
  have := h.cnt
  omega

/-- A step keeps the account of the workers. -/
theorem Handling.pool (h : Handling i s s' o) (hp : Pool s n) : Pool s' (n + handedIn o) := by
  cases h with
  | rest _ _ hask ho hpool =>
    rw [handedIn_eq_zero ho.1]
    exact hpool.pool hp (by omega)
  | work _ _ _ _ _ hio _ ho hpool =>
    rw [handedIn_eq_zero ho]
    exact hpool.pool hp (by rw [hio, Nat.zero_add])
  | deliver ev events evs a _ hio ha _ _ _ _ hask hpool =>
    apply hpool.pool hp
    rw [hio, hask (hp.noWorker _ a ha)]
    rfl
  | get rdt ev evs hio hio' _ hcnt hheap ho =>
    obtain ⟨hlru', hcnt'⟩ := hcnt hp.lru
    refine ⟨hlru', fun x b hb => hp.noWorker x b (hheap ▸ hb), ?_⟩
    rw [hp.cnt, hcnt', hio, hio', ho]
    rfl
  | queue rdt ev evs worker hio hio' _ _ ho hpool =>
    rw [ho]
    exact hpool.pool hp (by rw [hio, hio']; rfl)

theorem run_pool (hrun : ioMachine.run initial is = some (s, os)) : Pool s (handed os) := by
  have hI := Machine.run_keeps (M := ioMachine) (Q := fun _ _ => True)
    (I := fun s hist => Pool s (handed (hist.map Prod.snd))) ?_ [] ?_
    (Machine.each_of_forall fun _ _ => trivial) hrun
  · rwa [List.nil_append, List.map_snd_zip (Machine.run_length hrun).le] at hI
  · intro s hist i s' o h _ hstep
    have hpool := (step_handling hstep).pool h
    simpa [handed] using hpool
  · exact ⟨rfl, fun _ _ ha => (nomatch ha), rfl⟩

/-- With an empty list of free workers, a worker can be had until the limit is reached. -/
theorem Pool.get_none_iff (h : Pool s n) : (ioWorkerGet s).2 = none ↔ workersMax + s.io.asking ≤ n := by
  have hcnt := h.cnt
  simp only [ioWorkerGet, lruPop, h.lru, List.getLast?_nil]
  split
  · simp only [true_iff]
    omega
  · simp only [reduceCtorEq, false_iff]
    omega

/-- **The pool**: at the end of a run the workers are not stuck if and only if one of them is busy, or fewer events than
there can be workers were handed to workers before. -/
theorem run_not_stuck_iff (hrun : ioMachine.run initial is = some (s, os)) :
    ¬Stuck s ↔ (Idle s → handed os < workersMax + s.io.asking) := by
  have hget := (run_pool hrun).get_none_iff
  unfold Stuck
  rw [hget, not_and, Nat.not_le]

end Pool

theorem run_not_stuck_iff_two : ∃ s os, ioMachine.run initial inOrderRun = some (s, os) ∧ handed os = 2 ∧
    (¬Stuck s ↔ (Idle s → handed os < workersMax + s.io.asking)) := by
  obtain ⟨s, os, hrun, hn⟩ : ∃ s os, ioMachine.run initial inOrderRun = some (s, os) ∧ handed os = 2 := ⟨_, _, rfl, rfl⟩
  exact ⟨s, os, hrun, hn, run_not_stuck_iff hrun⟩

/-- The handle of the descriptor. -/
def registered : Hnd := { fd := 5, refcnt := 2, events := 1, cb := some ⟨7, none, 0⟩ }

/-- A descriptor is registered, `n` events of it were handled, and all workers are idle. -/
def served (n : Nat) : State :=
  { heap := Function.update (fun _ => none) 0 (some registered), next := 1, hnds := [0],
    epoll := Function.update (fun _ => none) 5 (some 0), started := 1, up := true, workerCnt := n,
    workers := List.replicate n {}, serial := n }

/-- One event after the other, each handled by a worker of its own. -/
def serveRun : Nat → List Step
  | 0 => registerRun
  | n + 1 => serveRun n ++ (deliverSteps ++ workSteps n)

/-- The last worker is at work on the next event. -/
def serving (n : Nat) (pc : IoPc) (worker : Worker) (refcnt : Int) : State :=
  { served n with heap := Function.update (fun _ => none) 0 (some { registered with refcnt := refcnt }),
                  workerCnt := n + 1, workers := List.replicate n {} ++ [worker], io := pc, serial := n + 1 }

section Serving

variable {n : Nat} {pc : IoPc} {worker : Worker} {k : Int}

theorem serving_worker : (serving n pc worker k).workers[n]? = some worker := by
  simp [serving]

theorem serving_setWorker (worker' : Worker) :
    (serving n pc worker k).setWorker n worker' = serving n pc worker' k := by
  simp [serving, State.setWorker]

theorem serving_keep : ioHndKeep (serving n pc worker k) 0 = some (serving n pc worker (k + 1)) := by
  simp [ioHndKeep, serving, State.put]

theorem serving_destroy (hk : 1 < k) : ioHndDestroy (serving n pc worker k) 0 = some (serving n pc worker (k - 1)) := by
  have hpos : k - 1 > 0 := by omega
  have heq : ioHndDestroy (serving n pc worker k) 0 = some ((serving n pc worker k).put 0
      { registered with refcnt := k - 1 }) := if_pos hpos
  rw [heq]
  simp [serving, State.put]

/-- The IO thread takes a new worker for the event, and queues it. -/
theorem deliver_run (h : n < workersMax) : ∃ os, ioMachine.run (served n) deliverSteps =
    some (serving n .wait { eventq := [⟨0, 1, n⟩] } 3, os) := by
  have hget : ioWorkerGet ((served n).count.setIo (.getting ⟨0, 1, n⟩ [])) =
      (serving n (.getting ⟨0, 1, n⟩ []) {} 2, some n) := by
    have hmax : ¬n ≥ workersMax := by omega
    simp [ioWorkerGet, lruPop, served, serving, State.count, State.setIo, hmax, registered]
  have hasked : step ((served n).count.setIo (.getting ⟨0, 1, n⟩ [])) .io =
      some (serving n (.adding n ⟨0, 1, n⟩ []) {} 2, []) := by
    show runIo _ (.getting ⟨0, 1, n⟩ []) = _
    rw [runIo, hget]
    rfl
  have hqueued : step (serving n (.adding n ⟨0, 1, n⟩ []) {} 2) .io =
      some (serving n (.batch []) { eventq := [⟨0, 1, n⟩] } 3, []) := by
    show runIo _ (.adding n ⟨0, 1, n⟩ []) = _
    rw [runIo, serving_keep]
    simp only [Option.bind_eq_bind, Option.bind_some, threadEventAdd, serving_worker, serving_setWorker]
    rfl
  exact ⟨_, Machine.run_cons rfl (Machine.run_cons rfl (Machine.run_cons hasked (Machine.run_cons hqueued
    (Machine.run_cons rfl rfl))))⟩

theorem workerStep_serving : workerStep (serving n pc worker k) n =
    runWorker (serving n pc worker k) n worker.eventq worker.pc := by
  rw [workerStep, serving_worker]

/-- The worker handles the event. -/
theorem work_run (n : Nat) : ∃ os, ioMachine.run (serving n .wait { eventq := [⟨0, 1, n⟩] } 3) (workSteps n) =
    some (serving n .wait {} 2, os) := by
  have hpop : step (serving n .wait { eventq := [⟨0, 1, n⟩] } 3) (.worker n) =
      some (serving n .wait { pc := .popped ⟨0, 1, n⟩ } 3, []) := by
    show workerStep _ n = _
    rw [workerStep_serving, runWorker, serving_setWorker]
  have hinvoke : step (serving n .wait { pc := .popped ⟨0, 1, n⟩ } 3) (.worker n) =
      some (serving n .wait { pc := .calling ⟨0, 1, n⟩ } 4, [.invoked ⟨0, 1, n⟩ 5 (some ⟨7, none, 0⟩)]) := by
    show workerStep _ n = _
    rw [workerStep_serving, runWorker, serving_keep]
    simp only [Option.bind_eq_bind, Option.bind_some, serving_setWorker]
    rfl
  have hreturn : step (serving n .wait { pc := .calling ⟨0, 1, n⟩ } 4) (.worker n) =
      some (serving n .wait { pc := .called ⟨0, 1, n⟩ } 3, []) := by
    show workerStep _ n = _
    rw [workerStep_serving, runWorker, serving_destroy (by decide)]
    simp only [Option.bind_eq_bind, Option.bind_some, serving_setWorker]
    rfl
  have hfinish : step (serving n .wait { pc := .called ⟨0, 1, n⟩ } 3) (.worker n) =
      some (serving n .wait {} 2, []) := by
    show workerStep _ n = _
    rw [workerStep_serving, runWorker, serving_destroy (by decide)]
    simp only [Option.bind_eq_bind, Option.bind_some, serving_setWorker]
    rfl
  exact ⟨_, Machine.run_cons hpop (Machine.run_cons hinvoke (Machine.run_cons hreturn (Machine.run_cons hfinish rfl)))⟩

theorem serving_idle (n : Nat) : serving n .wait {} 2 = served (n + 1) := by
  simp [serving, served, registered, List.replicate_succ']

end Serving

/-- The handle of the descriptor is `h`, and the call that registers it is at `task`. -/
def registering (h : Hnd) (task : Task) : State :=
  { heap := Function.update (fun _ => none) 0 (some h), next := 1, hnds := [0], tasks := [task] }

theorem registering_put (h h' : Hnd) (task : Task) : (registering h task).put 0 h' = registering h' task := by
  simp [registering, State.put]

/-- The descriptor is registered, and the IO thread is started for it. -/
theorem register_run : ∃ os, ioMachine.run initial registerRun = some (served 0, os) := by
  have hset : step (registering { fd := 5, refcnt := 1 } (.addNew 0 true 1 0 ⟨7, none, 0⟩)) (.task 0 true) =
      some (registering { registered with refcnt := 1 } (.addSet 0 true), []) := by
    show some (((registering _ _).put 0 _).setTask 0 _, _) = _
    rw [registering_put]
    rfl
  have hkept : step { registering { registered with refcnt := 1 } (.addStarted 0 true) with started := 1, up := true }
      (.task 0 true) =
      some ({ registering registered (.addKept 0 true) with started := 1, up := true }, []) := by
    show some (State.setTask { (registering _ _).put 0 _ with started := 1, up := true } 0 _, _) = _
    rw [registering_put]
    rfl
  exact ⟨_, Machine.run_cons rfl (Machine.run_cons rfl (Machine.run_cons hset (Machine.run_cons rfl
    (Machine.run_cons hkept (Machine.run_cons rfl (Machine.run_cons rfl rfl))))))⟩

theorem serve_run : ∀ {n : Nat}, n ≤ workersMax → ∃ os, ioMachine.run initial (serveRun n) = some (served n, os)
  | 0, _ => register_run
  | n + 1, h => by
    obtain ⟨os, hrun⟩ := serve_run (n := n) (by omega)
    obtain ⟨os₁, hdeliver⟩ := deliver_run (n := n) (by omega)
    obtain ⟨os₂, hwork⟩ := work_run n
    rw [serving_idle] at hwork
    exact ⟨_, Machine.run_append (Machine.run_append hwork hdeliver) hrun⟩

/-- After a hundred events all workers are idle, and there is none for the next one. -/
theorem workers_used_up : ∃ s os, ioMachine.run initial (serveRun 100) = some (s, os) ∧ Stuck s := by
  obtain ⟨os, hrun⟩ := serve_run (n := 100) (Nat.le_refl _)
  refine ⟨_, os, hrun, fun w hw => ?_, rfl⟩
  obtain rfl := List.eq_of_mem_replicate hw
  exact ⟨rfl, rfl⟩

end Librd.Io
