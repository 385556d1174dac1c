import Mathlib
import Librd.Io.Handles

/-!
# Calls of `rd_io_add` that fail

A call takes its handle, or makes one, and writes to it before it starts the IO thread and calls `epoll_ctl`. If the
start fails it drops its reference and returns -1, but what it wrote stays, and for a new handle `rd_io_hnd_destroy`
asserts that its descriptor is -1. If `epoll_ctl` fails it drops both references, with the same assertion, and returns
0. So a failure leaves the handles as they were only if it is one of the start and there was nothing to undo: the
descriptor has a handle with the same events, handler and opaque pointer already, or it is -1 (`add_undone_iff`).

That holds for every state in which the handles in the list are allocated and have references, as they are and have in
every run (`run_table`).
-/

namespace Librd.Io

/-! ## The call -/

/-- A call of `rd_io_add` alone, as the call `t`: up to nine steps, where `start` says whether the IO thread could be
started and `ctl` whether the kernel would take the `epoll_ctl`. -/
def addSteps (t : Nat) (fd : Int) (events flags : BitVec 32) (cb : Callback) (start ctl : Bool) : List Step :=
  .add fd events flags cb :: [true, true, start, true, true, ctl, true, true].map (.task t)

/-- What becomes of it: the state and the result. -/
def addCall (s : State) (fd : Int) (events flags : BitVec 32) (cb : Callback) (start ctl : Bool) :
    Option (State × List Obs) :=
  (ioMachine.run s (addSteps s.tasks.length fd events flags cb start ctl)).map fun p => (p.1, p.2.flatten)

/-- The number of references, the events, the handler and the opaque pointer of a handle. -/
def Hnd.view (a : Hnd) : Int × BitVec 32 × Option (Nat × Nat) :=
  (a.refcnt, a.events, a.cb.map fun cb => (cb.handler, cb.ptr))

/-- -1 is returned, and the handles are what they were. -/
def Undone (s : State) (result : Option (State × List Obs)) : Prop :=
  ∃ s', result = some (s', [.returned (-1)]) ∧ (∀ rioh, rioh ∈ s'.hnds ↔ rioh ∈ s.hnds) ∧
    ∀ rioh, (s'.heap rioh).map Hnd.view = (s.heap rioh).map Hnd.view

/-- `rd_io_thread_start` is called and fails. -/
def StartFails (s : State) (start : Bool) : Prop := s.started + 1 = 1 ∧ start = false

/-- There is nothing to undo: the handle of the descriptor has the same events, handler and opaque pointer, or there is
none for -1. -/
def Same (s : State) (fd : Int) (events : BitVec 32) (cb : Callback) : Prop :=
  match findHnd s fd with
  | some rioh => ∀ a ∈ s.heap rioh, a.events = events ∧
      a.cb.map (fun cb => (cb.handler, cb.ptr)) = some (cb.handler, cb.ptr)
  | none => fd = -1

/-- A call in progress after the others. -/
def State.push (s : State) (task : Task) : State := { s with tasks := s.tasks ++ [task] }

/-- The IO thread has been started, and the call returns 0. -/
def Task.Started : Task → Prop
  | .addStarted _ _ => True
  | .addKept _ _ => True
  | .addRead _ _ _ => True
  | .drop _ _ ret => ret = 0
  | .addGot _ _ _ _ | .addNew _ _ _ _ _ | .addSet _ _ => False
  | .delGot _ | .delTested _ | .delRead _ _ | .delCleared _ _ => False

section Call

variable {s s0 s' : State} {fd : Int} {events flags : BitVec 32} {cb : Callback} {start ctl : Bool}
    {rioh : Nat} {a : Hnd}
  {o : List Obs} {os : List (List Obs)}

theorem taskStep_push (s : State) (task : Task) (ok : Bool) :
    taskStep (s.push task) s.tasks.length ok = runTask (s.push task) s.tasks.length ok task := by
  simp [taskStep, State.push]

theorem taskStep_over (s : State) (ok : Bool) : taskStep s s.tasks.length ok = some (s, []) := by
  simp [taskStep]

@[simp] theorem setTask_push (s : State) (task task' : Task) :
    (s.push task).setTask s.tasks.length task' = s.push task' := by
  simp [State.setTask, State.push]

@[simp] theorem endTask_push (s : State) (task : Task) : (s.push task).endTask s.tasks.length = s := by
  simp [State.endTask, State.push, List.eraseIdx_append_of_length_le]

theorem ioHndKeep_push (s : State) (task : Task) (rioh : Nat) :
    ioHndKeep (s.push task) rioh = (ioHndKeep s rioh).map (·.push task) := by
  cases h : s.heap rioh <;> simp [ioHndKeep, State.push, State.put, h]

theorem ioHndDestroy_push (s : State) (task : Task) (rioh : Nat) :
    ioHndDestroy (s.push task) rioh = (ioHndDestroy s rioh).map (·.push task) := by
  cases h : s.heap rioh with
  | none => simp [ioHndDestroy, State.push, h]
  | some a =>
    simp only [ioHndDestroy, State.push, State.put, h, Option.bind_eq_bind, Option.bind_some]
    split
    · rfl
    · split <;> rfl

theorem ioHndKeep_tasks (h : ioHndKeep s rioh = some s') : s'.tasks = s.tasks := by
  obtain ⟨a, -, rfl⟩ := ioHndKeep_eq h
  rfl

theorem ioHndDestroy_tasks (h : ioHndDestroy s rioh = some s') : s'.tasks = s.tasks := by
  obtain ⟨a, hnds, heap, -, rfl, -⟩ := ioHndDestroy_eq h
  rfl

/-- A step of a call that goes on to return 0. -/
theorem started_step {task : Task} {ok : Bool} (hstarted : task.Started)
    (h : runTask (s.push task) s.tasks.length ok task = some (s', o)) :
    ∃ s1, s1.tasks = s.tasks ∧ ((∃ task', task'.Started ∧ s' = s1.push task' ∧ o = []) ∨
      s' = s1 ∧ o = [.returned 0]) := by
  cases task with
  | addStarted rioh new =>
    obtain ⟨s2, hkeep, heq⟩ := Option.bind_eq_some_iff.1 h
    rw [ioHndKeep_push] at hkeep
    obtain ⟨s1, hkeep', rfl⟩ := Option.map_eq_some_iff.1 hkeep
    have htasks := ioHndKeep_tasks hkeep'
    cases heq
    refine ⟨s1, htasks, .inl ⟨.addKept rioh new, trivial, ?_, rfl⟩⟩
    rw [← htasks, setTask_push]
  | addKept rioh new =>
    obtain ⟨a, -, heq⟩ := Option.bind_eq_some_iff.1 h
    cases heq
    exact ⟨s, rfl, .inl ⟨.addRead rioh new a.fd, trivial, setTask_push _ _ _, rfl⟩⟩
  | addRead rioh new fd =>
    simp only [runTask] at h
    split at h
    · cases h
      refine ⟨{ s with epoll := Function.update s.epoll fd (some rioh) }, rfl, .inr ⟨?_, rfl⟩⟩
      exact endTask_push { s with epoll := Function.update s.epoll fd (some rioh) } (.addRead rioh new fd)
    · cases h
      exact ⟨s, rfl, .inl ⟨.drop rioh 1 0, rfl, setTask_push _ _ _, rfl⟩⟩
  | drop rioh n ret =>
    cases n with
    | zero =>
      obtain ⟨s2, hdestroy, heq⟩ := Option.bind_eq_some_iff.1 h
      rw [ioHndDestroy_push] at hdestroy
      obtain ⟨s1, hdestroy', rfl⟩ := Option.map_eq_some_iff.1 hdestroy
      have htasks := ioHndDestroy_tasks hdestroy'
      cases heq
      refine ⟨s1, htasks, .inr ⟨?_, congrArg (fun ret => [Obs.returned ret]) hstarted⟩⟩
      rw [← htasks, endTask_push]
    | succ n =>
      obtain ⟨s2, hdestroy, heq⟩ := Option.bind_eq_some_iff.1 h
      rw [ioHndDestroy_push] at hdestroy
      obtain ⟨s1, hdestroy', rfl⟩ := Option.map_eq_some_iff.1 hdestroy
      have htasks := ioHndDestroy_tasks hdestroy'
      cases heq
      refine ⟨s1, htasks, .inl ⟨.drop rioh n ret, hstarted, ?_, rfl⟩⟩
      rw [← htasks, setTask_push]
  | addGot rioh events flags cb => exact hstarted.elim
  | addNew rioh new events flags cb => exact hstarted.elim
  | addSet rioh new => exact hstarted.elim
  | delGot rioh => exact hstarted.elim
  | delTested rioh => exact hstarted.elim
  | delRead rioh fd => exact hstarted.elim
  | delCleared rioh fd => exact hstarted.elim

/-- After a call. -/
theorem over_run {oks : List Bool} (h : ioMachine.run s (oks.map (.task s.tasks.length)) = some (s', os)) :
    os.flatten = [] := by
  induction oks generalizing os with
  | nil =>
    cases h
    rfl
  | cons ok oks ih =>
    obtain ⟨s1, o, os', hstep, hrest, rfl⟩ := Machine.exists_of_run_cons h
    cases (taskStep_over s ok).symm.trans hstep
    have hnil := ih hrest
    exact hnil

/-- **Once the IO thread has been started**, a call does not return anything but 0. -/
theorem started_run (oks : List Bool) {task : Task} (hstarted : task.Started)
    (h : ioMachine.run (s.push task) (oks.map (.task s.tasks.length)) = some (s', os)) :
    os.flatten = [] ∨ os.flatten = [.returned 0] := by
  induction oks generalizing s task os with
  | nil =>
    cases h
    exact .inl rfl
  | cons ok oks ih =>
    obtain ⟨s2, o, os', hstep, hrest, rfl⟩ := Machine.exists_of_run_cons h
    rw [show ioMachine.step (s.push task) (.task s.tasks.length ok) = _ from taskStep_push s task ok] at hstep
    obtain ⟨s1, htasks, ⟨task', hstarted', rfl, rfl⟩ | ⟨rfl, rfl⟩⟩ := started_step hstarted hstep
    · have hret := ih hstarted' (htasks ▸ hrest)
      exact hret
    · exact .inr (congrArg (Obs.returned 0 :: ·) (over_run (htasks ▸ hrest)))

/-- The first three steps: the handle is there, read, and overwritten. -/
theorem addCall_got (hev : events ≠ 0) (hget : ioHndGet s fd true = some (s0, some rioh)) (ha : s0.heap rioh = some a)
    (htasks : s0.tasks = s.tasks) :
    addCall s fd events flags cb start ctl =
      (ioMachine.run ((s0.put rioh { a with cb := some cb, events := events, flags := flags }).push
          (.addSet rioh (a.events = 0))) ([start, true, true, ctl, true, true].map (.task s.tasks.length))).map
        fun p => (p.1, p.2.flatten) := by
  have hadd : ioMachine.step s (.add fd events flags cb) = some (s0.push (.addGot rioh events flags cb), []) := by
    show ioAdd s fd events flags cb = _
    rw [ioAdd, if_neg hev, hget]
    rfl
  have hread : ioMachine.step (s0.push (.addGot rioh events flags cb)) (.task s.tasks.length true) =
      some (s0.push (.addNew rioh (a.events = 0) events flags cb), []) := by
    have hheap : (s0.push (.addGot rioh events flags cb)).heap rioh = some a := ha
    show taskStep _ _ _ = _
    rw [← htasks, taskStep_push, runTask, hheap]
    exact congrArg (fun s => some (s, [])) (setTask_push s0 _ _)
  have hset : ioMachine.step (s0.push (.addNew rioh (a.events = 0) events flags cb)) (.task s.tasks.length true) =
      some ((s0.put rioh { a with cb := some cb, events := events, flags := flags }).push
        (.addSet rioh (a.events = 0)), []) := by
    have hheap : (s0.push (.addNew rioh (a.events = 0) events flags cb)).heap rioh = some a := ha
    show taskStep _ _ _ = _
    rw [← htasks, taskStep_push, runTask, hheap]
    exact congrArg (fun s => some (s, [])) (setTask_push (s0.put rioh _) _ _)
  rw [addCall, addSteps, List.map_cons, Machine.run, hadd, Option.bind_some, Machine.run, hread, Option.bind_some,
    List.map_cons, Machine.run, hset, Option.bind_some]
  simp only [Option.map_map, Function.comp_def, List.flatten_cons, List.nil_append]

/-- **The IO thread cannot be started**: the reference is dropped, and -1 returned. -/
theorem addCall_start_fails (hev : events ≠ 0) (hget : ioHndGet s fd true = some (s0, some rioh))
    (ha : s0.heap rioh = some a) (htasks : s0.tasks = s.tasks) (hstarted : s0.started + 1 = 1) :
    addCall s fd events flags cb false ctl =
      (ioHndDestroy (s0.put rioh { a with cb := some cb, events := events, flags := flags }) rioh).map
        fun s' => (s', [.returned (-1)]) := by
  obtain ⟨s1, hs1⟩ : ∃ s1, s1 = s0.put rioh { a with cb := some cb, events := events, flags := flags } := ⟨_, rfl⟩
  have htasks1 : s1.tasks = s.tasks := hs1 ▸ htasks
  have hset : ioMachine.step (s1.push (.addSet rioh (a.events = 0))) (.task s.tasks.length false) =
      some (s1.push (.drop rioh 0 (-1)), []) := by
    have hfirst : (s1.push (.addSet rioh (a.events = 0))).started + 1 = 1 := by
      rw [hs1]
      exact hstarted
    show taskStep _ _ _ = _
    rw [← htasks1, taskStep_push, runTask, if_pos hfirst, setTask_push]
    rfl
  have hdrop : ioMachine.step (s1.push (.drop rioh 0 (-1))) (.task s.tasks.length true) =
      (ioHndDestroy s1 rioh).map fun s' => (s', [.returned (-1)]) := by
    show taskStep _ _ _ = _
    rw [← htasks1, taskStep_push, runTask, ioHndDestroy_push]
    cases hdestroy : ioHndDestroy s1 rioh with
    | none => rfl
    | some s' =>
      rw [← ioHndDestroy_tasks hdestroy]
      exact congrArg (fun s => some (s, [Obs.returned (-1)])) (endTask_push s' _)
  rw [addCall_got hev hget ha htasks, ← hs1, List.map_cons, Machine.run, hset, Option.bind_some, List.map_cons,
    Machine.run, hdrop]
  cases hdestroy : ioHndDestroy s1 rioh with
  | none => rfl
  | some s' =>
    have hover : ∀ ok, ioMachine.step s' (.task s.tasks.length ok) = some (s', []) := fun ok => by
      rw [← htasks1, ← ioHndDestroy_tasks hdestroy]
      exact taskStep_over s' ok
    simp only [Option.map_some, Option.bind_some, List.map_cons, List.map_nil, Machine.run, hover]
    rfl

/-- **The IO thread is there**: the call returns 0 or does not return. -/
theorem addCall_started (hev : events ≠ 0) (hget : ioHndGet s fd true = some (s0, some rioh))
    (ha : s0.heap rioh = some a) (htasks : s0.tasks = s.tasks) (hstarted : s0.started = s.started)
    (hstart : ¬StartFails s start) (hcall : addCall s fd events flags cb start ctl = some (s', o)) :
    o = [] ∨ o = [.returned 0] := by
  obtain ⟨s1, hs1⟩ : ∃ s1, s1 = s0.put rioh { a with cb := some cb, events := events, flags := flags } := ⟨_, rfl⟩
  have htasks1 : s1.tasks = s.tasks := hs1 ▸ htasks
  rw [addCall_got hev hget ha htasks, ← hs1] at hcall
  obtain ⟨⟨s2, os⟩, hrun, heq⟩ := Option.map_eq_some_iff.1 hcall
  cases heq
  obtain ⟨s3, o, os', hstep, hrest, rfl⟩ := Machine.exists_of_run_cons hrun
  obtain ⟨s4, htasks4, rfl, rfl⟩ : ∃ s4 : State, s4.tasks = s.tasks ∧
      s3 = s4.push (.addStarted rioh (a.events = 0)) ∧ o = [] := by
    rw [show ioMachine.step _ _ = _ from htasks1 ▸ taskStep_push s1 _ start, runTask] at hstep
    split at hstep
    next hfirst =>
      have hok : start = true := by
        by_contra hno
        refine hstart ⟨?_, Bool.eq_false_iff.2 hno⟩
        rw [← hstarted]
        rw [hs1] at hfirst
        exact hfirst
      rw [if_pos hok, ← htasks1] at hstep
      cases hstep
      refine ⟨{ s1 with started := s1.started + 1, up := true }, htasks1, ?_, rfl⟩
      exact setTask_push { s1 with started := s1.started + 1, up := true } _ _
    next =>
      rw [← htasks1] at hstep
      cases hstep
      refine ⟨{ s1 with started := s1.started + 1 }, htasks1, ?_, rfl⟩
      exact setTask_push { s1 with started := s1.started + 1 } _ _
  have hkind : Task.Started (.addStarted rioh (a.events = 0)) := trivial
  have hret := started_run [true, true, ctl, true, true] hkind (htasks4 ▸ hrest)
  exact hret

/-- The handle of a descriptor. -/
theorem Table.found (h : Table s) (hfind : findHnd s fd = some rioh) : ∃ a, s.heap rioh = some a ∧ 0 < a.refcnt := by
  have hlinked := h.linked rioh (List.mem_of_find?_eq_some hfind)
  obtain ⟨a, ha⟩ := Option.ne_none_iff_exists'.1 hlinked
  exact ⟨a, ha, h.refcnt_pos rioh a ha⟩

theorem ioHndGet_known (hfind : findHnd s fd = some rioh) (ha : s.heap rioh = some a) :
    ioHndGet s fd true = some (s.put rioh { a with refcnt := a.refcnt + 1 }, some rioh) := by
  simp [ioHndGet, hfind, ioHndKeep, ha]

theorem ioHndGet_new (hfind : findHnd s fd = none) : ioHndGet s fd true = some
    ({ s.put s.next { fd := fd, refcnt := 1 } with next := s.next + 1, hnds := s.next :: s.hnds }, some s.next) := by
  simp [ioHndGet, hfind]

/-- A start that fails, for a descriptor with a handle. -/
theorem addCall_known (hev : events ≠ 0) (hfind : findHnd s fd = some rioh) (ha : s.heap rioh = some a)
    (hpos : 0 < a.refcnt) (hstart : StartFails s start) : ∃ s', addCall s fd events flags cb start ctl =
      some (s', [.returned (-1)]) ∧ s'.hnds = s.hnds ∧
        s'.heap = Function.update s.heap rioh (some { a with cb := some cb, events := events, flags := flags }) := by
  obtain ⟨hfirst, rfl⟩ := hstart
  have hheap : (s.put rioh { a with refcnt := a.refcnt + 1 }).heap rioh = some { a with refcnt := a.refcnt + 1 } :=
    Function.update_self ..
  rw [addCall_start_fails hev (ioHndGet_known hfind ha) hheap rfl hfirst]
  simp [ioHndDestroy, State.put, hpos]

/-- A start that fails, for a new handle. -/
theorem addCall_new (h : Table s) (hev : events ≠ 0) (hfind : findHnd s fd = none) (hstart : StartFails s start) :
    (fd = -1 → ∃ s', addCall s fd events flags cb start ctl = some (s', [.returned (-1)]) ∧ s'.hnds = s.hnds ∧
      s'.heap = s.heap) ∧ (fd ≠ -1 → addCall s fd events flags cb start ctl = none) := by
  obtain ⟨hfirst, rfl⟩ := hstart
  have hheap : (s.put s.next { fd := fd, refcnt := 1 }).heap s.next = some { fd := fd, refcnt := 1 } :=
    Function.update_self ..
  have hfree : Function.update s.heap s.next none = s.heap := by
    rw [← h.fresh s.next le_rfl]
    exact Function.update_eq_self s.next s.heap
  rw [addCall_start_fails hev (ioHndGet_new hfind) hheap rfl hfirst]
  refine ⟨fun hfd => ?_, fun hfd => ?_⟩
  · simp [ioHndDestroy, State.put, hfd, hfree]
  · simp [ioHndDestroy, State.put, hfd]

end Call

/-- **Undoing.** For every state of the table, a call of `rd_io_add` with events returns -1 with the handles as they
were if and only if the IO thread cannot be started and there is nothing to undo. -/
theorem add_undone_iff {s : State} (h : Table s) (fd : Int) {events : BitVec 32} (hev : events ≠ 0) (flags : BitVec 32)
    (cb : Callback) (start ctl : Bool) :
    Undone s (addCall s fd events flags cb start ctl) ↔ StartFails s start ∧ Same s fd events cb := by
  by_cases hstart : StartFails s start
  · rw [and_iff_right hstart, Same]
    cases hfind : findHnd s fd with
    | some rioh =>
      obtain ⟨a, ha, hpos⟩ := h.found hfind
      obtain ⟨s', hcall, hhnds, hheap⟩ :=
        @addCall_known s fd events flags cb start ctl rioh a hev hfind ha hpos hstart
      rw [hcall]
      constructor
      · rintro ⟨s'', heq, -, hview⟩ b hb
        cases heq
        cases ha.symm.trans hb
        have hsame := hview rioh
        rw [hheap, Function.update_self, ha] at hsame
        simp only [Option.map_some, Hnd.view, Option.some.injEq, Prod.mk.injEq] at hsame
        exact ⟨hsame.2.1.symm, hsame.2.2.symm⟩
      · intro hsame
        obtain ⟨hevents, hcb⟩ := hsame a ha
        refine ⟨s', rfl, fun x => by rw [hhnds], fun x => ?_⟩
        by_cases heq : x = rioh
        · rw [hheap, heq, Function.update_self, ha]
          simp only [Option.map_some, Hnd.view, hevents, hcb]
        · rw [hheap, Function.update_of_ne heq]
    | none =>
      obtain ⟨hminus, hother⟩ := @addCall_new s fd events flags cb start ctl h hev hfind hstart
      constructor
      · rintro ⟨s', hcall, -⟩
        by_contra hfd
        exact absurd ((hother hfd).symm.trans hcall) (Option.some_ne_none _).symm
      · intro hfd
        obtain ⟨s', hcall, hhnds, hheap⟩ := hminus hfd
        exact ⟨s', hcall, fun x => by rw [hhnds], fun x => by rw [hheap]⟩
  · refine iff_of_false ?_ fun hboth => hstart hboth.1
    rintro ⟨s', hcall, -⟩
    have hret : [Obs.returned (-1)] = [] ∨ [Obs.returned (-1)] = [.returned 0] := by
      cases hfind : findHnd s fd with
      | some rioh =>
        obtain ⟨a, ha, hpos⟩ := h.found hfind
        exact addCall_started hev (ioHndGet_known hfind ha) (Function.update_self ..) rfl rfl hstart hcall
      | none =>
        exact addCall_started hev (ioHndGet_new hfind) (Function.update_self ..) rfl rfl hstart hcall
    exact absurd hret (by decide)

/-- The IO thread cannot be started for the descriptor -1. -/
theorem add_undone_minus : Undone initial (addCall initial (-1) 1 0 ⟨7, none, 0⟩ false true) :=
  (add_undone_iff initial_table (-1) (by decide) 0 ⟨7, none, 0⟩ false true).2 ⟨⟨rfl, rfl⟩, rfl⟩

/-- It cannot be started for a new descriptor: the assertion fails. And `epoll_ctl` fails for one that is registered:
the result is 0, and the handle has the new events and the new handler. -/
theorem add_not_undone : (addCall initial 5 1 0 ⟨7, none, 0⟩ false true = none ∧
      ¬Undone initial (addCall initial 5 1 0 ⟨7, none, 0⟩ false true)) ∧
    ∃ s os s', ioMachine.run initial (addSteps 0 5 1 0 ⟨7, none, 0⟩ true true) = some (s, os) ∧
      addCall s 5 4 0 ⟨8, none, 0⟩ true false = some (s', [.returned 0]) ∧
      (s.heap 0).map Hnd.view = some (2, 1, some (7, 0)) ∧ (s'.heap 0).map Hnd.view = some (2, 4, some (8, 0)) ∧
      ¬Undone s (addCall s 5 4 0 ⟨8, none, 0⟩ true false) := by
  refine ⟨⟨rfl, ?_⟩, _, _, _, rfl, rfl, rfl, rfl, ?_⟩
  · rintro ⟨s', hcall, -⟩
    cases hcall
  · rintro ⟨s', hcall, -⟩
    cases hcall

end Librd.Io
