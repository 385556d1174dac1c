import Librd.Io.Thread

/-!
# The table of handles

What the steps of the calls, of the workers and of the IO thread do to the handles. A step of a call changes one handle
at most (`runTask_cases`). In every run the handles in the list are allocated, each once, and have references, and
nothing is at the addresses to come (`run_table`).
-/

namespace Librd.Io

/-! ## One handle -/

section Handle

variable {s s1 : State} {rioh : Nat}

theorem ioHndKeep_eq (h : ioHndKeep s rioh = some s1) :
    ∃ a, s.heap rioh = some a ∧ s1 = s.put rioh { a with refcnt := a.refcnt + 1 } := by
  obtain ⟨a, ha, heq⟩ := Option.bind_eq_some_iff.1 h
  exact ⟨a, ha, (Option.some.inj heq).symm⟩

theorem ioHndDestroy_eq (h : ioHndDestroy s rioh = some s1) :
    ∃ a hnds heap, s.heap rioh = some a ∧ s1 = { s with hnds := hnds, heap := heap } ∧
      (heap = Function.update s.heap rioh (some { a with refcnt := a.refcnt - 1 }) ∨
        a.refcnt ≤ 1 ∧ heap = Function.update s.heap rioh none) := by
  obtain ⟨a, ha, heq⟩ := Option.bind_eq_some_iff.1 h
  refine ⟨a, s1.hnds, s1.heap, ha, ?_⟩
  split at heq
  · obtain rfl := Option.some.inj heq
    exact ⟨rfl, .inl rfl⟩
  · split at heq
    · obtain rfl := Option.some.inj heq
      exact ⟨rfl, .inr ⟨by omega, rfl⟩⟩
    · cases heq

/-- Getting a worker leaves the handles, epoll and the calls as they are. -/
structure SameHandles (s s1 : State) : Prop where
  heap : s1.heap = s.heap
  hnds : s1.hnds = s.hnds
  next : s1.next = s.next
  epoll : s1.epoll = s.epoll
  tasks : s1.tasks = s.tasks
  io : s1.io = s.io

theorem ioWorkerGet_same {rdt : Option Nat} (h : ioWorkerGet s = (s1, rdt)) : SameHandles s s1 := by
  unfold ioWorkerGet at h
  split at h
  · cases h
    exact ⟨rfl, rfl, rfl, rfl, rfl, rfl⟩
  · split at h
    · cases h
      exact ⟨rfl, rfl, rfl, rfl, rfl, rfl⟩
    · cases h
      exact ⟨rfl, rfl, rfl, rfl, rfl, rfl⟩

end Handle

/-! ## What a call does to the handles -/

/-- Nothing, a change of one that leaves its references and its thread, or a reference taken or dropped. -/
inductive HandleStep (s s1 : State) : Prop
  | rest (h : s1 = s)
  | change (rioh : Nat) (a b : Hnd) (ha : s.heap rioh = some a) (hrefcnt : b.refcnt = a.refcnt)
      (hthread : b.workerThread = a.workerThread) (h : s1 = s.put rioh b)
  | keep (rioh : Nat) (h : ioHndKeep s rioh = some s1)
  | destroy (rioh : Nat) (h : ioHndDestroy s rioh = some s1)

/-- **A step of a call** changes the handles, the calls and what `epoll_ctl` and the start of the IO thread change. -/
theorem runTask_cases {s s' : State} {t : Nat} {ok : Bool} {task : Task} {o : List Obs}
    (h : runTask s t ok task = some (s', o)) :
    ∃ s1 started up epoll tasks, HandleStep s s1 ∧
      s' = { s1 with started := started, up := up, epoll := epoll, tasks := tasks } ∧
      (o = [] ∨ ∃ ret, o = [.returned ret]) := by
  cases task with
  | addGot rioh events flags cb =>
    obtain ⟨a, ha, heq⟩ := Option.bind_eq_some_iff.1 h
    cases heq
    exact ⟨s, _, _, _, _, .rest rfl, rfl, .inl rfl⟩
  | addNew rioh new events flags cb =>
    obtain ⟨a, ha, heq⟩ := Option.bind_eq_some_iff.1 h
    cases heq
    have hchange := HandleStep.change rioh a { a with cb := some cb, events := events, flags := flags } ha rfl rfl rfl
    exact ⟨_, _, _, _, _, hchange, rfl, .inl rfl⟩
  | addSet rioh new =>
    simp only [runTask] at h
    split at h
    · split at h
      · cases h
        exact ⟨s, _, _, _, _, .rest rfl, rfl, .inl rfl⟩
      · cases h
        exact ⟨s, _, _, _, _, .rest rfl, rfl, .inl rfl⟩
    · cases h
      exact ⟨s, _, _, _, _, .rest rfl, rfl, .inl rfl⟩
  | addStarted rioh new =>
    obtain ⟨s1, hkeep, heq⟩ := Option.bind_eq_some_iff.1 h
    cases heq
    exact ⟨s1, _, _, _, _, .keep rioh hkeep, rfl, .inl rfl⟩
  | addKept rioh new =>
    obtain ⟨a, -, heq⟩ := Option.bind_eq_some_iff.1 h
    cases heq
    exact ⟨s, _, _, _, _, .rest rfl, rfl, .inl rfl⟩
  | addRead rioh new fd =>
    simp only [runTask] at h
    split at h
    · cases h
      exact ⟨s, _, _, _, _, .rest rfl, rfl, .inr ⟨0, rfl⟩⟩
    · cases h
      exact ⟨s, _, _, _, _, .rest rfl, rfl, .inl rfl⟩
  | delGot rioh =>
    obtain ⟨a, -, heq⟩ := Option.bind_eq_some_iff.1 h
    split at heq
    · cases heq
      exact ⟨s, _, _, _, _, .rest rfl, rfl, .inl rfl⟩
    · cases heq
      exact ⟨s, _, _, _, _, .rest rfl, rfl, .inl rfl⟩
  | delTested rioh =>
    obtain ⟨a, -, heq⟩ := Option.bind_eq_some_iff.1 h
    cases heq
    exact ⟨s, _, _, _, _, .rest rfl, rfl, .inl rfl⟩
  | delRead rioh fd =>
    obtain ⟨a, ha, heq⟩ := Option.bind_eq_some_iff.1 h
    cases heq
    have hchange := HandleStep.change rioh a { a with fd := -1 } ha rfl rfl rfl
    exact ⟨_, _, _, _, _, hchange, rfl, .inl rfl⟩
  | delCleared rioh fd =>
    cases h
    exact ⟨s, _, _, _, _, .rest rfl, rfl, .inl rfl⟩
  | drop rioh n ret =>
    cases n with
    | zero =>
      obtain ⟨s1, hdestroy, heq⟩ := Option.bind_eq_some_iff.1 h
      cases heq
      exact ⟨s1, _, _, _, _, .destroy rioh hdestroy, rfl, .inr ⟨ret, rfl⟩⟩
    | succ n =>
      obtain ⟨s1, hdestroy, heq⟩ := Option.bind_eq_some_iff.1 h
      cases heq
      exact ⟨s1, _, _, _, _, .destroy rioh hdestroy, rfl, .inl rfl⟩

/-! ## The table -/

/-- The list of handles: allocated, each once, and with references; nothing is at the addresses to come. -/
structure Table (s : State) : Prop where
  refcnt_pos : ∀ rioh a, s.heap rioh = some a → 0 < a.refcnt
  linked : ∀ rioh ∈ s.hnds, s.heap rioh ≠ none
  nodup : s.hnds.Nodup
  fresh : ∀ rioh, s.next ≤ rioh → s.heap rioh = none

section Steps

variable {s s1 s' : State} {rioh : Nat} {a : Hnd} {o : List Obs}

theorem Table.of_eq (h : Table s) (hheap : s'.heap = s.heap) (hhnds : s'.hnds = s.hnds) (hnext : s'.next = s.next) :
    Table s' :=
  ⟨hheap ▸ h.refcnt_pos, hheap ▸ hhnds ▸ h.linked, hhnds ▸ h.nodup, hheap ▸ hnext ▸ h.fresh⟩

/-- A handle that is allocated changes. -/
theorem Table.put (h : Table s) (ha : s.heap rioh ≠ none) (hpos : 0 < a.refcnt) : Table (s.put rioh a) := by
  refine ⟨fun x b hb => ?_, fun x hx => ?_, h.nodup, fun x hx => ?_⟩
  · by_cases heq : x = rioh
    · subst heq
      obtain rfl : a = b := by simpa [State.put] using hb
      exact hpos
    · exact h.refcnt_pos x b (by simpa [State.put, heq] using hb)
  · by_cases heq : x = rioh
    · simp [State.put, heq]
    · simpa [State.put, heq] using h.linked x hx
  · have hne : x ≠ rioh := fun heq => ha (h.fresh rioh (heq ▸ hx))
    simpa [State.put, hne] using h.fresh x hx

/-- A new handle. -/
theorem Table.insert (h : Table s) (hpos : 0 < a.refcnt) :
    Table { s.put s.next a with next := s.next + 1, hnds := s.next :: s.hnds } := by
  have hnew : s.next ∉ s.hnds := fun hin => h.linked _ hin (h.fresh _ (Nat.le_refl _))
  refine ⟨fun x b hb => ?_, fun x hx => ?_, List.nodup_cons.2 ⟨hnew, h.nodup⟩, fun x hx => ?_⟩
  · by_cases heq : x = s.next
    · obtain rfl : a = b := by simpa [State.put, heq] using hb
      exact hpos
    · exact h.refcnt_pos x b (by simpa [State.put, heq] using hb)
  · by_cases heq : x = s.next
    · simp [State.put, heq]
    · have hin := (List.mem_cons.1 hx).resolve_left heq
      simpa [State.put, heq] using h.linked x hin
  · have hlt : s.next + 1 ≤ x := hx
    have hne : x ≠ s.next := by omega
    simpa [State.put, hne] using h.fresh x (by omega)

/-- A handle is freed. -/
theorem Table.free (h : Table s) (rioh : Nat) :
    Table { s with hnds := s.hnds.erase rioh, heap := Function.update s.heap rioh none } := by
  refine ⟨fun x b hb => ?_, fun x hx => ?_, h.nodup.erase rioh, fun x hx => ?_⟩
  · by_cases heq : x = rioh
    · simp [heq] at hb
    · exact h.refcnt_pos x b (by simpa [heq] using hb)
  · obtain ⟨hne, hin⟩ := h.nodup.mem_erase_iff.1 hx
    simpa [hne] using h.linked x hin
  · by_cases heq : x = rioh
    · simp [heq]
    · simpa [heq] using h.fresh x hx

theorem Table.keep (h : Table s) (hkeep : ioHndKeep s rioh = some s1) : Table s1 := by
  obtain ⟨a, ha, rfl⟩ := ioHndKeep_eq hkeep
  have hpos := h.refcnt_pos rioh a ha
  apply h.put
  · rw [ha]
    exact Option.some_ne_none a
  · show 0 < a.refcnt + 1
    omega

theorem Table.destroy (h : Table s) (hdestroy : ioHndDestroy s rioh = some s1) : Table s1 := by
  obtain ⟨a, ha, heq⟩ := Option.bind_eq_some_iff.1 hdestroy
  split at heq
  next hpos =>
    cases heq
    exact h.put (ha ▸ Option.some_ne_none a) hpos
  next =>
    split at heq
    · cases heq
      exact h.free rioh
    · cases heq

theorem Table.get {fd : Int} {create : Bool} {r : Option Nat} (h : Table s)
    (hget : ioHndGet s fd create = some (s1, r)) : Table s1 := by
  unfold ioHndGet at hget
  split at hget
  · obtain ⟨s2, hkeep, heq⟩ := Option.bind_eq_some_iff.1 hget
    cases heq
    exact h.keep hkeep
  · split at hget
    · cases hget
      exact h.insert Int.one_pos
    · cases hget
      exact h

theorem Table.del {fd : Int} (h : Table s) (hdel : ioDel s fd = some (s', o)) : Table s' := by
  obtain ⟨⟨s1, r⟩, hget, heq⟩ := Option.bind_eq_some_iff.1 hdel
  have hs1 := h.get hget
  cases r with
  | none =>
    cases heq
    exact hs1
  | some rioh =>
    cases heq
    exact hs1.of_eq rfl rfl rfl

theorem Table.add {fd : Int} {events flags : BitVec 32} {cb : Callback} (h : Table s)
    (hadd : ioAdd s fd events flags cb = some (s', o)) : Table s' := by
  unfold ioAdd at hadd
  split at hadd
  · exact h.del hadd
  · obtain ⟨⟨s1, r⟩, hget, heq⟩ := Option.bind_eq_some_iff.1 hadd
    have hs1 := h.get hget
    cases r with
    | none => cases heq
    | some rioh =>
      cases heq
      exact hs1.of_eq rfl rfl rfl

theorem Table.task {t : Nat} {ok : Bool} {task : Task} (h : Table s) (hrun : runTask s t ok task = some (s', o)) :
    Table s' := by
  obtain ⟨s1, started, up, epoll, tasks, hstep, rfl, -⟩ := runTask_cases hrun
  have hs1 : Table s1 := by
    cases hstep with
    | rest heq => exact heq ▸ h
    | change rioh a b ha hrefcnt _ heq =>
      have hpos := h.refcnt_pos rioh a ha
      exact heq ▸ h.put (ha ▸ Option.some_ne_none a) (hrefcnt ▸ hpos)
    | keep rioh hkeep => exact h.keep hkeep
    | destroy rioh hdestroy => exact h.destroy hdestroy
  exact hs1.of_eq rfl rfl rfl

theorem Table.worker {w : Nat} {q : List HndEvent} {pc : WorkPc} (h : Table s)
    (hrun : runWorker s w q pc = some (s', o)) : Table s' := by
  cases pc with
  | idle =>
    cases q with
    | nil =>
      cases hrun
      exact h
    | cons ev q =>
      cases hrun
      exact h.of_eq rfl rfl rfl
  | popped ev =>
    obtain ⟨a, -, hrun⟩ := Option.bind_eq_some_iff.1 hrun
    obtain ⟨s1, hkeep, heq⟩ := Option.bind_eq_some_iff.1 hrun
    cases heq
    exact (h.keep hkeep).of_eq rfl rfl rfl
  | calling ev =>
    obtain ⟨s1, hdestroy, heq⟩ := Option.bind_eq_some_iff.1 hrun
    cases heq
    exact (h.destroy hdestroy).of_eq rfl rfl rfl
  | called ev =>
    obtain ⟨s1, hdestroy, heq⟩ := Option.bind_eq_some_iff.1 hrun
    cases heq
    exact (h.destroy hdestroy).of_eq rfl rfl rfl

theorem Table.enqueue {a : Hnd} {events : BitVec 32} {evs : List (Nat × BitVec 32)} (h : Table s)
    (henq : ioHndEnqueueWorker s rioh a events evs = some (s', o)) : Table s' := by
  unfold ioHndEnqueueWorker at henq
  split at henq
  · obtain ⟨s1, hkeep, heq⟩ := Option.bind_eq_some_iff.1 henq
    cases heq
    exact (h.keep hkeep).of_eq rfl rfl rfl
  · split at henq
    · cases henq
      exact h.of_eq rfl rfl rfl
    · cases henq
      exact h.of_eq rfl rfl rfl

theorem Table.io {pc : IoPc} (h : Table s) (hrun : runIo s pc = some (s', o)) : Table s' := by
  cases pc with
  | wait =>
    cases hrun
    exact h
  | batch evs =>
    cases evs with
    | nil =>
      cases hrun
      exact h.of_eq rfl rfl rfl
    | cons e evs =>
      obtain ⟨a, -, heq⟩ := Option.bind_eq_some_iff.1 hrun
      split at heq
      · cases heq
        exact h.of_eq rfl rfl rfl
      · exact h.enqueue heq
  | calling rioh evs =>
    obtain ⟨s1, hdestroy, heq⟩ := Option.bind_eq_some_iff.1 hrun
    cases heq
    exact (h.destroy hdestroy).of_eq rfl rfl rfl
  | getting ev evs =>
    obtain ⟨s1, rdt, hget⟩ : ∃ s1 rdt, ioWorkerGet s = (s1, rdt) := ⟨_, _, rfl⟩
    have hsame := ioWorkerGet_same hget
    have hs1 : Table s1 := h.of_eq hsame.heap hsame.hnds hsame.next
    simp only [runIo, hget] at hrun
    cases rdt with
    | none =>
      cases hrun
      exact hs1
    | some rdt =>
      cases hrun
      exact hs1.of_eq rfl rfl rfl
  | adding rdt ev evs =>
    obtain ⟨s1, hkeep, hrun⟩ := Option.bind_eq_some_iff.1 hrun
    obtain ⟨s2, hadd, heq⟩ := Option.bind_eq_some_iff.1 hrun
    obtain ⟨worker, -, hset⟩ := Option.bind_eq_some_iff.1 hadd
    cases hset
    cases heq
    exact (h.keep hkeep).of_eq rfl rfl rfl

/-- **One step** keeps the table. -/
theorem step_table {i : Step} (h : Table s) (hstep : step s i = some (s', o)) : Table s' := by
  cases i with
  | add fd events flags cb => exact h.add hstep
  | del fd => exact h.del hstep
  | task t ok =>
    simp only [step, taskStep] at hstep
    split at hstep
    · cases hstep
      exact h
    · exact h.task hstep
  | wait evs =>
    cases hstep
    unfold ioWait
    split
    · exact h.of_eq rfl rfl rfl
    · exact h
  | io => exact h.io hstep
  | worker w =>
    simp only [step, workerStep] at hstep
    split at hstep
    · cases hstep
      exact h
    · exact h.worker hstep

theorem initial_table : Table initial := ⟨nofun, nofun, .nil, fun _ _ => rfl⟩

/-- **The table** in every run. -/
theorem run_table (is : List Step) : ioMachine.Always Table initial is :=
  Machine.always_inv (I := Table) (Q := fun _ _ => True) (fun _ => id) (fun _ _ _ _ h _ => step_table h) is initial
    initial_table (Machine.each_of_forall fun _ _ => trivial)

end Steps

end Librd.Io
