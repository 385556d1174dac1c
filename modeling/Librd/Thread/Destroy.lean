import Librd.Thread.Thread

/-!
# Threads: the assertion of `rd_thread_destroy`

A handle is made with the state `RD_THREAD_S_RUNNING`, and only `rd_thread_exit` and `rd_thread_kill` change it (`Inv`).
Neither the end of the start routine nor the failure of `pthread_create` does, but both destroy the handle, which
asserts that the state is another one. So a run goes well exactly if every thread that ends or that cannot be started
was told to exit before (`destroyed_iff`).
-/

namespace Librd.Thread

/-- The thread that is told to exit. -/
def Op.tells : Op → List Nat
  | .exit id => [id]
  | .kill id => [id]
  | .create _ _ => []
  | .pthread _ _ => []
  | .finish _ => []

/-- The thread whose handle is destroyed. -/
def Op.ends : Op → Option Nat
  | .pthread id false => some id
  | .finish id => some id
  | _ => none

/-- Threads with a list of those that `rd_thread_exit` or `rd_thread_kill` was called for. -/
def watched : Machine (State × List Nat) Op Out where
  Ok s op := Ok s.1 op
  step := fun (s, told) op => (step s op).map fun (s', o) => ((s', told ++ op.tells), o)

/-- If `pthread_create` fails, `rd_thread_create` returns -1, with `NULL` for a handle. -/
def Right (s : State × List Nat) (op : Op) (o : Out) (_ : State × List Nat) : Prop :=
  ∀ id rdt place, op = .pthread id false → s.1.slots id = .creating rdt place →
    o = .returned (-1) (if place then some none else none)

/-- A thread whose handle is destroyed was told to exit. -/
def Told (s : State × List Nat) (op : Op) : Prop := ∀ id ∈ op.ends, id ∈ s.2

instance (s : State × List Nat) (op : Op) : Decidable (Told s op) :=
  inferInstanceAs (Decidable (∀ id ∈ op.ends, id ∈ s.2))

instance (s : State × List Nat) (op : Op) : Decidable (watched.Ok s op) := inferInstanceAs (Decidable (Ok s.1 op))

/-! ## The state of a handle -/

/-- The state of a handle says whether the thread was told to exit. -/
def Marked (rdt : Rdt) (told : Prop) : Prop := rdt.state = .exiting ∧ told ∨ rdt.state = .running ∧ ¬told

/-- Handles are running until they are told to exit. -/
structure Inv (s : State) (told : List Nat) : Prop where
  marked : ∀ id rdt, (s.slots id).rdt? = some rdt → Marked rdt (id ∈ told)
  slot_lt : ∀ id, (s.slots id).rdt? ≠ none → id < s.next
  told_lt : ∀ id ∈ told, id < s.next

theorem initial_inv : Inv initial [] := ⟨fun _ _ h => (by cases h), fun _ h => absurd rfl h, fun _ h => (by cases h)⟩

section Steps

variable {s : State} {told : List Nat} {id : Nat} {rdt : Rdt} {place : Bool}

theorem Slot.set_rdt? {slot : Slot} (h : slot.rdt? ≠ none) (rdt : Rdt) : (slot.set rdt).rdt? = some rdt := by
  cases slot with
  | unborn => exact absurd rfl h
  | creating _ _ => rfl
  | running _ => rfl
  | freed => exact absurd rfl h

/-- **One handle changes**, and only this one may be told to exit. -/
theorem Inv.put {slot : Slot} {ids : List Nat} (h : Inv s told) (hid : id < s.next) (hids : ∀ j ∈ ids, j = id)
    (hslot : ∀ rdt, slot.rdt? = some rdt → Marked rdt (id ∈ told ++ ids)) : Inv (s.put id slot) (told ++ ids) := by
  have hmem : ∀ j, j ≠ id → (j ∈ told ++ ids ↔ j ∈ told) := by
    intro j hne
    rw [List.mem_append]
    exact or_iff_left fun hin => hne (hids j hin)
  refine ⟨fun j rdt hj => ?_, fun j hj => ?_, fun j hj => ?_⟩
  · by_cases heq : j = id
    · subst heq
      rw [State.put_self] at hj
      exact hslot rdt hj
    · rw [State.put_of_ne s slot heq] at hj
      rw [Marked, hmem j heq]
      exact h.marked j rdt hj
  · by_cases heq : j = id
    · exact heq ▸ hid
    · rw [State.put_of_ne s slot heq] at hj
      exact h.slot_lt j hj
  · rcases List.mem_append.1 hj with hj | hj
    · exact h.told_lt j hj
    · exact hids j hj ▸ hid

/-- The same without a thread that is told to exit. -/
theorem Inv.put_same {slot : Slot} (h : Inv s told) (hid : id < s.next)
    (hslot : ∀ rdt, slot.rdt? = some rdt → Marked rdt (id ∈ told)) : Inv (s.put id slot) told := by
  have hput : Inv (s.put id slot) (told ++ []) := by
    apply h.put hid (fun _ hj => by cases hj)
    rw [List.append_nil]
    exact hslot
  rwa [List.append_nil] at hput

/-- A new handle. -/
theorem Inv.created (h : Inv s told) (name : Option Text) (place : Bool) : Inv (threadCreate s name place) told := by
  have hwide : Inv { s with next := s.next + 1 } told :=
    ⟨h.marked, fun id hid => Nat.lt_succ_of_lt (h.slot_lt id hid), fun id hid => Nat.lt_succ_of_lt (h.told_lt id hid)⟩
  refine hwide.put_same (Nat.lt_succ_self s.next) fun rdt hrdt => .inr ⟨?_, fun hin => ?_⟩
  · cases hrdt
    rfl
  · exact Nat.lt_irrefl _ (h.told_lt _ hin)

/-- **Destroying** a handle: the assertion holds if the thread was told to exit. -/
theorem Marked.destroy {p : Prop} [Decidable p] (h : Marked rdt p) :
    threadDestroy rdt = if p then some .freed else none := by
  rcases h with ⟨hstate, hp⟩ | ⟨hstate, hp⟩
  · rw [threadDestroy, hstate, if_pos hp]
    rfl
  · rw [threadDestroy, hstate, if_neg hp]
    rfl

/-- A handle that is freed. -/
theorem Inv.freed (h : Inv s told) (hid : id < s.next) : Inv (s.put id .freed) told :=
  h.put_same hid fun _ hrdt => (by cases hrdt)

/-- `pthread_create` succeeds. -/
theorem Inv.pthread_ok (h : Inv s told) (hslot : s.slots id = .creating rdt place) :
    Inv (s.put id (.running rdt)) told := by
  have hrdt : (s.slots id).rdt? = some rdt := by rw [hslot]; rfl
  refine h.put_same (h.slot_lt id (hrdt ▸ Option.some_ne_none rdt)) fun rdt' hrdt' => ?_
  cases hrdt'
  exact h.marked id rdt hrdt

/-- `pthread_create` fails. -/
theorem Inv.pthread_failed (h : Inv s told) (hslot : s.slots id = .creating rdt place) :
    step s (.pthread id false) =
      if id ∈ told then some (s.put id .freed, .returned (-1) (if place then some none else none)) else none := by
  have hdestroy := (h.marked id rdt (by rw [hslot]; rfl)).destroy
  simp only [step, threadCreated, hslot, hdestroy]
  by_cases hin : id ∈ told
  · simp only [if_pos hin]
    rfl
  · simp only [if_neg hin]
    rfl

/-- A start routine returns. -/
theorem Inv.finish (h : Inv s told) (hslot : s.slots id = .running rdt) :
    step s (.finish id) = if id ∈ told then some (s.put id .freed, .silent) else none := by
  have hdestroy := (h.marked id rdt (by rw [hslot]; rfl)).destroy
  simp only [step, startRoutine, hslot, hdestroy]
  by_cases hin : id ∈ told
  · simp only [if_pos hin]
    rfl
  · simp only [if_neg hin]
    rfl

/-- A thread is told to exit. -/
theorem Inv.exiting (h : Inv s told) (hrdt : (s.slots id).rdt? = some rdt) :
    Inv (s.put id ((s.slots id).set { rdt with state := .exiting })) (told ++ [id]) := by
  have hlive : (s.slots id).rdt? ≠ none := hrdt ▸ Option.some_ne_none rdt
  refine h.put (h.slot_lt id hlive) (fun j hj => List.mem_singleton.1 hj) fun rdt' hrdt' => .inl ⟨?_, ?_⟩
  · rw [Slot.set_rdt? hlive, Option.some.injEq] at hrdt'
    rw [← hrdt']
  · exact List.mem_append_right _ List.mem_cons_self

/-- A thread leaves. -/
theorem Inv.exit (h : Inv s told) (hslot : s.slots id = .running rdt) :
    ∃ s', step s (.exit id) = some (s', .silent) ∧ Inv s' (told ++ [id]) := by
  have hrdt : (s.slots id).rdt? = some rdt := by rw [hslot]; rfl
  have hstate : rdt.state = .running ∨ rdt.state = .exiting :=
    (h.marked id rdt hrdt).elim (fun hexit => .inr hexit.1) fun hrunning => .inl hrunning.1
  have hguard : (guard (rdt.state = .running ∨ rdt.state = .exiting) : Option Unit) = some () := if_pos hstate
  refine ⟨_, ?_, h.exiting hrdt⟩
  rw [step, threadExit, hrdt, Option.bind_eq_bind, Option.bind_some, hguard]
  rfl

/-- A thread is killed. -/
theorem Inv.kill (h : Inv s told) (hrdt : (s.slots id).rdt? = some rdt) :
    ∃ s', step s (.kill id) = some (s', .silent) ∧ Inv s' (told ++ [id]) := by
  refine ⟨_, ?_, h.exiting hrdt⟩
  simp [step, threadKill, hrdt]

theorem Slot.Waits.exists {slot : Slot} (h : slot.Waits) : ∃ rdt place, slot = .creating rdt place := by
  cases slot with
  | creating rdt place => exact ⟨rdt, place, rfl⟩
  | _ => exact h.elim

theorem Slot.Runs.exists {slot : Slot} (h : slot.Runs) : ∃ rdt, slot = .running rdt := by
  cases slot with
  | running rdt => exact ⟨rdt, rfl⟩
  | _ => exact h.elim

/-- **A step** in which a thread that is destroyed was told to exit. -/
theorem step_told {op : Op} (h : Inv s told) (hok : Ok s op) (htold : Told (s, told) op) :
    ∃ s' o, step s op = some (s', o) ∧ Right (s, told) op o (s', told ++ op.tells) ∧ Inv s' (told ++ op.tells) := by
  cases op with
  | create name place =>
    refine ⟨_, _, rfl, fun _ _ _ heq => (by cases heq), ?_⟩
    rw [Op.tells, List.append_nil]
    exact h.created name place
  | pthread id ok =>
    rw [Op.tells, List.append_nil]
    obtain ⟨rdt, place, hslot⟩ := Slot.Waits.exists hok
    cases ok with
    | true =>
      refine ⟨_, .returned 0 (if place then some (some id) else none), ?_, fun _ _ _ heq => (by cases heq),
        h.pthread_ok hslot⟩
      simp only [step, threadCreated, hslot, if_true]
    | false =>
      have hin : id ∈ told := htold id rfl
      refine ⟨_, _, (h.pthread_failed hslot).trans (if_pos hin), fun id' rdt' place' heq hslot' => ?_,
        h.freed (h.told_lt id hin)⟩
      cases heq
      cases hslot.symm.trans hslot'
      rfl
  | exit id =>
    obtain ⟨rdt, hslot⟩ := Slot.Runs.exists hok
    obtain ⟨s', hstep, hinv⟩ := h.exit hslot
    exact ⟨s', _, hstep, fun _ _ _ heq => (by cases heq), hinv⟩
  | kill id =>
    obtain ⟨rdt, hrdt⟩ := Option.ne_none_iff_exists'.1 hok
    obtain ⟨s', hstep, hinv⟩ := h.kill hrdt
    exact ⟨s', _, hstep, fun _ _ _ heq => (by cases heq), hinv⟩
  | finish id =>
    rw [Op.tells, List.append_nil]
    obtain ⟨rdt, hslot⟩ := Slot.Runs.exists hok
    have hin : id ∈ told := htold id rfl
    exact ⟨_, _, (h.finish hslot).trans (if_pos hin), fun _ _ _ heq => (by cases heq), h.freed (h.told_lt id hin)⟩

/-- **A step** in which a thread that is destroyed was not told to exit: the assertion fails. -/
theorem step_untold {op : Op} (h : Inv s told) (hok : Ok s op) (htold : ¬Told (s, told) op) : step s op = none := by
  obtain ⟨id, hends, hnot⟩ : ∃ id, op.ends = some id ∧ id ∉ told := by
    by_contra hall
    push Not at hall
    exact htold fun id hid => hall id hid
  cases op with
  | create name place => cases hends
  | exit id' => cases hends
  | kill id' => cases hends
  | pthread id' ok =>
    cases ok with
    | true => cases hends
    | false =>
      cases hends
      obtain ⟨rdt, place, hslot⟩ := Slot.Waits.exists hok
      rw [h.pthread_failed hslot, if_neg hnot]
  | finish id' =>
    cases hends
    obtain ⟨rdt, hslot⟩ := Slot.Runs.exists hok
    rw [h.finish hslot, if_neg hnot]

end Steps

/-- **Destroyed handles.** A run of threads fails no assertion, and gives -1 and `NULL` where `pthread_create` fails, if
and only if every thread that ends or that cannot be started was told to exit before. -/
theorem destroyed_iff {ops : List Op} (hok : watched.Admits (initial, []) ops) :
    watched.Steps Right (initial, []) ops ↔ watched.Each Told (initial, []) ops := by
  refine Machine.steps_iff_each (I := fun s => Inv s.1 s.2) (C := watched.Ok) ?_ ?_ ops _ initial_inv hok
  · rintro ⟨s, told⟩ op h hcall htold
    obtain ⟨s', o, hstep, hright, hinv⟩ := step_told h hcall htold
    refine ⟨(s', told ++ op.tells), o, ?_, hright, hinv⟩
    simp only [watched, hstep, Option.map_some]
  · rintro ⟨s, told⟩ op s' o h hcall htold hstep -
    simp only [watched, step_untold h hcall htold] at hstep
    cases hstep

/-- A thread that exits and one that is killed. -/
theorem destroyed_two : watched.Steps Right (initial, [])
    [.create none true, .pthread 0 true, .create none false, .pthread 1 true, .exit 0, .kill 1, .finish 0, .finish 1] :=
  (destroyed_iff (by decide)).2 (by decide)

/-- A start routine that returns on its own, and a failure of `pthread_create`. -/
theorem destroyed_running :
    (watched.Admits (initial, []) [.create none true, .pthread 0 true, .finish 0] ∧
      watched.run (initial, []) [.create none true, .pthread 0 true, .finish 0] = none) ∧
    watched.Admits (initial, []) [.create none true, .pthread 0 false] ∧
      watched.run (initial, []) [.create none true, .pthread 0 false] = none :=
  ⟨⟨by decide, rfl⟩, by decide, rfl⟩

end Librd.Thread
