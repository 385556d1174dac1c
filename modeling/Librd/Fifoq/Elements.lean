import Librd.Fifoq.Conserve

/-!
# FIFO queues: what becomes of the elements and of the count

An element starts with two references, "one for rfq, one for caller". A pop drops one and `rd_fifoq_elm_release` the
other, but a purge drops one only if it is the last, which it never is: an element that is pushed out stays allocated,
with two references and nobody to drop them. So every element is queued, popped or freed exactly as long as nothing is
added to a full queue (`run_one_state_iff`).

`rd_fifoq_destroy` frees the elements that are still queued and leaves `rfq_cnt` as it is, and `rd_fifoq_init` does not
reset it. So `rfq_cnt` is the number of queued elements over the whole life of an `rd_fifoq_t` exactly as long as each
`rd_fifoq_init` finds it 0, that is, as long as only empty queues are destroyed and used again (`life_count_iff`).
-/

namespace Librd.Fifoq

/-! ## Elements and their references -/

/-- The elements queued have two references, those that consumers hold have one. -/
structure Links (q held : List Addr) (heap : Heap) : Prop where
  queued : ∀ a ∈ q, ∃ p, heap a = some { refcnt := 2, ptr := p }
  nodup : q.Nodup
  popped : ∀ a ∈ held, ∃ p, heap a = some { refcnt := 1, ptr := p }
  popped_nodup : held.Nodup

/-- Every allocated element is queued or held. -/
def Owned (q held : List Addr) (heap : Heap) : Prop := ∀ a, heap a ≠ none → a ∈ q ∨ a ∈ held

section Links

variable {q held : List Addr} {heap : Heap} {a : Addr} {p : Ptr}

theorem Links.not_held (h : Links q held heap) (ha : a ∈ q) : a ∉ held := by
  intro hh
  obtain ⟨p, hp⟩ := h.queued a ha
  obtain ⟨p', hp'⟩ := h.popped a hh
  rw [hp] at hp'
  cases hp'

theorem Links.not_queued (h : Links q held heap) (ha : a ∈ held) : a ∉ q := fun hq => h.not_held hq ha

/-- A cell that is neither queued nor held may change. -/
theorem Links.frame (h : Links q held heap) (hq : a ∉ q) (hh : a ∉ held) (c : Option Elm) :
    Links q held (Function.update heap a c) := by
  refine { h with queued := ?_, popped := ?_ }
  · intro b hb
    rw [Function.update_of_ne (ne_of_mem_of_not_mem hb hq)]
    exact h.queued b hb
  · intro b hb
    rw [Function.update_of_ne (ne_of_mem_of_not_mem hb hh)]
    exact h.popped b hb

/-- An element that is allocated and queued. -/
theorem Links.push (h : Links q held heap) (ha : heap a = none) (p : Ptr) :
    Links (q ++ [a]) held (Function.update heap a (some { refcnt := 2, ptr := p })) := by
  have hq : a ∉ q := fun hm => by
    obtain ⟨p', hp'⟩ := h.queued a hm
    simp [ha] at hp'
  have hh : a ∉ held := fun hm => by
    obtain ⟨p', hp'⟩ := h.popped a hm
    simp [ha] at hp'
  have h1 := h.frame hq hh (some { refcnt := 2, ptr := p })
  refine { h1 with queued := ?_, nodup := ?_ }
  · intro b hb
    rcases List.mem_append.1 hb with hb | hb
    · exact h1.queued b hb
    · rw [List.mem_singleton.1 hb]
      exact ⟨p, Function.update_self ..⟩
  · exact h.nodup.append (List.nodup_singleton a) (by simpa using hq)

/-- An element that is unlinked and keeps its references. -/
theorem Links.erase (h : Links q held heap) (a : Addr) : Links (q.erase a) held heap :=
  { h with queued := fun b hb => h.queued b (List.mem_of_mem_erase hb), nodup := h.nodup.erase a }

/-- An element that is popped. -/
theorem Links.pop (h : Links (a :: q) held heap) (p : Ptr) :
    Links q (a :: held) (Function.update heap a (some { refcnt := 1, ptr := p })) := by
  have hnd := List.nodup_cons.1 h.nodup
  have hh : a ∉ held := h.not_held List.mem_cons_self
  have h0 : Links q held heap := { h with queued := fun b hb => h.queued b (List.mem_cons_of_mem a hb), nodup := hnd.2 }
  have h1 := h0.frame hnd.1 hh (some { refcnt := 1, ptr := p })
  refine { h1 with popped := ?_, popped_nodup := List.nodup_cons.2 ⟨hh, h.popped_nodup⟩ }
  intro b hb
  rcases List.mem_cons.1 hb with rfl | hb
  · exact ⟨p, Function.update_self ..⟩
  · exact h1.popped b hb

/-- An element that is freed with its last reference. -/
theorem Links.release (h : Links q held heap) (ha : a ∈ held) :
    Links q (held.erase a) (Function.update heap a none) := by
  have h0 : Links q (held.erase a) heap :=
    { h with popped := fun b hb => h.popped b (List.mem_of_mem_erase hb), popped_nodup := h.popped_nodup.erase a }
  exact h0.frame (h.not_queued ha) (fun hm => (h.popped_nodup.mem_erase_iff.1 hm).1 rfl) none

/-- An element that is freed with the queue. -/
theorem Links.free (h : Links (a :: q) held heap) : Links q held (Function.update heap a none) := by
  have hnd := List.nodup_cons.1 h.nodup
  have h0 : Links q held heap := { h with queued := fun b hb => h.queued b (List.mem_cons_of_mem a hb), nodup := hnd.2 }
  exact h0.frame hnd.1 (h.not_held List.mem_cons_self) none

/-- Ownership after a change of one cell: the cell is owned or free now, and no other cell lost its owner. -/
theorem Owned.update {q' held' : List Addr} (h : Owned q held heap) (c : Option Elm)
    (ha : c = none ∨ a ∈ q' ∨ a ∈ held') (hq : ∀ b ∈ q, b ≠ a → b ∈ q') (hh : ∀ b ∈ held, b ≠ a → b ∈ held') :
    Owned q' held' (Function.update heap a c) := by
  intro b hb
  by_cases hba : b = a
  · subst hba
    rcases ha with ha | ha
    · rw [Function.update_self] at hb
      exact absurd ha hb
    · exact ha
  · rw [Function.update_of_ne hba] at hb
    rcases h b hb with hbq | hbh
    · exact .inl (hq b hbq hba)
    · exact .inr (hh b hbh hba)

end Links

/-! ## One operation -/

/-- The queue is well formed: references, count and limits. -/
structure Core (s : State) : Prop where
  links : Links s.rfq.q s.held s.heap
  inited : s.rfq.inited = true
  cnt : s.rfq.cnt = s.rfq.q.length
  cnt_le : s.rfq.cnt ≤ intMax
  nonneg : 0 ≤ s.rfq.maxSize
  le_max : s.rfq.maxSize ≤ intMax

/-- What callers promise; a queue may be filled up to `INT_MAX` and beyond. -/
def Call (s : State) : Op → Prop
  | .add _ _ rfqe => s.heap rfqe = none
  | op => Ok s op

instance (s : State) : (op : Op) → Decidable (Call s op)
  | .add _ _ rfqe => inferInstanceAs (Decidable (s.heap rfqe = none))
  | .pop tid nowait timeoutMs => inferInstanceAs (Decidable (Ok s (.pop tid nowait timeoutMs)))
  | .wake tid => inferInstanceAs (Decidable (Ok s (.wake tid)))
  | .timeout tid => inferInstanceAs (Decidable (Ok s (.timeout tid)))
  | .release rfqe => inferInstanceAs (Decidable (Ok s (.release rfqe)))

/-- An add does not count past `INT_MAX`: a queue with a limit never does. -/
def Counts (s : State) : Op → Prop
  | .add _ _ _ => s.rfq.maxSize = 0 → (s.rfq.q.length : Int) < intMax
  | _ => True

/-- An add finds room: fewer elements than `rfq_max_size`, or than `INT_MAX` in a queue without a limit. -/
def Room (s : State) : Op → Prop
  | .add _ _ _ => (s.rfq.q.length : Int) < if s.rfq.maxSize = 0 then intMax else s.rfq.maxSize
  | _ => True

instance (s : State) : (op : Op) → Decidable (Counts s op)
  | .add _ _ _ => inferInstanceAs (Decidable (s.rfq.maxSize = 0 → (s.rfq.q.length : Int) < intMax))
  | .pop _ _ _ | .wake _ | .timeout _ | .release _ => .isTrue trivial

instance (s : State) : (op : Op) → Decidable (Room s op)
  | .add _ _ _ => inferInstanceAs (Decidable ((s.rfq.q.length : Int) < if s.rfq.maxSize = 0 then intMax else _))
  | .pop _ _ _ | .wake _ | .timeout _ | .release _ => .isTrue trivial

/-- An element is queued with two references, or popped and not released with one, or freed. -/
def OneState (s : State) (a : Addr) : Prop :=
  a ∈ s.rfq.q ∧ a ∉ s.held ∧ (∃ p, s.heap a = some { refcnt := 2, ptr := p }) ∨
  a ∉ s.rfq.q ∧ a ∈ s.held ∧ (∃ p, s.heap a = some { refcnt := 1, ptr := p }) ∨
  a ∉ s.rfq.q ∧ a ∉ s.held ∧ s.heap a = none

theorem Core.oneState {s : State} (h : Core s) (ho : Owned s.rfq.q s.held s.heap) (a : Addr) : OneState s a := by
  by_cases ha : s.heap a = none
  · refine .inr (.inr ⟨?_, ?_, ha⟩)
    · intro hq
      obtain ⟨p, hp⟩ := h.links.queued a hq
      simp [ha] at hp
    · intro hh
      obtain ⟨p, hp⟩ := h.links.popped a hh
      simp [ha] at hp
  · rcases ho a ha with hq | hh
    · exact .inl ⟨hq, h.links.not_held hq, h.links.queued a hq⟩
    · exact .inr (.inl ⟨h.links.not_queued hh, hh, h.links.popped a hh⟩)

section Steps

variable {s : State}

/-- Where an add finds room. -/
theorem Core.room_iff (h : Core s) (ptr : Ptr) (ptrPurged : Bool) (a : Addr) : Room s (.add ptr ptrPurged a) ↔
    s.rfq.cnt < intMax ∧ ¬ (s.rfq.maxSize ≠ 0 ∧ s.rfq.cnt ≥ s.rfq.maxSize) := by
  have hcnt := h.cnt
  have hmax := h.le_max
  unfold Room
  split <;> omega

/-- An add that finds room: the new element is queued. -/
theorem add_room (h : Core s) {ptr : Ptr} {ptrPurged : Bool} {a : Addr} (ha : s.heap a = none)
    (hroom : Room s (.add ptr ptrPurged a)) : ∃ s' o, step s (.add ptr ptrPurged a) = some (s', o) ∧ Core s' ∧
      (Owned s.rfq.q s.held s.heap → Owned s'.rfq.q s'.held s'.heap) := by
  obtain ⟨hmax, hfull⟩ := (h.room_iff ptr ptrPurged a).1 hroom
  have hincr : incr s.rfq.cnt = some (s.rfq.cnt + 1) := if_pos hmax
  refine ⟨_, _, by rw [step, add0_room h.inited hfull, hincr]; rfl, ?_, ?_⟩
  · exact { h with links := h.links.push ha ptr, cnt := by simp [h.cnt], cnt_le := Int.add_one_le_of_lt hmax }
  · intro ho
    exact ho.update _ (.inr (.inl (by simp))) (fun b hb _ => List.mem_append_left _ hb) (fun b hb _ => hb)

/-- The victim of a purge. -/
theorem Core.victim (h : Core s) (hfull : s.rfq.maxSize ≠ 0 ∧ s.rfq.cnt ≥ s.rfq.maxSize) :
    ∃ x ∈ s.rfq.q, (if s.rfq.taildrop then s.rfq.q.getLast? else s.rfq.q.head?) = some x := by
  have hne : s.rfq.q ≠ [] := by
    intro hq
    have hcnt := h.cnt
    have := h.nonneg
    simp only [hq, List.length_nil] at hcnt
    omega
  split
  · exact ⟨_, List.getLast_mem hne, List.getLast?_eq_some_getLast hne⟩
  · exact ⟨_, List.head_mem hne, List.head?_eq_some_head hne⟩

/-- An add to a full queue: the victim is unlinked for the new element, and stays allocated. -/
theorem add_full (h : Core s) (ptr : Ptr) (ptrPurged : Bool) {a : Addr} (ha : s.heap a = none)
    (hfull : s.rfq.maxSize ≠ 0 ∧ s.rfq.cnt ≥ s.rfq.maxSize) :
    ∃ s' o, step s (.add ptr ptrPurged a) = some (s', o) ∧ Core s' ∧ s'.rfq.q.length = s.rfq.q.length ∧
      ∃ x, ¬ OneState s' x := by
  obtain ⟨x, hx, hvictim⟩ := h.victim hfull
  obtain ⟨p, hp⟩ := h.links.queued x hx
  have hxa : x ≠ a := by
    rintro rfl
    simp [ha] at hp
  have hp' : Function.update s.heap a (some { refcnt := 2, ptr := ptr }) x = some { refcnt := 2, ptr := p } := by
    rw [Function.update_of_ne hxa, hp]
  have hincr : incr (s.rfq.cnt - 1) = some s.rfq.cnt := by
    have := h.cnt_le
    simp only [incr, if_pos (show s.rfq.cnt - 1 < intMax by omega), Int.sub_add_cancel]
  have hlen : (s.rfq.q.erase x ++ [a]).length = s.rfq.q.length := by
    have hpos := List.length_pos_of_mem hx
    rw [List.length_append, List.length_erase_of_mem hx, List.length_singleton]
    omega
  refine ⟨_, _, by rw [step, add0_full h.inited hfull ptrPurged hvictim hp', hincr]; rfl, ?_, hlen, x, ?_⟩
  · refine { h with links := (h.links.erase x).push ha ptr, cnt := ?_ }
    show s.rfq.cnt = ((s.rfq.q.erase x ++ [a]).length : Int)
    rw [hlen]
    exact h.cnt
  · have hq : x ∉ s.rfq.q.erase x ++ [a] := by
      simp [hxa, h.links.nodup.not_mem_erase]
    rintro (⟨h1, -⟩ | ⟨-, h1, -⟩ | ⟨-, -, h1⟩)
    · exact hq h1
    · exact h.links.not_held hx h1
    · exact absurd (hp'.symm.trans h1) (by simp)

/-- An add that would count past `INT_MAX`. -/
theorem add_overflow (h : Core s) (hfull : ¬ (s.rfq.maxSize ≠ 0 ∧ s.rfq.cnt ≥ s.rfq.maxSize))
    (hmax : ¬ s.rfq.cnt < intMax) (ptr : Ptr) (ptrPurged : Bool) (a : Addr) :
    step s (.add ptr ptrPurged a) = none := by
  have hincr : incr s.rfq.cnt = none := if_neg hmax
  rw [step, add0_room h.inited hfull, hincr]
  rfl

/-- A pop, from its test of the queue on. -/
theorem popLocked_core (h : Core s) (tid : Tid) (nowait : Bool) (timeoutMs : Int) :
    ∃ s' o, popLocked s tid nowait timeoutMs = some (s', o) ∧ Core s' ∧
      (Owned s.rfq.q s.held s.heap → Owned s'.rfq.q s'.held s'.heap) := by
  cases hq : s.rfq.q with
  | nil =>
    obtain ⟨w, o, hpop, -⟩ := popLocked_empty hq tid nowait timeoutMs
    exact ⟨_, o, hpop, { h with }, by simp [hq]⟩
  | cons a q =>
    obtain ⟨p, hp⟩ := h.links.queued a (by simp [hq])
    have hcnt := h.cnt
    have hle := h.cnt_le
    rw [hq, List.length_cons] at hcnt
    refine ⟨_, _, popLocked_cons hq (by omega) hp tid nowait timeoutMs, ?_, ?_⟩
    · exact { h with links := (hq ▸ h.links).pop p, cnt := by simp only; omega, cnt_le := by simp only; omega }
    · intro ho
      refine ho.update _ (.inr (.inr (by simp))) ?_ (fun b hb _ => List.mem_cons_of_mem a hb)
      rintro b hb hba
      exact (List.mem_cons.1 hb).resolve_left hba

/-- A release. -/
theorem release_core (h : Core s) {a : Addr} (ha : a ∈ s.held) : ∃ s' o, step s (.release a) = some (s', o) ∧ Core s' ∧
    (Owned s.rfq.q s.held s.heap → Owned s'.rfq.q s'.held s'.heap) := by
  obtain ⟨p, hp⟩ := h.links.popped a ha
  refine ⟨{ s with heap := Function.update s.heap a none, held := s.held.erase a }, .released, ?_, ?_, ?_⟩
  · simp [step, elmRelease0, hp]
  · exact { h with links := h.links.release ha }
  · intro ho
    exact ho.update _ (.inl rfl) (fun b hb _ => hb) (fun b hb hba => (List.mem_erase_of_ne hba).2 hb)

/-- What consumers hold does not change with an add. -/
theorem add_held {s' : State} {o : Out} {ptr : Ptr} {ptrPurged : Bool} {a : Addr}
    (hs : step s (.add ptr ptrPurged a) = some (s', o)) : s'.held = s.held := by
  obtain ⟨⟨s1, purged⟩, hadd, heq⟩ := Option.map_eq_some_iff.1 hs
  cases heq
  rw [add0] at hadd
  obtain ⟨-, -, hadd⟩ := Option.bind_eq_some_iff.1 hadd
  by_cases hfull : s.rfq.maxSize ≠ 0 ∧ s.rfq.cnt ≥ s.rfq.maxSize
  · simp only [if_pos hfull] at hadd
    obtain ⟨p, -, hadd⟩ := Option.bind_eq_some_iff.1 hadd
    obtain ⟨cnt, -, hadd⟩ := Option.bind_eq_some_iff.1 hadd
    cases hadd
    rfl
  · simp only [if_neg hfull] at hadd
    obtain ⟨p, -, hadd⟩ := Option.bind_eq_some_iff.1 hadd
    obtain ⟨cnt, -, hadd⟩ := Option.bind_eq_some_iff.1 hadd
    cases hadd
    rfl

theorem release_held {s' : State} {o : Out} {a : Addr} (hs : step s (.release a) = some (s', o)) :
    s'.held = s.held.erase a := by
  obtain ⟨heap, -, hnew⟩ := Option.bind_eq_some_iff.1 hs
  cases hnew
  rfl

/-- **One operation** that finds room does not fault; every element keeps exactly one state. -/
theorem step_room (h : Core s) (op : Op) (hcall : Call s op) (hroom : Room s op) : ∃ s' o, step s op = some (s', o) ∧
    Core s' ∧ (Owned s.rfq.q s.held s.heap → Owned s'.rfq.q s'.held s'.heap) := by
  cases op with
  | add ptr ptrPurged a => exact add_room h hcall hroom
  | pop tid nowait timeoutMs => exact popLocked_core h tid nowait timeoutMs
  | wake tid =>
    obtain ⟨t, ht⟩ := Option.ne_none_iff_exists'.1 hcall
    simpa [step, ht] using popLocked_core h tid false t
  | timeout tid => exact ⟨_, _, rfl, { h with }, fun ho => ho⟩
  | release a => exact release_core h hcall

/-- One operation that does not count past `INT_MAX` does not fault and keeps the queue well formed. -/
theorem step_core (h : Core s) (op : Op) (hcall : Call s op) (hcounts : Counts s op) :
    ∃ s' o, step s op = some (s', o) ∧ Core s' := by
  have hroom : Room s op → ∃ s' o, step s op = some (s', o) ∧ Core s' := fun hr => by
    obtain ⟨s', o, hs, h', -⟩ := step_room h op hcall hr
    exact ⟨s', o, hs, h'⟩
  cases op with
  | add ptr ptrPurged a =>
    by_cases hfull : s.rfq.maxSize ≠ 0 ∧ s.rfq.cnt ≥ s.rfq.maxSize
    · obtain ⟨s', o, hs, h', -⟩ := add_full h ptr ptrPurged hcall hfull
      exact ⟨s', o, hs, h'⟩
    · refine hroom ((h.room_iff ptr ptrPurged a).2 ⟨?_, hfull⟩)
      have hcnt := h.cnt
      have hmax := h.le_max
      by_cases hm : s.rfq.maxSize = 0
      · rw [hcnt]; exact hcounts hm
      · omega
  | _ => exact hroom trivial

end Steps

/-! ## Runs -/

theorem start_core {maxSize : Int} (taildrop : Int) (h0 : 0 ≤ maxSize) (hmax : maxSize ≤ intMax) :
    Core (start maxSize taildrop) where
  links := ⟨by simp [start, setMaxSize, init], by simp [start, setMaxSize, init], by simp [start], by simp [start]⟩
  inited := rfl
  cnt := rfl
  cnt_le := show (0 : Int) ≤ intMax by decide
  nonneg := h0
  le_max := hmax

/-- **Every element in exactly one state**: along a run, whatever its interleaving, nothing faults and every element is
queued with two references, popped with one, or freed, if and only if no add finds the queue full. -/
theorem run_one_state_iff (maxSize taildrop : Int) (h0 : 0 ≤ maxSize) (hmax : maxSize ≤ intMax) (ops : List Op)
    (hcall : machine.Each Call (start maxSize taildrop) ops) :
    machine.Steps (fun _ _ _ s => ∀ a, OneState s a) (start maxSize taildrop) ops ↔
      machine.Each Room (start maxSize taildrop) ops := by
  refine Machine.steps_iff_each (I := fun s => Core s ∧ Owned s.rfq.q s.held s.heap) ?_ ?_ ops _
    ⟨start_core taildrop h0 hmax, fun a ha => absurd rfl ha⟩ hcall
  · intro s op ⟨h, ho⟩ hc hr
    obtain ⟨s', o, hs, h', ho'⟩ := step_room h op hc hr
    exact ⟨s', o, hs, h'.oneState (ho' ho), h', ho' ho⟩
  · intro s op s' o ⟨h, ho⟩ hc hr hs hone
    cases op with
    | add ptr ptrPurged a =>
      by_cases hfull : s.rfq.maxSize ≠ 0 ∧ s.rfq.cnt ≥ s.rfq.maxSize
      · obtain ⟨s1, o1, hs1, -, -, x, hx⟩ := add_full h ptr ptrPurged hc hfull
        rw [machine_step, hs1] at hs
        cases hs
        exact hx (hone x)
      · have hmax : ¬ s.rfq.cnt < intMax := fun hlt => hr ((h.room_iff ptr ptrPurged a).2 ⟨hlt, hfull⟩)
        rw [machine_step, add_overflow h hfull hmax] at hs
        cases hs
    | _ => exact hr trivial

/-- A queue of two entries that never fills up, with one element popped and released. -/
theorem run_one_state_iff_room :
    let ops : List Op := [.add 7 true 0, .add 8 false 1, .pop 0 true 0, .release 0, .add 9 true 0]
    machine.Each Call (start 2 1) ops ∧ machine.Each Room (start 2 1) ops ∧
    (machine.Steps (fun _ _ _ s => ∀ a, OneState s a) (start 2 1) ops ↔ machine.Each Room (start 2 1) ops) :=
  ⟨by decide, by decide, run_one_state_iff 2 1 (by decide) (by decide) _ (by decide)⟩

/-- The second add to a queue of one entry pushes out the element of the first, which stays allocated with its two
references, neither queued nor popped. -/
theorem purged_leaks :
    machine.Each Call (start 1 0) [.add 7 false 0, .add 8 false 1] ∧
    ∃ s outs, machine.run (start 1 0) [.add 7 false 0, .add 8 false 1] = some (s, outs) ∧
      s.heap 0 = some { refcnt := 2, ptr := 7 } ∧ ¬ OneState s 0 := by
  refine ⟨by decide, _, _, rfl, by decide, ?_⟩
  rintro (⟨h, -⟩ | ⟨-, h, -⟩ | ⟨-, -, h⟩) <;> revert h <;> decide

/-! ## The life of an `rd_fifoq_t` -/

/-- A caller's `rd_fifoq_t`, zeroed. -/
def zeroed : Rfq := { q := [], cnt := 0, maxSize := 0, taildrop := false, inited := false }

/-- `rd_fifoq_init` of a caller's `rd_fifoq_t`. -/
def initFifoq (rfq : Rfq) : Rfq := { rfq with q := [], inited := true }

theorem initFifoq_zeroed : initFifoq zeroed = init := rfl

/-- The loop of `rd_fifoq_destroy`. -/
def freeElms : List Addr → Heap → Option Heap
  | [], heap => some heap
  | rfqe :: q, heap => do
    let _ ← heap rfqe
    freeElms q (Function.update heap rfqe none)

/-- `rd_fifoq_destroy`. -/
def destroy (s : State) : Option State := do
  let heap ← freeElms s.rfq.q s.heap
  return { s with rfq := { s.rfq with q := [] }, heap := heap }

/-- An `rd_fifoq_t` over its whole life; `live` tells whether its lock and its condition variable exist. -/
structure Life where
  state : State
  live : Bool

inductive LifeOp
  | init
  | setMaxSize (maxSize taildrop : Int)
  | destroy
  | op (op : Op)
  deriving DecidableEq, Repr

def lifeStep (l : Life) : LifeOp → Option (Life × Option Out)
  | .init => some (⟨{ l.state with rfq := initFifoq l.state.rfq }, true⟩, none)
  | .setMaxSize maxSize taildrop =>
    some (⟨{ l.state with rfq := setMaxSize l.state.rfq maxSize taildrop }, l.live⟩, none)
  | .destroy => (destroy l.state).map fun s => (⟨s, false⟩, none)
  | .op op => (step l.state op).map fun p => (⟨p.1, l.live⟩, some p.2)

/-- The lock is made once before it is used, and the other calls need it; limits are not negative. -/
def LifeOk (l : Life) : LifeOp → Prop
  | .init => l.live = false
  | .setMaxSize maxSize _ => l.live = true ∧ 0 ≤ maxSize ∧ maxSize ≤ intMax
  | .destroy => l.live = true
  | .op op => l.live = true ∧ Call l.state op

instance (l : Life) : (op : LifeOp) → Decidable (LifeOk l op)
  | .init => inferInstanceAs (Decidable (l.live = false))
  | .setMaxSize maxSize _ => inferInstanceAs (Decidable (l.live = true ∧ 0 ≤ maxSize ∧ maxSize ≤ intMax))
  | .destroy => inferInstanceAs (Decidable (l.live = true))
  | .op op => inferInstanceAs (Decidable (l.live = true ∧ Call l.state op))

def lifeMachine : Machine Life LifeOp (Option Out) where
  Ok := LifeOk
  step := lifeStep

instance (l : Life) (op : LifeOp) : Decidable (lifeMachine.Ok l op) := inferInstanceAs (Decidable (LifeOk l op))

/-- Before the first `rd_fifoq_init`. -/
def unborn : Life where
  state := { rfq := zeroed, heap := fun _ => none, waiting := fun _ => none, held := [] }
  live := false

/-- `rd_fifoq_init` finds the count at 0, and no add counts past `INT_MAX`. -/
def CountOk (l : Life) : LifeOp → Prop
  | .init => l.state.rfq.cnt = 0
  | .op op => Counts l.state op
  | _ => True

instance (l : Life) : (op : LifeOp) → Decidable (CountOk l op)
  | .init => inferInstanceAs (Decidable (l.state.rfq.cnt = 0))
  | .op op => inferInstanceAs (Decidable (Counts l.state op))
  | .setMaxSize _ _ | .destroy => .isTrue trivial

/-- While the queue is initialised `rfq_cnt` is the number of queued elements. -/
def CountExact (l : Life) : Prop := l.live = true → l.state.rfq.cnt = l.state.rfq.q.length

structure LifeInv (l : Life) : Prop where
  links : Links l.state.rfq.q l.state.held l.state.heap
  nonneg : 0 ≤ l.state.rfq.maxSize
  le_max : l.state.rfq.maxSize ≤ intMax
  core : l.live = true → Core l.state
  empty : l.live = false → l.state.rfq.q = []

theorem LifeInv.of_core {s : State} (h : Core s) : LifeInv ⟨s, true⟩ :=
  ⟨h.links, h.nonneg, h.le_max, fun _ => h, nofun⟩

/-- Freeing what is queued leaves what consumers hold. -/
theorem freeElms_ok {held : List Addr} {q : List Addr} : ∀ {heap : Heap}, Links q held heap →
    ∃ heap', freeElms q heap = some heap' ∧ Links [] held heap' := by
  induction q with
  | nil => exact fun h => ⟨_, rfl, h⟩
  | cons a q ih =>
    intro heap h
    obtain ⟨p, hp⟩ := h.queued a List.mem_cons_self
    obtain ⟨heap', hf, h'⟩ := ih h.free
    exact ⟨heap', by simp [freeElms, hp, hf], h'⟩

/-- One call that meets the condition. -/
theorem life_step_ok {l : Life} (h : LifeInv l) (op : LifeOp) (hok : LifeOk l op) (hc : CountOk l op) :
    ∃ l' o, lifeStep l op = some (l', o) ∧ CountExact l' ∧ LifeInv l' := by
  obtain ⟨s, live⟩ := l
  cases op with
  | init =>
    have hq : s.rfq.q = [] := h.empty hok
    have hcnt : s.rfq.cnt = 0 := hc
    have hlinks : Links [] s.held s.heap := hq ▸ h.links
    have hcore : Core { s with rfq := initFifoq s.rfq } :=
      { links := hlinks, inited := rfl, cnt := hcnt, nonneg := h.nonneg, le_max := h.le_max
        cnt_le := show s.rfq.cnt ≤ intMax by rw [hcnt]; decide }
    exact ⟨_, _, rfl, fun _ => hcore.cnt, .of_core hcore⟩
  | setMaxSize maxSize taildrop =>
    obtain ⟨rfl, h0, hmax⟩ := hok
    have hcore := h.core rfl
    refine ⟨_, _, rfl, fun _ => hcore.cnt, .of_core { hcore with nonneg := h0, le_max := hmax }⟩
  | destroy =>
    obtain ⟨heap, hf, hl⟩ := freeElms_ok h.links
    refine ⟨⟨{ s with rfq := { s.rfq with q := [] }, heap := heap }, false⟩, none, ?_, nofun, ?_⟩
    · simp [lifeStep, destroy, hf]
    · exact ⟨hl, h.nonneg, h.le_max, nofun, fun _ => rfl⟩
  | op op =>
    obtain ⟨rfl, hcall⟩ := hok
    obtain ⟨s', o, hs, hcore⟩ := step_core (h.core rfl) op hcall hc
    exact ⟨_, _, by rw [lifeStep, hs]; rfl, fun _ => hcore.cnt, .of_core hcore⟩

/-- One call that does not meet it. -/
theorem life_step_bad {l l' : Life} {o : Option Out} (h : LifeInv l) (op : LifeOp) (hok : LifeOk l op)
    (hc : ¬ CountOk l op) (hs : lifeStep l op = some (l', o)) : ¬ CountExact l' := by
  obtain ⟨s, live⟩ := l
  cases op with
  | init =>
    cases hs
    exact fun hexact => hc (hexact rfl)
  | setMaxSize maxSize taildrop => exact absurd trivial hc
  | destroy => exact absurd trivial hc
  | op op =>
    obtain ⟨rfl, hcall⟩ := hok
    cases op with
    | add ptr ptrPurged a =>
      have hcore : Core s := h.core rfl
      simp only [CountOk, Counts, Classical.not_imp] at hc
      have hmax : ¬ s.rfq.cnt < intMax := by rw [hcore.cnt]; exact hc.2
      simp [lifeStep, add_overflow hcore (fun hf => hf.1 hc.1) hmax ptr ptrPurged a] at hs
    | _ => exact absurd trivial hc

theorem unborn_inv : LifeInv unborn :=
  ⟨⟨nofun, .nil, nofun, .nil⟩, by decide, by decide, nofun, fun _ => rfl⟩

/-- **The count over the whole life**: along a run of `rd_fifoq_init`, adds, pops, releases, changes of the limits,
`rd_fifoq_destroy` and `rd_fifoq_init` again, nothing faults (no purge of an empty list, no failed assertion) and
`rfq_cnt` is the number of queued elements while the queue is initialised, if and only if each `rd_fifoq_init` finds
`rfq_cnt` at 0 and no add counts past `INT_MAX`. -/
theorem life_count_iff (ops : List LifeOp) (hok : lifeMachine.Admits unborn ops) :
    lifeMachine.Steps (fun _ _ _ l => CountExact l) unborn ops ↔ lifeMachine.Each CountOk unborn ops := by
  refine Machine.steps_iff_each (I := LifeInv) ?_ ?_ ops unborn unborn_inv hok
  · intro l op h hl hc
    exact life_step_ok h op hl hc
  · intro l op l' o h hl hc hs
    exact life_step_bad h op hl hc hs

/-- A queue that is emptied, destroyed and used again. -/
theorem life_count_iff_emptied :
    let ops : List LifeOp := [.init, .setMaxSize 1 0, .op (.add 7 false 0), .op (.pop 0 true 0), .destroy, .init,
      .op (.add 8 false 1), .op (.add 9 false 2)]
    lifeMachine.Admits unborn ops ∧ lifeMachine.Each CountOk unborn ops ∧
    (lifeMachine.Steps (fun _ _ _ l => CountExact l) unborn ops ↔ lifeMachine.Each CountOk unborn ops) :=
  ⟨by decide, by decide, life_count_iff _ (by decide)⟩

/-- A queue of one entry is destroyed with one element and initialised again: `rfq_cnt` is 1 and the list is empty, and
the next add follows the NULL pointer of an empty list. -/
theorem destroyed_count :
    let ops : List LifeOp := [.init, .setMaxSize 1 0, .op (.add 7 false 0), .destroy, .init]
    lifeMachine.Admits unborn (ops ++ [.op (.add 8 false 1)]) ∧
    (∃ l outs, lifeMachine.run unborn ops = some (l, outs) ∧ l.live = true ∧ l.state.rfq.cnt = 1 ∧
      l.state.rfq.q = [] ∧ ¬ CountExact l) ∧
    lifeMachine.run unborn (ops ++ [.op (.add 8 false 1)]) = none := by
  refine ⟨by decide, ⟨_, _, rfl, rfl, rfl, rfl, ?_⟩, rfl⟩
  intro h
  exact absurd (h rfl) (by decide)

end Librd.Fifoq
