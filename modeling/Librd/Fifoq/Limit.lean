import Librd.Fifoq.Elements

/-!
# FIFO queues: limits that change

`rd_fifoq_add0` drops one entry for the one it adds when it finds `rfq_max_size` entries or more (`add_length`), and
reports that one through `ptr_purged`. So a queue does not grow past its limit; but where `rd_fifoq_set_max_size` puts
the limit below the number of entries queued, adds keep their number as it is (`limit_kept`), and only pops bring it
down.
-/

namespace Librd.Fifoq

/-- The calls on an initialised queue: all but `rd_fifoq_init` and `rd_fifoq_destroy`. -/
def Using : LifeOp → Prop
  | .init => False
  | .destroy => False
  | .setMaxSize _ _ => True
  | .op _ => True

instance : (op : LifeOp) → Decidable (Using op)
  | .init | .destroy => .isFalse id
  | .setMaxSize _ _ | .op _ => .isTrue trivial

/-- An add under a limit returns, and leaves no more entries than the limit or than there were. -/
def AddLimited (l : Life) : LifeOp → Prop
  | .op (.add ptr ptrPurged rfqe) => l.state.rfq.maxSize ≠ 0 →
    ∃ l' o, lifeStep l (.op (.add ptr ptrPurged rfqe)) = some (l', o) ∧
      (l'.state.rfq.q.length : Int) ≤ max l.state.rfq.maxSize l.state.rfq.q.length
  | _ => True

/-- An initialised queue with its size set. -/
def started (maxSize taildrop : Int) : Life := ⟨start maxSize taildrop, true⟩

section Adds

variable {s : State} {ptr : Ptr} {ptrPurged : Bool} {a : Addr}

/-- **An add under a limit**: there is one entry more if there is room, and as many as before if there is none. -/
theorem add_length (h : Core s) (ha : s.heap a = none) (hmax : s.rfq.maxSize ≠ 0) :
    ∃ s' o, step s (.add ptr ptrPurged a) = some (s', o) ∧
      s'.rfq.q.length = if (s.rfq.q.length : Int) < s.rfq.maxSize then s.rfq.q.length + 1 else s.rfq.q.length := by
  have hcnt := h.cnt
  have hle := h.le_max
  by_cases hroom : (s.rfq.q.length : Int) < s.rfq.maxSize
  · have hfull : ¬ (s.rfq.maxSize ≠ 0 ∧ s.rfq.cnt ≥ s.rfq.maxSize) := fun hf => by omega
    have hincr : incr s.rfq.cnt = some (s.rfq.cnt + 1) := if_pos (by omega)
    refine ⟨_, _, by rw [step, add0_room h.inited hfull, hincr]; rfl, ?_⟩
    rw [if_pos hroom, List.length_append, List.length_singleton]
  · have hfull : s.rfq.maxSize ≠ 0 ∧ s.rfq.cnt ≥ s.rfq.maxSize := ⟨hmax, by omega⟩
    obtain ⟨s', o, hs, -, hlen, -⟩ := add_full h ptr ptrPurged ha hfull
    exact ⟨s', o, hs, by rw [if_neg hroom, hlen]⟩

/-- A call that returns leaves the queue well formed. -/
theorem step_returns_core {s' : State} {op : Op} {o : Out} (h : Core s) (hcall : Call s op)
    (hs : step s op = some (s', o)) : Core s' := by
  have hcounts : Counts s op := by
    by_contra hno
    cases op with
    | add ptr ptrPurged a =>
      simp only [Counts, Classical.not_imp] at hno
      have hmax : ¬ s.rfq.cnt < intMax := by rw [h.cnt]; exact hno.2
      rw [add_overflow h (fun hf => hf.1 hno.1) hmax] at hs
      cases hs
    | _ => exact hno trivial
  obtain ⟨s₁, o₁, hs₁, hcore⟩ := step_core h op hcall hcounts
  rw [hs] at hs₁
  cases hs₁
  exact hcore

end Adds

/-- Calls on an initialised queue that return leave it so. -/
theorem using_core {l l' : Life} {op : LifeOp} {o : Option Out} (h : l.live = true ∧ Core l.state)
    (hok : LifeOk l op ∧ Using op) (hs : lifeStep l op = some (l', o)) : l'.live = true ∧ Core l'.state := by
  obtain ⟨s, live⟩ := l
  obtain ⟨rfl, hcore⟩ := h
  obtain ⟨hok, huse⟩ := hok
  cases op with
  | init => exact huse.elim
  | destroy => exact huse.elim
  | setMaxSize maxSize taildrop =>
    obtain ⟨-, h0, hmax⟩ := hok
    cases hs
    exact ⟨rfl, { hcore with nonneg := h0, le_max := hmax }⟩
  | op op =>
    obtain ⟨⟨s', o'⟩, hstep, heq⟩ := Option.map_eq_some_iff.1 hs
    cases heq
    exact ⟨rfl, step_returns_core hcore hok.2 hstep⟩

theorem addLimited_of_core {l : Life} {op : LifeOp} (h : l.live = true ∧ Core l.state)
    (hok : LifeOk l op ∧ Using op) : AddLimited l op := by
  cases op with
  | op op =>
    cases op with
    | add ptr ptrPurged a =>
      intro hmax
      obtain ⟨s', o, hs, hlen⟩ := @add_length l.state ptr ptrPurged a h.2 hok.1.2 hmax
      refine ⟨⟨s', l.live⟩, some o, by rw [lifeStep, hs]; rfl, ?_⟩
      show (s'.rfq.q.length : Int) ≤ _
      rw [hlen]
      split <;> omega
    | _ => trivial
  | _ => trivial

/-- **Limits**: in every run of adds, pops, releases and changes of the limit, an add under a limit leaves at most as
many entries as the limit allows, or as there were before it. -/
theorem limit_kept (maxSize taildrop : Int) (h0 : 0 ≤ maxSize) (hmax : maxSize ≤ intMax) (ops : List LifeOp)
    (huse : ∀ op ∈ ops, Using op) (hok : lifeMachine.Admits (started maxSize taildrop) ops) :
    lifeMachine.Each AddLimited (started maxSize taildrop) ops := by
  refine Machine.each_inv (I := fun l => l.live = true ∧ Core l.state) ?_ ?_ ops _
    ⟨rfl, start_core taildrop h0 hmax⟩ (Machine.each_and hok (Machine.each_of_forall huse))
  · intro l op h hl
    exact addLimited_of_core h hl
  · intro l op l' o h hl hs
    exact using_core h hl hs

/-- A queue of two entries, a limit of one, and a pop before the next add. -/
theorem limit_kept_lowered :
    let ops : List LifeOp := [.op (.add 7 false 0), .op (.add 8 false 1), .setMaxSize 1 0, .op (.pop 0 true 0),
      .op (.add 9 true 2)]
    (∀ op ∈ ops, Using op) ∧ lifeMachine.Admits (started 0 0) ops ∧ lifeMachine.Each AddLimited (started 0 0) ops :=
  ⟨by decide, by decide, limit_kept 0 0 (by decide) (by decide) _ (by decide) (by decide)⟩

/-- Three entries are queued when the limit becomes one: after the next add there are three. -/
theorem limit_exceeded :
    let ops : List LifeOp := [.op (.add 7 false 0), .op (.add 8 false 1), .op (.add 9 false 2), .setMaxSize 1 0,
      .op (.add 10 true 3)]
    lifeMachine.Admits (started 0 0) ops ∧ ∃ l outs, lifeMachine.run (started 0 0) ops = some (l, outs) ∧
      l.state.rfq.maxSize = 1 ∧ l.state.rfq.q.length = 3 :=
  ⟨by decide, _, _, rfl, rfl, rfl⟩

end Librd.Fifoq
