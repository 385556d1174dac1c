import Librd.Log.Log

/-!
# Debug contexts: nesting

A push counts the wanted depth, and the actual one unless the table is full; a pop counts both back. So a push into a
full table is lost for good (`Track`): the pops after it bring the actual depth to 0 before the wanted one, and the next
one fails its assertion. The text of a push never gets into the table either: every entry stays `NULL`. What is left is
that a run of calls whose depth stays below the size of the table, and that pops all it pushed, ends with an empty table
(`contexts_right_iff`).
-/

namespace Librd.Log

/-- No pop comes without a push before it; `d` pushes are open at the start. -/
def Nested : Nat → List Op → Prop
  | _, [] => True
  | d, .push _ _ _ :: ops => Nested (d + 1) ops
  | 0, .pop :: _ => False
  | d + 1, .pop :: ops => Nested d ops

/-- The depth stays below the size of the table, and every push has a string for its argument. -/
def Shallow : Nat → List Op → Prop
  | _, [] => True
  | d, .push _ args _ :: ops => d + 1 < ctxsMax ∧ vsnprintfS ctxSize args ≠ none ∧ Shallow (d + 1) ops
  | d, .pop :: ops => Shallow (d - 1) ops

/-- The texts of the pushes that are not popped, outermost first, where `format` says what text a push is for. -/
def unmatched (format : Text → List Arg → Text) : List Text → List Op → List Text
  | st, [] => st
  | st, .push fmt args _ :: ops => unmatched format (st ++ [format fmt args]) ops
  | st, .pop :: ops => unmatched format st.dropLast ops

/-- The table holds the outermost texts, as many of them as fit; the last entry may be in use or not. -/
structure Holds (s : State) (texts : List Text) : Prop where
  depth : s.idx = min texts.length (ctxsMax - 1) ∨ s.idx = min texts.length ctxsMax
  text : ∀ i : Nat, i < s.idx → ∃ p t, s.ctxs[i]? = some (some p) ∧ s.heap p = some t ∧
    texts[i]?.map (List.take (ctxSize - 1)) = some t

instance Nested.decidable : ∀ (d : Nat) (ops : List Op), Decidable (Nested d ops)
  | _, [] => .isTrue trivial
  | d, .push _ _ _ :: ops => Nested.decidable (d + 1) ops
  | 0, .pop :: _ => .isFalse id
  | d + 1, .pop :: ops => Nested.decidable d ops

instance Shallow.decidable : ∀ (d : Nat) (ops : List Op), Decidable (Shallow d ops)
  | _, [] => .isTrue trivial
  | d, .push _ args _ :: ops =>
    have := Shallow.decidable (d + 1) ops
    inferInstanceAs (Decidable (d + 1 < ctxsMax ∧ vsnprintfS ctxSize args ≠ none ∧ Shallow (d + 1) ops))
  | d, .pop :: ops => Shallow.decidable (d - 1) ops

/-! ## The two depths -/

/-- At the depth `d`, with `lost` pushes that found the table full. -/
structure Track (s : State) (d lost : Nat) : Prop where
  wanted : s.wanted = d
  idx : s.idx = (d : Int) - lost
  lost_le : lost ≤ d
  room : s.idx < ctxsMax
  ctxs : s.ctxs = List.replicate ctxsMax none

theorem start_track : Track start 0 0 := ⟨rfl, rfl, le_rfl, by decide, rfl⟩

section Calls

variable {s s' : State} {d lost : Nat} {fmt : Text} {args : List Arg} {buf : Addr}

/-- **A push**: its text is made if there is room in the table; otherwise it is lost. -/
theorem Track.push (h : Track s d lost) (hpush : dbgCtxPush s fmt args buf = some s') :
    (s.idx + 1 < ctxsMax ∧ vsnprintfS ctxSize args ≠ none ∧ Track s' (d + 1) lost) ∨ Track s' (d + 1) (lost + 1) := by
  obtain ⟨wanted, hincr, hpush⟩ := Option.bind_eq_some_iff.1 hpush
  have hwanted : wanted = ((d + 1 : Nat) : Int) := by
    rw [incr, h.wanted] at hincr
    split at hincr
    · exact (Option.some.inj hincr).symm
    · cases hincr
  have hidx := h.idx
  have hroom := h.room
  split at hpush
  · -- the table is full
    next hfull =>
      obtain rfl := Option.some.inj hpush
      refine .inr ⟨hwanted, ?_, Nat.succ_le_succ h.lost_le, hroom, h.ctxs⟩
      show s.idx = ((d + 1 : Nat) : Int) - ((lost + 1 : Nat) : Int)
      omega
  · next hfree =>
      obtain ⟨text, htext, hpush⟩ := Option.bind_eq_some_iff.1 hpush
      obtain rfl := Option.some.inj hpush
      refine .inl ⟨by omega, by rw [htext]; exact Option.some_ne_none text, hwanted, ?_, ?_, ?_, h.ctxs⟩
      · show s.idx + 1 = ((d + 1 : Nat) : Int) - lost
        omega
      · exact h.lost_le.trans (Nat.le_succ d)
      · show s.idx + 1 < ctxsMax
        omega

/-- **A pop.** -/
theorem Track.pop (h : Track s (d + 1) lost) (hpop : dbgCtxPop s = some s') : Track s' d lost := by
  have hidx := h.idx
  have hroom := h.room
  obtain ⟨-, -, hpop⟩ := Option.bind_eq_some_iff.1 hpop
  obtain ⟨_, hguard, hpop⟩ := Option.bind_eq_some_iff.1 hpop
  obtain ⟨ctx, -, hpop⟩ := Option.bind_eq_some_iff.1 hpop
  obtain ⟨heap, -, hpop⟩ := Option.bind_eq_some_iff.1 hpop
  obtain rfl := Option.some.inj hpop
  have hpos : s.idx > 0 := by
    by_contra hnot
    have hnone : (guard (s.idx > 0) : Option Unit) = none := if_neg hnot
    rw [hnone] at hguard
    cases hguard
  refine ⟨?_, ?_, by omega, ?_, h.ctxs⟩
  · show s.wanted - 1 = d
    rw [h.wanted]
    omega
  · show s.idx - 1 = (d : Int) - lost
    omega
  · show s.idx - 1 < ctxsMax
    omega

/-- A push that there is room for. -/
theorem Track.push_ok (h : Track s d 0) (hroom : d + 1 < ctxsMax) (hargs : vsnprintfS ctxSize args ≠ none)
    (fmt : Text) (buf : Addr) : ∃ s', dbgCtxPush s fmt args buf = some s' ∧ Track s' (d + 1) 0 := by
  obtain ⟨text, htext⟩ := Option.ne_none_iff_exists'.1 hargs
  have hmax : ctxsMax = 32 := rfl
  have hidx := h.idx
  have hincr : incr s.wanted = some ((d : Int) + 1) := by
    have hint : intMax = 2147483647 := rfl
    rw [incr, h.wanted, if_pos (by omega)]
  have hpush : dbgCtxPush s fmt args buf =
      some { s with wanted := (d : Int) + 1, heap := Function.update s.heap buf (some text), idx := s.idx + 1 } := by
    rw [dbgCtxPush, hincr, Option.bind_eq_bind, Option.bind_some, if_neg (by omega), htext]
    rfl
  refine ⟨_, hpush, rfl, ?_, Nat.zero_le _, ?_, h.ctxs⟩
  · show s.idx + 1 = ((d + 1 : Nat) : Int) - ((0 : Nat) : Int)
    omega
  · show s.idx + 1 < ctxsMax
    omega

/-- A pop when no push was lost. -/
theorem Track.pop_ok (h : Track s (d + 1) 0) : ∃ s', dbgCtxPop s = some s' ∧ Track s' d 0 := by
  have hidx := h.idx
  have hroom := h.room
  have hwanted := h.wanted
  have hctx : s.ctxs[(s.idx - 1).toNat]? = some none := by
    rw [h.ctxs, List.getElem?_replicate, if_pos (by omega)]
  have hpop : dbgCtxPop s = some { s with wanted := s.wanted - 1, idx := s.idx - 1 } := by
    have h1 : (guard (s.wanted > 0) : Option Unit) = some () := if_pos (by omega)
    have h2 : (guard (s.idx > 0) : Option Unit) = some () := if_pos (by omega)
    simp only [dbgCtxPop, h1, h2, hctx, free, Option.bind_eq_bind, Option.bind_some]
    rfl
  exact ⟨_, hpop, h.pop hpop⟩

end Calls

/-! ## Runs -/

section Runs

variable {s : State} {d lost : Nat} {ops : List Op} {st : List Text}

/-- **A run without a fault**: the pushes that were lost stay lost. -/
theorem run_track (format : Text → List Arg → Text) {s' : State} {outs : List Unit} (h : Track s st.length lost)
    (hnest : Nested st.length ops) (hrun : machine.run s ops = some (s', outs)) :
    ∃ lost', Track s' (unmatched format st ops).length lost' ∧ lost ≤ lost' ∧ (lost' = 0 → Shallow st.length ops) := by
  induction ops generalizing s st lost outs with
  | nil =>
    obtain ⟨rfl, -⟩ : s = s' ∧ [] = outs := by simpa using hrun
    exact ⟨lost, h, le_rfl, fun _ => trivial⟩
  | cons op ops ih =>
    obtain ⟨s₁, o, os, hstep, hrest, -⟩ := Machine.exists_of_run_cons hrun
    obtain ⟨s₂, hcall, heq⟩ := Option.map_eq_some_iff.1 hstep
    obtain ⟨rfl, -⟩ := Prod.mk.inj heq
    cases op with
    | push fmt args buf =>
      have hlen : (st ++ [format fmt args]).length = st.length + 1 := List.length_append
      have hnest' : Nested (st ++ [format fmt args]).length ops := hlen ▸ hnest
      have hpush : dbgCtxPush s fmt args buf = some s₂ := hcall
      rcases h.push hpush with ⟨hroom, hargs, h'⟩ | h'
      · obtain ⟨lost', htrack, hle, hshallow⟩ := ih (hlen ▸ h') hnest' hrest
        refine ⟨lost', htrack, hle, fun h0 => ⟨?_, hargs, hlen ▸ hshallow h0⟩⟩
        have hidx := h.idx
        omega
      · obtain ⟨lost', htrack, hle, -⟩ := ih (hlen ▸ h') hnest' hrest
        exact ⟨lost', htrack, (Nat.le_succ lost).trans hle, fun h0 => absurd (h0 ▸ hle) (Nat.not_succ_le_zero lost)⟩
    | pop =>
      have hpos : st.length ≠ 0 := fun h0 => by
        rw [h0] at hnest
        exact hnest
      obtain ⟨n, hn⟩ := Nat.exists_eq_succ_of_ne_zero hpos
      have hlen : st.dropLast.length = n := by
        rw [List.length_dropLast, hn]
        rfl
      rw [hn] at h hnest
      obtain ⟨lost', htrack, hle, hshallow⟩ := ih (hlen.symm ▸ h.pop hcall) (hlen.symm ▸ hnest) hrest
      refine ⟨lost', htrack, hle, fun h0 => ?_⟩
      have hrest' := hshallow h0
      rw [hlen] at hrest'
      rw [hn]
      exact hrest'

/-- **A shallow run** has no fault and loses nothing. -/
theorem run_shallow (h : Track s d 0) (hnest : Nested d ops) (hshallow : Shallow d ops) :
    ∃ s' outs, machine.run s ops = some (s', outs) := by
  induction ops generalizing s d with
  | nil => exact ⟨s, [], rfl⟩
  | cons op ops ih =>
    cases op with
    | push fmt args buf =>
      obtain ⟨hroom, hargs, hshallow⟩ := hshallow
      obtain ⟨s₁, hpush, h₁⟩ := h.push_ok hroom hargs fmt buf
      obtain ⟨s', outs, hrest⟩ := ih h₁ hnest hshallow
      have hstep : machine.step s (.push fmt args buf) = some (s₁, ()) := congrArg (Option.map (·, ())) hpush
      exact ⟨s', () :: outs, Machine.run_cons hstep hrest⟩
    | pop =>
      cases d with
      | zero => exact hnest.elim
      | succ d =>
        obtain ⟨s₁, hpop, h₁⟩ := h.pop_ok
        obtain ⟨s', outs, hrest⟩ := ih h₁ hnest hshallow
        have hstep : machine.step s .pop = some (s₁, ()) := congrArg (Option.map (·, ())) hpop
        exact ⟨s', () :: outs, Machine.run_cons hstep hrest⟩

/-- A table that holds its texts holds none. -/
theorem Track.empty {texts : List Text} (h : Track s texts.length lost) (hholds : Holds s texts) : texts = [] := by
  cases texts with
  | nil => rfl
  | cons text texts =>
    have hmax : ctxsMax = 32 := rfl
    have hpos : ((0 : Nat) : Int) < s.idx := by
      rw [List.length_cons] at *
      rcases hholds.depth with hd | hd <;> rw [List.length_cons] at hd <;> omega
    obtain ⟨p, t, hctx, -⟩ := hholds.text 0 hpos
    rw [h.ctxs] at hctx
    cases hctx

end Runs

/-- **Debug contexts.** A run of pushes and pops, none of these without a push, fails no assertion and leaves the
texts of the pushes that are open in the table if and only if its depth stays below the size of the table and no
push is open. -/
theorem contexts_right_iff (format : Text → List Arg → Text) {ops : List Op} (hnest : Nested 0 ops) :
    (∃ s outs, machine.run start ops = some (s, outs) ∧ Holds s (unmatched format [] ops)) ↔
      Shallow 0 ops ∧ unmatched format [] ops = [] := by
  have hstart : Track start ([] : List Text).length 0 := start_track
  constructor
  · rintro ⟨s, outs, hrun, hholds⟩
    obtain ⟨lost, htrack, -, hshallow⟩ := run_track format hstart hnest hrun
    have hempty := htrack.empty hholds
    have hlost : lost = 0 := by
      have hle := htrack.lost_le
      rw [hempty] at hle
      exact Nat.le_zero.1 hle
    exact ⟨hshallow hlost, hempty⟩
  · rintro ⟨hshallow, hempty⟩
    obtain ⟨s, outs, hrun⟩ := run_shallow start_track hnest hshallow
    obtain ⟨lost, htrack, -, -⟩ := run_track format hstart hnest hrun
    have hidx : s.idx = 0 := by
      have hle := htrack.lost_le
      have hidx := htrack.idx
      rw [hempty] at hle hidx
      rw [List.length_nil] at hle hidx
      omega
    rw [hempty]
    refine ⟨s, outs, hrun, .inl hidx, fun i hi => ?_⟩
    rw [hidx] at hi
    omega

/-- A push and a pop. -/
theorem contexts_right_pair :
    (∃ s outs, machine.run start [.push [] [.str ['a']] 1, .pop] = some (s, outs) ∧
      Holds s (unmatched (fun _ _ => ['a']) [] [.push [] [.str ['a']] 1, .pop])) :=
  (contexts_right_iff (fun _ _ => ['a']) (by decide)).2 (by decide)

/-- One push: the entry of the table is `NULL`. And with 32 pushes the last of as many pops fails its assertion. -/
theorem context_not_kept : (∃ s outs, machine.run start [.push ['%', 's'] [.str ['a']] 1] = some (s, outs) ∧
      s.idx = 1 ∧ s.ctxs[0]? = some none ∧
      ¬Holds s (unmatched (fun _ _ => ['a']) [] [.push ['%', 's'] [.str ['a']] 1])) ∧
    Nested 0 (List.replicate 32 (.push ['%', 's'] [.str ['a']] 1) ++ List.replicate 32 .pop) ∧
    machine.run start (List.replicate 32 (.push ['%', 's'] [.str ['a']] 1) ++ List.replicate 32 .pop) = none := by
  refine ⟨⟨_, _, rfl, rfl, rfl, fun hholds => ?_⟩, by decide, rfl⟩
  obtain ⟨p, t, hctx, -⟩ := hholds.text 0 (by decide)
  cases hctx

end Librd.Log
