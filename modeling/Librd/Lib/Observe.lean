import Librd.Lib.Machine

/-!
# Runs with additional calls

Two runs of a machine make the same calls, but the first one makes additional ones in between (`Call`). `beside` steps
both of them, so that a condition can speak of the two states at every call. If a relation between the states is kept by
the common calls, which give the same outputs where it holds, and by the additional ones, then all common outputs are
the same (`observe_eq`).
-/

/-- A call of both runs, or of the first one only. -/
inductive Call (ι : Type*)
  | common (i : ι)
  | extra (i : ι)

namespace Call

variable {ι ο : Type*}

/-- The operation of the first run. -/
def op : Call ι → ι
  | common i => i
  | extra i => i

/-- The operation of the second run, if there is one. -/
def common? : Call ι → Option ι
  | common i => some i
  | extra _ => none

/-- The outputs of the common calls. -/
def commonOuts : List (Call ι) → List ο → List ο
  | common _ :: cs, o :: os => o :: commonOuts cs os
  | extra _ :: cs, _ :: os => commonOuts cs os
  | _, _ => []

end Call

namespace Machine

variable {σ ι ο : Type*} (M : Machine σ ι ο)

/-- The two runs side by side. -/
def beside : Machine (σ × σ) (Call ι) (ο × Option ο) where
  Ok
    | (s, t), .common i => M.Ok s i ∧ M.Ok t i
    | (s, _), .extra i => M.Ok s i
  step
    | (s, t), .common i => (M.step s i).bind fun p => (M.step t i).map fun q => ((p.1, q.1), (p.2, some q.2))
    | (s, t), .extra i => (M.step s i).map fun p => ((p.1, t), (p.2, none))

variable {M}

/-- **Observations.** Additional calls that keep a relation under which the common calls give the same outputs are not
seen. -/
theorem observe_eq {R : σ → σ → Prop} {Q : σ × σ → Call ι → Prop}
    (hcommon : ∀ s t i, R s t → Q (s, t) (.common i) → M.step s i = none ∧ M.step t i = none ∨
      ∃ s' t' o, M.step s i = some (s', o) ∧ M.step t i = some (t', o) ∧ R s' t')
    (hextra : ∀ s t i, R s t → Q (s, t) (.extra i) → ∃ s' o, M.step s i = some (s', o) ∧ R s' t) :
    ∀ (calls : List (Call ι)) (s t : σ), R s t → M.beside.Each Q (s, t) calls →
      ((M.run s (calls.map Call.op)).map fun r => Call.commonOuts calls r.2) =
        (M.run t (calls.filterMap Call.common?)).map Prod.snd := by
  intro calls
  induction calls with
  | nil =>
    intro s t _ _
    rfl
  | cons call calls ih =>
    intro s t hR hQ
    cases call with
    | common i =>
      rcases hcommon s t i hR hQ.1 with ⟨hs, ht⟩ | ⟨s', t', o, hs, ht, hR'⟩
      · simp [run, Call.op, Call.common?, hs, ht]
      · have hstep : M.beside.step (s, t) (.common i) = some ((s', t'), (o, some o)) := by simp [beside, hs, ht]
        have hrest := ih s' t' hR' ((each_cons hstep).1 hQ).2
        have hmap := congrArg (Option.map (List.cons o)) hrest
        simp only [Option.map_map] at hmap
        simp only [List.map_cons, List.filterMap_cons, Call.op, Call.common?, run, hs, ht, Option.bind_some,
          Option.map_map]
        exact hmap
    | extra i =>
      obtain ⟨s', o, hs, hR'⟩ := hextra s t i hR hQ.1
      have hstep : M.beside.step (s, t) (.extra i) = some ((s', t), (o, none)) := by simp [beside, hs]
      have hrest := ih s' t hR' ((each_cons hstep).1 hQ).2
      simp only [List.map_cons, List.filterMap_cons, Call.op, Call.common?, run, hs, Option.bind_some, Option.map_map]
      exact hrest

end Machine
