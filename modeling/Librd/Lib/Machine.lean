import Mathlib.Data.List.Basic

/-!
# Machines with contracts and faults

A machine takes operations one after another. Each operation has a contract `Ok` that its caller has to respect, and
running it either faults (`none`: a failed assertion, a bad access) or gives a new state and an output. A list of
operations is *admitted* when every one of them respects its contract in the state it is called in.

* `Machine.run_inv`: an invariant that every admitted operation keeps without faulting holds after every admitted run;
* `Machine.run_hist`: the same for an invariant that also speaks about the history of operations and outputs;
* `Machine.run_keeps`: the same at the end of a run that does not fault, where operations may;
* `Machine.always_inv`: an invariant that every step keeps holds in every state of a run, as far as it goes;
* `Machine.each_iff`: two conditions that agree under an invariant are met by the same runs;
* `Machine.steps_iff_each`: where a condition on the state before an operation decides whether the operation does what
  is wanted of it, a whole run does what is wanted exactly when every operation meets the condition;
* `Machine.run_sim`: a machine that follows a total specification step by step gives the outputs of the specification;
* `Machine.run_sim_admits`: the same where the contracts are those of the specification.
-/

/-- Operations with a contract, on states, with outputs; `none` is a fault. -/
structure Machine (σ ι ο : Type*) where
  Ok : σ → ι → Prop
  step : σ → ι → Option (σ × ο)

namespace Machine

variable {σ ι ο τ : Type*} (M : Machine σ ι ο)

/-- The final state of a run and its outputs. -/
def run : σ → List ι → Option (σ × List ο)
  | s, [] => some (s, [])
  | s, i :: is => (M.step s i).bind fun p => (run p.1 is).map fun q => (q.1, p.2 :: q.2)

/-- `Q` holds of every operation in the state it is called in. -/
def Each (Q : σ → ι → Prop) : σ → List ι → Prop
  | _, [] => True
  | s, i :: is => Q s i ∧ match M.step s i with
    | none => True
    | some p => Each Q p.1 is

/-- `P` holds of every state of a run, the first and the last included. -/
def Always (P : σ → Prop) : σ → List ι → Prop
  | s, [] => P s
  | s, i :: is => P s ∧ match M.step s i with
    | none => True
    | some p => Always P p.1 is

/-- No operation of a run faults, and `P` holds of every one, its output and the states before and after it. -/
def Steps (P : σ → ι → ο → σ → Prop) : σ → List ι → Prop
  | _, [] => True
  | s, i :: is => ∃ s' o, M.step s i = some (s', o) ∧ P s i o s' ∧ Steps P s' is

/-- Every operation respects its contract when it is called. -/
def Admits (s : σ) (is : List ι) : Prop := M.Each M.Ok s is

instance Each.decidable (Q : σ → ι → Prop) [∀ s i, Decidable (Q s i)] :
    ∀ (s : σ) (is : List ι), Decidable (M.Each Q s is)
  | _, [] => .isTrue trivial
  | s, i :: is =>
    have : Decidable (match M.step s i with
        | none => True
        | some p => M.Each Q p.1 is) :=
      match M.step s i with
      | none => .isTrue trivial
      | some p => Each.decidable Q p.1 is
    inferInstanceAs (Decidable (Q s i ∧ _))

instance Admits.decidable [∀ s i, Decidable (M.Ok s i)] (s : σ) (is : List ι) : Decidable (M.Admits s is) :=
  Each.decidable M M.Ok s is

@[simp] theorem run_nil (s : σ) : M.run s [] = some (s, []) := rfl

variable {M}

theorem each_cons {Q : σ → ι → Prop} {s s' : σ} {i : ι} {is : List ι} {o : ο} (h : M.step s i = some (s', o)) :
    M.Each Q s (i :: is) ↔ Q s i ∧ M.Each Q s' is := by
  simp only [Each, h]

theorem always_cons {P : σ → Prop} {s s' : σ} {i : ι} {is : List ι} {o : ο} (h : M.step s i = some (s', o)) :
    M.Always P s (i :: is) ↔ P s ∧ M.Always P s' is := by
  simp only [Always, h]

theorem always_head {P : σ → Prop} {s : σ} {is : List ι} (h : M.Always P s is) : P s := by
  cases is with
  | nil => exact h
  | cons i is => exact h.1

theorem run_cons {s s' s'' : σ} {i : ι} {is : List ι} {o : ο} {os : List ο} (h : M.step s i = some (s', o))
    (hr : M.run s' is = some (s'', os)) : M.run s (i :: is) = some (s'', o :: os) := by
  simp [run, h, hr]

/-- The first operation of a run without a fault, and the rest of it. -/
theorem exists_of_run_cons {s s'' : σ} {i : ι} {is : List ι} {os : List ο} (hr : M.run s (i :: is) = some (s'', os)) :
    ∃ s' o os', M.step s i = some (s', o) ∧ M.run s' is = some (s'', os') ∧ os = o :: os' := by
  obtain ⟨⟨s', o⟩, h, hmap⟩ := Option.bind_eq_some_iff.1 hr
  obtain ⟨⟨s₂, os'⟩, hrest, heq⟩ := Option.map_eq_some_iff.1 hmap
  obtain ⟨rfl, rfl⟩ : s₂ = s'' ∧ o :: os' = os := by simpa using heq
  exact ⟨s', o, os', h, hrest, rfl⟩

theorem run_append {s s' s'' : σ} {is js : List ι} {os os' : List ο} (hr' : M.run s' js = some (s'', os'))
    (hr : M.run s is = some (s', os)) : M.run s (is ++ js) = some (s'', os ++ os') := by
  induction is generalizing s os with
  | nil =>
    obtain ⟨rfl, rfl⟩ : s = s' ∧ [] = os := by simpa using hr
    exact hr'
  | cons i is ih =>
    obtain ⟨s₁, o, os₁, h, hrest, rfl⟩ := exists_of_run_cons hr
    exact run_cons h (ih hrest)

theorem each_append {Q : σ → ι → Prop} {s s' : σ} {is js : List ι} {os : List ο} (hr : M.run s is = some (s', os)) :
    M.Each Q s (is ++ js) ↔ M.Each Q s is ∧ M.Each Q s' js := by
  induction is generalizing s os with
  | nil =>
    obtain ⟨rfl, -⟩ : s = s' ∧ [] = os := by simpa using hr
    exact (and_iff_right trivial).symm
  | cons i is ih =>
    obtain ⟨s₁, o, os₁, h, hrest, -⟩ := exists_of_run_cons hr
    rw [List.cons_append, each_cons h, each_cons h, ih hrest, and_assoc]

theorem each_of_forall {P : ι → Prop} {s : σ} {is : List ι} (hP : ∀ i ∈ is, P i) : M.Each (fun _ => P) s is := by
  induction is generalizing s with
  | nil => trivial
  | cons i is ih =>
    refine ⟨hP i List.mem_cons_self, ?_⟩
    cases M.step s i with
    | none => trivial
    | some p => exact ih fun j hj => hP j (List.mem_cons_of_mem i hj)

theorem each_and {P Q : σ → ι → Prop} {s : σ} {is : List ι} (hP : M.Each P s is) (hQ : M.Each Q s is) :
    M.Each (fun s i => P s i ∧ Q s i) s is := by
  induction is generalizing s with
  | nil => trivial
  | cons i is ih =>
    refine ⟨⟨hP.1, hQ.1⟩, ?_⟩
    cases h : M.step s i with
    | none => trivial
    | some p => exact ih ((each_cons h).1 hP).2 ((each_cons h).1 hQ).2

/-- **Histories**: an invariant of the state and the history so far that every operation meeting `Q` extends without
faulting holds after every run whose operations meet `Q`. -/
theorem run_hist {I : σ → List (ι × ο) → Prop} {Q : σ → ι → Prop}
    (hstep : ∀ s hist i, I s hist → Q s i → ∃ s' o, M.step s i = some (s', o) ∧ I s' (hist ++ [(i, o)])) :
    ∀ (is : List ι) (s : σ) (hist : List (ι × ο)), I s hist → M.Each Q s is →
      ∃ s' os, M.run s is = some (s', os) ∧ I s' (hist ++ is.zip os) := by
  intro is
  induction is with
  | nil =>
    intro s hist h _
    exact ⟨s, [], rfl, by simpa using h⟩
  | cons i is ih =>
    intro s hist h ha
    obtain ⟨s1, o, h1, hI⟩ := hstep s hist i h ha.1
    obtain ⟨s', os, hr, hI'⟩ := ih s1 _ hI ((each_cons h1).1 ha).2
    exact ⟨s', o :: os, run_cons h1 hr, by simpa using hI'⟩

/-- The same for operations that may fault, at the end of a run without a fault. -/
theorem run_keeps {I : σ → List (ι × ο) → Prop} {Q : σ → ι → Prop}
    (hstep : ∀ s hist i s' o, I s hist → Q s i → M.step s i = some (s', o) → I s' (hist ++ [(i, o)])) :
    ∀ {is : List ι} {s s' : σ} {os : List ο} (hist : List (ι × ο)), I s hist → M.Each Q s is →
      M.run s is = some (s', os) → I s' (hist ++ is.zip os) := by
  intro is
  induction is with
  | nil =>
    intro s s' os hist h _ hr
    obtain ⟨rfl, rfl⟩ : s = s' ∧ [] = os := by simpa using hr
    simpa using h
  | cons i is ih =>
    intro s s' os hist h hQ hr
    obtain ⟨s1, o, os', h1, hrest, rfl⟩ := exists_of_run_cons hr
    have hI := ih _ (hstep s hist i s1 o h hQ.1 h1) ((each_cons h1).1 hQ).2 hrest
    simpa using hI

/-- There is an output for every operation. -/
theorem run_length {is : List ι} {s s' : σ} {os : List ο} (hr : M.run s is = some (s', os)) :
    os.length = is.length := by
  induction is generalizing s os with
  | nil =>
    obtain ⟨-, rfl⟩ : s = s' ∧ [] = os := by simpa using hr
    rfl
  | cons i is ih =>
    obtain ⟨s1, o, os', -, hrest, rfl⟩ := exists_of_run_cons hr
    rw [List.length_cons, List.length_cons, ih hrest]

/-- **Safety**: what every operation meeting `Q` keeps, where it does not fault, holds in every state of a run. -/
theorem always_inv {I P : σ → Prop} {Q : σ → ι → Prop} (hI : ∀ s, I s → P s)
    (hstep : ∀ s i s' o, I s → Q s i → M.step s i = some (s', o) → I s') :
    ∀ (is : List ι) (s : σ), I s → M.Each Q s is → M.Always P s is := by
  intro is
  induction is with
  | nil =>
    intro s h _
    exact hI s h
  | cons i is ih =>
    intro s h hQ
    refine ⟨hI s h, ?_⟩
    cases h1 : M.step s i with
    | none => trivial
    | some p => exact ih p.1 (hstep s i p.1 p.2 h hQ.1 h1) ((each_cons h1).1 hQ).2

/-- What an invariant and `Q` say of an operation holds of every operation of a run. -/
theorem each_inv {I : σ → Prop} {Q R : σ → ι → Prop} (hR : ∀ s i, I s → Q s i → R s i)
    (hstep : ∀ s i s' o, I s → Q s i → M.step s i = some (s', o) → I s') :
    ∀ (is : List ι) (s : σ), I s → M.Each Q s is → M.Each R s is := by
  intro is
  induction is with
  | nil =>
    intro s _ _
    trivial
  | cons i is ih =>
    intro s h hQ
    refine ⟨hR s i h hQ.1, ?_⟩
    cases h1 : M.step s i with
    | none => trivial
    | some p => exact ih p.1 (hstep s i p.1 p.2 h hQ.1 h1) ((each_cons h1).1 hQ).2

/-- Two conditions that agree under an invariant are met by the same runs. -/
theorem each_iff {I : σ → Prop} {C P Q : σ → ι → Prop} (hiff : ∀ s i, I s → C s i → (P s i ↔ Q s i))
    (hstep : ∀ s i s' o, I s → C s i → M.step s i = some (s', o) → I s') (is : List ι) {s : σ} (h : I s)
    (hC : M.Each C s is) : M.Each P s is ↔ M.Each Q s is := by
  constructor
  · intro hP
    apply each_inv (fun s i hs hboth => (hiff s i hs hboth.1).1 hboth.2) _ is s h (each_and hC hP)
    exact fun s i s' o hs hboth => hstep s i s' o hs hboth.1
  · intro hQ
    apply each_inv (fun s i hs hboth => (hiff s i hs hboth.1).2 hboth.2) _ is s h (each_and hC hQ)
    exact fun s i s' o hs hboth => hstep s i s' o hs hboth.1

/-- **Invariants**: what every admitted operation keeps without faulting holds after every admitted run. -/
theorem run_inv {I : σ → Prop} (hstep : ∀ s i, I s → M.Ok s i → ∃ s' o, M.step s i = some (s', o) ∧ I s')
    (is : List ι) {s : σ} (h : I s) (ha : M.Admits s is) : ∃ s' os, M.run s is = some (s', os) ∧ I s' :=
  run_hist (I := fun s _ => I s) (fun s _ i hs hok => hstep s i hs hok) is s [] h ha

/-- **Exact conditions**: if, in states with the invariant `I` and for calls that respect `C`, an operation that meets
`Q` does not fault, has the effect `P` and keeps `I`, and one that does not meet `Q` faults or has another effect, then
a run goes as wanted if and only if each of its operations meets `Q`. -/
theorem steps_iff_each {I : σ → Prop} {C Q : σ → ι → Prop} {P : σ → ι → ο → σ → Prop}
    (hgood : ∀ s i, I s → C s i → Q s i → ∃ s' o, M.step s i = some (s', o) ∧ P s i o s' ∧ I s')
    (hbad : ∀ s i s' o, I s → C s i → ¬ Q s i → M.step s i = some (s', o) → ¬ P s i o s') :
    ∀ (is : List ι) (s : σ), I s → M.Each C s is → (M.Steps P s is ↔ M.Each Q s is) := by
  intro is
  induction is with
  | nil =>
    intro s _ _
    exact iff_of_true trivial trivial
  | cons i is ih =>
    intro s hI hC
    constructor
    · rintro ⟨s', o, h, hP, hs⟩
      have hQ : Q s i := by
        by_contra hQ
        exact hbad s i s' o hI hC.1 hQ h hP
      obtain ⟨s1, o1, h1, -, hI1⟩ := hgood s i hI hC.1 hQ
      obtain ⟨rfl, rfl⟩ : s1 = s' ∧ o1 = o := by simpa [h1] using h
      exact (each_cons h).2 ⟨hQ, (ih s1 hI1 ((each_cons h).1 hC).2).1 hs⟩
    · intro hQ
      obtain ⟨s1, o1, h1, hP, hI1⟩ := hgood s i hI hC.1 hQ.1
      refine ⟨s1, o1, h1, hP, ?_⟩
      exact (ih s1 hI1 ((each_cons h1).1 hC).2).2 ((each_cons h1).1 hQ).2

/-- The final state and the outputs of a total specification. -/
def specRun (spec : τ → ι → τ × ο) : τ → List ι → τ × List ο
  | a, [] => (a, [])
  | a, i :: is => ((specRun spec (spec a i).1 is).1, (spec a i).2 :: (specRun spec (spec a i).1 is).2)

/-- **Simulation**: a machine related to a total specification, whose operations meeting `Q` keep the relation and give
the outputs of the specification, gives the outputs of the specification along every run whose operations meet `Q`. -/
theorem run_sim {spec : τ → ι → τ × ο} {R : σ → τ → Prop} {Q : σ → ι → Prop}
    (hstep : ∀ s a i, R s a → Q s i → ∃ s', M.step s i = some (s', (spec a i).2) ∧ R s' (spec a i).1) :
    ∀ (is : List ι) (s : σ) (a : τ), R s a → M.Each Q s is →
      ∃ s', M.run s is = some (s', (specRun spec a is).2) ∧ R s' (specRun spec a is).1 := by
  intro is
  induction is with
  | nil =>
    intro s a h _
    exact ⟨s, rfl, h⟩
  | cons i is ih =>
    intro s a h hQ
    obtain ⟨s1, h1, hR⟩ := hstep s a i h hQ.1
    obtain ⟨s', hr, hR'⟩ := ih s1 _ hR ((each_cons h1).1 hQ).2
    exact ⟨s', run_cons h1 hr, hR'⟩

/-- The same where the contracts are those of the specification, so that they speak of its states only. -/
theorem run_sim_admits {A : Machine τ ι ο} {spec : τ → ι → τ × ο} {R : σ → τ → Prop}
    (hspec : ∀ a i, A.step a i = some (spec a i))
    (hstep : ∀ s a i, R s a → A.Ok a i → ∃ s', M.step s i = some (s', (spec a i).2) ∧ R s' (spec a i).1) :
    ∀ (is : List ι) (s : σ) (a : τ), R s a → A.Admits a is →
      ∃ s', M.run s is = some (s', (specRun spec a is).2) ∧ R s' (specRun spec a is).1 := by
  intro is
  induction is with
  | nil =>
    intro s a h _
    exact ⟨s, rfl, h⟩
  | cons i is ih =>
    intro s a h hQ
    obtain ⟨s1, h1, hR⟩ := hstep s a i h hQ.1
    obtain ⟨s', hr, hR'⟩ := ih s1 _ hR ((each_cons (hspec a i)).1 hQ).2
    exact ⟨s', run_cons h1 hr, hR'⟩

end Machine
