import Mathlib.Logic.Basic

/-!
# Traced computations

A computation that can fail, together with what it accessed: `Traced σ ε α` is a log of accesses and a result in
`Except ε α`. What a computation accessed before it failed is in its log.

A program with its accesses is a copy of the program in this monad. That the copy is one is shown by its result
(`res_bind`, `res_lift`): without the log it is the program. Properties of all accesses go through sequences in the
order of the program (`all_bind`): what comes later counts only where the results before allow it to be reached.
`Follows l x` says that the accesses are `l`, as far as the computation gets.
-/

universe u v w

/-- What was accessed, and the result. -/
structure Traced (σ : Type u) (ε : Type v) (α : Type w) where
  log : List σ
  res : Except ε α

namespace Traced

variable {σ : Type u} {ε : Type v} {α β : Type w}

instance : Monad (Traced σ ε) where
  pure a := ⟨[], .ok a⟩
  bind x f := match x.res with
    | .ok a => ⟨x.log ++ (f a).log, (f a).res⟩
    | .error e => ⟨x.log, .error e⟩

/-- A computation that accesses nothing. -/
def lift (x : Except ε α) : Traced σ ε α := ⟨[], x⟩

@[simp] theorem res_pure (a : α) : (pure a : Traced σ ε α).res = .ok a := rfl

@[simp] theorem log_pure (a : α) : (pure a : Traced σ ε α).log = [] := rfl

@[simp] theorem res_lift (x : Except ε α) : (lift x : Traced σ ε α).res = x := rfl

@[simp] theorem log_lift (x : Except ε α) : (lift x : Traced σ ε α).log = [] := rfl

/-- Without the logs, sequences are sequences. -/
@[simp] theorem res_bind (x : Traced σ ε α) (f : α → Traced σ ε β) : (x >>= f).res = x.res >>= fun a => (f a).res := by
  obtain ⟨log, res⟩ := x
  cases res <;> rfl

theorem res_bind_ok {x : Traced σ ε α} {f : α → Traced σ ε β} {a : α} (h : x.res = .ok a) :
    (x >>= f).res = (f a).res := by
  rw [res_bind, h]
  rfl

theorem log_bind_ok {x : Traced σ ε α} {f : α → Traced σ ε β} {a : α} (h : x.res = .ok a) :
    (x >>= f).log = x.log ++ (f a).log := by
  obtain ⟨log, res⟩ := x
  cases h
  rfl

theorem log_bind_error {x : Traced σ ε α} {f : α → Traced σ ε β} {e : ε} (h : x.res = .error e) :
    (x >>= f).log = x.log := by
  obtain ⟨log, res⟩ := x
  cases h
  rfl

/-- All that was accessed satisfies `P`. -/
def All (P : σ → Prop) (x : Traced σ ε α) : Prop := ∀ a ∈ x.log, P a

section All

variable {P : σ → Prop} {x : Traced σ ε α} {f : α → Traced σ ε β}

theorem All.mono {Q : σ → Prop} (h : All P x) (hPQ : ∀ a, P a → Q a) : All Q x := fun a ha => hPQ a (h a ha)

@[simp] theorem all_pure (a : α) : All P (pure a : Traced σ ε α) := fun _ h => absurd h List.not_mem_nil

@[simp] theorem all_lift (x : Except ε α) : All P (lift x : Traced σ ε α) := fun _ h => absurd h List.not_mem_nil

/-- Sequences: the rest counts where the first part has a result. -/
theorem all_bind : All P (x >>= f) ↔ All P x ∧ ∀ a, x.res = .ok a → All P (f a) := by
  cases h : x.res with
  | ok a =>
    rw [All, log_bind_ok h, List.forall_mem_append]
    exact and_congr_right fun _ => ⟨fun hf b hb => Except.ok.inj hb ▸ hf, fun hf => hf a rfl⟩
  | error e =>
    rw [All, log_bind_error h]
    exact ⟨fun hx => ⟨hx, fun _ hb => nomatch hb⟩, And.left⟩

/-- A sequence whose first part has a known result. -/
theorem all_bind_ok {a : α} (h : x.res = .ok a) : All P (x >>= f) ↔ All P x ∧ All P (f a) := by
  rw [all_bind]
  exact and_congr_right fun _ => ⟨fun hf => hf a h, fun hf b hb => Except.ok.inj (h.symm.trans hb) ▸ hf⟩

/-- A sequence whose first part fails. -/
theorem all_bind_error {e : ε} (h : x.res = .error e) : All P (x >>= f) ↔ All P x := by
  rw [All, log_bind_error h, All]

/-- A sequence whose first part accesses nothing. -/
theorem all_lift_bind {y : Except ε α} : All P (lift y >>= f) ↔ ∀ a, y = .ok a → All P (f a) := by
  rw [all_bind, and_iff_right (all_lift y), res_lift]

end All

/-- The log is `l`, or a start of it where the computation fails. -/
def Follows (l : List σ) (x : Traced σ ε α) : Prop := x.log <+: l ∧ ∀ a, x.res = .ok a → x.log = l

theorem Follows.lift (x : Except ε α) : Follows [] (lift x : Traced σ ε α) := ⟨List.prefix_rfl, fun _ _ => rfl⟩

theorem Follows.bind {l : List σ} {x : Traced σ ε α} {f : α → Traced σ ε β}
    (hf : ∀ a, x.res = .ok a → Follows l (f a)) : Follows (x.log ++ l) (x >>= f) := by
  cases h : x.res with
  | ok a =>
    obtain ⟨hlog, hall⟩ := hf a h
    rw [Follows, log_bind_ok h, res_bind_ok h]
    exact ⟨(List.prefix_append_right_inj _).2 hlog, fun b hb => congrArg (x.log ++ ·) (hall b hb)⟩
  | error e =>
    rw [Follows, log_bind_error h, res_bind, h]
    exact ⟨List.prefix_append _ _, fun b hb => nomatch hb⟩

end Traced
