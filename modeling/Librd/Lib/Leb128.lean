import Mathlib.Data.Nat.Digits.Defs
import Mathlib.Data.Nat.Size
import Mathlib.Algebra.Order.Ring.Nat
import Mathlib.Tactic.Ring

/-!
# Little-endian digits with a continuation mark

A number in base `2 ^ w`, least significant digit first, every digit but the last one marked by adding `2 ^ w`: the
shape of variable length integers, with `w = 7` for bytes. The digits without their marks are those of the number
(`ofDigits_marked`). Their number is the length in bits divided by `w`, rounded up, and at least one (`length_marked`).
-/

namespace Leb128

/-- The marked digits of `n` in base `2 ^ w`. -/
def marked (w : Nat) (n : Nat) : List Nat :=
  if h : n < 2 ^ w ∨ w = 0 then [n] else (n % 2 ^ w + 2 ^ w) :: marked w (n / 2 ^ w)
termination_by n
decreasing_by
  have hw : 1 < 2 ^ w := Nat.one_lt_two_pow (fun e => h (.inr e))
  exact Nat.div_lt_self (by omega) hw

variable {w : Nat}

theorem marked_last {n : Nat} (h : n < 2 ^ w) : marked w n = [n] := by
  rw [marked, dif_pos (.inl h)]

theorem marked_more (hw : 0 < w) {n : Nat} (h : 2 ^ w ≤ n) :
    marked w n = (n % 2 ^ w + 2 ^ w) :: marked w (n / 2 ^ w) := by
  rw [marked, dif_neg (by omega)]

theorem length_pos (n : Nat) : 0 < (marked w n).length := by
  rw [marked]
  split <;> simp

/-- The shape of the digits: all but the last one are marked. -/
theorem marked_eq (w n : Nat) : ∃ ds d, marked w n = ds ++ [d] ∧ (∀ e ∈ ds, 2 ^ w ≤ e ∧ e < 2 ^ (w + 1)) ∧
    (0 < w → d < 2 ^ w) := by
  induction n using Nat.strongRecOn with
  | ind n ih =>
    rw [marked]
    split
    · rename_i h
      exact ⟨[], n, rfl, by simp, fun hw => h.resolve_right (by omega)⟩
    · rename_i h
      have hw : 1 < 2 ^ w := Nat.one_lt_two_pow (fun e => h (.inr e))
      obtain ⟨ds, d, heq, hds, hd⟩ := ih (n / 2 ^ w) (Nat.div_lt_self (by omega) hw)
      refine ⟨(n % 2 ^ w + 2 ^ w) :: ds, d, by rw [heq]; rfl, ?_, hd⟩
      have hmod := Nat.mod_lt n (show 0 < 2 ^ w by omega)
      have hpow : 2 ^ (w + 1) = 2 * 2 ^ w := by rw [Nat.pow_succ, Nat.mul_comm]
      intro e he
      rcases List.mem_cons.1 he with rfl | he
      · omega
      · exact hds e he

/-- The value of the digits without their marks. -/
theorem ofDigits_marked (hw : 0 < w) (n : Nat) : Nat.ofDigits (2 ^ w) ((marked w n).map (· % 2 ^ w)) = n := by
  induction n using Nat.strongRecOn with
  | ind n ih =>
    rcases Nat.lt_or_ge n (2 ^ w) with h | h
    · rw [marked_last h, List.map_singleton, Nat.ofDigits_singleton, Nat.mod_eq_of_lt h]
    · have hpos : 1 < 2 ^ w := Nat.one_lt_two_pow (by omega)
      rw [marked_more hw h, List.map_cons, Nat.ofDigits_cons, ih _ (Nat.div_lt_self (by omega) hpos),
        Nat.add_mod_right, Nat.mod_mod, Nat.mod_add_div]

/-- Numbers of at most `k` digits. -/
theorem length_le_iff (hw : 0 < w) : ∀ {k : Nat} (n : Nat), (marked w n).length ≤ k + 1 ↔ n < 2 ^ (w * (k + 1))
  | 0, n => by
    rcases Nat.lt_or_ge n (2 ^ w) with h | h
    · simp [marked_last h, h]
    · have := length_pos (w := w) (n / 2 ^ w)
      rw [marked_more hw h, List.length_cons, Nat.zero_add, Nat.mul_one]
      omega
  | k + 1, n => by
    rcases Nat.lt_or_ge n (2 ^ w) with h | h
    · have h2 : 2 ^ w ≤ 2 ^ (w * (k + 1 + 1)) := Nat.pow_le_pow_right (by omega) (Nat.le_mul_of_pos_right w (by omega))
      simp only [marked_last h, List.length_singleton]
      omega
    · rw [marked_more hw h, List.length_cons, Nat.succ_le_succ_iff, length_le_iff hw (n / 2 ^ w),
        Nat.div_lt_iff_lt_mul (Nat.two_pow_pos w), ← Nat.pow_add]
      rw [show w * (k + 1) + w = w * (k + 1 + 1) by ring]

/-- **The number of digits**: the length in bits divided by `w`, rounded up, and at least one. -/
theorem length_marked (hw : 0 < w) (n : Nat) : (marked w n).length = max 1 ((n.size + (w - 1)) / w) := by
  have key : ∀ k, (marked w n).length ≤ k + 1 ↔ max 1 ((n.size + (w - 1)) / w) ≤ k + 1 := by
    intro k
    rw [length_le_iff hw, ← Nat.size_le, Nat.max_le, Nat.div_le_iff_le_mul_add_pred hw]
    omega
  have h0 := length_pos (w := w) n
  have h1 := (key ((marked w n).length - 1)).1 (by omega)
  have h2 := (key (max 1 ((n.size + (w - 1)) / w) - 1)).2 (by omega)
  omega

end Leb128
