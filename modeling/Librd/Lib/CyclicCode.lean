import Mathlib
import Librd.Lib.ShiftRegister

/-!
# Remainders of polynomials over two elements

A register stands for a polynomial whose constant coefficient is the highest bit (`toPoly`), and feedback for the
polynomial `gen p` of degree `w`. In the ring of remainders of `gen p`, a step is the product by the root (`elt_shift`).

* `toPoly_feeds`: feeding bits computes a remainder;
* `feeds_ne_of_burst`: differences within `w` bits show in it;
* `feeds_eq_iff_of_two`: a difference of two bits shows unless their distance is a multiple of the order of the root,
  which `orderOf_root` computes with registers.
-/

open Polynomial ShiftRegister

namespace CyclicCode

/-- A bit as a coefficient. -/
def bit (b : Bool) : ZMod 2 := if b then 1 else 0

theorem bit_xor (a b : Bool) : bit (a ^^ b) = bit a + bit b := by cases a <;> cases b <;> decide

theorem bit_injective : Function.Injective bit := by
  intro a b h
  cases a <;> cases b
  · rfl
  · exact absurd h (by decide)
  · exact absurd h (by decide)
  · rfl

variable {w : Nat}

/-! ## Registers as polynomials -/

/-- The polynomial of a register. -/
noncomputable def toPoly (c : BitVec w) : (ZMod 2)[X] := ∑ k ∈ Finset.range w, C (bit (c.getMsbD k)) * X ^ k

theorem coeff_toPoly (c : BitVec w) (k : Nat) : (toPoly c).coeff k = bit (c.getMsbD k) := by
  simp only [toPoly, finsetSum_coeff, coeff_C_mul_X_pow]
  rw [Finset.sum_ite_eq]
  split
  · rfl
  next h =>
    have hk : w ≤ k := by simpa using h
    rw [BitVec.getMsbD_of_ge c k hk]
    rfl

theorem toPoly_injective : Function.Injective (toPoly : BitVec w → (ZMod 2)[X]) := by
  intro a b h
  apply BitVec.eq_of_getMsbD_eq
  intro k _
  apply bit_injective
  rw [← coeff_toPoly, ← coeff_toPoly, h]

theorem toPoly_xor (a b : BitVec w) : toPoly (a ^^^ b) = toPoly a + toPoly b := by
  ext k
  rw [coeff_add, coeff_toPoly, coeff_toPoly, coeff_toPoly, BitVec.getMsbD_xor, bit_xor]

theorem degree_toPoly_lt (c : BitVec w) : (toPoly c).degree < w := by
  rw [degree_lt_iff_coeff_zero]
  intro k hk
  rw [coeff_toPoly, BitVec.getMsbD_of_ge c k (by exact_mod_cast hk)]
  rfl

/-- The polynomial that remainders are taken of. -/
noncomputable def gen (p : BitVec w) : (ZMod 2)[X] := X ^ w + toPoly p

theorem gen_monic (p : BitVec w) : (gen p).Monic := monic_X_pow_add (degree_toPoly_lt p)

theorem degree_gen (p : BitVec w) : (gen p).degree = w := by
  rw [gen, degree_add_eq_left_of_degree_lt, degree_X_pow]
  rw [degree_X_pow]
  exact degree_toPoly_lt p

/-- **A step** multiplies by `X`, and takes away the polynomial if the degree would be `w`. -/
theorem toPoly_shift (p c : BitVec w) : toPoly (shift p c) = X * toPoly c + C (bit (c.getLsbD 0)) * gen p := by
  have hmsb : ∀ k, (shift p c).getMsbD k =
      ((decide (k < w) && (!decide (k < 1) && c.getMsbD (k - 1))) ^^ (c.getLsbD 0 && p.getMsbD k)) := by
    intro k
    unfold shift
    split
    next h => rw [BitVec.getMsbD_xor, BitVec.getMsbD_ushiftRight, h, Bool.true_and]
    next h => rw [BitVec.getMsbD_ushiftRight, Bool.eq_false_of_not_eq_true h, Bool.false_and, Bool.xor_false]
  ext k
  have hbit : bit (c.getLsbD 0 && p.getMsbD k) = bit (c.getLsbD 0) * bit (p.getMsbD k) := by
    cases c.getLsbD 0 <;> cases p.getMsbD k <;> rfl
  rw [coeff_add, coeff_toPoly, coeff_C_mul, gen, coeff_add, coeff_toPoly, coeff_X_pow, hmsb, bit_xor, hbit, mul_add]
  cases k with
  | zero =>
    rw [coeff_X_mul_zero]
    by_cases hw : 0 = w
    · subst hw
      simp [bit]
    · simp [bit, hw]
  | succ k =>
    rw [coeff_X_mul, coeff_toPoly]
    rcases Nat.lt_trichotomy (k + 1) w with hk | hk | hk
    · simp [hk, Nat.ne_of_lt hk]
    · -- the coefficient that leaves
      have hlast : c.getMsbD k = c.getLsbD 0 := by
        rw [BitVec.getMsbD_eq_getLsbD]
        simp [show k < w by omega, show w - 1 - k = 0 by omega]
      rw [hlast]
      have htwo : bit (c.getLsbD 0) + bit (c.getLsbD 0) = 0 := CharTwo.add_self_eq_zero _
      have hnone : bit false = 0 := rfl
      simp [hk, htwo, hnone]
    · have hout : c.getMsbD k = false := BitVec.getMsbD_of_ge c k (by omega)
      simp [hout, show ¬ k + 1 < w by omega, Nat.ne_of_gt hk, bit]

/-! ## Remainders -/

section Remainders

variable (p : BitVec w)

/-- The remainder of the polynomial of a register, in their ring. -/
noncomputable def elt (c : BitVec w) : AdjoinRoot (gen p) := AdjoinRoot.mk (gen p) (toPoly c)

theorem elt_xor (a b : BitVec w) : elt p (a ^^^ b) = elt p a + elt p b := by
  rw [elt, toPoly_xor, map_add]
  rfl

/-- Polynomials below the degree are their remainders. -/
theorem elt_injective : Function.Injective (elt p) := by
  intro a b h
  have hdvd := AdjoinRoot.mk_eq_mk.1 h
  have hdeg : (toPoly a - toPoly b).degree < (gen p).degree := by
    rw [degree_gen]
    exact (degree_sub_le _ _).trans_lt (max_lt (degree_toPoly_lt a) (degree_toPoly_lt b))
  apply toPoly_injective
  by_contra hne
  exact (gen_monic p).not_dvd_of_degree_lt (sub_ne_zero.2 hne) hdeg hdvd

/-- **A step** is the product by the root. -/
theorem elt_shift (c : BitVec w) : elt p (shift p c) = AdjoinRoot.root (gen p) * elt p c := by
  rw [elt, toPoly_shift, map_add, map_mul, map_mul, AdjoinRoot.mk_self, mul_zero, add_zero, AdjoinRoot.mk_X]
  rfl

theorem elt_shifts : ∀ (n : Nat) (c : BitVec w), elt p (shifts p n c) = AdjoinRoot.root (gen p) ^ n * elt p c
  | 0, c => by rw [shifts, pow_zero, one_mul]
  | n + 1, c => by rw [shifts, elt_shifts n, elt_shift, pow_succ, mul_assoc]

theorem neg_one_eq : (-1 : AdjoinRoot (gen p)) = 1 := by
  have htwo : (1 + 1 : (ZMod 2)[X]) = 0 := CharTwo.add_self_eq_zero 1
  have hmk := congrArg (AdjoinRoot.mk (gen p)) htwo
  rw [map_add, map_one, map_zero] at hmk
  exact (eq_neg_of_add_eq_zero_left hmk).symm

end Remainders

/-! ## Bits that are fed in -/

/-- The polynomial of a list of bits, the first of which has the highest degree. -/
noncomputable def msg : List Bool → (ZMod 2)[X]
  | [] => 0
  | b :: bs => C (bit b) * X ^ bs.length + msg bs

/-- A difference of one bit. -/
theorem msg_modify : ∀ {bs : List Bool} {i : Nat}, i < bs.length →
    msg (bs.modify i (!·)) = msg bs + X ^ (bs.length - 1 - i)
  | b :: bs, 0, _ => by
    have hbit : bit (!b) = bit b + 1 := by cases b <;> decide
    rw [List.modify_zero_cons, msg, msg, hbit, map_add, map_one]
    simp only [List.length_cons, Nat.add_sub_cancel, Nat.sub_zero]
    ring
  | b :: bs, i + 1, h => by
    have hi : i < bs.length := Nat.lt_of_succ_lt_succ h
    have hexp : bs.length + 1 - 1 - (i + 1) = bs.length - 1 - i := by omega
    rw [List.modify_succ_cons, msg, msg, msg_modify hi, List.length_modify, List.length_cons, hexp, add_assoc]

section Feeds

variable (p : BitVec w) (hw : 0 < w)
include hw

theorem toPoly_ofBit (b : Bool) : toPoly (ofBit w b) = C (bit b) * X ^ (w - 1) := by
  ext k
  rw [coeff_toPoly, coeff_C_mul, coeff_X_pow, BitVec.getMsbD_eq_getLsbD, getLsbD_ofBit]
  by_cases hk : k = w - 1
  · simp [hk, hw]
  · have hne : ¬ (k < w ∧ w - 1 - k = 0) := by omega
    rw [if_neg hk, mul_zero]
    by_cases hlt : k < w
    · have hpos : ¬ w - 1 - k = 0 := by omega
      simp [hlt, hpos, bit]
    · simp [hlt, bit]

theorem elt_feed (c : BitVec w) (b : Bool) : elt p (feed p c b) =
    AdjoinRoot.root (gen p) * elt p c + AdjoinRoot.root (gen p) ^ w * AdjoinRoot.mk (gen p) (C (bit b)) := by
  obtain ⟨v, rfl⟩ : ∃ v, w = v + 1 := ⟨w - 1, by omega⟩
  have hofBit : elt p (ofBit (v + 1) b) = AdjoinRoot.mk (gen p) (C (bit b)) * AdjoinRoot.root (gen p) ^ v := by
    rw [elt, toPoly_ofBit hw, map_mul, map_pow, AdjoinRoot.mk_X, Nat.add_sub_cancel]
  rw [feed, elt_shift, elt_xor, hofBit, mul_add, pow_succ]
  ring

theorem elt_feeds : ∀ (bs : List Bool) (c : BitVec w), elt p (feeds p c bs) =
    AdjoinRoot.root (gen p) ^ bs.length * elt p c + AdjoinRoot.root (gen p) ^ w * AdjoinRoot.mk (gen p) (msg bs)
  | [], c => by
    rw [msg, map_zero, mul_zero, add_zero, List.length_nil, pow_zero, one_mul]
    rfl
  | b :: bs, c => by
    have hstep : feeds p c (b :: bs) = feeds p (feed p c b) bs := rfl
    rw [hstep, elt_feeds bs, elt_feed p hw, msg, map_add, map_mul, map_pow, AdjoinRoot.mk_X, List.length_cons, pow_succ]
    ring

/-- **Remainders**: what is in the register after a list of bits. -/
theorem toPoly_feeds (bs : List Bool) (c : BitVec w) :
    toPoly (feeds p c bs) = (X ^ bs.length * toPoly c + X ^ w * msg bs) %ₘ gen p := by
  have hself : toPoly (feeds p c bs) %ₘ gen p = toPoly (feeds p c bs) := by
    rw [modByMonic_eq_self_iff (gen_monic p), degree_gen]
    exact degree_toPoly_lt _
  rw [← hself]
  apply modByMonic_eq_of_dvd_sub (gen_monic p)
  apply AdjoinRoot.mk_eq_mk.1
  have helt := elt_feeds p hw bs c
  rw [map_add, map_mul, map_mul, map_pow, map_pow, AdjoinRoot.mk_X]
  exact helt

end Feeds

/-! ## Differences of two bits -/

section Differences

variable {p : BitVec w} (hp : p.getMsbD 0 = true)
include hp

theorem isUnit_root : IsUnit (AdjoinRoot.root (gen p)) := by
  have hw : 0 < w := by
    by_contra hw
    rw [BitVec.getMsbD_of_ge p 0 (by omega)] at hp
    cases hp
  have hcoeff : (gen p - 1).coeff 0 = 0 := by
    rw [coeff_sub, gen, coeff_add, coeff_toPoly, hp, coeff_X_pow, coeff_one_zero, if_neg (Nat.ne_of_lt hw)]
    decide
  obtain ⟨q, hq⟩ := X_dvd_iff.2 hcoeff
  have hmk := congrArg (AdjoinRoot.mk (gen p)) hq
  rw [map_sub, AdjoinRoot.mk_self, map_one, map_mul, AdjoinRoot.mk_X] at hmk
  apply IsUnit.of_mul_eq_one (-AdjoinRoot.mk (gen p) q)
  rw [mul_neg, ← hmk]
  ring

/-- **Two bits that differ** leave the register as it is if and only if their distance is a multiple of the order of the
root. -/
theorem feeds_eq_iff_of_two (c : BitVec w) {bs : List Bool} {i j : Nat} (hij : i < j) (hj : j < bs.length) :
    feeds p c ((bs.modify i (!·)).modify j (!·)) = feeds p c bs ↔ orderOf (AdjoinRoot.root (gen p)) ∣ j - i := by
  have hw : 0 < w := by
    by_contra hw
    rw [BitVec.getMsbD_of_ge p 0 (by omega)] at hp
    cases hp
  have hunit := isUnit_root hp
  have hlen : j < (bs.modify i (!·)).length := by rwa [List.length_modify]
  have hmsg : msg ((bs.modify i (!·)).modify j (!·)) =
      msg bs + X ^ (bs.length - 1 - j) * (X ^ (j - i) + 1) := by
    have hexp : bs.length - 1 - i = bs.length - 1 - j + (j - i) := by omega
    rw [msg_modify hlen, msg_modify (hij.trans hj), List.length_modify, hexp, pow_add]
    ring
  rw [orderOf_dvd_iff_pow_eq_one, ← (elt_injective p).eq_iff, elt_feeds p hw, elt_feeds p hw, hmsg, List.length_modify,
    List.length_modify, add_right_inj, (hunit.pow w).mul_right_inj, map_add, add_eq_left, map_mul, map_pow,
    AdjoinRoot.mk_X, (hunit.pow _).mul_right_eq_zero, map_add, map_pow, map_one, AdjoinRoot.mk_X,
    ← eq_neg_iff_add_eq_zero, neg_one_eq]

end Differences

/-! ## Computing in the ring -/

/-- The register of `1`. -/
def one (w : Nat) : BitVec w := BitVec.twoPow w (w - 1)

/-- The sum of `n` bits of `a` from the place `j` down, each with the register `b` moved on as often. -/
def mulFrom (p a : BitVec w) : Nat → Nat → BitVec w → BitVec w
  | 0, _, _ => 0
  | n + 1, j, b => (if a.getMsbD j then b else 0) ^^^ mulFrom p a n (j + 1) (shift p b)

/-- The product. -/
def mul (p a b : BitVec w) : BitVec w := mulFrom p a w 0 b

/-- The power for an exponent of at most `k` bits. -/
def power (p : BitVec w) : Nat → Nat → BitVec w → BitVec w
  | 0, _, _ => one w
  | k + 1, n, b =>
    let square := power p k (n / 2) (mul p b b)
    if n % 2 = 1 then mul p b square else square

section Computing

variable (p : BitVec w)

theorem elt_one (hw : 0 < w) : elt p (one w) = 1 := by
  have hpoly : toPoly (one w) = 1 := by
    ext k
    rw [coeff_toPoly, one, BitVec.getMsbD_eq_getLsbD, BitVec.getLsbD_twoPow, coeff_one]
    by_cases hk : k = 0
    · simp [hk, hw, bit]
    · by_cases hlt : k < w
      · simp [hk, hlt, bit, show ¬ w - 1 = w - 1 - k by omega]
      · simp [hk, hlt, bit]
  rw [elt, hpoly, map_one]

theorem elt_zero : elt p (0 : BitVec w) = 0 := by
  have h := elt_xor p (0 : BitVec w) 0
  rw [BitVec.xor_self] at h
  exact left_eq_add.1 h

theorem elt_mulFrom (a : BitVec w) : ∀ (n j : Nat) (b : BitVec w), elt p (mulFrom p a n j b) =
    (∑ i ∈ Finset.range n, AdjoinRoot.mk (gen p) (C (bit (a.getMsbD (j + i)))) * AdjoinRoot.root (gen p) ^ i) * elt p b
  | 0, _, b => by rw [mulFrom, elt_zero, Finset.sum_range_zero, zero_mul]
  | n + 1, j, b => by
    have hhead : elt p (if a.getMsbD j then b else 0) = AdjoinRoot.mk (gen p) (C (bit (a.getMsbD j))) * elt p b := by
      cases a.getMsbD j with
      | false =>
        rw [if_neg Bool.false_ne_true, elt_zero, bit, if_neg Bool.false_ne_true, map_zero, map_zero, zero_mul]
      | true => rw [if_pos rfl, bit, if_pos rfl, map_one, map_one, one_mul]
    rw [mulFrom, elt_xor, elt_mulFrom a n, elt_shift, hhead, Finset.sum_range_succ', add_mul, pow_zero, mul_one,
      Nat.add_zero, add_comm, Finset.sum_mul, Finset.sum_mul]
    congr 1
    apply Finset.sum_congr rfl
    intro i _
    rw [Nat.add_right_comm, Nat.add_assoc j, pow_succ]
    ring

theorem elt_mul (a b : BitVec w) : elt p (mul p a b) = elt p a * elt p b := by
  rw [mul, elt_mulFrom]
  congr 1
  rw [elt, toPoly, map_sum]
  apply Finset.sum_congr rfl
  intro i _
  rw [Nat.zero_add, map_mul, map_pow, AdjoinRoot.mk_X]

theorem elt_power (hw : 0 < w) : ∀ (k n : Nat) (b : BitVec w), n < 2 ^ k → elt p (power p k n b) = elt p b ^ n
  | 0, n, b, h => by
    obtain rfl : n = 0 := by omega
    rw [power, elt_one p hw, pow_zero]
  | k + 1, n, b, h => by
    have hhalf : n / 2 < 2 ^ k := by rw [pow_succ] at h; omega
    have ih := elt_power hw k (n / 2) (mul p b b) hhalf
    rw [elt_mul, ← pow_two, ← pow_mul] at ih
    rw [power]
    by_cases hodd : n % 2 = 1
    · have hn : n = 2 * (n / 2) + 1 := by omega
      rw [if_pos hodd, elt_mul, ih, ← pow_succ', ← hn]
    · have hn : n = 2 * (n / 2) := by omega
      rw [if_neg hodd, ih, ← hn]

/-- **The order of the root** from powers of its register. -/
theorem orderOf_root (hw : 0 < w) {k n : Nat} (hpos : 0 < n) (hn : n < 2 ^ k)
    (hone : power p k n (shift p (one w)) = one w)
    (hother : ∀ q, q.Prime → q ∣ n → power p k (n / q) (shift p (one w)) ≠ one w) :
    orderOf (AdjoinRoot.root (gen p)) = n := by
  have hroot : elt p (shift p (one w)) = AdjoinRoot.root (gen p) := by rw [elt_shift, elt_one p hw, mul_one]
  apply orderOf_eq_of_pow_and_pow_div_prime hpos
  · rw [← hroot, ← elt_power p hw k n _ hn, hone, elt_one p hw]
  · intro q hq hdvd h
    apply hother q hq hdvd
    apply elt_injective p
    rw [elt_power p hw k _ _ ((Nat.div_le_self n q).trans_lt hn), hroot, h, elt_one p hw]

end Computing

end CyclicCode
