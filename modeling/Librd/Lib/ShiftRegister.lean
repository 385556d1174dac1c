import Mathlib.Data.Nat.Bits
import Mathlib.Order.Basic

/-!
# Linear feedback shift registers

`shift p c` is one step of the register `c` with the feedback `p`: the lowest bit leaves it, and if it is set, `p` is
added. Bits are fed in at the lowest place (`feed`).

* `shift_xor`: a step is linear, and if the highest bit of `p` is set it can be undone (`shifts_injective`);
* `shifts_split`: several steps at once, by a table for the bits that leave;
* `feeds_eq_shifts`: bits that fit into the register can all be added before the steps.
-/

namespace ShiftRegister

variable {w : Nat}

/-- One step. -/
def shift (p c : BitVec w) : BitVec w := if c.getLsbD 0 then (c >>> 1) ^^^ p else c >>> 1

/-- Several steps. -/
def shifts (p : BitVec w) : Nat → BitVec w → BitVec w
  | 0, c => c
  | n + 1, c => shifts p n (shift p c)

/-- A bit at the lowest place. -/
def ofBit (w : Nat) (b : Bool) : BitVec w := (BitVec.ofBool b).setWidth w

/-- A step with a bit that is fed in. -/
def feed (p c : BitVec w) (b : Bool) : BitVec w := shift p (c ^^^ ofBit w b)

/-- Steps with the bits of a list. -/
def feeds (p c : BitVec w) (bs : List Bool) : BitVec w := bs.foldl (feed p) c

/-! ## Linearity -/

section Linear

variable (p : BitVec w)

theorem shift_xor (a b : BitVec w) : shift p (a ^^^ b) = shift p a ^^^ shift p b := by
  unfold shift
  rw [BitVec.getLsbD_xor, BitVec.ushiftRight_xor_distrib]
  cases a.getLsbD 0 <;> cases b.getLsbD 0
  · rfl
  · exact BitVec.xor_assoc ..
  · show (a >>> 1 ^^^ b >>> 1) ^^^ p = (a >>> 1 ^^^ p) ^^^ b >>> 1
    rw [BitVec.xor_assoc, BitVec.xor_assoc, BitVec.xor_comm p]
  · show a >>> 1 ^^^ b >>> 1 = (a >>> 1 ^^^ p) ^^^ (b >>> 1 ^^^ p)
    rw [BitVec.xor_assoc, BitVec.xor_comm (b >>> 1) p, ← BitVec.xor_assoc p, BitVec.xor_self, BitVec.zero_xor]

theorem shifts_xor : ∀ (n : Nat) (a b : BitVec w), shifts p n (a ^^^ b) = shifts p n a ^^^ shifts p n b
  | 0, _, _ => rfl
  | n + 1, a, b => by rw [shifts, shifts, shifts, shift_xor, shifts_xor n]

theorem shifts_zero : ∀ n : Nat, shifts p n 0 = 0
  | 0 => rfl
  | n + 1 => by
    have h : shift p (0 : BitVec w) = 0 := by simp [shift]
    rw [shifts, h, shifts_zero n]

theorem shifts_add : ∀ (m n : Nat) (c : BitVec w), shifts p (m + n) c = shifts p n (shifts p m c)
  | 0, n, c => by rw [Nat.zero_add, shifts]
  | m + 1, n, c => by rw [Nat.succ_add, shifts, shifts, shifts_add m n]

end Linear

/-- Two sums are equal if the differences are. -/
theorem xor_eq_zero_iff {a b : BitVec w} : a ^^^ b = 0 ↔ a = b := by
  constructor
  · intro h
    have h' := congrArg (· ^^^ b) h
    simpa [BitVec.xor_assoc] using h'
  · rintro rfl
    exact BitVec.xor_self

section Injective

variable {p : BitVec w} (hp : p.getMsbD 0 = true)
include hp

/-- Only the empty register becomes empty. -/
theorem eq_zero_of_shift {c : BitVec w} (h : shift p c = 0) : c = 0 := by
  have hw : 0 < w := by
    by_contra hw
    simp [show w = 0 by omega] at hp
  have hbit : ∀ k, (shift p c).getMsbD k = false := fun k => by rw [h]; simp
  unfold shift at hbit
  split at hbit
  · -- the highest bit of `p` is not cancelled
    have htop := hbit 0
    simp [hp, hw] at htop
  next hlow =>
    apply BitVec.eq_of_getLsbD_eq
    intro k hk
    cases k with
    | zero => simpa using hlow
    | succ k =>
      have hk' := hbit (w - 1 - k)
      rw [BitVec.getMsbD_eq_getLsbD] at hk'
      have hidx : 1 + (w - 1 - (w - 1 - k)) = k + 1 := by omega
      simpa [hidx, show w - 1 - k < w by omega] using hk'

theorem shifts_injective : ∀ n : Nat, Function.Injective (shifts p n)
  | 0 => fun _ _ h => h
  | n + 1 => by
    intro a b h
    have hshift : shift p a = shift p b := shifts_injective n h
    rw [← xor_eq_zero_iff, ← shift_xor] at hshift
    exact xor_eq_zero_iff.1 (eq_zero_of_shift hp hshift)

end Injective

/-! ## Several steps at once -/

section Table

variable (p : BitVec w)

/-- Bits that do not leave the register move down. -/
theorem shifts_high : ∀ (n : Nat) {c : BitVec w}, (∀ i < n, c.getLsbD i = false) → shifts p n c = c >>> n
  | 0, c, _ => by rw [shifts, BitVec.ushiftRight_zero]
  | n + 1, c, h => by
    have hstep : shift p c = c >>> 1 := by
      rw [shift, if_neg]
      simpa using h 0 (Nat.succ_pos n)
    have hrest : ∀ i < n, (c >>> 1).getLsbD i = false := by
      intro i hi
      rw [BitVec.getLsbD_ushiftRight]
      exact h (1 + i) (by omega)
    rw [shifts, hstep, shifts_high n hrest, ← BitVec.shiftRight_add, Nat.add_comm]

/-- **Steps by a table** for the `n` bits that leave. -/
theorem shifts_split (n : Nat) (c : BitVec w) :
    shifts p n c = (c >>> n) ^^^ shifts p n ((c.setWidth n).setWidth w) := by
  obtain ⟨low, hlow⟩ : ∃ low, (c.setWidth n).setWidth w = low := ⟨_, rfl⟩
  have hbit : ∀ i, low.getLsbD i = (decide (i < n) && c.getLsbD i) := by
    intro i
    rw [← hlow, BitVec.getLsbD_setWidth, BitVec.getLsbD_setWidth]
    by_cases hi : i < w
    · simp [hi]
    · simp [hi, BitVec.getLsbD_of_ge c i (Nat.not_lt.1 hi)]
  have hsplit : c = (c ^^^ low) ^^^ low := by rw [BitVec.xor_assoc, BitVec.xor_self, BitVec.xor_zero]
  have hclear : ∀ i < n, (c ^^^ low).getLsbD i = false := by
    intro i hi
    rw [BitVec.getLsbD_xor, hbit]
    simp [hi]
  have hmove : (c ^^^ low) >>> n = c >>> n := by
    apply BitVec.eq_of_getLsbD_eq
    intro i _
    rw [BitVec.getLsbD_ushiftRight, BitVec.getLsbD_ushiftRight, BitVec.getLsbD_xor, hbit]
    simp [show ¬ n + i < n by omega]
  calc shifts p n c
    _ = shifts p n (c ^^^ low) ^^^ shifts p n low := by rw [← shifts_xor, ← hsplit]
    _ = (c >>> n) ^^^ shifts p n low := by rw [shifts_high p n hclear, hmove]
    _ = _ := by rw [hlow]

end Table

/-! ## Bits that are fed in -/

section Feed

variable (p : BitVec w)

theorem feeds_append (c : BitVec w) (bs bs' : List Bool) : feeds p c (bs ++ bs') = feeds p (feeds p c bs) bs' :=
  List.foldl_append

/-- The bits of a list from the lowest place on. -/
def ofBits (w : Nat) (bs : List Bool) : BitVec w := (BitVec.ofBoolListLE bs).setWidth w

theorem getLsbD_ofBits (bs : List Bool) (i : Nat) : (ofBits w bs).getLsbD i = (decide (i < w) && bs.getD i false) := by
  rw [ofBits, BitVec.getLsbD_setWidth, BitVec.getLsbD_ofBoolListLE]

theorem getLsbD_ofBit (b : Bool) (i : Nat) : (ofBit w b).getLsbD i = (decide (i < w) && decide (i = 0) && b) := by
  rw [ofBit, BitVec.getLsbD_setWidth, BitVec.getLsbD_ofBool, Bool.and_assoc]

/-- The first bit leaves, and the others move down. -/
theorem shift_ofBits {b : Bool} {bs : List Bool} (h : bs.length < w) :
    shift p (ofBits w (b :: bs)) = shift p (ofBit w b) ^^^ ofBits w bs := by
  obtain ⟨rest, hrest⟩ : ∃ rest, ofBits w (b :: bs) ^^^ ofBit w b = rest := ⟨_, rfl⟩
  have hbit : ∀ i, rest.getLsbD i = (decide (i < w) && decide (i ≠ 0) && (b :: bs).getD i false) := by
    intro i
    rw [← hrest, BitVec.getLsbD_xor, getLsbD_ofBits, getLsbD_ofBit]
    cases i with
    | zero => simp
    | succ i => simp
  have hmove : shift p rest = ofBits w bs := by
    rw [shift, hbit, if_neg (by simp)]
    apply BitVec.eq_of_getLsbD_eq
    intro i hi
    rw [BitVec.getLsbD_ushiftRight, hbit, getLsbD_ofBits, Nat.add_comm, List.getD_cons_succ]
    -- the highest place was free
    by_cases htop : i + 1 < w
    · simp [hi, htop]
    · simp [htop, List.getElem?_eq_none (show bs.length ≤ i by omega)]
  have hsplit : ofBits w (b :: bs) = ofBit w b ^^^ rest := by
    rw [← hrest, BitVec.xor_comm, BitVec.xor_assoc, BitVec.xor_self, BitVec.xor_zero]
  rw [hsplit, shift_xor, hmove]

/-- **Bits that fit** are added before the steps. -/
theorem feeds_eq_shifts : ∀ {bs : List Bool} (c : BitVec w), bs.length ≤ w →
    feeds p c bs = shifts p bs.length (c ^^^ ofBits w bs)
  | [], c, _ => by
    have hzero : ofBits w [] = 0 := by
      apply BitVec.eq_of_getLsbD_eq
      intro i _
      simp [getLsbD_ofBits]
    rw [hzero]
    exact BitVec.xor_zero.symm
  | b :: bs, c, h => by
    rw [List.length_cons] at h
    have hfirst : shift p (c ^^^ ofBits w (b :: bs)) = feed p c b ^^^ ofBits w bs := by
      rw [feed, shift_xor, shift_xor, shift_ofBits p h, BitVec.xor_assoc]
    have ih := feeds_eq_shifts (feed p c b) (Nat.le_of_lt h)
    rw [List.length_cons, shifts, hfirst, ← ih]
    rfl

/-- The effect of what was in the register, apart from that of the bits. -/
theorem feeds_xor : ∀ (bs : List Bool) (a b : BitVec w), feeds p (a ^^^ b) bs = shifts p bs.length a ^^^ feeds p b bs
  | [], _, _ => rfl
  | x :: bs, a, b => by
    have hfirst : feed p (a ^^^ b) x = shift p a ^^^ feed p b x := by
      rw [feed, feed, BitVec.xor_assoc, shift_xor]
    calc feeds p (a ^^^ b) (x :: bs)
      _ = feeds p (shift p a ^^^ feed p b x) bs := by rw [← hfirst]; rfl
      _ = _ := feeds_xor bs _ _

end Feed

/-! ## Differences that show -/

theorem ofBits_injective {bs bs' : List Bool} (hlen : bs.length = bs'.length) (hw : bs.length ≤ w)
    (h : ofBits w bs = ofBits w bs') : bs = bs' := by
  apply List.ext_getElem hlen
  intro i hi hi'
  have hbit : (ofBits w bs).getLsbD i = (ofBits w bs').getLsbD i := by rw [h]
  rw [getLsbD_ofBits, getLsbD_ofBits, List.getD_eq_getElem?_getD, List.getD_eq_getElem?_getD,
    List.getElem?_eq_getElem hi, List.getElem?_eq_getElem hi'] at hbit
  simpa [Nat.lt_of_lt_of_le hi hw] using hbit

section Detect

variable {p : BitVec w} (hp : p.getMsbD 0 = true)
include hp

theorem feeds_injective (bs : List Bool) : Function.Injective fun c => feeds p c bs := by
  intro a b h
  have ha := feeds_xor p bs a 0
  have hb := feeds_xor p bs b 0
  rw [show a ^^^ (0 : BitVec w) = a from BitVec.xor_zero] at ha
  rw [show b ^^^ (0 : BitVec w) = b from BitVec.xor_zero] at hb
  have hsum : shifts p bs.length a ^^^ feeds p 0 bs = shifts p bs.length b ^^^ feeds p 0 bs := by
    rw [← ha, ← hb]
    exact h
  rw [BitVec.xor_left_inj] at hsum
  exact shifts_injective hp _ hsum

/-- Other bits in the place of as many, if they fit into the register. -/
theorem feeds_ne {bs bs' : List Bool} (hlen : bs.length = bs'.length) (hw : bs.length ≤ w) (hne : bs ≠ bs')
    (c : BitVec w) : feeds p c bs ≠ feeds p c bs' := by
  rw [feeds_eq_shifts p c hw, feeds_eq_shifts p c (hlen ▸ hw), ← hlen]
  intro h
  have hbits := shifts_injective hp _ h
  rw [BitVec.xor_right_inj] at hbits
  exact hne (ofBits_injective hlen hw hbits)

/-- **Differences within `w` bits** show. -/
theorem feeds_ne_of_burst {bs bs' : List Bool} (hlen : bs.length = bs'.length) (hne : bs ≠ bs') {k : Nat}
    (hwin : ∀ i, bs[i]? ≠ bs'[i]? → k ≤ i ∧ i < k + w) (c : BitVec w) : feeds p c bs ≠ feeds p c bs' := by
  have hbefore : bs.take k = bs'.take k := by
    apply List.ext_getElem?
    intro i
    by_cases hi : i < k
    · rw [List.getElem?_take_of_lt hi, List.getElem?_take_of_lt hi]
      by_contra h
      exact absurd (hwin i h).1 (by omega)
    · rw [List.getElem?_take_eq_none (by omega), List.getElem?_take_eq_none (by omega)]
  have hafter : bs.drop (k + w) = bs'.drop (k + w) := by
    apply List.ext_getElem?
    intro i
    rw [List.getElem?_drop, List.getElem?_drop]
    by_contra h
    exact absurd (hwin _ h).2 (by omega)
  have hsplit : ∀ l : List Bool, l.take k ++ ((l.drop k).take w ++ l.drop (k + w)) = l := by
    intro l
    rw [← List.drop_drop, List.take_append_drop, List.take_append_drop]
  have hmid : (bs.drop k).take w ≠ (bs'.drop k).take w := by
    intro h
    apply hne
    rw [← hsplit bs, ← hsplit bs', hbefore, h, hafter]
  have hlen' : ((bs.drop k).take w).length = ((bs'.drop k).take w).length := by
    rw [List.length_take, List.length_take, List.length_drop, List.length_drop, hlen]
  intro h
  rw [← hsplit bs, ← hsplit bs', feeds_append, feeds_append, feeds_append, feeds_append, hafter, hbefore] at h
  exact feeds_ne hp hlen' (List.length_take_le w _) hmid _ (feeds_injective hp _ h)

end Detect

end ShiftRegister
