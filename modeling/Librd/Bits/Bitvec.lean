import Mathlib.Data.List.Basic

/-!
# Bit vectors (`rdbits.c`, `rdbits.h`)

A vector has room for the bits `0` to `rbv_max`, in words of 32 bits. What `rd_bitvec_test` says after `rd_bitvec_set`
is `mem_set`, in terms of the bits that are set (`Mem`, `test_ne_zero`); `mem_reset` is the same for `rd_bitvec_reset`.
-/

namespace Librd.Bits

/-- `rd_bitvec_t`: `rbv_max` and the `rbv_buckets` words at `rbv_b`. -/
structure Bitvec where
  max : Nat
  b : List (BitVec 32)
  buckets : b.length = 1 + max / 32
  deriving DecidableEq

/-- `rd_bitvec_op_t`. -/
inductive BitvecOp
  | set
  | reset
  | test
  | ffs
  | fls
  deriving DecidableEq, Repr

/-- `rd_bitvec_init` of an `RD_BITVEC_STATIC` vector; `none` if it asserts. -/
def bitvecInit (maxVal : Nat) : Option Bitvec :=
  if maxVal ≤ 4096 then some ⟨maxVal, List.replicate (1 + maxVal / 32) 0, List.length_replicate⟩ else none

/-- `1 << (i % 32)`. -/
def bitOf (i : Nat) : BitVec 32 := 1 <<< (i % 32)

/-- Updating the word of the bit `i`. -/
def modifyWord (rbv : Bitvec) (i : Nat) (f : BitVec 32 → BitVec 32) : Bitvec where
  max := rbv.max
  b := rbv.b.modify (i / 32) f
  buckets := by rw [List.length_modify]; exact rbv.buckets

/-- `rd_bitvec_op`: the result and the vector afterwards. -/
def bitvecOp (rbv : Bitvec) (i : Nat) (op : BitvecOp) : Int × Bitvec :=
  if i > rbv.max then (if op = .test then 0 else -1, rbv)
  else
    match op with
    | .set => (0, modifyWord rbv i (· ||| bitOf i))
    | .reset => (0, modifyWord rbv i (· &&& ~~~bitOf i))
    | .test => ((rbv.b.getD (i / 32) 0 &&& bitOf i).toInt, rbv)
    | .ffs | .fls => (-1, rbv)

/-- `rd_bitvec_set`. -/
def bitvecSet (rbv : Bitvec) (i : Nat) : Bitvec := (bitvecOp rbv i .set).2

/-- `rd_bitvec_reset`. -/
def bitvecReset (rbv : Bitvec) (i : Nat) : Bitvec := (bitvecOp rbv i .reset).2

/-- `rd_bitvec_test`. -/
def bitvecTest (rbv : Bitvec) (i : Nat) : Int := (bitvecOp rbv i .test).1

/-- `ffs(3)`: one more than the number of the lowest bit that is set, 0 if there is none. -/
def ffs (w : BitVec 32) : Nat := if w = 0 then 0 else w.ctz.toNat + 1

/-- `__builtin_clz`, which is only called with words that are not 0. -/
def builtinClz (w : BitVec 32) : Nat := w.clz.toNat

/-- The loop of `RD_BITVEC_OP_FFS` over the words from `bucket` on: `bucket` and `bit` when it ends. -/
def ffsLoop : List (BitVec 32) → Int → Nat → Int × Nat
  | [], bucket, bit => (bucket, bit)
  | w :: ws, bucket, bit =>
    if w ≠ 0 then
      let bit := ffs w
      if bit ≠ 0 then (bucket, bit) else ffsLoop ws (bucket + 1) bit
    else ffsLoop ws (bucket + 1) bit

/-- The loop of `RD_BITVEC_OP_FLS` with `k` words left, the next one at `k - 1`: `bucket` and `bit` when it ends. -/
def flsLoop (b : List (BitVec 32)) : Nat → Nat → Int × Nat
  | 0, bit => (-1, bit)
  | k + 1, bit =>
    let w := b.getD k 0
    if w ≠ 0 then
      let bit := builtinClz w
      if bit ≠ 0 then (k, 32 - bit) else flsLoop b k bit
    else flsLoop b k bit

/-- `rd_bitvec_fxs`; `none` if it asserts. `bucket * 32` is computed as a `size_t`. -/
def bitvecFxs (rbv : Bitvec) (op : BitvecOp) : Option UInt64 :=
  let ret := fun (p : Int × Nat) => UInt64.ofNat p.2 + UInt64.ofInt p.1 * 32
  match op with
  | .ffs => some (ret (ffsLoop rbv.b 0 0))
  | .fls => some (ret (flsLoop rbv.b rbv.b.length 0))
  | _ => none

/-- `rd_bitvec_ffs`. -/
def bitvecFfs (rbv : Bitvec) : Option UInt64 := bitvecFxs rbv .ffs

/-- `rd_bitvec_fls`. -/
def bitvecFls (rbv : Bitvec) : Option UInt64 := bitvecFxs rbv .fls

/-! ## Membership -/

/-- The bit `i` is set. -/
def Mem (rbv : Bitvec) (i : Nat) : Prop := i ≤ rbv.max ∧ (rbv.b.getD (i / 32) 0).getLsbD (i % 32) = true

theorem bitOf_eq (i : Nat) : bitOf i = BitVec.twoPow 32 (i % 32) := rfl

theorem and_bitOf_ne_zero (w : BitVec 32) (i : Nat) : w &&& bitOf i ≠ 0 ↔ w.getLsbD (i % 32) = true := by
  have hpow : BitVec.twoPow 32 (i % 32) ≠ 0 := by
    intro h
    have hbit := congrArg (BitVec.getLsbD · (i % 32)) h
    simp [Nat.mod_lt] at hbit
  rw [bitOf_eq, BitVec.and_twoPow]
  cases h : w.getLsbD (i % 32) with
  | false => simp
  | true => simpa using hpow

theorem getLsbD_bitOf (i k : Nat) : (bitOf i).getLsbD k = decide (i % 32 = k) := by
  have hi : i % 32 < 32 := Nat.mod_lt _ (by omega)
  rw [bitOf_eq, BitVec.getLsbD_twoPow]
  simp [hi]

/-- The bit `i` of the words, in range or not. -/
def Bit (rbv : Bitvec) (i : Nat) : Prop := (rbv.b.getD (i / 32) 0).getLsbD (i % 32) = true

theorem exists_word {rbv : Bitvec} {i : Nat} (hi : i ≤ rbv.max) : ∃ w, rbv.b[i / 32]? = some w := by
  have hlen : i / 32 < rbv.b.length := by
    rw [rbv.buckets]
    omega
  exact ⟨_, List.getElem?_eq_getElem hlen⟩

section Words

variable {rbv : Bitvec} {i j : Nat} {f : BitVec 32 → BitVec 32}

theorem bit_modifyWord_self (hi : i ≤ rbv.max) :
    Bit (modifyWord rbv i f) i ↔ (f (rbv.b.getD (i / 32) 0)).getLsbD (i % 32) = true := by
  obtain ⟨w, hword⟩ := exists_word hi
  simp only [Bit, modifyWord, List.getD_eq_getElem?_getD, List.getElem?_modify, if_true, hword, Option.map_eq_map,
    Option.map_some, Option.getD_some]

/-- A change of one bit of a word changes no other bit, of this word or another. -/
theorem bit_modifyWord_of_ne (hi : i ≤ rbv.max) (hj : j ≠ i)
    (hf : ∀ w k, k < 32 → k ≠ i % 32 → (f w).getLsbD k = w.getLsbD k) : Bit (modifyWord rbv i f) j ↔ Bit rbv j := by
  obtain ⟨w, hword⟩ := exists_word hi
  simp only [Bit, modifyWord, List.getD_eq_getElem?_getD, List.getElem?_modify]
  by_cases hw : i / 32 = j / 32
  · have hk : j % 32 ≠ i % 32 := by omega
    simp only [← hw, if_true, hword, Option.map_eq_map, Option.map_some, Option.getD_some]
    rw [hf _ _ (Nat.mod_lt _ (by omega)) hk]
  · simp only [if_neg hw, Option.map_eq_map, Option.map_id_fun', id_eq]

end Words

theorem test_ne_zero {rbv : Bitvec} {i : Nat} : bitvecTest rbv i ≠ 0 ↔ Mem rbv i := by
  by_cases hi : i > rbv.max
  · have hzero : bitvecTest rbv i = 0 := by simp [bitvecTest, bitvecOp, hi]
    simp [hzero, Mem, Nat.not_le.2 hi]
  · rw [bitvecTest, bitvecOp, if_neg hi, ← BitVec.toInt_zero (w := 32), BitVec.toInt_ne]
    exact (and_bitOf_ne_zero _ i).trans (and_iff_right (Nat.not_lt.1 hi)).symm

theorem bit_set {rbv : Bitvec} {i j : Nat} (hi : i ≤ rbv.max) : Bit (bitvecSet rbv i) j ↔ j = i ∨ Bit rbv j := by
  rw [bitvecSet, bitvecOp, if_neg (Nat.not_lt.2 hi)]
  by_cases hj : j = i
  · rw [hj, bit_modifyWord_self hi, BitVec.getLsbD_or, getLsbD_bitOf]
    simp
  · rw [bit_modifyWord_of_ne hi hj, or_iff_right hj]
    intro w k hk hne
    simp [BitVec.getLsbD_or, getLsbD_bitOf, hne.symm]

theorem bit_reset {rbv : Bitvec} {i j : Nat} (hi : i ≤ rbv.max) : Bit (bitvecReset rbv i) j ↔ j ≠ i ∧ Bit rbv j := by
  rw [bitvecReset, bitvecOp, if_neg (Nat.not_lt.2 hi)]
  by_cases hj : j = i
  · rw [hj, bit_modifyWord_self hi, BitVec.getLsbD_and, BitVec.getLsbD_not, getLsbD_bitOf]
    simp
  · rw [bit_modifyWord_of_ne hi hj, and_iff_right hj]
    intro w k hk hne
    rw [BitVec.getLsbD_and, BitVec.getLsbD_not, getLsbD_bitOf]
    simp [hk, hne.symm]

@[simp] theorem max_set (rbv : Bitvec) (i : Nat) : (bitvecSet rbv i).max = rbv.max := by
  unfold bitvecSet bitvecOp
  split <;> rfl

@[simp] theorem max_reset (rbv : Bitvec) (i : Nat) : (bitvecReset rbv i).max = rbv.max := by
  unfold bitvecReset bitvecOp
  split <;> rfl

theorem mem_set {rbv : Bitvec} {i j : Nat} (hi : i ≤ rbv.max) : Mem (bitvecSet rbv i) j ↔ j = i ∨ Mem rbv j := by
  have hbit : Bit (bitvecSet rbv i) j ↔ j = i ∨ Bit rbv j := bit_set hi
  have hle : j = i → j ≤ rbv.max := fun h => h ▸ hi
  change _ ≤ _ ∧ Bit _ j ↔ j = i ∨ j ≤ rbv.max ∧ Bit rbv j
  rw [max_set, hbit]
  tauto

theorem mem_reset {rbv : Bitvec} {i j : Nat} (hi : i ≤ rbv.max) : Mem (bitvecReset rbv i) j ↔ j ≠ i ∧ Mem rbv j := by
  have hbit : Bit (bitvecReset rbv i) j ↔ j ≠ i ∧ Bit rbv j := bit_reset hi
  change _ ≤ _ ∧ Bit _ j ↔ j ≠ i ∧ j ≤ rbv.max ∧ Bit rbv j
  rw [max_reset, hbit]
  tauto

theorem not_bit_init {n i : Nat} {rbv : Bitvec} (h : bitvecInit n = some rbv) : ¬Bit rbv i := by
  unfold bitvecInit at h
  split at h
  · cases h
    intro hbit
    simp only [Bit, List.getD_eq_getElem?_getD, List.getElem?_replicate] at hbit
    split at hbit <;> simp at hbit
  · cases h

theorem not_mem_init {n i : Nat} {rbv : Bitvec} (h : bitvecInit n = some rbv) : ¬Mem rbv i :=
  fun hmem => not_bit_init h hmem.2

end Librd.Bits
