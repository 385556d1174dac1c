import Librd.Lib.CyclicCode
import Librd.Crc.Crc32

/-!
# What CRC-32 tells apart

`rd_crc32` as a remainder of polynomials over two elements, and what follows for a receiver that compares it:

* `rdCrc32_remainder`: the remainder that it is;
* `rdCrc32_combine`: the value of two buffers from those of each;
* `rdCrc32_residue`: the receiver's check on a message that carries its own value;
* `rdCrc32_forge`: four bytes anywhere give every value once;
* `rdCrc32_burst`, `rdCrc32_two_bits`: the errors that show.
-/

open Polynomial ShiftRegister CyclicCode

namespace Librd.Crc

theorem rdCrc32_eq (data : List UInt8) : rdCrc32 data = some (feeds poly rdCrc32Init (bits data) ^^^ 0xffffffff) := by
  rw [rdCrc32, rdCrc32Update_eq]
  rfl

theorem poly_high : poly.getMsbD 0 = true := by decide

theorem length_bits (data : List UInt8) : (bits data).length = 8 * data.length := by
  induction data with
  | nil => rfl
  | cons b data ih =>
    have hbyte : (bits [b]).length = 8 := by simp [bits]
    rw [bits_cons b data, List.length_append, ih, hbyte, List.length_cons]
    omega

theorem bits_append (data rest : List UInt8) : bits (data ++ rest) = bits data ++ bits rest := List.flatMap_append

theorem rdCrc32_inj {data data' : List UInt8} :
    rdCrc32 data = rdCrc32 data' ↔ feeds poly rdCrc32Init (bits data) = feeds poly rdCrc32Init (bits data') := by
  rw [rdCrc32_eq, rdCrc32_eq, Option.some_inj, BitVec.xor_left_inj]

/-! ## The remainder -/

theorem toPoly_eq_sum {w : Nat} (c : BitVec w) :
    toPoly c = ∑ k ∈ (Finset.range w).filter (fun k => c.getMsbD k = true), X ^ k := by
  rw [toPoly, Finset.sum_filter]
  apply Finset.sum_congr rfl
  intro k _
  cases c.getMsbD k <;> simp [bit]

/-- The polynomial of CRC-32. -/
theorem gen_poly : gen poly = X ^ 32 + X ^ 26 + X ^ 23 + X ^ 22 + X ^ 16 + X ^ 12 + X ^ 11 + X ^ 10 + X ^ 8 + X ^ 7 +
    X ^ 5 + X ^ 4 + X ^ 2 + X + 1 := by
  have hterms : (Finset.range 32).filter (fun k => poly.getMsbD k = true) =
      {0, 1, 2, 4, 5, 7, 8, 10, 11, 12, 16, 22, 23, 26} := by decide
  rw [gen, toPoly_eq_sum, hterms]
  simp
  ring

/-- **The remainder**: the message with 32 zero bits after it, and the initial ones before it, modulo the polynomial. -/
theorem rdCrc32_remainder (data : List UInt8) : ∃ crc, rdCrc32 data = some crc ∧ toPoly (crc ^^^ 0xffffffff) =
    (X ^ (8 * data.length) * toPoly (0xffffffff : RdCrc32) + X ^ 32 * msg (bits data)) %ₘ
      (X ^ 32 + X ^ 26 + X ^ 23 + X ^ 22 + X ^ 16 + X ^ 12 + X ^ 11 + X ^ 10 + X ^ 8 + X ^ 7 +
        X ^ 5 + X ^ 4 + X ^ 2 + X + 1) := by
  apply Exists.intro
  apply And.intro (rdCrc32_eq data)
  have hself : ∀ c : RdCrc32, c ^^^ 0xffffffff ^^^ 0xffffffff = c := by
    intro c
    rw [BitVec.xor_assoc, BitVec.xor_self]
    exact BitVec.xor_zero
  rw [hself, toPoly_feeds poly (by decide), length_bits, gen_poly, rdCrc32Init]

/-- **Two buffers** from the values of each. -/
theorem rdCrc32_combine (a b : List UInt8) : ∃ crcA crcB, rdCrc32 a = some crcA ∧ rdCrc32 b = some crcB ∧
    rdCrc32 (a ++ b) = some (shifts poly (8 * b.length) crcA ^^^ crcB) := by
  obtain ⟨regA, hregA⟩ : ∃ regA, feeds poly rdCrc32Init (bits a) = regA := ⟨_, rfl⟩
  have ha := rdCrc32_eq a
  rw [hregA] at ha
  refine ⟨_, _, ha, rdCrc32_eq b, ?_⟩
  have hsplit : regA = (regA ^^^ 0xffffffff) ^^^ rdCrc32Init := by
    rw [rdCrc32Init, BitVec.xor_assoc, BitVec.xor_self]
    exact BitVec.xor_zero.symm
  rw [rdCrc32_eq, bits_append, feeds_append, hregA]
  conv =>
    lhs
    rw [hsplit]
  rw [feeds_xor, length_bits, BitVec.xor_assoc]

/-! ## Four bytes -/

/-- The four bytes of a value, the lowest first. -/
def le32 (crc : RdCrc32) : List UInt8 := (List.range 4).map fun k => UInt8.ofBitVec ((crc >>> (8 * k)).setWidth 8)

theorem bits_injective : ∀ {data data' : List UInt8}, bits data = bits data' → data = data'
  | [], [], _ => rfl
  | [], b :: data', h => by
    have hlen := congrArg List.length h
    rw [length_bits, length_bits, List.length_cons, List.length_nil] at hlen
    omega
  | b :: data, [], h => by
    have hlen := congrArg List.length h
    rw [length_bits, length_bits, List.length_cons, List.length_nil] at hlen
    omega
  | b :: data, b' :: data', h => by
    rw [bits_cons b data, bits_cons b' data'] at h
    obtain ⟨hbyte, hrest⟩ := List.append_inj h (by rw [length_bits, length_bits]; rfl)
    have hb : b.toBitVec = b'.toBitVec := by
      apply BitVec.eq_of_getLsbD_eq
      intro i hi
      have hbit := congrArg (·[i]?) hbyte
      simpa [bits, hi] using hbit
    rw [UInt8.toBitVec_inj.1 hb, bits_injective hrest]

/-- Four bytes fill the register. -/
theorem feeds_four (crc : RdCrc32) {t : List UInt8} (ht : t.length = 4) :
    feeds poly crc (bits t) = shifts poly 32 (crc ^^^ ofBits 32 (bits t)) := by
  have hlen : (bits t).length = 32 := by rw [length_bits, ht]
  rw [feeds_eq_shifts poly crc (Nat.le_of_eq hlen), hlen]

theorem length_le32 (crc : RdCrc32) : (le32 crc).length = 4 := rfl

theorem ofBits_le32 (crc : RdCrc32) : ofBits 32 (bits (le32 crc)) = crc := by
  apply BitVec.eq_of_getLsbD_eq
  intro i hi
  rw [getLsbD_ofBits]
  have hbits : bits (le32 crc) = (List.range 32).map crc.getLsbD := by
    simp [bits, le32, List.range_succ]
  rw [hbits]
  simp [hi]

/-- **The receiver's check**: four bytes after the message give `0x2144df1c` if and only if they are the value of the
message, its lowest byte first. -/
theorem rdCrc32_residue (data t : List UInt8) (ht : t.length = 4) :
    rdCrc32 (data ++ t) = some 0x2144df1c ↔ ∃ crc, rdCrc32 data = some crc ∧ t = le32 crc := by
  obtain ⟨reg, hreg⟩ : ∃ reg, feeds poly rdCrc32Init (bits data) = reg := ⟨_, rfl⟩
  have hall : (0x2144df1c : RdCrc32) = shifts poly 32 0xffffffff ^^^ 0xffffffff := by decide +kernel
  rw [rdCrc32_eq, rdCrc32_eq, bits_append, feeds_append, hreg, feeds_four reg ht, hall, Option.some_inj,
    BitVec.xor_left_inj,
    (shifts_injective poly_high 32).eq_iff]
  constructor
  · intro h
    refine ⟨_, rfl, ?_⟩
    apply bits_injective
    apply ofBits_injective (w := 32) (by rw [length_bits, length_bits, ht, length_le32]) (by rw [length_bits, ht])
    rw [ofBits_le32, ← h, ← BitVec.xor_assoc, BitVec.xor_self, BitVec.zero_xor]
  · rintro ⟨crc, hcrc, rfl⟩
    rw [← Option.some_inj.1 hcrc, ofBits_le32, ← BitVec.xor_assoc, BitVec.xor_self, BitVec.zero_xor]

theorem rdCrc32_residue_a : rdCrc32 ([97] ++ [0x43, 0xbe, 0xb7, 0xe8]) = some 0x2144df1c ↔
    ∃ crc, rdCrc32 [97] = some crc ∧ [0x43, 0xbe, 0xb7, 0xe8] = le32 crc :=
  rdCrc32_residue [97] [0x43, 0xbe, 0xb7, 0xe8] rfl

/-- **Four bytes anywhere** give every value exactly once. -/
theorem rdCrc32_forge (data rest : List UInt8) (crc : RdCrc32) :
    ∃! t : List UInt8, t.length = 4 ∧ rdCrc32 (data ++ t ++ rest) = some crc := by
  have hmap : ∀ word : RdCrc32, rdCrc32 (data ++ le32 word ++ rest) =
      some (feeds poly (shifts poly 32 (feeds poly rdCrc32Init (bits data) ^^^ word)) (bits rest) ^^^ 0xffffffff) := by
    intro word
    rw [rdCrc32_eq, bits_append, bits_append, feeds_append, feeds_append, feeds_four _ (length_le32 word), ofBits_le32]
  have hinj : Function.Injective fun word : RdCrc32 =>
      feeds poly (shifts poly 32 (feeds poly rdCrc32Init (bits data) ^^^ word)) (bits rest) ^^^ 0xffffffff := by
    intro a b h
    rw [BitVec.xor_left_inj] at h
    have hword := shifts_injective poly_high 32 (feeds_injective poly_high _ h)
    rwa [BitVec.xor_right_inj] at hword
  have hfinite : Finite RdCrc32 := Finite.of_equiv _ BitVec.equivFin.toEquiv.symm
  obtain ⟨word, hword⟩ := (Finite.injective_iff_surjective.1 hinj) crc
  refine ⟨le32 word, ⟨rfl, by rw [hmap, ← hword]⟩, ?_⟩
  rintro t ⟨ht, hcrc⟩
  have ht' : t = le32 (ofBits 32 (bits t)) := by
    apply bits_injective
    apply ofBits_injective (w := 32)
    · rw [length_bits, length_bits, ht, length_le32]
    · rw [length_bits, ht]
    · rw [ofBits_le32]
  rw [ht', hmap, ← hword, Option.some_inj] at hcrc
  rw [ht', hinj hcrc]

/-! ## Errors that show -/

/-- **Errors within 32 bits** show. -/
theorem rdCrc32_burst {data data' : List UInt8} (hlen : data.length = data'.length) (hne : data ≠ data') {k : Nat}
    (hwin : ∀ i, (bits data)[i]? ≠ (bits data')[i]? → k ≤ i ∧ i < k + 32) : rdCrc32 data ≠ rdCrc32 data' := by
  have hbits : (bits data).length = (bits data').length := by rw [length_bits, length_bits, hlen]
  rw [Ne, rdCrc32_inj]
  exact feeds_ne_of_burst poly_high hbits (fun h => hne (bits_injective h)) hwin rdCrc32Init

theorem rdCrc32_burst_two : rdCrc32 [1, 128] ≠ rdCrc32 [3, 1] := by
  have hshort : ∀ i < 16, (bits [1, 128])[i]? ≠ (bits [3, 1])[i]? → 1 ≤ i ∧ i < 1 + 32 := by decide
  apply @rdCrc32_burst [1, 128] [3, 1] rfl (by decide) 1
  intro i hi
  by_cases h16 : i < 16
  · exact hshort i h16 hi
  · rw [List.getElem?_eq_none (by rw [length_bits]; exact Nat.not_lt.1 h16),
      List.getElem?_eq_none (by rw [length_bits]; exact Nat.not_lt.1 h16)] at hi
    exact absurd rfl hi

/-- A bit that flips, counted from the lowest bit of the first byte. -/
def flipBit (data : List UInt8) (k : Nat) : List UInt8 :=
  data.modify (k / 8) fun b => b ^^^ (1 <<< UInt8.ofNat (k % 8))

theorem modify_append {α : Type} (f : α → α) : ∀ (l r : List α) (k : Nat),
    (l ++ r).modify k f = if k < l.length then l.modify k f ++ r else l ++ r.modify (k - l.length) f
  | [], r, k => by simp
  | a :: l, r, 0 => by simp
  | a :: l, r, k + 1 => by
    rw [List.cons_append, List.modify_succ_cons, modify_append f l r k, List.modify_succ_cons, List.length_cons,
      Nat.add_sub_add_right]
    by_cases hk : k < l.length
    · rw [if_pos hk, if_pos (Nat.succ_lt_succ hk), List.cons_append]
    · rw [if_neg hk, if_neg (fun h => hk (Nat.lt_of_succ_lt_succ h)), List.cons_append]

theorem getElem?_bits (b : UInt8) (i : Nat) : (bits [b])[i]? = if i < 8 then some (b.toBitVec.getLsbD i) else none := by
  by_cases hi : i < 8
  · simp [bits, hi]
  · simp [bits, hi]

theorem bits_flip (b : UInt8) {k : Nat} (hk : k < 8) :
    bits [b ^^^ (1 <<< UInt8.ofNat k)] = (bits [b]).modify k (!·) := by
  have hone : ∀ k < 8, ∀ i < 8, (1 <<< UInt8.ofNat k : UInt8).toBitVec.getLsbD i = decide (k = i) := by decide
  apply List.ext_getElem?
  intro i
  rw [List.getElem?_modify, getElem?_bits, getElem?_bits]
  by_cases hi : i < 8
  · rw [if_pos hi, if_pos hi, UInt8.toBitVec_xor, BitVec.getLsbD_xor, hone k hk i hi]
    by_cases hki : k = i <;> simp [hki]
  · rw [if_neg hi, if_neg hi]
    rfl

theorem bits_flipBit (data : List UInt8) (k : Nat) : bits (flipBit data k) = (bits data).modify k (!·) := by
  induction data generalizing k with
  | nil =>
    rw [flipBit, List.modify_nil]
    exact (List.modify_nil ..).symm
  | cons b data ih =>
    have hlen : (bits [b]).length = 8 := by rw [length_bits]; rfl
    rw [bits_cons b data, modify_append, hlen]
    by_cases hk : k < 8
    · rw [if_pos hk, flipBit, Nat.div_eq_of_lt hk, Nat.mod_eq_of_lt hk, List.modify_zero_cons, bits_cons _ data,
        bits_flip b hk]
    · have hdiv : k / 8 = (k - 8) / 8 + 1 := by omega
      have hmod : k % 8 = (k - 8) % 8 := by omega
      rw [if_neg hk, ← ih, flipBit, flipBit, hdiv, hmod, List.modify_succ_cons, bits_cons b]

/-- The polynomial is primitive. -/
theorem orderOf_root_poly : orderOf (AdjoinRoot.root (gen poly)) = 4294967295 := by
  have hfactors : ∀ q, q.Prime → q ∣ 4294967295 → q = 3 ∨ q = 5 ∨ q = 17 ∨ q = 257 ∨ q = 65537 := by
    intro q hq hdvd
    have hprod : 4294967295 = 3 * (5 * (17 * (257 * 65537))) := by decide
    rw [hprod, hq.dvd_mul, hq.dvd_mul, hq.dvd_mul, hq.dvd_mul] at hdvd
    simpa only [Nat.prime_dvd_prime_iff_eq hq, show Nat.Prime 3 by norm_num, show Nat.Prime 5 by norm_num,
      show Nat.Prime 17 by norm_num, show Nat.Prime 257 by norm_num, show Nat.Prime 65537 by norm_num] using hdvd
  apply orderOf_root poly (k := 32) (by decide) (by decide) (by decide)
  · decide +kernel
  · intro q hq hdvd
    obtain rfl | rfl | rfl | rfl | rfl := hfactors q hq hdvd <;> decide +kernel

/-- **Two flipped bits** stay unseen only at a distance of a multiple of `2 ^ 32 - 1`. -/
theorem rdCrc32_two_bits (data : List UInt8) {i j : Nat} (hij : i < j) (hj : j < 8 * data.length) :
    rdCrc32 (flipBit (flipBit data i) j) = rdCrc32 data ↔ 4294967295 ∣ j - i := by
  rw [rdCrc32_inj, bits_flipBit, bits_flipBit, ← orderOf_root_poly]
  exact feeds_eq_iff_of_two poly_high _ hij (by rwa [length_bits])

theorem rdCrc32_two_bits_apart : rdCrc32 (flipBit (flipBit [1, 2] 3) 12) = rdCrc32 [1, 2] ↔ 4294967295 ∣ 12 - 3 :=
  rdCrc32_two_bits [1, 2] (by decide) (by decide)

end Librd.Crc
