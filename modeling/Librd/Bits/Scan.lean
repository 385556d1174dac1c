import Librd.Bits.Members
import Mathlib.Order.Lattice.Nat

/-!
# The scans of `rd_bitvec_fxs`

`rd_bitvec_ffs` goes up through the words to the first one that is not 0, which holds the smallest member; when it runs
out of words it returns the number of bits that the words have instead of 0, so it does what `ffs(3)` does exactly for
vectors with members (`ffs_iff`).

`rd_bitvec_fls` goes down, but takes a count of leading zeros of 0 for a word without a bit: a word whose bit 31 is set
is passed over. Its result is one more than the largest member exactly when that member is not the bit 31 of its word
(`fls_iff`).
-/

namespace Librd.Bits

/-! ## Words -/

/-- `ffs` finds the lowest bit. -/
theorem ffs_eq {w : BitVec 32} {k : Nat} (hk : w.getLsbD k = true) (hlow : ∀ j, j < k → w.getLsbD j = false) :
    ffs w = k + 1 := by
  have hw : w ≠ 0 := by
    rintro rfl
    simp at hk
  have hbit := BitVec.getLsbD_true_ctz_of_ne_zero hw
  have hle : k ≤ w.ctz.toNat := by
    by_contra hlt
    rw [hlow _ (Nat.lt_of_not_le hlt)] at hbit
    cases hbit
  have hge : w.ctz.toNat ≤ k := by
    by_contra hlt
    rw [BitVec.getLsbD_false_of_lt_ctz (Nat.lt_of_not_le hlt)] at hk
    cases hk
  rw [ffs, if_neg hw, Nat.le_antisymm hge hle]

/-- `__builtin_clz` finds the highest bit. -/
theorem builtinClz_eq {w : BitVec 32} {k : Nat} (hk : w.getLsbD k = true) (hhigh : ∀ j, k < j → w.getLsbD j = false) :
    builtinClz w = 31 - k := by
  have hw : w ≠ 0 := by
    rintro rfl
    simp at hk
  have hbit : w.getLsbD (31 - builtinClz w) = true := BitVec.getLsbD_true_clz_of_ne_zero (by omega) hw
  have hlt : k < 32 := BitVec.lt_of_getLsbD hk
  have hle : 31 - builtinClz w ≤ k := by
    by_contra h
    rw [hhigh _ (Nat.lt_of_not_le h)] at hbit
    cases hbit
  have hpow : w.toNat < 2 ^ (32 - builtinClz w) := BitVec.toNat_lt_two_pow_sub_clz
  have hge : k < 32 - builtinClz w := by
    by_contra h
    have hfalse : w.toNat.testBit k = false :=
      Nat.testBit_lt_two_pow (Nat.lt_of_lt_of_le hpow (Nat.pow_le_pow_right Nat.two_pos (Nat.le_of_not_lt h)))
    rw [BitVec.testBit_toNat, hk] at hfalse
    cases hfalse
  omega

theorem word_eq_zero {w : BitVec 32} (h : ∀ j, j < 32 → w.getLsbD j = false) : w = 0 := by
  apply BitVec.eq_of_getLsbD_eq
  intro j hj
  rw [h j hj]
  simp

/-! ## The loops -/

/-- The bit `i` of a list of words. -/
def bitAt (b : List (BitVec 32)) (i : Nat) : Bool := (b.getD (i / 32) 0).getLsbD (i % 32)

theorem ffsLoop_zero : ∀ (ws : List (BitVec 32)) (bucket : Int) (bit : Nat), (∀ i, bitAt ws i = false) →
    ffsLoop ws bucket bit = (bucket + ws.length, bit) := by
  intro ws
  induction ws with
  | nil =>
    intro bucket bit _
    simp [ffsLoop]
  | cons w ws ih =>
    intro bucket bit h
    have hw : w = 0 := word_eq_zero fun j hj => by
      simpa [bitAt, Nat.div_eq_of_lt hj, Nat.mod_eq_of_lt hj] using h j
    have hws : ∀ i, bitAt ws i = false := fun i => by
      simpa [bitAt, Nat.add_div_right] using h (i + 32)
    rw [ffsLoop, if_neg (not_not.2 hw), ih _ _ hws, List.length_cons]
    congr 1
    omega

/-- The loop stops at the word of the lowest bit. -/
theorem ffsLoop_least : ∀ (ws : List (BitVec 32)) (bucket : Int) (bit : Nat) {m : Nat}, bitAt ws m = true →
    (∀ i, i < m → bitAt ws i = false) → ffsLoop ws bucket bit = (bucket + (m / 32 : Nat), m % 32 + 1) := by
  intro ws
  induction ws with
  | nil =>
    intro bucket bit m hm _
    simp [bitAt] at hm
  | cons w ws ih =>
    intro bucket bit m hm hlow
    rcases Nat.lt_or_ge m 32 with hlt | hge
    · have hbit : w.getLsbD m = true := by
        simpa [bitAt, Nat.div_eq_of_lt hlt, Nat.mod_eq_of_lt hlt] using hm
      have hffs : ffs w = m + 1 := ffs_eq hbit fun j hj => by
        have hj' : j < 32 := Nat.lt_trans hj hlt
        simpa [bitAt, Nat.div_eq_of_lt hj', Nat.mod_eq_of_lt hj'] using hlow j hj
      have hw : w ≠ 0 := by
        rintro rfl
        simp at hbit
      rw [ffsLoop, if_pos hw, hffs, Nat.div_eq_of_lt hlt, Nat.mod_eq_of_lt hlt]
      simp
    · obtain ⟨k, rfl⟩ := Nat.exists_eq_add_of_le' hge
      have hw : w = 0 := word_eq_zero fun j hj => by
        simpa [bitAt, Nat.div_eq_of_lt hj, Nat.mod_eq_of_lt hj] using hlow j (by omega)
      have hrest := @ih (bucket + 1) bit k (by simpa [bitAt, Nat.add_div_right] using hm)
        (fun i hi => by simpa [bitAt, Nat.add_div_right] using hlow (i + 32) (by omega))
      rw [ffsLoop, if_neg (not_not.2 hw), hrest, Nat.add_mod_right, Nat.add_div_right k (by omega)]
      congr 1
      push_cast
      omega

/-- Words above the highest bit are passed over. -/
theorem flsLoop_skip {b : List (BitVec 32)} {m : Nat} (bit : Nat) (hhigh : ∀ i, m < i → bitAt b i = false) :
    ∀ {k : Nat}, m / 32 < k → flsLoop b k bit = flsLoop b (m / 32 + 1) bit := by
  intro k
  induction k with
  | zero =>
    intro h
    exact absurd h (Nat.not_lt_zero _)
  | succ k ih =>
    intro h
    rcases Nat.lt_succ_iff_lt_or_eq.1 h with hlt | heq
    · have hw : b.getD k 0 = 0 := word_eq_zero fun j hj => by
        have hbit := hhigh (32 * k + j) (by omega)
        rwa [bitAt, show (32 * k + j) / 32 = k by omega, show (32 * k + j) % 32 = j by omega] at hbit
      rw [flsLoop]
      simp only [hw, ne_eq, not_true_eq_false, if_false]
      exact ih hlt
    · rw [heq]

/-- At the word of the highest bit, the loop stops unless that is bit 31. -/
theorem flsLoop_greatest {b : List (BitVec 32)} {m : Nat} (hm : bitAt b m = true)
    (hhigh : ∀ i, m < i → bitAt b i = false) :
    flsLoop b (m / 32 + 1) 0 = if m % 32 = 31 then flsLoop b (m / 32) 0 else ((m / 32 : Nat), m % 32 + 1) := by
  have hlt : m % 32 < 32 := Nat.mod_lt _ (by omega)
  have hw : b.getD (m / 32) 0 ≠ 0 := fun h => by
    rw [bitAt, h] at hm
    simp at hm
  have hclz : builtinClz (b.getD (m / 32) 0) = 31 - m % 32 := builtinClz_eq hm fun j hj => by
    rcases Nat.lt_or_ge j 32 with hj' | hj'
    · have hbit := hhigh (32 * (m / 32) + j) (by omega)
      rwa [bitAt, show (32 * (m / 32) + j) / 32 = m / 32 by omega, show (32 * (m / 32) + j) % 32 = j by omega] at hbit
    · exact BitVec.getLsbD_of_ge _ _ hj'
  rw [flsLoop]
  simp only [if_pos hw, hclz]
  by_cases h31 : m % 32 = 31
  · simp [h31]
  · rw [if_pos (by omega), if_neg h31]
    congr 1
    omega

/-- Below the word `k` the loop finds no more than bit 30 of the word `k - 1`. -/
theorem flsLoop_le (b : List (BitVec 32)) (k : Nat) :
    flsLoop b k 0 = (-1, 0) ∨ ∃ q r : Nat, flsLoop b k 0 = ((q : Int), r) ∧ q < k ∧ r ≤ 31 := by
  induction k with
  | zero => exact .inl rfl
  | succ k ih =>
    have hrest : flsLoop b k 0 = (-1, 0) ∨ ∃ q r : Nat, flsLoop b k 0 = ((q : Int), r) ∧ q < k + 1 ∧ r ≤ 31 := by
      rcases ih with h | ⟨q, r, h, hq, hr⟩
      · exact .inl h
      · exact .inr ⟨q, r, h, by omega, hr⟩
    rw [flsLoop]
    by_cases hw : b.getD k 0 ≠ 0
    · by_cases hclz : builtinClz (b.getD k 0) ≠ 0
      · right
        refine ⟨k, 32 - builtinClz (b.getD k 0), ?_, by omega, by omega⟩
        simp only [if_pos hw, if_pos hclz]
      · have hzero : builtinClz (b.getD k 0) = 0 := not_not.1 hclz
        simpa only [if_pos hw, hzero, ne_eq, not_true_eq_false, if_false] using hrest
    · simpa only [if_neg hw] using hrest

/-! ## Members -/

/-- The numbers that `rd_bitvec_test` finds. -/
def members (rbv : Bitvec) : Set Nat := {i | bitvecTest rbv i ≠ 0}

section Scans

variable {n : Nat} {calls : List Call} {rbv : Bitvec} {outs : List Int}

theorem Reached.mem_members (h : Reached n calls rbv outs) {i : Nat} : i ∈ members rbv ↔ bitAt rbv.b i = true := by
  rw [members, Set.mem_ofPred_eq, test_ne_zero, h.holds.mem_iff]
  rfl

theorem Reached.le_max (h : Reached n calls rbv outs) : n ≤ 4096 ∧ rbv.b.length = 1 + n / 32 := by
  have hmax := rbv.buckets
  rw [h.holds.max] at hmax
  obtain ⟨rbv₀, hinit, -⟩ := h
  refine ⟨?_, hmax⟩
  by_contra hn
  rw [bitvecInit, if_neg hn] at hinit
  cases hinit

theorem Reached.mem_iff (h : Reached n calls rbv outs) {i : Nat} :
    i ∈ members rbv ↔ i ≤ n ∧ lastOn calls i = some (.set i) :=
  h.mem_members.trans (h.holds.bit i)

/-- The value that `rd_bitvec_fxs` returns for a `bucket` that is not negative. -/
theorem ret_eq (q r : Nat) : UInt64.ofNat r + UInt64.ofInt q * 32 = UInt64.ofNat (32 * q + r) := by
  have hq : UInt64.ofInt q = UInt64.ofNat q := by
    apply UInt64.toNat_inj.1
    rw [UInt64.ofInt, UInt64.toNat_ofNat', UInt64.toNat_ofNat']
    omega
  rw [hq, UInt64.ofNat_add, UInt64.ofNat_mul, UInt64.add_comm, UInt64.mul_comm]
  rfl

theorem ofNat_inj_of_lt {a b : Nat} (ha : a < 5000) (hb : b < 5000) (h : UInt64.ofNat a = UInt64.ofNat b) : a = b := by
  have h' := congrArg UInt64.toNat h
  rw [UInt64.toNat_ofNat', UInt64.toNat_ofNat'] at h'
  omega

/-- **The smallest member**: `rd_bitvec_ffs` returns what `ffs(3)` would, 0 for no members and one more than the
smallest member otherwise, if and only if there are members. -/
theorem ffs_iff (h : Reached n calls rbv outs) :
    ((members rbv = ∅ → bitvecFfs rbv = some 0) ∧
      ∀ m, IsLeast (members rbv) m → bitvecFfs rbv = some (UInt64.ofNat (m + 1))) ↔ (members rbv).Nonempty := by
  constructor
  · rintro ⟨hempty, -⟩
    by_contra hne
    have hnone := Set.not_nonempty_iff_eq_empty.1 hne
    have hbits : ∀ i, bitAt rbv.b i = false := fun i => by
      rw [← Bool.not_eq_true, ← h.mem_members, hnone]
      exact id
    obtain ⟨hn, hlen⟩ := h.le_max
    have hret := hempty hnone
    rw [bitvecFfs, bitvecFxs, ffsLoop_zero _ _ _ hbits, Int.zero_add] at hret
    simp only [ret_eq, Option.some.injEq] at hret
    have hzero := ofNat_inj_of_lt (b := 0) (by omega) (by omega) hret
    omega
  · intro hne
    refine ⟨fun hempty => absurd hempty hne.ne_empty, fun m hm => ?_⟩
    have hlow : ∀ i, i < m → bitAt rbv.b i = false := fun i hi => by
      rw [← Bool.not_eq_true, ← h.mem_members]
      exact fun hmem => absurd (hm.2 hmem) (Nat.not_le.2 hi)
    rw [bitvecFfs, bitvecFxs, ffsLoop_least _ _ _ (h.mem_members.1 hm.1) hlow, Int.zero_add]
    simp only [ret_eq, Option.some.injEq]
    congr 1
    omega

theorem fls_eq_iff (h : Reached n calls rbv outs) {m : Nat} (hm : IsGreatest (members rbv) m) :
    bitvecFls rbv = some (UInt64.ofNat (m + 1)) ↔ m % 32 ≠ 31 := by
  obtain ⟨hn, hlen⟩ := h.le_max
  have hmn : m ≤ n := (h.mem_iff.1 hm.1).1
  have hhigh : ∀ i, m < i → bitAt rbv.b i = false := fun i hi => by
    rw [← Bool.not_eq_true, ← h.mem_members]
    exact fun hmem => absurd (hm.2 hmem) (Nat.not_le.2 hi)
  rw [bitvecFls, bitvecFxs, flsLoop_skip 0 hhigh (by omega), flsLoop_greatest (h.mem_members.1 hm.1) hhigh]
  by_cases h31 : m % 32 = 31
  · -- the words below hold only smaller members, and without one the scan ends at -1
    refine iff_of_false ?_ (not_not.2 h31)
    rw [if_pos h31]
    intro hret
    rcases flsLoop_le rbv.b (m / 32) with hend | ⟨q, r, hend, hq, hr⟩
    · rw [hend] at hret
      have hnat := congrArg UInt64.toNat (Option.some.inj hret)
      rw [UInt64.toNat_ofNat'] at hnat
      have hval : (UInt64.ofNat 0 + UInt64.ofInt (-1) * 32).toNat = 2 ^ 64 - 32 := by decide
      simp only [hval] at hnat
      omega
    · rw [hend] at hret
      simp only [ret_eq, Option.some.injEq] at hret
      have := ofNat_inj_of_lt (by omega) (by omega) hret
      omega
  · refine iff_of_true ?_ h31
    rw [if_neg h31]
    simp only [ret_eq, Option.some.injEq]
    congr 1
    omega

/-- **The largest member**: `rd_bitvec_fls` returns one more than the largest member if and only if that member is not
the bit 31 of its word. -/
theorem fls_iff (h : Reached n calls rbv outs) (hne : (members rbv).Nonempty) :
    ∃ m, IsGreatest (members rbv) m ∧ (bitvecFls rbv = some (UInt64.ofNat (m + 1)) ↔ m % 32 ≠ 31) := by
  have hbdd : BddAbove (members rbv) := ⟨n, fun i hi => (h.mem_iff.1 hi).1⟩
  have hmax : IsGreatest (members rbv) (sSup (members rbv)) := ⟨Nat.sSup_mem hne hbdd, fun i hi => le_csSup hbdd hi⟩
  exact ⟨_, hmax, fls_eq_iff h hmax⟩

end Scans

/-- 17 and 33 are set, and 40 was for a while. -/
def sampleCalls : List Call := [.set 33, .set 40, .set 17, .reset 40]

theorem sample_range : ∀ i, i ≤ 40 → lastOn sampleCalls i = some (.set i) → 17 ≤ i ∧ i ≤ 33 := by decide

theorem ffs_iff_sample : ∃ rbv outs, Reached 40 sampleCalls rbv outs ∧ IsLeast (members rbv) 17 ∧
    bitvecFfs rbv = some 18 := by
  obtain ⟨rbv, outs, h⟩ : ∃ rbv outs, Reached 40 sampleCalls rbv outs := ⟨_, _, _, rfl, rfl⟩
  have hleast : IsLeast (members rbv) 17 := by
    refine ⟨h.mem_iff.2 (by decide), fun i hi => ?_⟩
    obtain ⟨hle, hlast⟩ := h.mem_iff.1 hi
    exact (sample_range i hle hlast).1
  exact ⟨rbv, outs, h, hleast, ((ffs_iff h).2 ⟨17, hleast.1⟩).2 17 hleast⟩

theorem fls_iff_sample : ∃ rbv outs, Reached 40 sampleCalls rbv outs ∧ IsGreatest (members rbv) 33 ∧
    bitvecFls rbv = some 34 := by
  obtain ⟨rbv, outs, h⟩ : ∃ rbv outs, Reached 40 sampleCalls rbv outs := ⟨_, _, _, rfl, rfl⟩
  have hgreatest : IsGreatest (members rbv) 33 := by
    refine ⟨h.mem_iff.2 (by decide), fun i hi => ?_⟩
    obtain ⟨hle, hlast⟩ := h.mem_iff.1 hi
    exact (sample_range i hle hlast).2
  obtain ⟨m, hm, hiff⟩ := fls_iff h ⟨33, hgreatest.1⟩
  obtain rfl := hm.unique hgreatest
  exact ⟨rbv, outs, h, hgreatest, hiff.2 (by decide)⟩

/-- `rd_bitvec_ffs` of a vector whose only bit was reset again returns 32, not 0. -/
theorem ffs_of_empty : ∃ rbv outs, Reached 31 [.set 3, .reset 3] rbv outs ∧ members rbv = ∅ ∧
    bitvecFfs rbv = some 32 ∧ bitvecFfs rbv ≠ some 0 := by
  obtain ⟨rbv, outs, h, hffs⟩ : ∃ rbv outs, Reached 31 [.set 3, .reset 3] rbv outs ∧ bitvecFfs rbv = some 32 :=
    ⟨_, _, ⟨_, rfl, rfl⟩, by decide⟩
  have hnone : ∀ i, i ≤ 31 → lastOn [.set 3, .reset 3] i ≠ some (.set i) := by decide
  refine ⟨rbv, outs, h, Set.eq_empty_of_forall_notMem fun i hi => ?_, hffs, by rw [hffs]; decide⟩
  obtain ⟨hle, hlast⟩ := h.mem_iff.1 hi
  exact hnone i hle hlast

/-- `rd_bitvec_fls` of a vector with the only member 31 returns `2 ^ 64 - 32`, not 32. -/
theorem fls_of_bit31 : ∃ rbv outs, Reached 31 [.set 31] rbv outs ∧ IsGreatest (members rbv) 31 ∧
    bitvecFls rbv = some 18446744073709551584 ∧ bitvecFls rbv ≠ some 32 := by
  obtain ⟨rbv, outs, h, hfls⟩ : ∃ rbv outs, Reached 31 [.set 31] rbv outs ∧
      bitvecFls rbv = some 18446744073709551584 := ⟨_, _, ⟨_, rfl, rfl⟩, by decide⟩
  exact ⟨rbv, outs, h, ⟨h.mem_iff.2 (by decide), fun i hi => (h.mem_iff.1 hi).1⟩, hfls, by rw [hfls]; decide⟩

end Librd.Bits
