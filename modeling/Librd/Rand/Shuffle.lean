import Librd.Lib.FisherYates
import Librd.Lib.Splice
import Librd.Lib.Words

/-!
# Shuffling an array (`rd_array_shuffle` of `rdrand.c`)

The array is the list of its bytes, and `entries` are its entries. What `rand` returns is a parameter, by the number of
the call. An `int` that overflows and a copy from or to a place outside of the array are faults (`none`). `alloca` is
taken to succeed, for an entry of any size.

* `shuffleLoop_ok`: the loop over `int` and bytes is `FisherYates.shuffle` on the entries;
* `shuffle_right_iff`: the draws correspond one to one to the arrangements exactly if the number of the
  entries is an `int`.
-/

namespace Librd.Rand

open Words FisherYates

abbrev Byte := UInt8

/-- `INT_MAX`. -/
def intMax : Nat := 2147483647

/-- `rd_jitter`, with the number that `rand` returns. -/
def rdJitter (rand low high : Int) : Option Int :=
  -- `high+1`
  if high = intMax ∨ high + 1 = 0 then none
  else
    let x := low + rand.tmod (high + 1)
    if -2147483648 ≤ x ∧ x ≤ intMax then some x else none

/-- `i*entry_size`. -/
def offset (i : Int) (entrySize : Nat) : Nat := toSize (toSize i * entrySize)

/-- `memcpy` from the array. -/
def load (base : List Byte) (src n : Nat) : Option (List Byte) :=
  if src + n ≤ base.length then some (Splice.read base src n) else none

/-- `memcpy` to the array. -/
def store (base : List Byte) (dst : Nat) (bytes : List Byte) : Option (List Byte) :=
  if dst + bytes.length ≤ base.length then some (Splice.write base dst bytes) else none

/-- The three copies of the loop. -/
def exchange (base : List Byte) (i j : Int) (entrySize : Nat) : Option (List Byte) := do
  let tmp ← load base (offset i entrySize) entrySize
  let entry ← load base (offset j entrySize) entrySize
  let base ← store base (offset i entrySize) entry
  store base (offset j entrySize) tmp

/-- The loop of `rd_array_shuffle` from `i` down, with `calls` calls of `rand` before. -/
def shuffleLoop (rand : Nat → Nat) (entrySize : Nat) : Nat → Nat → List Byte → Option (List Byte)
  | 0, _, base => some base
  | i + 1, calls, base => do
    let j ← rdJitter (rand calls) 0 (i + 1)
    if j = i + 1 then shuffleLoop rand entrySize i (calls + 1) base
    else
      let base ← exchange base (i + 1) j entrySize
      shuffleLoop rand entrySize i (calls + 1) base

/-- `rd_array_shuffle`. -/
def rdArrayShuffle (rand : Nat → Nat) (base : List Byte) (nmemb entrySize : Nat) : Option (List Byte) :=
  -- `i = nmemb - 1`, for an `int i`
  let i := toInt (toSize (nmemb - 1))
  shuffleLoop rand entrySize i.toNat 0 base

/-! ## Entries -/

/-- The entries of an array. -/
def entries (base : List Byte) (n entrySize : Nat) : List (List Byte) :=
  (List.range n).map fun k => Splice.read base (k * entrySize) entrySize

section Entries

variable {base : List Byte} {n es i j : Nat}

theorem length_entries : (entries base n es).length = n := by rw [entries, List.length_map, List.length_range]

theorem getElem?_entries (hi : i < n) : (entries base n es)[i]? = some (Splice.read base (i * es) es) := by
  rw [entries, List.getElem?_map, List.getElem?_range hi, Option.map_some]

/-- Entries lie apart from each other. -/
theorem entry_le (h : i < j) : i * es + es ≤ j * es := by
  rw [← Nat.succ_mul]
  exact Nat.mul_le_mul_right es h

theorem entry_disjoint (h : i ≠ j) : i * es + es ≤ j * es ∨ j * es + es ≤ i * es :=
  (Nat.lt_or_gt_of_ne h).imp entry_le entry_le

/-- The entries after one is written. -/
theorem read_write_entry {b : List Byte} (hb : b.length = es) (hj : j * es + es ≤ base.length) (k : Nat) :
    Splice.read (Splice.write base (j * es) b) (k * es) es = if k = j then b else Splice.read base (k * es) es := by
  have hfit : j * es + b.length ≤ base.length := by rwa [hb]
  split
  · next h =>
    subst h
    have hself := Splice.read_write_self hfit
    rwa [hb] at hself
  · next h =>
    apply Splice.read_write_of_disjoint hfit
    rw [hb]
    exact entry_disjoint h

section Inside

variable (hlen : base.length = n * es)
include hlen

theorem entry_inside (hi : i < n) : i * es + es ≤ base.length := hlen ▸ entry_le hi

variable (hsize : base.length < 18446744073709551616)
include hsize

/-- The offset of an entry. -/
theorem offset_entry (hi : i < n) : offset i es = i * es := by
  have hin := entry_inside hlen hi
  rcases Nat.eq_zero_or_pos es with rfl | hes
  · rw [offset, Int.natCast_zero, Int.mul_zero, Nat.mul_zero]
    rfl
  · have hle : i ≤ i * es := Nat.le_mul_of_pos_right i hes
    rw [offset, toSize_natCast (by omega), ← Int.natCast_mul, toSize_natCast (by omega)]

/-- **The three copies** exchange two entries. -/
theorem exchange_ok (hi : i < n) (hj : j < n) (hij : i ≠ j) :
    ∃ t, exchange base i j es = some t ∧ t.length = base.length ∧ entries t n es = swapAt (entries base n es) i j := by
  -- `tmp`, the other entry, and the array after the first of the two writes
  obtain ⟨tmp, htmp⟩ : ∃ tmp, Splice.read base (i * es) es = tmp := ⟨_, rfl⟩
  obtain ⟨entry, hentry⟩ : ∃ entry, Splice.read base (j * es) es = entry := ⟨_, rfl⟩
  obtain ⟨mid, hmid⟩ : ∃ mid, Splice.write base (i * es) entry = mid := ⟨_, rfl⟩
  have hin_i := entry_inside hlen hi
  have hin_j := entry_inside hlen hj
  have htmplen : tmp.length = es := htmp ▸ Splice.length_read hin_i
  have hentrylen : entry.length = es := hentry ▸ Splice.length_read hin_j
  have hfit_i : i * es + entry.length ≤ base.length := by rwa [hentrylen]
  have hmidlen : mid.length = base.length := hmid ▸ Splice.length_write hfit_i
  have hfit_j : j * es + tmp.length ≤ mid.length := by rwa [htmplen, hmidlen]
  refine ⟨Splice.write mid (j * es) tmp, ?_, (Splice.length_write hfit_j).trans hmidlen, ?_⟩
  · simp only [exchange, load, store, offset_entry hlen hsize hi, offset_entry hlen hsize hj,
      if_pos hin_i, if_pos hin_j,
      htmp, hentry, if_pos hfit_i, hmid, if_pos hfit_j, Option.bind_eq_bind, Option.bind_some]
  · have hread : ∀ k, Splice.read (Splice.write mid (j * es) tmp) (k * es) es =
        if k = j then tmp else if k = i then entry else Splice.read base (k * es) es := by
      intro k
      rw [read_write_entry htmplen (by omega), ← hmid, read_write_entry hentrylen hin_i]
    have hlen' : (entries base n es).length = n := length_entries
    apply eq_swapAt (by omega) (by omega)
    · rw [getElem?_entries hi, getElem?_entries hj, hread, if_neg hij, if_pos rfl, hentry]
    · rw [getElem?_entries hi, getElem?_entries hj, hread, if_pos rfl, htmp]
    · intro k hki hkj
      rcases Nat.lt_or_ge k n with hk | hk
      · rw [getElem?_entries hk, getElem?_entries hk, hread, if_neg hkj, if_neg hki]
      · rw [List.getElem?_eq_none (by rw [length_entries]; exact hk), List.getElem?_eq_none (by rw [hlen']; exact hk)]

end Inside

end Entries

/-! ## The loop -/

/-- A draw up to `i`. -/
theorem rdJitter_of_lt (rand : Nat) {i : Nat} (h : i < intMax) :
    rdJitter rand 0 i = some ((rand % (i + 1) : Nat) : Int) := by
  have hmod : ((rand : Int).tmod (i + 1)) = ((rand % (i + 1) : Nat) : Int) := by
    rw [Int.tmod_eq_emod_of_nonneg (Int.natCast_nonneg rand), Int.natCast_mod, Int.natCast_succ]
  have hlt : rand % (i + 1) < i + 1 := Nat.mod_lt _ (Nat.succ_pos i)
  rw [rdJitter, if_neg (by omega), hmod, Int.zero_add]
  exact if_pos (by omega)

/-- `high+1` overflows. -/
theorem rdJitter_intMax (rand : Int) : rdJitter rand 0 intMax = none := if_pos (.inl rfl)

/-- **The loop shuffles** the entries, by the numbers that `rand` returns modulo the number of the possible draws. -/
theorem shuffleLoop_ok {rand d : Nat → Nat} {n es : Nat} (hd : ∀ k, d k ≤ k) :
    ∀ (i calls : Nat) {base : List Byte}, i < n → i < intMax → base.length = n * es →
      base.length < 18446744073709551616 → (∀ k, 0 < k → k ≤ i → rand (calls + (i - k)) % (k + 1) = d k) →
      ∃ t, shuffleLoop rand es i calls base = some t ∧ t.length = base.length ∧
        entries t n es = shuffle d i (entries base n es)
  | 0, _, base, _, _, _, _, _ => ⟨base, rfl, rfl, rfl⟩
  | i + 1, calls, base, hi, hmax, hlen, hsize, hrand => by
    have hdraw : rand calls % (i + 1 + 1) = d (i + 1) := by
      simpa only [Nat.sub_self, Nat.add_zero] using hrand (i + 1) (Nat.succ_pos i) (Nat.le_refl _)
    have hnext : ∀ k, 0 < k → k ≤ i → rand (calls + 1 + (i - k)) % (k + 1) = d k := by
      intro k hk hki
      rw [← hrand k hk (by omega)]
      congr 2
      omega
    have hjitter : rdJitter (rand calls) 0 ((i : Int) + 1) = some (d (i + 1) : Int) := by
      rw [← Int.natCast_succ, rdJitter_of_lt _ hmax, hdraw]
    have hle := hd (i + 1)
    rw [shuffleLoop, hjitter, Option.bind_eq_bind, Option.bind_some, shuffle]
    by_cases hij : d (i + 1) = i + 1
    · -- `continue`
      rw [if_pos (by omega), hij, swapAt_self]
      exact shuffleLoop_ok hd i (calls + 1) (by omega) (by omega) hlen hsize hnext
    · obtain ⟨mid, hmid, hmidlen, hswap⟩ := exchange_ok hlen hsize hi (by omega) (Ne.symm hij)
      obtain ⟨t, ht, htlen, hentries⟩ :=
        shuffleLoop_ok hd i (calls + 1) (by omega) (by omega) (hmidlen.trans hlen) (hmidlen ▸ hsize) hnext
      rw [if_neg (by omega), ← Int.natCast_succ, hmid, Option.bind_eq_bind, Option.bind_some]
      exact ⟨t, ht, htlen.trans hmidlen, by rw [hentries, hswap]⟩

/-- The loop calls `rand` once for each index. -/
theorem shuffleLoop_congr {rand rand' : Nat → Nat} (es : Nat) :
    ∀ (i calls : Nat) (base : List Byte), (∀ c, calls ≤ c → c < calls + i → rand c = rand' c) →
      shuffleLoop rand es i calls base = shuffleLoop rand' es i calls base
  | 0, _, _, _ => rfl
  | i + 1, calls, base, h => by
    have hnext : ∀ c, calls + 1 ≤ c → c < calls + 1 + i → rand c = rand' c := by
      intro c hc hci
      exact h c (by omega) (by omega)
    rw [shuffleLoop, shuffleLoop, h calls (Nat.le_refl _) (by omega)]
    simp only [shuffleLoop_congr es i (calls + 1) _ hnext]

/-- The first index of `INT_MAX + 1` entries is too large for `rd_jitter`. -/
theorem shuffleLoop_intMax (rand : Nat → Nat) (es calls : Nat) (base : List Byte) {i : Nat} (hi : i + 1 = intMax) :
    shuffleLoop rand es (i + 1) calls base = none := by
  have hcast : (i : Int) + 1 = intMax := by omega
  rw [shuffleLoop, hcast, rdJitter_intMax]
  rfl

/-! ## Draws and arrangements -/

/-- `rand` that returns the draws, from the one for `n - 1` down. -/
def randOf {n : Nat} (d : Draws n) (call : Nat) : Nat := d.at (n - 1 - call)

/-- The arrangement of the entries that the draws lead to. -/
def shuffled (base : List Byte) (n entrySize : Nat) (d : Draws n) : Option (List (List Byte)) :=
  (rdArrayShuffle (randOf d) base n entrySize).map fun t => entries t n entrySize

/-- The arrangements of the entries. -/
def arrangements (base : List Byte) (n entrySize : Nat) : Set (Option (List (List Byte))) :=
  some '' {t | t.Perm (entries base n entrySize)}

/-- The draws correspond one to one to the arrangements, and uniform draws give each of them with the same
probability. -/
structure ShufflesRight (base : List Byte) (n entrySize : Nat) : Prop where
  bijOn : Set.BijOn (shuffled base n entrySize) Set.univ (arrangements base n entrySize)
  uniform : ∀ t ∈ arrangements base n entrySize,
    PMF.map (shuffled base n entrySize) (PMF.uniformOfFintype (Draws n)) t = (n.factorial : ENNReal)⁻¹

theorem randOf_mod {n : Nat} (d : Draws n) {k : Nat} (hk : k ≤ n - 1) :
    randOf d (0 + (n - 1 - k)) % (k + 1) = d.at k := by
  have hback : n - 1 - (0 + (n - 1 - k)) = k := by omega
  rw [randOf, hback]
  exact Nat.mod_eq_of_lt (Nat.lt_succ_of_le (d.at_le k))

section Right

variable {base : List Byte} {n es : Nat}

/-- `nmemb - 1` as an `int`. -/
theorem toInt_pred (h : 0 < n) (hn : n ≤ intMax) : (toInt (toSize (n - 1))).toNat = n - 1 := by
  unfold intMax at hn
  have hcast : ((n : Int) - 1) = ((n - 1 : Nat) : Int) := by omega
  rw [hcast, toSize_natCast (by omega), toInt_of_lt (by omega) (by omega)]
  rfl

/-- **The result** of the draws. -/
theorem shuffled_eq (hn : n ≤ intMax) (hlen : base.length = n * es) (hsize : base.length < 18446744073709551616)
    (d : Draws n) : shuffled base n es d = some (shuffle d.at (n - 1) (entries base n es)) := by
  rcases Nat.eq_zero_or_pos n with rfl | hpos
  · rfl
  · have hn' := hn
    unfold intMax at hn'
    have hmax : n - 1 < intMax := by unfold intMax; omega
    obtain ⟨t, ht, -, hentries⟩ :=
      shuffleLoop_ok d.at_le (n - 1) 0 (by omega) hmax hlen hsize fun k _ hk => randOf_mod d hk
    rw [shuffled, rdArrayShuffle, toInt_pred hpos hn, ht, Option.map_some, hentries]

theorem shufflesRight_of_le (hn : n ≤ intMax) (hlen : base.length = n * es)
    (hsize : base.length < 18446744073709551616) (hnd : (entries base n es).Nodup) : ShufflesRight base n es := by
  have heq : shuffled base n es = some ∘ fun d : Draws n => shuffle d.at (n - 1) (entries base n es) :=
    funext fun d => shuffled_eq hn hlen hsize d
  have hbij : Set.BijOn (shuffled base n es) Set.univ (arrangements base n es) := by
    rw [heq]
    exact (Option.some_injective _).injOn.bijOn_image.comp (shuffle_bijOn length_entries hnd)
  refine ⟨hbij, ?_⟩
  intro t ht
  rw [uniform_of_bijOn hbij ht, card_draws]

/-- With more entries the loop starts at `INT_MAX`, or too low to use the draw for the index `1`. -/
theorem not_shufflesRight (hn : intMax < n) : ¬ ShufflesRight base n es := by
  intro h
  obtain ⟨i, hi, hile⟩ : ∃ i, (toInt (toSize (n - 1))).toNat = i ∧ i ≤ intMax := by
    refine ⟨_, rfl, ?_⟩
    rw [toInt_eq]
    unfold intMax
    omega
  rcases Nat.eq_or_lt_of_le hile with hmax | hlt
  · -- the first draw faults
    have hfault : shuffled base n es (fun _ => 0) = none := by
      rw [shuffled, rdArrayShuffle, hi]
      obtain ⟨i, rfl⟩ := Nat.exists_eq_succ_of_ne_zero (hmax ▸ (by decide : intMax ≠ 0))
      rw [shuffleLoop_intMax _ _ _ _ hmax]
      rfl
    obtain ⟨t, -, ht⟩ := h.bijOn.mapsTo (Set.mem_univ fun _ => 0)
    rw [hfault] at ht
    cases ht
  · -- two draws that differ for the index `1` only
    have hpos : 1 < n := by unfold intMax at hn; omega
    have hsame : shuffled base n es (Function.update (fun _ => 0) ⟨1, hpos⟩ 1) = shuffled base n es (fun _ => 0) := by
      rw [shuffled, shuffled, rdArrayShuffle, rdArrayShuffle, hi]
      apply congrArg
      apply shuffleLoop_congr
      intro c _ hc
      apply Draws.at_update_ne
      show n - 1 - c ≠ 1
      omega
    have heq := congrFun (h.bijOn.injOn (Set.mem_univ _) (Set.mem_univ _) hsame) ⟨1, hpos⟩
    rw [Function.update_self] at heq
    cases heq

/-- **The shuffle** is one exactly for a number of entries up to `INT_MAX`. -/
theorem shuffle_right_iff (hlen : base.length = n * es) (hsize : base.length < 18446744073709551616)
    (hnd : (entries base n es).Nodup) : ShufflesRight base n es ↔ n ≤ 2147483647 := by
  constructor
  · intro h
    by_contra hn
    exact not_shufflesRight (Nat.lt_of_not_le hn) h
  · intro hn
    exact shufflesRight_of_le hn hlen hsize hnd

theorem shuffle_right_three : ShufflesRight [1, 2, 3] 3 1 :=
  (shuffle_right_iff rfl (by decide) (by decide)).2 (by decide)

end Right

/-! ## A large array -/

/-- A `uint32_t` in memory. -/
def le32 (x : Nat) : List Byte :=
  [UInt8.ofNat x, UInt8.ofNat (x / 256), UInt8.ofNat (x / 65536), UInt8.ofNat (x / 16777216)]

/-- The array of the numbers below `n`. -/
def numbers (n : Nat) : List Byte := ((List.range n).map le32).flatten

theorem le32_inj {x y : Nat} (hx : x < 4294967296) (hy : y < 4294967296) (h : le32 x = le32 y) : x = y := by
  simp only [le32, List.cons.injEq, and_true, UInt8.ofNat_eq_iff_mod_eq_toNat, UInt8.toNat_ofNat'] at h
  omega

/-- The entries of the concatenation of blocks. -/
theorem read_flatten {es : Nat} : ∀ {bs : List (List Byte)} {k : Nat} {b : List Byte}, (∀ b ∈ bs, b.length = es) →
    bs[k]? = some b → Splice.read bs.flatten (k * es) es = b
  | b :: bs, 0, _, hlen, rfl => by
    rw [Splice.read, Nat.zero_mul, List.drop_zero, List.flatten_cons, ← hlen b List.mem_cons_self, List.take_left]
  | b' :: bs, k + 1, b, hlen, hk => by
    have hdrop : (b' :: bs).flatten.drop ((k + 1) * es) = bs.flatten.drop (k * es) := by
      rw [Nat.succ_mul, Nat.add_comm, ← List.drop_drop, List.flatten_cons, ← hlen b' List.mem_cons_self, List.drop_left]
    rw [Splice.read, hdrop]
    exact read_flatten (fun b hb => hlen b (List.mem_cons_of_mem _ hb)) hk

theorem entries_flatten {es : Nat} {bs : List (List Byte)} (h : ∀ b ∈ bs, b.length = es) :
    entries bs.flatten bs.length es = bs := by
  apply List.ext_getElem?
  intro k
  rcases Nat.lt_or_ge k bs.length with hk | hk
  · rw [getElem?_entries hk, read_flatten h (List.getElem?_eq_getElem hk), List.getElem?_eq_getElem hk]
  · rw [List.getElem?_eq_none hk, List.getElem?_eq_none (by rwa [length_entries])]

section Numbers

variable (n : Nat)

theorem length_le32 : ∀ b ∈ (List.range n).map le32, b.length = 4 := by
  intro b hb
  obtain ⟨x, -, rfl⟩ := List.mem_map.1 hb
  rfl

theorem entries_numbers : entries (numbers n) n 4 = (List.range n).map le32 := by
  have h := entries_flatten (length_le32 n)
  rwa [List.length_map, List.length_range] at h

theorem length_numbers : (numbers n).length = n * 4 := by
  have hlens : ((List.range n).map le32).map List.length = List.replicate n 4 := by
    apply List.eq_replicate_iff.2
    refine ⟨by rw [List.length_map, List.length_map, List.length_range], ?_⟩
    intro x hx
    obtain ⟨b, hb, rfl⟩ := List.mem_map.1 hx
    exact length_le32 n b hb
  rw [numbers, List.length_flatten, hlens, List.sum_replicate_nat]

theorem nodup_numbers {n : Nat} (h : n ≤ 4294967296) : (entries (numbers n) n 4).Nodup := by
  rw [entries_numbers]
  apply List.Nodup.map_on _ List.nodup_range
  intro x hx y hy heq
  have hx' := List.mem_range.1 hx
  have hy' := List.mem_range.1 hy
  exact le32_inj (by omega) (by omega) heq

end Numbers

/-- **An array that stays as it is:** for the `2^31 + 1` first numbers, `i` is negative from the start. -/
theorem shuffle_wrong :
    (numbers 2147483649).length = 2147483649 * 4 ∧ (entries (numbers 2147483649) 2147483649 4).Nodup ∧
      (∀ rand, rdArrayShuffle rand (numbers 2147483649) 2147483649 4 = some (numbers 2147483649)) ∧
      ¬ ShufflesRight (numbers 2147483649) 2147483649 4 := by
  refine ⟨length_numbers _, nodup_numbers (by decide), ?_, not_shufflesRight (by decide)⟩
  intro rand
  have hi : (toInt (toSize ((2147483649 : Nat) - 1))).toNat = 0 := by decide
  rw [rdArrayShuffle, hi, shuffleLoop]

end Librd.Rand
