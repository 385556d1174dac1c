import Librd.Encoding.Decode
import Mathlib.Algebra.Order.BigOperators.Group.List

/-!
# Varints: encoding and decoding

The encoder writes the base-128 digits of the value, all but the last one with bit 7 set, and refuses exactly when the
buffer is too short for them (`encodeU64_ok`, `encodeU64_short`). The decoder reads the value back whatever follows it
(`decodeU64_varint`), so values encoded back to back are decoded one after another (`u64_round_trip`).

Buffer shortage is reported by a length, and a varint that is cut off after eight bytes looks like an overflow
(`truncated_iff`).

The signed variants fold and unfold the sign with an exclusive or of a value with itself, so every negative number is
encoded as 0: exactly the numbers that are not negative come back (`s64_round_trip_iff`).
-/

namespace Librd.Encoding

/-! ## Bytes and numbers -/

/-- The bytes of the varint of `n`. -/
def varint (n : Nat) : List UInt8 := (Leb128.marked 7 n).map UInt8.ofNat

/-- The length of the varint of `v`: `max(1, ceil(bitlength(v) / 7))`. -/
def varintLen (v : UInt64) : Nat := max 1 ((v.toNat.size + 6) / 7)

theorem length_varint (v : UInt64) : (varint v.toNat).length = varintLen v := by
  rw [varint, List.length_map, Leb128.length_marked (by omega), varintLen]

theorem varint_last {n : Nat} (h : n < 128) : varint n = [UInt8.ofNat n] := by
  rw [varint, Leb128.marked_last (by simpa using h)]; rfl

theorem varint_more {n : Nat} (h : 128 ≤ n) : varint n = UInt8.ofNat (n % 128 + 128) :: varint (n / 128) := by
  rw [varint, Leb128.marked_more (by omega) (by simpa using h)]; rfl

theorem varint_pos (n : Nat) : 0 < (varint n).length := by
  rw [varint, List.length_map]; exact Leb128.length_pos n

theorem varintLen_le_ten (v : UInt64) : varintLen v ≤ 10 := by
  have h1 : v.toNat.size ≤ 64 := Nat.size_le.2 v.toNat_lt
  unfold varintLen
  omega

theorem more_iff (x : UInt64) : 0x80 ≤ x ↔ 128 ≤ x.toNat := by
  rw [UInt64.le_iff_toNat_le]; rfl

theorem toNat_shr7 (x : UInt64) : (x >>> 7).toNat = x.toNat / 128 := by
  rw [UInt64.toNat_shiftRight, Nat.shiftRight_eq_div_pow]; rfl

theorem low_byte (x : UInt64) : (x &&& 0xff).toUInt8 = UInt8.ofNat x.toNat := by
  apply UInt8.toNat_inj.mp
  rw [UInt64.toNat_toUInt8, UInt64.toNat_and, show (0xff : UInt64).toNat = 2 ^ 8 - 1 from rfl,
    Nat.and_two_pow_sub_one_eq_mod, UInt8.toNat_ofNat']
  omega

theorem more_byte (x : UInt64) : ((x &&& 0xff) ||| 0x80).toUInt8 = UInt8.ofNat (x.toNat % 128 + 128) := by
  have key : ∀ i : Fin 256, i.val ||| 128 = i.val % 128 + 128 := by decide +kernel
  have h1 := key ⟨x.toNat % 256, Nat.mod_lt _ (by omega)⟩
  apply UInt8.toNat_inj.mp
  rw [UInt64.toNat_toUInt8, UInt64.toNat_or, UInt64.toNat_and, show (0xff : UInt64).toNat = 2 ^ 8 - 1 from rfl,
    Nat.and_two_pow_sub_one_eq_mod, show (0x80 : UInt64).toNat = 128 from rfl, UInt8.toNat_ofNat']
  simp only at h1
  rw [h1]
  omega

/-! ## The encoder -/

theorem store_append (pre : List UInt8) (x : UInt8) (post : List UInt8) (b : UInt8) :
    store (pre ++ x :: post) pre.length b = some ((pre ++ [b]) ++ post) := by
  simp [store]

/-- Encoding into a buffer with enough room, after the bytes `pre`. -/
theorem encodeLoop_fits (uval : UInt64) : ∀ (pre post : List UInt8) (size : Nat), size ≤ (pre ++ post).length →
    pre.length + (varint uval.toNat).length ≤ size → encodeLoop uval (pre ++ post) pre.length size =
      some (pre ++ varint uval.toNat ++ post.drop (varint uval.toNat).length,
        ((pre.length + (varint uval.toNat).length : Nat) : Int)) := by
  induction h : uval.toNat using Nat.strongRecOn generalizing uval with
  | _ n ih =>
    subst h
    intro pre post size hsize hfit
    have hpos := varint_pos uval.toNat
    cases post with
    | nil => simp at hsize; omega
    | cons x post =>
      rw [encodeLoop, if_neg (by omega), if_neg (by omega)]
      by_cases hm : 0x80 ≤ uval
      · have hn := (more_iff uval).1 hm
        rw [dif_pos hm, store_append, varint_more hn, more_byte] at *
        simp only [Option.bind_eq_bind, Option.bind_some]
        have := ih (uval >>> 7).toNat (shr7_lt hm) (uval >>> 7) rfl
          (pre ++ [UInt8.ofNat (uval.toNat % 128 + 128)]) post size (by simp at hsize ⊢; omega)
          (by rw [toNat_shr7]; simp at hfit ⊢; omega)
        rw [toNat_shr7] at this
        simp only [List.length_append, List.length_singleton] at this
        rw [this]
        simp
        omega
      · have hn : uval.toNat < 128 := by have := (more_iff uval).not.1 hm; omega
        rw [dif_neg hm, store_append, low_byte uval, varint_last hn]
        simp

/-- Encoding into a buffer that is too short: the result is -1 and nothing is stored from `size` on. -/
theorem encodeLoop_short (uval : UInt64) : ∀ (pre post : List UInt8) (size : Nat), size ≤ (pre ++ post).length →
    size < pre.length + (varint uval.toNat).length → pre.length ≤ size →
    ∃ post', encodeLoop uval (pre ++ post) pre.length size = some (pre ++ post', -1) ∧ post'.length = post.length ∧
      post'.drop (size - pre.length) = post.drop (size - pre.length) := by
  induction h : uval.toNat using Nat.strongRecOn generalizing uval with
  | _ n ih =>
    subst h
    intro pre post size hsize hshort hpre
    by_cases hend : size ≤ pre.length
    · refine ⟨post, ?_, rfl, rfl⟩
      rw [encodeLoop, if_pos hend, if_pos hend]
      split <;> rfl
    · have hm : 0x80 ≤ uval := by
        rw [more_iff]
        by_contra hn
        rw [varint_last (by omega)] at hshort
        simp at hshort
        omega
      have hn := (more_iff uval).1 hm
      cases post with
      | nil => simp at hsize; omega
      | cons x post =>
        rw [varint_more hn] at hshort
        obtain ⟨post', he, hl, hd⟩ := ih (uval >>> 7).toNat (shr7_lt hm) (uval >>> 7) rfl
          (pre ++ [UInt8.ofNat (uval.toNat % 128 + 128)]) post size (by simp at hsize ⊢; omega)
          (by rw [toNat_shr7]; simp at hshort ⊢; omega) (by simp; omega)
        refine ⟨UInt8.ofNat (uval.toNat % 128 + 128) :: post', ?_, by simp [hl], ?_⟩
        · rw [encodeLoop, dif_pos hm, if_neg (by omega), store_append, more_byte]
          simp only [List.length_append, List.length_singleton] at he
          simpa using he
        · obtain ⟨k, hk⟩ : ∃ k, size - pre.length = k + 1 := ⟨size - pre.length - 1, by omega⟩
          simp only [List.length_append, List.length_singleton] at hd
          rw [hk, List.drop_succ_cons, List.drop_succ_cons]
          rw [show size - (pre.length + 1) = k by omega] at hd
          exact hd

/-- **Enough room**: the varint is stored at the start of the buffer. -/
theorem encodeU64_ok (v : UInt64) (dest : List UInt8) {size : Nat} (hs : size ≤ dest.length)
    (h : varintLen v ≤ size) :
    encodeU64 v dest size = some (varint v.toNat ++ dest.drop (varintLen v), (varintLen v : Int)) := by
  have := encodeLoop_fits v [] dest size (by simpa using hs) (by simpa [length_varint] using h)
  simpa [encodeU64, length_varint] using this

/-- **Too little room.** -/
theorem encodeU64_short (v : UInt64) (dest : List UInt8) {size : Nat} (hs : size ≤ dest.length)
    (h : size < varintLen v) : ∃ dest', encodeU64 v dest size = some (dest', -1) ∧ dest'.length = dest.length ∧
      dest'.drop size = dest.drop size := by
  have := encodeLoop_short v [] dest size (by simpa using hs) (by simpa [length_varint] using h) (by simp)
  simpa [encodeU64] using this

/-! ## Reading back -/

/-- The bytes of a varint: all but the last one have bit 7 set. -/
theorem varint_terminated (n : Nat) : ∃ xs b, varint n = xs ++ [b] ∧ (∀ x ∈ xs, 0x80 ≤ x) ∧ b < 0x80 := by
  obtain ⟨ds, d, heq, hds, hd⟩ := Leb128.marked_eq 7 n
  refine ⟨ds.map UInt8.ofNat, UInt8.ofNat d, by rw [varint, heq, List.map_append]; rfl, fun x hx => ?_, ?_⟩
  · obtain ⟨e, he, rfl⟩ := List.mem_map.1 hx
    have hrange := hds e he
    rw [UInt8.le_iff_toNat_le, UInt8.toNat_ofNat', Nat.mod_eq_of_lt (by omega)]
    exact hrange.1
  · have hlt := hd (by decide)
    rw [UInt8.lt_iff_toNat_lt, UInt8.toNat_ofNat', Nat.mod_eq_of_lt (by omega)]
    exact hlt

theorem varintSum_varint (n : Nat) : varintSum (varint n) = n := by
  have hdigits : (varint n).map (fun b => (b &&& 0x7f).toNat) = (Leb128.marked 7 n).map (· % 2 ^ 7) := by
    rw [varint, List.map_map]
    apply List.map_congr_left
    intro d _
    simp only [Function.comp_apply]
    rw [digit_eq, UInt8.toNat_ofNat']
    omega
  rw [varintSum, hdigits, Leb128.ofDigits_marked (by decide)]

/-- **Reading back**: the decoder reads a varint whatever follows it. -/
theorem decodeU64_varint (v : UInt64) (t : List UInt8) :
    decodeU64 (varint v.toNat ++ t) = some (v, (varintLen v : Int)) := by
  obtain ⟨xs, b, heq, hmore, hlast⟩ := varint_terminated v.toNat
  have hten := varintLen_le_ten v
  have hlen : varintLen v = xs.length + 1 := by
    rw [← length_varint, heq, List.length_append, List.length_singleton]
  have hdec := decodeU64_last t hmore hlast (by omega)
  rw [← heq, varintSum_varint, UInt64.ofNat_toNat, ← hlen] at hdec
  rw [heq, List.append_assoc, List.singleton_append, hdec]

/-! ## Values back to back -/

/-- Encoding one value after another: the buffer and the number of bytes written, or nothing if one does not fit. -/
def encodeList : List UInt64 → List UInt8 → Nat → Option (List UInt8 × Nat)
  | [], dest, _ => some (dest, 0)
  | v :: vs, dest, size => do
    let (dest, r) ← encodeU64 v dest size
    if r < 0 then none
    else
      let (rest, m) ← encodeList vs (dest.drop r.toNat) (size - r.toNat)
      return (dest.take r.toNat ++ rest, r.toNat + m)

/-- Decoding `k` values one after another: the values and the bytes that follow them. -/
def decodeList : Nat → List UInt8 → Option (List UInt64 × List UInt8)
  | 0, buf => some ([], buf)
  | k + 1, buf => do
    let (v, vlen) ← decodeU64 buf
    if vlen ≤ 0 then none
    else
      let (vs, rest) ← decodeList k (buf.drop vlen.toNat)
      return (v :: vs, rest)

/-- The bytes of the varints of `vs`. -/
def varints (vs : List UInt64) : List UInt8 := vs.flatMap fun v => varint v.toNat

theorem length_varints (vs : List UInt64) : (varints vs).length = (vs.map varintLen).sum := by
  simp [varints, List.length_flatMap, length_varint]

theorem encodeList_ok : ∀ (vs : List UInt64) (dest : List UInt8) (size : Nat), size ≤ dest.length →
    (vs.map varintLen).sum ≤ size →
    encodeList vs dest size = some (varints vs ++ dest.drop (varints vs).length, (varints vs).length) := by
  intro vs
  induction vs with
  | nil =>
    intro dest size _ _
    simp [encodeList, varints]
  | cons v vs ih =>
    intro dest size hs hfit
    simp only [List.map_cons, List.sum_cons] at hfit
    have htake : (varint v.toNat ++ dest.drop (varintLen v)).take (varintLen v) = varint v.toNat := by
      rw [← length_varint, List.take_left']; rfl
    have hdrop : (varint v.toNat ++ dest.drop (varintLen v)).drop (varintLen v) = dest.drop (varintLen v) := by
      rw [← length_varint, List.drop_left']; rfl
    have hrest := ih (dest.drop (varintLen v)) (size - varintLen v) (by simp; omega) (by omega)
    have hcons : varints (v :: vs) = varint v.toNat ++ varints vs := rfl
    rw [encodeList, encodeU64_ok v dest hs (by omega)]
    simp only [Option.bind_eq_bind, Option.bind_some, Option.pure_def]
    rw [if_neg (by omega), Int.toNat_natCast, htake, hdrop, hrest, hcons, List.length_append, length_varint]
    simp

theorem decodeList_varints (t : List UInt8) (vs : List UInt64) :
    decodeList vs.length (varints vs ++ t) = some (vs, t) := by
  induction vs with
  | nil => rfl
  | cons v vs ih =>
    have hpos := varint_pos v.toNat
    rw [length_varint] at hpos
    have hcons : varints (v :: vs) ++ t = varint v.toNat ++ (varints vs ++ t) := List.append_assoc ..
    have hdrop : (varint v.toNat ++ (varints vs ++ t)).drop (varintLen v) = varints vs ++ t := by
      rw [← length_varint, List.drop_left']; rfl
    rw [hcons, List.length_cons, decodeList, decodeU64_varint]
    simp only [Option.bind_eq_bind, Option.bind_some, Option.pure_def]
    rw [if_neg (by omega), Int.toNat_natCast, hdrop, ih]
    rfl

/-- **Unsigned round trip.** The encoder refuses exactly when the buffer is shorter than the varint, leaves everything
from `size` on alone, and what it writes is read back whatever follows, one value or several of them back to back. -/
theorem u64_round_trip (v : UInt64) (dest : List UInt8) (size : Nat) (t : List UInt8) (hs : size ≤ dest.length) :
    (∃ dest' r, encodeU64 v dest size = some (dest', r) ∧ dest'.length = dest.length ∧
      dest'.drop size = dest.drop size ∧ (r = -1 ↔ size < varintLen v) ∧
      (r ≠ -1 → r = varintLen v ∧ varintLen v ≤ 10 ∧ decodeU64 (dest'.take (varintLen v) ++ t) = some (v, r))) ∧
    ∀ vs : List UInt64, (vs.map varintLen).sum ≤ size → ∃ dest', encodeList vs dest size =
      some (dest', (vs.map varintLen).sum) ∧
      decodeList vs.length (dest'.take (vs.map varintLen).sum ++ t) = some (vs, t) := by
  constructor
  · by_cases hfit : varintLen v ≤ size
    · refine ⟨_, _, encodeU64_ok v dest hs hfit, ?_, ?_, by omega, fun _ => ⟨rfl, varintLen_le_ten v, ?_⟩⟩
      · simp only [List.length_append, length_varint, List.length_drop]; omega
      · rw [List.drop_append, length_varint, List.drop_eq_nil_of_le (by rw [length_varint]; exact hfit), List.drop_drop,
          Nat.add_sub_cancel' hfit]; rfl
      · rw [← length_varint, List.take_left', length_varint, decodeU64_varint]; rfl
    · obtain ⟨dest', he, hl, hd⟩ := encodeU64_short v dest hs (by omega)
      exact ⟨dest', -1, he, hl, hd, by omega, by simp⟩
  · intro vs hfit
    refine ⟨_, by rw [encodeList_ok vs dest size hs hfit, length_varints], ?_⟩
    rw [← length_varints, List.take_left', decodeList_varints]; rfl

/-- 300 takes two bytes, and is read back with anything after them. -/
theorem u64_round_trip_300 : (4 : Nat) ≤ (List.replicate 4 (0 : UInt8)).length ∧
    ∃ dest', encodeU64 300 (List.replicate 4 0) 4 = some (dest', 2) ∧
      decodeU64 (dest'.take 2 ++ [0xff]) = some (300, 2) := by
  have hlen : varintLen 300 = 2 := by decide
  obtain ⟨⟨dest', r, he, -, -, hr, hd⟩, -⟩ := u64_round_trip 300 (List.replicate 4 0) 4 [0xff] (by decide)
  obtain ⟨rfl, -, hd⟩ := hd (by rw [hlen] at hr; omega)
  rw [hlen] at he hd
  exact ⟨by decide, dest', he, hd⟩

/-! ## Truncated varints -/

/-- **Buffer shortage**: the decoder reports a proper prefix of what the encoder wrote as an error that is not an
overflow if and only if the prefix is shorter than eight bytes. -/
theorem truncated_iff (v : UInt64) (dest dest' : List UInt8) (size : Nat) (n : Int) (hs : size ≤ dest.length)
    (henc : encodeU64 v dest size = some (dest', n)) (hn : n ≠ -1) (p : List UInt8) (hp : p <+: dest'.take n.toNat)
    (hlt : p.length < n.toNat) :
    (∃ uval vlen, decodeU64 p = some (uval, vlen) ∧ DecodeErr vlen ∧ ¬ DecodeOverflow vlen) ↔ p.length < 8 := by
  have hfit : varintLen v ≤ size := by
    by_contra hshort
    obtain ⟨dest'', heq, -⟩ := encodeU64_short v dest hs (Nat.lt_of_not_le hshort)
    rw [henc] at heq
    cases heq
    exact hn rfl
  rw [encodeU64_ok v dest hs hfit] at henc
  cases henc
  rw [Int.toNat_natCast, ← length_varint, List.take_left'] at hp
  rw [Int.toNat_natCast, ← length_varint] at hlt
  obtain ⟨xs, b, heq, hmore, -⟩ := varint_terminated v.toNat
  have hten := varintLen_le_ten v
  rw [← length_varint, heq, List.length_append, List.length_singleton] at hten
  rw [heq] at hp
  rw [heq, List.length_append, List.length_singleton] at hlt
  have hpre : p <+: xs := List.prefix_of_prefix_length_le hp (List.prefix_append xs [b]) (by omega)
  have hdec := decodeU64_end (fun x hx => hmore x (hpre.subset hx)) (show p.length ≤ 10 by omega)
  constructor
  · rintro ⟨uval, vlen, hdec', -, hover⟩
    rw [hdec] at hdec'
    cases hdec'
    unfold DecodeOverflow at hover
    omega
  · intro h8
    refine ⟨_, _, hdec, ?_, ?_⟩
    · unfold DecodeErr
      omega
    · unfold DecodeOverflow
      omega
  · rfl

/-- The largest value is written in ten bytes: a prefix of seven is a shortage. -/
theorem truncated_iff_max :
    ∃ dest' n, encodeU64 18446744073709551615 (List.replicate 10 0) 10 = some (dest', n) ∧
      ∃ uval vlen, decodeU64 (dest'.take 7) = some (uval, vlen) ∧ DecodeErr vlen ∧ ¬ DecodeOverflow vlen := by
  have hlen : varintLen 18446744073709551615 = 10 := by decide
  have henc := encodeU64_ok 18446744073709551615 (List.replicate 10 0) (Nat.le_refl 10) (by decide)
  refine ⟨_, _, henc, (truncated_iff _ _ _ _ _ (by decide) henc (by decide) _ ?_ ?_).2 ?_⟩
  · exact List.take_prefix_take_left (by decide)
  · rw [hlen, List.length_take]
    simp
  · rw [List.length_take]
    omega

/-- A prefix of eight bytes of the varint of the largest value looks like an overflow. -/
theorem truncated_max :
    ∃ dest' n, encodeU64 18446744073709551615 (List.replicate 10 0) 10 = some (dest', n) ∧ n = 10 ∧
      decodeU64 (dest'.take 8) = some (0, -9) ∧ DecodeOverflow (-9) := by
  have henc := encodeU64_ok 18446744073709551615 (List.replicate 10 0) (Nat.le_refl 10) (by decide)
  refine ⟨_, _, henc, by decide, ?_, by decide⟩
  decide +kernel

/-! ## The signed variants -/

/-- A number that is not negative has bit 63 clear. -/
theorem toUInt64_lt {v : Int64} (h : 0 ≤ v) : v.toUInt64.toNat < 2 ^ 63 := by
  have h1 : 0 ≤ v.toBitVec.toInt := by simpa [Int64.le_iff_toInt_le] using h
  rw [BitVec.toInt_eq_toNat_cond] at h1
  rw [← Int64.toNat_toBitVec]
  split at h1 <;> omega

theorem toNat_shl1 {x : UInt64} (h : x.toNat < 2 ^ 63) : (x <<< 1).toNat = 2 * x.toNat := by
  rw [UInt64.toNat_shiftLeft, Nat.shiftLeft_eq]
  simp only [UInt64.reduceToNat, Nat.reduceMod]
  omega

theorem toNat_shr1 (x : UInt64) : (x >>> 1).toNat = x.toNat / 2 := by
  rw [UInt64.toNat_shiftRight, Nat.shiftRight_eq_div_pow]; rfl

theorem even_bit0 {x : UInt64} (h : x.toNat % 2 = 0) : x &&& 1 = 0 := by
  apply UInt64.toNat_inj.1
  rw [UInt64.toNat_and, show (1 : UInt64).toNat = 2 ^ 1 - 1 from rfl, Nat.and_two_pow_sub_one_eq_mod]
  exact h

/-- What `rd_varint_encode_s64` encodes. -/
def foldSign (v : Int64) : UInt64 := if v < 0 then 0 else v.toUInt64 <<< 1

theorem encodeS64_eq (v : Int64) (dest : List UInt8) (size : Nat) :
    encodeS64 v dest size = encodeU64 (foldSign v) dest size := by
  unfold encodeS64 foldSign
  split <;> simp

/-- What `rd_varint_decode_s64` makes of it: the number, or 0 for a negative one. -/
theorem decodeS64_varint (v : Int64) (t : List UInt8) :
    decodeS64 (varint (foldSign v).toNat ++ t) = some (if v < 0 then 0 else v, (varintLen (foldSign v) : Int)) := by
  have hpos := varint_pos (foldSign v).toNat
  rw [length_varint] at hpos
  rw [decodeS64, decodeU64_varint]
  simp only [Option.bind_eq_bind, Option.bind_some, Option.pure_def]
  rw [if_neg (by omega)]
  by_cases hneg : v < 0
  · simp [foldSign, hneg]
  · have hlt := toUInt64_lt (Int64.not_lt.1 hneg)
    have heven : (v.toUInt64 <<< 1) &&& 1 = 0 := even_bit0 (by rw [toNat_shl1 hlt]; omega)
    have hback : v.toUInt64 <<< 1 >>> 1 = v.toUInt64 :=
      UInt64.toNat_inj.1 (by rw [toNat_shr1, toNat_shl1 hlt]; omega)
    simp [foldSign, hneg, heven, hback]

/-- **Signed round trip**: with room for ten bytes, the number comes back exactly when it is not negative. -/
theorem s64_round_trip_iff (v : Int64) (dest : List UInt8) (size : Nat) (t : List UInt8) (hs : size ≤ dest.length)
    (h10 : 10 ≤ size) :
    (∃ dest' n, encodeS64 v dest size = some (dest', n) ∧ decodeS64 (dest'.take n.toNat ++ t) = some (v, n)) ↔
      0 ≤ v := by
  have hlen := varintLen_le_ten (foldSign v)
  have htake : (varint (foldSign v).toNat ++ dest.drop (varintLen (foldSign v))).take (varintLen (foldSign v)) =
      varint (foldSign v).toNat := by
    rw [← length_varint, List.take_left']; rfl
  rw [encodeS64_eq, encodeU64_ok _ dest hs (by omega)]
  constructor
  · rintro ⟨dest', n, he, hd⟩
    cases he
    rw [Int.toNat_natCast, htake, decodeS64_varint] at hd
    by_contra hneg
    have hneg : v < 0 := Int64.not_le.1 hneg
    simp only [hneg, if_true, Option.some.injEq, Prod.mk.injEq] at hd
    rw [← hd.1] at hneg
    exact absurd hneg (by decide)
  · intro h
    refine ⟨_, _, rfl, ?_⟩
    rw [Int.toNat_natCast, htake, decodeS64_varint, if_neg (Int64.not_lt.2 h)]

/-- The largest number comes back. -/
theorem s64_round_trip_iff_max : (10 : Nat) ≤ (List.replicate 10 (0 : UInt8)).length ∧
    ∃ dest' n, encodeS64 (Int64.maxValue) (List.replicate 10 0) 10 = some (dest', n) ∧
      decodeS64 (dest'.take n.toNat ++ [0x80]) = some (Int64.maxValue, n) :=
  ⟨by decide, (s64_round_trip_iff Int64.maxValue (List.replicate 10 0) 10 [0x80] (by decide) (by decide)).2 (by decide)⟩

/-- -1 is written as the byte 0 and read back as 0. -/
theorem s64_minus_one : ¬ ∃ dest' n, encodeS64 (-1) (List.replicate 10 0) 10 = some (dest', n) ∧
    decodeS64 (dest'.take n.toNat ++ []) = some (-1, n) := by
  have hzero : encodeS64 (-1) (List.replicate 10 0) 10 = some (List.replicate 10 0, 1) := by
    rw [encodeS64, encodeU64, encodeLoop]
    rfl
  rintro ⟨dest', n, he, hd⟩
  rw [hzero] at he
  cases he
  revert hd
  decide

end Librd.Encoding
