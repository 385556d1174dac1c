import Librd.Encoding.Varint
import Librd.Lib.Leb128

/-!
# The varint decoder on arbitrary bytes

What `rd_varint_decode_u64` does with any buffer is decided by the bytes at its start that have bit 7 set: the buffer
ends with them (`decodeU64_end`), or they are followed by a last byte, at a position that the decoder accepts
(`decodeU64_last`) or not (`decodeU64_long`), or there are too many of them (`decodeU64_undefined`).

The overflow check looks at the number of bytes only. Bits shifted out of the tenth byte are lost without a report, and
an eleventh byte with bit 7 set is shifted by 70 bits; buffers without one of these are decoded to the unbounded sum of
their digits or reported (`decode_right_iff`). That byte is the only one whose shift C leaves undefined
(`shifts_defined_iff`).
-/

namespace Librd.Encoding

/-! ## Sums of digits -/

/-- The unbounded value of the bytes of a varint: the sum of `(b & 0x7f) * 2 ^ (7 * i)`. -/
def varintSum (bs : List UInt8) : Nat := Nat.ofDigits (2 ^ 7) (bs.map fun b => (b &&& 0x7f).toNat)

theorem digit_eq (b : UInt8) : (b &&& 0x7f).toNat = b.toNat % 128 := by
  rw [UInt8.toNat_and, show (0x7f : UInt8).toNat = 2 ^ 7 - 1 from rfl, Nat.and_two_pow_sub_one_eq_mod]

theorem varintSum_append (bs : List UInt8) (b : UInt8) :
    varintSum (bs ++ [b]) = varintSum bs + (b &&& 0x7f).toNat * 2 ^ (7 * bs.length) := by
  rw [varintSum, List.map_append, Nat.ofDigits_append, List.length_map, List.map_singleton, Nat.ofDigits_singleton,
    ← Nat.pow_mul, Nat.mul_comm _ (UInt8.toNat _)]
  rfl

theorem varintSum_lt (bs : List UInt8) : varintSum bs < 2 ^ (7 * bs.length) := by
  have h := Nat.ofDigits_lt_base_pow_length (b := 2 ^ 7) (l := bs.map fun b => (b &&& 0x7f).toNat) (by omega)
    (by
      intro d hd
      obtain ⟨b, -, rfl⟩ := List.mem_map.1 hd
      rw [digit_eq]
      exact Nat.mod_lt _ (by omega))
  rwa [List.length_map, ← Nat.pow_mul] at h

/-- Adding a digit above the bits read so far, modulo `2 ^ 64`. -/
theorem or_shl64_wraps (uval x : UInt64) {bits : Nat} (hb : bits < 64) (hu : uval.toNat < 2 ^ bits) :
    ∃ y, shl64 x bits = some y ∧ uval ||| y = UInt64.ofNat (uval.toNat + x.toNat * 2 ^ bits) := by
  refine ⟨x <<< UInt64.ofNat bits, if_pos hb, ?_⟩
  have h1 : (UInt64.ofNat bits).toNat % 64 = bits := by
    rw [UInt64.toNat_ofNat']; omega
  -- what is left of the digit is a multiple of `2 ^ bits` below `2 ^ 64`
  have hsplit : 2 ^ 64 = 2 ^ bits * 2 ^ (64 - bits) := by
    rw [← Nat.pow_add]
    congr 1
    omega
  have hmul : x.toNat * 2 ^ bits % 2 ^ 64 = 2 ^ bits * (x.toNat % 2 ^ (64 - bits)) := by
    rw [Nat.mul_comm, hsplit, Nat.mul_mod_mul_left]
  have hlt : x.toNat % 2 ^ (64 - bits) + 1 ≤ 2 ^ (64 - bits) := Nat.mod_lt _ (Nat.two_pow_pos _)
  have hle : 2 ^ bits * (x.toNat % 2 ^ (64 - bits) + 1) ≤ 2 ^ 64 := by
    rw [hsplit]
    exact Nat.mul_le_mul_left _ hlt
  have hwrap : (uval.toNat + x.toNat * 2 ^ bits) % 2 ^ 64 = uval.toNat + 2 ^ bits * (x.toNat % 2 ^ (64 - bits)) := by
    rw [← Nat.add_mod_mod, hmul, Nat.mod_eq_of_lt]
    rw [Nat.mul_add, Nat.mul_one] at hle
    omega
  apply UInt64.toNat_inj.1
  rw [UInt64.toNat_or, UInt64.toNat_shiftLeft, h1, Nat.shiftLeft_eq, UInt64.toNat_ofNat', hwrap, hmul, Nat.or_comm,
    ← Nat.two_pow_add_eq_or_of_lt hu, Nat.add_comm]

/-- The sum so far and the digit of one more byte. -/
theorem or_digit (bs : List UInt8) {b : UInt8} {x : UInt64} (hx : x.toNat = (b &&& 0x7f).toNat)
    (hlen : bs.length ≤ 9) : ∃ y, shl64 x (7 * bs.length) = some y ∧
      UInt64.ofNat (varintSum bs) ||| y = UInt64.ofNat (varintSum (bs ++ [b])) := by
  have hbits : 7 * bs.length < 64 := by omega
  have hsum : (UInt64.ofNat (varintSum bs)).toNat = varintSum bs := by
    rw [UInt64.toNat_ofNat', Nat.mod_eq_of_lt]
    exact Nat.lt_trans (varintSum_lt bs) (Nat.pow_lt_pow_right (by omega) hbits)
  obtain ⟨y, hy, hor⟩ := or_shl64_wraps (UInt64.ofNat (varintSum bs)) x hbits (by rw [hsum]; exact varintSum_lt bs)
  rw [hsum, hx, ← varintSum_append] at hor
  exact ⟨y, hy, hor⟩

/-! ## The decoder -/

/-- The bytes so far and what the decoder has made of them. -/
theorem decodeLoop_more (s t : List UInt8) : ∀ (xs pre : List UInt8), (∀ x ∈ xs, 0x80 ≤ x) →
    pre.length + xs.length ≤ 10 →
    decodeLoop s (xs ++ t) pre.length (7 * pre.length) (UInt64.ofNat (varintSum pre)) =
      decodeLoop s t (pre ++ xs).length (7 * (pre ++ xs).length) (UInt64.ofNat (varintSum (pre ++ xs)))
  | [], pre, _, _ => by simp
  | x :: xs, pre, hx, hlen => by
    simp only [List.length_cons] at hlen
    obtain ⟨y, hy, hor⟩ := or_digit pre (UInt8.toNat_toUInt64 (x &&& 0x7f)) (by omega)
    have hmore : ¬ x < 0x80 := UInt8.not_lt.2 (hx x List.mem_cons_self)
    have ih := decodeLoop_more s t xs (pre ++ [x]) (fun z hz => hx z (List.mem_cons_of_mem x hz))
      (by simp only [List.length_append, List.length_singleton]; omega)
    rw [List.append_assoc, List.singleton_append] at ih
    rw [List.cons_append, decodeLoop, if_neg hmore, hy]
    simp only [Option.bind_eq_bind, Option.bind_some, hor]
    rw [← ih, List.length_append, List.length_singleton, Nat.mul_add]

theorem decodeU64_more {xs : List UInt8} (t : List UInt8) (hx : ∀ x ∈ xs, 0x80 ≤ x) (hlen : xs.length ≤ 10) :
    decodeU64 (xs ++ t) = decodeLoop (xs ++ t) t xs.length (7 * xs.length) (UInt64.ofNat (varintSum xs)) := by
  have h := decodeLoop_more (xs ++ t) t xs [] hx (by simpa using hlen)
  simpa [decodeU64, varintSum] using h

/-- The buffer ends before a last byte. -/
theorem decodeU64_end {xs : List UInt8} (hx : ∀ x ∈ xs, 0x80 ≤ x) (hlen : xs.length ≤ 10) :
    decodeU64 xs = some (0, -((xs.length : Int) + 1)) := by
  have h := decodeU64_more [] hx hlen
  rw [List.append_nil] at h
  rw [h, decodeLoop, if_pos]
  rcases Nat.eq_zero_or_pos xs.length with h0 | hpos
  · exact .inl h0
  · right
    have hlast : xs.length - 1 < xs.length := by omega
    rw [List.getD_eq_getElem?_getD, List.getElem?_eq_getElem hlast]
    exact hx _ (List.getElem_mem hlast)

/-- A last byte among the first ten: the value modulo `2 ^ 64`. -/
theorem decodeU64_last {xs : List UInt8} {b : UInt8} (t : List UInt8) (hx : ∀ x ∈ xs, 0x80 ≤ x) (hb : b < 0x80)
    (hlen : xs.length ≤ 9) :
    decodeU64 (xs ++ b :: t) = some (UInt64.ofNat (varintSum (xs ++ [b])), ((xs.length + 1 : Nat) : Int)) := by
  have hdigit : b.toUInt64.toNat = (b &&& 0x7f).toNat := by
    rw [UInt8.toNat_toUInt64, digit_eq, Nat.mod_eq_of_lt]
    simpa [UInt8.lt_iff_toNat_lt] using hb
  obtain ⟨y, hy, hor⟩ := or_digit xs hdigit hlen
  rw [decodeU64_more (b :: t) hx (by omega), decodeLoop, if_pos hb, if_neg (by omega), hy]
  simp only [Option.bind_eq_bind, Option.bind_some, Option.pure_def, hor]

/-- A last byte at position 10 is an overflow. -/
theorem decodeU64_long {xs : List UInt8} {b : UInt8} (t : List UInt8) (hx : ∀ x ∈ xs, 0x80 ≤ x) (hb : b < 0x80)
    (hlen : xs.length = 10) : decodeU64 (xs ++ b :: t) = some (0, -10) := by
  rw [decodeU64_more (b :: t) hx (by omega), decodeLoop, if_pos hb, if_pos (by omega), hlen]
  rfl

/-- An eleventh byte with bit 7 set is shifted by 70 bits. -/
theorem decodeU64_undefined {xs : List UInt8} {b : UInt8} (t : List UInt8) (hx : ∀ x ∈ xs, 0x80 ≤ x) (hb : 0x80 ≤ b)
    (hlen : xs.length = 10) : decodeU64 (xs ++ b :: t) = none := by
  rw [decodeU64_more (b :: t) hx (by omega), decodeLoop, if_neg (UInt8.not_lt.2 hb), shl64, if_neg (by omega)]
  rfl

/-! ## Malformed varints -/

/-- `buf` starts with a terminated varint: the bytes `xs`, which have bit 7 set, and the last byte `b`. -/
structure Terminated (buf xs : List UInt8) (b : UInt8) : Prop where
  starts : xs ++ [b] <+: buf
  more : ∀ x ∈ xs, 0x80 ≤ x
  last : b < 0x80

/-- A buffer without a last byte, or a terminated varint. -/
theorem more_or_terminated (buf : List UInt8) : (∀ x ∈ buf, 0x80 ≤ x) ∨ ∃ xs b, Terminated buf xs b := by
  induction buf with
  | nil => exact .inl (by simp)
  | cons c buf ih =>
    by_cases hc : c < 0x80
    · exact .inr ⟨[], c, ⟨buf, rfl⟩, by simp, hc⟩
    · have hc' : 0x80 ≤ c := UInt8.not_lt.1 hc
      rcases ih with h | ⟨xs, b, hpre, hmore, hlast⟩
      · exact .inl (List.forall_mem_cons.2 ⟨hc', h⟩)
      · exact .inr ⟨c :: xs, b, List.cons_prefix_cons.2 ⟨rfl, hpre⟩, List.forall_mem_cons.2 ⟨hc', hmore⟩, hlast⟩

section Terminated

variable {buf xs ys : List UInt8} {b c : UInt8}

/-- Bytes with bit 7 set at the start of the buffer stop before the last byte. -/
theorem Terminated.length_le (h : Terminated buf xs b) (hys : ys <+: buf) (hmore : ∀ y ∈ ys, 0x80 ≤ y) :
    ys.length ≤ xs.length := by
  by_contra hlt
  have hpre : xs ++ [b] <+: ys := List.prefix_of_prefix_length_le h.starts hys (by simp; omega)
  have hb := hmore b (hpre.subset (by simp))
  exact absurd h.last (UInt8.not_lt.2 hb)

theorem Terminated.unique (h : Terminated buf xs b) (h' : Terminated buf ys c) : xs = ys ∧ b = c := by
  have hle := h.length_le ((List.prefix_append ys [c]).trans h'.starts) h'.more
  have hge := h'.length_le ((List.prefix_append xs [b]).trans h.starts) h.more
  have heq := (List.prefix_of_prefix_length_le h.starts h'.starts (by simp; omega)).eq_of_length (by simp; omega)
  simpa using List.append_inj' heq rfl

theorem Terminated.not_more (h : Terminated buf xs b) : ¬ ∀ x ∈ buf, 0x80 ≤ x := fun hmore =>
  absurd h.last (UInt8.not_lt.2 (hmore b (h.starts.subset (by simp))))

theorem Terminated.eq (h : Terminated buf xs b) : ∃ t, buf = xs ++ b :: t := by
  obtain ⟨t, ht⟩ := h.starts
  exact ⟨t, by simpa using ht.symm⟩

/-- The value reaches `2 ^ 64` in the tenth byte exactly when that is above 1. -/
theorem Terminated.sum_ten (h : Terminated buf xs b) (hlen : xs.length = 9) :
    2 ^ 64 ≤ varintSum (xs ++ [b]) ↔ 1 < b := by
  have hlow := varintSum_lt xs
  have hdigit : (b &&& 0x7f).toNat = b.toNat := by
    rw [digit_eq, Nat.mod_eq_of_lt]
    simpa [UInt8.lt_iff_toNat_lt] using h.last
  have hone : 1 < b ↔ 1 < b.toNat := by
    rw [UInt8.lt_iff_toNat_lt]
    rfl
  rw [varintSum_append, hdigit, hone]
  rw [hlen] at hlow ⊢
  omega

end Terminated

/-- What the decoder is to do with `buf`: it is defined, a success is a terminated varint and its unbounded value, and a
terminated varint of `2 ^ 64` or more is an overflow. -/
def DecodesRight (buf : List UInt8) : Prop :=
  ∃ uval vlen, decodeU64 buf = some (uval, vlen) ∧
    (0 < vlen → ∃ xs b, Terminated buf xs b ∧ vlen = ((xs.length + 1 : Nat) : Int) ∧
      uval.toNat = varintSum (xs ++ [b])) ∧
    ∀ xs b, Terminated buf xs b → 2 ^ 64 ≤ varintSum (xs ++ [b]) → DecodeOverflow vlen

/-- A varint that fits is decoded to its value. -/
theorem Terminated.decodes {buf xs : List UInt8} {b : UInt8} (h : Terminated buf xs b) (hlen : xs.length ≤ 9)
    (hsum : varintSum (xs ++ [b]) < 2 ^ 64) : DecodesRight buf := by
  obtain ⟨t, rfl⟩ := h.eq
  refine ⟨_, _, decodeU64_last t h.more h.last hlen, fun _ => ⟨xs, b, h, rfl, ?_⟩, fun ys c h' hbig => ?_⟩
  · rw [UInt64.toNat_ofNat', Nat.mod_eq_of_lt hsum]
  · obtain ⟨rfl, rfl⟩ := h.unique h'
    omega

/-- Eleven bytes with bit 7 set at the start of the buffer. -/
theorem decodeU64_eleven {buf ys : List UInt8} (hys : ys <+: buf) (hlen : ys.length = 11) (hmore : ∀ y ∈ ys, 0x80 ≤ y) :
    decodeU64 buf = none := by
  obtain ⟨t, rfl⟩ := hys
  have hsplit : ys.take 10 ++ ys.drop 10 = ys := List.take_append_drop 10 ys
  obtain ⟨b, hb⟩ : ∃ b, ys.drop 10 = [b] := List.length_eq_one_iff.1 (by rw [List.length_drop]; omega)
  rw [hb] at hsplit
  rw [← hsplit, List.append_assoc, List.singleton_append]
  exact decodeU64_undefined t (fun x hx => hmore x (List.mem_of_mem_take hx))
    (hmore b (by rw [← hsplit]; simp)) (by rw [List.length_take]; omega)

theorem not_decodesRight_of_undefined {buf ys : List UInt8} (hys : ys <+: buf) (hlen : ys.length = 11)
    (hmore : ∀ y ∈ ys, 0x80 ≤ y) : ¬ DecodesRight buf := by
  rintro ⟨uval, vlen, hdec, -⟩
  rw [decodeU64_eleven hys hlen hmore] at hdec
  cases hdec

/-- Otherwise at most ten bytes at the start of the buffer have bit 7 set. -/
theorem length_le_ten {buf xs : List UInt8} (heleven : ¬ ∃ ys, ys <+: buf ∧ ys.length = 11 ∧ ∀ y ∈ ys, 0x80 ≤ y)
    (hxs : xs <+: buf) (hmore : ∀ x ∈ xs, 0x80 ≤ x) : xs.length ≤ 10 := by
  by_contra hlt
  exact heleven ⟨xs.take 11, (List.take_prefix 11 xs).trans hxs, by rw [List.length_take]; omega,
    fun y hy => hmore y (List.mem_of_mem_take hy)⟩

/-- **Arbitrary bytes**: the decoder is right about a buffer if and only if the buffer does not start with nine bytes
that have bit 7 set and a last byte above 1, and does not start with eleven bytes that have bit 7 set. -/
theorem decode_right_iff (buf : List UInt8) : DecodesRight buf ↔
    (∀ xs b, Terminated buf xs b → xs.length = 9 → b ≤ 1) ∧
    ¬ ∃ ys, ys <+: buf ∧ ys.length = 11 ∧ ∀ y ∈ ys, 0x80 ≤ y := by
  constructor
  · intro h
    refine ⟨fun xs b hterm hlen => ?_, fun ⟨ys, hys, hlen, hmore⟩ => not_decodesRight_of_undefined hys hlen hmore h⟩
    by_contra hb
    obtain ⟨uval, vlen, hdec, -, hover⟩ := h
    have hvlen := hover xs b hterm ((hterm.sum_ten hlen).2 (UInt8.not_le.1 hb))
    obtain ⟨t, rfl⟩ := hterm.eq
    rw [decodeU64_last t hterm.more hterm.last (by omega)] at hdec
    cases hdec
    unfold DecodeOverflow at hvlen
    omega
  · rintro ⟨hten, heleven⟩
    rcases more_or_terminated buf with hmore | ⟨xs, b, hterm⟩
    · -- without a last byte only the length of the buffer counts
      have hlen := length_le_ten heleven List.prefix_rfl hmore
      refine ⟨_, _, decodeU64_end hmore hlen, fun hpos => absurd hpos (by omega), fun xs b hterm => ?_⟩
      exact absurd hmore hterm.not_more
    · have hlen := length_le_ten heleven ((List.prefix_append xs [b]).trans hterm.starts) hterm.more
      rcases Nat.lt_or_ge xs.length 10 with hlt | hge
      · apply hterm.decodes (by omega)
        rcases Nat.lt_or_ge xs.length 9 with h8 | h9
        · have hpow : 2 ^ (7 * (xs ++ [b]).length) ≤ 2 ^ 64 := Nat.pow_le_pow_right Nat.two_pos (by simp; omega)
          exact Nat.lt_of_lt_of_le (varintSum_lt _) hpow
        · have h9 : xs.length = 9 := by omega
          exact Nat.lt_of_not_le fun hbig => absurd (hten xs b hterm h9) (UInt8.not_le.2 ((hterm.sum_ten h9).1 hbig))
      · obtain ⟨t, rfl⟩ := hterm.eq
        refine ⟨_, _, decodeU64_long t hterm.more hterm.last (by omega), fun hpos => absurd hpos (by omega), ?_⟩
        intro _ _ _ _
        unfold DecodeOverflow
        omega

/-- Nine bytes `ff` and a byte 2 are reported as a success with the value `2 ^ 63 - 1`. -/
theorem tenth_byte_lost : decodeU64 (List.replicate 9 0xff ++ [2]) = some (9223372036854775807, 10) ∧
    Terminated (List.replicate 9 0xff ++ [2]) (List.replicate 9 0xff) 2 ∧
    2 ^ 64 ≤ varintSum (List.replicate 9 0xff ++ [2]) ∧ ¬ DecodesRight (List.replicate 9 0xff ++ [2]) := by
  have hterm : Terminated (List.replicate 9 0xff ++ [2]) (List.replicate 9 0xff) 2 :=
    ⟨List.prefix_rfl, fun x hx => by rw [List.eq_of_mem_replicate hx]; decide, by decide⟩
  have hdec : decodeU64 (List.replicate 9 0xff ++ [2]) = some (9223372036854775807, 10) := by decide
  have hsum : 2 ^ 64 ≤ varintSum (List.replicate 9 0xff ++ [2]) := (hterm.sum_ten (by decide)).2 (by decide)
  refine ⟨hdec, hterm, hsum, ?_⟩
  rintro ⟨uval, vlen, hdec', -, hover⟩
  rw [hdec] at hdec'
  cases hdec'
  exact absurd (hover _ _ hterm hsum) (by decide)

/-! ## Shifts -/

/-- The amounts of the left shifts that the loop of `rd_varint_decode_u64` executes for the bytes `rest` from `*vlenp`
on, as they are reached. -/
def decodeShifts : List UInt8 → Nat → Nat → List Nat
  | [], _, _ => []
  | b :: rest, vlen, bits =>
    if b < 0x80 then if vlen > 9 then [] else [bits]
    else bits :: decodeShifts rest (vlen + 1) (bits + 7)

/-- The decoder is defined as long as its shifts are. -/
theorem decodeLoop_isSome (s : List UInt8) : ∀ (rest : List UInt8) (vlen bits : Nat) (uval : UInt64),
    (decodeLoop s rest vlen bits uval).isSome ↔ ∀ k ∈ decodeShifts rest vlen bits, k < 64
  | [], vlen, _, _ => by
    rw [decodeLoop]
    split <;> simp [decodeShifts]
  | b :: rest, vlen, bits, uval => by
    rw [decodeLoop, decodeShifts]
    by_cases hb : b < 0x80
    · rw [if_pos hb, if_pos hb]
      by_cases hv : vlen > 9
      · rw [if_pos hv, if_pos hv]
        simp
      · rw [if_neg hv, if_neg hv, shl64]
        by_cases hk : bits < 64 <;> simp [hk]
    · rw [if_neg hb, if_neg hb, List.forall_mem_cons, shl64]
      by_cases hk : bits < 64
      · rw [if_pos hk, and_iff_right hk]
        exact decodeLoop_isSome s rest _ _ _
      · simp [hk]

/-- **Shifts**: all left shifts that the decoder executes are by fewer than 64 bits, and its result is defined, if and
only if the buffer does not start with eleven bytes that have bit 7 set. -/
theorem shifts_defined_iff (buf : List UInt8) :
    ((∀ k ∈ decodeShifts buf 0 0, k < 64) ∧ (decodeU64 buf).isSome) ↔
      ¬ ∃ ys, ys <+: buf ∧ ys.length = 11 ∧ ∀ y ∈ ys, 0x80 ≤ y := by
  have hshifts : (decodeU64 buf).isSome ↔ ∀ k ∈ decodeShifts buf 0 0, k < 64 := decodeLoop_isSome buf buf 0 0 0
  rw [← hshifts, and_self]
  constructor
  · rintro hsome ⟨ys, hys, hlen, hmore⟩
    rw [decodeU64_eleven hys hlen hmore] at hsome
    cases hsome
  · intro heleven
    rcases more_or_terminated buf with hmore | ⟨xs, b, hterm⟩
    · rw [decodeU64_end hmore (length_le_ten heleven List.prefix_rfl hmore)]
      rfl
    · have hlen := length_le_ten heleven ((List.prefix_append xs [b]).trans hterm.starts) hterm.more
      obtain ⟨t, rfl⟩ := hterm.eq
      rcases Nat.lt_or_ge xs.length 10 with hlt | hge
      · rw [decodeU64_last t hterm.more hterm.last (by omega)]
        rfl
      · rw [decodeU64_long t hterm.more hterm.last (by omega)]
        rfl

/-- Eleven bytes `ff` make the decoder shift by 70 bits. -/
theorem shift_by_seventy : 70 ∈ decodeShifts (List.replicate 11 0xff) 0 0 ∧
    ¬ (∀ k ∈ decodeShifts (List.replicate 11 0xff) 0 0, k < 64) ∧ decodeU64 (List.replicate 11 0xff) = none := by
  have hmem : 70 ∈ decodeShifts (List.replicate 11 0xff) 0 0 := by decide
  exact ⟨hmem, fun h => absurd (h 70 hmem) (by decide), by decide⟩

end Librd.Encoding
