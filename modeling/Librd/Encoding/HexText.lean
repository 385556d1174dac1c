import Librd.Encoding.Hex

/-!
# Hex text: encoding and decoding

`rd_bin2hex` writes the hex text of as many bytes as its loop finds room for, which is one character more than it needs:
with `2 * inlen + 1` bytes, the size that its header documents, the last byte is left out (`bin2hex_right_iff`).

`rd_hex2bin` reads that text back however separators are put between its digits, in either case (`hex_round_trip`). It
reads a character before it looks whether the input has ended, and it takes a `char`, which is signed, for an index:
on an input of `inlen` bytes it stays within the input and the table exactly when the scan ends at one of the bytes
(`hex2bin_in_bounds_iff`).
-/

namespace Librd.Encoding

/-! ## Characters -/

/-- The two lower case hex digits of a byte. -/
def hexPair (b : UInt8) : List UInt8 := [Nat.digitChar (b.toNat / 16), Nat.digitChar (b.toNat % 16)].map Char.toUInt8

/-- The lower case hex text of bytes. -/
def hexText (bs : List UInt8) : List UInt8 := bs.flatMap hexPair

/-- Space, tab, `.`, `:`, newline and carriage return. -/
def Ignored (b : UInt8) : Prop := b.toNat ∈ ignoreChars

instance (b : UInt8) : Decidable (Ignored b) := inferInstanceAs (Decidable (b.toNat ∈ ignoreChars))

/-- The value of a character that is a hex digit. -/
def nibble (b : UInt8) : Option UInt8 := hexDigit (charVal b)

/-- `A` to `F` in lower case, other characters as they are. -/
def lower (b : UInt8) : UInt8 := if 0x41 ≤ b ∧ b ≤ 0x46 then b + 0x20 else b

/-- The four upper bits of a byte and the four lower ones. -/
def nibbles (b : UInt8) : List UInt8 := [b >>> 4, b &&& 0x0f]

theorem forall_byte {P : UInt8 → Prop} (h : ∀ i : Fin 256, P (UInt8.ofNat i)) (b : UInt8) : P b := by
  have hb := h ⟨b.toNat, b.toNat_lt⟩
  rwa [UInt8.ofNat_toNat] at hb

theorem ignoreAt_of_lt : ∀ b : UInt8, b < 0x80 → ignoreAt (charVal b) = .ok (decide (Ignored b)) :=
  forall_byte (by decide +kernel)

/-- A `char` of 128 or more is negative. -/
theorem ignoreAt_of_ge : ∀ b : UInt8, 0x80 ≤ b → ignoreAt (charVal b) = .error .index :=
  forall_byte (by decide +kernel)

theorem Ignored.char : ∀ {b : UInt8}, Ignored b → b ≠ 0 ∧ b < 0x80 ∧ nibble b = none :=
  fun {b} => forall_byte (P := fun b => Ignored b → b ≠ 0 ∧ b < 0x80 ∧ nibble b = none) (by decide +kernel) b

theorem nibble_char : ∀ b : UInt8, (nibble b).isSome → b ≠ 0 ∧ b < 0x80 ∧ ¬ Ignored b :=
  forall_byte (by decide +kernel)

theorem nibble_lower : ∀ b : UInt8, nibble (lower b) = nibble b :=
  forall_byte (by decide +kernel)

theorem nibble_hexPair : ∀ b : UInt8, (hexPair b).map nibble = (nibbles b).map some :=
  forall_byte (by decide +kernel)

theorem hexPair_eq : ∀ b : UInt8, [mapAt ((b &&& 0xff) >>> 4), mapAt (b &&& 0x0f)] = hexPair b :=
  forall_byte (by decide +kernel)

theorem nibbles_join : ∀ b : UInt8, (b >>> 4) <<< 4 ||| (b &&& 0x0f) = b :=
  forall_byte (by decide +kernel)

@[simp] theorem length_hexText (bs : List UInt8) : (hexText bs).length = 2 * bs.length := by
  induction bs with
  | nil => rfl
  | cons b bs ih =>
    rw [hexText, List.flatMap_cons, List.length_append]
    change 2 + (hexText bs).length = _
    rw [ih, List.length_cons]
    omega

theorem hexText_append (bs cs : List UInt8) : hexText (bs ++ cs) = hexText bs ++ hexText cs := List.flatMap_append

/-! ## Encoding -/

theorem storeAt_append (pre : List UInt8) (x c : UInt8) (post : List UInt8) {i : Nat} (hi : i = pre.length) :
    storeAt (pre ++ x :: post) i c = .ok (pre ++ c :: post) := by
  subst hi
  simp [storeAt]

/-- One byte. -/
theorem bin2hexLoop_byte {inlen dend : Int} {b x y : UInt8} {rest pre post : List UInt8}
    (hin : (pre.length : Int) < inlen)
    (hroom : ((2 * pre.length : Nat) : Int) + 3 < dend) :
    bin2hexLoop inlen dend (b :: rest) pre.length (2 * pre.length) (hexText pre ++ x :: y :: post) =
      bin2hexLoop inlen dend rest (pre ++ [b]).length (2 * (pre ++ [b]).length) (hexText (pre ++ [b]) ++ post) := by
  have htext : hexText (pre ++ [b]) ++ post =
      hexText pre ++ [mapAt ((b &&& 0xff) >>> 4)] ++ mapAt (b &&& 0x0f) :: post := by
    rw [hexText_append, show hexText [b] = hexPair b from List.append_nil _, ← hexPair_eq]
    simp
  rw [bin2hexLoop, if_pos ⟨hin, hroom⟩, storeAt_append _ _ _ _ (length_hexText pre).symm]
  simp only [bind, Except.bind]
  rw [List.append_cons, storeAt_append _ _ _ _ (by simp), ← htext, List.length_append]
  rfl

/-- The loop converts bytes until it has no more of them or finds no more room. -/
theorem bin2hexLoop_eq (inlen dend : Int) : ∀ (rest pre post : List UInt8), inlen = (pre.length + rest.length : Nat) →
    dend ≤ (2 * pre.length + post.length : Nat) → ∃ us vs, rest = us ++ vs ∧
      bin2hexLoop inlen dend rest pre.length (2 * pre.length) (hexText pre ++ post) =
        .ok (hexText (pre ++ us) ++ post.drop (2 * us.length), 2 * (pre ++ us).length) ∧
      (vs = [] ∨ dend ≤ (2 * (pre ++ us).length + 3 : Nat)) ∧
      (us = [] ∨ ((2 * (pre ++ us).length + 1 : Nat) : Int) < dend) := by
  intro rest
  induction rest with
  | nil =>
    intro pre post hin _
    refine ⟨[], [], rfl, ?_, .inl rfl, .inl rfl⟩
    simp only [List.length_nil] at hin
    rw [bin2hexLoop, if_neg (by omega)]
    simp
  | cons b rest ih =>
    intro pre post hin hdst
    simp only [List.length_cons] at hin
    by_cases hroom : ((2 * pre.length : Nat) : Int) + 3 < dend
    · obtain ⟨x, y, post, rfl⟩ : ∃ x y post', post = x :: y :: post' := by
        match post with
        | [] => simp at hdst; omega
        | [_] => simp at hdst; omega
        | x :: y :: post => exact ⟨x, y, post, rfl⟩
      obtain ⟨us, vs, rfl, hloop, hstop, hroom'⟩ := ih (pre ++ [b]) post
        (by simp; omega) (by simp at hdst ⊢; omega)
      refine ⟨b :: us, vs, rfl, ?_, ?_, .inr ?_⟩
      · rw [bin2hexLoop_byte (by omega) hroom, hloop]
        simp [Nat.mul_add]
      · simpa using hstop
      · rcases hroom' with rfl | hroom'
        · simp
          omega
        · simpa using hroom'
    · refine ⟨[], b :: rest, rfl, ?_, .inr ?_, .inl rfl⟩
      · rw [bin2hexLoop, if_neg (fun h => hroom h.2)]
        simp
      · simp
        omega

/-- What `rd_bin2hex` writes, into any destination. -/
theorem bin2hex_eq {bin dst : List UInt8} {inlen dstlen : Int32} (hin : inlen.toInt = bin.length)
    (hdst : dstlen.toInt ≤ dst.length) : ∃ us vs, bin = us ++ vs ∧
      bin2hex bin inlen dst dstlen =
        .ok (if 0 < dstlen.toInt then hexText us ++ 0 :: dst.drop (2 * us.length + 1) else dst, (2 * us.length : Nat)) ∧
      (vs = [] ∨ dstlen.toInt ≤ (2 * us.length + 3 : Nat)) ∧
      (us = [] ∨ ((2 * us.length + 1 : Nat) : Int) < dstlen.toInt) := by
  obtain ⟨us, vs, rfl, hloop, hstop, hroom⟩ := bin2hexLoop_eq inlen.toInt dstlen.toInt bin [] dst
    (by simpa using hin) (by simpa using hdst)
  rw [List.nil_append] at hloop hstop hroom
  refine ⟨us, vs, rfl, ?_, hstop, hroom⟩
  change bin2hexLoop _ _ _ 0 0 dst = _ at hloop
  rw [bin2hex, hloop]
  simp only [bind, Except.bind, pure, Except.pure]
  by_cases hpos : 0 < dstlen.toInt
  · have hlt : ((2 * us.length : Nat) : Int) < dstlen.toInt := by
      rcases hroom with rfl | hroom
      · exact hpos
      · omega
    obtain ⟨x, post, hpost⟩ : ∃ x post, dst.drop (2 * us.length) = x :: post :=
      List.exists_cons_of_length_pos (by rw [List.length_drop]; omega)
    have hdrop : dst.drop (2 * us.length + 1) = post := by
      rw [← List.drop_drop, hpost]
      rfl
    rw [if_pos hlt, if_pos hpos, hpost, storeAt_append _ _ _ _ (length_hexText us).symm, hdrop]
  · have hnil : us = [] := hroom.resolve_right (by omega)
    subst hnil
    rw [if_neg (by simpa using hpos), if_neg hpos]
    simp [hexText]

/-- What `rd_bin2hex` is to do: store within `dst[0..dstlen)` only, the whole text with its nul and its length where the
documented size is given, and the text of some of the bytes with its nul where less is given. -/
structure HexWritten (bin dst : List UInt8) (dstlen : Int) (dst' : List UInt8) (r : Int) : Prop where
  length : dst'.length = dst.length
  outside : dst'.drop dstlen.toNat = dst.drop dstlen.toNat
  full : ((2 * bin.length + 1 : Nat) : Int) ≤ dstlen →
    r = (2 * bin.length : Nat) ∧ dst'.take (2 * bin.length + 1) = hexText bin ++ [0]
  short : dstlen < (2 * bin.length + 1 : Nat) → ∃ us, us <+: bin ∧ dst'.take (2 * us.length + 1) = hexText us ++ [0]

/-- **The hex text of a buffer**: `rd_bin2hex` does what it is to do if and only if there is nothing to encode or the
size of the destination is not the documented one. -/
theorem bin2hex_right_iff (bin dst : List UInt8) (inlen dstlen : Int32) (hin : inlen.toInt = bin.length)
    (hdst : dstlen.toInt ≤ dst.length) (hpos : 0 < dstlen.toInt) :
    (∃ dst' r, bin2hex bin inlen dst dstlen = .ok (dst', r) ∧ HexWritten bin dst dstlen.toInt dst' r) ↔
      bin = [] ∨ dstlen.toInt ≠ (2 * bin.length + 1 : Nat) := by
  obtain ⟨us, vs, rfl, heq, hstop, hroom⟩ := bin2hex_eq hin hdst
  have hlt : ((2 * us.length + 1 : Nat) : Int) ≤ dstlen.toInt := by
    rcases hroom with rfl | hroom
    · exact hpos
    · omega
  have htake : (hexText us ++ 0 :: dst.drop (2 * us.length + 1)).take (2 * us.length + 1) = hexText us ++ [0] := by
    rw [List.take_append, List.take_of_length_le (by simp), length_hexText, Nat.add_sub_cancel_left]
    rfl
  rw [heq, if_pos hpos]
  constructor
  · rintro ⟨dst', r, hres, hright⟩
    obtain ⟨rfl, rfl⟩ : _ = dst' ∧ _ = r := by simpa using hres
    by_contra hbad
    obtain ⟨hne, hsize⟩ : us ++ vs ≠ [] ∧ dstlen.toInt = (2 * (us ++ vs).length + 1 : Nat) := by
      simpa using hbad
    -- the last byte has no room, and all of them are to be there
    have hlen := (hright.full (Int.le_of_eq hsize.symm)).1
    have hvs : vs = [] := by
      rw [List.length_append] at hlen
      exact List.length_eq_zero_iff.1 (by omega)
    subst hvs
    rw [List.append_nil] at hne hsize
    have hus := List.length_pos_iff.2 hne
    have := hroom.resolve_left hne
    omega
  · intro hcond
    refine ⟨_, _, rfl, ?_, ?_, fun hfull => ?_, fun _ => ⟨us, List.prefix_append us vs, htake⟩⟩
    · simp only [List.length_append, length_hexText, List.length_cons, List.length_drop]
      omega
    · obtain ⟨k, hk⟩ :
        ∃ k, dstlen.toInt.toNat = 2 * us.length + 1 + k := ⟨dstlen.toInt.toNat - (2 * us.length + 1), by omega⟩
      have hlen : (hexText us ++ [0]).length = 2 * us.length + 1 := by simp
      rw [hk, List.append_cons, ← hlen, List.drop_length_add_append, List.drop_drop]
    · have hvs : vs = [] := by
        rcases hstop with hvs | hstop
        · exact hvs
        · rw [List.length_append] at hfull hcond
          rcases hcond with hnil | hsize
          · exact (List.append_eq_nil_iff.1 hnil).2
          · exact List.length_eq_zero_iff.1 (by omega)
      subst hvs
      simpa using htake

theorem bin2hex_right_iff_two : ∃ dst' r, bin2hex [0xff, 0x07] 2 (List.replicate 6 1) 6 = .ok (dst', r) ∧
    HexWritten [0xff, 0x07] (List.replicate 6 1) 6 dst' r :=
  (bin2hex_right_iff [0xff, 0x07] (List.replicate 6 1) 2 6 rfl (by decide) (by decide)).2 (.inr (by decide))

/-- One byte and a destination of three bytes: nothing is encoded. -/
theorem bin2hex_one : bin2hex [0xff] 1 [1, 1, 1] 3 = .ok ([0, 1, 1], 0) ∧
    ¬ HexWritten [0xff] [1, 1, 1] 3 [0, 1, 1] 0 := by
  refine ⟨by decide, fun h => ?_⟩
  have hlen := (h.full (by decide)).1
  simp at hlen

/-! ## One character of the decoder -/

/-- The destination after a nibble. -/
def putNibble (dst : List UInt8) (state : Nat) (c : UInt8) : List UInt8 :=
  dst.set (state / 2) (if state % 2 = 1 then dst.getD (state / 2) 0 ||| c else c <<< 4)

@[simp] theorem length_putNibble (dst : List UInt8) (state : Nat) (c : UInt8) :
    (putNibble dst state c).length = dst.length := List.length_set

theorem storeNibble_eq {dst : List UInt8} {state : Nat} (c : UInt8) (h : state / 2 < dst.length) :
    storeNibble dst state (state / 2) c = .ok (putNibble dst state c, (state + 1) / 2) := by
  unfold storeNibble putNibble
  by_cases hodd : state % 2 = 1
  · have hd : (state + 1) / 2 = state / 2 + 1 := by omega
    simp [hodd, storeAt, h, hd, bind, Except.bind, pure, Except.pure]
  · have hd : (state + 1) / 2 = state / 2 := by omega
    simp [hodd, storeAt, h, hd, bind, Except.bind, pure, Except.pure]

section Steps

variable {stop : Option Int} {dend : Int} {b c : UInt8} {rest dst : List UInt8} {s state : Nat}

/-- A nul, the end of the input or a full destination. -/
theorem hex2binLoop_stop (h : b = 0 ∨ (∃ e ∈ stop, e ≤ (s : Int)) ∨ dend ≤ (state / 2 : Nat)) :
    hex2binLoop stop dend (b :: rest) s (state / 2) state dst = .ok (dst, (state / 2 : Nat)) := by
  rw [hex2binLoop, if_neg]
  rintro ⟨hb, hend, hd⟩
  rcases h with rfl | ⟨e, he, hle⟩ | hfull
  · exact hb rfl
  · exact absurd (hend e he) (by omega)
  · omega

theorem hex2binLoop_skip (hb : Ignored b) (hend : ∀ e ∈ stop, (s : Int) < e) (hd : ((state / 2 : Nat) : Int) < dend) :
    hex2binLoop stop dend (b :: rest) s (state / 2) state dst =
      hex2binLoop stop dend rest (s + 1) (state / 2) state dst := by
  obtain ⟨h0, hlt, -⟩ := hb.char
  rw [hex2binLoop, if_pos ⟨h0, hend, hd⟩, ignoreAt_of_lt b hlt, decide_eq_true hb]
  rfl

theorem hex2binLoop_digit (hb : nibble b = some c) (hend : ∀ e ∈ stop, (s : Int) < e)
    (hd : ((state / 2 : Nat) : Int) < dend) (hdst : dend ≤ dst.length) (hstate : state < 2 ^ 31 - 1) :
    hex2binLoop stop dend (b :: rest) s (state / 2) state dst =
      hex2binLoop stop dend rest (s + 1) ((state + 1) / 2) (state + 1) (putNibble dst state c) := by
  obtain ⟨h0, hlt, hign⟩ := nibble_char b (by rw [hb]; rfl)
  have hdigit : hexDigit (charVal b) = some c := hb
  rw [hex2binLoop, if_pos ⟨h0, hend, hd⟩, ignoreAt_of_lt b hlt, decide_eq_false hign]
  simp only [bind, Except.bind, hdigit, if_pos hstate, storeNibble_eq c (show state / 2 < dst.length by omega)]
  rfl

/-- Another character of seven bits ends the scan. -/
theorem hex2binLoop_break (hlt : b < 0x80) (hign : ¬ Ignored b) (hb : nibble b = none) :
    hex2binLoop stop dend (b :: rest) s (state / 2) state dst = .ok (dst, (state / 2 : Nat)) := by
  have hdigit : hexDigit (charVal b) = none := hb
  rw [hex2binLoop]
  split
  · rw [ignoreAt_of_lt b hlt, decide_eq_false hign]
    simp only [bind, Except.bind, hdigit]
    rfl
  · rfl

/-- A character of eight bits is taken for a negative index. -/
theorem hex2binLoop_index (hge : 0x80 ≤ b) (hend : ∀ e ∈ stop, (s : Int) < e) (hd : ((state / 2 : Nat) : Int) < dend) :
    hex2binLoop stop dend (b :: rest) s (state / 2) state dst = .error .index := by
  have h0 : b ≠ 0 := by
    rintro rfl
    exact absurd hge (by decide)
  rw [hex2binLoop, if_pos ⟨h0, hend, hd⟩, ignoreAt_of_ge b hge]
  rfl

end Steps

/-! ## Reading text back -/

/-- The destination after nibbles, the first one with the number `state`. -/
def pack (dst : List UInt8) (state : Nat) : List UInt8 → List UInt8
  | [] => dst
  | c :: cs => pack (putNibble dst state c) (state + 1) cs

/-- The nibbles of bytes make up these bytes. -/
theorem pack_nibbles : ∀ (bs pre post : List UInt8), bs.length ≤ post.length →
    pack (pre ++ post) (2 * pre.length) (bs.flatMap nibbles) = pre ++ bs ++ post.drop bs.length
  | [], pre, post, _ => by simp [pack]
  | b :: bs, pre, [], h => by simp at h
  | b :: bs, pre, x :: post, h => by
    have hhigh : putNibble (pre ++ x :: post) (2 * pre.length) (b >>> 4) = pre ++ ((b >>> 4) <<< 4) :: post := by
      rw [putNibble, if_neg (by omega), Nat.mul_div_cancel_left _ (by omega)]
      simp
    have hlow : putNibble (pre ++ ((b >>> 4) <<< 4) :: post) (2 * pre.length + 1) (b &&& 0x0f) = pre ++ b :: post := by
      rw [putNibble, if_pos (by omega), show (2 * pre.length + 1) / 2 = pre.length by omega]
      simp [nibbles_join]
    have ih := pack_nibbles bs (pre ++ [b]) post (by simpa using h)
    rw [List.flatMap_cons, nibbles, List.cons_append, List.cons_append, List.nil_append, pack, pack, hhigh, hlow,
      List.append_cons, show 2 * pre.length + 1 + 1 = 2 * (pre ++ [b]).length by simp; omega, ih]
    simp

/-- A text of digits and ignored characters, with room for its digits. -/
theorem hex2binLoop_text {dend : Int} (t : List UInt8) : ∀ (text : List UInt8) (s state : Nat) (dst : List UInt8),
    (∀ c ∈ text, Ignored c ∨ (nibble c).isSome) → dend ≤ dst.length →
    ((state + (text.filterMap nibble).length : Nat) : Int) ≤ 2 * dend →
    state + (text.filterMap nibble).length ≤ 2 ^ 31 - 1 →
    hex2binLoop none dend (text ++ 0 :: t) s (state / 2) state dst =
      .ok (pack dst state (text.filterMap nibble), ((state + (text.filterMap nibble).length) / 2 : Nat)) := by
  intro text
  induction text with
  | nil =>
    intro s state dst _ _ _ _
    exact hex2binLoop_stop (.inl rfl)
  | cons c text ih =>
    intro s state dst htext hdst hroom hmax
    have hrest : ∀ c ∈ text, Ignored c ∨ (nibble c).isSome := fun x hx => htext x (List.mem_cons_of_mem c hx)
    rw [List.cons_append]
    by_cases hd : ((state / 2 : Nat) : Int) < dend
    · cases hc : nibble c with
      | none =>
        have hign : Ignored c := (htext c List.mem_cons_self).resolve_right (by simp [hc])
        have hskip : (c :: text).filterMap nibble = text.filterMap nibble := List.filterMap_cons_none hc
        rw [hskip] at hroom hmax ⊢
        rw [hex2binLoop_skip hign (by simp) hd]
        exact ih (s + 1) state dst hrest hdst hroom hmax
      | some x =>
        have hcons : (c :: text).filterMap nibble = x :: text.filterMap nibble := List.filterMap_cons_some hc
        rw [hcons, List.length_cons] at hroom hmax ⊢
        rw [hex2binLoop_digit hc (by simp) hd hdst (by omega), ih (s + 1) (state + 1) _ hrest
          (by simpa using hdst) (by omega) (by omega), pack, Nat.add_assoc, Nat.add_comm 1]
    · -- the destination is full, so there are no digits left
      have hnone : (c :: text).filterMap nibble = [] := List.length_eq_zero_iff.1 (by omega)
      rw [hex2binLoop_stop (.inr (.inr (Int.not_lt.1 hd))), hnone]
      rfl

/-- `text` spells the digits `digits`: ignored characters are put anywhere between them, and letters are in
either case. -/
def Spells (digits text : List UInt8) : Prop := (text.filter fun c => ¬ Ignored c).map lower = digits

instance (digits text : List UInt8) : Decidable (Spells digits text) :=
  inferInstanceAs (Decidable ((text.filter fun c => ¬ Ignored c).map lower = digits))

theorem filterMap_nibble_hexText (bs : List UInt8) : (hexText bs).filterMap nibble = bs.flatMap nibbles := by
  induction bs with
  | nil => rfl
  | cons b bs ih =>
    have hpair : (hexPair b).filterMap nibble = nibbles b := by
      have hmap := congrArg (List.filterMap id) (nibble_hexPair b)
      simpa [List.filterMap_map] using hmap
    rw [hexText, List.flatMap_cons, List.filterMap_append, hpair, List.flatMap_cons]
    exact congrArg _ ih

/-- The digits of a spelling. -/
theorem Spells.filterMap_nibble {digits text : List UInt8} (h : Spells digits text) :
    text.filterMap nibble = digits.filterMap nibble := by
  rw [← h, List.filterMap_map, List.filterMap_filter]
  apply List.filterMap_congr
  intro c _
  by_cases hign : Ignored c
  · simp [hign, hign.char.2.2]
  · simp [hign, nibble_lower]

theorem Spells.char {bs text : List UInt8} (h : Spells (hexText bs) text) {c : UInt8} (hc : c ∈ text) :
    Ignored c ∨ (nibble c).isSome := by
  by_cases hign : Ignored c
  · exact .inl hign
  · right
    have hmem : lower c ∈ hexText bs := by
      rw [← h]
      exact List.mem_map_of_mem (List.mem_filter.2 ⟨hc, by simpa using hign⟩)
    obtain ⟨b, -, hpair⟩ := List.mem_flatMap.1 hmem
    have hsome : nibble (lower c) ∈ (nibbles b).map some := by
      rw [← nibble_hexPair]
      exact List.mem_map_of_mem hpair
    obtain ⟨x, -, hx⟩ := List.mem_map.1 hsome
    rw [← nibble_lower, ← hx]
    rfl

/-- `rd_hex2bin` of a spelling of the text of `bs`. -/
theorem hex2bin_spelling {bs text out : List UInt8} {outlen : Int32} (t : List UInt8) (h : Spells (hexText bs) text)
    (hroom : (bs.length : Int) ≤ outlen.toInt) (hout : outlen.toInt ≤ out.length) (hmax : 2 * bs.length ≤ 2 ^ 31 - 1) :
    hex2bin (text ++ 0 :: t) (-1) out outlen = .ok (bs ++ out.drop bs.length, (bs.length : Nat)) := by
  have hnibbles : text.filterMap nibble = bs.flatMap nibbles := h.filterMap_nibble.trans (filterMap_nibble_hexText bs)
  have hlen : (text.filterMap nibble).length = 2 * bs.length := by
    rw [hnibbles, List.length_flatMap]
    simp [nibbles, Nat.mul_comm]
  have hloop := hex2binLoop_text t text 0 0 out (fun c => h.char) hout (by omega) (by omega)
  have hpack := pack_nibbles bs [] out (by omega)
  rw [hnibbles] at hloop hlen
  simp only [List.nil_append, List.length_nil, Nat.mul_zero] at hpack
  rw [hpack, hlen, Nat.zero_add, Nat.mul_div_cancel_left _ (by omega)] at hloop
  rw [hex2bin, if_pos rfl]
  exact hloop

/-- **Hex round trip**: whatever the size of the destination that `rd_bin2hex` is given, with the result `r`,
`rd_hex2bin` reads the first `r / 2` bytes back from any spelling of the `r` digits, whatever follows its nul. -/
theorem hex_round_trip (bs dst : List UInt8) (inlen dstlen : Int32) (hin : inlen.toInt = bs.length)
    (hdst : dstlen.toInt ≤ dst.length) :
    ∃ dst' r, bin2hex bs inlen dst dstlen = .ok (dst', r) ∧
      ∀ (text t out : List UInt8) (outlen : Int32), Spells (dst'.take r.toNat) text → r / 2 ≤ outlen.toInt →
        outlen.toInt ≤ out.length →
        ∃ out', hex2bin (text ++ 0 :: t) (-1) out outlen = .ok (out', r / 2) ∧
          out'.take (r / 2).toNat = bs.take (r / 2).toNat := by
  obtain ⟨us, vs, rfl, heq, -, hroom⟩ := bin2hex_eq hin hdst
  have hhalf : ((2 * us.length : Nat) : Int) / 2 = (us.length : Nat) := by omega
  have hmax : 2 * us.length ≤ 2 ^ 31 - 1 := by
    have hint := dstlen.toInt_lt
    rcases hroom with rfl | hroom
    · simp
    · omega
  have htext :
    (if 0 < dstlen.toInt then hexText us ++ 0 :: dst.drop (2 * us.length + 1) else dst).take (2 * us.length) =
      hexText us := by
    split
    · rw [List.take_left' (length_hexText us)]
    · have hnil : us = [] := hroom.resolve_right (by omega)
      simp [hnil, hexText]
  refine ⟨_, _, heq, fun text t out outlen hspell hlen hout => ?_⟩
  rw [Int.toNat_natCast, htext] at hspell
  rw [hhalf] at hlen ⊢
  refine ⟨_, hex2bin_spelling t hspell hlen hout hmax, ?_⟩
  rw [Int.toNat_natCast, List.take_left' rfl, List.take_left' rfl]

/-- The text of `ff 80 07`, cut to two bytes by a destination of six, with separators and letters in upper case. -/
theorem hex_round_trip_sample : ∃ dst', bin2hex [0xff, 0x80, 0x07] 3 (List.replicate 6 1) 6 = .ok (dst', 4) ∧
    ∃ out', hex2bin (['f', ' ', 'F', ':', '\n', '8', '.', '0', '\t'].map Char.toUInt8 ++ [0]) (-1) [1, 1] 2 =
      .ok (out', 2) ∧ out'.take 2 = [0xff, 0x80] := by
  obtain ⟨dst', r, henc, hdec⟩ := hex_round_trip [0xff, 0x80, 0x07] (List.replicate 6 1) 3 6 rfl (by decide)
  have hres : bin2hex [0xff, 0x80, 0x07] 3 (List.replicate 6 1) 6 = .ok ([0x66, 0x66, 0x38, 0x30, 0, 1], 4) := by decide
  obtain ⟨rfl, rfl⟩ : _ = dst' ∧ _ = r := by simpa using hres.symm.trans henc
  exact ⟨_, henc, hdec _ [] [1, 1] 2 (by decide) (by decide) (by decide)⟩

/-! ## Bounds of the decoder -/

/-- The scan of an input of `inlen` bytes ends at one of them, `b`: the bytes `xs` before it are hex digits and ignored
characters, and `b` is a nul, or found with the destination full, or another character of seven bits. -/
def EndsAt (dstlen : Int) (xs : List UInt8) (b : UInt8) : Prop :=
  (∀ x ∈ xs, Ignored x ∨ (nibble x).isSome) ∧
    (b = 0 ∨ 2 * dstlen ≤ (xs.filterMap nibble).length ∨ (b < 0x80 ∧ ¬ Ignored b ∧ nibble b = none))

/-- The scan ends at the first byte or later. -/
theorem endsAt_cons {dend : Int} {pre rest : List UInt8} {b : UInt8} :
    (∃ xs c t, b :: rest = xs ++ c :: t ∧ EndsAt dend (pre ++ xs) c) ↔
      EndsAt dend pre b ∨ ∃ xs c t, rest = xs ++ c :: t ∧ EndsAt dend (pre ++ [b] ++ xs) c := by
  constructor
  · rintro ⟨xs, c, t, heq, hends⟩
    cases xs with
    | nil =>
      obtain ⟨rfl, rfl⟩ := List.cons.inj heq
      exact .inl (by simpa using hends)
    | cons x xs =>
      obtain ⟨rfl, rfl⟩ := List.cons.inj heq
      exact .inr ⟨xs, c, t, rfl, by simpa using hends⟩
  · rintro (hends | ⟨xs, c, t, rfl, hends⟩)
    · exact ⟨[], b, rest, rfl, by simpa using hends⟩
    · exact ⟨b :: xs, c, t, rfl, by simpa using hends⟩

/-- A byte that is scanned is not where the scan ends. -/
theorem not_endsAt_of_scanned {dend : Int} {pre : List UInt8} {b : UInt8} (h0 : b ≠ 0)
    (hd : (((pre.filterMap nibble).length / 2 : Nat) : Int) < dend) (hb : Ignored b ∨ (nibble b).isSome) :
    ¬ EndsAt dend pre b := by
  rintro ⟨-, h | h | ⟨-, hign, hnib⟩⟩
  · exact h0 h
  · omega
  · rcases hb with hb | hb
    · exact hign hb
    · simp [hnib] at hb

/-- The scan ends neither at a byte of eight bits nor after it. -/
theorem not_endsAt_of_ge {dend : Int} {pre rest : List UInt8} {b : UInt8} (h0 : b ≠ 0)
    (hd : (((pre.filterMap nibble).length / 2 : Nat) : Int) < dend) (hge : 0x80 ≤ b) :
    ¬ (EndsAt dend pre b ∨ ∃ xs c t, rest = xs ++ c :: t ∧ EndsAt dend (pre ++ [b] ++ xs) c) := by
  have hlt : ¬ b < 0x80 := UInt8.not_lt.2 hge
  have hscan : ¬ (Ignored b ∨ (nibble b).isSome) := by
    rintro (hb | hb)
    · exact hlt hb.char.2.1
    · exact hlt (nibble_char b hb).2.1
  rintro (⟨-, h | h | ⟨h, -⟩⟩ | ⟨xs, c, t, -, hxs, -⟩)
  · exact h0 h
  · omega
  · exact hlt h
  · exact hscan (hxs b (by simp))

/-- The scan of `rest` after `pre` returns if and only if it ends at a byte of `rest`. -/
theorem hex2binLoop_returns_iff {inlen dend : Int} : ∀ (rest pre dst : List UInt8),
    (∀ x ∈ pre, Ignored x ∨ (nibble x).isSome) → inlen = (pre.length + rest.length : Nat) → inlen < 2 ^ 31 →
    dend ≤ dst.length →
    ((∃ res, hex2binLoop (some inlen) dend rest pre.length ((pre.filterMap nibble).length / 2)
        (pre.filterMap nibble).length dst = .ok res) ↔
      ∃ xs b t, rest = xs ++ b :: t ∧ EndsAt dend (pre ++ xs) b) := by
  intro rest
  induction rest with
  | nil =>
    intro pre dst _ _ _ _
    simp [hex2binLoop]
  | cons b rest ih =>
    intro pre dst hpre hin hint hdst
    rw [List.length_cons] at hin
    have hend : ∀ e ∈ some inlen, (pre.length : Int) < e := by
      intro e he
      cases he
      omega
    have hle : (pre.filterMap nibble).length ≤ pre.length := List.length_filterMap_le nibble pre
    rw [endsAt_cons]
    by_cases hstop : b = 0 ∨ dend ≤ ((pre.filterMap nibble).length / 2 : Nat)
    · refine iff_of_true ⟨_, hex2binLoop_stop (hstop.imp id .inr)⟩ (.inl ⟨hpre, hstop.imp id fun h => .inl ?_⟩)
      omega
    obtain ⟨h0, hfull⟩ := not_or.1 hstop
    have hd : (((pre.filterMap nibble).length / 2 : Nat) : Int) < dend := Int.not_le.1 hfull
    have hpre' : Ignored b ∨ (nibble b).isSome → ∀ x ∈ pre ++ [b], Ignored x ∨ (nibble x).isSome := by
      intro hb x hx
      rcases List.mem_append.1 hx with hx | hx
      · exact hpre x hx
      · exact List.mem_singleton.1 hx ▸ hb
    have hlen : inlen = ((pre ++ [b]).length + rest.length : Nat) := by
      rw [List.length_append, List.length_singleton]
      omega
    by_cases hlt : b < 0x80
    · by_cases hign : Ignored b
      · have hrest := ih (pre ++ [b]) dst (hpre' (.inl hign)) hlen hint hdst
        have hfm : (pre ++ [b]).filterMap nibble = pre.filterMap nibble := by
          rw [List.filterMap_append, List.filterMap_cons_none hign.char.2.2]
          simp
        rw [hfm, List.length_append, List.length_singleton] at hrest
        rw [hex2binLoop_skip hign hend hd, hrest, or_iff_right (not_endsAt_of_scanned h0 hd (.inl hign))]
      · cases hnib : nibble b with
        | none =>
          exact iff_of_true ⟨_, hex2binLoop_break hlt hign hnib⟩ (.inl ⟨hpre, .inr (.inr ⟨hlt, hign, hnib⟩)⟩)
        | some c =>
          have hsome : (nibble b).isSome := by rw [hnib]; rfl
          have hrest := ih (pre ++ [b]) (putNibble dst (pre.filterMap nibble).length c) (hpre' (.inr hsome)) hlen hint
            (by simpa using hdst)
          have hfm : (pre ++ [b]).filterMap nibble = pre.filterMap nibble ++ [c] := by
            rw [List.filterMap_append, List.filterMap_cons_some hnib]
            rfl
          rw [hfm, List.length_append, List.length_append, List.length_singleton, List.length_singleton] at hrest
          rw [hex2binLoop_digit hnib hend hd hdst (by omega), hrest,
            or_iff_right (not_endsAt_of_scanned h0 hd (.inr hsome))]
    · have hge : 0x80 ≤ b := UInt8.not_lt.1 hlt
      rw [hex2binLoop_index hge hend hd]
      exact iff_of_false (by simp) (not_endsAt_of_ge h0 hd hge)

/-- **Bounds**: on an input of exactly `inlen` bytes, with a destination of `dstlen` bytes, `rd_hex2bin` reads within
the input and indexes within its table if and only if the scan ends at one of the bytes of the input. -/
theorem hex2bin_in_bounds_iff (hexstr dst : List UInt8) (inlen dstlen : Int32) (hin : inlen.toInt = hexstr.length)
    (hdst : dstlen.toInt ≤ dst.length) :
    (∃ res, hex2bin hexstr inlen dst dstlen = .ok res) ↔
      ∃ xs b t, hexstr = xs ++ b :: t ∧ EndsAt dstlen.toInt xs b := by
  have hne : inlen ≠ -1 := by
    rintro rfl
    have hneg : (-1 : Int32).toInt = -1 := rfl
    omega
  rw [hex2bin, if_neg hne]
  exact hex2binLoop_returns_iff hexstr [] dst (by simp) (by simpa using hin) inlen.toInt_lt hdst

/-- `7f` and a `g`. -/
theorem hex2bin_in_bounds_iff_sample :
    ∃ res, hex2bin (['7', 'f', 'g'].map Char.toUInt8) 3 [0] 1 = .ok res :=
  (hex2bin_in_bounds_iff (['7', 'f', 'g'].map Char.toUInt8) [0] 3 1 rfl (by decide)).2
    ⟨['7', 'f'].map Char.toUInt8, 'g'.toUInt8, [], rfl, by simp; decide, .inr (.inr (by decide))⟩

/-- `7f` without a nul is read past its end, and a byte `ff` is the index -1. -/
theorem hex2bin_out_of_bounds : hex2bin (['7', 'f'].map Char.toUInt8) 2 [0, 0] 2 = .error .read ∧
    hex2bin [0xff] 1 [0] 1 = .error .index := by decide

end Librd.Encoding
