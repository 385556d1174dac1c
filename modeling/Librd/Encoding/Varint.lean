import Mathlib.Data.Nat.Size

/-!
# Varints (`rdencoding.c`)

`rd_varint_encode_u64`, `rd_varint_decode_u64` and their signed variants. A destination buffer is the list of its bytes
and a store outside of it is a fault (`none`); so is a left shift by 64 or more, which C leaves undefined. The length
of a source buffer is its `size` argument.
-/

namespace Librd.Encoding

/-- `dest[i] = b`. -/
def store (dest : List UInt8) (i : Nat) (b : UInt8) : Option (List UInt8) :=
  if i < dest.length then some (dest.set i b) else none

/-- `x << bits` for a `uint64_t`. -/
def shl64 (x : UInt64) (bits : Nat) : Option UInt64 :=
  if bits < 64 then some (x <<< UInt64.ofNat bits) else none

/-- `x >> 7` is smaller than an `x` that needs another byte. -/
theorem shr7_lt {x : UInt64} (h : 0x80 ≤ x) : (x >>> 7).toNat < x.toNat := by
  have h1 : 128 ≤ x.toNat := by simpa [UInt64.le_iff_toNat_le] using h
  rw [UInt64.toNat_shiftRight, Nat.shiftRight_eq_div_pow]
  simp only [UInt64.reduceToNat, Nat.reduceMod, Nat.reducePow]
  omega

/-- `rd_varint_encode_u64` from the position `s` on: the buffer afterwards and the result. -/
def encodeLoop (uval : UInt64) (dest : List UInt8) (s size : Nat) : Option (List UInt8 × Int) :=
  if _h : 0x80 ≤ uval then
    if s ≥ size then some (dest, -1)
    else do
      let dest ← store dest s ((uval &&& 0xff) ||| 0x80).toUInt8
      encodeLoop (uval >>> 7) dest (s + 1) size
  else if s ≥ size then some (dest, -1)
  else do
    let dest ← store dest s (uval &&& 0xff).toUInt8
    some (dest, (s + 1 : Nat))
termination_by uval.toNat
decreasing_by exact shr7_lt _h

/-- `rd_varint_encode_u64`. -/
def encodeU64 (uval : UInt64) (dest : List UInt8) (size : Nat) : Option (List UInt8 × Int) :=
  encodeLoop uval dest 0 size

/-- `rd_varint_encode_s64`. -/
def encodeS64 (val : Int64) (dest : List UInt8) (size : Nat) : Option (List UInt8 × Int) :=
  let uval := val.toUInt64 <<< 1
  let uval := if val < 0 then uval ^^^ uval else uval
  encodeU64 uval dest size

/-- The loop of `rd_varint_decode_u64`: `rest` is what is left of `s` from `*vlenp` on. The value and `*vlenp`. -/
def decodeLoop (s : List UInt8) : List UInt8 → Nat → Nat → UInt64 → Option (UInt64 × Int)
  | [], vlen, _, _ =>
    -- buffer underflow, unless the byte before the end is a last one
    if vlen = 0 ∨ 0x80 ≤ s.getD (vlen - 1) 0 then some (0, -((vlen : Int) + 1)) else some (0, vlen)
  | b :: rest, vlen, bits, uval =>
    if b < 0x80 then
      if vlen > 9 then some (0, -(vlen : Int))
      else do return (uval ||| (← shl64 b.toUInt64 bits), (vlen + 1 : Nat))
    else do
      decodeLoop s rest (vlen + 1) (bits + 7) (uval ||| (← shl64 (b &&& 0x7f).toUInt64 bits))

/-- `rd_varint_decode_u64`: the value and `*vlenp`. -/
def decodeU64 (buf : List UInt8) : Option (UInt64 × Int) := decodeLoop buf buf 0 0 0

/-- `RD_VARINT_DECODE_ERR`. -/
def DecodeErr (vlen : Int) : Prop := vlen ≤ 0

/-- `RD_VARINT_DECODE_OVERFLOW`. -/
def DecodeOverflow (vlen : Int) : Prop := vlen ≤ -9

instance (vlen : Int) : Decidable (DecodeErr vlen) := inferInstanceAs (Decidable (vlen ≤ 0))

instance (vlen : Int) : Decidable (DecodeOverflow vlen) := inferInstanceAs (Decidable (vlen ≤ -9))

/-- `rd_varint_decode_s64`. -/
def decodeS64 (buf : List UInt8) : Option (Int64 × Int) := do
  let (uval, vlen) ← decodeU64 buf
  if vlen ≤ 0 then return (0, vlen)
  let val := (uval >>> 1).toInt64
  let val := if uval &&& 1 ≠ 0 then val ^^^ val else val
  return (val, vlen)

end Librd.Encoding
