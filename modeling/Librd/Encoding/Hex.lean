import Mathlib

/-!
# Hex text (`rd_hex2bin` and `rd_bin2hex` of `rdencoding.c`)

A buffer is the list of its bytes, and a pointer into it is an offset. What C leaves undefined is a fault: reading or
storing outside of a buffer, an index outside of a table, an overflow of `int state`. A `char` is signed. The arguments
`inlen` and `dstlen` are of type `int` and independent of the buffers.
-/

namespace Librd.Encoding

/-- What can go wrong: `*s` outside of the input, an index outside of `ignore`, a store outside of the destination, an
overflow of `state`. -/
inductive Fault
  | read
  | index
  | store
  | overflow
  deriving DecidableEq, Repr

/-- The value of a byte as a `char`. -/
def charVal (b : UInt8) : Int := b.toInt8.toInt

/-- `dst[i] = c`. -/
def storeAt (dst : List UInt8) (i : Nat) (c : UInt8) : Except Fault (List UInt8) :=
  if i < dst.length then .ok (dst.set i c) else .error .store

/-! ## Decoding -/

/-- The characters whose entry in `ignore` is 1. -/
def ignoreChars : List Nat := [' ', '\t', '.', ':', '\n', '\r'].map Char.toNat

/-- `ignore[i]` of the 256 entries of `ignore`. -/
def ignoreAt (i : Int) : Except Fault Bool :=
  if 0 ≤ i ∧ i < 256 then .ok (decide (i.toNat ∈ ignoreChars)) else .error .index

/-- The value of a hex digit, from the value of its `char`. -/
def hexDigit (c : Int) : Option UInt8 :=
  if 0x30 ≤ c ∧ c ≤ 0x39 then some (UInt8.ofInt (c - 0x30))
  else if 0x41 ≤ c ∧ c ≤ 0x46 then some (UInt8.ofInt (c - 0x41 + 10))
  else if 0x61 ≤ c ∧ c ≤ 0x66 then some (UInt8.ofInt (c - 0x61 + 10))
  else none

/-- `*(d++) |= c` when `state` is odd and `*d = c << 4` when it is even; `d` is `state / 2` throughout. -/
def storeNibble (dst : List UInt8) (state d : Nat) (c : UInt8) : Except Fault (List UInt8 × Nat) :=
  if state % 2 = 1 then do return (← storeAt dst d (dst.getD d 0 ||| c), d + 1)
  else do return (← storeAt dst d (c <<< 4), d)

/-- The loop of `rd_hex2bin`: the input from `s` on, the offsets `s` and `d`, `state`, and the destination. There is no
`stop` if `inlen` is -1. -/
def hex2binLoop (stop : Option Int) (dend : Int) :
    List UInt8 → Nat → Nat → Nat → List UInt8 → Except Fault (List UInt8 × Int)
  | [], _, _, _, _ => .error .read
  | b :: rest, s, d, state, dst =>
    -- `*s` is read before `s` is compared with `end`
    if b ≠ 0 ∧ (∀ e ∈ stop, (s : Int) < e) ∧ (d : Int) < dend then do
      if ← ignoreAt (charVal b) then hex2binLoop stop dend rest (s + 1) d state dst
      else
        match hexDigit (charVal b) with
        | none => .ok (dst, d)
        | some c =>
          if state < 2 ^ 31 - 1 then do
            let (dst, d) ← storeNibble dst state d c
            hex2binLoop stop dend rest (s + 1) d (state + 1) dst
          else .error .overflow
    else .ok (dst, d)

/-- `rd_hex2bin`: the destination afterwards and the result. -/
def hex2bin (hexstr : List UInt8) (inlen : Int32) (dst : List UInt8) (dstlen : Int32) :
    Except Fault (List UInt8 × Int) :=
  hex2binLoop (if inlen = -1 then none else some inlen.toInt) dstlen.toInt hexstr 0 0 0 dst

/-! ## Encoding -/

/-- The table `map` of `rd_bin2hex`. -/
def hexMap : List UInt8 :=
  ['0', '1', '2', '3', '4', '5', '6', '7', '8', '9', 'a', 'b', 'c', 'd', 'e', 'f'].map Char.toUInt8

/-- `map[i]`, for an index of four bits. -/
def mapAt (i : UInt8) : UInt8 := hexMap.getD i.toNat 0

/-- The loop of `rd_bin2hex`: the input from `s` on, the offsets `s` and `d`, and the destination. -/
def bin2hexLoop (inlen dend : Int) : List UInt8 → Nat → Nat → List UInt8 → Except Fault (List UInt8 × Nat)
  | [], s, d, dst => if (s : Int) < inlen ∧ (d : Int) + 3 < dend then .error .read else .ok (dst, d)
  | b :: rest, s, d, dst =>
    if (s : Int) < inlen ∧ (d : Int) + 3 < dend then do
      -- the mask undoes the sign extension of `*s`
      let dst ← storeAt dst d (mapAt ((b &&& 0xff) >>> 4))
      let dst ← storeAt dst (d + 1) (mapAt (b &&& 0x0f))
      bin2hexLoop inlen dend rest (s + 1) (d + 2) dst
    else .ok (dst, d)

/-- `rd_bin2hex`: the destination afterwards and the result. -/
def bin2hex (bin : List UInt8) (inlen : Int32) (dst : List UInt8) (dstlen : Int32) :
    Except Fault (List UInt8 × Int) := do
  let (dst, d) ← bin2hexLoop inlen.toInt dstlen.toInt bin 0 0 dst
  if (d : Int) < dstlen.toInt then return (← storeAt dst d 0, d) else return (dst, d)

end Librd.Encoding
