import Mathlib

/-!
# Decompression (`rd_gz_decompress` of `rdgz.c`)

`rd_gz_decompress` inflates twice: a first pass into a scratch buffer counts the bytes, a second one fills a buffer of
that size. The first pass is skipped if the caller gives the length. zlib and `malloc` are parameters (`Env`); what zlib
documents of `inflate` is a property of them (`Documented`). The loops take fuel, and `none` is a loop that needs more.

The `gz_header` is handed over uninitialized, and for gzip input with a name, a comment or an extra field zlib stores
through its pointers. That is not modelled: zlib is taken to store at `next_out` only.
-/

namespace Librd.Gz

/-- The return codes of zlib. -/
inductive Ret
  | ok
  | streamEnd
  | needDict
  | errno
  | streamError
  | dataError
  | memError
  | bufError
  | versionError
  deriving DecidableEq, Repr

/-- The codes that `rd_gz_decompress` takes for a failure of `inflate`. -/
def Ret.failed : Ret → Bool
  | .streamError | .needDict | .dataError | .memError => true
  | _ => false

abbrev Bytes := List UInt8

/-- A call of `inflate`: its result, the bytes that it stored at `next_out`, and the stream afterwards. -/
structure Inflated (σ : Type*) where
  r : Ret
  out : Bytes
  strm : σ

/-- zlib with streams `σ`, and `malloc`. The results of `inflateInit2` and `inflateGetHeader` may depend on the pass;
`inflate` is told if `next_out` is not `NULL`, and `avail_out`. -/
structure Env (σ : Type*) where
  inflateInit2 : Nat → Ret
  inflateGetHeader : Nat → Ret
  start : Bytes → σ
  inflate : σ → Bool → Nat → Inflated σ
  malloc : Nat → Option Bytes
  malloc_length : ∀ n block, malloc n = some block → block.length = n

variable {σ : Type*} (Z : Env σ)

/-- A conversion to `int`. -/
def toInt (x : Int) : Int := Int.bmod x (2 ^ 32)

/-- A conversion to `uInt`. -/
def toUInt (x : Int) : Nat := (x % 2 ^ 32).toNat

/-- Storing bytes at an offset of a buffer. -/
def store (mem : Bytes) (p : Nat) (out : Bytes) : Bytes := mem.take p ++ out ++ mem.drop (p + out.length)

/-- The loop around `inflate`, for a buffer (or `NULL`), the offset `p` in it, `len` and `total_out`: `some none` is
`goto fail`, else the buffer and `total_out`. -/
def inflateLoop : Nat → σ → Option Bytes → Nat → Int → Nat → Option (Option (Option Bytes × Nat))
  | 0, _, _, _, _, _ => none
  | fuel + 1, strm, mem, p, len, totalOut =>
    let z := Z.inflate strm mem.isSome (toUInt len)
    if z.r.failed then some none
    else
      let availOut := toUInt len - z.out.length
      let mem := mem.map fun m => store m p z.out
      let totalOut := totalOut + z.out.length
      if availOut = 0 ∧ z.r ≠ .streamEnd then
        inflateLoop fuel z.strm mem (p + (toUInt len - availOut)) (toInt (len - (len - availOut))) totalOut
      else some (some (mem, totalOut))

/-- A pass, with its output buffer. -/
def runPass (fuel pass : Nat) (compressed : Bytes) (mem : Option Bytes) (len : Int) :
    Option (Option (Option Bytes × Nat)) :=
  if Z.inflateInit2 pass ≠ .ok then some none
  else if Z.inflateGetHeader pass ≠ .ok then some none
  else inflateLoop Z fuel (Z.start compressed) mem 0 len 0

/-- The second pass, and what is returned: the buffer and `*decompressed_lenp`. -/
def secondPass (fuel : Nat) (compressed : Bytes) (decompressed : Option Bytes) (lenp : Nat) :
    Option (Option Bytes × Nat) :=
  (runPass Z fuel 2 compressed decompressed (toInt lenp)).map fun
    | none => (none, lenp)
    | some (mem, _) => (mem, lenp)

/-- `rd_gz_decompress`, with `*decompressed_lenp` in and out. -/
def gzDecompress (fuel : Nat) (compressed : Bytes) (lenp : Nat) : Option (Option Bytes × Nat) :=
  if lenp ≠ 0 then secondPass Z fuel compressed none lenp
  else
    -- a scratch buffer of 512 bytes; its contents are not looked at
    (runPass Z fuel 1 compressed (some (List.replicate 512 0)) 512).bind fun
      | none => some (none, lenp)
      | some (_, totalOut) =>
        match Z.malloc (totalOut + 1) with
        | none => some (none, totalOut)
        | some block => secondPass Z fuel compressed (some (block.set totalOut 0)) totalOut

/-! ## What zlib documents -/

/-- How the compressed data ends. -/
inductive Ending
  | complete
  | truncated
  | broken
  deriving DecidableEq, Repr

/-- `inflate` produces the `rest` of the output, as far as there is space, and reports how the data ends when there is
nothing left to produce (at the latest in the call after). -/
structure Documented (rest : σ → Bytes) (ending : σ → Ending) : Prop where
  out_eq : ∀ s n, (Z.inflate s true n).out = (rest s).take n
  rest_eq : ∀ s n, rest (Z.inflate s true n).strm = (rest s).drop n
  ending_eq : ∀ s n, ending (Z.inflate s true n).strm = ending s
  more : ∀ s n, n < (rest s).length → (Z.inflate s true n).r = .ok ∨ (Z.inflate s true n).r = .bufError
  complete : ∀ s n, ending s = .complete → (rest s).length ≤ n →
    (Z.inflate s true n).r = .streamEnd ∨ (Z.inflate s true n).r = .ok ∧ rest s ≠ []
  truncated : ∀ s n, ending s = .truncated → (Z.inflate s true n).r = .ok ∨ (Z.inflate s true n).r = .bufError
  broken : ∀ s n, ending s = .broken → (rest s).length ≤ n →
    (Z.inflate s true n).r.failed = true ∨ (Z.inflate s true n).r = .ok ∧ rest s ≠ []
  null : ∀ s n, (Z.inflate s false n).r = .streamError

/-- The stream of a pass is set up. -/
def Opens (pass : Nat) : Prop := Z.inflateInit2 pass = .ok ∧ Z.inflateGetHeader pass = .ok

/-! ## The loop -/

section Loop

variable {Z} {rest : σ → Bytes} {ending : σ → Ending} {s : σ} {m : Bytes} {p total n : Nat} {fuel : Nat}

theorem toUInt_of_lt (h : n < 2 ^ 32) : toUInt n = n := by
  rw [toUInt]
  omega

theorem toInt_of_lt (h : n < 2 ^ 31) : toInt n = n := by
  rw [toInt, Int.bmod_def]
  omega

/-- **One iteration**: the output is stored, and the loop goes on if it filled the space and is not the end. -/
theorem inflateLoop_succ (hZ : Documented Z rest ending) (hn : n < 2 ^ 31) :
    inflateLoop Z (fuel + 1) s (some m) p n total =
      if (Z.inflate s true n).r.failed then some none
      else if n ≤ (rest s).length ∧ (Z.inflate s true n).r ≠ .streamEnd then
        inflateLoop Z fuel (Z.inflate s true n).strm (some (store m p ((rest s).take n))) (p + n) 0 (total + n)
      else some (some (some (store m p ((rest s).take n)), total + ((rest s).take n).length)) := by
  have hnU : toUInt n = n := toUInt_of_lt (by omega)
  rw [inflateLoop]
  simp only [Option.isSome_some, hnU, Option.map_some, hZ.out_eq]
  by_cases hf : (Z.inflate s true n).r.failed = true
  · rw [if_pos hf, if_pos hf]
  · rw [if_neg hf, if_neg hf]
    by_cases hle : n ≤ (rest s).length
    · have hlen : ((rest s).take n).length = n := by rw [List.length_take, Nat.min_eq_left hle]
      have hint : toInt ((n : Int) - ((n : Int) - (0 : Nat))) = 0 := by simp [toInt]
      simp only [hlen, Nat.sub_self, Nat.sub_zero, hint, hle, true_and]
    · have hlen : ((rest s).take n).length = (rest s).length := by rw [List.length_take, Nat.min_eq_right (by omega)]
      rw [if_neg (by rw [hlen]; omega), if_neg (by omega)]

end Loop

end Librd.Gz
