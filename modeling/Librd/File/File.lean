import Mathlib.Logic.Function.Basic
import Librd.Lib.Splice
import Librd.Lib.Words

/-!
# Whole files (`rd_file_write` and `rd_file_read` of `rdfile.c`)

`rd_file_write` writes a buffer to a file in pieces of at most 16384 bytes, and goes on after a short write.
`rd_file_read` allocates what `fstat` says that the file is long and reads it with one `read`.

What the system calls and `malloc` answer is a parameter (`Answers`): a call fails, or it moves a number of bytes that
the kernel chooses, at least one and at most as many as are asked for and available (`moved`). A path leads to the
contents of a file, and nobody else writes to it. Reading outside the buffer and writing outside the allocated block are
faults (`none`).

* `rdFileWrite_ok`: however the kernel splits the writes, the file holds the buffer;
* `round_trip_iff`: `rd_file_read` returns the buffer exactly if its one `read` moves all of it.
-/

namespace Librd.File

/-- `INT_MAX`. -/
def intMax : Nat := 2147483647

/-- The answers of the system calls and of `malloc`: whether they succeed, and for `write` (by the number of the call)
and `read` the number of bytes that the kernel would move. -/
structure Answers where
  openWrite : Bool
  write : Nat → Option Nat
  openRead : Bool
  fstat : Bool
  malloc : Bool
  read : Option Nat

/-- No call fails. -/
structure Answers.NoneFails (k : Answers) : Prop where
  openWrite : k.openWrite = true
  write : ∀ i, k.write i ≠ none
  openRead : k.openRead = true
  fstat : k.fstat = true
  malloc : k.malloc = true
  read : k.read ≠ none

/-- The number of bytes moved by a call that asks for `asked` bytes. -/
def moved (asked wish : Nat) : Nat := min asked (max 1 wish)

theorem moved_pos {asked : Nat} (wish : Nat) (h : 0 < asked) : 0 < moved asked wish := by
  unfold moved
  omega

theorem moved_le (asked wish : Nat) : moved asked wish ≤ asked := Nat.min_le_left ..

/-- The files of a system by their paths. -/
abbrev Files (π : Type) := π → Option (List UInt8)

/-- The flags of `open` that `rd_file_write` is called with. -/
structure Flags where
  trunc : Bool
  append : Bool
  deriving DecidableEq, Repr

open Words

variable {π : Type} [DecidableEq π]

/-- The contents of the file after `open(path, O_CREAT|O_WRONLY|flags, mode)`. -/
def opened (files : Files π) (path : π) (flags : Flags) : List UInt8 :=
  if flags.trunc then [] else (files path).getD []

/-- The loop of `rd_file_write` from the offset `of` and the write number `i` on: the contents and the result. -/
def writeLoop (write : Nat → Option Nat) (buf : List UInt8) (len : Int) (append : Bool) :
    Nat → Nat → Int → List UInt8 → Option (List UInt8 × Int)
  | 0, _, _, _ => none
  | fuel + 1, i, of, contents =>
    if of < len then
      let asked := (min 16384 (len - of)).toNat
      if buf.length < of.toNat + asked then none
      else
        match write i with
        | none => some (contents, -1)
        | some wish =>
          let r := moved asked wish
          let pos := if append then contents.length else of.toNat
          writeLoop write buf len append fuel (i + 1) (of + r) (Splice.write contents pos (Splice.read buf of.toNat r))
    else some (contents, 0)

/-- `rd_file_write`. Every write moves a byte, so there are at most `len` of them. -/
def rdFileWrite (k : Answers) (files : Files π) (path : π) (buf : List UInt8) (len : Int) (flags : Flags) :
    Option (Files π × Int) :=
  if k.openWrite then
    (writeLoop k.write buf len flags.append (len.toNat + 1) 0 0 (opened files path flags)).map fun out =>
      (Function.update files path (some out.1), out.2)
  else some (files, -1)

/-- The bytes of an allocated block; `none` is a byte that was not written. -/
abbrev Block := List (Option UInt8)

/-- `rd_file_read`: NULL, or the block and `*lenp`. -/
def rdFileRead (k : Answers) (files : Files π) (path : π) : Option (Option (Block × Int)) :=
  match (if k.openRead then files path else none) with
  | none => some none
  | some contents =>
    if k.fstat = false then some none
    else
      let size := contents.length
      if k.malloc = false then some none
      else
        let buf : Block := List.replicate (size + 1) none
        let n : Int := match k.read with
          | none => -1
          | some wish => moved size wish
        let r := toInt n
        if r = -1 then some none
        else
          let buf := Splice.write buf 0 ((contents.take n.toNat).map some)
          -- `buf[r] = '\0'`
          if 0 ≤ r ∧ r.toNat < buf.length then some (some (buf.set r.toNat (some 0), r)) else none

/-! ## The writer -/

/-- One piece of the buffer more. -/
theorem write_piece (buf : List UInt8) {of r : Nat} (h : of ≤ buf.length) :
    Splice.write (buf.take of) of (Splice.read buf of r) = buf.take (of + r) := by
  have hlen : (buf.take of).length = of := List.length_take_of_le h
  have hdrop : (buf.take of).drop (of + ((buf.drop of).take r).length) = [] := List.drop_of_length_le (by omega)
  rw [Splice.write, Splice.read, hdrop, List.append_nil, List.take_of_length_le (Nat.le_of_eq hlen), ← List.take_add]

/-- Whatever the writes move, the file holds the buffer in the end. -/
theorem writeLoop_ok {write : Nat → Option Nat} (hw : ∀ i, write i ≠ none) (buf : List UInt8) (append : Bool) :
    ∀ (fuel i of : Nat), of ≤ buf.length → buf.length < of + fuel →
      writeLoop write buf buf.length append fuel i of (buf.take of) = some (buf, 0)
  | 0, _, _, _, hfuel => absurd hfuel (by omega)
  | fuel + 1, i, of, hof, hfuel => by
    rw [writeLoop]
    by_cases hlt : of < buf.length
    · obtain ⟨wish, hwish⟩ := Option.ne_none_iff_exists'.1 (hw i)
      have hasked : ∃ asked : Nat, (min 16384 ((buf.length : Int) - of)).toNat = asked ∧ 0 < asked ∧
          of + asked ≤ buf.length := ⟨_, rfl, by omega, by omega⟩
      obtain ⟨asked, hasked, hpos, hle⟩ := hasked
      have hmoved := moved_pos wish hpos
      have hmoved' := moved_le asked wish
      have hpos' : (if append then (buf.take of).length else of) = of := by
        rw [List.length_take_of_le hof, ite_self]
      rw [if_pos (by omega)]
      simp only [hasked, Int.toNat_natCast, hwish, hpos']
      rw [if_neg (by omega), write_piece buf hof, ← Int.natCast_add]
      exact writeLoop_ok hw buf append fuel (i + 1) (of + moved asked wish) (by omega) (by omega)
    · obtain rfl : of = buf.length := by omega
      rw [if_neg (by omega), List.take_length]

/-- **The writer** copes with every pattern of short writes. -/
theorem rdFileWrite_ok {k : Answers} (hk : k.NoneFails) (files : Files π) (path : π) (buf : List UInt8)
    (append : Bool) :
    rdFileWrite k files path buf buf.length ⟨true, append⟩ = some (Function.update files path (some buf), 0) := by
  have hloop := writeLoop_ok hk.write buf append (buf.length + 1) 0 0 (Nat.zero_le _) (by omega)
  rw [List.take_zero, Int.natCast_zero] at hloop
  simp only [rdFileWrite, hk.openWrite, if_true, opened, Int.toNat_natCast, hloop, Option.map_some]

/-! ## The reader -/

/-- The block of a file of which `n` bytes were read. -/
def readBlock (contents : List UInt8) (n : Nat) : Block :=
  (contents.take n).map some ++ some 0 :: List.replicate (contents.length - n) none

/-- What the reader makes of the file is decided by the number of bytes that its `read` moves. -/
theorem rdFileRead_eq {π : Type} {k : Answers} (hk : k.NoneFails) {files : Files π} {path : π}
    {contents : List UInt8} {wish : Nat}
    (hfile : files path = some contents) (hread : k.read = some wish) (hlen : contents.length < intMax) :
    rdFileRead k files path =
      some (some (readBlock contents (moved contents.length wish), ((moved contents.length wish : Nat) : Int))) := by
  have hle := moved_le contents.length wish
  generalize hn : moved contents.length wish = n at hle ⊢
  have hint : toInt (n : Int) = n := by
    unfold intMax at hlen
    exact toInt_of_lt (by omega) (by omega)
  have htake : ((contents.take n).map some).length = n := by
    rw [List.length_map, List.length_take_of_le hle]
  have hwrite : Splice.write (List.replicate (contents.length + 1) none) 0 ((contents.take n).map some) =
      (contents.take n).map some ++ none :: List.replicate (contents.length - n) none := by
    have hrest : contents.length + 1 - n = contents.length - n + 1 := by omega
    rw [Splice.write, htake, List.take_zero, List.nil_append, Nat.zero_add, List.drop_replicate, hrest,
      List.replicate_succ]
  have hset : ((contents.take n).map some ++ none :: List.replicate (contents.length - n) none).set n (some 0) =
      readBlock contents n := by
    rw [readBlock, List.set_append_right n _ (Nat.le_of_eq htake), htake, Nat.sub_self, List.set_cons_zero]
  have hin : 0 ≤ (n : Int) ∧ n < ((contents.take n).map some ++
      none :: List.replicate (contents.length - n) none).length := by
    rw [List.length_append, htake]
    simp
  simp only [rdFileRead, hk.openRead, if_true, hfile, hk.fstat, hk.malloc, Bool.true_eq_false, if_false,
    hread, hn, hint,
    Int.toNat_natCast, hwrite, if_pos hin, hset]
  rw [if_neg (by omega)]

/-! ## Round trips -/

/-- What the two are to do: the buffer written with `O_TRUNC` is read back, with a NUL behind it, and `*lenp` is its
length. -/
def RoundTrips (k : Answers) (files : Files π) (path : π) (buf : List UInt8) : Prop :=
  ∃ files', rdFileWrite k files path buf buf.length ⟨true, false⟩ = some (files', 0) ∧
    rdFileRead k files' path = some (some ((buf ++ [0]).map some, ((buf.length : Nat) : Int)))

/-- **Round trips**: where no call fails, the buffer comes back if and only if the `read` of `rd_file_read` moves all
the bytes that it asks for. -/
theorem round_trip_iff {k : Answers} (hk : k.NoneFails) (files : Files π) (path : π) {buf : List UInt8}
    (hlen : buf.length < intMax) : RoundTrips k files path buf ↔ k.read.map (moved buf.length) = some buf.length := by
  obtain ⟨wish, hread⟩ := Option.ne_none_iff_exists'.1 hk.read
  have hfile : Function.update files path (some buf) path = some buf := Function.update_self ..
  have hout := rdFileRead_eq hk hfile hread hlen
  rw [hread, Option.map_some, Option.some.injEq]
  constructor
  · rintro ⟨files', hwrite, hback⟩
    rw [rdFileWrite_ok hk, Option.some.injEq, Prod.mk.injEq] at hwrite
    obtain ⟨rfl, -⟩ := hwrite
    rw [hout, Option.some.injEq, Option.some.injEq, Prod.mk.injEq] at hback
    exact Int.natCast_inj.1 hback.2
  · intro hall
    refine ⟨_, rdFileWrite_ok hk files path buf false, ?_⟩
    rw [hout, hall, readBlock, List.take_length, Nat.sub_self, List.map_append]
    rfl

/-- A kernel that moves one byte at a time when it writes, and up to `n` bytes when it reads. -/
def slow (n : Nat) : Answers where
  openWrite := true
  write _ := some 1
  openRead := true
  fstat := true
  malloc := true
  read := some n

theorem slow_noneFails (n : Nat) : (slow n).NoneFails := ⟨rfl, fun _ => by simp [slow], rfl, rfl, rfl, by simp [slow]⟩

theorem round_trip_whole : RoundTrips (slow 2) (fun _ => none) 0 [97, 98] ↔
    (slow 2).read.map (moved 2) = some 2 :=
  round_trip_iff (slow_noneFails 2) _ 0 (by decide)

/-- Two bytes of which `read` moves one: `rd_file_read` returns one byte and reports one. -/
theorem round_trip_short : (slow 1).NoneFails ∧ ¬ RoundTrips (slow 1) (fun _ => none) 0 [97, 98] ∧
    ((rdFileWrite (slow 1) (fun _ => none) 0 [97, 98] 2 ⟨true, false⟩).bind fun out => rdFileRead (slow 1) out.1 0) =
      some (some ([some 97, some 0, none], 1)) := by
  have hrun : ((rdFileWrite (slow 1) (fun _ => none) 0 [97, 98] 2 ⟨true, false⟩).bind fun out =>
      rdFileRead (slow 1) out.1 0) = some (some ([some 97, some 0, none], 1)) := by decide
  refine ⟨slow_noneFails 1, ?_, hrun⟩
  rintro ⟨files', hwrite, hread⟩
  rw [show (2 : Int) = ([97, 98] : List UInt8).length from rfl, hwrite, Option.bind_some, hread] at hrun
  cases hrun

end Librd.File
