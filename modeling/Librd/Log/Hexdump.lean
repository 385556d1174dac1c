import Librd.Encoding.HexText

/-!
# Hex dumps (`rd_hexdump` of `rdlog.c`)

`rd_hexdump` prints 16 bytes a line: the offset, the bytes in hex, and the bytes as characters. The two columns are made
in buffers of fixed size, by an `int` that counts up to the length. A store outside of a buffer and an `int` that
overflows are faults (`none`). `isprint` is a parameter, with an answer for every `char`, also for the negative ones.

* `rdHexdump_lines`: the lines, for every buffer whose length is an `int`;
* `rdHexdump_round_trip`: `rd_hex2bin` reads the bytes back from the hex columns.
-/

namespace Librd.Log

open Encoding

/-- The bytes of a text of ASCII characters. -/
def ascii (s : String) : List UInt8 := s.toList.map Char.toUInt8

/-- `%zu`. -/
def decimal (n : Nat) : List UInt8 := (Nat.toDigits 10 n).map Char.toUInt8

/-- A field that is filled on the left. -/
def padLeft (n : Nat) (c : Char) (s : List UInt8) : List UInt8 := List.replicate (n - s.length) c.toUInt8 ++ s

/-- A field that is filled on the right. -/
def padRight (n : Nat) (c : Char) (s : List UInt8) : List UInt8 := s ++ List.replicate (n - s.length) c.toUInt8

/-- `sprintf` to the end of a text in a buffer of `size` bytes. -/
def sprintfTo (size : Nat) (buf s : List UInt8) : Option (List UInt8) :=
  if buf.length + s.length + 1 ≤ size then some (buf ++ s) else none

/-- The inner loop of `rd_hexdump`, for `n` more bytes at most: `i`, the bytes from there on, `hexen` and `charen`. -/
def dumpRow (isprint : Int → Bool) : Nat → Nat → List UInt8 → List UInt8 → List UInt8 → Option (List UInt8 × List UInt8)
  | 0, _, _, hexen, charen => some (hexen, charen)
  | _ + 1, _, [], hexen, charen => some (hexen, charen)
  | n + 1, i, b :: p, hexen, charen => do
    let hexen ← sprintfTo (16 * 3 + 1) hexen (hexPair (b &&& 0xff) ++ ascii " ")
    let charen ← sprintfTo (16 + 1) charen (if isprint (charVal b) then [b] else ascii ".")
    if i + 1 < 2147483648 then dumpRow isprint n (i + 1) p hexen charen else none

/-- What is printed for a line. -/
def dumpLine (of : Nat) (hexen charen : List UInt8) : List UInt8 :=
  padLeft 8 '0' (decimal of) ++ ascii ": " ++ padRight 48 ' ' hexen ++ ascii " " ++ padRight 16 ' ' charen ++ ascii "\n"

/-- The outer loop of `rd_hexdump`, with fuel: `of`, and the bytes from there on. -/
def dumpRows (isprint : Int → Bool) : Nat → Nat → List UInt8 → Option (List (List UInt8))
  | _, _, [] => some []
  | 0, _, _ :: _ => none
  | fuel + 1, of, b :: p =>
    if of < 2147483648 then do
      let (hexen, charen) ← dumpRow isprint 16 of (b :: p) [] []
      let lines ← dumpRows isprint fuel (of + 16) ((b :: p).drop 16)
      return dumpLine of hexen charen :: lines
    else none

/-- `rd_hexdump`: the texts that are printed. -/
def rdHexdump (isprint : Int → Bool) (name : Option (List UInt8)) (p : List UInt8) : Option (List (List UInt8)) := do
  let lines ← dumpRows isprint p.length 0 p
  match name with
  | some name => return (name ++ ascii " hexdump (" ++ decimal p.length ++ ascii " bytes):\n") :: lines
  | none => return lines

/-! ## Lines -/

/-- The hex column of some bytes. -/
def hexCells (bs : List UInt8) : List UInt8 := bs.flatMap fun b => hexPair b ++ ascii " "

/-- The character column. -/
def charCells (isprint : Int → Bool) (bs : List UInt8) : List UInt8 :=
  bs.map fun b => if isprint (charVal b) then b else '.'.toUInt8

theorem length_hexCells (bs : List UInt8) : (hexCells bs).length = 3 * bs.length := by
  induction bs with
  | nil => rfl
  | cons b bs ih =>
    have hcell : (hexPair b ++ ascii " ").length = 3 := rfl
    rw [hexCells, List.flatMap_cons, List.length_append, hcell, ← hexCells, ih, List.length_cons]
    omega

section Rows

variable (isprint : Int → Bool)

/-- **One line**: the buffers have room for 16 bytes. -/
theorem dumpRow_ok (n i : Nat) (p done : List UInt8) (hroom : done.length + n ≤ 16) (hint : i + p.length < 2147483648) :
    dumpRow isprint n i p (hexCells done) (charCells isprint done) =
      some (hexCells (done ++ p.take n), charCells isprint (done ++ p.take n)) := by
  induction n generalizing i p done with
  | zero => rw [dumpRow, List.take_zero, List.append_nil]
  | succ n ih =>
    cases p with
    | nil => rw [dumpRow, List.take_nil, List.append_nil]
    | cons b p =>
      rw [List.length_cons] at hint
      have hmask : b &&& 0xff = b := forall_byte (P := fun b => b &&& 0xff = b) (by decide +kernel) b
      have hhex : sprintfTo (16 * 3 + 1) (hexCells done) (hexPair (b &&& 0xff) ++ ascii " ") =
          some (hexCells (done ++ [b])) := by
        have hcell : (hexPair (b &&& 0xff) ++ ascii " ").length = 3 := rfl
        rw [sprintfTo, length_hexCells, hcell, if_pos (by omega), hmask, hexCells, hexCells, List.flatMap_append,
          List.flatMap_singleton]
      have hchar : sprintfTo (16 + 1) (charCells isprint done) (if isprint (charVal b) then [b] else ascii ".") =
          some (charCells isprint (done ++ [b])) := by
        have hone :
          (if isprint (charVal b) then [b] else ascii ".") = [if isprint (charVal b) then b else '.'.toUInt8] := by
          split <;> rfl
        rw [hone, sprintfTo, charCells, List.length_map, if_pos (by simpa using by omega), charCells, List.map_append]
        rfl
      rw [dumpRow, hhex, Option.bind_eq_bind, Option.bind_some, hchar, Option.bind_some, if_pos (by omega),
        ih _ _ _ (by rw [List.length_append]; exact (by simpa using by omega)) (by omega), List.take_succ_cons,
        ← List.append_cons]

/-- The line of some bytes at an offset. -/
def lineOf (of : Nat) (bs : List UInt8) : List UInt8 := dumpLine of (hexCells bs) (charCells isprint bs)

theorem dumpRows_ok (fuel of : Nat) (p : List UInt8) (hfuel : p.length ≤ fuel)
    (hint : p = [] ∨ of + p.length < 2147483648) : dumpRows isprint fuel of p =
      some ((List.range ((p.length + 15) / 16)).map fun k =>
        lineOf isprint (of + 16 * k) ((p.drop (16 * k)).take 16)) := by
  induction fuel generalizing of p with
  | zero =>
    have hnil : p = [] := List.length_eq_zero_iff.1 (Nat.le_zero.1 hfuel)
    subst hnil
    rfl
  | succ fuel ih =>
    cases p with
    | nil => rfl
    | cons b p =>
      have hint' : of + (b :: p).length < 2147483648 := hint.resolve_left (List.cons_ne_nil b p)
      have hlen : ((b :: p).drop 16).length = (b :: p).length - 16 := List.length_drop
      have hpos : 0 < (b :: p).length := Nat.succ_pos _
      have hrow := dumpRow_ok isprint 16 of (b :: p) [] (by decide) hint'
      have hrest := ih (of + 16) ((b :: p).drop 16) (by omega)
        (by rw [← List.length_eq_zero_iff]; omega)
      have hcount : ((b :: p).length + 15) / 16 = (((b :: p).drop 16).length + 15) / 16 + 1 := by omega
      rw [hcount, List.range_succ_eq_map, List.map_cons, List.map_map, dumpRows, if_pos (by omega)]
      rw [show hexCells [] = [] from rfl, show charCells isprint [] = [] from rfl, List.nil_append] at hrow
      simp only [hrow, hrest, Option.bind_eq_bind, Option.bind_some]
      show some _ = some _
      congr 2
      apply List.map_congr_left
      intro k _
      rw [Function.comp_apply, List.drop_drop, Nat.mul_succ, Nat.add_comm (16 * k), Nat.add_assoc]

/-- **The lines**: one for each 16 bytes, with their offset, after the one with the name. -/
theorem rdHexdump_lines (name : Option (List UInt8)) {p : List UInt8} (hint : p.length < 2147483648) :
    rdHexdump isprint name p = some ((name.map fun name =>
      name ++ ascii " hexdump (" ++ decimal p.length ++ ascii " bytes):\n").toList ++
        (List.range ((p.length + 15) / 16)).map fun k => lineOf isprint (16 * k) ((p.drop (16 * k)).take 16)) := by
  have hrows := dumpRows_ok isprint p.length 0 p (Nat.le_refl _) (.inr (by omega))
  simp only [Nat.zero_add] at hrows
  rw [rdHexdump, hrows]
  cases name <;> rfl

end Rows

theorem rdHexdump_lines_one : rdHexdump (fun c => 0x20 ≤ c ∧ c < 0x7f) (some (ascii "key")) [0x41, 0xff] =
    some (((some (ascii "key")).map fun name => name ++ ascii " hexdump (" ++ decimal 2 ++ ascii " bytes):\n").toList ++
      (List.range ((2 + 15) / 16)).map fun k =>
        lineOf (fun c => 0x20 ≤ c ∧ c < 0x7f) (16 * k) (([0x41, 0xff].drop (16 * k)).take 16)) :=
  rdHexdump_lines _ _ (by decide)

/-! ## Reading back -/

/-- The hex column of a line: the 48 characters behind the colon and the blank after it. -/
def hexColumn (line : List UInt8) : List UInt8 := ((line.dropWhile (· ≠ ':'.toUInt8)).drop 2).take 48

theorem decimal_no_colon (n : Nat) : ∀ c ∈ decimal n, c ≠ ':'.toUInt8 := by
  intro c hc
  obtain ⟨d, hd, rfl⟩ := List.mem_map.1 hc
  have hdigit := Nat.isDigit_of_mem_toDigits (by decide) (by decide) hd
  rw [Char.isDigit, Bool.and_eq_true, decide_eq_true_eq, decide_eq_true_eq] at hdigit
  have hlow : 48 ≤ d.val.toNat := hdigit.1
  have hhigh : d.val.toNat ≤ 57 := hdigit.2
  intro h
  have hval := congrArg UInt8.toNat h
  rw [Char.toUInt8, UInt32.toNat_toUInt8, show (':'.toUInt8).toNat = 58 from rfl] at hval
  omega

theorem hexColumn_dumpLine (of : Nat) {hexen : List UInt8} (charen : List UInt8) (h : hexen.length ≤ 48) :
    hexColumn (dumpLine of hexen charen) = padRight 48 ' ' hexen := by
  have hoffset : ∀ c ∈ padLeft 8 '0' (decimal of), decide (c ≠ ':'.toUInt8) = true := by
    intro c hc
    rw [decide_eq_true_eq]
    rcases List.mem_append.1 hc with hc | hc
    · rw [List.eq_of_mem_replicate hc]
      decide
    · exact decimal_no_colon of c hc
  have hlen : (padRight 48 ' ' hexen).length = 48 := by
    rw [padRight, List.length_append, List.length_replicate]
    omega
  rw [hexColumn, dumpLine, List.append_assoc, List.append_assoc, List.append_assoc, List.append_assoc,
    List.dropWhile_append_of_pos hoffset]
  show List.take 48 (padRight 48 ' ' hexen ++ _) = _
  exact List.take_left' hlen

theorem spells_append {ds ds' t t' : List UInt8} (h : Spells ds t) (h' : Spells ds' t') :
    Spells (ds ++ ds') (t ++ t') := by
  rw [Spells, List.filter_append, List.map_append, h, h']

theorem spells_hexCells (bs : List UInt8) : Spells (hexText bs) (hexCells bs) := by
  induction bs with
  | nil => rfl
  | cons b bs ih =>
    have hcell : ∀ b : UInt8, Spells (hexPair b) (hexPair b ++ ascii " ") := forall_byte (by decide +kernel)
    exact spells_append (hcell b) ih

theorem spells_padRight (n : Nat) {ds t : List UInt8} (h : Spells ds t) : Spells ds (padRight n ' ' t) := by
  have hblank : ∀ k, Spells [] (List.replicate k ' '.toUInt8) := by
    intro k
    induction k with
    | zero => rfl
    | succ k ih => exact spells_append (show Spells [] [' '.toUInt8] from rfl) ih
  have happ := spells_append h (hblank (n - t.length))
  rwa [List.append_nil] at happ

/-- The hex columns spell the bytes. -/
theorem spells_columns (isprint : Int → Bool) (n : Nat) (p : List UInt8) (hn : p.length ≤ 16 * n) :
    Spells (hexText p) (((List.range n).map fun k =>
      lineOf isprint (16 * k) ((p.drop (16 * k)).take 16)).flatMap hexColumn) := by
  have hcolumn :
    ∀ (of : Nat) (bs : List UInt8), bs.length ≤ 16 → Spells (hexText bs) (hexColumn (lineOf isprint of bs)) := by
    intro of bs hbs
    rw [lineOf, hexColumn_dumpLine of _ (by rw [length_hexCells]; omega)]
    exact spells_padRight 48 (spells_hexCells bs)
  have hall : ∀ n, Spells (hexText (p.take (16 * n))) (((List.range n).map fun k =>
      lineOf isprint (16 * k) ((p.drop (16 * k)).take 16)).flatMap hexColumn) := by
    intro n
    induction n with
    | zero => rfl
    | succ n ih =>
      rw [List.range_succ, List.map_append, List.flatMap_append, Nat.mul_succ, List.take_add, hexText_append]
      apply spells_append ih
      rw [List.map_singleton, List.flatMap_singleton]
      exact hcolumn _ _ (List.length_take_le 16 _)
  have htake := hall n
  rwa [List.take_of_length_le hn] at htake

/-- **Hex dump round trip**: the hex columns of the lines, put together, are read back by `rd_hex2bin`. -/
theorem rdHexdump_round_trip (isprint : Int → Bool) {p dst : List UInt8} {dstlen : Int32} (hint : p.length < 1073741824)
    (hroom : (p.length : Int) ≤ dstlen.toInt) (hdst : dstlen.toInt ≤ dst.length) (t : List UInt8) :
    ∃ lines, rdHexdump isprint none p = some lines ∧ hex2bin (lines.flatMap hexColumn ++ 0 :: t) (-1) dst dstlen =
      .ok (p ++ dst.drop p.length, p.length) := by
  refine ⟨_, rdHexdump_lines isprint none (by omega), ?_⟩
  apply hex2bin_spelling t _ hroom hdst (by omega)
  rw [Option.map_none, Option.toList_none, List.nil_append]
  exact spells_columns isprint _ p (by omega)

theorem rdHexdump_round_trip_two : ∃ lines, rdHexdump (fun c => 0x20 ≤ c ∧ c < 0x7f) none [0x41, 0xff] = some lines ∧
    hex2bin (lines.flatMap hexColumn ++ 0 :: []) (-1) [7, 7, 7] 3 = .ok ([0x41, 0xff] ++ [7, 7, 7].drop 2, 2) :=
  rdHexdump_round_trip _ (by decide) (by decide) (by decide) []

end Librd.Log
