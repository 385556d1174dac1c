import Mathlib.Data.List.TakeWhile
import Librd.Lib.Words

/-!
# Spans of characters (`rd_strnchrs`, `rd_strnspn` and `rd_strncspn` of `rdstring.c`)

The three scanners mark the characters of a set in a table of 256 entries and then go through the text, up to its NUL or
its size. `char` is signed, and the tables are filled, and by two of the scanners also read, at `(int)*s`; only
`rd_strnchrs` reads at `(unsigned char)*s`. So a character from 128 on in the set, or where one of the two gets to it in
the text, is an index before the table. The two also count in an `int`.

The scanners agree with the longest prefixes inside and outside the set exactly if none of this happens
(`spans_right_iff`). An index outside a table, a read past the end of the text and the overflow of an `int` are
faults (`none`).
-/

namespace Librd.Str

open Words

/-- `char map[256]`. -/
abbrev Table := List Int

/-- `char map[256] = {}`. -/
def emptyTable : Table := List.replicate 256 0

/-- `(int)c` of a signed `char`. -/
def charInt (c : UInt8) : Int := if c < 128 then c.toNat else (c.toNat : Int) - 256

/-- `map[i]`. -/
def tableGet (map : Table) (i : Int) : Option Int := if 0 ≤ i then map[i.toNat]? else none

/-- `map[i] = 1`. -/
def tableSet (map : Table) (i : Int) : Option Table :=
  if 0 ≤ i ∧ i.toNat < map.length then some (map.set i.toNat 1) else none

/-- The loops that mark the characters of a string. -/
def fillTable : Table → List UInt8 → Option Table
  | _, [] => none
  | map, c :: cs => if c = 0 then some map else do fillTable (← tableSet map (charInt c)) cs

/-- The loop of `rd_strnchrs` from the position `pos` on: NULL or a position in the text. -/
def chrsLoop (size : Int) (map : Table) (match_eol : Int) : List UInt8 → Nat → Option (Option Nat)
  | [], pos =>
    if size = -1 ∨ pos < size then none
    else if match_eol ≠ 0 then some (some pos) else some none
  | c :: s, pos =>
    if (size = -1 ∨ pos < size) ∧ c ≠ 0 then do
      if (← tableGet map c.toNat) ≠ 0 then some (some pos) else chrsLoop size map match_eol s (pos + 1)
    else if match_eol ≠ 0 then some (some pos) else some none

/-- `rd_strnchrs`. -/
def strnchrs (s : List UInt8) (size : Int) (delimiters : List UInt8) (match_eol : Int) : Option (Option Nat) := do
  let map ← fillTable emptyTable delimiters
  chrsLoop size map match_eol s 0

/-- `INT_MAX`, the last value of `cnt`. -/
def cntMax : Nat := 2147483647

/-- The loop of `rd_strnspn_map` from the position `pos` on. -/
def spnLoop (size : Nat) (accept : Int) (map : Table) : List UInt8 → Nat → Nat → Option Nat
  | [], pos, cnt => if size = toSize (-1) ∨ pos < size then none else some cnt
  | c :: s, pos, cnt =>
    if (size = toSize (-1) ∨ pos < size) ∧ c ≠ 0 then do
      if (← tableGet map (charInt c)) ≠ accept then some cnt
      else if cnt < cntMax then spnLoop size accept map s (pos + 1) (cnt + 1)
      else none
    else some cnt

/-- `rd_strnspn_map`. -/
def strnspnMap (s : List UInt8) (size : Nat) (accept : Int) (map : Table) : Option Nat := spnLoop size accept map s 0 0

/-- `rd_strnspn`. -/
def strnspn (s : List UInt8) (size : Nat) (accept : List UInt8) : Option Nat := do
  let map ← fillTable emptyTable accept
  strnspnMap s size 1 map

/-- `rd_strncspn`. -/
def strncspn (s : List UInt8) (size : Nat) (reject : List UInt8) : Option Nat := do
  let map ← fillTable emptyTable reject
  strnspnMap s size 0 map

/-! ## Tables -/

/-- The table of the characters of a set. -/
structure Marks (map : Table) (set : List UInt8) : Prop where
  get : ∀ c : UInt8, tableGet map c.toNat = some (if c ∈ set then 1 else 0)

theorem marks_empty : Marks emptyTable [] := by
  refine ⟨fun c => ?_⟩
  rw [tableGet, if_pos (by omega), Int.toNat_natCast, emptyTable, List.getElem?_replicate_of_lt c.toNat_lt]
  simp

theorem Marks.set {map : Table} {set : List UInt8} (h : Marks map set) {c : UInt8} (hc : c < 128) :
    ∃ map', tableSet map (charInt c) = some map' ∧ Marks map' (set ++ [c]) := by
  have hget := h.get c
  have hin : c.toNat < map.length := by
    rw [tableGet, if_pos (by omega), Int.toNat_natCast] at hget
    exact (List.getElem?_eq_some_iff.1 hget).1
  refine ⟨map.set c.toNat 1, ?_, ⟨fun d => ?_⟩⟩
  · simp [tableSet, charInt, hc, hin]
  · have hget' := h.get d
    rw [tableGet, if_pos (by omega), Int.toNat_natCast] at hget' ⊢
    rw [List.getElem?_set]
    by_cases hdc : c = d
    · subst hdc
      simp [hin]
    · have hne : c.toNat ≠ d.toNat := fun heq => hdc (UInt8.toNat_inj.1 heq)
      rw [if_neg hne, hget']
      simp [Ne.symm hdc]

/-- A set of characters below 128 is marked. -/
theorem fillTable_ok : ∀ {map : Table} {old : List UInt8} (set : List UInt8), Marks map old → 0 ∉ set →
    (∀ c ∈ set, c < 128) → ∃ map', fillTable map (set ++ [0]) = some map' ∧ Marks map' (old ++ set)
  | map, old, [], h, _, _ => ⟨map, rfl, by simpa using h⟩
  | map, old, c :: set, h, hnul, hascii => by
    rw [List.mem_cons, not_or] at hnul
    obtain ⟨hc, hascii⟩ := List.forall_mem_cons.1 hascii
    obtain ⟨map', hset, hmarks⟩ := h.set hc
    obtain ⟨map'', hfill, hmarks'⟩ := fillTable_ok set hmarks hnul.2 hascii
    refine ⟨map'', ?_, by simpa using hmarks'⟩
    rw [List.cons_append, fillTable, if_neg (Ne.symm hnul.1), hset]
    exact hfill

/-- Another character is marked outside the table. -/
theorem fillTable_none : ∀ {map : Table} {set : List UInt8} {c : UInt8}, 0 ∉ set → c ∈ set → 128 ≤ c →
    fillTable map (set ++ [0]) = none
  | map, d :: set, c, hnul, hmem, hc => by
    rw [List.mem_cons, not_or] at hnul
    rw [List.cons_append, fillTable, if_neg (Ne.symm hnul.1)]
    by_cases hd : d < 128
    · have hmem' : c ∈ set := by
        rcases List.mem_cons.1 hmem with rfl | h
        · exact absurd hd (UInt8.not_lt.2 hc)
        · exact h
      cases tableSet map (charInt d) with
      | none => rfl
      | some map' => exact fillTable_none hnul.2 hmem' hc
    · have hneg : ¬ 0 ≤ charInt d := by
        have := d.toNat_lt
        rw [charInt, if_neg hd]
        omega
      rw [tableSet, if_neg fun h => hneg h.1]
      rfl

/-! ## The text -/

/-- The text `s` cut at its first NUL and at its size, where -1 is no size. -/
def cut (s : List UInt8) (size : Int) : List UInt8 :=
  (if size = -1 then s else s.take size.toNat).takeWhile (· ≠ 0)

/-- The text can be read: a NUL ends it, or the size does. -/
def Readable (s : List UInt8) (size : Int) : Prop := 0 ∈ s ∨ 0 ≤ size ∧ size ≤ s.length

/-- The text from the position `pos` on, as the loops go through it. -/
def cutFrom (size : Int) : List UInt8 → Nat → List UInt8
  | [], _ => []
  | c :: s, pos => if (size = -1 ∨ pos < size) ∧ c ≠ 0 then c :: cutFrom size s (pos + 1) else []

theorem cutFrom_eq (size : Int) : ∀ (s : List UInt8) (pos : Nat),
    cutFrom size s pos = (if size = -1 then s else s.take (size - pos).toNat).takeWhile (· ≠ 0)
  | [], _ => by simp [cutFrom]
  | c :: s, pos => by
    rw [cutFrom, cutFrom_eq size s (pos + 1)]
    by_cases hsize : size = -1
    · by_cases hc : c = 0 <;> simp [hsize, hc]
    · by_cases hpos : (pos : Int) < size
      · have hsucc : (size - pos).toNat = (size - (pos + 1 : Nat)).toNat + 1 := by omega
        rw [if_neg hsize, if_neg hsize, hsucc, List.take_succ_cons]
        by_cases hc : c = 0 <;> simp [hpos, hc]
      · have hzero : (size - pos).toNat = 0 := by omega
        simp [hsize, hpos, hzero]

/-- What the two scanners with a count make of the cut text: `p` says which characters they pass over. -/
def spnScan (p : UInt8 → Bool) : List UInt8 → Nat → Option Nat
  | [], cnt => some cnt
  | c :: cs, cnt =>
    if 128 ≤ c then none
    else if p c then if cnt < cntMax then spnScan p cs (cnt + 1) else none
    else some cnt

/-- What is left after a character can be read. -/
theorem readable_succ {size : Int} {c : UInt8} {s : List UInt8} {pos : Nat}
    (h : 0 ∈ c :: s ∨ 0 ≤ size ∧ size ≤ pos + (c :: s).length) (hc : c ≠ 0) :
    0 ∈ s ∨ 0 ≤ size ∧ size ≤ (pos + 1 : Nat) + s.length := by
  rcases h with h | h
  · exact .inl ((List.mem_cons.1 h).resolve_left (Ne.symm hc))
  · rw [List.length_cons] at h
    exact .inr ⟨h.1, by omega⟩

section Loops

variable {size : Int} {map : Table} {set : List UInt8} (hmarks : Marks map set)
include hmarks

/-- `rd_strnchrs` stops at the first character of the set. -/
theorem chrsLoop_eq (match_eol : Int) : ∀ (s : List UInt8) (pos : Nat),
    (0 ∈ s ∨ 0 ≤ size ∧ size ≤ pos + s.length) →
    chrsLoop size map match_eol s pos =
      some (if ((cutFrom size s pos).takeWhile (· ∉ set)).length < (cutFrom size s pos).length ∨ match_eol ≠ 0
        then some (pos + ((cutFrom size s pos).takeWhile (· ∉ set)).length) else none)
  | [], pos, hread => by
    have hend : ¬ (size = -1 ∨ (pos : Int) < size) := by
      rcases hread with h | h
      · cases h
      · simp only [List.length_nil] at h
        omega
    rw [chrsLoop, if_neg hend]
    by_cases heol : match_eol = 0 <;> simp [cutFrom, heol]
  | c :: s, pos, hread => by
    rw [chrsLoop, cutFrom]
    by_cases hin : (size = -1 ∨ (pos : Int) < size) ∧ c ≠ 0
    · rw [if_pos hin, if_pos hin, hmarks.get c]
      by_cases hc : c ∈ set
      · simp [hc]
      · have ih := chrsLoop_eq match_eol s (pos + 1) (readable_succ hread hin.2)
        simp [hc, ih, Nat.add_assoc, Nat.add_comm 1]
    · rw [if_neg hin, if_neg hin]
      by_cases heol : match_eol = 0 <;> simp [heol]

theorem tableGet_charInt (c : UInt8) :
    tableGet map (charInt c) = if 128 ≤ c then none else some (if c ∈ set then 1 else 0) := by
  by_cases hc : c < 128
  · rw [if_neg (UInt8.not_le.2 hc), charInt, if_pos hc, hmarks.get c]
  · have hneg : ¬ 0 ≤ charInt c := by
      have := c.toNat_lt
      rw [charInt, if_neg hc]
      omega
    rw [if_pos (UInt8.not_lt.1 hc), tableGet, if_neg hneg]

/-- `rd_strnspn_map` goes through the cut text. -/
theorem spnLoop_eq (hsize : -1 ≤ size) (hmax : size < 2 ^ 63) (accept : Int) : ∀ (s : List UInt8) (pos cnt : Nat),
    (0 ∈ s ∨ 0 ≤ size ∧ size ≤ pos + s.length) →
    spnLoop (toSize size) accept map s pos cnt =
      spnScan (fun c => (if c ∈ set then 1 else 0) = accept) (cutFrom size s pos) cnt
  | [], pos, cnt, hread => by
    have hend : ¬ (toSize size = toSize (-1) ∨ pos < toSize size) := by
      have h1 := toSize_eq size
      have h2 := toSize_eq (-1)
      rcases hread with h | h
      · cases h
      · simp only [List.length_nil] at h
        omega
    rw [spnLoop, if_neg hend, cutFrom, spnScan]
  | c :: s, pos, cnt, hread => by
    have hcond : (toSize size = toSize (-1) ∨ pos < toSize size) ↔ (size = -1 ∨ (pos : Int) < size) := by
      have h1 := toSize_eq size
      have h2 := toSize_eq (-1)
      omega
    rw [spnLoop, cutFrom]
    simp only [hcond]
    by_cases hin : (size = -1 ∨ (pos : Int) < size) ∧ c ≠ 0
    · rw [if_pos hin, if_pos hin, tableGet_charInt hmarks, spnScan]
      by_cases hc : 128 ≤ c
      · simp [hc]
      · have ih := spnLoop_eq hsize hmax accept s (pos + 1) (cnt + 1) (readable_succ hread hin.2)
        rw [if_neg hc, if_neg hc]
        simp only [Option.bind_eq_bind, Option.bind_some, ih, decide_eq_true_eq, ne_eq, ite_not]
    · rw [if_neg hin, if_neg hin, spnScan]

end Loops

/-! ## Counting -/

section Counting

variable (p : UInt8 → Bool)

/-- Before every character from 128 on there is one that the scanner stops at. -/
def StopsBefore (cs : List UInt8) : Prop := ∀ pre c post, cs = pre ++ c :: post → 128 ≤ c → ∃ x ∈ pre, ¬ p x

theorem stopsBefore_cons (c : UInt8) (cs : List UInt8) :
    StopsBefore p (c :: cs) ↔ c < 128 ∧ (p c → StopsBefore p cs) := by
  constructor
  · intro h
    refine ⟨UInt8.not_le.1 fun hc => ?_, fun hp pre d post heq hd => ?_⟩
    · obtain ⟨x, hx, -⟩ := h [] c cs rfl hc
      cases hx
    · obtain ⟨x, hx, hstop⟩ := h (c :: pre) d post (by rw [heq, List.cons_append]) hd
      rcases List.mem_cons.1 hx with rfl | hx
      · exact absurd hp hstop
      · exact ⟨x, hx, hstop⟩
  · rintro ⟨hc, hrest⟩ pre d post heq hd
    cases pre with
    | nil =>
      obtain ⟨rfl, -⟩ := List.cons.inj heq
      exact absurd hc (UInt8.not_lt.2 hd)
    | cons e pre =>
      obtain ⟨rfl, htail⟩ := List.cons.inj heq
      by_cases hp : p c
      · obtain ⟨x, hx, hstop⟩ := hrest hp pre d post htail hd
        exact ⟨x, List.mem_cons_of_mem c hx, hstop⟩
      · exact ⟨c, List.mem_cons_self, hp⟩

/-- The scan of a text gives the length of its longest prefix, unless it meets an index outside the table or the last
value of the count. -/
theorem spnScan_iff : ∀ (cs : List UInt8) (cnt : Nat), cnt ≤ cntMax →
    (spnScan p cs cnt = some (cnt + (cs.takeWhile p).length) ↔
      StopsBefore p cs ∧ cnt + (cs.takeWhile p).length ≤ cntMax)
  | [], cnt, hcnt => by
    simp [spnScan, StopsBefore, hcnt]
  | c :: cs, cnt, hcnt => by
    rw [spnScan, stopsBefore_cons, List.takeWhile_cons]
    by_cases hc : 128 ≤ c
    · simp [hc, UInt8.not_lt.2 hc]
    · rw [if_neg hc]
      have hlt := UInt8.not_le.1 hc
      by_cases hp : p c
      · by_cases hmax : cnt < cntMax
        · have ih := spnScan_iff cs (cnt + 1) hmax
          simpa [hp, hmax, hlt, Nat.add_assoc, Nat.add_comm 1] using ih
        · simp [hp, hmax, hlt]
          omega
      · simp [hp, hlt, hcnt]

/-- The longest prefix is short if the text is, or if there is a character in it that is passed over. -/
theorem takeWhile_le_iff : ∀ (cs : List UInt8) (n : Nat),
    (cs.takeWhile p).length ≤ n ↔ (n < cs.length → ∃ x ∈ cs.take (n + 1), ¬ p x)
  | [], n => by simp
  | c :: cs, n => by
    rw [List.takeWhile_cons, List.take_succ_cons]
    by_cases hp : p c
    · cases n with
      | zero => simp [hp]
      | succ n =>
        have ih := takeWhile_le_iff cs n
        simpa [hp] using ih
    · simp [hp]

end Counting

/-! ## The scanners -/

section Scanners

variable {s : List UInt8} {size : Int} {set : List UInt8} (hread : Readable s size) (hset : 0 ∉ set)
  (hlow : ∀ c ∈ set, c < 128)
include hread hset hlow

/-- What a scanner starts with: a table in which the set is marked, and a text that can be read. -/
theorem exists_table : ∃ map, fillTable emptyTable (set ++ [0]) = some map ∧ Marks map set ∧
    (0 ∈ s ∨ 0 ≤ size ∧ size ≤ (0 : Nat) + s.length) ∧ cutFrom size s 0 = cut s size := by
  obtain ⟨map, hfill, hmarks⟩ := fillTable_ok set marks_empty hset hlow
  have hcut : cutFrom size s 0 = cut s size := by
    rw [cutFrom_eq, cut, Int.natCast_zero, Int.sub_zero]
  exact ⟨map, hfill, hmarks, by simpa [Readable] using hread, hcut⟩

theorem strnchrs_eq (match_eol : Int) : strnchrs s size (set ++ [0]) match_eol =
    some (if ((cut s size).takeWhile (· ∉ set)).length < (cut s size).length ∨ match_eol ≠ 0
      then some ((cut s size).takeWhile (· ∉ set)).length else none) := by
  obtain ⟨map, hfill, hmarks, hread, hcut⟩ := exists_table hread hset hlow
  rw [strnchrs, hfill, Option.bind_eq_bind, Option.bind_some, chrsLoop_eq hmarks match_eol s 0 hread,
    hcut, Nat.zero_add]

variable (hsize : -1 ≤ size) (hmax : size < 2 ^ 63)
include hsize hmax

theorem strnspn_eq : strnspn s (toSize size) (set ++ [0]) = spnScan (· ∈ set) (cut s size) 0 := by
  obtain ⟨map, hfill, hmarks, hread, hcut⟩ := exists_table hread hset hlow
  rw [strnspn, hfill, Option.bind_eq_bind, Option.bind_some, strnspnMap,
    spnLoop_eq hmarks hsize hmax 1 s 0 0 hread, hcut]
  congr 1
  funext c
  by_cases hc : c ∈ set <;> simp [hc]

theorem strncspn_eq : strncspn s (toSize size) (set ++ [0]) = spnScan (· ∉ set) (cut s size) 0 := by
  obtain ⟨map, hfill, hmarks, hread, hcut⟩ := exists_table hread hset hlow
  rw [strncspn, hfill, Option.bind_eq_bind, Option.bind_some, strnspnMap,
    spnLoop_eq hmarks hsize hmax 0 s 0 0 hread, hcut]
  congr 1
  funext c
  by_cases hc : c ∈ set <;> simp [hc]

end Scanners

/-- What the three scanners are to return: the lengths of the longest prefixes of the cut text inside and outside the
set, and the end of the second one, or NULL without `match_eol` if nothing follows it. -/
structure SpansRight (s : List UInt8) (size : Int) (set : List UInt8) : Prop where
  spn : strnspn s (toSize size) (set ++ [0]) = some ((cut s size).takeWhile (· ∈ set)).length
  cspn : strncspn s (toSize size) (set ++ [0]) = some ((cut s size).takeWhile (· ∉ set)).length
  chrs_eol : strnchrs s size (set ++ [0]) 1 = some (some ((cut s size).takeWhile (· ∉ set)).length)
  chrs : strnchrs s size (set ++ [0]) 0 =
    some (if ((cut s size).takeWhile (· ∉ set)).length = (cut s size).length then none
      else some ((cut s size).takeWhile (· ∉ set)).length)

/-- A set and a text that the scanners can cope with: the set is of characters below 128, every other one in the text
has characters inside and outside the set before it, and so has the text among its first `2 ^ 31` if it is longer. -/
structure TextFits (s : List UInt8) (size : Int) (set : List UInt8) : Prop where
  set_low : ∀ c ∈ set, c < 128
  low : ∀ pre c post, cut s size = pre ++ c :: post → 128 ≤ c → (∃ x ∈ pre, x ∈ set) ∧ ∃ x ∈ pre, x ∉ set
  short : cntMax < (cut s size).length →
    (∃ x ∈ (cut s size).take (cntMax + 1), x ∈ set) ∧ ∃ x ∈ (cut s size).take (cntMax + 1), x ∉ set

/-- The scans are right about a text that fits. -/
theorem textFits_iff {s : List UInt8} {size : Int} {set : List UInt8} (hlow : ∀ c ∈ set, c < 128) :
    TextFits s size set ↔
      spnScan (· ∈ set) (cut s size) 0 = some ((cut s size).takeWhile (· ∈ set)).length ∧
      spnScan (· ∉ set) (cut s size) 0 = some ((cut s size).takeWhile (· ∉ set)).length := by
  have hin := spnScan_iff (· ∈ set) (cut s size) 0 (Nat.zero_le _)
  have hout := spnScan_iff (· ∉ set) (cut s size) 0 (Nat.zero_le _)
  rw [Nat.zero_add, takeWhile_le_iff] at hin hout
  rw [hin, hout]
  constructor
  · rintro ⟨-, hstop, hshort⟩
    refine ⟨⟨fun pre c post heq hc => ?_, fun hlong => ?_⟩, fun pre c post heq hc => ?_, fun hlong => ?_⟩
    · simpa using (hstop pre c post heq hc).2
    · simpa using (hshort hlong).2
    · simpa using (hstop pre c post heq hc).1
    · simpa using (hshort hlong).1
  · rintro ⟨⟨hstop1, hshort1⟩, hstop2, hshort2⟩
    refine ⟨hlow, fun pre c post heq hc => ⟨?_, ?_⟩, fun hlong => ⟨?_, ?_⟩⟩
    · simpa using hstop2 pre c post heq hc
    · simpa using hstop1 pre c post heq hc
    · simpa using hshort2 hlong
    · simpa using hshort1 hlong

/-- **Spans**: the three scanners are right about a text and a set if and only if both fit. -/
theorem spans_right_iff {s : List UInt8} {size : Int} {set : List UInt8} (hread : Readable s size) (hsize : -1 ≤ size)
    (hmax : size < 2 ^ 63) (hset : 0 ∉ set) : SpansRight s size set ↔ TextFits s size set := by
  by_cases hlow : ∀ c ∈ set, c < 128
  · have hspn := strnspn_eq hread hset hlow hsize hmax
    have hcspn := strncspn_eq hread hset hlow hsize hmax
    rw [textFits_iff hlow, ← hspn, ← hcspn]
    constructor
    · rintro ⟨h1, h2, -, -⟩
      exact ⟨h1, h2⟩
    · rintro ⟨h1, h2⟩
      refine ⟨h1, h2, ?_, ?_⟩
      · rw [strnchrs_eq hread hset hlow, if_pos (.inr (by decide))]
      · have hle : ((cut s size).takeWhile (· ∉ set)).length ≤ (cut s size).length :=
          (List.takeWhile_prefix _).length_le
        rw [strnchrs_eq hread hset hlow]
        rcases Nat.lt_or_eq_of_le hle with hlt | heq
        · rw [if_pos (.inl hlt), if_neg (Nat.ne_of_lt hlt)]
        · rw [if_neg (by omega), if_pos heq]
  · -- the table of such a set is written outside
    refine iff_of_false (fun h => ?_) fun h => hlow h.set_low
    simp only [not_forall, UInt8.not_lt] at hlow
    obtain ⟨c, hc, hhigh⟩ := hlow
    have hspn := h.spn
    rw [strnspn, fillTable_none hset hc hhigh] at hspn
    cases hspn

/-- The letters of `"1234abcde"` that are digits. -/
theorem spans_right_digits :
    SpansRight [49, 50, 51, 52, 97, 98, 99, 100, 101, 0] (-1) [49, 50, 51, 52] ↔
      TextFits [49, 50, 51, 52, 97, 98, 99, 100, 101, 0] (-1) [49, 50, 51, 52] :=
  spans_right_iff (.inl (by decide)) (by decide) (by decide) (by decide)

/-- The character 233 in the set, and in the text: the first is marked at the index -23, and the second looked up there,
while `rd_strnchrs` finds nothing wrong with it. -/
theorem spans_wrong :
    strnspn [97, 0] (toSize (-1)) [233, 0] = none ∧ strnchrs [97, 0] (-1) [233, 0] 1 = none ∧
    strnspn [233, 0] (toSize (-1)) [97, 0] = none ∧ strnchrs [233, 0] (-1) [97, 0] 1 = some (some 1) ∧
    ¬ SpansRight [97, 0] (-1) [233] ∧ ¬ SpansRight [233, 0] (-1) [97] := by
  have h1 : strnspn [97, 0] (toSize (-1)) [233, 0] = none := by decide +kernel
  have h2 : strnspn [233, 0] (toSize (-1)) [97, 0] = none := by decide +kernel
  refine ⟨h1, by decide +kernel, h2, by decide +kernel, fun h => ?_, fun h => ?_⟩
  · have hspn := h.spn
    rw [List.singleton_append, h1] at hspn
    cases hspn
  · have hspn := h.spn
    rw [List.singleton_append, h2] at hspn
    cases hspn

end Librd.Str
