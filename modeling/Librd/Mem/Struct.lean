import Librd.Lib.Splice
import Librd.Mem.Counters

/-!
# Structures with their elements (`rd_calloc_struct0`)

`rd_calloc_struct0` goes through its tuples twice: it adds up their lengths, allocates the structure with room for the
copies behind it, and then stores a pointer and makes a copy for each. Between the two it returns if the total is the
size of the structure itself, so the pointers to elements of no bytes stay NULL if there are no others. The length of an
element is an `int`, the total is a `size_t`, and neither is checked; nor is what the allocation returns. The block is
what it is to be exactly if none of this comes into play (`calloc_struct_iff`).

A byte of memory may be one of the bytes of a pointer, so that pointers are stored as such. A write outside the block, a
read past the end of a source and the use of a NULL pointer are faults.
-/

namespace Librd.Mem

/-- `INT_MAX`. -/
def intMax : Int := 2147483647

/-- `sizeof(void *)`. -/
def voidSize : Nat := 8

/-- A byte of memory: a value, or the byte `k` of a pointer. -/
inductive Cell
  | byte (b : UInt8)
  | ptr (addr : Addr) (k : Nat)
  deriving DecidableEq, Repr

/-- A pointer. -/
def ptrCells (addr : Addr) : List Cell := (List.range voidSize).map (Cell.ptr addr)

/-- What `calloc` makes. -/
def zeros (n : Nat) : List Cell := List.replicate n (.byte 0)

/-- A tuple of the arguments: the length, the bytes from the source on, and the offset of the destination. The list of
tuples ends at `RD_MEM_END_TOKEN`. -/
structure Tuple where
  length : Int
  src : List UInt8
  dst : Nat
  deriving DecidableEq, Repr

/-- A number as an `int`. -/
def toInt (x : Int) : Int := Int.bmod x (2 ^ 32)

/-- A number as a `size_t`. -/
def toSize (x : Int) : Nat := (x % 2 ^ 64).toNat

/-- `strlen`. -/
def strlen (src : List UInt8) : Option Nat := if 0 ∈ src then some (src.idxOf 0) else none

/-- `elem_size`. -/
def elemSize (t : Tuple) : Option Int :=
  if t.length = -1 then (strlen t.src).map fun n => toInt (n + 1) else some t.length

/-- Pass 1: `tot_size`. -/
def totalSize : List Tuple → Nat → Option Nat
  | [], tot => some tot
  | t :: ts, tot => do totalSize ts (toSize (tot + (← elemSize t)))

/-- A store into the block. -/
def poke (mem : List Cell) (i : Nat) (cs : List Cell) : Option (List Cell) :=
  if i + cs.length ≤ mem.length then some (Splice.write mem i cs) else none

/-- Pass 2 for the block at `ptr`, with `tail` as an offset. -/
def copyTuples (ptr : Addr) : List Tuple → Nat → List Cell → Option (List Cell)
  | [], _, mem => some mem
  | t :: ts, tail, mem => do
    let size ← elemSize t
    let mem ← poke mem t.dst (ptrCells (ptr + tail))
    -- a negative size is more than there is to read
    guard (toSize size ≤ t.src.length)
    let mem ← poke mem tail ((t.src.take (toSize size)).map .byte)
    copyTuples ptr ts (tail + size.toNat) mem

/-- The allocation, with a context or without: the pointer, and the number of bytes that are there. `res` is what
`calloc` returns. -/
def structAlloc (rmc : Option State) (tot : Nat) (res : Option Addr) : Option (Option State × Option (Addr × Nat)) :=
  match rmc with
  | none => some (none, res.map fun a => (a, tot))
  | some s => do
    let (s, ptr) ← alloc s tot .calloc res
    return (some s, do
      let a ← res
      let block ← s.heap a
      let ptr ← ptr
      return (ptr, a + block.size - ptr))

/-- `rd_calloc_struct0`: the context and the block, which may be NULL. -/
def callocStruct0 (rmc : Option State) (base : Nat) (tuples : List Tuple) (res : Option Addr) :
    Option (Option State × Option (Addr × List Cell)) := do
  let tot ← totalSize tuples base
  let (rmc, block) ← structAlloc rmc tot res
  if tot = base then return (rmc, block.map fun b => (b.1, zeros b.2))
  else
    -- there is a tuple, and a destination at NULL is a fault
    let (ptr, room) ← block
    let mem ← copyTuples ptr tuples base (zeros room)
    return (rmc, some (ptr, mem))

/-! ## What the block should be -/

/-- The bytes that are to be copied. -/
def Tuple.bytes (t : Tuple) : List UInt8 :=
  t.src.take (if t.length = -1 then t.src.idxOf 0 + 1 else t.length.toNat)

/-- The sum of the lengths. -/
def total (tuples : List Tuple) : Nat := (tuples.map fun t => t.bytes.length).sum

/-- The source is a string, or holds the bytes of the length; the destination is a pointer in the structure. -/
structure Tuple.Wf (base : Nat) (t : Tuple) : Prop where
  length : t.length = -1 ∧ 0 ∈ t.src ∨ 0 ≤ t.length ∧ t.length ≤ intMax ∧ t.length ≤ t.src.length
  src_lt : t.src.length < 2 ^ 63
  dst_le : t.dst + voidSize ≤ base

/-- Two destinations are not the same. -/
def Tuple.Apart (t t' : Tuple) : Prop := t.dst + voidSize ≤ t'.dst ∨ t'.dst + voidSize ≤ t.dst

/-- The arguments: at least one tuple, the destinations all different, and a base that is a `size_t`. -/
structure Args (base : Nat) (tuples : List Tuple) : Prop where
  some_tuple : tuples ≠ []
  wf : ∀ t ∈ tuples, t.Wf base
  apart : tuples.Pairwise Tuple.Apart
  base_lt : base < 2 ^ 64

/-- Each pointer is that of a copy, and the copies lie one behind the other from `tail` on, up to the end
of the block. -/
def Laid (ptr : Addr) (mem : List Cell) : Nat → List Tuple → Prop
  | tail, [] => tail = mem.length
  | tail, t :: ts => Splice.read mem t.dst voidSize = ptrCells (ptr + tail) ∧
      Splice.read mem tail t.bytes.length = t.bytes.map .byte ∧ Laid ptr mem (tail + t.bytes.length) ts

/-- The copies are behind the base, which is zero but for the pointers to them. -/
structure Right (base : Nat) (tuples : List Tuple) (ptr : Addr) (mem : List Cell) : Prop where
  laid : Laid ptr mem base tuples
  rest : ∀ k < base, (∀ t ∈ tuples, k < t.dst ∨ t.dst + voidSize ≤ k) → mem[k]? = some (.byte 0)

/-- The bytes that a tracked context puts in front of a block. -/
def header : Option State → Nat
  | none => 0
  | some s => if s.rmc.track then ptrSize else 0

/-- The allocation succeeds, not all elements are empty, and their lengths are counted right. -/
structure Fits (rmc : Option State) (base : Nat) (tuples : List Tuple) (res : Option Addr) : Prop where
  allocated : res ≠ none
  some_bytes : ∃ t ∈ tuples, t.bytes ≠ []
  length_le : ∀ t ∈ tuples, (t.bytes.length : Int) ≤ intMax
  total_lt : header rmc + (base + total tuples) < 2 ^ 64

/-! ## Lengths -/

section Lengths

variable {base tail room tot : Nat} {t : Tuple} {ts : List Tuple} {ptr : Addr} {mem mem' : List Cell}

theorem toSize_le {x : Int} (h : 0 ≤ x) : toSize x ≤ x.toNat := by
  rw [toSize]
  omega

theorem toSize_eq {x : Int} (h : 0 ≤ x) (hlt : x < 2 ^ 64) : toSize x = x.toNat := by
  rw [toSize]
  omega

theorem toInt_bounds (x : Int) : -2147483648 ≤ toInt x ∧ toInt x ≤ intMax := by
  have hle : -((2 ^ 32 : Nat) / 2 : Int) ≤ Int.bmod x (2 ^ 32) := Int.le_bmod (by decide)
  have hlt : Int.bmod x (2 ^ 32) < ((2 ^ 32 : Nat) + 1) / 2 := Int.bmod_lt (by decide)
  rw [toInt, intMax]
  omega

/-- A length as an `int` is the length, or less. -/
theorem toInt_le (n : Nat) : toInt n ≤ n := by
  rw [toInt, Int.bmod_def]
  omega

theorem toInt_eq {n : Nat} (h : (n : Int) ≤ intMax) : toInt n = n := by
  rw [toInt, Int.bmod_def]
  rw [intMax] at h
  omega

theorem Tuple.take_bytes (t : Tuple) : t.src.take t.bytes.length = t.bytes := by
  rw [Tuple.bytes, List.length_take]
  exact List.take_eq_take_min.symm

/-- `elem_size` is the length, as an `int`. -/
theorem Tuple.Wf.elemSize_eq (h : t.Wf base) : elemSize t = some (toInt t.bytes.length) := by
  rw [elemSize, Tuple.bytes, List.length_take]
  rcases h.length with ⟨hstring, hnul⟩ | ⟨hpos, hint, hsrc⟩
  · have hlt := List.idxOf_lt_length_of_mem hnul
    rw [if_pos hstring, if_pos hstring, strlen, if_pos hnul, Nat.min_eq_left hlt]
    rfl
  · rw [if_neg (by omega), if_neg (by omega), Nat.min_eq_left (by omega), toInt_eq (by omega)]
    exact congrArg some (Int.toNat_of_nonneg hpos).symm

theorem total_cons (t : Tuple) (ts : List Tuple) : total (t :: ts) = t.bytes.length + total ts := rfl

/-- **Pass 1** counts at most the bytes, and all of them only if each length is an `int`. -/
theorem totalSize_le (hwf : ∀ t ∈ ts, t.Wf base) (hpos : ∀ t ∈ ts, 0 ≤ toInt t.bytes.length) {tot' : Nat}
    (h : totalSize ts tot = some tot') :
    tot' ≤ tot + total ts ∧ (tot' = tot + total ts → ∀ t ∈ ts, (t.bytes.length : Int) ≤ intMax) := by
  induction ts generalizing tot with
  | nil =>
    cases h
    exact ⟨le_rfl, fun _ t ht => (by cases ht)⟩
  | cons t ts ih =>
    rw [List.forall_mem_cons] at hwf hpos
    rw [totalSize, hwf.1.elemSize_eq] at h
    obtain ⟨hle, hall⟩ := ih hwf.2 hpos.2 h
    have hint := toInt_le t.bytes.length
    have hmax := (toInt_bounds t.bytes.length).2
    have hpos' := hpos.1
    have hstep := @toSize_le (tot + toInt t.bytes.length) (by omega)
    rw [total_cons]
    refine ⟨by omega, fun heq => List.forall_mem_cons.2 ⟨by omega, hall (by omega)⟩⟩

theorem totalSize_lt (hwf : ∀ t ∈ ts, t.Wf base) (htot : tot < 2 ^ 64) {tot' : Nat} (h : totalSize ts tot = some tot') :
    tot' < 2 ^ 64 := by
  induction ts generalizing tot with
  | nil =>
    cases h
    exact htot
  | cons t ts ih =>
    rw [List.forall_mem_cons] at hwf
    rw [totalSize, hwf.1.elemSize_eq] at h
    refine ih hwf.2 ?_ h
    rw [toSize]
    omega

/-- Pass 1 counts all bytes. -/
theorem totalSize_eq (hwf : ∀ t ∈ ts, t.Wf base) (hint : ∀ t ∈ ts, (t.bytes.length : Int) ≤ intMax)
    (hlt : tot + total ts < 2 ^ 64) : totalSize ts tot = some (tot + total ts) := by
  induction ts generalizing tot with
  | nil => rfl
  | cons t ts ih =>
    rw [List.forall_mem_cons] at hwf hint
    rw [total_cons] at hlt ⊢
    have hsize : toSize (tot + toInt t.bytes.length) = tot + t.bytes.length := by
      rw [toInt_eq hint.1, toSize_eq (by omega) (by omega)]
      omega
    rw [totalSize, hwf.1.elemSize_eq, Option.bind_eq_bind, Option.bind_some, hsize,
      ih hwf.2 hint.2 (by omega), Nat.add_assoc]

/-! ## The allocation -/

variable {rmc rmc' : Option State} {res : Option Addr}

theorem alloc_untracked {s : State} (ht : s.rmc.track = false) (size : Nat) (type : AllocType) (res : Option Addr) :
    alloc s size type res = some ({ s with
      rmc := { s.rmc with out := (s.rmc.out + 1) % 2 ^ 32, bytesOut := (s.rmc.bytesOut + size) % 2 ^ 64 }
      heap := alloc0 s.heap size type res }, res) := by
  cases res <;> simp [alloc, ht, Rmc.ptrOf]

/-- The bytes that are there in a context. -/
theorem structAlloc_some {s : State} {a : Addr} (htot : tot < 2 ^ 64) : structAlloc (some s) tot (some a) =
    if header (some s) = ptrSize ∧ ¬ptrUsed ≤ (ptrSize + tot) % 2 ^ 64 then none
    else some ((alloc s tot .calloc (some a)).map Prod.fst,
      some (a + header (some s), (header (some s) + tot) % 2 ^ 64 - header (some s))) := by
  cases ht : s.rmc.track with
  | true =>
    have hheader : header (some s) = ptrSize := by rw [header, ht]; rfl
    rw [hheader]
    by_cases htotal : ptrUsed ≤ (ptrSize + tot) % 2 ^ 64
    · rw [if_neg fun hboth => hboth.2 htotal, structAlloc, alloc_eq ht tot .calloc a htotal]
      simp [alloc0, Nat.add_sub_add_left]
    · rw [if_pos ⟨rfl, htotal⟩, structAlloc, alloc_fault ht tot .calloc a htotal]
      rfl
  | false =>
    have hheader : header (some s) = 0 := by rw [header, ht]; rfl
    rw [hheader, if_neg fun hboth => absurd hboth.1 (by decide), structAlloc, alloc_untracked ht, Nat.zero_add,
      Nat.mod_eq_of_lt htot]
    simp [alloc0]

/-- A block has the bytes asked for, less those that do not fit a `size_t` with the header. -/
theorem structAlloc_room (h : structAlloc rmc tot res = some (rmc', some (ptr, room))) (htot : tot < 2 ^ 64) :
    res ≠ none ∧ room = (header rmc + tot) % 2 ^ 64 - header rmc := by
  cases res with
  | none =>
    cases rmc with
    | none => cases h
    | some s =>
      obtain ⟨p, -, heq⟩ := Option.bind_eq_some_iff.1 h
      cases heq
  | some a =>
    refine ⟨Option.some_ne_none a, ?_⟩
    cases rmc with
    | none =>
      cases h
      rw [header, Nat.zero_add, Nat.mod_eq_of_lt htot, Nat.sub_zero]
    | some s =>
      rw [structAlloc_some htot] at h
      split at h
      · cases h
      · cases h
        rfl

/-- An allocation that leaves room for the header. -/
theorem structAlloc_ok (hres : res ≠ none) (hlt : header rmc + tot < 2 ^ 64) (htot : ptrUsed ≤ ptrSize + tot) :
    ∃ rmc' ptr, structAlloc rmc tot res = some (rmc', some (ptr, tot)) := by
  obtain ⟨a, rfl⟩ := Option.ne_none_iff_exists'.1 hres
  cases rmc with
  | none => exact ⟨none, a, rfl⟩
  | some s =>
    refine ⟨(alloc s tot .calloc (some a)).map Prod.fst, a + header (some s), ?_⟩
    rw [structAlloc_some (by omega), Nat.mod_eq_of_lt hlt, Nat.add_sub_cancel_left, if_neg]
    rintro ⟨hheader, hroom⟩
    rw [hheader] at hlt
    rw [Nat.mod_eq_of_lt hlt] at hroom
    exact hroom htot

/-! ## The copies -/

theorem length_ptrCells (ptr : Addr) : (ptrCells ptr).length = voidSize := by
  rw [ptrCells, List.length_map, List.length_range]

theorem poke_eq {i : Nat} {cs : List Cell} (h : i + cs.length ≤ mem.length) :
    poke mem i cs = some (Splice.write mem i cs) := if_pos h

theorem poke_length {i : Nat} {cs : List Cell} (h : poke mem i cs = some mem') : mem'.length = mem.length := by
  rw [poke] at h
  split at h
  · cases h
    exact Splice.length_write ‹_›
  · cases h

/-- **Pass 2** does not get past a length that is negative. -/
theorem copyTuples_sizes (hwf : ∀ t ∈ ts, t.Wf base) (h : copyTuples ptr ts tail mem = some mem') :
    (∀ t ∈ ts, 0 ≤ toInt t.bytes.length) ∧ mem'.length = mem.length := by
  induction ts generalizing tail mem with
  | nil =>
    cases h
    exact ⟨fun t ht => (by cases ht), rfl⟩
  | cons t ts ih =>
    rw [List.forall_mem_cons] at hwf
    rw [copyTuples, hwf.1.elemSize_eq] at h
    obtain ⟨size, hsize, h⟩ := Option.bind_eq_some_iff.1 h
    obtain rfl := Option.some.inj hsize
    obtain ⟨mem1, hfield, h⟩ := Option.bind_eq_some_iff.1 h
    obtain ⟨_, hguard, h⟩ := Option.bind_eq_some_iff.1 h
    obtain ⟨mem2, hcopy, h⟩ := Option.bind_eq_some_iff.1 h
    obtain ⟨hpos, hlen⟩ := ih hwf.2 h
    refine ⟨List.forall_mem_cons.2 ⟨?_, hpos⟩, ?_⟩
    · have hread : toSize (toInt t.bytes.length) ≤ t.src.length := by
        by_contra hnot
        have hfail : (guard (toSize (toInt t.bytes.length) ≤ t.src.length) : Option Unit) = none := if_neg hnot
        cases hfail.symm.trans hguard
      have hsrc := hwf.1.src_lt
      have hbounds := toInt_bounds t.bytes.length
      rw [toSize] at hread
      rw [intMax] at hbounds
      omega
    · rw [hlen, poke_length hcopy, poke_length hfield]

theorem Laid.length_eq (h : Laid ptr mem tail ts) : tail + total ts = mem.length := by
  induction ts generalizing tail with
  | nil => exact h
  | cons t ts ih =>
    rw [total_cons, ← Nat.add_assoc]
    exact ih h.2.2

/-- **Pass 2** makes the copies from `tail` on, and writes nowhere else but to the destinations. -/
theorem copyTuples_laid (ptr : Addr) (hwf : ∀ t ∈ ts, t.Wf base) (hapart : ts.Pairwise Tuple.Apart)
    (hint : ∀ t ∈ ts, (t.bytes.length : Int) ≤ intMax) (hbase : base ≤ tail) (hlen : tail + total ts = mem.length) :
    ∃ mem', copyTuples ptr ts tail mem = some mem' ∧ Laid ptr mem' tail ts ∧
      ∀ k < tail, (∀ t ∈ ts, k < t.dst ∨ t.dst + voidSize ≤ k) → mem'[k]? = mem[k]? := by
  induction ts generalizing tail mem with
  | nil => exact ⟨mem, rfl, hlen, fun _ _ _ => rfl⟩
  | cons t ts ih =>
    rw [List.forall_mem_cons] at hwf hint
    rw [List.pairwise_cons] at hapart
    rw [total_cons] at hlen
    have hdst := hwf.1.dst_le
    obtain ⟨mem1, hmem1⟩ : ∃ m, m = Splice.write mem t.dst (ptrCells (ptr + tail)) := ⟨_, rfl⟩
    obtain ⟨mem2, hmem2⟩ : ∃ m, m = Splice.write mem1 tail (t.bytes.map .byte) := ⟨_, rfl⟩
    have hcells := length_ptrCells (ptr + tail)
    have hbytes : (t.bytes.map Cell.byte).length = t.bytes.length := List.length_map _
    have hfield : t.dst + (ptrCells (ptr + tail)).length ≤ mem.length := by omega
    have hlen1 : mem1.length = mem.length := hmem1 ▸ Splice.length_write hfield
    have hcopy : tail + (t.bytes.map Cell.byte).length ≤ mem1.length := by omega
    have hlen2 : mem2.length = mem1.length := hmem2 ▸ Splice.length_write hcopy
    have hrest : tail + t.bytes.length + total ts = mem2.length := by omega
    obtain ⟨mem', hrun, hlaid, hframe⟩ := ih hwf.2 hapart.2 hint.2 (by omega) hrest
    have hsize : toSize t.bytes.length = t.bytes.length := by
      have hmax := hint.1
      rw [intMax] at hmax
      rw [toSize_eq (by omega) (by omega), Int.toNat_natCast]
    refine ⟨mem', ?_, ⟨?_, ?_, hlaid⟩, fun k hk hout => ?_⟩
    · have hguard : (guard (t.bytes.length ≤ t.src.length) : Option Unit) = some () :=
        if_pos (List.length_take_le' _ _)
      rw [copyTuples, hwf.1.elemSize_eq]
      simp only [Option.bind_eq_bind, Option.bind_some, poke_eq hfield, ← hmem1, hsize, hguard, t.take_bytes,
        poke_eq hcopy, ← hmem2, toInt_eq hint.1, Int.toNat_natCast]
      exact hrun
    · calc Splice.read mem' t.dst voidSize
        _ = Splice.read mem2 t.dst voidSize := by
          apply Splice.read_congr
          intro j hj
          apply hframe _ (by omega)
          intro t' ht'
          have hdisjoint := hapart.1 t' ht'
          rw [Tuple.Apart] at hdisjoint
          omega
        _ = Splice.read mem1 t.dst voidSize := by
          rw [hmem2]
          exact Splice.read_write_of_disjoint hcopy (.inl (by omega))
        _ = ptrCells (ptr + tail) := by
          rw [hmem1, ← hcells]
          exact Splice.read_write_self hfield
    · calc Splice.read mem' tail t.bytes.length
        _ = Splice.read mem2 tail t.bytes.length := by
          apply Splice.read_congr
          intro j hj
          apply hframe _ (by omega)
          intro t' ht'
          have hle := (hwf.2 t' ht').dst_le
          omega
        _ = t.bytes.map .byte := by
          rw [hmem2, ← hbytes]
          exact Splice.read_write_self hcopy
    · rw [List.forall_mem_cons] at hout
      have hmem2k : mem2[k]? = mem1[k]? := hmem2 ▸ Splice.getElem?_write_of_lt hcopy hk
      rw [hframe k (by omega) hout.2, hmem2k, hmem1]
      rcases hout.1 with hlt | hge
      · exact Splice.getElem?_write_of_lt hfield hlt
      · exact Splice.getElem?_write_of_le hfield (hcells ▸ hge)

/-- A block in which nothing was stored has no pointers. -/
theorem zeros_not_laid {n : Nat} (t : Tuple) (ts : List Tuple) : ¬Laid ptr (zeros n) tail (t :: ts) := by
  rintro ⟨hfield, -⟩
  have hhead : Cell.ptr (ptr + tail) 0 ∈ Splice.read (zeros n) t.dst voidSize := by
    rw [hfield]
    exact List.mem_map_of_mem (List.mem_range.2 (by decide))
  have hzero := List.eq_of_mem_replicate (List.mem_of_mem_drop (List.mem_of_mem_take hhead))
  cases hzero

theorem total_eq_zero_iff : total ts = 0 ↔ ¬∃ t ∈ ts, t.bytes ≠ [] := by
  rw [total, List.sum_eq_zero_iff]
  simp

end Lengths

/-- **Structures.** For every base and every tuples, `rd_calloc_struct0` gives a block with the copies one behind the
other after the base, and the pointers to them in it, if and only if the allocation succeeds, there is a byte to copy,
and the lengths are counted right. -/
theorem calloc_struct_iff (rmc : Option State) {base : Nat} {tuples : List Tuple} (h : Args base tuples)
    (res : Option Addr) :
    (∃ rmc' ptr mem, callocStruct0 rmc base tuples res = some (rmc', some (ptr, mem)) ∧ Right base tuples ptr mem) ↔
      Fits rmc base tuples res := by
  obtain ⟨t, ts, htuples⟩ := List.exists_cons_of_ne_nil h.some_tuple
  have hdst := (h.wf t (htuples ▸ List.mem_cons_self)).dst_le
  constructor
  · rintro ⟨rmc', ptr, mem, hcall, hright⟩
    obtain ⟨tot, htot, hcall⟩ := Option.bind_eq_some_iff.1 hcall
    obtain ⟨⟨rmc1, block⟩, halloc, hcall⟩ := Option.bind_eq_some_iff.1 hcall
    have htot_lt := totalSize_lt h.wf h.base_lt htot
    simp only at hcall
    split at hcall
    · -- nothing was stored
      obtain ⟨-, hblock⟩ := Prod.mk.inj (Option.some.inj hcall)
      obtain ⟨b, -, hb⟩ := Option.map_eq_some_iff.1 hblock
      obtain ⟨-, rfl⟩ := Prod.mk.inj hb
      exact absurd (htuples ▸ hright.laid) (zeros_not_laid t ts)
    · next hne =>
      obtain ⟨⟨ptr', room⟩, rfl, hpass⟩ := Option.bind_eq_some_iff.1 hcall
      obtain ⟨mem', hcopy, hret⟩ := Option.bind_eq_some_iff.1 hpass
      cases hret
      obtain ⟨hpos, hlen⟩ := copyTuples_sizes h.wf hcopy
      obtain ⟨hres, hroom⟩ := structAlloc_room halloc htot_lt
      obtain ⟨hle, hall⟩ := totalSize_le h.wf hpos htot
      have hlaid := hright.laid.length_eq
      rw [hlen, zeros, List.length_replicate] at hlaid
      have hmod := Nat.mod_le (header rmc + tot) (2 ^ 64)
      have hmod_lt := Nat.mod_lt (header rmc + tot) (show 0 < 2 ^ 64 by decide)
      have hvoid : voidSize = 8 := rfl
      have heq : tot = base + total tuples := by omega
      refine ⟨hres, ?_, hall heq, by omega⟩
      by_contra hnone
      have hzero := total_eq_zero_iff.2 hnone
      exact hne (by omega)
  · intro hfits
    have hlt := hfits.total_lt
    have hpos : total tuples ≠ 0 := fun h0 => total_eq_zero_iff.1 h0 hfits.some_bytes
    have htot : totalSize tuples base = some (base + total tuples) :=
      totalSize_eq h.wf hfits.length_le (by omega)
    have hused : ptrUsed ≤ ptrSize + (base + total tuples) := Nat.le_add_right_of_le (by decide)
    obtain ⟨rmc', ptr, halloc⟩ := structAlloc_ok hfits.allocated hlt hused
    have hlen : base + total tuples = (zeros (base + total tuples)).length := List.length_replicate.symm
    obtain ⟨mem, hcopy, hlaid, hframe⟩ := copyTuples_laid ptr h.wf h.apart hfits.length_le le_rfl hlen
    refine ⟨rmc', ptr, mem, ?_, hlaid, fun k hk hout => ?_⟩
    · have hne : base + total tuples ≠ base := by omega
      simp only [callocStruct0, htot, halloc, Option.bind_eq_bind, Option.bind_some, if_neg hne, hcopy]
      rfl
    · rw [hframe k hk hout, zeros, List.getElem?_replicate, if_pos (by omega)]

/-- A string and two bytes, behind a structure of 24 bytes. -/
def twoTuples : List Tuple := [⟨-1, [97, 98, 0, 5], 0⟩, ⟨2, [7, 9, 11], 8⟩]

theorem twoTuples_args : Args 24 twoTuples where
  some_tuple := by decide
  wf := by
    intro t ht
    simp only [twoTuples, List.mem_cons, List.not_mem_nil, or_false] at ht
    rcases ht with rfl | rfl
    · exact ⟨.inl ⟨rfl, by decide⟩, by decide, by decide⟩
    · exact ⟨.inr (by decide), by decide, by decide⟩
  apart := by simp [twoTuples, Tuple.Apart, voidSize]
  base_lt := by decide

theorem calloc_struct_two : ∃ rmc' ptr mem,
    callocStruct0 none 24 twoTuples (some 4096) = some (rmc', some (ptr, mem)) ∧ Right 24 twoTuples ptr mem :=
  (calloc_struct_iff none twoTuples_args (some 4096)).2
    ⟨by decide, ⟨_, List.mem_cons_self, by decide⟩, by decide, by decide⟩

/-- One element of no bytes: its pointer stays NULL. -/
theorem calloc_struct_null : Args 8 [⟨0, [], 0⟩] ∧
    callocStruct0 none 8 [⟨0, [], 0⟩] (some 4096) = some (none, some (4096, zeros 8)) ∧
    ¬∃ rmc' ptr mem, callocStruct0 none 8 [⟨0, [], 0⟩] (some 4096) = some (rmc', some (ptr, mem)) ∧
      Right 8 [⟨0, [], 0⟩] ptr mem := by
  refine ⟨⟨by decide, ?_, List.pairwise_singleton _ _, by decide⟩, rfl, ?_⟩
  · intro t ht
    rw [List.mem_singleton.1 ht]
    exact ⟨.inr (by decide), by decide, by decide⟩
  · rintro ⟨rmc', ptr, mem, hcall, hright⟩
    cases hcall
    exact zeros_not_laid _ _ hright.laid

end Librd.Mem
