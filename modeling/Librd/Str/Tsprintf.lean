import Mathlib
import Librd.Lib.Machine

/-!
# Temporary strings (`rd_tsprintf` and `rd_string_thread_cleanup` of `rdstring.c`)

`rd_tsprintf` formats into one of `RD_TSPRINTF_BUFCNT` buffers of the thread, which it takes in turn, and allocates the
buffer anew when it is too small or far too large. `rd_string_thread_cleanup` frees them all, and the index of the last
buffer stays.

The buffers live on a heap: a block is as long as `malloc` was asked for, and its bytes are unknown until they are
written. Freeing, reading or writing what is not allocated, reading bytes that were not written, copying between bytes
that overlap and the overflow of an `int` are faults. What `malloc` returns is part of the operation, and so are the
format and its arguments, as the pieces they give. Strings among them may lie in the buffers: `rd_tsprintf` reads them
twice, once for the length and again when the buffer of its slot may have been freed, or while it is written.

* `run_intact_iff`: the last `RD_TSPRINTF_BUFCNT` strings hold their texts along a run exactly as long as no `int`
  overflows and no argument lies where the new string goes;
* `longest_faults`: the longest text that `vsnprintf` can report does overflow one.
-/

namespace Librd.Str

abbrev Addr := Nat

abbrev Text := List Char

def nul : Char := Char.ofNat 0

/-- The bytes of an allocated block; `none` is a byte that was not written. -/
abbrev Block := List (Option Char)

abbrev Heap := Addr → Option Block

/-- `INT_MAX`. -/
def intMax : Nat := 2147483647

/-- `RD_TSPRINTF_BUFCNT`. -/
def bufcnt : Nat := 64

/-- `struct rdstr_cyclic`; the arrays as maps of their indexes. -/
structure Cyc where
  size : Nat
  buf : Nat → Option Addr
  len : Nat → Nat
  i : Nat

/-- The state of a thread, the heap, and the strings returned since the last cleanup with the texts they were made
of, newest first. -/
structure State where
  cyc : Cyc
  heap : Heap
  given : List (Addr × Text)

/-- `rdstr_cyclic_get`. -/
def cyclicGet (cyc : Cyc) (size : Nat) : Cyc :=
  if cyc.size = 0 then { cyc with size := size, buf := fun _ => none, len := fun _ => 0 }
  else { cyc with i := (cyc.i + 1) % cyc.size }

/-- `if (p) free(p)`. -/
def freeOpt (heap : Heap) : Option Addr → Option Heap
  | none => some heap
  | some p => do
    let _ ← heap p
    return Function.update heap p none

/-! ## Formatting -/

/-- What a format gives: text of its own or of arguments that lie elsewhere, and strings that lie in the block at `p`,
from its byte `off` on. A format that lies there itself is read as well; what it gives are the other pieces. -/
inductive Piece
  | text (t : Text)
  | str (p : Addr) (off : Nat)
  | fmt (p : Addr) (off : Nat)
  deriving DecidableEq, Repr

/-- Where the string of a piece lies. -/
def Piece.ptr : Piece → Option (Addr × Nat)
  | .text _ => none
  | .str p off | .fmt p off => some (p, off)

/-- The string at the start of some bytes, up to the NUL. -/
def cstr : Block → Option Text
  | [] => none
  | none :: _ => none
  | some ch :: block => if ch = nul then some [] else (cstr block).map (ch :: ·)

/-- The string in the block at `p` from the byte `off` on. -/
def readStr (heap : Heap) (p : Addr) (off : Nat) : Option Text := (heap p).bind fun block => cstr (block.drop off)

/-- What a piece adds to the text. -/
def Piece.read (heap : Heap) : Piece → Option Text
  | .text t => some t
  | .str p off => readStr heap p off
  | .fmt p off => (readStr heap p off).map fun _ => []

/-- The formatted text; `vsnprintf(NULL, 0, ..)` returns its length. -/
def format (heap : Heap) : List Piece → Option Text
  | [] => some []
  | pc :: fmt => do return (← pc.read heap) ++ (← format heap fmt)

/-- No string of the pieces lies in the first `n` bytes of the block at `p`, or goes on there. -/
def Clear (fmt : List Piece) (p : Addr) (n : Nat) : Prop := ∀ pc ∈ fmt, ∀ x ∈ pc.ptr, x.1 = p → n ≤ x.2

instance (fmt : List Piece) (p : Addr) (n : Nat) : Decidable (Clear fmt p n) :=
  inferInstanceAs (Decidable (∀ pc ∈ fmt, ∀ x ∈ pc.ptr, x.1 = p → n ≤ x.2))

/-- `vsnprintf` into the block at `p`. -/
def vsnprintf (heap : Heap) (p : Addr) (size : Nat) (fmt : List Piece) : Option Heap := do
  let text ← format heap fmt
  if size = 0 then return heap
  let written := (text.take (size - 1) ++ [nul]).map some
  guard (Clear fmt p written.length)
  let block ← heap p
  guard (written.length ≤ block.length)
  return Function.update heap p (some (written ++ block.drop written.length))

/-! ## The functions -/

/-- The test for a new buffer: none yet, too small, or more than four times too large. -/
def needsNew (buf : Option Addr) (recorded len : Nat) : Option Bool :=
  if buf = none then some true
  else if recorded < len then some true
  else if len * 4 ≤ intMax then some (recorded > len * 4 && recorded > 64)
  else none

/-- The buffer of the slot is replaced by `malloc(len)` at `a`. -/
def renew (cyc : Cyc) (heap : Heap) (len : Nat) (a : Addr) : Option (Cyc × Heap) := do
  let heap ← freeOpt heap (cyc.buf cyc.i)
  return ({ cyc with buf := Function.update cyc.buf cyc.i (some a), len := Function.update cyc.len cyc.i len },
    Function.update heap a (some (List.replicate len none)))

/-- The slot with a buffer of `len` bytes or more. -/
def prepare (cyc : Cyc) (heap : Heap) (len : Nat) (a : Addr) : Option (Cyc × Heap) :=
  (needsNew (cyc.buf cyc.i) (cyc.len cyc.i) len).bind fun new =>
    if new then renew cyc heap len a else some (cyc, heap)

/-- `rd_tsprintf`; the length of a longer text than `INT_MAX` is an error. -/
def tsprintf (s : State) (fmt : List Piece) (a : Addr) : Option (State × Option Addr) := do
  let cyc := cyclicGet s.cyc bufcnt
  let text ← format s.heap fmt
  if text.length > intMax then return ({ s with cyc := cyc }, none)
  guard (text.length < intMax)
  guard (cyc.i < cyc.size)
  let (cyc, heap) ← prepare cyc s.heap (text.length + 1) a
  let p ← cyc.buf cyc.i
  let heap ← vsnprintf heap p (cyc.len cyc.i) fmt
  return ({ cyc := cyc, heap := heap, given := (p, text) :: s.given }, some p)

/-- The loop of `rd_string_thread_cleanup`. -/
def freeBufs (buf : Nat → Option Addr) : List Nat → Heap → Option Heap
  | [], heap => some heap
  | j :: js, heap => do freeBufs buf js (← freeOpt heap (buf j))

/-- `rd_string_thread_cleanup`; the arrays are gone with their size. -/
def threadCleanup (s : State) : Option State :=
  if s.cyc.size ≠ 0 then
    (freeBufs s.cyc.buf (List.range s.cyc.size) s.heap).map fun heap =>
      { cyc := { s.cyc with size := 0, buf := fun _ => none, len := fun _ => 0 }, heap := heap, given := [] }
  else some { s with given := [] }

inductive Op
  | tsprintf (fmt : List Piece) (a : Addr)
  | cleanup
  deriving DecidableEq, Repr

def step (s : State) : Op → Option (State × Option Addr)
  | .tsprintf fmt a => tsprintf s fmt a
  | .cleanup => (threadCleanup s).map fun s => (s, none)

/-- The buffer of the slot that the next `rd_tsprintf` uses. -/
def State.nextBuf (s : State) : Option Addr := (cyclicGet s.cyc bufcnt).buf (cyclicGet s.cyc bufcnt).i

/-- The length recorded for it. -/
def State.nextLen (s : State) : Nat := (cyclicGet s.cyc bufcnt).len (cyclicGet s.cyc bufcnt).i

/-- Formatting and allocation succeed: the strings that the format needs are there when the function is called,
`vsnprintf` can return the length, and `malloc` an address that is not in use, or that of the buffer just freed. -/
def Ok (s : State) : Op → Prop
  | .tsprintf fmt a => (∃ text ∈ format s.heap fmt, text.length ≤ intMax) ∧ (s.heap a = none ∨ s.nextBuf = some a)
  | .cleanup => True

instance (s : State) : (op : Op) → Decidable (Ok s op)
  | .tsprintf fmt a => inferInstanceAs (Decidable ((∃ text ∈ format s.heap fmt, text.length ≤ intMax) ∧
      (s.heap a = none ∨ s.nextBuf = some a)))
  | .cleanup => .isTrue trivial

/-- A thread that makes temporary strings. -/
def machine : Machine State Op (Option Addr) where
  Ok := Ok
  step := step

instance (s : State) (op : Op) : Decidable (machine.Ok s op) := inferInstanceAs (Decidable (Ok s op))

/-- A new thread: its state is zero. -/
def init : State where
  cyc := { size := 0, buf := fun _ => none, len := fun _ => 0, i := 0 }
  heap := fun _ => none
  given := []

/-! ## What is promised -/

/-- Each of the last strings returned holds its text and the NUL, and the length recorded for each slot is the size of
its buffer. -/
def Intact (s : State) : Prop :=
  (∀ g ∈ s.given.take bufcnt, ∃ block, s.heap g.1 = some block ∧ (g.2 ++ [nul]).map some <+: block) ∧
  ∀ j < s.cyc.size, ∀ p ∈ s.cyc.buf j, ∃ block, s.heap p = some block ∧ s.cyc.len j = block.length

/-- No `int` overflows for a text of `n` characters: neither the length with the NUL nor, where the buffer at hand is
large enough, four times that. -/
def LenOk (s : State) (n : Nat) : Prop :=
  n < intMax ∧ (s.nextBuf ≠ none → n + 1 ≤ s.nextLen → (n + 1) * 4 ≤ intMax)

/-- No string of the format lies in the buffer of the slot, unless that buffer is kept and the string begins after the
end of the new one, which has `n` characters. -/
def ArgsOk (s : State) (fmt : List Piece) (n : Nat) : Prop :=
  ∀ p ∈ s.nextBuf, ∀ pc ∈ fmt, ∀ x ∈ pc.ptr, x.1 = p →
    needsNew s.nextBuf s.nextLen (n + 1) = some false ∧ n + 1 ≤ x.2

instance (s : State) (n : Nat) : Decidable (LenOk s n) :=
  inferInstanceAs (Decidable (n < intMax ∧ (s.nextBuf ≠ none → n + 1 ≤ s.nextLen → (n + 1) * 4 ≤ intMax)))

instance (s : State) (fmt : List Piece) (n : Nat) : Decidable (ArgsOk s fmt n) :=
  inferInstanceAs (Decidable (∀ p ∈ s.nextBuf, ∀ pc ∈ fmt, ∀ x ∈ pc.ptr, x.1 = p →
    needsNew s.nextBuf s.nextLen (n + 1) = some false ∧ n + 1 ≤ x.2))

/-- A call that holds what it promises: no `int` overflows, and no argument lies where the new string goes. -/
def CallOk (s : State) : Op → Prop
  | .tsprintf fmt _ => ∀ text ∈ format s.heap fmt, LenOk s text.length ∧ ArgsOk s fmt text.length
  | .cleanup => True

instance (s : State) : (op : Op) → Decidable (CallOk s op)
  | .tsprintf fmt _ =>
    inferInstanceAs (Decidable (∀ text ∈ format s.heap fmt, LenOk s text.length ∧ ArgsOk s fmt text.length))
  | .cleanup => .isTrue trivial

/-- The `k`-th last string, `k < RD_TSPRINTF_BUFCNT`, is in the `k`-th last slot. -/
structure Inv (s : State) : Prop where
  size : s.cyc.size = 0 ∧ s.given = [] ∨ s.cyc.size = bufcnt
  index : s.cyc.i < bufcnt
  used : ∀ j p, s.cyc.buf j = some p → s.cyc.size = bufcnt ∧ j < bufcnt
  slots : ∀ j p, s.cyc.buf j = some p → ∃ block, s.heap p = some block ∧ s.cyc.len j = block.length
  apart : ∀ j j' p, s.cyc.buf j = some p → s.cyc.buf j' = some p → j = j'
  given : ∀ k g, s.given[k]? = some g → k < bufcnt → s.cyc.buf ((s.cyc.i + bufcnt - k) % bufcnt) = some g.1 ∧
    ∃ block, s.heap g.1 = some block ∧ (g.2 ++ [nul]).map some <+: block

theorem Inv.intact {s : State} (h : Inv s) : Intact s := by
  refine ⟨fun g hg => ?_, fun j _ p hp => h.slots j p hp⟩
  obtain ⟨k, hk⟩ := List.mem_iff_getElem?.1 hg
  rw [List.getElem?_take] at hk
  split at hk
  · rename_i hlt
    exact (h.given k g hk hlt).2
  · cases hk

theorem init_inv : Inv init :=
  ⟨.inl ⟨rfl, rfl⟩, by decide, nofun, nofun, nofun, nofun⟩

/-! ## The next slot -/

/-- Taking the next slot: it lies `RD_TSPRINTF_BUFCNT` before itself, so all strings but the oldest keep theirs. -/
structure Taken (s : State) (cyc : Cyc) : Prop where
  size : cyc.size = bufcnt
  index : cyc.i < bufcnt
  buf : cyc.buf = s.cyc.buf
  slots : ∀ j p, cyc.buf j = some p → ∃ block, s.heap p = some block ∧ cyc.len j = block.length
  given : ∀ k g, s.given[k]? = some g → k + 1 < bufcnt → cyc.buf ((cyc.i + bufcnt - (k + 1)) % bufcnt) = some g.1

theorem Inv.taken {s : State} (h : Inv s) : Taken s (cyclicGet s.cyc bufcnt) := by
  by_cases h0 : s.cyc.size = 0
  · have hgiven : s.given = [] := by
      rcases h.size with hs | hs
      · exact hs.2
      · rw [h0] at hs; cases hs
    have hbuf : s.cyc.buf = fun _ => none := by
      funext j
      cases hj : s.cyc.buf j with
      | none => rfl
      | some p =>
        have := (h.used j p hj).1
        rw [h0] at this
        cases this
    rw [cyclicGet, if_pos h0]
    exact ⟨rfl, h.index, hbuf.symm, nofun, by simp [hgiven]⟩
  · have hsize : s.cyc.size = bufcnt := h.size.resolve_left fun hs => h0 hs.1
    rw [cyclicGet, if_neg h0, hsize]
    refine ⟨rfl, Nat.mod_lt _ (by omega), rfl, h.slots, ?_⟩
    intro k g hk hlt
    have hold := (h.given k g hk (by omega)).1
    have hi := h.index
    have hmod : ((s.cyc.i + 1) % bufcnt + bufcnt - (k + 1)) % bufcnt = (s.cyc.i + bufcnt - k) % bufcnt := by
      unfold bufcnt at *
      omega
    rw [← hold, ← hmod]

/-- The slot is ready for `len` bytes at `p`, and the other slots are as they were. -/
structure Prepared (s : State) (cyc : Cyc) (len : Nat) (cyc' : Cyc) (heap : Heap) (p : Addr) (block : Block) :
    Prop where
  size : cyc'.size = cyc.size
  index : cyc'.i = cyc.i
  buf : cyc'.buf cyc.i = some p
  cell : heap p = some block
  len_eq : cyc'.len cyc.i = block.length
  fits : len ≤ block.length
  others : ∀ j, j ≠ cyc.i → cyc'.buf j = cyc.buf j ∧ cyc'.len j = cyc.len j
  frame : ∀ j q, j ≠ cyc.i → cyc.buf j = some q → q ≠ p ∧ heap q = s.heap q

/-- What a prepared slot leaves of the old buffers, to read: a buffer that is kept is as it was, and so are those of
other slots; of one that was replaced nothing can be read, and the new one lies nowhere else. -/
structure KeepsArgs (s : State) (cyc : Cyc) (new : Bool) (heap : Heap) (p : Addr) : Prop where
  kept : new = false → heap = s.heap ∧ cyc.buf cyc.i = some p
  others : ∀ q, s.heap q ≠ none → cyc.buf cyc.i ≠ some q → heap q = s.heap q ∧ (new = true → q ≠ p)
  freed : new = true → ∀ q, cyc.buf cyc.i = some q → ∀ off, readStr heap q off = none

/-! ## Strings of the format -/

section Format

variable {heap heap' : Heap} {fmt : List Piece} {pc : Piece}

theorem read_congr (h : ∀ x ∈ pc.ptr, heap' x.1 = heap x.1) : pc.read heap' = pc.read heap := by
  cases pc with
  | text t => rfl
  | str p off => simp only [Piece.read, readStr, h (p, off) rfl]
  | fmt p off => simp only [Piece.read, readStr, h (p, off) rfl]

theorem format_congr (h : ∀ pc ∈ fmt, ∀ x ∈ pc.ptr, heap' x.1 = heap x.1) :
    format heap' fmt = format heap fmt := by
  induction fmt with
  | nil => rfl
  | cons pc fmt ih =>
    have hrest := ih fun pc' hpc' => h pc' (List.mem_cons_of_mem pc hpc')
    rw [format, format, read_congr (h pc List.mem_cons_self), hrest]

theorem read_none (hx : ∃ x ∈ pc.ptr, readStr heap x.1 x.2 = none) : pc.read heap = none := by
  obtain ⟨x, hx, hread⟩ := hx
  cases pc with
  | text t => cases hx
  | str p off =>
    cases hx
    exact hread
  | fmt p off =>
    cases hx
    simp only [Piece.read, hread, Option.map_none]

/-- A format with a string that cannot be read. -/
theorem format_none (h : ∃ pc ∈ fmt, ∃ x ∈ pc.ptr, readStr heap x.1 x.2 = none) : format heap fmt = none := by
  induction fmt with
  | nil =>
    obtain ⟨pc, hpc, -⟩ := h
    cases hpc
  | cons pc fmt ih =>
    obtain ⟨pc', hpc', hx⟩ := h
    rcases List.mem_cons.1 hpc' with rfl | hmem
    · simp only [format, read_none hx, Option.bind_eq_bind, Option.bind_none]
    · simp only [format, ih ⟨pc', hmem, hx⟩, Option.bind_eq_bind, Option.bind_none, Option.bind_fun_none]

/-- The strings of a format that can be read are allocated. -/
theorem ne_none_of_format {text : Text} (h : format heap fmt = some text) : ∀ pc ∈ fmt, ∀ x ∈ pc.ptr,
    heap x.1 ≠ none := by
  intro pc hpc x hx hnone
  rw [format_none ⟨pc, hpc, x, hx, by rw [readStr, hnone]; rfl⟩] at h
  cases h

theorem cstr_unknown {block : Block} (h : ∀ b ∈ block, b = none) : cstr block = none := by
  cases block with
  | nil => rfl
  | cons b block =>
    obtain rfl := h b List.mem_cons_self
    rfl

end Format

/-! ## The slot -/

section Prepare

variable {s : State} {cyc : Cyc} {len : Nat} {a : Addr}

/-- A new buffer. -/
theorem renew_ok (h : Inv s) (ht : Taken s cyc) (len : Nat) (ha : s.heap a = none ∨ cyc.buf cyc.i = some a) :
    ∃ cyc' heap, renew cyc s.heap len a = some (cyc', heap) ∧
      Prepared s cyc len cyc' heap a (List.replicate len none) ∧ KeepsArgs s cyc true heap a := by
  -- the old buffer, if there is one, is freed and no other slot has it
  obtain ⟨heap, hfree, hother, hold, hne⟩ : ∃ heap, freeOpt s.heap (cyc.buf cyc.i) = some heap ∧
      (∀ q, cyc.buf cyc.i ≠ some q → heap q = s.heap q) ∧ (∀ q, cyc.buf cyc.i = some q → heap q = none) ∧
      ∀ q, s.heap q ≠ none → cyc.buf cyc.i ≠ some q → q ≠ a := by
    have hne : ∀ q, s.heap q ≠ none → cyc.buf cyc.i ≠ some q → q ≠ a := by
      rintro q hq hslot rfl
      exact ha.elim hq hslot
    cases hb : cyc.buf cyc.i with
    | none => exact ⟨s.heap, rfl, fun _ _ => rfl, nofun, hb ▸ hne⟩
    | some old =>
      obtain ⟨block, hold, -⟩ := ht.slots cyc.i old hb
      refine ⟨Function.update s.heap old none, by simp [freeOpt, hold], ?_, ?_, hb ▸ hne⟩
      · intro q hq
        rw [Function.update_of_ne]
        rintro rfl
        exact hq rfl
      · rintro q ⟨⟩
        exact Function.update_self ..
  refine ⟨{ cyc with buf := Function.update cyc.buf cyc.i (some a), len := Function.update cyc.len cyc.i len },
    Function.update heap a (some (List.replicate len none)), ?_, ⟨rfl, rfl, ?_, ?_, ?_, ?_, ?_, ?_⟩, nofun, ?_, ?_⟩
  · simp [renew, hfree]
  · simp
  · simp
  · simp
  · simp
  · intro j hj
    simp [Function.update_of_ne hj]
  · intro j q hj hq
    have hslot : cyc.buf cyc.i ≠ some q := by
      intro hi
      rw [ht.buf] at hi hq
      exact hj (h.apart j cyc.i q hq hi)
    obtain ⟨block, hblock, -⟩ := ht.slots j q hq
    have hqa : q ≠ a := hne q (by simp [hblock]) hslot
    exact ⟨hqa, by rw [Function.update_of_ne hqa, hother q hslot]⟩
  · intro q hq hslot
    have hqa := hne q hq hslot
    exact ⟨by rw [Function.update_of_ne hqa, hother q hslot], fun _ => hqa⟩
  · -- freed, or handed out again with nothing written
    intro _ q hq off
    by_cases hqa : q = a
    · rw [readStr, hqa, Function.update_self, Option.bind_some]
      exact cstr_unknown fun b hb => List.eq_of_mem_replicate (List.mem_of_mem_drop hb)
    · rw [readStr, Function.update_of_ne hqa, hold q hq, Option.bind_none]

/-- The buffer at hand. -/
theorem keep_ok (h : Inv s) (ht : Taken s cyc) {p : Addr} (hp : cyc.buf cyc.i = some p) (hlen : len ≤ cyc.len cyc.i) :
    ∃ block, Prepared s cyc len cyc s.heap p block ∧ KeepsArgs s cyc false s.heap p := by
  obtain ⟨block, hcell, hrec⟩ := ht.slots cyc.i p hp
  refine ⟨block, ⟨rfl, rfl, hp, hcell, hrec, by rwa [← hrec], fun j _ => ⟨rfl, rfl⟩, ?_⟩, fun _ => ⟨rfl, hp⟩,
    fun _ _ _ => ⟨rfl, nofun⟩, nofun⟩
  intro j q hj hq
  refine ⟨?_, rfl⟩
  rintro rfl
  rw [ht.buf] at hp hq
  exact hj (h.apart j cyc.i q hq hp)

/-- **The slot is prepared** unless four times the length overflows where it is computed. -/
theorem prepare_ok (h : Inv s) (ht : Taken s cyc) (ha : s.heap a = none ∨ cyc.buf cyc.i = some a)
    (hlen : cyc.buf cyc.i ≠ none → len ≤ cyc.len cyc.i → len * 4 ≤ intMax) :
    ∃ new cyc' heap p block, needsNew (cyc.buf cyc.i) (cyc.len cyc.i) len = some new ∧
      prepare cyc s.heap len a = some (cyc', heap) ∧ Prepared s cyc len cyc' heap p block ∧
      KeepsArgs s cyc new heap p := by
  obtain ⟨cyc', heap, hrenew, hready⟩ := renew_ok h ht len ha
  cases hp : cyc.buf cyc.i with
  | none =>
    have hnew : needsNew (cyc.buf cyc.i) (cyc.len cyc.i) len = some true := by simp [needsNew, hp]
    exact ⟨true, cyc', heap, a, _, hp ▸ hnew, by simp [prepare, hnew, hrenew], hready⟩
  | some p =>
    by_cases hsmall : cyc.len cyc.i < len
    · have hnew : needsNew (cyc.buf cyc.i) (cyc.len cyc.i) len = some true := by simp [needsNew, hp, hsmall]
      exact ⟨true, cyc', heap, a, _, hp ▸ hnew, by simp [prepare, hnew, hrenew], hready⟩
    · have hfour : len * 4 ≤ intMax := hlen (by simp [hp]) (Nat.not_lt.1 hsmall)
      by_cases hlarge : cyc.len cyc.i > len * 4 ∧ cyc.len cyc.i > 64
      · have hnew : needsNew (cyc.buf cyc.i) (cyc.len cyc.i) len = some true := by
          simp [needsNew, hp, hsmall, hfour, hlarge]
        exact ⟨true, cyc', heap, a, _, hp ▸ hnew, by simp [prepare, hnew, hrenew], hready⟩
      · obtain ⟨block, hkeep⟩ := keep_ok h ht hp (Nat.not_lt.1 hsmall)
        have hsize : len * 4 < cyc.len cyc.i → cyc.len cyc.i ≤ 64 := by omega
        have hnew : needsNew (cyc.buf cyc.i) (cyc.len cyc.i) len = some false := by
          simpa [needsNew, hp, hsmall, hfour] using hsize
        exact ⟨false, cyc, s.heap, p, block, hp ▸ hnew, by simp [prepare, hnew], hkeep⟩

theorem prepare_overflow (hp : cyc.buf cyc.i ≠ none) (hle : len ≤ cyc.len cyc.i) (hfour : ¬ len * 4 ≤ intMax)
    (heap : Heap) : prepare cyc heap len a = none := by
  simp [prepare, needsNew, hp, Nat.not_lt.2 hle, hfour]

end Prepare

/-! ## One call -/

/-- Formatting a text that fits, from strings that do not overlap with it. -/
theorem vsnprintf_fits {heap : Heap} {p : Addr} {block : Block} {fmt : List Piece} {text : Text}
    (hp : heap p = some block) (hformat : format heap fmt = some text) (h : text.length + 1 ≤ block.length)
    (hclear : Clear fmt p (text.length + 1)) :
    ∃ block', vsnprintf heap p block.length fmt = some (Function.update heap p (some block')) ∧
      block'.length = block.length ∧ (text ++ [nul]).map some <+: block' := by
  have htake : text.take (block.length - 1) = text := List.take_of_length_le (by omega)
  have hlen : ((text ++ [nul]).map some).length = text.length + 1 := by simp
  refine ⟨(text ++ [nul]).map some ++ block.drop (text.length + 1), ?_, ?_, List.prefix_append _ _⟩
  · simp only [vsnprintf, hformat, if_neg (show ¬ block.length = 0 by omega), htake, hlen, hclear, hp, h, guard,
      if_true, Option.bind_eq_bind, Option.bind_some, Option.pure_def]
  · rw [List.length_append, hlen, List.length_drop]
    omega

/-- Formatting a text that fits, from a string that overlaps with it. -/
theorem vsnprintf_overlaps {heap : Heap} {p : Addr} {fmt : List Piece} {text : Text} {size : Nat}
    (hformat : format heap fmt = some text) (h : text.length + 1 ≤ size) (hclear : ¬Clear fmt p (text.length + 1)) :
    vsnprintf heap p size fmt = none := by
  have htake : text.take (size - 1) = text := List.take_of_length_le (by omega)
  have hlen : ((text ++ [nul]).map some).length = text.length + 1 := by simp
  simp only [vsnprintf, hformat, if_neg (show ¬ size = 0 by omega), htake, hlen, hclear, guard, if_false,
    Option.bind_eq_bind, Option.bind_some]
  rfl

/-- Two slots never share a buffer. -/
theorem Prepared.apart {s : State} {cyc cyc' : Cyc} {heap : Heap} {p : Addr} {block : Block} {len : Nat}
    (hp : Prepared s cyc len cyc' heap p block) (ht : Taken s cyc)
    (h : ∀ j j' q, s.cyc.buf j = some q → s.cyc.buf j' = some q → j = j') :
    ∀ j j' q, cyc'.buf j = some q → cyc'.buf j' = some q → j = j' := by
  have hself : ∀ q, cyc'.buf cyc.i = some q → q = p := fun q hq => by simpa [hp.buf] using hq.symm
  have hold : ∀ j q, j ≠ cyc.i → cyc'.buf j = some q → s.cyc.buf j = some q := by
    intro j q hj hq
    rwa [(hp.others j hj).1, ht.buf] at hq
  have hnew : ∀ j q, j ≠ cyc.i → cyc'.buf j = some q → q ≠ p := fun j q hj hq =>
    (hp.frame j q hj ((hp.others j hj).1 ▸ hq)).1
  intro j j' q hq hq'
  by_cases hj : j = cyc.i
  · by_cases hj' : j' = cyc.i
    · rw [hj, hj']
    · exact absurd (hself q (hj ▸ hq)) (hnew j' q hj' hq')
  · by_cases hj' : j' = cyc.i
    · exact absurd (hself q (hj' ▸ hq')) (hnew j q hj hq)
    · exact h j j' q (hold j q hj hq) (hold j' q hj' hq')

/-- The slot takes the new string, and the strings before it keep theirs. -/
theorem Prepared.inv {s : State} {cyc cyc' : Cyc} {heap : Heap} {p : Addr} {block block' : Block} {text : Text}
    {len : Nat} (h : Inv s) (ht : Taken s cyc) (hp : Prepared s cyc len cyc' heap p block)
    (hlen : block'.length = block.length) (htext : (text ++ [nul]).map some <+: block') :
    Inv { cyc := cyc', heap := Function.update heap p (some block'), given := (p, text) :: s.given } := by
  have hsize : cyc'.size = bufcnt := hp.size.trans ht.size
  have hindex : cyc'.i < bufcnt := hp.index ▸ ht.index
  have hframe : ∀ j q, j ≠ cyc.i → cyc.buf j = some q →
      q ≠ p ∧ Function.update heap p (some block') q = s.heap q := by
    intro j q hj hq
    obtain ⟨hne, heq⟩ := hp.frame j q hj hq
    exact ⟨hne, by rw [Function.update_of_ne hne, heq]⟩
  refine ⟨.inr hsize, hindex, ?_, ?_, ?_, ?_⟩
  · intro j q hq
    refine ⟨hsize, ?_⟩
    by_cases hj : j = cyc.i
    · rw [hj]; exact ht.index
    · rw [(hp.others j hj).1, ht.buf] at hq
      exact (h.used j q hq).2
  · intro j q hq
    by_cases hj : j = cyc.i
    · subst hj
      obtain rfl : p = q := by simpa [hp.buf] using hq
      exact ⟨block', Function.update_self .., by rw [hp.len_eq, hlen]⟩
    · rw [(hp.others j hj).1] at hq
      simp only [(hp.others j hj).2, (hframe j q hj hq).2]
      exact ht.slots j q hq
  · exact hp.apart ht h.apart
  · intro k g hk hlt
    rw [hp.index]
    cases k with
    | zero =>
      obtain rfl : (p, text) = g := by simpa using hk
      have hmod : (cyc.i + bufcnt - 0) % bufcnt = cyc.i := by
        have := ht.index
        rw [Nat.sub_zero, Nat.add_mod_right, Nat.mod_eq_of_lt this]
      exact ⟨by rw [hmod]; exact hp.buf, block', Function.update_self .., htext⟩
    | succ k =>
      have hold : s.given[k]? = some g := by simpa using hk
      have hslot := ht.given k g hold hlt
      have hne : (cyc.i + bufcnt - (k + 1)) % bufcnt ≠ cyc.i := by
        have := ht.index
        unfold bufcnt at *
        omega
      refine ⟨by rw [(hp.others _ hne).1]; exact hslot, ?_⟩
      simp only [(hframe _ _ hne hslot).2]
      exact (h.given k g hold (by omega)).2

section Call

variable {s : State} {fmt : List Piece} {text : Text} {a : Addr} {new : Bool} {heap : Heap} {p : Addr}

/-- The strings of the format after the slot was prepared: as they were, and not where the new string goes. -/
theorem KeepsArgs.format_eq (h : KeepsArgs s (cyclicGet s.cyc bufcnt) new heap p)
    (hformat : format s.heap fmt = some text)
    (hnew : needsNew s.nextBuf s.nextLen (text.length + 1) = some new) (hargs : ArgsOk s fmt text.length) :
    format heap fmt = some text ∧ Clear fmt p (text.length + 1) := by
  have hlive := ne_none_of_format hformat
  cases new with
  | false =>
    obtain ⟨rfl, hp⟩ := h.kept rfl
    exact ⟨hformat, fun pc hpc x hx heq => (hargs p hp pc hpc x hx heq).2⟩
  | true =>
    have hslot (pc : Piece) (hpc : pc ∈ fmt) (x : Addr × Nat) (hx : x ∈ pc.ptr) : s.nextBuf ≠ some x.1 := by
      intro hbuf
      have hkept := (hargs x.1 hbuf pc hpc x hx rfl).1
      rw [hnew] at hkept
      cases hkept
    refine ⟨?_, fun pc hpc x hx heq => ?_⟩
    · rw [← hformat]
      exact format_congr fun pc hpc x hx => (h.others x.1 (hlive pc hpc x hx) (hslot pc hpc x hx)).1
    · exact absurd heq ((h.others x.1 (hlive pc hpc x hx) (hslot pc hpc x hx)).2 rfl)

/-- A string of the format that lies in the buffer of the slot cannot be read again, or overlaps with the new one. -/
theorem KeepsArgs.format_bad (h : KeepsArgs s (cyclicGet s.cyc bufcnt) new heap p)
    (hformat : format s.heap fmt = some text)
    (hnew : needsNew s.nextBuf s.nextLen (text.length + 1) = some new) (hargs : ¬ArgsOk s fmt text.length) :
    format heap fmt = none ∨ format heap fmt = some text ∧ ¬Clear fmt p (text.length + 1) := by
  obtain ⟨q, hq, pc, hpc, x, hx, heq, hbad⟩ : ∃ q ∈ s.nextBuf, ∃ pc ∈ fmt, ∃ x ∈ pc.ptr, x.1 = q ∧
      ¬(needsNew s.nextBuf s.nextLen (text.length + 1) = some false ∧ text.length + 1 ≤ x.2) := by
    simpa only [ArgsOk, not_forall, exists_prop] using hargs
  cases new with
  | false =>
    obtain ⟨rfl, hp⟩ := h.kept rfl
    refine .inr ⟨hformat, fun hclear => hbad ⟨hnew, hclear pc hpc x hx ?_⟩⟩
    exact heq.trans (Option.some.inj ((Option.mem_def.1 hq).symm.trans hp))
  | true => exact .inl (format_none ⟨pc, hpc, x, hx, h.freed rfl x.1 (heq ▸ hq) x.2⟩)

/-- **`rd_tsprintf`** where no `int` overflows and no argument lies where the new string goes. -/
theorem tsprintf_ok (h : Inv s) (hok : Ok s (.tsprintf fmt a)) (hcall : CallOk s (.tsprintf fmt a)) :
    ∃ s' o, tsprintf s fmt a = some (s', o) ∧ Inv s' := by
  have ht := h.taken
  obtain ⟨⟨text, hformat, hmax⟩, ha⟩ := hok
  obtain ⟨hlen, hargs⟩ := hcall text hformat
  obtain ⟨new, cyc', heap, p, block, hnew, hprep, hp, hread⟩ := prepare_ok h ht ha hlen.2
  obtain ⟨hformat', hclear⟩ := hread.format_eq hformat hnew hargs
  obtain ⟨block', hprint, hsame, htext⟩ := vsnprintf_fits hp.cell hformat' hp.fits hclear
  refine ⟨_, some p, ?_, hp.inv h ht hsame htext⟩
  have hindex : (cyclicGet s.cyc bufcnt).i < (cyclicGet s.cyc bufcnt).size :=
    Nat.lt_of_lt_of_eq ht.index ht.size.symm
  simp only [tsprintf, Option.mem_def.1 hformat, if_neg (Nat.not_lt.2 hmax), hlen.1, hindex, hprep, hp.index, hp.buf,
    hp.len_eq, hprint, guard, if_true, Option.bind_eq_bind, Option.bind_some, Option.pure_def]

/-- `rd_tsprintf` where an `int` overflows. -/
theorem tsprintf_overflow (hformat : format s.heap fmt = some text) (hmax : text.length ≤ intMax)
    (hlen : ¬LenOk s text.length) : tsprintf s fmt a = none := by
  by_cases hlt : text.length < intMax
  · have hfour : ¬ (s.nextBuf ≠ none → text.length + 1 ≤ s.nextLen → (text.length + 1) * 4 ≤ intMax) :=
      fun hf => hlen ⟨hlt, hf⟩
    simp only [Classical.not_imp] at hfour
    obtain ⟨hbuf, hle, hfour⟩ := hfour
    have hprep : prepare (cyclicGet s.cyc bufcnt) s.heap (text.length + 1) a = none := prepare_overflow hbuf hle hfour _
    by_cases hindex : (cyclicGet s.cyc bufcnt).i < (cyclicGet s.cyc bufcnt).size
    · simp [tsprintf, hformat, Nat.not_lt.2 hmax, hlt, hindex, hprep]
    · simp [tsprintf, hformat, Nat.not_lt.2 hmax, hindex]
  · simp [tsprintf, hformat, Nat.not_lt.2 hmax, hlt]

/-- `rd_tsprintf` where an argument lies in the buffer of the slot. -/
theorem tsprintf_aliased (h : Inv s) (hformat : format s.heap fmt = some text) (hmax : text.length ≤ intMax)
    (ha : s.heap a = none ∨ s.nextBuf = some a) (hlen : LenOk s text.length) (hargs : ¬ArgsOk s fmt text.length) :
    tsprintf s fmt a = none := by
  have ht := h.taken
  obtain ⟨new, cyc', heap, p, block, hnew, hprep, hp, hread⟩ := prepare_ok h ht ha hlen.2
  have hindex : (cyclicGet s.cyc bufcnt).i < (cyclicGet s.cyc bufcnt).size :=
    Nat.lt_of_lt_of_eq ht.index ht.size.symm
  have hprint : vsnprintf heap p block.length fmt = none := by
    rcases hread.format_bad hformat hnew hargs with hnone | ⟨hformat', hclear⟩
    · simp only [vsnprintf, hnone, Option.bind_eq_bind, Option.bind_none]
    · exact vsnprintf_overlaps hformat' hp.fits hclear
  simp [tsprintf, hformat, Nat.not_lt.2 hmax, hlen.1, hindex, hprep, hp.index, hp.buf, hp.len_eq, hprint]

/-- `rd_tsprintf` where one of the two is not so. -/
theorem tsprintf_bad (h : Inv s) (hok : Ok s (.tsprintf fmt a)) (hcall : ¬CallOk s (.tsprintf fmt a)) :
    tsprintf s fmt a = none := by
  obtain ⟨⟨text, hformat, hmax⟩, ha⟩ := hok
  by_cases hlen : LenOk s text.length
  · refine tsprintf_aliased h hformat hmax ha hlen fun hargs => hcall fun text' hformat' => ?_
    obtain rfl := Option.some.inj ((Option.mem_def.1 hformat).symm.trans hformat')
    exact ⟨hlen, hargs⟩
  · exact tsprintf_overflow hformat hmax hlen

end Call

/-- The buffers of some slots are freed, each once. -/
theorem freeBufs_ok {buf : Nat → Option Addr} (hapart : ∀ j j' p, buf j = some p → buf j' = some p → j = j')
    (js : List Nat) : ∀ heap : Heap, js.Nodup → (∀ j ∈ js, ∀ p, buf j = some p → heap p ≠ none) →
      ∃ heap', freeBufs buf js heap = some heap' := by
  induction js with
  | nil => exact fun heap _ _ => ⟨heap, rfl⟩
  | cons j js ih =>
    intro heap hnd hheap
    have hnd := List.nodup_cons.1 hnd
    cases hj : buf j with
    | none =>
      obtain ⟨heap', hrun⟩ := ih heap hnd.2 fun j' hj' => hheap j' (List.mem_cons_of_mem j hj')
      exact ⟨heap', by simp [freeBufs, hj, freeOpt, hrun]⟩
    | some p =>
      obtain ⟨block, hblock⟩ := Option.ne_none_iff_exists'.1 (hheap j List.mem_cons_self p hj)
      obtain ⟨heap', hrun⟩ := ih (Function.update heap p none) hnd.2 (by
        intro j' hj' q hq
        have hne : q ≠ p := by
          rintro rfl
          exact hnd.1 (hapart j j' q hj hq ▸ hj')
        rw [Function.update_of_ne hne]
        exact hheap j' (List.mem_cons_of_mem j hj') q hq)
      exact ⟨heap', by simp [freeBufs, hj, freeOpt, hblock, hrun]⟩

/-- **`rd_string_thread_cleanup`.** -/
theorem threadCleanup_ok {s : State} (h : Inv s) : ∃ s', threadCleanup s = some s' ∧ Inv s' := by
  by_cases h0 : s.cyc.size = 0
  · refine ⟨{ s with given := [] }, by simp [threadCleanup, h0], ?_⟩
    exact { h with size := .inl ⟨h0, rfl⟩, given := nofun }
  · obtain ⟨heap, hfree⟩ := freeBufs_ok h.apart (List.range s.cyc.size) s.heap List.nodup_range (by
      intro j _ p hp
      obtain ⟨block, hblock, -⟩ := h.slots j p hp
      simp [hblock])
    refine ⟨_, by rw [threadCleanup, if_pos h0, hfree]; rfl, ?_⟩
    exact ⟨.inl ⟨rfl, rfl⟩, h.index, nofun, nofun, nofun, nofun⟩

/-! ## Runs -/

/-- **Temporary strings along a run** of `rd_tsprintf` and `rd_string_thread_cleanup`: nothing faults, each of the last
`RD_TSPRINTF_BUFCNT` strings since the cleanup holds its text, and the recorded lengths are the sizes of the buffers, if
and only if no `int` overflows (each text is shorter than `INT_MAX`, and where its slot has a buffer that is large
enough, four times its length with the NUL is at most `INT_MAX`) and no argument lies in the buffer of the slot that its
call takes, but for one that begins after the new string in a buffer that is kept. -/
theorem run_intact_iff (ops : List Op) (hok : machine.Admits init ops) :
    machine.Steps (fun _ _ _ s => Intact s) init ops ↔ machine.Each CallOk init ops := by
  refine Machine.steps_iff_each (I := Inv) ?_ ?_ ops _ init_inv hok
  · intro s op h hok hcall
    cases op with
    | tsprintf fmt a =>
      obtain ⟨s', o, hs, h'⟩ := tsprintf_ok h hok hcall
      exact ⟨s', o, hs, h'.intact, h'⟩
    | cleanup =>
      obtain ⟨s', hs, h'⟩ := threadCleanup_ok h
      exact ⟨s', none, by simp [machine, step, hs], h'.intact, h'⟩
  · intro s op s' o h hok hcall hs
    cases op with
    | tsprintf fmt a =>
      rw [show machine.step s (.tsprintf fmt a) = none from tsprintf_bad h hok hcall] at hs
      cases hs
    | cleanup => exact absurd trivial hcall

/-- Two strings, the second made of the first, a cleanup, and a string in a buffer of its own. -/
theorem run_intact_iff_two :
    let ops : List Op := [.tsprintf [.text "Telma rocks!".toList] 1000,
      .tsprintf [.text "Magda too: ".toList, .str 1000 6] 2000, .cleanup, .tsprintf [.text "again".toList] 1000]
    machine.Admits init ops ∧ machine.Each CallOk init ops ∧
    (machine.Steps (fun _ _ _ s => Intact s) init ops ↔ machine.Each CallOk init ops) :=
  ⟨by decide, by decide, run_intact_iff _ (by decide)⟩

theorem faults_of_length {text : Text} (h : text.length = intMax) (a : Addr) :
    machine.Admits init [.tsprintf [.text text] a] ∧ machine.run init [.tsprintf [.text text] a] = none ∧
      ¬ machine.Steps (fun _ _ _ s => Intact s) init [.tsprintf [.text text] a] := by
  have hformat : format init.heap [.text text] = some text := by simp [format, Piece.read]
  have hok : Ok init (.tsprintf [.text text] a) := ⟨⟨text, hformat, Nat.le_of_eq h⟩, .inl rfl⟩
  have hfault : machine.step init (.tsprintf [.text text] a) = none :=
    tsprintf_overflow hformat (Nat.le_of_eq h) fun hlen => Nat.lt_irrefl _ (h ▸ hlen.1)
  refine ⟨⟨hok, by rw [hfault]; trivial⟩, by rw [Machine.run, hfault]; rfl, ?_⟩
  rintro ⟨s', o, hs, -⟩
  rw [hfault] at hs
  cases hs

/-- A text of `INT_MAX` characters: its length with the NUL is not an `int`. -/
theorem longest_faults :
    machine.Admits init [.tsprintf [.text (List.replicate intMax 'x')] 1000] ∧
    machine.run init [.tsprintf [.text (List.replicate intMax 'x')] 1000] = none ∧
    ¬ machine.Steps (fun _ _ _ s => Intact s) init [.tsprintf [.text (List.replicate intMax 'x')] 1000] :=
  faults_of_length List.length_replicate 1000

end Librd.Str
