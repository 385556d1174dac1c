import Librd.Bufs.Contents

/-!
# Serializers and writers

`rd_bufh_serialize` calls a serializer for every buffer that is not empty, until one writes nothing
(`serializeChain`). For `rd_bufh_serialize_binary` with a writer that always returns a number, that is a fold over what
the buffers have (`serializeChain_binary`).

- `rd_bufh_write_mem` moves a pointer of its own: each buffer is written over the one before, so the loop does what the
  optimized path does for one buffer only (`serialize_agrees_iff`).
- `rd_bufh_write_fd` reports a short write as it is, and the loop goes on with the next buffer: what is delivered is a
  prefix unless a write that delivers something follows (`writeout_prefix_iff`).
-/

namespace Librd.Bufs

variable {σ : Type}

/-! ## The loop -/

/-- `rd_bufh_writer_f`: `data` to the state behind `writer_opaque`; the result is a `ssize_t`. -/
abbrev Writer (σ : Type) := Block → σ → Except Fault (σ × Int)

/-- `rd_bufh_serializer_f`, with the writer, `of` and the buffer. -/
abbrev Serializer (σ : Type) := Writer σ → Nat → Buf → σ → Except Fault (σ × Int)

/-- `rd_bufh_serialize_binary`. -/
def bufhSerializeBinary : Serializer σ := fun writer _ rb w => do writer (← read rb.orig rb.len) w

/-- The loop of `rd_bufh_serialize`; `len` does not exceed a `size_t`. -/
def serializeChain (serializer : Serializer σ) (writer : Writer σ) : List Buf → σ → Nat → Except Fault (σ × Int)
  | [], w, len => .ok (w, len)
  | rb :: rest, w, len =>
    if rb.len = 0 then serializeChain serializer writer rest w len
    else do
      let (w, r) ← serializer writer len rb w
      if r = -1 then return (w, -1)
      if r = 0 then return (w, len)
      serializeChain serializer writer rest w (len + r).toNat

/-- A serializer is known by its address. -/
inductive SerializerFn (σ : Type)
  | binary
  | other (f : Serializer σ)

/-- `rd_bufh_write_mem`: `dst += len` moves the parameter, not what `writer_opaque` points to. -/
def bufhWriteMem : Writer Block := fun data dst => do return (← memcpy dst 0 data, data.length)

/-- `rd_bufh_serialize` with `rd_bufh_write_mem`; `rd_bufh_serialize_binary` takes the optimized path. -/
def bufhSerializeMem (rbh : Bufh) (serializer : SerializerFn Block) (dst : Block) : Except Fault (Block × Int) :=
  match serializer with
  | .binary => do
    let (dst, len) ← bufhCopyout rbh dst
    return (dst, len)
  | .other f => serializeChain f bufhWriteMem rbh.bufs dst 0

/-- A descriptor: what `write` is going to return (`none` is -1; no call writes more than it is asked to), and what was
delivered to it. -/
structure Fd where
  results : Nat → Option Nat
  delivered : Block

/-- `rd_bufh_write_fd`. -/
def bufhWriteFd : Writer Fd := fun data fd =>
  match fd.results 0 with
  | none => .ok ({ fd with results := fun n => fd.results (n + 1) }, -1)
  | some n =>
    .ok ({ results := fun n => fd.results (n + 1), delivered := fd.delivered ++ data.take n }, (data.take n).length)

/-- `rd_bufh_writeout_fd`. -/
def bufhWriteoutFd (rbh : Bufh) (fd : Fd) : Except Fault (Fd × Int) :=
  serializeChain bufhSerializeBinary bufhWriteFd rbh.bufs fd 0

/-! ## What is written -/

/-- The lengths of the buffers that are not empty. -/
def lens (bufs : List Buf) : List Nat := (bufs.map Buf.len).filter (· ≠ 0)

/-- What is in the buffers that are not empty. -/
def chunks (cs : List Block) : List Block := cs.filter (· ≠ [])

theorem chunks_ne_nil {cs : List Block} {c : Block} (h : c ∈ chunks cs) : c ≠ [] := by
  simpa using (List.mem_filter.1 h).2

theorem flatten_chunks (cs : List Block) : (chunks cs).flatten = cs.flatten := List.flatten_filter_ne_nil

theorem Reads.chunks_length {bufs : List Buf} {cs : List Block} (h : Reads bufs cs) :
    (chunks cs).map List.length = lens bufs := by
  induction h with
  | nil => rfl
  | @cons rb c bufs cs hrb _ ih =>
    have hlen := read_length hrb
    by_cases h0 : rb.len = 0
    · have hc : c = [] := List.length_eq_zero_iff.1 (hlen.trans h0)
      simpa [chunks, lens, hc, h0] using ih
    · have hc : c ≠ [] := fun hc => h0 (by rw [← hlen, hc, List.length_nil])
      simpa [chunks, lens, hc, h0, hlen] using ih

/-- The loop over what the buffers have, with the empty ones left out. -/
def chunkLoop (writer : Writer σ) : List Block → σ → Nat → Except Fault (σ × Int)
  | [], w, len => .ok (w, len)
  | c :: rest, w, len => do
    let (w, r) ← writer c w
    if r = -1 then return (w, -1)
    if r = 0 then return (w, len)
    chunkLoop writer rest w (len + r).toNat

/-- The loop of `rd_bufh_serialize` with `rd_bufh_serialize_binary` writes what is in the buffers. -/
theorem serializeChain_binary (writer : Writer σ) {bufs : List Buf} {cs : List Block} (h : Reads bufs cs) :
    ∀ (w : σ) (len : Nat),
      serializeChain bufhSerializeBinary writer bufs w len = chunkLoop writer (chunks cs) w len := by
  induction h with
  | nil => intro w len; rfl
  | @cons rb c bufs cs hrb _ ih =>
    intro w len
    have hlen := read_length hrb
    by_cases h0 : rb.len = 0
    · have hc : c = [] := List.length_eq_zero_iff.1 (hlen.trans h0)
      simpa [serializeChain, chunks, hc, h0] using ih w len
    · have hc : c ≠ [] := fun hc => h0 (by rw [← hlen, hc, List.length_nil])
      have hchunks : chunks (c :: cs) = c :: chunks cs := by simp [chunks, hc]
      simp only [serializeChain, if_neg h0, hchunks, chunkLoop, bufhSerializeBinary, hrb, ih]
      rfl

/-! ## Writing to memory -/

/-- Each piece is written over the start of the memory. -/
def overwrite (dst c : Block) : Block := c ++ dst.drop c.length

theorem overwrite_length {dst c : Block} (h : c.length ≤ dst.length) : (overwrite dst c).length = dst.length := by
  simp only [overwrite, List.length_append, List.length_drop]
  omega

theorem writeMem_eq {dst c : Block} (h : c.length ≤ dst.length) :
    bufhWriteMem c dst = .ok (overwrite dst c, c.length) := by
  have hcopy := memcpy_append [] dst c h
  rw [List.nil_append, List.length_nil] at hcopy
  rw [bufhWriteMem, hcopy]
  rfl

theorem chunkLoop_mem {ds : List Block} {dst : Block} (len : Nat) (h : ∀ c ∈ ds, c ≠ [] ∧ c.length ≤ dst.length) :
    chunkLoop bufhWriteMem ds dst len = .ok (ds.foldl overwrite dst, ((len + ds.flatten.length : Nat) : Int)) := by
  induction ds generalizing dst len with
  | nil => rfl
  | cons c ds ih =>
    obtain ⟨hc, hroom⟩ := h c List.mem_cons_self
    have hpos : c.length ≠ 0 := fun h0 => hc (List.length_eq_zero_iff.1 h0)
    have hnext : ((len : Int) + (c.length : Int)).toNat = len + c.length := by omega
    have hrest := @ih (overwrite dst c) (len + c.length) fun d hd => by
      rw [overwrite_length hroom]
      exact h d (List.mem_cons_of_mem c hd)
    simp only [chunkLoop, writeMem_eq hroom, bind, Except.bind]
    rw [if_neg (by omega), if_neg (by omega), hnext, hrest, List.foldl_cons, List.flatten_cons, List.length_append,
      Nat.add_assoc]

/-- Only as many bytes as the longest piece has are ever written. -/
theorem foldl_overwrite_getElem? {k : Nat} {ds : List Block} {dst : Block} (h : ∀ c ∈ ds, c.length ≤ k) :
    (ds.foldl overwrite dst)[k]? = dst[k]? := by
  induction ds generalizing dst with
  | nil => rfl
  | cons c ds ih =>
    have hc := h c List.mem_cons_self
    rw [List.foldl_cons, ih fun d hd => h d (List.mem_cons_of_mem c hd), overwrite,
      List.getElem?_append_right hc, List.getElem?_drop, Nat.add_sub_cancel' hc]

/-- Of two pieces or more, none is as long as all of them. -/
theorem length_lt_flatten {ds : List Block} (hne : ∀ c ∈ ds, c ≠ []) (htwo : 1 < ds.length) {c : Block} (hc : c ∈ ds) :
    c.length < ds.flatten.length := by
  obtain ⟨l, r, rfl⟩ := List.append_of_mem hc
  have hother : ∃ d ∈ l ++ r, d ≠ [] := by
    cases l with
    | cons d l => exact ⟨d, by simp, hne d (by simp)⟩
    | nil =>
      cases r with
      | cons d r => exact ⟨d, by simp, hne d (by simp)⟩
      | nil => simp at htwo
  obtain ⟨d, hd, hd0⟩ := hother
  have hpos : 0 < (l ++ r).flatten.length := by
    rw [List.length_pos_iff]
    exact fun h => hd0 (List.flatten_eq_nil_iff.1 h d hd)
  simp only [List.flatten_append, List.flatten_cons, List.length_append] at hpos ⊢
  omega

/-- `rd_bufh_serialize` does the same, in memory and in its result, with `rd_bufh_serialize_binary` and with a
serializer that does what that one does. -/
def Agrees (b : Bufh) (dst : Block) : Prop :=
  bufhSerializeMem b (.other bufhSerializeBinary) dst = bufhSerializeMem b .binary dst

section Paths

variable {b : Bufh} {cs : List Block} {dst : Block}

/-- What the optimized path does. -/
theorem serializeMem_binary (h : Reads b.bufs cs) (hroom : cs.flatten.length ≤ dst.length) :
    bufhSerializeMem b .binary dst = .ok (overwrite dst cs.flatten, (cs.flatten.length : Int)) := by
  rw [bufhSerializeMem, copyout_reads h hroom]
  rfl

theorem chunk_length_le {c : Block} (hc : c ∈ chunks cs) : c.length ≤ cs.flatten.length := by
  rw [← flatten_chunks]
  exact (List.sublist_flatten_of_mem hc).length_le

/-- What the loop does. -/
theorem serializeMem_other (h : Reads b.bufs cs) (hroom : cs.flatten.length ≤ dst.length) :
    bufhSerializeMem b (.other bufhSerializeBinary) dst =
      .ok ((chunks cs).foldl overwrite dst, (cs.flatten.length : Int)) := by
  have hloop := @chunkLoop_mem (chunks cs) dst 0 fun c hc => ⟨chunks_ne_nil hc, (chunk_length_le hc).trans hroom⟩
  rw [Nat.zero_add, flatten_chunks] at hloop
  rw [bufhSerializeMem, serializeChain_binary bufhWriteMem h, hloop]

theorem agrees_iff_overwrite (h : Reads b.bufs cs) (hroom : cs.flatten.length ≤ dst.length) :
    Agrees b dst ↔ (chunks cs).foldl overwrite dst = overwrite dst cs.flatten := by
  rw [Agrees, serializeMem_binary h hroom, serializeMem_other h hroom]
  constructor
  · intro heq
    exact (Prod.mk.inj (Except.ok.inj heq)).1
  · intro heq
    rw [heq]

/-- The last byte copied out is in no piece that the loop writes, if there are two. -/
theorem not_agrees_of_two (h : Reads b.bufs cs) (htwo : 1 < (chunks cs).length) :
    ∃ dst, cs.flatten.length ≤ dst.length ∧ ¬Agrees b dst := by
  have hlt : ∀ c ∈ chunks cs, c.length < cs.flatten.length := by
    intro c hc
    rw [← flatten_chunks]
    exact length_lt_flatten (fun d hd => chunks_ne_nil hd) htwo hc
  obtain ⟨c, hc⟩ := List.exists_mem_of_length_pos (Nat.lt_trans Nat.zero_lt_one htwo)
  have hpos := hlt c hc
  obtain ⟨last, hlast⟩ : ∃ v, cs.flatten[cs.flatten.length - 1]? = some v :=
    ⟨_, List.getElem?_eq_getElem (by omega)⟩
  -- memory whose bytes all differ from the last one
  obtain ⟨v, hv⟩ := exists_ne last
  refine ⟨List.replicate cs.flatten.length v, by simp, fun hagree => ?_⟩
  rw [agrees_iff_overwrite h (by simp)] at hagree
  have hat := congrArg (·[cs.flatten.length - 1]?) hagree
  simp only [foldl_overwrite_getElem? fun d hd => Nat.le_sub_one_of_lt (hlt d hd)] at hat
  rw [overwrite, List.getElem?_append_left (by omega), hlast, List.getElem?_replicate, if_pos (by omega)] at hat
  exact hv (Option.some.inj hat)

/-- **The loop does what the optimized path does, for every memory, only for heads with at most one buffer that is not
empty.** -/
theorem serialize_agrees_iff (h : Reads b.bufs cs) :
    (∀ dst, cs.flatten.length ≤ dst.length → Agrees b dst) ↔ (lens b.bufs).length ≤ 1 := by
  rw [← h.chunks_length, List.length_map]
  constructor
  · intro hagree
    by_contra hmany
    obtain ⟨dst, hroom, hnot⟩ := not_agrees_of_two h (Nat.lt_of_not_le hmany)
    exact hnot (hagree dst hroom)
  · intro hone dst hroom
    rw [agrees_iff_overwrite h hroom, ← flatten_chunks]
    match chunks cs, hone with
    | [], _ => simp [overwrite]
    | [c], _ => simp

end Paths

/-- Two buffers, `a` and `bc`. -/
def headChain : Bufh := headOf [[some 97], [some 98, some 99]]

/-- `a`, and an empty buffer after it. -/
theorem serialize_agrees_one :
    Reads (headOf [[some 97], []]).bufs [[some 97], []] ∧
      ((∀ dst : Block, 1 ≤ dst.length → Agrees (headOf [[some 97], []]) dst) ↔
        (lens (headOf [[some 97], []]).bufs).length ≤ 1) ∧
      Agrees (headOf [[some 97], []]) [none, none] := by
  have hreads : Reads (headOf [[some 97], []]).bufs [[some 97], []] := headOf_reads [[some 97], []]
  exact ⟨hreads, serialize_agrees_iff hreads, (serialize_agrees_iff hreads).2 (by decide) [none, none] (by decide)⟩

/-- The optimized path writes `abc`, the loop `bc`. -/
theorem headChain_differs :
    ¬Agrees headChain [none, none, none] ∧
      bufhSerializeMem headChain .binary [none, none, none] = .ok ([some 97, some 98, some 99], 3) ∧
      bufhSerializeMem headChain (.other bufhSerializeBinary) [none, none, none] =
      .ok ([some 98, some 99, none], 3) := by
  have hbinary : bufhSerializeMem headChain .binary [none, none, none] = .ok ([some 97, some 98, some 99], 3) := by
    decide
  have hother : bufhSerializeMem headChain (.other bufhSerializeBinary) [none, none, none] =
      .ok ([some 98, some 99, none], 3) := by
    decide
  refine ⟨?_, hbinary, hother⟩
  rw [Agrees, hbinary, hother]
  decide

/-! ## Writing to a descriptor -/

/-- How many bytes the `n`-th call of `write` takes at most; none for 0 and -1. -/
def given (results : Nat → Option Nat) (n : Nat) : Nat := (results n).getD 0

/-- What is delivered of the pieces: `write` is called for each, until a call takes nothing. -/
def sent : List Block → (Nat → Option Nat) → Block
  | [], _ => []
  | c :: rest, results =>
    if given results 0 = 0 then [] else c.take (given results 0) ++ sent rest fun n => results (n + 1)

theorem sent_of_zero (ds : List Block) {results : Nat → Option Nat} (h : given results 0 = 0) :
    sent ds results = [] := by
  cases ds with
  | nil => rfl
  | cons c rest => rw [sent, if_pos h]

/-- The loop delivers `sent` after what was delivered already, and returns its length or -1. -/
theorem chunkLoop_fd {ds : List Block} (results : Nat → Option Nat) (done : Block) (h : ∀ c ∈ ds, c ≠ []) :
    ∃ fd r, chunkLoop bufhWriteFd ds ⟨results, done⟩ done.length = .ok (fd, r) ∧
      fd.delivered = done ++ sent ds results ∧ (0 ≤ r → r = fd.delivered.length) := by
  induction ds generalizing results done with
  | nil => exact ⟨⟨results, done⟩, done.length, rfl, by simp [sent], fun _ => rfl⟩
  | cons c ds ih =>
    have hc : c.length ≠ 0 := fun h0 => h c List.mem_cons_self (List.length_eq_zero_iff.1 h0)
    cases hres : results 0 with
    | none =>
      have hzero : given results 0 = 0 := by simp [given, hres]
      refine ⟨⟨fun n => results (n + 1), done⟩, -1, ?_, ?_, fun h => absurd h (by decide)⟩
      · simp [chunkLoop, bufhWriteFd, hres, bind, Except.bind, pure, Except.pure]
      · rw [sent_of_zero _ hzero, List.append_nil]
    | some n =>
      have hgiven : given results 0 = n := by simp [given, hres]
      by_cases hn : n = 0
      · refine ⟨⟨fun n => results (n + 1), done⟩, done.length, ?_, ?_, fun _ => rfl⟩
        · simp [chunkLoop, bufhWriteFd, hres, hn, bind, Except.bind, pure, Except.pure]
        · rw [sent_of_zero _ (hgiven.trans hn), List.append_nil]
      · obtain ⟨fd, r, hloop, hsent, hr⟩ := ih (fun n => results (n + 1)) (done ++ c.take n) fun d hd =>
          h d (List.mem_cons_of_mem c hd)
        have htake : (c.take n).length ≠ 0 := by
          rw [List.length_take]
          omega
        have hnext : ((done.length : Int) + ((c.take n).length : Int)).toNat = (done ++ c.take n).length := by
          rw [List.length_append]
          omega
        refine ⟨fd, r, ?_, ?_, hr⟩
        · rw [← hloop]
          simp only [chunkLoop, bufhWriteFd, hres, bind, Except.bind]
          rw [if_neg (by omega), if_neg (by omega), hnext]
        · rw [hsent, sent, hgiven, if_neg hn, List.append_assoc]

/-- What is delivered is a prefix of what the head has, and a result that is not negative is its length. -/
def WritesPrefix (b : Bufh) (cs : List Block) (results : Nat → Option Nat) : Prop :=
  ∃ fd r, bufhWriteoutFd b ⟨results, []⟩ = .ok (fd, r) ∧ fd.delivered <+: cs.flatten ∧
    (0 ≤ r → r = fd.delivered.length)

theorem writesPrefix_iff_sent {b : Bufh} {cs : List Block} (h : Reads b.bufs cs) (results : Nat → Option Nat) :
    WritesPrefix b cs results ↔ sent (chunks cs) results <+: (chunks cs).flatten := by
  obtain ⟨fd, r, hloop, hsent, hr⟩ := @chunkLoop_fd (chunks cs) results [] fun c hc => chunks_ne_nil hc
  have heq : bufhWriteoutFd b ⟨results, []⟩ = .ok (fd, r) := by
    rw [← hloop]
    exact serializeChain_binary bufhWriteFd h _ _
  rw [List.nil_append] at hsent
  rw [flatten_chunks, ← hsent]
  constructor
  · rintro ⟨fd', r', heq', hprefix, -⟩
    obtain ⟨rfl, -⟩ := Prod.mk.inj (Except.ok.inj (heq.symm.trans heq'))
    exact hprefix
  · intro hprefix
    exact ⟨fd, r, heq, hprefix, hr⟩

/-- After a short write that delivers something, but not of the last piece, the next write delivers nothing. -/
def Gapless : List Nat → (Nat → Option Nat) → Prop
  | [], _ => True
  | [_], _ => True
  | len :: next :: rest, results =>
    given results 0 = 0 ∨
      if given results 0 < len then given results 1 = 0 else Gapless (next :: rest) fun n => results (n + 1)

theorem prefix_of_gapless : ∀ {ds : List Block} {results : Nat → Option Nat}, Gapless (ds.map List.length) results →
    sent ds results <+: ds.flatten
  | [], _, _ => List.nil_prefix
  | [c], results, _ => by
    by_cases h0 : given results 0 = 0
    · rw [sent_of_zero _ h0]
      exact List.nil_prefix
    · simpa [sent, h0] using List.take_prefix _ c
  | c :: d :: ds, results, h => by
    by_cases h0 : given results 0 = 0
    · rw [sent_of_zero _ h0]
      exact List.nil_prefix
    · rw [sent, if_neg h0, List.flatten_cons]
      have h := h.resolve_left h0
      split at h
      · have hnext := sent_of_zero (d :: ds) (show given (fun n => results (n + 1)) 0 = 0 from h)
        rw [hnext, List.append_nil]
        exact (List.take_prefix _ c).trans (List.prefix_append c _)
      · next hfull =>
        rw [List.take_of_length_le (Nat.le_of_not_lt hfull)]
        exact (List.prefix_append_right_inj c).2 (prefix_of_gapless h)

/-- Pieces of the lengths `ls`, in turns of two bytes. -/
def stripes : Bool → List Nat → List Block
  | _, [] => []
  | odd, len :: ls => List.replicate len (some odd.toUInt8) :: stripes (if len = 0 then odd else !odd) ls

theorem stripes_length (odd : Bool) (ls : List Nat) : (stripes odd ls).map List.length = ls := by
  induction ls generalizing odd with
  | nil => rfl
  | cons len ls ih => rw [stripes, List.map_cons, List.length_replicate, ih]

theorem chunks_stripes (odd : Bool) (ls : List Nat) : chunks (stripes odd ls) = stripes odd (ls.filter (· ≠ 0)) := by
  induction ls generalizing odd with
  | nil => rfl
  | cons len ls ih =>
    have hrest := ih (if len = 0 then odd else !odd)
    unfold chunks at hrest
    by_cases h0 : len = 0
    · simpa [chunks, stripes, h0] using hrest
    · simpa [chunks, stripes, h0] using hrest

theorem not_prefix_of_gap {x y : Option UInt8} (hxy : x ≠ y) {n m len : Nat} (hn : n < len) (hm : 0 < m)
    (xs ys : Block) : ¬List.replicate n x ++ (List.replicate m y ++ xs) <+: List.replicate len x ++ ys := by
  rintro ⟨t, ht⟩
  have hat := congrArg (·[n]?) ht
  simp only [List.append_assoc, List.getElem?_append, List.length_replicate, lt_irrefl, if_false, Nat.sub_self, hm,
    hn, if_true, List.getElem?_replicate] at hat
  exact hxy (Option.some.inj hat).symm

/-- A gap shows in the stripes: the first byte after it is the other one. -/
theorem gapless_of_stripes : ∀ {odd : Bool} {ls : List Nat} {results : Nat → Option Nat}, (∀ len ∈ ls, len ≠ 0) →
    sent (stripes odd ls) results <+: (stripes odd ls).flatten → Gapless ls results
  | _, [], _, _, _ => trivial
  | _, [_], _, _, _ => trivial
  | odd, len :: next :: ls, results, hne, h => by
    by_cases h0 : given results 0 = 0
    · exact .inl h0
    · refine .inr ?_
      have hlen : len ≠ 0 := hne len List.mem_cons_self
      have hnext : next ≠ 0 := hne next (by simp)
      have htail : stripes odd (len :: next :: ls) =
          List.replicate len (some odd.toUInt8) :: stripes (!odd) (next :: ls) := by
        rw [stripes, if_neg hlen]
      rw [htail, sent, if_neg h0, List.flatten_cons] at h
      split
      · next hshort =>
        by_contra hmore
        have hmore' : given (fun n => results (n + 1)) 0 ≠ 0 := hmore
        rw [stripes, sent, if_neg hmore', List.take_replicate, Nat.min_eq_left hshort.le, List.take_replicate] at h
        exact not_prefix_of_gap (by cases odd <;> decide) hshort (by omega) _ _ h
      · next hfull =>
        rw [List.take_of_length_le (by simpa using hfull), List.prefix_append_right_inj] at h
        exact gapless_of_stripes (fun l hl => hne l (List.mem_cons_of_mem len hl)) h

/-- **What `rd_bufh_writeout_fd` delivers is a prefix, for all heads with buffers of these lengths, only if no short
write is followed by one that delivers something.** -/
theorem writeout_prefix_iff (ls : List Nat) (results : Nat → Option Nat) :
    (∀ b cs, Reads b.bufs cs → b.bufs.map Buf.len = ls → WritesPrefix b cs results) ↔
      Gapless (ls.filter (· ≠ 0)) results := by
  constructor
  · intro h
    have hlens : (headOf (stripes false ls)).bufs.map Buf.len = ls := by
      simpa [headOf, Function.comp_def] using stripes_length false ls
    have hprefix := (writesPrefix_iff_sent (headOf_reads _) results).1 (h _ _ (headOf_reads _) hlens)
    rw [chunks_stripes] at hprefix
    exact gapless_of_stripes (by simp) hprefix
  · intro h b cs hreads hlens
    refine (writesPrefix_iff_sent hreads results).2 (prefix_of_gapless ?_)
    rw [hreads.chunks_length, lens, hlens]
    exact h

/-- Of `abc` and `de` one byte and then two are taken: `ade` is delivered, and 3 returned. -/
theorem writeout_leaves_gap :
    ¬WritesPrefix (headOf [[some 97, some 98, some 99], [some 100, some 101]])
        [[some 97, some 98, some 99], [some 100, some 101]] (fun n => if n = 0 then some 1 else some 2) ∧
      (bufhWriteoutFd (headOf [[some 97, some 98, some 99], [some 100, some 101]])
        ⟨fun n => if n = 0 then some 1 else some 2, []⟩).toOption.map (fun p => (p.1.delivered, p.2)) =
          some ([some 97, some 100, some 101], 3) := by
  refine ⟨?_, by decide⟩
  rw [writesPrefix_iff_sent (headOf_reads _)]
  decide

end Librd.Bufs
