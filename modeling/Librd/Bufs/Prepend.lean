import Librd.Bufs.Contents

/-!
# Prepending, and formats that fail

Two ways to change a head leave its lengths and its bytes apart.

- `rd_bufh_prepend` links a buffer with `rb_len` 0: what is copied out stays the same (`prepend_reads`), so the data is
  there only if it has no bytes (`prepend_puts_iff`).
- `rd_bufh_vsprintf` adds what `vsnprintf` returns to the lengths, also if that is negative (`vsprintfRet_len`): no
  head is left as it was (`vsprintf_failed`).
-/

namespace Librd.Bufs

/-! ## Prepending -/

/-- `rd_bufh_copyout` to any memory with enough room writes exactly `bytes` there, and returns their number. -/
def CopiesBytes (b : Bufh) (bytes : Block) : Prop :=
  ∀ dst, bytes.length ≤ dst.length → bufhCopyout b dst = .ok (bytes ++ dst.drop bytes.length, bytes.length)

/-- `data` was put before what `b` had. -/
def Prepended (b b' : Bufh) (cs : List Block) (data : Block) : Prop :=
  CopiesBytes b' (data ++ cs.flatten) ∧ b'.len = (b.len + data.length) % 2 ^ 32

theorem Reads.copiesBytes {b : Bufh} {cs : List Block} (h : Reads b.bufs cs) : CopiesBytes b cs.flatten :=
  fun _ hroom => copyout_reads h hroom

theorem CopiesBytes.length_eq {b : Bufh} {xs ys : Block} (hx : CopiesBytes b xs) (hy : CopiesBytes b ys) :
    xs.length = ys.length := by
  have hdst := hx (List.replicate (xs.length + ys.length) none) (by simp)
  rw [hy _ (by simp)] at hdst
  exact (Prod.mk.inj (Except.ok.inj hdst)).2.symm

/-- Nothing can be read from the buffer that `rd_bufh_prepend` links. -/
theorem prepend_reads {b : Bufh} {cs : List Block} (h : Reads b.bufs cs) (data : Block) (len : Nat) (owner : Bool) :
    Reads (bufhPrepend b (some data) len owner).bufs ([] :: cs) := by
  refine .cons ?_ h
  cases owner <;> simp [bufNew, read]

theorem prepend_len (b : Bufh) (data : Option Block) (len : Nat) (owner : Bool) :
    (bufhPrepend b data len owner).len = b.len % 2 ^ 32 := by
  simp only [bufhPrepend, bufhBufInsert, bufNew_len]
  exact u32_add b.len 0

/-- **`rd_bufh_prepend` puts the data before what the head has only if there is no data.** -/
theorem prepend_puts_iff {b : Bufh} {cs : List Block} (h : Reads b.bufs cs) (data : Block) (len : Nat) (owner : Bool)
    (hlen : data.length = len) : Prepended b (bufhPrepend b (some data) len owner) cs data ↔ len = 0 := by
  have hcopy :
    CopiesBytes (bufhPrepend b (some data) len owner) cs.flatten := (prepend_reads h data len owner).copiesBytes
  constructor
  · rintro ⟨hputs, -⟩
    have hsum := hputs.length_eq hcopy
    rw [List.length_append] at hsum
    omega
  · intro h0
    obtain rfl : data = [] := List.length_eq_zero_iff.1 (hlen.trans h0)
    exact ⟨hcopy, prepend_len b _ _ _⟩

/-- A head with the two bytes `bc`. -/
def headBc : Bufh := headOf [[some 98, some 99]]

theorem prepend_puts_nothing :
    Reads headBc.bufs [[some 98, some 99]] ∧
      Prepended headBc (bufhPrepend headBc (some []) 0 false) [[some 98, some 99]] [] :=
  ⟨headOf_reads _, (prepend_puts_iff (headOf_reads _) [] 0 false rfl).2 rfl⟩

/-- `a` put before `bc`: only `bc` is copied out, with and without `RD_BUF_F_OWNER`. -/
theorem prepend_loses_a :
    bufhCopyout (bufhPrepend headBc (some [some 97]) 1 false) [none, none, none] = .ok ([some 98, some 99, none], 2) ∧
      ¬Prepended headBc (bufhPrepend headBc (some [some 97]) 1 false) [[some 98, some 99]] [some 97] ∧
      ¬Prepended headBc (bufhPrepend headBc (some [some 97]) 1 true) [[some 98, some 99]] [some 97] := by
  refine ⟨by decide, ?_, ?_⟩
  · rintro ⟨-, hlen⟩
    exact absurd hlen (by decide)
  · rintro ⟨-, hlen⟩
    exact absurd hlen (by decide)

/-! ## Formats that fail -/

/-- `rd_bufh_vsprintf` when the first `vsnprintf` returns `totlen`, and the second one leaves `written` after what the
buffer has. -/
def bufhVsprintfRet (rbh : Bufh) (totlen : Int) (written : Block) : Except Fault Bufh := do
  if totlen = intMax then throw .overflow
  let (rbh, i) ← bufhGetBuf rbh none (u32 (totlen + 1)) false
  let rb ← bufAt rbh i
  let rbh ← bufWrite rbh i rb rb.len written
  return bufhUpdateLen rbh i totlen

/-- A format that succeeds returns its length, and is written with its terminator. -/
theorem vsprintfRet_success (b : Bufh) {str : List UInt8} (h : str.length ≤ intMax) :
    bufhVsprintfRet b str.length ((str ++ [0]).map some) = bufhVsprintf b str := by
  by_cases hmax : str.length = intMax
  · simp only [bufhVsprintfRet, bufhVsprintf, sizeWithNul, hmax, lt_irrefl, if_true, if_false]
    rfl
  · have hn : u32 ((str.length : Int) + 1) = str.length + 1 := by
      unfold intMax at h
      simp only [u32]
      omega
    have hlt : str.length < intMax := by omega
    simp only [bufhVsprintfRet, bufhVsprintf, sizeWithNul, Nat.cast_inj, hmax, hlt, hn, if_true, if_false]
    rfl

/-- What a call that failed should leave as it was: `rbh_len`, what can be read and the `rb_len` of every buffer. -/
structure Unchanged (b b' : Bufh) : Prop where
  len_eq : b'.len = b.len
  reads : ∀ cs, Reads b.bufs cs → ∃ cs', Reads b'.bufs cs' ∧ cs'.flatten = cs.flatten
  buf_len : ∀ (i : Nat) (rb : Buf), b.bufs[i]? = some rb → (b'.bufs[i]?).map Buf.len = some rb.len

theorem tailOrNew_len {b : Bufh} (hb : b.len < 2 ^ 32) (data : Option Block) (len : Nat) (owner : Bool) :
    (tailOrNew b data len owner).1.len = b.len := by
  have hnew : (bufhBufInsert b (tailIdx b) (bufNew data len owner)).len = b.len := by
    rw [insert_tail, bufNew_len, Nat.add_zero]
    exact Nat.mod_eq_of_lt hb
  unfold tailOrNew
  split
  · split
    · rfl
    · exact hnew
  · exact hnew

theorem bufWrite_len {b b' : Bufh} {i off : Nat} {rb : Buf} {bytes : Block} (h : bufWrite b i rb off bytes = .ok b') :
    b'.len = b.len := by
  obtain ⟨orig, -, h⟩ := Outcome.exists_of_bind h
  cases h
  rfl

/-- `rbh_len` is moved by whatever `vsnprintf` returned. -/
theorem vsprintfRet_len {b b' : Bufh} {totlen : Int} {written : Block} (hb : b.len < 2 ^ 32)
    (h : bufhVsprintfRet b totlen written = .ok b') : b'.len = u32 (b.len + totlen) := by
  unfold bufhVsprintfRet at h
  split at h
  · cases h
  · have hroom := tailOrNew_len hb none (u32 (totlen + 1)) false
    obtain ⟨p, hp, h⟩ := Outcome.exists_of_bind h
    rw [show tailOrNew b none (u32 (totlen + 1)) false = p from Except.ok.inj hp] at hroom
    obtain ⟨rb, -, h⟩ := Outcome.exists_of_bind h
    obtain ⟨b₁, hw, h⟩ := Outcome.exists_of_bind h
    cases h
    rw [bufhUpdateLen, bufWrite_len hw, hroom]

/-- **A format that fails leaves no head as it was**: its length is moved by the negative number. -/
theorem vsprintf_failed (b : Bufh) (totlen : Int) (written : Block) (hb : b.len < 2 ^ 32) (hint : -2 ^ 31 ≤ totlen)
    (hneg : totlen < 0) : ¬∃ b', bufhVsprintfRet b totlen written = .ok b' ∧ Unchanged b b' := by
  rintro ⟨b', h, hsame⟩
  have hlen := vsprintfRet_len hb h
  rw [hsame.len_eq] at hlen
  simp only [u32] at hlen
  omega

theorem vsprintf_failed_bc : ¬∃ b', bufhVsprintfRet headBc (-1) [] = .ok b' ∧ Unchanged headBc b' :=
  vsprintf_failed headBc (-1) [] (by decide) (by decide) (by decide)

/-- With -1 nothing is written, and the last byte of the tail is lost. -/
theorem vsprintf_failed_loses_c :
    ¬(∃ b', bufhVsprintfRet headBc (-1) [] = .ok b' ∧ Unchanged headBc b') ∧
      (bufhVsprintfRet headBc (-1) []).toOption.map (fun b' => (b'.len, b'.bufs.map Buf.len)) = some (1, [1]) := by
  refine ⟨?_, by decide⟩
  rintro ⟨b', h, hsame⟩
  have hlen := vsprintfRet_len (by decide) h
  rw [hsame.len_eq] at hlen
  exact absurd hlen (by decide)

end Librd.Bufs
