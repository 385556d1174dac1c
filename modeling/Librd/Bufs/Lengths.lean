import Librd.Bufs.Buf
import Librd.Lib.Outcome

/-!
# The lengths of buffers and heads

`rb_len` never exceeds `rb_olen`, and `rbh_len` is the sum of the `rb_len` modulo `2 ^ 32`. Every operation that adds
bytes picks a slot at the end of the head (`Slot`, `tailOrNew_eq`) and fills it (`filled`); the equations `append_eq`,
`append_null_eq`, `recv_eq` and `vsprintf_eq` say so, up to the write itself. So no step keeps one of the two lengths
and not the other (`step_good`), and no assertion fails in any run (`always_good`).
-/

namespace Librd.Bufs

/-! ## 32-bit arithmetic -/

theorem u32_add (a b : Nat) : u32 ((a : Int) + b) = (a + b) % 2 ^ 32 := by
  simp only [u32]
  omega

theorem u32_add_i32 (a : Nat) (x : Int) : u32 (a + i32 x) = u32 (a + x) := by
  simp only [u32, i32, Int.bmod]
  split <;> omega

theorem u32_sub (a b c : Nat) (h : a = (b + c) % 2 ^ 32) : u32 ((a : Int) + -(c : Int)) = b % 2 ^ 32 := by
  simp only [u32]
  omega

/-- `-1` is the `int` of one length only. -/
theorem i32_eq_neg_one {n : Nat} (h : n < 2 ^ 32) : i32 n = -1 ↔ n = 2 ^ 32 - 1 := by
  simp only [i32, Int.bmod]
  split <;> omega

/-! ## Consistent lengths -/

/-- The length of a buffer is at most what is allocated, and that is a `uint32_t`. -/
structure Fit (rb : Buf) : Prop where
  len_le : rb.len ≤ rb.olen
  olen_lt : rb.olen < 2 ^ 32

/-- The sum of the lengths of buffers. -/
def sumLen (bufs : List Buf) : Nat := (bufs.map Buf.len).sum

@[simp] theorem sumLen_nil : sumLen [] = 0 := rfl

@[simp] theorem sumLen_cons (rb : Buf) (bufs : List Buf) : sumLen (rb :: bufs) = rb.len + sumLen bufs := rfl

@[simp] theorem sumLen_append (l l' : List Buf) : sumLen (l ++ l') = sumLen l + sumLen l' := by
  simp [sumLen]

theorem sumLen_perm {l l' : List Buf} (h : l.Perm l') : sumLen l = sumLen l' := (h.map Buf.len).sum_nat

/-- Every buffer fits, and the length of the head is the sum of the lengths of its buffers, modulo `2 ^ 32`. -/
structure Good (b : Bufh) : Prop where
  fits : ∀ rb ∈ b.bufs, Fit rb
  len_eq : b.len = sumLen b.bufs % 2 ^ 32

theorem Good.len_lt {b : Bufh} (h : Good b) : b.len < 2 ^ 32 := by
  rw [h.len_eq]
  exact Nat.mod_lt _ (by omega)

/-- Inserting a buffer anywhere. -/
theorem Good.insert {b : Bufh} {rb : Buf} {bufs : List Buf} (h : Good b) (hrb : Fit rb)
    (hp : bufs.Perm (rb :: b.bufs)) : Good { b with bufs := bufs, len := u32 (b.len + rb.len) } := by
  refine ⟨fun x hx => ?_, ?_⟩
  · rcases List.mem_cons.1 (hp.mem_iff.1 hx) with rfl | hx
    · exact hrb
    · exact h.fits x hx
  · have hs := sumLen_perm hp
    have hl := h.len_eq
    simp only [u32_add, sumLen_cons] at hs ⊢
    omega

theorem bufRemaining_eq {rb : Buf} (h : Fit rb) : bufRemaining rb = rb.olen - rb.len := by
  have h1 := h.len_le
  have h2 := h.olen_lt
  simp only [bufRemaining, u32, i32, Int.bmod]
  split <;> omega

@[simp] theorem bufNew_len (data : Option Block) (len : Nat) (owner : Bool) : (bufNew data len owner).len = 0 := by
  unfold bufNew
  split <;> rfl

theorem le_bufNew_olen (data : Option Block) (len : Nat) (owner : Bool) : len ≤ (bufNew data len owner).olen := by
  unfold bufNew
  split
  · exact Nat.le_refl len
  · dsimp only
    split <;> omega

theorem bufNew_fit (data : Option Block) {len : Nat} (owner : Bool) (h : len < 2 ^ 32) :
    Fit (bufNew data len owner) := by
  refine ⟨by simp, ?_⟩
  unfold bufNew sizeofBuf
  split
  · exact h
  · dsimp only
    split <;> omega

/-! ## Slots -/

/-- `rb`, with `init` before it, is where the next `len` bytes go: the last buffer of `b`, or a new one after it. -/
structure Slot (b : Bufh) (data : Option Block) (len : Nat) (owner : Bool) (init : List Buf) (rb : Buf) : Prop where
  room : rb.len + len ≤ rb.olen
  fit : Fit rb
  origin : b.bufs = init ++ [rb] ∧ owner = false ∨ b.bufs = init ∧ rb = bufNew data len owner

/-- `b` with `k` more bytes in its slot, whose block is `orig` now. -/
def filled (b : Bufh) (init : List Buf) (rb : Buf) (orig : Option Block) (k : Nat) : Bufh :=
  { b with bufs := init ++ [{ rb with orig := orig, len := rb.len + k }], len := (b.len + k) % 2 ^ 32 }

/-- The head with its slot, before anything is written. -/
theorem filled_zero {b : Bufh} {init : List Buf} {rb : Buf} (h : Good b) :
    filled b init rb rb.orig 0 = { b with bufs := init ++ [rb] } := by
  simp only [filled, Nat.add_zero, Nat.mod_eq_of_lt h.len_lt]

/-- Inserting after the last buffer. -/
theorem insert_tail (b : Bufh) (rb : Buf) :
    bufhBufInsert b (tailIdx b) rb = { b with bufs := b.bufs ++ [rb], len := (b.len + rb.len) % 2 ^ 32 } := by
  rcases List.eq_nil_or_concat b.bufs with hb | ⟨init, last, hb⟩
  · simp [bufhBufInsert, tailIdx, hb, u32_add]
  · have hlen : b.bufs.length - 1 + 1 = b.bufs.length := by simp [hb]
    simp only [bufhBufInsert, tailIdx, if_neg (show b.bufs ≠ [] by simp [hb]), hlen, List.insertIdx_length_self,
      u32_add]

/-- `rd_bufh_get_buf` chooses a slot. -/
theorem tailOrNew_eq {b : Bufh} (h : Good b) (data : Option Block) {len : Nat} (hlen : len < 2 ^ 32) (owner : Bool) :
    ∃ init rb, Slot b data len owner init rb ∧
      tailOrNew b data len owner = (filled b init rb rb.orig 0, init.length) := by
  have hnew : Slot b data len owner b.bufs (bufNew data len owner) ∧
      (bufhBufInsert b (tailIdx b) (bufNew data len owner), b.bufs.length) =
        (filled b b.bufs (bufNew data len owner) (bufNew data len owner).orig 0, b.bufs.length) := by
    refine ⟨⟨?_, bufNew_fit data owner hlen, .inr ⟨rfl, rfl⟩⟩, ?_⟩
    · rw [bufNew_len, Nat.zero_add]
      exact le_bufNew_olen data len owner
    · rw [insert_tail, bufNew_len, filled_zero h, Nat.add_zero, Nat.mod_eq_of_lt h.len_lt]
  rcases List.eq_nil_or_concat b.bufs with hb | ⟨init, last, hb⟩
  · exact ⟨_, _, hnew.1, by simpa only [tailOrNew, hb, List.getLast?_nil] using hnew.2⟩
  · rw [List.concat_eq_append] at hb
    have hfit : Fit last := h.fits last (by simp [hb])
    have htail : b.bufs.getLast? = some last := by simp [hb]
    by_cases hroom : owner = false ∧ bufRemaining last ≥ len
    · refine ⟨init, last, ⟨?_, hfit, .inl ⟨hb, hroom.1⟩⟩, ?_⟩
      · have h1 := hroom.2
        have h2 := hfit.len_le
        rw [bufRemaining_eq hfit] at h1
        omega
      · have hself : filled b init last last.orig 0 = b := by rw [filled_zero h, ← hb]
        have hidx : b.bufs.length - 1 = init.length := by simp [hb]
        simp only [tailOrNew, htail, if_pos hroom, hself, hidx]
    · exact ⟨_, _, hnew.1, by simpa only [tailOrNew, htail, if_neg hroom] using hnew.2⟩

/-! ## Filling a slot -/

section Fill

variable {b : Bufh} {init : List Buf} {rb : Buf} {data : Option Block} {len : Nat} {owner : Bool}

@[simp] theorem bufAt_filled : bufAt (filled b init rb rb.orig 0) init.length = .ok rb := by
  simp [bufAt, filled]

theorem bufWrite_filled (off : Nat) (bytes : Block) :
    bufWrite (filled b init rb rb.orig 0) init.length rb off bytes =
      (write rb.orig off bytes).map fun orig => filled b init rb orig 0 := by
  cases hw : write rb.orig off bytes with
  | error e => simp [bufWrite, hw, Except.map, bind, Except.bind]
  | ok orig => simp [bufWrite, hw, Except.map, bind, Except.bind, pure, Except.pure, filled]

theorem modify_last (f : Buf → Buf) : ∀ init : List Buf, (init ++ [rb]).modify init.length f = init ++ [f rb]
  | [] => rfl
  | x :: init => by simp [modify_last f init]

/-- Adding `x`, which is `k` modulo `2 ^ 32`, to both lengths. -/
theorem updateLen_filled (orig : Option Block) {x : Int} {k : Nat} (hx : ∀ a : Nat, u32 (a + x) = (a + k) % 2 ^ 32)
    (hk : rb.len + k < 2 ^ 32) :
    bufhUpdateLen (filled b init rb orig 0) init.length x = filled b init rb orig k := by
  have hrb : u32 (((rb.len + 0 : Nat) : Int) + x) = rb.len + k := by rw [hx, Nat.add_zero, Nat.mod_eq_of_lt hk]
  have hb : u32 ((((b.len + 0) % 2 ^ 32 : Nat) : Int) + x) = (b.len + k) % 2 ^ 32 := by rw [hx]; omega
  simp only [bufhUpdateLen, filled, modify_last, hrb, hb]

/-- Filling a slot keeps the lengths consistent. -/
theorem Slot.good {orig : Option Block} {k : Nat} (hb : Good b) (hs : Slot b data len owner init rb) (hk : k ≤ len) :
    Good (filled b init rb orig k) := by
  have hroom := hs.room
  have hsum : b.len = (sumLen init + rb.len) % 2 ^ 32 := by
    rw [hb.len_eq]
    rcases hs.origin with ⟨h, -⟩ | ⟨h, hnew⟩
    · rw [h, sumLen_append, sumLen_cons, sumLen_nil, Nat.add_zero]
    · rw [h, hnew, bufNew_len, Nat.add_zero]
  refine ⟨fun x hx => ?_, ?_⟩
  · rcases List.mem_append.1 hx with hx | hx
    · apply hb.fits x
      rcases hs.origin with ⟨h, -⟩ | ⟨h, -⟩
      · exact h ▸ List.mem_append_left _ hx
      · exact h ▸ hx
    · obtain rfl := List.mem_singleton.1 hx
      refine ⟨?_, hs.fit.olen_lt⟩
      show rb.len + k ≤ rb.olen
      omega
  · simp only [filled, sumLen_append, sumLen_cons, sumLen_nil]
    omega

/-- Writing to the slot and adding `x`, which is `k` modulo `2 ^ 32`, to both lengths. -/
theorem write_update (off : Nat) (bytes : Block) {x : Int} {k : Nat} (hx : ∀ a : Nat, u32 (a + x) = (a + k) % 2 ^ 32)
    (hk : rb.len + k < 2 ^ 32) :
    (do return bufhUpdateLen (← bufWrite (filled b init rb rb.orig 0) init.length rb off bytes) init.length x) =
      (write rb.orig off bytes).map fun orig => filled b init rb orig k := by
  rw [bufWrite_filled]
  cases write rb.orig off bytes with
  | error e => rfl
  | ok orig => exact congrArg Except.ok (updateLen_filled orig hx hk)

/-- `rd_bufh_append` of data. -/
theorem append_eq (d : Block) (owner : Bool) (hb : Good b) (hlen : len < 2 ^ 32) :
    ∃ init rb, Slot b (some d) len owner init rb ∧
      bufhAppend b (some d) len owner = (write rb.orig rb.len d).map fun orig => filled b init rb orig len := by
  obtain ⟨init, rb, hs, heq⟩ := tailOrNew_eq hb (some d) hlen owner
  refine ⟨init, rb, hs, ?_⟩
  have hroom := hs.room
  have hfit := hs.fit.olen_lt
  have hrem : ¬bufRemaining rb < len := by
    rw [bufRemaining_eq hs.fit]
    omega
  have happ : bufAppendData (filled b init rb rb.orig 0) init.length d len =
      (write rb.orig rb.len d).map fun orig => filled b init rb orig len := by
    rw [← write_update rb.len d (x := i32 len) (fun a => by rw [u32_add_i32, u32_add]) (by omega)]
    simp only [bufAppendData, bufAt_filled, bind, Except.bind, if_neg hrem]
  simp only [bufhAppend, bufhGetBuf, heq, happ]
  cases write rb.orig rb.len d <;> rfl

/-- `rd_bufh_append` of no data only makes room. -/
theorem append_null_eq (owner : Bool) (hb : Good b) (hlen : len < 2 ^ 32) :
    ∃ init rb, Slot b none len owner init rb ∧ bufhAppend b none len owner = .ok (filled b init rb rb.orig 0) := by
  obtain ⟨init, rb, hs, heq⟩ := tailOrNew_eq hb none hlen owner
  exact ⟨init, rb, hs, by simp only [bufhAppend, bufhGetBuf, heq]; rfl⟩

/-- `rd_bufh_recv`: the length is added unless its `int` is -1. -/
theorem recv_eq {bytes : List UInt8} (hb : Good b) (hlen : len < 2 ^ 32) (hbytes : bytes.length ≤ len) :
    ∃ init rb, Slot b none len false init rb ∧
      bufhRecv b len (some bytes) = (write rb.orig (rb.data + rb.len) (bytes.map some)).map fun orig =>
        if bytes.length = 2 ^ 32 - 1 then (filled b init rb orig 0, false)
        else (filled b init rb orig bytes.length, true) := by
  obtain ⟨init, rb, hs, heq⟩ := tailOrNew_eq hb none hlen false
  refine ⟨init, rb, hs, ?_⟩
  have hroom := hs.room
  have hfit := hs.fit.olen_lt
  have hr := i32_eq_neg_one (show bytes.length < 2 ^ 32 by omega)
  simp only [bufhRecv, bufhGetBuf, heq, pure, Except.pure, bind, Except.bind, bufAt_filled, bufWrite_filled, hr]
  cases write rb.orig (rb.data + rb.len) (bytes.map some) with
  | error e => rfl
  | ok orig =>
    have hupd : bufhUpdateLen (filled b init rb orig 0) init.length (i32 bytes.length) =
        filled b init rb orig bytes.length :=
      updateLen_filled orig (fun a => by rw [u32_add_i32, u32_add]) (by omega)
    simp only [Except.map, hupd]
    split <;> rfl

/-- `rd_bufh_recv` where `recv` fails. -/
theorem recv_fail_eq (hb : Good b) (hlen : len < 2 ^ 32) :
    ∃ init rb, Slot b none len false init rb ∧
      bufhRecv b len none = .ok (filled b init rb rb.orig 0, false) := by
  obtain ⟨init, rb, hs, heq⟩ := tailOrNew_eq hb none hlen false
  exact ⟨init, rb, hs, by simp only [bufhRecv, bufhGetBuf, heq]; rfl⟩

/-- `rd_bufh_vsprintf`, if `totlen + 1` is an `int`. -/
theorem vsprintf_eq {str : List UInt8} (hb : Good b) (hstr : str.length < intMax) :
    ∃ init rb, Slot b none (str.length + 1) false init rb ∧
      bufhVsprintf b str =
        (write rb.orig rb.len ((str ++ [0]).map some)).map fun orig => filled b init rb orig str.length := by
  have hlen : str.length + 1 < 2 ^ 32 := by simp only [intMax] at hstr; omega
  obtain ⟨init, rb, hs, heq⟩ := tailOrNew_eq hb none hlen false
  refine ⟨init, rb, hs, ?_⟩
  have hroom := hs.room
  have hfit := hs.fit.olen_lt
  rw [← write_update rb.len _ (u32_add · str.length) (by omega)]
  simp only [bufhVsprintf, sizeWithNul, if_pos hstr, bufhGetBuf, heq, bind, Except.bind, pure, Except.pure,
    bufAt_filled]

end Fill

/-! ## Moving and destroying -/

/-- The loop of `rd_bufh_move` appends the buffers. -/
theorem moveLoop_eq (next : List Buf) : ∀ {dst : Bufh}, dst.len < 2 ^ 32 →
    moveLoop next (tailIdx dst) dst =
      { dst with bufs := dst.bufs ++ next, len := (dst.len + sumLen next) % 2 ^ 32 } := by
  induction next with
  | nil =>
    intro dst h
    have hlen : (dst.len + sumLen []) % 2 ^ 32 = dst.len := by rw [sumLen_nil, Nat.add_zero, Nat.mod_eq_of_lt h]
    rw [moveLoop, hlen, List.append_nil]
  | cons rb next ih =>
    intro dst h
    have htail : some (posAfter (tailIdx dst)) = tailIdx (bufhBufInsert dst (tailIdx dst) rb) := by
      rw [insert_tail]
      rcases List.eq_nil_or_concat dst.bufs with hd | ⟨init, last, hd⟩ <;> simp [tailIdx, posAfter, hd]
    have hlt : (bufhBufInsert dst (tailIdx dst) rb).len < 2 ^ 32 := by
      rw [insert_tail]
      exact Nat.mod_lt _ (by omega)
    rw [moveLoop, htail, ih hlt, insert_tail]
    simp only [sumLen_cons, List.append_assoc, List.singleton_append, Bufh.mk.injEq, and_true, true_and]
    omega

theorem move_good {dst src : Bufh} (hd : Good dst) (hs : Good src) :
    Good (bufhMove dst src).1 ∧ Good (bufhMove dst src).2 := by
  refine ⟨?_, ⟨by simp [bufhMove], rfl⟩⟩
  rw [bufhMove, moveLoop_eq src.bufs hd.len_lt]
  refine ⟨fun rb h => ?_, ?_⟩
  · rcases List.mem_append.1 h with h | h
    · exact hd.fits rb h
    · exact hs.fits rb h
  · have := hd.len_eq
    simp only [sumLen_append]
    omega

/-- The errors other than a failed assertion. -/
abbrev NoAssert (e : Fault) : Prop := e ≠ .assertion

theorem bufDestroy_good {b : Bufh} {i : Nat} (hb : Good b) :
    Outcome NoAssert (fun b' => Good b' ∧ b'.bufs = b.bufs.eraseIdx i) (bufDestroy b i) := by
  by_cases hi : i < b.bufs.length
  · have hp := List.getElem_cons_eraseIdx_perm hi
    have hsum := sumLen_perm hp
    have hlen : u32 ((b.len : Int) + i32 (-(b.bufs[i].len : Int))) = sumLen (b.bufs.eraseIdx i) % 2 ^ 32 := by
      rw [u32_add_i32]
      apply u32_sub
      rw [hb.len_eq, ← hsum, sumLen_cons, Nat.add_comm]
    simp only [bufDestroy, bufAt, List.getElem?_eq_getElem hi, bind, Except.bind, Outcome.pure, and_true]
    exact ⟨fun rb h => hb.fits rb (List.mem_of_mem_eraseIdx h), hlen⟩
  · have hnone : b.bufs[i]? = none := List.getElem?_eq_none (Nat.not_lt.1 hi)
    simp [bufDestroy, bufAt, hnone, bind, Except.bind]

theorem destroyLoop_good (n : Nat) : ∀ {b : Bufh}, Good b → b.bufs.length = n →
    Outcome NoAssert (fun b' => Good b' ∧ b'.bufs = []) (destroyLoop n b) := by
  induction n with
  | zero => exact fun hb hn => ⟨hb, List.length_eq_zero_iff.1 hn⟩
  | succ n ih =>
    intro b hb hn
    refine Outcome.bind (bufDestroy_good hb) fun b' hb' => ih hb'.1 ?_
    rw [hb'.2, List.length_eraseIdx, hn]
    simp

/-- **The assertion of `rd_bufh_destroy` holds.** -/
theorem bufhDestroy_good {b : Bufh} (hb : Good b) : Outcome NoAssert (fun o => ∀ b' ∈ o, Good b') (bufhDestroy b) := by
  refine Outcome.bind (destroyLoop_good b.bufs.length hb rfl) fun b' hb' => ?_
  have hzero : b'.len = 0 := by rw [hb'.1.len_eq, hb'.2, sumLen_nil, Nat.zero_mod]
  rw [if_neg (not_not_intro hzero)]
  cases b'.free with
  | false => simpa using hb'.1
  | true => simp

/-! ## Steps and runs -/

/-- The heads are good. -/
def Consistent (s : State) : Prop := ∀ h b, s h = some b → Good b

theorem Consistent.update {s : State} (hs : Consistent s) (h : Nat) {o : Option Bufh} (ho : ∀ b ∈ o, Good b) :
    Consistent (Function.update s h o) := by
  intro h' b hb
  by_cases hh : h' = h
  · subst hh
    rw [Function.update_self] at hb
    exact ho b hb
  · rw [Function.update_of_ne hh] at hb
    exact hs h' b hb

theorem Consistent.update_some {s : State} (hs : Consistent s) (h : Nat) {b : Bufh} (hb : Good b) :
    Consistent (Function.update s h (some b)) :=
  hs.update h fun _ hb' => Option.some.inj hb' ▸ hb

theorem headAt_ok (s : State) (h : Nat) : Outcome NoAssert (fun b => s h = some b) (headAt s h) := by
  unfold headAt
  split
  · assumption
  · simp

theorem write_fault (p : Option Block) (off : Nat) (bytes : Block) :
    Outcome NoAssert (fun _ => True) (write p off bytes) := by
  unfold write memcpy
  cases p with
  | none => exact Outcome.ite (fun _ => trivial) (fun _ => by simp)
  | some m =>
    refine Outcome.bind (P := fun _ => True) ?_ fun _ _ => trivial
    exact Outcome.ite (fun _ => trivial) (fun _ => by simp)

/-- **The assertion of `rd_buf_append_data` holds.** -/
theorem append_good {b : Bufh} {data : Option Block} {len : Nat} {owner : Bool} (hb : Good b) (hlen : len < 2 ^ 32) :
    Outcome NoAssert Good (bufhAppend b data len owner) := by
  cases data with
  | none =>
    obtain ⟨init, rb, hs, heq⟩ := append_null_eq owner hb hlen
    rw [heq]
    exact hs.good hb (Nat.zero_le len)
  | some d =>
    obtain ⟨init, rb, hs, heq⟩ := append_eq d owner hb hlen
    rw [heq]
    exact (write_fault _ _ _).map fun orig _ => hs.good hb (Nat.le_refl len)

theorem recv_good {b : Bufh} {len : Nat} {received : Option (List UInt8)} (hb : Good b) (hlen : len < 2 ^ 32)
    (hr : ∀ d ∈ received, d.length ≤ len) : Outcome NoAssert (fun p => Good p.1) (bufhRecv b len received) := by
  cases received with
  | none =>
    obtain ⟨init, rb, hs, heq⟩ := recv_fail_eq hb hlen
    rw [heq]
    exact hs.good hb (Nat.zero_le len)
  | some bytes =>
    obtain ⟨init, rb, hs, heq⟩ := recv_eq hb hlen (hr bytes rfl)
    rw [heq]
    refine (write_fault _ _ _).map fun orig _ => ?_
    split
    · exact hs.good hb (Nat.zero_le len)
    · exact hs.good hb (hr bytes rfl)

theorem sizeWithNul_ok (str : List UInt8) :
    Outcome NoAssert (fun n => str.length < intMax ∧ n = str.length + 1) (sizeWithNul str) :=
  Outcome.ite (fun h => ⟨h, rfl⟩) (fun _ => by simp)

theorem vsprintf_good {b : Bufh} {str : List UInt8} (hb : Good b) : Outcome NoAssert Good (bufhVsprintf b str) := by
  by_cases hstr : str.length < intMax
  · obtain ⟨init, rb, hs, heq⟩ := vsprintf_eq hb hstr
    rw [heq]
    exact (write_fault _ _ _).map fun orig _ => hs.good hb (Nat.le_succ _)
  · simp [bufhVsprintf, sizeWithNul, hstr, bind, Except.bind]

/-- `rd_buf_vsprintf` makes a buffer that fits. -/
theorem bufVsprintf_fit (str : List UInt8) : Outcome NoAssert Fit (bufVsprintf str) := by
  refine Outcome.bind (sizeWithNul_ok str) fun n ⟨hstr, hn⟩ => ?_
  simp only [intMax] at hstr
  have hfit := bufNew_fit none false (show n < 2 ^ 32 by omega)
  have hle := le_bufNew_olen none n false
  refine Outcome.bind (write_fault _ _ _) fun orig _ => ⟨?_, hfit.olen_lt⟩
  show str.length ≤ (bufNew none n false).olen
  omega

theorem insert_good {b : Bufh} {rb : Buf} {after : Option Nat} (hb : Good b) (hrb : Fit rb)
    (ha : ∀ i ∈ after, i < b.bufs.length) : Good (bufhBufInsert b after rb) := by
  apply hb.insert hrb
  cases after with
  | none => exact List.Perm.refl _
  | some i => exact List.perm_insertIdx rb b.bufs (ha i rfl)

/-- **Every operation keeps both lengths consistent**, and fails no assertion. -/
theorem step_good {s : State} {op : Op} (hs : Consistent s) (hok : Ok s op) :
    Outcome NoAssert (fun p => Consistent p.1) (stepE s op) := by
  cases op with
  | new h free => exact hs.update_some h ⟨by simp [bufhNew], rfl⟩
  | append h data len owner =>
    refine Outcome.bind (headAt_ok s h) fun b hb => ?_
    exact Outcome.bind (append_good (hs h b hb) hok.2.1) fun b' hb' => hs.update_some h hb'
  | prepend h data len owner =>
    refine Outcome.bind (headAt_ok s h) fun b hb => ?_
    exact hs.update_some h (insert_good (hs h b hb) (bufNew_fit _ _ hok.2.1) (by simp))
  | sprintf h str =>
    refine Outcome.bind (headAt_ok s h) fun b hb => ?_
    exact Outcome.bind (vsprintf_good (hs h b hb)) fun b' hb' => hs.update_some h hb'
  | recv h len received =>
    refine Outcome.bind (headAt_ok s h) fun b hb => ?_
    exact Outcome.bind (recv_good (hs h b hb) hok.2.1 hok.2.2) fun b' hb' => hs.update_some h hb'
  | move dst src =>
    refine Outcome.bind (headAt_ok s dst) fun d hd => Outcome.bind (headAt_ok s src) fun r hr => ?_
    have hm := move_good (hs dst d hd) (hs src r hr)
    exact (hs.update_some dst hm.1).update_some src hm.2
  | insert h after str =>
    refine Outcome.bind (bufVsprintf_fit str) fun rb hrb => Outcome.bind (headAt_ok s h) fun b hb => ?_
    have ha : ∀ i ∈ after, i < b.bufs.length := by simpa [bufsOf, hb] using hok.2.2
    exact hs.update_some h (insert_good (hs h b hb) hrb ha)
  | bufDestroy h i =>
    refine Outcome.bind (headAt_ok s h) fun b hb => ?_
    exact Outcome.bind (bufDestroy_good (hs h b hb)) fun b' hb' => hs.update_some h hb'.1
  | destroy h =>
    refine Outcome.bind (headAt_ok s h) fun b hb => ?_
    exact Outcome.bind (bufhDestroy_good (hs h b hb)) fun o ho => hs.update h ho

theorem machine_step_some {s s' : State} {op : Op} {o : Bool} :
    machine.step s op = some (s', o) ↔ stepE s op = .ok (s', o) := by
  cases h : stepE s op <;> simp [machine, h, Except.toOption]

/-- **Lengths are consistent in every state of every run, and no assertion fails**: not in the run, and not in any
operation called next. A run ends where an `int` overflows, in an `sprintf` of `INT_MAX` bytes. -/
theorem always_consistent (ops : List Op) (h : machine.Admits init ops) :
    machine.Always (fun s => Consistent s ∧ ∀ op, Ok s op → stepE s op ≠ .error .assertion) init ops := by
  have hsafe (s : State) (hs : Consistent s) :
      Consistent s ∧ ∀ op, Ok s op → stepE s op ≠ .error .assertion := by
    refine ⟨hs, fun op hok herr => ?_⟩
    have hstep := step_good hs hok
    rw [herr] at hstep
    exact hstep rfl
  have hkeep (s : State) (op : Op) (s' : State) (o : Bool) (hs : Consistent s) (hok : Ok s op)
      (hrun : machine.step s op = some (s', o)) : Consistent s' := by
    have hstep := step_good hs hok
    rw [machine_step_some.1 hrun] at hstep
    exact hstep
  exact Machine.always_inv hsafe hkeep ops init (fun h b hb => nomatch hb) h

theorem always_consistent_moved :
    machine.Always (fun s => Consistent s ∧ ∀ op, Ok s op → stepE s op ≠ .error .assertion) init
      [.new 0 true, .new 1 false, .append 0 (some [1, 2, 3]) 3 false, .prepend 0 none 8 false, .recv 0 9 (some [4]),
        .insert 1 none [5], .move 0 1, .bufDestroy 0 1, .destroy 0] :=
  always_consistent _ (by decide)

end Librd.Bufs
