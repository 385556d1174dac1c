import Librd.Gz.Gz

/-!
# Decompression: the passes

The scratch buffer of the first pass is filled once. What does not fit is never produced: `inflate` is called again and
again with no space left (`inflateLoop_stuck`). The same happens at the end of truncated data when the buffer is full,
as it is in the second pass, which has exactly the space for what the first one counted.

* `returns_iff`: the inputs for which the function returns;
* `truncated_null_iff`: when it returns `NULL` for truncated data;
* `preset_not_text`: with the length given, no buffer is allocated, and the function returns `NULL`.
-/

namespace Librd.Gz

variable {σ : Type*} {Z : Env σ} {rest : σ → Bytes} {ending : σ → Ending}

/-! ## Loops -/

section Loops

variable {s : σ} {m : Bytes} {p total n fuel : Nat}

/-- With no space left there is no end: output remains, or the data is truncated. -/
def Stuck (rest : σ → Bytes) (ending : σ → Ending) (s : σ) : Prop := rest s ≠ [] ∨ ending s = .truncated

theorem not_failed_of_more {r : Ret} (h : r = .ok ∨ r = .bufError) : ¬r.failed = true ∧ r ≠ .streamEnd := by
  rcases h with rfl | rfl <;> decide

theorem Stuck.more (hZ : Documented Z rest ending) (h : Stuck rest ending s) :
    (Z.inflate s true 0).r = .ok ∨ (Z.inflate s true 0).r = .bufError := by
  rcases h with hrest | htrunc
  · exact hZ.more s 0 (List.length_pos_of_ne_nil hrest)
  · exact hZ.truncated s 0 htrunc

theorem Stuck.next (hZ : Documented Z rest ending) (h : Stuck rest ending s) :
    Stuck rest ending (Z.inflate s true 0).strm := by
  rw [Stuck, hZ.rest_eq, hZ.ending_eq, List.drop_zero]
  exact h

/-- **A full buffer**: the loop does not end. -/
theorem inflateLoop_stuck (hZ : Documented Z rest ending) (h : Stuck rest ending s) :
    inflateLoop Z fuel s (some m) p 0 total = none := by
  induction fuel generalizing s m p total with
  | zero => rfl
  | succ fuel ih =>
    obtain ⟨hf, hend⟩ := not_failed_of_more (h.more hZ)
    have hstep : inflateLoop Z (fuel + 1) s (some m) p (0 : Nat) total = _ := inflateLoop_succ hZ (by decide)
    rw [Nat.cast_zero] at hstep
    rw [hstep, if_neg hf, if_pos ⟨Nat.zero_le _, hend⟩]
    exact ih (h.next hZ)

/-- The buffer is filled before the end of the output, or at the end of truncated data. -/
theorem inflateLoop_diverges (hZ : Documented Z rest ending) (hn : n < 2 ^ 31)
    (h : n < (rest s).length ∨ n = (rest s).length ∧ ending s = .truncated) :
    inflateLoop Z fuel s (some m) p n total = none := by
  cases fuel with
  | zero => rfl
  | succ fuel =>
    have hmore : (Z.inflate s true n).r = .ok ∨ (Z.inflate s true n).r = .bufError := by
      rcases h with hlt | ⟨-, htrunc⟩
      · exact hZ.more s n hlt
      · exact hZ.truncated s n htrunc
    have hstuck : Stuck rest ending (Z.inflate s true n).strm := by
      rcases h with hlt | ⟨-, htrunc⟩
      · left
        rw [hZ.rest_eq]
        exact mt List.drop_eq_nil_iff.1 (Nat.not_le.2 hlt)
      · right
        rw [hZ.ending_eq]
        exact htrunc
    obtain ⟨hf, hend⟩ := not_failed_of_more hmore
    rw [inflateLoop_succ hZ hn, if_neg hf, if_pos ⟨by omega, hend⟩]
    exact inflateLoop_stuck hZ hstuck

/-- Space is left after the output: the loop ends after one call. -/
theorem inflateLoop_short (hZ : Documented Z rest ending) (hn : n < 2 ^ 31) (h : (rest s).length < n) :
    inflateLoop Z (fuel + 1) s (some m) p n total = if (Z.inflate s true n).r.failed then some none
      else some (some (some (store m p (rest s)), total + (rest s).length)) := by
  have htake : (rest s).take n = rest s := List.take_of_length_le (by omega)
  have hspace : ¬(n ≤ (rest s).length ∧ (Z.inflate s true n).r ≠ .streamEnd) := fun hle => by omega
  rw [inflateLoop_succ hZ hn, htake]
  simp only [if_neg hspace]

theorem store_nil : store m p [] = m := by simp [store]

/-- The output fills the buffer, and the end is not reported yet: the stream for the next call. -/
theorem inflateLoop_filled (fuel : Nat) (m : Bytes) (p total : Nat) (hZ : Documented Z rest ending)
    (hn : (rest s).length < 2 ^ 31)
    (hr : (Z.inflate s true (rest s).length).r = .ok) : ∃ s', rest s' = [] ∧ ending s' = ending s ∧
      inflateLoop Z (fuel + 1) s (some m) p (rest s).length total =
        inflateLoop Z fuel s' (some (store m p (rest s))) (p + (rest s).length) 0 (total + (rest s).length) := by
  refine ⟨(Z.inflate s true (rest s).length).strm, ?_, hZ.ending_eq s _, ?_⟩
  · rw [hZ.rest_eq, List.drop_length]
  · rw [inflateLoop_succ hZ hn, List.take_length, hr, if_neg (by decide), if_pos ⟨Nat.le_refl _, by decide⟩]

/-- Nothing is left to produce, and there is no space. -/
theorem inflateLoop_empty (hZ : Documented Z rest ending) (hrest : rest s = [])
    (hr : (Z.inflate s true 0).r.failed = true ∨ (Z.inflate s true 0).r = .streamEnd) :
    inflateLoop Z (fuel + 1) s (some m) p 0 total =
      if (Z.inflate s true 0).r.failed then some none else some (some (some m, total)) := by
  have hstep : inflateLoop Z (fuel + 1) s (some m) p (0 : Nat) total = _ := inflateLoop_succ hZ (by decide)
  rw [Nat.cast_zero, hrest, List.take_nil, store_nil] at hstep
  rw [hstep]
  rcases hr with hf | hend
  · rw [if_pos hf, if_pos hf]
  · rw [hend, if_neg (by decide), if_neg fun h => h.2 rfl, if_neg (by decide)]
    rfl

/-- The output fills the buffer: if the data is complete, the loop ends after one more call at the latest. -/
theorem inflateLoop_complete (hZ : Documented Z rest ending) (hn : (rest s).length < 2 ^ 31)
    (hend : ending s = .complete) : inflateLoop Z (fuel + 2) s (some m) p (rest s).length total =
      some (some (some (store m p (rest s)), total + (rest s).length)) := by
  rcases hZ.complete s _ hend (Nat.le_refl _) with hr | ⟨hr, -⟩
  · rw [inflateLoop_succ hZ hn, List.take_length, hr, if_neg (by decide), if_neg fun h => h.2 rfl]
  · obtain ⟨s', hrest, hend', hloop⟩ := inflateLoop_filled (fuel + 1) m p total hZ hn hr
    rcases hZ.complete s' 0 (hend'.trans hend) (by simp [hrest]) with hr' | ⟨-, hne⟩
    · rw [hloop, inflateLoop_empty hZ hrest (.inr hr'), hr', if_neg (by decide)]
    · exact absurd hrest hne

/-- The same for broken data, which makes it fail. -/
theorem inflateLoop_broken (hZ : Documented Z rest ending) (hn : (rest s).length < 2 ^ 31)
    (hend : ending s = .broken) : inflateLoop Z (fuel + 2) s (some m) p (rest s).length total = some none := by
  rcases hZ.broken s _ hend (Nat.le_refl _) with hr | ⟨hr, -⟩
  · rw [inflateLoop_succ hZ hn, if_pos hr]
  · obtain ⟨s', hrest, hend', hloop⟩ := inflateLoop_filled (fuel + 1) m p total hZ hn hr
    rcases hZ.broken s' 0 (hend'.trans hend) (by simp [hrest]) with hr' | ⟨-, hne⟩
    · rw [hloop, inflateLoop_empty hZ hrest (.inl hr'), if_pos hr']
    · exact absurd hrest hne

end Loops

/-! ## Passes -/

section Passes

variable {compressed m : Bytes} {fuel : Nat}

theorem runPass_closed {pass : Nat} {mem : Option Bytes} {len : Int} (h : ¬Opens Z pass) :
    runPass Z fuel pass compressed mem len = some none := by
  rw [runPass]
  by_cases hinit : Z.inflateInit2 pass = .ok
  · rw [if_neg (not_not.2 hinit), if_pos fun hheader => h ⟨hinit, hheader⟩]
  · rw [if_pos hinit]

theorem runPass_open {pass : Nat} {mem : Option Bytes} {len : Int} (h : Opens Z pass) :
    runPass Z fuel pass compressed mem len = inflateLoop Z fuel (Z.start compressed) mem 0 len 0 := by
  rw [runPass, if_neg (not_not.2 h.1), if_neg (not_not.2 h.2)]

theorem secondPass_closed {lenp : Nat} {mem : Option Bytes} (h : ¬Opens Z 2) :
    secondPass Z fuel compressed mem lenp = some (none, lenp) := by
  rw [secondPass, runPass_closed h]
  rfl

/-- The second pass has exactly the space for the output: it fills the buffer with complete data. -/
theorem secondPass_complete (hZ : Documented Z rest ending) (h : Opens Z 2)
    (hn : (rest (Z.start compressed)).length < 2 ^ 31) (hend : ending (Z.start compressed) = .complete) :
    secondPass Z (fuel + 2) compressed (some m) (rest (Z.start compressed)).length =
      some (some (store m 0 (rest (Z.start compressed))), (rest (Z.start compressed)).length) := by
  rw [secondPass, runPass_open h, toInt_of_lt hn, inflateLoop_complete hZ hn hend]
  rfl

/-- At the end of truncated data the buffer is full, and the second pass does not end. -/
theorem secondPass_truncated (hZ : Documented Z rest ending) (h : Opens Z 2)
    (hn : (rest (Z.start compressed)).length < 2 ^ 31) (hend : ending (Z.start compressed) = .truncated) :
    secondPass Z fuel compressed (some m) (rest (Z.start compressed)).length = none := by
  rw [secondPass, runPass_open h, toInt_of_lt hn, inflateLoop_diverges hZ hn (.inr ⟨rfl, hend⟩)]
  rfl

/-- What follows a first pass that counted `totalOut` bytes. -/
def afterFirst (Z : Env σ) (fuel : Nat) (compressed : Bytes) (totalOut : Nat) : Option (Option Bytes × Nat) :=
  match Z.malloc (totalOut + 1) with
  | none => some (none, totalOut)
  | some block => secondPass Z fuel compressed (some (block.set totalOut 0)) totalOut

theorem gzDecompress_closed (h : ¬Opens Z 1) : gzDecompress Z fuel compressed 0 = some (none, 0) := by
  rw [gzDecompress, if_neg (not_not.2 rfl), runPass_closed h]
  rfl

theorem gzDecompress_open (h : Opens Z 1) : gzDecompress Z fuel compressed 0 =
    (inflateLoop Z fuel (Z.start compressed) (some (List.replicate 512 0)) 0 512 0).bind fun
      | none => some (none, 0)
      | some (_, totalOut) => afterFirst Z fuel compressed totalOut := by
  rw [gzDecompress, if_neg (not_not.2 rfl), runPass_open h]
  rfl

end Passes

/-! ## Whole calls -/

section Calls

variable {compressed : Bytes}

/-- `inflate` fails on broken data only. -/
theorem broken_of_failed {s : σ} {n : Nat} (hZ : Documented Z rest ending) (hle : (rest s).length ≤ n)
    (hf : (Z.inflate s true n).r.failed = true) : ending s = .broken := by
  cases hend : ending s with
  | complete =>
    rcases hZ.complete s n hend hle with hr | ⟨hr, -⟩ <;> rw [hr] at hf <;> cases hf
  | truncated => exact absurd hf (not_failed_of_more (hZ.truncated s n hend)).1
  | broken => rfl

/-- The scratch buffer is not filled: the first pass counts the output, or fails with broken data. -/
theorem gzDecompress_short (fuel : Nat) (hZ : Documented Z rest ending) (hopen : Opens Z 1)
    (h : (rest (Z.start compressed)).length < 512) :
    gzDecompress Z (fuel + 1) compressed 0 = afterFirst Z (fuel + 1) compressed (rest (Z.start compressed)).length ∨
      ending (Z.start compressed) = .broken ∧ gzDecompress Z (fuel + 1) compressed 0 = some (none, 0) := by
  have hloop : inflateLoop Z (fuel + 1) (Z.start compressed) (some (List.replicate 512 0)) 0 (512 : Nat) 0 = _ :=
    inflateLoop_short hZ (by decide) h
  rw [gzDecompress_open hopen, show (512 : Int) = (512 : Nat) from rfl, hloop]
  by_cases hf : (Z.inflate (Z.start compressed) true 512).r.failed = true
  · rw [if_pos hf]
    exact .inr ⟨broken_of_failed hZ (Nat.le_of_lt h) hf, rfl⟩
  · rw [if_neg hf, Nat.zero_add]
    exact .inl rfl

/-- The output fills the scratch buffer. -/
theorem gzDecompress_exact (fuel : Nat) (hZ : Documented Z rest ending) (hopen : Opens Z 1)
    (h : (rest (Z.start compressed)).length = 512) (hend : ending (Z.start compressed) ≠ .truncated) :
    gzDecompress Z (fuel + 2) compressed 0 = afterFirst Z (fuel + 2) compressed (rest (Z.start compressed)).length ∨
      ending (Z.start compressed) = .broken ∧ gzDecompress Z (fuel + 2) compressed 0 = some (none, 0) := by
  have hlen : (512 : Int) = (rest (Z.start compressed)).length := by rw [h]; rfl
  rw [gzDecompress_open hopen, hlen]
  cases he : ending (Z.start compressed) with
  | complete =>
    rw [inflateLoop_complete hZ (by omega) he, Nat.zero_add]
    exact .inl rfl
  | truncated => exact absurd he hend
  | broken =>
    rw [inflateLoop_broken hZ (by omega) he]
    exact .inr ⟨rfl, rfl⟩

theorem afterFirst_no_malloc {fuel n : Nat} (h : Z.malloc (n + 1) = none) :
    afterFirst Z fuel compressed n = some (none, n) := by
  rw [afterFirst, h]

theorem afterFirst_malloc {fuel n : Nat} {block : Bytes} (h : Z.malloc (n + 1) = some block) :
    afterFirst Z fuel compressed n = secondPass Z fuel compressed (some (block.set n 0)) n := by
  rw [afterFirst, h]

theorem afterFirst_closed {fuel n : Nat} (h : Z.malloc (n + 1) = none ∨ ¬Opens Z 2) :
    afterFirst Z fuel compressed n = some (none, n) := by
  cases hm : Z.malloc (n + 1) with
  | none => exact afterFirst_no_malloc hm
  | some block =>
    rw [afterFirst_malloc hm]
    exact secondPass_closed (h.resolve_left (by simp [hm]))

/-- **Truncated data**: the second pass does not end. -/
theorem afterFirst_truncated {fuel : Nat} {block : Bytes} (hZ : Documented Z rest ending) (hopen : Opens Z 2)
    (hm : Z.malloc ((rest (Z.start compressed)).length + 1) = some block)
    (hn : (rest (Z.start compressed)).length < 2 ^ 31) (hend : ending (Z.start compressed) = .truncated) :
    afterFirst Z fuel compressed (rest (Z.start compressed)).length = none := by
  rw [afterFirst_malloc hm]
  exact secondPass_truncated hZ hopen hn hend

/-- **Complete data**: the second pass gives the text, with a NUL after it. -/
theorem afterFirst_complete {fuel : Nat} {block : Bytes} (hZ : Documented Z rest ending) (hopen : Opens Z 2)
    (hm : Z.malloc ((rest (Z.start compressed)).length + 1) = some block)
    (hn : (rest (Z.start compressed)).length < 2 ^ 31) (hend : ending (Z.start compressed) = .complete) :
    afterFirst Z (fuel + 2) compressed (rest (Z.start compressed)).length =
      some (some (rest (Z.start compressed) ++ [0]), (rest (Z.start compressed)).length) := by
  have hlen := Z.malloc_length _ _ hm
  rw [afterFirst_malloc hm, secondPass_complete hZ hopen hn hend]
  generalize rest (Z.start compressed) = text at hlen
  have hnul : (block.set text.length 0).drop text.length = [0] := by
    rw [List.drop_set, if_neg (Nat.lt_irrefl _), Nat.sub_self]
    obtain ⟨b, hb⟩ := List.length_eq_one_iff.1 (show (block.drop text.length).length = 1 by simp [hlen])
    rw [hb]
    rfl
  rw [store, List.take_zero, List.nil_append, Nat.zero_add, hnul]

theorem gzDecompress_truncated {fuel : Nat} {block : Bytes} (hZ : Documented Z rest ending) (hopen : Opens Z 1)
    (hopen₂ : Opens Z 2) (hlt : (rest (Z.start compressed)).length < 512)
    (hm : Z.malloc ((rest (Z.start compressed)).length + 1) = some block)
    (hend : ending (Z.start compressed) = .truncated) : gzDecompress Z fuel compressed 0 = none := by
  cases fuel with
  | zero =>
    rw [gzDecompress_open hopen]
    rfl
  | succ fuel =>
    rcases gzDecompress_short fuel hZ hopen hlt with hfirst | ⟨hbroken, -⟩
    · exact hfirst.trans (afterFirst_truncated hZ hopen₂ hm (by omega) hend)
    · rw [hend] at hbroken
      cases hbroken

/-- **Truncated data**, with less than 512 bytes of output: the function returns `NULL` only if it fails before the
second loop. -/
theorem truncated_null_iff (hZ : Documented Z rest ending) (compressed : Bytes)
    (hend : ending (Z.start compressed) = .truncated) (hlt : (rest (Z.start compressed)).length < 512) :
    (∃ fuel lenp, gzDecompress Z fuel compressed 0 = some (none, lenp)) ↔
      ¬Opens Z 1 ∨ Z.malloc ((rest (Z.start compressed)).length + 1) = none ∨ ¬Opens Z 2 := by
  constructor
  · rintro ⟨fuel, lenp, hres⟩
    by_contra hcond
    obtain ⟨hopen, hcond⟩ := not_or.1 hcond
    obtain ⟨hm, hopen₂⟩ := not_or.1 hcond
    obtain ⟨block, hm⟩ := Option.ne_none_iff_exists'.1 hm
    rw [not_not] at hopen hopen₂
    cases (gzDecompress_truncated hZ hopen hopen₂ hlt hm hend).symm.trans hres
  · intro hcond
    by_cases hopen : Opens Z 1
    · have hclosed := hcond.resolve_left (not_not.2 hopen)
      rcases gzDecompress_short 0 hZ hopen hlt with hfirst | ⟨hbroken, -⟩
      · exact ⟨1, _, hfirst.trans (afterFirst_closed hclosed)⟩
      · rw [hend] at hbroken
        cases hbroken
    · exact ⟨0, _, gzDecompress_closed hopen⟩

/-- **Texts of at most 512 bytes**: the function gives the text. -/
theorem gzDecompress_text {block : Bytes} (fuel : Nat) (hZ : Documented Z rest ending) (hopen : Opens Z 1)
    (hopen₂ : Opens Z 2) (hle : (rest (Z.start compressed)).length ≤ 512)
    (hm : Z.malloc ((rest (Z.start compressed)).length + 1) = some block)
    (hend : ending (Z.start compressed) = .complete) : gzDecompress Z (fuel + 2) compressed 0 =
      some (some (rest (Z.start compressed) ++ [0]), (rest (Z.start compressed)).length) := by
  have hafter : afterFirst Z (fuel + 2) compressed _ = _ := afterFirst_complete hZ hopen₂ hm (by omega) hend
  have hbroken : ending (Z.start compressed) ≠ .broken := by rw [hend]; decide
  rcases Nat.lt_or_eq_of_le hle with hlt | heq
  · rcases gzDecompress_short (fuel + 1) hZ hopen hlt with hfirst | ⟨hb, -⟩
    · exact hfirst.trans hafter
    · exact absurd hb hbroken
  · rcases gzDecompress_exact fuel hZ hopen heq (by rw [hend]; decide) with hfirst | ⟨hb, -⟩
    · exact hfirst.trans hafter
    · exact absurd hb hbroken

/-- With a length given there is no buffer. -/
theorem gzDecompress_preset {fuel lenp : Nat} (hZ : Documented Z rest ending) (h : lenp ≠ 0) :
    gzDecompress Z (fuel + 1) compressed lenp = some (none, lenp) := by
  rw [gzDecompress, if_pos h]
  by_cases hopen : Opens Z 2
  · have hnull := hZ.null (Z.start compressed) (toUInt (toInt lenp))
    rw [secondPass, runPass_open hopen, inflateLoop]
    simp only [Option.isSome_none, hnull]
    rfl
  · exact secondPass_closed hopen

/-- With the length of the text given, the function returns the text, as it does with no length. -/
def SameText (Z : Env σ) (compressed text : Bytes) : Prop :=
  ∃ fuel, gzDecompress Z fuel compressed text.length = some (some (text ++ [0]), text.length) ∧
    gzDecompress Z fuel compressed 0 = some (some (text ++ [0]), text.length)

theorem not_sameText {text : Bytes} (hZ : Documented Z rest ending) (hne : text ≠ []) :
    ¬SameText Z compressed text := by
  rintro ⟨fuel, hpreset, -⟩
  have hlen : text.length ≠ 0 := by simpa using hne
  cases fuel with
  | zero =>
    rw [gzDecompress, if_pos hlen, secondPass] at hpreset
    by_cases hopen : Opens Z 2
    · rw [runPass_open hopen] at hpreset
      cases hpreset
    · rw [runPass_closed hopen] at hpreset
      cases hpreset
  | succ fuel =>
    rw [gzDecompress_preset hZ hlen] at hpreset
    cases hpreset

/-- **Known lengths**: whatever the text, it is not returned. -/
theorem preset_not_text (hZ : Documented Z rest ending) (compressed : Bytes) (hne : rest (Z.start compressed) ≠ []) :
    ¬SameText Z compressed (rest (Z.start compressed)) :=
  not_sameText hZ hne

end Calls

/-! ## Three inputs -/

section Inputs

/-- The data of `a` in the format of zlib. -/
def streamOfA : Bytes := [120, 156, 75, 4, 0, 0, 98, 0, 98]

/-- The data of 513 times `a`. -/
def streamOfAs : Bytes := [120, 156, 75, 76, 28, 5, 35, 26, 0, 0, 48, 207, 194, 98]

/-- What zlib makes of these, and of the first five bytes of `streamOfA`. -/
def outputOf (compressed : Bytes) : Bytes × Ending :=
  if compressed = streamOfA then ([97], .complete)
  else if compressed = streamOfA.take 5 then ([97], .truncated)
  else if compressed = streamOfAs then (List.replicate 513 97, .complete)
  else ([], .broken)

/-- The result of `inflate` with space for `n` bytes. -/
def resultOf (s : Bytes × Ending) (n : Nat) : Ret :=
  if n < s.1.length then if n = 0 then .bufError else .ok
  else
    match s.2 with
    | .complete => .streamEnd
    | .truncated => if s.1 = [] then .bufError else .ok
    | .broken => .dataError

/-- zlib on these inputs, with enough memory. -/
def zlib : Env (Bytes × Ending) where
  inflateInit2 _ := .ok
  inflateGetHeader _ := .ok
  start := outputOf
  inflate s nonNull n :=
    if nonNull then { r := resultOf s n, out := s.1.take n, strm := (s.1.drop n, s.2) }
    else { r := .streamError, out := [], strm := s }
  malloc n := some (List.replicate n 0)
  malloc_length n block h := by cases h; simp

theorem resultOf_more {s : Bytes × Ending} {n : Nat} (h : n < s.1.length ∨ s.2 = .truncated) :
    resultOf s n = .ok ∨ resultOf s n = .bufError := by
  rw [resultOf]
  rcases h with hlt | htrunc
  · rw [if_pos hlt]
    split <;> simp
  · simp only [htrunc]
    split
    · split <;> simp
    · split <;> simp

theorem zlib_documented : Documented zlib Prod.fst Prod.snd where
  out_eq _ _ := rfl
  rest_eq _ _ := rfl
  ending_eq _ _ := rfl
  more _ _ h := resultOf_more (.inl h)
  complete s n hend hle := .inl (by simp [zlib, resultOf, hend, Nat.not_lt.2 hle])
  truncated _ _ hend := resultOf_more (.inr hend)
  broken s n hend hle := .inl (by simp [zlib, resultOf, hend, Nat.not_lt.2 hle, Ret.failed])
  null _ _ := rfl

theorem preset_not_a : Documented zlib Prod.fst Prod.snd ∧ (zlib.start streamOfA).1 = [97] ∧
    ¬SameText zlib streamOfA (zlib.start streamOfA).1 :=
  ⟨zlib_documented, rfl, preset_not_text zlib_documented streamOfA (by decide)⟩

/-- The text of one byte is returned, but not to the caller that knows its length. -/
theorem preset_null_a : gzDecompress zlib 2 streamOfA 0 = some (some [97, 0], 1) ∧
    gzDecompress zlib 2 streamOfA 1 = some (none, 1) ∧ ¬SameText zlib streamOfA [97] :=
  ⟨rfl, rfl, not_sameText zlib_documented (by decide)⟩

/-- zlib on these inputs, with no memory for the buffer. -/
def noMemory : Env (Bytes × Ending) :=
  { zlib with
    malloc := fun _ => none
    malloc_length := fun _ _ h => by cases h }

theorem truncated_null_noMemory : Documented noMemory Prod.fst Prod.snd ∧
    ∃ fuel lenp, gzDecompress noMemory fuel (streamOfA.take 5) 0 = some (none, lenp) :=
  have hZ : Documented noMemory Prod.fst Prod.snd := { zlib_documented with }
  ⟨hZ, (truncated_null_iff hZ (streamOfA.take 5) (by decide) (by decide)).2 (.inr (.inl rfl))⟩

/-- Truncated data of one byte: the function does not return. -/
theorem truncated_diverges : (zlib.start (streamOfA.take 5)).2 = .truncated ∧
    ∀ fuel, gzDecompress zlib fuel (streamOfA.take 5) 0 = none :=
  ⟨rfl, fun _ => gzDecompress_truncated zlib_documented ⟨rfl, rfl⟩ ⟨rfl, rfl⟩ (by decide) rfl rfl⟩

end Inputs

end Librd.Gz
