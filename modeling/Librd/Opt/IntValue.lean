import Librd.Opt.Names

/-!
# Integer values

`rd_opt_parse_assign` should take a value for an integer option exactly if `strtol` reads all of it, and the result is
an `int` (`IsInt`). It only looks whether `strtol` reads anything: `12abc` is 12, and `4294967296` is 0, which is stored
(`assign_read`). So it does what it should exactly for values that are right, and for those of which nothing can be
read, as long as the message does not write outside of `ret` (`assigns_int_iff`).
-/

namespace Librd.Opt

/-! ## Messages that can be built -/

section Message

variable {m m' : Mem} {ro : RdOpt}

/-- The name of an option can be put in a message: with its arguments it does not get past the end of `ret`. -/
def NameFits (m : Mem) (ro : RdOpt) : Prop :=
  ro.roArgcnt = 0 ∨ (nameOf ro).length ≤ 4 ∨ rowOf m + (nameOf ro).length + " <...>".length + 1 ≤ namesSize

instance (m : Mem) (ro : RdOpt) : Decidable (NameFits m ro) := inferInstanceAs (Decidable (_ ∨ _ ∨ _))

/-- The places of the arguments after a name that is too long for its row. -/
theorem argPlaces_lt_iff {base n size : Nat} (hc : ro.roArgcnt ≠ 0) (hn : 4 < n) (hlt : n < 4 + 2 ^ 64)
    (hsize : size ≤ 2 ^ 32) :
    (∀ j ∈ places base 4 (argTexts ro) n, j < size) ↔ base + n + 7 ≤ size := by
  have htext : (" <...>".toList).length = 6 := rfl
  simp only [argTexts, pieceIf, if_pos hc, places, putPlaces, List.append_nil, htext, sizeLeft,
    if_neg (Nat.not_le.2 hn)]
  rw [if_neg (by omega)]
  simp only [List.mem_range'_1]
  constructor
  · intro h
    have hfirst := h (base + n) (by omega)
    have hlast := h (base + n + min 6 (2 ^ 64 - (n - 4) - 1)) (by omega)
    omega
  · intro h j hj
    omega

/-- A call of `rd_opt_syntaxname` returns exactly if the name fits. -/
theorem optSyntaxname_returns_iff (hc : CEntry ro) (hm : m.names.length = namesSize) :
    (∃ r, optSyntaxname m ro = .ok r) ↔ NameFits m ro := by
  have hrow := rowOf_lt m
  by_cases hfit : Fits ro
  · obtain ⟨m', name, h, -⟩ := hfit.returns hc hm
    exact iff_of_true ⟨_, h⟩ (hfit.imp_right .inl)
  · obtain ⟨hargs, hlong⟩ := not_or.1 hfit
    have hname : ∀ j ∈ places (rowOf m) 4 (nameTexts ro) 0, j < namesSize := by
      have hin := (@places_inside_iff (rowOf m) 4 0 (nameTexts ro) fun o ho => by
        have := nameTexts_offsets ro o ho
        omega).2 (nameTexts_offsets ro)
      intro j hj
      have := (hin j hj).2
      rw [namesSize]
      omega
    have hiff := @argPlaces_lt_iff ro (rowOf m) (nameOf ro).length namesSize hargs (by omega) (nameOf_length_lt hc)
      (by decide)
    rw [optSyntaxname_ok_iff, hm, namePlaces, List.forall_mem_cons, places_append, List.forall_mem_append,
      Nat.zero_add, and_iff_right (show rowOf m < namesSize by rw [namesSize]; omega), and_iff_right hname]
    refine hiff.trans ⟨fun h => .inr (.inr h), fun h => ?_⟩
    exact (h.resolve_left hargs).resolve_left hlong

/-- A message with the name of an option can be built exactly if the name fits, and changes nothing of the callers. -/
theorem optMessage_cases (hc : CEntry ro) (hm : m.names.length = namesSize) (size : Nat) (before : String)
    (after : CStr) :
    (NameFits m ro ∧ ∃ m' text, optMessage size m before ro after = .ok (m', text) ∧ m'.store = m.store) ∨
    (¬NameFits m ro ∧ ∃ e, optMessage size m before ro after = .error e) := by
  rw [← optSyntaxname_returns_iff hc hm]
  cases h : optSyntaxname m ro with
  | error e =>
    refine .inr ⟨fun ⟨r, hr⟩ => (nomatch hr), e, ?_⟩
    simp only [optMessage, h]
    rfl
  | ok r =>
    obtain ⟨m', name⟩ := r
    refine .inl ⟨⟨_, rfl⟩, ?_⟩
    have hread : cstrAt m'.names name = .ok ((syntaxOf ro).take 3) :=
      cstrAt_of_hasText (optSyntaxname_text h) fun hmem => nul_notMem_syntaxOf hc (List.mem_of_mem_take hmem)
    simp only [optMessage, h, hread, bind, Except.bind]
    exact ⟨m', _, rfl, (optSyntaxname_frame h).2.2.1⟩

end Message

/-! ## Values -/

/-- All of `v` is an integer for `strtol`, and it is an `int`. -/
def IsInt (v : CStr) : Prop :=
  (strtol v).2 ≠ 0 ∧ (strtol v).2 = v.length ∧ -2 ^ 31 ≤ (strtol v).1 ∧ (strtol v).1 < 2 ^ 31

instance (v : CStr) : Decidable (IsInt v) := inferInstanceAs (Decidable (_ ∧ _ ∧ _ ∧ _))

/-- What is stored for a value of which something was read. -/
def storedInt (ro : RdOpt) (v : CStr) : Int :=
  let n := Int.bmod (strtol v).1 (2 ^ 32)
  if bitTest ro.roType optBool then (if n ≠ 0 then 1 else 0) else n

/-- What `rd_opt_parse_assign` should do with `v` for an integer option whose value goes to `a`. -/
def AssignsInt (env : Env) (ro : RdOpt) (argv : List CStr) (argip a : Nat) (m : Mem) (v : CStr) : Prop :=
  (IsInt v → ∃ m', optParseAssign env ro argv argip (some a) m = .ok (m', none) ∧
    m'.store a = some (.int (strtol v).1)) ∧
  (¬IsInt v → ∃ m' text, optParseAssign env ro argv argip (some a) m = .ok (m', some text) ∧ m'.store a = m.store a)

section Assign

variable {env : Env} {ro : RdOpt} {argv : List CStr} {argip a : Nat} {m : Mem} {v : CStr}

/-- An option that takes an integer, which is the argument at `*argip`. -/
structure TakesInt (ro : RdOpt) (argv : List CStr) (argip : Nat) (v : CStr) : Prop where
  int : bitTest ro.roType optInt = true
  argcnt : ro.roArgcnt ≠ 0
  arg : argv[argip]? = some v

theorem bitTest_or {t x y : BitVec 32} (h : bitTest t x = true) : bitTest t (x ||| y) = true := by
  unfold bitTest at *
  rw [decide_eq_true_eq] at *
  intro hzero
  rw [BitVec.and_or_distrib_left] at hzero
  exact h (BitVec.or_eq_zero_iff.1 hzero).1

/-- Whatever is read is stored. -/
theorem assign_read (h : TakesInt ro argv argip v) (hread : (strtol v).2 ≠ 0) :
    optParseAssign env ro argv argip (some a) m =
      .ok ({ m with store := fun a' => if a' = a then some (.int (storedInt ro v)) else m.store a' }, none) := by
  have hno : ¬(Int.bmod (strtol v).1 (2 ^ 32) = 0 ∧ (strtol v).2 = 0) := fun hz => hread hz.2
  simp only [optParseAssign, if_neg h.argcnt, h.arg, bitTest_or h.int, if_true, if_neg hno, storedInt]
  rfl

/-- Nothing is read: there is a message, if it can be built. -/
theorem assign_nothing (h : TakesInt ro argv argip v) (hread : (strtol v).2 = 0) :
    optParseAssign env ro argv argip (some a) m =
      (optMessage 512 m "Option " ro " requires integer argument".toList).map fun p => (p.1, some p.2) := by
  have hzero : Int.bmod (strtol v).1 (2 ^ 32) = 0 ∧ (strtol v).2 = 0 := ⟨by rw [strtol_zero hread]; rfl, hread⟩
  simp only [optParseAssign, if_neg h.argcnt, h.arg, bitTest_or h.int, if_true, if_pos hzero]
  cases optMessage 512 m "Option " ro " requires integer argument".toList <;> rfl

theorem bmod_eq_self_iff (n : Int) : Int.bmod n (2 ^ 32) = n ↔ -2 ^ 31 ≤ n ∧ n < 2 ^ 31 := by
  simp only [Int.bmod]
  split <;> omega

/-- What is stored is what was read, if that is an `int`; a boolean option stores 0 and 1 only. -/
theorem storedInt_eq_iff (hint : -2 ^ 31 ≤ (strtol v).1 ∧ (strtol v).1 < 2 ^ 31) :
    storedInt ro v = (strtol v).1 ↔ (bitTest ro.roType optBool = true → (strtol v).1 = 0 ∨ (strtol v).1 = 1) := by
  simp only [storedInt, (bmod_eq_self_iff _).2 hint]
  by_cases hb : bitTest ro.roType optBool = true
  · by_cases hz : (strtol v).1 = 0
    · simp [hb, hz]
    · simp [hb, hz, eq_comm]
  · simp [hb]

end Assign

/-- **`rd_opt_parse_assign` does with a value what it should exactly if the value is right** (for a boolean option: 0 or
1), **or if nothing can be read** and the name of the option fits in the message. -/
theorem assigns_int_iff (env : Env) {ro : RdOpt} {argv : List CStr} {argip : Nat} {v : CStr} {m : Mem} (a : Nat)
    (h : TakesInt ro argv argip v) (hc : CEntry ro) (hm : m.names.length = namesSize) :
    AssignsInt env ro argv argip a m v ↔
      (IsInt v ∧ (bitTest ro.roType optBool = true → (strtol v).1 = 0 ∨ (strtol v).1 = 1)) ∨
      ((strtol v).2 = 0 ∧ NameFits m ro) := by
  by_cases hread : (strtol v).2 = 0
  · have hnot : ¬IsInt v := fun hint => hint.1 hread
    have hiff : AssignsInt env ro argv argip a m v ↔ NameFits m ro := by
      rw [AssignsInt, assign_nothing h hread]
      rcases optMessage_cases hc hm 512 "Option " " requires integer argument".toList with
        ⟨hfit, m', text, hmsg, hstore⟩ | ⟨hfit, e, hmsg⟩
      · rw [hmsg]
        exact iff_of_true ⟨fun hint => absurd hint hnot, fun _ => ⟨m', text, rfl, by rw [hstore]⟩⟩ hfit
      · rw [hmsg]
        refine iff_of_false (fun hall => ?_) hfit
        obtain ⟨m', text, hok, -⟩ := hall.2 hnot
        cases hok
    rw [hiff]
    exact ⟨fun hfit => .inr ⟨hread, hfit⟩, fun hor => (hor.resolve_left fun hint => hnot hint.1).2⟩
  · rw [AssignsInt, assign_read h hread]
    constructor
    · intro hall
      by_cases hint : IsInt v
      · obtain ⟨m', heq, hstore⟩ := hall.1 hint
        cases heq
        refine .inl ⟨hint, (storedInt_eq_iff hint.2.2).1 ?_⟩
        simpa using hstore
      · obtain ⟨m', text, heq, -⟩ := hall.2 hint
        cases heq
    · rintro (⟨hint, hbool⟩ | ⟨hzero, -⟩)
      · refine ⟨fun _ => ⟨_, rfl, ?_⟩, fun hnot => absurd hint hnot⟩
        simpa using (storedInt_eq_iff hint.2.2).2 hbool
      · exact absurd hzero hread

theorem assigns_int_12 : AssignsInt sampleEnv intEntry [[], ['1', '2']] 1 0 sampleMem ['1', '2'] :=
  (assigns_int_iff sampleEnv 0 ⟨by decide, by decide, rfl⟩ ⟨by simp [intEntry], by simp [intEntry]⟩
    (by simp [sampleMem])).2 (.inl ⟨by decide, by decide⟩)

/-- `12abc` is taken for 12, and 4294967297 for 1. -/
theorem assigns_int_partly :
    ¬AssignsInt sampleEnv intEntry [[], "12abc".toList] 1 0 sampleMem "12abc".toList ∧
      ¬AssignsInt sampleEnv intEntry [[], "4294967297".toList] 1 0 sampleMem "4294967297".toList := by
  constructor
  · intro h
    obtain ⟨m', text, heq, -⟩ := h.2 (by decide)
    rw [assign_read ⟨by decide, by decide, rfl⟩ (by decide)] at heq
    cases heq
  · intro h
    obtain ⟨m', text, heq, -⟩ := h.2 (by decide)
    rw [assign_read ⟨by decide, by decide, rfl⟩ (by decide)] at heq
    cases heq

end Librd.Opt
