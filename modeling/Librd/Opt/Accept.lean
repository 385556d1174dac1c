import Librd.Lib.Outcome
import Librd.Opt.Opt

/-!
# What `rd_opt_parse` accepts

The scan as a step relation over positions (`ScanStep`): it skips empty arguments, and goes over an option that names an
entry of the table and over its value. A run of it up to an argument that is no option, with every required entry met,
is accepted (`Accepts`). The relation is deterministic (`scanStep_unique`), the loop of `rd_opt_parse` follows it
(`scanArgs_ok`), and returns a message or faults where it is stuck. So `NULL` is returned exactly for what is accepted,
with the final position in `*argip` (`optParse_accepts`).
-/

namespace Librd.Opt

open Librd.Bits Relation

/-! ## The specification -/

/-- The entries before the end of a table: at most 512, none with the bit `RD_OPT_END`, no `=` in a long name, no parser
of their own, and at most one of the first three groups. -/
structure WellFormed (entries : List RdOpt) : Prop where
  length_le : entries.length ≤ 512
  noEnd : ∀ ro ∈ entries, bitTest ro.roType optEnd = false
  noEq : ∀ ro ∈ entries, ∀ l ∈ ro.roLong, '=' ∉ l
  noParse : ∀ ro ∈ entries, ro.roParse = none
  oneGroup : ∀ ro ∈ entries, ro.roType &&& optMutMask ∈ [0, optMut1, optMut2, optMut3]

/-- An argument names an entry: `--N` for its long name, `-x` for its short name. What starts with `--` is
a long name. -/
def Names (ro : RdOpt) (arg : CStr) : Prop :=
  (∃ l, ro.roLong = some l ∧ arg = '-' :: '-' :: l) ∨
  (ro.roShort ≠ nul ∧ ro.roShort ≠ '-' ∧ arg = ['-', ro.roShort])

/-- As `Names`, but `--` may also be a short name. -/
def NamesAny (ro : RdOpt) (arg : CStr) : Prop :=
  (∃ l, ro.roLong = some l ∧ arg = '-' :: '-' :: l) ∨ (ro.roShort ≠ nul ∧ arg = ['-', ro.roShort])

/-- The type check of `rd_opt_parse_assign`. -/
def TypeOk (env : Env) (ro : RdOpt) (v : CStr) : Prop :=
  if bitTest ro.roType (optInt ||| optBool) then (strtol v).2 ≠ 0
  else if bitTest ro.roType optPath then env.stat v = none
  else if bitTest ro.roType optStr then v ≠ []
  else True

/-- The options seen so far: positions in the table, and entries. -/
abbrev Hits := List (Nat × RdOpt)

/-- A group was hit. -/
def GroupHit (hits : Hits) (g : Nat) : Prop := ∃ p ∈ hits, mutGrp p.2.roType = g

/-- The group of an entry, if it has one, was not hit. -/
def Free (hits : Hits) (ro : RdOpt) : Prop := mutGrp ro.roType ≠ 0 → ¬GroupHit hits (mutGrp ro.roType)

/-- Every required entry was seen, or its group was hit. -/
def ReqMet (entries : List RdOpt) (hits : Hits) : Prop :=
  ∀ k ro, entries[k]? = some ro → bitTest ro.roType optReq = true →
    k ∈ hits.map Prod.fst ∨ mutGrp ro.roType ≠ 0 ∧ GroupHit hits (mutGrp ro.roType)

/-- There is no option at a position: no argument at all, or one that does not start with `-`. -/
def Stops (argv : List CStr) (i : Nat) : Prop := ∀ arg, argv[i]? = some arg → ∃ c rest, arg = c :: rest ∧ c ≠ '-'

section Spec

variable (names : RdOpt → CStr → Prop) (env : Env) (entries : List RdOpt) (argv : List CStr)

/-- The first entry that an argument names. -/
structure First (arg : CStr) (k : Nat) (ro : RdOpt) : Prop where
  entry : entries[k]? = some ro
  named : names ro arg
  first : ∀ j < k, ∀ r, entries[j]? = some r → ¬names r arg

/-- One step over the arguments, from a position with the options seen so far. -/
inductive ScanStep : Nat × Hits → Nat × Hits → Prop
  | skip {i : Nat} {hits : Hits} : argv[i]? = some [] → ScanStep (i, hits) (i + 1, hits)
  | flag {i : Nat} {hits : Hits} {arg : CStr} {k : Nat} {ro : RdOpt} : argv[i]? = some arg →
      First names entries arg k ro → ro.roArgcnt = 0 → Free hits ro → ScanStep (i, hits) (i + 1, hits ++ [(k, ro)])
  | value {i : Nat} {hits : Hits} {arg v : CStr} {k : Nat} {ro : RdOpt} : argv[i]? = some arg →
      First names entries arg k ro → ro.roArgcnt ≠ 0 → argv[i + 1]? = some v →
      (ro.roOpaque ≠ none → TypeOk env ro v) → Free hits ro → ScanStep (i, hits) (i + 2, hits ++ [(k, ro)])

/-- A position that the scan gets to. -/
def Reached (i : Nat) (hits : Hits) : Prop := ReflTransGen (ScanStep names env entries argv) (1, []) (i, hits)

/-- The scan gets to a position without an option, and all that is required was seen. -/
def Accepts (stop : Nat) : Prop := ∃ hits, Reached names env entries argv stop hits ∧ Stops argv stop ∧
  ReqMet entries hits

end Spec

/-- No option that the scan gets to is `--help` or a short one with text attached. -/
def Plain (env : Env) (entries : List RdOpt) (argv : List CStr) : Prop :=
  ∀ i hits arg, Reached Names env entries argv i hits → argv[i]? = some arg →
    arg ≠ "--help".toList ∧ ∀ x y t, arg = '-' :: x :: y :: t → x = '-'

/-! ## The scan is deterministic -/

section Unique

variable {env : Env} {entries : List RdOpt} {argv : List CStr} {hits : Hits} {arg : CStr} {k k' : Nat} {ro ro' : RdOpt}

theorem names_dash {ro : RdOpt} : Names ro arg → ∃ rest, arg = '-' :: rest
  | .inl ⟨_, _, h⟩ => ⟨_, h⟩
  | .inr ⟨_, _, h⟩ => ⟨_, h⟩

theorem First.unique (h : First Names entries arg k ro) (h' : First Names entries arg k' ro') : k = k' ∧ ro = ro' := by
  have hk : k = k' := by
    rcases Nat.lt_trichotomy k k' with hlt | heq | hgt
    · exact absurd h.named (h'.first k hlt ro h.entry)
    · exact heq
    · exact absurd h'.named (h.first k' hgt ro' h'.entry)
  subst hk
  exact ⟨rfl, Option.some.inj (h.entry.symm.trans h'.entry)⟩

theorem scanStep_unique : Relator.RightUnique (ScanStep Names env entries argv) := by
  have hempty {i : Nat} (he : argv[i]? = some []) {arg : CStr} (ha : argv[i]? = some arg) {k : Nat} {ro : RdOpt}
      (hf : First Names entries arg k ro) : False := by
    obtain ⟨rest, hrest⟩ := names_dash hf.named
    rw [he, Option.some.injEq] at ha
    rw [← ha] at hrest
    cases hrest
  intro x y z hy hz
  cases hy with
  | skip he =>
    cases hz with
    | skip _ => rfl
    | flag ha hf => exact (hempty he ha hf).elim
    | value ha hf => exact (hempty he ha hf).elim
  | flag ha hf hc _ =>
    cases hz with
    | skip he => exact (hempty he ha hf).elim
    | flag ha' hf' _ _ =>
      obtain rfl := Option.some.inj (ha.symm.trans ha')
      obtain ⟨rfl, rfl⟩ := hf.unique hf'
      rfl
    | value ha' hf' hc' =>
      obtain rfl := Option.some.inj (ha.symm.trans ha')
      obtain ⟨rfl, rfl⟩ := hf.unique hf'
      exact absurd hc hc'
  | value ha hf hc =>
    cases hz with
    | skip he => exact (hempty he ha hf).elim
    | flag ha' hf' hc' _ =>
      obtain rfl := Option.some.inj (ha.symm.trans ha')
      obtain ⟨rfl, rfl⟩ := hf.unique hf'
      exact absurd hc' hc
    | value ha' hf' =>
      obtain rfl := Option.some.inj (ha.symm.trans ha')
      obtain ⟨rfl, rfl⟩ := hf.unique hf'
      rfl

/-- No step leads away from a position without an option. -/
theorem Stops.no_step {i : Nat} (h : Stops argv i) {y : Nat × Hits} : ¬ScanStep Names env entries argv (i, hits) y := by
  have hnamed {arg : CStr} (ha : argv[i]? = some arg) {ro : RdOpt} (hn : Names ro arg) : False := by
    obtain ⟨c, rest, rfl, hc⟩ := h arg ha
    obtain ⟨rest', hr⟩ := names_dash hn
    exact hc (List.cons.inj hr).1
  intro hstep
  cases hstep with
  | skip he =>
    obtain ⟨c, rest, hcons, -⟩ := h [] he
    cases hcons
  | flag ha hf _ _ => exact hnamed ha hf.named
  | value ha hf _ _ _ _ => exact hnamed ha hf.named

/-- The scan is stuck before an option. -/
def Stuck (env : Env) (entries : List RdOpt) (argv : List CStr) : Prop :=
  ∃ i hits, Reached Names env entries argv i hits ∧ ¬Stops argv i ∧ ∀ y, ¬ScanStep Names env entries argv (i, hits) y

/-- Two runs that cannot go on end at the same position. -/
theorem reached_unique {i i' : Nat} {hits' : Hits} (h : Reached Names env entries argv i hits)
    (h' : Reached Names env entries argv i' hits') (hi : ∀ y, ¬ScanStep Names env entries argv (i, hits) y)
    (hi' : ∀ y, ¬ScanStep Names env entries argv (i', hits') y) : i = i' ∧ hits = hits' := by
  have hend {x y : Nat × Hits} (hx : ∀ y, ¬ScanStep Names env entries argv x y)
      (hxy : ReflTransGen (ScanStep Names env entries argv) x y) : x = y := by
    rcases ReflTransGen.cases_head hxy with heq | ⟨z, hz, -⟩
    · exact heq
    · exact absurd hz (hx z)
  rcases ReflTransGen.total_of_right_unique scanStep_unique h h' with hr | hr
  · exact Prod.mk.inj (hend hi hr)
  · exact Prod.mk.inj (hend hi' hr).symm

theorem Accepts.unique {stop stop' : Nat} (h : Accepts Names env entries argv stop)
    (h' : Accepts Names env entries argv stop') : stop = stop' := by
  obtain ⟨hits, hreach, hstop, -⟩ := h
  obtain ⟨hits', hreach', hstop', -⟩ := h'
  exact (reached_unique hreach hreach' (fun y => hstop.no_step) fun y => hstop'.no_step).1

/-- Where the scan stops decides whether anything is accepted. -/
theorem accepts_iff {stop : Nat} (h : Reached Names env entries argv stop hits) (hstop : Stops argv stop) :
    (∃ stop', Accepts Names env entries argv stop') ↔ ReqMet entries hits := by
  constructor
  · rintro ⟨stop', hits', hreach', hstop', hreq⟩
    obtain ⟨-, rfl⟩ := reached_unique h hreach' (fun y => hstop.no_step) fun y => hstop'.no_step
    exact hreq
  · intro hreq
    exact ⟨stop, hits, h, hstop, hreq⟩

theorem Stuck.not_accepts (h : Stuck env entries argv) (stop : Nat) : ¬Accepts Names env entries argv stop := by
  rintro ⟨hits, hreach, hstop, -⟩
  obtain ⟨i, hits', hreach', hne, hno⟩ := h
  obtain ⟨rfl, -⟩ := reached_unique hreach hreach' (fun y => hstop.no_step) hno
  exact hne hstop

end Unique

/-! ## Messages -/

/-- The faults that are accesses outside of memory; `C` holds then. -/
abbrev Out (C : Prop) (e : Fault) : Prop := e = .memory ∧ C

section Messages

variable {C : Prop}

theorem poke_out (hC : C) (mem : List Char) (off : Nat) (cs : List Char) :
    Outcome (Out C) (fun _ => True) (poke mem off cs) :=
  Outcome.ite (fun _ => trivial) (fun _ => ⟨rfl, hC⟩)

theorem cstrAt_out (hC : C) (mem : List Char) (off : Nat) : Outcome (Out C) (fun _ => True) (cstrAt mem off) :=
  Outcome.ite (fun _ => trivial) (fun _ => ⟨rfl, hC⟩)

theorem put_out (hC : C) (base size : Nat) (text : CStr) (p : List Char × Nat) :
    Outcome (Out C) (fun _ => True) (put base size text p) := by
  refine Outcome.bind (P := fun _ => True) ?_ fun _ _ => trivial
  refine Outcome.ite (fun _ => trivial) fun _ => ?_
  exact Outcome.bind (poke_out hC _ _ _) fun _ _ => trivial

theorem putIf_out (hC : C) (c : Prop) [Decidable c] (base size : Nat) (text : CStr) (p : List Char × Nat) :
    Outcome (Out C) (fun _ => True) (putIf c base size text p) :=
  Outcome.ite (fun _ => put_out hC _ _ _ _) fun _ => trivial

theorem optSyntaxname_out (hC : C) (m : Mem) (ro : RdOpt) :
    Outcome (Out C) (fun _ => True) (optSyntaxname m ro) := by
  refine Outcome.bind (poke_out hC _ _ _) fun names _ => ?_
  refine Outcome.bind (putIf_out hC _ _ _ _ _) fun p _ => ?_
  refine Outcome.bind (putIf_out hC _ _ _ _ _) fun p _ => ?_
  exact Outcome.bind (putIf_out hC _ _ _ _ _) fun p _ => trivial

theorem optMessage_out (hC : C) (size : Nat) (m : Mem) (before : String) (ro : RdOpt) (after : CStr) :
    Outcome (Out C) (fun _ => True) (optMessage size m before ro after) := by
  refine Outcome.bind (optSyntaxname_out hC m ro) fun p _ => ?_
  exact Outcome.bind (cstrAt_out hC _ _) fun _ _ => trivial

theorem optSyntaxnames_out (hC : C) (env : Env) (m : Mem) (ro other : RdOpt) :
    Outcome (Out C) (fun _ => True) (optSyntaxnames env m ro other) := by
  refine Outcome.ite (fun _ => ?_) fun _ => ?_
  all_goals
    refine Outcome.bind (optSyntaxname_out hC _ _) fun p _ => ?_
    exact Outcome.bind (optSyntaxname_out hC _ _) fun _ _ => trivial

/-- While the offset is inside of a buffer, nothing is written outside of it. -/
theorem put_inside (mem : List Char) (base : Nat) {size of : Nat} (text : CStr) (hof : of ≤ size)
    (hmem : base + size ≤ mem.length) : ∃ q, put base size text (mem, of) = .ok q := by
  have hput : Outcome (fun _ => False) (fun _ => True) (put base size text (mem, of)) := by
    refine Outcome.bind (P := fun _ => True) ?_ fun _ _ => trivial
    refine Outcome.ite (fun _ => trivial) fun hsize => ?_
    refine Outcome.bind (P := fun _ => True) (Outcome.ite (fun _ => trivial) fun hout => hout ?_) fun _ _ => trivial
    have hleft : sizeLeft size of = size - of := if_pos hof
    simp only [List.length_append, List.length_take, List.length_singleton, hleft] at hsize ⊢
    omega
  obtain ⟨q, hq, -⟩ := hput.exists_ok
  exact ⟨q, hq⟩

end Messages

/-! ## The scan keeps track of the options seen -/

/-- `opts_found` and `mutro` hold the options seen. -/
structure Tracks (s : Scan) (hits : Hits) : Prop where
  max_eq : s.found.max = 512
  found : ∀ k, Bits.Mem s.found k ↔ k ∈ hits.map Prod.fst
  groups : ∀ g, 0 < g → g < 5 → ∃ r, s.mutro[g]? = some r ∧ (r.isSome = true ↔ GroupHit hits g)

/-- A reply that goes on satisfies `P`; where there is a message, or a fault, `C` holds. -/
def Replies {α : Type} (C : Prop) (P : Scan → α → Prop) : Except Fault (Reply α) → Prop :=
  Outcome (Out C) fun r => match r.2 with
    | .ok a => P r.1 a
    | .error _ => C

theorem Replies.mono {α : Type} {C C' : Prop} {P P' : Scan → α → Prop} {x : Except Fault (Reply α)}
    (hx : Replies C P x) (hC : C → C') (hP : ∀ s a, P s a → P' s a) : Replies C' P' x :=
  match x, hx with
  | .error _, hx => ⟨hx.1, hC hx.2⟩
  | .ok (_, .error _), hx => hC hx
  | .ok (s, .ok a), hx => hP s a hx

/-! ## The parts of the scan -/

section Parts

variable {env : Env} {entries : List RdOpt} {argv : List CStr} {hits : Hits} {s : Scan} {ro : RdOpt}

/-- An entry has a group if its bits say so, and then it is one of the indices of `mutro`. -/
theorem group_of_mask {t : BitVec 32} (h : t &&& optMutMask ∈ [0, optMut1, optMut2, optMut3]) :
    (bitTest t optMutMask = true ↔ mutGrp t ≠ 0) ∧ mutGrp t < 5 := by
  unfold bitTest mutGrp
  simp only [List.mem_cons, List.not_mem_nil, or_false] at h
  rcases h with h | h | h | h <;> rw [h] <;> decide

theorem groupHit_append {k g : Nat} :
    GroupHit (hits ++ [(k, ro)]) g ↔ GroupHit hits g ∨ mutGrp ro.roType = g := by
  simp [GroupHit, or_and_right, exists_or]

/-- The check of exclusion lets a free entry pass, and takes its group. -/
theorem checkMut_ok {k : Nat} (hs : Tracks s hits) (hg : ro.roType &&& optMutMask ∈ [0, optMut1, optMut2, optMut3]) :
    Replies (¬Free hits ro) (fun s' _ => Free hits ro ∧ s'.found = s.found ∧ s'.mem = s.mem ∧
      ∀ g, 0 < g → g < 5 → ∃ r, s'.mutro[g]? = some r ∧ (r.isSome = true ↔ GroupHit (hits ++ [(k, ro)]) g))
      (checkMut env ro s) := by
  obtain ⟨hmask, hlt⟩ := group_of_mask hg
  refine Outcome.ite (fun hbit => ?_) fun hbit => ?_
  · have hpos : 0 < mutGrp ro.roType := Nat.pos_of_ne_zero (hmask.1 hbit)
    obtain ⟨r, hr, hhit⟩ := hs.groups _ hpos hlt
    rw [hr]
    cases r with
    | some other =>
      have hnot : ¬Free hits ro := fun hfree => hfree (hmask.1 hbit) (hhit.1 rfl)
      refine Outcome.bind (optSyntaxnames_out hnot env s.mem ro other) fun p _ => ?_
      refine Outcome.bind (cstrAt_out hnot _ _) fun _ _ => ?_
      exact Outcome.bind (cstrAt_out hnot _ _) fun _ _ => hnot
    | none =>
      refine ⟨fun _ hg => (nomatch hhit.2 hg), rfl, rfl, fun g hg0 hg5 => ?_⟩
      rw [groupHit_append]
      by_cases hgg : mutGrp ro.roType = g
      · subst hgg
        refine ⟨some ro, ?_, by simp⟩
        rw [List.getElem?_set_self (List.getElem?_eq_some_iff.1 hr).1]
      · obtain ⟨r, hr', hhit'⟩ := hs.groups g hg0 hg5
        refine ⟨r, ?_, by simp [hhit', hgg]⟩
        rw [List.getElem?_set_ne hgg, hr']
  · have hzero : mutGrp ro.roType = 0 := by
      by_contra hne
      exact hbit (hmask.2 hne)
    refine ⟨fun hne => absurd hzero hne, rfl, rfl, fun g hg0 hg5 => ?_⟩
    obtain ⟨r, hr, hhit⟩ := hs.groups g hg0 hg5
    refine ⟨r, hr, ?_⟩
    rw [hhit, groupHit_append, hzero]
    exact ⟨.inl, fun h => h.resolve_right (by omega)⟩

theorem assign_flag (env : Env) (argv : List CStr) (argip : Nat) (target : Option Nat) (m : Mem)
    (h : ro.roArgcnt = 0) : ∃ m', optParseAssign env ro argv argip target m = .ok (m', none) := by
  simp only [optParseAssign, if_pos h]
  exact ⟨_, rfl⟩

/-- Nothing is read by `strtol` only with the result 0. -/
theorem strtol_zero {v : CStr} (h : (strtol v).2 = 0) : (strtol v).1 = 0 := by
  dsimp only [strtol] at h ⊢
  split
  · rfl
  · rename_i hds
    have hpos := List.length_pos_iff.2 hds
    rw [if_neg hds] at h
    dsimp only at h
    omega

/-- `rd_opt_parse_assign` returns `NULL` for a value exactly if it passes the type check. -/
theorem assign_value {C : Prop} {argip : Nat} {v : CStr} (target : Option Nat) (m : Mem) (h : ro.roArgcnt ≠ 0)
    (hv : argv[argip]? = some v) (hC : ¬TypeOk env ro v → C) :
    Outcome (Out C) (fun p => p.2 = none ↔ TypeOk env ro v) (optParseAssign env ro argv argip target m) := by
  unfold TypeOk at *
  unfold optParseAssign
  rw [if_neg h, hv]
  refine Outcome.ite (fun hint => ?_) fun hint => ?_
  · rw [if_pos hint] at hC ⊢
    refine Outcome.ite (fun hz => ?_) fun hz => ?_
    · have hbad : ¬(strtol v).2 ≠ 0 := not_not_intro hz.2
      exact Outcome.bind (optMessage_out (hC hbad) _ _ _ _ _) fun p _ => by simpa using hz.2
    · have hok : (strtol v).2 ≠ 0 := by
        intro hzero
        exact hz ⟨by rw [strtol_zero hzero]; rfl, hzero⟩
      simpa using hok
  · rw [if_neg hint] at hC ⊢
    refine Outcome.ite (fun hpath => ?_) fun hpath => ?_
    · rw [if_pos hpath] at hC ⊢
      cases hstat : env.stat v with
      | none => simp
      | some errno => exact Outcome.bind (optMessage_out (hC (by simp [hstat])) _ _ _ _ _) fun p _ => by simp
    · rw [if_neg hpath] at hC ⊢
      refine Outcome.ite (fun hstr => ?_) fun hstr => ?_
      · rw [if_pos hstr] at hC ⊢
        refine Outcome.ite (fun hnil => ?_) fun hnil => ?_
        · exact Outcome.bind (optMessage_out (hC (not_not_intro hnil)) _ _ _ _ _) fun p _ => by simpa using hnil
        · simpa using hnil
      · rw [if_neg hstr]
        simp

/-- The default parser takes a value of the right type, and leaves the position where it is. -/
theorem runParser_ok {newi : Nat} {v : CStr} (hp : ro.roParse = none)
    (hv : ro.roArgcnt ≠ 0 → argv[newi]? = some v) :
    Replies (ro.roArgcnt ≠ 0 ∧ ro.roOpaque ≠ none ∧ ¬TypeOk env ro v)
      (fun s' n => n = newi ∧ s'.found = s.found ∧ s'.mutro = s.mutro ∧
        (ro.roArgcnt ≠ 0 → ro.roOpaque ≠ none → TypeOk env ro v))
      (runParser env ro argv newi s) := by
  unfold runParser
  rw [hp]
  cases ho : ro.roOpaque with
  | none => exact ⟨rfl, rfl, rfl, fun _ hne => absurd rfl hne⟩
  | some target =>
    by_cases hc : ro.roArgcnt = 0
    · obtain ⟨m', hm'⟩ := assign_flag env argv newi (some target) s.mem hc
      simp only [hm']
      exact ⟨rfl, rfl, rfl, fun hne => absurd hc hne⟩
    · have hassign := assign_value (some target) s.mem hc (hv hc)
        fun hbad => (⟨hc, Option.some_ne_none target, hbad⟩ : _ ∧ _ ∧ ¬TypeOk env ro v)
      refine Outcome.bind hassign fun r hr => ?_
      obtain ⟨m', text⟩ := r
      cases text with
      | none => exact ⟨rfl, rfl, rfl, fun _ _ => hr.1 rfl⟩
      | some text => exact ⟨hc, Option.some_ne_none target, fun hok => nomatch hr.2 hok⟩

/-- A matched option is taken if its value is there and of the right type, and its group is free. -/
theorem takeOpt_ok {k newi : Nat} {val : Option CStr} {v : CStr} (hs : Tracks s hits) (hk : k ≤ 512)
    (hg : ro.roType &&& optMutMask ∈ [0, optMut1, optMut2, optMut3]) (hp : ro.roParse = none)
    (hflag : ro.roArgcnt = 0 → val = none) (hval : ro.roArgcnt ≠ 0 → val ≠ none → val = some v ∧ argv[newi]? = some v) :
    Replies ((ro.roArgcnt ≠ 0 ∧ val = none) ∨ ¬Free hits ro ∨ (ro.roArgcnt ≠ 0 ∧ ro.roOpaque ≠ none ∧ ¬TypeOk env ro v))
      (fun s' n => n = newi ∧ Free hits ro ∧ (ro.roArgcnt ≠ 0 → val = some v) ∧
        (ro.roArgcnt ≠ 0 → ro.roOpaque ≠ none → TypeOk env ro v) ∧ Tracks s' (hits ++ [(k, ro)]))
      (takeOpt env argv k ro val newi s) := by
  unfold takeOpt
  refine Outcome.ite (fun h => absurd (hflag h.1) h.2) fun _ => Outcome.ite (fun h => ?_) fun hv => ?_
  · exact Outcome.bind (optMessage_out (.inl h) _ _ _ _ _) fun p _ => .inl h
  · have hsome (hc : ro.roArgcnt ≠ 0) : val = some v ∧ argv[newi]? = some v := hval hc fun hn => hv ⟨hc, hn⟩
    refine Outcome.bind ((checkMut_ok (k := k) hs hg).mono (fun h => Or.inr (.inl h)) fun _ _ h => h) ?_
    rintro ⟨s1, text | _⟩ h1
    · exact h1
    obtain ⟨hfree, hfound, hmem, hgroups⟩ := h1
    apply Outcome.bind ((runParser_ok hp fun hc => (hsome hc).2).mono (fun h => Or.inr (.inr h)) fun _ _ h => h)
    rintro ⟨s2, text | n⟩ h2
    · exact h2
    obtain ⟨rfl, hfound2, hmut2, htype⟩ := h2
    have hmax : s2.found.max = 512 := by rw [hfound2, hfound, hs.max_eq]
    refine ⟨rfl, hfree, fun hc => (hsome hc).1, htype, ?_, fun j => ?_, fun g hg0 hg5 => ?_⟩
    · rw [max_set, hmax]
    · rw [mem_set (by rw [hmax]; exact hk), hfound2, hfound, hs.found]
      simp [or_comm]
    · rw [hmut2]
      exact hgroups g hg0 hg5

/-- `matchOpt` finds the first entry it takes, or gets to the end of the table. -/
theorem matchOpt_ok {final : RdOpt} (hf : final.roType = optEnd) (c : Char) (longopt : Option CStr) :
    ∀ {entries : List RdOpt} (roi : Nat), (∀ ro ∈ entries, bitTest ro.roType optEnd = false) →
      (matchOpt c longopt (entries ++ [final]) roi = .ok none ∧ ∀ ro ∈ entries, ¬Hit c longopt ro) ∨
      ∃ k ro, matchOpt c longopt (entries ++ [final]) roi = .ok (some (roi + k, ro)) ∧ entries[k]? = some ro ∧
        Hit c longopt ro ∧ ∀ j < k, ∀ r, entries[j]? = some r → ¬Hit c longopt r := by
  intro entries
  induction entries with
  | nil =>
    intro roi _
    exact .inl ⟨by simp [matchOpt, hf], by simp⟩
  | cons ro entries ih =>
    intro roi hend
    have hne : ro.roType ≠ optEnd := by
      intro h
      have := hend ro List.mem_cons_self
      rw [h] at this
      cases this
    by_cases hhit : Hit c longopt ro
    · refine .inr ⟨0, ro, ?_, rfl, hhit, fun j hj => absurd hj (Nat.not_lt_zero j)⟩
      rw [List.cons_append, matchOpt, if_neg hne, if_pos hhit, Nat.add_zero]
    · have hstep :
        matchOpt c longopt (ro :: entries ++ [final]) roi = matchOpt c longopt (entries ++ [final]) (roi + 1) := by
        rw [List.cons_append, matchOpt, if_neg hne, if_neg hhit]
      rw [hstep]
      rcases ih (roi + 1) fun r hr => hend r (List.mem_cons_of_mem ro hr) with
        ⟨heq, hno⟩ | ⟨k, r, heq, hk, hr, hfirst⟩
      · refine .inl ⟨heq, fun r hr => ?_⟩
        rcases List.mem_cons.1 hr with rfl | hr
        · exact hhit
        · exact hno r hr
      · refine .inr ⟨k + 1, r, by rw [heq, Nat.add_right_comm]; rfl, hk, hr, fun j hj r' hr' => ?_⟩
        cases j with
        | zero => exact Option.some.inj hr' ▸ hhit
        | succ j => exact hfirst j (by omega) r' hr'

/-- An option without text attached: it is taken apart as the entries name it, or it is a lone `-`. -/
theorem splitArg_ok {rest : CStr} (hplain : ∀ x y t, '-' :: rest = '-' :: x :: y :: t → x = '-') :
    (∃ c longopt, splitArg ('-' :: rest) = .ok (c, longopt, none) ∧ ∀ ro, Hit c longopt ro ↔ Names ro ('-' :: rest)) ∨
    splitArg ('-' :: rest) = .error .memory ∧ ∀ ro, ¬Names ro ('-' :: rest) := by
  match rest with
  | [] =>
    refine .inr ⟨rfl, fun ro hn => ?_⟩
    rcases hn with ⟨l, -, h⟩ | ⟨-, -, h⟩ <;> simp at h
  | x :: rest =>
    by_cases hx : x = '-'
    · subst hx
      refine .inl ⟨'-', some rest, rfl, fun ro => ?_⟩
      simp only [Hit, Names, reduceCtorEq, false_and, false_or, ne_eq, not_false_eq_true, true_and, List.cons.injEq]
      constructor
      · intro h
        exact .inl ⟨rest, h, rfl⟩
      · rintro (⟨l, h, rfl⟩ | ⟨-, hne, h, -⟩)
        · exact h
        · exact absurd h.symm hne
    · have hrest : rest = [] := by
        cases rest with
        | nil => rfl
        | cons y t => exact absurd (hplain x y t rfl) hx
      subst hrest
      refine .inl ⟨x, none, ?_, fun ro => ?_⟩
      · simp [splitArg, charAt, hx, bind, Except.bind, pure, Except.pure]
      · simp only [Hit, Names, true_and, ne_eq, not_true_eq_false, false_and, or_false, List.cons.injEq, and_true]
        constructor
        · rintro ⟨hne, rfl⟩
          exact .inr ⟨hne, hx, rfl⟩
        · rintro (⟨l, -, h, -⟩ | ⟨hne, -, h⟩)
          · exact absurd h hx
          · exact ⟨hne, h.symm⟩

/-- The value of an option without text attached is the next argument, if it takes one. -/
theorem optVal_eq {i : Nat} {longopt : Option CStr} (heq : ∀ l ∈ longopt, '=' ∉ l) :
    optVal argv i ro longopt none =
      if ro.roArgcnt ≠ 0 ∧ i + 1 < argv.length then (argv[i + 1]?, i + 1) else (none, i) := by
  cases longopt with
  | none => simp [optVal]
  | some l => simp [optVal, heq l rfl]

theorem Hit.noEq {c : Char} {longopt : Option CStr} (h : Hit c longopt ro) (hl : ∀ l ∈ ro.roLong, '=' ∉ l) :
    ∀ l ∈ longopt, '=' ∉ l := by
  rcases h with ⟨rfl, -⟩ | ⟨-, h⟩
  · simp
  · rwa [← h]

/-- A step from an option is over the first entry it names. -/
theorem ScanStep.inv {i k : Nat} {arg : CStr} {y : Nat × Hits} (harg : argv[i]? = some arg)
    (hfirst : First Names entries arg k ro) (hy : ScanStep Names env entries argv (i, hits) y) :
    Free hits ro ∧
      (ro.roArgcnt ≠ 0 → ∃ v, argv[i + 1]? = some v ∧ (ro.roOpaque ≠ none → TypeOk env ro v)) := by
  cases hy with
  | skip he =>
    obtain ⟨rest, hrest⟩ := names_dash hfirst.named
    rw [harg, hrest] at he
    cases he
  | flag ha hfirst' hc hfree =>
    obtain rfl := Option.some.inj (harg.symm.trans ha)
    obtain ⟨-, rfl⟩ := hfirst.unique hfirst'
    exact ⟨hfree, fun hne => absurd hc hne⟩
  | value ha hfirst' hc hv htype hfree =>
    obtain rfl := Option.some.inj (harg.symm.trans ha)
    obtain ⟨-, rfl⟩ := hfirst.unique hfirst'
    exact ⟨hfree, fun _ => ⟨_, hv, htype⟩⟩

/-- No step leads over an option that names no entry. -/
theorem ScanStep.named {i : Nat} {rest : CStr} {y : Nat × Hits} (harg : argv[i]? = some ('-' :: rest))
    (hy : ScanStep Names env entries argv (i, hits) y) : ∃ ro ∈ entries, Names ro ('-' :: rest) := by
  cases hy with
  | skip he => rw [harg] at he; cases he
  | flag ha hfirst _ _ =>
    obtain rfl := Option.some.inj (harg.symm.trans ha)
    exact ⟨_, List.mem_of_getElem? hfirst.entry, hfirst.named⟩
  | value ha hfirst _ _ _ _ =>
    obtain rfl := Option.some.inj (harg.symm.trans ha)
    exact ⟨_, List.mem_of_getElem? hfirst.entry, hfirst.named⟩

/-- The code takes a step of the scan from a position, or there is none. -/
def Follows (env : Env) (entries : List RdOpt) (argv : List CStr) (i : Nat) (hits : Hits) :
    Except Fault (Reply Nat) → Prop :=
  Replies (∀ y, ¬ScanStep Names env entries argv (i, hits) y) fun s' n =>
    i ≤ n ∧ n < argv.length ∧ ∃ hits', ScanStep Names env entries argv (i, hits) (n + 1, hits') ∧ Tracks s' hits'

/-- The first entry that is named is taken with the next argument as its value, if it takes one. -/
theorem takeFirst_ok {i k : Nat} {arg : CStr} (hw : WellFormed entries) (hs : Tracks s hits)
    (harg : argv[i]? = some arg) (hfirst : First Names entries arg k ro) {p : Option CStr × Nat}
    (hp : p = if ro.roArgcnt ≠ 0 ∧ i + 1 < argv.length then (argv[i + 1]?, i + 1) else (none, i)) :
    Follows env entries argv i hits (takeOpt env argv k ro p.1 p.2 s) := by
  have hmem := List.mem_of_getElem? hfirst.entry
  have hlen := (List.getElem?_eq_some_iff.1 harg).1
  have hk : k ≤ 512 := Nat.le_trans (Nat.le_of_lt (List.getElem?_eq_some_iff.1 hfirst.entry).1) hw.length_le
  by_cases hnext : ro.roArgcnt ≠ 0 ∧ i + 1 < argv.length
  · obtain ⟨v, hv⟩ : ∃ v, argv[i + 1]? = some v := ⟨_, List.getElem?_eq_getElem hnext.2⟩
    rw [if_pos hnext, hv] at hp
    subst hp
    refine (takeOpt_ok hs hk (hw.oneGroup ro hmem) (hw.noParse ro hmem) (fun hc => absurd hc hnext.1)
      fun _ _ => ⟨rfl, hv⟩).mono ?_ ?_
    · rintro (⟨-, hnone⟩ | hfree | ⟨hc, ho, htype⟩) y hy
      · cases hnone
      · exact hfree (hy.inv harg hfirst).1
      · obtain ⟨v', hv', htype'⟩ := (hy.inv harg hfirst).2 hc
        obtain rfl := Option.some.inj (hv.symm.trans hv')
        exact htype (htype' ho)
    · rintro s' n ⟨rfl, hfree, -, htype, htracks⟩
      exact ⟨Nat.le_succ _, hnext.2, _, .value harg hfirst hnext.1 hv (htype hnext.1) hfree, htracks⟩
  · rw [if_neg hnext] at hp
    subst hp
    have hnone {y : Nat × Hits} (hy : ScanStep Names env entries argv (i, hits) y) : ¬ro.roArgcnt ≠ 0 := by
      intro hc
      obtain ⟨v, hv, -⟩ := (hy.inv harg hfirst).2 hc
      exact hnext ⟨hc, (List.getElem?_eq_some_iff.1 hv).1⟩
    refine (takeOpt_ok (v := []) hs hk (hw.oneGroup ro hmem) (hw.noParse ro hmem) (fun _ => rfl)
      fun _ hne => absurd rfl hne).mono ?_ ?_
    · rintro (⟨hc, -⟩ | hfree | ⟨hc, -, -⟩) y hy
      · exact hnone hy hc
      · exact hfree (hy.inv harg hfirst).1
      · exact hnone hy hc
    · rintro s' n ⟨rfl, hfree, hval, -, htracks⟩
      have hc : ro.roArgcnt = 0 := by
        by_contra hne
        cases hval hne
      exact ⟨Nat.le_refl _, hlen, _, .flag harg hfirst hc hfree, htracks⟩

/-- **One option**: the code follows the scan. -/
theorem scanOpt_ok {final : RdOpt} {i : Nat} {rest : CStr} (hw : WellFormed entries) (hf : final.roType = optEnd)
    (hs : Tracks s hits) (harg : argv[i]? = some ('-' :: rest))
    (hplain : ∀ x y t, '-' :: rest = '-' :: x :: y :: t → x = '-') :
    Follows env entries argv i hits (scanOpt env (entries ++ [final]) argv i ('-' :: rest) s) := by
  rcases splitArg_ok hplain with ⟨c, longopt, hsplit, hnames⟩ | ⟨hsplit, hno⟩
  · refine Outcome.bind (P := fun p => p = (c, longopt, none)) (by rw [hsplit]; exact rfl) ?_
    rintro _ rfl
    rcases matchOpt_ok hf c longopt 0 hw.noEnd with ⟨hmatch, hno⟩ | ⟨k, ro, hmatch, hk, hhit, hfirst⟩
    · refine Outcome.bind (P := fun r => r = none) (by rw [hmatch]; exact rfl) ?_
      rintro _ rfl y hy
      obtain ⟨ro, hmem, hn⟩ := hy.named harg
      exact hno ro hmem ((hnames ro).2 hn)
    · rw [Nat.zero_add] at hmatch
      refine Outcome.bind (P := fun r => r = some (k, ro)) (by rw [hmatch]; exact rfl) ?_
      rintro _ rfl
      have hfirst' : First Names entries ('-' :: rest) k ro :=
        ⟨hk, (hnames ro).1 hhit, fun j hj r hr hn => hfirst j hj r hr ((hnames r).2 hn)⟩
      exact takeFirst_ok hw hs harg hfirst' (optVal_eq (hhit.noEq (hw.noEq ro (List.mem_of_getElem? hk))))
  · unfold scanOpt
    rw [hsplit]
    refine ⟨rfl, fun y hy => ?_⟩
    obtain ⟨ro, -, hn⟩ := hy.named harg
    exact hno ro hn

end Parts

/-! ## The whole scan -/

section Run

variable {env : Env} {entries : List RdOpt} {argv : List CStr} {final : RdOpt}

/-- **The loop over the arguments** follows the scan up to where it stops, or is stuck. -/
theorem scanArgs_ok (hw : WellFormed entries) (hf : final.roType = optEnd) (hplain : Plain env entries argv) :
    ∀ {fuel i : Nat} {hits : Hits} {s : Scan}, i ≤ max 1 argv.length → max 1 argv.length < fuel + i →
      Reached Names env entries argv i hits → Tracks s hits →
      Replies (Stuck env entries argv)
        (fun s' stop => ∃ hits', Reached Names env entries argv stop hits' ∧ Stops argv stop ∧ Tracks s' hits')
        (scanArgs env (entries ++ [final]) argv fuel i s) := by
  intro fuel
  induction fuel with
  | zero =>
    intro i hits s hi hfuel _ _
    omega
  | succ fuel ih =>
    intro i hits s hi hfuel hreach hs
    unfold scanArgs
    cases harg : argv[i]? with
    | none =>
      refine ⟨hits, hreach, fun arg h => ?_, hs⟩
      rw [harg] at h
      cases h
    | some arg =>
      have hlen := (List.getElem?_eq_some_iff.1 harg).1
      cases arg with
      | nil =>
        exact ih (by omega) (by omega) (hreach.tail (.skip harg)) hs
      | cons c rest =>
        refine Outcome.ite (fun hc => ?_) fun hc => ?_
        · refine ⟨hits, hreach, fun arg h => ?_, hs⟩
          exact ⟨c, rest, Option.some.inj (h.symm.trans harg), hc⟩
        · obtain rfl : c = '-' := not_not.1 hc
          obtain ⟨hhelp, htext⟩ := hplain i hits _ hreach harg
          refine Outcome.ite (fun h => absurd h hhelp) fun _ => ?_
          have hstops : ¬Stops argv i := by
            intro h
            obtain ⟨c, rest', heq, hc⟩ := h _ harg
            exact hc (List.cons.inj heq).1.symm
          refine Outcome.bind ((scanOpt_ok hw hf hs harg htext).mono
            (fun hno => ⟨i, hits, hreach, hstops, hno⟩) fun _ _ h => h) ?_
          rintro ⟨s1, text | n⟩ h1
          · exact h1
          · obtain ⟨hn, hnlen, hits', hstep, hs'⟩ := h1
            exact ih (by omega) (by omega) (hreach.tail hstep) hs'

/-- The entries of a part of the table, from a position on, are not required or were seen. -/
def Met (hits : Hits) (roi : Nat) (part : List RdOpt) : Prop :=
  ∀ k ro, part[k]? = some ro → bitTest ro.roType optReq = true →
    roi + k ∈ hits.map Prod.fst ∨ mutGrp ro.roType ≠ 0 ∧ GroupHit hits (mutGrp ro.roType)

theorem met_cons {hits : Hits} {roi : Nat} {ro : RdOpt} {part : List RdOpt} :
    Met hits roi (ro :: part) ↔
      (bitTest ro.roType optReq = true →
        roi ∈ hits.map Prod.fst ∨ mutGrp ro.roType ≠ 0 ∧ GroupHit hits (mutGrp ro.roType)) ∧
      Met hits (roi + 1) part := by
  constructor
  · intro h
    refine ⟨fun hreq => h 0 ro rfl hreq, fun k r hk hreq => ?_⟩
    rw [Nat.add_assoc, Nat.add_comm 1]
    exact h (k + 1) r hk hreq
  · rintro ⟨h0, h⟩ k r hk hreq
    cases k with
    | zero =>
      obtain rfl := Option.some.inj hk
      exact h0 hreq
    | succ k =>
      rw [Nat.add_comm k, ← Nat.add_assoc]
      exact h k r hk hreq

theorem satisfied_ok {s : Scan} {hits : Hits} {ro : RdOpt} (hs : Tracks s hits)
    (hg : ro.roType &&& optMutMask ∈ [0, optMut1, optMut2, optMut3]) (roi : Nat) :
    ∃ b, satisfied s ro roi = .ok b ∧
      (b = true ↔ roi ∈ hits.map Prod.fst ∨ mutGrp ro.roType ≠ 0 ∧ GroupHit hits (mutGrp ro.roType)) := by
  obtain ⟨hmask, hlt⟩ := group_of_mask hg
  unfold satisfied
  by_cases hfound : bitvecTest s.found roi ≠ 0
  · rw [if_pos hfound]
    exact ⟨true, rfl, fun _ => .inl ((hs.found roi).1 (test_ne_zero.1 hfound)), fun _ => rfl⟩
  · have hnot : roi ∉ hits.map Prod.fst := fun h => hfound (test_ne_zero.2 ((hs.found roi).2 h))
    rw [if_neg hfound]
    by_cases hbit : bitTest ro.roType optMutMask = true
    · obtain ⟨r, hr, hhit⟩ := hs.groups _ (Nat.pos_of_ne_zero (hmask.1 hbit)) hlt
      rw [if_pos hbit, hr]
      refine ⟨r.isSome, rfl, ?_⟩
      rw [hhit]
      exact ⟨fun h => .inr ⟨hmask.1 hbit, h⟩, fun h => (h.resolve_left hnot).2⟩
    · rw [if_neg hbit]
      refine ⟨false, rfl, iff_of_false Bool.false_ne_true ?_⟩
      rintro (h | ⟨hne, -⟩)
      · exact hnot h
      · exact hbit (hmask.2 hne)

theorem putMissing_out {C : Prop} (hC : C) (ro : RdOpt) (missed : Nat) (p : List Char × Nat) :
    Outcome (Out C) (fun _ => True) (putMissing ro missed p) := by
  refine Outcome.bind (put_out hC _ _ _ _) fun p _ => ?_
  refine Outcome.bind (putIf_out hC _ _ _ _ _) fun p _ => ?_
  exact Outcome.bind (putIf_out hC _ _ _ _ _) fun p _ => putIf_out hC _ _ _ _ _

/-- **The required options**: none is missed exactly if all are met. -/
theorem checkReqs_ok {s : Scan} {hits : Hits} (hf : final.roType = optEnd) (hs : Tracks s hits) :
    ∀ (part : List RdOpt) (roi missed : Nat) (p : List Char × Nat),
      (∀ ro ∈ part, bitTest ro.roType optEnd = false) →
      (∀ ro ∈ part, ro.roType &&& optMutMask ∈ [0, optMut1, optMut2, optMut3]) →
      Outcome (Out (¬Met hits roi part)) (fun q => missed ≤ q.2 ∧ (q.2 = missed ↔ Met hits roi part))
        (checkReqs s (part ++ [final]) roi missed p) := by
  intro part
  induction part with
  | nil =>
    intro roi missed p _ _
    have hend : bitTest final.roType optEnd = true := by rw [hf]; rfl
    rw [List.nil_append, checkReqs, if_pos hend]
    exact ⟨Nat.le_refl _, iff_of_true rfl fun k ro hk => nomatch hk⟩
  | cons ro part ih =>
    intro roi missed p hend hgroup
    have hrest (missed : Nat) (p : List Char × Nat) := ih (roi + 1) missed p
      (fun r hr => hend r (List.mem_cons_of_mem ro hr)) fun r hr => hgroup r (List.mem_cons_of_mem ro hr)
    rw [List.cons_append, checkReqs, if_neg (by rw [hend ro List.mem_cons_self]; exact Bool.false_ne_true)]
    obtain ⟨b, hb, hsat⟩ := satisfied_ok hs (hgroup ro List.mem_cons_self) roi
    by_cases hreq : bitTest ro.roType optReq = true
    · rw [if_neg (by simp [hreq])]
      refine Outcome.bind (P := fun r => r = b) (by rw [hb]; exact rfl) ?_
      rintro r rfl
      cases r with
      | true =>
        have hmet : Met hits roi (ro :: part) ↔ Met hits (roi + 1) part := by
          rw [met_cons]
          exact and_iff_right fun _ => hsat.1 rfl
        rw [hmet]
        exact hrest missed p
      | false =>
        have hmet : ¬Met hits roi (ro :: part) := by
          rw [met_cons]
          exact fun h => Bool.false_ne_true (hsat.2 (h.1 hreq))
        refine Outcome.bind (putMissing_out hmet ro missed p) fun p' _ => ?_
        refine (hrest (missed + 1) p').mono (fun e he => ⟨he.1, hmet⟩) fun q hq => ?_
        exact ⟨Nat.le_of_succ_le hq.1, iff_of_false (Nat.ne_of_gt hq.1) hmet⟩
    · have hmet : Met hits roi (ro :: part) ↔ Met hits (roi + 1) part := by
        rw [met_cons]
        exact and_iff_right fun h => absurd h hreq
      rw [if_pos (by simpa using hreq), hmet]
      exact hrest missed p

theorem init_tracks {found : Bitvec} {m : Mem} (h : bitvecInit 512 = some found) :
    Tracks { found := found, mutro := List.replicate (optMutNum + 1) none, mem := m } [] := by
  refine ⟨?_, fun k => iff_of_false (not_mem_init h) (by simp), fun g _ hg5 => ⟨none, ?_, ?_⟩⟩
  · obtain rfl := Option.some.inj h
    rfl
  · exact List.getElem?_replicate_of_lt hg5
  · exact iff_of_false Bool.false_ne_true fun ⟨p, hp, _⟩ => nomatch hp

/-- What `rd_opt_parse` gives for what is accepted, and for what is not. -/
def Answers (env : Env) (entries : List RdOpt) (argv : List CStr) (argip : Option Nat) (r : Parsed) : Prop :=
  (r.ret = none ∧ ∃ stop, Accepts Names env entries argv stop ∧ r.argip = argip.map fun _ => stop) ∨
  (r.ret ≠ none ∧ r.argip = argip ∧ ∀ stop, ¬Accepts Names env entries argv stop)

theorem finishParse_ok {s : Scan} {hits : Hits} {stop : Nat} (argip : Option Nat) (hw : WellFormed entries)
    (hf : final.roType = optEnd) (hreach : Reached Names env entries argv stop hits) (hstops : Stops argv stop)
    (hs : Tracks s hits) :
    Outcome (Out (∀ stop, ¬Accepts Names env entries argv stop)) (Answers env entries argv argip)
      (finishParse (entries ++ [final]) argip s stop) := by
  have hmet : Met hits 0 entries ↔ ReqMet entries hits := by simp only [Met, ReqMet, Nat.zero_add]
  have hnone (hno : ¬Met hits 0 entries) (stop' : Nat) : ¬Accepts Names env entries argv stop' := fun hacc =>
    hno (hmet.2 ((accepts_iff hreach hstops).1 ⟨stop', hacc⟩))
  obtain ⟨q, hq⟩ : ∃ q, put 0 1024 "Required option(s) missing:".toList (List.replicate 1024 nul, 0) = .ok q :=
    put_inside _ _ _ (Nat.zero_le _) (Nat.le_of_eq (by rw [List.length_replicate, Nat.zero_add]))
  unfold finishParse
  rw [hq]
  refine Outcome.bind (P := fun p => p = q) rfl ?_
  rintro _ rfl
  refine Outcome.bind ((checkReqs_ok hf hs entries 0 0 _ hw.noEnd hw.oneGroup).mono
    (fun e he => ⟨he.1, hnone he.2⟩) fun _ h => h) ?_
  rintro ⟨ret, missed⟩ ⟨-, hmissed⟩
  refine Outcome.ite (fun hne => ?_) fun heq => ?_
  · have hno := hnone fun h => hne (hmissed.2 h)
    exact Outcome.bind (cstrAt_out hno ret 0) fun text _ => .inr ⟨Option.some_ne_none text, rfl, hno⟩
  · have hreq := hmet.1 (hmissed.1 (not_not.1 heq))
    exact .inl ⟨rfl, stop, ⟨hits, hreach, hstops, hreq⟩, rfl⟩

theorem optParse_answers {fuel : Nat} (argip : Option Nat) (m : Mem) (hw : WellFormed entries)
    (hf : final.roType = optEnd) (hplain : Plain env entries argv) (hfuel : argv.length < fuel) :
    Outcome (Out (∀ stop, ¬Accepts Names env entries argv stop)) (Answers env entries argv argip)
      (optParse env fuel (entries ++ [final]) argv argip m) := by
  obtain ⟨found, hfound⟩ : ∃ found, bitvecInit 512 = some found := ⟨_, rfl⟩
  unfold optParse
  rw [hfound]
  refine Outcome.bind ((scanArgs_ok hw hf hplain (by omega) (by omega) ReflTransGen.refl (init_tracks hfound)).mono
    Stuck.not_accepts fun _ _ h => h) ?_
  rintro ⟨s, text | stop⟩ hs
  · exact .inr ⟨Option.some_ne_none text, rfl, hs⟩
  · obtain ⟨hits, hreach, hstops, htracks⟩ := hs
    exact finishParse_ok argip hw hf hreach hstops htracks

/-- **`rd_opt_parse` returns `NULL` exactly for what is accepted.** Then `*argip` is the final position, and it is not
touched where a message is returned. There is a result unless memory is accessed outside of its bounds. -/
theorem optParse_accepts (env : Env) {entries : List RdOpt} {final : RdOpt} {argv : List CStr} {fuel : Nat}
    (argip : Option Nat) (m : Mem) (hw : WellFormed entries) (hf : final.roType = optEnd)
    (hplain : Plain env entries argv) (hfuel : argv.length < fuel) :
    (∀ stop, Accepts Names env entries argv stop → ∃ m',
      optParse env fuel (entries ++ [final]) argv argip m = .ok ⟨none, argip.map fun _ => stop, m'⟩) ∧
    (∀ r, optParse env fuel (entries ++ [final]) argv argip m = .ok r → r.ret = none →
      ∃ stop, Accepts Names env entries argv stop ∧ r.argip = argip.map fun _ => stop) ∧
    (∀ r, optParse env fuel (entries ++ [final]) argv argip m = .ok r → r.ret ≠ none → r.argip = argip) ∧
    ∀ e, optParse env fuel (entries ++ [final]) argv argip m = .error e → e = .memory := by
  have hans := optParse_answers argip m hw hf hplain hfuel
  refine ⟨fun stop hacc => ?_, fun r hr hnull => ?_, fun r hr hmsg => ?_, fun e he => ?_⟩
  · cases hr : optParse env fuel (entries ++ [final]) argv argip m with
    | error e =>
      rw [hr] at hans
      exact absurd hacc (hans.2 stop)
    | ok r =>
      rw [hr] at hans
      rcases hans with ⟨hnull, stop', hacc', hargip⟩ | ⟨-, -, hno⟩
      · obtain rfl := hacc.unique hacc'
        obtain ⟨ret, argip', m'⟩ := r
        obtain rfl : ret = none := hnull
        obtain rfl : argip' = _ := hargip
        exact ⟨m', rfl⟩
      · exact absurd hacc (hno stop)
  · rw [hr] at hans
    rcases hans with ⟨-, hacc⟩ | ⟨hmsg, -⟩
    · exact hacc
    · exact absurd hnull hmsg
  · rw [hr] at hans
    rcases hans with ⟨hnull, -⟩ | ⟨-, hargip, -⟩
    · exact absurd hnull hmsg
    · exact hargip
  · rw [he] at hans
    exact hans.1

end Run

/-! ## An instance, and a name that is none -/

/-- A required flag in a group. -/
def flagEntry : RdOpt := { roType := optReq ||| optMut3, roShort := 'r', roLong := some ['r', 'e', 'q'] }

/-- An option that takes an integer. -/
def intEntry : RdOpt := { roType := optInt, roShort := 'n', roArgcnt := 1, roOpaque := some 0 }

/-- A value that looks like an option, an empty argument, and one that is no option. -/
def sampleArgs : List CStr := [[], ['-', 'n'], ['-', '1'], [], ['-', '-', 'r', 'e', 'q'], ['x']]

/-- An environment where every path exists. -/
def sampleEnv : Env := { stat := fun _ => none, strerror := fun _ => [], leftFirst := false }

/-- Nothing stored yet. -/
def sampleMem : Mem := { store := fun _ => none, names := List.replicate namesSize nul, i := 0 }

theorem sample_wellFormed : WellFormed [flagEntry, intEntry] := by
  constructor <;>
    simp [flagEntry, intEntry, bitTest, optEnd, optReq, optMut1, optMut2, optMut3, optInt, optMutMask]

theorem sample_plain : Plain sampleEnv [flagEntry, intEntry] sampleArgs := by
  intro i hits arg _ harg
  have hmem := List.mem_of_getElem? harg
  have hlen : ∀ arg ∈ sampleArgs, arg.length ≤ 2 ∨ arg = ['-', '-', 'r', 'e', 'q'] := by decide
  rcases hlen arg hmem with h | rfl
  · refine ⟨fun heq => ?_, fun x y t heq => ?_⟩
    · rw [heq] at h
      exact absurd h (by decide)
    · rw [heq] at h
      simp at h
  · exact ⟨by decide, fun x y t heq => (List.cons.inj (List.cons.inj heq).2).1.symm⟩

theorem sample_value : ScanStep Names sampleEnv [flagEntry, intEntry] sampleArgs (1, []) (3, [(1, intEntry)]) := by
  have harg : sampleArgs[1]? = some ['-', 'n'] := rfl
  have hval : sampleArgs[1 + 1]? = some ['-', '1'] := rfl
  show ScanStep Names sampleEnv [flagEntry, intEntry] sampleArgs (1, []) (1 + 2, [] ++ [(1, intEntry)])
  refine .value harg ⟨rfl, ?_, ?_⟩ (by decide) hval (fun _ => ?_) fun _ h => ?_
  · exact .inr ⟨by decide, by decide, rfl⟩
  · intro j hj r hr
    obtain rfl : j = 0 := by omega
    obtain rfl := Option.some.inj hr
    simp [Names, flagEntry]
  · simp only [TypeOk]
    rw [if_pos (by decide)]
    decide
  · simp [GroupHit] at h

theorem sample_flag (hits : Hits) (h : ¬GroupHit hits 4) :
    ScanStep Names sampleEnv [flagEntry, intEntry] sampleArgs (4, hits) (5, hits ++ [(0, flagEntry)]) := by
  have harg : sampleArgs[4]? = some ['-', '-', 'r', 'e', 'q'] := rfl
  refine .flag harg ⟨rfl, .inl ⟨_, rfl, rfl⟩, fun j hj => ?_⟩ rfl fun _ => h
  exact absurd hj (Nat.not_lt_zero j)

theorem sample_accepted : Accepts Names sampleEnv [flagEntry, intEntry] sampleArgs 5 := by
  refine ⟨[(1, intEntry), (0, flagEntry)], ?_, ?_, ?_⟩
  · exact ((ReflTransGen.single sample_value).tail (.skip rfl)).tail (sample_flag _ (by simp [GroupHit]; decide))
  · intro arg h
    obtain rfl := Option.some.inj h
    exact ⟨_, _, rfl, by decide⟩
  · intro k ro hk hreq
    have hlt := (List.getElem?_eq_some_iff.1 hk).1
    exact .inl (by match k, hlt with | 0, _ => decide | 1, _ => decide)

theorem optParse_accepts_sample :
    ∃ m', optParse sampleEnv 7 ([flagEntry, intEntry] ++ [{ roType := optEnd }]) sampleArgs (some 99) sampleMem =
      .ok ⟨none, some 5, m'⟩ :=
  (optParse_accepts sampleEnv (some 99) sampleMem sample_wellFormed rfl sample_plain (by decide)).1 5 sample_accepted

/-- A short name that cannot be given: `--` is a long option. -/
def dashEntry : RdOpt := { roShort := '-' }

/-- **`--` is never a short option**: the entry with the short name `-` is not found. -/
theorem dash_unknown :
    WellFormed [dashEntry] ∧ (∀ arg ∈ ([[], ['-', '-']] : List CStr), arg.length ≤ 2) ∧
    Accepts NamesAny sampleEnv [dashEntry] [[], ['-', '-']] 2 ∧
    ∃ r, optParse sampleEnv 3 ([dashEntry] ++ [{ roType := optEnd }]) [[], ['-', '-']] (some 99) sampleMem = .ok r ∧
      r.ret ≠ none := by
  refine ⟨?_, by decide, ⟨[(0, dashEntry)], ?_, ?_, ?_⟩, ⟨_, rfl, Option.some_ne_none _⟩⟩
  · constructor <;> simp [dashEntry, bitTest, optEnd]
  · have harg : ([[], ['-', '-']] : List CStr)[1]? = some ['-', '-'] := rfl
    refine ReflTransGen.single (.flag harg ⟨rfl, .inr ⟨by decide, rfl⟩, fun j hj => ?_⟩ rfl fun h => ?_)
    · exact absurd hj (Nat.not_lt_zero j)
    · exact absurd rfl h
  · intro arg h
    cases h
  · intro k ro hk hreq
    have hlt := (List.getElem?_eq_some_iff.1 hk).1
    exact .inl (by match k, hlt with | 0, _ => decide)

end Librd.Opt
