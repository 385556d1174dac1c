import Librd.Opt.Reads

/-!
# Mutual exclusion

The groups of an entry are a set of bits, which `rd_opt_parse` uses as they are as an index of `mutro`. An option that
is taken found the place at that index free, and takes it (`scanOpt_taken`), so no two options with the same set are
accepted (`scan_once`). But two different sets that have a group in common are two indices, and some sets are indices
outside of `mutro`. So tables with these sets of groups are safe, and keep their groups apart, exactly if all the sets
are indices of `mutro` and any two of them are equal or have nothing in common (`exclusive_iff`).

The indices that an iteration looks at are those of its accesses to `mutro` (`place_mem_iterReads`), and so it is for
the loop over the required options (`checkReqsReads_follows`).
-/

namespace Librd.Opt

open Librd.Bits

/-! ## Groups -/

/-- The groups of an entry. -/
def groups (ro : RdOpt) : BitVec 32 := ro.roType &&& optMutMask

/-- Two entries have a group in common. -/
def Shares (ro ro' : RdOpt) : Prop := groups ro &&& groups ro' ≠ 0

instance (ro ro' : RdOpt) : Decidable (Shares ro ro') := inferInstanceAs (Decidable (_ ≠ _))

/-- All sets of groups are indices of `mutro`, and any two of them are equal or have nothing in common. -/
structure Separated (entries : List RdOpt) : Prop where
  index : ∀ ro ∈ entries, mutGrp ro.roType < optMutNum + 1
  equal : ∀ ro ∈ entries, ∀ ro' ∈ entries, Shares ro ro' → groups ro = groups ro'

section Bits

variable {ro ro' : RdOpt}

theorem bitTest_mask : bitTest ro.roType optMutMask = true ↔ groups ro ≠ 0 := by
  simp [bitTest, groups]

theorem mutGrp_eq (ro : RdOpt) : mutGrp ro.roType = (groups ro).toNat / 16 := by
  rw [mutGrp, groups, BitVec.toNat_ushiftRight, Nat.shiftRight_eq_div_pow]

theorem mutGrp_groups (ro : RdOpt) : mutGrp (groups ro) = mutGrp ro.roType := by
  rw [mutGrp, groups, BitVec.and_assoc, BitVec.and_self]
  rfl

/-- An index outside of `mutro` is one of a group. -/
theorem mask_of_index (h : ¬mutGrp ro.roType < optMutNum + 1) : bitTest ro.roType optMutMask = true := by
  rw [bitTest_mask]
  intro hzero
  rw [mutGrp_eq, hzero] at h
  exact h (by decide)

/-- The index tells the groups. -/
theorem groups_eq_of_mutGrp (h : mutGrp ro.roType = mutGrp ro'.roType) : groups ro = groups ro' := by
  have hlow (ro : RdOpt) : (groups ro).toNat % 16 = 0 := by
    rw [groups, BitVec.toNat_and]
    exact (Nat.and_mod_two_pow (n := 4)).trans (by simp [optMutMask])
  rw [mutGrp_eq, mutGrp_eq] at h
  have h₁ := hlow ro
  have h₂ := hlow ro'
  apply BitVec.eq_of_toNat_eq
  omega

theorem Shares.groups_ne_zero (h : Shares ro ro') : groups ro' ≠ 0 := by
  intro hzero
  rw [Shares, hzero] at h
  exact h BitVec.and_zero

end Bits

/-! ## Indices of `mutro` -/

/-- The indices that the loop over the required options looks at. -/
def reqIndexes (s : Scan) : List RdOpt → Nat → List Nat
  | [], _ => []
  | ro :: ros, roi =>
    if bitTest ro.roType optEnd then []
    else if bitTest ro.roType optReq ∧ bitvecTest s.found roi = 0 ∧ bitTest ro.roType optMutMask then
      mutGrp ro.roType :: reqIndexes s ros (roi + 1)
    else reqIndexes s ros (roi + 1)

/-- `satisfied` with its access to `mutro`. -/
def satisfiedReads (s : Scan) (ro : RdOpt) (roi : Nat) : Reads Bool :=
  if bitvecTest s.found roi ≠ 0 then return true
  else if bitTest ro.roType optMutMask then do return (← readMut s (mutGrp ro.roType)).isSome
  else return false

/-- `checkReqs` with its accesses to `mutro`. -/
def checkReqsReads (s : Scan) : List RdOpt → Nat → Nat → List Char × Nat → Reads (List Char × Nat)
  | [], _, _, _ => .lift (.error .memory)
  | ro :: ros, roi, missed, p =>
    if bitTest ro.roType optEnd then return (p.1, missed)
    else if bitTest ro.roType optReq = false then checkReqsReads s ros (roi + 1) missed p
    else do
      if ← satisfiedReads s ro roi then checkReqsReads s ros (roi + 1) missed p
      else
        let p ← .lift (putMissing ro missed p)
        checkReqsReads s ros (roi + 1) (missed + 1) p

section Reqs

variable {s : Scan} {ro : RdOpt} {roi : Nat}

theorem satisfiedReads_res (s : Scan) (ro : RdOpt) (roi : Nat) :
    (satisfiedReads s ro roi).res = satisfied s ro roi := by
  unfold satisfiedReads satisfied
  split
  · rfl
  · split
    · rw [Traced.res_bind]
      cases hplace : s.mutro[mutGrp ro.roType]? with
      | none => simp only [readMut, hplace]; rfl
      | some r => simp only [readMut, hplace]; rfl
    · rfl

theorem satisfiedReads_log (s : Scan) (ro : RdOpt) (roi : Nat) : (satisfiedReads s ro roi).log =
    if bitvecTest s.found roi = 0 ∧ bitTest ro.roType optMutMask then [.place (mutGrp ro.roType)] else [] := by
  unfold satisfiedReads
  by_cases hfound : bitvecTest s.found roi = 0
  · rw [if_neg (not_not.2 hfound)]
    by_cases hbit : bitTest ro.roType optMutMask = true
    · rw [if_pos hbit, if_pos ⟨hfound, hbit⟩]
      cases hread : (readMut s (mutGrp ro.roType)).res with
      | error e => exact Traced.log_bind_error hread
      | ok r => exact Traced.log_bind_ok hread
    · rw [if_neg hbit, if_neg fun h => hbit h.2]
      rfl
  · rw [if_pos hfound, if_neg fun h => hfound h.1]
    rfl

/-- Without the accesses, the copy is the loop over the required options. -/
theorem checkReqsReads_res (s : Scan) (ros : List RdOpt) : ∀ (roi missed : Nat) (p : List Char × Nat),
    (checkReqsReads s ros roi missed p).res = checkReqs s ros roi missed p := by
  induction ros with
  | nil => intro roi missed p; rfl
  | cons ro ros ih =>
    intro roi missed p
    rw [checkReqsReads, checkReqs]
    split
    · rfl
    · split
      · exact ih (roi + 1) missed p
      · rw [Traced.res_bind, satisfiedReads_res]
        refine bind_congr fun b => ?_
        cases b with
        | true => exact ih (roi + 1) missed p
        | false =>
          rw [if_neg Bool.false_ne_true, if_neg Bool.false_ne_true, Traced.res_bind]
          exact bind_congr fun p => ih (roi + 1) (missed + 1) p

/-- The loop over the required options accesses the places of `mutro` with these indices, as far as it gets. -/
theorem checkReqsReads_follows (s : Scan) (ros : List RdOpt) : ∀ (roi missed : Nat) (p : List Char × Nat),
    (checkReqsReads s ros roi missed p).Follows ((reqIndexes s ros roi).map .place) := by
  induction ros with
  | nil => intro roi missed p; exact .lift _
  | cons ro ros ih =>
    intro roi missed p
    rw [checkReqsReads, reqIndexes]
    by_cases hend : bitTest ro.roType optEnd = true
    · rw [if_pos hend, if_pos hend]
      exact .lift _
    · rw [if_neg hend, if_neg hend]
      by_cases hreq : bitTest ro.roType optReq = false
      · rw [if_pos hreq, if_neg fun h => absurd (hreq.symm.trans h.1) Bool.false_ne_true]
        exact ih (roi + 1) missed p
      · have hown : (if bitTest ro.roType optReq ∧ bitvecTest s.found roi = 0 ∧ bitTest ro.roType optMutMask then
            mutGrp ro.roType :: reqIndexes s ros (roi + 1) else reqIndexes s ros (roi + 1)).map Access.place =
            (satisfiedReads s ro roi).log ++ (reqIndexes s ros (roi + 1)).map .place := by
          rw [satisfiedReads_log]
          simp only [eq_true_of_ne_false hreq, true_and]
          split <;> rfl
        rw [if_neg hreq, hown]
        refine .bind fun b _ => ?_
        cases b with
        | true => exact ih (roi + 1) missed p
        | false =>
          rw [if_neg Bool.false_ne_true]
          exact .bind fun p _ => ih (roi + 1) (missed + 1) p

end Reqs

/-- `mutro` is indexed inside of its bounds; and where the arguments are accepted, no two options among them belong to
entries with a group in common. -/
structure Exclusive (env : Env) (fuel : Nat) (ros : List RdOpt) (argv : List CStr) (argip : Option Nat) (m : Mem) :
    Prop where
  scan : ∀ v ∈ visits env ros argv fuel 1 (startOf m), ∀ g ∈ mutIndexes ros argv v, g < optMutNum + 1
  reqs : ∀ s stop, scanArgs env ros argv fuel 1 (startOf m) = .ok (s, .ok stop) →
    ∀ g ∈ reqIndexes s ros 0, g < optMutNum + 1
  once : ∀ r, optParse env fuel ros argv argip m = .ok r → r.ret = none →
    ((visits env ros argv fuel 1 (startOf m)).filterMap (matched ros argv)).Pairwise fun mt mt' => ¬Shares mt.ro mt'.ro

/-! ## An option that is taken -/

section Taken

variable {env : Env} {ros : List RdOpt} {argv : List CStr} {s s' : Scan} {ro : RdOpt}

/-- What the exclusion does with `mutro`: the place of the entry was free, if it has one, and is taken. -/
def Takes (s s' : Scan) (ro : RdOpt) : Prop :=
  (groups ro = 0 ∧ s'.mutro = s.mutro) ∨
  (groups ro ≠ 0 ∧ s.mutro[mutGrp ro.roType]? = some none ∧ s'.mutro = s.mutro.set (mutGrp ro.roType) (some ro))

theorem checkMut_takes (h : checkMut env ro s = .ok (s', .ok ())) : Takes s s' ro ∧ s'.found = s.found := by
  unfold checkMut at h
  split at h
  · next hbit =>
    split at h
    · cases h
    · obtain ⟨p, -, h⟩ := Outcome.exists_of_bind h
      obtain ⟨a, -, h⟩ := Outcome.exists_of_bind h
      obtain ⟨b, -, h⟩ := Outcome.exists_of_bind h
      cases h
    · next hfree =>
      cases h
      exact ⟨.inr ⟨bitTest_mask.1 hbit, hfree, rfl⟩, rfl⟩
  · next hbit =>
    cases h
    exact ⟨.inl ⟨by simpa [bitTest, groups] using hbit, rfl⟩, rfl⟩

theorem runParser_keeps {newi n : Nat} (h : runParser env ro argv newi s = .ok (s', .ok n)) :
    s'.mutro = s.mutro ∧ s'.found = s.found := by
  cases hparse : ro.roParse with
  | some parser =>
    simp only [runParser, hparse] at h
    generalize parser argv newi s.mem.store = res at h
    obtain ⟨r, n', store⟩ := res
    cases r with
    | some text => cases h
    | none =>
      cases h
      exact ⟨rfl, rfl⟩
  | none =>
    cases hopaque : ro.roOpaque with
    | some target =>
      simp only [runParser, hparse, hopaque] at h
      obtain ⟨⟨m, r⟩, -, h⟩ := Outcome.exists_of_bind h
      cases r with
      | some text => cases h
      | none =>
        cases h
        exact ⟨rfl, rfl⟩
    | none =>
      simp only [runParser, hparse, hopaque] at h
      cases h
      exact ⟨rfl, rfl⟩

theorem takeOpt_takes {roi newi n : Nat} {val : Option CStr}
    (h : takeOpt env argv roi ro val newi s = .ok (s', .ok n)) :
    Takes s s' ro ∧ s'.found = bitvecSet s.found roi := by
  unfold takeOpt at h
  split at h
  · obtain ⟨p, -, h⟩ := Outcome.exists_of_bind h
    cases h
  · split at h
    · obtain ⟨p, -, h⟩ := Outcome.exists_of_bind h
      cases h
    · obtain ⟨⟨s₁, r₁⟩, hmut, h⟩ := Outcome.exists_of_bind h
      cases r₁ with
      | error text => cases h
      | ok u =>
        obtain ⟨⟨s₂, r₂⟩, hrun, h⟩ := Outcome.exists_of_bind h
        cases r₂ with
        | error text => cases h
        | ok n' =>
          cases h
          obtain ⟨hmutro, hfound⟩ := runParser_keeps hrun
          obtain ⟨htakes, hfound'⟩ := checkMut_takes hmut
          unfold Takes at htakes ⊢
          rw [← hmutro] at htakes
          exact ⟨htakes, by rw [← hfound', ← hfound]⟩

/-- **An option that is taken** is in the table, its place in `mutro` was free, and it is marked as found. -/
theorem scanOpt_taken {argi n : Nat} {arg : CStr} (h : scanOpt env ros argv argi arg s = .ok (s', .ok n)) :
    ∃ mt, lookup ros argv argi arg = .ok (some mt) ∧ Takes s s' mt.ro ∧ s'.found = bitvecSet s.found mt.roi := by
  rw [scanOpt_eq] at h
  obtain ⟨r, hlook, h⟩ := Outcome.exists_of_bind h
  cases r with
  | none => cases h
  | some mt => exact ⟨mt, hlook, takeOpt_takes h⟩

/-- Entries that are found are in the table, before its end. -/
theorem matchOpt_getElem? {c : Char} {longopt : Option CStr} {k roi : Nat}
    (h : matchOpt c longopt ros roi = .ok (some (k, ro))) :
    ∃ j, k = roi + j ∧ ros[j]? = some ro ∧ ro.roType ≠ optEnd := by
  induction ros generalizing roi with
  | nil => cases h
  | cons r ros ih =>
    rw [matchOpt] at h
    split at h
    · cases h
    · next hend =>
      split at h
      · cases h
        exact ⟨0, rfl, rfl, hend⟩
      · obtain ⟨j, hk, hj, hne⟩ := ih h
        exact ⟨j + 1, by omega, hj, hne⟩

theorem lookup_getElem? {argi : Nat} {arg : CStr} {mt : Match} (h : lookup ros argv argi arg = .ok (some mt)) :
    ros[mt.roi]? = some mt.ro ∧ mt.ro.roType ≠ optEnd := by
  obtain ⟨⟨c, longopt, text⟩, -, h⟩ := Outcome.exists_of_bind h
  obtain ⟨r, hmatch, h⟩ := Outcome.exists_of_bind h
  cases r with
  | none => cases h
  | some q =>
    cases h
    obtain ⟨j, hk, hj, hne⟩ := matchOpt_getElem? hmatch
    rw [Nat.zero_add] at hk
    exact ⟨hk ▸ hj, hne⟩

theorem lookup_mem {argi : Nat} {arg : CStr} {mt : Match} (h : lookup ros argv argi arg = .ok (some mt)) :
    mt.ro ∈ ros ∧ mt.ro.roType ≠ optEnd :=
  (lookup_getElem? h).imp_left List.mem_of_getElem?

theorem matched_mem {v : Visit} {mt : Match} (h : matched ros argv v = some mt) :
    mt.ro ∈ ros ∧ mt.ro.roType ≠ optEnd := by
  unfold matched at h
  split at h
  · split at h
    · next hlook => exact lookup_mem (hlook.trans (by rw [h]))
    · cases h
  · cases h

end Taken

/-! ## Options that are accepted -/

/-- The entries seen so far are in the table, and their places in `mutro` are taken. -/
structure Seen (entries : List RdOpt) (s : Scan) (seen : List RdOpt) : Prop where
  mem : ∀ ro ∈ seen, ro ∈ entries
  taken : ∀ ro ∈ seen, groups ro ≠ 0 → ∃ other, s.mutro[mutGrp ro.roType]? = some (some other)

section Once

variable {env : Env} {entries : List RdOpt} {final : RdOpt} {argv : List CStr} {s s' : Scan} {seen : List RdOpt}

/-- A place in the table before its end. -/
theorem mem_entries {ro : RdOpt} (hf : final.roType = optEnd) (h : ro ∈ entries ++ [final] ∧ ro.roType ≠ optEnd) :
    ro ∈ entries := by
  rcases List.mem_append.1 h.1 with hmem | hmem
  · exact hmem
  · rw [List.mem_singleton.1 hmem] at h
    exact absurd hf h.2

/-- An option that is taken has no group in common with those seen. -/
theorem Takes.not_shares {ro : RdOpt} (hsep : Separated entries) (hseen : Seen entries s seen) (hro : ro ∈ entries)
    (h : Takes s s' ro) : ∀ r ∈ seen, ¬Shares r ro := by
  intro r hr hshares
  have heq := hsep.equal r (hseen.mem r hr) ro hro hshares
  have hne := hshares.groups_ne_zero
  obtain ⟨other, hother⟩ := hseen.taken r hr (heq ▸ hne)
  rw [mutGrp_eq, heq, ← mutGrp_eq] at hother
  rcases h with ⟨hzero, -⟩ | ⟨-, hfree, -⟩
  · exact hne hzero
  · rw [hfree] at hother
    cases hother

theorem Takes.seen_cons {ro : RdOpt} (hseen : Seen entries s seen) (hro : ro ∈ entries) (h : Takes s s' ro) :
    Seen entries s' (ro :: seen) := by
  refine ⟨List.forall_mem_cons.2 ⟨hro, hseen.mem⟩, List.forall_mem_cons.2 ⟨fun hne => ?_, fun r hr hne => ?_⟩⟩
  · rcases h with ⟨hzero, -⟩ | ⟨-, hfree, hset⟩
    · exact absurd hzero hne
    · exact ⟨ro, by rw [hset, List.getElem?_set_self (List.getElem?_eq_some_iff.1 hfree).1]⟩
  · obtain ⟨other, hother⟩ := hseen.taken r hr hne
    rcases h with ⟨-, hsame⟩ | ⟨-, hfree, hset⟩
    · exact ⟨other, by rw [hsame, hother]⟩
    · have hdiff : mutGrp ro.roType ≠ mutGrp r.roType := by
        intro heq
        rw [heq, hother] at hfree
        cases hfree
      exact ⟨other, by rw [hset, List.getElem?_set_ne hdiff, hother]⟩

/-- **No two options that the loop goes over have a group in common**, nor with those seen before. -/
theorem scan_once (hsep : Separated entries) (hf : final.roType = optEnd) :
    ∀ {fuel argi stop : Nat} {s s' : Scan} {seen : List RdOpt}, Seen entries s seen →
      scanArgs env (entries ++ [final]) argv fuel argi s = .ok (s', .ok stop) →
      ((visits env (entries ++ [final]) argv fuel argi s).filterMap (matched (entries ++ [final]) argv)).Pairwise
          (fun mt mt' => ¬Shares mt.ro mt'.ro) ∧
        ∀ mt ∈ (visits env (entries ++ [final]) argv fuel argi s).filterMap (matched (entries ++ [final]) argv),
          ∀ ro ∈ seen, ¬Shares ro mt.ro := by
  intro fuel
  induction fuel with
  | zero =>
    intro argi stop s s' seen _ h
    cases h
  | succ fuel ih =>
    intro argi stop s s' seen hseen h
    cases harg : argv[argi]? with
    | none =>
      rw [visits_none harg]
      simp
    | some arg =>
      cases hgo : goesOn env (entries ++ [final]) argv ⟨argi, arg, s⟩ with
      | none =>
        obtain ⟨hnot, -⟩ := scanArgs_end harg hgo h
        rw [visits_end harg hgo]
        simp [matched, hnot]
      | some p =>
        obtain ⟨argi', s₁⟩ := p
        rw [scanArgs_visit harg hgo] at h
        rw [visits_next harg hgo]
        rcases goesOn_cases hgo with ⟨hnot, hsame⟩ | ⟨hopt, n, hscan⟩
        · have hmatched : matched (entries ++ [final]) argv ⟨argi, arg, s⟩ = none := if_neg hnot
          rw [List.filterMap_cons_none hmatched]
          exact ih (hsame ▸ hseen) h
        · -- the option of this iteration is seen by all the later ones
          obtain ⟨mt, hlook, htakes, -⟩ := scanOpt_taken hscan
          have hmem := mem_entries hf (lookup_mem hlook)
          have hmatched : matched (entries ++ [final]) argv ⟨argi, arg, s⟩ = some mt := by
            rw [matched, if_pos hopt, hlook]
          obtain ⟨hpair, hsees⟩ := ih (htakes.seen_cons hseen hmem) h
          rw [List.filterMap_cons_some hmatched]
          refine ⟨List.pairwise_cons.2 ⟨fun mt' hmt' => hsees mt' hmt' mt.ro List.mem_cons_self, hpair⟩, ?_⟩
          rw [List.forall_mem_cons]
          exact ⟨htakes.not_shares hsep hseen hmem, fun mt' hmt' ro hro =>
            hsees mt' hmt' ro (List.mem_cons_of_mem mt.ro hro)⟩

theorem reqIndexes_mem (hf : final.roType = optEnd) {g roi : Nat} {part : List RdOpt}
    (h : g ∈ reqIndexes s (part ++ [final]) roi) : ∃ ro ∈ part, g = mutGrp ro.roType := by
  induction part generalizing roi with
  | nil =>
    have hend : bitTest final.roType optEnd = true := by
      rw [hf]
      rfl
    simp [reqIndexes, hend] at h
  | cons ro part ih =>
    rw [List.cons_append, reqIndexes] at h
    split at h
    · cases h
    · split at h
      · rcases List.mem_cons.1 h with heq | h
        · exact ⟨ro, List.mem_cons_self, heq⟩
        · obtain ⟨r, hr, heq⟩ := ih h
          exact ⟨r, List.mem_cons_of_mem ro hr, heq⟩
      · obtain ⟨r, hr, heq⟩ := ih h
        exact ⟨r, List.mem_cons_of_mem ro hr, heq⟩

/-- Tables with sets of groups that are kept apart. -/
theorem Separated.exclusive (hsep : Separated entries) (hf : final.roType = optEnd) (env : Env) (fuel : Nat)
    (argv : List CStr) (argip : Option Nat) (m : Mem) : Exclusive env fuel (entries ++ [final]) argv argip m where
  scan := by
    intro v _ g hg
    unfold mutIndexes at hg
    split at hg
    · next mt hmatched =>
      split at hg
      · rw [List.mem_singleton.1 hg]
        exact hsep.index _ (mem_entries hf (matched_mem hmatched))
      · cases hg
    · cases hg
  reqs := by
    intro s stop _ g hg
    obtain ⟨ro, hro, rfl⟩ := reqIndexes_mem hf hg
    exact hsep.index ro hro
  once := by
    intro r hr hnull
    rw [optParse_eq] at hr
    obtain ⟨⟨s, res⟩, hscan, hr⟩ := Outcome.exists_of_bind hr
    cases res with
    | error text =>
      cases hr
      cases hnull
    | ok stop =>
      have hstart : Seen entries (startOf m) [] := ⟨by simp, by simp⟩
      exact (scan_once hsep hf hstart hscan).1

theorem Separated.of_groups {entries' : List RdOpt} (heq : entries'.map groups = entries.map groups)
    (hsep : Separated entries) : Separated entries' := by
  have hsame : ∀ ro' ∈ entries', ∃ ro ∈ entries, groups ro = groups ro' := by
    intro ro' hro'
    have hmem := List.mem_map_of_mem (f := groups) hro'
    rw [heq] at hmem
    exact List.mem_map.1 hmem
  constructor
  · intro ro' hro'
    obtain ⟨ro, hro, hg⟩ := hsame ro' hro'
    rw [mutGrp_eq, ← hg, ← mutGrp_eq]
    exact hsep.index ro hro
  · intro x' hx' y' hy' hshares
    obtain ⟨x, hx, hgx⟩ := hsame x' hx'
    obtain ⟨y, hy, hgy⟩ := hsame y' hy'
    rw [← hgx, ← hgy]
    apply hsep.equal x hx y hy
    rwa [Shares, hgx, hgy]

end Once

/-! ## Tables that do not keep their groups apart -/

/-- The long name of the `k`-th entry of a table. -/
def nameAt (k : Nat) : CStr := List.replicate (k + 1) 'a'

/-- A flag with these groups. -/
def flagAt (k : Nat) (ro : RdOpt) : RdOpt := { roType := groups ro, roLong := some (nameAt k) }

/-- Flags with the groups of a table, each with a name of its own. -/
def flagsOf (entries : List RdOpt) : List RdOpt := entries.mapIdx flagAt

/-- The argument that names the `k`-th flag. -/
def argAt (k : Nat) : CStr := '-' :: '-' :: nameAt k

section Flags

variable {env : Env} {entries : List RdOpt} {argv : List CStr} {s : Scan} {ro : RdOpt} {k : Nat}

theorem groups_flagAt (k : Nat) (ro : RdOpt) : groups (flagAt k ro) = groups ro := by
  show ro.roType &&& optMutMask &&& optMutMask = ro.roType &&& optMutMask
  rw [BitVec.and_assoc, BitVec.and_self]

theorem flagsOf_groups (entries : List RdOpt) : (flagsOf entries).map groups = entries.map groups := by
  apply List.ext_getElem?
  intro j
  simp only [flagsOf, List.getElem?_map, List.getElem?_mapIdx, Option.map_map, Function.comp_def, groups_flagAt]

theorem flagsOf_getElem? (h : entries[k]? = some ro) : (flagsOf entries)[k]? = some (flagAt k ro) := by
  rw [flagsOf, List.getElem?_mapIdx, h]
  rfl

theorem flagsOf_bits : ∀ r ∈ flagsOf entries, bitTest r.roType optEnd = false ∧ bitTest r.roType optReq = false := by
  intro r hr
  obtain ⟨j, hj, rfl⟩ := List.mem_mapIdx.1 hr
  have hbits (x b : BitVec 32) (hb : optMutMask &&& b = 0) : bitTest (x &&& optMutMask) b = false := by
    rw [bitTest, BitVec.and_assoc, hb]
    simp
  exact ⟨hbits _ _ (by decide), hbits _ _ (by decide)⟩

theorem argAt_option (k : Nat) : IsOption (argAt k) := by
  refine ⟨rfl, fun h => ?_⟩
  have hmem : 'h' ∈ argAt k := by
    rw [h]
    decide
  simp [argAt, nameAt] at hmem

/-- The argument names the flag. -/
theorem lookup_flag {final : RdOpt} (hf : final.roType = optEnd) (h : entries[k]? = some ro) (argi : Nat) :
    lookup (flagsOf entries ++ [final]) argv argi (argAt k) = .ok (some ⟨k, flagAt k ro, none, argi⟩) := by
  have hsplit : splitArg (argAt k) = .ok ('-', some (nameAt k), none) := rfl
  have hmatch : matchOpt '-' (some (nameAt k)) (flagsOf entries ++ [final]) 0 = .ok (some (k, flagAt k ro)) := by
    refine matchOpt_first (fun r hr => (flagsOf_bits r hr).1) hf (flagsOf_getElem? h)
      (.inr ⟨Option.some_ne_none _, rfl⟩) fun j hj r hr hhit => ?_
    rcases hhit with ⟨hn, -⟩ | ⟨-, hlong⟩
    · cases hn
    · obtain ⟨x, hx⟩ : ∃ x, entries[j]? = some x := by
        rw [flagsOf, List.getElem?_mapIdx] at hr
        exact Option.map_eq_some_iff.1 hr |>.imp fun _ => And.left
      rw [flagsOf_getElem? hx] at hr
      cases hr
      have hlen := congrArg List.length (Option.some.inj hlong)
      simp only [nameAt, List.length_replicate] at hlen
      omega
  have hval : optVal argv argi (flagAt k ro) (some (nameAt k)) none = (none, argi) := by
    have hno : '=' ∉ nameAt k := by simp [nameAt]
    simp [optVal, hno, flagAt]
  simp only [lookup, hsplit, hmatch, bind, Except.bind, hval]
  rfl

/-- A flag whose place is free is taken. -/
theorem takeOpt_flag {argi : Nat} (hfree : groups ro ≠ 0 → s.mutro[mutGrp (groups ro)]? = some none) :
    ∃ s', takeOpt env argv k (flagAt k ro) none argi s = .ok (s', .ok argi) := by
  have hrun (s : Scan) : runParser env (flagAt k ro) argv argi s = .ok (s, .ok argi) := rfl
  have hcheck : ∃ s', checkMut env (flagAt k ro) s = .ok (s', .ok ()) := by
    unfold checkMut
    split
    · next hbit =>
      have hne : groups ro ≠ 0 := by
        rw [← groups_flagAt k]
        exact bitTest_mask.1 hbit
      have hplace : s.mutro[mutGrp (flagAt k ro).roType]? = some none := hfree hne
      rw [hplace]
      exact ⟨_, rfl⟩
    · exact ⟨_, rfl⟩
  obtain ⟨s', hs'⟩ := hcheck
  refine ⟨{ s' with found := bitvecSet s'.found k }, ?_⟩
  simp only [takeOpt, hs', hrun, bind, Except.bind]
  rfl

/-- A flag whose place is free is gone over. -/
theorem goesOn_flag {final : RdOpt} (hf : final.roType = optEnd) (h : entries[k]? = some ro) {argi : Nat}
    (hfree : groups ro ≠ 0 → s.mutro[mutGrp (groups ro)]? = some none) :
    ∃ s', goesOn env (flagsOf entries ++ [final]) argv ⟨argi, argAt k, s⟩ = some (argi + 1, s') ∧
      Takes s s' (flagAt k ro) := by
  obtain ⟨s', hs'⟩ := @takeOpt_flag env argv s ro k argi hfree
  have hscan : scanOpt env (flagsOf entries ++ [final]) argv argi (argAt k) s = .ok (s', .ok argi) := by
    rw [scanOpt_eq, lookup_flag hf h]
    exact hs'
  refine ⟨s', ?_, (takeOpt_takes hs').1⟩
  simp only [goesOn, if_neg (show argAt k ≠ [] from List.cons_ne_nil _ _), if_pos (argAt_option k), hscan]

theorem matched_flag {final : RdOpt} (hf : final.roType = optEnd) (h : entries[k]? = some ro) (argi : Nat) (s : Scan) :
    matched (flagsOf entries ++ [final]) argv ⟨argi, argAt k, s⟩ = some ⟨k, flagAt k ro, none, argi⟩ := by
  simp only [matched, if_pos (argAt_option k), lookup_flag hf h]

/-- A flag that is given makes its index used. -/
theorem flag_index {final : RdOpt} (hf : final.roType = optEnd) (h : entries[k]? = some ro) (hg : groups ro ≠ 0)
    (m : Mem) : ∃ v ∈ visits env (flagsOf entries ++ [final]) [[], argAt k] 1 1 (startOf m),
      mutGrp ro.roType ∈ mutIndexes (flagsOf entries ++ [final]) [[], argAt k] v := by
  refine ⟨⟨1, argAt k, startOf m⟩, List.mem_cons_self, ?_⟩
  have hbit : bitTest (flagAt k ro).roType optMutMask = true := bitTest_mask.2 (by rwa [groups_flagAt])
  have hval : ValueOk ⟨k, flagAt k ro, none, 1⟩ := iff_of_true rfl rfl
  rw [mutIndexes, matched_flag hf h]
  simp only [if_pos (And.intro hval hbit), List.mem_singleton]
  exact (mutGrp_groups ro).symm

theorem checkReqs_none {final : RdOpt} (hf : final.roType = optEnd) (p : List Char × Nat)
    {part : List RdOpt} (roi : Nat)
    (h : ∀ r ∈ part, bitTest r.roType optEnd = false ∧ bitTest r.roType optReq = false) :
    checkReqs s (part ++ [final]) roi 0 p = .ok (p.1, 0) := by
  induction part generalizing roi with
  | nil =>
    have hend : bitTest final.roType optEnd = true := by
      rw [hf]
      rfl
    rw [List.nil_append, checkReqs, if_pos hend]
  | cons r part ih =>
    obtain ⟨hr, hpart⟩ := List.forall_mem_cons.1 h
    rw [List.cons_append, checkReqs, if_neg (by rw [hr.1]; decide), if_pos hr.2]
    exact ih (roi + 1) hpart

/-- Nothing is missing where nothing is required. -/
theorem finishParse_flags {final : RdOpt} (hf : final.roType = optEnd) (argip : Option Nat) (stop : Nat) :
    ∃ r, finishParse (flagsOf entries ++ [final]) argip s stop = .ok r ∧ r.ret = none := by
  obtain ⟨q, hq⟩ : ∃ q, put 0 1024 "Required option(s) missing:".toList (List.replicate 1024 nul, 0) = .ok q :=
    put_inside _ _ _ (Nat.zero_le _) (Nat.le_of_eq (by rw [List.length_replicate, Nat.zero_add]))
  unfold finishParse
  rw [hq]
  simp only [bind, Except.bind, checkReqs_none hf q 0 flagsOf_bits]
  exact ⟨_, rfl, rfl⟩

theorem start_free {m : Mem} (h : mutGrp ro.roType < optMutNum + 1) :
    (startOf m).mutro[mutGrp ro.roType]? = some none :=
  List.getElem?_replicate_of_lt h

/-- Two flags with different sets of groups are both accepted. -/
theorem two_flags {final ro' : RdOpt} {k' : Nat} (hf : final.roType = optEnd) (h : entries[k]? = some ro)
    (h' : entries[k']? = some ro') (hi : mutGrp ro.roType < optMutNum + 1) (hi' : mutGrp ro'.roType < optMutNum + 1)
    (hne : groups ro ≠ groups ro') (m : Mem) :
    (∃ r, optParse env 3 (flagsOf entries ++ [final]) [[], argAt k, argAt k'] none m = .ok r ∧ r.ret = none) ∧
      (visits env (flagsOf entries ++ [final]) [[], argAt k, argAt k'] 3 1 (startOf m)).filterMap
          (matched (flagsOf entries ++ [final]) [[], argAt k, argAt k']) =
        [⟨k, flagAt k ro, none, 1⟩, ⟨k', flagAt k' ro', none, 2⟩] := by
  obtain ⟨s₁, hgo₁, htakes⟩ := @goesOn_flag env entries [[], argAt k, argAt k'] (startOf m) ro k final hf h 1
    fun _ => by rw [mutGrp_groups]; exact start_free hi
  have hfree : s₁.mutro[mutGrp ro'.roType]? = some none := by
    rcases htakes with ⟨-, hsame⟩ | ⟨-, -, hset⟩
    · rw [hsame]
      exact start_free hi'
    · have hdiff : mutGrp (flagAt k ro).roType ≠ mutGrp ro'.roType := fun heq =>
        hne ((groups_flagAt k ro).symm.trans (groups_eq_of_mutGrp heq))
      rw [hset, List.getElem?_set_ne hdiff]
      exact start_free hi'
  obtain ⟨s₂, hgo₂, -⟩ := @goesOn_flag env entries [[], argAt k, argAt k'] s₁ ro' k' final hf h' 2
    fun _ => by rw [mutGrp_groups]; exact hfree
  have harg₁ : ([[], argAt k, argAt k'] : List CStr)[1]? = some (argAt k) := rfl
  have harg₂ : ([[], argAt k, argAt k'] : List CStr)[2]? = some (argAt k') := rfl
  constructor
  · obtain ⟨r, hr, hnull⟩ := @finishParse_flags entries s₂ final hf none 3
    refine ⟨r, ?_, hnull⟩
    rw [optParse_eq, scanArgs_visit harg₁ hgo₁, scanArgs_visit harg₂ hgo₂]
    exact hr
  · rw [visits_next harg₁ hgo₁, visits_next harg₂ hgo₂, visits_none rfl,
      List.filterMap_cons_some (matched_flag hf h 1 _), List.filterMap_cons_some (matched_flag hf h' 2 _),
      List.filterMap_nil]

end Flags

/-- **Tables with these sets of groups never index `mutro` out of its bounds, and accept no two options with a group in
common, exactly if the sets are indices of `mutro`, and any two of them are equal or have nothing in common.** -/
theorem exclusive_iff (entries : List RdOpt) :
    (∀ entries' : List RdOpt, entries'.map groups = entries.map groups → ∀ final env fuel argv argip m,
      final.roType = optEnd → Exclusive env fuel (entries' ++ [final]) argv argip m) ↔ Separated entries := by
  constructor
  · intro h
    have hflags := h (flagsOf entries) (flagsOf_groups entries) { roType := optEnd } sampleEnv
    have hindex : ∀ ro ∈ entries, mutGrp ro.roType < optMutNum + 1 := by
      intro ro hro
      obtain ⟨k, hk⟩ := List.mem_iff_getElem?.1 hro
      by_cases hg : groups ro = 0
      · rw [mutGrp_eq, hg]
        decide
      · obtain ⟨v, hv, hmem⟩ := @flag_index sampleEnv entries ro k { roType := optEnd } rfl hk hg sampleMem
        exact (hflags 1 [[], argAt k] none sampleMem rfl).scan v hv _ hmem
    refine ⟨hindex, fun ro hro ro' hro' hshares => ?_⟩
    by_contra hne
    obtain ⟨k, hk⟩ := List.mem_iff_getElem?.1 hro
    obtain ⟨k', hk'⟩ := List.mem_iff_getElem?.1 hro'
    obtain ⟨⟨r, hr, hnull⟩, hmatched⟩ := @two_flags sampleEnv entries ro k { roType := optEnd } ro' k' rfl hk hk'
      (hindex ro hro) (hindex ro' hro') hne sampleMem
    have hpair := (hflags 3 [[], argAt k, argAt k'] none sampleMem rfl).once r hr hnull
    rw [hmatched, List.pairwise_pair] at hpair
    rw [Shares, groups_flagAt, groups_flagAt] at hpair
    exact hpair hshares
  · intro hsep entries' heq final env fuel argv argip m hf
    exact (hsep.of_groups heq).exclusive hf env fuel argv argip m

/-- A flag in group 1, and one in the groups 1 and 2. -/
def overlapping : List RdOpt := [{ roType := optMut1 }, { roType := optMut1 ||| optMut2 }]

/-- Both of them are accepted; and a flag in group 4 is looked up at the index 8. -/
theorem groups_overlap :
    ¬Exclusive sampleEnv 3 (flagsOf overlapping ++ [{ roType := optEnd }]) [[], argAt 0, argAt 1] none sampleMem ∧
      ¬Exclusive sampleEnv 1 (flagsOf [{ roType := optMut4 }] ++ [{ roType := optEnd }]) [[], argAt 0]
      none sampleMem := by
  constructor
  · intro h
    obtain ⟨⟨r, hr, hnull⟩, hmatched⟩ := @two_flags sampleEnv overlapping { roType := optMut1 } 0 { roType := optEnd }
      { roType := optMut1 ||| optMut2 } 1 rfl rfl rfl (by decide) (by decide) (by decide) sampleMem
    have hpair := h.once r hr hnull
    rw [hmatched, List.pairwise_pair] at hpair
    exact hpair (by decide)
  · intro h
    obtain ⟨v, hv, hmem⟩ := @flag_index sampleEnv [{ roType := optMut4 }] { roType := optMut4 } 0 { roType := optEnd }
      rfl rfl (by decide) sampleMem
    exact absurd (h.scan v hv _ hmem) (by decide)

end Librd.Opt
