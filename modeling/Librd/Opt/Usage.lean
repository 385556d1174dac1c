import Librd.Opt.Names
import Librd.Opt.Groups

/-!
# Messages and usage texts of any length

`rd_opt_usage`, and the offsets that `rd_opt_parse` and `rd_opt_usage` add up while they put a text together.
`snprintf` returns the length of the whole text, so an offset is the length of all that was put so far, cut or not
(`ends_le_iff`).

- The message about missing options is longest where nothing is given: what is missing is always a part of what is
  required (`missing_sublist`), and all of that is missing at the start (`missing_start`).
- So no offset of a table ever exceeds its buffer exactly if the message about all the required options has at most
  1024 characters, and every line of the usage has at most 40 (`offsets_inside_iff`). After an access outside of `mutro`
  or `mutcnt` nothing is known of the offsets, so there must be none.
-/

namespace Librd.Opt

open Librd.Bits

/-! ## Offsets -/

/-- The offsets after the texts. -/
def ends : List CStr → Nat → List Nat
  | [], _ => []
  | text :: texts, of => (of + text.length) :: ends texts (of + text.length)

/-- The last of the offsets is the largest. -/
theorem ends_le_iff {n : Nat} (texts : List CStr) : ∀ {of : Nat}, of ≤ n →
    ((∀ o ∈ ends texts of, o ≤ n) ↔ of + texts.flatten.length ≤ n) := by
  induction texts with
  | nil =>
    intro of hof
    simpa [ends] using hof
  | cons text texts ih =>
    intro of hof
    rw [ends, List.forall_mem_cons, List.flatten_cons, List.length_append, ← Nat.add_assoc]
    constructor
    · rintro ⟨htext, hrest⟩
      exact (ih htext).1 hrest
    · intro htotal
      have htext : of + text.length ≤ n := by omega
      exact ⟨htext, (ih htext).2 htotal⟩

/-! ## `rd_opt_usage` -/

/-- `rd_opt_t` with the texts that only `rd_opt_usage` reads. -/
structure HelpOpt extends RdOpt where
  roHelp : Option CStr := none
  roConfname : Option CStr := none

/-- The type of an argument. -/
def typestr (ro : RdOpt) : CStr :=
  if bitTest ro.roType optStr then "string".toList
  else if bitTest ro.roType optInt then "integer".toList
  else if bitTest ro.roType optPath then "path".toList
  else if bitTest ro.roType optBool then "bool:1|0".toList
  else "..".toList

/-- An entry with a name. -/
def Named (ro : RdOpt) : Prop := ro.roShort ≠ nul ∨ ro.roLong ≠ none

instance (ro : RdOpt) : Decidable (Named ro) := inferInstanceAs (Decidable (_ ∨ _))

/-- What is put in `buf` for an entry with a name. -/
def usageTexts (ro : RdOpt) : List CStr :=
  (match ro.roLong with
    | some l => if ro.roShort ≠ nul then '-' :: ro.roShort :: " | --".toList ++ l else "--".toList ++ l
    | none => ['-', ro.roShort]) ::
  pieceIf (ro.roArgcnt > 0) (" <".toList ++ typestr ro ++ ['>'])

/-- What the loop of `rd_opt_usage` keeps: `mutcnt`, `confnamecnt` and what was printed. -/
structure Usage where
  mutcnt : List Nat
  confnamecnt : Nat
  out : CStr

/-- `%-28s`. -/
def padRight (text : CStr) : CStr := text ++ List.replicate (28 - text.length) ' '

/-- `mutcnt[mg]++` and `mgstr` for an entry. -/
def countGroup (mutcnt : List Nat) (ro : RdOpt) : Except Fault (List Nat × CStr) :=
  let mg := mutGrp ro.roType
  if mg ≠ 0 then
    match mutcnt[mg]? with
    | some n => .ok (mutcnt.set mg (n + 1), message 2 (Nat.toDigits 10 mg))
    | none => .error .memory
  else .ok (mutcnt, [' '])

/-- The line for an entry with a name. -/
def usageLine (ro : HelpOpt) (u : Usage) : Except Fault Usage := do
  let (buf, _) ← putAll 0 40 (usageTexts ro.toRdOpt) (List.replicate 40 nul, 0)
  let (mutcnt, mgstr) ← countGroup u.mutcnt ro.toRdOpt
  let line := [' ', if bitTest ro.roType optReq then '*' else ' '] ++ mgstr ++ "  ".toList ++
    padRight (← cstrAt buf 0) ++ "  ".toList
  let conf := match ro.roConfname with
    | some c => '\x7b' :: c ++ "\x7d ".toList
    | none => []
  return { mutcnt := mutcnt, confnamecnt := u.confnamecnt + (if ro.roConfname.isSome then 1 else 0),
           out := u.out ++ line ++ conf ++ ro.roHelp.getD [] ++ ['\n'] }

/-- The loop of `rd_opt_usage`. -/
def usageLoop : List HelpOpt → Usage → Except Fault Usage
  | [], _ => .error .memory
  | ro :: ros, u =>
    if bitTest ro.roType optEnd then .ok u
    else if Named ro.toRdOpt then do usageLoop ros (← usageLine ro u)
    else usageLoop ros u

/-- The lines about groups after the options, for the groups `mg` and on. -/
def groupLines (mutcnt : List Nat) : CStr :=
  ([1, 2, 3, 4].filter fun mg => mutcnt.getD mg 0 ≠ 0).flatMap fun mg =>
    ' ' :: Nat.toDigits 10 mg ++ "     = Mutual exclusive group #".toList ++ Nat.toDigits 10 mg ++ ['\n']

/-- `rd_opt_usage`: what it prints. `ros` and `extra_args` may be `NULL`; `description` is `rd_opt_description`. -/
def optUsage (ros : Option (List HelpOpt)) (argv0 : CStr) (extraArgs : Option CStr) (description : CStr) :
    Except Fault CStr := do
  let extra := match extraArgs with
    | some e => ' ' :: e
    | none => []
  match ros with
  | none => return "Usage: ".toList ++ argv0 ++ extra ++ "\n\n".toList
  | some [] => throw .memory
  | some (ro :: ros) =>
    if bitTest ro.roType optEnd then return "Usage: ".toList ++ argv0 ++ extra ++ "\n\n".toList
    let head := "Usage: ".toList ++ argv0 ++ " [options]".toList ++ extra ++ ['\n'] ++ description ++
      "\nOptions:\n".toList
    let u ← usageLoop (ro :: ros) { mutcnt := List.replicate (optMutNum + 1) 0, confnamecnt := 0, out := head }
    return u.out ++ "\n *     = Required option\n".toList ++
      (if u.confnamecnt ≠ 0 then " \x7b..\x7d  = Configuration file token\n".toList else []) ++
      groupLines u.mutcnt ++ ['\n']

/-- The entries that `rd_opt_usage` puts a line together for: those with a name. -/
def usageLines : List RdOpt → List RdOpt
  | [] => []
  | ro :: ros =>
    if bitTest ro.roType optEnd then []
    else if Named ro then ro :: usageLines ros
    else usageLines ros

section Lines

variable {ro : HelpOpt} {u : Usage}

theorem offsets_le (texts : List CStr) : ∀ {of : Nat}, ∀ o ∈ offsets texts of, o ≤ of + texts.flatten.length := by
  induction texts with
  | nil =>
    intro of o ho
    cases ho
  | cons text texts ih =>
    intro of
    rw [offsets, List.forall_mem_cons, List.flatten_cons, List.length_append]
    refine ⟨by omega, fun o ho => ?_⟩
    have := ih o ho
    omega

/-- A line that fits in `buf` is printed. -/
theorem usageLine_ok (hfit : (usageTexts ro.toRdOpt).flatten.length ≤ 40) (hg : mutGrp ro.roType < optMutNum + 1)
    (hu : u.mutcnt.length = optMutNum + 1) : ∃ u', usageLine ro u = .ok u' ∧ u'.mutcnt.length = optMutNum + 1 := by
  have hoff : ∀ o ∈ offsets (usageTexts ro.toRdOpt) 0, o ≤ 40 := fun o ho => by
    have := offsets_le _ o ho
    omega
  have hplaces : ∀ j ∈ places 0 40 (usageTexts ro.toRdOpt) 0, j < 40 := fun j hj => by
    have hin := (@places_inside_iff 0 40 0 _ fun o ho => by have := hoff o ho; omega).2 hoff
    have := (hin j hj).2
    omega
  obtain ⟨q, hq⟩ := (@putAll_ok_iff 0 40 (usageTexts ro.toRdOpt) (List.replicate 40 nul, 0)).2 (by simpa using hplaces)
  have htext : HasText q.1 0 (([] ++ (usageTexts ro.toRdOpt).flatten).take 39) :=
    putAll_text (show HasText (List.replicate 40 nul) 0 [] from rfl) rfl hoff hq
  obtain ⟨text, hread⟩ : ∃ text, cstrAt q.1 0 = .ok text := by
    have hmem : nul ∈ (q.1.drop 0).take _ := htext ▸ List.mem_append_right _ (List.mem_singleton_self nul)
    exact ⟨_, if_pos (List.mem_of_mem_take hmem)⟩
  obtain ⟨c, hc, hlen⟩ : ∃ c, countGroup u.mutcnt ro.toRdOpt = .ok c ∧ c.1.length = optMutNum + 1 := by
    unfold countGroup
    dsimp only
    split
    · rw [List.getElem?_eq_getElem (by omega)]
      exact ⟨_, rfl, by simpa using hu⟩
    · exact ⟨_, rfl, hu⟩
  simp only [usageLine, hq, hc, hread, bind, Except.bind]
  exact ⟨_, rfl, hlen⟩

theorem usageLoop_ok (ros : List HelpOpt) : ∀ {u : Usage}, (∃ ro ∈ ros, bitTest ro.roType optEnd = true) →
    (∀ ro ∈ usageLines (ros.map HelpOpt.toRdOpt),
      (usageTexts ro).flatten.length ≤ 40 ∧ mutGrp ro.roType < optMutNum + 1) →
      u.mutcnt.length = optMutNum + 1 → ∃ u', usageLoop ros u = .ok u' := by
  induction ros with
  | nil =>
    rintro u ⟨ro, hro, -⟩
    cases hro
  | cons ro ros ih =>
    intro u hend hfit hu
    rw [List.map_cons, usageLines] at hfit
    rw [usageLoop]
    by_cases hlast : bitTest ro.roType optEnd = true
    · rw [if_pos hlast]
      exact ⟨u, rfl⟩
    · have hend' : ∃ r ∈ ros, bitTest r.roType optEnd = true := by
        obtain ⟨r, hr, hbit⟩ := hend
        rcases List.mem_cons.1 hr with rfl | hr
        · exact absurd hbit hlast
        · exact ⟨r, hr, hbit⟩
      rw [if_neg hlast] at hfit ⊢
      by_cases hname : Named ro.toRdOpt
      · rw [if_pos hname, List.forall_mem_cons] at hfit
        obtain ⟨⟨hlen, hg⟩, hrest⟩ := hfit
        obtain ⟨u', hline, hu'⟩ := usageLine_ok hlen hg hu
        rw [if_pos hname, hline]
        exact ih hend' hrest hu'
      · rw [if_neg hname] at hfit ⊢
        exact ih hend' hfit hu

end Lines

/-- **`rd_opt_usage` prints the usage of every table** whose lines fit in `buf` and whose groups are indices of
`mutcnt`. -/
theorem optUsage_returns {ros : List HelpOpt} (hend : ∃ ro ∈ ros, bitTest ro.roType optEnd = true)
    (hfit : ∀ ro ∈ usageLines (ros.map HelpOpt.toRdOpt),
      (usageTexts ro).flatten.length ≤ 40 ∧ mutGrp ro.roType < optMutNum + 1)
    (argv0 : CStr) (extraArgs : Option CStr) (description : CStr) :
    ∃ out, optUsage (some ros) argv0 extraArgs description = .ok out := by
  cases ros with
  | nil =>
    obtain ⟨ro, hro, -⟩ := hend
    cases hro
  | cons ro ros =>
    unfold optUsage
    dsimp only
    split
    · exact ⟨_, rfl⟩
    · have hstart (head : CStr) :
        (Usage.mk (List.replicate (optMutNum + 1) 0) 0 head).mutcnt.length = optMutNum + 1 := rfl
      obtain ⟨u, hu⟩ := usageLoop_ok (ro :: ros) hend hfit (hstart _)
      rw [hu]
      exact ⟨_, rfl⟩

/-! ## The message about missing options -/

/-- The start of the message. -/
def missingHead : CStr := "Required option(s) missing:".toList

/-- What is put in the message for a missing option. -/
def missingTexts (ro : RdOpt) (missed : Nat) : List CStr :=
  ((if missed ≠ 0 then [','] else []) ++ [' ']) ::
    (pieceIf (ro.roShort ≠ nul) ('-' :: ro.roShort :: if ro.roLong.isSome then ['/'] else []) ++
      pieceIf (ro.roLong ≠ none) (ro.roLong.getD []) ++ pieceIf (ro.roArgcnt ≠ 0) " <...>".toList)

/-- What is put in the message for missing options, with `missed` before them. -/
def messageTexts : List RdOpt → Nat → List CStr
  | [], _ => []
  | ro :: ros, missed => missingTexts ro missed ++ messageTexts ros (missed + 1)

/-- The options that the loop over the required ones misses; what it finds outside of `mutro` does not count. -/
def missing (s : Scan) : List RdOpt → Nat → List RdOpt
  | [], _ => []
  | ro :: ros, roi =>
    if bitTest ro.roType optEnd then []
    else if bitTest ro.roType optReq = false then missing s ros (roi + 1)
    else
      match satisfied s ro roi with
      | .ok true => missing s ros (roi + 1)
      | _ => ro :: missing s ros (roi + 1)

/-- The required options. -/
def required : List RdOpt → List RdOpt
  | [] => []
  | ro :: ros =>
    if bitTest ro.roType optEnd then []
    else if bitTest ro.roType optReq = false then required ros
    else ro :: required ros

/-- An option on some command line is an occurrence of the entry, with a value if the entry takes one. -/
def Given (ros : List RdOpt) (ro : RdOpt) : Prop :=
  ∃ argv argi arg mt, argv[argi]? = some arg ∧ IsOption arg ∧ lookup ros argv argi arg = .ok (some mt) ∧ ValueOk mt ∧
    mt.ro = ro

/-- No offset exceeds its buffer: that of the message, where the arguments are scanned without one, and those of the
lines of the usage. Nor is `mutro` or `mutcnt` accessed outside of its bounds before. -/
structure OffsetsInside (env : Env) (fuel : Nat) (ros : List RdOpt) (argv : List CStr) (m : Mem) : Prop where
  scan : ∀ v ∈ visits env ros argv fuel 1 (startOf m), ∀ g ∈ mutIndexes ros argv v, g < optMutNum + 1
  reqs : ∀ s stop, scanArgs env ros argv fuel 1 (startOf m) = .ok (s, .ok stop) →
    ∀ g ∈ reqIndexes s ros 0, g < optMutNum + 1
  message : ∀ s stop, scanArgs env ros argv fuel 1 (startOf m) = .ok (s, .ok stop) →
    ∀ of ∈ ends (missingHead :: messageTexts (missing s ros 0) 0) 0, of ≤ 1024
  counts : ∀ ro ∈ usageLines ros, mutGrp ro.roType < optMutNum + 1
  usage : ∀ ro ∈ usageLines ros, ∀ of ∈ ends (usageTexts ro) 0, of ≤ 40

/-- The texts of a table fit in the buffers, and the groups of its entries are indices. -/
structure TableFits (ros : List RdOpt) : Prop where
  message : (missingHead :: messageTexts (required ros) 0).flatten.length ≤ 1024
  lines : ∀ ro ∈ usageLines ros, (usageTexts ro).flatten.length ≤ 40
  index : ∀ ro, ro ∈ required ros ∨ ro ∈ usageLines ros ∨ Given ros ro → mutGrp ro.roType < optMutNum + 1

section Missing

variable {env : Env} {ros : List RdOpt} {argv : List CStr} {s : Scan}

theorem putMissing_eq (ro : RdOpt) (missed : Nat) (p : List Char × Nat) :
    putMissing ro missed p = putAll 0 1024 (missingTexts ro missed) p := by
  have hargs : putAll 0 1024 (pieceIf (ro.roArgcnt ≠ 0) " <...>".toList) =
      putIf (ro.roArgcnt ≠ 0) 0 1024 " <...>".toList := funext fun _ => putAll_pieceIf _
  simp only [missingTexts, putAll, putAll_append, putAll_pieceIf, hargs, putMissing, bind_assoc]

/-- The loop over the required options puts the texts for the missing ones. -/
theorem checkReqs_texts (ros : List RdOpt) : ∀ {roi missed : Nat} {p q : List Char × Nat},
    checkReqs s ros roi missed p = .ok q →
      ∃ of, putAll 0 1024 (messageTexts (missing s ros roi) missed) p = .ok (q.1, of) ∧
        q.2 = missed + (missing s ros roi).length := by
  induction ros with
  | nil =>
    intro roi missed p q h
    cases h
  | cons ro ros ih =>
    intro roi missed p q h
    rw [checkReqs] at h
    rw [missing]
    split at h
    · next hend =>
      rw [if_pos hend]
      cases h
      exact ⟨p.2, rfl, rfl⟩
    · next hend =>
      rw [if_neg hend]
      split at h
      · next hreq =>
        rw [if_pos hreq]
        exact ih h
      · next hreq =>
        rw [if_neg hreq]
        obtain ⟨b, hb, h⟩ := Outcome.exists_of_bind h
        rw [hb]
        cases b with
        | true => exact ih h
        | false =>
          obtain ⟨p', hput, h⟩ := Outcome.exists_of_bind h
          obtain ⟨of, hrest, hcount⟩ := ih h
          refine ⟨of, ?_, by rw [hcount, List.length_cons]; omega⟩
          rw [messageTexts, putAll_append, ← putMissing_eq, hput]
          exact hrest

/-- Where nothing was given, nothing is satisfied. -/
theorem satisfied_start (m : Mem) (ro : RdOpt) (roi : Nat) : satisfied (startOf m) ro roi ≠ .ok true := by
  have hfound : ¬Bits.Mem (startOf m).found roi := not_mem_init (n := 512) rfl
  rw [satisfied, if_neg (by rwa [test_ne_zero])]
  split
  · split
    · exact fun h => nomatch h
    · next r hr =>
      obtain rfl := List.eq_of_mem_replicate (List.mem_of_getElem? hr)
      exact fun h => nomatch h
  · exact fun h => nomatch h

/-- Where nothing was given, all that is required is missing. -/
theorem missing_start (m : Mem) (ros : List RdOpt) : ∀ roi, missing (startOf m) ros roi = required ros := by
  induction ros with
  | nil => intro roi; rfl
  | cons ro ros ih =>
    intro roi
    simp only [missing, required, ih]
    split
    · rfl
    · split
      · rfl
      · split
        · next hsat => exact absurd hsat (satisfied_start m ro roi)
        · rfl

/-- What is missing after a scan is a part of what is required. -/
theorem missing_sublist (s : Scan) (ros : List RdOpt) : ∀ roi, (missing s ros roi).Sublist (required ros) := by
  induction ros with
  | nil => intro roi; exact .slnil
  | cons ro ros ih =>
    intro roi
    rw [missing, required]
    split
    · exact .slnil
    · split
      · exact ih (roi + 1)
      · split
        · exact (ih (roi + 1)).cons ro
        · exact (ih (roi + 1)).cons_cons ro

/-- The indices that the loop over the required options looks at are theirs. -/
theorem reqIndexes_required {g : Nat} (ros : List RdOpt) : ∀ {roi : Nat}, g ∈ reqIndexes s ros roi →
    ∃ ro ∈ required ros, g = mutGrp ro.roType := by
  induction ros with
  | nil => intro roi h; cases h
  | cons ro ros ih =>
    intro roi h
    rw [reqIndexes] at h
    rw [required]
    by_cases hend : bitTest ro.roType optEnd = true
    · rw [if_pos hend] at h
      cases h
    · rw [if_neg hend] at h ⊢
      by_cases hreq : bitTest ro.roType optReq = false
      · rw [if_neg fun hcond => absurd (hreq.symm.trans hcond.1) Bool.false_ne_true] at h
        rw [if_pos hreq]
        exact ih h
      · rw [if_neg hreq]
        have hrest (h : g ∈ reqIndexes s ros (roi + 1)) : ∃ r ∈ ro :: required ros, g = mutGrp r.roType := by
          obtain ⟨r, hr, hg⟩ := ih h
          exact ⟨r, List.mem_cons_of_mem ro hr, hg⟩
        split at h
        · rcases List.mem_cons.1 h with hg | h
          · exact ⟨ro, List.mem_cons_self, hg⟩
          · exact hrest h
        · exact hrest h

/-- Where nothing was given, they are all looked at. -/
theorem required_reqIndexes (m : Mem) {ro : RdOpt} (hbit : bitTest ro.roType optMutMask = true) (ros : List RdOpt) :
    ∀ {roi : Nat}, ro ∈ required ros → mutGrp ro.roType ∈ reqIndexes (startOf m) ros roi := by
  induction ros with
  | nil => intro roi h; cases h
  | cons r ros ih =>
    intro roi h
    have hfound : bitvecTest (startOf m).found roi = 0 := by
      by_contra hne
      exact not_mem_init (n := 512) rfl (test_ne_zero.1 hne)
    rw [required] at h
    rw [reqIndexes]
    by_cases hend : bitTest r.roType optEnd = true
    · rw [if_pos hend] at h
      cases h
    · rw [if_neg hend] at h ⊢
      by_cases hreq : bitTest r.roType optReq = false
      · rw [if_pos hreq] at h
        rw [if_neg fun hcond => absurd (hreq.symm.trans hcond.1) Bool.false_ne_true]
        exact ih h
      · rw [if_neg hreq] at h
        rcases List.mem_cons.1 h with rfl | h
        · rw [if_pos ⟨eq_true_of_ne_false hreq, hfound, hbit⟩]
          exact List.mem_cons_self
        · split
          · exact List.mem_cons_of_mem _ (ih h)
          · exact ih h

/-- The value depends on the next argument only. -/
theorem optVal_first {argi : Nat} (h : argi < argv.length) (ro : RdOpt) (longopt text : Option CStr) :
    (optVal ([] :: argv.drop argi) 1 ro longopt text).1 = (optVal argv argi ro longopt text).1 := by
  have hnext : ([] :: argv.drop argi)[1 + 1]? = argv[argi + 1]? := by
    rw [List.getElem?_cons_succ, List.getElem?_drop]
  have hlast : 1 + 1 < ([] :: argv.drop argi).length ↔ argi + 1 < argv.length := by
    rw [List.length_cons, List.length_drop]
    omega
  unfold optVal
  cases longopt with
  | none =>
    simp only [hnext, hlast]
    split <;> rfl
  | some l =>
    simp only [hnext, hlast]
    split
    · rfl
    · split <;> rfl

/-- What is given anywhere can be given first. -/
theorem Given.first {ro : RdOpt} (h : Given ros ro) : ∃ argv arg mt, argv[1]? = some arg ∧ IsOption arg ∧
    lookup ros argv 1 arg = .ok (some mt) ∧ ValueOk mt ∧ mt.ro = ro := by
  obtain ⟨argv, argi, arg, mt, harg, hopt, hlook, hval, rfl⟩ := h
  obtain ⟨⟨c, longopt, text⟩, hsplit, hlook⟩ := Outcome.exists_of_bind hlook
  obtain ⟨r, hmatch, hlook⟩ := Outcome.exists_of_bind hlook
  cases r with
  | none => cases hlook
  | some q =>
    cases hlook
    have hlook' : lookup ros ([] :: argv.drop argi) 1 arg =
        .ok (some ⟨q.1, q.2, (optVal ([] :: argv.drop argi) 1 q.2 longopt text).1,
          (optVal ([] :: argv.drop argi) 1 q.2 longopt text).2⟩) := by
      rw [lookup_split hsplit, hmatch]
      rfl
    refine ⟨_, arg, _, ?_, hopt, hlook', ?_, rfl⟩
    · rw [List.getElem?_cons_succ, List.getElem?_drop]
      exact harg
    · unfold ValueOk at hval ⊢
      dsimp only at hval ⊢
      rwa [optVal_first (List.getElem?_eq_some_iff.1 harg).1]

/-- A message about more options is longer. -/
theorem messageTexts_mono {l l' : List RdOpt} (h : l.Sublist l') : ∀ {missed missed' : Nat}, missed ≤ missed' →
    (messageTexts l missed).flatten.length ≤ (messageTexts l' missed').flatten.length := by
  have hone (ro : RdOpt) {missed missed' : Nat} (hle : missed ≤ missed') :
      (missingTexts ro missed).flatten.length ≤ (missingTexts ro missed').flatten.length := by
    have hcomma : (if missed ≠ 0 then [','] else []).length ≤ (if missed' ≠ 0 then [','] else []).length := by
      by_cases h0 : missed = 0
      · simp [h0]
      · have h0' : missed' ≠ 0 := by omega
        simp [h0, h0']
    simp only [missingTexts, List.flatten_cons, List.length_append]
    omega
  induction h with
  | slnil =>
    intro missed missed' _
    exact Nat.le_refl 0
  | cons ro _ ih =>
    intro missed missed' hle
    have hrest := @ih missed (missed' + 1) (by omega)
    simp only [messageTexts, List.flatten_append, List.length_append]
    omega
  | cons_cons ro _ ih =>
    intro missed missed' hle
    have hfirst := hone ro hle
    have hrest := @ih (missed + 1) (missed' + 1) (by omega)
    simp only [messageTexts, List.flatten_append, List.length_append]
    omega

end Missing

/-- **No offset ever exceeds its buffer exactly if the message about all the required options has at most 1024
characters, the texts in the lines of the usage have at most 40, and the groups of the entries that are required, have a
name or can be given are indices of `mutro`.** -/
theorem offsets_inside_iff (ros : List RdOpt) :
    (∀ env fuel argv m, OffsetsInside env fuel ros argv m) ↔ TableFits ros := by
  have hline (ro : RdOpt) : (∀ of ∈ ends (usageTexts ro) 0, of ≤ 40) ↔ (usageTexts ro).flatten.length ≤ 40 := by
    rw [ends_le_iff _ (Nat.zero_le _), Nat.zero_add]
  constructor
  · intro h
    have hnone := h sampleEnv 1 [[]] sampleMem
    refine ⟨?_, fun ro hro => (hline ro).1 (hnone.usage ro hro), ?_⟩
    · have hmessage := hnone.message (startOf sampleMem) 1 rfl
      rwa [missing_start, ends_le_iff _ (Nat.zero_le _), Nat.zero_add] at hmessage
    · rintro ro (hreq | hname | hgiven)
      · by_contra hindex
        exact hindex (hnone.reqs _ 1 rfl _ (required_reqIndexes sampleMem (mask_of_index hindex) ros hreq))
      · exact hnone.counts ro hname
      · by_contra hindex
        obtain ⟨argv, arg, mt, harg, hopt, hlook, hval, rfl⟩ := hgiven.first
        refine hindex ((h sampleEnv 1 argv sampleMem).scan ⟨1, arg, startOf sampleMem⟩ ?_ _ ?_)
        · rw [visits, harg]
          exact List.mem_cons_self
        · rw [mutIndexes, matched, if_pos hopt, hlook]
          simp only [if_pos (And.intro hval (mask_of_index hindex)), List.mem_singleton]
  · intro hfits env fuel argv m
    refine ⟨fun v hv g hg => ?_, fun s stop hscan g hg => ?_, fun s stop hscan => ?_,
      fun ro hro => hfits.index ro (.inr (.inl hro)), fun ro hro => (hline ro).2 (hfits.lines ro hro)⟩
    · have hat : argv[v.argi]? = some v.arg :=
        (@visits_invariant env ros argv (fun _ _ => True) (fun _ _ _ _ _ _ => trivial) fuel 1
          (startOf m) trivial v hv).1
      obtain ⟨argi, arg, s⟩ := v
      by_cases hopt : IsOption arg
      · refine (forall_mutIndexes hopt (Q := (· < optMutNum + 1))).2 (fun mt hmt hval _ => ?_) g hg
        exact hfits.index mt.ro (.inr (.inr ⟨argv, argi, arg, mt, hat, hopt, hmt, hval, rfl⟩))
      · rw [mutIndexes, matched, if_neg hopt] at hg
        cases hg
    · obtain ⟨ro, hro, rfl⟩ := reqIndexes_required ros hg
      exact hfits.index ro (.inl hro)
    · have hmono := messageTexts_mono (missing_sublist s ros 0) (Nat.le_refl 0)
      have hmessage := hfits.message
      rw [ends_le_iff _ (Nat.zero_le _), Nat.zero_add]
      rw [List.flatten_cons, List.length_append] at hmessage ⊢
      omega

/-- A required option that takes a string. -/
def stringEntry (name : CStr) : RdOpt := { roType := optReq ||| optStr, roLong := some name, roArgcnt := 1 }

/-- A name of 1000 characters ends at the offset 1028, and ` <...>` is put after that. -/
theorem offsets_outside :
    ¬OffsetsInside sampleEnv 1 [stringEntry (List.replicate 1000 'a'), { roType := optEnd }] [[]] sampleMem := by
  have hlen : (List.replicate 1000 'a').length = 1000 := List.length_replicate
  generalize List.replicate 1000 'a' = name at hlen ⊢
  intro h
  have hmessage := h.message (startOf sampleMem) 1 rfl
  have hrequired : required [stringEntry name, { roType := optEnd }] = [stringEntry name] := by
    have hend : bitTest (optReq ||| optStr) optEnd = false := by decide
    have hreq : bitTest (optReq ||| optStr) optReq = true := by decide
    have hfinal : bitTest optEnd optEnd = true := by decide
    simp [required, stringEntry, hend, hreq, hfinal]
  rw [missing_start, hrequired, ends_le_iff _ (Nat.zero_le _), List.flatten_cons, List.length_append] at hmessage
  have htexts : (messageTexts [stringEntry name] 0).flatten.length = 1007 := by
    simp [messageTexts, missingTexts, pieceIf, stringEntry, hlen]
  have hhead : missingHead.length = 27 := rfl
  omega

end Librd.Opt
