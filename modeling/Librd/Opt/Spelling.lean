import Librd.Opt.Accept

/-!
# The spellings of an option with a value

An option with a short name `x`, a long name `N` and a value `V` can be given as `-x V`, `-xV`, `--N V` and `--N=V`.
`rd_opt_parse` finds the value of `-xV` behind the name, but its default parser reads the whole argument again, and it
compares the whole of `N=V` with the long names before it looks for the `=`. So the four spellings never do the same
(`spellings_differ`): where `-x V` or `--N V` is taken, `--N=V` is an unknown option, for every entry and every value.
-/

namespace Librd.Opt

open Librd.Bits

/-! ## What the spellings should do -/

/-- The four spellings. -/
def spellings (x : Char) (name v : CStr) : List (List CStr) :=
  [[['-', x], v], ['-' :: x :: v], ['-' :: '-' :: name, v], ['-' :: '-' :: name ++ '=' :: v]]

/-- The scan at its start. -/
def scanStart (found : Bitvec) (m : Mem) : Scan :=
  { found := found, mutro := List.replicate (optMutNum + 1) none, mem := m }

/-- The scan goes over the arguments `pre`, in the same way whatever follows them. -/
def Passes (env : Env) (ros : List RdOpt) (pre : List CStr) (m : Mem) : Prop :=
  ∃ found s c, bitvecInit 512 = some found ∧ ∀ rest fuel,
    scanArgs env ros (pre ++ rest) (fuel + c) 1 (scanStart found m) = scanArgs env ros (pre ++ rest) fuel pre.length s

/-- Two parses, of an option spelled with `n` and with `n'` arguments, agree: they return the same, store the same
through `ro_opaque`, and the final positions are as far behind the option. -/
def Agree (target n n' : Nat) : Except Fault Parsed → Except Fault Parsed → Prop
  | .ok p, .ok p' => p.ret = p'.ret ∧ p.mem.store target = p'.mem.store target ∧
      (p.ret = none → p.argip.map (· + n') = p'.argip.map (· + n))
  | .error e, .error e' => e = e'
  | _, _ => False

/-- The four spellings agree anywhere among the options. -/
def SameParse (env : Env) (ros : List RdOpt) (x : Char) (name v : CStr) (target : Nat) : Prop :=
  ∀ pre post m argip fuel, Passes env ros pre m → ∀ sp ∈ spellings x name v, ∀ sp' ∈ spellings x name v,
    (pre ++ sp ++ post).length < fuel → (pre ++ sp' ++ post).length < fuel →
    Agree target sp.length sp'.length (optParse env fuel ros (pre ++ sp ++ post) argip m)
      (optParse env fuel ros (pre ++ sp' ++ post) argip m)

/-- The first argument is the name of the program. -/
theorem passes_first (env : Env) (ros : List RdOpt) (m : Mem) : Passes env ros [[]] m := by
  obtain ⟨found, hfound⟩ : ∃ found, bitvecInit 512 = some found := ⟨_, rfl⟩
  exact ⟨found, scanStart found m, 0, hfound, fun _ _ => rfl⟩

/-- The table has an entry for the short name `x` and the long name `name`, which takes a value with the default parser
and accepts `v`. One of its names is not that of an entry before it, and no entry is called `name=v` as a whole. -/
structure Offers (env : Env) (entries : List RdOpt) (x : Char) (name v : CStr) (target k : Nat) (ro : RdOpt) :
    Prop where
  noEnd : ∀ r ∈ entries, bitTest r.roType optEnd = false
  entry : entries[k]? = some ro
  short : ro.roShort = x
  long : ro.roLong = some name
  named : (x ≠ nul ∧ x ≠ '-' ∧ ∀ j < k, ∀ r, entries[j]? = some r → r.roShort ≠ x) ∨
    ('=' ∉ name ∧ ∀ j < k, ∀ r, entries[j]? = some r → r.roLong ≠ some name)
  argcnt : ro.roArgcnt ≠ 0
  parse : ro.roParse = none ∧ ro.roOpaque = some target
  value : v ≠ [] ∧ TypeOk env ro v
  whole : ∀ r ∈ entries, r.roLong ≠ some (name ++ '=' :: v)

/-! ## The value as an argument of its own -/

section Separate

variable {env : Env} {entries : List RdOpt} {final ro : RdOpt} {x : Char} {name v : CStr} {target k : Nat}

/-- The first entry that an option names. -/
theorem matchOpt_first {c : Char} {longopt : Option CStr} (hend : ∀ r ∈ entries, bitTest r.roType optEnd = false)
    (hf : final.roType = optEnd) (hk : entries[k]? = some ro) (hhit : Hit c longopt ro)
    (hfirst : ∀ j < k, ∀ r, entries[j]? = some r → ¬Hit c longopt r) :
    matchOpt c longopt (entries ++ [final]) 0 = .ok (some (k, ro)) := by
  rcases matchOpt_ok hf c longopt 0 hend with ⟨-, hno⟩ | ⟨k', ro', hmatch, hk', hhit', hfirst'⟩
  · exact absurd hhit (hno ro (List.mem_of_getElem? hk))
  · have hkk : k' = k := by
      rcases Nat.lt_trichotomy k' k with hlt | heq | hgt
      · exact absurd hhit' (hfirst k' hlt ro' hk')
      · exact heq
      · exact absurd hhit (hfirst' k hgt ro hk)
    subst hkk
    obtain rfl := Option.some.inj (hk'.symm.trans hk)
    rw [hmatch, Nat.zero_add]

/-- An entry whose value is right is taken, if its group is free; an impossible group is a fault. -/
theorem Offers.takeOpt_ok (h : Offers env entries x name v target k ro) {argv : List CStr} {newi : Nat}
    (hv : argv[newi]? = some v) (found : Bitvec) (m : Mem) :
    Outcome (fun _ => True) (fun r => ∃ s, r = (s, .ok newi))
      (takeOpt env argv k ro (some v) newi (scanStart found m)) := by
  unfold takeOpt
  refine Outcome.ite (fun hc => absurd hc.1 h.argcnt) fun _ => Outcome.ite (fun hc => nomatch hc.2) fun _ => ?_
  refine Outcome.bind (P := fun r => ∃ s, r = (s, .ok ())) ?_ ?_
  · unfold checkMut
    refine Outcome.ite (fun _ => ?_) fun _ => ⟨_, rfl⟩
    by_cases hg : mutGrp ro.roType < optMutNum + 1
    · have hnone : (scanStart found m).mutro[mutGrp ro.roType]? = some none := List.getElem?_replicate_of_lt hg
      rw [hnone]
      exact ⟨_, rfl⟩
    · have hnone : (scanStart found m).mutro[mutGrp ro.roType]? = none :=
        List.getElem?_eq_none (by simpa [scanStart] using Nat.not_lt.1 hg)
      rw [hnone]
      trivial
  · rintro _ ⟨s, rfl⟩
    refine Outcome.bind (P := fun r => ∃ s, r = (s, .ok newi)) ?_ ?_
    · have hassign : Outcome (fun _ => False) (fun p => p.2 = none)
          (optParseAssign env ro argv newi (some target) s.mem) := by
        refine (assign_value (C := False) (some target) s.mem h.argcnt hv fun hn => hn h.value.2).mono ?_ ?_
        · exact fun _ he => he.2
        · exact fun _ hp => hp.2 h.value.2
      obtain ⟨⟨m', r⟩, hok, hr⟩ := hassign.exists_ok
      obtain rfl : r = none := hr
      unfold runParser
      rw [h.parse.1, h.parse.2]
      refine Outcome.bind (P := fun p => p = (m', none)) (by rw [hok]; exact rfl) ?_
      rintro _ rfl
      exact ⟨_, rfl⟩
    · rintro _ ⟨s, rfl⟩
      exact ⟨_, rfl⟩

/-- An argument that names the entry, and the value, and `--help`: a call for help. -/
theorem Offers.separate_arg (h : Offers env entries x name v target k ro) (c : Char) (longopt : Option CStr)
    {rest : CStr} (hsplit : splitArg ('-' :: rest) = .ok (c, longopt, none))
    (hmatch : matchOpt c longopt (entries ++ [final]) 0 = .ok (some (k, ro)))
    (hval : optVal [[], '-' :: rest, v, "--help".toList] 1 ro longopt none = (some v, 2)) {fuel : Nat}
    (hfuel : 4 < fuel) (argip : Option Nat) (m : Mem) :
    Outcome (fun _ => True) (fun r => r.ret = some "(help)".toList)
      (optParse env fuel (entries ++ [final]) [[], '-' :: rest, v, "--help".toList] argip m) := by
  obtain ⟨fuel, rfl⟩ : ∃ f, fuel = f + 2 := ⟨fuel - 2, by omega⟩
  obtain ⟨found, hfound⟩ : ∃ found, bitvecInit 512 = some found := ⟨_, rfl⟩
  unfold optParse
  rw [hfound]
  refine Outcome.bind (P := fun r => ∃ s, r = (s, .error "(help)".toList)) ?_ ?_
  · unfold scanArgs
    refine Outcome.ite (fun hc => absurd rfl hc) fun _ => Outcome.ite (fun _ => ⟨_, rfl⟩) fun _ => ?_
    refine Outcome.bind (P := fun r => ∃ s, r = (s, .ok 2)) ?_ ?_
    · refine Outcome.bind (P := fun p => p = (c, longopt, none)) (by rw [hsplit]; exact rfl) ?_
      rintro _ rfl
      refine Outcome.bind (P := fun r => r = some (k, ro)) (by rw [hmatch]; exact rfl) ?_
      rintro _ rfl
      simp only [hval]
      exact h.takeOpt_ok rfl found m
    · rintro _ ⟨s, rfl⟩
      exact ⟨s, rfl⟩
  · rintro _ ⟨s, rfl⟩
    rfl

/-- `-x V --help` or `--N V --help` is a call for help. -/
theorem Offers.separate (h : Offers env entries x name v target k ro) (hf : final.roType = optEnd) {fuel : Nat}
    (hfuel : 4 < fuel) (argip : Option Nat) (m : Mem) :
    ∃ arg, [arg, v] ∈ spellings x name v ∧ Outcome (fun _ => True) (fun r => r.ret = some "(help)".toList)
      (optParse env fuel (entries ++ [final]) [[], arg, v, "--help".toList] argip m) := by
  rcases h.named with ⟨hnul, hdash, hfirst⟩ | ⟨hno, hfirst⟩
  · refine ⟨['-', x], by simp [spellings], h.separate_arg x none ?_ ?_ ?_ hfuel argip m⟩
    · simp [splitArg, charAt, hdash, bind, Except.bind, pure, Except.pure]
    · refine matchOpt_first h.noEnd hf h.entry (.inl ⟨rfl, by rw [h.short]; exact hnul, h.short⟩) ?_
      rintro j hj r hr (⟨-, -, hs⟩ | ⟨hne, -⟩)
      · exact hfirst j hj r hr hs
      · exact hne rfl
    · simp [optVal, h.argcnt]
  · refine ⟨'-' :: '-' :: name, by simp [spellings], h.separate_arg '-' (some name) rfl ?_ ?_ hfuel argip m⟩
    · refine matchOpt_first h.noEnd hf h.entry (.inr ⟨Option.some_ne_none name, h.long⟩) ?_
      rintro j hj r hr (⟨hn, -⟩ | ⟨-, hl⟩)
      · cases hn
      · exact hfirst j hj r hr hl
    · simp [optVal, h.argcnt, hno]

/-! ## The value behind a `=` -/

/-- `--N=V` is an unknown option. -/
theorem Offers.attached (h : Offers env entries x name v target k ro) (hf : final.roType = optEnd) {fuel : Nat}
    (hfuel : 0 < fuel) (rest : List CStr) (argip : Option Nat) (m : Mem) :
    ∃ m', optParse env fuel (entries ++ [final]) ([] :: ('-' :: '-' :: name ++ '=' :: v) :: rest) argip m =
      .ok ⟨some (message 1024 ("Unknown option: ".toList ++ ('-' :: '-' :: name ++ '=' :: v))), argip, m'⟩ := by
  obtain ⟨fuel, rfl⟩ : ∃ f, fuel = f + 1 := ⟨fuel - 1, by omega⟩
  obtain ⟨found, hfound⟩ : ∃ found, bitvecInit 512 = some found := ⟨_, rfl⟩
  have hmatch : matchOpt '-' (some (name ++ '=' :: v)) (entries ++ [final]) 0 = .ok none := by
    rcases matchOpt_ok hf '-' (some (name ++ '=' :: v)) 0 h.noEnd with ⟨hmatch, -⟩ | ⟨k', ro', -, hk', hhit, -⟩
    · exact hmatch
    · rcases hhit with ⟨hn, -⟩ | ⟨-, hlong⟩
      · cases hn
      · exact absurd hlong (h.whole ro' (List.mem_of_getElem? hk'))
  have hhelp : '-' :: '-' :: name ++ '=' :: v ≠ "--help".toList := by
    intro heq
    have hmem : '=' ∈ "--help".toList := heq ▸ (by simp)
    exact absurd hmem (by decide)
  have hout : Outcome (fun _ => False) (fun r => r = Parsed.mk
      (some (message 1024 ("Unknown option: ".toList ++ ('-' :: '-' :: name ++ '=' :: v)))) argip m)
      (optParse env (fuel + 1) (entries ++ [final]) ([] :: ('-' :: '-' :: name ++ '=' :: v) :: rest) argip m) := by
    unfold optParse
    rw [hfound]
    refine Outcome.bind (P := fun r => r = (scanStart found m, .error
      (message 1024 ("Unknown option: ".toList ++ ('-' :: '-' :: name ++ '=' :: v))))) ?_ ?_
    · unfold scanArgs
      refine Outcome.ite (fun hc => absurd rfl hc) fun _ => Outcome.ite (fun hc => absurd hc hhelp) fun _ => ?_
      refine Outcome.bind (P := fun r => r = (scanStart found m, .error
        (message 1024 ("Unknown option: ".toList ++ ('-' :: '-' :: name ++ '=' :: v))))) ?_ ?_
      · refine Outcome.bind (P := fun p => p = ('-', some (name ++ '=' :: v), none)) rfl ?_
        rintro _ rfl
        refine Outcome.bind (P := fun r => r = none) (by rw [hmatch]; exact rfl) ?_
        rintro _ rfl
        rfl
      · rintro _ rfl
        rfl
    · rintro _ rfl
      rfl
  obtain ⟨r, hr, rfl⟩ := hout.exists_ok
  exact ⟨m, hr⟩

/-! ## The spellings differ -/

theorem help_ne_unknown (arg : CStr) :
    some "(help)".toList ≠ some (message 1024 ("Unknown option: ".toList ++ arg)) := by
  intro heq
  have hhead := congrArg List.head? (Option.some.inj heq)
  simp [message] at hhead

/-- **The four spellings never do the same**: for every entry of every table that `-x` or `--N` names and every value it
accepts, unless another entry is called `N=V`. -/
theorem spellings_differ (h : Offers env entries x name v target k ro) (hf : final.roType = optEnd) :
    ¬SameParse env (entries ++ [final]) x name v target := by
  intro hsame
  -- the option comes first among the arguments, and `--help` behind it
  obtain ⟨arg, hsp, hsep⟩ := h.separate hf (by decide : 4 < 5) none sampleMem
  obtain ⟨m', hatt⟩ := h.attached hf (by decide : 0 < 5) ["--help".toList] none sampleMem
  have hagree := hsame [[]] ["--help".toList] sampleMem none 5 (passes_first env _ sampleMem) [arg, v] hsp
    ['-' :: '-' :: name ++ '=' :: v] (by simp [spellings]) (by simp) (by simp)
  simp only [List.cons_append, List.nil_append] at hagree hsep hatt
  rw [hatt] at hagree
  match hp : optParse env 5 (entries ++ [final]) [[], arg, v, "--help".toList] none sampleMem with
  | .error e =>
    rw [hp] at hagree
    exact hagree
  | .ok p =>
    rw [hp] at hagree hsep
    exact help_ne_unknown _ ((hsep : p.ret = _).symm.trans hagree.1)

end Separate

/-- An entry for a string. -/
def strEntry : RdOpt :=
  { roType := optStr, roShort := 'c', roLong := some "csar".toList, roArgcnt := 1, roOpaque := some 0 }

/-- The end of a table. -/
def endEntry : RdOpt := { roType := optEnd }

theorem spellings_differ_str :
    Offers sampleEnv [strEntry] 'c' "csar".toList "2".toList 0 0 strEntry ∧
      ¬SameParse sampleEnv [strEntry, endEntry] 'c' "csar".toList "2".toList 0 := by
  have hoffers : Offers sampleEnv [strEntry] 'c' "csar".toList "2".toList 0 0 strEntry := by
    constructor <;> simp [strEntry, TypeOk] <;> decide
  exact ⟨hoffers, spellings_differ hoffers rfl⟩

/-- What is returned, and what is stored, for a spelling with `--help` behind it. -/
def strResult (sp : List CStr) : Option (Option CStr × Option Value) :=
  match optParse sampleEnv 5 [strEntry, endEntry] ([] :: sp ++ ["--help".toList]) none sampleMem with
  | .ok p => some (p.ret, p.mem.store 0)
  | .error _ => none

/-- `-c 2` stores `2`, `-c2` stores `-c2`, and `--csar=2` is unknown. -/
theorem spellings_str :
    strResult ["-c".toList, "2".toList] = some (some "(help)".toList, some (.ptr "2".toList)) ∧
    strResult ["-c2".toList] = some (some "(help)".toList, some (.ptr "-c2".toList)) ∧
    strResult ["--csar=2".toList] = some (some "Unknown option: --csar=2".toList, none) ∧
    ¬SameParse sampleEnv [strEntry, endEntry] 'c' "csar".toList "2".toList 0 := by
  refine ⟨rfl, rfl, rfl, fun hsame => ?_⟩
  have hagree := hsame [[]] ["--help".toList] sampleMem none 5 (passes_first _ _ sampleMem) ["-c".toList, "2".toList]
    (by decide) ["-c2".toList] (by decide) (by decide) (by decide)
  exact absurd hagree.2.1 (by decide)

end Librd.Opt
