import Librd.Opt.Spelling
import Librd.Lib.Traced

/-!
# What `rd_opt_parse` reads

The loop of `rd_opt_parse` goes from one argument to a later one (`visits`); an iteration goes on only over an empty
argument or an option that is taken (`goesOn_cases`).

`optParseReads` is `rd_opt_parse` with its accesses to `argv`, to the arguments and to `mutro`: pointers into the
arguments are pointers, and characters are had by reading them. Without the accesses it is `optParse`
(`optParseReads_res`), and its accesses are those of the iterations (`optParseReads_log`). Functions of the C library
count as reading a string up to its NUL.

- The default parser reads inside of `argv` and of its strings (`optParseAssignReads_all`), and so does an iteration;
  but the character 2 is read without a look at the character 1, which may be the NUL (`iterReads_all`).
- So all is inside exactly if no argument is a lone `-`, and no option has a place outside of `mutro`
  (`reads_inside_iff`). After an access outside of `mutro` nothing is known of what is read.
-/

namespace Librd.Opt

open Librd.Bits

/-! ## The iterations of the loop -/

/-- An iteration: `argi`, the argument there, and what the scan keeps at its start. -/
structure Visit where
  argi : Nat
  arg : CStr
  scan : Scan

/-- An argument that is looked up in the table. -/
def IsOption (arg : CStr) : Prop := arg.head? = some '-' ∧ arg ≠ "--help".toList

instance (arg : CStr) : Decidable (IsOption arg) := inferInstanceAs (Decidable (_ ∧ _))

/-- The next position, and what is kept then, if the loop goes on. -/
def goesOn (env : Env) (ros : List RdOpt) (argv : List CStr) (v : Visit) : Option (Nat × Scan) :=
  if v.arg = [] then some (v.argi + 1, v.scan)
  else if IsOption v.arg then
    match scanOpt env ros argv v.argi v.arg v.scan with
    | .ok (s, .ok newi) => some (newi + 1, s)
    | _ => none
  else none

/-- The iterations of the loop from a position on. -/
def visits (env : Env) (ros : List RdOpt) (argv : List CStr) : Nat → Nat → Scan → List Visit
  | 0, _, _ => []
  | fuel + 1, argi, s =>
    match argv[argi]? with
    | none => []
    | some arg =>
      ⟨argi, arg, s⟩ :: match goesOn env ros argv ⟨argi, arg, s⟩ with
        | some (argi, s) => visits env ros argv fuel argi s
        | none => []

/-- The scan of `rd_opt_parse` at its start. -/
def startOf (m : Mem) : Scan := scanStart ⟨512, List.replicate 17 0, rfl⟩ m

/-- An option that the table has: the number of its entry, the entry, its value and `newi`. -/
structure Match where
  roi : Nat
  ro : RdOpt
  val : Option CStr
  newi : Nat

/-- The entry for an argument. -/
def lookup (ros : List RdOpt) (argv : List CStr) (argi : Nat) (arg : CStr) : Except Fault (Option Match) := do
  let (c, longopt, text) ← splitArg arg
  match ← matchOpt c longopt ros 0 with
  | none => return none
  | some (roi, ro) => return some ⟨roi, ro, (optVal argv argi ro longopt text).1, (optVal argv argi ro longopt text).2⟩

/-- The entry that an iteration finds. -/
def matched (ros : List RdOpt) (argv : List CStr) (v : Visit) : Option Match :=
  if IsOption v.arg then
    match lookup ros argv v.argi v.arg with
    | .ok r => r
    | .error _ => none
  else none

/-- There is a value exactly if the entry takes one. -/
def ValueOk (mt : Match) : Prop := mt.ro.roArgcnt = 0 ↔ mt.val = none

instance (mt : Match) : Decidable (ValueOk mt) := inferInstanceAs (Decidable (_ ↔ _))

/-- The index of `mutro` that an iteration looks at. -/
def mutIndexes (ros : List RdOpt) (argv : List CStr) (v : Visit) : List Nat :=
  match matched ros argv v with
  | some mt => if ValueOk mt ∧ bitTest mt.ro.roType optMutMask then [mutGrp mt.ro.roType] else []
  | none => []

section Visits

variable {env : Env} {ros : List RdOpt} {argv : List CStr}

theorem scanOpt_eq (argi : Nat) (arg : CStr) (s : Scan) : scanOpt env ros argv argi arg s =
    (lookup ros argv argi arg >>= fun
      | none => return (s, .error (message 1024 ("Unknown option: ".toList ++ arg)))
      | some mt => takeOpt env argv mt.roi mt.ro mt.val mt.newi s) := by
  unfold scanOpt lookup
  cases splitArg arg with
  | error e => rfl
  | ok p =>
    obtain ⟨c, longopt, text⟩ := p
    simp only [bind, Except.bind]
    cases matchOpt c longopt ros 0 with
    | error e => rfl
    | ok r =>
      cases r with
      | none => rfl
      | some q => rfl

theorem optParse_eq (fuel : Nat) (argip : Option Nat) (m : Mem) : optParse env fuel ros argv argip m =
    (scanArgs env ros argv fuel 1 (startOf m) >>= fun
      | (s, .error text) => return { ret := some text, argip := argip, mem := s.mem }
      | (s, .ok argi) => finishParse ros argip s argi) := rfl

/-- The loop of `rd_opt_parse`, one iteration at a time. -/
theorem scanArgs_visit {fuel argi : Nat} {arg : CStr} {s : Scan} {argi' : Nat} {s' : Scan}
    (harg : argv[argi]? = some arg) (hgo : goesOn env ros argv ⟨argi, arg, s⟩ = some (argi', s')) :
    scanArgs env ros argv (fuel + 1) argi s = scanArgs env ros argv fuel argi' s' := by
  cases arg with
  | nil =>
    obtain ⟨rfl, rfl⟩ : argi + 1 = argi' ∧ s = s' := by simpa [goesOn] using hgo
    simp only [scanArgs, harg]
  | cons c arg =>
    simp only [goesOn, if_neg (List.cons_ne_nil c arg)] at hgo
    split at hgo
    · next hopt =>
      have hc : ¬c ≠ '-' := not_not.2 (Option.some.inj hopt.1)
      simp only [scanArgs, harg, if_neg hc, if_neg hopt.2]
      split at hgo
      · next hok =>
        cases hgo
        rw [hok]
        rfl
      · cases hgo
    · cases hgo

theorem visits_none {fuel argi : Nat} {s : Scan} (harg : argv[argi]? = none) :
    visits env ros argv fuel argi s = [] := by
  cases fuel with
  | zero => rfl
  | succ fuel => simp only [visits, harg]

theorem visits_end {fuel argi : Nat} {arg : CStr} {s : Scan} (harg : argv[argi]? = some arg)
    (hgo : goesOn env ros argv ⟨argi, arg, s⟩ = none) :
    visits env ros argv (fuel + 1) argi s = [⟨argi, arg, s⟩] := by
  simp only [visits, harg, hgo]

theorem visits_next {fuel argi : Nat} {arg : CStr} {s : Scan} {argi' : Nat} {s' : Scan}
    (harg : argv[argi]? = some arg) (hgo : goesOn env ros argv ⟨argi, arg, s⟩ = some (argi', s')) :
    visits env ros argv (fuel + 1) argi s = ⟨argi, arg, s⟩ :: visits env ros argv fuel argi' s' := by
  simp only [visits, harg, hgo]

/-- Invariants of the loop hold at every iteration. -/
theorem visits_invariant {P : Nat → Scan → Prop}
    (hstep : ∀ v argi s, argv[v.argi]? = some v.arg → P v.argi v.scan →
      goesOn env ros argv v = some (argi, s) → P argi s) :
    ∀ {fuel argi : Nat} {s : Scan}, P argi s →
      ∀ v ∈ visits env ros argv fuel argi s, argv[v.argi]? = some v.arg ∧ P v.argi v.scan := by
  intro fuel
  induction fuel with
  | zero =>
    intro argi s _ v hv
    cases hv
  | succ fuel ih =>
    intro argi s h v hv
    cases harg : argv[argi]? with
    | none =>
      rw [visits_none harg] at hv
      cases hv
    | some arg =>
      cases hgo : goesOn env ros argv ⟨argi, arg, s⟩ with
      | none =>
        rw [visits_end harg hgo, List.mem_singleton] at hv
        subst hv
        exact ⟨harg, h⟩
      | some p =>
        rw [visits_next harg hgo, List.mem_cons] at hv
        rcases hv with rfl | hv
        · exact ⟨harg, h⟩
        · exact ih (hstep ⟨argi, arg, s⟩ p.1 p.2 harg h hgo) v hv

/-- Where the loop ends without a message, there is no option, and nothing has changed. -/
theorem scanArgs_end {fuel argi stop : Nat} {arg : CStr} {s s' : Scan} (harg : argv[argi]? = some arg)
    (hgo : goesOn env ros argv ⟨argi, arg, s⟩ = none)
    (h : scanArgs env ros argv (fuel + 1) argi s = .ok (s', .ok stop)) : ¬IsOption arg ∧ s' = s := by
  cases arg with
  | nil => simp [goesOn] at hgo
  | cons c rest =>
    simp only [scanArgs, harg] at h
    by_cases hc : c = '-'
    · rw [if_neg (not_not.2 hc)] at h
      split at h
      · cases h
      · next hhelp =>
        have hopt : IsOption (c :: rest) := ⟨by rw [hc]; rfl, hhelp⟩
        obtain ⟨⟨s₁, r⟩, hscan, h⟩ := Outcome.exists_of_bind h
        cases r with
        | error text => cases h
        | ok newi => simp [goesOn, hopt, hscan] at hgo
    · rw [if_pos hc] at h
      cases h
      exact ⟨fun hopt => hc (Option.some.inj hopt.1), rfl⟩

/-- The loop goes on over an empty argument, or over an option that is taken. -/
theorem goesOn_cases {v : Visit} {argi : Nat} {s : Scan} (h : goesOn env ros argv v = some (argi, s)) :
    (¬IsOption v.arg ∧ s = v.scan) ∨
    (IsOption v.arg ∧ ∃ n, scanOpt env ros argv v.argi v.arg v.scan = .ok (s, .ok n)) := by
  unfold goesOn at h
  split at h
  · next hnil =>
    cases h
    refine .inl ⟨fun hopt => ?_, rfl⟩
    rw [hnil] at hopt
    cases hopt.1
  · split at h
    · next hopt =>
      refine .inr ⟨hopt, ?_⟩
      split at h
      · next hok =>
        cases h
        exact ⟨_, hok⟩
      · cases h
    · cases h

end Visits

/-! ## Accesses -/

/-- An access to an entry of `argv`, to a character of the string at an entry, or to a place of `mutro`. -/
inductive Access
  | entry (k : Nat)
  | char (k off : Nat)
  | place (g : Nat)
  deriving DecidableEq, Repr

/-- An entry with an index below `argc`, a character up to the NUL, or one of the places that `mutro` has. -/
def Access.Inside (argv : List CStr) : Access → Prop
  | .entry k => k < argv.length
  | .char k off => ∃ arg, argv[k]? = some arg ∧ off ≤ arg.length
  | .place g => g < optMutNum + 1

/-- An access to `argv` or to its strings, inside of them. -/
def Access.InArgv (argv : List CStr) : Access → Prop
  | .place _ => False
  | x => x.Inside argv

/-- A part of the program with its accesses. -/
abbrev Reads (α : Type) := Traced Access Fault α

/-- A pointer into the string at an entry of `argv`. -/
structure Ptr where
  entry : Nat
  off : Nat
  deriving DecidableEq, Repr

def Ptr.plus (p : Ptr) (n : Nat) : Ptr := { p with off := p.off + n }

/-- The string that a pointer points to. -/
def strOf (argv : List CStr) (p : Ptr) : Except Fault CStr :=
  match argv[p.entry]? with
  | some arg => if p.off ≤ arg.length then .ok (arg.drop p.off) else .error .memory
  | none => .error .memory

/-- `argv[k]`. -/
def entryAt (argv : List CStr) (k : Nat) : Reads Ptr :=
  ⟨[.entry k], if k < argv.length then .ok ⟨k, 0⟩ else .error .memory⟩

/-- `p[i]`. -/
def readChar (argv : List CStr) (p : Ptr) (i : Nat) : Reads Char :=
  ⟨[.char p.entry (p.off + i)], match argv[p.entry]? with
    | some arg => charAt arg (p.off + i)
    | none => .error .memory⟩

/-- What the functions for strings read at `p`: all characters up to the NUL. -/
def readStr (argv : List CStr) (p : Ptr) : Reads CStr :=
  ⟨(List.range' p.off ((argv.getD p.entry []).length - p.off + 1)).map (.char p.entry), strOf argv p⟩

/-- `mutro[g]`. -/
def readMut (s : Scan) (g : Nat) : Reads (Option RdOpt) :=
  ⟨[.place g], match s.mutro[g]? with
    | some r => .ok r
    | none => .error .memory⟩

/-- `mutro[g] = ro`. -/
def writeMut (s : Scan) (g : Nat) (ro : RdOpt) : Reads Scan :=
  ⟨[.place g], if g < s.mutro.length then .ok { s with mutro := s.mutro.set g (some ro) } else .error .memory⟩

/-! ## `rd_opt_parse` with its accesses

The functions below are those of `rd_opt_parse` once more: `argv` is read by `entryAt`, `readChar` and `readStr` only,
and pointers are kept where the source keeps pointers. -/

/-- `*opaque = v`, where there is an `opaque`. -/
def assignTo (target : Option Nat) (m : Mem) (v : Value) : Mem :=
  match target with
  | some a => { m with store := fun a' => if a' = a then some v else m.store a' }
  | none => m

/-- `!v && end == argv[*argip]`. -/
def unusedReads (argv : List CStr) (argip : Nat) (v : Int) (stop : Ptr) : Reads Bool :=
  if v = 0 then do return decide (stop = (← entryAt argv argip)) else return false

/-- The value of an option of type `RD_OPT_INT` or `RD_OPT_BOOL`. -/
def assignIntReads (ro : RdOpt) (argv : List CStr) (argip : Nat) (target : Option Nat) (m : Mem) :
    Reads (Mem × Option CStr) := do
  let start ← entryAt argv argip
  let arg ← readStr argv start
  let v := Int.bmod (strtol arg).1 (2 ^ 32)
  if ← unusedReads argv argip v (start.plus (strtol arg).2) then
    let (m, text) ← .lift (optMessage 512 m "Option " ro " requires integer argument".toList)
    return (m, some text)
  return (assignTo target m (.int (if bitTest ro.roType optBool then (if v ≠ 0 then 1 else 0) else v)), none)

/-- The pointer `argv[*argip]` is stored: it stands for its string, of which nothing is read. -/
def assignPtrReads (argv : List CStr) (argip : Nat) (target : Option Nat) (m : Mem) : Reads (Mem × Option CStr) := do
  let p ← entryAt argv argip
  let s ← .lift (strOf argv p)
  return (assignTo target m (.ptr s), none)

/-- The value of an option of type `RD_OPT_PATH`. -/
def assignPathReads (env : Env) (ro : RdOpt) (argv : List CStr) (argip : Nat) (target : Option Nat) (m : Mem) :
    Reads (Mem × Option CStr) := do
  match env.stat (← readStr argv (← entryAt argv argip)) with
  | some errno =>
    let arg ← readStr argv (← entryAt argv argip)
    let (m, text) ← .lift (optMessage 512 m "Option " ro
      (" path ".toList ++ arg ++ ": ".toList ++ env.strerror errno))
    return (m, some text)
  | none => assignPtrReads argv argip target m

/-- The value of an option of type `RD_OPT_STR`. -/
def assignStrReads (ro : RdOpt) (argv : List CStr) (argip : Nat) (target : Option Nat) (m : Mem) :
    Reads (Mem × Option CStr) := do
  if (← readChar argv (← entryAt argv argip) 0) = nul then
    let (m, text) ← .lift (optMessage 512 m "Option " ro " requires an argument".toList)
    return (m, some text)
  assignPtrReads argv argip target m

def optParseAssignReads (env : Env) (ro : RdOpt) (argv : List CStr) (argip : Nat) (target : Option Nat) (m : Mem) :
    Reads (Mem × Option CStr) :=
  if ro.roArgcnt = 0 then
    return (if bitTest ro.roType (optBool ||| optInt) then assignTo target m (.int 1) else m, none)
  else if bitTest ro.roType (optInt ||| optBool) then assignIntReads ro argv argip target m
  else if bitTest ro.roType optPath then assignPathReads env ro argv argip target m
  else if bitTest ro.roType optStr then assignStrReads ro argv argip target m
  else return (m, none)

/-- `longopt`, and `val` where text is attached to a short option. -/
def splitArgReads (argv : List CStr) (argi : Nat) : Reads (Option Ptr × Option Ptr) := do
  if (← readChar argv (← entryAt argv argi) 1) = '-' then return (some ((← entryAt argv argi).plus 2), none)
  if (← readChar argv (← entryAt argv argi) 2) ≠ nul then return (none, some ((← entryAt argv argi).plus 2))
  return (none, none)

/-- Is an entry the one that the argument names. -/
def hitReads (argv : List CStr) (argi : Nat) (longopt : Option Ptr) (ro : RdOpt) : Reads Bool :=
  match longopt, ro.roLong with
  | none, _ =>
    if ro.roShort ≠ nul then do return decide (ro.roShort = (← readChar argv (← entryAt argv argi) 1))
    else return false
  | some p, some name => do return decide ((← readStr argv p) = name)
  | some _, none => return false

def matchOptReads (argv : List CStr) (argi : Nat) (longopt : Option Ptr) :
    List RdOpt → Nat → Reads (Option (Nat × RdOpt))
  | [], _ => .lift (.error .memory)
  | ro :: ros, roi => do
    if ro.roType = optEnd then return none
    if ← hitReads argv argi longopt ro then return some (roi, ro)
    matchOptReads argv argi longopt ros (roi + 1)

def optValReads (argv : List CStr) (argi : Nat) (ro : RdOpt) (longopt text : Option Ptr) : Reads (Option Ptr × Nat) :=
  match longopt with
  | none => do
    if ro.roArgcnt ≠ 0 ∧ text = none ∧ argi + 1 < argv.length then
      return (some (← entryAt argv (argi + 1)), argi + 1)
    return (text, argi)
  | some p => do
    let l ← readStr argv p
    if '=' ∈ l then return (some (p.plus ((l.takeWhile (· ≠ '=')).length + 1)), argi)
    if ro.roArgcnt ≠ 0 ∧ argi + 1 < argv.length then
      return (some (← entryAt argv (argi + 1)), argi + 1)
    return (none, argi)

def checkMutReads (env : Env) (ro : RdOpt) (s : Scan) : Reads (Reply Unit) := do
  if bitTest ro.roType optMutMask then
    match ← readMut s (mutGrp ro.roType) with
    | some other => do
      -- `mutro[mg]` is read again for the message
      let _ ← readMut s (mutGrp ro.roType)
      .lift (do
        let (m, a, b) ← optSyntaxnames env s.mem ro other
        return ({ s with mem := m }, .error (message 1024 ("Option ".toList ++ (← cstrAt m.names a) ++
          " is mutually exclusive with already set option ".toList ++ (← cstrAt m.names b)))) :
          Except Fault (Reply Unit))
    | none => return (← writeMut s (mutGrp ro.roType) ro, .ok ())
  else return (s, .ok ())

/-- A parser of the caller is not a part of `rd_opt_parse`: what it reads does not count. -/
def runParserReads (env : Env) (ro : RdOpt) (argv : List CStr) (newi : Nat) (s : Scan) : Reads (Reply Nat) :=
  match ro.roParse, ro.roOpaque with
  | some _, _ => .lift (runParser env ro argv newi s)
  | none, some target => do
    let (m, r) ← optParseAssignReads env ro argv newi (some target) s.mem
    match r with
    | some text => return ({ s with mem := m }, .error text)
    | none => return ({ s with mem := m }, .ok newi)
  | none, none => return (s, .ok newi)

def takeOptReads (env : Env) (argv : List CStr) (roi : Nat) (ro : RdOpt) (val : Option Ptr) (newi : Nat) (s : Scan) :
    Reads (Reply Nat) := do
  if ro.roArgcnt = 0 ∧ val ≠ none then
    let (m, text) ← .lift (optMessage 1024 s.mem "Option " ro " doesnot expect any arguments".toList)
    return ({ s with mem := m }, .error text)
  else if ro.roArgcnt ≠ 0 ∧ val = none then
    let (m, text) ← .lift (optMessage 1024 s.mem "Missing arguments to option " ro [])
    return ({ s with mem := m }, .error text)
  else
    match ← checkMutReads env ro s with
    | (s, .error text) => return (s, .error text)
    | (s, .ok ()) =>
      match ← runParserReads env ro argv newi s with
      | (s, .error text) => return (s, .error text)
      | (s, .ok newi) => return ({ s with found := bitvecSet s.found roi }, .ok newi)

def scanOptReads (env : Env) (ros : List RdOpt) (argv : List CStr) (argi : Nat) (s : Scan) : Reads (Reply Nat) := do
  let (longopt, text) ← splitArgReads argv argi
  match ← matchOptReads argv argi longopt ros 0 with
  | none =>
    let arg ← readStr argv (← entryAt argv argi)
    return (s, .error (message 1024 ("Unknown option: ".toList ++ arg)))
  | some (roi, ro) =>
    let (val, newi) ← optValReads argv argi ro longopt text
    takeOptReads env argv roi ro val newi s

/-- An iteration of the loop: the next `argi`, if the loop goes on. -/
def iterReads (env : Env) (ros : List RdOpt) (argv : List CStr) (argi : Nat) (s : Scan) :
    Reads (Reply (Option Nat)) := do
  if (← readChar argv (← entryAt argv argi) 0) = nul then return (s, .ok (some (argi + 1)))
  if (← readChar argv (← entryAt argv argi) 0) ≠ '-' then return (s, .ok none)
  if (← readStr argv (← entryAt argv argi)) = "--help".toList then return (s, .error "(help)".toList)
  match ← scanOptReads env ros argv argi s with
  | (s, .error text) => return (s, .error text)
  | (s, .ok newi) => return (s, .ok (some (newi + 1)))

def scanArgsReads (env : Env) (ros : List RdOpt) (argv : List CStr) : Nat → Nat → Scan → Reads (Reply Nat)
  | 0, _, _ => .lift (.error .fuel)
  | fuel + 1, argi, s => do
    if ¬argi < argv.length then return (s, .ok argi)
    match ← iterReads env ros argv argi s with
    | (s, .error text) => return (s, .error text)
    | (s, .ok none) => return (s, .ok argi)
    | (s, .ok (some argi)) => scanArgsReads env ros argv fuel argi s

/-- `rd_opt_parse`. After the loop nothing of `argv` is read. -/
def optParseReads (env : Env) (fuel : Nat) (ros : List RdOpt) (argv : List CStr) (argip : Option Nat) (m : Mem) :
    Reads Parsed := do
  match ← scanArgsReads env ros argv fuel 1 (startOf m) with
  | (s, .error text) => return { ret := some text, argip := argip, mem := s.mem }
  | (s, .ok argi) => .lift (finishParse ros argip s argi)

/-! ## The copy is the program -/

/-- The value is an argument, at the position of the option or after it. -/
theorem optVal_lt {argv : List CStr} {argi : Nat} {ro : RdOpt} {longopt text : Option CStr} (h : argi < argv.length) :
    (optVal argv argi ro longopt text).2 < argv.length := by
  unfold optVal
  cases longopt with
  | none =>
    dsimp only
    split
    · next hnext => exact hnext.2.2
    · exact h
  | some l =>
    dsimp only
    split
    · exact h
    · split
      · next hnext => exact hnext.2
      · exact h

section Erase

variable {env : Env} {ros : List RdOpt} {argv : List CStr} {argi : Nat} {arg : CStr} {s : Scan} {ro : RdOpt}

theorem entryAt_res (h : argv[argi]? = some arg) : (entryAt argv argi).res = .ok ⟨argi, 0⟩ :=
  if_pos (List.getElem?_eq_some_iff.1 h).1

theorem entryAt_lt (h : argi < argv.length) : (entryAt argv argi).res = .ok ⟨argi, 0⟩ := if_pos h

theorem readChar_res (h : argv[argi]? = some arg) (off i : Nat) :
    (readChar argv ⟨argi, off⟩ i).res = charAt arg (off + i) := by
  simp only [readChar, h]

theorem strOf_eq (h : argv[argi]? = some arg) {off : Nat} (hoff : off ≤ arg.length) :
    strOf argv ⟨argi, off⟩ = .ok (arg.drop off) := by
  simp only [strOf, h, if_pos hoff]

theorem readStr_res (p : Ptr) : (readStr argv p).res = strOf argv p := rfl

/-- The first character is the NUL exactly if there is nothing before it. -/
theorem charAt_zero (hnul : nul ∉ arg) : charAt arg 0 = .ok (arg.headD nul) ∧ (arg.headD nul = nul ↔ arg = []) := by
  cases arg with
  | nil => exact ⟨rfl, iff_of_true rfl rfl⟩
  | cons c arg => exact ⟨rfl, fun h => absurd (h ▸ List.mem_cons_self) hnul, fun h => absurd h (List.cons_ne_nil _ _)⟩

/-- The default parser, for a value that is an argument. -/
theorem optParseAssignReads_res (env : Env) (ro : RdOpt) (target : Option Nat) (m : Mem)
    (h : argv[argi]? = some arg) (hnul : nul ∉ arg) :
    (optParseAssignReads env ro argv argi target m).res = optParseAssign env ro argv argi target m := by
  have hentry := entryAt_res h
  have hstr : (readStr argv ⟨argi, 0⟩).res = .ok arg := strOf_eq h (Nat.zero_le _)
  have hptr : (assignPtrReads argv argi target m).res = .ok (assignTo target m (.ptr arg), none) := by
    rw [assignPtrReads, Traced.res_bind_ok hentry]
    exact Traced.res_bind_ok hstr
  have hmessage (m : Mem) (ro : RdOpt) (after : CStr) :
      (do let (m, text) ← .lift (optMessage 512 m "Option " ro after)
          return (m, some text) : Reads (Mem × Option CStr)).res =
        (do let (m, text) ← optMessage 512 m "Option " ro after
            return (m, some text)) := by
    cases optMessage 512 m "Option " ro after <;> rfl
  unfold optParseAssignReads optParseAssign
  by_cases hcnt : ro.roArgcnt = 0
  · simp only [if_pos hcnt]
    cases target <;> rfl
  · simp only [if_neg hcnt, h]
    by_cases hint : bitTest ro.roType (optInt ||| optBool) = true
    · simp only [if_pos hint]
      have hunused :
        (unusedReads argv argi (Int.bmod (strtol arg).1 (2 ^ 32)) (Ptr.plus ⟨argi, 0⟩ (strtol arg).2)).res =
          .ok (decide (Int.bmod (strtol arg).1 (2 ^ 32) = 0 ∧ (strtol arg).2 = 0)) := by
        unfold unusedReads
        by_cases hv : Int.bmod (strtol arg).1 (2 ^ 32) = 0
        · rw [if_pos hv, Traced.res_bind_ok hentry, Traced.res_pure]
          simp only [hv, Ptr.plus, Nat.zero_add, true_and, Ptr.mk.injEq]
        · rw [if_neg hv, Traced.res_pure]
          simp only [hv, false_and, decide_false]
      rw [assignIntReads, Traced.res_bind_ok hentry, Traced.res_bind_ok hstr, Traced.res_bind_ok hunused]
      by_cases hu : Int.bmod (strtol arg).1 (2 ^ 32) = 0 ∧ (strtol arg).2 = 0
      · dsimp only
        rw [if_pos (decide_eq_true hu), if_pos hu]
        exact hmessage _ _ _
      · dsimp only
        rw [if_neg (mt of_decide_eq_true hu), if_neg hu]
        cases target <;> rfl
    · simp only [if_neg hint]
      by_cases hpath : bitTest ro.roType optPath = true
      · simp only [if_pos hpath]
        rw [assignPathReads, Traced.res_bind_ok hentry, Traced.res_bind_ok hstr]
        cases env.stat arg with
        | none =>
          rw [hptr]
          cases target <;> rfl
        | some errno =>
          dsimp only
          rw [Traced.res_bind_ok hentry, Traced.res_bind_ok hstr]
          exact hmessage _ _ _
      · simp only [if_neg hpath]
        by_cases hstring : bitTest ro.roType optStr = true
        · simp only [if_pos hstring]
          obtain ⟨hchar, hempty⟩ := charAt_zero hnul
          rw [assignStrReads, Traced.res_bind_ok hentry, Traced.res_bind_ok ((readChar_res h 0 0).trans hchar)]
          by_cases hnil : arg = []
          · rw [if_pos (hempty.2 hnil), if_pos hnil]
            exact hmessage _ _ _
          · rw [if_neg (mt hempty.1 hnil), if_neg hnil, hptr]
            cases target <;> rfl
        · simp only [if_neg hstring]
          rfl

/-- The pointers to the text behind the names. -/
def Ptrs (argi : Nat) (r : Char × Option CStr × Option CStr) : Option Ptr × Option Ptr :=
  (r.2.1.map fun _ => ⟨argi, 2⟩, r.2.2.map fun _ => ⟨argi, 2⟩)

theorem splitArgReads_res (h : argv[argi]? = some arg) :
    (splitArgReads argv argi).res = (splitArg arg).map (Ptrs argi) := by
  have hentry := entryAt_res h
  unfold splitArgReads splitArg
  rw [Traced.res_bind_ok hentry, Traced.res_bind, readChar_res h, Nat.zero_add]
  cases charAt arg 1 with
  | error e => rfl
  | ok c =>
    show Traced.res (if c = '-' then _ else _) = Except.map _ (if c = '-' then _ else _)
    by_cases hc : c = '-'
    · rw [if_pos hc, if_pos hc, Traced.res_bind_ok hentry]
      rfl
    · rw [if_neg hc, if_neg hc, Traced.res_bind_ok hentry, Traced.res_bind, readChar_res h, Nat.zero_add]
      cases charAt arg 2 with
      | error e => rfl
      | ok c' =>
        show Traced.res (if c' ≠ nul then _ else _) = Except.map _ (if c' ≠ nul then _ else _)
        by_cases hc' : c' ≠ nul
        · rw [if_pos hc', if_pos hc', Traced.res_bind_ok hentry]
          rfl
        · rw [if_neg hc', if_neg hc']
          rfl

/-- What `splitArg` gives is the character 1, and the text from the character 2 on. -/
theorem splitArg_text {c : Char} {longopt text : Option CStr} (h : splitArg arg = .ok (c, longopt, text)) :
    charAt arg 1 = .ok c ∧ ∀ l, longopt = some l → l = arg.drop 2 ∧ 2 ≤ arg.length := by
  obtain ⟨c', hc', h⟩ := Outcome.exists_of_bind h
  split at h
  · next hdash =>
    cases h
    refine ⟨hc', fun l hl => ⟨(Option.some.inj hl).symm, ?_⟩⟩
    unfold charAt at hc'
    split at hc'
    · omega
    · split at hc'
      · cases hc'
        exact absurd hdash (by decide)
      · cases hc'
  · obtain ⟨c'', -, h⟩ := Outcome.exists_of_bind h
    split at h <;> cases h
    · exact ⟨hc', fun l hl => nomatch hl⟩
    · exact ⟨hc', fun l hl => nomatch hl⟩

/-- A pointer and the string it points to, or neither. -/
def Points (argv : List CStr) : Option Ptr → Option CStr → Prop
  | none, none => True
  | some p, some l => strOf argv p = .ok l
  | _, _ => False

theorem splitArg_points (h : argv[argi]? = some arg) {r : Char × Option CStr × Option CStr}
    (hsplit : splitArg arg = .ok r) : Points argv (Ptrs argi r).1 r.2.1 := by
  obtain ⟨c, longopt, text⟩ := r
  cases longopt with
  | none => trivial
  | some l =>
    obtain ⟨rfl, hlen⟩ := (splitArg_text hsplit).2 l rfl
    exact strOf_eq h hlen

theorem hitReads_res (h : argv[argi]? = some arg) {c : Char} (hc : charAt arg 1 = .ok c) {p : Option Ptr}
    {longopt : Option CStr} (hp : Points argv p longopt) (ro : RdOpt) :
    (hitReads argv argi p ro).res = .ok (decide (Hit c longopt ro)) := by
  cases p with
  | none =>
    cases longopt with
    | some l => exact hp.elim
    | none =>
      have hchar : (readChar argv ⟨argi, 0⟩ 1).res = .ok c := (readChar_res h 0 1).trans hc
      unfold hitReads
      by_cases hshort : ro.roShort ≠ nul
      · rw [if_pos hshort, Traced.res_bind_ok (entryAt_res h), Traced.res_bind_ok hchar, Traced.res_pure]
        simp [Hit, hshort]
      · rw [if_neg hshort, Traced.res_pure]
        simp [Hit, hshort]
  | some p =>
    cases longopt with
    | none => exact hp.elim
    | some l =>
      have hread : (readStr argv p).res = .ok l := hp
      unfold hitReads
      cases hlong : ro.roLong with
      | none => simp [Hit, hlong]
      | some name =>
        dsimp only
        rw [Traced.res_bind_ok hread, Traced.res_pure]
        simp [Hit, hlong, eq_comm]

theorem matchOptReads_res (h : argv[argi]? = some arg) {c : Char} (hc : charAt arg 1 = .ok c) {p : Option Ptr}
    {longopt : Option CStr} (hp : Points argv p longopt) (ros : List RdOpt) : ∀ roi,
      (matchOptReads argv argi p ros roi).res = matchOpt c longopt ros roi := by
  induction ros with
  | nil => intro roi; rfl
  | cons ro ros ih =>
    intro roi
    rw [matchOptReads, matchOpt]
    by_cases hend : ro.roType = optEnd
    · rw [if_pos hend, if_pos hend]
      rfl
    · rw [if_neg hend, if_neg hend, Traced.res_bind_ok (hitReads_res h hc hp ro)]
      by_cases hhit : Hit c longopt ro
      · rw [if_pos (decide_eq_true hhit), if_pos hhit]
        rfl
      · rw [if_neg (mt of_decide_eq_true hhit), if_neg hhit]
        exact ih (roi + 1)

/-- The position is that of `optVal`, and there is a value where `optVal` has one. -/
theorem optValReads_res {p text : Option Ptr} {longopt text' : Option CStr} (hp : Points argv p longopt)
    (htext : text = none ↔ text' = none) (argi : Nat) (ro : RdOpt) : ∃ val,
      (optValReads argv argi ro p text).res = .ok (val, (optVal argv argi ro longopt text').2) ∧
        (val = none ↔ (optVal argv argi ro longopt text').1 = none) := by
  have hnext (hlt : argi + 1 < argv.length) : argv[argi + 1]? ≠ none := by
    rw [List.getElem?_eq_getElem hlt]
    exact Option.some_ne_none _
  cases p with
  | none =>
    cases longopt with
    | some l => exact hp.elim
    | none =>
      unfold optValReads optVal
      simp only [htext]
      split
      · next hcond =>
        rw [Traced.res_bind_ok (entryAt_lt hcond.2.2)]
        exact ⟨_, rfl, iff_of_false (Option.some_ne_none _) (hnext hcond.2.2)⟩
      · exact ⟨text, rfl, htext⟩
  | some p =>
    cases longopt with
    | none => exact hp.elim
    | some l =>
      have hread : (readStr argv p).res = .ok l := hp
      unfold optValReads optVal
      dsimp only
      rw [Traced.res_bind_ok hread]
      split
      · exact ⟨_, rfl, iff_of_false (Option.some_ne_none _) (Option.some_ne_none _)⟩
      · split
        · next hcond =>
          rw [Traced.res_bind_ok (entryAt_lt hcond.2)]
          exact ⟨_, rfl, iff_of_false (Option.some_ne_none _) (hnext hcond.2)⟩
        · exact ⟨none, rfl, iff_of_true rfl rfl⟩

theorem readMut_res {g : Nat} {r : Option RdOpt} (h : s.mutro[g]? = some r) : (readMut s g).res = .ok r := by
  simp only [readMut, h]

theorem checkMutReads_res (env : Env) (ro : RdOpt) (s : Scan) : (checkMutReads env ro s).res = checkMut env ro s := by
  unfold checkMutReads checkMut
  by_cases hbit : bitTest ro.roType optMutMask = true
  · rw [if_pos hbit, if_pos hbit]
    cases hplace : s.mutro[mutGrp ro.roType]? with
    | none =>
      rw [Traced.res_bind, show (readMut s (mutGrp ro.roType)).res = .error .memory by simp only [readMut, hplace]]
      rfl
    | some r =>
      have hread := readMut_res hplace
      rw [Traced.res_bind_ok hread]
      cases r with
      | none =>
        have hwrite : (writeMut s (mutGrp ro.roType) ro).res =
            .ok { s with mutro := s.mutro.set (mutGrp ro.roType) (some ro) } :=
          if_pos (List.getElem?_eq_some_iff.1 hplace).1
        exact Traced.res_bind_ok hwrite
      | some other => exact Traced.res_bind_ok hread
  · rw [if_neg hbit, if_neg hbit]
    rfl

theorem runParserReads_res (env : Env) (ro : RdOpt) (s : Scan) (h : argv[argi]? = some arg) (hnul : nul ∉ arg) :
    (runParserReads env ro argv argi s).res = runParser env ro argv argi s := by
  unfold runParserReads
  cases hparse : ro.roParse with
  | some parser => rfl
  | none =>
    unfold runParser
    cases hopaque : ro.roOpaque with
    | none => simp only [hparse]; rfl
    | some target =>
      simp only [hparse]
      rw [Traced.res_bind, optParseAssignReads_res env ro (some target) s.mem h hnul]
      refine bind_congr fun r => ?_
      obtain ⟨m, r⟩ := r
      cases r <;> rfl

theorem takeOptReads_res (env : Env) (roi : Nat) (ro : RdOpt) (s : Scan) {p : Option Ptr} {val : Option CStr}
    (hval : p = none ↔ val = none) (h : argv[argi]? = some arg) (hnul : nul ∉ arg) :
    (takeOptReads env argv roi ro p argi s).res = takeOpt env argv roi ro val argi s := by
  unfold takeOptReads takeOpt
  simp only [ne_eq, hval]
  split
  · rw [Traced.res_bind]
    rfl
  · split
    · rw [Traced.res_bind]
      rfl
    · rw [Traced.res_bind, checkMutReads_res]
      refine bind_congr fun r => ?_
      obtain ⟨s', r⟩ := r
      cases r with
      | error text => rfl
      | ok u =>
        dsimp only
        rw [Traced.res_bind, runParserReads_res env ro s' h hnul]
        refine bind_congr fun r => ?_
        obtain ⟨s'', r⟩ := r
        cases r <;> rfl

theorem scanOptReads_res (env : Env) (ros : List RdOpt) (s : Scan) (h : argv[argi]? = some arg)
    (hargv : ∀ arg ∈ argv, nul ∉ arg) : (scanOptReads env ros argv argi s).res = scanOpt env ros argv argi arg s := by
  unfold scanOptReads scanOpt
  rw [Traced.res_bind, splitArgReads_res h]
  cases hsplit : splitArg arg with
  | error e => rfl
  | ok r =>
    have hpoints := splitArg_points h hsplit
    obtain ⟨c, longopt, text⟩ := r
    show Traced.res (matchOptReads argv argi (Ptrs argi (c, longopt, text)).1 ros 0 >>= _) =
      matchOpt c longopt ros 0 >>= _
    rw [Traced.res_bind, matchOptReads_res h (splitArg_text hsplit).1 hpoints]
    cases hmatch : matchOpt c longopt ros 0 with
    | error e => rfl
    | ok r =>
      cases r with
      | none =>
        have hstr : (readStr argv ⟨argi, 0⟩).res = .ok arg := strOf_eq h (Nat.zero_le _)
        show Traced.res (entryAt argv argi >>= _) = _
        rw [Traced.res_bind_ok (entryAt_res h), Traced.res_bind_ok hstr]
        rfl
      | some q =>
        obtain ⟨roi, ro⟩ := q
        have htext : (Ptrs argi (c, longopt, text)).2 = none ↔ text = none := Option.map_eq_none_iff
        obtain ⟨val, hres, hval⟩ := optValReads_res hpoints htext argi ro
        have hnewi : (optVal argv argi ro longopt text).2 < argv.length :=
          optVal_lt (List.getElem?_eq_some_iff.1 h).1
        exact (Traced.res_bind_ok hres).trans
          (takeOptReads_res env roi ro s hval (List.getElem?_eq_getElem hnewi) (hargv _ (List.getElem_mem hnewi)))

/-- An iteration does what the loop does with an argument. -/
theorem iterReads_res (env : Env) (ros : List RdOpt) (s : Scan) (h : argv[argi]? = some arg)
    (hargv : ∀ arg ∈ argv, nul ∉ arg) : (iterReads env ros argv argi s).res =
      if arg = [] then .ok (s, .ok (some (argi + 1)))
      else if ¬arg.head? = some '-' then .ok (s, .ok none)
      else if arg = "--help".toList then .ok (s, .error "(help)".toList)
      else scanOpt env ros argv argi arg s >>= fun
        | (s, .error text) => return (s, .error text)
        | (s, .ok newi) => return (s, .ok (some (newi + 1))) := by
  have hentry := entryAt_res h
  have hstr : (readStr argv ⟨argi, 0⟩).res = .ok arg := strOf_eq h (Nat.zero_le _)
  obtain ⟨hchar, hempty⟩ := charAt_zero (hargv arg (List.mem_of_getElem? h))
  have hread : (readChar argv ⟨argi, 0⟩ 0).res = .ok (arg.headD nul) := (readChar_res h 0 0).trans hchar
  rw [iterReads, Traced.res_bind_ok hentry, Traced.res_bind_ok hread]
  cases arg with
  | nil =>
    rw [if_pos (hempty.2 rfl), if_pos rfl]
    rfl
  | cons c rest =>
    have hne : ¬c :: rest = [] := List.cons_ne_nil _ _
    rw [if_neg (mt hempty.1 hne), if_neg hne, Traced.res_bind_ok hentry, Traced.res_bind_ok hread]
    by_cases hc : c = '-'
    · rw [if_neg (show ¬(c :: rest).headD nul ≠ '-' from not_not.2 hc),
        if_neg (show ¬¬(c :: rest).head? = some '-' from not_not.2 (congrArg some hc)), Traced.res_bind_ok hentry,
        Traced.res_bind_ok hstr]
      by_cases hhelp : c :: rest = "--help".toList
      · rw [if_pos hhelp, if_pos hhelp]
        rfl
      · rw [if_neg hhelp, if_neg hhelp, Traced.res_bind, scanOptReads_res env ros s h hargv]
        refine bind_congr fun r => ?_
        obtain ⟨s', r⟩ := r
        cases r <;> rfl
    · rw [if_pos (show (c :: rest).headD nul ≠ '-' from hc),
        if_pos (show ¬(c :: rest).head? = some '-' from fun heq => hc (Option.some.inj heq))]
      rfl

theorem scanArgsReads_res (env : Env) (ros : List RdOpt) (hargv : ∀ arg ∈ argv, nul ∉ arg) (fuel : Nat) :
    ∀ (argi : Nat) (s : Scan),
      (scanArgsReads env ros argv fuel argi s).res = scanArgs env ros argv fuel argi s := by
  induction fuel with
  | zero => intro argi s; rfl
  | succ fuel ih =>
    intro argi s
    rw [scanArgsReads, scanArgs]
    cases harg : argv[argi]? with
    | none =>
      rw [if_pos (Nat.not_lt.2 (List.getElem?_eq_none_iff.1 harg))]
      rfl
    | some arg =>
      rw [if_neg (not_not.2 (List.getElem?_eq_some_iff.1 harg).1), Traced.res_bind, iterReads_res env ros s harg hargv]
      cases arg with
      | nil => exact ih (argi + 1) s
      | cons c rest =>
        rw [if_neg (List.cons_ne_nil c rest)]
        dsimp only
        by_cases hc : c = '-'
        · rw [if_neg (show ¬¬(c :: rest).head? = some '-' from not_not.2 (congrArg some hc)), if_neg (not_not.2 hc)]
          by_cases hhelp : c :: rest = "--help".toList
          · rw [if_pos hhelp, if_pos hhelp]
            rfl
          · rw [if_neg hhelp, if_neg hhelp]
            cases scanOpt env ros argv argi (c :: rest) s with
            | error e => rfl
            | ok r =>
              obtain ⟨s', r⟩ := r
              cases r with
              | error text => rfl
              | ok newi => exact ih (newi + 1) s'
        · rw [if_pos (show ¬(c :: rest).head? = some '-' from fun heq => hc (Option.some.inj heq)), if_pos hc]
          rfl

/-- **Without the accesses, the copy is `rd_opt_parse`.** -/
theorem optParseReads_res (env : Env) (fuel : Nat) (ros : List RdOpt) (hargv : ∀ arg ∈ argv, nul ∉ arg)
    (argip : Option Nat) (m : Mem) :
    (optParseReads env fuel ros argv argip m).res = optParse env fuel ros argv argip m := by
  rw [optParse_eq, optParseReads, Traced.res_bind, scanArgsReads_res env ros hargv]
  refine bind_congr fun r => ?_
  obtain ⟨s, r⟩ := r
  cases r <;> rfl

end Erase

/-! ## Where the accesses are -/

section Inside

variable {env : Env} {ros : List RdOpt} {argv : List CStr} {argi : Nat} {arg : CStr} {s : Scan} {ro : RdOpt}
  {P : Access → Prop}

theorem entryAt_all (h : argi < argv.length) : (entryAt argv argi).All (·.InArgv argv) := by
  intro x hx
  rw [entryAt, List.mem_singleton] at hx
  subst hx
  exact h

theorem readChar_all (h : argv[argi]? = some arg) {off i : Nat} (hi : off + i ≤ arg.length) :
    (readChar argv ⟨argi, off⟩ i).All (·.InArgv argv) := by
  intro x hx
  rw [readChar, List.mem_singleton] at hx
  subst hx
  exact ⟨arg, h, hi⟩

theorem readStr_all {p : Ptr} {l : CStr} (h : strOf argv p = .ok l) : (readStr argv p).All (·.InArgv argv) := by
  unfold strOf at h
  split at h
  · next arg harg =>
    split at h
    · next hoff =>
      intro x hx
      obtain ⟨j, hj, rfl⟩ := List.mem_map.1 hx
      rw [List.getD_eq_getElem?_getD, harg, Option.getD_some, List.mem_range'_1] at hj
      exact ⟨arg, harg, by omega⟩
    · cases h
  · cases h

/-- Reading the string at an entry. -/
theorem entryStr_all {α : Type} {f : CStr → Reads α} (h : argv[argi]? = some arg)
    (hP : ∀ x, x.InArgv argv → P x) : (entryAt argv argi >>= fun p => readStr argv p >>= f).All P ↔ (f arg).All P := by
  have hstr : strOf argv ⟨argi, 0⟩ = .ok arg := strOf_eq h (Nat.zero_le _)
  rw [Traced.all_bind_ok (entryAt_res h), Traced.all_bind_ok (readStr_res _ ▸ hstr),
    and_iff_right ((entryAt_all (List.getElem?_eq_some_iff.1 h).1).mono hP), and_iff_right ((readStr_all hstr).mono hP)]

/-- Reading a character at an entry. -/
theorem entryChar_all {α : Type} {f : Char → Reads α} (h : argv[argi]? = some arg) {i : Nat} (hi : i ≤ arg.length)
    (hP : ∀ x, x.InArgv argv → P x) : (entryAt argv argi >>= fun p => readChar argv p i >>= f).All P ↔
      ∀ c, charAt arg i = .ok c → (f c).All P := by
  rw [Traced.all_bind_ok (entryAt_res h), Traced.all_bind, readChar_res h, Nat.zero_add,
    and_iff_right ((entryAt_all (List.getElem?_eq_some_iff.1 h).1).mono hP),
    and_iff_right ((readChar_all h (by omega)).mono hP)]

theorem assignPtrReads_all (target : Option Nat) (m : Mem) (h : argi < argv.length) :
    (assignPtrReads argv argi target m).All (·.InArgv argv) := by
  rw [assignPtrReads, Traced.all_bind]
  exact ⟨entryAt_all h, fun p _ => Traced.all_lift_bind.2 fun _ _ => Traced.all_pure _⟩

theorem unusedReads_all {v : Int} {stop : Ptr} (h : argi < argv.length) :
    (unusedReads argv argi v stop).All (·.InArgv argv) := by
  unfold unusedReads
  split
  · exact Traced.all_bind.2 ⟨entryAt_all h, fun _ _ => Traced.all_pure _⟩
  · exact Traced.all_pure _

/-- **The default parser reads inside of `argv` and of its strings.** -/
theorem optParseAssignReads_all (env : Env) (ro : RdOpt) (target : Option Nat) (m : Mem)
    (h : argv[argi]? = some arg) : (optParseAssignReads env ro argv argi target m).All (·.InArgv argv) := by
  have hlt : argi < argv.length := (List.getElem?_eq_some_iff.1 h).1
  have hptr := assignPtrReads_all target m hlt
  have hmessage (after : CStr) : (do
      let (m, text) ← .lift (optMessage 512 m "Option " ro after)
      return (m, some text) : Reads (Mem × Option CStr)).All (·.InArgv argv) :=
    Traced.all_lift_bind.2 fun _ _ => Traced.all_pure _
  unfold optParseAssignReads
  split
  · exact Traced.all_pure _
  · split
    · have hstr : strOf argv ⟨argi, 0⟩ = .ok arg := strOf_eq h (Nat.zero_le _)
      rw [assignIntReads, Traced.all_bind_ok (entryAt_res h), Traced.all_bind_ok (readStr_res _ ▸ hstr)]
      refine ⟨entryAt_all hlt, readStr_all hstr, Traced.all_bind.2 ⟨unusedReads_all hlt, fun u _ => ?_⟩⟩
      split
      · exact hmessage _
      · exact Traced.all_pure _
    · split
      · rw [assignPathReads, entryStr_all h fun _ => id]
        cases env.stat arg with
        | none => exact hptr
        | some errno => exact (entryStr_all h fun _ => id).2 (hmessage _)
      · split
        · rw [assignStrReads, entryChar_all h (Nat.zero_le _) fun _ => id]
          intro c _
          split
          · exact hmessage _
          · exact hptr
        · exact Traced.all_pure _

/-- The character 2 is read without a look at the character 1. -/
theorem splitArgReads_all (h : argv[argi]? = some arg) (hdash : arg.head? = some '-') (hP : ∀ x, x.InArgv argv → P x) :
    (splitArgReads argv argi).All P ↔ (arg = ['-'] → P (.char argi 2)) := by
  have hlt : argi < argv.length := (List.getElem?_eq_some_iff.1 h).1
  have hentry {f : Ptr → Reads (Option Ptr × Option Ptr)} (hf : ∀ p, (f p).All P) : (entryAt argv argi >>= f).All P :=
    Traced.all_bind.2 ⟨(entryAt_all hlt).mono hP, fun p _ => hf p⟩
  cases arg with
  | nil => cases hdash
  | cons c rest =>
    cases rest with
    | nil =>
      cases hdash
      have hpast : (readChar argv ⟨argi, 0⟩ 2).All P ↔ P (.char argi 2) := List.forall_mem_singleton
      have hnone : (readChar argv ⟨argi, 0⟩ 2).res = .error .memory := readChar_res h 0 2
      rw [splitArgReads, entryChar_all h (Nat.le_refl 1) hP]
      constructor
      · intro hall _
        have htwo := hall nul rfl
        rw [if_neg (by decide), Traced.all_bind_ok (entryAt_res h), Traced.all_bind_error hnone, hpast] at htwo
        exact htwo.2
      · intro hchar c hc
        cases hc
        rw [if_neg (by decide), Traced.all_bind_ok (entryAt_res h), Traced.all_bind_error hnone, hpast]
        exact ⟨(entryAt_all hlt).mono hP, hchar rfl⟩
    | cons c' rest =>
      refine iff_of_true ?_ fun heq => absurd heq (by simp)
      rw [splitArgReads, entryChar_all h (by simp) hP]
      intro c₁ _
      split
      · exact hentry fun _ => Traced.all_pure _
      · rw [entryChar_all h (by simp) hP]
        intro c₂ _
        split
        · exact hentry fun _ => Traced.all_pure _
        · exact Traced.all_pure _

theorem hitReads_all (h : argv[argi]? = some arg) {c : Char} (hc : charAt arg 1 = .ok c) {p : Option Ptr}
    {longopt : Option CStr} (hp : Points argv p longopt) (ro : RdOpt) :
    (hitReads argv argi p ro).All (·.InArgv argv) := by
  have hone : 1 ≤ arg.length := by
    unfold charAt at hc
    split at hc
    · omega
    · split at hc
      · omega
      · cases hc
  cases p with
  | none =>
    unfold hitReads
    dsimp only
    split
    · exact (entryChar_all h hone fun _ => id).2 fun _ _ => Traced.all_pure _
    · exact Traced.all_pure _
  | some p =>
    cases longopt with
    | none => exact hp.elim
    | some l =>
      unfold hitReads
      cases ro.roLong with
      | none => exact Traced.all_pure _
      | some name => exact Traced.all_bind.2 ⟨readStr_all hp, fun _ _ => Traced.all_pure _⟩

theorem matchOptReads_all (h : argv[argi]? = some arg) {c : Char} (hc : charAt arg 1 = .ok c) {p : Option Ptr}
    {longopt : Option CStr} (hp : Points argv p longopt) (ros : List RdOpt) : ∀ roi,
      (matchOptReads argv argi p ros roi).All (·.InArgv argv) := by
  induction ros with
  | nil => intro roi; exact Traced.all_lift _
  | cons ro ros ih =>
    intro roi
    rw [matchOptReads]
    split
    · exact Traced.all_pure _
    · refine Traced.all_bind.2 ⟨hitReads_all h hc hp ro, fun hit _ => ?_⟩
      split
      · exact Traced.all_pure _
      · exact ih (roi + 1)

theorem optValReads_all {p text : Option Ptr} {longopt : Option CStr} (hp : Points argv p longopt) (argi : Nat)
    (ro : RdOpt) : (optValReads argv argi ro p text).All (·.InArgv argv) := by
  have hnext (hlt : argi + 1 < argv.length) : (do
      return (some (← entryAt argv (argi + 1)), argi + 1) : Reads (Option Ptr × Nat)).All (·.InArgv argv) :=
    Traced.all_bind.2 ⟨entryAt_all hlt, fun _ _ => Traced.all_pure _⟩
  cases p with
  | none =>
    unfold optValReads
    dsimp only
    split
    · next hcond => exact hnext hcond.2.2
    · exact Traced.all_pure _
  | some p =>
    cases longopt with
    | none => exact hp.elim
    | some l =>
      refine Traced.all_bind.2 ⟨readStr_all hp, fun l _ => ?_⟩
      split
      · exact Traced.all_pure _
      · split
        · next hcond => exact hnext hcond.2
        · exact Traced.all_pure _

/-- The place of an entry is the only one of `mutro` that is accessed. -/
theorem checkMutReads_all (env : Env) (ro : RdOpt) (s : Scan) :
    (checkMutReads env ro s).All P ↔ (bitTest ro.roType optMutMask = true → P (.place (mutGrp ro.roType))) := by
  have hread : (readMut s (mutGrp ro.roType)).All P ↔ P (.place (mutGrp ro.roType)) := List.forall_mem_singleton
  have hwrite : (writeMut s (mutGrp ro.roType) ro).All P ↔ P (.place (mutGrp ro.roType)) := List.forall_mem_singleton
  unfold checkMutReads
  by_cases hbit : bitTest ro.roType optMutMask = true
  · rw [if_pos hbit, Traced.all_bind, hread]
    refine ⟨fun h _ => h.1, fun h => ⟨h hbit, fun r _ => ?_⟩⟩
    cases r with
    | none => exact Traced.all_bind.2 ⟨hwrite.2 (h hbit), fun _ _ => Traced.all_pure _⟩
    | some other => exact Traced.all_bind.2 ⟨hread.2 (h hbit), fun _ _ => Traced.all_lift _⟩
  · rw [if_neg hbit]
    exact iff_of_true (Traced.all_pure _) fun h => absurd h hbit

theorem runParserReads_all (env : Env) (ro : RdOpt) (s : Scan) (h : argv[argi]? = some arg) :
    (runParserReads env ro argv argi s).All (·.InArgv argv) := by
  unfold runParserReads
  cases ro.roParse with
  | some parser => exact Traced.all_lift _
  | none =>
    cases ro.roOpaque with
    | none => exact Traced.all_pure _
    | some target =>
      refine Traced.all_bind.2 ⟨optParseAssignReads_all env ro (some target) s.mem h, fun r _ => ?_⟩
      obtain ⟨m, r⟩ := r
      cases r <;> exact Traced.all_pure _

theorem takeOptReads_all (env : Env) (roi : Nat) (ro : RdOpt) (val : Option Ptr) (s : Scan) (h : argv[argi]? = some arg)
    (hP : ∀ x, x.InArgv argv → P x) : (takeOptReads env argv roi ro val argi s).All P ↔
      ((ro.roArgcnt = 0 ↔ val = none) → bitTest ro.roType optMutMask = true → P (.place (mutGrp ro.roType))) := by
  have hmessage (x : Except Fault (Mem × CStr)) : (do
      let (m, text) ← .lift x
      return ({ s with mem := m }, .error text) : Reads (Reply Nat)).All P :=
    Traced.all_lift_bind.2 fun _ _ => Traced.all_pure _
  unfold takeOptReads
  split
  · next hcond => exact iff_of_true (hmessage _) fun hok => absurd (hok.1 hcond.1) hcond.2
  · next hzero =>
    split
    · next hcond => exact iff_of_true (hmessage _) fun hok => absurd (hok.2 hcond.2) hcond.1
    · next hsome =>
      have hok : ro.roArgcnt = 0 ↔ val = none := by tauto
      rw [Traced.all_bind, checkMutReads_all]
      refine ⟨fun h _ => h.1, fun hmut => ⟨hmut hok, fun r _ => ?_⟩⟩
      obtain ⟨s', r⟩ := r
      cases r with
      | error text => exact Traced.all_pure _
      | ok u =>
        refine Traced.all_bind.2 ⟨(runParserReads_all env ro s' h).mono hP, fun r _ => ?_⟩
        obtain ⟨s'', r⟩ := r
        cases r <;> exact Traced.all_pure _

theorem lookup_split {c : Char} {longopt text : Option CStr} (h : splitArg arg = .ok (c, longopt, text)) :
    lookup ros argv argi arg = (matchOpt c longopt ros 0).map fun r => r.map fun q =>
      ⟨q.1, q.2, (optVal argv argi q.2 longopt text).1, (optVal argv argi q.2 longopt text).2⟩ := by
  rw [lookup, h]
  show (matchOpt c longopt ros 0 >>= _) = _
  cases matchOpt c longopt ros 0 with
  | error e => rfl
  | ok r => cases r <;> rfl

/-- An argument that is looked up. -/
theorem scanOptReads_all (env : Env) (ros : List RdOpt) (s : Scan) (h : argv[argi]? = some arg)
    (hdash : arg.head? = some '-') (hP : ∀ x, x.InArgv argv → P x) : (scanOptReads env ros argv argi s).All P ↔
      (arg = ['-'] → P (.char argi 2)) ∧ ∀ mt, lookup ros argv argi arg = .ok (some mt) → ValueOk mt →
        bitTest mt.ro.roType optMutMask = true → P (.place (mutGrp mt.ro.roType)) := by
  have hlt : argi < argv.length := (List.getElem?_eq_some_iff.1 h).1
  cases hsplit : splitArg arg with
  | error e =>
    have hres : (splitArgReads argv argi).res = .error e := by rw [splitArgReads_res h, hsplit]; rfl
    have hlook : lookup ros argv argi arg = .error e := by rw [lookup, hsplit]; rfl
    rw [scanOptReads, Traced.all_bind_error hres, splitArgReads_all h hdash hP, hlook]
    exact (and_iff_left fun _ hmt => nomatch hmt).symm
  | ok r =>
    have hpoints := splitArg_points h hsplit
    obtain ⟨c, longopt, text⟩ := r
    have hres : (splitArgReads argv argi).res = .ok (Ptrs argi (c, longopt, text)) := by
      rw [splitArgReads_res h, hsplit]; rfl
    have hone := (splitArg_text hsplit).1
    rw [scanOptReads, Traced.all_bind_ok hres, splitArgReads_all h hdash hP]
    refine and_congr_right fun _ => ?_
    have hmres := matchOptReads_res h hone hpoints ros 0
    have hmall := (matchOptReads_all h hone hpoints ros 0).mono hP
    cases hmatch : matchOpt c longopt ros 0 with
    | error e =>
      have hlook : lookup ros argv argi arg = .error e := by
          rw [lookup_split hsplit, hmatch]
          rfl
      rw [hlook]
      exact iff_of_true ((Traced.all_bind_error (hmres.trans hmatch)).2 hmall) fun mt hmt => nomatch hmt
    | ok r =>
      rw [Traced.all_bind_ok (hmres.trans hmatch), and_iff_right hmall]
      cases r with
      | none =>
        have hlook : lookup ros argv argi arg = .ok none := by
          rw [lookup_split hsplit, hmatch]
          rfl
        rw [hlook]
        exact iff_of_true ((entryStr_all h hP).2 (Traced.all_pure _)) fun mt hmt => nomatch hmt
      | some q =>
        obtain ⟨roi, ro⟩ := q
        have hlook : lookup ros argv argi arg = .ok (some ⟨roi, ro, (optVal argv argi ro longopt text).1,
            (optVal argv argi ro longopt text).2⟩) := by
          rw [lookup_split hsplit, hmatch]
          rfl
        have htext : (Ptrs argi (c, longopt, text)).2 = none ↔ text = none := Option.map_eq_none_iff
        obtain ⟨val, hvres, hval⟩ := optValReads_res hpoints htext argi ro
        have hnewi : (optVal argv argi ro longopt text).2 < argv.length := optVal_lt hlt
        dsimp only
        rw [Traced.all_bind_ok hvres, and_iff_right ((optValReads_all hpoints argi ro).mono hP),
          takeOptReads_all env roi ro val s (List.getElem?_eq_getElem hnewi) hP, hval, hlook]
        exact ⟨fun hmut mt hmt => by cases hmt; exact hmut, fun hall => hall _ rfl⟩

theorem forall_mutIndexes (hopt : IsOption arg) {Q : Nat → Prop} :
    (∀ g ∈ mutIndexes ros argv ⟨argi, arg, s⟩, Q g) ↔ ∀ mt, lookup ros argv argi arg = .ok (some mt) → ValueOk mt →
      bitTest mt.ro.roType optMutMask = true → Q (mutGrp mt.ro.roType) := by
  rw [mutIndexes, matched, if_pos hopt]
  cases lookup ros argv argi arg with
  | error e => exact iff_of_true (fun g hg => nomatch hg) fun mt hmt => nomatch hmt
  | ok r =>
    cases r with
    | none => exact iff_of_true (fun g hg => nomatch hg) fun mt hmt => nomatch hmt
    | some mt =>
      dsimp only
      split
      · next hcond =>
        rw [List.forall_mem_singleton]
        exact ⟨fun hq mt' hmt' _ _ => by cases hmt'; exact hq, fun hall => hall mt rfl hcond.1 hcond.2⟩
      · next hcond =>
        refine iff_of_true (fun g hg => nomatch hg) fun mt' hmt' hok hbit => ?_
        cases hmt'
        exact absurd ⟨hok, hbit⟩ hcond

/-- **An iteration** reads inside of `argv` and of its strings, but for the character after a lone `-`; of `mutro` it
accesses the place of the option that it finds. -/
theorem iterReads_all (env : Env) (ros : List RdOpt) (s : Scan) (h : argv[argi]? = some arg)
    (hnul : nul ∉ arg) (hP : ∀ x, x.InArgv argv → P x) : (iterReads env ros argv argi s).All P ↔
      (arg = ['-'] → P (.char argi 2)) ∧ ∀ g ∈ mutIndexes ros argv ⟨argi, arg, s⟩, P (.place g) := by
  obtain ⟨hchar, hempty⟩ := charAt_zero hnul
  have hother (hdash : arg ≠ ['-']) (hopt : ¬IsOption arg) :
      (arg = ['-'] → P (.char argi 2)) ∧ ∀ g ∈ mutIndexes ros argv ⟨argi, arg, s⟩, P (.place g) := by
    rw [mutIndexes, matched, if_neg hopt]
    exact ⟨fun heq => absurd heq hdash, fun g hg => nomatch hg⟩
  rw [iterReads, entryChar_all h (Nat.zero_le _) hP, hchar]
  simp only [Except.ok.injEq, forall_eq']
  cases arg with
  | nil =>
    rw [if_pos (hempty.2 rfl)]
    exact iff_of_true (Traced.all_pure _) (hother (List.cons_ne_nil _ _).symm fun hopt => nomatch hopt.1)
  | cons c rest =>
    rw [if_neg (mt hempty.1 (List.cons_ne_nil c rest)), entryChar_all h (Nat.zero_le _) hP, hchar]
    simp only [Except.ok.injEq, forall_eq', List.headD_cons]
    by_cases hc : c = '-'
    · rw [if_neg (not_not.2 hc), entryStr_all h hP]
      by_cases hhelp : c :: rest = "--help".toList
      · rw [if_pos hhelp]
        exact iff_of_true (Traced.all_pure _) (hother (hhelp ▸ by decide) fun hopt => hopt.2 hhelp)
      · have hdash : (c :: rest).head? = some '-' := congrArg some hc
        rw [if_neg hhelp, Traced.all_bind, scanOptReads_all env ros s h hdash hP, forall_mutIndexes ⟨hdash, hhelp⟩]
        refine and_iff_left fun r _ => ?_
        obtain ⟨s', r⟩ := r
        cases r <;> exact Traced.all_pure _
    · rw [if_pos hc]
      exact iff_of_true (Traced.all_pure _)
        (hother (fun heq => hc (List.cons.inj heq).1) fun hopt => hc (Option.some.inj hopt.1))

/-- The places of `mutro` that an iteration accesses. -/
theorem place_mem_iterReads (env : Env) (ros : List RdOpt) (s : Scan) (h : argv[argi]? = some arg) (hnul : nul ∉ arg)
    {g : Nat} : .place g ∈ (iterReads env ros argv argi s).log ↔ g ∈ mutIndexes ros argv ⟨argi, arg, s⟩ := by
  have hall := iterReads_all env ros s h hnul (P := (· ≠ .place g)) fun x hx heq => by
    rw [heq] at hx
    exact hx
  have hnone : (iterReads env ros argv argi s).All (· ≠ .place g) ↔ ∀ g' ∈ mutIndexes ros argv ⟨argi, arg, s⟩, g' ≠ g :=
    hall.trans ((and_iff_right fun _ => Access.noConfusion).trans
      (forall₂_congr fun g' _ => not_congr (iff_of_eq (Access.place.injEq g' g))))
  rw [← not_iff_not]
  exact ⟨fun hg hmem => hnone.1 (fun x hx heq => hg (heq ▸ hx)) g hmem rfl,
    fun hg hmem => hnone.2 (fun g' hg' heq => hg (heq ▸ hg')) _ hmem rfl⟩

/-! ## The accesses of a whole run -/

theorem iterReads_goesOn (env : Env) (ros : List RdOpt) (h : argv[argi]? = some arg) (hargv : ∀ arg ∈ argv, nul ∉ arg)
    (s : Scan) : goesOn env ros argv ⟨argi, arg, s⟩ =
      match (iterReads env ros argv argi s).res with
      | .ok (s', .ok (some argi')) => some (argi', s')
      | _ => none := by
  rw [iterReads_res env ros s h hargv]
  unfold goesOn
  by_cases hnil : arg = []
  · rw [if_pos hnil, if_pos hnil]
  · rw [if_neg hnil, if_neg hnil]
    by_cases hopt : IsOption arg
    · rw [if_pos hopt, if_neg (not_not.2 hopt.1), if_neg hopt.2]
      cases scanOpt env ros argv argi arg s with
      | error e => rfl
      | ok r =>
        obtain ⟨s', r⟩ := r
        cases r <;> rfl
    · rw [if_neg hopt]
      by_cases hdash : arg.head? = some '-'
      · have hhelp : arg = "--help".toList := by
          by_contra hne
          exact hopt ⟨hdash, hne⟩
        rw [if_neg (not_not.2 hdash), if_pos hhelp]
      · rw [if_pos hdash]

/-- The accesses of the loop are those of its iterations. -/
theorem scanArgsReads_log (env : Env) (ros : List RdOpt) (hargv : ∀ arg ∈ argv, nul ∉ arg) (fuel : Nat) :
    ∀ (argi : Nat) (s : Scan), (scanArgsReads env ros argv fuel argi s).log =
      (visits env ros argv fuel argi s).flatMap fun v => (iterReads env ros argv v.argi v.scan).log := by
  induction fuel with
  | zero => intro argi s; rfl
  | succ fuel ih =>
    intro argi s
    rw [scanArgsReads]
    cases harg : argv[argi]? with
    | none =>
      rw [if_pos (Nat.not_lt.2 (List.getElem?_eq_none_iff.1 harg)), visits_none harg]
      rfl
    | some arg =>
      rw [if_neg (not_not.2 (List.getElem?_eq_some_iff.1 harg).1)]
      have hgo := iterReads_goesOn env ros harg hargv s
      cases hres : (iterReads env ros argv argi s).res with
      | error e =>
        rw [hres] at hgo
        rw [Traced.log_bind_error hres, visits_end harg hgo, List.flatMap_singleton]
      | ok r =>
        rw [hres] at hgo
        rw [Traced.log_bind_ok hres]
        obtain ⟨s', r⟩ := r
        cases r with
        | error text =>
          rw [visits_end harg hgo, List.flatMap_singleton]
          exact List.append_nil _
        | ok next =>
          cases next with
          | none =>
            rw [visits_end harg hgo, List.flatMap_singleton]
            exact List.append_nil _
          | some argi' =>
            rw [visits_next harg hgo, List.flatMap_cons]
            exact congrArg _ (ih argi' s')

/-- After the loop there are none. -/
theorem optParseReads_log (env : Env) (fuel : Nat) (ros : List RdOpt) (hargv : ∀ arg ∈ argv, nul ∉ arg)
    (argip : Option Nat) (m : Mem) : (optParseReads env fuel ros argv argip m).log =
      (visits env ros argv fuel 1 (startOf m)).flatMap fun v => (iterReads env ros argv v.argi v.scan).log := by
  rw [← scanArgsReads_log env ros hargv, optParseReads]
  cases hres : (scanArgsReads env ros argv fuel 1 (startOf m)).res with
  | error e => exact Traced.log_bind_error hres
  | ok r =>
    rw [Traced.log_bind_ok hres]
    obtain ⟨s, r⟩ := r
    cases r <;> exact List.append_nil _

end Inside

/-- **All that `rd_opt_parse` accesses of `argv`, of its strings and of `mutro` is inside of them, exactly if no
argument that the loop gets to is a lone `-`, and no option there has a place outside of `mutro`.** -/
theorem reads_inside_iff (env : Env) (ros : List RdOpt) {argv : List CStr} (hargv : ∀ arg ∈ argv, nul ∉ arg)
    (fuel : Nat) (argip : Option Nat) (m : Mem) :
    (∀ x ∈ (optParseReads env fuel ros argv argip m).log, x.Inside argv) ↔
      ∀ v ∈ visits env ros argv fuel 1 (startOf m),
        v.arg ≠ ['-'] ∧ ∀ g ∈ mutIndexes ros argv v, g < optMutNum + 1 := by
  have hat : ∀ v ∈ visits env ros argv fuel 1 (startOf m), argv[v.argi]? = some v.arg := fun v hv =>
    (@visits_invariant env ros argv (fun _ _ => True) (fun _ _ _ _ _ _ => trivial) fuel 1 (startOf m) trivial v hv).1
  have hin : ∀ x : Access, x.InArgv argv → x.Inside argv := by
    intro x hx
    cases x with
    | place g => exact hx.elim
    | entry k => exact hx
    | char k off => exact hx
  rw [optParseReads_log env fuel ros hargv argip m, List.forall_mem_flatMap]
  refine forall₂_congr fun v hv => ?_
  have harg := hat v hv
  refine (iterReads_all env ros v.scan harg (hargv _ (List.mem_of_getElem? harg)) hin).trans
    (and_congr_left fun _ => ?_)
  refine ⟨fun h heq => ?_, fun h heq => absurd heq h⟩
  obtain ⟨arg, harg', hle⟩ := h heq
  rw [harg, heq] at harg'
  cases harg'
  exact absurd hle (by decide)

/-- An option and its value: nothing else is read. -/
theorem reads_inside_value :
    (∀ arg ∈ [[], ['-', 'n'], ['7']], nul ∉ arg) ∧
      ∀ x ∈ (optParseReads sampleEnv 2 [{ roShort := 'n', roType := optInt, roArgcnt := 1, roOpaque := some 0 },
        { roType := optEnd }] [[], ['-', 'n'], ['7']] none sampleMem).log, x.Inside [[], ['-', 'n'], ['7']] := by
  have hargv : ∀ arg ∈ [[], ['-', 'n'], ['7']], nul ∉ arg := by decide
  refine ⟨hargv, (reads_inside_iff sampleEnv _ hargv 2 none sampleMem).2 ?_⟩
  decide

/-- A lone `-`: the character after its NUL is read. -/
theorem dash_read_past :
    ¬(∀ x ∈ (optParseReads sampleEnv 2 [{ roType := optEnd }] [[], ['-']] none sampleMem).log,
      x.Inside [[], ['-']]) := by
  intro h
  have hlog := @optParseReads_log [[], ['-']] sampleEnv 2 [{ roType := optEnd }] (by decide) none sampleMem
  obtain ⟨arg, harg, hle⟩ := h (.char 1 2) (hlog ▸ List.mem_flatMap.2 ⟨_, List.mem_cons_self, by decide⟩)
  cases harg
  exact absurd hle (by decide)

end Librd.Opt
