import Mathlib
import Librd.Bits.Bitvec

/-!
# Option parsing (`rdopt.c`, `rdopt.h`)

`rd_opt_parse` scans the arguments, matches each option with a table, lets a parser take its value, and checks at the
end that no required option is missing. It returns `NULL`, or a text in a static buffer. A fault is an access outside of
a string, a table or a buffer; `fuel` runs out only if a parser of the caller moves the position backwards.

What `stat` and `strerror` answer, and the order in which the compiler evaluates the arguments of a call, are given by
an `Env`. Memory that options point to is a map from addresses.
-/

namespace Librd.Opt

open Librd.Bits

inductive Fault
  | memory
  | assertion
  | fuel
  deriving DecidableEq, Repr

/-! ## Strings and buffers -/

/-- A C string: its characters before the NUL. -/
abbrev CStr := List Char

/-- The NUL. -/
def nul : Char := Char.ofNat 0

/-- `s[i]`; there is nothing to read after the NUL. -/
def charAt (s : CStr) (i : Nat) : Except Fault Char :=
  if i < s.length then .ok (s.getD i nul) else if i = s.length then .ok nul else .error .memory

/-- The string at an offset of a buffer. -/
def cstrAt (mem : List Char) (off : Nat) : Except Fault CStr :=
  if nul ∈ mem.drop off then .ok ((mem.drop off).takeWhile (· ≠ nul)) else .error .memory

/-- Storing characters at an offset of a buffer. -/
def poke (mem : List Char) (off : Nat) (cs : List Char) : Except Fault (List Char) :=
  if off + cs.length ≤ mem.length then .ok (mem.take off ++ cs ++ mem.drop (off + cs.length)) else .error .memory

/-- `snprintf` of a formatted text: the buffer afterwards and the result. -/
def snprintf (mem : List Char) (off size : Nat) (text : CStr) : Except Fault (List Char × Nat) := do
  if size = 0 then return (mem, text.length)
  return (← poke mem off (text.take (size - 1) ++ [nul]), text.length)

/-- `size - of` as a `size_t`. -/
def sizeLeft (size of : Nat) : Nat := if of ≤ size then size - of else 2 ^ 64 - (of - size)

/-- `of += snprintf(buf+of, size-of, ...)` for the buffer at `base`. -/
def put (base size : Nat) (text : CStr) (p : List Char × Nat) : Except Fault (List Char × Nat) := do
  let (mem, n) ← snprintf p.1 (base + p.2) (sizeLeft size p.2) text
  return (mem, p.2 + n)

/-- The same where a condition holds. -/
def putIf (c : Prop) [Decidable c] (base size : Nat) (text : CStr) (p : List Char × Nat) :
    Except Fault (List Char × Nat) :=
  if c then put base size text p else .ok p

/-- The text that one `snprintf` leaves in a buffer of `size` characters. -/
def message (size : Nat) (text : CStr) : CStr := text.take (size - 1)

/-! ## `strtol` with base 0 -/

/-- `isspace`. -/
def isSpace (c : Char) : Bool := c = ' ' || (9 ≤ c.toNat && c.toNat ≤ 13)

/-- The value of a digit, or of a letter used as one. -/
def digitVal (c : Char) : Option Nat :=
  if '0' ≤ c ∧ c ≤ '9' then some (c.toNat - '0'.toNat)
  else if 'a' ≤ c ∧ c ≤ 'z' then some (c.toNat - 'a'.toNat + 10)
  else if 'A' ≤ c ∧ c ≤ 'Z' then some (c.toNat - 'A'.toNat + 10)
  else none

/-- The digits of a base at the start of a string. -/
def digitsOf (base : Nat) : CStr → List Nat
  | [] => []
  | c :: s =>
    match digitVal c with
    | some d => if d < base then d :: digitsOf base s else []
    | none => []

/-- The base that the text calls for, and the length of its marker. -/
def baseOf : CStr → Nat × Nat
  | '0' :: x :: c :: _ => if (x = 'x' ∨ x = 'X') ∧ digitsOf 16 [c] ≠ [] then (16, 2) else (8, 0)
  | '0' :: _ => (8, 0)
  | _ => (10, 0)

/-- Is there a sign, and is it a minus. -/
def signOf : CStr → Nat × Bool
  | '-' :: _ => (1, true)
  | '+' :: _ => (1, false)
  | _ => (0, false)

/-- `strtol(s, &end, 0)`: the result and `end - s`. -/
def strtol (s : CStr) : Int × Nat :=
  let spaces := (s.takeWhile isSpace).length
  let sign := signOf (s.drop spaces)
  let rest := s.drop (spaces + sign.1)
  let base := baseOf rest
  let ds := digitsOf base.1 (rest.drop base.2)
  if ds = [] then (0, 0)
  else
    let v := ds.foldl (fun n d => n * base.1 + d) 0
    (max (-2 ^ 63) (min (2 ^ 63 - 1) (if sign.2 then -(v : Int) else v)), spaces + sign.1 + base.2 + ds.length)

/-! ## Tables -/

/-- What is stored through `ro_opaque`: an `int` or a `const char *`. -/
inductive Value
  | int (v : Int)
  | ptr (s : CStr)
  deriving DecidableEq, Repr

/-- Memory of the callers. -/
abbrev Store := Nat → Option Value

/-- `rd_opt_t`. A parser gets `argv` and `*argip`, and gives its result, `*argip` and the memory afterwards. -/
structure RdOpt where
  roType : BitVec 32 := 0
  roShort : Char := nul
  roLong : Option CStr := none
  roArgcnt : Int := 0
  roOpaque : Option Nat := none
  roParse : Option (List CStr → Nat → Store → Option CStr × Nat × Store) := none

def optEnd : BitVec 32 := 0x1
def optReq : BitVec 32 := 0x2
def optMut1 : BitVec 32 := 0x10
def optMut2 : BitVec 32 := 0x20
def optMut3 : BitVec 32 := 0x40
def optMut4 : BitVec 32 := 0x80
def optMutMask : BitVec 32 := 0xf0
def optMutNum : Nat := 4
def optStr : BitVec 32 := 0x1000
def optInt : BitVec 32 := 0x2000
def optPath : BitVec 32 := 0x4000
def optBool : BitVec 32 := 0x8000

/-- `BIT_TEST`. -/
def bitTest (f b : BitVec 32) : Bool := f &&& b ≠ 0

/-- `RD_OPT_MUT_GRP`. -/
def mutGrp (t : BitVec 32) : Nat := ((t &&& optMutMask) >>> 4).toNat

/-- What the code asks of its environment: `stat` (the `errno` where it fails), `strerror`, and whether the first of two
calls among the arguments of a call is evaluated first. -/
structure Env where
  stat : CStr → Option Nat
  strerror : Nat → CStr
  leftFirst : Bool

/-- Memory of the callers, and the static variables `ret` and `i` of `rd_opt_syntaxname`. -/
structure Mem where
  store : Store
  names : List Char
  i : Nat

/-- The characters of `static char ret[128][4]`. -/
def namesSize : Nat := 128 * 4

/-- `rd_opt_syntaxname`: the result is an offset in `names`. -/
def optSyntaxname (m : Mem) (ro : RdOpt) : Except Fault (Mem × Nat) := do
  let i := (m.i + 1) % 4
  let names ← poke m.names (4 * i) [nul]
  let p ← putIf (ro.roShort ≠ nul) (4 * i) 4 ('-' :: ro.roShort :: if ro.roLong.isSome then ['/'] else []) (names, 0)
  let p ← putIf (ro.roLong ≠ none) (4 * i) 4 ("--".toList ++ ro.roLong.getD []) p
  let p ← putIf (ro.roArgcnt ≠ 0) (4 * i) 4 " <...>".toList p
  return ({ m with names := p.1, i := i }, 4 * i)

/-- A message of `size` characters at most, with the syntax of one option in it. -/
def optMessage (size : Nat) (m : Mem) (before : String) (ro : RdOpt) (after : CStr) : Except Fault (Mem × CStr) := do
  let (m, name) ← optSyntaxname m ro
  return (m, message size (before.toList ++ (← cstrAt m.names name) ++ after))

/-! ## The default parser -/

/-- `rd_opt_parse_assign`: `NULL` (`none`) or a message. -/
def optParseAssign (env : Env) (ro : RdOpt) (argv : List CStr) (argip : Nat) (target : Option Nat) (m : Mem) :
    Except Fault (Mem × Option CStr) := do
  let assign (v : Value) : Mem := match target with
    | some a => { m with store := fun a' => if a' = a then some v else m.store a' }
    | none => m
  if ro.roArgcnt = 0 then
    return (if bitTest ro.roType (optBool ||| optInt) then assign (.int 1) else m, none)
  let some arg := argv[argip]? | throw .memory
  if bitTest ro.roType (optInt ||| optBool) then
    let v := Int.bmod (strtol arg).1 (2 ^ 32)
    if v = 0 ∧ (strtol arg).2 = 0 then
      let (m, text) ← optMessage 512 m "Option " ro " requires integer argument".toList
      return (m, some text)
    return (assign (.int (if bitTest ro.roType optBool then (if v ≠ 0 then 1 else 0) else v)), none)
  else if bitTest ro.roType optPath then
    match env.stat arg with
    | some errno =>
      let (m, text) ← optMessage 512 m "Option " ro (" path ".toList ++ arg ++ ": ".toList ++ env.strerror errno)
      return (m, some text)
    | none => return (assign (.ptr arg), none)
  else if bitTest ro.roType optStr then
    if arg = [] then
      let (m, text) ← optMessage 512 m "Option " ro " requires an argument".toList
      return (m, some text)
    return (assign (.ptr arg), none)
  else return (m, none)

/-! ## The scan -/

/-- What the scan keeps: `opts_found`, `mutro` and memory. -/
structure Scan where
  found : Bitvec
  mutro : List (Option RdOpt)
  mem : Mem

/-- A part of the scan either returns a message or goes on with a result. -/
abbrev Reply (α : Type) := Scan × Except CStr α

/-- An entry has the short name `c`, where there is no long option, or else the name of the long option. -/
def Hit (c : Char) (longopt : Option CStr) (ro : RdOpt) : Prop :=
  (longopt = none ∧ ro.roShort ≠ nul ∧ ro.roShort = c) ∨ (longopt ≠ none ∧ ro.roLong = longopt)

instance (c : Char) (longopt : Option CStr) (ro : RdOpt) : Decidable (Hit c longopt ro) := inferInstanceAs
  (Decidable ((longopt = none ∧ ro.roShort ≠ nul ∧ ro.roShort = c) ∨ (longopt ≠ none ∧ ro.roLong = longopt)))

/-- The loop that matches an option with the entries. -/
def matchOpt (c : Char) (longopt : Option CStr) : List RdOpt → Nat → Except Fault (Option (Nat × RdOpt))
  | [], _ => .error .memory
  | ro :: ros, roi =>
    if ro.roType = optEnd then .ok none
    else if Hit c longopt ro then .ok (some (roi, ro))
    else matchOpt c longopt ros (roi + 1)

/-- The value of a matched option, and `newi`. `text` is attached to a short option. -/
def optVal (argv : List CStr) (argi : Nat) (ro : RdOpt) (longopt text : Option CStr) : Option CStr × Nat :=
  match longopt with
  | none =>
    if ro.roArgcnt ≠ 0 ∧ text = none ∧ argi + 1 < argv.length then (argv[argi + 1]?, argi + 1) else (text, argi)
  | some l =>
    if '=' ∈ l then (some ((l.dropWhile (· ≠ '=')).drop 1), argi)
    else if ro.roArgcnt ≠ 0 ∧ argi + 1 < argv.length then (argv[argi + 1]?, argi + 1)
    else (none, argi)

/-- The two names in a message about mutual exclusion. -/
def optSyntaxnames (env : Env) (m : Mem) (ro other : RdOpt) : Except Fault (Mem × Nat × Nat) := do
  if env.leftFirst then
    let (m, a) ← optSyntaxname m ro
    let (m, b) ← optSyntaxname m other
    return (m, a, b)
  let (m, b) ← optSyntaxname m other
  let (m, a) ← optSyntaxname m ro
  return (m, a, b)

/-- The check of mutual exclusion. -/
def checkMut (env : Env) (ro : RdOpt) (s : Scan) : Except Fault (Reply Unit) := do
  if bitTest ro.roType optMutMask then
    match s.mutro[mutGrp ro.roType]? with
    | none => throw .memory
    | some (some other) =>
      let (m, a, b) ← optSyntaxnames env s.mem ro other
      return ({ s with mem := m }, .error (message 1024 ("Option ".toList ++ (← cstrAt m.names a) ++
        " is mutually exclusive with already set option ".toList ++ (← cstrAt m.names b))))
    | some none => return ({ s with mutro := s.mutro.set (mutGrp ro.roType) (some ro) }, .ok ())
  return (s, .ok ())

/-- The parser of an entry: its own one, the default one if it has a target, or none. -/
def runParser (env : Env) (ro : RdOpt) (argv : List CStr) (newi : Nat) (s : Scan) : Except Fault (Reply Nat) :=
  match ro.roParse, ro.roOpaque with
  | some parser, _ =>
    let (r, newi, store) := parser argv newi s.mem.store
    let s := { s with mem := { s.mem with store := store } }
    match r with
    | some text => return (s, .error text)
    | none => return (s, .ok newi)
  | none, some target => do
    let (m, r) ← optParseAssign env ro argv newi (some target) s.mem
    match r with
    | some text => return ({ s with mem := m }, .error text)
    | none => return ({ s with mem := m }, .ok newi)
  | none, none => return (s, .ok newi)

/-- A matched option: its value is checked, then exclusion, then its parser runs. The result is the new `argi`. -/
def takeOpt (env : Env) (argv : List CStr) (roi : Nat) (ro : RdOpt) (val : Option CStr) (newi : Nat) (s : Scan) :
    Except Fault (Reply Nat) := do
  if ro.roArgcnt = 0 ∧ val ≠ none then
    let (m, text) ← optMessage 1024 s.mem "Option " ro " doesnot expect any arguments".toList
    return ({ s with mem := m }, .error text)
  else if ro.roArgcnt ≠ 0 ∧ val = none then
    let (m, text) ← optMessage 1024 s.mem "Missing arguments to option " ro []
    return ({ s with mem := m }, .error text)
  else
    match ← checkMut env ro s with
    | (s, .error text) => return (s, .error text)
    | (s, .ok ()) =>
      match ← runParser env ro argv newi s with
      | (s, .error text) => return (s, .error text)
      | (s, .ok newi) => return ({ s with found := bitvecSet s.found roi }, .ok newi)

/-- `longopt`, and the text attached to a short option. -/
def splitArg (arg : CStr) : Except Fault (Char × Option CStr × Option CStr) := do
  let c ← charAt arg 1
  if c = '-' then return (c, some (arg.drop 2), none)
  if (← charAt arg 2) ≠ nul then return (c, none, some (arg.drop 2))
  return (c, none, none)

/-- One option argument. -/
def scanOpt (env : Env) (ros : List RdOpt) (argv : List CStr) (argi : Nat) (arg : CStr) (s : Scan) :
    Except Fault (Reply Nat) := do
  let (c, longopt, text) ← splitArg arg
  match ← matchOpt c longopt ros 0 with
  | none => return (s, .error (message 1024 ("Unknown option: ".toList ++ arg)))
  | some (roi, ro) =>
    let (val, newi) := optVal argv argi ro longopt text
    takeOpt env argv roi ro val newi s

/-- The loop over the arguments; the result is the final `argi`. -/
def scanArgs (env : Env) (ros : List RdOpt) (argv : List CStr) : Nat → Nat → Scan → Except Fault (Reply Nat)
  | 0, _, _ => .error .fuel
  | fuel + 1, argi, s =>
    match argv[argi]? with
    | none => return (s, .ok argi)
    | some [] => scanArgs env ros argv fuel (argi + 1) s
    | some (c :: arg) =>
      if c ≠ '-' then return (s, .ok argi)
      else if c :: arg = "--help".toList then return (s, .error "(help)".toList)
      else do
        match ← scanOpt env ros argv argi (c :: arg) s with
        | (s, .error text) => return (s, .error text)
        | (s, .ok newi) => scanArgs env ros argv fuel (newi + 1) s

/-! ## Required options -/

/-- The text about one required option that is missing. -/
def putMissing (ro : RdOpt) (missed : Nat) (p : List Char × Nat) : Except Fault (List Char × Nat) := do
  let p ← put 0 1024 ((if missed ≠ 0 then [','] else []) ++ [' ']) p
  let p ← putIf (ro.roShort ≠ nul) 0 1024 ('-' :: ro.roShort :: if ro.roLong.isSome then ['/'] else []) p
  let p ← putIf (ro.roLong ≠ none) 0 1024 (ro.roLong.getD []) p
  putIf (ro.roArgcnt ≠ 0) 0 1024 " <...>".toList p

/-- A required option is satisfied if it was found, or another one of its group was. -/
def satisfied (s : Scan) (ro : RdOpt) (roi : Nat) : Except Fault Bool :=
  if bitvecTest s.found roi ≠ 0 then .ok true
  else if bitTest ro.roType optMutMask then
    match s.mutro[mutGrp ro.roType]? with
    | none => .error .memory
    | some r => .ok r.isSome
  else .ok false

/-- The loop over the required options: the message and `missed_reqs`. -/
def checkReqs (s : Scan) : List RdOpt → Nat → Nat → List Char × Nat → Except Fault (List Char × Nat)
  | [], _, _, _ => .error .memory
  | ro :: ros, roi, missed, p =>
    if bitTest ro.roType optEnd then .ok (p.1, missed)
    else if bitTest ro.roType optReq = false then checkReqs s ros (roi + 1) missed p
    else do
      if ← satisfied s ro roi then checkReqs s ros (roi + 1) missed p
      else checkReqs s ros (roi + 1) (missed + 1) (← putMissing ro missed p)

/-! ## `rd_opt_parse` -/

/-- What `rd_opt_parse` returns (`none` is `NULL`), `*argip` if there is one, and memory. -/
structure Parsed where
  ret : Option CStr
  argip : Option Nat
  mem : Mem

/-- The end of `rd_opt_parse`, where the required options are checked. -/
@[irreducible] def finishParse (ros : List RdOpt) (argip : Option Nat) (s : Scan) (argi : Nat) :
    Except Fault Parsed := do
  let p ← put 0 1024 "Required option(s) missing:".toList (List.replicate 1024 nul, 0)
  let (ret, missed) ← checkReqs s ros 0 0 p
  if missed ≠ 0 then return { ret := some (← cstrAt ret 0), argip := argip, mem := s.mem }
  return { ret := none, argip := argip.map fun _ => argi, mem := s.mem }

/-- `rd_opt_parse`; `argip` is the value it points to. -/
def optParse (env : Env) (fuel : Nat) (ros : List RdOpt) (argv : List CStr) (argip : Option Nat) (m : Mem) :
    Except Fault Parsed := do
  let some found := bitvecInit 512 | throw .assertion
  match ← scanArgs env ros argv fuel 1 { found := found, mutro := List.replicate (optMutNum + 1) none, mem := m } with
  | (s, .error text) => return { ret := some text, argip := argip, mem := s.mem }
  | (s, .ok argi) => finishParse ros argip s argi

end Librd.Opt
