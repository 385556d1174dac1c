import Librd.Lib.Machine
import Librd.Lib.Splice
import Mathlib.Logic.Function.Basic
import Mathlib.Data.Vector.Basic

/-!
# Logging (`rdlog.c`)

`rd_dbg_ctx_push` and `rd_dbg_ctx_pop` keep a table of debug contexts for a thread, with two indexes: the wanted depth,
and the depth that the table has. `rdputs0` writes the header, the contexts and the message of a line into a buffer of
4096 bytes and passes it to `write`.

A fault is a failed assertion, an access outside of the table or the buffer, the use of a block that is not
allocated, an `int` that overflows, and an argument that is not the string it is taken for. What `malloc` returns is
part of a push.
-/

namespace Librd.Log

abbrev Addr := Nat

abbrev Text := List Char

/-- The NUL. -/
def nul : Char := Char.ofNat 0

/-- `INT_MAX`. -/
def intMax : Nat := 2147483647

/-! ## Debug contexts -/

/-- `RD_DBG_CTXS_MAX`. -/
def ctxsMax : Nat := 32

/-- The size of the buffer of a context. -/
def ctxSize : Nat := 64

/-- A variadic argument: a string, or something else. -/
inductive Arg
  | str (s : Text)
  | other
  deriving DecidableEq, Repr

/-- `rd_dbg_ctxs`, `rd_dbg_ctx_idx`, `rd_dbg_ctx_wanted_idx` and `rd_current_severity`, and the strings in the blocks
that `malloc` gave. -/
structure State where
  ctxs : List (Option Addr)
  idx : Int
  wanted : Int
  severity : Int
  heap : Addr → Option Text

/-- `LOG_INFO`. -/
def logInfo : Int := 6

/-- Before the first call of a thread. -/
def start : State :=
  { ctxs := List.replicate ctxsMax none, idx := 0, wanted := 0, severity := logInfo, heap := fun _ => none }

/-- `x++` for an `int`. -/
def incr (x : Int) : Option Int := if x < intMax then some (x + 1) else none

/-- `vsnprintf` of `"%s"`: what it leaves in a buffer of `size` bytes. -/
def vsnprintfS (size : Nat) : List Arg → Option Text
  | .str s :: _ => some (s.take (size - 1))
  | _ => none

/-- `rd_dbg_ctx_push`; the format is not used, and `buf` is what `malloc` returns. -/
def dbgCtxPush (s : State) (_fmt : Text) (args : List Arg) (buf : Addr) : Option State := do
  let wanted ← incr s.wanted
  if s.idx + 1 = ctxsMax then return { s with wanted := wanted }
  let text ← vsnprintfS ctxSize args
  return { s with wanted := wanted, heap := Function.update s.heap buf (some text), idx := s.idx + 1 }

/-- `free`. -/
def free (heap : Addr → Option Text) : Option Addr → Option (Addr → Option Text)
  | none => some heap
  | some p => do
    let _ ← heap p
    return Function.update heap p none

/-- `rd_dbg_ctx_pop`. -/
def dbgCtxPop (s : State) : Option State := do
  guard (s.wanted > 0)
  guard (s.idx > 0)
  let ctx ← s.ctxs[(s.idx - 1).toNat]?
  return { s with wanted := s.wanted - 1, idx := s.idx - 1, heap := ← free s.heap ctx }

/-- The calls of a thread. -/
inductive Op
  | push (fmt : Text) (args : List Arg) (buf : Addr)
  | pop
  deriving DecidableEq, Repr

def step (s : State) : Op → Option State
  | .push fmt args buf => dbgCtxPush s fmt args buf
  | .pop => dbgCtxPop s

/-- Pushes and pops as a machine. -/
def machine : Machine State Op Unit where
  Ok _ _ := True
  step s op := (step s op).map (·, ())

/-! ## Lines -/

/-- `sizeof(buf)`. -/
def bufSize : Nat := 4096

/-- Writing into the buffer. -/
def poke (buf : List Char) (i : Int) (cs : List Char) : Option (List Char) :=
  if 0 ≤ i ∧ i + cs.length ≤ buf.length then some (Splice.write buf i.toNat cs) else none

/-- A conversion to `size_t`. -/
def toSize (x : Int) : Nat := (x % 2 ^ 64).toNat

/-- `sizeof(buf)-of`. -/
def sizeLeft (of : Int) : Nat := toSize (bufSize - of)

/-- `snprintf(buf+of, sizeof(buf)-of, ..)` of a format that gives `text`, and its result; a length beyond `INT_MAX`
is an error. -/
def snprintf (buf : List Char) (of : Int) (text : Text) : Option (List Char × Int) := do
  let buf ← if sizeLeft of = 0 then some buf else poke buf of (text.take (sizeLeft of - 1) ++ [nul])
  return (buf, if text.length ≤ intMax then text.length else -1)

/-- The buffer and the offset after a message for which `vsnprintf` returned `rc`: dots show that it was cut. -/
def endMessage (buf : List Char) (of rc : Int) : Option (List Char × Int) :=
  if toSize rc > sizeLeft of then do
    let of : Int := bufSize - 2
    let buf ← poke buf (of - 3) ['.']
    let buf ← poke buf (of - 2) ['.']
    let buf ← poke buf (of - 1) ['.']
    return (buf, of)
  else some (buf, of + rc)

/-- The newline and the NUL at `of`; the text that is passed to `write`. -/
def putNewline (buf : List Char) (of : Int) : Option Text := do
  let buf ← poke buf of ['\n']
  let buf ← poke buf (of + 1) [nul]
  return buf.take (of + 1).toNat

/-- The end of `rdputs0`, from the message at `of` on. -/
def putMessage (buf : List Char) (of : Int) (msg : Text) : Option Text := do
  let (buf, rc) ← snprintf buf of msg
  let (buf, of) ← endMessage buf of rc
  putNewline buf of

/-- Pieces of the header, one `snprintf` each. -/
def putPieces (buf : List Char) (of : Int) : List Text → Option (List Char × Int)
  | [] => some (buf, of)
  | piece :: pieces => do
    let (buf, rc) ← snprintf buf of piece
    putPieces buf (of + rc) pieces

/-- `%06` of a number. -/
def pad6 (n : Nat) : Text := List.replicate (6 - (toString n).length) '0' ++ (toString n).toList

/-- `"|%"PRIu64".%06"PRIu64"|%s:%i|%s| "`. -/
def header (now : Nat) (func : Text) (line : Int) (name : Text) : Text :=
  '|' :: (toString (now / 1000000)).toList ++ '.' :: pad6 (now % 1000000) ++ '|' :: func ++
    ':' :: (toString line).toList ++ '|' :: name ++ ['|', ' ']

/-- `"%s[%s]"` of the context `i`; a `NULL` prints as `(null)`. -/
def ctxPiece (s : State) (i : Nat) : Option Text := do
  let ctx ← s.ctxs[i]?
  let text ← match ctx with
    | none => some "(null)".toList
    | some p => s.heap p
  return (if i = 0 then [] else ['-', '>']) ++ '[' :: text ++ [']']

/-- The contexts, and the blank after them. -/
def ctxPieces (s : State) : Option (List Text) :=
  if s.idx > 0 then do return (← (List.range s.idx.toNat).mapM (ctxPiece s)) ++ [[' ']]
  else some []

/-- `rdputs0` at the clock reading `now`, in a thread with the name `name`, with `buf` as it is on the stack: the text
that is passed to `write`, if the severity is enough. -/
def rdputs0 (s : State) (buf : List.Vector Char bufSize) (now : Nat) (func : Text) (line : Int) (name : Text)
    (severity : Int) (msg : Text) : Option (Option Text) :=
  if severity > s.severity then some none
  else do
    let (buf, of) ← putPieces buf.1 0 (header now func line name :: (← ctxPieces s))
    return some (← putMessage buf of msg)

end Librd.Log
