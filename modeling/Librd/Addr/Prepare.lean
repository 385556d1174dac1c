import Mathlib
import Librd.Lib.Outcome

/-!
# Node and service of an address (`rd_addrinfo_prepare` of `rdaddr.c`)

`rd_addrinfo_prepare` takes `node:service`, `[node]:service` and the forms without a service apart. It looks for the
last colon and copies the parts to two buffers of the thread. Pointers are offsets of the text. Reading outside of the
text and its NUL, and writing outside of a buffer, are faults.

What a text consists of, whatever its length, is `parts`. Where both parts fit, the function gives them
(`prepare_fits`); it reads the byte before the text if that starts with its only colon (`prepare_portOnly`), and it
checks the length of the service but not that of the node.

* `prepare_forms`: the four syntaxes give the node and the service that they were made of;
* `prepare_safe_iff`: the texts that are taken apart without a fault and with an error where a part does not fit.
-/

namespace Librd.Addr

inductive Fault
  | read
  | write
  deriving DecidableEq, Repr

/-! ## Strings and buffers -/

/-- A C string: its characters before the NUL. -/
abbrev CStr := List Char

/-- The NUL. -/
def nul : Char := Char.ofNat 0

/-- The character at an offset of a string. -/
def charAt (s : CStr) (i : Int) : Except Fault Char :=
  if 0 ≤ i ∧ i ≤ s.length then .ok (s.getD i.toNat nul) else .error .read

/-- The string at an offset of a string. -/
def strAt (s : CStr) (off : Nat) : Except Fault CStr :=
  if off ≤ s.length then .ok (s.drop off) else .error .read

/-- `strchr`: the offset of the first `c`. -/
def strchr : CStr → Char → Option Nat
  | [], _ => none
  | a :: s, c => if a = c then some 0 else (strchr s c).map (· + 1)

/-- `strrchr`: the offset of the last `c`. -/
def strrchr : CStr → Char → Option Nat
  | [], _ => none
  | a :: s, c =>
    match strrchr s c with
    | some i => some (i + 1)
    | none => if a = c then some 0 else none

/-- Storing characters in an array, from an index on. -/
def store {n : Nat} (buf : List.Vector Char n) (i : Int) (cs : List Char) : Except Fault (List.Vector Char n) :=
  if h : 0 ≤ i ∧ i + cs.length ≤ n then
    .ok ⟨buf.1.take i.toNat ++ cs ++ buf.1.drop (i.toNat + cs.length), by simp; omega⟩
  else .error .write

/-- `strncpy`: exactly `len` characters are written. -/
def strncpy {n : Nat} (buf : List.Vector Char n) (src : CStr) (len : Nat) : Except Fault (List.Vector Char n) :=
  store buf 0 (src.take len ++ List.replicate (len - src.length) nul)

/-- A conversion to `int`. -/
def toInt (x : Int) : Int := Int.bmod x (2 ^ 32)

/-- A conversion to `size_t`. -/
def toSize (x : Int) : Nat := (x % 2 ^ 64).toNat

/-- `snode` and `ssvc`. -/
structure Statics where
  snode : List.Vector Char 256
  ssvc : List.Vector Char 64

/-- The string in a buffer. -/
def text {n : Nat} (buf : List.Vector Char n) : CStr := buf.1.takeWhile (· ≠ nul)

/-! ## `rd_addrinfo_prepare` -/

/-- How the text starts: `nodesvc`, `nodelen` and `svct` after that, or nothing if a bracket is not closed. -/
def openNode (s : CStr) : Except Fault (Option (Nat × Int × Option Nat)) := do
  let c ← charAt s 0
  if c = '[' then
    -- "[host]".. (enveloped node name)
    match strchr s ']' with
    | none => return none
    | some t => return some (1, toInt (t - 1), some (t + 1))
  else if c = ':' then
    -- ":"..  (port only)
    let c' ← charAt s 1
    return some (0, 0, if c' ≠ ':' then some 0 else none)
  else return some (0, 0, none)

/-- The offset of the optional service. -/
def findSvc (s : CStr) (nodesvc : Nat) (svct : Option Nat) : Except Fault (Option Nat) := do
  let start := svct.getD nodesvc
  let str ← strAt s start
  match strrchr str ':' with
  | none => return none
  | some i =>
    let before ← charAt s ((start + i : Nat) - 1)
    if before = ':' then return none
    let c ← charAt s (start + i + 1 : Nat)
    if c = nul then return none
    return some (start + i + 1)

/-- The node is copied. -/
def copyNode (st : Statics) (s : CStr) (nodesvc : Nat) (nodelen : Int) : Except Fault (Option String × Statics) := do
  if nodelen ≠ 0 then
    let src ← strAt s nodesvc
    let snode ← strncpy st.snode src (toSize nodelen)
    let snode ← store snode nodelen [nul]
    return (none, { st with snode := snode })
  else return (none, st)

/-- The service is copied, and then the node. -/
def copyParts (st : Statics) (s : CStr) (nodesvc : Nat) (nodelen : Int) (svct : Option Nat) :
    Except Fault (Option String × Statics) := do
  match ← findSvc s nodesvc svct with
  | some svc =>
    let str ← strAt s svc
    if str.length ≥ 64 then return (some "Service name too long", st)
    let ssvc ← store st.ssvc 0 (str ++ [nul])
    copyNode { st with ssvc := ssvc } s nodesvc
      (if nodelen = 0 then toInt (toInt (svc - nodesvc) - 1) else nodelen)
  | none => copyNode st s nodesvc (if nodelen = 0 then toInt (s.drop nodesvc).length else nodelen)

/-- `rd_addrinfo_prepare`: the error, and the buffers that `*node` and `*svc` point to if there is none. -/
def addrinfoPrepare (st : Statics) (s : CStr) : Except Fault (Option String × Statics) := do
  let snode ← store st.snode 0 [nul]
  let ssvc ← store st.ssvc 0 [nul]
  match ← openNode s with
  | none => return (some "Missing close-']'", ⟨snode, ssvc⟩)
  | some (nodesvc, nodelen, svct) => copyParts ⟨snode, ssvc⟩ s nodesvc nodelen svct

/-! ## The parts of a text -/

/-- What comes before and after the last colon, if that is not one of two in a row and not the end. -/
def service (s : CStr) : Option (CStr × CStr) :=
  match strrchr s ':' with
  | none => none
  | some i =>
    if (s.take i).getLast? = some ':' ∨ s.drop (i + 1) = [] then none else some (s.take i, s.drop (i + 1))

/-- The node and the service, where `inner` is the node in brackets, if there are any. -/
def withService (inner whole : CStr) : Option (CStr × CStr) → CStr × CStr
  | some (before, svc) => (if inner = [] then before else inner, svc)
  | none => (if inner = [] then whole else inner, [])

/-- The node and the service of a text. With nothing between the brackets the node starts at the closing one. -/
def parts : CStr → Option (CStr × CStr)
  | '[' :: rest =>
    (strchr rest ']').map fun i =>
      withService (rest.take i) rest ((service (rest.drop (i + 1))).map fun p => (rest.take (i + 1) ++ p.1, p.2))
  | s => some (withService [] s (service s))

/-- The text starts with its only colon. -/
def PortOnly (s : CStr) : Prop := s.head? = some ':' ∧ ':' ∉ s.tail

/-! ## Searching -/

section Search

variable {c : Char} {s : CStr} {i : Nat}

theorem strchr_append {l r : CStr} (h : c ∉ l) : strchr (l ++ c :: r) c = some l.length := by
  induction l with
  | nil => simp [strchr]
  | cons a l ih =>
    rw [List.mem_cons, not_or] at h
    rw [List.cons_append, strchr, if_neg (Ne.symm h.1), ih h.2]
    rfl

theorem strchr_split (h : strchr s c = some i) : s = s.take i ++ c :: s.drop (i + 1) ∧ (s.take i).length = i := by
  induction s generalizing i with
  | nil => cases h
  | cons a s ih =>
    rw [strchr] at h
    split at h
    next hac =>
      cases h
      exact ⟨by simp [hac], rfl⟩
    next =>
      obtain ⟨j, hj, rfl⟩ := Option.map_eq_some_iff.1 h
      obtain ⟨hs, hlen⟩ := ih hj
      exact ⟨by rw [List.take_succ_cons, List.drop_succ_cons, List.cons_append, ← hs], by simp [hlen]⟩

theorem strrchr_eq_none : strrchr s c = none ↔ c ∉ s := by
  induction s with
  | nil => simp [strrchr]
  | cons a s ih =>
    rw [List.mem_cons, not_or, ← ih, strrchr]
    cases strrchr s c with
    | none => simp [eq_comm]
    | some i => simp

theorem strrchr_append {l r : CStr} (h : c ∉ r) : strrchr (l ++ c :: r) c = some l.length := by
  induction l with
  | nil => simp [strrchr, strrchr_eq_none.2 h]
  | cons a l ih =>
    rw [List.cons_append, strrchr, ih]
    rfl

theorem strrchr_split (h : strrchr s c = some i) : s = s.take i ++ c :: s.drop (i + 1) ∧ (s.take i).length = i := by
  induction s generalizing i with
  | nil => cases h
  | cons a s ih =>
    rw [strrchr] at h
    split at h
    next j hj =>
      cases h
      obtain ⟨hs, hlen⟩ := ih hj
      exact ⟨by rw [List.take_succ_cons, List.drop_succ_cons, List.cons_append, ← hs], by simp [hlen]⟩
    next =>
      split at h
      next hac =>
        cases h
        exact ⟨by simp [hac], rfl⟩
      next => cases h

theorem portOnly_iff : PortOnly s ↔ strrchr s ':' = some 0 := by
  cases s with
  | nil => simp [PortOnly, strrchr]
  | cons a s =>
    rw [PortOnly, List.head?_cons, List.tail_cons, Option.some.injEq, ← strrchr_eq_none, strrchr]
    cases strrchr s ':' with
    | none => simp
    | some i => simp

end Search

/-! ## Reading -/

section Reads

variable {q r : CStr}

theorem charAt_last {x : Char} (h : q.getLast? = some x) : charAt (q ++ r) ((q.length : Nat) - 1) = .ok x := by
  obtain ⟨l, rfl⟩ := List.getLast?_eq_some_iff.1 h
  rw [charAt, if_pos ⟨by simp, by simp; omega⟩]
  simp [List.getD_eq_getElem?_getD]

theorem charAt_length : charAt (q ++ r) (q.length : Nat) = .ok (r.headD nul) := by
  rw [charAt, if_pos ⟨by simp, by simp⟩]
  cases r <;> simp [List.getD_eq_getElem?_getD]

theorem strAt_length : strAt (q ++ r) q.length = .ok r := by simp [strAt]

theorem headD_eq_nul (hnul : nul ∉ r) : r.headD nul = nul ↔ r = [] := by
  cases r with
  | nil => simp
  | cons a r =>
    have ha : nul ≠ a := fun heq => hnul (heq ▸ List.mem_cons_self)
    exact iff_of_false (Ne.symm ha) (List.cons_ne_nil a r)

/-- **The search for the service**, from after `q` on. -/
theorem findSvc_eq {nodesvc : Nat} {svct : Option Nat} (hstart : svct.getD nodesvc = q.length) (hnul : nul ∉ r)
    (hq : q.getLast? ≠ some ':') (h : q ≠ [] ∨ strrchr r ':' ≠ some 0) :
    findSvc (q ++ r) nodesvc svct = .ok ((service r).map fun p => q.length + p.1.length + 1) := by
  simp only [findSvc, service, hstart, strAt_length]
  cases hi : strrchr r ':' with
  | none => simp [hi, pure, Except.pure, bind, Except.bind]
  | some i =>
    obtain ⟨hr, hlen⟩ := strrchr_split hi
    have hne : q ++ r.take i ≠ [] := by
      rcases h with h | h
      · simp [h]
      · intro hnil
        rw [List.append_eq_nil_iff.1 hnil |>.2] at hlen
        have h0 : i = 0 := hlen.symm
        exact h (h0 ▸ hi)
    obtain ⟨x, hx⟩ := Option.ne_none_iff_exists'.1 (mt List.getLast?_eq_none_iff.1 hne)
    have hcolon : x = ':' ↔ (r.take i).getLast? = some ':' := by
      rw [List.getLast?_append] at hx
      cases hl : (r.take i).getLast? with
      | none =>
        rw [hl, Option.none_or] at hx
        simp only [reduceCtorEq, iff_false]
        exact fun hc => hq (hc ▸ hx)
      | some y =>
        rw [hl, Option.some_or] at hx
        rw [hx]
        simp
    have hbefore : charAt (q ++ r) ((q.length + i : Nat) - 1) = .ok x := by
      have := charAt_last (r := ':' :: r.drop (i + 1)) hx
      rwa [List.append_assoc, ← hr, List.length_append, hlen] at this
    have hafter : charAt (q ++ r) (q.length + i + 1 : Nat) = .ok ((r.drop (i + 1)).headD nul) := by
      have := charAt_length (q := q ++ r.take i ++ [':']) (r := r.drop (i + 1))
      rw [List.append_assoc, List.append_assoc, List.singleton_append, ← hr] at this
      simpa [hlen, Nat.add_assoc] using this
    have hnul' : nul ∉ r.drop (i + 1) := fun hm => hnul (List.mem_of_mem_drop hm)
    simp only [hi, bind, Except.bind, pure, Except.pure, hbefore, hafter, hcolon, headD_eq_nul hnul']
    by_cases h1 : (r.take i).getLast? = some ':'
    · simp [h1]
    · by_cases h2 : r.drop (i + 1) = []
      · simp [h1, h2]
      · simp [h1, h2, hlen]

end Reads

/-! ## Writing -/

section Writes

variable {n : Nat} {buf : List.Vector Char n} {cs : CStr}

/-- The array starts with these characters. -/
def Starts (buf : List.Vector Char n) (cs : List Char) : Prop := cs <+: buf.1

theorem text_of_starts (h : Starts buf (cs ++ [nul])) (hnul : nul ∉ cs) : text buf = cs := by
  obtain ⟨rest, hrest⟩ := h
  rw [text, ← hrest, List.append_assoc, List.takeWhile_append_of_pos fun a ha => by
    simpa using fun heq : a = nul => hnul (heq ▸ ha)]
  simp

theorem exists_store (buf : List.Vector Char n) (cs : List Char) (i : Nat) (h : i + cs.length ≤ n) :
    ∃ buf', store buf i cs = .ok buf' ∧ Starts buf' (buf.1.take i ++ cs) := by
  rw [store, dif_pos ⟨by omega, by omega⟩]
  exact ⟨_, rfl, ⟨_, rfl⟩⟩

/-- **The copy of the node**, where it fits. -/
theorem exists_copyNode {st : Statics} {node : CStr} (q rest : CStr) (hst : text st.snode = []) (hnul : nul ∉ node)
    (hlen : node.length < 256) :
    ∃ st', copyNode st (q ++ (node ++ rest)) q.length node.length = .ok (none, st') ∧ text st'.snode = node ∧
      st'.ssvc = st.ssvc := by
  by_cases hnil : node = []
  · subst hnil
    exact ⟨st, by simp [copyNode, pure, Except.pure], hst, rfl⟩
  · have hpos : (node.length : Int) ≠ 0 := by simpa using hnil
    have hsize : toSize node.length = node.length := by
      rw [toSize]
      omega
    have hcopied :
      (node ++ rest).take node.length ++ List.replicate (node.length - (node ++ rest).length) nul = node := by
      simp
    obtain ⟨buf₁, hbuf₁, hstarts₁⟩ := exists_store st.snode node 0 (by omega)
    obtain ⟨buf₂, hbuf₂, hstarts₂⟩ := exists_store buf₁ [nul] node.length (by simp; omega)
    have htake : buf₁.1.take node.length = node := by
      obtain ⟨rest', hrest'⟩ := hstarts₁
      rw [← hrest']
      simp
    rw [htake] at hstarts₂
    refine ⟨{ st with snode := buf₂ }, ?_, text_of_starts hstarts₂ hnul, rfl⟩
    simp only [copyNode, if_pos hpos, strAt_length, strncpy, hsize, hcopied, bind, Except.bind, pure, Except.pure]
    simp only [Nat.cast_zero] at hbuf₁
    rw [hbuf₁]
    simp only [hbuf₂]

end Writes

/-! ## The parts that are copied -/

section Parts

variable {q mid r inner node svc : CStr} {svct : Option Nat}

theorem toInt_of_lt {x : Int} (h0 : 0 ≤ x) (h : x < 2 ^ 31) : toInt x = x := by
  rw [toInt, Int.bmod_def]
  omega

theorem service_eq_some {p : CStr × CStr} (h : service r = some p) : r = p.1 ++ ':' :: p.2 := by
  rw [service] at h
  split at h
  next => cases h
  next i hi =>
    split at h
    next => cases h
    next =>
      cases h
      exact (strrchr_split hi).1

/-- Which part of the text is the node. -/
theorem node_prefix {before : Option (CStr × CStr)} (hinner : inner <+: mid)
    (hbefore : before = (service r).map fun p => (mid ++ p.1, p.2))
    (hparts : withService inner (mid ++ r) before = (node, svc)) : node <+: mid ++ r := by
  subst hbefore
  cases hs : service r with
  | none =>
    rw [hs] at hparts
    obtain ⟨rfl, -⟩ := Prod.mk.inj hparts
    split
    · exact List.prefix_rfl
    · exact hinner.trans (List.prefix_append ..)
  | some p =>
    rw [hs] at hparts
    obtain ⟨rfl, -⟩ := Prod.mk.inj hparts
    split
    · rw [service_eq_some hs, ← List.append_assoc]
      exact List.prefix_append ..
    · exact hinner.trans (List.prefix_append ..)

/-- The length of the node in an `int`, where the code takes it from the brackets or else computes `len`. -/
theorem nodelen_eq {len : Int} (mid : CStr) (hnode : node = if inner = [] then mid else inner)
    (hlen : inner = [] → node.length < 256 → len = node.length) (h : node.length < 256) :
    (if toInt inner.length = 0 then len else toInt inner.length) = node.length := by
  by_cases hnil : inner = []
  · rw [if_pos (by simp [hnil, toInt])]
    exact hlen hnil h
  · rw [if_neg hnil] at hnode
    subst hnode
    have hpos : 0 < node.length := List.length_pos_of_ne_nil hnil
    have htoInt : toInt node.length = node.length := toInt_of_lt (by omega) (by omega)
    rw [htoInt, if_neg (by omega)]

theorem copyParts_none {st : Statics} {s : CStr} {nodesvc : Nat} {nodelen : Int}
    (h : findSvc s nodesvc svct = .ok none) : copyParts st s nodesvc nodelen svct =
      copyNode st s nodesvc (if nodelen = 0 then toInt (s.drop nodesvc).length else nodelen) := by
  rw [copyParts, h]
  rfl

theorem copyParts_some {st : Statics} {s str : CStr} {nodesvc off : Nat} {nodelen : Int}
    (h : findSvc s nodesvc svct = .ok (some off)) (hstr : strAt s off = .ok str) : copyParts st s nodesvc nodelen svct =
      if 64 ≤ str.length then .ok (some "Service name too long", st)
      else store st.ssvc 0 (str ++ [nul]) >>= fun ssvc => copyNode { st with ssvc := ssvc } s nodesvc
        (if nodelen = 0 then toInt (toInt (off - nodesvc) - 1) else nodelen) := by
  rw [copyParts, h]
  show (strAt s off >>= _) = _
  rw [hstr]
  rfl

/-- A text is taken apart, up to the copy of the node: the node starts after `q`. -/
structure Copies (q node svc : CStr) (s : CStr) (x : Except Fault (Option String × Statics)) : Prop where
  node_at : ∃ rest, s = q ++ (node ++ rest)
  too_long : 64 ≤ svc.length → ∃ st', x = .ok (some "Service name too long", st')
  copied : svc.length < 64 → ∃ st₁ nodelen, x = copyNode st₁ s q.length nodelen ∧ text st₁.snode = [] ∧
    text st₁.ssvc = svc ∧ (node.length < 256 → nodelen = node.length)

/-- **The service and the node** of a text `q ++ (mid ++ r)`: the node starts after `q`, the search for the service
after `mid`, and `inner` is the node in brackets. -/
theorem copyParts_copies {st : Statics} (hsnode : text st.snode = []) (hssvc : text st.ssvc = []) (hnul : nul ∉ r)
    (hinner : inner <+: mid) (hsvct : svct.getD q.length = (q ++ mid).length) (hlast : (q ++ mid).getLast? ≠ some ':')
    (h : q ++ mid ≠ [] ∨ strrchr r ':' ≠ some 0)
    (hparts : withService inner (mid ++ r) ((service r).map fun p => (mid ++ p.1, p.2)) = (node, svc)) :
    Copies q node svc (q ++ (mid ++ r)) (copyParts st (q ++ (mid ++ r)) q.length (toInt inner.length) svct) := by
  have hfind := findSvc_eq hsvct hnul hlast h
  rw [List.append_assoc] at hfind
  obtain ⟨rest, hrest⟩ := node_prefix hinner rfl hparts
  have hnode : ∃ rest, q ++ (mid ++ r) = q ++ (node ++ rest) := ⟨rest, by rw [hrest]⟩
  cases hs : service r with
  | none =>
    rw [hs] at hparts hfind
    obtain ⟨rfl, rfl⟩ := Prod.mk.inj hparts
    refine ⟨hnode, fun hlong => absurd hlong (by decide), fun _ =>
      ⟨st, _, copyParts_none hfind, hsnode, hssvc, fun hlen => ?_⟩⟩
    refine nodelen_eq (mid ++ r) rfl (fun hnil hlen => ?_) hlen
    rw [if_pos hnil] at hlen ⊢
    rw [List.drop_left, toInt_of_lt (by omega) (by omega)]
  | some p =>
    rw [hs] at hparts hfind
    obtain ⟨rfl, rfl⟩ := Prod.mk.inj hparts
    have hr := service_eq_some hs
    have hstr : strAt (q ++ (mid ++ r)) ((q ++ mid).length + p.1.length + 1) = .ok p.2 := by
      have := strAt_length (q := q ++ mid ++ p.1 ++ [':']) (r := p.2)
      simpa [hr, Nat.add_assoc] using this
    rw [copyParts_some hfind hstr]
    refine ⟨hnode, fun hlong => ⟨st, if_pos hlong⟩, fun hshort => ?_⟩
    obtain ⟨ssvc, hssvc', hstarts⟩ := exists_store st.ssvc (p.2 ++ [nul]) 0 (by simp; omega)
    have hnul₂ : nul ∉ p.2 := fun hm => hnul (by rw [hr]; simp [hm])
    rw [if_neg (Nat.not_le.2 hshort), show store st.ssvc 0 (p.2 ++ [nul]) = .ok ssvc from hssvc']
    refine ⟨{ st with ssvc := ssvc }, _, pure_bind ssvc _, hsnode, text_of_starts hstarts hnul₂, fun hlen => ?_⟩
    refine nodelen_eq (mid ++ p.1) rfl (fun hnil hlen => ?_) hlen
    rw [if_pos hnil] at hlen ⊢
    have hoff : (((q ++ mid).length + p.1.length + 1 : Nat) : Int) - (q.length : Nat) = (mid ++ p.1).length + 1 := by
      simp
      omega
    have hint : toInt ((mid ++ p.1).length + 1) = (mid ++ p.1).length + 1 := toInt_of_lt (by omega) (by omega)
    rw [hoff, hint, add_sub_cancel_right, toInt_of_lt (by omega) (by omega)]

end Parts

/-! ## Whole texts -/

section Whole

variable {s node svc : CStr}

theorem exists_cleared {n : Nat} (buf : List.Vector Char (n + 1)) :
    ∃ buf', store buf 0 [nul] = .ok buf' ∧ text buf' = [] := by
  obtain ⟨buf', hbuf', hstarts⟩ := exists_store buf [nul] 0 (by simp)
  have hempty : Starts buf' ([] ++ [nul]) := hstarts
  exact ⟨buf', hbuf', text_of_starts hempty List.not_mem_nil⟩

theorem prepare_eq (st : Statics) (s : CStr) : ∃ st₁ : Statics, text st₁.snode = [] ∧ text st₁.ssvc = [] ∧
    addrinfoPrepare st s = openNode s >>= fun o => match o with
      | none => .ok (some "Missing close-']'", st₁)
      | some (nodesvc, nodelen, svct) => copyParts st₁ s nodesvc nodelen svct := by
  obtain ⟨snode, hsnode, hsnode'⟩ := exists_cleared st.snode
  obtain ⟨ssvc, hssvc, hssvc'⟩ := exists_cleared st.ssvc
  refine ⟨⟨snode, ssvc⟩, hsnode', hssvc', ?_⟩
  rw [addrinfoPrepare, hsnode, hssvc]
  rfl

theorem openNode_bracket (rest : CStr) :
    openNode ('[' :: rest) = .ok ((strchr rest ']').map fun i : Nat => (1, toInt i, some (i + 2))) := by
  have hc : charAt ('[' :: rest) 0 = .ok '[' := by simp [charAt]; omega
  rw [openNode, hc, strchr, if_neg (by decide)]
  cases strchr rest ']' with
  | none => rfl
  | some i => simp [bind, Except.bind, pure, Except.pure]

theorem openNode_plain (h : s.head? ≠ some '[') :
    ∃ svct : Option Nat, svct.getD 0 = 0 ∧ openNode s = .ok (some (0, 0, svct)) := by
  cases s with
  | nil => exact ⟨none, rfl, rfl⟩
  | cons a s =>
    have hc : charAt (a :: s) 0 = .ok a := by simp [charAt]; omega
    have ha : a ≠ '[' := fun heq => h (heq ▸ rfl)
    rw [openNode, hc]
    simp only [bind, Except.bind, if_neg ha]
    by_cases hcolon : a = ':'
    · have hc' := charAt_length (q := [a]) (r := s)
      simp only [List.length_singleton, Nat.cast_one, List.singleton_append] at hc'
      rw [if_pos hcolon, hc']
      exact ⟨_, by split <;> rfl, rfl⟩
    · rw [if_neg hcolon]
      exact ⟨none, rfl, rfl⟩

theorem parts_plain (h : s.head? ≠ some '[') : parts s = some (withService [] s (service s)) := by
  unfold parts
  split
  next => exact absurd rfl h
  next => rfl

theorem parts_bracket (rest : CStr) : parts ('[' :: rest) = (strchr rest ']').map fun i =>
    withService (rest.take i) rest ((service (rest.drop (i + 1))).map fun p => (rest.take (i + 1) ++ p.1, p.2)) := rfl

theorem prepare_bracket {st : Statics} {rest : CStr} (hnul : nul ∉ rest) (h : parts ('[' :: rest) = some (node, svc)) :
    Copies ['['] node svc ('[' :: rest) (addrinfoPrepare st ('[' :: rest)) := by
  obtain ⟨st₁, hsnode, hssvc, heq⟩ := prepare_eq st ('[' :: rest)
  rw [parts_bracket] at h
  obtain ⟨i, hi, hparts⟩ := Option.map_eq_some_iff.1 h
  obtain ⟨hrest, hlen⟩ := strchr_split hi
  have hsplit : rest.take (i + 1) ++ rest.drop (i + 1) = rest := List.take_append_drop ..
  have happend : rest.take (i + 1) ++ rest.drop (i + 1) = (rest.take i ++ [']']) ++ rest.drop (i + 1) := by
    rw [hsplit, List.append_assoc]
    exact hrest
  have hmid : rest.take (i + 1) = rest.take i ++ [']'] := List.append_cancel_right happend
  have hsvct : (some (i + 2)).getD ['['].length = (['['] ++ rest.take (i + 1)).length := by simp [hmid, hlen]
  have hlast : (['['] ++ rest.take (i + 1)).getLast? ≠ some ':' := by
    rw [hmid, ← List.append_assoc, List.getLast?_concat]
    decide
  have hinner : rest.take i <+: rest.take (i + 1) := hmid ▸ List.prefix_append ..
  have hnul' : nul ∉ rest.drop (i + 1) := fun hm => hnul (List.mem_of_mem_drop hm)
  have hparts' : withService (rest.take i) (rest.take (i + 1) ++ rest.drop (i + 1))
      ((service (rest.drop (i + 1))).map fun p => (rest.take (i + 1) ++ p.1, p.2)) = (node, svc) := by
    rw [hsplit]
    exact hparts
  have hcopies := copyParts_copies hsnode hssvc hnul' hinner hsvct hlast (.inl (List.cons_ne_nil _ _)) hparts'
  rw [hsplit, hlen] at hcopies
  rw [heq, openNode_bracket, hi]
  exact hcopies

theorem prepare_plain {st : Statics} (hnul : nul ∉ s) (hport : ¬PortOnly s) (hb : s.head? ≠ some '[')
    (h : parts s = some (node, svc)) : Copies [] node svc s (addrinfoPrepare st s) := by
  obtain ⟨st₁, hsnode, hssvc, heq⟩ := prepare_eq st s
  obtain ⟨svct, hsvct, hopen⟩ := openNode_plain hb
  rw [parts_plain hb] at h
  have hparts : withService [] ([] ++ s) ((service s).map fun p => ([] ++ p.1, p.2)) = (node, svc) := by
    simpa using h
  have hinner : ([] : CStr) <+: [] := List.prefix_rfl
  have hsvct' : svct.getD ([] : CStr).length = (([] : CStr) ++ []).length := hsvct
  have hcopies := copyParts_copies hsnode hssvc hnul hinner hsvct' (by simp) (.inr (mt portOnly_iff.2 hport)) hparts
  rw [heq, hopen]
  exact hcopies

/-- **A text with its parts**: the service is checked and copied, then the node is copied. -/
theorem prepare_copies (st : Statics) (hnul : nul ∉ s) (hport : ¬PortOnly s) (h : parts s = some (node, svc)) :
    ∃ q, Copies q node svc s (addrinfoPrepare st s) := by
  by_cases hb : s.head? = some '['
  · obtain ⟨rest, rfl⟩ := List.head?_eq_some_iff.1 hb
    exact ⟨['['], prepare_bracket (fun hm => hnul (List.mem_cons_of_mem _ hm)) h⟩
  · exact ⟨[], prepare_plain hnul hport hb h⟩

theorem prepare_unclosed (st : Statics) (h : parts s = none) :
    ∃ st', addrinfoPrepare st s = .ok (some "Missing close-']'", st') := by
  by_cases hb : s.head? = some '['
  · obtain ⟨rest, rfl⟩ := List.head?_eq_some_iff.1 hb
    obtain ⟨st₁, -, -, heq⟩ := prepare_eq st ('[' :: rest)
    rw [parts_bracket, Option.map_eq_none_iff] at h
    rw [heq, openNode_bracket, h]
    exact ⟨st₁, rfl⟩
  · rw [parts_plain hb] at h
    cases h

/-- A text that starts with its only colon: the byte before it is read. -/
theorem prepare_portOnly {st : Statics} (h : PortOnly s) : addrinfoPrepare st s = .error .read := by
  have hb : s.head? ≠ some '[' := by simp [h.1]
  obtain ⟨st₁, -, -, heq⟩ := prepare_eq st s
  obtain ⟨svct, hsvct, hopen⟩ := openNode_plain hb
  have hfind : findSvc s 0 svct = .error .read := by
    have hstr : strAt s 0 = .ok s := by simp [strAt]
    have hbefore : charAt s ((0 + 0 : Nat) - 1) = .error .read := by simp [charAt]
    simp only [findSvc, hsvct, hstr, bind, Except.bind, portOnly_iff.1 h, hbefore]
  rw [heq, hopen]
  show copyParts st₁ s 0 0 svct = _
  rw [copyParts, hfind]
  rfl

/-- What the function gives for a text. -/
def Gives (st : Statics) (s node svc : CStr) : Prop :=
  ∃ st', addrinfoPrepare st s = .ok (none, st') ∧ text st'.snode = node ∧ text st'.ssvc = svc

/-- **Parts that fit** are given. -/
theorem prepare_fits (st : Statics) (hnul : nul ∉ s) (hport : ¬PortOnly s) (h : parts s = some (node, svc))
    (hsvc : svc.length < 64) (hnode : node.length < 256) : Gives st s node svc := by
  obtain ⟨q, hcopies⟩ := prepare_copies st hnul hport h
  obtain ⟨rest, hs⟩ := hcopies.node_at
  obtain ⟨st₁, nodelen, heq, hsnode, hssvc, hlen⟩ := hcopies.copied hsvc
  have hnul' : nul ∉ node := fun hm => hnul (by rw [hs]; simp [hm])
  obtain ⟨st', hcopy, htext, hssvc'⟩ := exists_copyNode q rest hsnode hnul' hnode
  rw [← hs, ← hlen hnode] at hcopy
  exact ⟨st', heq.trans hcopy, htext, hssvc' ▸ hssvc⟩

theorem copyNode_no_error {st st' : Statics} {nodesvc : Nat} {nodelen : Int} {err : Option String}
    (h : copyNode st s nodesvc nodelen = .ok (err, st')) : err = none := by
  rw [copyNode] at h
  split at h
  next =>
    obtain ⟨src, -, h⟩ := Outcome.exists_of_bind h
    obtain ⟨snode, -, h⟩ := Outcome.exists_of_bind h
    obtain ⟨snode', -, h⟩ := Outcome.exists_of_bind h
    cases h
    rfl
  next =>
    cases h
    rfl

/-- The text is taken apart without a fault, and with an error where a part does not fit. -/
def Safe (st : Statics) (s : CStr) : Prop :=
  ∃ err st', addrinfoPrepare st s = .ok (err, st') ∧
    ∀ node svc, parts s = some (node, svc) → 256 ≤ node.length ∨ 64 ≤ svc.length → err ≠ none

theorem not_safe_of_portOnly {st : Statics} (h : PortOnly s) : ¬Safe st s := by
  rintro ⟨err, st', heq, -⟩
  rw [prepare_portOnly h] at heq
  cases heq

/-- There is no error for a node that does not fit. -/
theorem not_safe_of_long {st : Statics} (hnul : nul ∉ s) (hport : ¬PortOnly s) (h : parts s = some (node, svc))
    (hsvc : svc.length < 64) (hnode : 256 ≤ node.length) : ¬Safe st s := by
  rintro ⟨err, st', heq, herr⟩
  obtain ⟨q, hcopies⟩ := prepare_copies st hnul hport h
  obtain ⟨st₁, nodelen, hcopy, -⟩ := hcopies.copied hsvc
  have hnone : err = none := copyNode_no_error (hcopy.symm.trans heq)
  exact herr node svc h (.inl hnode) hnone

/-- **Safety**: the byte before the text is not read, and a node that does not fit comes with an error of
the service. -/
theorem prepare_safe_iff (st : Statics) (hnul : nul ∉ s) :
    Safe st s ↔ ¬PortOnly s ∧ ∀ node svc, parts s = some (node, svc) → 64 ≤ svc.length ∨ node.length < 256 := by
  constructor
  · intro hsafe
    have hport : ¬PortOnly s := fun hport => not_safe_of_portOnly hport hsafe
    refine ⟨hport, fun node svc hparts => ?_⟩
    by_contra hfits
    obtain ⟨hsvc, hnode⟩ := not_or.1 hfits
    exact not_safe_of_long hnul hport hparts (Nat.lt_of_not_le hsvc) (Nat.le_of_not_lt hnode) hsafe
  · rintro ⟨hport, hfits⟩
    cases hparts : parts s with
    | none =>
      obtain ⟨st', heq⟩ := prepare_unclosed st hparts
      exact ⟨_, st', heq, fun node svc h => by rw [hparts] at h; cases h⟩
    | some p =>
      obtain ⟨node, svc⟩ := p
      by_cases hsvc : 64 ≤ svc.length
      · obtain ⟨q, hcopies⟩ := prepare_copies st hnul hport hparts
        obtain ⟨st', heq⟩ := hcopies.too_long hsvc
        exact ⟨_, st', heq, fun _ _ _ _ => Option.some_ne_none _⟩
      · have hnode := (hfits node svc hparts).resolve_left hsvc
        obtain ⟨st', heq, -⟩ := prepare_fits st hnul hport hparts (Nat.lt_of_not_le hsvc) hnode
        refine ⟨none, st', heq, fun node' svc' h hlong => ?_⟩
        obtain ⟨rfl, rfl⟩ := Prod.mk.inj (Option.some.inj (hparts.symm.trans h))
        omega

/-- Buffers that were not used yet. -/
def zeros : Statics := ⟨List.Vector.replicate 256 nul, List.Vector.replicate 64 nul⟩

/-- An address with a port. -/
theorem prepare_safe_port : nul ∉ "10.0.0.1:80".toList ∧ Safe zeros "10.0.0.1:80".toList := by
  refine ⟨by decide, (prepare_safe_iff zeros (by decide)).2 ⟨by simp [PortOnly], ?_⟩⟩
  rintro node svc h
  have hparts : parts "10.0.0.1:80".toList = some ("10.0.0.1".toList, "80".toList) := by decide
  rw [hparts] at h
  cases h
  exact .inr (by decide)

/-! ## The four syntaxes -/

theorem service_append {l r : CStr} (hl : l.getLast? ≠ some ':') (hr : ':' ∉ r) (hne : r ≠ []) :
    service (l ++ ':' :: r) = some (l, r) := by
  rw [service, strrchr_append hr]
  simp [hl, hne]

theorem service_of_not_mem (h : ':' ∉ s) : service s = none := by
  rw [service, strrchr_eq_none.2 h]

theorem parts_enveloped {after : CStr} (hne : node ≠ []) (hb : ']' ∉ node) :
    parts ('[' :: (node ++ ']' :: after)) = some (node, ((service after).map Prod.snd).getD []) := by
  have hdrop : (node ++ ']' :: after).drop (node.length + 1) = after := by
    rw [← List.drop_drop, List.drop_left]
    rfl
  rw [parts_bracket, strchr_append hb, Option.map_some, List.take_left, hdrop]
  cases service after with
  | none => simp [withService, hne]
  | some p => simp [withService, hne]

theorem not_portOnly {a : Char} (ha : a ≠ ':') : ¬PortOnly (a :: s) := fun h => ha (Option.some.inj h.1)

/-- `:port`: the byte before the text is read. A node of 256 characters: its NUL is written after the buffer. -/
theorem prepare_faults : ¬Safe zeros ":80".toList ∧ ¬Safe zeros (List.replicate 256 'a') := by
  refine ⟨not_safe_of_portOnly (by simp [PortOnly]), ?_⟩
  have hcolon : ':' ∉ List.replicate 256 'a' := fun h => absurd (List.eq_of_mem_replicate h) (by decide)
  have hnul : nul ∉ List.replicate 256 'a' := fun h => absurd (List.eq_of_mem_replicate h) (by decide)
  have hparts : parts (List.replicate 256 'a') = some (List.replicate 256 'a', []) := by
    rw [parts_plain (by decide), service_of_not_mem hcolon]
    rfl
  exact not_safe_of_long hnul (not_portOnly (by decide)) hparts (by decide) (by rw [List.length_replicate])

/-- **The four syntaxes** give the node and the service that they were made of. -/
theorem prepare_forms (st : Statics) (hsvc : svc ≠ []) (hsvcLen : svc.length ≤ 63) (hsvcColon : ':' ∉ svc)
    (hsvcNul : nul ∉ svc) (hnode : node ≠ []) (hnodeLen : node.length ≤ 255) (hnodeNul : nul ∉ node) :
    (']' ∉ node → Gives st ('[' :: (node ++ ']' :: ':' :: svc)) node svc ∧ Gives st ('[' :: (node ++ [']'])) node []) ∧
      (':' ∉ node → node.head? ≠ some '[' → Gives st (node ++ ':' :: svc) node svc ∧ Gives st node node []) := by
  have hchars : nul ≠ '[' ∧ nul ≠ ']' ∧ nul ≠ ':' := by decide
  refine ⟨fun hb => ⟨?_, ?_⟩, fun hcolon hb => ?_⟩
  · have hparts : parts ('[' :: (node ++ ']' :: ':' :: svc)) = some (node, svc) := by
      rw [parts_enveloped hnode hb, ← List.nil_append (':' :: svc), service_append (by simp) hsvcColon hsvc]
      rfl
    exact prepare_fits st (by simp [hchars, hnodeNul, hsvcNul]) (not_portOnly (by decide)) hparts (by omega) (by omega)
  · have hparts : parts ('[' :: (node ++ [']'])) = some (node, []) := parts_enveloped hnode hb
    exact prepare_fits st (by simp [hchars, hnodeNul]) (not_portOnly (by decide)) hparts (by decide) (by omega)
  · obtain ⟨a, l, rfl⟩ := List.exists_cons_of_ne_nil hnode
    have ha : a ≠ ':' := fun heq => hcolon (heq ▸ List.mem_cons_self)
    have hlast : (a :: l).getLast? ≠ some ':' := fun h => hcolon (List.mem_of_getLast? h)
    constructor
    · have hparts : parts (a :: l ++ ':' :: svc) = some (a :: l, svc) := by
        rw [parts_plain (s := a :: l ++ ':' :: svc) hb, service_append hlast hsvcColon hsvc]
        rfl
      have hnul : nul ∉ a :: l ++ ':' :: svc := by
        rw [List.mem_append, List.mem_cons (a := nul) (b := ':')]
        exact not_or.2 ⟨hnodeNul, not_or.2 ⟨hchars.2.2, hsvcNul⟩⟩
      exact prepare_fits st hnul (not_portOnly ha) hparts (by omega) (by omega)
    · have hparts : parts (a :: l) = some (a :: l, []) := by
        rw [parts_plain hb, service_of_not_mem hcolon]
        rfl
      exact prepare_fits st hnodeNul (not_portOnly ha) hparts (by decide) (by omega)

/-- An IPv6 address in brackets. -/
theorem prepare_forms_ipv6 : Gives zeros "[fe80::1]:80".toList "fe80::1".toList "80".toList ∧
    Gives zeros "[fe80::1]".toList "fe80::1".toList [] :=
  have hsvc : "80".toList ≠ [] := by decide
  have hnode : "fe80::1".toList ≠ [] := by decide
  (prepare_forms zeros hsvc (by decide) (by decide) (by decide) hnode (by decide) (by decide)).1 (by decide)

end Whole

end Librd.Addr
