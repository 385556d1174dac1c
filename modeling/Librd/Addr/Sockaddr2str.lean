import Librd.Addr.Prepare

/-!
# Addresses as strings (`rd_sockaddr2str` of `rdaddr.c`)

`rd_sockaddr2str` prints an address to one of 32 buffers of the thread, which it takes in turn: the family, the host and
the port, with brackets around an IPv6 address if a port follows. What `getnameinfo` answers is a parameter: an error,
or the texts that it writes to the buffers that it is given. Reading a string without an end, a missing name of a
family, and writing outside of a buffer are faults.

* `sockaddr2str_text`: what is printed is `sockaddrText`, cut to the size of a buffer, and the other buffers stay;
* `sockaddr2strs_last`: after any number of calls the last 32 strings are those that were returned;
* `sockaddr2str_prepare`: `rd_addrinfo_prepare` takes the string apart into the host and the port that it was made of.
-/

namespace Librd.Addr

/-! ## Families -/

/-- `AF_INET`. -/
def afInet : Nat := 2

/-- `AF_INET6`. -/
def afInet6 : Nat := 10

/-- The names of the first 32 families; the other entries are `NULL`. -/
def familyNames : Nat → Option CStr
  | 1 => some "local".toList
  | 2 => some "inet".toList
  | 10 => some "inet6".toList
  | 16 => some "netlink".toList
  | 17 => some "packet".toList
  | 31 => some "bluetooth".toList
  | _ => none

/-- `rd_family2str`. -/
def family2str (af : Nat) : Option CStr :=
  if af ≥ 32 then some (("af-".toList ++ Nat.toDigits 10 af).take 15) else familyNames af

/-- `sinx_family`. -/
def sinxFamily (sinx : List UInt8) : Except Fault Nat :=
  match sinx with
  | lo :: hi :: _ => .ok (lo.toNat + 256 * hi.toNat)
  | _ => .error .read

/-- `RD_SOCKADDR_INX_LEN`. -/
def sinxLen (family : Nat) : Nat :=
  if family = afInet then 16 else if family = afInet6 then 28 else 28

/-! ## `rd_sockaddr2str` -/

/-- `RD_SOCKADDR2STR_F_PORT`. -/
def fPort : BitVec 32 := 0x1

/-- `RD_SOCKADDR2STR_F_RESOLVE`. -/
def fResolve : BitVec 32 := 0x2

/-- `RD_SOCKADDR2STR_F_FAMILY`. -/
def fFamily : BitVec 32 := 0x4

/-- `BIT_TEST`. -/
def bitTest (f b : BitVec 32) : Bool := f &&& b ≠ 0

/-- `NI_NUMERICHOST`. -/
def niNumerichost : BitVec 32 := 0x1

/-- `NI_NUMERICSERV`. -/
def niNumericserv : BitVec 32 := 0x2

/-- `INET6_ADDRSTRLEN + 16`. -/
def retSize : Nat := 62

/-- `ret` and `reti`. -/
structure Ring where
  ret : Fin 32 → List.Vector Char retSize
  reti : Fin 32

/-- `strlen` of the string in a buffer. -/
def strlen {n : Nat} (buf : List.Vector Char n) : Except Fault Nat :=
  if nul ∈ buf.1 then .ok (text buf).length else .error .read

/-- `rd_snprintf_cat` of a format that gives `t`. -/
def snprintfCat {n : Nat} (buf : List.Vector Char n) (t : CStr) : Except Fault (List.Vector Char n) := do
  let len ← strlen buf
  if len ≥ n then return buf
  store buf len (t.take (n - len - 1) ++ [nul])

/-- The arguments of `getnameinfo`: the address with its length, the sizes of `host` and `serv`, and the flags; on
success the two texts that it writes. -/
abbrev Getnameinfo := List UInt8 → Nat → Nat → Nat → BitVec 32 → Except Int (CStr × CStr)

/-- `sprintf(.., "ipv%i#", ..)`; also `of` after it. -/
def putFamily (flags : BitVec 32) (family : Nat) (buf : List.Vector Char retSize) :
    Except Fault (List.Vector Char retSize × Nat) :=
  if bitTest flags fFamily then do
    let t := if family = afInet then "ipv4#".toList else "ipv6#".toList
    return (← store buf 0 (t ++ [nul]), t.length)
  else return (buf, 0)

/-- The opening bracket. -/
def putBracket (flags : BitVec 32) (family : Nat) (buf : List.Vector Char retSize) (pos : Nat) :
    Except Fault (List.Vector Char retSize × Nat) :=
  if bitTest flags fPort ∧ family = afInet6 then do return (← store buf pos ['['], pos + 1) else return (buf, pos)

/-- The port, which `getnameinfo` wrote to `portstr`. -/
def putPort (flags : BitVec 32) (family : Nat) (port : CStr) (buf : List.Vector Char retSize) :
    Except Fault (List.Vector Char retSize) :=
  if bitTest flags fPort then do
    let portstr ← store (List.Vector.replicate 64 nul) 0 (port ++ [nul])
    snprintfCat buf ((if family = afInet6 then "]".toList else []) ++ ':' :: text portstr)
  else return buf

/-- `niflags`. -/
def niflags (flags : BitVec 32) : BitVec 32 :=
  if bitTest flags fResolve then niNumericserv else niNumericserv ||| niNumerichost

/-- The case of `AF_INET` and `AF_INET6`; also whether `getnameinfo` has an answer. -/
def putInet (getnameinfo : Getnameinfo) (sinx : List UInt8) (family : Nat) (flags : BitVec 32)
    (buf : List.Vector Char retSize) : Except Fault (List.Vector Char retSize × Bool) := do
  let (buf, pos) ← putFamily flags family buf
  let (buf, pos) ← putBracket flags family buf pos
  match getnameinfo sinx (sinxLen family) (retSize - pos) (if bitTest flags fPort then 64 else 0) (niflags flags) with
  | .error _ => return (buf, false)
  | .ok (host, port) => do
    let buf ← store buf pos (host ++ [nul])
    return (← putPort flags family port buf, true)

/-- The error case. -/
def putUnsupported (family : Nat) (buf : List.Vector Char retSize) : Except Fault (List.Vector Char retSize) :=
  match family2str family with
  | none => .error .read
  | some name => store buf 0 (("<unsupported:".toList ++ name ++ ">".toList).take (retSize - 1) ++ [nul])

/-- What is printed to the buffer. -/
def putSockaddr (getnameinfo : Getnameinfo) (sinx : List UInt8) (family : Nat) (flags : BitVec 32)
    (buf : List.Vector Char retSize) : Except Fault (List.Vector Char retSize) :=
  if family = afInet ∨ family = afInet6 then do
    match ← putInet getnameinfo sinx family flags buf with
    | (buf, true) => return buf
    | (buf, false) => putUnsupported family buf
  else putUnsupported family buf

/-- `rd_sockaddr2str`: it returns a pointer to the buffer with the new index. -/
def sockaddr2str (getnameinfo : Getnameinfo) (ring : Ring) (sinx : List UInt8) (flags : BitVec 32) :
    Except Fault Ring := do
  let reti := ring.reti + 1
  let family ← sinxFamily sinx
  let buf ← putSockaddr getnameinfo sinx family flags (ring.ret reti)
  return { ret := Function.update ring.ret reti buf, reti := reti }

/-! ## What is printed -/

/-- The family, if it is wanted. -/
def familyText (flags : BitVec 32) (family : Nat) : CStr :=
  if bitTest flags fFamily then (if family = afInet then "ipv4#".toList else "ipv6#".toList) else []

/-- The bracket before an IPv6 address with a port. -/
def bracketText (flags : BitVec 32) (family : Nat) : CStr :=
  if bitTest flags fPort ∧ family = afInet6 then ['['] else []

/-- The port, if it is wanted. -/
def portText (flags : BitVec 32) (family : Nat) (port : CStr) : CStr :=
  if bitTest flags fPort then (if family = afInet6 then "]".toList else []) ++ ':' :: port else []

/-- The text for a host and a port. -/
def inetText (flags : BitVec 32) (family : Nat) (host port : CStr) : CStr :=
  familyText flags family ++ bracketText flags family ++ host ++ portText flags family port

/-- What `getnameinfo` answers. -/
def nameinfo (getnameinfo : Getnameinfo) (sinx : List UInt8) (family : Nat) (flags : BitVec 32) :
    Except Int (CStr × CStr) :=
  getnameinfo sinx (sinxLen family) (retSize - (familyText flags family ++ bracketText flags family).length)
    (if bitTest flags fPort then 64 else 0) (niflags flags)

/-- The text for a family that is not supported, or an address that `getnameinfo` does not print. -/
def unsupportedText (family : Nat) : Option CStr :=
  (family2str family).map fun name => ("<unsupported:".toList ++ name ++ ">".toList).take (retSize - 1)

/-- What is printed, cut to the size of a buffer. -/
def sockaddrText (getnameinfo : Getnameinfo) (sinx : List UInt8) (family : Nat) (flags : BitVec 32) : Option CStr :=
  if family = afInet ∨ family = afInet6 then
    match nameinfo getnameinfo sinx family flags with
    | .error _ => unsupportedText family
    | .ok (host, port) => some ((inetText flags family host port).take (retSize - 1))
  else unsupportedText family

/-- What `getnameinfo` promises: texts that fit in the buffers that it was given. -/
def Getnameinfo.Fits (getnameinfo : Getnameinfo) : Prop :=
  ∀ sinx salen hostlen servlen flags host port, getnameinfo sinx salen hostlen servlen flags = .ok (host, port) →
    host.length < hostlen ∧ nul ∉ host ∧ (servlen ≠ 0 → port.length < servlen ∧ nul ∉ port)

section Print

variable {n : Nat} {buf : List.Vector Char n} {cs : CStr}

/-- Characters that are stored after others. -/
theorem starts_store (h : Starts buf cs) (more : CStr) (hlen : cs.length + more.length ≤ n) :
    ∃ buf', store buf cs.length more = .ok buf' ∧ Starts buf' (cs ++ more) := by
  obtain ⟨buf', hstore, hstarts⟩ := exists_store buf more cs.length hlen
  obtain ⟨rest, hrest⟩ := h
  rw [← hrest, List.take_left] at hstarts
  exact ⟨buf', hstore, hstarts⟩

theorem starts_nil (buf : List.Vector Char n) : Starts buf [] := List.nil_prefix

theorem Starts.left {more : CStr} (h : Starts buf (cs ++ more)) : Starts buf cs := (List.prefix_append cs more).trans h

theorem strlen_of_starts (h : Starts buf (cs ++ [nul])) (hnul : nul ∉ cs) : strlen buf = .ok cs.length := by
  have hmem : nul ∈ buf.1 := h.subset (List.mem_append_right _ (List.mem_singleton_self _))
  rw [strlen, if_pos hmem, text_of_starts h hnul]

/-- **`rd_snprintf_cat`** appends what fits. -/
theorem snprintfCat_ok (h : Starts buf (cs ++ [nul])) (hnul : nul ∉ cs) {t : CStr} (ht : nul ∉ t) :
    ∃ buf', snprintfCat buf t = .ok buf' ∧ Starts buf' ((cs ++ t).take (n - 1) ++ [nul]) ∧
      text buf' = (cs ++ t).take (n - 1) := by
  have hlen : cs.length + 1 ≤ n := by
    have hle := h.length_le
    rw [List.length_append, List.length_singleton] at hle
    exact hle.trans_eq buf.2
  have htake : (cs ++ t).take (n - 1) = cs ++ t.take (n - cs.length - 1) := by
    rw [List.take_append, List.take_of_length_le (by omega), Nat.sub_right_comm]
  obtain ⟨buf', hstore, hstarts⟩ := starts_store h.left (t.take (n - cs.length - 1) ++ [nul]) (by
    rw [List.length_append, List.length_take, List.length_singleton]
    omega)
  rw [← List.append_assoc, ← htake] at hstarts
  refine ⟨buf', ?_, hstarts, text_of_starts hstarts fun hm => ?_⟩
  · have hnot : ¬cs.length ≥ n := by omega
    simp only [snprintfCat, strlen_of_starts h hnul, bind, Except.bind, if_neg hnot, hstore]
  · exact (List.mem_append.1 (List.mem_of_mem_take hm)).elim hnul ht

end Print

section Inet

variable {getnameinfo : Getnameinfo} {sinx : List UInt8} {flags : BitVec 32} {family : Nat}
  {buf : List.Vector Char retSize}

theorem nul_not_mem_familyText : nul ∉ familyText flags family := by
  rw [familyText]
  split
  · split
    · decide
    · decide
  · exact List.not_mem_nil

theorem nul_not_mem_bracketText : nul ∉ bracketText flags family := by
  rw [bracketText]
  split
  · decide
  · exact List.not_mem_nil

theorem nul_not_mem_portText (family : Nat) {port : CStr} (h : bitTest flags fPort → nul ∉ port) :
    nul ∉ portText flags family port := by
  rw [portText]
  split
  · have hport := h ‹_›
    have hchars : nul ≠ ':' ∧ nul ≠ ']' := by decide
    split
    · simp [hport, hchars]
    · simp [hport, hchars]
  · exact List.not_mem_nil

theorem length_familyText_le (flags : BitVec 32) (family : Nat) : (familyText flags family).length ≤ 5 := by
  rw [familyText]
  split
  · split
    · decide
    · decide
  · decide

theorem putFamily_ok (flags : BitVec 32) (family : Nat) (buf : List.Vector Char retSize) : ∃ buf',
    putFamily flags family buf = .ok (buf', (familyText flags family).length) ∧
    Starts buf' (familyText flags family) := by
  have hlen := length_familyText_le flags family
  rw [putFamily]
  rw [familyText] at hlen ⊢
  split
  · rw [if_pos ‹_›] at hlen
    obtain ⟨buf', hstore, hstarts⟩ := starts_store (starts_nil buf)
      ((if family = afInet then "ipv4#".toList else "ipv6#".toList) ++ [nul]) (by
        rw [List.length_append, List.length_singleton, List.length_nil, retSize]
        omega)
    rw [List.nil_append] at hstarts
    refine ⟨buf', ?_, hstarts.left⟩
    simp only [List.length_nil, Nat.cast_zero] at hstore
    simp only [hstore, bind, Except.bind, pure, Except.pure]
  · exact ⟨buf, rfl, starts_nil buf⟩

theorem putBracket_ok (h : Starts buf (familyText flags family)) : ∃ buf',
    putBracket flags family buf (familyText flags family).length =
      .ok (buf', (familyText flags family ++ bracketText flags family).length) ∧
    Starts buf' (familyText flags family ++ bracketText flags family) := by
  have hlen := length_familyText_le flags family
  rw [putBracket, bracketText]
  split
  · obtain ⟨buf', hstore, hstarts⟩ := starts_store h ['['] (by
      rw [List.length_singleton, retSize]
      omega)
    refine ⟨buf', ?_, hstarts⟩
    simp only [hstore, bind, Except.bind, pure, Except.pure, List.length_append, List.length_singleton]
  · rw [List.append_nil]
    exact ⟨buf, rfl, h⟩

/-- **The port** is appended, as far as it fits. -/
theorem putPort_ok (flags : BitVec 32) (family : Nat) {cs : CStr} (port : CStr) (h : Starts buf (cs ++ [nul]))
    (hnul : nul ∉ cs)
    (hport : bitTest flags fPort → port.length < 64 ∧ nul ∉ port) : ∃ buf', putPort flags family port buf = .ok buf' ∧
      text buf' = (cs ++ portText flags family port).take (retSize - 1) := by
  have hnulPort := nul_not_mem_portText family fun hp => (hport hp).2
  rw [putPort]
  rw [portText] at hnulPort ⊢
  split
  · rw [if_pos ‹_›] at hnulPort
    obtain ⟨hlen, hnot⟩ := hport ‹_›
    obtain ⟨portstr, hstore, hstarts⟩ := starts_store (starts_nil (List.Vector.replicate 64 nul)) (port ++ [nul]) (by
      rw [List.length_append, List.length_singleton, List.length_nil]
      omega)
    have htext : text portstr = port := text_of_starts hstarts hnot
    obtain ⟨buf', hcat, -, htext'⟩ := snprintfCat_ok h hnul hnulPort
    refine ⟨buf', ?_, htext'⟩
    simp only [List.length_nil, Nat.cast_zero] at hstore
    simp only [hstore, bind, Except.bind, htext, hcat]
  · have hlen := h.length_le
    rw [List.length_append, List.length_singleton, buf.2] at hlen
    rw [List.append_nil, List.take_of_length_le (by omega)]
    exact ⟨buf, rfl, text_of_starts h hnul⟩

/-- **An address that `getnameinfo` prints.** -/
theorem putInet_ok (hfits : getnameinfo.Fits) (buf : List.Vector Char retSize) {host port : CStr}
    (hinfo : nameinfo getnameinfo sinx family flags = .ok (host, port)) : ∃ buf',
      putInet getnameinfo sinx family flags buf = .ok (buf', true) ∧
      text buf' = (inetText flags family host port).take (retSize - 1) := by
  obtain ⟨hhost, hnulHost, hport⟩ := hfits _ _ _ _ _ _ _ hinfo
  obtain ⟨buf₁, hfamily, hstarts₁⟩ := putFamily_ok flags family buf
  obtain ⟨buf₂, hbracket, hstarts₂⟩ := putBracket_ok hstarts₁
  obtain ⟨buf₃, hstore, hstarts₃⟩ := starts_store hstarts₂ (host ++ [nul]) (by
    simp only [List.length_append, List.length_singleton] at hhost ⊢
    omega)
  rw [← List.append_assoc] at hstarts₃
  have hnul : nul ∉ familyText flags family ++ bracketText flags family ++ host := fun hm =>
    (List.mem_append.1 hm).elim (fun hm => (List.mem_append.1 hm).elim nul_not_mem_familyText nul_not_mem_bracketText)
      hnulHost
  obtain ⟨buf₄, hputPort, htext⟩ := putPort_ok flags family port hstarts₃ hnul
    fun hp => by
      rw [if_pos hp] at hport
      exact hport (by decide)
  refine ⟨buf₄, ?_, htext⟩
  rw [nameinfo] at hinfo
  simp only [putInet, hfamily, hbracket, hinfo, hstore, hputPort, bind, Except.bind, pure, Except.pure]

theorem putInet_error (buf : List.Vector Char retSize) {err : Int}
    (hinfo : nameinfo getnameinfo sinx family flags = .error err) : ∃ buf',
      putInet getnameinfo sinx family flags buf = .ok (buf', false) := by
  obtain ⟨buf₁, hfamily, hstarts₁⟩ := putFamily_ok flags family buf
  obtain ⟨buf₂, hbracket, -⟩ := putBracket_ok hstarts₁
  rw [nameinfo] at hinfo
  exact ⟨buf₂, by simp only [putInet, hfamily, hbracket, hinfo, bind, Except.bind, pure, Except.pure]⟩

/-- **The error case.** -/
theorem putUnsupported_ok (buf : List.Vector Char retSize) {t : CStr} (ht : unsupportedText family = some t)
    (hnul : nul ∉ t) : ∃ buf', putUnsupported family buf = .ok buf' ∧ text buf' = t := by
  obtain ⟨name, hname, rfl⟩ := Option.map_eq_some_iff.1 ht
  obtain ⟨buf', hstore, hstarts⟩ := starts_store (starts_nil buf)
    (("<unsupported:".toList ++ name ++ ">".toList).take (retSize - 1) ++ [nul]) (by
      rw [List.length_append, List.length_take, List.length_singleton, List.length_nil, retSize]
      omega)
  simp only [List.length_nil, Nat.cast_zero] at hstore
  exact ⟨buf', by simp only [putUnsupported, hname, hstore], text_of_starts hstarts hnul⟩

theorem nul_not_mem_toDigits (k : Nat) : nul ∉ Nat.toDigits 10 k := fun hm =>
  absurd (Nat.isDigit_of_mem_toDigits (by decide) (by decide) hm) (by decide)

theorem nul_not_mem_family2str {name : CStr} (hname : family2str family = some name) : nul ∉ name := by
  unfold family2str at hname
  split at hname
  · cases hname
    intro hm
    exact (List.mem_append.1 (List.mem_of_mem_take hm)).elim (by decide) (nul_not_mem_toDigits family)
  · unfold familyNames at hname
    split at hname
    all_goals cases hname
    all_goals decide

theorem nul_not_mem_unsupportedText {t : CStr} (ht : unsupportedText family = some t) : nul ∉ t := by
  obtain ⟨name, hname, rfl⟩ := Option.map_eq_some_iff.1 ht
  intro hm
  rcases List.mem_append.1 (List.mem_of_mem_take hm) with hm | hm
  · exact (List.mem_append.1 hm).elim (by decide) (nul_not_mem_family2str hname)
  · exact absurd hm (by decide)

/-- **What is printed** to a buffer. -/
theorem putSockaddr_ok (hfits : getnameinfo.Fits) (buf : List.Vector Char retSize) {t : CStr}
    (ht : sockaddrText getnameinfo sinx family flags = some t) : ∃ buf',
      putSockaddr getnameinfo sinx family flags buf = .ok buf' ∧ text buf' = t := by
  rw [sockaddrText] at ht
  rw [putSockaddr]
  split
  · rw [if_pos ‹_›] at ht
    cases hinfo : nameinfo getnameinfo sinx family flags with
    | ok p =>
      obtain ⟨host, port⟩ := p
      rw [hinfo] at ht
      cases ht
      obtain ⟨buf', hput, htext⟩ := putInet_ok hfits buf hinfo
      exact ⟨buf', by simp only [hput, bind, Except.bind, pure, Except.pure], htext⟩
    | error err =>
      rw [hinfo] at ht
      obtain ⟨buf₁, hput⟩ := putInet_error buf hinfo
      obtain ⟨buf', hunsupported, htext⟩ := putUnsupported_ok buf₁ ht (nul_not_mem_unsupportedText ht)
      exact ⟨buf', by simp only [hput, bind, Except.bind, hunsupported], htext⟩
  · rw [if_neg ‹_›] at ht
    exact putUnsupported_ok buf ht (nul_not_mem_unsupportedText ht)

/-- **`rd_sockaddr2str`** prints the text to the next buffer, and leaves the others as they are. -/
theorem sockaddr2str_text (hfits : getnameinfo.Fits) (ring : Ring) {t : CStr} (hfamily : sinxFamily sinx = .ok family)
    (ht : sockaddrText getnameinfo sinx family flags = some t) : ∃ ring',
      sockaddr2str getnameinfo ring sinx flags = .ok ring' ∧ ring'.reti = ring.reti + 1 ∧
      text (ring'.ret ring'.reti) = t ∧ ∀ p ≠ ring'.reti, ring'.ret p = ring.ret p := by
  obtain ⟨buf, hput, htext⟩ := putSockaddr_ok hfits (ring.ret (ring.reti + 1)) ht
  refine ⟨{ ret := Function.update ring.ret (ring.reti + 1) buf, reti := ring.reti + 1 }, ?_, rfl, ?_, fun p hp => ?_⟩
  · simp only [sockaddr2str, hfamily, hput, bind, Except.bind, pure, Except.pure]
  · simpa using htext
  · exact Function.update_of_ne hp ..

end Inet

/-! ## Calls one after another -/

/-- A call of `rd_sockaddr2str`, and what `getnameinfo` answers in it. -/
structure Call where
  getnameinfo : Getnameinfo
  sinx : List UInt8
  flags : BitVec 32

/-- Calls of `rd_sockaddr2str`, and the buffers that they return pointers to. -/
def sockaddr2strs : Ring → List Call → Except Fault (Ring × List (Fin 32))
  | ring, [] => .ok (ring, [])
  | ring, call :: calls => do
    let ring ← sockaddr2str call.getnameinfo ring call.sinx call.flags
    let (ring', ptrs) ← sockaddr2strs ring calls
    return (ring', ring.reti :: ptrs)

/-- A call prints a text. -/
def Prints (call : Call) (t : CStr) : Prop :=
  ∃ family, sinxFamily call.sinx = .ok family ∧ sockaddrText call.getnameinfo call.sinx family call.flags = some t

/-- The next calls take the next buffers. -/
theorem sockaddr2strs_frame : ∀ {calls : List Call} {texts : List CStr} (ring : Ring),
    (∀ call ∈ calls, call.getnameinfo.Fits) → List.Forall₂ Prints calls texts → ∃ ring' ptrs,
      sockaddr2strs ring calls = .ok (ring', ptrs) ∧ ptrs.length = texts.length ∧
      ∀ p : Fin 32, (∀ k, 1 ≤ k → k ≤ calls.length → p.val ≠ (ring.reti.val + k) % 32) → ring'.ret p = ring.ret p
  | [], _, ring, _, .nil => ⟨ring, [], rfl, rfl, fun _ _ => rfl⟩
  | call :: calls, t :: texts, ring, hfits, .cons ⟨family, hfamily, ht⟩ hrest => by
    obtain ⟨hfit, hfits⟩ := List.forall_mem_cons.1 hfits
    obtain ⟨ring₁, hcall, hreti, -, hsame⟩ := sockaddr2str_text hfit ring hfamily ht
    obtain ⟨ring', ptrs, hcalls, hlen, hframe⟩ := sockaddr2strs_frame ring₁ hfits hrest
    have hval : ring₁.reti.val = (ring.reti.val + 1) % 32 := by rw [hreti, Fin.val_add]; rfl
    refine ⟨ring', ring₁.reti :: ptrs, ?_, ?_, fun p hp => ?_⟩
    · simp only [sockaddr2strs, hcall, hcalls, bind, Except.bind, pure, Except.pure]
    · rw [List.length_cons, List.length_cons, hlen]
    · rw [hframe p fun k hk hle => ?_, hsame p fun heq => ?_]
      · exact hp 1 le_rfl (by rw [List.length_cons]; omega) (heq ▸ hval)
      · rw [hval, Nat.mod_add_mod, Nat.add_assoc, Nat.add_comm 1]
        exact hp (k + 1) (by omega) (by rw [List.length_cons]; omega)

/-- **The last 32 strings**: after any number of calls each of them is what was returned, whatever `getnameinfo` answers
in each call. -/
theorem sockaddr2strs_last : ∀ {calls : List Call} {texts : List CStr} (ring : Ring),
    (∀ call ∈ calls, call.getnameinfo.Fits) → List.Forall₂ Prints calls texts → ∃ ring' ptrs,
      sockaddr2strs ring calls = .ok (ring', ptrs) ∧ ptrs.length = texts.length ∧
      ∀ (k : Nat) (p : Fin 32) (t : CStr), calls.length ≤ k + 32 → ptrs[k]? = some p → texts[k]? = some t →
        text (ring'.ret p) = t
  | [], _, ring, _, .nil => ⟨ring, [], rfl, rfl, fun _ _ _ _ hp => (by cases hp)⟩
  | call :: calls, t :: texts, ring, hfits, .cons ⟨family, hfamily, ht⟩ hrest => by
    obtain ⟨hfit, hfits⟩ := List.forall_mem_cons.1 hfits
    obtain ⟨ring₁, hcall, hreti, htext, hsame⟩ := sockaddr2str_text hfit ring hfamily ht
    obtain ⟨ring', ptrs, hcalls, hlen, hlast⟩ := sockaddr2strs_last ring₁ hfits hrest
    obtain ⟨ring₂, ptrs₂, hcalls₂, -, hframe⟩ := sockaddr2strs_frame ring₁ hfits hrest
    obtain ⟨rfl, -⟩ := Prod.mk.inj (Except.ok.inj (hcalls₂.symm.trans hcalls))
    refine ⟨ring₂, ring₁.reti :: ptrs, ?_, ?_, fun k p t' hk hp ht' => ?_⟩
    · simp only [sockaddr2strs, hcall, hcalls, bind, Except.bind, pure, Except.pure]
    · rw [List.length_cons, List.length_cons, hlen]
    · rw [List.length_cons] at hk
      cases k with
      | zero =>
        cases hp
        cases ht'
        rw [hframe ring₁.reti fun k hk₁ hle => ?_]
        · exact htext
        · have hlt := ring₁.reti.isLt
          omega
      | succ k => exact hlast k p t' (by omega) hp ht'

/-- `::1`, port 80. -/
def loopback : List UInt8 := [10, 0, 0, 80] ++ List.replicate 19 0 ++ [1, 0, 0, 0, 0]

/-- A `getnameinfo` for that address. -/
def loopbackInfo : Getnameinfo := fun _ _ hostlen servlen _ =>
  if 3 < hostlen ∧ (servlen = 0 ∨ 2 < servlen) then .ok ("::1".toList, "80".toList) else .error (-12)

theorem loopbackInfo_fits : loopbackInfo.Fits := by
  intro sinx salen hostlen servlen flags host port h
  rw [loopbackInfo] at h
  split at h
  · obtain ⟨hhost, hserv⟩ := ‹_ ∧ _›
    cases h
    exact ⟨hhost, by decide, fun hne => ⟨hserv.resolve_left hne, by decide⟩⟩
  · cases h

/-- A ring that was not used yet. -/
def zeroRing : Ring := { ret := fun _ => List.Vector.replicate retSize nul, reti := 0 }

/-- A `getnameinfo` without an answer. -/
def noInfo : Getnameinfo := fun _ _ _ _ _ => .error (-3)

theorem noInfo_fits : noInfo.Fits := by
  intro sinx salen hostlen servlen flags host port h
  cases h

/-- An address with its port, and without it where `getnameinfo` has no answer any more. -/
theorem sockaddr2strs_last_two : ∃ ring' ptrs,
    sockaddr2strs zeroRing [⟨loopbackInfo, loopback, fPort⟩, ⟨noInfo, loopback, 0⟩] = .ok (ring', ptrs) ∧
    ptrs.length = 2 ∧
    ∀ (k : Nat) (p : Fin 32) (t : CStr), 2 ≤ k + 32 → ptrs[k]? = some p →
      ["[::1]:80".toList, "<unsupported:inet6>".toList][k]? = some t → text (ring'.ret p) = t :=
  sockaddr2strs_last zeroRing
    (List.forall_mem_cons.2 ⟨loopbackInfo_fits, List.forall_mem_singleton.2 noInfo_fits⟩)
    (.cons ⟨10, by decide, by decide⟩ (.cons ⟨10, by decide, by decide⟩ .nil))

/-! ## Reading back -/

section RoundTrip

variable {getnameinfo : Getnameinfo} {sinx : List UInt8} {flags : BitVec 32} {family : Nat} {host port : CStr}

/-- The parts of what is printed for an IPv4 address. -/
theorem parts_inet (hhost : host ≠ []) (hcolon : ':' ∉ host) (hopen : host.head? ≠ some '[')
    (hflag : bitTest flags fFamily = false) (hport : bitTest flags fPort → port ≠ [] ∧ ':' ∉ port) :
    ¬PortOnly (inetText flags afInet host port) ∧ parts (inetText flags afInet host port) =
      some (host, if bitTest flags fPort then port else []) := by
  obtain ⟨a, l, rfl⟩ := List.exists_cons_of_ne_nil hhost
  have ha : a ≠ ':' := fun heq => hcolon (heq ▸ List.mem_cons_self)
  have hlast : (a :: l).getLast? ≠ some ':' := fun h => hcolon (List.mem_of_getLast? h)
  have htext : inetText flags afInet (a :: l) port = a :: l ++ if bitTest flags fPort then ':' :: port else [] := by
    simp [inetText, familyText, bracketText, portText, hflag, afInet, afInet6]
  rw [htext]
  refine ⟨not_portOnly ha, ?_⟩
  split
  · obtain ⟨hne, hnot⟩ := hport ‹_›
    rw [parts_plain (s := a :: l ++ ':' :: port) hopen, service_append hlast hnot hne]
    rfl
  · rw [List.append_nil, parts_plain hopen, service_of_not_mem hcolon]
    rfl

/-- The parts of what is printed for an IPv6 address with a port. -/
theorem parts_inet6 (hhost : host ≠ []) (hclose : ']' ∉ host) (hflag : bitTest flags fFamily = false)
    (hwith : bitTest flags fPort = true) (hne : port ≠ []) (hcolon : ':' ∉ port) :
    ¬PortOnly (inetText flags afInet6 host port) ∧ parts (inetText flags afInet6 host port) = some (host, port) := by
  have htext : inetText flags afInet6 host port = '[' :: (host ++ ']' :: ':' :: port) := by
    simp [inetText, familyText, bracketText, portText, hflag, hwith, afInet6]
  rw [htext]
  refine ⟨not_portOnly (by decide), ?_⟩
  rw [parts_enveloped hhost hclose, ← List.nil_append (':' :: port), service_append (by simp) hcolon hne]
  rfl

/-- The host and the port of an address can be read back from its text: without a colon in an IPv4 host, and with a port
behind an IPv6 host. -/
def Readable (flags : BitVec 32) (family : Nat) (host port : CStr) : Prop :=
  host ≠ [] ∧ (bitTest flags fPort → port ≠ [] ∧ ':' ∉ port) ∧
    (family = afInet ∧ ':' ∉ host ∧ host.head? ≠ some '[' ∨
      family = afInet6 ∧ ']' ∉ host ∧ bitTest flags fPort = true)

/-- **Round trip**: `rd_addrinfo_prepare` takes what `rd_sockaddr2str` prints apart into the host and the port that
`getnameinfo` gave, where the text fits in a buffer and the family is not printed. -/
theorem sockaddr2str_prepare (hfits : getnameinfo.Fits) (ring : Ring) (st : Statics)
    (hfamily : sinxFamily sinx = .ok family) (hinfo : nameinfo getnameinfo sinx family flags = .ok (host, port))
    (hflag : bitTest flags fFamily = false) (hread : Readable flags family host port)
    (hlen : (inetText flags family host port).length < retSize) : ∃ ring',
      sockaddr2str getnameinfo ring sinx flags = .ok ring' ∧
      Gives st (text (ring'.ret ring'.reti)) host (if bitTest flags fPort then port else []) := by
  obtain ⟨hhost, hport, hform⟩ := hread
  have hinet : family = afInet ∨ family = afInet6 := hform.imp And.left And.left
  have ht : sockaddrText getnameinfo sinx family flags = some (inetText flags family host port) := by
    rw [sockaddrText, if_pos hinet, hinfo]
    exact congrArg some (List.take_of_length_le (Nat.le_sub_one_of_lt hlen))
  obtain ⟨ring', hcall, -, htext, -⟩ := sockaddr2str_text hfits ring hfamily ht
  obtain ⟨-, hnulHost, hfitsPort⟩ := hfits _ _ _ _ _ _ _ hinfo
  have hparts : ¬PortOnly (inetText flags family host port) ∧ parts (inetText flags family host port) =
      some (host, if bitTest flags fPort then port else []) := by
    rcases hform with ⟨rfl, hcolon, hopen⟩ | ⟨rfl, hclose, hwith⟩
    · exact parts_inet hhost hcolon hopen hflag hport
    · rw [if_pos hwith]
      exact parts_inet6 hhost hclose hflag hwith (hport hwith).1 (hport hwith).2
  have hnulPort : bitTest flags fPort → port.length < 64 ∧ nul ∉ port := fun hp => by
    rw [if_pos hp] at hfitsPort
    exact hfitsPort (by decide)
  have hnul : nul ∉ inetText flags family host port := fun hm => by
    rcases List.mem_append.1 hm with hm | hm
    · rcases List.mem_append.1 hm with hm | hm
      · exact (List.mem_append.1 hm).elim nul_not_mem_familyText nul_not_mem_bracketText
      · exact hnulHost hm
    · exact nul_not_mem_portText family (fun hp => (hnulPort hp).2) hm
  refine ⟨ring', hcall, ?_⟩
  rw [htext]
  refine prepare_fits st hnul hparts.1 hparts.2 ?_ ?_
  · split
    · exact (hnulPort ‹_›).1
    · decide
  · have hle : host.length ≤ (inetText flags family host port).length := by
      simp only [inetText, List.length_append]
      omega
    rw [retSize] at hlen
    omega

/-- `[::1]:80`. -/
theorem sockaddr2str_prepare_loopback : ∃ ring', sockaddr2str loopbackInfo zeroRing loopback fPort = .ok ring' ∧
    Gives zeros (text (ring'.ret ring'.reti)) "::1".toList "80".toList :=
  have hfamily : sinxFamily loopback = .ok afInet6 := by decide
  have hinfo : nameinfo loopbackInfo loopback afInet6 fPort = .ok ("::1".toList, "80".toList) := by decide
  have hread : Readable fPort afInet6 "::1".toList "80".toList :=
    ⟨by decide, fun _ => by decide, .inr ⟨rfl, by decide, by decide⟩⟩
  sockaddr2str_prepare loopbackInfo_fits zeroRing zeros hfamily hinfo (by decide) hread (by decide)

end RoundTrip

end Librd.Addr
