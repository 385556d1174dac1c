import Mathlib.Data.List.Rotate
import Librd.Addr.Prepare
import Librd.Rand.Shuffle

/-!
# Lists of addresses (`rd_getaddrinfo` of `rdaddr.c`)

`rd_getaddrinfo` takes a text apart, asks `getaddrinfo` for the addresses, copies them to a list and shuffles it.
`rd_sockaddr_list_next` goes around in the list. What `getaddrinfo`, `gai_strerror` and `rand` return are parameters.
Reading or writing outside of an array, an `int` that overflows and a division by zero are faults (`none`). All flags of
the caller are passed on as `ai_flags`, `RD_AI_NOSHUFFLE` as well, which the `getaddrinfo` of a C library may not know
and then refuses (`EAI_BADFLAGS`).

* `sockaddrListNexts_round`: as many calls as there are addresses go once around;
* `rdGetaddrinfo_rounds`: in each round every address that `getaddrinfo` found comes once, for any numbers from `rand`.
-/

namespace Librd.Addr

open Librd.Rand (entries intMax rdArrayShuffle)

/-- `sizeof(rd_sockaddr_inx_t)`. -/
def sinxSize : Nat := 28

/-- `RD_AI_NOSHUFFLE`. -/
def aiNoshuffle : BitVec 32 := 0x10000000

/-- `struct addrinfo`, as a hint. -/
structure Hints where
  flags : BitVec 32
  family : Int
  socktype : Int
  protocol : Int

/-- `errno`. -/
inductive Errno
  | einval
  | efault
  | enoent
  deriving DecidableEq, Repr

/-- `rd_sockaddr_list_t`. -/
structure SockaddrList where
  cnt : Int
  curr : Int
  addr : List UInt8

/-- The `memcpy` of each address to its place. -/
def copyAddrs : List (List UInt8) → Nat → List UInt8 → Option (List UInt8)
  | [], _, addr => some addr
  | ai :: ais, cnt, addr => do
    let addr ← Rand.store addr (cnt * sinxSize) ai
    copyAddrs ais (cnt + 1) addr

/-- The shuffle, unless it is not wanted. -/
def shuffleAddrs (rand : Nat → Nat) (flags : BitVec 32) (cnt : Nat) (addr : List UInt8) : Option (List UInt8) :=
  -- Shuffle address list for proper round-robin
  if flags &&& aiNoshuffle = 0 then rdArrayShuffle rand addr cnt sinxSize else some addr

/-- `rd_getaddrinfo`: the buffers of `rd_addrinfo_prepare`, and the list or else `*errstr` and `errno`. -/
def rdGetaddrinfo (getaddrinfo : CStr → Option CStr → Hints → Except Int (List (List UInt8)))
    (gaiStrerror : Int → String)
    (rand : Nat → Nat) (st : Statics) (nodesvc : CStr) (defsvc : Option CStr) (flags : BitVec 32)
    (family socktype protocol : Int) : Option (Statics × Except (String × Errno) SockaddrList) := do
  let (errstr, st) ← (addrinfoPrepare st nodesvc).toOption
  match errstr with
  | some errstr => return (st, .error (errstr, .einval))
  | none =>
    let svc := text st.ssvc
    let defsvc := if svc ≠ [] then some svc else defsvc
    match getaddrinfo (text st.snode) defsvc ⟨flags, family, socktype, protocol⟩ with
    | .error r => return (st, .error (gaiStrerror r, .efault))
    | .ok ais =>
      let cnt := ais.length
      if intMax < cnt then none
      else if cnt = 0 then return (st, .error ("No addresses", .enoent))
      else
        let addr ← copyAddrs ais 0 (List.replicate (cnt * sinxSize) 0)
        let addr ← shuffleAddrs rand flags cnt addr
        return (st, .ok { cnt := cnt, curr := 0, addr := addr })

/-- `rd_sockaddr_list_next`, and the address that it returns a pointer to. -/
def sockaddrListNext (rsal : SockaddrList) : Option (SockaddrList × List UInt8) := do
  if rsal.cnt = 0 then none
  else
    let curr := (rsal.curr + 1).tmod rsal.cnt
    let sinx ← Rand.load rsal.addr (Rand.offset curr sinxSize) sinxSize
    return ({ rsal with curr := curr }, sinx)

/-- Calls of `rd_sockaddr_list_next` one after another. -/
def sockaddrListNexts : Nat → SockaddrList → Option (SockaddrList × List (List UInt8))
  | 0, rsal => some (rsal, [])
  | k + 1, rsal => do
    let (rsal, sinx) ← sockaddrListNext rsal
    let (rsal, sinxs) ← sockaddrListNexts k rsal
    return (rsal, sinx :: sinxs)

/-! ## Going around -/

/-- The list has the addresses `l`. -/
structure Lists (rsal : SockaddrList) (l : List (List UInt8)) : Prop where
  cnt : rsal.cnt = l.length
  addr : entries rsal.addr l.length sinxSize = l
  length : rsal.addr.length = l.length * sinxSize
  size : rsal.addr.length < 18446744073709551616

section Next

variable {rsal : SockaddrList} {l : List (List UInt8)} {c : Nat}

theorem sockaddrListNext_ok (h : Lists rsal l) (hc : rsal.curr = c) (hlt : c < l.length) :
    ∃ sinx, l[(c + 1) % l.length]? = some sinx ∧
      sockaddrListNext rsal = some ({ rsal with curr := ((c + 1) % l.length : Nat) }, sinx) := by
  have hpos : 0 < l.length := Nat.zero_lt_of_lt hlt
  have hnext : (c + 1) % l.length < l.length := Nat.mod_lt _ hpos
  have hcurr : (rsal.curr + 1).tmod rsal.cnt = ((c + 1) % l.length : Nat) := by
    rw [hc, h.cnt, Int.tmod_eq_emod_of_nonneg (by omega), Int.natCast_mod, Int.natCast_succ]
  have hcnt : rsal.cnt ≠ 0 := by
    rw [h.cnt]
    omega
  have hget : (entries rsal.addr l.length sinxSize)[(c + 1) % l.length]? = _ := Rand.getElem?_entries hnext
  rw [h.addr] at hget
  refine ⟨_, hget, ?_⟩
  have hin := Rand.entry_inside h.length hnext
  simp only [sockaddrListNext, if_neg hcnt, hcurr, Rand.offset_entry h.length h.size hnext, Rand.load, if_pos hin]
  rfl

theorem sockaddrListNexts_ok (k : Nat) (h : Lists rsal l) (hc : rsal.curr = c) (hlt : c < l.length) :
    ∃ sinxs, sinxs.map some = (List.range k).map (fun j => l[(c + 1 + j) % l.length]?) ∧
      sockaddrListNexts k rsal = some ({ rsal with curr := ((c + k) % l.length : Nat) }, sinxs) := by
  induction k generalizing rsal c with
  | zero =>
    refine ⟨[], rfl, ?_⟩
    rw [sockaddrListNexts, Nat.add_zero, Nat.mod_eq_of_lt hlt, ← hc]
  | succ k ih =>
    obtain ⟨sinx, hget, hnext⟩ := sockaddrListNext_ok h hc hlt
    have hlists : Lists { rsal with curr := ((c + 1) % l.length : Nat) } l := ⟨h.cnt, h.addr, h.length, h.size⟩
    obtain ⟨sinxs, hmap, hrest⟩ := ih hlists rfl (Nat.mod_lt _ (Nat.zero_lt_of_lt hlt))
    refine ⟨sinx :: sinxs, ?_, ?_⟩
    · rw [List.map_cons, hmap, List.range_succ_eq_map, List.map_cons, List.map_map, Nat.add_zero, hget]
      congr 1
      apply List.map_congr_left
      intro j _
      rw [Function.comp_apply, Nat.succ_eq_add_one, Nat.add_assoc, Nat.mod_add_mod]
      congr 2
      omega
    · have hcurr : ((c + 1) % l.length + k) % l.length = (c + (k + 1)) % l.length := by
        rw [Nat.mod_add_mod, Nat.add_assoc, Nat.add_comm 1]
      simp only [sockaddrListNexts, hnext, hrest, hcurr, Option.bind_eq_bind, Option.bind_some]
      rfl

/-- **Round-robin**: as many calls as there are addresses go once around, and leave the list as it was. -/
theorem sockaddrListNexts_round (h : Lists rsal l) (hc : rsal.curr = c) (hlt : c < l.length) :
    sockaddrListNexts l.length rsal = some (rsal, l.rotate (c + 1)) := by
  obtain ⟨sinxs, hmap, hnexts⟩ := sockaddrListNexts_ok l.length h hc hlt
  have hsame : { rsal with curr := ((c + l.length) % l.length : Nat) } = rsal := by
    rw [Nat.add_mod_right, Nat.mod_eq_of_lt hlt, ← hc]
  have hrotate : sinxs = l.rotate (c + 1) := by
    apply Function.Injective.list_map (Option.some_injective _)
    rw [hmap]
    apply List.ext_getElem
    · simp
    · intro j hj _
      have hj' : j < l.length := by simpa using hj
      rw [List.getElem_map, List.getElem_map, List.getElem_range, List.getElem_rotate, Nat.add_comm,
        List.getElem?_eq_getElem (Nat.mod_lt _ (Nat.zero_lt_of_lt hlt))]
  rw [hnexts, hsame, hrotate]

end Next

/-! ## The list that is made -/

/-- An address in its place, which `calloc` cleared. -/
def padded (ai : List UInt8) : List UInt8 := ai ++ List.replicate (sinxSize - ai.length) 0

theorem copyAddrs_ok : ∀ {ais : List (List UInt8)} (done : List UInt8) (cnt : Nat), done.length = cnt * sinxSize →
    (∀ ai ∈ ais, ai.length ≤ sinxSize) →
      copyAddrs ais cnt (done ++ List.replicate (ais.length * sinxSize) 0) = some (done ++ (ais.map padded).flatten)
  | [], done, cnt, _, _ => by simp [copyAddrs]
  | ai :: ais, done, cnt, hdone, hlen => by
    have hai : ai.length ≤ sinxSize := hlen ai List.mem_cons_self
    have hpadded : (padded ai).length = sinxSize := by
      rw [padded, List.length_append, List.length_replicate]
      omega
    have hstore : Rand.store (done ++ List.replicate ((ai :: ais).length * sinxSize) 0) (cnt * sinxSize) ai =
        some (done ++ padded ai ++ List.replicate (ais.length * sinxSize) 0) := by
      obtain ⟨room, hroom⟩ : ∃ room, (ai :: ais).length * sinxSize = ai.length + room :=
        ⟨(ai :: ais).length * sinxSize - ai.length, by rw [List.length_cons, Nat.succ_mul]; omega⟩
      have hrest : room = sinxSize - ai.length + ais.length * sinxSize := by
        rw [List.length_cons, Nat.succ_mul] at hroom
        omega
      have hfit : cnt * sinxSize + ai.length ≤ (done ++ List.replicate (ai.length + room) (0 : UInt8)).length := by
        rw [List.length_append, List.length_replicate, hdone]
        omega
      rw [hroom, Rand.store, if_pos hfit, Splice.write, ← hdone, List.take_left, List.drop_append, List.drop_replicate,
        Nat.add_sub_cancel_left, Nat.add_sub_cancel_left, List.drop_eq_nil_of_le (Nat.le_add_right _ _),
        List.nil_append,
        hrest, List.replicate_add, padded]
      simp
    have hrest := @copyAddrs_ok ais (done ++ padded ai) (cnt + 1)
      (by rw [List.length_append, hdone, hpadded, Nat.succ_mul]) fun x hx => hlen x (List.mem_cons_of_mem ai hx)
    rw [copyAddrs, hstore, Option.bind_eq_bind, Option.bind_some, hrest, List.map_cons, List.flatten_cons,
      List.append_assoc]

section Made

variable {getaddrinfo : CStr → Option CStr → Hints → Except Int (List (List UInt8))} {gaiStrerror : Int → String}
  {rand : Nat → Nat} {ais : List (List UInt8)}

theorem length_padded {ai : List UInt8} (h : ai.length ≤ sinxSize) : (padded ai).length = sinxSize := by
  rw [padded, List.length_append, List.length_replicate]
  omega

/-- The copies have the addresses as their entries. -/
theorem entries_padded (hlen : ∀ ai ∈ ais, ai.length ≤ sinxSize) :
    entries (ais.map padded).flatten ais.length sinxSize = ais.map padded ∧
      (ais.map padded).flatten.length = ais.length * sinxSize := by
  have hall : ∀ b ∈ ais.map padded, b.length = sinxSize := by
    intro b hb
    obtain ⟨ai, hai, rfl⟩ := List.mem_map.1 hb
    exact length_padded (hlen ai hai)
  constructor
  · have h := Rand.entries_flatten hall
    rwa [List.length_map] at h
  · have hlens : (ais.map padded).map List.length = List.replicate ais.length sinxSize := by
      rw [List.map_map]
      apply List.eq_replicate_iff.2
      refine ⟨List.length_map .., ?_⟩
      intro x hx
      obtain ⟨ai, hai, rfl⟩ := List.mem_map.1 hx
      exact length_padded (hlen ai hai)
    rw [List.length_flatten, hlens, List.sum_replicate_nat]

/-- **The shuffle** keeps the addresses. -/
theorem shuffle_lists (rand : Nat → Nat) (hpos : 0 < ais.length) (hmax : ais.length ≤ intMax)
    (hlen : ∀ ai ∈ ais, ai.length ≤ sinxSize) :
    ∃ addr l, rdArrayShuffle rand (ais.map padded).flatten ais.length sinxSize =
      some addr ∧ l.Perm (ais.map padded) ∧ l.length = ais.length ∧ entries addr l.length sinxSize = l ∧
        addr.length = l.length * sinxSize := by
  obtain ⟨hentries, hlength⟩ := entries_padded hlen
  have hmax' := hmax
  unfold intMax at hmax'
  have hsize : (ais.map padded).flatten.length < 18446744073709551616 := by
    rw [hlength, sinxSize]
    omega
  have hd : ∀ k, rand (ais.length - 1 - k) % (k + 1) ≤ k := fun k => Nat.le_of_lt_succ (Nat.mod_lt _ (Nat.succ_pos k))
  obtain ⟨addr, haddr, haddrlen, hshuffle⟩ := @Rand.shuffleLoop_ok rand _ _ _ hd (ais.length - 1) 0 _ (by omega)
    (by unfold intMax; omega) hlength hsize fun k _ _ => by rw [Nat.zero_add]
  rw [hentries] at hshuffle
  have hperm := FisherYates.shuffle_perm (d := fun k => rand (ais.length - 1 - k) % (k + 1)) (l := ais.map padded)
    (ais.length - 1) (by rw [List.length_map]; omega) hd
  have hcount := hperm.length_eq
  rw [List.length_map] at hcount
  refine ⟨addr, _, ?_, hperm, hcount, ?_, ?_⟩
  · rw [rdArrayShuffle, Rand.toInt_pred hpos hmax, haddr]
  · rw [hcount, hshuffle]
  · rw [hcount, haddrlen, hlength]

/-- **Round-robin** over what `getaddrinfo` found: as many calls of `rd_sockaddr_list_next` as there are addresses
give each of them once, in the order of the shuffle, or without one in theirs from the second on, and then the list
is as it was. -/
theorem rdGetaddrinfo_rounds (rand : Nat → Nat) (gaiStrerror : Int → String) (st : Statics) {nodesvc node svc : CStr}
    (hnul : nul ∉ nodesvc) (hport : ¬PortOnly nodesvc) (hparts : parts nodesvc = some (node, svc))
    (hsvc : svc.length < 64)
    (hnode : node.length < 256) (defsvc : Option CStr) (flags : BitVec 32) (family socktype protocol : Int)
    (hgai : getaddrinfo node (if svc ≠ [] then some svc else defsvc) ⟨flags, family, socktype, protocol⟩ = .ok ais)
    (hne : ais ≠ []) (hmax : ais.length ≤ intMax) (hlen : ∀ ai ∈ ais, ai.length ≤ sinxSize) :
    ∃ st' rsal sinxs, rdGetaddrinfo getaddrinfo gaiStrerror rand st nodesvc defsvc flags family socktype protocol =
      some (st', .ok rsal) ∧ sockaddrListNexts ais.length rsal = some (rsal, sinxs) ∧ sinxs.Perm (ais.map padded) ∧
        (flags &&& aiNoshuffle ≠ 0 → sinxs = (ais.map padded).rotate 1) := by
  obtain ⟨st', hprep, hsnode, hssvc⟩ := prepare_fits st hnul hport hparts hsvc hnode
  have hpos : 0 < ais.length := List.length_pos_iff.2 hne
  obtain ⟨hentries, hlength⟩ := entries_padded hlen
  have hcopy : copyAddrs ais 0 (List.replicate (ais.length * sinxSize) 0) = some (ais.map padded).flatten :=
    copyAddrs_ok [] 0 (Nat.zero_mul sinxSize).symm hlen
  -- the list with the addresses in the order `l`
  have hmade : ∀ addr l, shuffleAddrs rand flags ais.length (ais.map padded).flatten = some addr →
    l.length = ais.length →
      entries addr l.length sinxSize = l → addr.length = l.length * sinxSize →
      ∃ rsal, rdGetaddrinfo getaddrinfo gaiStrerror rand st nodesvc defsvc flags family socktype protocol =
        some (st', .ok rsal) ∧ sockaddrListNexts ais.length rsal = some (rsal, l.rotate 1) := by
    intro addr l haddr hcount haddrs haddrlen
    have hsize : addr.length < 18446744073709551616 := by
      unfold intMax at hmax
      rw [haddrlen, hcount, sinxSize]
      omega
    refine ⟨{ cnt := ais.length, curr := 0, addr := addr }, ?_, ?_⟩
    · simp only [rdGetaddrinfo, hprep, Except.toOption, Option.bind_eq_bind, Option.bind_some, hsnode, hssvc, hgai,
        if_neg (Nat.not_lt.2 hmax), if_neg (Nat.ne_of_gt hpos), hcopy, haddr]
      rfl
    · have hlists : Lists { cnt := ais.length, curr := 0, addr := addr } l :=
        ⟨congrArg Nat.cast hcount.symm, haddrs, haddrlen, hsize⟩
      have hround := sockaddrListNexts_round (c := 0) hlists rfl (hcount ▸ hpos)
      rwa [hcount] at hround
  by_cases hflag : flags &&& aiNoshuffle = 0
  · obtain ⟨addr, l, hshuffle, hperm, hcount, haddrs, haddrlen⟩ := shuffle_lists rand hpos hmax hlen
    obtain ⟨rsal, hrsal, hnexts⟩ := hmade addr l ((if_pos hflag).trans hshuffle) hcount haddrs haddrlen
    exact ⟨st', rsal, _, hrsal, hnexts, (List.rotate_perm l 1).trans hperm, fun h => absurd hflag h⟩
  · have hcount : (ais.map padded).length = ais.length := List.length_map ..
    obtain ⟨rsal, hrsal, hnexts⟩ := hmade _ (ais.map padded) (if_neg hflag) hcount (by rw [hcount]; exact hentries)
      (by rw [hcount]; exact hlength)
    exact ⟨st', rsal, _, hrsal, hnexts, List.rotate_perm _ 1, fun _ => rfl⟩

end Made

/-- The addresses of `localhost`: `::1` and `127.0.0.1`. -/
def localhostAddrs : List (List UInt8) :=
  [[10, 0, 0, 80, 0, 0, 0, 0] ++ List.replicate 15 0 ++ [1, 0, 0, 0, 0], [2, 0, 0, 80, 127, 0, 0, 1] ++
    List.replicate 8 0]

theorem rdGetaddrinfo_rounds_localhost : ∃ st' rsal sinxs,
    rdGetaddrinfo (fun _ _ _ => .ok localhostAddrs) (fun _ => "") (fun _ => 6) zeros "localhost:80".toList none
        0 0 1 0 =
      some (st', .ok rsal) ∧ sockaddrListNexts 2 rsal = some (rsal, sinxs) ∧ sinxs.Perm (localhostAddrs.map padded) ∧
        ((0 : BitVec 32) &&& aiNoshuffle ≠ 0 → sinxs = (localhostAddrs.map padded).rotate 1) := by
  have hparts : parts "localhost:80".toList = some ("localhost".toList, "80".toList) := by decide
  have hport : ¬PortOnly "localhost:80".toList := not_portOnly (by decide)
  have hne : localhostAddrs ≠ [] := by decide
  exact rdGetaddrinfo_rounds (fun _ => 6) (fun _ => "") zeros (by decide) hport hparts (by decide)
    (by decide) none 0 0 1 0
    rfl hne (by decide) (by decide)

end Librd.Addr
