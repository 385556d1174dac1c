import Librd.Mem.Memctx

/-!
# Memory contexts: the counters

`rmc_out` and `rmc_bytes_out` of a context with `RD_MEMCTX_F_TRACK` are meant to be the number of live allocations and
the sum of their sizes. `rd_memctx_free` subtracts nothing from `rmc_bytes_out`, although the block knows its size;
`rmcp_size` keeps 32 bits of a 64-bit size, which is what `rd_memctx_freeall` subtracts and returns; and the counters
wrap around. The counters and `rd_memctx_freeall` are right along a run exactly when no operation of the run runs into
one of these (`run_counters_iff`).
-/

namespace Librd.Mem

/-- The sum of the sizes asked for. -/
def State.bytes (s : State) : Nat := (s.live.map Live.size).sum

/-- After an operation `rmc_out` is the number of live allocations and `rmc_bytes_out` the sum of their sizes, and
`rd_memctx_freeall` returned the sum of those that were live before and left both counters at 0. -/
def Exact (s : State) (op : Op) (o : Out) (s' : State) : Prop :=
  s'.rmc.out = s'.live.length ∧ s'.rmc.bytesOut = s'.bytes ∧
    (op = .freeall → o = .sum s.bytes ∧ s'.rmc.out = 0 ∧ s'.rmc.bytesOut = 0)

/-- The size of an allocation leaves room for its `rd_memctx_ptr_t` and for the counters, `rd_memctx_free` gets an
allocation of no bytes, and `rd_memctx_freeall` finds sizes of 32 bits. -/
def CountsOk (s : State) : Op → Prop
  | .alloc size _ _ => ptrUsed ≤ (ptrSize + size) % 2 ^ 64 ∧ s.live.length + 1 < 2 ^ 32 ∧ s.bytes + size < 2 ^ 64
  | .free ptr => ∀ l ∈ s.live, s.rmc.ptrOf l.block = ptr → l.size = 0
  | .freesz _ _ => True
  | .freeall => ∀ l ∈ s.live, l.size < 2 ^ 32

instance (s : State) : (op : Op) → Decidable (CountsOk s op)
  | .alloc size _ _ => inferInstanceAs (Decidable (ptrUsed ≤ (ptrSize + size) % 2 ^ 64 ∧ _ ∧ _))
  | .free ptr => inferInstanceAs (Decidable (∀ l ∈ s.live, s.rmc.ptrOf l.block = ptr → l.size = 0))
  | .freesz _ _ => .isTrue trivial
  | .freeall => inferInstanceAs (Decidable (∀ l ∈ s.live, l.size < 2 ^ 32))

/-- The record that `rd_memctx_ptr_new` makes of an allocation. -/
def Live.rmcp (l : Live) : Rmcp := { addr := l.block, size := l.size % 2 ^ 32 }

/-- A tracked context with right counters. -/
structure Inv (s : State) : Prop where
  track : s.rmc.track = true
  ptrs : s.rmc.ptrs = s.live.map Live.rmcp
  nodup : (s.live.map Live.block).Nodup
  heap : ∀ l ∈ s.live, s.heap l.block ≠ none
  out : s.rmc.out = s.live.length
  out_lt : s.live.length < 2 ^ 32
  bytes : s.rmc.bytesOut = s.bytes
  bytes_lt : s.bytes < 2 ^ 64

theorem subBytes_eq {b n : Nat} (h : n ≤ b) (hb : b < 2 ^ 64) : subBytes b n = b - n := by
  rw [subBytes, show b + 2 ^ 64 - n = b - n + 2 ^ 64 by omega, Nat.add_mod_right]
  exact Nat.mod_eq_of_lt (by omega)

/-! ## Allocations -/

/-- An allocation of a tracked context. -/
theorem alloc_eq {s : State} (ht : s.rmc.track = true) (size : Nat) (type : AllocType) (a : Addr)
    (htotal : ptrUsed ≤ (ptrSize + size) % 2 ^ 64) : alloc s size type (some a) = some ({ s with
      rmc := { s.rmc with out := (s.rmc.out + 1) % 2 ^ 32, bytesOut := (s.rmc.bytesOut + size) % 2 ^ 64
                          ptrs := s.rmc.ptrs ++ [Live.rmcp ⟨a, size⟩] }
      heap := alloc0 s.heap ((ptrSize + size) % 2 ^ 64) type (some a) }, some (a + ptrSize)) := by
  have hguard : (guard (ptrUsed ≤ (ptrSize + size) % 2 ^ 64) : Option Unit) = some () := if_pos htotal
  simp only [alloc, ptrNew, ht, if_true, bind, Option.bind, hguard, Option.map, pure, Rmc.ptrOf, Live.rmcp]

/-- The header does not fit: it is written past the block. -/
theorem alloc_fault {s : State} (ht : s.rmc.track = true) (size : Nat) (type : AllocType) (a : Addr)
    (htotal : ¬ ptrUsed ≤ (ptrSize + size) % 2 ^ 64) : alloc s size type (some a) = none := by
  have hguard : (guard (ptrUsed ≤ (ptrSize + size) % 2 ^ 64) : Option Unit) = none := if_neg htotal
  simp only [alloc, ptrNew, ht, if_true, bind, Option.bind, hguard, Option.map]

theorem alloc_ok {s : State} (h : Inv s) {size : Nat} {type : AllocType} {a : Addr} (ha : s.heap a = none)
    (hc : CountsOk s (.alloc size type (some a))) :
    ∃ s' o, step s (.alloc size type (some a)) = some (s', o) ∧ Exact s (.alloc size type (some a)) o s' ∧ Inv s' := by
  obtain ⟨htotal, hout, hbytes⟩ := hc
  have hfresh : ∀ l ∈ s.live, l.block ≠ a := by
    rintro l hl rfl
    exact h.heap l hl ha
  have hsum : (s.live ++ [Live.mk a size]).map Live.size = s.live.map Live.size ++ [size] := by simp
  have hout' : (s.rmc.out + 1) % 2 ^ 32 = (s.live ++ [Live.mk a size]).length := by
    rw [h.out, Nat.mod_eq_of_lt hout]
    simp
  have hbytes' : (s.rmc.bytesOut + size) % 2 ^ 64 = ((s.live ++ [Live.mk a size]).map Live.size).sum := by
    rw [h.bytes, Nat.mod_eq_of_lt hbytes, hsum]
    simp [State.bytes]
  refine ⟨_, _, by rw [step, alloc_eq h.track size type a htotal]; rfl, ⟨hout', hbytes', nofun⟩, ?_⟩
  refine ⟨h.track, by simp [h.ptrs], ?_, ?_, hout', by simpa using hout, hbytes', ?_⟩
  · simp only [Option.toList_some, List.map_cons, List.map_nil, List.map_append]
    apply h.nodup.append (List.nodup_singleton a)
    intro b hb hba
    obtain ⟨l, hl, rfl⟩ := List.mem_map.1 hb
    exact hfresh l hl (List.mem_singleton.1 hba)
  · intro l hl
    simp only [Option.toList_some, List.map_cons, List.map_nil, List.mem_append, List.mem_singleton] at hl
    simp only [alloc0]
    rcases hl with hl | rfl
    · rw [Function.update_of_ne (hfresh l hl)]
      exact h.heap l hl
    · simp
  · simp only [State.bytes, Option.toList_some, List.map_cons, List.map_nil, List.map_append, List.sum_append,
      List.sum_singleton]
    exact hbytes

theorem alloc_bad {s s' : State} {o : Out} (h : Inv s) {size : Nat} {type : AllocType} {a : Addr}
    (hc : ¬ CountsOk s (.alloc size type (some a))) (hs : step s (.alloc size type (some a)) = some (s', o)) :
    ¬ Exact s (.alloc size type (some a)) o s' := by
  rintro ⟨hout, hbytes, -⟩
  by_cases htotal : ptrUsed ≤ (ptrSize + size) % 2 ^ 64
  · rw [step, alloc_eq h.track size type a htotal] at hs
    cases hs
    simp only [h.out, h.bytes, Option.toList_some, List.map_cons, List.map_nil, List.length_append,
      List.length_singleton, State.bytes, List.map_append, List.sum_append, List.sum_singleton] at hout hbytes
    refine hc ⟨htotal, ?_, ?_⟩
    · rw [← hout]
      exact Nat.mod_lt _ (by omega)
    · rw [State.bytes, ← hbytes]
      exact Nat.mod_lt _ (by omega)
  · rw [step, alloc_fault h.track size type a htotal] at hs
    cases hs

/-! ## Single blocks -/

/-- The state after the allocation `l` was freed and `size` bytes were subtracted. -/
def State.freed (s : State) (l : Live) (size : Nat) : State where
  rmc := { s.rmc with out := s.live.length - 1, bytesOut := s.bytes - size
                      ptrs := s.rmc.ptrs.eraseP fun r => r.addr = l.block }
  heap := Function.update s.heap l.block none
  live := s.live.eraseP fun x => x.block = l.block

/-- Taking one allocation off the list of the callers. -/
theorem split_live {s : State} (h : Inv s) {l : Live} (hl : l ∈ s.live) :
    ∃ l1 l2, s.live = l1 ++ l :: l2 ∧ s.live.eraseP (fun x => x.block = l.block) = l1 ++ l2 ∧
      s.rmc.ptrs.eraseP (fun r => r.addr = l.block) = (l1 ++ l2).map Live.rmcp := by
  obtain ⟨x, l1, l2, -, hx, hlive, herase⟩ :=
    List.exists_of_eraseP (p := fun x => decide (x.block = l.block)) hl (by simp)
  obtain rfl : x = l := List.inj_on_of_nodup_map h.nodup (by simp [hlive]) hl (by simpa using hx)
  refine ⟨l1, l2, hlive, herase, ?_⟩
  rw [h.ptrs, List.eraseP_map, ← herase]
  rfl

/-- Freeing a live block and saying `size`. -/
theorem free0_eq {s : State} (h : Inv s) {l : Live} (hl : l ∈ s.live) {size : Nat} (hsize : size ≤ s.bytes) :
    (free0 s (s.rmc.ptrOf l.block) size).map (fun s' => (s'.forget (s.rmc.ptrOf l.block), Out.freed)) =
      some (s.freed l size, .freed) := by
  have hpos : 0 < s.live.length := List.length_pos_of_mem hl
  have hany : (s.rmc.ptrs.any fun r => r.addr = l.block) = true :=
    List.any_eq_true.2 ⟨l.rmcp, by rw [h.ptrs]; exact List.mem_map_of_mem hl, by simp [Live.rmcp]⟩
  obtain ⟨b, hb⟩ := Option.ne_none_iff_exists'.1 (h.heap l hl)
  have hptr : s.rmc.ptrOf l.block - ptrSize = l.block := by simp [Rmc.ptrOf, h.track]
  have hrmc : (if size ≠ 0 then { s.rmc with bytesOut := subBytes s.rmc.bytesOut size } else s.rmc) =
      { s.rmc with bytesOut := s.bytes - size } := by
    split
    · rw [h.bytes, subBytes_eq hsize h.bytes_lt]
    · rename_i h0
      rw [not_not.1 h0, Nat.sub_zero, ← h.bytes]
  simp only [free0, hrmc, hptr]
  simp [h.out, hpos, h.track, removePtr, hany, free, hb, State.forget, State.freed, Rmc.ptrOf]

/-- What is left after an allocation was freed with its size. -/
theorem Inv.freed {s : State} (h : Inv s) {l : Live} (hl : l ∈ s.live) :
    (s.freed l l.size).bytes + l.size = s.bytes ∧ Inv (s.freed l l.size) := by
  obtain ⟨l1, l2, hlive, herase, hptrs⟩ := split_live h hl
  have hlen : (l1 ++ l2).length = s.live.length - 1 := by simp [hlive]
  have hbytes : ((l1 ++ l2).map Live.size).sum + l.size = s.bytes := by simp [State.bytes, hlive]; omega
  have hnd := h.nodup
  rw [hlive, List.map_append, List.map_cons, List.nodup_middle, ← List.map_append, List.nodup_cons] at hnd
  have hfreed : (s.freed l l.size).live = l1 ++ l2 := herase
  refine ⟨by rw [State.bytes, hfreed]; exact hbytes, h.track, by rw [hfreed]; exact hptrs, by rw [hfreed]; exact hnd.2,
    ?_, by rw [hfreed]; exact hlen.symm, ?_, ?_, ?_⟩
  · intro x hx
    rw [hfreed] at hx
    have hne : x.block ≠ l.block := fun heq => hnd.1 (heq ▸ List.mem_map_of_mem hx)
    show Function.update s.heap l.block none x.block ≠ none
    rw [Function.update_of_ne hne]
    apply h.heap x
    rw [hlive]
    simp only [List.mem_append, List.mem_cons] at hx ⊢
    tauto
  · have := h.out_lt
    rw [hfreed]
    omega
  · rw [State.bytes, hfreed]
    show s.bytes - l.size = _
    omega
  · have := h.bytes_lt
    rw [State.bytes, hfreed]
    omega

/-- `rd_memctx_freesz`, and `rd_memctx_free` of an allocation of no bytes. -/
theorem free_ok {s : State} (h : Inv s) {l : Live} (hl : l ∈ s.live) (op : Op) (hop : op ≠ .freeall)
    (hstep : step s op = (free0 s (s.rmc.ptrOf l.block) l.size).map fun s' =>
      (s'.forget (s.rmc.ptrOf l.block), .freed)) : ∃ s' o, step s op = some (s', o) ∧ Exact s op o s' ∧ Inv s' := by
  obtain ⟨hsum, h'⟩ := h.freed hl
  rw [hstep, free0_eq h hl (by omega)]
  exact ⟨_, _, rfl, ⟨h'.out, h'.bytes, fun h => absurd h hop⟩, h'⟩

/-- `rd_memctx_free` of an allocation of some bytes. -/
theorem free_bad {s s' : State} {o : Out} (h : Inv s) {l : Live} (hl : l ∈ s.live) (hsize : l.size ≠ 0)
    (hs : step s (.free (s.rmc.ptrOf l.block)) = some (s', o)) : ¬ Exact s (.free (s.rmc.ptrOf l.block)) o s' := by
  have hsum : (s.freed l 0).bytes + l.size = s.bytes := (h.freed hl).1
  rw [step, free0_eq h hl (Nat.zero_le _)] at hs
  cases hs
  rintro ⟨-, hbytes, -⟩
  have hkept : (s.freed l 0).rmc.bytesOut = s.bytes := rfl
  omega

/-! ## All blocks -/

/-- One round of the loop of `rd_memctx_freeall`. -/
theorem ptrFree_eq {s : State} {r : Rmcp} {rest : List Rmcp} (hp : s.rmc.ptrs = r :: rest) (hh : s.heap r.addr ≠ none)
    (hout : 0 < s.rmc.out) (hsize : r.size ≤ s.rmc.bytesOut) (hb : s.rmc.bytesOut < 2 ^ 64) :
    ptrFree s r = some { s with
      rmc := { s.rmc with out := s.rmc.out - 1, bytesOut := s.rmc.bytesOut - r.size, ptrs := rest }
      heap := Function.update s.heap r.addr none } := by
  obtain ⟨b, hb'⟩ := Option.ne_none_iff_exists'.1 hh
  by_cases h0 : r.size = 0
  · simp [ptrFree, hout, h0, removePtr, hp, free, hb']
  · have hpos : 0 < s.rmc.bytesOut := by omega
    simp [ptrFree, hout, h0, hpos, removePtr, hp, free, hb', subBytes_eq hsize hb]

/-- **The loop of `rd_memctx_freeall`** subtracts and adds up the recorded sizes. -/
theorem freeLoop_ok (rs : List Rmcp) : ∀ (sum : Nat) (s : State), s.rmc.ptrs = rs → (rs.map Rmcp.addr).Nodup →
    (∀ r ∈ rs, s.heap r.addr ≠ none) → rs.length ≤ s.rmc.out → (rs.map Rmcp.size).sum ≤ s.rmc.bytesOut →
    s.rmc.bytesOut < 2 ^ 64 → sum + (rs.map Rmcp.size).sum < 2 ^ 64 →
    ∃ heap, freeLoop rs sum s = some ({ s with
      rmc := { s.rmc with out := s.rmc.out - rs.length, bytesOut := s.rmc.bytesOut - (rs.map Rmcp.size).sum
                          ptrs := [] }
      heap := heap }, sum + (rs.map Rmcp.size).sum) := by
  induction rs with
  | nil =>
    intro sum s hp _ _ _ _ _ _
    have hs : s = { s with rmc := { s.rmc with ptrs := [] } } := by rw [← hp]
    exact ⟨s.heap, by rw [freeLoop, hs]; simp⟩
  | cons r rest ih =>
    intro sum s hp hnd hh hout hsize hb hsum
    simp only [List.map_cons, List.nodup_cons, List.sum_cons, List.length_cons] at hnd hout hsize hsum ⊢
    have hfree := ptrFree_eq hp (hh r List.mem_cons_self) (by omega) (by omega) hb
    have hheap : ∀ x ∈ rest, Function.update s.heap r.addr none x.addr ≠ none := by
      intro x hx
      have hne : x.addr ≠ r.addr := fun heq => hnd.1 (heq ▸ List.mem_map_of_mem hx)
      rw [Function.update_of_ne hne]
      exact hh x (List.mem_cons_of_mem r hx)
    obtain ⟨heap, hloop⟩ := ih (sum + r.size) { s with
        rmc := { s.rmc with out := s.rmc.out - 1, bytesOut := s.rmc.bytesOut - r.size, ptrs := rest }
        heap := Function.update s.heap r.addr none } rfl hnd.2 hheap (by simp only; omega) (by simp only; omega)
      (by simp only; omega) (by omega)
    refine ⟨heap, ?_⟩
    rw [freeLoop, hfree]
    simp only [Option.bind_eq_bind, Option.bind_some, Nat.mod_eq_of_lt (show sum + r.size < 2 ^ 64 by omega), hloop]
    simp only [Option.some.injEq, Prod.mk.injEq, State.mk.injEq, Rmc.mk.injEq, and_true, true_and]
    omega

/-- The sizes recorded add up to no more than the sizes asked for, and to as much exactly when each has 32 bits. -/
theorem recorded_le (live : List Live) :
    ((live.map Live.rmcp).map Rmcp.size).sum ≤ (live.map Live.size).sum ∧
      (((live.map Live.rmcp).map Rmcp.size).sum = (live.map Live.size).sum ↔ ∀ l ∈ live, l.size < 2 ^ 32) := by
  induction live with
  | nil => simp
  | cons l live ih =>
    obtain ⟨hle, hiff⟩ := ih
    have hl : l.rmcp.size ≤ l.size := Nat.mod_le _ _
    have hlt : l.rmcp.size = l.size ↔ l.size < 2 ^ 32 := Nat.mod_eq_iff_lt (by omega)
    simp only [List.map_cons, List.sum_cons, List.forall_mem_cons, ← hiff, ← hlt]
    omega

/-- **`rd_memctx_freeall`** frees everything; it subtracts and returns the recorded sizes. -/
theorem freeall_eq {s : State} (h : Inv s) : ∃ heap, freeall s = some ({ s with
    rmc := { s.rmc with out := 0, bytesOut := s.bytes - ((s.live.map Live.rmcp).map Rmcp.size).sum, ptrs := [] }
    heap := heap }, ((s.live.map Live.rmcp).map Rmcp.size).sum) := by
  have hle := (recorded_le s.live).1
  have hlt := h.bytes_lt
  have haddr : s.rmc.ptrs.map Rmcp.addr = s.live.map Live.block := by
    rw [h.ptrs, List.map_map]
    rfl
  obtain ⟨heap, hloop⟩ := freeLoop_ok s.rmc.ptrs 0 s rfl (by rw [haddr]; exact h.nodup)
    (by
      intro r hr
      rw [h.ptrs] at hr
      obtain ⟨l, hl, rfl⟩ := List.mem_map.1 hr
      exact h.heap l hl)
    (Nat.le_of_eq (by rw [h.ptrs, h.out, List.length_map]))
    (by rw [h.ptrs, h.bytes]; exact hle)
    (by rw [h.bytes]; exact hlt)
    (by rw [h.ptrs, Nat.zero_add]; exact Nat.lt_of_le_of_lt hle hlt)
  refine ⟨heap, ?_⟩
  have hlen : s.rmc.out - s.rmc.ptrs.length = 0 := by rw [h.out, h.ptrs, List.length_map, Nat.sub_self]
  rw [hlen, h.bytes, Nat.zero_add] at hloop
  rw [freeall, ← h.ptrs]
  simp [h.track, hloop]

/-- `rd_memctx_freeall` is right exactly when it finds sizes of 32 bits. -/
theorem freeall_iff {s : State} (h : Inv s) : ∃ s' o, step s .freeall = some (s', o) ∧
    (Exact s .freeall o s' ↔ ∀ l ∈ s.live, l.size < 2 ^ 32) ∧ ((∀ l ∈ s.live, l.size < 2 ^ 32) → Inv s') := by
  obtain ⟨heap, hall⟩ := freeall_eq h
  obtain ⟨hle, hiff⟩ := recorded_le s.live
  refine ⟨_, _, by rw [step, hall]; rfl, ?_, ?_⟩
  · rw [← hiff]
    simp only [Exact, List.length_nil, State.bytes, List.map_nil, List.sum_nil, Out.sum.injEq, true_and, forall_const]
    omega
  · intro hsize
    have heq := hiff.2 hsize
    refine ⟨h.track, rfl, .nil, nofun, rfl, by simp, ?_, by simp [State.bytes]⟩
    simp only [State.bytes, List.map_nil, List.sum_nil]
    omega

/-! ## Runs -/

theorem step_ok {s : State} (h : Inv s) (op : Op) (hok : Ok s op) (hc : CountsOk s op) :
    ∃ s' o, step s op = some (s', o) ∧ Exact s op o s' ∧ Inv s' := by
  cases op with
  | alloc size type res =>
    obtain ⟨-, a, hres, ha⟩ := hok
    obtain rfl : res = some a := hres
    exact alloc_ok h ha hc
  | free ptr =>
    obtain ⟨l, hl, rfl⟩ := hok
    exact free_ok h hl _ (by simp) (by rw [hc l hl rfl]; rfl)
  | freesz ptr size =>
    obtain ⟨l, hl, rfl, rfl⟩ := hok
    exact free_ok h hl _ (by simp) rfl
  | freeall =>
    obtain ⟨s', o, hs, hiff, hinv⟩ := freeall_iff h
    exact ⟨s', o, hs, hiff.2 hc, hinv hc⟩

theorem step_bad {s s' : State} {o : Out} (h : Inv s) (op : Op) (hok : Ok s op) (hc : ¬ CountsOk s op)
    (hs : step s op = some (s', o)) : ¬ Exact s op o s' := by
  cases op with
  | alloc size type res =>
    obtain ⟨-, a, hres, -⟩ := hok
    obtain rfl : res = some a := hres
    exact alloc_bad h hc hs
  | free ptr =>
    simp only [CountsOk, not_forall] at hc
    obtain ⟨l, hl, rfl, hsize⟩ := hc
    exact free_bad h hl hsize hs
  | freesz ptr size => exact absurd trivial hc
  | freeall =>
    obtain ⟨s1, o1, hs1, hiff, -⟩ := freeall_iff h
    rw [hs] at hs1
    cases hs1
    exact fun he => hc (hiff.1 he)

theorem start_inv : Inv (start true) :=
  ⟨rfl, rfl, .nil, nofun, rfl, by simp [start], rfl, by simp [start, State.bytes]⟩

/-- **The counters along a run** of a context with `RD_MEMCTX_F_TRACK`: no assertion fails, `rmc_out` and
`rmc_bytes_out` are right after every call and `rd_memctx_freeall` returns the bytes it freed, if and only if no size
overflows with the header or the counters, `rd_memctx_free` gets only allocations of no bytes, and no allocation of
`2 ^ 32` bytes or more is live at a `rd_memctx_freeall`. -/
theorem run_counters_iff (ops : List Op) (hok : machine.Admits (start true) ops) :
    machine.Steps Exact (start true) ops ↔ machine.Each CountsOk (start true) ops := by
  refine Machine.steps_iff_each (I := Inv) ?_ ?_ ops _ start_inv hok
  · intro s op h hok hc
    exact step_ok h op hok hc
  · intro s op s' o h hok hc hs
    exact step_bad h op hok hc hs

/-- Three allocations, one of them freed with its size and one of no bytes, and the rest at once. -/
theorem run_counters_iff_mixed :
    let ops : List Op := [.alloc 16 .malloc (some 1000), .alloc 0 .malloc (some 2000), .alloc 500 .calloc (some 3000),
      .freesz 1024 16, .free 2024, .freeall]
    machine.Admits (start true) ops ∧ machine.Each CountsOk (start true) ops ∧
    (machine.Steps Exact (start true) ops ↔ machine.Each CountsOk (start true) ops) :=
  ⟨by decide, by decide, run_counters_iff _ (by decide)⟩

/-- `rd_memctx_free` leaves the 16 bytes of an allocation counted; `rd_memctx_freeall` returns 1 for an allocation of
`2 ^ 32 + 1` bytes and leaves `2 ^ 32` counted. -/
theorem counters_drift :
    machine.Admits (start true) [.alloc 16 .malloc (some 1000), .free 1024] ∧
    (∃ s outs, machine.run (start true) [.alloc 16 .malloc (some 1000), .free 1024] = some (s, outs) ∧
      s.live = [] ∧ s.rmc.bytesOut = 16) ∧
    ¬ machine.Steps Exact (start true) [.alloc 16 .malloc (some 1000), .free 1024] ∧
    ∃ s, machine.run (start true) [.alloc (2 ^ 32 + 1) .malloc (some 1000), .freeall] =
      some (s, [.ptr (some 1024), .sum 1]) ∧ s.live = [] ∧ s.rmc.bytesOut = 2 ^ 32 := by
  refine ⟨by decide, ⟨_, _, rfl, rfl, rfl⟩, ?_, ⟨_, rfl, rfl, rfl⟩⟩
  rintro ⟨s1, o1, h1, -, s2, o2, h2, ⟨-, hbytes, -⟩, -⟩
  cases h1
  cases h2
  exact absurd hbytes (by decide)

end Librd.Mem
