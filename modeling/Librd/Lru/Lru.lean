import Mathlib
import Librd.Io.Thread
import Librd.Lib.Machine
import Librd.Sysqueue.Heads

/-!
# Least recently used lists (`rdlru.c`)

An LRU is a TAILQ of elements from the heap with a count. The model has the memory of all LRUs: their queues,
the pointers that the elements carry, and the blocks that are allocated. A fault is the failed assertion of
`rd_lru_elm_destroy`, a NULL pointer from `calloc`, an overflow of the count, or the use of a block that is
not allocated.

* `lrus_run`: over runs of operations on any number of LRUs, each of them behaves as a sequence of pointers of its own
  (`lruSpec`), and the blocks are those of the LRUs and their elements;
* `lrus_clean`: when all LRUs are destroyed, no block is left.
-/

namespace Librd.Lru

open Sysqueue

/-! ## The code -/

/-- The LRUs by their addresses, which are the heads of their queues, and the elements by theirs. `NULL` is `0`. -/
structure State where
  mem : Tailqs Nat Nat
  ptr : Nat → Nat
  cnt : Nat → Int
  lrus : List Nat
  elms : List Nat

namespace State

/-- `free` of an LRU. -/
def freeLru (s : State) (rlru : Nat) : Option State :=
  if rlru ∈ s.lrus then some { s with lrus := s.lrus.erase rlru } else none

/-- `free` of an element. -/
def freeElm (s : State) (rlrue : Nat) : Option State :=
  if rlrue ∈ s.elms then some { s with elms := s.elms.erase rlrue } else none

end State

/-- `rd_lru_elm_destroy`. -/
def lruElmDestroy (s : State) (rlru rlrue : Nat) : Option State :=
  if rlru ∈ s.lrus ∧ rlrue ∈ s.elms ∧ s.cnt rlru > 0 then
    { s with cnt := Function.update s.cnt rlru (s.cnt rlru - 1), mem := tailqRemove s.mem rlru rlrue }.freeElm rlrue
  else none

/-- The loop of `rd_lru_destroy`. -/
def lruDestroyLoop : Nat → State → Nat → Option State
  | 0, _, _ => none
  | fuel + 1, s, rlru =>
    match s.mem.cell (.first rlru) with
    | some rlrue => (lruElmDestroy s rlru rlrue).bind fun s => lruDestroyLoop fuel s rlru
    | none => some s

/-- `rd_lru_destroy`. -/
def lruDestroy (s : State) (rlru : Nat) : Option State :=
  if rlru ∈ s.lrus then (lruDestroyLoop (s.elms.length + 1) s rlru).bind fun s => s.freeLru rlru else none

/-- `rd_lru_new`, where `calloc` returns `addr`. -/
def lruNew (s : State) (addr : Nat) : Option State :=
  if addr = 0 then none
  else some { s with lrus := addr :: s.lrus, cnt := Function.update s.cnt addr 0, mem := tailqInit s.mem addr }

/-- `rd_lru_push`, where `calloc` returns `addr`. -/
def lruPush (s : State) (rlru ptr addr : Nat) : Option State :=
  if addr = 0 ∨ rlru ∉ s.lrus ∨ s.cnt rlru = 2147483647 then none
  else some { s with
    elms := addr :: s.elms
    ptr := Function.update s.ptr addr ptr
    mem := tailqInsertHead s.mem rlru addr
    cnt := Function.update s.cnt rlru (s.cnt rlru + 1) }

/-- The end of `rd_lru_pop` and `rd_lru_shift`, for the element that they take. -/
def lruTake (s : State) (rlru : Nat) : Option Nat → Option (State × Nat)
  | some rlrue => (lruElmDestroy s rlru rlrue).map fun s' => (s', s.ptr rlrue)
  | none => some (s, 0)

/-- `rd_lru_pop`. -/
def lruPop (s : State) (rlru : Nat) : Option (State × Nat) :=
  if rlru ∈ s.lrus then lruTake s rlru (tailqLast s.mem rlru) else none

/-- `rd_lru_shift`. -/
def lruShift (s : State) (rlru : Nat) : Option (State × Nat) :=
  if rlru ∈ s.lrus then lruTake s rlru (s.mem.cell (.first rlru)) else none

/-! ## What it is for -/

/-- The calls, with what `calloc` returns. -/
inductive Op
  | new (addr : Nat)
  | push (rlru ptr addr : Nat)
  | pop (rlru : Nat)
  | shift (rlru : Nat)
  | destroy (rlru : Nat)

/-- A sequence of pointers for each LRU, the last one pushed first. -/
abbrev Seqs := Nat → Option (List Nat)

/-- What a call is to do to the sequences, and what it returns. -/
def lruSpec (a : Seqs) : Op → Seqs × Nat
  | .new addr => (Function.update a addr (some []), addr)
  | .push rlru ptr _ => (Function.update a rlru ((a rlru).map (ptr :: ·)), 0)
  | .pop rlru => (Function.update a rlru ((a rlru).map List.dropLast), ((a rlru).bind List.getLast?).getD 0)
  | .shift rlru => (Function.update a rlru ((a rlru).map List.tail), ((a rlru).bind List.head?).getD 0)
  | .destroy rlru => (Function.update a rlru none, 0)

/-- `calloc` returns blocks that are not in use; the caller gives LRUs that it has, and no LRU gets more elements than
an `int` can count. -/
def Op.Ok (s : State) : Op → Prop
  | new addr => addr ≠ 0 ∧ addr ∉ s.lrus
  | push rlru _ addr => addr ≠ 0 ∧ addr ∉ s.elms ∧ rlru ∈ s.lrus ∧ s.cnt rlru < 2147483647
  | pop rlru | shift rlru | destroy rlru => rlru ∈ s.lrus

instance (s : State) : ∀ op : Op, Decidable (op.Ok s)
  | .new addr => inferInstanceAs (Decidable (addr ≠ 0 ∧ addr ∉ s.lrus))
  | .push rlru _ addr =>
    inferInstanceAs (Decidable (addr ≠ 0 ∧ addr ∉ s.elms ∧ rlru ∈ s.lrus ∧ s.cnt rlru < 2147483647))
  | .pop rlru | .shift rlru | .destroy rlru => inferInstanceAs (Decidable (rlru ∈ s.lrus))

/-- The calls on the memory. -/
def lrus : Machine State Op Nat where
  Ok := Op.Ok
  step s
    | .new addr => (lruNew s addr).map (·, addr)
    | .push rlru ptr addr => (lruPush s rlru ptr addr).map (·, 0)
    | .pop rlru => lruPop s rlru
    | .shift rlru => lruShift s rlru
    | .destroy rlru => (lruDestroy s rlru).map (·, 0)

instance (s : State) (op : Op) : Decidable (lrus.Ok s op) := inferInstanceAs (Decidable (op.Ok s))

/-! ## The memory of the sequences -/

/-- The memory holds the sequences: `elms` are the elements of each LRU. -/
structure Holds (s : State) (a : Seqs) (elms : Nat → Option (List Nat)) : Prop where
  queues : Queues s.mem elms
  seq : ∀ rlru, a rlru = (elms rlru).map (·.map s.ptr)
  cnt : ∀ {rlru xs}, elms rlru = some xs → s.cnt rlru = xs.length
  lrus : ∀ rlru, rlru ∈ s.lrus ↔ (elms rlru).isSome
  elms : ∀ e, e ∈ s.elms ↔ ∃ rlru xs, elms rlru = some xs ∧ e ∈ xs
  nodup_lrus : s.lrus.Nodup
  nodup_elms : s.elms.Nodup

namespace Holds

variable {s : State} {a : Seqs} {elms : Nat → Option (List Nat)} {rlru e : Nat} {xs ys zs : List Nat}

theorem not_mem (h : Holds s a elms) (he : e ∉ s.elms) : ∀ g xs, elms g = some xs → e ∉ xs :=
  fun g xs hg hmem => he ((h.elms e).2 ⟨g, xs, hg, hmem⟩)

theorem mem_lrus (h : Holds s a elms) (hx : elms rlru = some xs) : rlru ∈ s.lrus := by
  rw [h.lrus, hx]
  rfl

theorem exists_of_mem (h : Holds s a elms) (hl : rlru ∈ s.lrus) : ∃ xs, elms rlru = some xs :=
  Option.isSome_iff_exists.1 ((h.lrus rlru).1 hl)

/-- A change of one sequence. -/
theorem update (h : Holds s a elms) {s' : State} {seq : List Nat}
    (hq : Queues s'.mem (Function.update elms rlru (some ys)))
    (hseq : seq = ys.map s'.ptr)
    (hptr : ∀ g xs, g ≠ rlru → elms g = some xs → ∀ x ∈ xs, s'.ptr x = s.ptr x)
    (hcnt : s'.cnt = Function.update s.cnt rlru ys.length) (hlrus : ∀ g, g ∈ s'.lrus ↔ g = rlru ∨ g ∈ s.lrus)
    (helms : ∀ e, e ∈ s'.elms ↔ e ∈ ys ∨ ∃ g xs, g ≠ rlru ∧ elms g = some xs ∧ e ∈ xs)
    (hnodup : s'.lrus.Nodup) (hnodup' : s'.elms.Nodup) :
    Holds s' (Function.update a rlru (some seq)) (Function.update elms rlru (some ys)) where
  queues := hq
  seq g := by
    by_cases hg : g = rlru
    · simp [hg, hseq]
    · rw [Function.update_of_ne hg, Function.update_of_ne hg, h.seq]
      cases hx : elms g with
      | none => rfl
      | some xs =>
        rw [Option.map_some, Option.map_some, Option.some_inj]
        apply List.map_congr_left
        exact fun x hmem => (hptr g xs hg hx x hmem).symm
  cnt {g xs} hx := by
    by_cases hg : g = rlru
    · subst hg
      rw [Function.update_self, Option.some_inj] at hx
      rw [hcnt, Function.update_self, hx]
    · rw [Function.update_of_ne hg] at hx
      rw [hcnt, Function.update_of_ne hg, h.cnt hx]
  lrus g := by
    by_cases hg : g = rlru
    · simp [hg, hlrus]
    · simp [hg, hlrus, h.lrus]
  elms e := by
    rw [helms]
    constructor
    · rintro (he | ⟨g, xs, hg, hx, he⟩)
      · exact ⟨rlru, ys, Function.update_self .., he⟩
      · exact ⟨g, xs, by rwa [Function.update_of_ne hg], he⟩
    · rintro ⟨g, xs, hx, he⟩
      by_cases hg : g = rlru
      · subst hg
        rw [Function.update_self, Option.some_inj] at hx
        exact .inl (hx ▸ he)
      · rw [Function.update_of_ne hg] at hx
        exact .inr ⟨g, xs, hg, hx, he⟩
  nodup_lrus := hnodup
  nodup_elms := hnodup'

theorem new (h : Holds s a elms) {addr : Nat} (h0 : addr ≠ 0) (hfresh : addr ∉ s.lrus) :
    ∃ s', lruNew s addr = some s' ∧
      Holds s' (Function.update a addr (some [])) (Function.update elms addr (some [])) := by
  have hnone : elms addr = none := by
    rw [← Option.not_isSome_iff_eq_none, ← h.lrus]
    exact hfresh
  refine ⟨_, if_neg h0, h.update (h.queues.init addr) rfl ?_ rfl ?_ ?_ (List.nodup_cons.2 ⟨hfresh, h.nodup_lrus⟩)
    h.nodup_elms⟩
  · exact fun _ _ _ _ _ _ => rfl
  · exact fun g => List.mem_cons
  · intro e
    rw [h.elms]
    constructor
    · rintro ⟨g, xs, hx, he⟩
      refine .inr ⟨g, xs, ?_, hx, he⟩
      rintro rfl
      rw [hnone] at hx
      cases hx
    · rintro (he | ⟨g, xs, -, hx, he⟩)
      · cases he
      · exact ⟨g, xs, hx, he⟩

theorem push (h : Holds s a elms) (hx : elms rlru = some xs) (hint : s.cnt rlru < 2147483647) {addr : Nat}
    (h0 : addr ≠ 0) (hfresh : addr ∉ s.elms) (ptr : Nat) :
    ∃ s', lruPush s rlru ptr addr = some s' ∧
      Holds s' (Function.update a rlru (some (ptr :: xs.map s.ptr)))
      (Function.update elms rlru (some (addr :: xs))) := by
  have hother : ∀ g ys, elms g = some ys → ∀ x ∈ ys, Function.update s.ptr addr ptr x = s.ptr x := by
    intro g ys hg x hmem
    apply Function.update_of_ne
    rintro rfl
    exact h.not_mem hfresh g ys hg hmem
  have hseq : ptr :: xs.map s.ptr = (addr :: xs).map (Function.update s.ptr addr ptr) := by
    rw [List.map_cons, Function.update_self, List.map_congr_left (hother rlru xs hx)]
  have hok : ¬ (addr = 0 ∨ rlru ∉ s.lrus ∨ s.cnt rlru = 2147483647) := by
    rintro (h1 | h1 | h1)
    · exact h0 h1
    · exact h1 (h.mem_lrus hx)
    · omega
  refine ⟨_, if_neg hok, h.update (h.queues.insertHead hx (h.not_mem hfresh)) hseq ?_ ?_ ?_ ?_ h.nodup_lrus
    (List.nodup_cons.2 ⟨hfresh, h.nodup_elms⟩)⟩
  · exact fun g ys _ hg => hother g ys hg
  · rw [h.cnt hx, List.length_cons]
    rfl
  · intro g
    constructor
    · exact .inr
    · rintro (rfl | hg)
      · exact h.mem_lrus hx
      · exact hg
  · intro e
    rw [List.mem_cons, List.mem_cons, h.elms, or_assoc]
    apply or_congr Iff.rfl
    constructor
    · rintro ⟨g, ys, hg, he⟩
      by_cases hne : g = rlru
      · subst hne
        rw [hx, Option.some_inj] at hg
        exact .inl (hg ▸ he)
      · exact .inr ⟨g, ys, hne, hg, he⟩
    · rintro (he | ⟨g, ys, -, hg, he⟩)
      · exact ⟨rlru, xs, hx, he⟩
      · exact ⟨g, ys, hg, he⟩

/-- An element is taken out, and its block is free. -/
theorem elmDestroy (h : Holds s a elms) (hx : elms rlru = some (ys ++ e :: zs)) :
    ∃ s', lruElmDestroy s rlru e = some s' ∧ s'.ptr = s.ptr ∧
      Holds s' (Function.update a rlru (some ((ys ++ zs).map s.ptr)))
      (Function.update elms rlru (some (ys ++ zs))) := by
  have hmid : e ∈ ys ++ e :: zs := List.mem_append_right ys List.mem_cons_self
  have he : e ∈ s.elms := (h.elms e).2 ⟨rlru, _, hx, hmid⟩
  have hlen := h.cnt hx
  rw [List.length_append, List.length_cons] at hlen
  have hok : rlru ∈ s.lrus ∧ e ∈ s.elms ∧ s.cnt rlru > 0 := ⟨h.mem_lrus hx, he, by omega⟩
  have hnodup := List.nodup_middle.1 (h.queues.tailq hx).chain.nodup
  refine ⟨_, (if_pos hok).trans (if_pos he), rfl,
    h.update (h.queues.remove hx) rfl ?_ ?_ ?_ ?_ h.nodup_lrus (h.nodup_elms.erase e)⟩
  · exact fun _ _ _ _ _ _ => rfl
  · show Function.update s.cnt rlru (s.cnt rlru - 1) = _
    rw [hlen, List.length_append]
    congr 1
    omega
  · intro g
    constructor
    · exact .inr
    · rintro (rfl | hg)
      · exact h.mem_lrus hx
      · exact hg
  · intro x
    rw [h.nodup_elms.mem_erase_iff, h.elms]
    constructor
    · rintro ⟨hne, g, xs, hg, hmem⟩
      by_cases hgr : g = rlru
      · subst hgr
        rw [hx, Option.some_inj] at hg
        rw [← hg, List.mem_append, List.mem_cons] at hmem
        rw [List.mem_append]
        rcases hmem with hmem | hmem | hmem
        · exact .inl (.inl hmem)
        · exact absurd hmem hne
        · exact .inl (.inr hmem)
      · exact .inr ⟨g, xs, hgr, hg, hmem⟩
    · rintro (hmem | ⟨g, xs, hgr, hg, hmem⟩)
      · constructor
        · rintro rfl
          exact (List.nodup_cons.1 hnodup).1 hmem
        · refine ⟨rlru, _, hx, ?_⟩
          rw [List.mem_append, List.mem_cons]
          exact (List.mem_append.1 hmem).imp_right .inr
      · constructor
        · rintro rfl
          exact h.queues.apart hgr hg hx x hmem hmid
        · exact ⟨g, xs, hg, hmem⟩

theorem destroyLoop (h : Holds s a elms) (hx : elms rlru = some xs) {fuel : Nat} (hfuel : xs.length < fuel) :
    ∃ s', lruDestroyLoop fuel s rlru = some s' ∧
      Holds s' (Function.update a rlru (some [])) (Function.update elms rlru (some [])) := by
  induction xs generalizing s a elms fuel with
  | nil =>
    obtain ⟨fuel, rfl⟩ := Nat.exists_eq_succ_of_ne_zero (Nat.ne_of_gt hfuel)
    have hfirst := (h.queues.tailq hx).chain.cell_first
    rw [List.head?_nil] at hfirst
    have ha : a rlru = some [] := by
      rw [h.seq, hx]
      rfl
    have hsame : Function.update a rlru (some []) = a := by rw [← ha, Function.update_eq_self]
    have hsame' : Function.update elms rlru (some []) = elms := by rw [← hx, Function.update_eq_self]
    refine ⟨s, by rw [lruDestroyLoop, hfirst], ?_⟩
    rw [hsame, hsame']
    exact h
  | cons e xs ih =>
    obtain ⟨fuel, rfl⟩ := Nat.exists_eq_succ_of_ne_zero (Nat.ne_of_gt (Nat.zero_lt_of_lt hfuel))
    have hfirst := (h.queues.tailq hx).chain.cell_first
    rw [List.head?_cons] at hfirst
    obtain ⟨s1, h1, -, hs1⟩ := h.elmDestroy (show elms rlru = some ([] ++ e :: xs) from hx)
    obtain ⟨s', h', hs'⟩ := ih hs1 (Function.update_self ..) (Nat.lt_of_succ_lt_succ hfuel)
    rw [Function.update_idem, Function.update_idem] at hs'
    exact ⟨s', by rw [lruDestroyLoop, hfirst]; simp only [h1]; exact h', hs'⟩

theorem destroy (h : Holds s a elms) (hx : elms rlru = some xs) :
    ∃ s', lruDestroy s rlru = some s' ∧ Holds s' (Function.update a rlru none) (Function.update elms rlru none) := by
  have hsub : xs ⊆ s.elms := fun e he => (h.elms e).2 ⟨rlru, xs, hx, he⟩
  have hlen := ((h.queues.tailq hx).chain.nodup.subperm hsub).length_le
  obtain ⟨s1, h1, hs1⟩ := h.destroyLoop hx (Nat.lt_succ_of_le hlen)
  have hempty : Function.update elms rlru (some []) rlru = some [] := Function.update_self ..
  have hlive : rlru ∈ s1.lrus := hs1.mem_lrus hempty
  refine ⟨{ s1 with lrus := s1.lrus.erase rlru }, ?_, ?_⟩
  · rw [lruDestroy, if_pos (h.mem_lrus hx), h1, Option.bind_some, State.freeLru, if_pos hlive]
  have hqueues := hs1.queues.forget rlru
  rw [Function.update_idem] at hqueues
  refine ⟨hqueues, ?_, ?_, ?_, ?_, hs1.nodup_lrus.erase rlru, hs1.nodup_elms⟩
  · intro g
    by_cases hg : g = rlru
    · simp [hg]
    · simpa [hg] using hs1.seq g
  · intro g xs hx
    by_cases hg : g = rlru
    · simp [hg] at hx
    · apply hs1.cnt
      rw [Function.update_of_ne hg] at hx ⊢
      exact hx
  · intro g
    rw [hs1.nodup_lrus.mem_erase_iff, hs1.lrus]
    by_cases hg : g = rlru
    · simp [hg]
    · simp [hg]
  · intro e
    rw [hs1.elms]
    constructor
    · rintro ⟨g, xs, hg, he⟩
      have hne : g ≠ rlru := by
        rintro rfl
        rw [hempty, Option.some_inj] at hg
        simp [← hg] at he
      exact ⟨g, xs, by rw [Function.update_of_ne hne] at hg ⊢; exact hg, he⟩
    · rintro ⟨g, xs, hg, he⟩
      have hne : g ≠ rlru := by
        rintro rfl
        simp at hg
      exact ⟨g, xs, by rw [Function.update_of_ne hne] at hg ⊢; exact hg, he⟩

/-- The element that `rd_lru_pop` and `rd_lru_shift` take. -/
theorem take (h : Holds s a elms) (hx : elms rlru = some (ys ++ e :: zs)) :
    ∃ s', lruTake s rlru (some e) = some (s', s.ptr e) ∧
      Holds s' (Function.update a rlru (some ((ys ++ zs).map s.ptr)))
      (Function.update elms rlru (some (ys ++ zs))) := by
  obtain ⟨s', h', -, hs'⟩ := h.elmDestroy hx
  exact ⟨s', by rw [lruTake, h']; rfl, hs'⟩

theorem take_none (h : Holds s a elms) (hx : elms rlru = some []) :
    lruTake s rlru none = some (s, 0) ∧
      Holds s (Function.update a rlru (some [])) (Function.update elms rlru (some [])) := by
  have ha : a rlru = some [] := by
    rw [h.seq, hx]
    rfl
  have hsame : Function.update a rlru (some []) = a := by rw [← ha, Function.update_eq_self]
  have hsame' : Function.update elms rlru (some []) = elms := by rw [← hx, Function.update_eq_self]
  refine ⟨rfl, ?_⟩
  rw [hsame, hsame']
  exact h

theorem pop (h : Holds s a elms) (hx : elms rlru = some xs) :
    ∃ s' elms', lruPop s rlru = some (s', ((a rlru).bind List.getLast?).getD 0) ∧
      Holds s' (Function.update a rlru ((a rlru).map List.dropLast)) elms' := by
  have ha : a rlru = some (xs.map s.ptr) := by
    rw [h.seq, hx]
    rfl
  rw [lruPop, if_pos (h.mem_lrus hx), tailqLast_eq (h.queues.tailq hx), ha]
  rcases List.eq_nil_or_concat xs with rfl | ⟨ys, e, rfl⟩
  · obtain ⟨h', hs'⟩ := h.take_none hx
    exact ⟨s, _, h', hs'⟩
  · rw [List.concat_eq_append] at hx ⊢
    obtain ⟨s', h', hs'⟩ := h.take hx
    rw [List.append_nil] at hs'
    refine ⟨s', Function.update elms rlru (some ys), ?_, ?_⟩
    · simpa using h'
    · simpa using hs'

theorem shift (h : Holds s a elms) (hx : elms rlru = some xs) :
    ∃ s' elms', lruShift s rlru = some (s', ((a rlru).bind List.head?).getD 0) ∧
      Holds s' (Function.update a rlru ((a rlru).map List.tail)) elms' := by
  have ha : a rlru = some (xs.map s.ptr) := by
    rw [h.seq, hx]
    rfl
  rw [lruShift, if_pos (h.mem_lrus hx), (h.queues.tailq hx).chain.cell_first, ha]
  cases xs with
  | nil =>
    obtain ⟨h', hs'⟩ := h.take_none hx
    exact ⟨s, _, h', hs'⟩
  | cons e xs =>
    obtain ⟨s', h', hs'⟩ := h.take (show elms rlru = some ([] ++ e :: xs) from hx)
    exact ⟨s', _, h', hs'⟩

end Holds

/-- `rd_io_worker_get` takes the worker that `rd_lru_pop` returns. -/
theorem ioLruPop_eq (a : Seqs) {rlru : Nat} {lru : List Nat} (h : a rlru = some lru) :
    Io.lruPop lru = (((a rlru).bind List.getLast?), ((lruSpec a (.pop rlru)).1 rlru).getD []) := by
  simp [Io.lruPop, lruSpec, h]

/-! ## Runs -/

/-- No LRU yet. -/
def start : State where
  mem := { cell := fun _ => none, prev := .next, last := .first }
  ptr _ := 0
  cnt _ := 0
  lrus := []
  elms := []

theorem start_holds : Holds start (fun _ => none) (fun _ => none) where
  queues := ⟨fun h => (nomatch h), fun _ h _ => (nomatch h)⟩
  seq _ := rfl
  cnt h := nomatch h
  lrus _ := by simp [start]
  elms _ := by simp [start]
  nodup_lrus := List.nodup_nil
  nodup_elms := List.nodup_nil

/-- **A call** does to the memory what it is to do to the sequences. -/
theorem lrus_step {s : State} {a : Seqs} {op : Op} (h : ∃ elms, Holds s a elms) (hok : op.Ok s) :
    ∃ s', lrus.step s op = some (s', (lruSpec a op).2) ∧ ∃ elms', Holds s' (lruSpec a op).1 elms' := by
  obtain ⟨elms, h⟩ := h
  cases op with
  | new addr =>
    obtain ⟨s', h', hs'⟩ := h.new hok.1 hok.2
    exact ⟨s', congrArg (Option.map (·, addr)) h', _, hs'⟩
  | push rlru ptr addr =>
    obtain ⟨h0, hfresh, hl, hint⟩ := hok
    obtain ⟨xs, hx⟩ := h.exists_of_mem hl
    obtain ⟨s', h', hs'⟩ := h.push hx hint h0 hfresh ptr
    refine ⟨s', congrArg (Option.map (·, 0)) h', Function.update elms rlru (some (addr :: xs)), ?_⟩
    rw [lruSpec, h.seq, hx]
    exact hs'
  | pop rlru =>
    obtain ⟨xs, hx⟩ := h.exists_of_mem hok
    obtain ⟨s', elms', h', hs'⟩ := h.pop hx
    exact ⟨s', h', elms', hs'⟩
  | shift rlru =>
    obtain ⟨xs, hx⟩ := h.exists_of_mem hok
    obtain ⟨s', elms', h', hs'⟩ := h.shift hx
    exact ⟨s', h', elms', hs'⟩
  | destroy rlru =>
    obtain ⟨xs, hx⟩ := h.exists_of_mem hok
    obtain ⟨s', h', hs'⟩ := h.destroy hx
    exact ⟨s', congrArg (Option.map (·, 0)) h', _, hs'⟩

theorem lrus_run_holds {ops : List Op} (hops : lrus.Admits start ops) : ∃ s' elms,
    lrus.run start ops = some (s', (Machine.specRun lruSpec (fun _ => none) ops).2) ∧
      Holds s' (Machine.specRun lruSpec (fun _ => none) ops).1 elms := by
  have hstep : ∀ (s : State) (a : Seqs) (op : Op), (∃ elms, Holds s a elms) → lrus.Ok s op →
      ∃ s', lrus.step s op = some (s', (lruSpec a op).2) ∧ ∃ elms', Holds s' (lruSpec a op).1 elms' :=
    fun _ _ _ h hok => lrus_step h hok
  obtain ⟨s', hr, elms, h⟩ := Machine.run_sim hstep ops start (fun _ => none) ⟨_, start_holds⟩ hops
  exact ⟨s', elms, hr, h⟩

/-- **Runs** on any number of LRUs: no call faults, each returns what the sequences say, and at the end `rlru_cnt` of
each LRU is the length of its sequence. -/
theorem lrus_run {ops : List Op} (hops : lrus.Admits start ops) : ∃ s', lrus.run start ops =
    some (s', (Machine.specRun lruSpec (fun _ => none) ops).2) ∧
      (∀ rlru, rlru ∈ s'.lrus ↔ ((Machine.specRun lruSpec (fun _ => none) ops).1 rlru).isSome) ∧
      ∀ rlru ptrs, (Machine.specRun lruSpec (fun _ => none) ops).1 rlru = some ptrs → s'.cnt rlru = ptrs.length := by
  obtain ⟨s', elms, hr, h⟩ := lrus_run_holds hops
  refine ⟨s', hr, ?_, ?_⟩
  · intro rlru
    rw [h.lrus, h.seq, Option.isSome_map]
  · intro rlru ptrs hp
    rw [h.seq] at hp
    obtain ⟨xs, hx, rfl⟩ := Option.map_eq_some_iff.1 hp
    rw [h.cnt hx, List.length_map]

theorem lrus_run_two : ∃ s', lrus.run start [.new 1, .push 1 10 2, .push 1 11 3, .pop 1, .shift 1, .destroy 1] =
    some (s', [1, 0, 0, 10, 11, 0]) := by
  obtain ⟨s', hr, -, -⟩ := @lrus_run [.new 1, .push 1 10 2, .push 1 11 3, .pop 1, .shift 1, .destroy 1] (by decide)
  exact ⟨s', hr⟩

/-- The elements in use, LRU by LRU. -/
theorem Holds.elms_perm {s : State} {a : Seqs} {elms : Nat → Option (List Nat)} (h : Holds s a elms) :
    s.elms.Perm (s.lrus.flatMap fun rlru => (elms rlru).getD []) := by
  rw [List.perm_ext_iff_of_nodup h.nodup_elms]
  · intro e
    rw [h.elms, List.mem_flatMap]
    constructor
    · rintro ⟨rlru, xs, hx, he⟩
      exact ⟨rlru, h.mem_lrus hx, by rwa [hx]⟩
    · rintro ⟨rlru, hl, he⟩
      obtain ⟨xs, hx⟩ := h.exists_of_mem hl
      rw [hx] at he
      exact ⟨rlru, xs, hx, he⟩
  · rw [List.nodup_flatMap]
    constructor
    · intro rlru hl
      obtain ⟨xs, hx⟩ := h.exists_of_mem hl
      rw [hx]
      exact (h.queues.tailq hx).chain.nodup
    · apply h.nodup_lrus.imp_of_mem
      intro g rlru hg hl hne e he he'
      obtain ⟨xs, hx⟩ := h.exists_of_mem hg
      obtain ⟨ys, hy⟩ := h.exists_of_mem hl
      simp only [hx, Option.getD_some] at he
      simp only [hy, Option.getD_some] at he'
      exact h.queues.apart hne hx hy e he he'

/-- **No leaks**: the elements that are in use are as many as the pointers that the LRUs hold. -/
theorem lrus_clean {ops : List Op} (hops : lrus.Admits start ops) : ∃ s' os, lrus.run start ops = some (s', os) ∧
    s'.elms.length = (s'.lrus.map fun rlru =>
      (((Machine.specRun lruSpec (fun _ => none) ops).1 rlru).getD []).length).sum := by
  obtain ⟨s', elms, hr, h⟩ := lrus_run_holds hops
  refine ⟨s', _, hr, ?_⟩
  rw [h.elms_perm.length_eq, List.length_flatMap]
  congr 1
  apply List.map_congr_left
  intro rlru hl
  obtain ⟨xs, hx⟩ := h.exists_of_mem hl
  rw [h.seq, hx]
  exact (List.length_map ..).symm

theorem lrus_clean_two :
    ∃ s' os, lrus.run start [.new 1, .push 1 10 2, .new 4, .push 4 11 3, .destroy 1] = some (s', os) ∧
    s'.elms.length = (s'.lrus.map fun rlru => (((Machine.specRun lruSpec (fun _ => none)
      [.new 1, .push 1 10 2, .new 4, .push 4 11 3, .destroy 1]).1 rlru).getD []).length).sum :=
  lrus_clean (by decide)

end Librd.Lru
