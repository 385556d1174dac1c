import Mathlib
import Librd.Fifoq.Queue
import Librd.Lib.Ledger

/-!
# FIFO queues: nothing is lost or delivered twice

Along every interleaving the queue has a ledger (`run_accounts`): each pointer added is still queued, or was delivered
by one pop, or was pushed out by one later add, which reports it if it was given a `ptr_purged`; pops deliver what was
not pushed out in the order it was added; and `rfq_cnt` is the length of the queue, so no assertion fails.

`rd_fifoq_add` passes no `ptr_purged`, so a pointer that it pushes out is reported nowhere, and `rfq_cnt` cannot count
past `INT_MAX` (`add_loses`).
-/

namespace Librd.Fifoq

/-! ## The invariant of the state -/

/-- The queue holds the pointers `ptrs`. -/
structure Inv (s : State) (ptrs : List Ptr) : Prop where
  inited : s.rfq.inited = true
  elms : s.rfq.q.map s.heap = ptrs.map fun p => some { refcnt := 2, ptr := p }
  nodup : s.rfq.q.Nodup
  held : ∀ a ∈ s.held, ∃ p, s.heap a = some { refcnt := 1, ptr := p }
  held_nodup : s.held.Nodup
  cnt : s.rfq.cnt = s.rfq.q.length
  nonneg : 0 ≤ s.rfq.maxSize
  le_max : s.rfq.maxSize ≤ intMax
  bound : s.rfq.maxSize ≠ 0 → s.rfq.cnt ≤ s.rfq.maxSize

namespace Inv

variable {s : State} {ptrs : List Ptr} {p : Ptr} {a : Addr}

theorem queued_eq (h : Inv s ptrs) : s.queued = ptrs.map some := by
  have := congrArg (List.map (Option.map Elm.ptr)) h.elms
  simpa [State.queued, Function.comp_def] using this

theorem length_eq (h : Inv s ptrs) : s.rfq.q.length = ptrs.length := by
  simpa using congrArg List.length h.elms

/-- An element of the queue is not held by a consumer. -/
theorem not_held (h : Inv s ptrs) (ha : a ∈ s.rfq.q) : a ∉ s.held := by
  intro hh
  obtain ⟨p, hp⟩ := h.held a hh
  have h1 : s.heap a ∈ s.rfq.q.map s.heap := List.mem_map_of_mem ha
  rw [h.elms, hp] at h1
  simp at h1

/-- An address that is not allocated is not queued. -/
theorem fresh (h : Inv s ptrs) (ha : s.heap a = none) : a ∉ s.rfq.q := by
  intro hq
  have h1 : s.heap a ∈ s.rfq.q.map s.heap := List.mem_map_of_mem hq
  rw [h.elms, ha] at h1
  simp at h1

theorem fresh_held (h : Inv s ptrs) (ha : s.heap a = none) : a ∉ s.held := by
  intro hh
  obtain ⟨p, hp⟩ := h.held a hh
  rw [ha] at hp
  cases hp

/-- What the invariant says does not depend on the cells of other addresses, nor on who waits. -/
theorem frame (h : Inv s ptrs) (hq : a ∉ s.rfq.q) (hh : a ∉ s.held) (c : Option Elm) (w : Tid → Option Int) :
    Inv { s with heap := Function.update s.heap a c, waiting := w } ptrs := by
  refine { h with elms := ?_, held := ?_ }
  · rw [← h.elms]
    refine List.map_congr_left fun b hb => Function.update_of_ne ?_ ..
    rintro rfl
    exact hq hb
  · intro b hb
    obtain ⟨p, hp⟩ := h.held b hb
    refine ⟨p, ?_⟩
    rw [← hp]
    refine Function.update_of_ne ?_ ..
    rintro rfl
    exact hh hb

end Inv

/-! ## One operation -/

section Steps

variable {s : State} {ptrs : List Ptr}

/-- An add to a queue that is not full. -/
theorem add0_room (hi : s.rfq.inited = true) (hroom : ¬ (s.rfq.maxSize ≠ 0 ∧ s.rfq.cnt ≥ s.rfq.maxSize))
    (ptr : Ptr) (ptrPurged : Bool) (a : Addr) : add0 s ptr ptrPurged a = (incr s.rfq.cnt).map fun cnt =>
      ({ s with rfq := { s.rfq with q := s.rfq.q ++ [a], cnt := cnt },
                heap := Function.update s.heap a (some { refcnt := 2, ptr := ptr }) },
        if ptrPurged then some 0 else none) := by
  simp only [add0, if_neg hroom]
  cases h : incr s.rfq.cnt <;> simp [h, hi]

/-- An add to a full queue with the victim `x`. -/
theorem add0_full (hi : s.rfq.inited = true) (hfull : s.rfq.maxSize ≠ 0 ∧ s.rfq.cnt ≥ s.rfq.maxSize) {ptr p : Ptr}
    (ptrPurged : Bool) {a x : Addr} (hx : (if s.rfq.taildrop then s.rfq.q.getLast? else s.rfq.q.head?) = some x)
    (hp : Function.update s.heap a (some { refcnt := 2, ptr := ptr }) x = some { refcnt := 2, ptr := p }) :
    add0 s ptr ptrPurged a = (incr (s.rfq.cnt - 1)).map fun cnt =>
      ({ s with rfq := { s.rfq with q := s.rfq.q.erase x ++ [a], cnt := cnt },
                heap := Function.update s.heap a (some { refcnt := 2, ptr := ptr }) },
        if ptrPurged then some p else none) := by
  have hpurge : purge s.rfq (Function.update s.heap a (some { refcnt := 2, ptr := ptr })) =
      some ({ s.rfq with cnt := s.rfq.cnt - 1, q := s.rfq.q.erase x },
        Function.update s.heap a (some { refcnt := 2, ptr := ptr }), p) := by
    split at hx <;> rename_i ht <;> simp [purge, ht, hx, hp]
  simp only [add0, if_pos hfull, hpurge]
  cases h : incr (s.rfq.cnt - 1) <;> simp [h, hi]

/-- A pop of the element `a` takes one of its two references. -/
theorem popLocked_cons {a : Addr} {q : List Addr} (hq : s.rfq.q = a :: q) (hcnt : 0 < s.rfq.cnt) {p : Ptr}
    (ha : s.heap a = some { refcnt := 2, ptr := p }) (tid : Tid) (nowait : Bool) (timeoutMs : Int) :
    popLocked s tid nowait timeoutMs = some ({
      rfq := { s.rfq with cnt := s.rfq.cnt - 1, q := q },
      heap := Function.update s.heap a (some { refcnt := 1, ptr := p }),
      waiting := Function.update s.waiting tid none, held := a :: s.held }, .elm a p) := by
  simp [popLocked, hq, elmRelease0, ha, hcnt]

theorem erase_last {α : Type*} [DecidableEq α] {l : List α} {a : α} (h : (l ++ [a]).Nodup) :
    (l ++ [a]).erase a = l := by
  have ha : a ∉ l := fun hm => (List.nodup_append.1 h).2.2 a hm a (by simp) rfl
  simp [List.erase_append_right _ ha]

/-- Dropping the first or the last element. -/
theorem purge_ok (h : Inv s ptrs) (hne : ptrs ≠ []) : ∃ rfq p rest, purge s.rfq s.heap = some (rfq, s.heap, p) ∧
    (ptrs = p :: rest ∨ ptrs = rest ++ [p]) ∧ Inv { s with rfq := rfq } rest ∧
    rfq.cnt = s.rfq.cnt - 1 ∧ rfq.maxSize = s.rfq.maxSize ∧ ∀ a ∈ rfq.q, a ∈ s.rfq.q := by
  have helms := h.elms
  have hcnt := h.cnt
  by_cases ht : s.rfq.taildrop = true
  · obtain ⟨rest, p, rfl⟩ : ∃ rest p, ptrs = rest ++ [p] := ⟨_, _, (List.dropLast_append_getLast hne).symm⟩
    obtain ⟨q, x, hq⟩ : ∃ q x, s.rfq.q = q ++ [x] :=
      ⟨_, _, (List.dropLast_append_getLast (by intro hn; simp [hn] at helms)).symm⟩
    rw [hq] at helms hcnt
    simp only [List.map_append, List.map_cons, List.map_nil, List.append_singleton_inj] at helms
    have herase : (q ++ [x]).erase x = q := erase_last (hq ▸ h.nodup)
    have hsub : ∀ a ∈ q, a ∈ s.rfq.q := fun a ha => hq ▸ List.mem_append_left [x] ha
    refine ⟨{ s.rfq with cnt := s.rfq.cnt - 1, q := q }, p, rest, ?_, .inr rfl, ?_, rfl, rfl, hsub⟩
    · simp [purge, ht, hq, helms.2, herase]
    · refine { h with elms := helms.1, nodup := (List.nodup_append.1 (hq ▸ h.nodup)).1, cnt := ?_, bound := ?_ }
      · simp only [List.length_append, List.length_singleton] at hcnt; simp only; omega
      · intro hm; have := h.bound hm; simp only; omega
  · obtain ⟨p, rest, rfl⟩ := List.exists_cons_of_ne_nil hne
    obtain ⟨x, q, hq⟩ : ∃ x q, s.rfq.q = x :: q := List.exists_cons_of_ne_nil (by intro hn; simp [hn] at helms)
    rw [hq] at helms hcnt
    simp only [List.map_cons, List.cons.injEq] at helms
    have hsub : ∀ a ∈ q, a ∈ s.rfq.q := fun a ha => hq ▸ List.mem_cons_of_mem x ha
    refine ⟨{ s.rfq with cnt := s.rfq.cnt - 1, q := q }, p, rest, ?_, .inl rfl, ?_, rfl, rfl, hsub⟩
    · simp [purge, ht, hq, helms.1]
    · refine { h with elms := helms.2, nodup := (List.nodup_cons.1 (hq ▸ h.nodup)).2, cnt := ?_, bound := ?_ }
      · simp only [List.length_cons] at hcnt; simp only; omega
      · intro hm; have := h.bound hm; simp only; omega

/-- Putting an allocated element at the end of a queue with room. -/
theorem push_ok (h : Inv s ptrs) (a : Addr) (ptr : Ptr) (ha : s.heap a = some { refcnt := 2, ptr := ptr })
    (hq : a ∉ s.rfq.q) (hroom : s.rfq.maxSize ≠ 0 → s.rfq.cnt < s.rfq.maxSize) (hmax : s.rfq.cnt < intMax) :
    incr s.rfq.cnt = some (s.rfq.cnt + 1) ∧
      Inv { s with rfq := { s.rfq with q := s.rfq.q ++ [a], cnt := s.rfq.cnt + 1 } } (ptrs ++ [ptr]) := by
  refine ⟨if_pos hmax, { h with elms := ?_, nodup := ?_, cnt := ?_, bound := ?_ }⟩
  · simp [h.elms, ha]
  · exact List.nodup_append.2 ⟨h.nodup, List.nodup_singleton a, by rintro b hb c hc rfl; simp at hc; exact hq (hc ▸ hb)⟩
  · simp [h.cnt]
  · intro hm
    have := hroom hm
    simp only
    omega

/-- **An add**: the pointer is queued; if the queue was full, its first or its last pointer `p` is pushed out, and
reported through `ptr_purged`. -/
theorem add0_ok (h : Inv s ptrs) (ptr : Ptr) (ptrPurged : Bool) {a : Addr} (ha : s.heap a = none)
    (hlen : s.rfq.maxSize = 0 → (s.rfq.q.length : Int) < intMax) : ∃ s' p rest,
    add0 s ptr ptrPurged a = some (s', if ptrPurged then some p else none) ∧ Inv s' (rest ++ [ptr]) ∧
      (ptrs = rest ∧ p = 0 ∨ ptrs = p :: rest ∨ ptrs = rest ++ [p]) := by
  have hcnt := h.cnt
  have hmax := h.le_max
  have h1 := h.frame (h.fresh ha) (h.fresh_held ha) (some { refcnt := 2, ptr := ptr }) s.waiting
  by_cases hfull : s.rfq.maxSize ≠ 0 ∧ s.rfq.cnt ≥ s.rfq.maxSize
  · have hne : ptrs ≠ [] := by
      rintro rfl
      have := h.length_eq
      have := h.nonneg
      simp only [List.length_nil] at *
      omega
    obtain ⟨rfq, p, rest, hp, hside, h2, hc, hm, hsub⟩ := purge_ok h1 hne
    simp only at hp h2 hc hm hsub
    have hb := h.bound hfull.1
    obtain ⟨hi, h3⟩ := push_ok h2 a ptr (Function.update_self ..)
      (fun hq => h.fresh ha (hsub a hq)) (by simp only [hc, hm]; omega) (by simp only [hc]; omega)
    simp only at hi
    exact ⟨_, p, rest, by simp [add0, h.inited, hfull, hp, hi], h3, .inr hside⟩
  · have hroom : s.rfq.maxSize ≠ 0 → s.rfq.cnt < s.rfq.maxSize := fun hm => by
      by_contra hge
      exact hfull ⟨hm, by omega⟩
    obtain ⟨hi, h3⟩ := push_ok h1 a ptr (Function.update_self ..) (h.fresh ha) hroom (by
      by_cases hm : s.rfq.maxSize = 0
      · have := hlen hm; simp only; omega
      · have := hroom hm; simp only; omega)
    simp only at hi
    exact ⟨_, 0, ptrs, by simp only [add0, if_neg hfull]; simp [h.inited, hi], h3, .inl ⟨rfl, rfl⟩⟩

/-- A pop of an empty queue waits or returns `NULL`. -/
theorem popLocked_empty (hq : s.rfq.q = []) (tid : Tid) (nowait : Bool) (timeoutMs : Int) :
    ∃ w o, popLocked s tid nowait timeoutMs = some ({ s with waiting := w }, o) ∧ (o = .null ∨ o = .blocked) := by
  cases nowait <;> simp [popLocked, hq]

/-- **A pop** of a queue that is not empty returns its first pointer. -/
theorem popLocked_ok {p : Ptr} (h : Inv s (p :: ptrs)) (tid : Tid) (nowait : Bool) (timeoutMs : Int) :
    ∃ s' a, popLocked s tid nowait timeoutMs = some (s', .elm a p) ∧ Inv s' ptrs := by
  have helms := h.elms
  have hcnt := h.cnt
  obtain ⟨a, q, hq⟩ : ∃ a q, s.rfq.q = a :: q := List.exists_cons_of_ne_nil (by intro hn; simp [hn] at helms)
  rw [hq] at helms hcnt
  simp only [List.map_cons, List.cons.injEq, List.length_cons] at helms hcnt
  have hnd := List.nodup_cons.1 (hq ▸ h.nodup)
  have hheld : a ∉ s.held := h.not_held (by simp [hq])
  -- the element leaves the queue, loses the queue's reference and is held by the consumer
  have h1 : Inv { s with rfq := { s.rfq with cnt := s.rfq.cnt - 1, q := q } } ptrs := by
    refine { h with elms := helms.2, nodup := hnd.2, cnt := ?_, bound := ?_ }
    · simp only; omega
    · intro hm; have := h.bound hm; simp only; omega
  have h2 := h1.frame (a := a) hnd.1 hheld (some { refcnt := 1, ptr := p }) (Function.update s.waiting tid none)
  have h3 : Inv { rfq := { s.rfq with cnt := s.rfq.cnt - 1, q := q },
                  heap := Function.update s.heap a (some { refcnt := 1, ptr := p }),
                  waiting := Function.update s.waiting tid none, held := a :: s.held } ptrs := by
    refine { h2 with held := ?_, held_nodup := List.nodup_cons.2 ⟨hheld, h.held_nodup⟩ }
    intro b hb
    rcases List.mem_cons.1 hb with rfl | hb
    · exact ⟨p, Function.update_self ..⟩
    · exact h2.held b hb
  exact ⟨_, a, popLocked_cons hq (by omega) helms.1 tid nowait timeoutMs, h3⟩

/-- A consumer releases an element. -/
theorem release_ok (h : Inv s ptrs) {a : Addr} (ha : a ∈ s.held) :
    ∃ s', step s (.release a) = some (s', .released) ∧ Inv s' ptrs := by
  obtain ⟨p, hp⟩ := h.held a ha
  have h1 : Inv { s with held := s.held.erase a } ptrs :=
    { h with held := fun b hb => h.held b (List.mem_of_mem_erase hb), held_nodup := h.held_nodup.erase a }
  have h2 := h1.frame (a := a) (fun hq => h.not_held hq ha) (fun hm => (h.held_nodup.mem_erase_iff.1 hm).1 rfl) none
    s.waiting
  exact ⟨_, by simp [step, elmRelease0, hp], h2⟩

end Steps

/-! ## Interleavings -/

/-- Operations with what they gave back. -/
abbrev Hist := List (Op × Out)

/-- The pointers added. -/
def adds (hist : Hist) : List Ptr :=
  hist.filterMap fun e => match e.1 with
    | .add ptr _ _ => some ptr
    | _ => none

/-- The pointers delivered, each with the number of the operation that did it. -/
def pops (hist : Hist) : List (Nat × Ptr) :=
  hist.zipIdx.filterMap fun e => match e.1.2 with
    | .elm _ ptr => some (e.2, ptr)
    | _ => none

/-- The pointers pushed out, each with the number of the add that did it: an add pushes out one at most, reports it if
it was given a `ptr_purged`, and reports nothing else. -/
structure Purges (hist : Hist) (drops : List (Nat × Ptr)) : Prop where
  nodup : (drops.map Prod.fst).Nodup
  by_add : ∀ i p, (i, p) ∈ drops → ∃ ptr ptrPurged a,
    hist[i]? = some (.add ptr ptrPurged a, .purged (if ptrPurged then some p else none))
  reported : ∀ i op p, hist[i]? = some (op, .purged (some p)) → p ≠ 0 → (i, p) ∈ drops

theorem Purges.snoc {hist : Hist} {drops : List (Nat × Ptr)} (h : Purges hist drops) {op : Op} {o : Out}
    (ho : ∀ p, o = .purged (some p) → p = 0) : Purges (hist ++ [(op, o)]) drops where
  nodup := h.nodup
  by_add := by
    intro i p hip
    obtain ⟨ptr, pp, a, hi⟩ := h.by_add i p hip
    exact ⟨ptr, pp, a, by rw [List.getElem?_append_left (List.getElem?_eq_some_iff.1 hi).1, hi]⟩
  reported := by
    intro i op' p hi hp
    rw [List.getElem?_append] at hi
    split at hi
    · exact h.reported i op' p hi hp
    · rw [List.getElem?_singleton] at hi
      split at hi
      · cases hi; exact absurd (ho p rfl) hp
      · cases hi

theorem Purges.snoc_purge {hist : Hist} {drops : List (Nat × Ptr)} (h : Purges hist drops) (ptr : Ptr)
    (ptrPurged : Bool) (a : Addr) (p : Ptr) :
    Purges (hist ++ [(Op.add ptr ptrPurged a, Out.purged (if ptrPurged then some p else none))])
      ((hist.length, p) :: drops) where
  nodup := by
    refine List.nodup_cons.2 ⟨?_, h.nodup⟩
    intro hm
    obtain ⟨⟨i, p'⟩, hip, hlen⟩ := List.mem_map.1 hm
    obtain ⟨_, _, _, hi⟩ := h.by_add i p' hip
    have := (List.getElem?_eq_some_iff.1 hi).1
    simp only at hlen
    omega
  by_add := by
    intro i p' hip
    rcases List.mem_cons.1 hip with hip | hip
    · cases hip
      exact ⟨ptr, ptrPurged, a, by simp⟩
    · obtain ⟨ptr, pp, a, hi⟩ := h.by_add i p' hip
      exact ⟨ptr, pp, a, by rw [List.getElem?_append_left (List.getElem?_eq_some_iff.1 hi).1, hi]⟩
  reported := by
    intro i op' p' hi hp
    rw [List.getElem?_append] at hi
    split at hi
    · exact List.mem_cons_of_mem _ (h.reported i op' p' hi hp)
    · rw [List.getElem?_singleton] at hi
      split at hi
      · cases ptrPurged with
        | false => cases hi
        | true =>
          cases hi
          rw [show i = hist.length by omega]
          exact List.mem_cons_self
      · cases hi

/-- What holds of the state and the history: the queue holds `ptrs`, and the ledger `L` accounts for every pointer. -/
structure Settled (s : State) (hist : Hist) (ptrs : List Ptr) (L : List (Ptr × Fate)) (drops : List (Nat × Ptr)) :
    Prop where
  inv : Inv s ptrs
  accounts : Ledger.Accounts L (adds hist) ptrs (pops hist) drops
  purges : Purges hist drops

section Histories

variable {hist : Hist}

theorem adds_add (ptr : Ptr) (ptrPurged : Bool) (a : Addr) (o : Out) :
    adds (hist ++ [(Op.add ptr ptrPurged a, o)]) = adds hist ++ [ptr] := by
  simp [adds]

theorem adds_other {op : Op} (h : ∀ ptr pp a, op ≠ .add ptr pp a) (o : Out) : adds (hist ++ [(op, o)]) = adds hist := by
  cases op <;> simp [adds] at h ⊢

theorem pops_elm (op : Op) (a : Addr) (p : Ptr) :
    pops (hist ++ [(op, Out.elm a p)]) = pops hist ++ [(hist.length, p)] := by
  simp [pops, List.zipIdx_append]

theorem pops_other (op : Op) {o : Out} (h : ∀ a p, o ≠ .elm a p) : pops (hist ++ [(op, o)]) = pops hist := by
  cases o <;> simp [pops, List.zipIdx_append] at h ⊢

end Histories

/-- The state and the history are accounted for, with some ledger. -/
def Good (s : State) (hist : Hist) : Prop := ∃ ptrs L drops, Settled s hist ptrs L drops

section Good

variable {s s' : State} {hist : Hist} {ptrs : List Ptr} {L : List (Ptr × Fate)} {drops : List (Nat × Ptr)}

/-- A step that neither adds nor delivers. -/
theorem Settled.idle (h : Settled s hist ptrs L drops) {op : Op} {o : Out} (hop : ∀ ptr pp a, op ≠ .add ptr pp a)
    (he : ∀ a p, o ≠ .elm a p) (hp : ∀ p, o ≠ .purged p) (hs : Inv s' ptrs) : Good s' (hist ++ [(op, o)]) :=
  ⟨ptrs, L, drops, hs, by rw [adds_other hop, pops_other op he]; exact h.accounts,
    h.purges.snoc fun p ho => absurd ho (hp _)⟩

theorem add_good (h : Settled s hist ptrs L drops) {ptr : Ptr} {ptrPurged : Bool} {a : Addr}
    (hok : Ok s (.add ptr ptrPurged a)) : ∃ s' o, step s (.add ptr ptrPurged a) = some (s', o) ∧
      Good s' (hist ++ [(Op.add ptr ptrPurged a, o)]) := by
  obtain ⟨s', p, rest, hstep, hinv, hcase⟩ := add0_ok h.inv ptr ptrPurged hok.1 hok.2
  refine ⟨s', .purged (if ptrPurged then some p else none), by simp [step, hstep], ?_⟩
  have hpops : pops (hist ++ [(Op.add ptr ptrPurged a, Out.purged (if ptrPurged then some p else none))]) = pops hist :=
    pops_other _ (by simp)
  have hdrop : ∀ L', Ledger.Accounts L' (adds hist) rest (pops hist) ((hist.length, p) :: drops) →
      Good s' (hist ++ [(Op.add ptr ptrPurged a, Out.purged (if ptrPurged then some p else none))]) := fun L' hL =>
    ⟨_, _, _, hinv, by rw [adds_add, hpops]; exact hL.push ptr, h.purges.snoc_purge ptr ptrPurged a p⟩
  rcases hcase with ⟨rfl, rfl⟩ | rfl | rfl
  · refine ⟨_, _, _, hinv, by rw [adds_add, hpops]; exact h.accounts.push ptr, h.purges.snoc ?_⟩
    intro p hp
    cases ptrPurged <;> simp at hp
    exact hp.symm
  · obtain ⟨L', hL⟩ := h.accounts.drop_first hist.length
    exact hdrop L' hL
  · obtain ⟨L', hL⟩ := h.accounts.drop_last hist.length
    exact hdrop L' hL

theorem pop_good (h : Settled s hist ptrs L drops) (op : Op) (hop : ∀ ptr pp a, op ≠ .add ptr pp a) (tid : Tid)
    (nowait : Bool) (timeoutMs : Int) : ∃ s' o, popLocked s tid nowait timeoutMs = some (s', o) ∧
      Good s' (hist ++ [(op, o)]) := by
  cases ptrs with
  | nil =>
    obtain ⟨w, o, hstep, ho⟩ := popLocked_empty (by simpa using h.inv.elms) tid nowait timeoutMs
    exact ⟨_, o, hstep, h.idle hop (by rcases ho with rfl | rfl <;> simp) (by rcases ho with rfl | rfl <;> simp)
      { h.inv with }⟩
  | cons p ptrs =>
    obtain ⟨s', a, hstep, hinv⟩ := popLocked_ok h.inv tid nowait timeoutMs
    obtain ⟨L', hL⟩ := h.accounts.deliver hist.length
    exact ⟨s', _, hstep, ptrs, L', drops, hinv, by rw [adds_other hop, pops_elm]; exact hL,
      h.purges.snoc (by simp)⟩

/-- **One step** keeps the accounts and does not fault. -/
theorem step_good (s : State) (hist : Hist) (op : Op) (h : Good s hist) (hok : Ok s op) :
    ∃ s' o, step s op = some (s', o) ∧ Good s' (hist ++ [(op, o)]) := by
  obtain ⟨ptrs, L, drops, h⟩ := h
  cases op with
  | add ptr ptrPurged a => exact add_good h hok
  | pop tid nowait timeoutMs => exact pop_good h _ (by simp) tid nowait timeoutMs
  | wake tid =>
    obtain ⟨t, ht⟩ := Option.ne_none_iff_exists'.1 hok
    simpa [step, ht] using pop_good h (.wake tid) (by simp) tid false t
  | timeout tid => exact ⟨_, _, rfl, h.idle (by simp) (by simp) (by simp) { h.inv with }⟩
  | release a =>
    obtain ⟨s', hstep, hinv⟩ := release_ok h.inv hok
    exact ⟨s', _, hstep, h.idle (by simp) (by simp) (by simp) hinv⟩

end Good

theorem start_good {maxSize : Int} (taildrop : Int) (h0 : 0 ≤ maxSize) (hmax : maxSize ≤ intMax) :
    Good (start maxSize taildrop) [] :=
  ⟨[], [], [], ⟨rfl, rfl, .nil, by simp [start], .nil, rfl, h0, hmax, fun _ => h0⟩, .nil, .nil, by simp, by simp⟩

/-- **Conservation.** After every interleaving each pointer added has one entry in a ledger `L`: it is queued, or one
pop delivered it, or one add pushed it out, reporting it if it was given a `ptr_purged`. The pointers that were not
pushed out are delivered in the order they were added, and `rfq_cnt` is the number of pointers queued. -/
theorem run_accounts (maxSize taildrop : Int) (h0 : 0 ≤ maxSize) (hmax : maxSize ≤ intMax) (ops : List Op)
    (hok : machine.Admits (start maxSize taildrop) ops) :
    ∃ s outs ptrs L drops, machine.run (start maxSize taildrop) ops = some (s, outs) ∧
      s.queued = ptrs.map some ∧ s.rfq.cnt = s.rfq.q.length ∧
      Ledger.Accounts L (adds (ops.zip outs)) ptrs (pops (ops.zip outs)) drops ∧ Purges (ops.zip outs) drops ∧
      Ledger.kept L = (pops (ops.zip outs)).map Prod.snd ++ ptrs := by
  obtain ⟨s, outs, hrun, ptrs, L, drops, h⟩ :=
    Machine.run_hist (M := machine) step_good ops _ [] (start_good taildrop h0 hmax) hok
  simp only [List.nil_append] at h
  exact ⟨s, outs, ptrs, L, drops, hrun, h.inv.queued_eq, h.inv.cnt, h.accounts, h.purges, h.accounts.order⟩

/-- A consumer waits and gets 7; 8 is pushed out by 9. -/
theorem run_accounts_waiting :
    let ops : List Op := [.pop 0 false 0, .add 7 true 0, .wake 0, .add 8 true 1, .add 9 true 2, .release 0]
    machine.Admits (start 1 0) ops ∧
    ∃ s outs ptrs L drops, machine.run (start 1 0) ops = some (s, outs) ∧
      s.queued = ptrs.map some ∧ s.rfq.cnt = s.rfq.q.length ∧
      Ledger.Accounts L (adds (ops.zip outs)) ptrs (pops (ops.zip outs)) drops ∧ Purges (ops.zip outs) drops ∧
      Ledger.kept L = (pops (ops.zip outs)).map Prod.snd ++ ptrs :=
  ⟨by decide, run_accounts 1 0 (by decide) (by decide) _ (by decide)⟩

/-! ## Pointers lost and counts overflown -/

/-- An unbounded queue after `n` adds. -/
def flooded (n : Nat) : State where
  rfq := { q := List.range n, cnt := n, maxSize := 0, taildrop := false, inited := true }
  heap := fun a => if a < n then some { refcnt := 2, ptr := 7 } else none
  waiting := fun _ => none
  held := []

/-- `m` adds, from the address `n` on. -/
def flood (n m : Nat) : List Op := (List.range' n m).map fun a => .add 7 true a

theorem step_flooded {n : Nat} (h : (n : Int) < intMax) :
    step (flooded n) (.add 7 true n) = some (flooded (n + 1), .purged (some 0)) := by
  have hcnt : incr (flooded n).rfq.cnt = some ((n : Int) + 1) := if_pos h
  have hheap : Function.update (flooded n).heap n (some { refcnt := 2, ptr := 7 }) = (flooded (n + 1)).heap := by
    funext a
    rcases Nat.lt_trichotomy a n with ha | rfl | ha
    · rw [Function.update_of_ne (Nat.ne_of_lt ha)]
      exact (if_pos ha).trans (if_pos (Nat.lt_succ_of_lt ha)).symm
    · simp [flooded]
    · rw [Function.update_of_ne (Nat.ne_of_gt ha)]
      exact (if_neg (Nat.lt_asymm ha)).trans (if_neg (Nat.not_lt.2 (Nat.succ_le_of_lt ha))).symm
  rw [step, add0_room rfl (by simp [flooded]), hcnt, hheap]
  simp [flooded, List.range_succ]

theorem step_flooded_full {n : Nat} (h : ¬(n : Int) < intMax) : step (flooded n) (.add 7 true n) = none := by
  have hcnt : incr (flooded n).rfq.cnt = none := if_neg h
  rw [step, add0_room rfl (by simp [flooded]), hcnt]
  rfl

theorem machine_step : machine.step = step := rfl

/-- An unbounded queue does not survive `2 ^ 31` entries. -/
theorem run_flood : ∀ m n : Nat, (n : Int) ≤ intMax → intMax < n + m → machine.run (flooded n) (flood n m) = none
  | 0, n, hn, hm => by omega
  | m + 1, n, hn, hm => by
    have hcons : flood n (m + 1) = .add 7 true n :: flood (n + 1) m := rfl
    rw [hcons]
    by_cases hlt : (n : Int) < intMax
    · have ih := run_flood m (n + 1) (by omega) (by push_cast; omega)
      simp [Machine.run, machine_step, step_flooded hlt, ih]
    · simp [Machine.run, machine_step, step_flooded_full hlt]

theorem start_flooded : start 0 0 = flooded 0 := by
  simp [start, flooded, setMaxSize, init]

/-- Two adds to a queue of one entry, by `rd_fifoq_add`: the first pointer is not queued, no pop delivers it and no add
reports it. And `2 ^ 31` adds to an unbounded queue overflow `rfq_cnt`. -/
theorem add_loses :
    (∃ s outs, machine.run (start 1 0) [.add 7 false 0, .add 8 false 1] = some (s, outs) ∧ some 7 ∉ s.queued ∧
      ∀ o ∈ outs, o ≠ .purged (some 7) ∧ ∀ a, o ≠ .elm a 7) ∧
    machine.run (start 0 0) (flood 0 (2 ^ 31)) = none := by
  refine ⟨⟨_, _, rfl, by decide, by simp⟩, ?_⟩
  rw [start_flooded]
  exact run_flood (2 ^ 31) 0 (by decide) (by decide)

end Librd.Fifoq
