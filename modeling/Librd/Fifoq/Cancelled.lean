import Librd.Fifoq.Conserve

/-!
# FIFO queues: elements that are no longer desired

An element whose caller released it has one reference left, and `rd_fifoq_pop0` is to "ignore and remove it". What that
means is `popSkipping`: all such elements at the front are freed, and the first of the others is returned. But the
`continue` of the code leaves the loop, as `rfqe` is not `NULL`, and the element just freed is released again
(`pop_cancelled`). So a pop does what it should exactly if there is nothing to ignore at the front
(`pop_skipping_iff`).
-/

namespace Librd.Fifoq

/-- Only the reference of the queue remains. -/
def cancelled (heap : Heap) (a : Addr) : Bool := (heap a).any fun e => e.refcnt == 1

/-- The heap with some elements freed. -/
def freeAll (heap : Heap) (as : List Addr) : Heap := fun a => if a ∈ as then none else heap a

/-- What `rd_fifoq_pop0` with `nowait` is for: the elements at the front that are no longer desired are removed and
freed; the first of the others is removed and returned, with one reference, or `NULL` if there is none. -/
def popSkipping (s : State) (tid : Tid) : State × Out :=
  let gone := s.rfq.q.takeWhile (cancelled s.heap)
  let heap := freeAll s.heap gone
  let waiting := Function.update s.waiting tid none
  match s.rfq.q.dropWhile (cancelled s.heap) with
  | [] => ({ s with rfq := { s.rfq with q := [], cnt := s.rfq.cnt - gone.length }, heap := heap, waiting := waiting },
      .null)
  | rfqe :: rest =>
    let ptr := ((s.heap rfqe).map Elm.ptr).getD 0
    ({ rfq := { s.rfq with q := rest, cnt := s.rfq.cnt - gone.length - 1 },
       heap := Function.update heap rfqe (some { refcnt := 1, ptr := ptr }), waiting := waiting,
       held := rfqe :: s.held }, .elm rfqe ptr)

/-- A queue whose elements are allocated and counted, each with one reference (its caller released it) or two. -/
structure Desired (s : State) : Prop where
  nodup : s.rfq.q.Nodup
  cnt : s.rfq.cnt = s.rfq.q.length
  refs : ∀ a ∈ s.rfq.q, ∃ e, s.heap a = some e ∧ (e.refcnt = 1 ∨ e.refcnt = 2)

section Pop

variable {s : State} {a : Addr} {q : List Addr} {e : Elm}

@[simp] theorem freeAll_nil (heap : Heap) : freeAll heap [] = heap := by
  funext a
  simp [freeAll]

theorem Desired.cnt_pos (h : Desired s) (hq : s.rfq.q = a :: q) : s.rfq.cnt > 0 := by
  rw [h.cnt, hq, List.length_cons]
  omega

/-- An empty queue. -/
theorem pop_empty (hq : s.rfq.q = []) (tid : Tid) (timeoutMs : Int) :
    popLocked s tid true timeoutMs = some (popSkipping s tid) := by
  obtain ⟨⟨q, cnt, maxSize, taildrop, inited⟩, heap, waiting, held⟩ := s
  cases hq
  simp [popLocked, popSkipping]

/-- An element that is desired. -/
theorem pop_desired (h : Desired s) (hq : s.rfq.q = a :: q) (ha : s.heap a = some e) (he : e.refcnt = 2) (tid : Tid)
    (timeoutMs : Int) : popLocked s tid true timeoutMs = some (popSkipping s tid) := by
  have hpos := h.cnt_pos hq
  have hkeep : cancelled s.heap a = false := by simp [cancelled, ha, he]
  have hone : ¬e.refcnt = 1 := by omega
  have hrel : elmRelease0 s.heap a = some (Function.update s.heap a (some { refcnt := 1, ptr := e.ptr })) := by
    simp [elmRelease0, ha, he]
  simp [popLocked, popSkipping, hq, hpos, ha, hkeep, hone, hrel]

/-- An element with one reference is freed, and then released. -/
theorem pop_cancelled (hq : s.rfq.q = a :: q) (ha : s.heap a = some e) (he : e.refcnt = 1) (tid : Tid)
    (timeoutMs : Int) : popLocked s tid true timeoutMs = none := by
  have hfree : elmRelease0 s.heap a = some (Function.update s.heap a none) := by simp [elmRelease0, ha, he]
  have hagain : elmRelease0 (Function.update s.heap a none) a = none := by simp [elmRelease0]
  by_cases hpos : s.rfq.cnt > 0
  · simp [popLocked, hq, hpos, ha, he, hfree, hagain]
  · simp [popLocked, hq, hpos]

end Pop

/-- **A pop skips what is no longer desired exactly if that is nothing**: the queue is empty, or its first element has
two references. -/
theorem pop_skipping_iff {s : State} (h : Desired s) (tid : Tid) (timeoutMs : Int) :
    popLocked s tid true timeoutMs = some (popSkipping s tid) ↔
      ∀ a, s.rfq.q.head? = some a → cancelled s.heap a = false := by
  cases hq : s.rfq.q with
  | nil => exact ⟨fun _ => nofun, fun _ => pop_empty hq tid timeoutMs⟩
  | cons a q =>
    obtain ⟨e, ha, he⟩ := h.refs a (by simp [hq])
    rcases he with he | he
    · rw [pop_cancelled hq ha he tid timeoutMs]
      refine ⟨nofun, fun hc => ?_⟩
      have hkeep := hc a rfl
      simp [cancelled, ha, he] at hkeep
    · refine ⟨fun _ b hb => ?_, fun _ => pop_desired h hq ha he tid timeoutMs⟩
      obtain rfl : a = b := Option.some.inj hb
      simp [cancelled, ha, he]

/-- A queue of two elements: the first has `refcnt` references, the second two. -/
def twoElements (refcnt : Int) : State where
  rfq := { init with q := [0, 1], cnt := 2 }
  heap := fun a => if a = 0 then some { refcnt := refcnt, ptr := 7 } else if a = 1 then some { refcnt := 2, ptr := 8 }
    else none
  waiting := fun _ => none
  held := []

theorem twoElements_desired {refcnt : Int} (h : refcnt = 1 ∨ refcnt = 2) : Desired (twoElements refcnt) where
  nodup := show [0, 1].Nodup by decide
  cnt := rfl
  refs := by
    intro a ha
    simp only [twoElements, List.mem_cons, List.not_mem_nil, or_false] at ha
    rcases ha with rfl | rfl
    · exact ⟨_, rfl, h⟩
    · exact ⟨_, rfl, .inr rfl⟩

theorem pop_skipping_two : popLocked (twoElements 2) 0 true 0 = some (popSkipping (twoElements 2) 0) :=
  (pop_skipping_iff (twoElements_desired (.inr rfl)) 0 0).2 fun a ha => by
    obtain rfl : 0 = a := Option.some.inj ha
    decide

/-- The first element is freed and used again, where the second one should be returned. -/
theorem pop_cancelled_two :
    popLocked (twoElements 1) 0 true 0 = none ∧ (popSkipping (twoElements 1) 0).2 = .elm 1 8 ∧
      popLocked (twoElements 1) 0 true 0 ≠ some (popSkipping (twoElements 1) 0) := by
  have hfault : popLocked (twoElements 1) 0 true 0 = none := rfl
  refine ⟨hfault, by decide, ?_⟩
  rw [hfault]
  exact nofun

end Librd.Fifoq
