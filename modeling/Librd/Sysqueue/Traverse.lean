import Mathlib.Data.List.Rotate
import Librd.Sysqueue.Simpleq

/-!
# Traversals of tail queues (`rdsysqueue.h`)

* `tailqForeachReverse_ok`: `TAILQ_FOREACH_REVERSE` visits the elements from the last one on;
* `circNext_round`, `circ_inverse`: `TAILQ_CIRC_NEXT` goes around through every element once, and `TAILQ_CIRC_PREV`
  is its inverse;
* `tailqForeachSafe_ok`: `TAILQ_FOREACH_SAFE` visits every element once, whatever its body does to the elements that it
  has come to, the present one included.
-/

namespace Librd.Sysqueue

open Links

variable {H E : Type} {m : Tailqs H E} {h : H} {e : E} {xs ys zs : List E}

/-! ## Both ways -/

/-- `TAILQ_FOREACH`. -/
def tailqForeach (fuel : Nat) (m : Tailqs H E) (head : H) : Option (List E) :=
  foreachLoop (fun elm => m.cell (.next elm)) fuel (m.cell (.first head))

/-- `TAILQ_FOREACH_REVERSE`. -/
def tailqForeachReverse (fuel : Nat) (m : Tailqs H E) (head : H) : Option (List E) :=
  foreachLoop (tailqPrev m) fuel (tailqLast m head)

theorem tailqForeach_ok (hq : Tailq m h xs) {fuel : Nat} (hfuel : xs.length < fuel) :
    tailqForeach fuel m h = some xs := by
  have hnext : ∀ ys z zs, xs = ys ++ z :: zs → m.cell (.next z) = zs.head? := by
    rintro ys z zs rfl
    exact hq.chain.cell_next
  rw [tailqForeach, hq.chain.cell_first]
  exact foreachLoop_ok hnext xs [] rfl hfuel

/-- **Backwards.** -/
theorem tailqForeachReverse_ok (hq : Tailq m h xs) {fuel : Nat} (hfuel : xs.length < fuel) :
    tailqForeachReverse fuel m h = some xs.reverse := by
  have hnext : ∀ ys z zs, xs.reverse = ys ++ z :: zs → tailqPrev m z = zs.head? := by
    intro ys z zs hxs
    have hxs' : xs = zs.reverse ++ z :: ys.reverse := by
      rw [← List.reverse_reverse xs, hxs]
      simp
    rw [tailqPrev_eq (hxs' ▸ hq), List.getLast?_reverse]
  rw [tailqForeachReverse, tailqLast_eq hq, ← List.head?_reverse]
  exact foreachLoop_ok hnext xs.reverse [] rfl (by rwa [List.length_reverse])

/-! ## Around -/

section Circ

variable [DecidableEq E]

/-- `TAILQ_CIRC_NEXT`. -/
def tailqCircNext (m : Tailqs H E) (head : H) (var : E) : Option E :=
  if some var ≠ tailqLast m head then m.cell (.next var) else m.cell (.first head)

/-- `TAILQ_CIRC_PREV`. -/
def tailqCircPrev (m : Tailqs H E) (head : H) (var : E) : Option E :=
  if some var ≠ m.cell (.first head) then tailqPrev m var else tailqLast m head

theorem split_at {E : Type} (xs : List E) {i : Nat} (hi : i < xs.length) :
    xs = xs.take i ++ xs[i] :: xs.drop (i + 1) := by
  rw [List.getElem_cons_drop, List.take_append_drop]

theorem tailqCircNext_eq (hq : Tailq m h xs) {i : Nat} (hi : i < xs.length) :
    tailqCircNext m h xs[i] = xs[(i + 1) % xs.length]? := by
  have hlast : some xs[i] = xs.getLast? ↔ i + 1 = xs.length := by
    rw [List.getLast?_eq_getElem?, List.getElem?_eq_getElem (by omega), Option.some_inj, hq.chain.nodup.getElem_inj_iff]
    omega
  have hnext : m.cell (.next xs[i]) = xs[i + 1]? := by
    have hc := hq.chain
    rw [split_at xs hi] at hc
    rw [hc.cell_next, List.head?_drop]
  rw [tailqCircNext, tailqLast_eq hq, hq.chain.cell_first, hnext]
  by_cases hend : i + 1 = xs.length
  · rw [if_neg (not_not.2 (hlast.2 hend)), hend, Nat.mod_self, List.head?_eq_getElem?]
  · rw [if_pos (fun heq => hend (hlast.1 heq)), Nat.mod_eq_of_lt (by omega)]

theorem tailqCircPrev_eq (hq : Tailq m h xs) {i : Nat} (hi : i < xs.length) :
    tailqCircPrev m h xs[i] = xs[(i + xs.length - 1) % xs.length]? := by
  have hfirst : some xs[i] = xs.head? ↔ i = 0 := by
    rw [List.head?_eq_getElem?, List.getElem?_eq_getElem (by omega), Option.some_inj, hq.chain.nodup.getElem_inj_iff]
  have hprev : tailqPrev m xs[i] = (xs.take i).getLast? := by
    have hq' := hq
    rw [split_at xs hi] at hq'
    exact tailqPrev_eq hq'
  rw [tailqCircPrev, tailqLast_eq hq, hq.chain.cell_first, hprev]
  by_cases hzero : i = 0
  · rw [if_neg (not_not.2 (hfirst.2 hzero)), hzero, Nat.zero_add, Nat.mod_eq_of_lt (by omega),
      List.getLast?_eq_getElem?]
  · have hmod : (i + xs.length - 1) % xs.length = i - 1 := by
      rw [show i + xs.length - 1 = i - 1 + xs.length by omega, Nat.add_mod_right, Nat.mod_eq_of_lt (by omega)]
    rw [if_pos (fun heq => hzero (hfirst.1 heq)), hmod, List.getLast?_eq_getElem?, List.length_take,
      Nat.min_eq_left (Nat.le_of_lt hi), List.getElem?_take_of_lt (by omega)]

theorem tailqCircNext_iterate (hq : Tailq m h xs) {i : Nat} (hi : i < xs.length) (k : Nat) :
    (fun o : Option E => o.bind (tailqCircNext m h))^[k] (some xs[i]) = xs[(i + k) % xs.length]? := by
  induction k with
  | zero => rw [Function.iterate_zero, id, Nat.add_zero, Nat.mod_eq_of_lt hi, List.getElem?_eq_getElem hi]
  | succ k ih =>
    have hk : (i + k) % xs.length < xs.length := Nat.mod_lt _ (Nat.zero_lt_of_lt hi)
    rw [Function.iterate_succ_apply', ih, List.getElem?_eq_getElem hk, Option.bind_some, tailqCircNext_eq hq hk,
      Nat.mod_add_mod, Nat.add_assoc]

/-- **A round** visits every element once and ends where it began. -/
theorem tailqCircNext_round (hq : Tailq m h xs) {i : Nat} (hi : i < xs.length) :
    (List.range xs.length).map (fun k => (fun o : Option E => o.bind (tailqCircNext m h))^[k] (some xs[i])) =
      (xs.rotate i).map some ∧
      (fun o : Option E => o.bind (tailqCircNext m h))^[xs.length] (some xs[i]) = some xs[i] := by
  constructor
  · apply List.ext_getElem
    · simp
    · intro k hk _
      have hk' : k < xs.length := by simpa using hk
      rw [List.getElem_map, List.getElem_map, List.getElem_range, tailqCircNext_iterate hq hi, List.getElem_rotate,
        Nat.add_comm, List.getElem?_eq_getElem (Nat.mod_lt _ (Nat.zero_lt_of_lt hi))]
  · rw [tailqCircNext_iterate hq hi, Nat.add_mod_right, Nat.mod_eq_of_lt hi, List.getElem?_eq_getElem hi]

/-- **Back and forth.** -/
theorem tailqCirc_inverse (hq : Tailq m h xs) (he : e ∈ xs) :
    (tailqCircNext m h e).bind (tailqCircPrev m h) = some e ∧
      (tailqCircPrev m h e).bind (tailqCircNext m h) = some e := by
  obtain ⟨i, hi, rfl⟩ := List.getElem_of_mem he
  have hpos := Nat.zero_lt_of_lt hi
  have hnext : (i + 1) % xs.length < xs.length := Nat.mod_lt _ hpos
  have hprev : (i + xs.length - 1) % xs.length < xs.length := Nat.mod_lt _ hpos
  constructor
  · have hback : ((i + 1) % xs.length + xs.length - 1) % xs.length = i := by
      rw [Nat.add_sub_assoc hpos, Nat.mod_add_mod, show i + 1 + (xs.length - 1) = i + xs.length by omega,
        Nat.add_mod_right, Nat.mod_eq_of_lt hi]
    rw [tailqCircNext_eq hq hi, List.getElem?_eq_getElem hnext, Option.bind_some, tailqCircPrev_eq hq hnext, hback,
      List.getElem?_eq_getElem hi]
  · have hforth : ((i + xs.length - 1) % xs.length + 1) % xs.length = i := by
      rw [Nat.mod_add_mod, show i + xs.length - 1 + 1 = i + xs.length by omega, Nat.add_mod_right, Nat.mod_eq_of_lt hi]
    rw [tailqCircPrev_eq hq hi, List.getElem?_eq_getElem hprev, Option.bind_some, tailqCircNext_eq hq hprev, hforth,
      List.getElem?_eq_getElem hi]

theorem tailqCircNext_round_two : (List.range 2).map (fun k =>
    (fun o : Option Nat => o.bind (tailqCircNext (tailqInsertTail (tailqInsertTail emptyQueue 0 3) 0 4) 0))^[k]
    (some 4)) =
      (([3, 4] : List Nat).rotate 1).map some ∧
    (fun o : Option Nat => o.bind (tailqCircNext (tailqInsertTail (tailqInsertTail emptyQueue 0 3) 0 4) 0))^[2]
      (some 4) = some 4 :=
  have hq : Tailq (tailqInsertTail (tailqInsertTail emptyQueue 0 3) 0 4) 0 [3, 4] := by decide
  tailqCircNext_round hq (i := 1) (by decide)

theorem tailqCirc_inverse_two :
    (tailqCircNext (tailqInsertTail (tailqInsertTail emptyQueue 0 3) 0 4) 0 4).bind
      (tailqCircPrev (tailqInsertTail (tailqInsertTail emptyQueue 0 3) 0 4) 0) = some 4 ∧
    (tailqCircPrev (tailqInsertTail (tailqInsertTail emptyQueue 0 3) 0 4) 0 4).bind
      (tailqCircNext (tailqInsertTail (tailqInsertTail emptyQueue 0 3) 0 4) 0) = some 4 :=
  have hq : Tailq (tailqInsertTail (tailqInsertTail emptyQueue 0 3) 0 4) 0 [3, 4] := by decide
  tailqCirc_inverse hq (by decide)

end Circ

/-! ## With a body -/

section Safe

variable {σ : Type} (mem : σ → Tailqs H E) (body : σ → E → Option σ)

/-- The loop of `TAILQ_FOREACH_SAFE` from an element on, with what it visits: the next element is read before the body
runs. -/
def foreachSafeLoop : Nat → σ → Option E → Option (σ × List E)
  | 0, _, _ => none
  | _ + 1, s, none => some (s, [])
  | fuel + 1, s, some elm =>
    let tmpelm := (mem s).cell (.next elm)
    (body s elm).bind fun s => (foreachSafeLoop fuel s tmpelm).map fun r => (r.1, elm :: r.2)

/-- `TAILQ_FOREACH_SAFE`, in a state with a memory. -/
def tailqForeachSafe (fuel : Nat) (s : σ) (head : H) : Option (σ × List E) :=
  foreachSafeLoop mem body fuel s ((mem s).cell (.first head))

variable {mem body}

/-- The loop after the elements `ds`, of which it left `ys` in the queue. -/
theorem foreachSafeLoop_ok {P : σ → List E → List E → Prop}
    (hbody : ∀ s ds ys e zs, xs = ds ++ e :: zs → P s ds ys → Tailq (mem s) h (ys ++ e :: zs) →
      ∃ s' ys', body s e = some s' ∧ P s' (ds ++ [e]) ys' ∧ Tailq (mem s') h (ys' ++ zs)) :
    ∀ {zs : List E} {s : σ} {ds ys : List E} {fuel : Nat}, xs = ds ++ zs → P s ds ys → Tailq (mem s) h (ys ++ zs) →
      zs.length < fuel →
      ∃ s' ys', foreachSafeLoop mem body fuel s zs.head? = some (s', zs) ∧ P s' xs ys' ∧ Tailq (mem s') h ys'
  | [], s, ds, ys, fuel + 1, hxs, hP, hq, _ => ⟨s, ys, rfl, by simpa [hxs] using hP, by simpa using hq⟩
  | e :: zs, s, ds, ys, fuel + 1, hxs, hP, hq, hfuel => by
    obtain ⟨s1, ys1, h1, hP1, hq1⟩ := hbody s ds ys e zs hxs hP hq
    obtain ⟨s', ys', h', hP', hq'⟩ :=
      foreachSafeLoop_ok hbody (by rw [hxs, List.append_cons]) hP1 hq1 (Nat.lt_of_succ_lt_succ hfuel)
    refine ⟨s', ys', ?_, hP', hq'⟩
    rw [List.head?_cons, foreachSafeLoop, hq.chain.cell_next, h1, Option.bind_some, h', Option.map_some]

/-- **Safe traversals**: if the body leaves the elements alone that the loop has not come to, each element is visited
once, in order. -/
theorem tailqForeachSafe_ok {P : σ → List E → List E → Prop}
    (hbody : ∀ s ds ys e zs, xs = ds ++ e :: zs → P s ds ys → Tailq (mem s) h (ys ++ e :: zs) →
      ∃ s' ys', body s e = some s' ∧ P s' (ds ++ [e]) ys' ∧ Tailq (mem s') h (ys' ++ zs))
    {s : σ} (hP : P s [] []) (hq : Tailq (mem s) h xs) {fuel : Nat} (hfuel : xs.length < fuel) :
    ∃ s' ys', tailqForeachSafe mem body fuel s h = some (s', xs) ∧ P s' xs ys' ∧ Tailq (mem s') h ys' := by
  rw [tailqForeachSafe, hq.chain.cell_first]
  exact foreachSafeLoop_ok hbody (show xs = [] ++ xs from rfl) hP hq hfuel

end Safe

/-! ## Elements that are freed -/

section Free

variable [DecidableEq H] [DecidableEq E]

/-- A memory and the elements that are allocated. -/
structure Pool (H E : Type) where
  mem : Tailqs H E
  live : List E

/-- `free`, after which something else may stand in the links of the element. -/
def Pool.free (junk : E → Option E × Link H E) (s : Pool H E) (elm : E) : Option (Pool H E) :=
  if elm ∈ s.live then
    some { mem := (s.mem.store (.next elm) (junk elm).1).setPrev elm (junk elm).2, live := s.live.erase elm }
  else none

/-- A body that unlinks and frees the elements that `p` holds of. -/
def removeFree (p : E → Bool) (junk : E → Option E × Link H E) (head : H) (s : Pool H E) (elm : E) :
    Option (Pool H E) :=
  if p elm then { s with mem := tailqRemove s.mem head elm }.free junk elm else some s

variable {p : E → Bool} {junk : E → Option E × Link H E}

/-- A queue without the freed element is as it was. -/
theorem Tailq.store_freed {v : Option E × Link H E} (hq : Tailq m h xs) (he : e ∉ xs) :
    Tailq ((m.store (.next e) v.1).setPrev e v.2) h xs := by
  have hnext : ∀ x ∈ xs, x ≠ e := by
    rintro x hx rfl
    exact he hx
  constructor
  · refine ⟨hq.chain.seg.congr (by simp [Tailqs.setPrev, Tailqs.store]) ?_ ?_, ?_, hq.chain.nodup⟩
    · intro x hx
      simp [Tailqs.setPrev, Tailqs.store, hnext x hx]
    · intro x hx
      simp [Tailqs.setPrev, Tailqs.store, hnext x hx]
    · have hend := endLink_ne (h := h) he
      simp [Tailqs.setPrev, Tailqs.store, hend, hq.chain.null]
  · exact hq.last

/-- **Freeing** in a safe traversal: every element is visited once, the elements that `p` holds of are freed once each,
and the others stay in the queue. -/
theorem tailqForeachSafe_free {s : Pool H E} (hq : Tailq s.mem h xs) (hlive : ∀ x ∈ xs, x ∈ s.live) {fuel : Nat}
    (hfuel : xs.length < fuel) : ∃ s', tailqForeachSafe Pool.mem (removeFree p junk h) fuel s h = some (s', xs) ∧
      Tailq s'.mem h (xs.filter fun x => !p x) ∧ s'.live = s.live.diff (xs.filter p) := by
  have hmid : ∀ {ds : List E} {e : E} {zs : List E}, xs = ds ++ e :: zs → e ∈ xs ∧ e ∉ ds := by
    rintro ds e zs rfl
    refine ⟨List.mem_append_right ds List.mem_cons_self, fun hmem => ?_⟩
    exact (List.nodup_append.1 hq.chain.nodup).2.2 e hmem e List.mem_cons_self rfl
  have hbody : ∀ (t : Pool H E) ds ys e zs, xs = ds ++ e :: zs →
      (ys = ds.filter (fun x => !p x) ∧ t.live = s.live.diff (ds.filter p)) → Tailq t.mem h (ys ++ e :: zs) →
      ∃ t' ys', removeFree p junk h t e = some t' ∧ (ys' = (ds ++ [e]).filter (fun x => !p x) ∧
        t'.live = s.live.diff ((ds ++ [e]).filter p)) ∧ Tailq t'.mem h (ys' ++ zs) := by
    rintro t ds ys e zs hxs ⟨hys, hfreed⟩ ht
    obtain ⟨he, hnew⟩ := hmid hxs
    cases hp : p e with
    | false =>
      exact ⟨t, ys ++ [e], if_neg (by simp [hp]), ⟨by simp [hys, hp], by simp [hfreed, hp]⟩, by simpa using ht⟩
    | true =>
      have hmem : e ∈ t.live := by
        rw [hfreed]
        exact List.mem_diff_of_mem (hlive e he) fun hmem => hnew (List.mem_of_mem_filter hmem)
      have hout : e ∉ ys ++ zs := (List.nodup_cons.1 (List.nodup_middle.1 ht.chain.nodup)).1
      refine ⟨_, ys, (if_pos hp).trans (if_pos hmem), ⟨by simp [hys, hp], ?_⟩, ht.remove.store_freed hout⟩
      simp [hfreed, hp, List.diff_append]
  obtain ⟨s', ys', hloop, ⟨rfl, hfreed⟩, hq'⟩ := tailqForeachSafe_ok hbody ⟨rfl, rfl⟩ hq hfuel
  exact ⟨s', hloop, hq', hfreed⟩

theorem tailqForeachSafe_free_two : ∃ s' : Pool Nat Nat,
    tailqForeachSafe Pool.mem (removeFree (· == 3) (fun _ => (some 9, .first 7)) 0) 3
      ⟨tailqInsertTail (tailqInsertTail emptyQueue 0 3) 0 4, [4, 3]⟩ 0 = some (s', [3, 4]) ∧
    Tailq s'.mem 0 ([3, 4].filter fun x => !x == 3) ∧ s'.live = [4, 3].diff ([3, 4].filter (· == 3)) :=
  have hq : Tailq (tailqInsertTail (tailqInsertTail emptyQueue 0 3) 0 4) 0 [3, 4] := by decide
  tailqForeachSafe_free hq (by decide) (by decide)

end Free

end Librd.Sysqueue
