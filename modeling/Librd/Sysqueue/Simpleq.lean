import Librd.Lib.Machine
import Librd.Sysqueue.Heads
import Librd.Sysqueue.Move

/-!
# Simple queues (`rdsysqueue.h`)

The SIMPLEQ macros keep for each queue a first pointer and the address of the last next pointer; the elements have a
next pointer only. A SIMPLEQ is a TAILQ without the back pointers (`forget`), and each macro is what the TAILQ macro
does to the rest (`forget_insertHead` and so on). So what is known of tail queues carries over to runs of the SIMPLEQ
macros on any number of queues (`simpleqs_run`).
-/

namespace Librd.Sysqueue

open Links

variable {H E : Type} [DecidableEq H] [DecidableEq E]

/-! ## SIMPLEQ -/

/-- Pointers with the `sqh_last` of the heads. -/
structure Simpleqs (H E : Type) where
  cell : Link H E → Option E
  last : H → Link H E

namespace Simpleqs

/-- A store through the address of a pointer. -/
def store (m : Simpleqs H E) (p : Link H E) (v : Option E) : Simpleqs H E :=
  { m with cell := Function.update m.cell p v }

/-- A store to a `sqh_last`. -/
def setLast (m : Simpleqs H E) (h : H) (p : Link H E) : Simpleqs H E := { m with last := Function.update m.last h p }

end Simpleqs

/-- `SIMPLEQ_INIT`. -/
def simpleqInit (m : Simpleqs H E) (head : H) : Simpleqs H E :=
  let m := m.store (.first head) none
  m.setLast head (.first head)

/-- `SIMPLEQ_INSERT_HEAD`. -/
def simpleqInsertHead (m : Simpleqs H E) (head : H) (elm : E) : Simpleqs H E :=
  let m := m.store (.next elm) (m.cell (.first head))
  let m := if m.cell (.next elm) = none then m.setLast head (.next elm) else m
  m.store (.first head) (some elm)

/-- `SIMPLEQ_INSERT_TAIL`. -/
def simpleqInsertTail (m : Simpleqs H E) (head : H) (elm : E) : Simpleqs H E :=
  let m := m.store (.next elm) none
  let m := m.store (m.last head) (some elm)
  m.setLast head (.next elm)

/-- `SIMPLEQ_INSERT_AFTER`. -/
def simpleqInsertAfter (m : Simpleqs H E) (head : H) (listelm elm : E) : Simpleqs H E :=
  let m := m.store (.next elm) (m.cell (.next listelm))
  let m := if m.cell (.next elm) = none then m.setLast head (.next elm) else m
  m.store (.next listelm) (some elm)

/-- `SIMPLEQ_REMOVE_HEAD`; without an element it reads through NULL. -/
def simpleqRemoveHead (m : Simpleqs H E) (head : H) : Option (Simpleqs H E) :=
  (m.cell (.first head)).map fun elm =>
    let m := m.store (.first head) (m.cell (.next elm))
    if m.cell (.first head) = none then m.setLast head (.first head) else m

/-- The loop of `SIMPLEQ_FOREACH` from an element on, with fuel, and what it visits. -/
def foreachLoop (next : E → Option E) : Nat → Option E → Option (List E)
  | 0, _ => none
  | _ + 1, none => some []
  | fuel + 1, some elm => (foreachLoop next fuel (next elm)).map (elm :: ·)

/-- `SIMPLEQ_FOREACH`. -/
def simpleqForeach (fuel : Nat) (m : Simpleqs H E) (head : H) : Option (List E) :=
  foreachLoop (fun elm => m.cell (.next elm)) fuel (m.cell (.first head))

theorem foreachLoop_ok {E : Type} {next : E → Option E} {xs : List E}
    (hnext : ∀ ys z zs, xs = ys ++ z :: zs → next z = zs.head?) : ∀ (zs ys : List E), xs = ys ++ zs →
      ∀ {fuel : Nat}, zs.length < fuel → foreachLoop next fuel zs.head? = some zs
  | [], _, _, fuel + 1, _ => rfl
  | z :: zs, ys, hxs, fuel + 1, hfuel => by
    have ih := foreachLoop_ok hnext zs (ys ++ [z]) (by simpa using hxs) (Nat.lt_of_succ_lt_succ hfuel)
    rw [List.head?_cons, foreachLoop, hnext ys z zs hxs, ih, Option.map_some]

/-! ## Without the back pointers -/

section Forget

/-- A TAILQ memory without the back pointers. -/
def forget {H E : Type} (m : Tailqs H E) : Simpleqs H E := ⟨m.cell, m.last⟩

variable {m : Tailqs H E} {h : H} {xs : List E}

theorem forget_init (m : Tailqs H E) (h : H) : forget (tailqInit m h) = simpleqInit (forget m) h := rfl

theorem forget_insertHead (m : Tailqs H E) (h : H) (e : E) :
    forget (tailqInsertHead m h e) = simpleqInsertHead (forget m) h e := by
  cases hfirst : m.cell (.first h) <;>
    simp [tailqInsertHead, simpleqInsertHead, forget, Tailqs.setPrevOrLast, Tailqs.store,
      Tailqs.setPrev, Tailqs.setLast,
      Simpleqs.store, Simpleqs.setLast, Links.store, Links.setPrev, hfirst]

theorem forget_insertTail (m : Tailqs H E) (h : H) (e : E) :
    forget (tailqInsertTail m h e) = simpleqInsertTail (forget m) h e := rfl

theorem forget_insertAfter (m : Tailqs H E) (h : H) {z e : E} (hne : z ≠ e) :
    forget (tailqInsertAfter m h z e) = simpleqInsertAfter (forget m) h z e := by
  cases hnext : m.cell (.next z) <;>
    simp [tailqInsertAfter, simpleqInsertAfter, forget, Tailqs.setPrevOrLast, Tailqs.store,
      Tailqs.setPrev, Tailqs.setLast,
      Simpleqs.store, Simpleqs.setLast, Links.store, Links.setPrev, hnext, hne]

/-- The first element is taken out. -/
theorem forget_remove {e : E} (hq : Tailq m h (e :: xs)) :
    simpleqRemoveHead (forget m) h = some (forget (tailqRemove m h e)) := by
  have hprev : m.prev e = .first h := (show m.Chain h ([] ++ e :: xs) from hq.chain).prev_eq
  have hfirst : m.cell (.first h) = some e := by rw [hq.chain.cell_first, List.head?_cons]
  cases hnext : m.cell (.next e) with
  | none =>
    simp [tailqRemove, simpleqRemoveHead, forget, Tailqs.setPrevOrLast, Tailqs.store, Tailqs.setLast, Simpleqs.store,
      Simpleqs.setLast, Links.store, hnext, hfirst, hprev]
  | some x =>
    have hxe : e ≠ x := by
      rintro rfl
      exact (show m.Chain h ([] ++ e :: xs) from hq.chain).next_ne hnext
    simp [tailqRemove, simpleqRemoveHead, forget, Tailqs.setPrevOrLast, Tailqs.store, Tailqs.setPrev, Simpleqs.store,
      Links.store, Links.setPrev, hnext, hfirst, hprev, hxe]

end Forget

/-! ## Runs -/

/-- Operations on the SIMPLEQs of a memory. -/
inductive SimpleqOp (H E : Type)
  | init (head : H)
  | insertHead (head : H) (elm : E)
  | insertTail (head : H) (elm : E)
  | insertAfter (head : H) (listelm elm : E)
  | removeHead (head : H)

namespace SimpleqOp

/-- The operation on the memory. -/
def run (m : Simpleqs H E) : SimpleqOp H E → Option (Simpleqs H E)
  | init head => some (simpleqInit m head)
  | insertHead head elm => some (simpleqInsertHead m head elm)
  | insertTail head elm => some (simpleqInsertTail m head elm)
  | insertAfter head listelm elm => some (simpleqInsertAfter m head listelm elm)
  | removeHead head => simpleqRemoveHead m head

/-- An element put in behind another one. -/
def insertedAfter (listelm elm : E) : List E → List E
  | [] => []
  | x :: xs => if x = listelm then x :: elm :: xs else x :: insertedAfter listelm elm xs

/-- What it is to make of the sequences. -/
def seq (a : H → Option (List E)) : SimpleqOp H E → H → Option (List E)
  | init head => Function.update a head (some [])
  | insertHead head elm => Function.update a head ((a head).map (elm :: ·))
  | insertTail head elm => Function.update a head ((a head).map (· ++ [elm]))
  | insertAfter head listelm elm => Function.update a head ((a head).map (insertedAfter listelm elm))
  | removeHead head => Function.update a head ((a head).map List.tail)

/-- New elements are in no queue, those that are named are in theirs. -/
def Ok (a : H → Option (List E)) : SimpleqOp H E → Prop
  | init _ => True
  | insertHead head elm | insertTail head elm => (a head).isSome ∧ ∀ g xs, a g = some xs → elm ∉ xs
  | insertAfter head listelm elm => (∃ xs, a head = some xs ∧ listelm ∈ xs) ∧ ∀ g xs, a g = some xs → elm ∉ xs
  | removeHead head => ∃ xs, a head = some xs ∧ xs ≠ []

theorem insertedAfter_append {listelm elm : E} : ∀ {ys : List E} (zs : List E), listelm ∉ ys →
    insertedAfter listelm elm (ys ++ listelm :: zs) = ys ++ listelm :: elm :: zs
  | [], zs, _ => if_pos rfl
  | y :: ys, zs, h => by
    have hne : y ≠ listelm := fun hy => h (hy ▸ List.mem_cons_self)
    rw [List.cons_append, insertedAfter, if_neg hne,
      insertedAfter_append zs fun hmem => h (List.mem_cons_of_mem y hmem), List.cons_append]

end SimpleqOp

/-- The memory and the sequences side by side. -/
def simpleqs (H E : Type) [DecidableEq H] [DecidableEq E] :
    Machine (Simpleqs H E × (H → Option (List E))) (SimpleqOp H E) Unit where
  Ok s op := op.Ok s.2
  step s op := (op.run s.1).map fun m => ((m, op.seq s.2), ())

/-- The memory has the queues. -/
def SimpleQueues {H E : Type} (m : Simpleqs H E) (a : H → Option (List E)) : Prop :=
  ∃ q : Tailqs H E, forget q = m ∧ Queues q a

/-- **A macro** acts on the sequence of its queue. -/
theorem SimpleQueues.step {m : Simpleqs H E} {a : H → Option (List E)} (hm : SimpleQueues m a) {op : SimpleqOp H E}
    (hok : op.Ok a) : ∃ m', op.run m = some m' ∧ SimpleQueues m' (op.seq a) := by
  obtain ⟨q, rfl, hq⟩ := hm
  cases op with
  | init head => exact ⟨_, rfl, _, forget_init q head, hq.init head⟩
  | insertHead head elm =>
    obtain ⟨hsome, hnew⟩ := hok
    obtain ⟨xs, hx⟩ := Option.isSome_iff_exists.1 hsome
    refine ⟨_, rfl, _, forget_insertHead q head elm, ?_⟩
    rw [SimpleqOp.seq, hx]
    exact hq.insertHead hx hnew
  | insertTail head elm =>
    obtain ⟨hsome, hnew⟩ := hok
    obtain ⟨xs, hx⟩ := Option.isSome_iff_exists.1 hsome
    refine ⟨_, rfl, _, forget_insertTail q head elm, ?_⟩
    rw [SimpleqOp.seq, hx]
    exact hq.insertTail hx hnew
  | insertAfter head listelm elm =>
    obtain ⟨⟨xs, hx, hmem⟩, hnew⟩ := hok
    obtain ⟨ys, zs, rfl, hn⟩ := exists_append hmem (hq.tailq hx).chain.nodup
    have hne : listelm ≠ elm := by
      rintro rfl
      exact hnew head _ hx hmem
    refine ⟨_, rfl, _, forget_insertAfter q head hne, ?_⟩
    rw [SimpleqOp.seq, hx, Option.map_some, SimpleqOp.insertedAfter_append zs hn]
    exact hq.insertAfter hx hnew
  | removeHead head =>
    obtain ⟨xs, hx, hne⟩ := hok
    obtain ⟨e, zs, rfl⟩ := List.exists_cons_of_ne_nil hne
    refine ⟨_, forget_remove (hq.tailq hx), _, rfl, ?_⟩
    rw [SimpleqOp.seq, hx]
    exact hq.remove (show a head = some ([] ++ e :: zs) from hx)

theorem SimpleQueues.foreach {H E : Type} {m : Simpleqs H E} {a : H → Option (List E)} (hm : SimpleQueues m a)
    {h : H} {xs : List E}
    (hx : a h = some xs) {fuel : Nat} (hfuel : xs.length < fuel) : simpleqForeach fuel m h = some xs := by
  obtain ⟨q, rfl, hq⟩ := hm
  have hc := (hq.tailq hx).chain
  have hnext : ∀ ys z zs, xs = ys ++ z :: zs → (forget q).cell (.next z) = zs.head? := by
    rintro ys z zs rfl
    exact hc.cell_next
  have hfirst : (forget q).cell (.first h) = xs.head? := hc.cell_first
  rw [simpleqForeach, hfirst]
  exact foreachLoop_ok hnext xs [] rfl hfuel

/-- **Runs** of the macros on any number of queues: none of them reads through NULL, and at the end the loops visit the
sequences, and `sqh_last` is the address of the pointer that a new last element is written to. -/
theorem simpleqs_run {m : Simpleqs H E} {ops : List (SimpleqOp H E)}
    (hops : (simpleqs H E).Admits (m, fun _ => none) ops) :
    ∃ s os, (simpleqs H E).run (m, fun _ => none) ops = some (s, os) ∧ ∀ h xs, s.2 h = some xs →
      (∀ fuel, xs.length < fuel → simpleqForeach fuel s.1 h = some xs) ∧ s.1.last h = endLink (.first h) xs ∧
        s.1.cell (s.1.last h) = none := by
  have hstart : SimpleQueues m fun _ => none :=
    ⟨⟨⟨m.cell, .next⟩, m.last⟩, rfl, fun h => (nomatch h), fun _ h _ => (nomatch h)⟩
  have hstep : ∀ (s : Simpleqs H E × (H → Option (List E))) (op : SimpleqOp H E), SimpleQueues s.1 s.2 →
      (simpleqs H E).Ok s op → ∃ s' o, (simpleqs H E).step s op = some (s', o) ∧ SimpleQueues s'.1 s'.2 := by
    intro s op hs hok
    obtain ⟨m', hm', hq'⟩ := hs.step hok
    exact ⟨(m', op.seq s.2), (), congrArg (Option.map fun m => ((m, op.seq s.2), ())) hm', hq'⟩
  obtain ⟨s, os, hr, hs⟩ := Machine.run_inv hstep ops hstart hops
  refine ⟨s, os, hr, fun h xs hx => ⟨fun fuel hfuel => hs.foreach hx hfuel, ?_⟩⟩
  obtain ⟨q, hq, hqueues⟩ := hs
  have hlast := (hqueues.tailq hx).last
  have hnull := (hqueues.tailq hx).chain.null
  rw [← hq]
  exact ⟨hlast, (congrArg q.cell hlast).trans hnull⟩

theorem simpleqs_run_two : ∃ s os,
    (simpleqs Nat Nat).run (⟨fun _ => none, .first⟩, fun _ => none) [.init 0, .insertTail 0 5, .insertAfter 0 5 6] =
      some (s, os) ∧ ∀ h xs, s.2 h = some xs → (∀ fuel, xs.length < fuel → simpleqForeach fuel s.1 h = some xs) ∧
        s.1.last h = endLink (.first h) xs ∧ s.1.cell (s.1.last h) = none := by
  apply simpleqs_run
  have hnil : ∀ g xs, Function.update (fun _ : Nat => (none : Option (List Nat))) 0 (some []) g = some xs → 5 ∉ xs := by
    intro g xs hx
    by_cases hg : g = 0 <;> simp [hg] at hx
    subst hx
    simp
  have hone : ∀ g xs, SimpleqOp.seq (SimpleqOp.seq (fun _ : Nat => (none : Option (List Nat))) (.init 0))
      (.insertTail 0 5) g = some xs → 6 ∉ xs := by
    intro g xs hx
    by_cases hg : g = 0 <;> simp [SimpleqOp.seq, hg] at hx
    subst hx
    simp
  exact ⟨trivial, ⟨rfl, hnil⟩, ⟨⟨[5], rfl, List.mem_singleton_self 5⟩, hone⟩, trivial⟩

end Librd.Sysqueue
