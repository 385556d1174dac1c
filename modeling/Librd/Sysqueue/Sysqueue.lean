import Librd.Lib.Links

/-!
# Lists and tail queues (`rdsysqueue.h`)

The LIST and TAILQ macros of `rdsysqueue.h` on pointers, with those of `<sys/queue.h>` that they build on. The
elements of a LIST hold `le_next` and `le_prev`, its head `lh_first`; a TAILQ has in its head also `tqh_last`, the
address of its last next pointer. A queue is well formed when its elements are a list of the head and `tqh_last` is
that address (`Tailq`).

Each macro is one of the two changes of `Links`: an element linked in at a pointer, or an element unlinked. So it
keeps the list well formed and changes the sequence as its name says (`chain_insertHead` and so on,
`Tailq.insertHead` and so on).
-/

namespace Librd.Sysqueue

open Links

variable {H E : Type} [DecidableEq H] [DecidableEq E]

/-! ## LIST -/

/-- `LIST_INIT`. -/
def listInit (m : Links H E) (head : H) : Links H E := m.store (.first head) none

/-- `LIST_INSERT_HEAD`. -/
def listInsertHead (m : Links H E) (head : H) (elm : E) : Links H E :=
  let m := m.store (.next elm) (m.cell (.first head))
  let m := m.setPrevOf (m.cell (.first head)) (.next elm)
  let m := m.store (.first head) (some elm)
  m.setPrev elm (.first head)

/-- `LIST_INSERT_BEFORE`. -/
def listInsertBefore (m : Links H E) (listelm elm : E) : Links H E :=
  let m := m.setPrev elm (m.prev listelm)
  let m := m.store (.next elm) (some listelm)
  let m := m.store (m.prev listelm) (some elm)
  m.setPrev listelm (.next elm)

/-- `LIST_INSERT_AFTER`. -/
def listInsertAfter (m : Links H E) (listelm elm : E) : Links H E :=
  let m := m.store (.next elm) (m.cell (.next listelm))
  let m := m.setPrevOf (m.cell (.next listelm)) (.next elm)
  let m := m.store (.next listelm) (some elm)
  m.setPrev elm (.next listelm)

/-- `LIST_REMOVE`. -/
def listRemove (m : Links H E) (elm : E) : Links H E :=
  let m := m.setPrevOf (m.cell (.next elm)) (m.prev elm)
  m.store (m.prev elm) (m.cell (.next elm))

/-- `LIST_MOVE`. -/
def listMove (m : Links H E) (head1 head2 : H) : Links H E :=
  let m := listInit m head2
  if m.cell (.first head1) ≠ none then
    let m := m.store (.first head2) (m.cell (.first head1))
    listInit m head1
  else m

section List

variable {m : Links H E} {h : H} {e z : E} {ys zs : List E}

theorem chain_insertHead {xs : List E} (hc : m.Chain h xs) (he : e ∉ xs) :
    (listInsertHead m h e).Chain h (e :: xs) := by
  have heq : listInsertHead m h e = m.insertAt (.first h) e := by simp [listInsertHead, Links.insertAt]
  rw [heq]
  exact (show m.Chain h ([] ++ xs) from hc).insertAt he

theorem listInsertBefore_eq (hz : m.cell (m.prev z) = some z) (hne : z ≠ e) :
    listInsertBefore m z e = m.insertAt (m.prev z) e := by
  have hprev : (m.setPrev e (m.prev z)).prev z = m.prev z := by simp [hne]
  simp only [listInsertBefore, Links.insertAt, prev_store, hprev, hz, setPrevOf]
  simp only [setPrev, store, Function.update_comm hne.symm]

theorem chain_insertBefore (hc : m.Chain h (ys ++ z :: zs)) (he : e ∉ ys ++ z :: zs) :
    (listInsertBefore m z e).Chain h (ys ++ e :: z :: zs) := by
  have hz : m.cell (m.prev z) = some z := by rw [hc.prev_eq, hc.cell_endLink, List.head?_cons]
  have hne : z ≠ e := by
    rintro rfl
    exact he (List.mem_append_right ys List.mem_cons_self)
  rw [listInsertBefore_eq hz hne, hc.prev_eq]
  exact hc.insertAt he

theorem chain_insertAfter (hc : m.Chain h (ys ++ z :: zs)) (he : e ∉ ys ++ z :: zs) :
    (listInsertAfter m z e).Chain h (ys ++ z :: e :: zs) := by
  have hne : z ≠ e := by
    rintro rfl
    exact he (List.mem_append_right ys List.mem_cons_self)
  have heq : listInsertAfter m z e = m.insertAt (.next z) e := by simp [listInsertAfter, Links.insertAt, hne]
  rw [List.append_cons] at hc he
  have hout := hc.insertAt he
  rw [endLink_append, endLink_cons, endLink_nil, ← heq] at hout
  simpa using hout

theorem listRemove_eq (hne : m.cell (.next e) ≠ some e) : listRemove m e = m.unlink e := by
  simp [listRemove, Links.unlink, hne]

theorem chain_remove (hc : m.Chain h (ys ++ e :: zs)) : (listRemove m e).Chain h (ys ++ zs) := by
  rw [listRemove_eq hc.next_ne]
  exact hc.unlink

end List

/-! ## TAILQ -/

/-- Pointers with the `tqh_last` of the heads. -/
structure Tailqs (H E : Type) extends Links H E where
  last : H → Link H E

namespace Tailqs

/-- A store through the address of a pointer. -/
def store (m : Tailqs H E) (p : Link H E) (v : Option E) : Tailqs H E := { m with toLinks := m.toLinks.store p v }

/-- A store to a `tqe_prev`. -/
def setPrev (m : Tailqs H E) (e : E) (p : Link H E) : Tailqs H E := { m with toLinks := m.toLinks.setPrev e p }

/-- A store to a `tqh_last`. -/
def setLast (m : Tailqs H E) (h : H) (p : Link H E) : Tailqs H E := { m with last := Function.update m.last h p }

/-- A store to the `tqe_prev` of the element that a pointer points to, or if there is none to the `tqh_last` of the
head. -/
def setPrevOrLast (m : Tailqs H E) (head : H) : Option E → Link H E → Tailqs H E
  | some x, p => m.setPrev x p
  | none, p => m.setLast head p

end Tailqs

/-- `TAILQ_INIT`. -/
def tailqInit (m : Tailqs H E) (head : H) : Tailqs H E :=
  let m := m.store (.first head) none
  m.setLast head (.first head)

/-- `TAILQ_INSERT_HEAD`. -/
def tailqInsertHead (m : Tailqs H E) (head : H) (elm : E) : Tailqs H E :=
  let m := m.store (.next elm) (m.cell (.first head))
  let m := m.setPrevOrLast head (m.cell (.first head)) (.next elm)
  let m := m.store (.first head) (some elm)
  m.setPrev elm (.first head)

/-- `TAILQ_INSERT_TAIL`. -/
def tailqInsertTail (m : Tailqs H E) (head : H) (elm : E) : Tailqs H E :=
  let m := m.store (.next elm) none
  let m := m.setPrev elm (m.last head)
  let m := m.store (m.last head) (some elm)
  m.setLast head (.next elm)

/-- `TAILQ_INSERT_BEFORE`. -/
def tailqInsertBefore (m : Tailqs H E) (listelm elm : E) : Tailqs H E :=
  let m := m.setPrev elm (m.prev listelm)
  let m := m.store (.next elm) (some listelm)
  let m := m.store (m.prev listelm) (some elm)
  m.setPrev listelm (.next elm)

/-- `TAILQ_INSERT_AFTER`. -/
def tailqInsertAfter (m : Tailqs H E) (head : H) (listelm elm : E) : Tailqs H E :=
  let m := m.store (.next elm) (m.cell (.next listelm))
  let m := m.setPrevOrLast head (m.cell (.next listelm)) (.next elm)
  let m := m.store (.next listelm) (some elm)
  m.setPrev elm (.next listelm)

/-- `TAILQ_REMOVE`. -/
def tailqRemove (m : Tailqs H E) (head : H) (elm : E) : Tailqs H E :=
  let m := m.setPrevOrLast head (m.cell (.next elm)) (m.prev elm)
  m.store (m.prev elm) (m.cell (.next elm))

/-- `TAILQ_MOVE`. -/
def tailqMove (m : Tailqs H E) (newhead oldhead : H) : Tailqs H E :=
  let m := match m.cell (.first oldhead) with
    | some x => m.setPrev x (.first newhead)
    | none => m
  let m := m.store (.first newhead) (m.cell (.first oldhead))
  m.setLast newhead (m.last oldhead)

/-- The word behind a first or next pointer, which `TAILQ_LAST` and `TAILQ_PREV` read as the `tqh_last` of a head: the
`tqe_prev` of an element stands at the same place. -/
def behind (m : Tailqs H E) : Link H E → Link H E
  | .first h => m.last h
  | .next e => m.prev e

/-- `TAILQ_LAST`. -/
def tailqLast (m : Tailqs H E) (head : H) : Option E := m.cell (behind m (m.last head))

/-- `TAILQ_PREV`. -/
def tailqPrev (m : Tailqs H E) (elm : E) : Option E := m.cell (behind m (m.prev elm))

/-- A well-formed queue. -/
structure Tailq (m : Tailqs H E) (h : H) (xs : List E) : Prop where
  chain : m.Chain h xs
  last : m.last h = endLink (.first h) xs

instance (m : Tailqs H E) (h : H) (xs : List E) : Decidable (Tailq m h xs) :=
  decidable_of_iff (m.Chain h xs ∧ m.last h = endLink (.first h) xs) ⟨fun ⟨h1, h2⟩ => ⟨h1, h2⟩, fun ⟨h1, h2⟩ =>
    ⟨h1, h2⟩⟩

section Tailq

variable {m : Tailqs H E} {h : H} {e z : E} {xs ys zs : List E}

@[simp] theorem toLinks_setPrevOrLast (v : Option E) (p : Link H E) :
    (m.setPrevOrLast h v p).toLinks = m.toLinks.setPrevOf v p := by cases v <;> rfl

@[simp] theorem last_setPrevOrLast (v : Option E) (p : Link H E) :
    (m.setPrevOrLast h v p).last h = if v = none then p else m.last h := by
  cases v <;> simp [Tailqs.setPrevOrLast, Tailqs.setLast, Tailqs.setPrev]

theorem tailqInit_ok (m : Tailqs H E) (h : H) : Tailq (tailqInit m h) h [] := by
  refine ⟨chain_nil.2 ?_, ?_⟩ <;> simp [tailqInit, Tailqs.setLast, Tailqs.store]

theorem Tailq.insertHead (hq : Tailq m h xs) (he : e ∉ xs) : Tailq (tailqInsertHead m h e) h (e :: xs) := by
  have hlinks : (tailqInsertHead m h e).toLinks = listInsertHead m.toLinks h e := by
    simp [tailqInsertHead, listInsertHead, Tailqs.store, Tailqs.setPrev]
  refine ⟨by rw [hlinks]; exact chain_insertHead hq.chain he, ?_⟩
  rw [show e :: xs = [] ++ e :: xs from rfl, endLink_insert, List.nil_append, ← hq.last, ← hq.chain.cell_first]
  simp [tailqInsertHead, Tailqs.store, Tailqs.setPrev]

theorem Tailq.insertTail (hq : Tailq m h xs) (he : e ∉ xs) : Tailq (tailqInsertTail m h e) h (xs ++ [e]) := by
  have hnull : m.cell (m.last h) = none := by rw [hq.last, hq.chain.null]
  have hlinks : (tailqInsertTail m h e).toLinks = m.toLinks.insertAt (endLink (.first h) xs) e := by
    rw [← hq.last]
    simp [tailqInsertTail, Links.insertAt, hnull, setPrevOf, Tailqs.store, Tailqs.setPrev, Tailqs.setLast, Links.store,
      Links.setPrev]
  have hc : m.Chain h (xs ++ []) := by simpa using hq.chain
  refine ⟨by rw [hlinks]; exact hc.insertAt (by simpa using he), ?_⟩
  simp [tailqInsertTail, Tailqs.setLast]

theorem Tailq.insertBefore (hq : Tailq m h (ys ++ z :: zs)) (he : e ∉ ys ++ z :: zs) :
    Tailq (tailqInsertBefore m z e) h (ys ++ e :: z :: zs) := by
  refine ⟨chain_insertBefore hq.chain he, ?_⟩
  rw [endLink_insert, List.head?_cons, if_neg (Option.some_ne_none z), ← hq.last]
  rfl

theorem Tailq.insertAfter (hq : Tailq m h (ys ++ z :: zs)) (he : e ∉ ys ++ z :: zs) :
    Tailq (tailqInsertAfter m h z e) h (ys ++ z :: e :: zs) := by
  have hne : z ≠ e := by
    rintro rfl
    exact he (List.mem_append_right ys List.mem_cons_self)
  have hlinks : (tailqInsertAfter m h z e).toLinks = listInsertAfter m.toLinks z e := by
    simp [tailqInsertAfter, listInsertAfter, Tailqs.store, Tailqs.setPrev]
  refine ⟨by rw [hlinks]; exact chain_insertAfter hq.chain he, ?_⟩
  rw [List.append_cons, endLink_insert, ← List.append_cons, ← hq.last, ← hq.chain.cell_next]
  simp [tailqInsertAfter, Tailqs.store, Tailqs.setPrev, hne]

theorem Tailq.remove (hq : Tailq m h (ys ++ e :: zs)) : Tailq (tailqRemove m h e) h (ys ++ zs) := by
  have hlinks : (tailqRemove m h e).toLinks = listRemove m.toLinks e := by
    simp [tailqRemove, listRemove, Tailqs.store]
  refine ⟨by rw [hlinks]; exact chain_remove hq.chain, ?_⟩
  rw [endLink_remove _ _ e, ← hq.last, ← hq.chain.cell_next, ← hq.chain.prev_eq]
  simp [tailqRemove, Tailqs.store]

end Tailq

section Ends

variable {H E : Type} {m : Tailqs H E} {h : H} {e : E} {xs ys zs : List E}

/-- `TAILQ_LAST` is the last element, and NULL if there is none. -/
theorem tailqLast_eq (hq : Tailq m h xs) : tailqLast m h = xs.getLast? := by
  rw [tailqLast, hq.last]
  rcases List.eq_nil_or_concat xs with rfl | ⟨ys, z, rfl⟩
  · simp only [endLink_nil, behind, hq.last, List.getLast?_nil]
    exact hq.chain.null
  · have hc : m.Chain h (ys ++ z :: []) := by simpa using hq.chain
    simp [behind, hc.prev_eq, hc.cell_endLink]

/-- `TAILQ_PREV` is the element before, and NULL if there is none. -/
theorem tailqPrev_eq (hq : Tailq m h (ys ++ e :: zs)) : tailqPrev m e = ys.getLast? := by
  rw [tailqPrev, hq.chain.prev_eq]
  rcases List.eq_nil_or_concat ys with rfl | ⟨ws, z, rfl⟩
  · -- the word behind the first pointer is `tqh_last`, and the last next pointer is NULL
    simp only [endLink_nil, behind, hq.last, List.getLast?_nil]
    exact hq.chain.null
  · have hc : m.Chain h (ws ++ z :: e :: zs) := by simpa using hq.chain
    simp [behind, hc.prev_eq, hc.cell_endLink]

end Ends

end Librd.Sysqueue
