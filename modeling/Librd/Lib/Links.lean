import Mathlib.Data.List.Nodup
import Mathlib.Logic.Function.Basic

/-!
# Lists linked through pointers to pointers

An element of such a list has a next pointer and a back pointer, and the back pointer holds the address of the pointer
that points to the element: the next pointer of the element before it, or the first pointer of a head (`Link`). The
elements `xs` are in the list of a head (`Links.Chain`) when each of them is what the pointer before it points to and
points back to that pointer, and the last next pointer is NULL.

* `Links.Chain.splice`: a memory that agrees with a list before and after some of its elements and has others in their
  place, linked to both ends;
* `Links.Chain.insertAt`, `Links.Chain.unlink`: the two ways of changing a list that come from it, an element linked in
  at a pointer and an element unlinked.
-/

/-- The address of a pointer: the first pointer of a head or the next pointer of an element. -/
inductive Link (H E : Type*)
  | first (h : H)
  | next (e : E)
  deriving DecidableEq, Repr

/-- What the pointers hold, where `none` is NULL, and the back pointers of the elements. -/
structure Links (H E : Type*) where
  cell : Link H E → Option E
  prev : E → Link H E

namespace Links

variable {H E : Type*}

/-! ## Segments and lists -/

/-- The elements from the pointer at an address on. -/
def Seg (m : Links H E) : Link H E → List E → Prop
  | _, [] => True
  | p, x :: xs => m.cell p = some x ∧ m.prev x = p ∧ m.Seg (.next x) xs

/-- The address of the next pointer of the last element, or where there is none the address that they start at. -/
def endLink : Link H E → List E → Link H E
  | p, [] => p
  | _, x :: xs => endLink (.next x) xs

/-- The list of a head. -/
structure Chain (m : Links H E) (h : H) (xs : List E) : Prop where
  seg : m.Seg (.first h) xs
  null : m.cell (endLink (.first h) xs) = none
  nodup : xs.Nodup

section Decidable

variable [DecidableEq H] [DecidableEq E]

instance Seg.decidable (m : Links H E) : ∀ (p : Link H E) (xs : List E), Decidable (m.Seg p xs)
  | _, [] => .isTrue trivial
  | p, x :: xs =>
    have := Seg.decidable m (.next x) xs
    inferInstanceAs (Decidable (m.cell p = some x ∧ m.prev x = p ∧ m.Seg (.next x) xs))

instance (m : Links H E) (h : H) (xs : List E) : Decidable (m.Chain h xs) :=
  decidable_of_iff (m.Seg (.first h) xs ∧ m.cell (endLink (.first h) xs) = none ∧ xs.Nodup)
    ⟨fun ⟨h1, h2, h3⟩ => ⟨h1, h2, h3⟩, fun ⟨h1, h2, h3⟩ => ⟨h1, h2, h3⟩⟩

end Decidable

@[simp] theorem endLink_nil (p : Link H E) : endLink p [] = p := rfl

@[simp] theorem endLink_cons (p : Link H E) (x : E) (xs : List E) : endLink p (x :: xs) = endLink (.next x) xs := rfl

@[simp] theorem endLink_append : ∀ (p : Link H E) (xs ys : List E), endLink p (xs ++ ys) = endLink (endLink p xs) ys
  | _, [], _ => rfl
  | _, x :: xs, ys => endLink_append (.next x) xs ys

theorem endLink_mem : ∀ (p : Link H E) (xs : List E), xs = [] ∨ ∃ x ∈ xs, endLink p xs = .next x
  | _, [] => .inl rfl
  | _, x :: xs => by
    rcases endLink_mem (.next x) xs with rfl | ⟨y, hy, he⟩
    · exact .inr ⟨x, List.mem_cons_self, rfl⟩
    · exact .inr ⟨y, List.mem_cons_of_mem x hy, he⟩

/-- The end with an element linked in. -/
theorem endLink_insert (p : Link H E) (ys : List E) (e : E) (zs : List E) :
    endLink p (ys ++ e :: zs) = if zs.head? = none then .next e else endLink p (ys ++ zs) := by
  cases zs <;> simp

/-- The end with an element taken out. -/
theorem endLink_remove (p : Link H E) (ys : List E) (e : E) (zs : List E) :
    endLink p (ys ++ zs) = if zs.head? = none then endLink p ys else endLink p (ys ++ e :: zs) := by
  cases zs <;> simp

/-- The end of elements of a list is not the next pointer of another one. -/
theorem endLink_ne {h : H} {e : E} {xs : List E} (he : e ∉ xs) : endLink (.first h) xs ≠ .next e := by
  rcases endLink_mem (.first h) xs with rfl | ⟨x, hx, hend⟩
  · simp
  · rw [hend]
    rintro ⟨⟩
    exact he hx

theorem seg_append {m : Links H E} : ∀ {p : Link H E} {xs ys : List E},
    m.Seg p (xs ++ ys) ↔ m.Seg p xs ∧ m.Seg (endLink p xs) ys
  | _, [], _ => (and_iff_right trivial).symm
  | _, _ :: _, _ => by simp only [List.cons_append, Seg, seg_append, endLink_cons, and_assoc]

/-- Elements in a memory that agrees with another one up to the end of them, which may have changed. -/
theorem Seg.congr_before {m m' : Links H E} : ∀ {p : Link H E} {xs : List E}, m.Seg p xs → xs.Nodup →
    (∀ x ∈ xs, p ≠ .next x) →
    (∀ q, q ≠ endLink p xs → (q = p ∨ ∃ x ∈ xs, q = .next x) → m'.cell q = m.cell q) →
    (∀ x ∈ xs, m'.prev x = m.prev x) → m'.Seg p xs
  | _, [], _, _, _, _, _ => trivial
  | p, x :: xs, ⟨h1, h2, h3⟩, hn, hp, hcell, hprev => by
    obtain ⟨hx, hn⟩ := List.nodup_cons.1 hn
    have hne : p ≠ endLink p (x :: xs) := by
      rcases endLink_mem p (x :: xs) with hnil | ⟨y, hy, he⟩
      · cases hnil
      · rw [he]
        exact hp y hy
    refine ⟨?_, ?_, h3.congr_before hn ?_ ?_ ?_⟩
    · rw [hcell p hne (.inl rfl), h1]
    · rw [hprev x List.mem_cons_self, h2]
    · rintro y hy ⟨⟩
      exact hx hy
    · rintro q hq (rfl | ⟨y, hy, rfl⟩)
      · exact hcell _ hq (.inr ⟨x, List.mem_cons_self, rfl⟩)
      · exact hcell _ hq (.inr ⟨y, List.mem_cons_of_mem x hy, rfl⟩)
    · exact fun y hy => hprev y (List.mem_cons_of_mem x hy)

/-- Elements in a memory that agrees with another one. -/
theorem Seg.congr {m m' : Links H E} : ∀ {p : Link H E} {xs : List E}, m.Seg p xs → m'.cell p = m.cell p →
    (∀ x ∈ xs, m'.cell (.next x) = m.cell (.next x)) → (∀ x ∈ xs, m'.prev x = m.prev x) → m'.Seg p xs
  | _, [], _, _, _, _ => trivial
  | p, x :: xs, ⟨h1, h2, h3⟩, hp, hcell, hprev => by
    obtain ⟨hx, hcell⟩ := List.forall_mem_cons.1 hcell
    obtain ⟨hx', hprev⟩ := List.forall_mem_cons.1 hprev
    exact ⟨by rw [hp, h1], by rw [hx', h2], h3.congr hx hcell hprev⟩

theorem mem_append_of_tail {ys zs : List E} {x : E} (hx : x ∈ ys ++ zs.tail) : x ∈ ys ++ zs :=
  List.mem_append.2 ((List.mem_append.1 hx).imp_right List.mem_of_mem_tail)

theorem head?_ne_of_nodup {ys zs : List E} {x : E} (hn : (ys ++ zs).Nodup) (hx : x ∈ ys ++ zs.tail) :
    zs.head? ≠ some x := by
  cases zs with
  | nil => simp
  | cons z zs =>
    rw [List.head?_cons, ne_eq, Option.some.injEq]
    rintro rfl
    exact (List.nodup_cons.1 (List.nodup_middle.1 hn)).1 hx

section Chain

variable {m m' : Links H E} {h : H} {ys xs zs : List E} {z : E}

theorem chain_nil : m.Chain h [] ↔ m.cell (.first h) = none :=
  ⟨fun hc => hc.null, fun hnull => ⟨trivial, hnull, List.nodup_nil⟩⟩

/-- What the pointer before the elements `zs` points to. -/
theorem Chain.cell_endLink (hc : m.Chain h (ys ++ zs)) : m.cell (endLink (.first h) ys) = zs.head? := by
  obtain ⟨-, hseg⟩ := seg_append.1 hc.seg
  cases zs with
  | nil => simpa using hc.null
  | cons z zs => exact hseg.1

theorem Chain.cell_first (hc : m.Chain h xs) : m.cell (.first h) = xs.head? :=
  (show m.Chain h ([] ++ xs) from hc).cell_endLink

theorem Chain.cell_next (hc : m.Chain h (ys ++ z :: zs)) : m.cell (.next z) = zs.head? := by
  have hc' : m.Chain h ((ys ++ [z]) ++ zs) := by simpa using hc
  simpa using hc'.cell_endLink

theorem Chain.next_ne (hc : m.Chain h (ys ++ z :: zs)) : m.cell (.next z) ≠ some z := by
  have hnotin := (List.nodup_cons.1 (List.nodup_middle.1 hc.nodup)).1
  rw [hc.cell_next]
  exact fun hz => hnotin (List.mem_append_right ys (List.mem_of_mem_head? hz))

theorem Chain.prev_eq (hc : m.Chain h (ys ++ z :: zs)) : m.prev z = endLink (.first h) ys :=
  (seg_append.1 hc.seg).2.2.1

/-- **Other elements in the place of some.** -/
theorem Chain.splice {ws : List E} (hc : m.Chain h (ys ++ xs ++ zs)) (hn : (ys ++ ws ++ zs).Nodup)
    (hws : m'.Seg (endLink (.first h) ys) ws) (hend : m'.cell (endLink (.first h) (ys ++ ws)) = zs.head?)
    (hback : ∀ z ∈ zs.head?, m'.prev z = endLink (.first h) (ys ++ ws))
    (hcell : ∀ q, q ≠ endLink (.first h) ys → (q = .first h ∨ ∃ x ∈ ys ++ zs, q = .next x) → m'.cell q = m.cell q)
    (hprev : ∀ x ∈ ys ++ zs.tail, m'.prev x = m.prev x) : m'.Chain h (ys ++ ws ++ zs) := by
  obtain ⟨hseg, hzs⟩ := seg_append.1 hc.seg
  obtain ⟨hys, -⟩ := seg_append.1 hseg
  obtain ⟨hnys, hnzs, hdisj⟩ := List.nodup_append.1 hn
  -- the pointers of the elements after those in the middle are not the one that was changed
  have hafter : ∀ x ∈ zs, m'.cell (.next x) = m.cell (.next x) := by
    intro x hx
    have hy : x ∉ ys := fun hmem => hdisj x (List.mem_append_left ws hmem) x hx rfl
    exact hcell _ (endLink_ne hy).symm (.inr ⟨x, List.mem_append_right ys hx, rfl⟩)
  have hbefore : m'.Seg (.first h) ys := by
    refine hys.congr_before (List.nodup_append.1 hnys).1 (fun _ _ => by simp) ?_ ?_
    · rintro q hq (rfl | ⟨x, hx, rfl⟩)
      · exact hcell _ hq (.inl rfl)
      · exact hcell _ hq (.inr ⟨x, List.mem_append_left zs hx, rfl⟩)
    · exact fun x hx => hprev x (List.mem_append_left _ hx)
  refine ⟨seg_append.2 ⟨seg_append.2 ⟨hbefore, hws⟩, ?_⟩, ?_, hn⟩
  · cases zs with
    | nil => trivial
    | cons z zs =>
      obtain ⟨-, -, hrest⟩ := hzs
      refine ⟨hend, hback z rfl, hrest.congr (hafter z List.mem_cons_self) ?_ ?_⟩
      · exact fun x hx => hafter x (List.mem_cons_of_mem z hx)
      · exact fun x hx => hprev x (List.mem_append_right ys hx)
  · rw [endLink_append]
    cases zs with
    | nil => exact hend
    | cons z zs =>
      have hnull := hc.null
      rw [endLink_append, endLink_cons] at hnull
      rw [endLink_cons]
      rcases endLink_mem (.next z) zs with rfl | ⟨x, hx, he⟩
      · rw [endLink_nil] at hnull ⊢
        rw [hafter z List.mem_cons_self, hnull]
      · rw [he] at hnull ⊢
        rw [hafter x (List.mem_cons_of_mem z hx), hnull]

end Chain

/-! ## Stores -/

section BackPointers

variable [DecidableEq E]

/-- A store to a back pointer. -/
def setPrev (m : Links H E) (e : E) (p : Link H E) : Links H E := { m with prev := Function.update m.prev e p }

/-- A store to the back pointer of the element that a pointer points to, if there is one. -/
def setPrevOf (m : Links H E) : Option E → Link H E → Links H E
  | none, _ => m
  | some x, p => m.setPrev x p

variable (m : Links H E) (p : Link H E) (v : Option E) (e x : E)

@[simp] theorem cell_setPrev : (m.setPrev e p).cell = m.cell := rfl

@[simp] theorem prev_setPrev : (m.setPrev e p).prev x = if x = e then p else m.prev x := Function.update_apply ..

@[simp] theorem cell_setPrevOf : (m.setPrevOf v p).cell = m.cell := by cases v <;> rfl

@[simp] theorem prev_setPrevOf : (m.setPrevOf v p).prev x = if v = some x then p else m.prev x := by
  cases v with
  | none => simp [setPrevOf]
  | some y => simp [setPrevOf, eq_comm]

end BackPointers

section Stores

variable [DecidableEq H] [DecidableEq E]

/-- A store through the address of a pointer. -/
def store (m : Links H E) (p : Link H E) (v : Option E) : Links H E := { m with cell := Function.update m.cell p v }

@[simp] theorem cell_store (m : Links H E) (p q : Link H E) (v : Option E) :
    (m.store p v).cell q = if q = p then v else m.cell q := Function.update_apply ..

@[simp] theorem prev_store (m : Links H E) (p : Link H E) (v : Option E) : (m.store p v).prev = m.prev := rfl

/-- The element `e` linked in at the pointer with the address `p`. -/
def insertAt (m : Links H E) (p : Link H E) (e : E) : Links H E :=
  (((m.store (.next e) (m.cell p)).setPrevOf (m.cell p) (.next e)).store p (some e)).setPrev e p

/-- The element `e` taken out of its list. -/
def unlink (m : Links H E) (e : E) : Links H E :=
  (m.setPrevOf (m.cell (.next e)) (m.prev e)).store (m.prev e) (m.cell (.next e))

variable {m : Links H E} {h : H} {e : E} {ys zs : List E}

/-- **Linking in.** -/
theorem Chain.insertAt (hc : m.Chain h (ys ++ zs)) (he : e ∉ ys ++ zs) :
    (m.insertAt (endLink (.first h) ys) e).Chain h (ys ++ e :: zs) := by
  have hp := hc.cell_endLink
  have hne := endLink_ne (h := h) fun hmem => he (List.mem_append_left zs hmem)
  have hc' : m.Chain h (ys ++ [] ++ zs) := by simpa using hc
  have hn : (ys ++ [e] ++ zs).Nodup := by
    rw [List.append_assoc]
    exact List.nodup_middle.2 (List.nodup_cons.2 ⟨he, hc.nodup⟩)
  have hmem : ∀ x ∈ ys ++ zs, x ≠ e := by
    rintro x hx rfl
    exact he hx
  have hout : (m.insertAt (endLink (.first h) ys) e).Chain h (ys ++ [e] ++ zs) := by
    apply hc'.splice hn
    · simp [Links.insertAt, Seg]
    · simp [Links.insertAt, hne.symm, hp]
    · intro z hz
      have hze := hmem z (List.mem_append_right ys (List.mem_of_mem_head? hz))
      simp [Links.insertAt, hze, hp, Option.mem_def.1 hz]
    · rintro q hq (rfl | ⟨x, hx, rfl⟩)
      · simp [Links.insertAt, hq]
      · simp [Links.insertAt, hq, hmem x hx]
    · intro x hx
      have hxe := hmem x (mem_append_of_tail hx)
      simp [Links.insertAt, hxe, hp, head?_ne_of_nodup hc.nodup hx]
  simpa using hout

/-- **Taking out.** -/
theorem Chain.unlink (hc : m.Chain h (ys ++ e :: zs)) : (m.unlink e).Chain h (ys ++ zs) := by
  have hnext := hc.cell_next
  have hprev := hc.prev_eq
  have hc' : m.Chain h (ys ++ [e] ++ zs) := by simpa using hc
  obtain ⟨he, hn⟩ := List.nodup_cons.1 (List.nodup_middle.1 hc.nodup)
  have hout : (m.unlink e).Chain h (ys ++ [] ++ zs) := by
    apply hc'.splice
    · simpa using hn
    · trivial
    · simp [Links.unlink, hprev, hnext]
    · intro z hz
      simp [Links.unlink, hprev, hnext, Option.mem_def.1 hz]
    · intro q hq _
      simp [Links.unlink, hprev, hq]
    · intro x hx
      simp [Links.unlink, hnext, head?_ne_of_nodup hn hx]
  simpa using hout

end Stores

end Links
