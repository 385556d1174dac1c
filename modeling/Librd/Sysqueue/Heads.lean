import Librd.Sysqueue.Sysqueue

/-!
# Several tail queues in one memory

`Only m m' h xs` says that `m'` differs from `m` in the head `h` and in the links of the elements `xs` at most. Every
macro changes the queue that it works on and its new element only, so that other queues without these elements are as
they were (`Only.tailq`). So a memory keeps its queues (`Queues`) over operations on any of them.
-/

namespace Librd.Sysqueue

open Links

variable {H E : Type} [DecidableEq H] [DecidableEq E]

/-! ## Frames -/

/-- A change of the head `h` and the links of `xs`. -/
structure Only (m m' : Tailqs H E) (h : H) (xs : List E) : Prop where
  cell : ∀ q, q ≠ .first h → (∀ x ∈ xs, q ≠ .next x) → m'.cell q = m.cell q
  prev : ∀ x, x ∉ xs → m'.prev x = m.prev x
  last : ∀ g, g ≠ h → m'.last g = m.last g

section Frames

variable {H E : Type} {m m' : Tailqs H E} {g h : H} {e : E} {xs ys zs : List E}

/-- **Other queues** are as they were. -/
theorem Only.tailq (ho : Only m m' h xs) (hq : Tailq m g ys) (hg : g ≠ h) (hxs : ∀ y ∈ ys, y ∉ xs) : Tailq m' g ys := by
  have hfirst : m'.cell (.first g) = m.cell (.first g) := by
    apply ho.cell
    · simpa using hg
    · simp
  have hnext : ∀ y ∈ ys, m'.cell (.next y) = m.cell (.next y) := by
    intro y hy
    apply ho.cell
    · simp
    · rintro x hx ⟨⟩
      exact hxs y hy hx
  constructor
  · refine ⟨hq.chain.seg.congr hfirst hnext fun y hy => ho.prev y (hxs y hy), ?_, hq.chain.nodup⟩
    rw [← hq.chain.null]
    rcases endLink_mem (.first g) ys with rfl | ⟨y, hy, hend⟩
    · exact hfirst
    · rw [hend]
      exact hnext y hy
  · rw [ho.last g hg, hq.last]

theorem Only.mono (ho : Only m m' h xs) (hsub : ∀ x ∈ xs, x ∈ ys) : Only m m' h ys where
  cell q hq hne := ho.cell q hq fun x hx => hne x (hsub x hx)
  prev x hx := ho.prev x fun hmem => hx (hsub x hmem)
  last := ho.last

theorem endLink_first_or_next (h : H) (xs : List E) : endLink (.first h) xs = .first h ∨
    ∃ x ∈ xs, endLink (.first h) xs = .next x := by
  rcases endLink_mem (.first h) xs with rfl | hmem
  · exact .inl rfl
  · exact .inr hmem

theorem ne_endLink {q : Link H E} (hq : q ≠ .first h) (hne : ∀ x ∈ xs, q ≠ .next x) : q ≠ endLink (.first h) xs := by
  rcases endLink_first_or_next h xs with hend | ⟨x, hx, hend⟩
  · rw [hend]
    exact hq
  · rw [hend]
    exact hne x hx

end Frames

section Macros

variable {m : Tailqs H E} {g h : H} {e z : E} {xs ys zs : List E}

theorem last_setPrevOrLast_ne (v : Option E) (p : Link H E) (hg : g ≠ h) :
    (m.setPrevOrLast h v p).last g = m.last g := by
  cases v with
  | none => exact Function.update_of_ne hg _ _
  | some x => rfl

theorem only_init (m : Tailqs H E) (h : H) : Only m (tailqInit m h) h [] where
  cell q hq _ := by simp [tailqInit, Tailqs.setLast, Tailqs.store, hq]
  prev _ _ := rfl
  last g hg := Function.update_of_ne hg _ _

theorem Tailq.only_insertHead (hq : Tailq m h xs) (e : E) : Only m (tailqInsertHead m h e) h (e :: xs) where
  cell q hqh hne := by
    simp [tailqInsertHead, Tailqs.store, Tailqs.setPrev, hqh, hne e List.mem_cons_self]
  prev x hx := by
    have hxe : x ≠ e := fun he => hx (he ▸ List.mem_cons_self)
    have hhead : xs.head? ≠ some x := fun hmem => hx (List.mem_cons_of_mem e (List.mem_of_mem_head? hmem))
    simp [tailqInsertHead, Tailqs.store, Tailqs.setPrev, hxe, hq.chain.cell_first, hhead]
  last g hg := by
    simp only [tailqInsertHead, Tailqs.store, Tailqs.setPrev]
    rw [last_setPrevOrLast_ne _ _ hg]

theorem Tailq.only_insertTail (hq : Tailq m h xs) (e : E) : Only m (tailqInsertTail m h e) h (e :: xs) where
  cell q hqh hne := by
    have hend : q ≠ endLink (.first h) xs := ne_endLink hqh fun x hx => hne x (List.mem_cons_of_mem e hx)
    simp [tailqInsertTail, Tailqs.store, Tailqs.setPrev, Tailqs.setLast, hq.last, hend, hne e List.mem_cons_self]
  prev x hx := by
    have hxe : x ≠ e := fun he => hx (he ▸ List.mem_cons_self)
    simp [tailqInsertTail, Tailqs.store, Tailqs.setPrev, Tailqs.setLast, hxe]
  last g hg := Function.update_of_ne hg _ _

theorem Tailq.only_insertAfter (hq : Tailq m h (ys ++ z :: zs)) (e : E) :
    Only m (tailqInsertAfter m h z e) h (e :: (ys ++ z :: zs)) where
  cell q hqh hnot := by
    have hqz : q ≠ .next z := hnot z (List.mem_cons_of_mem e (List.mem_append_right ys List.mem_cons_self))
    simp [tailqInsertAfter, Tailqs.store, Tailqs.setPrev, hqz, hnot e List.mem_cons_self]
  prev x hx := by
    have hxe : x ≠ e := fun he => hx (he ▸ List.mem_cons_self)
    have hhead : zs.head? ≠ some x := by
      intro hmem
      apply hx
      exact List.mem_cons_of_mem e (List.mem_append_right ys (List.mem_cons_of_mem z (List.mem_of_mem_head? hmem)))
    simp [tailqInsertAfter, Tailqs.store, Tailqs.setPrev, hxe, hq.chain.cell_next, hhead]
  last g hg := by
    simp only [tailqInsertAfter, Tailqs.store, Tailqs.setPrev]
    rw [last_setPrevOrLast_ne _ _ hg]

theorem Tailq.only_remove (hq : Tailq m h (ys ++ e :: zs)) : Only m (tailqRemove m h e) h (ys ++ zs) where
  cell q hqh hne := by
    have hend : q ≠ endLink (.first h) ys := ne_endLink hqh fun x hx => hne x (List.mem_append_left zs hx)
    simp [tailqRemove, Tailqs.store, hq.chain.prev_eq, hend]
  prev x hx := by
    have hhead : zs.head? ≠ some x := fun hmem => hx (List.mem_append_right ys (List.mem_of_mem_head? hmem))
    simp [tailqRemove, Tailqs.store, hq.chain.cell_next, hhead]
  last g hg := by
    simp only [tailqRemove, Tailqs.store]
    rw [last_setPrevOrLast_ne _ _ hg]

end Macros

/-! ## Queues -/

/-- Queues at the heads where there are any, without common elements. -/
structure Queues (m : Tailqs H E) (seq : H → Option (List E)) : Prop where
  tailq : ∀ {h xs}, seq h = some xs → Tailq m h xs
  apart : ∀ {g h xs ys}, g ≠ h → seq g = some xs → seq h = some ys → ∀ x ∈ xs, x ∉ ys

namespace Queues

section Change

variable {H E : Type} [DecidableEq H] {m m' : Tailqs H E} {seq : H → Option (List E)} {h : H} {ys zs : List E}

/-- **A change of one queue.** -/
theorem change (hm : Queues m seq) (ho : Only m m' h ys) (hq : Tailq m' h zs)
    (hys : ∀ g xs, g ≠ h → seq g = some xs → ∀ x ∈ xs, x ∉ ys) (hsub : ∀ z ∈ zs, z ∈ ys) :
    Queues m' (Function.update seq h (some zs)) where
  tailq {g xs} hg := by
    by_cases hgh : g = h
    · subst hgh
      rw [Function.update_self, Option.some_inj] at hg
      exact hg ▸ hq
    · rw [Function.update_of_ne hgh] at hg
      exact ho.tailq (hm.tailq hg) hgh (hys g xs hgh hg)
  apart {g h' xs xs'} hne hg hh' x hx hx' := by
    by_cases hgh : g = h
    · subst hgh
      rw [Function.update_self, Option.some_inj] at hg
      rw [Function.update_of_ne hne.symm] at hh'
      exact hys h' xs' hne.symm hh' x hx' (hsub x (hg ▸ hx))
    · rw [Function.update_of_ne hgh] at hg
      by_cases hh : h' = h
      · subst hh
        rw [Function.update_self, Option.some_inj] at hh'
        exact hys g xs hgh hg x hx (hsub x (hh' ▸ hx'))
      · rw [Function.update_of_ne hh] at hh'
        exact hm.apart hne hg hh' x hx hx'

theorem forget (hm : Queues m seq) (h : H) : Queues m (Function.update seq h none) where
  tailq {g xs} hg := by
    by_cases hgh : g = h
    · rw [hgh, Function.update_self] at hg
      cases hg
    · rw [Function.update_of_ne hgh] at hg
      exact hm.tailq hg
  apart {g h' xs ys} hne hg hh' := by
    by_cases hgh : g = h
    · rw [hgh, Function.update_self] at hg
      cases hg
    by_cases hh : h' = h
    · rw [hh, Function.update_self] at hh'
      cases hh'
    rw [Function.update_of_ne hgh] at hg
    rw [Function.update_of_ne hh] at hh'
    exact hm.apart hne hg hh'

end Change

section Macros

variable {m : Tailqs H E} {seq : H → Option (List E)} {h : H} {e z : E} {xs ys zs : List E}

theorem init (hm : Queues m seq) (h : H) : Queues (tailqInit m h) (Function.update seq h (some [])) :=
  hm.change (only_init m h) (tailqInit_ok m h) (by simp) (by simp)

theorem insertHead (hm : Queues m seq) (hh : seq h = some xs) (he : ∀ g ys, seq g = some ys → e ∉ ys) :
    Queues (tailqInsertHead m h e) (Function.update seq h (some (e :: xs))) := by
  apply hm.change ((hm.tailq hh).only_insertHead e) ((hm.tailq hh).insertHead (he h xs hh))
  · intro g ys hg hseq y hy hmem
    rcases List.mem_cons.1 hmem with rfl | hmem
    · exact he g ys hseq hy
    · exact hm.apart hg hseq hh y hy hmem
  · exact fun z hz => hz

theorem insertTail (hm : Queues m seq) (hh : seq h = some xs) (he : ∀ g ys, seq g = some ys → e ∉ ys) :
    Queues (tailqInsertTail m h e) (Function.update seq h (some (xs ++ [e]))) := by
  apply hm.change ((hm.tailq hh).only_insertTail e) ((hm.tailq hh).insertTail (he h xs hh))
  · intro g ys hg hseq y hy hmem
    rcases List.mem_cons.1 hmem with rfl | hmem
    · exact he g ys hseq hy
    · exact hm.apart hg hseq hh y hy hmem
  · intro z hz
    rw [List.mem_append, List.mem_singleton] at hz
    exact List.mem_cons.2 hz.symm

theorem insertAfter (hm : Queues m seq) (hh : seq h = some (ys ++ z :: zs)) (he : ∀ g ys, seq g = some ys → e ∉ ys) :
    Queues (tailqInsertAfter m h z e) (Function.update seq h (some (ys ++ z :: e :: zs))) := by
  apply hm.change ((hm.tailq hh).only_insertAfter e) ((hm.tailq hh).insertAfter (he h _ hh))
  · intro g xs hg hseq x hx hmem
    rcases List.mem_cons.1 hmem with rfl | hmem
    · exact he g xs hseq hx
    · exact hm.apart hg hseq hh x hx hmem
  · intro x hx
    simp only [List.mem_append, List.mem_cons] at hx ⊢
    tauto

theorem remove (hm : Queues m seq) (hh : seq h = some (ys ++ e :: zs)) :
    Queues (tailqRemove m h e) (Function.update seq h (some (ys ++ zs))) := by
  apply hm.change (hm.tailq hh).only_remove (hm.tailq hh).remove
  · intro g xs hg hseq x hx hmem
    apply hm.apart hg hseq hh x hx
    rw [List.mem_append, List.mem_cons]
    exact (List.mem_append.1 hmem).imp_right .inr
  · exact fun z hz => hz

end Macros

end Queues

end Librd.Sysqueue
