import Mathlib.Data.List.Permutation
import Mathlib.Probability.Distributions.Uniform

/-!
# The Fisher-Yates shuffle

`shuffle d i l` exchanges the element at each index from `i` down to `1` with the one at an index that is drawn. The
draws for the indexes below `n` are a `Draws n`: one number from `0` to `i` for each `i`.

* `shuffle_perm`: the result is a permutation;
* `draws_eq`: if the elements are distinct, the result tells the draws;
* `shuffle_bijOn`: the draws correspond one to one to the permutations, so that uniform draws give a uniform permutation
  (`uniform_of_bijOn`).
-/

namespace FisherYates

variable {α : Type*}

/-- The list with the elements at `i` and `j` exchanged. -/
def swapAt (l : List α) (i j : Nat) : List α :=
  match l[i]?, l[j]? with
  | some a, some b => (l.set i b).set j a
  | _, _ => l

/-- The shuffle from the index `i` down. -/
def shuffle (d : Nat → Nat) : Nat → List α → List α
  | 0, l => l
  | i + 1, l => shuffle d i (swapAt l (i + 1) (d (i + 1)))

/-! ## Exchanging two elements -/

section Swap

variable {l : List α} {i j : Nat}

theorem swapAt_of_lt (hi : i < l.length) (hj : j < l.length) : swapAt l i j = (l.set i l[j]).set j l[i] := by
  simp only [swapAt, List.getElem?_eq_getElem hi, List.getElem?_eq_getElem hj]

theorem swapAt_self (l : List α) (i : Nat) : swapAt l i i = l := by
  unfold swapAt
  split
  · rename_i a b ha hb
    obtain ⟨hi, rfl⟩ := List.getElem?_eq_some_iff.1 ha
    rw [List.set_set, List.set_getElem_self]
  · rfl

theorem swapAt_perm (hi : i < l.length) (hj : j < l.length) : (swapAt l i j).Perm l := by
  rw [swapAt_of_lt hi hj]
  exact List.set_set_perm hi hj

theorem getElem?_swapAt_left (hi : i < l.length) (hj : j < l.length) : (swapAt l i j)[i]? = l[j]? := by
  rw [swapAt_of_lt hi hj]
  by_cases h : j = i
  · subst h
    rw [List.getElem?_set_self (by simpa using hi), List.getElem?_eq_getElem hi]
  · rw [List.getElem?_set_ne h, List.getElem?_set_self hi, List.getElem?_eq_getElem hj]

theorem getElem?_swapAt_right (hi : i < l.length) (hj : j < l.length) : (swapAt l i j)[j]? = l[i]? := by
  rw [swapAt_of_lt hi hj, List.getElem?_set_self (by simpa using hj), List.getElem?_eq_getElem hi]

theorem getElem?_swapAt_ne {k : Nat} (hi : i < l.length) (hj : j < l.length) (hki : k ≠ i) (hkj : k ≠ j) :
    (swapAt l i j)[k]? = l[k]? := by
  rw [swapAt_of_lt hi hj, List.getElem?_set_ne (Ne.symm hkj), List.getElem?_set_ne (Ne.symm hki)]

/-- The list with its elements exchanged is known by what it has at each index. -/
theorem eq_swapAt {t : List α} (hi : i < l.length) (hj : j < l.length) (hti : t[i]? = l[j]?) (htj : t[j]? = l[i]?)
    (ht : ∀ k, k ≠ i → k ≠ j → t[k]? = l[k]?) : t = swapAt l i j := by
  apply List.ext_getElem?
  intro k
  by_cases hki : k = i
  · rw [hki, hti, getElem?_swapAt_left hi hj]
  · by_cases hkj : k = j
    · rw [hkj, htj, getElem?_swapAt_right hi hj]
    · rw [ht k hki hkj, getElem?_swapAt_ne hi hj hki hkj]

end Swap

/-! ## The result of a shuffle -/

section Shuffle

variable {d d' : Nat → Nat}

theorem shuffle_perm : ∀ (i : Nat) {l : List α}, i < l.length ∨ i = 0 → (∀ k, d k ≤ k) → (shuffle d i l).Perm l
  | 0, _, _, _ => List.Perm.refl _
  | i + 1, l, hi, hd => by
    have hlt : i + 1 < l.length := by omega
    have hswap := swapAt_perm hlt (Nat.lt_of_le_of_lt (hd (i + 1)) hlt)
    have hlen := hswap.length_eq
    exact (shuffle_perm i (by omega) hd).trans hswap

/-- The elements above `i` stay. -/
theorem getElem?_shuffle_of_lt :
    ∀ (i : Nat) {l : List α} {k : Nat}, i < l.length → (∀ k, d k ≤ k) → i < k → (shuffle d i l)[k]? = l[k]?
  | 0, _, _, _, _, _ => rfl
  | i + 1, l, k, hi, hd, hk => by
    have hdi := hd (i + 1)
    have hlt : d (i + 1) < l.length := by omega
    have hlen := (swapAt_perm hi hlt).length_eq
    rw [shuffle, getElem?_shuffle_of_lt i (by omega) hd (by omega), getElem?_swapAt_ne hi hlt (by omega) (by omega)]

/-- The element at `i` of the result is the one that was drawn for `i`. -/
theorem getElem?_shuffle_self {i : Nat} {l : List α} (hi : i + 1 < l.length) (hd : ∀ k, d k ≤ k) :
    (shuffle d (i + 1) l)[i + 1]? = l[d (i + 1)]? := by
  have hlt : d (i + 1) < l.length := Nat.lt_of_le_of_lt (hd (i + 1)) hi
  have hlen := (swapAt_perm hi hlt).length_eq
  rw [shuffle, getElem?_shuffle_of_lt i (by omega) hd (by omega), getElem?_swapAt_left hi hlt]

/-- **The result tells the draws.** -/
theorem draws_eq :
    ∀ (i : Nat) {l : List α}, i < l.length → l.Nodup → (∀ k, d k ≤ k) → (∀ k, d' k ≤ k) →
      shuffle d i l = shuffle d' i l → ∀ k ≤ i, d k = d' k
  | 0, _, _, _, hd, hd', _, k, hk => by
    obtain rfl : k = 0 := by omega
    exact (Nat.le_zero.1 (hd 0)).trans (Nat.le_zero.1 (hd' 0)).symm
  | i + 1, l, hi, hnd, hd, hd', h, k, hk => by
    have hlt : d (i + 1) < l.length := Nat.lt_of_le_of_lt (hd (i + 1)) hi
    have hlast : d (i + 1) = d' (i + 1) := by
      have hget := congrArg (fun t => t[i + 1]?) h
      simp only [getElem?_shuffle_self hi hd, getElem?_shuffle_self hi hd'] at hget
      exact (List.getElem?_inj hlt hnd).1 hget
    rcases Nat.eq_or_lt_of_le hk with rfl | hk
    · exact hlast
    · have hswap := swapAt_perm hi hlt
      have hlen := hswap.length_eq
      rw [shuffle, shuffle, ← hlast] at h
      exact draws_eq i (by omega) (hswap.nodup_iff.2 hnd) hd hd' h k (by omega)

end Shuffle

/-! ## All draws -/

/-- The draws for the indexes below `n`. There is one for `0`. -/
abbrev Draws (n : Nat) := (i : Fin n) → Fin (i + 1)

/-- The draw for `k`. -/
def Draws.at {n : Nat} (d : Draws n) (k : Nat) : Nat := if h : k < n then d ⟨k, h⟩ else 0

theorem Draws.at_le {n : Nat} (d : Draws n) (k : Nat) : d.at k ≤ k := by
  unfold Draws.at
  split
  · rename_i h
    exact Nat.le_of_lt_succ (d ⟨k, h⟩).isLt
  · exact Nat.zero_le k

theorem Draws.ext_at {n : Nat} {d d' : Draws n} (h : ∀ k < n, d.at k = d'.at k) : d = d' := by
  funext i
  apply Fin.ext
  simpa only [Draws.at, i.isLt, dif_pos] using h i i.isLt

theorem Draws.at_update_ne {n : Nat} (d : Draws n) {i : Fin n} (x : Fin (i + 1)) {k : Nat} (h : k ≠ i) :
    Draws.at (Function.update d i x) k = d.at k := by
  unfold Draws.at
  by_cases hk : k < n
  · have hne : (⟨k, hk⟩ : Fin n) ≠ i := fun heq => h (congrArg Fin.val heq)
    rw [dif_pos hk, dif_pos hk, Function.update_of_ne hne]
  · rw [dif_neg hk, dif_neg hk]

/-- There are as many draws as permutations. -/
theorem card_draws (n : Nat) : Fintype.card (Draws n) = n.factorial := by
  rw [Fintype.card_pi]
  simp only [Fintype.card_fin]
  rw [Fin.prod_univ_eq_prod_range (fun i => i + 1) n, Finset.prod_range_add_one_eq_factorial]

/-- **The draws and the permutations** correspond one to one. -/
theorem shuffle_bijOn {n : Nat} {l : List α} (hlen : l.length = n) (hnd : l.Nodup) :
    Set.BijOn (fun d : Draws n => shuffle d.at (n - 1) l) Set.univ {t | t.Perm l} := by
  classical
  have hmaps : ∀ d : Draws n, (shuffle d.at (n - 1) l).Perm l :=
    fun d => shuffle_perm (n - 1) (by omega) d.at_le
  have hinj : Function.Injective fun d : Draws n => shuffle d.at (n - 1) l := by
    intro d d' h
    apply Draws.ext_at
    intro k hk
    exact draws_eq (n - 1) (by omega) hnd d.at_le d'.at_le h k (by omega)
  refine ⟨fun d _ => hmaps d, hinj.injOn, ?_⟩
  -- both sides have `n!` elements
  have hcard : l.permutations.toFinset.card = Fintype.card (Draws n) := by
    rw [List.toFinset_card_of_nodup (List.nodup_permutations l hnd), List.length_permutations, hlen, card_draws]
  have himage : Finset.univ.image (fun d : Draws n => shuffle d.at (n - 1) l) = l.permutations.toFinset := by
    apply Finset.eq_of_subset_of_card_le
    · intro t ht
      obtain ⟨d, -, rfl⟩ := Finset.mem_image.1 ht
      exact List.mem_toFinset.2 (List.mem_permutations.2 (hmaps d))
    · rw [Finset.card_image_of_injective _ hinj, hcard, Finset.card_univ]
  intro t ht
  have hmem : t ∈ l.permutations.toFinset := List.mem_toFinset.2 (List.mem_permutations.2 ht)
  rw [← himage] at hmem
  obtain ⟨d, -, hd⟩ := Finset.mem_image.1 hmem
  exact ⟨d, Set.mem_univ d, hd⟩

/-- A map that takes each value of a set once gives them with the same probability. -/
theorem uniform_of_bijOn {D β : Type*} [Fintype D] [Nonempty D] {f : D → β} {s : Set β} (h : Set.BijOn f Set.univ s)
    {b : β} (hb : b ∈ s) : PMF.map f (PMF.uniformOfFintype D) b = (Fintype.card D : ENNReal)⁻¹ := by
  obtain ⟨d, -, rfl⟩ := h.surjOn hb
  rw [PMF.map_apply, tsum_eq_single d]
  · rw [if_pos rfl, PMF.uniformOfFintype_apply]
  · intro d' hne
    exact if_neg fun heq => hne (h.injOn (Set.mem_univ d') (Set.mem_univ d) heq.symm)

end FisherYates
