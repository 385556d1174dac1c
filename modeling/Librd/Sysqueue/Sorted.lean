import Mathlib.Data.List.Sort
import Librd.Sysqueue.Sysqueue

/-!
# Sorted insertion (`LIST_INSERT_SORTED` and `TAILQ_INSERT_SORTED`)

The two macros differ only in the macros that they insert with. They go through the elements up to the first one that
the new element does not come after, and insert it before that one; at the last element they insert it behind. The loop
ends because it follows the elements of a well-formed list (`sortedLoop_ok`), and the sequence becomes what
`orderedInsert` makes of it, which keeps it sorted if the sign of the comparator is a total preorder
(`insertSorted_sorts`).
-/

namespace Librd.Sysqueue

open Links

section Loop

variable {M E : Type} (cmpfunc : E → E → Int) (next : E → Option E) (elm : E) (before after : E → M) (m : M)

/-- The loop of both macros from an element on, with fuel: `before` and `after` are the insertions next to
an element. -/
def sortedLoop : Nat → Option E → Option M
  | 0, _ => none
  | _ + 1, none => some m
  | fuel + 1, some tmp =>
    if cmpfunc elm tmp ≤ 0 then some (before tmp)
    else if (next tmp).isNone then some (after tmp)
    else sortedLoop fuel (next tmp)

/-- Both macros, by the first element and the insertion at the head. -/
def insertSorted (first : Option E) (atHead : M) (fuel : Nat) : Option M :=
  if first.isNone then some atHead else sortedLoop cmpfunc next elm before after m fuel first

variable {next elm before after}

/-- The loop over the elements `xs`, from `z` on: `R` says of a result which elements it has. -/
theorem sortedLoop_ok {xs : List E} {R : M → List E → Prop}
    (hnext : ∀ ys z zs, xs = ys ++ z :: zs → next z = zs.head?)
    (hbefore : ∀ ys z zs, xs = ys ++ z :: zs → R (before z) (ys ++ elm :: z :: zs))
    (hafter : ∀ ys z, xs = ys ++ [z] → R (after z) (ys ++ [z, elm])) (zs ys : List E) (z : E)
    (hxs : xs = ys ++ z :: zs) :
    ∃ r, (∀ fuel ≥ zs.length + 1, sortedLoop cmpfunc next elm before after m fuel (some z) = some r) ∧
      R r (ys ++ (z :: zs).orderedInsert (fun a b => cmpfunc a b ≤ 0) elm) := by
  by_cases hle : cmpfunc elm z ≤ 0
  · refine ⟨before z, fun fuel hfuel => ?_, ?_⟩
    · obtain ⟨f, rfl⟩ := Nat.exists_eq_add_of_le' hfuel
      simp [sortedLoop, hle]
    · rw [List.orderedInsert_cons, if_pos hle]
      exact hbefore ys z zs hxs
  · rw [List.orderedInsert_cons, if_neg hle]
    cases zs with
    | nil =>
      refine ⟨after z, fun fuel hfuel => ?_, hafter ys z hxs⟩
      obtain ⟨f, rfl⟩ := Nat.exists_eq_add_of_le' hfuel
      simp [sortedLoop, hle, hnext ys z [] hxs]
    | cons w ws =>
      obtain ⟨r, hr, hR⟩ := sortedLoop_ok hnext hbefore hafter ws (ys ++ [z]) w (by simpa using hxs)
      refine ⟨r, fun fuel hfuel => ?_, by simpa using hR⟩
      obtain ⟨f, rfl⟩ := Nat.exists_eq_add_of_le' hfuel
      rw [List.length_cons, ← Nat.add_assoc, sortedLoop, if_neg hle, hnext ys z _ hxs]
      simpa using hr (f + (ws.length + 1)) (Nat.le_add_left _ _)

theorem insertSorted_of {xs : List E} {R : M → List E → Prop} {atHead : M} (hhead : R atHead (elm :: xs))
    (hnext : ∀ ys z zs, xs = ys ++ z :: zs → next z = zs.head?)
    (hbefore : ∀ ys z zs, xs = ys ++ z :: zs → R (before z) (ys ++ elm :: z :: zs))
    (hafter : ∀ ys z, xs = ys ++ [z] → R (after z) (ys ++ [z, elm])) :
    ∃ r, (∀ fuel ≥ xs.length, insertSorted cmpfunc next elm before after m xs.head? atHead fuel = some r) ∧
      R r (xs.orderedInsert (fun a b => cmpfunc a b ≤ 0) elm) := by
  cases xs with
  | nil => exact ⟨atHead, fun fuel _ => rfl, hhead⟩
  | cons x xs => exact sortedLoop_ok cmpfunc m hnext hbefore hafter xs [] x rfl

end Loop

variable {H E : Type} [DecidableEq H] [DecidableEq E] (cmpfunc : E → E → Int)

/-- `LIST_INSERT_SORTED`. -/
def listInsertSorted (fuel : Nat) (m : Links H E) (head : H) (elm : E) : Option (Links H E) :=
  insertSorted cmpfunc (fun tmp => m.cell (.next tmp)) elm (fun tmp => listInsertBefore m tmp elm)
    (fun tmp => listInsertAfter m tmp elm) m (m.cell (.first head)) (listInsertHead m head elm) fuel

/-- `TAILQ_INSERT_SORTED`. -/
def tailqInsertSorted (fuel : Nat) (m : Tailqs H E) (head : H) (elm : E) : Option (Tailqs H E) :=
  insertSorted cmpfunc (fun tmp => m.cell (.next tmp)) elm (fun tmp => tailqInsertBefore m tmp elm)
    (fun tmp => tailqInsertAfter m head tmp elm) m (m.cell (.first head)) (tailqInsertHead m head elm) fuel

/-! ## Sorted lists -/

/-- A comparator whose sign is a total preorder. -/
structure SignPreorder (cmpfunc : E → E → Int) : Prop where
  swap : ∀ a b, cmpfunc a b < 0 ↔ 0 < cmpfunc b a
  trans : ∀ a b c, cmpfunc a b ≤ 0 → cmpfunc b c ≤ 0 → cmpfunc a c ≤ 0

section Insert

variable {m : Links H E} {q : Tailqs H E} {h : H} {xs : List E} {elm : E}

/-- Be the list sorted or not, the element goes where `orderedInsert` puts it. -/
theorem listInsertSorted_ok (hm : m.Chain h xs) (he : elm ∉ xs) :
    ∃ m', (∀ fuel ≥ xs.length, listInsertSorted cmpfunc fuel m h elm = some m') ∧
      m'.Chain h (xs.orderedInsert (fun a b => cmpfunc a b ≤ 0) elm) := by
  simp only [listInsertSorted, hm.cell_first]
  apply insertSorted_of cmpfunc m (R := fun m' l => m'.Chain h l) (chain_insertHead hm he)
  · rintro ys z zs rfl
    exact hm.cell_next
  · rintro ys z zs rfl
    exact chain_insertBefore hm he
  · rintro ys z rfl
    exact chain_insertAfter hm he

theorem tailqInsertSorted_ok (hq : Tailq q h xs) (he : elm ∉ xs) :
    ∃ q', (∀ fuel ≥ xs.length, tailqInsertSorted cmpfunc fuel q h elm = some q') ∧
      Tailq q' h (xs.orderedInsert (fun a b => cmpfunc a b ≤ 0) elm) := by
  simp only [tailqInsertSorted, hq.chain.cell_first]
  apply insertSorted_of cmpfunc q (R := fun q' l => Tailq q' h l) (hq.insertHead he)
  · rintro ys z zs rfl
    exact hq.chain.cell_next
  · rintro ys z zs rfl
    exact hq.insertBefore he
  · rintro ys z rfl
    exact hq.insertAfter he

end Insert

/-- Where the new element goes: before the first one that does not compare less than it. -/
theorem orderedInsert_eq {E : Type} {cmpfunc : E → E → Int} (hcmp : SignPreorder cmpfunc) (xs : List E) (elm : E) :
    xs.orderedInsert (fun a b => cmpfunc a b ≤ 0) elm =
      xs.takeWhile (fun x => cmpfunc x elm < 0) ++ elm :: xs.dropWhile (fun x => cmpfunc x elm < 0) := by
  have hless : (fun x => decide ¬ cmpfunc elm x ≤ 0) = fun x => decide (cmpfunc x elm < 0) := by
    funext x
    rw [decide_eq_decide, hcmp.swap x elm, Int.not_le]
  rw [List.orderedInsert_eq_take_drop, hless]

theorem orderedInsert_sorted {E : Type} {cmpfunc : E → E → Int} (hcmp : SignPreorder cmpfunc) {xs : List E} (elm : E)
    (hs : xs.Pairwise fun a b => cmpfunc a b ≤ 0) :
    (xs.orderedInsert (fun a b => cmpfunc a b ≤ 0) elm).Pairwise fun a b => cmpfunc a b ≤ 0 := by
  have htotal : Std.Total fun a b => cmpfunc a b ≤ 0 := by
    refine ⟨fun a b => ?_⟩
    rcases le_or_gt (cmpfunc a b) 0 with hle | hlt
    · exact .inl hle
    · exact .inr (Int.le_of_lt ((hcmp.swap b a).2 hlt))
  have htrans : IsTrans E fun a b => cmpfunc a b ≤ 0 := ⟨hcmp.trans⟩
  exact hs.orderedInsert elm xs

/-- **Sorted insertion** into a well-formed sorted LIST and into a well-formed sorted TAILQ: the loop ends, and the list
is well formed, sorted, and the old one with the element before the first one that does not compare less than it. -/
theorem insertSorted_sorts {cmpfunc : E → E → Int} (hcmp : SignPreorder cmpfunc) {m : Links H E}
    {q : Tailqs H E} {h : H}
    {xs : List E} {elm : E} (hm : m.Chain h xs) (hq : Tailq q h xs) (he : elm ∉ xs)
    (hs : xs.Pairwise fun a b => cmpfunc a b ≤ 0) :
    let out := xs.takeWhile (fun x => cmpfunc x elm < 0) ++ elm :: xs.dropWhile (fun x => cmpfunc x elm < 0)
    (out.Pairwise fun a b => cmpfunc a b ≤ 0) ∧
    (∃ m', (∀ fuel ≥ xs.length, listInsertSorted cmpfunc fuel m h elm = some m') ∧ m'.Chain h out) ∧
    ∃ q', (∀ fuel ≥ xs.length, tailqInsertSorted cmpfunc fuel q h elm = some q') ∧ Tailq q' h out := by
  intro out
  have hout : xs.orderedInsert (fun a b => cmpfunc a b ≤ 0) elm = out := orderedInsert_eq hcmp xs elm
  have hlist := listInsertSorted_ok cmpfunc hm he
  have htailq := tailqInsertSorted_ok cmpfunc hq he
  rw [hout] at hlist htailq
  refine ⟨?_, hlist, htailq⟩
  rw [← hout]
  exact orderedInsert_sorted hcmp elm hs

/-- Numbers compared by their tens: 52 goes before 50 and 51. -/
theorem insertSorted_sorts_numbers :
    let cmpfunc : Nat → Nat → Int := fun a b => (a / 10 : Nat) - (b / 10 : Nat)
    let m : Links Nat Nat := [51, 50, 30].foldl (fun m e => listInsertHead m 0 e) ⟨fun _ => none, fun _ => .first 0⟩
    let q : Tailqs Nat Nat := [30, 50, 51].foldl (fun q e => tailqInsertTail q 0 e)
      ⟨⟨fun _ => none, fun _ => .first 0⟩, fun h => .first h⟩
    let out := [30, 50, 51].takeWhile (fun x => cmpfunc x 52 < 0) ++ 52 ::
      [30, 50, 51].dropWhile (fun x => cmpfunc x 52 < 0)
    (out.Pairwise fun a b => cmpfunc a b ≤ 0) ∧
    (∃ m', (∀ fuel ≥ 3, listInsertSorted cmpfunc fuel m 0 52 = some m') ∧ m'.Chain 0 out) ∧
    ∃ q', (∀ fuel ≥ 3, tailqInsertSorted cmpfunc fuel q 0 52 = some q') ∧ Tailq q' 0 out := by
  intro cmpfunc m q out
  have hcmp : SignPreorder cmpfunc := by
    constructor <;> intros <;> simp only [cmpfunc] at * <;> omega
  exact insertSorted_sorts hcmp (by decide) (by decide) (by decide) (by decide)

end Librd.Sysqueue
