import Librd.Str.Strnncmp

/-!
# Where strings begin to differ (`rd_strdiffpos` and `rd_strndiffpos` of `rdstring.c`)

Both functions go along two strings until the characters differ, the first up to the NUL, the second up to the smaller
of two lengths. They return the length of the longest common prefix, or -1 for equal strings, and agree with each other;
and where `rd_strnncmp` can compare the two strings, the characters at that position are in its order, the end of a
string before every character (`diffpos_compare`). A read past the end of the memory is a fault (`none`).
-/

namespace Librd.Str

open Words

/-- The loop of `rd_strndiffpos` from the position `i` on, with `n` positions to go. -/
def ndiffLoop : List UInt8 → List UInt8 → Nat → Nat → Option (Option Nat)
  | _, _, _, 0 => some none
  | c :: s1, d :: s2, i, n + 1 => if c ≠ d then some (some i) else ndiffLoop s1 s2 (i + 1) n
  | _, _, _, _ => none

/-- `rd_strndiffpos`; the smaller length is returned as a `ssize_t`. -/
def strndiffpos (s1 : List UInt8) (size1 : Nat) (s2 : List UInt8) (size2 : Nat) : Option Int := do
  let minlen := min size1 size2
  match ← ndiffLoop s1 s2 0 minlen with
  | some i => some i
  | none => if size1 ≠ size2 then some (Int.bmod minlen (2 ^ 64)) else some (-1)

/-- The loop of `rd_strdiffpos` from the position `pos` on. -/
def diffLoop : List UInt8 → List UInt8 → Nat → Option Int
  | c :: s1, d :: s2, pos => if c = d then if c = 0 then some (-1) else diffLoop s1 s2 (pos + 1) else some pos
  | _, _, _ => none

/-- `rd_strdiffpos`. -/
def strdiffpos (s1 s2 : List UInt8) : Option Int := diffLoop s1 s2 0

/-- Two strings are the same up to the position `p` and differ there, where one of them may end. -/
structure DiffersAt (x y : List UInt8) (p : Nat) : Prop where
  same : x.take p = y.take p
  differ : x[p]? ≠ y[p]?

/-! ## The common prefix -/

/-- Two strings, from where their common prefix ends. -/
theorem eq_or_split : ∀ x y : List UInt8, x = y ∨ ∃ w s t, x = w ++ s ∧ y = w ++ t ∧ s.head? ≠ t.head?
  | [], [] => .inl rfl
  | [], d :: y => .inr ⟨[], [], d :: y, rfl, rfl, by simp⟩
  | c :: x, [] => .inr ⟨[], c :: x, [], rfl, rfl, by simp⟩
  | c :: x, d :: y => by
    by_cases hcd : c = d
    · subst hcd
      rcases eq_or_split x y with rfl | ⟨w, s, t, rfl, rfl, hne⟩
      · exact .inl rfl
      · exact .inr ⟨c :: w, s, t, rfl, rfl, hne⟩
    · exact .inr ⟨[], c :: x, d :: y, rfl, rfl, by simpa using hcd⟩

theorem differsAt_append {w s t : List UInt8} (hne : s.head? ≠ t.head?) : DiffersAt (w ++ s) (w ++ t) w.length where
  same := by rw [List.take_left, List.take_left]
  differ := by
    rw [List.getElem?_append_right (Nat.le_refl _), List.getElem?_append_right (Nat.le_refl _), Nat.sub_self]
    rwa [List.head?_eq_getElem?, List.head?_eq_getElem?] at hne

theorem chars_append_lt_iff (w s t : List UInt8) : chars (w ++ s) < chars (w ++ t) ↔ chars s < chars t := by
  induction w with
  | nil => rfl
  | cons c w ih =>
    rw [List.cons_append, List.cons_append, ← ih, chars, chars, List.map_cons, List.map_cons, List.cons_lt_cons_iff]
    simp [chars]

/-- The order of two strings is that of the characters where they begin to differ. -/
theorem chars_lt_iff_head {s t : List UInt8} (hne : s.head? ≠ t.head?) : chars s < chars t ↔ s.head? < t.head? := by
  cases s with
  | nil =>
    cases t with
    | nil => exact absurd rfl hne
    | cons d t => exact iff_of_true (List.nil_lt_cons ..) trivial
  | cons c s =>
    cases t with
    | nil => exact iff_of_false (List.not_lt_nil _) id
    | cons d t =>
      have hcd : c.toNat ≠ d.toNat := fun h => hne (by rw [UInt8.toNat_inj.1 h]; rfl)
      rw [chars, chars, List.map_cons, List.map_cons, List.cons_lt_cons_iff]
      simp only [hcd, false_and, or_false, List.head?_cons, Option.some_lt_some]
      exact Iff.rfl

/-! ## The loops -/

theorem ndiffLoop_append (s t : List UInt8) (n : Nat) :
    ∀ (w : List UInt8) (i : Nat), ndiffLoop (w ++ s) (w ++ t) i (w.length + n) = ndiffLoop s t (i + w.length) n
  | [], i => by simp
  | c :: w, i => by
    rw [List.length_cons, show w.length + 1 + n = w.length + n + 1 by omega, List.cons_append,
      List.cons_append, ndiffLoop,
      if_neg (not_not.2 rfl), ndiffLoop_append s t n w]
    congr 1
    omega

theorem diffLoop_append (s t : List UInt8) :
    ∀ (w : List UInt8) (pos : Nat), 0 ∉ w → diffLoop (w ++ s) (w ++ t) pos = diffLoop s t (pos + w.length)
  | [], _, _ => rfl
  | c :: w, pos, hw => by
    rw [List.mem_cons, not_or] at hw
    rw [List.cons_append, List.cons_append, diffLoop, if_pos rfl, if_neg (Ne.symm hw.1), diffLoop_append s t w _ hw.2]
    congr 1
    rw [List.length_cons]
    omega

/-- **`rd_strndiffpos`** of different strings, whatever is behind them. -/
theorem strndiffpos_append {w s t : List UInt8} (u v : List UInt8) (hne : s.head? ≠ t.head?)
    (hlen : (w ++ s).length < 2 ^ 63) :
    strndiffpos (w ++ s ++ u) (w ++ s).length (w ++ t ++ v) (w ++ t).length = some (w.length : Int) := by
  have hmin : min (w ++ s).length (w ++ t).length = w.length + min s.length t.length := by
    rw [List.length_append, List.length_append, Nat.add_min_add_left]
  have hloop := ndiffLoop_append (s ++ u) (t ++ v) (min s.length t.length) w 0
  rw [strndiffpos, hmin, List.append_assoc, List.append_assoc, hloop]
  rw [List.length_append] at hlen
  have hret : Int.bmod w.length 18446744073709551616 = w.length := by
    rw [Int.bmod]
    omega
  cases s with
  | nil =>
    -- the first string has ended
    have ht : t ≠ [] := fun h => hne (by rw [h])
    simp [ndiffLoop, hret, ht]
  | cons c s =>
    cases t with
    | nil => simp [ndiffLoop, hret]
    | cons d t =>
      have hcd : c ≠ d := fun h => hne (by rw [h]; rfl)
      simp [ndiffLoop, hcd]

/-- **`rd_strdiffpos`** of different strings, whatever is behind their NULs. -/
theorem strdiffpos_append {w s t : List UInt8} (u v : List UInt8) (hne : s.head? ≠ t.head?) (hs : 0 ∉ w ++ s)
    (ht : 0 ∉ w ++ t) : strdiffpos (w ++ s ++ 0 :: u) (w ++ t ++ 0 :: v) = some (w.length : Int) := by
  rw [List.mem_append, not_or] at hs ht
  rw [strdiffpos, List.append_assoc, List.append_assoc, diffLoop_append _ _ w 0 hs.1, Nat.zero_add]
  cases s with
  | nil =>
    cases t with
    | nil => exact absurd rfl hne
    | cons d t =>
      have hd : 0 ≠ d := fun h => ht.2 (h ▸ List.mem_cons_self)
      simp [diffLoop, hd]
  | cons c s =>
    have hc : c ≠ 0 := fun h => hs.2 (h ▸ List.mem_cons_self)
    cases t with
    | nil => simp [diffLoop, hc]
    | cons d t =>
      have hcd : c ≠ d := fun h => hne (by rw [h]; rfl)
      simp [diffLoop, hcd]

/-! ## The three functions together -/

/-- The order of `rd_strnncmp`, where the lengths fit an `int`. -/
theorem cmp_neg_iff {strncmp : List UInt8 → List UInt8 → Nat → Int} (hspec : StrncmpSpec strncmp) {x y : List UInt8}
    (hx : 0 ∉ x) (hy : 0 ∉ y) (hxlen : x.length ≤ 2147483647) (hylen : y.length ≤ 2147483647) :
    cmp strncmp x y < 0 ↔ chars x < chars y := by
  have hapart : ∀ {a b : List UInt8}, b.length ≤ 2147483647 → chars a < chars b → a <+: b →
    ¬ 2 ^ 31 ∣ b.length - a.length := by
    intro a b hb hlt hpre hdvd
    have hne : a ≠ b := by
      rintro rfl
      exact lt_irrefl _ hlt
    have := lt_of_le_of_ne hpre.length_le fun h => hne (hpre.eq_of_length h)
    omega
  have hturned : ∀ {a b : List UInt8}, b.length ≤ 2147483647 → ¬ Turned a b := by
    rintro a b hb ⟨-, hfar⟩
    omega
  rcases lt_trichotomy (chars x) (chars y) with hlt | heq | hgt
  · obtain ⟨-, hneg, -⟩ := (cmp_of_lt hspec hx hy hlt (hapart hylen hlt)).resolve_right fun h => hturned hylen h.1
    exact iff_of_true hneg hlt
  · obtain rfl := chars_injective heq
    rw [cmp_self hspec hx]
    exact iff_of_false (lt_irrefl 0) (lt_irrefl _)
  · obtain ⟨-, -, hpos⟩ := (cmp_of_lt hspec hy hx hgt (hapart hxlen hgt)).resolve_right fun h => hturned hxlen h.1
    exact iff_of_false (by omega) (lt_asymm hgt)

/-- **Where strings differ.** Both functions return -1 for equal strings and else the position where they begin to
differ, and `rd_strnncmp` orders the strings as the characters there. -/
theorem diffpos_compare {strncmp : List UInt8 → List UInt8 → Nat → Int} (hspec : StrncmpSpec strncmp) {x y : List UInt8}
    (hx : 0 ∉ x) (hy : 0 ∉ y) (hxlen : x.length ≤ 2147483647) (hylen : y.length ≤ 2147483647) (u v : List UInt8) :
    (x = y ∧ strdiffpos (x ++ 0 :: u) (y ++ 0 :: v) = some (-1) ∧
      strndiffpos (x ++ u) x.length (y ++ v) y.length = some (-1) ∧ cmp strncmp x y = 0) ∨
    ∃ p : Nat, DiffersAt x y p ∧ strdiffpos (x ++ 0 :: u) (y ++ 0 :: v) = some (p : Int) ∧
      strndiffpos (x ++ u) x.length (y ++ v) y.length = some (p : Int) ∧ (cmp strncmp x y < 0 ↔ x[p]? < y[p]?) := by
  rcases eq_or_split x y with rfl | ⟨w, s, t, rfl, rfl, hne⟩
  · refine .inl ⟨rfl, ?_, ?_, cmp_self hspec hx⟩
    · rw [strdiffpos, diffLoop_append _ _ x 0 hx]
      simp [diffLoop]
    · have hloop := ndiffLoop_append u v 0 x 0
      rw [Nat.add_zero] at hloop
      simp [strndiffpos, hloop, ndiffLoop]
  · have hchar : ∀ s : List UInt8, (w ++ s)[w.length]? = s.head? := fun s => by
      rw [List.getElem?_append_right (Nat.le_refl _), Nat.sub_self, List.head?_eq_getElem?]
    refine .inr ⟨w.length, differsAt_append hne, strdiffpos_append u v hne hx hy,
      strndiffpos_append u v hne (by omega), ?_⟩
    rw [cmp_neg_iff hspec hx hy hxlen hylen, chars_append_lt_iff, chars_lt_iff_head hne, hchar, hchar]

/-- Two strings that differ after three letters. -/
theorem diffpos_compare_two :
    (let x : List UInt8 := [77, 97, 103, 110]
     let y : List UInt8 := [77, 97, 103, 255, 1]
     (x = y ∧ strdiffpos (x ++ 0 :: []) (y ++ 0 :: [7]) = some (-1) ∧
       strndiffpos (x ++ []) x.length (y ++ [7]) y.length = some (-1) ∧ cmp firstDifference x y = 0) ∨
     ∃ p : Nat, DiffersAt x y p ∧ strdiffpos (x ++ 0 :: []) (y ++ 0 :: [7]) = some (p : Int) ∧
       strndiffpos (x ++ []) x.length (y ++ [7]) y.length = some (p : Int) ∧
       (cmp firstDifference x y < 0 ↔ x[p]? < y[p]?)) :=
  diffpos_compare firstDifference_spec (by decide) (by decide) (by decide) (by decide) [] [7]

end Librd.Str
