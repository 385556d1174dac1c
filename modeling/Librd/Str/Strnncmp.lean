import Mathlib.Data.List.Lex
import Mathlib.Data.Set.Basic
import Librd.Lib.Words

/-!
# Comparing strings with their lengths (`rd_strnncmp` of `rdstring.h`)

`rd_strnncmp` compares the bytes that both strings have with `strncmp`, and where these are the same returns
`(int)n1-n2`, the difference of the lengths modulo `2 ^ 32`. So a string that another one begins with comes after that
one instead of before it when the difference of their lengths is above `2 ^ 31` modulo `2 ^ 32` (`Turned`), and the two
are not told apart, or not in one order, when it is a multiple of `2 ^ 31`.

The function is a valid comparator on a set of strings exactly if no two of the set are of the second kind and the pairs
of the first kind make no cycle (`comparator_iff`). On a set with all prefixes of its strings that means that none is
longer than `INT_MAX`.

`strncmp` is a parameter that behaves as in the C standard, where its value is known by its sign only.
-/

namespace Librd.Str

open Words

/-- `rd_strnncmp`. -/
def strnncmp (strncmp : List UInt8 → List UInt8 → Nat → Int) (s1 : List UInt8) (n1 : Nat) (s2 : List UInt8) (n2 : Nat) :
    Int :=
  let r := strncmp s1 s2 (min n1 n2)
  if r ≠ 0 then r
  -- `n1` is an `int` that is converted back for the difference, which is returned as an `int`
  else toInt (toSize (toInt n1 - n2))

/-- The characters of a string as `unsigned char`. -/
def chars (s : List UInt8) : List Nat := s.map UInt8.toNat

/-- `strncmp` on strings of `n` characters or more without a NUL, by the C standard. -/
structure StrncmpSpec (strncmp : List UInt8 → List UInt8 → Nat → Int) : Prop where
  neg : ∀ s1 s2 n, 0 ∉ s1 → 0 ∉ s2 → n ≤ s1.length → n ≤ s2.length →
    (strncmp s1 s2 n < 0 ↔ chars (s1.take n) < chars (s2.take n))
  zero : ∀ s1 s2 n, 0 ∉ s1 → 0 ∉ s2 → n ≤ s1.length → n ≤ s2.length →
    (strncmp s1 s2 n = 0 ↔ s1.take n = s2.take n)

/-- The string `x` begins `y`, but is put behind it. -/
def Turned (x y : List UInt8) : Prop := x <+: y ∧ 2 ^ 31 < (y.length - x.length) % 2 ^ 32

/-! ## Lexicographic order -/

section Lex

theorem chars_injective : Function.Injective chars := List.map_injective_iff.2 fun _ _ h => UInt8.toNat_inj.1 h

theorem append_lt_append {u v : List Nat} (s t : List Nat) (hlen : u.length = v.length) (h : u < v) :
    u ++ s < v ++ t := by
  induction u generalizing v with
  | nil =>
    obtain rfl := List.length_eq_zero_iff.1 hlen.symm
    cases h
  | cons a u ih =>
    cases v with
    | nil => cases hlen
    | cons b v =>
      rw [List.cons_append, List.cons_append, List.cons_lt_cons_iff]
      rcases List.cons_lt_cons_iff.1 h with hab | ⟨hab, hlt⟩
      · exact .inl hab
      · exact .inr ⟨hab, ih (by simpa using hlen) hlt⟩

theorem lt_append_cons (u : List Nat) (a : Nat) (s : List Nat) : u < u ++ a :: s := by
  induction u with
  | nil => exact List.nil_lt_cons a s
  | cons b u ih => exact List.cons_lt_cons_iff.2 (.inr ⟨rfl, ih⟩)

variable {x y : List UInt8}

/-- A string comes after those that it begins with. -/
theorem chars_lt_of_isPrefix (h : x <+: y) (hne : x ≠ y) : chars x < chars y := by
  obtain ⟨t, rfl⟩ := h
  cases t with
  | nil => simp at hne
  | cons c t =>
    rw [chars, chars, List.map_append, List.map_cons]
    exact lt_append_cons ..

/-- The common length of both strings shows the order, or that one begins the other. -/
theorem take_eq_iff : x.take (min x.length y.length) = y.take (min x.length y.length) ↔ x <+: y ∨ y <+: x := by
  rcases Nat.le_total x.length y.length with h | h
  · rw [Nat.min_eq_left h, List.take_length, ← List.prefix_iff_eq_take]
    refine ⟨.inl, fun hor => hor.elim id fun hpre => ?_⟩
    obtain rfl := hpre.eq_of_length_le h
    exact List.prefix_rfl
  · rw [Nat.min_eq_right h, List.take_length, eq_comm, ← List.prefix_iff_eq_take]
    refine ⟨.inr, fun hor => hor.elim (fun hpre => ?_) id⟩
    obtain rfl := hpre.eq_of_length_le h
    exact List.prefix_rfl

theorem take_lt_iff (hne : x.take (min x.length y.length) ≠ y.take (min x.length y.length)) :
    chars (x.take (min x.length y.length)) < chars (y.take (min x.length y.length)) ↔ chars x < chars y := by
  have happ : ∀ {u v : List UInt8} {m : Nat}, m ≤ u.length → m ≤ v.length → chars (u.take m) < chars (v.take m) →
      chars u < chars v := by
    intro u v m hu hv hlt
    have hout := append_lt_append (chars (u.drop m)) (chars (v.drop m)) (by simp [chars, hu, hv]) hlt
    rwa [chars, chars, chars, chars, ← List.map_append, ← List.map_append, List.take_append_drop,
      List.take_append_drop] at hout
  have hx : min x.length y.length ≤ x.length := Nat.min_le_left ..
  have hy : min x.length y.length ≤ y.length := Nat.min_le_right ..
  refine ⟨happ hx hy, fun hlt => ?_⟩
  rcases lt_trichotomy (chars (x.take (min x.length y.length))) (chars (y.take (min x.length y.length))) with h | h | h
  · exact h
  · exact absurd (chars_injective h) hne
  · exact absurd (happ hy hx h) (lt_asymm hlt)

end Lex

/-! ## The comparator -/

/-- The comparison of two strings with their lengths. -/
def cmp (strncmp : List UInt8 → List UInt8 → Nat → Int) (x y : List UInt8) : Int :=
  strnncmp strncmp x x.length y y.length

/-- What makes a comparator valid on a set of strings. -/
structure ValidOn (c : List UInt8 → List UInt8 → Int) (S : Set (List UInt8)) : Prop where
  zero : ∀ x ∈ S, ∀ y ∈ S, c x y = 0 ↔ x = y
  swap : ∀ x ∈ S, ∀ y ∈ S, (c y x).sign = - (c x y).sign
  trans : ∀ x ∈ S, ∀ y ∈ S, ∀ z ∈ S, c x y ≤ 0 → c y z ≤ 0 → c x z ≤ 0

/-- Lengths that `rd_strnncmp` can compare: no string begins another one that is longer by a multiple of `2 ^ 31`, and
where it is turned with another one, so it is with one of two neighbours in between, and the other way round. -/
structure LengthsFit (S : Set (List UInt8)) : Prop where
  apart : ∀ x ∈ S, ∀ y ∈ S, x <+: y → x ≠ y → ¬ 2 ^ 31 ∣ y.length - x.length
  split : ∀ x ∈ S, ∀ y ∈ S, ∀ z ∈ S, chars x < chars y → chars y < chars z → Turned x z → Turned x y ∨ Turned y z
  join : ∀ x ∈ S, ∀ y ∈ S, ∀ z ∈ S, chars x < chars y → chars y < chars z → Turned x y → Turned y z → Turned x z

section Compare

variable {strncmp : List UInt8 → List UInt8 → Nat → Int} (hspec : StrncmpSpec strncmp) {x y : List UInt8}
include hspec

/-- Where one of the strings begins the other, the lengths decide. -/
theorem cmp_of_isPrefix (hx : 0 ∉ x) (hy : 0 ∉ y) (h : x <+: y ∨ y <+: x) :
    cmp strncmp x y = toInt ((x.length : Int) - y.length) := by
  have hzero := (hspec.zero x y _ hx hy (Nat.min_le_left ..) (Nat.min_le_right ..)).2 (take_eq_iff.2 h)
  rw [cmp, strnncmp, hzero, if_neg (by simp), toInt_toSize_sub]

/-- Where none begins the other, the characters decide. -/
theorem cmp_of_not_isPrefix (hx : 0 ∉ x) (hy : 0 ∉ y) (h : ¬ (x <+: y ∨ y <+: x)) :
    cmp strncmp x y ≠ 0 ∧ (cmp strncmp x y < 0 ↔ chars x < chars y) := by
  have hne := mt take_eq_iff.1 h
  have hzero := hspec.zero x y _ hx hy (Nat.min_le_left ..) (Nat.min_le_right ..)
  have hneg := hspec.neg x y _ hx hy (Nat.min_le_left ..) (Nat.min_le_right ..)
  have hr : strncmp x y (min x.length y.length) ≠ 0 := mt hzero.1 hne
  rw [cmp, strnncmp, if_pos hr]
  exact ⟨hr, hneg.trans (take_lt_iff hne)⟩

theorem cmp_self (hx : 0 ∉ x) : cmp strncmp x x = 0 := by
  rw [cmp_of_isPrefix hspec hx hx (.inl List.prefix_rfl), Int.sub_self]
  rfl

/-- The order of two strings, the lengths of which do not differ by a multiple of `2 ^ 31` if one begins the other. -/
theorem cmp_of_lt (hx : 0 ∉ x) (hy : 0 ∉ y) (hlt : chars x < chars y)
    (hapart : x <+: y → ¬ 2 ^ 31 ∣ y.length - x.length) :
    (¬ Turned x y ∧ cmp strncmp x y < 0 ∧ 0 < cmp strncmp y x) ∨
      (Turned x y ∧ 0 < cmp strncmp x y ∧ cmp strncmp y x < 0) := by
  by_cases hpre : x <+: y
  · have hle := hpre.length_le
    have hdvd := hapart hpre
    rw [cmp_of_isPrefix hspec hx hy (.inl hpre), cmp_of_isPrefix hspec hy hx (.inr hpre), Turned,
      and_iff_right hpre, toInt_eq,
      toInt_eq]
    omega
  · have hnot : ¬ (x <+: y ∨ y <+: x) := by
      rintro (h | h)
      · exact hpre h
      · have hne : y ≠ x := by
          rintro rfl
          exact hpre h
        exact lt_asymm hlt (chars_lt_of_isPrefix h hne)
    obtain ⟨-, hneg⟩ := cmp_of_not_isPrefix hspec hx hy hnot
    obtain ⟨hzero, hneg'⟩ := cmp_of_not_isPrefix hspec hy hx fun h => hnot h.symm
    have hge : ¬ cmp strncmp y x < 0 := mt hneg'.1 (lt_asymm hlt)
    exact .inl ⟨fun h => hpre h.1, hneg.2 hlt, by omega⟩

end Compare

section Valid

variable {strncmp : List UInt8 → List UInt8 → Nat → Int} (hspec : StrncmpSpec strncmp) {S : Set (List UInt8)}
  (hnul : ∀ x ∈ S, 0 ∉ x) {x y z : List UInt8}
include hspec hnul

theorem cases_of_apart (hapart : ∀ x ∈ S, ∀ y ∈ S, x <+: y → x ≠ y → ¬ 2 ^ 31 ∣ y.length - x.length) (hx : x ∈ S)
    (hy : y ∈ S) (hlt : chars x < chars y) :
    (¬ Turned x y ∧ cmp strncmp x y < 0 ∧ 0 < cmp strncmp y x) ∨
      (Turned x y ∧ 0 < cmp strncmp x y ∧ cmp strncmp y x < 0) := by
  have hne : x ≠ y := by
    rintro rfl
    exact lt_irrefl _ hlt
  exact cmp_of_lt hspec (hnul x hx) (hnul y hy) hlt fun hpre => hapart x hx y hy hpre hne

/-- Three strings are not in a circle, here told from the smallest one. -/
theorem LengthsFit.no_cycle (hfit : LengthsFit S) (hx : x ∈ S) (hy : y ∈ S) (hz : z ∈ S) (hxy : chars x < chars y)
    (hxz : chars x < chars z) (h1 : cmp strncmp x y < 0) (h2 : cmp strncmp y z < 0) : ¬ cmp strncmp z x < 0 := by
  intro h3
  have hturn : Turned x z := by
    rcases cases_of_apart hspec hnul hfit.apart hx hz hxz with ⟨-, -, h⟩ | ⟨h, -, -⟩
    · omega
    · exact h
  have hkeep : ¬ Turned x y := by
    rcases cases_of_apart hspec hnul hfit.apart hx hy hxy with ⟨h, -, -⟩ | ⟨-, h, -⟩
    · exact h
    · omega
  rcases lt_trichotomy (chars y) (chars z) with hyz | heq | hzy
  · rcases cases_of_apart hspec hnul hfit.apart hy hz hyz with ⟨h, -, -⟩ | ⟨-, h, -⟩
    · rcases hfit.split x hx y hy z hz hxy hyz hturn with h' | h'
      · exact hkeep h'
      · exact h h'
    · omega
  · rw [chars_injective heq, cmp_self hspec (hnul z hz)] at h2
    omega
  · rcases cases_of_apart hspec hnul hfit.apart hz hy hzy with ⟨-, -, h⟩ | ⟨h, -, -⟩
    · omega
    · exact hkeep (hfit.join x hx z hz y hy hxz hzy hturn h)

theorem LengthsFit.sign (hfit : LengthsFit S) (hx : x ∈ S) (hy : y ∈ S) :
    (cmp strncmp y x).sign = - (cmp strncmp x y).sign := by
  have hcases : ∀ {u v : Int}, (u < 0 ∧ 0 < v) ∨ (0 < u ∧ v < 0) → v.sign = - u.sign := by
    rintro u v (⟨hu, hv⟩ | ⟨hu, hv⟩)
    · rw [Int.sign_eq_neg_one_of_neg hu, Int.sign_eq_one_of_pos hv]
      rfl
    · rw [Int.sign_eq_one_of_pos hu, Int.sign_eq_neg_one_of_neg hv]
  rcases lt_trichotomy (chars x) (chars y) with hlt | heq | hgt
  · apply hcases
    rcases cases_of_apart hspec hnul hfit.apart hx hy hlt with ⟨-, h⟩ | ⟨-, h⟩
    · exact .inl h
    · exact .inr h
  · rw [chars_injective heq, cmp_self hspec (hnul y hy)]
    rfl
  · apply hcases
    rcases cases_of_apart hspec hnul hfit.apart hy hx hgt with ⟨-, h⟩ | ⟨-, h⟩
    · exact .inr h.symm
    · exact .inl h.symm

theorem LengthsFit.zero (hfit : LengthsFit S) (hx : x ∈ S) (hy : y ∈ S) : cmp strncmp x y = 0 ↔ x = y := by
  constructor
  · intro h
    rcases lt_trichotomy (chars x) (chars y) with hlt | heq | hgt
    · rcases cases_of_apart hspec hnul hfit.apart hx hy hlt with ⟨-, h', -⟩ | ⟨-, h', -⟩ <;> omega
    · exact chars_injective heq
    · rcases cases_of_apart hspec hnul hfit.apart hy hx hgt with ⟨-, -, h'⟩ | ⟨-, -, h'⟩ <;> omega
  · rintro rfl
    exact cmp_self hspec (hnul x hx)

theorem LengthsFit.trans (hfit : LengthsFit S) (hx : x ∈ S) (hy : y ∈ S) (hz : z ∈ S) (h1 : cmp strncmp x y ≤ 0)
    (h2 : cmp strncmp y z ≤ 0) : cmp strncmp x z ≤ 0 := by
  by_contra h3
  have hzx : cmp strncmp z x < 0 := by
    have hsign := hfit.sign hspec hnul hx hz
    have hpos : 0 < cmp strncmp x z := by omega
    rw [Int.sign_eq_one_of_pos hpos] at hsign
    exact Int.neg_of_sign_eq_neg_one hsign
  by_cases hxy : x = y
  · subst hxy
    exact h3 h2
  by_cases hyz : y = z
  · subst hyz
    exact h3 h1
  have hxz : x ≠ z := by
    rintro rfl
    exact h3 (Int.le_of_eq (cmp_self hspec (hnul x hx)))
  have h1' : cmp strncmp x y < 0 := lt_of_le_of_ne h1 (mt (hfit.zero hspec hnul hx hy).1 hxy)
  have h2' : cmp strncmp y z < 0 := lt_of_le_of_ne h2 (mt (hfit.zero hspec hnul hy hz).1 hyz)
  -- the circle of the three, from the smallest one
  rcases lt_or_gt_of_ne (mt (@chars_injective x y) hxy) with hlt | hlt <;>
    rcases lt_or_gt_of_ne (mt (@chars_injective y z) hyz) with hlt' | hlt' <;>
    rcases lt_or_gt_of_ne (mt (@chars_injective x z) hxz) with hlt'' | hlt''
  · exact hfit.no_cycle hspec hnul hx hy hz hlt hlt'' h1' h2' hzx
  · exact lt_asymm hlt'' (hlt.trans hlt')
  · exact hfit.no_cycle hspec hnul hx hy hz hlt hlt'' h1' h2' hzx
  · exact hfit.no_cycle hspec hnul hz hx hy hlt'' hlt' hzx h1' h2'
  · exact hfit.no_cycle hspec hnul hy hz hx hlt' hlt h2' hzx h1'
  · exact hfit.no_cycle hspec hnul hy hz hx hlt' hlt h2' hzx h1'
  · exact lt_asymm hlt'' (hlt'.trans hlt)
  · exact hfit.no_cycle hspec hnul hz hx hy hlt'' hlt' hzx h1' h2'

/-- Lengths that a valid comparator needs. -/
theorem ValidOn.fit (hv : ValidOn (cmp strncmp) S) : LengthsFit S := by
  have hapart : ∀ x ∈ S, ∀ y ∈ S, x <+: y → x ≠ y → ¬ 2 ^ 31 ∣ y.length - x.length := by
    intro x hx y hy hpre hne hdvd
    have hle := hpre.length_le
    have hxy := cmp_of_isPrefix hspec (hnul x hx) (hnul y hy) (.inl hpre)
    have hyx := cmp_of_isPrefix hspec (hnul y hy) (hnul x hx) (.inr hpre)
    have hzero : cmp strncmp x y ≠ 0 := mt (hv.zero x hx y hy).1 hne
    have hneg : cmp strncmp x y < 0 ∧ cmp strncmp y x < 0 := by
      rw [toInt_eq] at hxy hyx
      omega
    have hsign := hv.swap x hx y hy
    rw [Int.sign_eq_neg_one_of_neg hneg.1, Int.sign_eq_neg_one_of_neg hneg.2] at hsign
    cases hsign
  refine ⟨hapart, fun x hx y hy z hz hxy hyz hturn => ?_, fun x hx y hy z hz hxy hyz hturn hturn' => ?_⟩
  · by_contra hnot
    rw [not_or] at hnot
    obtain ⟨-, h1, -⟩ := (cases_of_apart hspec hnul hapart hx hy hxy).resolve_right fun h => hnot.1 h.1
    obtain ⟨-, h2, -⟩ := (cases_of_apart hspec hnul hapart hy hz hyz).resolve_right fun h => hnot.2 h.1
    obtain ⟨-, h3, -⟩ := (cases_of_apart hspec hnul hapart hx hz (hxy.trans hyz)).resolve_left fun h => h.1 hturn
    have := hv.trans x hx y hy z hz (by omega) (by omega)
    omega
  · by_contra hnot
    obtain ⟨-, -, h1⟩ := (cases_of_apart hspec hnul hapart hx hy hxy).resolve_left fun h => h.1 hturn
    obtain ⟨-, -, h2⟩ := (cases_of_apart hspec hnul hapart hy hz hyz).resolve_left fun h => h.1 hturn'
    obtain ⟨-, -, h3⟩ := (cases_of_apart hspec hnul hapart hx hz (hxy.trans hyz)).resolve_right fun h => hnot h.1
    have := hv.trans z hz y hy x hx (by omega) (by omega)
    omega

end Valid

/-- With all prefixes of its strings in the set, the lengths are to stay below `2 ^ 31`. -/
theorem lengthsFit_iff {S : Set (List UInt8)} (hclosed : ∀ x ∈ S, ∀ t, t <+: x → t ∈ S) :
    LengthsFit S ↔ ∀ x ∈ S, x.length ≤ 2147483647 := by
  constructor
  · intro hfit x hx
    by_contra hlong
    have hpre : x.take (x.length - 2 ^ 31) <+: x := List.take_prefix ..
    have hlen : (x.take (x.length - 2 ^ 31)).length = x.length - 2 ^ 31 := by
      rw [List.length_take]
      omega
    have hne : x.take (x.length - 2 ^ 31) ≠ x := by
      intro heq
      rw [heq] at hlen
      omega
    refine hfit.apart _ (hclosed x hx _ hpre) x hx hpre hne ⟨1, ?_⟩
    omega
  · intro hshort
    have hnot : ∀ x y, y ∈ S → ¬ Turned x y := by
      rintro x y hy ⟨hpre, hfar⟩
      have := hshort y hy
      omega
    refine ⟨fun x _ y hy hpre hne hdvd => ?_, fun x _ y _ z hz _ _ hturn => absurd hturn (hnot x z hz),
      fun x _ y hy z _ _ _ hturn _ => absurd hturn (hnot x y hy)⟩
    have hlt : x.length < y.length := lt_of_le_of_ne hpre.length_le fun h => hne (hpre.eq_of_length h)
    have := hshort y hy
    omega

/-- **The comparator** is valid on a set of strings if and only if their lengths fit, which for a set with all prefixes
of its strings is that none is longer than `INT_MAX`. -/
theorem comparator_iff {strncmp : List UInt8 → List UInt8 → Nat → Int} (hspec : StrncmpSpec strncmp)
    {S : Set (List UInt8)} (hnul : ∀ x ∈ S, 0 ∉ x) :
    (ValidOn (cmp strncmp) S ↔ LengthsFit S) ∧
    ((∀ x ∈ S, ∀ t, t <+: x → t ∈ S) → (LengthsFit S ↔ ∀ x ∈ S, x.length ≤ 2147483647)) := by
  refine ⟨⟨fun hv => hv.fit hspec hnul, fun hfit => ⟨?_, ?_, ?_⟩⟩, lengthsFit_iff⟩
  · exact fun x hx y hy => hfit.zero hspec hnul hx hy
  · exact fun x hx y hy => hfit.sign hspec hnul hx hy
  · exact fun x hx y hy z hz => hfit.trans hspec hnul hx hy hz

/-- A `strncmp` that returns the difference of the first two characters that differ. -/
def firstDifference : List UInt8 → List UInt8 → Nat → Int
  | a :: s1, b :: s2, n + 1 =>
    if a ≠ b then (a.toNat : Int) - b.toNat else if a = 0 then 0 else firstDifference s1 s2 n
  | _, _, _ => 0

theorem firstDifference_spec : StrncmpSpec firstDifference := by
  have hboth : ∀ (n : Nat) (s1 s2 : List UInt8), 0 ∉ s1 → 0 ∉ s2 → n ≤ s1.length → n ≤ s2.length →
      (firstDifference s1 s2 n < 0 ↔ chars (s1.take n) < chars (s2.take n)) ∧
      (firstDifference s1 s2 n = 0 ↔ s1.take n = s2.take n) := by
    intro n
    induction n with
    | zero => intro s1 s2 _ _ _ _; simp [firstDifference, chars]
    | succ n ih =>
      intro s1 s2 h1 h2 hl1 hl2
      obtain ⟨a, s1, rfl⟩ := List.exists_cons_of_length_pos (Nat.lt_of_lt_of_le (Nat.succ_pos n) hl1)
      obtain ⟨b, s2, rfl⟩ := List.exists_cons_of_length_pos (Nat.lt_of_lt_of_le (Nat.succ_pos n) hl2)
      rw [List.mem_cons, not_or] at h1 h2
      obtain ⟨hneg, hzero⟩ := ih s1 s2 h1.2 h2.2 (by simpa using hl1) (by simpa using hl2)
      rw [List.take_succ_cons, List.take_succ_cons, chars, chars, List.map_cons, List.map_cons, List.cons_lt_cons_iff,
        List.cons.injEq, firstDifference]
      by_cases hab : a = b
      · subst hab
        simpa [Ne.symm h1.1, chars] using And.intro hneg hzero
      · have hne : a.toNat ≠ b.toNat := fun h => hab (UInt8.toNat_inj.1 h)
        simp only [ne_eq, hab, not_false_eq_true, if_true, hne, false_and, or_false, iff_false]
        omega
  exact ⟨fun s1 s2 n h1 h2 hl1 hl2 => (hboth n s1 s2 h1 h2 hl1 hl2).1,
    fun s1 s2 n h1 h2 hl1 hl2 => (hboth n s1 s2 h1 h2 hl1 hl2).2⟩

/-- Four strings. -/
theorem comparator_iff_four :
    let S : Set (List UInt8) := {x | x ∈ [[], [97], [97, 98], [255]]}
    (ValidOn (cmp firstDifference) S ↔ LengthsFit S) ∧
    ((∀ x ∈ S, ∀ t, t <+: x → t ∈ S) → (LengthsFit S ↔ ∀ x ∈ S, x.length ≤ 2147483647)) := by
  have hnul : ∀ x ∈ [[], [97], [97, 98], [255]], (0 : UInt8) ∉ x := by decide
  exact comparator_iff firstDifference_spec hnul

/-- The empty string and `2 ^ 31` or `2 ^ 32` letters: each of the first two is less than the other, and the second two
compare as equal. -/
theorem comparator_invalid :
    cmp firstDifference [] (List.replicate (2 ^ 31) 97) < 0 ∧ cmp firstDifference (List.replicate (2 ^ 31) 97) [] < 0 ∧
    cmp firstDifference [] (List.replicate (2 ^ 32) 97) = 0 ∧
    ¬ ValidOn (cmp firstDifference) {x | 0 ∉ x ∧ x.length < 2 ^ 64} := by
  have hnul : ∀ n, (0 : UInt8) ∉ List.replicate n 97 := by
    intro n h
    exact absurd (List.eq_of_mem_replicate h) (by decide)
  have hpre : ∀ n, [] <+: List.replicate n (97 : UInt8) := fun n => List.nil_prefix
  have hlt : ∀ n, cmp firstDifference [] (List.replicate n 97) = toInt (-(n : Int)) := by
    intro n
    rw [cmp_of_isPrefix firstDifference_spec (by simp) (hnul n) (.inl (hpre n)), List.length_replicate]
    simp
  have hgt : ∀ n, cmp firstDifference (List.replicate n 97) [] = toInt n := by
    intro n
    rw [cmp_of_isPrefix firstDifference_spec (hnul n) (by simp) (.inr (hpre n)), List.length_replicate]
    simp
  have hzero : cmp firstDifference [] (List.replicate (2 ^ 32) 97) = 0 := by
    rw [hlt, toInt_eq]
    omega
  refine ⟨?_, ?_, hzero, fun hv => ?_⟩
  · rw [hlt, toInt_eq]
    omega
  · rw [hgt, toInt_eq]
    omega
  · have hmem : List.replicate (2 ^ 32) (97 : UInt8) ∈ {x : List UInt8 | 0 ∉ x ∧ x.length < 2 ^ 64} := by
      refine ⟨hnul _, ?_⟩
      rw [List.length_replicate]
      omega
    have heq := (hv.zero [] ⟨by simp, by simp⟩ _ hmem).1 hzero
    have hlen := congrArg List.length heq
    rw [List.length_replicate, List.length_nil] at hlen
    omega

end Librd.Str
