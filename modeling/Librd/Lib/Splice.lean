import Mathlib.Data.List.Basic

/-!
# Writing into part of a list

`Splice.write l i cs` is `l` with `cs` over the elements from `i` on, and `Splice.read l i n` is the `n` elements from
`i` on. A write that ends inside the list keeps its length; it is read back where it was made (`read_write_self`), what
lies apart from it is as before (`getElem?_write_of_lt`, `getElem?_write_of_le`, `read_write_of_disjoint`), and up to
its end the list is what was before it and what was written (`take_write`).
-/

namespace Splice

variable {α : Type*} {l cs : List α} {i j n : Nat}

/-- The list with `cs` over its elements from `i` on. -/
def write (l : List α) (i : Nat) (cs : List α) : List α := l.take i ++ cs ++ l.drop (i + cs.length)

/-- The `n` elements from `i` on. -/
def read (l : List α) (i n : Nat) : List α := (l.drop i).take n

theorem getElem?_read (hj : j < n) : (read l i n)[j]? = l[i + j]? := by
  rw [read, List.getElem?_take_of_lt hj, List.getElem?_drop]

theorem length_read (h : i + n ≤ l.length) : (read l i n).length = n := by
  rw [read, List.length_take, List.length_drop]
  omega

/-- Two lists with the same elements from `i` on, up to `i + n`. -/
theorem read_congr {l' : List α} (h : ∀ j < n, l[i + j]? = l'[i + j]?) : read l i n = read l' i n := by
  apply List.ext_getElem?
  intro j
  rcases Nat.lt_or_ge j n with hj | hj
  · rw [getElem?_read hj, getElem?_read hj, h j hj]
  · have hlen : ∀ l : List α, (read l i n).length ≤ j := fun l => Nat.le_trans (List.length_take_le n _) hj
    rw [List.getElem?_eq_none (hlen l), List.getElem?_eq_none (hlen l')]

section Inside

variable (h : i + cs.length ≤ l.length)
include h

theorem length_write : (write l i cs).length = l.length := by
  simp only [write, List.length_append, List.length_take, List.length_drop]
  omega

theorem length_take_write : (l.take i).length = i := by
  rw [List.length_take]
  omega

theorem getElem?_write_of_lt (hj : j < i) : (write l i cs)[j]? = l[j]? := by
  have hlen := length_take_write h
  rw [write, List.append_assoc, List.getElem?_append_left (by omega), List.getElem?_take_of_lt hj]

theorem getElem?_write_of_le (hj : i + cs.length ≤ j) : (write l i cs)[j]? = l[j]? := by
  have hlen : (l.take i ++ cs).length = i + cs.length := by rw [List.length_append, length_take_write h]
  rw [write, List.getElem?_append_right (by omega), hlen, List.getElem?_drop, Nat.add_sub_cancel' hj]

/-- **Reading back** what was written. -/
theorem read_write_self : read (write l i cs) i cs.length = cs := by
  have hlen := length_take_write h
  rw [read, write, List.append_assoc, List.drop_append_of_le_length (Nat.le_of_eq hlen.symm),
    List.drop_of_length_le (Nat.le_of_eq hlen), List.nil_append, List.take_append_of_le_length (Nat.le_refl _),
    List.take_length]

/-- **Reading elsewhere.** -/
theorem read_write_of_disjoint (hj : j + n ≤ i ∨ i + cs.length ≤ j) : read (write l i cs) j n = read l j n := by
  apply read_congr
  intro k hk
  rcases hj with hj | hj
  · exact getElem?_write_of_lt h (by omega)
  · exact getElem?_write_of_le h (by omega)

/-- The list up to the end of the write. -/
theorem take_write : (write l i cs).take (i + cs.length) = l.take i ++ cs := by
  have hlen : (l.take i ++ cs).length = i + cs.length := by rw [List.length_append, length_take_write h]
  rw [write, List.take_append_of_le_length (Nat.le_of_eq hlen.symm), List.take_of_length_le (Nat.le_of_eq hlen)]

/-- The list before the write. -/
theorem take_write_of_le (hj : j ≤ i) : (write l i cs).take j = l.take j := by
  have htake := congrArg (List.take j) (take_write h)
  have hlen := length_take_write h
  rwa [List.take_take, Nat.min_eq_left (by omega), List.take_append_of_le_length (by omega), List.take_take,
    Nat.min_eq_left hj] at htake

end Inside

end Splice
