import Mathlib.Data.Int.Basic

/-!
# Threads: the deadline of `rd_cond_timedwait_ms` (`rdthread.h`, `rdtime.h`)

`rd_cond_timedwait_ms` adds its timeout to the reading of the clock and carries at most one second. The sum is always
right (`deadline_total`), but the carry is made for more than 1000000000 nanoseconds only: a fraction that is exactly a
second is left as it is, and `pthread_cond_timedwait` does not take it (`deadline_right_iff`).
-/

namespace Librd.Thread

/-- `struct timeval`. -/
structure Timeval where
  sec : Int
  usec : Int
  deriving DecidableEq, Repr

/-- `struct timespec`. -/
structure Timespec where
  sec : Int
  nsec : Int
  deriving DecidableEq, Repr

/-- `TIMEVAL_TO_TIMESPEC`. -/
def timevalToTimespec (tv : Timeval) : Timespec := { sec := tv.sec, nsec := tv.usec * 1000 }

/-- The carry of `rd_cond_timedwait_ms`. -/
def carry (ts : Timespec) : Timespec :=
  if ts.nsec > 1000000000 then { sec := ts.sec + 1, nsec := ts.nsec - 1000000000 } else ts

/-- The deadline of `rd_cond_timedwait_ms`, for the time `tv` that `gettimeofday` gives. -/
def deadline (tv : Timeval) (timeoutMs : Int) : Timespec :=
  let ts := timevalToTimespec tv
  carry { sec := ts.sec + timeoutMs.tdiv 1000, nsec := ts.nsec + timeoutMs.tmod 1000 * 1000000 }

/-- What `gettimeofday` gives. -/
def Timeval.Reading (tv : Timeval) : Prop := 0 ≤ tv.usec ∧ tv.usec < 1000000

/-- What `pthread_cond_timedwait` takes. -/
def Timespec.Normal (ts : Timespec) : Prop := 0 ≤ ts.nsec ∧ ts.nsec < 1000000000

instance (tv : Timeval) : Decidable tv.Reading := inferInstanceAs (Decidable (_ ∧ _))

instance (ts : Timespec) : Decidable ts.Normal := inferInstanceAs (Decidable (_ ∧ _))

/-- In nanoseconds. -/
def Timeval.total (tv : Timeval) : Int := tv.sec * 1000000000 + tv.usec * 1000

/-- In nanoseconds. -/
def Timespec.total (ts : Timespec) : Int := ts.sec * 1000000000 + ts.nsec

/-- What `pthread_cond_timedwait` does. -/
inductive Answer
  | einval
  | etimedout
  | waits
  deriving DecidableEq, Repr

/-- `pthread_cond_timedwait` at the time `now`: `EINVAL` for a fraction that is out of range, `ETIMEDOUT` at once if the
deadline has passed. -/
def condTimedwait (now : Timeval) (abstime : Timespec) : Answer :=
  if ¬abstime.Normal then .einval else if abstime.total ≤ now.total then .etimedout else .waits

theorem carry_total (ts : Timespec) : (carry ts).total = ts.total := by
  rw [carry]
  split
  · simp only [Timespec.total]
    omega
  · rfl

/-- Where one carry is enough. -/
theorem carry_normal_iff {ts : Timespec} (h : ts.nsec < 2000000000) :
    (carry ts).Normal ↔ 0 ≤ ts.nsec ∧ ts.nsec ≠ 1000000000 := by
  rw [carry]
  split
  · simp only [Timespec.Normal]
    omega
  · rw [Timespec.Normal]
    omega

/-- **The sum** is right, for every reading and every timeout. -/
theorem deadline_total (tv : Timeval) (timeoutMs : Int) :
    (deadline tv timeoutMs).total = tv.total + timeoutMs * 1000000 := by
  have hsplit : 1000 * timeoutMs.tdiv 1000 + timeoutMs.tmod 1000 = timeoutMs := Int.mul_tdiv_add_tmod timeoutMs 1000
  rw [deadline, carry_total]
  simp only [timevalToTimespec, Timespec.total, Timeval.total]
  omega

/-- **The fraction**: it is in range unless it is exactly a second. -/
theorem deadline_normal_iff {tv : Timeval} (htv : tv.Reading) {timeoutMs : Int} (h : 0 ≤ timeoutMs) :
    (deadline tv timeoutMs).Normal ↔ tv.usec + timeoutMs % 1000 * 1000 ≠ 1000000 := by
  obtain ⟨hlow, hhigh⟩ := htv
  have hmod : timeoutMs.tmod 1000 = timeoutMs % 1000 := Int.tmod_eq_emod_of_nonneg h
  have hpos : 0 ≤ timeoutMs % 1000 := Int.emod_nonneg timeoutMs (by decide)
  have hlt : timeoutMs % 1000 < 1000 := Int.emod_lt_of_pos timeoutMs (by decide)
  rw [deadline, hmod, carry_normal_iff]
  · simp only [timevalToTimespec]
    omega
  · simp only [timevalToTimespec]
    omega

/-- A timeout of -1: the fraction is in range from the first millisecond of a second on. -/
theorem deadline_neg_normal_iff {tv : Timeval} (htv : tv.Reading) : (deadline tv (-1)).Normal ↔ 1000 ≤ tv.usec := by
  obtain ⟨hlow, hhigh⟩ := htv
  have hmod : (-1 : Int).tmod 1000 = -1 := by decide
  rw [deadline, hmod, carry_normal_iff]
  · simp only [timevalToTimespec]
    omega
  · simp only [timevalToTimespec]
    omega

/-- **The deadline.** For every reading of the clock and every timeout that is not negative, the deadline is in range
and the sum of the two if and only if the fractions of the two do not add up to exactly a second. -/
theorem deadline_right_iff {tv : Timeval} (htv : tv.Reading) {timeoutMs : Int} (h : 0 ≤ timeoutMs) :
    ((deadline tv timeoutMs).Normal ∧ (deadline tv timeoutMs).total = tv.total + timeoutMs * 1000000) ↔
      tv.usec + timeoutMs % 1000 * 1000 ≠ 1000000 := by
  rw [and_iff_left (deadline_total tv timeoutMs)]
  exact deadline_normal_iff htv h

/-- A timeout of 1.5 seconds in the second half of a second. -/
theorem deadline_right_carry :
    (deadline ⟨10, 600000⟩ 1500).Normal ∧
      (deadline ⟨10, 600000⟩ 1500).total = Timeval.total ⟨10, 600000⟩ + 1500 * 1000000 :=
  (deadline_right_iff (by decide) (by decide)).2 (by decide)

/-- Half a second and half a second. -/
theorem deadline_second : deadline ⟨10, 500000⟩ 500 = ⟨10, 1000000000⟩ ∧ ¬(deadline ⟨10, 500000⟩ 500).Normal ∧
    condTimedwait ⟨10, 500000⟩ (deadline ⟨10, 500000⟩ 500) = .einval := by
  decide

end Librd.Thread
