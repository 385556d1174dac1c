import Librd.Timers.Retired

/-!
# Timers: `rd_timer_next`

The milliseconds until an armed timer fires, at least 1, and 0 for a timer that is not armed (`TellsTime`). The test
whether the timer is delayed is the wrong way round: a timer that is still to fire gives 1, and a timer that is due
gives the time since then. The result is right where these agree with the time left (`tellsTime_iff`): the timer fires
in less than two milliseconds, or it is due for one, up to a multiple of `2 ^ 32`.
-/

namespace Librd.Timers

/-- `rd_timer_next`, where an armed timer makes it read the clock: `now`. -/
def timerNext (t : Timer) (now : Nat) : Int :=
  if t.next = 0 then 0
  else if now < t.next then
    -- "timer is delayed, indicate immediate firing"
    1
  else wrapInt ((now - t.next) / 1000 : Nat)

/-- What the results for the timer `rt` at successive clock readings are to be. -/
structure TellsTime (s : State) (rt : Rt) (t : Timer) (readings : List Nat) : Prop where
  zero_iff : ∀ now ∈ readings, (timerNext t now = 0 ↔ rt ∉ s.rdTimers)
  decreasing : rt ∈ s.rdTimers → (readings.map (timerNext t)).Pairwise (· ≥ ·)
  left : rt ∈ s.rdTimers → ∀ now ∈ readings, now + 1000 ≤ t.next → timerNext t now = ((t.next - now) / 1000 : Nat)
  due : rt ∈ s.rdTimers → ∀ now ∈ readings, t.next < now + 1000 → timerNext t now = 1

/-- The timer fires in less than two milliseconds, or is due for one (of as many as an `int` tells apart). -/
def Near (t : Timer) (now : Nat) : Prop :=
  now < t.next ∧ t.next < now + 2000 ∨
    t.next ≤ now ∧ 1000 ≤ (now - t.next) % (1000 * 2 ^ 32) ∧ (now - t.next) % (1000 * 2 ^ 32) < 2000

instance (t : Timer) (now : Nat) : Decidable (Near t now) :=
  inferInstanceAs (Decidable (_ ∧ _ ∨ _ ∧ _ ∧ _))

section Results

variable {t : Timer} {now : Nat}

theorem timerNext_of_not_armed (h : t.next = 0) : timerNext t now = 0 := if_pos h

theorem timerNext_of_lt (h : now < t.next) : timerNext t now = 1 := by
  rw [timerNext, if_neg (by omega), if_pos h]

theorem timerNext_of_due (h0 : t.next ≠ 0) (h : t.next ≤ now) :
    timerNext t now = 1 ↔ 1000 ≤ (now - t.next) % (1000 * 2 ^ 32) ∧ (now - t.next) % (1000 * 2 ^ 32) < 2000 := by
  rw [timerNext, if_neg h0, if_neg (Nat.not_lt.2 h), wrapInt]
  generalize now - t.next = late
  have hbmod : Int.bmod ((late / 1000 : Nat) : Int) (2 ^ 32) = 1 ↔ late / 1000 % 2 ^ 32 = 1 := by
    rw [Int.bmod_def]
    omega
  rw [hbmod]
  omega

/-- Of a timer that is armed, the result is 1 before it fires, whatever the time left. -/
theorem timerNext_of_near (h0 : t.next ≠ 0) (h : Near t now) : timerNext t now = 1 := by
  rcases h with ⟨hlt, -⟩ | ⟨hle, hms⟩
  · exact timerNext_of_lt hlt
  · exact (timerNext_of_due h0 hle).2 hms

end Results

section States

variable {s : State} {rt : Rt} {t : Timer} {readings : List Nat}

theorem tellsTime_of_not_armed (hL : Listed s) (ht : s.timers rt = some t) (h0 : t.next = 0) :
    TellsTime s rt t readings := by
  have hoff : rt ∉ s.rdTimers := fun hm => (hL.armed rt t ht).2 hm h0
  exact ⟨fun now _ => iff_of_true (timerNext_of_not_armed h0) hoff, fun hm => absurd hm hoff, fun hm => absurd hm hoff,
    fun hm => absurd hm hoff⟩

theorem tellsTime_of_near (hL : Listed s) (ht : s.timers rt = some t) (h0 : t.next ≠ 0)
    (hnear : ∀ now ∈ readings, Near t now) : TellsTime s rt t readings := by
  have hon : rt ∈ s.rdTimers := (hL.armed rt t ht).1 h0
  have hone : ∀ now ∈ readings, timerNext t now = 1 := fun now hnow => timerNext_of_near h0 (hnear now hnow)
  refine ⟨fun now hnow => ?_, fun _ => ?_, fun _ now hnow hleft => ?_, fun _ now hnow _ => hone now hnow⟩
  · rw [hone now hnow]
    exact iff_of_false Int.one_ne_zero fun hoff => hoff hon
  · rw [List.pairwise_map]
    refine List.pairwise_of_forall_mem_list fun a ha b hb => ?_
    rw [hone a ha, hone b hb]
  · -- at least a millisecond is left, and less than two
    have hlt : t.next < now + 2000 := by
      rcases hnear now hnow with ⟨-, hlt⟩ | ⟨hle, -⟩ <;> omega
    have hms : (t.next - now) / 1000 = 1 := by omega
    rw [hone now hnow, hms]
    rfl

theorem near_of_tellsTime (hL : Listed s) (ht : s.timers rt = some t) (h0 : t.next ≠ 0)
    (h : TellsTime s rt t readings) : ∀ now ∈ readings, Near t now := by
  intro now hnow
  have hon : rt ∈ s.rdTimers := (hL.armed rt t ht).1 h0
  rcases Nat.lt_or_ge now t.next with hlt | hle
  · refine .inl ⟨hlt, ?_⟩
    by_contra hfar
    have hms := h.left hon now hnow (by omega)
    rw [timerNext_of_lt hlt] at hms
    omega
  · exact .inr ⟨hle, (timerNext_of_due h0 hle).1 (h.due hon now hnow (by omega))⟩

end States

variable (c : Clock)

/-- **`rd_timer_next`.** In every state that a run reaches, it tells the time until a timer fires exactly when the timer
is not armed, or close to its expiry at each of the readings. -/
theorem tellsTime_iff {ops : List Op} {s : State} {outs : List (List Alert)} {rt : Rt} {t : Timer}
    (hok : (machine c).Admits init ops) (hrun : (machine c).run init ops = some (s, outs)) (ht : s.timers rt = some t)
    (readings : List Nat) : TellsTime s rt t readings ↔ t.next = 0 ∨ ∀ now ∈ readings, Near t now := by
  have hL := run_listed c hok hrun
  by_cases h0 : t.next = 0
  · exact iff_of_true (tellsTime_of_not_armed hL ht h0) (.inl h0)
  · rw [or_iff_right h0]
    exact ⟨near_of_tellsTime hL ht h0, tellsTime_of_near hL ht h0⟩

/-- A timer that fires in a millisecond. -/
theorem tellsTime_oneMs :
    let ops : List Op := [.new 1 .once 0, .start 1 1]
    (machine oneSecond).Admits init ops ∧ ∃ s outs t, (machine oneSecond).run init ops = some (s, outs) ∧
      s.timers 1 = some t ∧ t.next = 1001000 ∧ TellsTime s 1 t [1000000, 1000999] :=
  ⟨by decide, _, _, _, rfl, rfl, rfl,
    (tellsTime_iff oneSecond (show (machine oneSecond).Admits init [.new 1 .once 0, .start 1 1] by decide) rfl rfl _).2
      (.inr (by decide))⟩

/-- Ten seconds before a timer fires, `rd_timer_next` says that it is delayed; ten seconds after, that it
fires in ten. -/
theorem next_reversed :
    let ops : List Op := [.new 1 .once 0, .start 1 10000]
    (machine oneSecond).Admits init ops ∧ ∃ s outs t, (machine oneSecond).run init ops = some (s, outs) ∧
      s.timers 1 = some t ∧ timerNext t 1000000 = 1 ∧ timerNext t 21000000 = 10000 ∧
      ¬TellsTime s 1 t [1000000, 21000000] :=
  ⟨by decide, _, _, _, rfl, rfl, by decide, by decide, fun h =>
    absurd (h.left (by decide) 1000000 (by decide) (by decide)) (by decide)⟩

end Librd.Timers
