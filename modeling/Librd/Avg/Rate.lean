import Librd.Avg.Avg

/-!
# Averages: what a rolled-over period says

The values of a period are put next to the average (`recorder`). Its count, high and low follow them (`Holds`), and the
results of a rolled-over period are to be their sum, maximum and minimum (`Summarizes`). The duration of a period runs
until its last value, and a period of duration 0 is taken for one without values: a period all of whose values came at
the clock reading at which it started says 0 (`rates_right_iff`).
-/

namespace Librd.Avg

/-- The results are the sum of the values and, if there are any, their maximum and minimum. -/
structure Summarizes (res : Res) (vs : List UInt64) : Prop where
  sum_eq : res.sum = vs.sum
  high_max : vs ≠ [] → res.high ∈ vs ∧ ∀ v ∈ vs, v ≤ res.high
  low_min : vs ≠ [] → res.low ∈ vs ∧ ∀ v ∈ vs, res.low ≤ v

/-- An average with the values of its current period; the operations are puts of a value at a clock reading. -/
def recorder : Machine (State × List UInt64) (UInt64 × UInt64) (Option Period) where
  Ok _ _ := True
  step := fun (ra, vs) (val, now) =>
    (put ra val now).map fun (ra', rolled) => ((ra', if rolled.isSome then [val] else vs ++ [val]), rolled)

/-- A put that rolls over a period gives the right results for it. -/
def RollsRight (s : State × List UInt64) (_ : UInt64 × UInt64) (rolled : Option Period) (_ : State × List UInt64) :
    Prop :=
  ∀ p, rolled = some p → Summarizes p.res s.2

/-- If a put rolls over the current period, this has zeros for values, or a last value that came after its start. -/
def Lasting (s : State × List UInt64) (op : UInt64 × UInt64) : Prop :=
  s.1.stop ≤ op.2 → (∀ v ∈ s.2, v = 0) ∨ ∀ p ∈ s.1.period[s.1.curri]?, elapsed s.1.start p op.2 ≠ 0

instance (s : State × List UInt64) (op : UInt64 × UInt64) : Decidable (Lasting s op) :=
  have : Decidable (∀ v ∈ s.2, v = 0) := List.decidableBAll (fun v => v = 0) s.2
  inferInstanceAs (Decidable (_ → _ ∨ _))

/-! ## The values of a period -/

section Holds

variable {p : Period} {vs : List UInt64} {val now : UInt64}

/-- The count, the high and the low of a period with these values. -/
structure Holds (p : Period) (vs : List UInt64) : Prop where
  cnt_eq : p.cnt = vs.sum
  le_high : ∀ v ∈ vs, v ≤ p.res.high
  high_mem : p.res.high ∈ vs ∨ p.res.high = 0
  low_le : ∀ v ∈ vs, p.res.low ≤ v
  low_mem : p.res.low ∈ vs ∨ p.res.low = noValue

theorem fresh_holds : Holds fresh [] := ⟨rfl, by simp, .inr rfl, by simp, .inr rfl⟩

theorem high_record {high : UInt64} (val : UInt64) (hle : ∀ v ∈ vs, v ≤ high) (hmem : high ∈ vs ∨ high = 0) :
    (∀ v ∈ vs ++ [val], v ≤ if high < val then val else high) ∧
      ((if high < val then val else high) ∈ vs ++ [val] ∨ (if high < val then val else high) = 0) := by
  by_cases hlt : high < val
  · rw [if_pos hlt]
    refine ⟨fun v hv => ?_, .inl (List.mem_append_right _ List.mem_cons_self)⟩
    rcases List.mem_append.1 hv with hv | hv
    · exact UInt64.le_trans (hle v hv) (UInt64.le_of_lt hlt)
    · exact UInt64.le_of_eq (List.mem_singleton.1 hv)
  · rw [if_neg hlt]
    refine ⟨fun v hv => ?_, hmem.imp_left (List.mem_append_left _)⟩
    rcases List.mem_append.1 hv with hv | hv
    · exact hle v hv
    · exact List.mem_singleton.1 hv ▸ UInt64.not_lt.1 hlt

theorem low_record {low : UInt64} (val : UInt64) (hle : ∀ v ∈ vs, low ≤ v) (hmem : low ∈ vs ∨ low = noValue) :
    (∀ v ∈ vs ++ [val], (if low > val then val else low) ≤ v) ∧
      ((if low > val then val else low) ∈ vs ++ [val] ∨ (if low > val then val else low) = noValue) := by
  by_cases hlt : low > val
  · rw [if_pos hlt]
    refine ⟨fun v hv => ?_, .inl (List.mem_append_right _ List.mem_cons_self)⟩
    rcases List.mem_append.1 hv with hv | hv
    · exact UInt64.le_trans (UInt64.le_of_lt hlt) (hle v hv)
    · exact UInt64.le_of_eq (List.mem_singleton.1 hv).symm
  · rw [if_neg hlt]
    refine ⟨fun v hv => ?_, hmem.imp_left (List.mem_append_left _)⟩
    rcases List.mem_append.1 hv with hv | hv
    · exact hle v hv
    · exact List.mem_singleton.1 hv ▸ UInt64.not_lt.1 hlt

/-- **A value is recorded.** -/
theorem Holds.record (h : Holds p vs) :
    Holds { Avg.record p val now with cnt := (Avg.record p val now).cnt + val } (vs ++ [val]) := by
  obtain ⟨hhigh, hhigh'⟩ := high_record val h.le_high h.high_mem
  obtain ⟨hlow, hlow'⟩ := low_record val h.low_le h.low_mem
  refine ⟨?_, hhigh, hhigh', hlow, hlow'⟩
  show p.cnt + val = _
  rw [h.cnt_eq, List.sum_append, List.sum_singleton]

theorem Holds.high_max (h : Holds p vs) (hne : vs ≠ []) : p.res.high ∈ vs := by
  obtain ⟨v, hv⟩ := List.exists_mem_of_ne_nil vs hne
  refine h.high_mem.elim id fun h0 => ?_
  have hv0 : v = 0 := UInt64.le_zero_iff.1 (h0 ▸ h.le_high v hv)
  rwa [h0, ← hv0]

theorem Holds.low_min (h : Holds p vs) (hne : vs ≠ []) : p.res.low ∈ vs := by
  obtain ⟨v, hv⟩ := List.exists_mem_of_ne_nil vs hne
  refine h.low_mem.elim id fun hno => ?_
  have hvno : v = noValue := by
    have hle : noValue ≤ v := hno ▸ h.low_le v hv
    have hlt := v.toNat_lt
    rw [UInt64.le_iff_toNat_le] at hle
    rw [← UInt64.toNat_inj]
    have hno' : noValue.toNat = 2 ^ 64 - 1 := rfl
    omega
  rwa [hno, ← hvno]

end Holds

/-! ## Roll-overs -/

section Rolls

variable {ra : State} {p : Period} {vs : List UInt64} {val now : UInt64}

theorem zero_summarizes (h : ∀ v ∈ vs, v = 0) : Summarizes .zero vs := by
  have hsum : vs.sum = 0 := List.sum_eq_zero h
  have hmem : vs ≠ [] → (0 : UInt64) ∈ vs := fun hne => by
    obtain ⟨v, hv⟩ := List.exists_mem_of_ne_nil vs hne
    exact h v hv ▸ hv
  refine ⟨hsum.symm, fun hne => ⟨hmem hne, fun v hv => ?_⟩, fun hne => ⟨hmem hne, fun v hv => ?_⟩⟩
  · exact UInt64.le_of_eq (h v hv)
  · exact UInt64.le_of_eq (h v hv).symm

theorem not_zero_summarizes {v : UInt64} (hv : v ∈ vs) (h0 : v ≠ 0) : ¬Summarizes .zero vs := fun h =>
  h0 (UInt64.le_zero_iff.1 ((h.high_max (List.ne_nil_of_mem hv)).2 v hv))

/-- A period that lasted, or had zeros for values, is summarized. -/
theorem closePeriod_summarizes (hp : Holds p vs) (htype : ra.type = .rate)
    (h : (∀ v ∈ vs, v = 0) ∨ elapsed ra.start p now ≠ 0) : Summarizes (closePeriod ra p now).res vs := by
  by_cases hd : elapsed ra.start p now = 0
  · have hres : (closePeriod ra p now).res = .zero := by simp [closePeriod, avgCalc, hd]
    rw [hres]
    exact zero_summarizes (h.resolve_right (not_not.2 hd))
  · have hres : (closePeriod ra p now).res = { p.res with sum := p.cnt } := by simp [closePeriod, avgCalc, hd, htype]
    rw [hres]
    exact ⟨hp.cnt_eq, fun hne => ⟨hp.high_max hne, hp.le_high⟩, fun hne => ⟨hp.low_min hne, hp.low_le⟩⟩

/-- A period of duration 0 is not, if it has a value other than 0. -/
theorem closePeriod_zero (h : elapsed ra.start p now = 0) : (closePeriod ra p now).res = .zero := by
  simp [closePeriod, avgCalc, h]

end Rolls

/-! ## Puts -/

/-- A rate with these values in its current period. -/
structure Recorded (ra : State) (vs : List UInt64) : Prop where
  ring : Ring ra
  wide : width ra ≠ 0
  rate : ra.type = .rate
  curr : ra.curr = some ra.curri
  holds : ∃ p, ra.period[ra.curri]? = some p ∧ Holds p vs

section Puts

variable {ra : State} {vs : List UInt64} {val now : UInt64}

theorem openNext_recorded (hring : Ring ra) (hw : width ra ≠ 0) (hrate : ra.type = .rate) (now : UInt64) :
    Recorded (openNext ra now) [] :=
  ⟨openNext_ring hring now, hw, hrate, rfl, fresh, openNext_current hring, fresh_holds⟩

theorem putCurrent_recorded (h : Recorded ra vs) (val now : UInt64) :
    ∃ ra', putCurrent ra val now = some ra' ∧ Recorded ra' (vs ++ [val]) := by
  obtain ⟨p, hp, hholds⟩ := h.holds
  refine ⟨{ ra with period := ra.period.set ra.curri { record p val now with cnt := (record p val now).cnt + val } },
    ?_, h.ring.set _ _, h.wide, h.rate, h.curr, _, List.getElem?_set_self h.ring.lt, hholds.record⟩
  simp [putCurrent, h.curr, hp, h.rate]

/-- The period that a put rolls over, if there is one. -/
def Rolls (ra : State) (vs : List UInt64) (now : UInt64) : Option Period → Prop
  | none => ¬ra.stop ≤ now
  | some q => ra.stop ≤ now ∧ ∃ p, ra.period[ra.curri]? = some p ∧ Holds p vs ∧ q = closePeriod ra p now

/-- **A put** does not fault; it starts the list of values anew if it rolls over the period. -/
theorem put_recorded (h : Recorded ra vs) (val now : UInt64) : ∃ ra' rolled, put ra val now = some (ra', rolled) ∧
    Recorded ra' (if rolled.isSome then [val] else vs ++ [val]) ∧ Rolls ra vs now rolled := by
  obtain ⟨p, hp, hholds⟩ := h.holds
  rw [put_eq h.ring h.wide h.curr hp]
  by_cases hend : ra.stop ≤ now
  · obtain ⟨ra', hput, hrec⟩ := putCurrent_recorded
      (openNext_recorded (h.ring.set ra.curri (closePeriod ra p now)) h.wide h.rate now) val now
    refine ⟨ra', some (closePeriod ra p now), ?_, hrec, hend, p, hp, hholds, rfl⟩
    rw [if_pos hend, hput]
    rfl
  · obtain ⟨ra', hput, hrec⟩ := putCurrent_recorded h val now
    refine ⟨ra', none, ?_, hrec, hend⟩
    rw [if_neg hend, hput]
    rfl

theorem rollsRight_of_lasting {s' : State × List UInt64} {rolled : Option Period} (h : Recorded ra vs)
    (hrolls : Rolls ra vs now rolled) (hlast : Lasting (ra, vs) (val, now)) :
    RollsRight (ra, vs) (val, now) rolled s' := by
  rintro q rfl
  obtain ⟨hend, p, hp, hholds, rfl⟩ := hrolls
  exact closePeriod_summarizes hholds h.rate ((hlast hend).imp_right fun hne => hne p hp)

theorem lasting_of_rollsRight {s' : State × List UInt64} {rolled : Option Period}
    (hrolls : Rolls ra vs now rolled) (hright : RollsRight (ra, vs) (val, now) rolled s') :
    Lasting (ra, vs) (val, now) := by
  intro hend
  by_contra hnot
  obtain ⟨hzeros, hne⟩ := not_or.1 hnot
  push Not at hzeros hne
  obtain ⟨v, hv, h0⟩ := hzeros
  obtain ⟨p, hp, hd⟩ := hne
  cases rolled with
  | none => exact hrolls hend
  | some q =>
    obtain ⟨-, p', hp', -, rfl⟩ := hrolls
    obtain rfl : p = p' := Option.some.inj (hp.symm.trans hp')
    have hsum := hright _ rfl
    rw [closePeriod_zero hd] at hsum
    exact not_zero_summarizes hv h0 hsum

end Puts

/-- **Rates.** After `rd_avg_start`, a run of puts gives every period that it rolls over the right results if and only
if each of these periods lasted, or had zeros for values. -/
theorem rates_right_iff {ra : State} (hring : Ring ra) (hpos : 0 < ra.duration) (hlt : ra.duration < 2 ^ 31)
    (hrate : ra.type = .rate) (now : UInt64) : ∃ ra', avgStart ra now = some ra' ∧ ∀ ops : List (UInt64 × UInt64),
      recorder.Steps RollsRight (ra', []) ops ↔ recorder.Each Lasting (ra', []) ops := by
  refine ⟨openNext ra now, periodNext_eq hring now, fun ops => ?_⟩
  refine Machine.steps_iff_each (I := fun s => Recorded s.1 s.2) (C := fun _ _ => True) ?_ ?_ ops _
    (openNext_recorded hring (width_ne_zero hpos hlt) hrate now) (Machine.each_of_forall fun _ _ => trivial)
  · rintro ⟨ra, vs⟩ ⟨val, now⟩ h - hlast
    obtain ⟨ra', rolled, hput, hrec, hrolls⟩ := put_recorded h val now
    refine ⟨(ra', if rolled.isSome then [val] else vs ++ [val]), rolled, ?_, rollsRight_of_lasting h hrolls hlast, hrec⟩
    simp only [recorder, hput, Option.map_some]
  · rintro ⟨ra, vs⟩ ⟨val, now⟩ s' rolled h - hlast hstep hright
    obtain ⟨ra', rolled', hput, -, hrolls⟩ := put_recorded h val now
    obtain rfl : rolled' = rolled := by
      simp only [recorder, hput, Option.map_some, Option.some.injEq, Prod.mk.injEq] at hstep
      exact hstep.2
    exact hlast (lasting_of_rollsRight hrolls hright)

/-- Two values in a period of one second, the second half a second after its start; the third rolls it over. -/
theorem rates_right_two : ∃ ra, newRate 2 1000000 0 = some ra ∧ ∃ ra', avgStart ra 5000000 = some ra' ∧
    recorder.Steps RollsRight (ra', []) [(7, 5000000), (3, 5500000), (9, 6000000)] := by
  have hring : ∀ ra, newRate 2 1000000 0 = some ra → Ring ra := fun ra h => newRate_ring h
  obtain ⟨ra', hstart, hright⟩ := rates_right_iff (hring _ rfl) (by decide) (by decide) rfl 5000000
  cases hstart
  exact ⟨_, rfl, _, rfl, (hright _).2 (by decide)⟩

/-- The second period gets its only value at its start: it is rolled over with a sum of 0. -/
theorem rate_forgotten : ∃ ra, newRate 2 1000000 0 = some ra ∧ ∃ ra', avgStart ra 5000000 = some ra' ∧
    ∃ s outs, recorder.run (ra', []) [(7, 6000000), (9, 7000000)] = some (s, outs) ∧
      (outs.map fun rolled => rolled.map Period.res) = [some ⟨0, 0, noValue⟩, some ⟨0, 0, 0⟩] ∧
      ¬recorder.Steps RollsRight (ra', []) [(7, 6000000), (9, 7000000)] := by
  refine ⟨_, rfl, _, rfl, _, _, rfl, by decide, ?_⟩
  rintro ⟨s₁, o₁, hstep₁, -, s₂, o₂, hstep₂, hright, -⟩
  cases hstep₁
  cases hstep₂
  exact not_zero_summarizes (v := 7) (by decide) (by decide) (hright _ rfl)

end Librd.Avg
