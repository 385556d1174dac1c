import Librd.Avg.Avg
import Librd.Lib.Observe

/-!
# Averages: what queries change

`rd_avg` writes into the period that it reads. Two runs make the same calls of `rd_avg_start` and `rd_avg_put`, and the
first one queries periods in between. Their slots stay the same in what results depend on (`SlotSame`): the last value
and the count, the high and the low of the current period, and whether a period that is over has a duration at all.

A query breaks this when it finds the current period with a duration of 0: it clears its high and low (`Harmless`).
Another call of `rd_avg_start` keeps the duration that a query left, or that none did. In runs without either, no query
is seen in a result (`queries_unseen`).
-/

namespace Librd.Avg

/-- A query of the first run is one of a valid period. -/
def ValidQuery (periods : Nat) : Call Op → Prop
  | .common _ => True
  | .extra (.avg period _) => period = -1 ∨ period = -2 ∨ 0 ≤ period ∧ period < periods
  | .extra _ => False

/-- The query of the current period finds a duration, or nothing to clear; `rd_avg_start` leaves a period with a
duration in both runs or in none. -/
def Harmless : State × State → Call Op → Prop
  | (ra, _), .extra (.avg period clock) => ra.type = .rate → ra.curr = some (indexOf ra period).toNat →
    ∀ p ∈ ra.period[(indexOf ra period).toNat]?, elapsed ra.start p clock ≠ 0 ∨ p.res.high = 0 ∧ p.res.low = 0
  | (ra, rb), .common (.start _) => ra.type = .rate → ra.periods ≠ 1 →
    ∀ i ∈ ra.curr, ∀ p ∈ ra.period[i]?, ∀ q ∈ rb.period[i]?, p.duration = 0 ↔ q.duration = 0
  | _, _ => True

instance (periods : Nat) : (call : Call Op) → Decidable (ValidQuery periods call)
  | .common _ => .isTrue trivial
  | .extra (.avg period _) => inferInstanceAs (Decidable (period = -1 ∨ period = -2 ∨ 0 ≤ period ∧ period < periods))
  | .extra (.start _) => .isFalse id
  | .extra (.put _ _) => .isFalse id

instance : (s : State × State) → (call : Call Op) → Decidable (Harmless s call)
  | (ra, _), .extra (.avg _ _) => inferInstanceAs (Decidable (ra.type = .rate → _ → ∀ p ∈ _, _))
  | (ra, _), .common (.start _) => inferInstanceAs (Decidable (ra.type = .rate → _ → ∀ i ∈ ra.curr, _))
  | _, .common (.put _ _) => .isTrue trivial
  | _, .common (.avg _ _) => .isTrue trivial
  | _, .extra (.start _) => .isTrue trivial
  | _, .extra (.put _ _) => .isTrue trivial

/-! ## One slot -/

/-- A slot in both runs, in what the results of the average `type` depend on. -/
structure SlotSame (type : AvgType) (current : Prop) (p q : Period) : Prop where
  last_eq : p.last = q.last
  cnt_eq : p.cnt = q.cnt
  zero_iff : type = .rate → ¬current → (p.duration = 0 ↔ q.duration = 0)
  limits : type = .rate → current ∨ p.duration ≠ 0 → p.res.high = q.res.high ∧ p.res.low = q.res.low

section Slot

variable {type : AvgType} {current : Prop} {p q : Period} {val now clock : UInt64}

theorem SlotSame.refl (p : Period) : SlotSame type current p p := ⟨rfl, rfl, fun _ _ => .rfl, fun _ _ => ⟨rfl, rfl⟩⟩

theorem avgCalc_zero (h : p.duration = 0) : avgCalc type p = { p with res := .zero } := if_pos h

theorem avgCalc_rate (h : p.duration ≠ 0) : avgCalc .rate p = { p with res := { p.res with sum := p.cnt } } := if_neg h

theorem avgCalc_hist : avgCalc .hist p = { p with res := .zero } := ite_self _

@[simp] theorem avgCalc_last : (avgCalc type p).last = p.last := by
  cases type <;> by_cases h : p.duration = 0 <;> simp [avgCalc, h]

@[simp] theorem avgCalc_cnt : (avgCalc type p).cnt = p.cnt := by
  cases type <;> by_cases h : p.duration = 0 <;> simp [avgCalc, h]

@[simp] theorem avgCalc_duration : (avgCalc type p).duration = p.duration := by
  cases type <;> by_cases h : p.duration = 0 <;> simp [avgCalc, h]

/-- **Results**: with a duration in both runs or in none, a slot gives the same in both. -/
theorem SlotSame.calc_res (h : SlotSame type current p q) (hd : p.duration = 0 ↔ q.duration = 0) :
    (avgCalc type p).res = (avgCalc type q).res := by
  cases type with
  | hist => rw [avgCalc_hist, avgCalc_hist]
  | rate =>
    by_cases h0 : p.duration = 0
    · rw [avgCalc_zero h0, avgCalc_zero (hd.1 h0)]
    · obtain ⟨hhigh, hlow⟩ := h.limits rfl (.inr h0)
      rw [avgCalc_rate h0, avgCalc_rate (mt hd.2 h0)]
      simp only [hhigh, hlow, h.cnt_eq]

theorem SlotSame.calc (h : SlotSame type current p q) (hd : p.duration = 0 ↔ q.duration = 0) :
    SlotSame type current (avgCalc type p) (avgCalc type q) := by
  have hres := h.calc_res hd
  refine ⟨by simpa using h.last_eq, by simpa using h.cnt_eq, fun _ _ => by simpa using hd, fun _ _ => ?_⟩
  exact ⟨congrArg Res.high hres, congrArg Res.low hres⟩

/-- The current period gets a duration. -/
theorem SlotSame.setDuration {current' : Prop} (h : SlotSame type current p q) (hc : current) (d : UInt64) :
    SlotSame type current' { p with duration := d } { q with duration := d } :=
  ⟨h.last_eq, h.cnt_eq, fun _ _ => .rfl, fun htype _ => h.limits htype (.inl hc)⟩

/-- A value is recorded. -/
theorem SlotSame.record (h : SlotSame type current p q) (hc : current) (val now : UInt64) :
    SlotSame type current (record p val now) (record q val now) := by
  refine ⟨rfl, h.cnt_eq, fun _ hnot => absurd hc hnot, fun htype _ => ?_⟩
  obtain ⟨hhigh, hlow⟩ := h.limits htype (.inl hc)
  simp only [Avg.record, hhigh, hlow, and_self]

/-- The current period is over. -/
theorem SlotSame.over (h : SlotSame type current p q) (hd : p.duration = 0 ↔ q.duration = 0) :
    SlotSame type False p q :=
  ⟨h.last_eq, h.cnt_eq, fun _ _ => hd, fun htype hc => h.limits htype (.inr (hc.resolve_left id))⟩

variable {ra : State} {i : Nat}

theorem elapsed_same (h : SlotSame type current p q) : elapsed ra.start p now = elapsed ra.start q now := by
  rw [elapsed, elapsed, h.last_eq]

/-- A period that is rolled over. -/
theorem SlotSame.close (h : SlotSame ra.type current p q) (hc : current) (now : UInt64) :
    SlotSame ra.type False (closePeriod ra p now) (closePeriod ra q now) ∧
      (closePeriod ra p now).res = (closePeriod ra q now).res := by
  have hd : SlotSame ra.type False { p with closed := now, duration := elapsed ra.start p now }
      { q with closed := now, duration := elapsed ra.start q now } := by
    rw [elapsed_same h]
    exact ⟨h.last_eq, h.cnt_eq, fun _ _ => .rfl, fun htype _ => h.limits htype (.inl hc)⟩
  have hzero : elapsed ra.start p now = 0 ↔ elapsed ra.start q now = 0 := by rw [elapsed_same h]
  have hclose : ∀ p, ∃ missed, closePeriod ra p now =
      { avgCalc ra.type { p with closed := now, duration := elapsed ra.start p now } with missed := missed } :=
    fun _ => ⟨_, rfl⟩
  obtain ⟨missed, hp⟩ := hclose p
  obtain ⟨missed', hq⟩ := hclose q
  obtain ⟨hlast, hcnt, hiff, hlimits⟩ := hd.calc hzero
  rw [hp, hq]
  exact ⟨⟨hlast, hcnt, hiff, hlimits⟩, hd.calc_res hzero⟩

/-- A period as a query leaves it. -/
def queried (ra : State) (i : Nat) (p : Period) (clock : UInt64) : Period :=
  avgCalc ra.type (if ra.curr = some i then { p with duration := elapsed ra.start p clock } else p)

/-- **A query of both runs** gives the same. -/
theorem SlotSame.query (h : SlotSame ra.type (ra.curr = some i) p q) (clock : UInt64) :
    SlotSame ra.type (ra.curr = some i) (queried ra i p clock) (queried ra i q clock) ∧
      (queried ra i p clock).res = (queried ra i q clock).res := by
  by_cases hc : ra.curr = some i
  · have hd : SlotSame ra.type (ra.curr = some i) _ _ := h.setDuration hc (elapsed ra.start p clock)
    rw [queried, queried, if_pos hc, if_pos hc, ← elapsed_same h]
    exact ⟨hd.calc .rfl, hd.calc_res .rfl⟩
  · cases htype : ra.type with
    | rate =>
      have hzero := h.zero_iff htype hc
      rw [queried, queried, if_neg hc, if_neg hc, ← htype]
      exact ⟨h.calc hzero, h.calc_res hzero⟩
    | hist =>
      rw [queried, queried, if_neg hc, if_neg hc, htype, avgCalc_hist, avgCalc_hist]
      exact ⟨⟨h.last_eq, h.cnt_eq, fun h => (by cases h), fun h => (by cases h)⟩, rfl⟩

/-- **A query of the first run** is not seen if it finds a duration, or nothing to clear. -/
theorem SlotSame.extra (h : SlotSame ra.type (ra.curr = some i) p q) {clock : UInt64} (hh : ra.type = .rate →
    ra.curr = some i → elapsed ra.start p clock ≠ 0 ∨ p.res.high = 0 ∧ p.res.low = 0) :
    SlotSame ra.type (ra.curr = some i) (queried ra i p clock) q := by
  refine ⟨?_, ?_, fun htype hc => ?_, fun htype hc => ?_⟩
  · rw [queried, avgCalc_last, ← h.last_eq]
    split <;> rfl
  · rw [queried, avgCalc_cnt, ← h.cnt_eq]
    split <;> rfl
  · rw [queried, avgCalc_duration, if_neg hc]
    exact h.zero_iff htype hc
  · rw [queried, htype] at hc ⊢
    by_cases hcurr : ra.curr = some i
    · obtain ⟨hhigh, hlow⟩ := h.limits htype (.inl hcurr)
      rw [if_pos hcurr]
      by_cases h0 : elapsed ra.start p clock = 0
      · obtain ⟨hhigh0, hlow0⟩ := (hh htype hcurr).resolve_left (not_not.2 h0)
        rw [avgCalc_zero h0]
        exact ⟨hhigh0.symm.trans hhigh, hlow0.symm.trans hlow⟩
      · rw [avgCalc_rate h0]
        exact ⟨hhigh, hlow⟩
    · rw [if_neg hcurr, avgCalc_duration] at hc
      have h0 := hc.resolve_left hcurr
      rw [if_neg hcurr, avgCalc_rate h0]
      exact h.limits htype (.inr h0)

end Slot

/-! ## The ring -/

/-- All slots are the same; `current` tells the current one. -/
structure SameSlots (type : AvgType) (current : Nat → Prop) (l l' : List Period) : Prop where
  length_eq : l'.length = l.length
  slot : ∀ i p q, l[i]? = some p → l'[i]? = some q → SlotSame type (current i) p q

section Slots

variable {type : AvgType} {current current' : Nat → Prop} {l l' : List Period} {p q : Period} {i : Nat}

theorem SameSlots.none_iff (h : SameSlots type current l l') (i : Nat) : l[i]? = none ↔ l'[i]? = none := by
  rw [List.getElem?_eq_none_iff, List.getElem?_eq_none_iff, h.length_eq]

theorem SameSlots.exists_right (h : SameSlots type current l l') (hp : l[i]? = some p) :
    ∃ q, l'[i]? = some q ∧ SlotSame type (current i) p q := by
  cases hq : l'[i]? with
  | none => rw [(h.none_iff i).2 hq] at hp; cases hp
  | some q => exact ⟨q, rfl, h.slot i p q hp hq⟩

/-- A slot is written in both runs, and the others keep what they have in common. -/
theorem SameSlots.set (h : SameSlots type current l l') (hi : SlotSame type (current' i) p q)
    (hother : ∀ j p q, j ≠ i → l[j]? = some p → l'[j]? = some q → SlotSame type (current j) p q →
      SlotSame type (current' j) p q) : SameSlots type current' (l.set i p) (l'.set i q) := by
  refine ⟨by simp [h.length_eq], fun j p' q' hp' hq' => ?_⟩
  by_cases hj : j = i
  · subst hj
    rw [List.getElem?_set_self' ] at hp' hq'
    obtain ⟨_, -, rfl⟩ := Option.map_eq_some_iff.1 hp'
    obtain ⟨_, -, rfl⟩ := Option.map_eq_some_iff.1 hq'
    exact hi
  · rw [List.getElem?_set_ne (Ne.symm hj)] at hp' hq'
    exact hother j p' q' hj hp' hq' (h.slot j p' q' hp' hq')

/-- A slot is written in the first run. -/
theorem SameSlots.setLeft (h : SameSlots type current l l')
    (hi : ∀ q, l'[i]? = some q → SlotSame type (current i) p q) :
    SameSlots type current (l.set i p) l' := by
  refine ⟨by simp [h.length_eq], fun j p' q' hp' hq' => ?_⟩
  by_cases hj : j = i
  · subst hj
    rw [List.getElem?_set_self'] at hp'
    obtain ⟨_, -, rfl⟩ := Option.map_eq_some_iff.1 hp'
    exact hi q' hq'
  · rw [List.getElem?_set_ne (Ne.symm hj)] at hp'
    exact h.slot j p' q' hp' hq'

end Slots

/-! ## The two runs -/

/-- The second run has the state of the first one, but for its periods, whose slots are the same. -/
structure SameRuns (periods : Nat) (ra rb : State) : Prop where
  ring : Ring ra
  periods_eq : ra.periods = periods
  eq : ∃ l, rb = { ra with period := l } ∧ SameSlots ra.type (fun i => ra.curr = some i) ra.period l

section Runs

variable {ra : State} {l : List Period} {val now clock : UInt64} {periods : Nat}

theorem SameSlots.ring {current : Nat → Prop} (h : SameSlots ra.type current ra.period l) (hring : Ring ra) :
    Ring { ra with period := l } :=
  { hring with length_eq := h.length_eq.trans hring.length_eq }

/-- **The next period**: the one before it is over. -/
theorem openNext_same {current : Nat → Prop} (hring : Ring ra) (hn : ra.periods = periods)
    (h : SameSlots ra.type current ra.period l) (hover : ∀ j p q, j ≠ (ra.curri + 1) % ra.periods →
      ra.period[j]? = some p → l[j]? = some q → SlotSame ra.type (current j) p q → SlotSame ra.type False p q) :
    SameRuns periods (openNext ra now) (openNext { ra with period := l } now) := by
  refine ⟨openNext_ring hring now, hn, l.set ((ra.curri + 1) % ra.periods) fresh, rfl, ?_⟩
  refine h.set (.refl fresh) fun j p q hj hp hq hs => ?_
  have hne : ¬some ((ra.curri + 1) % ra.periods) = some j := fun heq => hj (Option.some.inj heq).symm
  have hfalse : ((openNext ra now).curr = some j) = False := eq_false hne
  rw [hfalse]
  exact hover j p q hj hp hq hs

/-- A value is recorded in both runs, or ignored in both. -/
theorem putCurrent_same {rb : State} (h : SameRuns periods ra rb) (val now : UInt64) :
    putCurrent ra val now = none ∧ putCurrent rb val now = none ∨
      ∃ ra' rb', putCurrent ra val now = some ra' ∧ putCurrent rb val now = some rb' ∧ SameRuns periods ra' rb' := by
  obtain ⟨hring, hn, l, rfl, hslots⟩ := h
  rcases hring.curr_cases with hnone | hcurr
  · exact .inl ⟨by simp [putCurrent, hnone], by simp [putCurrent, hnone]⟩
  · obtain ⟨p, hp⟩ := hring.exists_current
    obtain ⟨q, hq, hsame⟩ := hslots.exists_right hp
    have hrec := hsame.record hcurr val now
    cases htype : ra.type with
    | rate =>
      refine .inr
        ⟨{ ra with period := ra.period.set ra.curri { record p val now with cnt := (record p val now).cnt + val } },
        { ra with period := l.set ra.curri { record q val now with cnt := (record q val now).cnt + val } },
        by simp [putCurrent, hcurr, hp, htype], by simp [putCurrent, hcurr, hq, htype], hring.set _ _, hn, _, rfl, ?_⟩
      refine hslots.set ?_ fun _ _ _ _ _ _ h => h
      exact ⟨hrec.last_eq, by rw [hrec.cnt_eq], hrec.zero_iff, hrec.limits⟩
    | hist =>
      by_cases hb : ra.val2bucket val = -1
      · refine .inr ⟨{ ra with period := ra.period.set ra.curri (record p val now) },
          { ra with period := l.set ra.curri (record q val now) }, by simp [putCurrent, hcurr, hp, htype, hb],
          by simp [putCurrent, hcurr, hq, htype, hb], hring.set _ _, hn, _, rfl, ?_⟩
        exact hslots.set hrec fun _ _ _ _ _ _ h => h
      · exact .inl ⟨by simp [putCurrent, hcurr, htype, hb], by simp [putCurrent, hcurr, hb]⟩

/-- The outcome of a call in both runs: a fault, or the same output and states that are the same. -/
def SameStep (periods : Nat) (x y : Option (State × Option Res)) : Prop :=
  x = none ∧ y = none ∨ ∃ ra rb o, x = some (ra, o) ∧ y = some (rb, o) ∧ SameRuns periods ra rb

/-- **A roll-over in both runs.** -/
theorem roll_same {rb : State} (h : SameRuns periods ra rb) (now : UInt64) : roll ra now = none ∧ roll rb now = none ∨
    ∃ ra' rb' p q, roll ra now = some (ra', p) ∧ roll rb now = some (rb', q) ∧ p.res = q.res ∧
      SameRuns periods ra' rb' := by
  obtain ⟨hring, hn, l, rfl, hslots⟩ := h
  have hring' := hslots.ring hring
  rcases hring.curr_cases with hnone | hcurr
  · exact .inl ⟨by simp [roll, hnone], by simp [roll, hnone]⟩
  · by_cases hw : width ra = 0
    · exact .inl ⟨roll_of_width hw, roll_of_width hw⟩
    · obtain ⟨p, hp⟩ := hring.exists_current
      obtain ⟨q, hq, hsame⟩ := hslots.exists_right hp
      obtain ⟨hclose, hres⟩ := hsame.close hcurr now
      refine .inr ⟨_, _, _, _, roll_eq hring hw hcurr hp, roll_eq hring' hw hcurr hq, hres, ?_⟩
      have hslots' : SameSlots ra.type (fun _ => False) (ra.period.set ra.curri (closePeriod ra p now))
          (l.set ra.curri (closePeriod ra q now)) := by
        refine hslots.set hclose fun j _ _ hj _ _ hs => ?_
        have hne : ¬ra.curr = some j := fun heq => hj (hring.curr_eq j heq)
        rwa [eq_false hne] at hs
      have hring₁ := hring.set ra.curri (closePeriod ra p now)
      exact openNext_same hring₁ hn hslots' fun _ _ _ _ _ _ hs => hs

/-- **A put in both runs.** -/
theorem put_same {rb : State} (h : SameRuns periods ra rb) :
    SameStep periods (step ra (.put val now)) (step rb (.put val now)) := by
  have hstop : rb.stop = ra.stop := by
    obtain ⟨-, -, l, rfl, -⟩ := h
    rfl
  by_cases hend : ra.stop ≤ now
  · rcases roll_same h now with ⟨ha, hb⟩ | ⟨ra₁, rb₁, p, q, ha, hb, hres, hsame⟩
    · exact .inl ⟨by simp [step, put, hend, ha], by simp [step, put, hstop, hend, hb]⟩
    · rcases putCurrent_same hsame val now with ⟨ha', hb'⟩ | ⟨ra', rb', ha', hb', hsame'⟩
      · exact .inl ⟨by simp [step, put, hend, ha, ha'], by simp [step, put, hstop, hend, hb, hb']⟩
      · refine .inr ⟨ra', rb', some p.res, by simp [step, put, hend, ha, ha'], ?_, hsame'⟩
        simp [step, put, hstop, hend, hb, hb', hres]
  · rcases putCurrent_same h val now with ⟨ha, hb⟩ | ⟨ra', rb', ha, hb, hsame⟩
    · exact .inl ⟨by simp [step, put, hend, ha], by simp [step, put, hstop, hend, hb]⟩
    · exact .inr ⟨ra', rb', none, by simp [step, put, hend, ha], by simp [step, put, hstop, hend, hb], hsame⟩

/-- **`rd_avg_start` in both runs.** -/
theorem start_same {rb : State} (h : SameRuns periods ra rb) (hh : Harmless (ra, rb) (.common (.start now))) :
    SameStep periods (step ra (.start now)) (step rb (.start now)) := by
  obtain ⟨hring, hn, l, rfl, hslots⟩ := h
  have ha := periodNext_eq hring now
  have hb := periodNext_eq (hslots.ring hring) now
  refine .inr ⟨_, _, none, by rw [step, avgStart, ha]; rfl, by rw [step, avgStart, hb]; rfl, ?_⟩
  refine openNext_same hring hn hslots fun j p q hj hp hq hs => ?_
  by_cases hcurr : ra.curr = some j
  · cases htype : ra.type with
    | hist => exact ⟨hs.last_eq, hs.cnt_eq, fun h => (by cases h), fun h => (by cases h)⟩
    | rate =>
      rw [htype] at hs
      refine hs.over (hh htype (fun hone => hj ?_) j hcurr p hp q hq)
      -- the only slot is the next one, too
      rw [hone, Nat.mod_one]
      have hlt := hring.curri_lt
      have hcurri := hring.curr_eq j hcurr
      omega
  · rwa [eq_false hcurr] at hs

theorem rdAvg_eq {period : Int} {p : Period} (clock : UInt64) (h0 : 0 ≤ indexOf ra period)
    (hp : ra.period[(indexOf ra period).toNat]? = some p) : rdAvg ra period clock =
      some (
        { ra with period := ra.period.set (indexOf ra period).toNat (queried ra (indexOf ra period).toNat p clock) },
        (queried ra (indexOf ra period).toNat p clock).res) := by
  simp [rdAvg, h0, hp, queried]

/-- **A query of both runs.** -/
theorem avg_same {rb : State} {period : Int} (h : SameRuns periods ra rb) :
    SameStep periods (step ra (.avg period clock)) (step rb (.avg period clock)) := by
  obtain ⟨hring, hn, l, rfl, hslots⟩ := h
  have hindex : indexOf { ra with period := l } period = indexOf ra period := rfl
  by_cases h0 : 0 ≤ indexOf ra period
  · cases hp : ra.period[(indexOf ra period).toNat]? with
    | none =>
      have hq := (hslots.none_iff _).1 hp
      exact .inl ⟨by simp [step, rdAvg, h0, hp], by simp [step, rdAvg, hindex, h0, hq]⟩
    | some p =>
      obtain ⟨q, hq, hsame⟩ := hslots.exists_right hp
      obtain ⟨hquery, hres⟩ := hsame.query clock
      have ha := rdAvg_eq clock h0 hp
      have hb : rdAvg { ra with period := l } period clock = _ := rdAvg_eq clock h0 hq
      refine .inr ⟨_, _, _, by rw [step, ha]; rfl, by rw [step, hb, hres]; rfl, hring.set _ _, hn, _, rfl, ?_⟩
      exact hslots.set hquery fun _ _ _ _ _ _ h => h
  · exact .inl ⟨by simp [step, rdAvg, h0], by simp [step, rdAvg, hindex, h0]⟩

/-- **A query of the first run.** -/
theorem extra_same {rb : State} {period : Int} (h : SameRuns periods ra rb)
    (hv : ValidQuery periods (.extra (.avg period clock))) (hh : Harmless (ra, rb) (.extra (.avg period clock))) :
    ∃ ra' o, step ra (.avg period clock) = some (ra', o) ∧ SameRuns periods ra' rb := by
  obtain ⟨hring, rfl, l, rfl, hslots⟩ := h
  obtain ⟨h0, hlt⟩ := indexOf_valid hring hv
  have hin : (indexOf ra period).toNat < ra.period.length := by
    rw [hring.length_eq]
    omega
  have hp := List.getElem?_eq_getElem hin
  refine ⟨_, _, by rw [step, rdAvg_eq clock h0 hp]; rfl, hring.set _ _, rfl, l, rfl, ?_⟩
  refine hslots.setLeft fun q hq => ?_
  exact (hslots.slot _ _ q hp hq).extra fun htype hcurr => hh htype hcurr _ hp

end Runs

/-- **Queries.** A run of calls gives the same results with additional queries of valid periods as without them, if each
of these finds a duration or nothing to clear, and `rd_avg_start` leaves a period with a duration in both runs or in
none. -/
theorem queries_unseen {ra : State} (hring : Ring ra) (calls : List (Call Op))
    (hvalid : ∀ call ∈ calls, ValidQuery ra.periods call) (hharmless : machine.beside.Each Harmless (ra, ra) calls) :
    ((machine.run ra (calls.map Call.op)).map fun r => Call.commonOuts calls r.2) =
      (machine.run ra (calls.filterMap Call.common?)).map Prod.snd := by
  have hsame : SameRuns ra.periods ra ra :=
    ⟨hring, rfl, ra.period, rfl, rfl, fun i p q hp hq => Option.some.inj (hp.symm.trans hq) ▸ .refl p⟩
  refine Machine.observe_eq (R := SameRuns ra.periods)
    (Q := fun s call => ValidQuery ra.periods call ∧ Harmless s call) ?_ ?_ calls ra ra hsame
    (Machine.each_and (Machine.each_of_forall hvalid) hharmless)
  · rintro s t op h ⟨-, hh⟩
    cases op with
    | start now => exact start_same h hh
    | put val now => exact put_same h
    | avg period clock => exact avg_same h
  · rintro s t op h ⟨hv, hh⟩
    cases op with
    | start now => exact hv.elim
    | put val now => exact hv.elim
    | avg period clock => exact extra_same h hv hh

/-- Queries of the current period after its first value, and of the previous one. -/
theorem queries_unseen_two : ∃ ra, newRate 2 1000000 0 = some ra ∧
    let calls : List (Call Op) := [.common (.start 5000000), .common (.put 7 5500000), .extra (.avg (-1) 5600000),
      .common (.put 3 6000001), .extra (.avg (-2) 6000002), .common (.avg (-2) 6000003)]
    (∀ call ∈ calls, ValidQuery ra.periods call) ∧ machine.beside.Each Harmless (ra, ra) calls ∧
      ((machine.run ra (calls.map Call.op)).map fun r => Call.commonOuts calls r.2) =
        (machine.run ra (calls.filterMap Call.common?)).map Prod.snd := by
  refine ⟨_, rfl, by decide, by decide, queries_unseen (newRate_ring (show newRate 2 1000000 0 = some _ from rfl)) _
    (by decide) (by decide)⟩

/-- A value at the start of the period, and a query at the same clock reading: the low is 0 from then on. -/
theorem query_seen : ∃ ra, newRate 2 1000000 0 = some ra ∧
    let calls : List (Call Op) := [.common (.start 5000000), .common (.put 7 5000000), .extra (.avg (-1) 5000000),
      .common (.put 9 5500000), .common (.avg (-1) 5600000)]
    (∀ call ∈ calls, ValidQuery ra.periods call) ∧
      ((machine.run ra (calls.map Call.op)).map fun r => Call.commonOuts calls r.2) =
        some [none, none, none, some ⟨16, 9, 0⟩] ∧
      (machine.run ra (calls.filterMap Call.common?)).map Prod.snd = some [none, none, none, some ⟨16, 9, 7⟩] :=
  ⟨_, rfl, by decide, rfl, rfl⟩

end Librd.Avg
