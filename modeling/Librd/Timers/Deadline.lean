import Librd.Timers.Effects

/-!
# Timers: the deadlines

`rd_timer_cmp` returns the difference of two 64-bit times as an `int`, so a sorted insertion can put a timer in the
wrong place: a timer due in 3000 s goes before one due in 1 s, and the timer thread sleeps past the second
(`sleeps_past`). Nothing else breaks the order: in every run whose sorted insertions compare right (`CmpOk`),
`rd_timers` ascends, `rd_timers_next_ts` is not later than any armed timer and the timer thread sleeps no longer
(`always_ordered`).
-/

namespace Librd.Timers

variable (c : Clock)

/-- `rd_timers` ascends, and neither `rd_timers_next_ts` nor the timeout of the sleeping timer thread is later than the
`rt_next` of an armed timer. -/
structure Ordered (s : State) : Prop where
  alloc : ∀ rt ∈ s.rdTimers, s.timers rt ≠ none
  sorted : s.rdTimers.Pairwise fun a b => s.nextOf a ≤ s.nextOf b
  next_le : ∀ rt ∈ s.rdTimers, timespecToTs s.nextTs ≤ s.nextOf rt
  sleep_le : ∀ t, s.sleeping = some t → ∀ rt ∈ s.rdTimers, timespecToTs t ≤ s.nextOf rt

theorem Timed.ordered {s : State} (hL : Listed s) (hT : Timed s) : Ordered s :=
  ⟨hL.alloc, hT.sorted, hT.next_le, fun t ht => by rw [hT.sleeping t ht]; exact hT.next_le⟩

/-! ## Right comparisons -/

/-- The sorted insertions of the second loop of a pass compare right. -/
def RestartOk : List Rt → State → Prop
  | [], _ => True
  | rt :: rest, s => ∀ t ∈ s.timers rt,
    if t.type = .recurr then ArmOk c s rt t.interval ∧ ∀ s' ∈ start0 c s rt t.interval false, RestartOk rest s'
    else RestartOk rest s

/-- The timer of `rd_timer_add` when it is started. -/
def addTimer (type : TimerType) (intervalMs : Nat) (rdt : Tid) : Timer :=
  { initTimer type rdt with atomic := true, interval := intervalMs }

/-- The sorted insertions of an operation, those it makes, compare right: for every armed timer that expires before the
one inserted, and for the first that does not, `rd_timer_cmp` has the sign of the difference. -/
def CmpOk (s : State) : Op → Prop
  | .add rt type intervalMs rdt => ArmOk c (s.set rt (some (addTimer type intervalMs rdt))) rt intervalMs
  | .start rt intervalMs => ∀ t ∈ s.timers rt, ArmOk c (s.set rt (some { t with interval := intervalMs })) rt intervalMs
  | .pass => ∀ p ∈ fireExpired (c.read s.reads) s.rdTimers s.tick, RestartOk c p.2.1 p.1
  | _ => True

instance RestartOk.decidable : ∀ (l : List Rt) (s : State), Decidable (RestartOk c l s)
  | [], _ => .isTrue trivial
  | rt :: rest, s =>
    have := RestartOk.decidable rest
    inferInstanceAs (Decidable (∀ t ∈ s.timers rt, if t.type = .recurr then
      ArmOk c s rt t.interval ∧ ∀ s' ∈ start0 c s rt t.interval false, RestartOk c rest s' else RestartOk c rest s))

instance CmpOk.decidable (s : State) : (op : Op) → Decidable (CmpOk c s op)
  | .add rt _ intervalMs _ => inferInstanceAs (Decidable (ArmOk c (s.set rt _) rt intervalMs))
  | .start rt intervalMs => inferInstanceAs (Decidable (∀ t ∈ s.timers rt, ArmOk c (s.set rt _) rt intervalMs))
  | .pass => inferInstanceAs (Decidable (∀ p ∈ fireExpired (c.read s.reads) s.rdTimers _, RestartOk c p.2.1 p.1))
  | .new .. => .isTrue trivial
  | .stop .. => .isTrue trivial
  | .destroy .. => .isTrue trivial
  | .callPop .. => .isTrue trivial
  | .callBegin .. => .isTrue trivial
  | .callEnd .. => .isTrue trivial

/-! ## Starting a timer -/

theorem timerStart_eq {s : State} {rt : Rt} {t : Timer} (ht : s.timers rt = some t) (intervalMs : Nat) :
    timerStart c s rt intervalMs = start0 c (s.set rt (some { t with interval := intervalMs })) rt intervalMs true := by
  simp [timerStart, ht]

theorem timerAdd_eq (s : State) (rt : Rt) (type : TimerType) (intervalMs : Nat) (rdt : Tid) :
    timerAdd c s rt type intervalMs rdt =
      start0 c (s.set rt (some (addTimer type intervalMs rdt))) rt intervalMs true := by
  simp [timerAdd, timerStart, timerNew, addTimer]

/-- What an operation does, in terms of `rd_timer_start0`, `rd_timer_stop0` and `rd_timer_destroy0`. -/
inductive Stepped (s : State) : Op → State → Prop
  | new {rt : Rt} {type : TimerType} {rdt : Tid} :
      Stepped s (.new rt type rdt) (s.set rt (some (initTimer type rdt)))
  | add {rt : Rt} {type : TimerType} {intervalMs : Nat} {rdt : Tid} {s' : State}
      (h : start0 c (s.set rt (some (addTimer type intervalMs rdt))) rt intervalMs true = some s') :
      Stepped s (.add rt type intervalMs rdt) s'
  | start {rt : Rt} {intervalMs : Nat} {t : Timer} {s' : State} (ht : s.timers rt = some t)
      (h : start0 c (s.set rt (some { t with interval := intervalMs })) rt intervalMs true = some s') :
      Stepped s (.start rt intervalMs) s'
  | stop {rt : Rt} {t : Timer} {s' : State} (ht : s.timers rt = some t) (h : stop0 c s rt = some s') :
      Stepped s (.stop rt) s'
  | destroy {rt : Rt} {t : Timer} {s' : State} (ht : s.timers rt = some t) (h : destroy0 c s rt = some s') :
      Stepped s (.destroy rt) s'
  | pass {s' : State} {o : List Alert} (h : timersPass c s = some (s', o)) : Stepped s .pass s'
  | callPop {tid : Tid} {e : Tid × Rt} :
      Stepped s (.callPop tid) { s with eventq := s.eventq.erase e, popped := e :: s.popped }
  | callBegin {tid : Tid} {e : Tid × Rt} :
      Stepped s (.callBegin tid) { s with popped := s.popped.erase e, executing := e :: s.executing }
  | callEnd {tid : Tid} {e : Tid × Rt} {t : Timer} {s1 s' : State} (ht : s.timers e.2 = some t)
      (h1 : s1 = { s with executing := s.executing.erase e }.set e.2
        (some { t with called := wrapInt (t.called - 1) }))
      (h : destroy0 c s1 e.2 = some s' ∨ s1 = s') : Stepped s (.callEnd tid) s'

theorem step_cases {s s' : State} {op : Op} {o : List Alert} (hok : Ok s op) (hrun : step c s op = some (s', o)) :
    Stepped c s op s' := by
  cases op with
  | new rt type rdt =>
    cases hrun
    exact .new
  | add rt type intervalMs rdt =>
    obtain ⟨s2, hs2, heq⟩ := Option.map_eq_some_iff.1 hrun
    cases heq
    exact .add (timerAdd_eq c s rt type intervalMs rdt ▸ hs2)
  | start rt intervalMs =>
    obtain ⟨t, ht, -⟩ := hok
    obtain ⟨s2, hs2, heq⟩ := Option.map_eq_some_iff.1 hrun
    cases heq
    exact .start ht (timerStart_eq c ht intervalMs ▸ hs2)
  | stop rt =>
    obtain ⟨t, ht, -⟩ := hok
    obtain ⟨s2, hs2, heq⟩ := Option.map_eq_some_iff.1 hrun
    cases heq
    exact .stop ht hs2
  | destroy rt =>
    obtain ⟨t, ht, -⟩ := hok
    obtain ⟨s2, hs2, heq⟩ := Option.map_eq_some_iff.1 hrun
    cases heq
    exact .destroy ht hs2
  | pass => exact .pass hrun
  | callPop tid =>
    simp only [step, callPop, Option.map_eq_some_iff, Prod.mk.injEq, Option.bind_eq_bind, Option.bind_eq_some_iff,
      Option.pure_def, Option.some.injEq] at hrun
    obtain ⟨s2, ⟨e, -, rfl⟩, rfl, -⟩ := hrun
    exact .callPop
  | callBegin tid =>
    simp only [step, callBegin, Option.map_eq_some_iff, Prod.mk.injEq, Option.bind_eq_bind, Option.bind_eq_some_iff,
      Option.pure_def, Option.some.injEq] at hrun
    obtain ⟨s2, ⟨e, -, t, -, -, -, rfl⟩, rfl, -⟩ := hrun
    exact .callBegin
  | callEnd tid =>
    simp only [step, callEnd, Option.map_eq_some_iff, Prod.mk.injEq, Option.bind_eq_bind,
      Option.bind_eq_some_iff] at hrun
    obtain ⟨s2, ⟨e, -, t, ht, hs2⟩, rfl, -⟩ := hrun
    split at hs2
    · exact .callEnd ht rfl (.inl hs2)
    · split at hs2
      · exact .callEnd ht rfl (.inl hs2)
      · exact .callEnd ht rfl (.inr (Option.some.inj hs2))

/-! ## One pass -/

/-- The timers taken off `rd_timers` by the first loop: each once, and none of them armed. -/
structure Callouts (s : State) (l : List Rt) : Prop where
  nodup : l.Nodup
  idle : ∀ rt ∈ l, ∃ t, s.timers rt = some t ∧ t.next = 0

theorem Callouts.tail {s s' : State} {rt : Rt} {l : List Rt} (h : Callouts s (rt :: l))
    (ht : ∀ a, a ≠ rt → s'.timers a = s.timers a) : Callouts s' l := by
  have hnd := List.nodup_cons.1 h.nodup
  refine ⟨hnd.2, fun a ha => ?_⟩
  rw [ht a (by rintro rfl; exact hnd.1 ha)]
  exact h.idle a (List.mem_cons_of_mem _ ha)

/-- Firing the first timer. -/
theorem fire_callouts {s : State} {rt : Rt} {t : Timer} {cs : List Rt} (h : Callouts s cs) (ht : s.timers rt = some t)
    (hne : t.next ≠ 0) : Callouts (fire s rt t) (cs ++ [rt]) := by
  have hrt : rt ∉ cs := by
    intro hm
    obtain ⟨t', ht', h0⟩ := h.idle rt hm
    rw [ht] at ht'
    cases ht'
    exact hne h0
  refine ⟨List.nodup_append.2 ⟨h.nodup, List.nodup_singleton rt, ?_⟩, ?_⟩
  · rintro a ha b hb rfl
    exact hrt (List.mem_singleton.1 hb ▸ ha)
  · intro a ha
    by_cases hart : a = rt
    · subst hart
      exact ⟨_, set_timers_self .., rfl⟩
    · obtain ⟨t', ht', h0⟩ := h.idle a ((List.mem_append.1 ha).resolve_right (by simpa using hart))
      exact ⟨t', by rw [← ht']; exact set_timers_of_ne _ hart, h0⟩

theorem fire_timed {s : State} {rt : Rt} {t : Timer} {rest : List Rt} (hL : Listed s) (hT : Timed s)
    (hl : s.rdTimers = rt :: rest) : Timed (fire s rt t) := by
  have hnd := List.nodup_cons.1 (hl ▸ hL.nodup)
  have htail : (fire s rt t).rdTimers = rest := by simp [fire, hl]
  refine hT.sublist (List.tail_sublist _) (fun a ha => set_timers_of_ne _ ?_) (fun a ha => ?_) hT.sleeping
  · rintro rfl
    rw [htail] at ha
    exact hnd.1 ha
  · rw [htail] at ha
    exact hT.next_le a (hl ▸ List.mem_cons_of_mem _ ha)

/-- **A pass** that compares right keeps the deadlines in order. -/
theorem timersPass_timed {s s' : State} {alerts : List Alert} (hL : Listed s) (hT : Timed s) (hok : CmpOk c s .pass)
    (hrun : timersPass c s = some (s', alerts)) : Listed s' ∧ Timed s' := by
  -- the first loop: with something to call out, `rd_timers_next_ts` is over
  obtain ⟨s1, callouts, al, hfire, hL1, hT1, hover, hreads, hcall⟩ := fireExpired_ok (c.read s.reads)
    (I := fun s1 cs => Timed s1 ∧ (cs ≠ [] → timespecToTs s1.nextTs ≤ c.read s.reads) ∧ s1.reads = s.reads + 1 ∧
      Callouts s1 cs)
    (by
      rintro s1 cs rt t rest hL1 ⟨hT1, -, hreads, hcs⟩ hl ht hdue
      have hm : rt ∈ s1.rdTimers := hl ▸ List.mem_cons_self
      refine ⟨fire_timed hL1 hT1 hl, fun _ => ?_, hreads, fire_callouts hcs ht ((hL1.armed rt t ht).2 hm)⟩
      have hle := hT1.next_le rt hm
      rw [nextOf_eq ht] at hle
      exact Nat.le_trans hle hdue)
    s.rdTimers s.tick [] rfl { hL with } ⟨{ hT with }, by simp, rfl, .nil, by simp⟩
  simp only [List.nil_append] at hover hcall
  have hrok : RestartOk c callouts s1 := hok (s1, callouts, al) hfire
  -- the second loop: the timers restarted expire after `rd_timers_next_ts`
  obtain ⟨s2, hrestart, hL2, hT2, -⟩ := restart_ok c
    (I := fun s l => Listed s ∧ Timed s ∧ (l ≠ [] → timespecToTs s.nextTs ≤ c.read s.reads) ∧ Callouts s l ∧
      RestartOk c l s)
    (by
      rintro s rt rest ⟨hL, -, -, hcs, -⟩
      obtain ⟨t, ht, -⟩ := hcs.idle rt List.mem_cons_self
      exact ⟨hL, by simp [ht]⟩)
    (by
      rintro s rt rest t ⟨hL, hT, hover, hcs, hrok⟩ ht htype
      have := hrok t ht
      rw [if_neg htype] at this
      exact ⟨hL, hT, fun _ => hover (by simp), hcs.tail fun _ _ => rfl, this⟩)
    (by
      rintro s rt rest t s' ⟨hL, hT, hover, hcs, hrok⟩ ht htype hs'
      obtain ⟨t', ht', h0⟩ := hcs.idle rt List.mem_cons_self
      rw [ht] at ht'
      cases ht'
      have hrok := hrok t ht
      rw [if_pos htype] at hrok
      have hover := hover (by simp)
      obtain ⟨s2, hs2, hst, htimed, hover'⟩ := start0_ok c hL ht t.interval false
      rw [hs'] at hs2
      cases hs2
      obtain ⟨next, -, htimers⟩ := hst.timers_eq
      exact ⟨hst.listed hL, htimed hT hrok.1 (.inr ⟨h0, hover⟩), fun _ => hover' h0 hover,
        hcs.tail fun a ha => by rw [htimers, set_timers_of_ne _ ha], hrok.2 s' hs'⟩)
    callouts s1 ⟨hL1, hT1, fun hne => Nat.le_trans (hover hne) (by rw [hreads]; exact c.mono _), hcall, hrok⟩
  -- the next deadline
  obtain ⟨ts, k, hu, hle⟩ := nextUpdate_ok c s2 s2.rdTimers.head? fun rt hrt => hL2.alloc rt (List.mem_of_mem_head? hrt)
  have hs' : s' = { s2 with nextTs := ts, reads := s2.reads + k, sleeping := some ts } := by
    simp [timersPass, rdClock, hfire, hrestart, hu] at hrun
    exact hrun.1.symm
  subst hs'
  refine ⟨{ hL2 with }, hT2.sorted, ?_, by simp⟩
  intro a ha
  simp only at ha ⊢
  cases hl : s2.rdTimers with
  | nil => rw [hl] at ha; cases ha
  | cons b l =>
    have hb := hle b (by rw [hl]; rfl)
    rw [hl] at ha
    rcases List.mem_cons.1 ha with rfl | ha
    · exact hb
    · exact Nat.le_trans hb ((List.pairwise_cons.1 (hl ▸ hT2.sorted)).1 a ha)

/-! ## Runs -/

theorem start0_timed {s s' : State} {rt : Rt} {t : Timer} {intervalMs : Nat} (hL : Listed s) (hT : Timed s)
    (ht : s.timers rt = some t) (harm : ArmOk c s rt intervalMs)
    (hrun : start0 c s rt intervalMs true = some s') : Listed s' ∧ Timed s' := by
  obtain ⟨s2, hs2, hst, htimed, -⟩ := start0_ok c hL ht intervalMs true
  rw [hrun] at hs2
  cases hs2
  exact ⟨hst.listed hL, htimed hT harm (.inl rfl)⟩

theorem destroy0_timed {s s' : State} {rt : Rt} {t : Timer} (hL : Listed s) (hT : Timed s) (ht : s.timers rt = some t)
    (hrun : destroy0 c s rt = some s') : Listed s' ∧ Timed s' := by
  have hd := hL.destroyed c ht hrun
  exact ⟨hd.listed, hd.timed hT⟩

/-- A timer at a new address. -/
theorem new_timed {s : State} {rt : Rt} {t : Timer} (hL : Listed s) (hT : Timed s) (hnone : s.timers rt = none)
    (h0 : t.next = 0) : Listed (s.set rt (some t)) ∧ Timed (s.set rt (some t)) := by
  have hm : rt ∉ s.rdTimers := fun hm => hL.alloc rt hm hnone
  exact ⟨hL.made hnone h0, hT.set fun h => absurd h hm⟩

/-- A change of a timer that keeps its `rt_next`. -/
theorem set_timed {s : State} {rt : Rt} {t : Timer} (hL : Listed s) (hT : Timed s) (ht : s.timers rt = some t)
    (t' : Timer) (h0 : t'.next = t.next) : Listed (s.set rt (some t')) ∧ Timed (s.set rt (some t')) :=
  ⟨hL.set (by rw [h0]; exact hL.armed rt t ht), hT.set fun _ => by rw [nextOf_eq ht, h0]⟩

/-- **One step** that compares right keeps the deadlines in order. -/
theorem step_timed (s : State) (op : Op) (s' : State) (o : List Alert) (h : Listed s ∧ Timed s)
    (hok : Ok s op ∧ CmpOk c s op) (hrun : step c s op = some (s', o)) : Listed s' ∧ Timed s' := by
  obtain ⟨hL, hT⟩ := h
  obtain ⟨hok, hcmp⟩ := hok
  cases step_cases c hok hrun with
  | new => exact new_timed hL hT hok rfl
  | @add rt type intervalMs rdt _ hs' =>
    obtain ⟨hL1, hT1⟩ := @new_timed s rt (addTimer type intervalMs rdt) hL hT hok rfl
    exact start0_timed c hL1 hT1 (set_timers_self ..) hcmp hs'
  | @start rt intervalMs t _ ht hs' =>
    obtain ⟨hL1, hT1⟩ := set_timed hL hT ht { t with interval := intervalMs } rfl
    exact start0_timed c hL1 hT1 (set_timers_self ..) (hcmp t ht) hs'
  | stop ht hs' =>
    have hst := hL.stopped c ht hs'
    exact ⟨hst.listed, hst.timed hT⟩
  | destroy ht hs' => exact destroy0_timed c hL hT ht hs'
  | pass hs' => exact timersPass_timed c hL hT hcmp hs'
  | callPop => exact ⟨{ hL with }, { hT with }⟩
  | callBegin => exact ⟨{ hL with }, { hT with }⟩
  | @callEnd _ e t s1 _ ht h1 hs' =>
    have hL0 : Listed { s with executing := s.executing.erase e } := { hL with }
    have hT0 : Timed { s with executing := s.executing.erase e } := { hT with }
    obtain ⟨hL1, hT1⟩ := set_timed hL0 hT0 ht { t with called := wrapInt (t.called - 1) } rfl
    subst h1
    rcases hs' with hs' | rfl
    · exact destroy0_timed c hL1 hT1 (set_timers_self ..) hs'
    · exact ⟨hL1, hT1⟩

theorem init_timed : Listed init ∧ Timed init :=
  ⟨⟨.nil, by simp [init], by simp [init]⟩, ⟨.nil, by simp [init], by simp [init]⟩⟩

/-- **Deadlines.** In every run whose sorted insertions compare right, whenever the lock is free `rd_timers` ascends and
the timer thread sleeps until the first expiry at most. -/
theorem always_ordered (ops : List Op) (hok : (machine c).Admits init ops)
    (hcmp : (machine c).Each (CmpOk c) init ops) :
    (machine c).Always Ordered init ops :=
  Machine.always_inv (fun _ h => Timed.ordered h.1 h.2) (step_timed c) ops init init_timed (Machine.each_and hok hcmp)

/-- A clock that stands at one second. -/
def oneSecond : Clock := ⟨fun _ => 1000000, fun _ => Nat.le_refl _, fun _ => by decide, fun _ => by decide⟩

/-- A timer that recurs every second and one due in 10 s. -/
theorem always_ordered_two :
    let ops : List Op := [.pass, .new 1 .recurr 0, .start 1 1000, .new 2 .once 0, .start 2 10000, .pass, .stop 1]
    (machine oneSecond).Admits init ops ∧ (machine oneSecond).Each (CmpOk oneSecond) init ops ∧
      (machine oneSecond).Always Ordered init ops :=
  ⟨by decide, by decide, always_ordered oneSecond _ (by decide) (by decide)⟩

/-- A timer due in 1 s and one due in 3000 s: the second is put first, and the pass that follows lets the timer thread
sleep until it. -/
theorem sleeps_past :
    let ops : List Op := [.pass, .new 1 .once 0, .start 1 1000, .new 2 .once 0, .start 2 3000000, .pass]
    (machine oneSecond).Admits init ops ∧ ∃ s outs, (machine oneSecond).run init ops = some (s, outs) ∧
      ¬(s.rdTimers.Pairwise fun a b => s.nextOf a ≤ s.nextOf b) ∧ 1 ∈ s.rdTimers ∧
      ∃ t ∈ s.sleeping, s.nextOf 1 < timespecToTs t ∧ s.nextOf 1 < timespecToTs s.nextTs :=
  ⟨by decide, _, _, rfl, by decide, by decide, _, rfl, by decide, by decide⟩

end Librd.Timers
