import Librd.Timers.Arming

/-!
# Timers: no callback is missed

A pass of `rd_timers_run` stops at the first timer that is not due. In every run whose sorted insertions compare right
`rd_timers` ascends, so that this is all it has to look at: every pass queues exactly the callbacks of the timers that
are due when it reads the clock, each once, on the thread of the timer and in the order of expiry; a timer that is due
once is then idle, one that recurs is armed for one interval after a later reading, and all others are left alone
(`always_punctual`).
-/

namespace Librd.Timers

variable (c : Clock)

/-! ## What a pass has to do -/

/-- The timers that are due at the time `now`, first the one that expired first. -/
def State.due (s : State) (now : Nat) : List Rt := s.rdTimers.filter fun rt => s.nextOf rt ≤ now

/-- The event `rd_timer_call` of a timer. -/
def State.event (s : State) (rt : Rt) : Option (Tid × Rt) := (s.timers rt).map fun t => (t.thread, rt)

/-- The alerts about the threads of some timers. -/
def State.stalls (s : State) (l : List Rt) : List Alert :=
  l.flatMap fun rt => (s.timers rt).elim [] (stallAlert rt)

/-- The timer `t` after its callback was queued: a recurring one is armed anew, at one of the readings from `k₀` to
`k₁`, without the last. -/
structure Rung (k₀ k₁ : Nat) (t t' : Timer) : Prop where
  eq : t' = { t with next := t'.next, called := wrapInt (t.called + 1) }
  once : t.type = .once → t'.next = 0
  recurr : t.type = .recurr → ∃ k, k₀ ≤ k ∧ k < k₁ ∧ t'.next = expiry (c.read k) t.interval

/-- A pass from `s` to `s'` that is on time. -/
structure Punctual (s s' : State) (alerts : List Alert) : Prop where
  eventq_eq : s'.eventq = s.eventq ++ (s.due (rdClock c s)).filterMap s.event
  alerts_eq : alerts = s.stalls (s.due (rdClock c s))
  due : ∀ rt ∈ s.due (rdClock c s), ∃ t t', s.timers rt = some t ∧ s'.timers rt = some t' ∧
    Rung c (s.reads + 1) s'.reads t t'
  other : ∀ rt ∉ s.due (rdClock c s), s'.timers rt = s.timers rt
  sleeping : ∃ ts, s'.sleeping = some ts ∧ ∀ rt ∈ s'.rdTimers, timespecToTs ts ≤ s'.nextOf rt

/-! ## The first loop -/

/-- What firing the timers of `l` does. -/
structure Fired (s : State) (l : List Rt) (s' : State) (alerts : List Alert) : Prop where
  eventq_eq : s'.eventq = s.eventq ++ l.filterMap s.event
  alerts_eq : alerts = s.stalls l
  due : ∀ rt ∈ l, ∀ t, s.timers rt = some t →
    s'.timers rt = some { t with next := 0, called := wrapInt (t.called + 1) }
  other : ∀ rt ∉ l, s'.timers rt = s.timers rt
  reads_eq : s'.reads = s.reads

section Fire

variable {s : State} {rt : Rt} {t : Timer}

theorem fire_timers_of_ne {a : Rt} (h : a ≠ rt) : (fire s rt t).timers a = s.timers a := set_timers_of_ne _ h

theorem fire_event (ht : s.timers rt = some t) : (fire s rt t).event = s.event := by
  funext a
  by_cases ha : a = rt
  · subst ha
    simp [State.event, fire, ht]
  · simp only [State.event, fire_timers_of_ne ha]

theorem fire_stalls {l : List Rt} (hrt : rt ∉ l) : (fire s rt t).stalls l = s.stalls l := by
  simp only [State.stalls]
  apply List.flatMap_congr
  intro a ha
  rw [fire_timers_of_ne (by rintro rfl; exact hrt ha)]

/-- The first timer and then the others. -/
theorem Fired.cons {s' : State} {l : List Rt} {alerts : List Alert} (h : Fired (fire s rt t) l s' alerts)
    (ht : s.timers rt = some t) (hrt : rt ∉ l) : Fired s (rt :: l) s' (stallAlert rt t ++ alerts) where
  eventq_eq := by
    have hev : s.event rt = some (t.thread, rt) := by simp [State.event, ht]
    rw [h.eventq_eq, fire_event ht, List.filterMap_cons_some hev]
    simp [fire]
  alerts_eq := by
    rw [h.alerts_eq, fire_stalls hrt]
    simp [State.stalls, ht]
  due := by
    intro a ha ta hta
    rcases List.mem_cons.1 ha with rfl | hl
    · rw [ht] at hta
      cases hta
      rw [h.other a hrt]
      exact set_timers_self ..
    · refine h.due a hl ta ?_
      rw [fire_timers_of_ne (by rintro rfl; exact hrt hl), hta]
  other := by
    intro a ha
    obtain ⟨hne, hl⟩ := not_or.1 (mt List.mem_cons.2 ha)
    rw [h.other a hl, fire_timers_of_ne hne]
  reads_eq := h.reads_eq

end Fire

/-- **The first loop** over ascending timers takes off exactly those that are due. -/
theorem fireExpired_due (now : Nat) : ∀ (l : List Rt) (s : State), s.rdTimers = l → Listed s → Timed s →
    ∃ s' alerts, fireExpired now l s = some (s', s.due now, alerts) ∧ Fired s (s.due now) s' alerts
  | [], s, hl, _, _ => by
    have hdue : s.due now = [] := by simp [State.due, hl]
    rw [hdue]
    exact ⟨s, [], rfl, by simp, rfl, by simp, fun _ _ => rfl, rfl⟩
  | rt :: rest, s, hl, hL, hT => by
    obtain ⟨t, ht, -⟩ := hL.exists_timer (hl ▸ List.mem_cons_self : rt ∈ s.rdTimers)
    have hnd := List.nodup_cons.1 (hl ▸ hL.nodup)
    have hsorted := List.pairwise_cons.1 (hl ▸ hT.sorted)
    by_cases hle : t.next ≤ now
    · have hrest : (fire s rt t).rdTimers = rest := by simp [fire, hl]
      have hdue : s.due now = rt :: (fire s rt t).due now := by
        rw [State.due, hl, List.filter_cons_of_pos (by simpa [nextOf_eq ht] using hle), State.due, hrest]
        congr 1
        apply List.filter_congr
        intro a ha
        rw [nextOf_congr (fire_timers_of_ne (by rintro rfl; exact hnd.1 ha))]
      have hnot : rt ∉ (fire s rt t).due now := fun hm => hnd.1 (hrest ▸ (List.mem_filter.1 hm).1)
      obtain ⟨s', alerts, hrun, hfired⟩ := fireExpired_due now rest (fire s rt t) hrest (fire_listed hL hl)
        (fire_timed hL hT hl)
      refine ⟨s', stallAlert rt t ++ alerts, by simp [fireExpired, ht, hle, hrun, hdue], ?_⟩
      rw [hdue]
      exact hfired.cons ht hnot
    · -- the first timer is not due, and the others expire after it
      have hdue : s.due now = [] := by
        rw [State.due, hl, List.filter_eq_nil_iff]
        intro a ha
        have hfirst : s.nextOf rt ≤ s.nextOf a := by
          rcases List.mem_cons.1 ha with rfl | ha
          · exact Nat.le_refl _
          · exact hsorted.1 a ha
        rw [nextOf_eq ht] at hfirst
        simp only [decide_eq_true_eq]
        omega
      rw [hdue]
      exact ⟨s, [], by simp [fireExpired, ht, hle], by simp, rfl, by simp, fun _ _ => rfl, rfl⟩

/-! ## The second loop -/

/-- A timer after the second loop, which was `t`: armed anew if it recurs. -/
structure Rearmed (k₀ k₁ : Nat) (t t' : Timer) : Prop where
  eq : t' = { t with next := t'.next }
  once : t.type = .once → t' = t
  recurr : t.type = .recurr → ∃ k, k₀ ≤ k ∧ k < k₁ ∧ t'.next = expiry (c.read k) t.interval

/-- What restarting the recurring timers of `l` does. -/
structure Restarted (s : State) (l : List Rt) (s' : State) : Prop where
  eventq_eq : s'.eventq = s.eventq
  callout : ∀ rt ∈ l, ∀ t, s.timers rt = some t → ∃ t', s'.timers rt = some t' ∧ Rearmed c s.reads s'.reads t t'
  other : ∀ rt ∉ l, s'.timers rt = s.timers rt
  reads_le : s.reads ≤ s'.reads

/-- **`rd_timer_start0`** of a timer that is not armed, without an update. -/
theorem start0_idle {s s' : State} {rt : Rt} {t : Timer} {intervalMs : Nat} (hL : Listed s) (ht : s.timers rt = some t)
    (h0 : t.next = 0) (hrun : start0 c s rt intervalMs false = some s') :
    s'.timers = (s.set rt (some { t with next := expiry (c.read s.reads) intervalMs })).timers ∧
      s'.reads = s.reads + 1 := by
  obtain ⟨s1, hstop, hst⟩ := stop0_ok c hL ht
  obtain rfl : s1 = s := hst.idle h0
  rw [start0_eq c hst intervalMs hstop] at hrun
  split at hrun
  · cases hrun
    exact ⟨rfl, rfl⟩
  · obtain ⟨l, -, rfl⟩ := Option.map_eq_some_iff.1 hrun
    exact ⟨rfl, rfl⟩

/-- **The second loop.** -/
theorem restart_callouts : ∀ (l : List Rt) (s s' : State), Listed s → Callouts s l → restart c l s = some s' →
    Restarted c s l s'
  | [], s, s', _, _, hrun => by
    cases hrun
    exact ⟨rfl, by simp, fun _ _ => rfl, Nat.le_refl _⟩
  | rt :: rest, s, s', hL, hcs, hrun => by
    obtain ⟨t, ht, h0⟩ := hcs.idle rt List.mem_cons_self
    have hnd := List.nodup_cons.1 hcs.nodup
    cases htype : t.type with
    | once =>
      simp only [restart, ht, htype, Option.bind_eq_bind, Option.bind_some,
        if_neg (by decide : ¬TimerType.once = .recurr)]
        at hrun
      have h := restart_callouts rest s s' hL (hcs.tail fun _ _ => rfl) hrun
      refine ⟨h.eventq_eq, ?_, fun a ha => h.other a (mt (List.mem_cons_of_mem _) ha), h.reads_le⟩
      intro a ha ta hta
      rcases List.mem_cons.1 ha with rfl | ha
      · rw [ht] at hta
        cases hta
        exact ⟨t, by rw [h.other a hnd.1, ht], rfl, fun _ => rfl, fun hr => by rw [htype] at hr; cases hr⟩
      · exact h.callout a ha ta hta
    | recurr =>
      simp only [restart, ht, htype, Option.bind_eq_bind, Option.bind_some, if_pos, Option.bind_eq_some_iff] at hrun
      obtain ⟨s1, hs1, hrun⟩ := hrun
      have hstart := hL.started c ht hs1
      obtain ⟨htimers, hreads⟩ := start0_idle c hL ht h0 hs1
      have hsame : ∀ a, a ≠ rt → s1.timers a = s.timers a := fun a ha => by rw [htimers, set_timers_of_ne _ ha]
      have h := restart_callouts rest s1 s' (hstart.listed hL) (hcs.tail hsame) hrun
      have hle := h.reads_le
      refine ⟨h.eventq_eq.trans hstart.eventq_eq, ?_, ?_, by omega⟩
      · intro a ha ta hta
        rcases List.mem_cons.1 ha with rfl | hl
        · rw [ht] at hta
          cases hta
          refine ⟨_, by rw [h.other a hnd.1, htimers]; exact set_timers_self .., rfl, ?_, ?_⟩
          · intro ho
            rw [htype] at ho
            cases ho
          · exact fun _ => ⟨s.reads, Nat.le_refl _, by omega, rfl⟩
        · rw [← hsame a (by rintro rfl; exact hnd.1 hl)] at hta
          obtain ⟨t', ht', hre⟩ := h.callout a hl ta hta
          refine ⟨t', ht', hre.eq, hre.once, fun hr => ?_⟩
          obtain ⟨k, hk, hlt, hnext⟩ := hre.recurr hr
          exact ⟨k, by omega, hlt, hnext⟩
      · intro a ha
        obtain ⟨hne, hl⟩ := not_or.1 (mt List.mem_cons.2 ha)
        rw [h.other a hl, hsame a hne]

/-! ## Runs -/

/-- **A pass** with the timers in order is on time. -/
theorem timersPass_punctual {s : State} (hL : Listed s) (hT : Timed s) (hcmp : CmpOk c s .pass) :
    ∃ s' alerts, timersPass c s = some (s', alerts) ∧ Punctual c s s' alerts := by
  have hLt : Listed s.tick := { hL with }
  have hTt : Timed s.tick := { hT with }
  obtain ⟨s1, callouts, al, hfire, hL1, hcs⟩ := fireExpired_ok (rdClock c s) (I := Callouts)
    (fun s cs rt t rest hL hcs hl ht _ => fire_callouts hcs ht ((hL.armed rt t ht).2 (hl ▸ List.mem_cons_self)))
    s.rdTimers s.tick [] rfl hLt ⟨.nil, by simp⟩
  obtain ⟨s1', al', hfire', hfired⟩ := fireExpired_due (rdClock c s) s.rdTimers s.tick rfl hLt hTt
  rw [hfire] at hfire'
  obtain ⟨rfl, rfl, rfl⟩ : s1 = s1' ∧ callouts = s.tick.due (rdClock c s) ∧ al = al' := by simpa using hfire'
  rw [List.nil_append] at hcs
  obtain ⟨s2, hrestart, hL2, -⟩ := restart_ok c (I := fun s l => Listed s ∧ Callouts s l)
    (by
      rintro s rt rest ⟨hL, hcs⟩
      obtain ⟨t, ht, -⟩ := hcs.idle rt List.mem_cons_self
      exact ⟨hL, by simp [ht]⟩)
    (fun s rt rest t h _ _ => ⟨h.1, h.2.tail fun _ _ => rfl⟩)
    (by
      rintro s rt rest t s' ⟨hL, hcs⟩ ht - hs'
      have hstart := hL.started c ht hs'
      obtain ⟨next, -, htimers⟩ := hstart.timers_eq
      exact ⟨hstart.listed hL, hcs.tail fun a ha => by rw [htimers, set_timers_of_ne _ ha]⟩)
    _ s1 ⟨hL1, hcs⟩
  have hre := restart_callouts c _ s1 s2 hL1 hcs hrestart
  obtain ⟨ts, k, hu, -⟩ := nextUpdate_ok c s2 s2.rdTimers.head? fun rt hrt => hL2.alloc rt (List.mem_of_mem_head? hrt)
  have hrun : timersPass c s = some ({ s2 with nextTs := ts, reads := s2.reads + k, sleeping := some ts }, al) := by
    simp only [timersPass, tick_rdTimers, hfire, hrestart, hu, Option.bind_eq_bind, Option.bind_some, Option.pure_def]
  obtain ⟨-, hT'⟩ := timersPass_timed c hL hT hcmp hrun
  refine ⟨_, al, hrun, hre.eventq_eq.trans hfired.eventq_eq, hfired.alerts_eq, ?_, ?_, ts, rfl, hT'.next_le⟩
  · intro rt hrt
    obtain ⟨t, ht, -⟩ := hL.exists_timer (List.mem_filter.1 hrt).1
    obtain ⟨t', ht', hr⟩ := hre.callout rt hrt _ (hfired.due rt hrt t ht)
    refine ⟨t, t', ht, ht', hr.eq, fun ho => ?_, fun hrec => ?_⟩
    · rw [hr.once ho]
    · obtain ⟨k, hk, hlt, hnext⟩ := hr.recurr hrec
      rw [hfired.reads_eq] at hk
      exact ⟨k, hk, Nat.lt_of_lt_of_le hlt (Nat.le_add_right ..), hnext⟩
  · intro rt hrt
    exact (hre.other rt hrt).trans (hfired.other rt hrt)

/-- **Never late.** In every run whose sorted insertions compare right, every pass is on time. -/
theorem always_punctual (ops : List Op) (hok : (machine c).Admits init ops)
    (hcmp : (machine c).Each (CmpOk c) init ops) :
    (machine c).Each (fun s op => op = .pass → ∃ s' alerts, timersPass c s = some (s', alerts) ∧ Punctual c s s' alerts)
      init ops := by
  refine Machine.each_inv (I := fun s => Listed s ∧ Timed s) ?_ (step_timed c) ops init init_timed
    (Machine.each_and hok hcmp)
  rintro s op ⟨hL, hT⟩ ⟨-, hcmp⟩ rfl
  exact timersPass_punctual c hL hT hcmp

/-- A timer that recurs every millisecond, one due after 2 ms and one due after 3 ms, over three passes. -/
theorem always_punctual_three :
    let ops : List Op :=
      [.new 1 .recurr 0, .start 1 1, .new 2 .once 1, .start 2 2, .pass, .new 3 .once 1, .start 3 3, .pass,
      .pass]
    (machine ticking).Admits init ops ∧ (machine ticking).Each (CmpOk ticking) init ops ∧
      (machine ticking).Each (fun s op => op = .pass →
        ∃ s' alerts, timersPass ticking s = some (s', alerts) ∧ Punctual ticking s s' alerts) init ops :=
  ⟨by decide, by decide, always_punctual ticking _ (by decide) (by decide)⟩

end Librd.Timers
