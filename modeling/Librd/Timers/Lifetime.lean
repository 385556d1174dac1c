import Librd.Timers.Deadline

/-!
# Timers: lifetimes

Along every interleaving in which a timer fires with fewer than `2 ^ 31 - 1` events pending (`CountOk`), nothing faults:
no assertion fails and no timer is used after it was freed, or freed twice. `rt_called` is the number of pending events,
`rt_next` is set exactly when the timer is on `rd_timers`, a timer is freed only when it is not on `rd_timers` and has
no pending event, and a destroyed timer without pending events is freed (`run_lifetimes`).

`rt_called` is an `int`: a recurring timer whose thread does not run makes it wrap around (`called_wraps`).
-/

namespace Librd.Timers

variable (c : Clock)

/-- The events of a timer that are queued, taken off a queue, or executing. -/
def State.pending (s : State) (rt : Rt) : Nat :=
  (s.eventq.map Prod.snd).count rt + (s.popped.map Prod.snd).count rt + (s.executing.map Prod.snd).count rt

/-- What a timer with `n` pending events looks like; `none` is a timer that is not allocated. -/
def Counts : Option Timer → Nat → Prop
  | none, n => n = 0
  | some t, n => t.called = n ∧ n < 2 ^ 31 ∧ (t.removed = true → 0 < n ∧ t.next = 0 ∧ t.atomic = false) ∧
    (t.atomic = true → t.type = .once → n + (if t.next ≠ 0 then 1 else 0) ≤ 1)

/-- `rt_called` counts the pending events of every timer. -/
def Counted (s : State) : Prop := ∀ rt, Counts (s.timers rt) (s.pending rt)

/-- The timer is freed, or it is flagged for removal. -/
def Gone (s : State) (rt : Rt) : Prop := ∀ t, s.timers rt = some t → t.removed = true

/-- A pass fires no timer whose `rt_called` is `INT_MAX`. -/
def CountOk (s : State) : Op → Prop
  | .pass => ∀ rt ∈ s.rdTimers, ∀ t ∈ s.timers rt, t.next ≤ c.read s.reads → t.called < 2 ^ 31 - 1
  | _ => True

instance CountOk.decidable (s : State) : (op : Op) → Decidable (CountOk c s op)
  | .pass => inferInstanceAs (Decidable (∀ rt ∈ s.rdTimers, ∀ t ∈ s.timers rt, _))
  | .new .. => .isTrue trivial
  | .add .. => .isTrue trivial
  | .start .. => .isTrue trivial
  | .stop .. => .isTrue trivial
  | .destroy .. => .isTrue trivial
  | .callPop .. => .isTrue trivial
  | .callBegin .. => .isTrue trivial
  | .callEnd .. => .isTrue trivial

/-! ## Changing one timer -/

section OneTimer

variable {s s' : State} {rt : Rt} {t : Timer} {cell : Option Timer}

theorem pending_congr (he : s'.eventq = s.eventq) (hp : s'.popped = s.popped) (hx : s'.executing = s.executing)
    (a : Rt) : s'.pending a = s.pending a := by
  simp [State.pending, he, hp, hx]

/-- An operation that changes the timer `rt` only. -/
theorem Counted.set (h : Counted s) (ht : s'.timers = (s.set rt cell).timers)
    (hp : ∀ a, a ≠ rt → s'.pending a = s.pending a) (hc : Counts cell (s'.pending rt)) : Counted s' := by
  intro a
  by_cases ha : a = rt
  · subst ha
    rwa [ht, set_timers_self]
  · rw [ht, set_timers_of_ne _ ha, hp a ha]
    exact h a

/-- An operation on a timer that is not flagged for removal leaves the flagged ones flagged. -/
theorem Gone.set {a : Rt} (h : Gone s a) (ht : s'.timers = (s.set rt cell).timers)
    (hc : a = rt → ∀ t, cell = some t → t.removed = true) : Gone s' a := by
  intro t hta
  by_cases ha : a = rt
  · subst ha
    rw [ht, set_timers_self] at hta
    exact hc rfl t hta
  · rw [ht, set_timers_of_ne _ ha] at hta
    exact h t hta

theorem Gone.not_managed {a : Rt} (h : Gone s a) (ht : s.timers a = some t) (hr : t.removed = false) : False := by
  rw [h t ht] at hr
  cases hr

theorem Counted.timer (h : Counted s) (ht : s.timers rt = some t) : Counts (some t) (s.pending rt) := ht ▸ h rt

theorem wrapInt_eq {x : Int} (h0 : -2 ^ 31 ≤ x) (h1 : x < 2 ^ 31) : wrapInt x = x := by
  rw [wrapInt, Int.bmod_eq_of_le] <;> omega

end OneTimer

/-! ## The operations -/

section Ops

variable {s s' : State} {rt : Rt} {t : Timer}

theorem start_counts (h : Counted s) (ht : s.timers rt = some t) (hr : t.removed = false)
    (ha : t.atomic = true → t.type = .once → s.pending rt = 0) (hst : Started s rt t s') : Counted s' := by
  obtain ⟨next, -, htimers⟩ := hst.timers_eq
  have hp := pending_congr hst.eventq_eq hst.popped_eq hst.executing_eq
  apply h.set htimers (fun a _ => hp a)
  rw [hp]
  obtain ⟨h1, h2, -, -⟩ := h.timer ht
  refine ⟨h1, h2, by simp [hr], fun h3 h4 => ?_⟩
  rw [ha h3 h4]
  split <;> omega

theorem stop_counts (h : Counted s) (ht : s.timers rt = some t) (hst : Stopped s rt t s') : Counted s' := by
  have hp := pending_congr hst.eventq_eq hst.popped_eq hst.executing_eq
  apply h.set hst.timers_eq (fun a _ => hp a)
  rw [hp]
  obtain ⟨h1, h2, h3, h4⟩ := h.timer ht
  refine ⟨h1, h2, fun hr => ⟨(h3 hr).1, rfl, (h3 hr).2.2⟩, fun ha ho => ?_⟩
  have := h4 ha ho
  simp only [ne_eq, not_true_eq_false, if_false]
  omega

theorem remains_counts {n : Nat} (h : Counts (some t) n) (ha : t.atomic = true → n = 0) : Counts (remains t) n := by
  obtain ⟨h1, h2, -, -⟩ := h
  by_cases hc : t.called = 0
  · rw [remains, if_neg (not_not.2 hc)]
    exact Int.ofNat_inj.1 (h1 ▸ hc)
  · rw [remains, if_pos hc]
    have hpos : 0 < n := by omega
    have hat : t.atomic = false := by
      cases hat : t.atomic with
      | false => rfl
      | true => have := ha hat; omega
    exact ⟨h1, h2, fun _ => ⟨hpos, rfl, hat⟩, by simp [hat]⟩

theorem destroy_counts (h : Counted s) (hc : Counts (remains t) (s.pending rt)) (hd : Destroyed s rt t s') :
    Counted s' := by
  have hp := pending_congr hd.eventq_eq hd.popped_eq hd.executing_eq
  apply h.set hd.timers_eq (fun a _ => hp a)
  rw [hp]
  exact hc

theorem remains_removed {t' : Timer} (h : remains t = some t') : t'.removed = true := by
  unfold remains at h
  split at h
  · cases h; rfl
  · cases h

theorem fire_pending (a : Rt) : (fire s rt t).pending a = s.pending a + if a = rt then 1 else 0 := by
  simp only [State.pending, fire, set_eventq, set_popped, set_executing, List.map_append,
    List.count_append, List.map_cons,
    List.map_nil, List.count_singleton, beq_iff_eq, eq_comm (a := a)]
  omega

theorem fire_counts (h : Counted s) (ht : s.timers rt = some t) (hne : t.next ≠ 0) (hc : t.called < 2 ^ 31 - 1) :
    Counted (fire s rt t) := by
  obtain ⟨h1, h2, h3, h4⟩ := h.timer ht
  have htimers :
    (fire s rt t).timers = (s.set rt (some { t with next := 0, called := wrapInt (t.called + 1) })).timers :=
    rfl
  apply h.set htimers (fun a ha => by rw [fire_pending, if_neg ha, Nat.add_zero])
  rw [fire_pending, if_pos rfl]
  have hr : t.removed = false := by
    cases hr : t.removed with
    | false => rfl
    | true => exact absurd (h3 hr).2.1 hne
  refine ⟨?_, by omega, by simp [hr], fun ha ho => ?_⟩
  · rw [wrapInt_eq (by omega) (by omega)]
    push_cast
    omega
  · have := h4 ha ho
    rw [if_pos hne] at this
    simp only [ne_eq, not_true_eq_false, if_false]
    omega

/-- A timer with an event pending is allocated, and `rt_called` is positive. -/
theorem Counted.called_pos (h : Counted s) (hp : 0 < s.pending rt) : ∃ t, s.timers rt = some t ∧ t.called > 0 := by
  have hrt := h rt
  cases ht : s.timers rt with
  | none =>
    rw [ht] at hrt
    have : s.pending rt = 0 := hrt
    omega
  | some t =>
    rw [ht] at hrt
    exact ⟨t, rfl, by have := hrt.1; omega⟩

theorem erase_count {l : List (Tid × Rt)} {e : Tid × Rt} (he : e ∈ l) (a : Rt) :
    ((l.erase e).map Prod.snd).count a + (if a = e.2 then 1 else 0) = (l.map Prod.snd).count a := by
  have h := ((List.perm_cons_erase he).map Prod.snd).count_eq a
  rw [List.map_cons, List.count_cons] at h
  simp only [beq_iff_eq, eq_comm (b := a)] at h
  omega

/-- The event that a thread finds. -/
theorem exists_find {l : List (Tid × Rt)} {tid : Tid} (h : ∃ e ∈ l, e.1 = tid) :
    ∃ e, (l.find? fun e => e.1 = tid) = some e ∧ e ∈ l := by
  obtain ⟨e₀, hm₀, htid⟩ := h
  obtain ⟨e, he⟩ := Option.isSome_iff_exists.1 (List.find?_isSome.2 ⟨e₀, hm₀, by simpa using htid⟩ :
    (l.find? fun e => e.1 = tid).isSome)
  exact ⟨e, he, List.mem_of_find?_eq_some he⟩

/-- **A thread takes an event** off its queue. -/
theorem callPop_ok (hL : Listed s) (hc : Counted s) {tid : Tid} (hok : Ok s (.callPop tid)) :
    ∃ s', callPop s tid = some s' ∧ Listed s' ∧ Counted s' ∧ ∀ a, Gone s a → Gone s' a := by
  obtain ⟨e, he, hm⟩ := exists_find hok.1
  refine ⟨{ s with eventq := s.eventq.erase e, popped := e :: s.popped }, by simp [callPop, he], { hL with },
    fun a => ?_, fun a hg => hg⟩
  have hp : State.pending { s with eventq := s.eventq.erase e, popped := e :: s.popped } a = s.pending a := by
    have := erase_count hm a
    simp only [State.pending, List.map_cons, List.count_cons, beq_iff_eq, eq_comm (b := a)]
    omega
  rw [hp]
  exact hc a

/-- **The start of an event**: it goes from those taken to those executing. -/
theorem callBegin_ok (hL : Listed s) (hc : Counted s) {tid : Tid} (hok : Ok s (.callBegin tid)) :
    ∃ s', callBegin s tid = some s' ∧ Listed s' ∧ Counted s' ∧ ∀ a, Gone s a → Gone s' a := by
  obtain ⟨e, he, hm⟩ := exists_find hok
  have hpend : 0 < s.pending e.2 := by
    have := erase_count hm e.2
    rw [if_pos rfl] at this
    unfold State.pending
    omega
  obtain ⟨t, ht, hpos⟩ := hc.called_pos hpend
  refine ⟨{ s with popped := s.popped.erase e, executing := e :: s.executing }, by simp [callBegin, he, ht, hpos],
    { hL with }, fun a => ?_, fun a hg => hg⟩
  have hp : State.pending { s with popped := s.popped.erase e, executing := e :: s.executing } a = s.pending a := by
    have := erase_count hm a
    simp only [State.pending, List.map_cons, List.count_cons, beq_iff_eq, eq_comm (b := a)]
    omega
  rw [hp]
  exact hc a

/-- One event of the timer `rt` is done: `rt_called` is decremented. -/
structure EventDone (s : State) (rt : Rt) (t : Timer) (s1 : State) : Prop where
  listed : Listed s1
  timers_eq : s1.timers = (s.set rt (some { t with called := wrapInt (t.called - 1) })).timers
  pending_eq : ∀ a, s1.pending a + (if a = rt then 1 else 0) = s.pending a

namespace EventDone

variable {s1 : State}

theorem of_executing (hL : Listed s) {e : Tid × Rt} (hm : e ∈ s.executing) (ht : s.timers e.2 = some t) :
    EventDone s e.2 t ({ s with executing := s.executing.erase e }.set e.2
      (some { t with called := wrapInt (t.called - 1) })) := by
  refine ⟨hL.ended ht _, rfl, fun a => ?_⟩
  have hcount := erase_count hm a
  show (s.eventq.map Prod.snd).count a + (s.popped.map Prod.snd).count a +
    ((s.executing.erase e).map Prod.snd).count a + _ = s.pending a
  unfold State.pending
  omega

theorem pending_self (h : EventDone s rt t s1) : s1.pending rt + 1 = s.pending rt := by
  have hp := h.pending_eq rt
  rwa [if_pos rfl] at hp

theorem pending_of_ne (h : EventDone s rt t s1) {a : Rt} (ha : a ≠ rt) : s1.pending a = s.pending a := by
  have hp := h.pending_eq a
  rwa [if_neg ha] at hp

theorem called_eq (h : EventDone s rt t s1) (hc : Counted s) (ht : s.timers rt = some t) :
    wrapInt (t.called - 1) = s1.pending rt := by
  obtain ⟨h1, h2, -, -⟩ := hc.timer ht
  have hp := h.pending_self
  rw [h1, wrapInt_eq] <;> omega

/-- The last event frees the timer. -/
theorem free (h : EventDone s rt t s1) (hc : Counted s) (ht : s.timers rt = some t) (hlast : s.pending rt = 1) :
    ∃ s', destroy0 c s1 rt = some s' ∧ Listed s' ∧ Counted s' ∧ ∀ a, Gone s a → Gone s' a := by
  have ht1 : s1.timers rt = some { t with called := wrapInt (t.called - 1) } := by
    rw [h.timers_eq]
    exact set_timers_self ..
  obtain ⟨s', hs', hd⟩ := destroy0_ok c h.listed ht1
  have hcalled := h.called_eq hc ht
  have hself := h.pending_self
  have hrem : remains { t with called := wrapInt (t.called - 1) } = none := by
    have h0 : wrapInt (t.called - 1) = 0 := by omega
    rw [remains, h0, if_neg (by simp)]
  have htimers : s'.timers = (s.set rt none).timers := by
    rw [hd.timers_eq, hrem]
    show Function.update s1.timers rt none = Function.update s.timers rt none
    rw [h.timers_eq]
    exact Function.update_idem ..
  have hp := pending_congr hd.eventq_eq hd.popped_eq hd.executing_eq
  refine ⟨s', hs', hd.listed, hc.set htimers (fun a ha => by rw [hp, h.pending_of_ne ha]) ?_,
    fun a ha => ha.set htimers (by simp)⟩
  show s'.pending rt = 0
  rw [hp]
  omega

/-- The timer stays if it is not flagged for removal, or has more events. -/
theorem stay (h : EventDone s rt t s1) (hc : Counted s) (ht : s.timers rt = some t)
    (hrem : ¬(t.removed = true ∧ wrapInt (t.called - 1) = 0)) (honce : ¬(t.type = .once ∧ t.atomic = true)) :
    Counted s1 ∧ ∀ a, Gone s a → Gone s1 a := by
  obtain ⟨h1, h2, h3, -⟩ := hc.timer ht
  have hcalled := h.called_eq hc ht
  have hself := h.pending_self
  refine ⟨hc.set h.timers_eq (fun a ha => h.pending_of_ne ha)
    ⟨hcalled, by omega, fun hr => ?_, fun ha ho => absurd ⟨ho, ha⟩ honce⟩, fun a ha => ha.set h.timers_eq ?_⟩
  · have hne : wrapInt (t.called - 1) ≠ 0 := fun h0 => hrem ⟨hr, h0⟩
    exact ⟨by omega, (h3 hr).2⟩
  · rintro rfl t' ⟨⟩
    exact ha t ht

end EventDone

/-- **The end of an event**: the timer is freed if it was flagged for removal and this was its last event, or if it
was made by `rd_timer_add` for one shot. -/
theorem callEnd_ok (hL : Listed s) (hc : Counted s) {tid : Tid} (hok : Ok s (.callEnd tid)) :
    ∃ s', callEnd c s tid = some s' ∧ Listed s' ∧ Counted s' ∧ ∀ a, Gone s a → Gone s' a := by
  obtain ⟨e, he, hm⟩ := exists_find hok
  have hpos : 0 < s.pending e.2 := by
    have hcount := erase_count hm e.2
    rw [if_pos rfl] at hcount
    unfold State.pending
    omega
  obtain ⟨t, ht, -⟩ := hc.called_pos hpos
  have hdone := EventDone.of_executing hL hm ht
  have hcalled := hdone.called_eq hc ht
  have hself := hdone.pending_self
  simp only [callEnd, he, ht, Option.bind_eq_bind, Option.bind_some, Option.pure_def]
  split
  next hrem => exact hdone.free c hc ht (by omega)
  next hrem =>
    split
    next honce =>
      have hone := (hc.timer ht).2.2.2 honce.2 honce.1
      exact hdone.free c hc ht (by omega)
    next honce => exact ⟨_, rfl, hdone.listed, hdone.stay hc ht hrem honce⟩

/-- In the middle of a pass that began in `s0`: counters are right, flags for removal stay, and the timers called out
are not flagged. -/
structure Passing (s0 s : State) (callouts : List Rt) : Prop where
  counted : Counted s
  gone : ∀ a, Gone s0 a → Gone s a
  managed : ∀ a ∈ callouts, ∃ t, s.timers a = some t ∧ t.removed = false

namespace Passing

variable {s0 : State} {cs : List Rt}

/-- A change of a timer that is not flagged, and stays so. -/
theorem set (h : Passing s0 s cs) (ht : s.timers rt = some t) (t' : Timer) (hr : t.removed = false)
    (hr' : t'.removed = false) (htimers : s'.timers = (s.set rt (some t')).timers) (hc : Counted s') {cs' : List Rt}
    (hcs : ∀ a ∈ cs', a ≠ rt → a ∈ cs) : Passing s0 s' cs' := by
  refine ⟨hc, fun a ha => (h.gone a ha).set htimers ?_, fun a ha => ?_⟩
  · rintro rfl
    exact absurd hr (by rw [h.gone a ha t ht]; decide)
  · by_cases hart : a = rt
    · subst hart
      exact ⟨t', by rw [htimers, set_timers_self], hr'⟩
    · rw [htimers, set_timers_of_ne _ hart]
      exact h.managed a (hcs a ha hart)

/-- The first loop fires an armed timer. -/
theorem fire (h : Passing s0 s cs) (ht : s.timers rt = some t) (hne : t.next ≠ 0) (hcalled : t.called < 2 ^ 31 - 1) :
    Passing s0 (fire s rt t) (cs ++ [rt]) := by
  have hr : t.removed = false := by
    cases hr : t.removed with
    | false => rfl
    | true => exact absurd ((h.counted.timer ht).2.2.1 hr).2.1 hne
  have htimers : (Timers.fire s rt t).timers =
    (s.set rt (some { t with next := 0, called := wrapInt (t.called + 1) })).timers := rfl
  refine h.set ht { t with next := 0, called := wrapInt (t.called + 1) } hr hr htimers
    (fire_counts h.counted ht hne hcalled) fun a ha hart => ?_
  exact (List.mem_append.1 ha).resolve_right (by simpa using hart)

/-- The second loop restarts a recurring timer. -/
theorem restart (h : Passing s0 s (rt :: cs)) (ht : s.timers rt = some t) (htype : t.type = .recurr)
    (hst : Started s rt t s') : Passing s0 s' cs := by
  obtain ⟨t', ht', hr⟩ := h.managed rt List.mem_cons_self
  obtain rfl := Option.some.inj (ht.symm.trans ht')
  obtain ⟨next, -, htimers⟩ := hst.timers_eq
  exact h.set ht { t with next := next } hr hr htimers
    (start_counts h.counted ht hr (fun _ ho => by rw [htype] at ho; cases ho) hst)
    fun a ha _ => List.mem_cons_of_mem _ ha

theorem tail (h : Passing s0 s (rt :: cs)) : Passing s0 s cs :=
  { h with managed := fun a ha => h.managed a (List.mem_cons_of_mem _ ha) }

end Passing

/-- **A pass** in which no counter wraps around. -/
theorem timersPass_ok (hL : Listed s) (hc : Counted s) (hok : CountOk c s .pass) :
    ∃ s' alerts, timersPass c s = some (s', alerts) ∧ Listed s' ∧ Counted s' ∧ ∀ a, Gone s a → Gone s' a := by
  -- the timers still listed are as they were
  obtain ⟨s1, callouts, al, hfire, hL1, hp1, -⟩ := fireExpired_ok (c.read s.reads)
    (I := fun s1 cs => Passing s s1 cs ∧ ∀ a ∈ s1.rdTimers, a ∈ s.rdTimers ∧ s1.timers a = s.timers a)
    (by
      rintro s1 cs rt t rest hL1 ⟨hp1, hsame⟩ hl ht hdue
      have hm : rt ∈ s1.rdTimers := hl ▸ List.mem_cons_self
      have hnd := List.nodup_cons.1 (hl ▸ hL1.nodup)
      have hself := hsame rt hm
      have hcalled := hok rt hself.1 t (by rw [← hself.2]; exact ht) hdue
      refine ⟨hp1.fire ht ((hL1.armed rt t ht).2 hm) hcalled, fun a ha => ?_⟩
      have ha' : a ∈ rest := by simpa [fire, hl] using ha
      have htimers : (fire s1 rt t).timers a = s1.timers a := set_timers_of_ne _ (by rintro rfl; exact hnd.1 ha')
      rw [htimers]
      exact hsame a (hl ▸ List.mem_cons_of_mem _ ha'))
    s.rdTimers s.tick [] rfl { hL with }
    ⟨⟨hc, fun a ha => ha, by simp⟩, fun a ha => ⟨ha, rfl⟩⟩
  simp only [List.nil_append] at hp1
  obtain ⟨s2, hrestart, hL2, hp2⟩ := restart_ok c (I := fun s2 l => Listed s2 ∧ Passing s s2 l)
    (by
      rintro s2 rt rest ⟨hL2, hp2⟩
      obtain ⟨t, ht, -⟩ := hp2.managed rt List.mem_cons_self
      exact ⟨hL2, by simp [ht]⟩)
    (by
      rintro s2 rt rest t ⟨hL2, hp2⟩ _ _
      exact ⟨hL2, hp2.tail⟩)
    (by
      rintro s2 rt rest t s3 ⟨hL2, hp2⟩ ht htype hs3
      have hst := hL2.started c ht hs3
      exact ⟨hst.listed hL2, hp2.restart ht htype hst⟩)
    callouts s1 ⟨hL1, hp1⟩
  obtain ⟨ts, k, hu, -⟩ := nextUpdate_ok c s2 s2.rdTimers.head? fun rt hrt => hL2.alloc rt (List.mem_of_mem_head? hrt)
  refine ⟨{ s2 with nextTs := ts, reads := s2.reads + k, sleeping := some ts }, al, ?_, { hL2 with }, hp2.counted,
    hp2.gone⟩
  simp [timersPass, rdClock, hfire, hrestart, hu]

end Ops

/-! ## Interleavings -/

/-- The timers that the application destroyed; an address given out again is a new timer. -/
def destroyed (hist : List (Op × List Alert)) : List Rt :=
  hist.foldl (fun l e => match e.1 with
    | .destroy rt => rt :: l
    | .new rt _ _ => l.filter (· ≠ rt)
    | .add rt _ _ _ => l.filter (· ≠ rt)
    | _ => l) []

/-- What holds after every interleaving. -/
structure Lifetimes (s : State) (destroyed : List Rt) : Prop where
  called : ∀ rt t, s.timers rt = some t → t.called = s.pending rt
  armed : ∀ rt t, s.timers rt = some t → (t.next ≠ 0 ↔ rt ∈ s.rdTimers)
  once : s.rdTimers.Nodup
  freed : ∀ rt, s.timers rt = none → rt ∉ s.rdTimers ∧ s.pending rt = 0
  last_event : ∀ rt ∈ destroyed, s.pending rt = 0 → s.timers rt = none

/-- The invariant of the state and the history. -/
structure Sound (s : State) (hist : List (Op × List Alert)) : Prop where
  listed : Listed s
  counted : Counted s
  gone : ∀ rt ∈ destroyed hist, Gone s rt

theorem Sound.lifetimes {s : State} {hist : List (Op × List Alert)} (h : Sound s hist) :
    Lifetimes s (destroyed hist) where
  called := fun _ _ ht => (h.counted.timer ht).1
  armed := h.listed.armed
  once := h.listed.nodup
  freed := by
    intro rt ht
    have := h.counted rt
    rw [ht] at this
    exact ⟨fun hm => h.listed.alloc rt hm ht, this⟩
  last_event := by
    intro rt hd hp
    cases ht : s.timers rt with
    | none => rfl
    | some t =>
      have := ((h.counted.timer ht).2.2.1 (h.gone rt hd t ht)).1
      omega

section Steps

variable {s s' : State} {hist : List (Op × List Alert)}

/-- A step that neither makes nor destroys a timer. -/
theorem Sound.next (h : Sound s hist) {op : Op} {o : List Alert}
    (hd : destroyed (hist ++ [(op, o)]) = destroyed hist) (hL : Listed s') (hc : Counted s')
    (hg : ∀ a, Gone s a → Gone s' a) : Sound s' (hist ++ [(op, o)]) :=
  ⟨hL, hc, fun a ha => hg a (h.gone a (hd ▸ ha))⟩

/-- A new timer. -/
theorem Sound.fresh (h : Sound s hist) {op : Op} {o : List Alert} (rt : Rt)
    (hd : destroyed (hist ++ [(op, o)]) = (destroyed hist).filter (· ≠ rt)) (hL : Listed s') (hc : Counted s')
    (hg : ∀ a, a ≠ rt → Gone s a → Gone s' a) : Sound s' (hist ++ [(op, o)]) := by
  refine ⟨hL, hc, fun a ha => ?_⟩
  rw [hd, List.mem_filter] at ha
  exact hg a (by simpa using ha.2) (h.gone a ha.1)

/-- A timer at a new address, not armed. -/
theorem new_counts {rt : Rt} {t : Timer} (hc : Counted s) (ht : s.timers rt = none) (h0 : t.called = 0)
    (hn : t.next = 0) (hr : t.removed = false) : Counted (s.set rt (some t)) := by
  have hp : s.pending rt = 0 := by
    have := hc rt
    rwa [ht] at this
  apply hc.set rfl (fun a _ => rfl)
  show Counts (some t) (s.pending rt)
  rw [hp]
  exact ⟨by simpa using h0, by decide, by simp [hr], by simp [hn]⟩

/-- Starting a timer that is not flagged for removal. -/
theorem start0_sound {rt : Rt} {t : Timer} (hL : Listed s) (hc : Counted s) (ht : s.timers rt = some t)
    (hr : t.removed = false) (ha : t.atomic = true → t.type = .once → s.pending rt = 0) (intervalMs : Nat) :
    ∃ s', start0 c s rt intervalMs true = some s' ∧ Listed s' ∧ Counted s' ∧ ∀ a, Gone s a → Gone s' a := by
  obtain ⟨s', hs', hst, -⟩ := start0_ok c hL ht intervalMs true
  obtain ⟨next, -, htimers⟩ := hst.timers_eq
  refine ⟨s', hs', hst.listed hL, start_counts hc ht hr ha hst, fun a hg => hg.set htimers ?_⟩
  rintro rfl
  exact (hg.not_managed ht hr).elim

/-- **One step** does not fault and keeps the invariant. -/
theorem step_sound (s : State) (hist : List (Op × List Alert)) (op : Op) (h : Sound s hist)
    (hok : Ok s op ∧ CountOk c s op) : ∃ s' o, step c s op = some (s', o) ∧ Sound s' (hist ++ [(op, o)]) := by
  obtain ⟨hok, hcount⟩ := hok
  have hL := h.listed
  have hc := h.counted
  cases op with
  | new rt type rdt =>
    refine ⟨_, _, rfl, h.fresh rt (by simp [destroyed]) (hL.made hok rfl) (new_counts hc hok rfl rfl rfl) ?_⟩
    intro a ha hg
    exact hg.set rfl fun hart => absurd hart ha
  | add rt type intervalMs rdt =>
    have hp : s.pending rt = 0 := by
      have := hc rt
      rwa [show s.timers rt = none from hok] at this
    have hL1 : Listed (s.set rt (some (addTimer type intervalMs rdt))) := hL.made hok rfl
    obtain ⟨s', hs', hL', hc', hg'⟩ := start0_sound c hL1 (new_counts hc hok rfl rfl rfl) (set_timers_self ..) rfl
      (fun _ _ => hp) intervalMs
    refine ⟨s', [], by simp [step, timerAdd_eq, hs'], h.fresh rt (by simp [destroyed]) hL' hc' ?_⟩
    intro a ha hg
    exact hg' a (hg.set rfl fun hart => absurd hart ha)
  | start rt intervalMs =>
    obtain ⟨t, ht, hatomic, hr⟩ := hok
    have hcell : Counts (some { t with interval := intervalMs }) (s.pending rt) := (hc.timer ht :)
    have hc1 : Counted (s.set rt (some { t with interval := intervalMs })) := hc.set rfl (fun a _ => rfl) hcell
    have hL1 : Listed (s.set rt (some { t with interval := intervalMs })) := hL.set (hL.armed rt t ht)
    obtain ⟨s', hs', hL', hc', hg'⟩ := start0_sound c hL1 hc1 (set_timers_self ..) hr
      (fun ha => by rw [hatomic] at ha; cases ha) intervalMs
    refine ⟨s', [], by simp [step, timerStart_eq c ht, hs'], h.next (by simp [destroyed]) hL' hc' fun a hg => ?_⟩
    refine hg' a (hg.set rfl ?_)
    rintro rfl
    exact (hg.not_managed ht hr).elim
  | stop rt =>
    obtain ⟨t, ht, -, hr⟩ := hok
    obtain ⟨s', hs', hst⟩ := stop0_ok c hL ht
    refine ⟨s', [], by simp [step, hs'], h.next (by simp [destroyed]) hst.listed (stop_counts hc ht hst) fun a hg => ?_⟩
    apply hg.set hst.timers_eq
    rintro rfl
    exact (hg.not_managed ht hr).elim
  | destroy rt =>
    obtain ⟨t, ht, hatomic, hr⟩ := hok
    obtain ⟨s', hs', hd⟩ := destroy0_ok c hL ht
    have hrem := remains_counts (hc.timer ht) (fun ha => by rw [hatomic] at ha; cases ha)
    refine ⟨s', [], by simp [step, hs'], hd.listed, destroy_counts hc hrem hd, fun a ha => ?_⟩
    have hgone : ∀ t', remains t = some t' → t'.removed = true := fun t' => remains_removed
    by_cases hart : a = rt
    · subst hart
      intro t' ht'
      rw [hd.timers_eq, set_timers_self] at ht'
      exact hgone t' ht'
    · have ha : a ∈ destroyed hist := by simpa [destroyed, hart] using ha
      exact (h.gone a ha).set hd.timers_eq fun _ => hgone
  | pass =>
    obtain ⟨s', al, hs', hL', hc', hg'⟩ := timersPass_ok c hL hc hcount
    exact ⟨s', al, hs', h.next (by simp [destroyed]) hL' hc' hg'⟩
  | callPop tid =>
    obtain ⟨s', hs', hL', hc', hg'⟩ := callPop_ok hL hc hok
    exact ⟨s', [], by simp [step, hs'], h.next (by simp [destroyed]) hL' hc' hg'⟩
  | callBegin tid =>
    obtain ⟨s', hs', hL', hc', hg'⟩ := callBegin_ok hL hc hok
    exact ⟨s', [], by simp [step, hs'], h.next (by simp [destroyed]) hL' hc' hg'⟩
  | callEnd tid =>
    obtain ⟨s', hs', hL', hc', hg'⟩ := callEnd_ok c hL hc hok
    exact ⟨s', [], by simp [step, hs'], h.next (by simp [destroyed]) hL' hc' hg'⟩

end Steps

theorem init_sound : Sound init [] where
  listed := init_timed.1
  counted := fun _ => rfl
  gone := by simp [destroyed]

/-- **Lifetimes.** Every interleaving in which no counter wraps around runs without a fault. -/
theorem run_lifetimes (ops : List Op) (hok : (machine c).Admits init ops)
    (hcount : (machine c).Each (CountOk c) init ops) : ∃ s outs, (machine c).run init ops = some (s, outs) ∧
      Lifetimes s (destroyed (ops.zip outs)) := by
  obtain ⟨s, outs, hrun, h⟩ := Machine.run_hist (step_sound c) ops init [] init_sound (Machine.each_and hok hcount)
  exact ⟨s, outs, hrun, h.lifetimes⟩

/-- A recurring timer that is destroyed in its callback with another event pending. -/
theorem run_lifetimes_destroyed :
    let ops : List Op := [.new 1 .recurr 0, .start 1 0, .pass, .pass, .callPop 0, .callBegin 0, .destroy 1, .callEnd 0,
      .callPop 0, .callBegin 0, .callEnd 0]
    (machine oneSecond).Admits init ops ∧ (machine oneSecond).Each (CountOk oneSecond) init ops ∧
      ∃ s outs, (machine oneSecond).run init ops = some (s, outs) ∧ Lifetimes s (destroyed (ops.zip outs)) :=
  ⟨by decide, by decide, run_lifetimes oneSecond _ (by decide) (by decide)⟩

/-! ## A counter that wraps around -/

/-- A clock that stands at one microsecond. -/
def oneTick : Clock := ⟨fun _ => 1, fun _ => Nat.le_refl _, fun _ => by decide, fun _ => by decide⟩

/-- A timer that fires in every pass, after `k` of them. -/
def stalledTimer (k : Nat) : Timer :=
  { thread := 0, type := .recurr, interval := 0, next := 1, called := wrapInt k, atomic := false, removed := false }

/-- The state after `k` passes, with no event run. -/
def stalled (k : Nat) : State where
  timers := Function.update (fun _ => none) 1 (some (stalledTimer k))
  rdTimers := [1]
  nextTs := if k = 0 then ⟨0, 0⟩ else ⟨0, 1000⟩
  reads := 1 + 2 * k
  sleeping := if k = 0 then none else some ⟨0, 1000⟩
  eventq := List.replicate k (0, 1)
  popped := []
  executing := []

theorem timers_stalled (k : Nat) : (stalled k).timers 1 = some (stalledTimer k) := by simp [stalled]

theorem pending_stalled (k : Nat) : (stalled k).pending 1 = k := by simp [State.pending, stalled]

theorem pass_stalled (k : Nat) : ∃ o, step oneTick (stalled k) .pass = some (stalled (k + 1), o) := by
  have hcalled : wrapInt (wrapInt k + 1) = wrapInt (k + 1) := by simp [wrapInt]
  refine ⟨stallAlert 1 (stalledTimer k), ?_⟩
  simp [step, timersPass, rdClock, State.tick, stalled, oneTick, fireExpired, fire, restart, start0, stop0, nextUpdate,
    State.set, insertSorted, stalledTimer, expiry]
  exact ⟨by rw [hcalled], by decide, by omega, by decide, List.replicate_succ'.symm⟩

theorem run_stalled : ∀ m k : Nat,
    ∃ outs, (machine oneTick).run (stalled k) (List.replicate m .pass) = some (stalled (k + m), outs)
  | 0, k => ⟨[], rfl⟩
  | m + 1, k => by
    obtain ⟨o, ho⟩ := pass_stalled k
    obtain ⟨outs, hrun⟩ := run_stalled m (k + 1)
    rw [Nat.add_right_comm, Nat.add_assoc] at hrun
    exact ⟨o :: outs, Machine.run_cons ho hrun⟩

theorem admits_passes : ∀ (m : Nat) (s : State), (machine c).Admits s (List.replicate m .pass)
  | 0, _ => trivial
  | m + 1, s => by
    refine ⟨trivial, ?_⟩
    cases (machine c).step s .pass with
    | none => trivial
    | some p => exact admits_passes m p.1

theorem start_stalled : ∃ s, (machine oneTick).step init (.new 1 .recurr 0) = some (s, []) ∧
    (machine oneTick).step s (.start 1 0) = some (stalled 0, []) := by
  refine ⟨_, rfl, ?_⟩
  simp [machine, step, timerNew, timerStart, start0, stop0, rdClock, State.tick, init, initTimer, State.set, stalled,
    stalledTimer, oneTick, insertSorted, expiry, timespecToTs, wrapInt]

/-- A recurring timer and `m` passes. -/
def stallOps (m : Nat) : List Op := .new 1 .recurr 0 :: .start 1 0 :: List.replicate m .pass

theorem run_stallOps (m : Nat) : (machine oneTick).Admits init (stallOps m) ∧
    ∃ outs, (machine oneTick).run init (stallOps m) = some (stalled m, outs) := by
  obtain ⟨s, hnew, hstart⟩ := start_stalled
  obtain ⟨outs, hrun⟩ := run_stalled m 0
  rw [Nat.zero_add] at hrun
  have hok : Ok s (.start 1 0) := by cases hnew; decide
  exact ⟨(Machine.each_cons hnew).2 ⟨rfl, (Machine.each_cons hstart).2 ⟨hok, admits_passes _ _ _⟩⟩,
    _, Machine.run_cons hnew (Machine.run_cons hstart hrun)⟩

/-- `2 ^ 31` events of one timer pending: `rt_called` is negative. -/
theorem called_wraps : (machine oneTick).Admits init (stallOps (2 ^ 31)) ∧
    ∃ s outs t, (machine oneTick).run init (stallOps (2 ^ 31)) = some (s, outs) ∧ s.timers 1 = some t ∧
      t.called < 0 ∧ s.pending 1 = 2 ^ 31 := by
  obtain ⟨hok, outs, hrun⟩ := run_stallOps (2 ^ 31)
  exact ⟨hok, _, outs, _, hrun, timers_stalled _, by decide, pending_stalled _⟩

end Librd.Timers
