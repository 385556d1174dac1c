import Librd.Timers.Deadline

/-!
# Timers: no callback before its time

Every `rd_timer_start0` reads the clock once and arms a timer for that time plus its interval. A log next to the state
keeps, for each timer, the reading and the `interval_ms` of its latest arming (`logged`); it changes nothing of what the
timers do (`each_logged`).

`interval_ms * 1000` is computed as an `unsigned int`, so an interval from 4294968 ms on (about 71 minutes and 35
seconds) loses its high bits, and a timer of 4294968 ms is due after 704 us (`fires_early`). In every run whose
intervals are shorter no callback is queued before its time (`never_early`).
-/

namespace Librd.Timers

variable (c : Clock)

/-! ## Armings -/

/-- An arming of a timer: the reading of the clock in `rd_timer_start0` and its `interval_ms`. -/
structure Arming where
  rt : Rt
  clk : Nat
  intervalMs : Nat
  deriving DecidableEq, Repr

/-- The arming that `rd_timer_start0` makes. -/
def armingOf (s : State) (rt : Rt) (intervalMs : Nat) : List Arming :=
  match stop0 c s rt with
  | none => []
  | some s' => [{ rt := rt, clk := rdClock c s', intervalMs := intervalMs }]

/-- The armings that the second loop of a pass makes. -/
def rearmings : List Rt → State → List Arming
  | [], _ => []
  | rt :: rest, s =>
    match s.timers rt with
    | none => []
    | some t =>
      if t.type = .recurr then
        armingOf c s rt t.interval ++ match start0 c s rt t.interval false with
          | none => []
          | some s' => rearmings rest s'
      else rearmings rest s

/-- The armings that an operation makes. -/
def armings (s : State) : Op → List Arming
  | .add rt type intervalMs rdt => armingOf c (s.set rt (some (addTimer type intervalMs rdt))) rt intervalMs
  | .start rt intervalMs =>
    match s.timers rt with
    | none => []
    | some t => armingOf c (s.set rt (some { t with interval := intervalMs })) rt intervalMs
  | .pass =>
    match fireExpired (rdClock c s) s.rdTimers s.tick with
    | none => []
    | some (s', callouts, _) => rearmings c callouts s'
  | _ => []

/-- The timers whose callback an operation queues. -/
def fired (s : State) : Op → List Rt
  | .pass =>
    match fireExpired (rdClock c s) s.rdTimers s.tick with
    | none => []
    | some (_, callouts, _) => callouts
  | _ => []

/-- For each timer, the clock reading and the interval of its latest arming. -/
abbrev Log := Rt → Option (Nat × Nat)

/-- The log after some armings. -/
def Log.note (log : Log) : List Arming → Log
  | [] => log
  | a :: as => Log.note (Function.update log a.rt (some (a.clk, a.intervalMs))) as

/-- The timer subsystem next to its log. -/
def logged : Machine (State × Log) Op (List Alert) where
  Ok p op := Ok p.1 op
  step p op := (step c p.1 op).map fun q => ((q.1, p.2.note (armings c p.1 op)), q.2)

/-- The log does not change what the timers do. -/
theorem each_logged {Q : State → Op → Prop} : ∀ {ops : List Op} {s : State} {log : Log},
    (logged c).Each (fun p => Q p.1) (s, log) ops ↔ (machine c).Each Q s ops
  | [], _, _ => Iff.rfl
  | op :: ops, s, log => by
    cases hs : step c s op with
    | none => simp [Machine.Each, logged, machine, hs]
    | some p =>
      have hl : (logged c).step (s, log) op = some ((p.1, log.note (armings c s op)), p.2) := by simp [logged, hs]
      rw [Machine.each_cons hl, Machine.each_cons (show (machine c).step s op = some (p.1, p.2) from hs), each_logged]

/-- Every callback that an operation queues was armed at least its interval ago. -/
def NotEarly (p : State × Log) (op : Op) : Prop :=
  ∀ rt ∈ fired c p.1 op, ∃ a ∈ p.2 rt, a.1 + 1000 * a.2 ≤ rdClock c p.1

/-- `interval_ms * 1000` fits an `unsigned int`. -/
def IntervalOk : Op → Prop
  | .add _ _ intervalMs _ => 1000 * intervalMs < 2 ^ 32
  | .start _ intervalMs => 1000 * intervalMs < 2 ^ 32
  | _ => True

instance (p : State × Log) (op : Op) : Decidable (NotEarly c p op) :=
  inferInstanceAs (Decidable (∀ rt ∈ fired c p.1 op, ∃ a ∈ p.2 rt, a.1 + 1000 * a.2 ≤ rdClock c p.1))

instance : (op : Op) → Decidable (IntervalOk op)
  | .add _ _ intervalMs _ => inferInstanceAs (Decidable (1000 * intervalMs < 2 ^ 32))
  | .start _ intervalMs => inferInstanceAs (Decidable (1000 * intervalMs < 2 ^ 32))
  | .new .. | .stop .. | .destroy .. | .pass | .callPop .. | .callBegin .. | .callEnd .. => .isTrue trivial

/-- The expiry of an arming is its interval after the reading exactly when the product fits. -/
theorem expiry_full_iff (k intervalMs : Nat) :
    c.read k + 1000 * intervalMs ≤ expiry (c.read k) intervalMs ↔ 1000 * intervalMs < 2 ^ 32 := by
  rw [expiry_eq]
  have := Nat.mod_lt (intervalMs * 1000) (Nat.two_pow_pos 32)
  constructor
  · omega
  · intro h
    rw [Nat.mod_eq_of_lt (by omega)]
    omega

/-! ## The invariant -/

/-- Every armed timer expires at least the logged interval after the logged reading, and intervals fit. -/
structure Logged (s : State) (log : Log) : Prop where
  armed : ∀ rt t, s.timers rt = some t → t.next ≠ 0 → ∃ a ∈ log rt, a.1 + 1000 * a.2 ≤ t.next
  interval : ∀ rt t, s.timers rt = some t → 1000 * t.interval < 2 ^ 32

/-- A change of one timer and of its entry in the log. -/
theorem Logged.update {s s' : State} {log log' : Log} (h : Logged s log) {rt : Rt}
    (ht : ∀ a, a ≠ rt → s'.timers a = s.timers a) (hlog : ∀ a, a ≠ rt → log' a = log a)
    (hc : ∀ t, s'.timers rt = some t →
      (t.next ≠ 0 → ∃ a ∈ log' rt, a.1 + 1000 * a.2 ≤ t.next) ∧ 1000 * t.interval < 2 ^ 32) : Logged s' log' where
  armed := by
    intro a t hta
    by_cases ha : a = rt
    · subst ha
      exact (hc t hta).1
    · rw [ht a ha] at hta
      rw [hlog a ha]
      exact h.armed a t hta
  interval := by
    intro a t hta
    by_cases ha : a = rt
    · subst ha
      exact (hc t hta).2
    · rw [ht a ha] at hta
      exact h.interval a t hta

section Steps

variable {s s' : State} {log : Log} {rt : Rt} {t : Timer}

/-- A change of a timer that does not arm it. -/
theorem Logged.set (h : Logged s log) (t' : Timer) (hn : t'.next = 0 ∨ s.timers rt = some t ∧ t'.next = t.next)
    (hi : 1000 * t'.interval < 2 ^ 32) : Logged (s.set rt (some t')) log := by
  apply h.update (fun a ha => set_timers_of_ne _ ha) (fun _ _ => rfl)
  intro t'' ht''
  rw [set_timers_self] at ht''
  cases ht''
  refine ⟨fun hne => ?_, hi⟩
  rcases hn with h0 | ⟨ht, heq⟩
  · exact absurd h0 hne
  · rw [heq] at hne ⊢
    exact h.armed rt t ht hne

/-- Stopping and destroying arm nothing. -/
theorem Stopped.logged (hst : Stopped s rt t s') (h : Logged s log) (ht : s.timers rt = some t) : Logged s' log := by
  apply h.update (fun a ha => by rw [hst.timers_eq, set_timers_of_ne _ ha]) (fun _ _ => rfl)
  intro t' ht'
  rw [hst.timer_eq] at ht'
  cases ht'
  exact ⟨fun hne => absurd rfl hne, h.interval rt t ht⟩

theorem Destroyed.logged (hd : Destroyed s rt t s') (h : Logged s log) (ht : s.timers rt = some t) : Logged s' log := by
  apply h.update (fun a ha => by rw [hd.timers_eq, set_timers_of_ne _ ha]) (fun _ _ => rfl)
  intro t' ht'
  rw [hd.timers_eq, set_timers_self, remains] at ht'
  split at ht'
  · cases ht'
    exact ⟨fun hne => absurd rfl hne, h.interval rt t ht⟩
  · cases ht'

theorem destroy0_logged (hL : Listed s) (h : Logged s log) (ht : s.timers rt = some t)
    (hrun : destroy0 c s rt = some s') : Listed s' ∧ Logged s' log := by
  have hd := hL.destroyed c ht hrun
  exact ⟨hd.listed, hd.logged h ht⟩

/-- The `rt_next` that `rd_timer_start0` sets. -/
theorem start0_timers {s1 : State} {intervalMs : Nat} {update : Bool} (hst : Stopped s rt t s1)
    (hstop : stop0 c s rt = some s1) (hrun : start0 c s rt intervalMs update = some s') :
    s'.timers = (s1.set rt (some { t with next := expiry (c.read s1.reads) intervalMs })).timers := by
  rw [start0_eq c hst intervalMs hstop] at hrun
  split at hrun
  · split at hrun
    · simp only [nextUpdate, Option.bind_eq_bind, Option.bind_eq_some_iff] at hrun
      obtain ⟨_, -, hrun⟩ := hrun
      cases hrun
      rfl
    · cases hrun
      rfl
  · obtain ⟨l, -, rfl⟩ := Option.map_eq_some_iff.1 hrun
    rfl

/-- **`rd_timer_start0`** with an interval that fits. -/
theorem start0_logged {intervalMs : Nat} {update : Bool} (hL : Listed s) (h : Logged s log) (ht : s.timers rt = some t)
    (hi : 1000 * intervalMs < 2 ^ 32) (hrun : start0 c s rt intervalMs update = some s') :
    Listed s' ∧ Logged s' (log.note (armingOf c s rt intervalMs)) := by
  obtain ⟨s1, hstop, hst⟩ := stop0_ok c hL ht
  have hstart := hL.started c ht hrun
  have htimers := start0_timers c hst hstop hrun
  have hnote : log.note (armingOf c s rt intervalMs) = Function.update log rt (some (c.read s1.reads, intervalMs)) := by
    simp [armingOf, hstop, Log.note, rdClock]
  refine ⟨hstart.listed hL, (hst.logged h ht).update (fun a ha => by rw [htimers, set_timers_of_ne _ ha]) ?_ ?_⟩
  · intro a ha
    rw [hnote, Function.update_of_ne ha]
  · intro t' ht'
    rw [htimers, set_timers_self] at ht'
    cases ht'
    refine ⟨fun _ => ⟨(c.read s1.reads, intervalMs), by rw [hnote, Function.update_self]; rfl, ?_⟩, h.interval rt t ht⟩
    exact (expiry_full_iff c s1.reads intervalMs).2 hi

end Steps

theorem Log.note_append (log : Log) : ∀ as bs : List Arming, log.note (as ++ bs) = (log.note as).note bs
  | [], _ => rfl
  | a :: as, bs => Log.note_append (Function.update log a.rt (some (a.clk, a.intervalMs))) as bs

/-! ## One pass -/

/-- The first loop: what it fires was armed long enough ago. -/
theorem fireExpired_logged {s : State} {log : Log} (hL : Listed s) (h : Logged s log) (now : Nat) :
    ∃ s' callouts alerts, fireExpired now s.rdTimers s = some (s', callouts, alerts) ∧ Listed s' ∧ Logged s' log ∧
      Callouts s' callouts ∧ ∀ rt ∈ callouts, ∃ a ∈ log rt, a.1 + 1000 * a.2 ≤ now := by
  obtain ⟨s', callouts, alerts, hrun, hL', h', hcs, hdue⟩ := fireExpired_ok now
    (I := fun s cs => Logged s log ∧ Callouts s cs ∧ ∀ rt ∈ cs, ∃ a ∈ log rt, a.1 + 1000 * a.2 ≤ now)
    (by
      rintro s cs rt t rest hL ⟨h, hcs, hdue⟩ hl ht hle
      have hne : t.next ≠ 0 := (hL.armed rt t ht).2 (hl ▸ List.mem_cons_self)
      refine ⟨?_, fire_callouts hcs ht hne, ?_⟩
      · refine h.update (fun a ha => set_timers_of_ne _ ha) (fun _ _ => rfl) ?_
        intro t' ht'
        rw [show (fire s rt t).timers rt = _ from set_timers_self ..] at ht'
        cases ht'
        exact ⟨fun hn => absurd rfl hn, h.interval rt t ht⟩
      · intro a ha
        rcases List.mem_append.1 ha with ha | ha
        · exact hdue a ha
        · obtain rfl := List.mem_singleton.1 ha
          obtain ⟨x, hx, hxle⟩ := h.armed a t ht hne
          exact ⟨x, hx, Nat.le_trans hxle hle⟩)
    s.rdTimers s [] rfl hL ⟨h, ⟨.nil, by simp⟩, by simp⟩
  exact ⟨s', callouts, alerts, hrun, hL', h', by simpa using hcs, by simpa using hdue⟩

/-- The second loop. -/
theorem restart_logged {s : State} {log : Log} {callouts : List Rt} (hL : Listed s) (h : Logged s log)
    (hcs : Callouts s callouts) :
    ∃ s', restart c callouts s = some s' ∧ Listed s' ∧ Logged s' (log.note (rearmings c callouts s)) := by
  -- the armings still to come, noted in the log of the moment, give the log of the end
  obtain ⟨s', hrun, hL', -, log', h', hnote⟩ := restart_ok c
    (I := fun s' l => Listed s' ∧ Callouts s' l ∧ ∃ log' : Log, Logged s' log' ∧
      log'.note (rearmings c l s') = log.note (rearmings c callouts s))
    (by
      rintro s rt rest ⟨hL, hcs, -⟩
      obtain ⟨t, ht, -⟩ := hcs.idle rt List.mem_cons_self
      exact ⟨hL, by simp [ht]⟩)
    (by
      rintro s rt rest t ⟨hL, hcs, log', h, hnote⟩ ht htype
      refine ⟨hL, hcs.tail fun _ _ => rfl, log', h, ?_⟩
      rw [← hnote]
      simp [rearmings, ht, htype])
    (by
      rintro s rt rest t s' ⟨hL, hcs, log', h, hnote⟩ ht htype hs'
      obtain ⟨hL', h'⟩ := start0_logged c hL h ht (h.interval rt t ht) hs'
      obtain ⟨next, -, htimers⟩ := (hL.started c ht hs').timers_eq
      refine ⟨hL', hcs.tail fun a ha => by rw [htimers, set_timers_of_ne _ ha], _, h', ?_⟩
      rw [← hnote, ← Log.note_append]
      simp [rearmings, ht, htype, hs'])
    callouts s ⟨hL, hcs, log, h, rfl⟩
  exact ⟨s', hrun, hL', by rwa [← hnote]⟩

/-- **A pass.** -/
theorem timersPass_logged {s s' : State} {log : Log} {alerts : List Alert} (hL : Listed s) (h : Logged s log)
    (hrun : timersPass c s = some (s', alerts)) : Listed s' ∧ Logged s' (log.note (armings c s .pass)) := by
  have hLt : Listed s.tick := { hL with }
  have ht : Logged s.tick log := { h with }
  obtain ⟨s1, callouts, al, hfire, hL1, h1, hcs, -⟩ := fireExpired_logged hLt ht (rdClock c s)
  obtain ⟨s2, hrestart, hL2, h2⟩ := restart_logged c hL1 h1 hcs
  obtain ⟨ts, k, hu, -⟩ := nextUpdate_ok c s2 s2.rdTimers.head? fun rt hrt => hL2.alloc rt (List.mem_of_mem_head? hrt)
  rw [tick_rdTimers] at hfire
  have hs' : s' = { s2 with nextTs := ts, reads := s2.reads + k, sleeping := some ts } := by
    simp only [timersPass, tick_rdTimers, hfire, hrestart, hu, Option.bind_eq_bind, Option.bind_some, Option.pure_def,
      Option.some.injEq, Prod.mk.injEq] at hrun
    exact hrun.1.symm
  have harm : armings c s .pass = rearmings c callouts s1 := by simp only [armings, hfire]
  subst hs'
  rw [harm]
  exact ⟨{ hL2 with }, { h2 with }⟩

theorem notEarly_of {s : State} {log : Log} (hL : Listed s) (h : Logged s log) (op : Op) : NotEarly c (s, log) op := by
  intro rt hrt
  cases op with
  | pass =>
    have hLt : Listed s.tick := { hL with }
    have ht : Logged s.tick log := { h with }
    obtain ⟨s1, callouts, al, hfire, -, -, -, hdue⟩ := fireExpired_logged hLt ht (rdClock c s)
    rw [tick_rdTimers] at hfire
    simp only [fired, hfire] at hrt
    exact hdue rt hrt
  | _ => cases hrt

/-! ## Runs -/

/-- **One step** whose interval fits. -/
theorem step_logged {s s' : State} {log : Log} {op : Op} {o : List Alert} (hL : Listed s) (h : Logged s log)
    (hok : Ok s op) (hi : IntervalOk op) (hrun : step c s op = some (s', o)) :
    Listed s' ∧ Logged s' (log.note (armings c s op)) := by
  cases step_cases c hok hrun with
  | @new rt type rdt =>
    exact ⟨hL.made hok rfl, h.set (t := initTimer type rdt) _ (.inl rfl) (by simp [initTimer])⟩
  | @add rt type intervalMs rdt _ hs' =>
    have hL1 : Listed (s.set rt (some (addTimer type intervalMs rdt))) := hL.made hok rfl
    have h1 : Logged (s.set rt (some (addTimer type intervalMs rdt))) log :=
      h.set (t := initTimer type rdt) _ (.inl rfl) hi
    exact start0_logged c hL1 h1 (set_timers_self ..) hi hs'
  | @start rt intervalMs t _ ht hs' =>
    have hL1 : Listed (s.set rt (some { t with interval := intervalMs })) := hL.set (hL.armed rt t ht)
    have h1 : Logged (s.set rt (some { t with interval := intervalMs })) log := h.set _ (.inr ⟨ht, rfl⟩) hi
    have harm : armings c s (.start rt intervalMs) =
        armingOf c (s.set rt (some { t with interval := intervalMs })) rt intervalMs := by simp only [armings, ht]
    rw [harm]
    exact start0_logged c hL1 h1 (set_timers_self ..) hi hs'
  | stop ht hs' =>
    have hst := hL.stopped c ht hs'
    exact ⟨hst.listed, hst.logged h ht⟩
  | destroy ht hs' => exact destroy0_logged c hL h ht hs'
  | pass hs' => exact timersPass_logged c hL h hs'
  | callPop => exact ⟨{ hL with }, { h with }⟩
  | callBegin => exact ⟨{ hL with }, { h with }⟩
  | @callEnd _ e t s1 _ ht h1 hs' =>
    have h0 : Logged { s with executing := s.executing.erase e } log := { h with }
    have hL1 := hL.ended ht (wrapInt (t.called - 1))
    have h1' := h0.set { t with called := wrapInt (t.called - 1) } (.inr ⟨ht, rfl⟩) (h.interval e.2 t ht)
    subst h1
    rcases hs' with hs' | rfl
    · exact destroy0_logged c hL1 h1' (set_timers_self ..) hs'
    · exact ⟨hL1, h1'⟩

/-- **Never early.** In every run in which `interval_ms * 1000` always fits an `unsigned int`, every callback that a
pass queues was armed, by `rd_timer_start` or by an earlier pass, at least its interval before. -/
theorem never_early (ops : List Op) (hok : (machine c).Admits init ops) (hi : ∀ op ∈ ops, IntervalOk op) :
    (logged c).Each (NotEarly c) (init, fun _ => none) ops := by
  have hok' : (logged c).Each (fun p => Ok p.1) (init, fun _ => none) ops := (each_logged c).2 hok
  refine Machine.each_inv (I := fun p => Listed p.1 ∧ Logged p.1 p.2) ?_ ?_ ops _ ⟨init_timed.1, ?_⟩
    (Machine.each_and hok' (Machine.each_of_forall hi))
  · rintro ⟨s, log⟩ op ⟨hL, h⟩ -
    exact notEarly_of c hL h op
  · rintro ⟨s, log⟩ op s' o ⟨hL, h⟩ ⟨hok, hi⟩ hrun
    obtain ⟨⟨s1, o1⟩, hs1, heq⟩ := Option.map_eq_some_iff.1 hrun
    cases heq
    exact step_logged c hL h hok hi hs1
  · exact ⟨by simp [init], by simp [init]⟩

/-- A clock that goes on by a millisecond at each of its first million readings. -/
def ticking : Clock where
  read k := 1000000 + 1000 * min k 1000000
  mono k := by omega
  pos k := by omega
  lt k := by omega

/-- A timer that recurs every millisecond. -/
theorem never_early_recurring :
    let ops : List Op := [.new 1 .recurr 0, .start 1 1, .pass, .pass, .stop 1, .pass]
    (machine ticking).Admits init ops ∧ (∀ op ∈ ops, IntervalOk op) ∧
      (logged ticking).Each (NotEarly ticking) (init, fun _ => none) ops :=
  ⟨by decide, by decide, never_early ticking _ (by decide) (by decide)⟩

/-- A timer of 4294968 ms fires a millisecond after it was armed. -/
theorem fires_early :
    let ops : List Op := [.new 1 .once 0, .start 1 4294968, .pass]
    (machine ticking).Admits init ops ∧ ¬ (logged ticking).Each (NotEarly ticking) (init, fun _ => none) ops :=
  ⟨by decide, by decide⟩

end Librd.Timers
