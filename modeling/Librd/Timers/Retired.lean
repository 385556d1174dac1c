import Librd.Timers.Lifetime

/-!
# Timers: callbacks after `rd_timer_destroy`

`rd_timer_destroy` takes a timer off `rd_timers` and flags it, or frees it if it has no pending event; the events that
are queued stay queued, and `rd_timer_call` does not look at the flag before it runs the callback. What holds of a timer
from then on (`Retired`): it is not armed again and no event of it is queued (`step_retired`). So the callbacks that
begin after `rd_timer_destroy` are those of the events that waited before it, in a queue or taken off it by a thread
that was about to run them, and no others (`destroyed_callbacks`).
-/

namespace Librd.Timers

variable (c : Clock)

/-- The events of a timer that wait for their callback: queued, or taken off a queue. -/
def State.waitingOf (s : State) (rt : Rt) : Nat := (s.eventq.map Prod.snd).count rt + (s.popped.map Prod.snd).count rt

/-- The timer whose callback an operation begins. -/
def begun (s : State) : Op → Option Rt
  | .callBegin tid => (s.popped.find? fun e => e.1 = tid).map Prod.snd
  | _ => none

/-- How often the callback of `rt` begins along a run. -/
def callbacks (rt : Rt) : State → List Op → Nat
  | _, [] => 0
  | s, op :: ops =>
    match step c s op with
    | none => 0
    | some (s', _) => (if begun s op = some rt then 1 else 0) + callbacks rt s' ops

/-- A timer is made at the address `rt`. -/
def Makes (rt : Rt) : Op → Prop
  | .new a _ _ => a = rt
  | .add a _ _ _ => a = rt
  | _ => False

instance (rt : Rt) : (op : Op) → Decidable (Makes rt op)
  | .new a _ _ => inferInstanceAs (Decidable (a = rt))
  | .add a _ _ _ => inferInstanceAs (Decidable (a = rt))
  | .start .. | .stop .. | .destroy .. | .pass | .callPop .. | .callBegin .. | .callEnd .. => .isFalse id

/-- The timer is not armed, and is freed or flagged for removal. -/
structure Retired (s : State) (rt : Rt) : Prop where
  listed : Listed s
  off : rt ∉ s.rdTimers
  gone : Gone s rt

/-! ## A pass -/

section Pass

variable {s s' : State}

theorem fire_waitingOf {rt : Rt} {t : Timer} {a : Rt} (ha : a ≠ rt) : (fire s rt t).waitingOf a = s.waitingOf a := by
  simp [State.waitingOf, fire, List.count_append, Ne.symm ha]

theorem waitingOf_congr (he : s'.eventq = s.eventq) (hp : s'.popped = s.popped) (a : Rt) :
    s'.waitingOf a = s.waitingOf a := by
  simp [State.waitingOf, he, hp]

/-- What a pass that began in `s₀` has done so far: only timers that were armed were touched. -/
structure Touched (s₀ s : State) (callouts : List Rt) : Prop where
  callouts_mem : ∀ a ∈ callouts, a ∈ s₀.rdTimers ∧ s.timers a ≠ none
  armed_mem : ∀ a ∈ s.rdTimers, a ∈ s₀.rdTimers
  timers_eq : ∀ a, a ∉ s₀.rdTimers → s.timers a = s₀.timers a
  waiting_eq : ∀ a, a ∉ s₀.rdTimers → s.waitingOf a = s₀.waitingOf a

namespace Touched

variable {s₀ : State} {cs : List Rt} {rt : Rt} {t : Timer}

/-- The first loop fires an armed timer. -/
theorem fire (h : Touched s₀ s cs) {rest : List Rt} (hl : s.rdTimers = rt :: rest) :
    Touched s₀ (fire s rt t) (cs ++ [rt]) := by
  have hrt : rt ∈ s₀.rdTimers := h.armed_mem rt (hl ▸ List.mem_cons_self)
  refine ⟨fun a ha => ?_, fun a ha => h.armed_mem a (List.mem_of_mem_tail ha), fun a ha => ?_, fun a ha => ?_⟩
  · by_cases hart : a = rt
    · subst hart
      exact ⟨hrt, by simp [Timers.fire]⟩
    · have hcs : a ∈ cs := (List.mem_append.1 ha).resolve_right (by simpa using hart)
      have htimers : (Timers.fire s rt t).timers a = s.timers a := set_timers_of_ne _ hart
      rw [htimers]
      exact h.callouts_mem a hcs
  · have hart : a ≠ rt := fun heq => ha (heq ▸ hrt)
    exact (set_timers_of_ne _ hart).trans (h.timers_eq a ha)
  · have hart : a ≠ rt := fun heq => ha (heq ▸ hrt)
    rw [fire_waitingOf hart]
    exact h.waiting_eq a ha

/-- The second loop restarts a timer that was called out. -/
theorem restart (h : Touched s₀ s (rt :: cs)) (hst : Started s rt t s') : Touched s₀ s' cs := by
  have hrt : rt ∈ s₀.rdTimers := (h.callouts_mem rt List.mem_cons_self).1
  obtain ⟨next, -, htimers⟩ := hst.timers_eq
  refine ⟨fun a ha => ?_, fun a ha => ?_, fun a ha => ?_, fun a ha => ?_⟩
  · have hcs := h.callouts_mem a (List.mem_cons_of_mem rt ha)
    refine ⟨hcs.1, ?_⟩
    rw [htimers]
    by_cases hart : a = rt
    · subst hart
      simp
    · rw [set_timers_of_ne _ hart]
      exact hcs.2
  · rcases List.mem_cons.1 (hst.list_perm.mem_iff.1 ha) with rfl | ha
    · exact hrt
    · exact h.armed_mem a (List.mem_of_mem_erase ha)
  · have hart : a ≠ rt := fun heq => ha (heq ▸ hrt)
    rw [htimers, set_timers_of_ne _ hart]
    exact h.timers_eq a ha
  · rw [waitingOf_congr hst.eventq_eq hst.popped_eq]
    exact h.waiting_eq a ha

theorem tail (h : Touched s₀ s (rt :: cs)) : Touched s₀ s cs :=
  { h with callouts_mem := fun a ha => h.callouts_mem a (List.mem_cons_of_mem rt ha) }

end Touched

/-- **A pass** leaves timers that are not armed as they are. -/
theorem timersPass_touched {alerts : List Alert} (hL : Listed s) (hrun : timersPass c s = some (s', alerts)) :
    Listed s' ∧ Touched s s' [] := by
  obtain ⟨s₁, callouts, al, hfire, hL₁, h₁⟩ := fireExpired_ok (c.read s.reads) (I := fun s₁ cs => Touched s s₁ cs)
    (fun _ _ _ _ _ _ h hl _ _ => h.fire hl) s.rdTimers s.tick [] rfl { hL with }
    ⟨by simp, fun a ha => ha, fun _ _ => rfl, fun _ _ => rfl⟩
  rw [List.nil_append] at h₁
  obtain ⟨s₂, hrestart, hL₂, h₂⟩ := restart_ok c (I := fun s₂ l => Listed s₂ ∧ Touched s s₂ l)
    (fun _ rt _ h => ⟨h.1, (h.2.callouts_mem rt List.mem_cons_self).2⟩)
    (fun _ _ _ _ h _ _ => ⟨h.1, h.2.tail⟩)
    (by
      rintro s₂ rt rest t s₃ ⟨hL₂, h₂⟩ ht - hs₃
      have hst := hL₂.started c ht hs₃
      exact ⟨hst.listed hL₂, h₂.restart hst⟩)
    callouts s₁ ⟨hL₁, h₁⟩
  obtain ⟨ts, k, hu, -⟩ := nextUpdate_ok c s₂ s₂.rdTimers.head? fun rt hrt => hL₂.alloc rt (List.mem_of_mem_head? hrt)
  have hs' : s' = { s₂ with nextTs := ts, reads := s₂.reads + k, sleeping := some ts } := by
    simp [timersPass, rdClock, hfire, hrestart, hu] at hrun
    exact hrun.1.symm
  subst hs'
  exact ⟨{ hL₂ with }, { h₂ with }⟩

end Pass

/-! ## Operations -/

section Steps

variable {s s' : State} {rt a : Rt} {t : Timer} {cell : Option Timer}

/-- An operation on another timer. -/
theorem Retired.other (h : Retired s rt) (hL : Listed s') (ha : rt ≠ a) (ht : s'.timers = (s.set a cell).timers)
    (hl : ∀ b ∈ s'.rdTimers, b = a ∨ b ∈ s.rdTimers) : Retired s' rt :=
  ⟨hL, fun hm => h.off ((hl rt hm).resolve_left ha), h.gone.set ht fun heq => absurd heq ha⟩

theorem Retired.started (h : Retired s rt) (ha : rt ≠ a) (hst : Started s a t s') : Retired s' rt := by
  obtain ⟨next, -, htimers⟩ := hst.timers_eq
  refine h.other (hst.listed h.listed) ha htimers fun b hb => ?_
  exact (List.mem_cons.1 (hst.list_perm.mem_iff.1 hb)).imp_right List.mem_of_mem_erase

theorem Retired.destroyed (h : Retired s rt) (hd : Destroyed s a t s') : Retired s' rt := by
  refine ⟨hd.listed, fun hm => h.off (List.mem_of_mem_erase (hd.list_eq ▸ hm)), h.gone.set hd.timers_eq ?_⟩
  exact fun _ _ => remains_removed

/-- The application does not use a timer that is gone. -/
theorem Retired.ne_of_managed (h : Retired s rt) (ht : s.timers a = some t) (hr : t.removed = false) : rt ≠ a := by
  rintro rfl
  exact h.gone.not_managed ht hr

/-- `rd_timers` holds exactly the armed timers, whatever the operations. -/
theorem step_listed {op : Op} {o : List Alert} (hL : Listed s) (hok : Ok s op) (hrun : step c s op = some (s', o)) :
    Listed s' := by
  cases step_cases c hok hrun with
  | new => exact hL.made hok rfl
  | @add rt type intervalMs rdt _ hs' =>
    have hL₁ : Listed (s.set rt (some (addTimer type intervalMs rdt))) := hL.made hok rfl
    exact (hL₁.started c (set_timers_self ..) hs').listed hL₁
  | @start rt intervalMs t _ ht hs' =>
    have hL₁ : Listed (s.set rt (some { t with interval := intervalMs })) := hL.set (hL.armed rt t ht)
    exact (hL₁.started c (set_timers_self ..) hs').listed hL₁
  | stop ht hs' => exact (hL.stopped c ht hs').listed
  | destroy ht hs' => exact (hL.destroyed c ht hs').listed
  | pass hs' => exact (timersPass_touched c hL hs').1
  | callPop => exact { hL with }
  | callBegin => exact { hL with }
  | @callEnd _ e t s₁ _ ht h₁ hs' =>
    have hL₁ : Listed s₁ := h₁ ▸ hL.ended ht _
    rcases hs' with hs' | rfl
    · have ht₁ : s₁.timers e.2 = some { t with called := wrapInt (t.called - 1) } := by
        rw [h₁]
        exact set_timers_self ..
      exact (hL₁.destroyed c ht₁ hs').listed
    · exact hL₁

/-- What an operation does to a timer that is gone. -/
structure StaysRetired (s : State) (op : Op) (s' : State) (rt : Rt) : Prop where
  retired : Retired s' rt
  waiting_eq : (if begun s op = some rt then 1 else 0) + s'.waitingOf rt = s.waitingOf rt

/-- Operations that queue no event and begin no callback. -/
theorem StaysRetired.of_waiting {op : Op} (h : Retired s' rt) (hb : begun s op = none)
    (hw : s'.waitingOf rt = s.waitingOf rt) : StaysRetired s op s' rt := by
  refine ⟨h, ?_⟩
  rw [hb, if_neg (Option.some_ne_none rt).symm, Nat.zero_add, hw]

/-- A thread takes an event off its queue: it still waits for its callback. -/
theorem callPop_retired {tid : Tid} (h : Retired s rt) (hrun : callPop s tid = some s') :
    StaysRetired s (.callPop tid) s' rt := by
  simp only [callPop, Option.bind_eq_bind, Option.bind_eq_some_iff, Option.pure_def, Option.some.injEq] at hrun
  obtain ⟨e, he, rfl⟩ := hrun
  refine .of_waiting ⟨{ h.listed with }, h.off, h.gone⟩ rfl ?_
  have hcount := erase_count (List.mem_of_find?_eq_some he) rt
  simp only [State.waitingOf, List.map_cons, List.count_cons, beq_iff_eq, eq_comm (b := rt)]
  omega

/-- The callback of an event begins. -/
theorem callBegin_retired {tid : Tid} (h : Retired s rt) (hrun : callBegin s tid = some s') :
    StaysRetired s (.callBegin tid) s' rt := by
  simp only [callBegin, Option.bind_eq_bind, Option.bind_eq_some_iff, Option.pure_def, Option.some.injEq] at hrun
  obtain ⟨e, he, t, -, -, -, rfl⟩ := hrun
  refine ⟨⟨{ h.listed with }, h.off, h.gone⟩, ?_⟩
  have hcount := erase_count (List.mem_of_find?_eq_some he) rt
  have hb : begun s (.callBegin tid) = some e.2 := by rw [begun, he]; rfl
  have hif : (if begun s (.callBegin tid) = some rt then 1 else 0) = if rt = e.2 then 1 else 0 := by
    simp [hb, eq_comm]
  rw [hif]
  simp only [State.waitingOf]
  omega

/-- The end of an event, of this timer or of another. -/
theorem callEnd_retired {e : Tid × Rt} {s₁ : State} (h : Retired s rt) (ht : s.timers e.2 = some t)
    (h₁ : s₁ = { s with executing := s.executing.erase e }.set e.2 (some { t with called := wrapInt (t.called - 1) }))
    (hs' : destroy0 c s₁ e.2 = some s' ∨ s₁ = s') : Retired s' rt ∧ s'.waitingOf rt = s.waitingOf rt := by
  have hret : Retired s₁ rt := by
    subst h₁
    refine ⟨h.listed.ended ht _, h.off, h.gone.set rfl ?_⟩
    rintro rfl t' ⟨⟩
    exact h.gone t ht
  have hwaiting : s₁.waitingOf rt = s.waitingOf rt := by rw [h₁]; rfl
  rcases hs' with hs' | rfl
  · have ht₁ : s₁.timers e.2 = some { t with called := wrapInt (t.called - 1) } := by
      rw [h₁]
      exact set_timers_self ..
    have hd := hret.listed.destroyed c ht₁ hs'
    exact ⟨hret.destroyed hd, (waitingOf_congr hd.eventq_eq hd.popped_eq rt).trans hwaiting⟩
  · exact ⟨hret, hwaiting⟩

/-- **One operation** does not arm a timer that is gone, queues no event of it, and has one wait less for each callback
that it begins. -/
theorem step_retired {op : Op} {o : List Alert} (h : Retired s rt) (hok : Ok s op) (hnew : ¬Makes rt op)
    (hrun : step c s op = some (s', o)) : StaysRetired s op s' rt := by
  have hL' := step_listed c h.listed hok hrun
  cases step_cases c hok hrun with
  | new => exact .of_waiting (h.other hL' (Ne.symm hnew) rfl fun _ hb => .inr hb) rfl rfl
  | @add a type intervalMs rdt _ hs' =>
    have hL₁ : Listed (s.set a (some (addTimer type intervalMs rdt))) := h.listed.made hok rfl
    have hst := hL₁.started c (set_timers_self ..) hs'
    have h₁ := h.other hL₁ (Ne.symm hnew) rfl fun _ hb => .inr hb
    exact .of_waiting (h₁.started (Ne.symm hnew) hst) rfl (waitingOf_congr hst.eventq_eq hst.popped_eq rt)
  | @start a intervalMs t _ ht hs' =>
    obtain ⟨t', ht', -, hr⟩ := hok
    obtain rfl := Option.some.inj (ht.symm.trans ht')
    have ha := h.ne_of_managed ht hr
    have hL₁ : Listed (s.set a (some { t with interval := intervalMs })) := h.listed.set (h.listed.armed a t ht)
    have hst := hL₁.started c (set_timers_self ..) hs'
    have h₁ := h.other hL₁ ha rfl fun _ hb => .inr hb
    exact .of_waiting (h₁.started ha hst) rfl (waitingOf_congr hst.eventq_eq hst.popped_eq rt)
  | stop ht hs' =>
    obtain ⟨t', ht', -, hr⟩ := hok
    obtain rfl := Option.some.inj (ht.symm.trans ht')
    have hst := h.listed.stopped c ht hs'
    refine .of_waiting (h.other hL' (h.ne_of_managed ht hr) hst.timers_eq fun b hb => ?_) rfl
      (waitingOf_congr hst.eventq_eq hst.popped_eq rt)
    exact .inr (List.mem_of_mem_erase (hst.list_eq ▸ hb))
  | destroy ht hs' =>
    have hd := h.listed.destroyed c ht hs'
    exact .of_waiting (h.destroyed hd) rfl (waitingOf_congr hd.eventq_eq hd.popped_eq rt)
  | pass hs' =>
    obtain ⟨-, htouched⟩ := timersPass_touched c h.listed hs'
    refine ⟨⟨hL', fun hm => h.off (htouched.armed_mem rt hm), fun t ht => ?_⟩, ?_⟩
    · rw [htouched.timers_eq rt h.off] at ht
      exact h.gone t ht
    · exact (Nat.zero_add _).trans (htouched.waiting_eq rt h.off)
  | @callPop tid e =>
    obtain ⟨s₂, hs₂, heq⟩ := Option.map_eq_some_iff.1 hrun
    cases heq
    exact callPop_retired h hs₂
  | @callBegin tid e =>
    obtain ⟨s₂, hs₂, heq⟩ := Option.map_eq_some_iff.1 hrun
    cases heq
    exact callBegin_retired h hs₂
  | callEnd ht h₁ hs' =>
    obtain ⟨hret, hwaiting⟩ := callEnd_retired c h ht h₁ hs'
    exact .of_waiting hret rfl hwaiting

end Steps

/-! ## Runs -/

section Runs

variable {s s' : State} {rt : Rt}

theorem run_listed {ops : List Op} {outs : List (List Alert)} (hok : (machine c).Admits init ops)
    (hrun : (machine c).run init ops = some (s, outs)) : Listed s :=
  Machine.run_keeps (I := fun s _ => Listed s) (fun _ _ _ _ _ h hok hrun => step_listed c h hok hrun) []
  init_timed.1 hok
    hrun

/-- Callbacks of a timer that is gone begin at most as often as it has events that wait, whether the run faults or
not. -/
theorem callbacks_le {ops : List Op} (h : Retired s rt) (hok : (machine c).Admits s ops)
    (hnew : ∀ op ∈ ops, ¬Makes rt op) : callbacks c rt s ops ≤ s.waitingOf rt := by
  induction ops generalizing s with
  | nil => exact Nat.zero_le _
  | cons op ops ih =>
    rw [callbacks]
    cases hstep : step c s op with
    | none => exact Nat.zero_le _
    | some p =>
      have hstays := step_retired c h hok.1 (hnew op List.mem_cons_self) hstep
      have hle := ih hstays.retired ((Machine.each_cons (M := machine c) hstep).1 hok).2 fun op' hop' =>
        hnew op' (List.mem_cons_of_mem op hop')
      rw [← hstays.waiting_eq]
      exact Nat.add_le_add_left hle _

/-- **Callbacks of a timer that is gone**: each of them is that of one of the events that wait. -/
theorem run_retired {ops : List Op} {outs : List (List Alert)} (h : Retired s rt) (hok : (machine c).Admits s ops)
    (hnew : ∀ op ∈ ops, ¬Makes rt op) (hrun : (machine c).run s ops = some (s', outs)) :
    callbacks c rt s ops + s'.waitingOf rt = s.waitingOf rt := by
  induction ops generalizing s outs with
  | nil =>
    obtain ⟨rfl, -⟩ : s = s' ∧ [] = outs := by simpa using hrun
    exact Nat.zero_add _
  | cons op ops ih =>
    obtain ⟨s₁, o, outs₁, hstep, hrest, rfl⟩ := Machine.exists_of_run_cons hrun
    have hstays := step_retired c h hok.1 (hnew op List.mem_cons_self) hstep
    have hcount := ih hstays.retired ((Machine.each_cons hstep).1 hok).2
      (fun op' hop' => hnew op' (List.mem_cons_of_mem op hop')) hrest
    have hcallbacks :
      callbacks c rt s (op :: ops) = (if begun s op = some rt then 1 else 0) + callbacks c rt s₁ ops := by
      rw [callbacks, show step c s op = some (s₁, o) from hstep]
    rw [hcallbacks, Nat.add_assoc, hcount]
    exact hstays.waiting_eq

/-- `rd_timer_destroy` retires a timer, and leaves its events. -/
theorem destroy_retired {o : List Alert} (hL : Listed s) (hok : Ok s (.destroy rt))
    (hrun : step c s (.destroy rt) = some (s', o)) : Retired s' rt ∧ s'.waitingOf rt = s.waitingOf rt := by
  obtain ⟨t, ht, -⟩ := hok
  obtain ⟨s₂, hs₂, heq⟩ := Option.map_eq_some_iff.1 hrun
  cases heq
  have hd := hL.destroyed c ht hs₂
  refine ⟨⟨hd.listed, ?_, fun t' ht' => ?_⟩, waitingOf_congr hd.eventq_eq hd.popped_eq rt⟩
  · rw [hd.list_eq]
    exact hL.nodup.not_mem_erase
  · rw [hd.timers_eq, set_timers_self] at ht'
    exact remains_removed ht'

/-- **Callbacks after `rd_timer_destroy`.** As long as its address is not given to another timer, a destroyed timer gets
no new event, and the callbacks of it that begin are those of the events that waited before: in a queue, or taken off it
by a thread whose callback had not begun. -/
theorem destroyed_callbacks {ops₁ ops₂ : List Op} {outs₁ : List (List Alert)}
    (hok : (machine c).Admits init (ops₁ ++ .destroy rt :: ops₂)) (hnew : ∀ op ∈ ops₂, ¬Makes rt op)
    (h₁ : (machine c).run init ops₁ = some (s, outs₁)) :
    callbacks c rt s (.destroy rt :: ops₂) ≤ s.waitingOf rt ∧
      ∀ s' outs₂, (machine c).run s (.destroy rt :: ops₂) = some (s', outs₂) →
        callbacks c rt s (.destroy rt :: ops₂) + s'.waitingOf rt = s.waitingOf rt := by
  obtain ⟨hok₁, hok₂⟩ := (Machine.each_append h₁).1 hok
  have hL := run_listed c hok₁ h₁
  cases hd : step c s (.destroy rt) with
  | none =>
    have hcallbacks : callbacks c rt s (.destroy rt :: ops₂) = 0 := by rw [callbacks, hd]
    refine ⟨hcallbacks ▸ Nat.zero_le _, fun s' outs₂ hrun => ?_⟩
    obtain ⟨_, _, _, hstep, -⟩ := Machine.exists_of_run_cons hrun
    exact absurd (hd.symm.trans hstep) (by simp)
  | some p =>
    obtain ⟨s₁, o₁⟩ := p
    obtain ⟨hret, hwaiting⟩ := destroy_retired c hL hok₂.1 hd
    have hd' : (machine c).step s (.destroy rt) = some (s₁, o₁) := hd
    have hok₂' := ((Machine.each_cons hd').1 hok₂).2
    have hcallbacks : callbacks c rt s (.destroy rt :: ops₂) = callbacks c rt s₁ ops₂ := by
      rw [callbacks, hd]
      exact Nat.zero_add _
    rw [hcallbacks, ← hwaiting]
    refine ⟨callbacks_le c hret hok₂' hnew, fun s' outs₂ hrun => ?_⟩
    obtain ⟨s₂, o, outs, hstep, hrest, -⟩ := Machine.exists_of_run_cons hrun
    obtain ⟨rfl, -⟩ : s₁ = s₂ ∧ o₁ = o := by simpa using hd.symm.trans hstep
    exact run_retired c hret hok₂' hnew hrest

/-- A recurring timer that fired three times and is destroyed when one of its events is taken off the queue during the
callback of another: the one taken and the one queued still begin. -/
theorem destroyed_callbacks_recurr :
    let ops₁ : List Op := [.new 1 .recurr 0, .start 1 0, .pass, .pass, .pass, .callPop 0, .callBegin 0, .callPop 0]
    let ops₂ : List Op := [.callBegin 0, .callEnd 0, .callEnd 0, .pass, .callPop 0, .callBegin 0]
    (machine oneSecond).Admits init (ops₁ ++ .destroy 1 :: ops₂) ∧
      ∃ s outs₁, (machine oneSecond).run init ops₁ = some (s, outs₁) ∧ s.waitingOf 1 = 2 ∧
        callbacks oneSecond 1 s (.destroy 1 :: ops₂) ≤ s.waitingOf 1 :=
  ⟨by decide, _, _, rfl, by decide,
    (destroyed_callbacks oneSecond
      (show (machine oneSecond).Admits init
        ([.new 1 .recurr 0, .start 1 0, .pass, .pass, .pass, .callPop 0, .callBegin 0, .callPop 0] ++
          .destroy 1 :: [.callBegin 0, .callEnd 0, .callEnd 0, .pass, .callPop 0, .callBegin 0]) by decide)
      (by decide) rfl).1⟩

/-- A timer that fired is destroyed, and its callback begins after that. -/
theorem callback_after_destroy :
    let ops₁ : List Op := [.new 1 .once 0, .start 1 0, .pass]
    let ops₂ : List Op := [.callPop 0, .callBegin 0]
    (machine oneSecond).Admits init (ops₁ ++ .destroy 1 :: ops₂) ∧
      ∃ s outs₁, (machine oneSecond).run init ops₁ = some (s, outs₁) ∧
        callbacks oneSecond 1 s (.destroy 1 :: ops₂) = 1 :=
  ⟨by decide, _, _, rfl, by decide⟩

end Runs

end Librd.Timers
