import Librd.Timers.Timer

/-!
# Timers: what the operations do

One lemma per function of `rdtimer.c`, for states whose `rd_timers` holds exactly the armed timers (`Listed`): it does
not fault, and what it does to the timers, to `rd_timers` and to the events (`stop0_ok`, `start0_ok`, `fireExpired_ok`,
`restart_ok`). The same lemmas say when they keep the deadlines in order (`Timed`): `rd_timers` ascends,
`rd_timers_next_ts` is not later than any armed timer, and the timer thread sleeps until then at most.

A sorted insertion puts a timer in its place exactly when `rd_timer_cmp` gives the sign of the difference wherever the
scan looks (`ScanOk`, `insertSorted_ok`).
-/

namespace Librd.Timers

variable (c : Clock)

/-! ## Lists of armed timers -/

/-- The `rt_next` of a timer. -/
def State.nextOf (s : State) (rt : Rt) : Nat := ((s.timers rt).map Timer.next).getD 0

/-- `rd_timers` holds the armed timers, each once. -/
structure Listed (s : State) : Prop where
  nodup : s.rdTimers.Nodup
  armed : ∀ rt t, s.timers rt = some t → (t.next ≠ 0 ↔ rt ∈ s.rdTimers)
  alloc : ∀ rt ∈ s.rdTimers, s.timers rt ≠ none

/-- The deadlines are in order: `rd_timers` ascends, `rd_timers_next_ts` is not later than any armed timer, and the
timer thread waits for it. -/
structure Timed (s : State) : Prop where
  sorted : s.rdTimers.Pairwise fun a b => s.nextOf a ≤ s.nextOf b
  next_le : ∀ rt ∈ s.rdTimers, timespecToTs s.nextTs ≤ s.nextOf rt
  sleeping : ∀ t, s.sleeping = some t → t = s.nextTs

section NextOf

variable {s : State} {rt : Rt} {t : Timer}

theorem nextOf_eq (h : s.timers rt = some t) : s.nextOf rt = t.next := by simp [State.nextOf, h]

theorem nextOf_congr {s' : State} (h : s'.timers rt = s.timers rt) : s'.nextOf rt = s.nextOf rt := by
  simp [State.nextOf, h]

theorem Listed.exists_timer (h : Listed s) (hm : rt ∈ s.rdTimers) : ∃ t, s.timers rt = some t ∧ t.next ≠ 0 := by
  obtain ⟨t, ht⟩ := Option.ne_none_iff_exists'.1 (h.alloc rt hm)
  exact ⟨t, ht, (h.armed rt t ht).2 hm⟩

end NextOf

/-- The timers of a smaller list stay in order when other timers change. -/
theorem Timed.sublist {s s' : State} (h : Timed s) (hl : s'.rdTimers.Sublist s.rdTimers)
    (ht : ∀ rt ∈ s'.rdTimers, s'.timers rt = s.timers rt) (hn : ∀ rt ∈ s'.rdTimers,
      timespecToTs s'.nextTs ≤ s.nextOf rt) (hs : ∀ t, s'.sleeping = some t → t = s'.nextTs) : Timed s' where
  sorted := by
    refine (List.Pairwise.sublist hl h.sorted).imp_of_mem fun ha hb hab => ?_
    rwa [nextOf_congr (ht _ ha), nextOf_congr (ht _ hb)]
  next_le := fun rt hm => by
    rw [nextOf_congr (ht rt hm)]
    exact hn rt hm
  sleeping := hs

/-! ## Time -/

theorem timespecToTs_le (x : Nat) : timespecToTs (tsToTimespec x x) ≤ x := by
  have h : ¬ x % 1000000 * 1000 ≥ 1000000000 := by omega
  rw [tsToTimespec, if_neg h]
  apply Nat.le_trans (Nat.mod_le _ _)
  simp only
  omega

theorem expiry_eq (k intervalMs : Nat) : expiry (c.read k) intervalMs = c.read k + intervalMs * 1000 % 2 ^ 32 := by
  have := c.lt k
  exact Nat.mod_eq_of_lt (by omega)

theorem le_expiry (k intervalMs : Nat) : c.read k ≤ expiry (c.read k) intervalMs := by
  rw [expiry_eq]; omega

theorem expiry_ne_zero (k intervalMs : Nat) : expiry (c.read k) intervalMs ≠ 0 := by
  have := c.pos k
  have := le_expiry c k intervalMs
  omega

/-- `rd_timers_next_update` of the first timer, or without timers. -/
theorem nextUpdate_ok (s : State) (first : Option Rt) (h : ∀ rt, first = some rt → s.timers rt ≠ none) :
    ∃ ts k, nextUpdate c s first = some { s with nextTs := ts, reads := s.reads + k, sleeping := none } ∧
      ∀ rt, first = some rt → timespecToTs ts ≤ s.nextOf rt := by
  cases first with
  | none => exact ⟨_, 2, rfl, by simp⟩
  | some rt =>
    obtain ⟨t, ht⟩ := Option.ne_none_iff_exists'.1 (h rt rfl)
    refine ⟨tsToTimespec t.next t.next, 0, by simp [nextUpdate, ht], ?_⟩
    rintro _ ⟨⟩
    rw [nextOf_eq ht]
    exact timespecToTs_le _

/-! ## Changing one timer -/

section Set

variable {s : State} {rt : Rt} {t : Timer}

/-- A change of a timer that leaves it armed or not as it was. -/
theorem Listed.set (h : Listed s) (hc : t.next ≠ 0 ↔ rt ∈ s.rdTimers) : Listed (s.set rt (some t)) where
  nodup := h.nodup
  armed := by
    intro a ta hta
    by_cases ha : a = rt
    · subst ha
      rw [set_timers_self] at hta
      cases hta
      exact hc
    · rw [set_timers_of_ne _ ha] at hta
      exact h.armed a ta hta
  alloc := by
    intro a hm
    by_cases ha : a = rt
    · subst ha; simp
    · rw [set_timers_of_ne _ ha]; exact h.alloc a hm

/-- A timer is made. -/
theorem Listed.made (h : Listed s) (hnone : s.timers rt = none) (h0 : t.next = 0) : Listed (s.set rt (some t)) :=
  h.set (iff_of_false (not_not.2 h0) fun hm => h.alloc rt hm hnone)

/-- An event of a timer ends. -/
theorem Listed.ended {e : Tid × Rt} (h : Listed s) (ht : s.timers e.2 = some t) (called : Int) :
    Listed ({ s with executing := s.executing.erase e }.set e.2 (some { t with called := called })) :=
  have h0 : Listed { s with executing := s.executing.erase e } := { h with }
  h0.set (h.armed e.2 t ht)

/-- Freeing a timer that is not armed. -/
theorem Listed.free (h : Listed s) (hm : rt ∉ s.rdTimers) : Listed (s.set rt none) where
  nodup := h.nodup
  armed := by
    intro a ta hta
    have ha : a ≠ rt := by rintro rfl; simp at hta
    rw [set_timers_of_ne _ ha] at hta
    exact h.armed a ta hta
  alloc := by
    intro a hm'
    rw [set_timers_of_ne _ (by rintro rfl; exact hm hm')]
    exact h.alloc a hm'

theorem Listed.erase (h : Listed s) (rt : Rt) (t : Timer) :
    Listed ({ s with rdTimers := s.rdTimers.erase rt }.set rt (some { t with next := 0 })) where
  nodup := h.nodup.erase rt
  armed := by
    intro a ta hta
    simp only [set_rdTimers, h.nodup.mem_erase_iff]
    by_cases ha : a = rt
    · subst ha
      rw [set_timers_self] at hta
      cases hta
      simp
    · rw [set_timers_of_ne _ ha] at hta
      simp [ha, h.armed a ta hta]
  alloc := by
    intro a hm
    by_cases ha : a = rt
    · subst ha; simp
    · rw [set_timers_of_ne _ ha]; exact h.alloc a (List.mem_of_mem_erase hm)

/-- A change of a timer that keeps its `rt_next`, if it is armed. -/
theorem Timed.set (h : Timed s) (hn : rt ∈ s.rdTimers → s.nextOf rt = t.next) : Timed (s.set rt (some t)) := by
  have hnext : ∀ a ∈ s.rdTimers, (s.set rt (some t)).nextOf a = s.nextOf a := by
    intro a hm
    by_cases ha : a = rt
    · subst ha
      rw [nextOf_eq (set_timers_self ..), hn hm]
    · exact nextOf_congr (set_timers_of_ne _ ha)
  refine ⟨?_, fun a hm => ?_, h.sleeping⟩
  · exact h.sorted.imp_of_mem fun ha hb hab => by rwa [hnext _ ha, hnext _ hb]
  · rw [hnext a hm]
    exact h.next_le a hm

theorem Timed.free (h : Timed s) (hm : rt ∉ s.rdTimers) : Timed (s.set rt none) :=
  h.sublist (List.Sublist.refl _) (fun a ha => set_timers_of_ne _ (by rintro rfl; exact hm ha)) h.next_le h.sleeping

end Set

/-! ## `rd_timer_stop0` and `rd_timer_destroy0` -/

/-- What stopping the timer `rt`, which was `t`, does. -/
structure Stopped (s : State) (rt : Rt) (t : Timer) (s' : State) : Prop where
  timers_eq : s'.timers = (s.set rt (some { t with next := 0 })).timers
  list_eq : s'.rdTimers = s.rdTimers.erase rt
  eventq_eq : s'.eventq = s.eventq
  popped_eq : s'.popped = s.popped
  executing_eq : s'.executing = s.executing
  listed : Listed s'
  timed : Timed s → Timed s'
  idle : t.next = 0 → s' = s

namespace Stopped

variable {s s' : State} {rt : Rt} {t : Timer}

theorem timer_eq (h : Stopped s rt t s') : s'.timers rt = some { t with next := 0 } := by
  rw [h.timers_eq, set_timers_self]

theorem not_mem (h : Stopped s rt t s') : rt ∉ s'.rdTimers := fun hm => (h.listed.armed rt _ h.timer_eq).2 hm rfl

end Stopped

/-- **`rd_timer_stop0`.** -/
theorem stop0_ok {s : State} {rt : Rt} {t : Timer} (h : Listed s) (ht : s.timers rt = some t) :
    ∃ s', stop0 c s rt = some s' ∧ Stopped s rt t s' := by
  by_cases hnext : t.next = 0
  · -- not armed: nothing changes
    have hm : rt ∉ s.rdTimers := fun hm => (h.armed rt t ht).2 hm hnext
    have hself : s.set rt (some { t with next := 0 }) = s := set_self (by rw [ht, ← hnext])
    exact ⟨s, by simp [stop0, ht, hnext],
      ⟨by rw [hself], (List.erase_of_not_mem hm).symm, rfl, rfl, rfl, h, id, fun _ => rfl⟩⟩
  · have hm : rt ∈ s.rdTimers := (h.armed rt t ht).1 hnext
    have hother : ∀ a ∈ s.rdTimers.erase rt, (s.set rt (some { t with next := 0 })).timers a = s.timers a :=
      fun a ha => set_timers_of_ne _ (h.nodup.mem_erase_iff.1 ha).1
    by_cases hfirst : t.called = 0 ∧ s.rdTimers.head? = some rt
    · -- the first timer: the one after it is the next to fire
      obtain ⟨l, hl⟩ : ∃ l, s.rdTimers = rt :: l := by
        cases hd : s.rdTimers with
        | nil => rw [hd] at hm; cases hm
        | cons a l => rw [hd] at hfirst; exact ⟨l, by simpa using hfirst.2⟩
      obtain ⟨ts, k, hu, hle⟩ := nextUpdate_ok c s s.rdTimers.tail.head? (fun a ha => h.alloc a (by
        rw [hl] at ha ⊢; exact List.mem_cons_of_mem _ (List.mem_of_mem_head? ha)))
      refine ⟨{ s with nextTs := ts, reads := s.reads + k, sleeping := none, rdTimers := s.rdTimers.erase rt }.set rt
          (some { t with next := 0 }), ?_, ⟨rfl, rfl, rfl, rfl, rfl, { h.erase rt t with }, ?_,
            fun h0 => absurd h0 hnext⟩⟩
      · simp only [stop0, ht, Option.bind_eq_bind, Option.bind_some, if_pos hnext, if_pos hfirst, hu]
        simp [hm]
      intro hT
      refine hT.sublist List.erase_sublist hother ?_ (by simp)
      intro a ha
      simp only [set_rdTimers, hl, List.erase_cons_head, List.tail_cons] at ha hle ⊢
      have hsorted := List.pairwise_cons.1 (hl ▸ hT.sorted)
      cases l with
      | nil => cases ha
      | cons b l =>
        have hb := hle b rfl
        rcases List.mem_cons.1 ha with rfl | ha
        · exact hb
        · exact Nat.le_trans hb ((List.pairwise_cons.1 hsorted.2).1 a ha)
    · refine ⟨{ s with rdTimers := s.rdTimers.erase rt }.set rt (some { t with next := 0 }),
        ?_, ⟨rfl, rfl, rfl, rfl, rfl, h.erase rt t, ?_, fun h0 => absurd h0 hnext⟩⟩
      · simp only [stop0, ht, Option.bind_eq_bind, Option.bind_some, if_pos hnext, if_neg hfirst]
        simp [hm]
      · intro hT
        exact hT.sublist List.erase_sublist hother (fun a ha => hT.next_le a (List.mem_of_mem_erase ha)) hT.sleeping

theorem Listed.stopped {s s' : State} {rt : Rt} {t : Timer} (h : Listed s) (ht : s.timers rt = some t)
    (hrun : stop0 c s rt = some s') : Stopped s rt t s' := by
  obtain ⟨s1, hs1, hst⟩ := stop0_ok c h ht
  rw [hrun] at hs1
  cases hs1
  exact hst

/-- What `rd_timer_destroy0` leaves of a timer. -/
def remains (t : Timer) : Option Timer := if t.called ≠ 0 then some { t with next := 0, removed := true } else none

/-- What destroying the timer `rt`, which was `t`, does. -/
structure Destroyed (s : State) (rt : Rt) (t : Timer) (s' : State) : Prop where
  timers_eq : s'.timers = (s.set rt (remains t)).timers
  list_eq : s'.rdTimers = s.rdTimers.erase rt
  eventq_eq : s'.eventq = s.eventq
  popped_eq : s'.popped = s.popped
  executing_eq : s'.executing = s.executing
  listed : Listed s'
  timed : Timed s → Timed s'

/-- **`rd_timer_destroy0`.** -/
theorem destroy0_ok {s : State} {rt : Rt} {t : Timer} (h : Listed s) (ht : s.timers rt = some t) :
    ∃ s', destroy0 c s rt = some s' ∧ Destroyed s rt t s' := by
  obtain ⟨s1, hstop, hst⟩ := stop0_ok c h ht
  have htimers : ∀ cell, (s1.set rt cell).timers = (s.set rt cell).timers := by
    intro cell
    have := congrArg (fun f => Function.update f rt cell) hst.timers_eq
    simpa [State.set] using this
  by_cases hcalled : t.called = 0
  · refine ⟨s1.set rt none, by simp [destroy0, hstop, hst.timer_eq, hcalled], ?_⟩
    exact ⟨by rw [htimers, remains, if_neg (not_not.2 hcalled)], hst.list_eq, hst.eventq_eq, hst.popped_eq,
      hst.executing_eq, hst.listed.free hst.not_mem, fun hT => (hst.timed hT).free hst.not_mem⟩
  · refine ⟨s1.set rt (some { t with next := 0, removed := true }),
      by simp [destroy0, hstop, hst.timer_eq, hcalled], ?_⟩
    exact ⟨by rw [htimers, remains, if_pos hcalled], hst.list_eq, hst.eventq_eq, hst.popped_eq, hst.executing_eq,
      hst.listed.set (by simp [hst.not_mem]), fun hT => (hst.timed hT).set fun hm => absurd hm hst.not_mem⟩

theorem Listed.destroyed {s s' : State} {rt : Rt} {t : Timer} (h : Listed s) (ht : s.timers rt = some t)
    (hrun : destroy0 c s rt = some s') : Destroyed s rt t s' := by
  obtain ⟨s1, hs1, hd⟩ := destroy0_ok c h ht
  rw [hrun] at hs1
  cases hs1
  exact hd

/-! ## Sorted insertion -/

/-- `rd_timer_cmp` has the sign of the difference for every timer that the scan for the place of `new` has to pass, and
for the one it has to stop at. -/
def ScanOk (new : Nat) : List Nat → Prop
  | [] => True
  | a :: l => if a < new then 0 < timerCmp new a ∧ ScanOk new l else timerCmp new a ≤ 0

instance ScanOk.decidable (new : Nat) : ∀ l : List Nat, Decidable (ScanOk new l)
  | [] => .isTrue trivial
  | a :: l =>
    have := ScanOk.decidable new l
    inferInstanceAs (Decidable (if a < new then 0 < timerCmp new a ∧ ScanOk new l else timerCmp new a ≤ 0))

theorem timerCmp_self (a : Nat) : timerCmp a a = 0 := by simp [timerCmp]

/-- `rd_timer_cmp` of two times less than `2 ^ 31` us apart is their difference. -/
theorem timerCmp_of_near {a b : Nat} (hab : a < b + 2 ^ 31) (hba : b < a + 2 ^ 31) : timerCmp a b = (a : Int) - b := by
  rw [timerCmp, Int.bmod_eq_of_le] <;> omega

/-- A scan compares right when all timers expire less than `2 ^ 31` us before or after the new one. -/
theorem scanOk_of_near {new : Nat} : ∀ {l : List Nat}, (∀ a ∈ l, new < a + 2 ^ 31 ∧ a < new + 2 ^ 31) → ScanOk new l
  | [], _ => trivial
  | a :: l, h => by
    obtain ⟨hna, han⟩ := h a List.mem_cons_self
    have hrest := scanOk_of_near fun b hb => h b (List.mem_cons_of_mem a hb)
    have hcmp := timerCmp_of_near hna han
    rw [ScanOk]
    split
    · exact ⟨by omega, hrest⟩
    · omega

/-- **Sorted insertion** into a list in order: the list stays in order exactly when the comparisons are right. -/
theorem insertSorted_ok {s : State} {rt : Rt} {t : Timer} (ht : s.timers rt = some t) :
    ∀ l : List Rt, (∀ a ∈ l, s.timers a ≠ none) → ∃ l', insertSorted s.timers rt l = some l' ∧ l'.Perm (rt :: l) ∧
      (l.Pairwise (fun a b => s.nextOf a ≤ s.nextOf b) →
        (l'.Pairwise (fun a b => s.nextOf a ≤ s.nextOf b) ↔ ScanOk t.next (l.map s.nextOf)))
  | [], _ => ⟨[rt], rfl, .rfl, by simp [ScanOk]⟩
  | a :: l, ha => by
    obtain ⟨ta, hta⟩ := Option.ne_none_iff_exists'.1 (ha a List.mem_cons_self)
    have hn : s.nextOf rt = t.next := nextOf_eq ht
    have hna : s.nextOf a = ta.next := nextOf_eq hta
    by_cases hcmp : timerCmp t.next ta.next ≤ 0
    · refine ⟨rt :: a :: l, by simp [insertSorted, ht, hta, hcmp], .rfl, ?_⟩
      intro hs
      have hle := (List.pairwise_cons.1 hs).1
      simp only [List.map_cons, ScanOk, List.pairwise_cons, List.mem_cons, hn, hna] at hs hle ⊢
      split
      · simp only [show ¬ 0 < timerCmp t.next ta.next by omega, false_and, iff_false]
        intro h
        have h1 := h.1 a (.inl rfl)
        rw [hna] at h1
        omega
      · simp only [hcmp, iff_true]
        refine ⟨?_, hs⟩
        rintro b (rfl | hb)
        · rw [hna]; omega
        · exact Nat.le_trans (by omega) (hle b hb)
    · obtain ⟨l', hl', hperm, hiff⟩ := insertSorted_ok ht l fun b hb => ha b (List.mem_cons_of_mem _ hb)
      refine ⟨a :: l', by simp [insertSorted, ht, hta, hcmp, hl'], (hperm.cons a).trans (.swap ..), ?_⟩
      intro hs
      have hs' := List.pairwise_cons.1 hs
      have hiff := hiff hs'.2
      simp only [List.map_cons, ScanOk, List.pairwise_cons, hna] at hs' ⊢
      split
      · rename_i hlt
        rw [hiff]
        simp only [show 0 < timerCmp t.next ta.next by omega, true_and, and_iff_right_iff_imp]
        intro _ b hb
        rcases List.mem_cons.1 (hperm.mem_iff.1 hb) with rfl | hb
        · omega
        · exact hs'.1 b hb
      · simp only [hcmp, iff_false]
        intro h
        have h1 := h.1 rt (hperm.mem_iff.2 List.mem_cons_self)
        rw [show t.next = ta.next by omega, timerCmp_self] at hcmp
        exact hcmp (Int.le_refl 0)

/-! ## `rd_timer_start0` -/

/-- The sorted insertion of `rd_timer_start0`, if it makes one, compares right. -/
def ArmOk (s : State) (rt : Rt) (intervalMs : Nat) : Prop :=
  ∀ s' ∈ stop0 c s rt, timespecToTs s'.nextTs ≤ expiry (c.read s'.reads) intervalMs →
    ScanOk (expiry (c.read s'.reads) intervalMs) (s'.rdTimers.map s'.nextOf)

instance (s : State) (rt : Rt) (intervalMs : Nat) : Decidable (ArmOk c s rt intervalMs) :=
  inferInstanceAs (Decidable (∀ s' ∈ stop0 c s rt, _))

/-- **Near deadlines**: the sorted insertion compares right when every armed timer expires less than `2 ^ 31` us (about
35 minutes and 47 seconds) before or after the timer started. -/
theorem armOk_of_near {s : State} {rt : Rt} {intervalMs : Nat}
    (h : ∀ s' ∈ stop0 c s rt, ∀ a ∈ s'.rdTimers, expiry (c.read s'.reads) intervalMs < s'.nextOf a + 2 ^ 31 ∧
      s'.nextOf a < expiry (c.read s'.reads) intervalMs + 2 ^ 31) : ArmOk c s rt intervalMs := by
  intro s' hs' _
  apply scanOk_of_near
  intro n hn
  obtain ⟨a, ha, rfl⟩ := List.mem_map.1 hn
  exact h s' hs' a ha

/-- What starting the timer `rt`, which was `t`, does. -/
structure Started (s : State) (rt : Rt) (t : Timer) (s' : State) : Prop where
  timers_eq : ∃ next, next ≠ 0 ∧ s'.timers = (s.set rt (some { t with next := next })).timers
  list_perm : s'.rdTimers.Perm (rt :: s.rdTimers.erase rt)
  eventq_eq : s'.eventq = s.eventq
  popped_eq : s'.popped = s.popped
  executing_eq : s'.executing = s.executing

theorem Started.listed {s s' : State} {rt : Rt} {t : Timer} (h : Listed s) (hs : Started s rt t s') : Listed s' := by
  obtain ⟨next, hne, htimers⟩ := hs.timers_eq
  have hmem : ∀ a, a ∈ s'.rdTimers ↔ a = rt ∨ a ∈ s.rdTimers := by
    intro a
    rw [hs.list_perm.mem_iff, List.mem_cons, h.nodup.mem_erase_iff]
    tauto
  refine ⟨?_, ?_, ?_⟩
  · rw [hs.list_perm.nodup_iff]
    exact List.nodup_cons.2 ⟨fun hm => (h.nodup.mem_erase_iff.1 hm).1 rfl, h.nodup.erase rt⟩
  · intro a ta hta
    rw [htimers] at hta
    rw [hmem]
    by_cases ha : a = rt
    · subst ha
      rw [set_timers_self] at hta
      cases hta
      simp [hne]
    · rw [set_timers_of_ne _ ha] at hta
      simp [ha, h.armed a ta hta]
  · intro a hm
    rw [htimers]
    by_cases ha : a = rt
    · subst ha; simp
    · rw [set_timers_of_ne _ ha]
      exact h.alloc a (((hmem a).1 hm).resolve_left ha)

/-- A timer before all others, which becomes the next to fire. -/
theorem Timed.head {s : State} {rt : Rt} {ts : Timespec} (h : Timed s) (hlt : s.nextOf rt < timespecToTs s.nextTs)
    (hts : timespecToTs ts ≤ s.nextOf rt) (k : Nat) :
    Timed { s with rdTimers := rt :: s.rdTimers, nextTs := ts, reads := k, sleeping := none } := by
  have hle : ∀ a ∈ s.rdTimers, s.nextOf rt ≤ s.nextOf a := fun a ha =>
    Nat.le_trans (Nat.le_of_lt hlt) (h.next_le a ha)
  refine ⟨List.pairwise_cons.2 ⟨hle, h.sorted⟩, ?_, by simp⟩
  intro a ha
  rcases List.mem_cons.1 ha with rfl | ha
  · exact hts
  · exact Nat.le_trans hts (hle a ha)

/-- A timer put in its place. -/
theorem Timed.insert {s : State} {rt : Rt} {l : List Rt} (h : Timed s) (hle : timespecToTs s.nextTs ≤ s.nextOf rt)
    (hperm : l.Perm (rt :: s.rdTimers)) (hsorted : l.Pairwise fun a b => s.nextOf a ≤ s.nextOf b) :
    Timed { s with rdTimers := l } := by
  refine ⟨hsorted, ?_, h.sleeping⟩
  intro a ha
  rcases List.mem_cons.1 (hperm.mem_iff.1 ha) with rfl | ha
  · exact hle
  · exact h.next_le a ha

/-- The state of `rd_timer_start0` with the timer stopped and its `rt_next` set. -/
def armed (s : State) (rt : Rt) (t : Timer) (intervalMs : Nat) : State :=
  s.tick.set rt (some { t with next := expiry (c.read s.reads) intervalMs })

section Armed

variable {s s1 : State} {rt : Rt} {t : Timer} (hst : Stopped s rt t s1) (intervalMs : Nat)

include hst

theorem armed_timers (a : Rt) (ha : a ∈ s1.rdTimers) : (armed c s1 rt t intervalMs).timers a = s1.timers a :=
  set_timers_of_ne _ (by rintro rfl; exact hst.not_mem ha)

theorem armed_timed (hT : Timed s) : Timed (armed c s1 rt t intervalMs) := by
  have h1 : Timed s1.tick := { hst.timed hT with }
  exact h1.set fun hm => absurd hm hst.not_mem

/-- The timer put somewhere into `rd_timers`. -/
theorem armed_started {l : List Rt} (hl : l.Perm (rt :: s1.rdTimers)) (ts : Timespec) (k : Nat) (w : Option Timespec) :
    Started s rt t { armed c s1 rt t intervalMs with rdTimers := l, nextTs := ts, reads := k, sleeping := w } where
  timers_eq := by
    refine ⟨_, expiry_ne_zero c s1.reads intervalMs, ?_⟩
    simp only [armed, State.set, State.tick, hst.timers_eq, Function.update_idem]
  list_perm := by
    rw [← hst.list_eq]
    exact hl
  eventq_eq := hst.eventq_eq
  popped_eq := hst.popped_eq
  executing_eq := hst.executing_eq

theorem start0_eq (hstop : stop0 c s rt = some s1) (update : Bool) : start0 c s rt intervalMs update =
      if expiry (c.read s1.reads) intervalMs < timespecToTs s1.nextTs then
        if update then nextUpdate c { armed c s1 rt t intervalMs with rdTimers := rt :: s1.rdTimers } (some rt)
        else some { armed c s1 rt t intervalMs with rdTimers := rt :: s1.rdTimers }
      else (insertSorted (armed c s1 rt t intervalMs).timers rt s1.rdTimers).map fun l =>
        { armed c s1 rt t intervalMs with rdTimers := l } := by
  simp only [start0, hstop, Option.bind_eq_bind, Option.bind_some, hst.timer_eq, rdClock, Option.pure_def,
    Option.map_eq_bind]
  rfl

end Armed

/-- **`rd_timer_start0`.** It keeps the deadlines in order if its comparisons are right and either it updates
`rd_timers_next_ts` or the timer was not armed and `rd_timers_next_ts` is over. -/
theorem start0_ok {s : State} {rt : Rt} {t : Timer} (h : Listed s) (ht : s.timers rt = some t) (intervalMs : Nat)
    (update : Bool) : ∃ s', start0 c s rt intervalMs update = some s' ∧ Started s rt t s' ∧
      (Timed s → ArmOk c s rt intervalMs →
        (update = true ∨ t.next = 0 ∧ timespecToTs s.nextTs ≤ c.read s.reads) → Timed s') ∧
      (t.next = 0 → timespecToTs s.nextTs ≤ c.read s.reads →
        timespecToTs s'.nextTs ≤ c.read s'.reads) := by
  obtain ⟨s1, hstop, hst⟩ := stop0_ok c h ht
  have hnext : (armed c s1 rt t intervalMs).nextOf rt = expiry (c.read s1.reads) intervalMs :=
    nextOf_eq (set_timers_self ..)
  have hlate : t.next = 0 → timespecToTs s.nextTs ≤ c.read s.reads →
      timespecToTs s1.nextTs ≤ expiry (c.read s1.reads) intervalMs := by
    intro h0 hover
    rw [hst.idle h0]
    exact Nat.le_trans hover (le_expiry c s.reads intervalMs)
  rw [start0_eq c hst intervalMs hstop]
  by_cases hfirst : expiry (c.read s1.reads) intervalMs < timespecToTs s1.nextTs
  · -- before all others; without an update this does not happen
    rw [if_pos hfirst]
    have habsurd : t.next = 0 → ¬timespecToTs s.nextTs ≤ c.read s.reads := fun h0 hover =>
      absurd hfirst (Nat.not_lt.2 (hlate h0 hover))
    cases update with
    | false =>
      refine ⟨_, rfl, armed_started c hst intervalMs .rfl _ _ _, ?_, fun h0 hover => absurd hover (habsurd h0)⟩
      rintro - - (hu | ⟨h0, hover⟩)
      · cases hu
      · exact absurd hover (habsurd h0)
    | true =>
      obtain ⟨ts, k, hu, hle⟩ := nextUpdate_ok c { armed c s1 rt t intervalMs with rdTimers := rt :: s1.rdTimers }
        (some rt) (by rintro _ ⟨⟩; simp [armed])
      refine ⟨_, hu, armed_started c hst intervalMs .rfl _ _ _, fun hT _ _ => ?_,
        fun h0 hover => absurd hover (habsurd h0)⟩
      exact (armed_timed c hst intervalMs hT).head (by rw [hnext]; exact hfirst) (hle rt rfl) _
  · rw [if_neg hfirst]
    obtain ⟨l, hl, hperm, hiff⟩ := insertSorted_ok (s := armed c s1 rt t intervalMs)
      (set_timers_self ..) s1.rdTimers (by
      intro a ha
      rw [armed_timers c hst intervalMs a ha]
      exact hst.listed.alloc a ha)
    refine ⟨_, by rw [hl]; rfl, armed_started c hst intervalMs hperm _ _ _, fun hT ha _ => ?_, fun h0 hover => ?_⟩
    · have hT2 := armed_timed c hst intervalMs hT
      have hscan :
        ScanOk (expiry (c.read s1.reads) intervalMs) (s1.rdTimers.map (armed c s1 rt t intervalMs).nextOf) := by
        rw [List.map_congr_left fun a ha => nextOf_congr (armed_timers c hst intervalMs a ha)]
        exact ha s1 hstop (Nat.not_lt.1 hfirst)
      exact hT2.insert (by rw [hnext]; exact Nat.not_lt.1 hfirst) hperm ((hiff hT2.sorted).2 hscan)
    · show timespecToTs s1.nextTs ≤ c.read (s1.reads + 1)
      rw [hst.idle h0]
      exact Nat.le_trans hover (c.mono _)

theorem Listed.started {s s' : State} {rt : Rt} {t : Timer} {intervalMs : Nat} {update : Bool} (h : Listed s)
    (ht : s.timers rt = some t) (hrun : start0 c s rt intervalMs update = some s') : Started s rt t s' := by
  obtain ⟨s1, hs1, hst, -⟩ := start0_ok c h ht intervalMs update
  rw [hrun] at hs1
  cases hs1
  exact hst

/-! ## The loops of a pass -/

/-- Firing the first timer. -/
theorem fire_listed {s : State} {rt : Rt} {t : Timer} {rest : List Rt} (h : Listed s) (hl : s.rdTimers = rt :: rest) :
    Listed (fire s rt t) := by
  have htail : s.rdTimers.erase rt = s.rdTimers.tail := by rw [hl]; simp
  have h1 := h.erase rt { t with called := wrapInt (t.called + 1) }
  rw [htail] at h1
  exact ⟨h1.nodup, h1.armed, h1.alloc⟩

/-- **The first loop**: what firing the first timer, when it is due, keeps, the loop keeps. -/
theorem fireExpired_ok (now : Nat) {I : State → List Rt → Prop}
    (hfire : ∀ s cs rt t rest, Listed s → I s cs → s.rdTimers = rt :: rest → s.timers rt = some t → t.next ≤ now →
      I (fire s rt t) (cs ++ [rt])) :
    ∀ (l : List Rt) (s : State) (cs : List Rt), s.rdTimers = l → Listed s → I s cs →
      ∃ s' callouts alerts, fireExpired now l s = some (s', callouts, alerts) ∧ Listed s' ∧ I s' (cs ++ callouts)
  | [], s, cs, _, hL, hI => ⟨s, [], [], rfl, hL, by simpa using hI⟩
  | rt :: rest, s, cs, hl, hL, hI => by
    obtain ⟨t, ht, -⟩ := hL.exists_timer (hl ▸ List.mem_cons_self : rt ∈ s.rdTimers)
    by_cases hdue : t.next ≤ now
    · obtain ⟨s', callouts, alerts, hrun, hL', hI'⟩ := fireExpired_ok now hfire rest (fire s rt t) (cs ++ [rt])
        (by simp [fire, hl]) (fire_listed hL hl) (hfire s cs rt t rest hL hI hl ht hdue)
      exact ⟨s', rt :: callouts, stallAlert rt t ++ alerts, by simp [fireExpired, ht, hdue, hrun], hL',
        by simpa using hI'⟩
    · exact ⟨s, [], [], by simp [fireExpired, ht, hdue], hL, by simpa using hI⟩

/-- **The second loop**: what restarting a recurring timer keeps, the loop keeps. -/
theorem restart_ok {I : State → List Rt → Prop}
    (halloc : ∀ s rt rest, I s (rt :: rest) → Listed s ∧ s.timers rt ≠ none)
    (hskip : ∀ s rt rest t, I s (rt :: rest) → s.timers rt = some t → t.type ≠ .recurr → I s rest)
    (hstart : ∀ s rt rest t s', I s (rt :: rest) → s.timers rt = some t → t.type = .recurr →
      start0 c s rt t.interval false = some s' → I s' rest) :
    ∀ (l : List Rt) (s : State), I s l → ∃ s', restart c l s = some s' ∧ I s' []
  | [], s, hI => ⟨s, rfl, hI⟩
  | rt :: rest, s, hI => by
    obtain ⟨hL, hne⟩ := halloc s rt rest hI
    obtain ⟨t, ht⟩ := Option.ne_none_iff_exists'.1 hne
    by_cases htype : t.type = .recurr
    · obtain ⟨s1, hs1, -⟩ := start0_ok c hL ht t.interval false
      obtain ⟨s', hs', hI'⟩ := restart_ok halloc hskip hstart rest s1 (hstart s rt rest t s1 hI ht htype hs1)
      exact ⟨s', by simp [restart, ht, htype, hs1, hs'], hI'⟩
    · obtain ⟨s', hs', hI'⟩ := restart_ok halloc hskip hstart rest s (hskip s rt rest t hI ht htype)
      exact ⟨s', by simp [restart, ht, htype, hs'], hI'⟩

end Librd.Timers
