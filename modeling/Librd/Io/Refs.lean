import Mathlib
import Librd.Io.Handles

/-!
# The references of handles

References of a handle are taken by `rd_io_hnd_get`, before `epoll_ctl`, with every event that is queued and during
every call of a handler. A successful `rd_io_add` leaves two behind, the one of `rd_io_hnd_get` and the one for the
registration, and `rd_io_del` drops one of them, once it has taken the registration away. So as long as `epoll_ctl`
succeeds there are at least as many references left behind, in all handles together, as descriptors are registered and
`rd_io_add` were completed (`Inv.total`), while a handle that is not deleted has at least two (`Inv.opened`): in every
run that ends with no call in progress, references are as they should be exactly if `rd_io_add` was not called with
events at all (`run_law_iff`).
-/

namespace Librd.Io

/-! ## What should hold -/

/-- 1 if two handles are the same. -/
def same (rioh rioh' : Nat) : Nat := if rioh = rioh' then 1 else 0

/-- The event that a worker is busy with, if it is one of the handle. -/
def WorkPc.events (rioh : Nat) : WorkPc → Nat
  | .idle => 0
  | .popped ev | .calling ev | .called ev => same rioh ev.rioh

/-- The handler is running in the IO thread. -/
def IoPc.events (rioh : Nat) : IoPc → Nat
  | .calling rioh' _ => same rioh rioh'
  | _ => 0

/-- The events of a handle that are queued. -/
def queued (rioh : Nat) (q : List HndEvent) : Nat := (q.map fun ev => same rioh ev.rioh).sum

/-- The events of a handle that are queued or executing. -/
def State.events (s : State) (rioh : Nat) : Nat :=
  (s.workers.map fun w => queued rioh w.eventq + w.pc.events rioh).sum + s.io.events rioh

/-- A handle has one reference while it is registered and one for each of its events. Once it is deleted and without
events, it is freed, and what is freed is not in the list. -/
structure Law (s : State) : Prop where
  refcnt : ∀ rioh a, s.heap rioh = some a → a.refcnt = (if a.fd = -1 then 0 else 1) + s.events rioh
  freed : ∀ rioh a, s.heap rioh = some a → a.fd = -1 → 0 < s.events rioh
  unlinked : ∀ rioh ∈ s.hnds, s.heap rioh ≠ none

/-- `rd_io_add` is called with events. -/
def Step.Adds : Step → Prop
  | .add _ events _ _ => events ≠ 0
  | _ => False

/-- The IO thread can be started, and `epoll_ctl` succeeds: also the one of `rd_io_del`, for a descriptor that is
registered. -/
def TaskSucceeds (s : State) (ok : Bool) : Task → Prop
  | .addSet _ _ => ok = true
  | .addRead _ new fd => ok = true ∧ CtlTakes s fd new
  | .delCleared _ fd => s.epoll fd ≠ none
  | _ => True

/-- The same for a step; `epoll_ctl` never succeeds for `-1`. -/
def Succeeds (s : State) : Step → Prop
  | .add fd events _ _ => events ≠ 0 → fd ≠ -1
  | .task t ok => ∀ task ∈ s.tasks[t]?, TaskSucceeds s ok task
  | _ => True

instance (s : State) (ok : Bool) : (task : Task) → Decidable (TaskSucceeds s ok task)
  | .addSet _ _ => inferInstanceAs (Decidable (ok = true))
  | .addRead _ new fd => inferInstanceAs (Decidable (ok = true ∧ CtlTakes s fd new))
  | .delCleared _ fd => inferInstanceAs (Decidable (s.epoll fd ≠ none))
  | .addGot _ _ _ _ | .addNew _ _ _ _ _ | .addStarted _ _ | .addKept _ _ | .delGot _ | .delTested _ | .delRead _ _
  | .drop _ _ _ => .isTrue trivial

instance (s : State) : (i : Step) → Decidable (Succeeds s i)
  | .add fd events _ _ => inferInstanceAs (Decidable (events ≠ 0 → fd ≠ -1))
  | .task t ok => inferInstanceAs (Decidable (∀ task ∈ s.tasks[t]?, TaskSucceeds s ok task))
  | .del _ | .wait _ | .io | .worker _ => .isTrue trivial

/-! ## References held -/

/-- The references that a worker drops before it is idle again. -/
def WorkPc.refs (rioh : Nat) : WorkPc → Nat
  | .idle => 0
  | .popped ev | .called ev => same rioh ev.rioh
  | .calling ev => 2 * same rioh ev.rioh

def Worker.refs (rioh : Nat) (w : Worker) : Nat := queued rioh w.eventq + w.pc.refs rioh

/-- The references that a call has taken, or is going to drop. -/
def Task.refs (rioh : Nat) : Task → Nat
  | .addGot rioh' _ _ _ | .addNew rioh' _ _ _ _ | .addSet rioh' _ | .addStarted rioh' _ | .delGot rioh' =>
    same rioh rioh'
  | .addKept rioh' _ | .addRead rioh' _ _ | .delTested rioh' | .delRead rioh' _ | .delCleared rioh' _ =>
    2 * same rioh rioh'
  | .drop rioh' n _ => (n + 1) * same rioh rioh'

/-- The references of a handle that threads hold. -/
def State.refs (s : State) (rioh : Nat) : Nat :=
  (s.workers.map (Worker.refs rioh)).sum + s.io.events rioh + (s.tasks.map (Task.refs rioh)).sum

/-- The references that a handle counts; one that was freed has none. -/
def State.cnt (s : State) (rioh : Nat) : Int := (s.heap rioh).elim 0 Hnd.refcnt

/-- The references of a handle that no thread holds. -/
def State.left (s : State) (rioh : Nat) : Int := s.cnt rioh - s.refs rioh

/-- The handle is not deleted. -/
def State.Open (s : State) (rioh : Nat) : Prop := ∃ a, s.heap rioh = some a ∧ a.fd ≠ -1

/-- A call that has not registered a handle yet. -/
def Task.Adds (rioh : Nat) : Task → Prop
  | .addGot rioh' _ _ _ | .addNew rioh' _ _ _ _ | .addSet rioh' _ | .addStarted rioh' _ | .addKept rioh' _
  | .addRead rioh' _ _ => rioh = rioh'
  | _ => False

def State.Adding (s : State) (rioh : Nat) : Prop := ∃ task ∈ s.tasks, task.Adds rioh

/-- 1 for a call that is going to delete the handle. -/
def Task.pend (rioh : Nat) : Task → Nat
  | .delTested rioh' | .delRead rioh' _ => same rioh rioh'
  | _ => 0

def State.pend (s : State) (rioh : Nat) : Nat := (s.tasks.map (Task.pend rioh)).sum

/-- 1 for a call that is going to take a registration away. -/
def Task.dels : Task → Nat
  | .delTested _ | .delRead _ _ | .delCleared _ _ => 1
  | _ => 0

def State.dels (s : State) : Nat := (s.tasks.map Task.dels).sum

/-! ## The effect of a step on references -/

/-- No handle is made, none is opened again, and every `rd_io_add` goes on. -/
structure Goes (s s' : State) : Prop where
  next : s'.next = s.next
  opened : ∀ x, s'.Open x → s.Open x
  adds : ∀ x, s.Adding x → s'.Adding x

/-- What a step does to the references that are left behind: it leaves them as they are, makes a handle, completes an
`rd_io_add`, finds in `rd_io_del` that the handle is not deleted, or takes a registration away. -/
inductive Effect (i : Step) (s s' : State) : Prop
  | move (hgoes : Goes s s') (hleft : ∀ x, s'.left x = s.left x) (hpend : ∀ x, s'.Open x → s'.pend x = s.pend x)
      (hdels : s'.dels = s.dels) (hepoll : s'.epoll = s.epoll)
  | create (hadd : i.Adds) (hnext : s'.next = s.next + 1) (hleft : ∀ x, s'.left x = s.left x)
      (hopen : ∀ x, s'.Open x → x = s.next ∨ s.Open x) (hpend : ∀ x, s'.pend x = s.pend x) (hdels : s'.dels = s.dels)
      (hepoll : s'.epoll = s.epoll) (hadds : ∀ x, s.Adding x → s'.Adding x) (hadding : s'.Adding s.next)
  | complete (rioh : Nat) (fd : Int) (hnext : s'.next = s.next) (hopen : ∀ x, s'.Open x → s.Open x)
      (href : 0 < s.refs rioh) (hleft : ∀ x, s'.left x = s.left x + 2 * same x rioh)
      (hpend : ∀ x, s'.pend x = s.pend x) (hdels : s'.dels = s.dels)
      (hepoll : s'.epoll = Function.update s.epoll fd (some rioh)) (hadds : ∀ x, x ≠ rioh → s.Adding x → s'.Adding x)
  | pass (rioh : Nat) (hgoes : Goes s s') (href : 0 < s.refs rioh) (hleft : ∀ x, s'.left x + same x rioh = s.left x)
      (hpend : ∀ x, s'.pend x = s.pend x + same x rioh) (hdels : s'.dels = s.dels + 1) (hepoll : s'.epoll = s.epoll)
  | unregister (fd : Int) (hgoes : Goes s s') (hleft : ∀ x, s'.left x = s.left x) (hpend : ∀ x, s'.pend x = s.pend x)
      (hdels : s'.dels + 1 = s.dels) (hfd : s.epoll fd ≠ none) (hepoll : s'.epoll = Function.update s.epoll fd none)

/-- The references left behind: at least two for a handle that is not deleted, but for those that a call is about to
drop, unless the first `rd_io_add` is in progress; and in all of them one for every registration and every `rd_io_add`
that was completed (`n`), but for the registrations that a call is about to take away. -/
structure Inv (s : State) : Prop where
  table : Table s
  fresh : ∀ x, s.next ≤ x → s.refs x = 0
  opened : ∀ x, s.Open x → 0 ≤ s.left x + s.pend x ∧ (s.Adding x ∨ 2 ≤ s.left x + s.pend x)
  total : ∃ (F : Finset Int) (n : Nat), (∀ fd, s.epoll fd ≠ none → fd ∈ F) ∧
    (F.card + n : Int) ≤ ∑ x ∈ Finset.range s.next, s.left x + s.dels ∧ (0 < s.next → 0 < n ∨ ∃ x, s.Adding x)

section Effect

variable {i : Step} {s s' : State}

@[simp] theorem same_self (x : Nat) : same x x = 1 := if_pos rfl

theorem same_of_ne {x y : Nat} (h : x ≠ y) : same x y = 0 := if_neg h

theorem sum_same {n y : Nat} (h : y < n) : ∑ x ∈ Finset.range n, (same x y : Int) = 1 := by
  simp [same, h]

/-- At an address still to come, the references left are those that threads hold: none. -/
theorem left_fresh (h : Table s) {x : Nat} (hx : s.next ≤ x) : s.left x = -s.refs x := by
  simp [State.left, State.cnt, h.fresh x hx]

theorem Inv.lt_next (h : Inv s) {x : Nat} (hx : 0 < s.refs x) : x < s.next := by
  by_contra hle
  have := h.fresh x (by omega)
  omega

/-- **One step** keeps the invariant. -/
theorem Effect.inv (he : Effect i s s') (h : Inv s) (ht : Table s') : Inv s' := by
  obtain ⟨F, n, hF, hcard, hn⟩ := h.total
  cases he with
  | move hgoes hleft hpend hdels hepoll =>
    refine ⟨ht, fun x hx => ?_, fun x hx => ?_, F, n, hepoll ▸ hF, ?_, fun hpos => ?_⟩
    · have hl := hleft x
      rw [left_fresh ht hx, left_fresh h.table (hgoes.next ▸ hx), h.fresh x (hgoes.next ▸ hx)] at hl
      omega
    · rw [hleft, hpend x hx]
      obtain ⟨h0, h2⟩ := h.opened x (hgoes.opened x hx)
      exact ⟨h0, h2.imp_left (hgoes.adds x)⟩
    · simpa only [hgoes.next, hleft, hdels] using hcard
    · exact (hn (hgoes.next ▸ hpos)).imp_right fun ⟨x, hx⟩ => ⟨x, hgoes.adds x hx⟩
  | create hadd hnext hleft hopen hpend hdels hepoll hadds hadding =>
    have hnew : s.left s.next = 0 := by rw [left_fresh h.table le_rfl, h.fresh _ le_rfl]; rfl
    refine ⟨ht, fun x hx => ?_, fun x hx => ?_, F, n, hepoll ▸ hF, ?_, fun _ => .inr ⟨s.next, hadding⟩⟩
    · have hl := hleft x
      rw [left_fresh ht hx, left_fresh h.table (by omega), h.fresh x (by omega)] at hl
      omega
    · rw [hleft, hpend]
      rcases hopen x hx with rfl | hx
      · exact ⟨by omega, .inl hadding⟩
      · obtain ⟨h0, h2⟩ := h.opened x hx
        exact ⟨h0, h2.imp_left (hadds x)⟩
    · simp only [hnext, hleft, hdels, Finset.sum_range_succ, hnew]
      omega
  | complete rioh fd hnext hopen href hleft hpend hdels hepoll hadds =>
    have hlt := h.lt_next href
    refine ⟨ht, fun x hx => ?_, fun x hx => ?_, insert fd F, n + 1, fun fd' hfd => ?_, ?_, fun _ => .inl n.succ_pos⟩
    · have hl := hleft x
      rw [left_fresh ht hx, left_fresh h.table (hnext ▸ hx), h.fresh x (hnext ▸ hx)] at hl
      omega
    · obtain ⟨h0, h2⟩ := h.opened x (hopen x hx)
      rw [hleft, hpend]
      by_cases hxr : x = rioh
      · subst hxr
        rw [same_self]
        exact ⟨by omega, .inr (by omega)⟩
      · rw [same_of_ne hxr]
        exact ⟨by omega, h2.imp (hadds x hxr) (by omega)⟩
    · by_cases heq : fd' = fd
      · exact heq ▸ Finset.mem_insert_self fd F
      · rw [hepoll, Function.update_of_ne heq] at hfd
        exact Finset.mem_insert_of_mem (hF fd' hfd)
    · have hins := Finset.card_insert_le fd F
      have hsum : ∑ x ∈ Finset.range s.next, s'.left x = ∑ x ∈ Finset.range s.next, s.left x + 2 := by
        simp only [hleft, Finset.sum_add_distrib, ← Finset.mul_sum, sum_same hlt, mul_one]
      rw [hnext, hsum, hdels]
      push_cast
      omega
  | pass rioh hgoes href hleft hpend hdels hepoll =>
    have hlt := h.lt_next href
    refine ⟨ht, fun x hx => ?_, fun x hx => ?_, F, n, hepoll ▸ hF, ?_, fun hpos => ?_⟩
    · have hx' : s.next ≤ x := hgoes.next ▸ hx
      have hl := hleft x
      rw [left_fresh ht hx, left_fresh h.table hx', h.fresh x hx', same_of_ne (by omega)] at hl
      omega
    · obtain ⟨h0, h2⟩ := h.opened x (hgoes.opened x hx)
      have hl := hleft x
      have hp := hpend x
      exact ⟨by omega, h2.imp (hgoes.adds x) (by omega)⟩
    · have hsum : ∑ x ∈ Finset.range s.next, s'.left x + 1 = ∑ x ∈ Finset.range s.next, s.left x := by
        simp only [← hleft, Finset.sum_add_distrib, sum_same hlt]
      rw [hgoes.next, hdels]
      push_cast
      omega
    · exact (hn (hgoes.next ▸ hpos)).imp_right fun ⟨x, hx⟩ => ⟨x, hgoes.adds x hx⟩
  | unregister fd hgoes hleft hpend hdels hfd hepoll =>
    refine ⟨ht, fun x hx => ?_, fun x hx => ?_, F.erase fd, n, fun fd' hfd' => ?_, ?_, fun hpos => ?_⟩
    · have hl := hleft x
      rw [left_fresh ht hx, left_fresh h.table (hgoes.next ▸ hx), h.fresh x (hgoes.next ▸ hx)] at hl
      omega
    · rw [hleft, hpend]
      obtain ⟨h0, h2⟩ := h.opened x (hgoes.opened x hx)
      exact ⟨h0, h2.imp_left (hgoes.adds x)⟩
    · by_cases heq : fd' = fd
      · rw [hepoll, heq, Function.update_self] at hfd'
        exact absurd rfl hfd'
      · rw [hepoll, Function.update_of_ne heq] at hfd'
        exact Finset.mem_erase.2 ⟨heq, hF fd' hfd'⟩
    · have herase := Finset.card_erase_add_one (hF fd hfd)
      simp only [hgoes.next, hleft]
      omega
    · exact (hn (hgoes.next ▸ hpos)).imp_right fun ⟨x, hx⟩ => ⟨x, hgoes.adds x hx⟩

end Effect

/-! ## The parts of a step -/

section Sums

variable {α : Type} (f : α → Nat)

theorem sum_map_set {x : α} (y : α) :
    ∀ {l : List α} {i : Nat}, l[i]? = some x → ((l.set i y).map f).sum + f x = (l.map f).sum + f y
  | z :: l, 0, h => by
    obtain rfl : z = x := by simpa using h
    simp only [List.set_cons_zero, List.map_cons, List.sum_cons]
    omega
  | z :: l, i + 1, h => by
    have ih := sum_map_set y (l := l) (i := i) (by simpa using h)
    simp only [List.set_cons_succ, List.map_cons, List.sum_cons]
    omega

theorem sum_map_eraseIdx {x : α} :
    ∀ {l : List α} {i : Nat}, l[i]? = some x → ((l.eraseIdx i).map f).sum + f x = (l.map f).sum
  | z :: l, 0, h => by
    obtain rfl : z = x := by simpa using h
    simp only [List.eraseIdx_cons_zero, List.map_cons, List.sum_cons]
    omega
  | z :: l, i + 1, h => by
    have ih := sum_map_eraseIdx (l := l) (i := i) (by simpa using h)
    simp only [List.eraseIdx_cons_succ, List.map_cons, List.sum_cons]
    omega

end Sums

section Parts

variable {s s1 s' : State} {t w rioh : Nat} {old : Task} {a b : Hnd}

@[simp] theorem refs_put (x : Nat) : (s.put rioh a).refs x = s.refs x := rfl

@[simp] theorem refs_heap (hnds : List Nat) (heap : Nat → Option Hnd) (x : Nat) :
    State.refs { s with hnds := hnds, heap := heap } x = s.refs x := rfl

theorem refs_setTask (new : Task) (h : s.tasks[t]? = some old) (x : Nat) :
    (s.setTask t new).refs x + old.refs x = s.refs x + new.refs x := by
  have hsum := sum_map_set (Task.refs x) new h
  simp only [State.refs, State.setTask]
  omega

theorem refs_endTask (h : s.tasks[t]? = some old) (x : Nat) : (s.endTask t).refs x + old.refs x = s.refs x := by
  have hsum := sum_map_eraseIdx (Task.refs x) h
  simp only [State.refs, State.endTask]
  omega

theorem refs_setWorker {worker : Worker} (worker' : Worker) (h : s.workers[w]? = some worker) (x : Nat) :
    (s.setWorker w worker').refs x + worker.refs x = s.refs x + worker'.refs x := by
  have hsum := sum_map_set (Worker.refs x) worker' h
  simp only [State.refs, State.setWorker]
  omega

theorem refs_setIo {pc : IoPc} (h : s.io = pc) (pc' : IoPc) (x : Nat) :
    (s.setIo pc').refs x + pc.events x = s.refs x + pc'.events x := by
  simp only [State.refs, State.setIo, h]
  omega

/-- The references that a call has are among those of the handle. -/
theorem task_refs_le (h : s.tasks[t]? = some old) (x : Nat) : old.refs x ≤ s.refs x := by
  have hend := refs_endTask h x
  omega

theorem adding_setTask {new : Task} (h : s.tasks[t]? = some old) {x : Nat} (hadds : old.Adds x → new.Adds x) :
    s.Adding x → (s.setTask t new).Adding x := by
  rintro ⟨task, hmem, htask⟩
  obtain ⟨j, hj⟩ := List.mem_iff_getElem?.1 hmem
  by_cases hjt : j = t
  · subst hjt
    obtain rfl := Option.some.inj (h.symm.trans hj)
    have hlt := (List.getElem?_eq_some_iff.1 h).1
    exact ⟨new, List.mem_iff_getElem?.2 ⟨j, List.getElem?_set_self hlt⟩, hadds htask⟩
  · exact ⟨task,
      List.mem_iff_getElem?.2 ⟨j, by simpa [State.setTask, List.getElem?_set_ne (Ne.symm hjt)] using hj⟩, htask⟩

theorem adding_endTask (h : s.tasks[t]? = some old) {x : Nat} (hadds : ¬old.Adds x) :
    s.Adding x → (s.endTask t).Adding x := by
  rintro ⟨task, hmem, htask⟩
  have hne : task ≠ old := fun heq => hadds (heq ▸ htask)
  obtain ⟨j, hj⟩ := List.mem_iff_getElem?.1 hmem
  have hjt : j ≠ t := by
    rintro rfl
    exact hne (Option.some.inj (hj.symm.trans h))
  exact ⟨task, List.mem_eraseIdx_iff_getElem?.2 ⟨j, hjt, hj⟩, htask⟩

theorem cnt_of_some {x : Nat} (h : s.heap x = some a) : s.cnt x = a.refcnt := by simp [State.cnt, h]

theorem cnt_congr {x : Nat} (h : s'.heap x = s.heap x) : s'.cnt x = s.cnt x := by simp only [State.cnt, h]

theorem open_congr {x : Nat} (h : s'.heap x = s.heap x) (ho : s'.Open x) : s.Open x := by
  obtain ⟨a, ha, hfd⟩ := ho
  exact ⟨a, h ▸ ha, hfd⟩

/-- What a step does to the handles: it changes references, and no deleted handle is opened. -/
structure Counts (s s1 : State) (d : Nat → Int) : Prop where
  cnt : ∀ x, s1.cnt x = s.cnt x + d x
  opened : ∀ x, s1.Open x → s.Open x

theorem counts_refl (h : s1.heap = s.heap) : Counts s s1 fun _ => 0 :=
  ⟨fun x => by rw [cnt_congr (congrFun h x), add_zero], fun x => open_congr (congrFun h x)⟩

/-- A change of a handle that leaves it deleted if it was. -/
theorem counts_put (ha : s.heap rioh = some a) (hfd : a.fd = -1 → b.fd = -1) {k : Int} (hk : b.refcnt = a.refcnt + k) :
    Counts s (s.put rioh b) fun x => k * same x rioh := by
  refine ⟨fun x => ?_, fun x hx => ?_⟩
  · by_cases hxr : x = rioh
    · subst hxr
      rw [cnt_of_some ha, cnt_of_some (show (s.put x b).heap x = some b from Function.update_self ..), hk, same_self]
      omega
    · rw [cnt_congr (show (s.put rioh b).heap x = s.heap x from Function.update_of_ne hxr ..), same_of_ne hxr]
      omega
  · by_cases hxr : x = rioh
    · subst hxr
      obtain ⟨b', hb', hopen⟩ := hx
      obtain rfl : b = b' := by simpa [State.put] using hb'
      exact ⟨a, ha, mt hfd hopen⟩
    · exact open_congr (show (s.put rioh b).heap x = s.heap x from Function.update_of_ne hxr ..) hx

theorem counts_keep (h : ioHndKeep s rioh = some s1) : Counts s s1 fun x => same x rioh := by
  obtain ⟨a, ha, rfl⟩ := ioHndKeep_eq h
  have hput := counts_put (b := { a with refcnt := a.refcnt + 1 }) ha id rfl
  exact ⟨fun x => by rw [hput.cnt, one_mul], hput.opened⟩

theorem counts_destroy (ht : Table s) (h : ioHndDestroy s rioh = some s1) : Counts s s1 fun x => -same x rioh := by
  obtain ⟨a, hnds, heap, ha, rfl, rfl | ⟨hcnt, rfl⟩⟩ := ioHndDestroy_eq h
  · have hput := counts_put (b := { a with refcnt := a.refcnt - 1 }) ha id (Int.sub_eq_add_neg ..)
    exact ⟨fun x => by rw [← neg_one_mul]; exact hput.cnt x, hput.opened⟩
  · -- the last reference
    have hpos := ht.refcnt_pos rioh a ha
    refine ⟨fun x => ?_, fun x hx => ?_⟩
    · by_cases hxr : x = rioh
      · subst hxr
        rw [cnt_of_some ha, same_self]
        simp only [State.cnt, Function.update_self, Option.elim_none]
        omega
      · rw [same_of_ne hxr]
        simp [State.cnt, Function.update_of_ne hxr]
    · by_cases hxr : x = rioh
      · obtain ⟨b, hb, -⟩ := hx
        simp [hxr] at hb
      · exact open_congr (show Function.update s.heap rioh none x = s.heap x from Function.update_of_ne hxr ..) hx

end Parts

/-! ## The effect of the steps -/

section Steps

variable {i : Step} {s s1 s' : State} {t w rioh : Nat} {d : Nat → Int} {o : List Obs}

theorem effect_refl (s : State) : Effect i s s :=
  .move ⟨rfl, fun _ => id, fun _ => id⟩ (fun _ => rfl) (fun _ _ => rfl) rfl rfl

/-- A step of a worker or of the IO thread: as many references are taken or dropped as the thread has more or less. -/
theorem effect_thread (hc : Counts s s1 d) (hheap : s'.heap = s1.heap) (hnext : s'.next = s.next)
    (htasks : s'.tasks = s.tasks) (hepoll : s'.epoll = s.epoll) (hrefs : ∀ x, (s'.refs x : Int) = s.refs x + d x) :
    Effect i s s' := by
  have hadds (x : Nat) (hx : s.Adding x) : s'.Adding x := by
    unfold State.Adding
    rwa [htasks]
  refine .move ⟨hnext, fun x hx => hc.opened x (open_congr (congrFun hheap x) hx), hadds⟩ (fun x => ?_)
    (fun x _ => by rw [State.pend, htasks]; rfl) (by rw [State.dels, htasks]; rfl) hepoll
  rw [State.left, State.left, cnt_congr (congrFun hheap x), hc.cnt, hrefs]
  omega

/-- A call that found its handle. -/
theorem effect_found (task : Task) (h : ioHndKeep s rioh = some s1) (htask : ∀ x, task.refs x = same x rioh)
    (hpend : ∀ x, task.pend x = 0) (hdels : task.dels = 0) : Effect i s { s1 with tasks := s1.tasks ++ [task] } := by
  have hc := counts_keep h
  obtain ⟨a, -, rfl⟩ := ioHndKeep_eq h
  refine .move ⟨rfl, hc.opened, fun x hx => ?_⟩ (fun x => ?_) (fun x _ => ?_) ?_ rfl
  · obtain ⟨task', hmem, hadds⟩ := hx
    exact ⟨task', List.mem_append_left _ hmem, hadds⟩
  · have hcnt := hc.cnt x
    simp only [State.left, State.refs, State.cnt, State.put, List.map_append, List.map_cons, List.map_nil,
      List.sum_append, List.sum_cons, List.sum_nil, htask] at hcnt ⊢
    omega
  · simp [State.pend, State.put, hpend]
  · simp [State.dels, State.put, hdels]

theorem ioDel_effect {fd : Int} (h : ioDel s fd = some (s', o)) : Effect i s s' := by
  unfold ioDel ioHndGet at h
  cases hfind : findHnd s fd with
  | none =>
    obtain ⟨rfl, -⟩ : s = s' ∧ [Obs.returned 0] = o := by simpa [hfind] using h
    exact effect_refl s
  | some rioh =>
    rw [hfind] at h
    obtain ⟨⟨s1, r⟩, hget, h⟩ := Option.bind_eq_some_iff.1 h
    obtain ⟨s2, hkeep, heq⟩ := Option.bind_eq_some_iff.1 hget
    obtain ⟨rfl, rfl⟩ : s2 = s1 ∧ some rioh = r := by simpa using heq
    obtain ⟨rfl, -⟩ : { s2 with tasks := s2.tasks ++ [.delGot rioh] } = s' ∧ [] = o := by simpa using h
    exact effect_found (.delGot rioh) hkeep (fun _ => rfl) (fun _ => rfl) rfl

/-- A new handle, with a call that registers it. -/
theorem effect_create (ht : Table s) (hadd : i.Adds) {fd : Int} {events flags : BitVec 32} {cb : Callback} :
    Effect i s { s.put s.next { fd := fd, refcnt := 1 } with
      next := s.next + 1, hnds := s.next :: s.hnds, tasks := s.tasks ++ [.addGot s.next events flags cb] } := by
  refine .create hadd rfl (fun x => ?_) (fun x hx => ?_) (fun x => ?_) ?_ rfl (fun x hx => ?_)
    ⟨_, List.mem_append_right _ (List.mem_singleton.2 rfl), rfl⟩
  · simp only [State.left, State.refs, State.cnt, State.put, List.map_append, List.map_cons, List.map_nil,
      List.sum_append, List.sum_cons, List.sum_nil, Task.refs]
    by_cases hx : x = s.next
    · subst hx
      rw [Function.update_self, ht.fresh _ le_rfl, same_self]
      simp only [Option.elim_some, Option.elim_none]
      omega
    · rw [Function.update_of_ne hx, same_of_ne hx]
      rfl
  · by_cases hxn : x = s.next
    · exact .inl hxn
    · exact .inr (open_congr (Function.update_of_ne hxn ..) hx)
  · simp [State.pend, Task.pend]
  · simp [State.dels, Task.dels]
  · obtain ⟨task', hmem, hadds⟩ := hx
    exact ⟨task', List.mem_append_left _ hmem, hadds⟩

theorem ioAdd_effect {fd : Int} {events flags : BitVec 32} {cb : Callback} (ht : Table s)
    (h : ioAdd s fd events flags cb = some (s', o)) : Effect (.add fd events flags cb) s s' := by
  unfold ioAdd at h
  split at h
  · exact ioDel_effect h
  next hev =>
    unfold ioHndGet at h
    cases hfind : findHnd s fd with
    | none =>
      obtain ⟨rfl, -⟩ : _ = s' ∧ [] = o := by simpa [hfind] using h
      exact effect_create (i := .add fd events flags cb) ht hev
    | some rioh =>
      rw [hfind] at h
      obtain ⟨⟨s1, r⟩, hget, h⟩ := Option.bind_eq_some_iff.1 h
      obtain ⟨s2, hkeep, heq⟩ := Option.bind_eq_some_iff.1 hget
      obtain ⟨rfl, rfl⟩ : s2 = s1 ∧ some rioh = r := by simpa using heq
      obtain ⟨rfl, -⟩ : { s2 with tasks := s2.tasks ++ [.addGot rioh events flags cb] } = s' ∧ [] = o := by
        simpa using h
      exact effect_found _ hkeep (fun _ => rfl) (fun _ => rfl) rfl

section Task

variable {old new : Task} (ht : s.tasks[t]? = some old)

include ht

theorem pend_setTask (new : Task) (x : Nat) : (s.setTask t new).pend x + old.pend x = s.pend x + new.pend x :=
  sum_map_set (Task.pend x) new ht

theorem dels_setTask (new : Task) : (s.setTask t new).dels + old.dels = s.dels + new.dels :=
  sum_map_set Task.dels new ht

/-- **A call goes on**: it has taken or dropped as many references as it has more or less, and is as far from deleting
the handles that are not deleted as before. -/
theorem effect_setTask (hc : Counts s s1 d) (htasks : s1.tasks = s.tasks) (hworkers : s1.workers = s.workers)
    (hio : s1.io = s.io) (hnext : s1.next = s.next) (hepoll : s1.epoll = s.epoll)
    (hrefs : ∀ x, (new.refs x : Int) = old.refs x + d x) (hpend : ∀ x, s1.Open x → new.pend x = old.pend x)
    (hdels : new.dels = old.dels) (hadds : ∀ x, old.Adds x → new.Adds x) : Effect i s (s1.setTask t new) := by
  have hset : (s1.setTask t new).tasks = (s.setTask t new).tasks := by simp only [State.setTask, htasks]
  refine .move ⟨hnext, hc.opened, fun x hx => ?_⟩ (fun x => ?_) (fun x hx => ?_) ?_ hepoll
  · have hadding := adding_setTask ht (hadds x) hx
    unfold State.Adding at hadding ⊢
    rwa [hset]
  · have hsum := refs_setTask new ht x
    have hsame : (s1.setTask t new).refs x = (s.setTask t new).refs x := by
      simp only [State.refs, State.setTask, hworkers, hio, htasks]
    have hcnt : (s1.setTask t new).cnt x = s.cnt x + d x := hc.cnt x
    have hnew := hrefs x
    rw [State.left, State.left, hsame, hcnt]
    omega
  · have hsum := pend_setTask ht new x
    have hnew := hpend x hx
    rw [State.pend, hset]
    unfold State.pend at hsum ⊢
    omega
  · have hsum := dels_setTask ht new
    rw [State.dels, hset]
    unfold State.dels at hsum ⊢
    omega

/-- A call does nothing that counts. -/
theorem effect_goes (hheap : s1.heap = s.heap) (htasks : s1.tasks = s.tasks) (hworkers : s1.workers = s.workers)
    (hio : s1.io = s.io) (hnext : s1.next = s.next) (hepoll : s1.epoll = s.epoll)
    (hrefs : ∀ x, new.refs x = old.refs x) (hpend : ∀ x, new.pend x = old.pend x) (hdels : new.dels = old.dels)
    (hadds : ∀ x, old.Adds x → new.Adds x) : Effect i s (s1.setTask t new) :=
  effect_setTask ht (counts_refl hheap) htasks hworkers hio hnext hepoll (fun x => by rw [hrefs, add_zero])
    (fun x _ => hpend x) hdels hadds

end Task

/-- The last reference of a call is dropped. -/
theorem effect_over {ret : Int} (htab : Table s) (ht : s.tasks[t]? = some (.drop rioh 0 ret))
    (hdestroy : ioHndDestroy s rioh = some s1) : Effect i s (s1.endTask t) := by
  have hc := counts_destroy htab hdestroy
  obtain ⟨a, hnds, heap, -, rfl, -⟩ := ioHndDestroy_eq hdestroy
  refine .move ⟨rfl, hc.opened, fun x => adding_endTask (s := s) ht nofun⟩ (fun x => ?_) (fun x _ => ?_) ?_ rfl
  · have hrefs := refs_endTask (s := { s with hnds := hnds, heap := heap }) ht x
    have hcnt := hc.cnt x
    simp only [Task.refs, refs_heap] at hrefs
    show State.cnt { s with hnds := hnds, heap := heap } x - _ = s.left x
    rw [hcnt, State.left]
    omega
  · exact sum_map_eraseIdx (Task.pend x) ht
  · exact sum_map_eraseIdx Task.dels ht

/-- `epoll_ctl` succeeded in `rd_io_add`: both references stay behind. -/
theorem effect_complete {fd : Int} {new : Bool} (ht : s.tasks[t]? = some (.addRead rioh new fd)) :
    Effect i s ({ s with epoll := Function.update s.epoll fd (some rioh) }.endTask t) := by
  have hle := task_refs_le ht rioh
  simp only [Task.refs, same_self] at hle
  refine .complete rioh fd rfl (fun x => id) (by omega) (fun x => ?_) (fun x => ?_) ?_ rfl fun x hx => ?_
  · have hrefs := refs_endTask (s := s) ht x
    simp only [Task.refs] at hrefs
    show s.cnt x - ((s.endTask t).refs x : Int) = s.cnt x - s.refs x + _
    omega
  · exact sum_map_eraseIdx (Task.pend x) ht
  · exact sum_map_eraseIdx Task.dels ht
  · exact adding_endTask (s := s) ht hx

/-- `rd_io_del` finds that the handle is not deleted: it is going to drop two references, and has taken one. -/
theorem effect_pass (ht : s.tasks[t]? = some (.delGot rioh)) : Effect i s (s.setTask t (.delTested rioh)) := by
  have hle := task_refs_le ht rioh
  simp only [Task.refs, same_self] at hle
  refine .pass rioh ⟨rfl, fun _ => id, fun x => adding_setTask ht nofun⟩ (by omega) (fun x => ?_) (fun x => ?_) ?_ rfl
  · have hrefs := refs_setTask (.delTested rioh) ht x
    simp only [Task.refs] at hrefs
    show s.cnt x - ((s.setTask t (.delTested rioh)).refs x : Int) + _ = s.cnt x - s.refs x
    omega
  · exact pend_setTask ht (.delTested rioh) x
  · exact dels_setTask ht (.delTested rioh)

/-- `epoll_ctl` succeeded in `rd_io_del`. -/
theorem effect_unregister {fd : Int} (ht : s.tasks[t]? = some (.delCleared rioh fd)) (hfd : s.epoll fd ≠ none) :
    Effect i s ({ s with epoll := Function.update s.epoll fd none }.setTask t (.drop rioh 1 0)) := by
  refine .unregister fd ⟨rfl, fun _ => id, fun x => adding_setTask (s := s) ht nofun⟩ (fun x => ?_) (fun x => ?_) ?_ hfd
    rfl
  · have hrefs := refs_setTask (.drop rioh 1 0) ht x
    simp only [Task.refs] at hrefs
    show s.cnt x - ((s.setTask t (.drop rioh 1 0)).refs x : Int) = s.cnt x - s.refs x
    omega
  · exact pend_setTask ht (.drop rioh 1 0) x
  · exact dels_setTask ht (.drop rioh 1 0)

theorem runTask_effect {ok : Bool} {task : Task} (htab : Table s) (ht : s.tasks[t]? = some task)
    (hok : TaskSucceeds s ok task) (h : runTask s t ok task = some (s', o)) : Effect i s s' := by
  cases task with
  | addGot rioh events flags cb =>
    obtain ⟨a, -, heq⟩ := Option.bind_eq_some_iff.1 h
    cases heq
    exact effect_goes ht rfl rfl rfl rfl rfl rfl (fun _ => rfl) (fun _ => rfl) rfl fun _ => id
  | addNew rioh new events flags cb =>
    obtain ⟨a, ha, heq⟩ := Option.bind_eq_some_iff.1 h
    cases heq
    have hc := counts_put (b := { a with cb := some cb, events := events, flags := flags }) ha id (add_zero _).symm
    exact effect_setTask ht hc rfl rfl rfl rfl rfl (fun x => by rw [zero_mul, add_zero]; rfl) (fun _ _ => rfl) rfl
      fun _ => id
  | addSet rioh new =>
    simp only [runTask, show ok = true from hok, if_true] at h
    split at h
    · cases h
      exact effect_goes ht rfl rfl rfl rfl rfl rfl (fun _ => rfl) (fun _ => rfl) rfl fun _ => id
    · cases h
      exact effect_goes ht rfl rfl rfl rfl rfl rfl (fun _ => rfl) (fun _ => rfl) rfl fun _ => id
  | addStarted rioh new =>
    obtain ⟨s1, hkeep, heq⟩ := Option.bind_eq_some_iff.1 h
    cases heq
    have hc := counts_keep hkeep
    obtain ⟨a, -, rfl⟩ := ioHndKeep_eq hkeep
    refine effect_setTask ht hc rfl rfl rfl rfl rfl (fun x => ?_) (fun _ _ => rfl) rfl fun _ => id
    simp only [Task.refs]
    omega
  | addKept rioh new =>
    obtain ⟨a, -, heq⟩ := Option.bind_eq_some_iff.1 h
    cases heq
    exact effect_goes ht rfl rfl rfl rfl rfl rfl (fun _ => rfl) (fun _ => rfl) rfl fun _ => id
  | addRead rioh new fd =>
    have htakes : ok = true ∧ CtlTakes s fd new := hok
    rw [runTask, if_pos htakes] at h
    cases h
    exact effect_complete ht
  | delGot rioh =>
    obtain ⟨a, -, heq⟩ := Option.bind_eq_some_iff.1 h
    split at heq
    · cases heq
      exact effect_pass ht
    · cases heq
      exact effect_goes ht rfl rfl rfl rfl rfl rfl (fun x => by simp [Task.refs]) (fun _ => rfl) rfl fun _ => False.elim
  | delTested rioh =>
    obtain ⟨a, -, heq⟩ := Option.bind_eq_some_iff.1 h
    cases heq
    exact effect_goes ht rfl rfl rfl rfl rfl rfl (fun _ => rfl) (fun _ => rfl) rfl fun _ => False.elim
  | delRead rioh fd =>
    obtain ⟨a, ha, heq⟩ := Option.bind_eq_some_iff.1 h
    cases heq
    have hc := counts_put (b := { a with fd := -1 }) ha (fun _ => rfl) (add_zero _).symm
    refine effect_setTask ht hc rfl rfl rfl rfl rfl (fun x => by rw [zero_mul, add_zero]; rfl)
      (fun x hx => ?_) rfl fun _ => False.elim
    -- the handle is deleted now
    have hne : x ≠ rioh := by
      rintro rfl
      obtain ⟨b, hb, hfd⟩ := hx
      obtain rfl : { a with fd := -1 } = b := by simpa [State.put] using hb
      exact hfd rfl
    exact (same_of_ne hne).symm
  | delCleared rioh fd =>
    cases h
    exact effect_unregister ht hok
  | drop rioh n ret =>
    cases n with
    | zero =>
      obtain ⟨s1, hdestroy, heq⟩ := Option.bind_eq_some_iff.1 h
      cases heq
      exact effect_over htab ht hdestroy
    | succ n =>
      obtain ⟨s1, hdestroy, heq⟩ := Option.bind_eq_some_iff.1 h
      cases heq
      have hc := counts_destroy htab hdestroy
      obtain ⟨a, hnds, heap, -, rfl, -⟩ := ioHndDestroy_eq hdestroy
      refine effect_setTask ht hc rfl rfl rfl rfl rfl (fun x => ?_) (fun _ _ => rfl) rfl fun _ => False.elim
      simp only [Task.refs, Nat.add_mul]
      omega

theorem queued_append (x : Nat) (q : List HndEvent) (ev : HndEvent) :
    queued x (q ++ [ev]) = queued x q + same x ev.rioh := by
  simp [queued]

theorem runWorker_effect {worker : Worker} (htab : Table s) (hw : s.workers[w]? = some worker)
    (h : runWorker s w worker.eventq worker.pc = some (s', o)) : Effect i s s' := by
  obtain ⟨q, pc⟩ := worker
  cases pc with
  | idle =>
    cases q with
    | nil =>
      cases h
      exact effect_refl s
    | cons ev q =>
      cases h
      refine effect_thread (counts_refl rfl) rfl rfl rfl rfl fun x => ?_
      have hrefs := refs_setWorker { eventq := q, pc := .popped ev } hw x
      simp only [Worker.refs, WorkPc.refs, queued, List.map_cons, List.sum_cons] at hrefs
      omega
  | popped ev =>
    obtain ⟨a, ha, h⟩ := Option.bind_eq_some_iff.1 h
    obtain ⟨s1, hkeep, heq⟩ := Option.bind_eq_some_iff.1 h
    cases heq
    have hc := counts_keep hkeep
    obtain ⟨a, -, rfl⟩ := ioHndKeep_eq hkeep
    refine effect_thread hc rfl rfl rfl rfl fun x => ?_
    have hrefs := refs_setWorker (s := s.put ev.rioh { a with refcnt := a.refcnt + 1 })
      { eventq := q, pc := .calling ev } hw x
    simp only [Worker.refs, WorkPc.refs, refs_put] at hrefs ⊢
    omega
  | calling ev =>
    obtain ⟨s1, hdestroy, heq⟩ := Option.bind_eq_some_iff.1 h
    cases heq
    have hc := counts_destroy htab hdestroy
    obtain ⟨a, hnds, heap, -, rfl, -⟩ := ioHndDestroy_eq hdestroy
    refine effect_thread hc rfl rfl rfl rfl fun x => ?_
    have hrefs := refs_setWorker (s := { s with hnds := hnds, heap := heap })
      { eventq := q, pc := .called ev } hw x
    simp only [Worker.refs, WorkPc.refs, refs_heap] at hrefs ⊢
    omega
  | called ev =>
    obtain ⟨s1, hdestroy, heq⟩ := Option.bind_eq_some_iff.1 h
    cases heq
    have hc := counts_destroy htab hdestroy
    obtain ⟨a, hnds, heap, -, rfl, -⟩ := ioHndDestroy_eq hdestroy
    refine effect_thread hc rfl rfl rfl rfl fun x => ?_
    have hrefs := refs_setWorker (s := { s with hnds := hnds, heap := heap })
      { eventq := q, pc := .idle } hw x
    simp only [Worker.refs, WorkPc.refs, refs_heap] at hrefs ⊢
    omega

/-- The IO thread goes on, and no handler ran or runs in it. -/
theorem effect_setIo {pc pc' : IoPc} (hio : s.io = pc) (h : ∀ x, pc.events x = 0) (h' : ∀ x, pc'.events x = 0)
    (hs1 : s1 = s ∨ s1 = s.count) : Effect i s (s1.setIo pc') := by
  have hrefs (x : Nat) := refs_setIo hio pc' x
  simp only [h, h'] at hrefs
  rcases hs1 with rfl | rfl
  · exact effect_thread (counts_refl rfl) rfl rfl rfl rfl fun x => by have := hrefs x; omega
  · exact effect_thread (counts_refl rfl) rfl rfl rfl rfl fun x => by
      have := hrefs x
      show ((s.setIo pc').refs x : Int) = _
      omega

/-- Getting a worker does not change references: a new worker holds none. -/
theorem ioWorkerGet_refs {rdt : Option Nat} (h : ioWorkerGet s = (s1, rdt)) (x : Nat) : s1.refs x = s.refs x := by
  unfold ioWorkerGet at h
  split at h
  · obtain ⟨rfl, -⟩ := Prod.mk.inj h
    rfl
  · split at h
    · obtain ⟨rfl, -⟩ := Prod.mk.inj h
      rfl
    · obtain ⟨rfl, -⟩ := Prod.mk.inj h
      simp [State.refs, Worker.refs, WorkPc.refs, queued]

theorem ioHndEnqueueWorker_effect {a : Hnd} {events : BitVec 32} {evs : List (Nat × BitVec 32)}
    {evs' : List (Nat × BitVec 32)} (hio : s.io = .batch evs')
    (h : ioHndEnqueueWorker s rioh a events evs = some (s', o)) : Effect i s s' := by
  unfold ioHndEnqueueWorker at h
  split at h
  · obtain ⟨s1, hkeep, heq⟩ := Option.bind_eq_some_iff.1 h
    cases heq
    have hc := counts_keep hkeep
    obtain ⟨a, -, rfl⟩ := ioHndKeep_eq hkeep
    refine effect_thread hc rfl rfl rfl rfl fun x => ?_
    have hrefs := refs_setIo (s := (s.put rioh { a with refcnt := a.refcnt + 1 }).count) hio (.calling rioh evs) x
    have hcount : (s.put rioh { a with refcnt := a.refcnt + 1 }).count.refs x = s.refs x := rfl
    simp only [IoPc.events, hcount] at hrefs
    omega
  · split at h
    · cases h
      exact effect_setIo hio (fun _ => rfl) (fun _ => rfl) (.inr rfl)
    · cases h
      exact effect_setIo hio (fun _ => rfl) (fun _ => rfl) (.inr rfl)

theorem runIo_effect (htab : Table s) (h : runIo s s.io = some (s', o)) : Effect i s s' := by
  cases hio : s.io with
  | wait =>
    rw [hio] at h
    cases h
    exact effect_refl s
  | batch evs =>
    rw [hio] at h
    cases evs with
    | nil =>
      cases h
      exact effect_setIo hio (fun _ => rfl) (fun _ => rfl) (.inl rfl)
    | cons e evs =>
      obtain ⟨a, ha, heq⟩ := Option.bind_eq_some_iff.1 h
      split at heq
      · cases heq
        exact effect_setIo hio (fun _ => rfl) (fun _ => rfl) (.inl rfl)
      · exact ioHndEnqueueWorker_effect hio heq
  | calling rioh evs =>
    rw [hio] at h
    obtain ⟨s1, hdestroy, heq⟩ := Option.bind_eq_some_iff.1 h
    cases heq
    have hc := counts_destroy htab hdestroy
    obtain ⟨a, hnds, heap, -, rfl, -⟩ := ioHndDestroy_eq hdestroy
    refine effect_thread hc rfl rfl rfl rfl fun x => ?_
    have hrefs := refs_setIo (s := { s with hnds := hnds, heap := heap }) hio (.batch evs) x
    simp only [IoPc.events, refs_heap] at hrefs
    omega
  | getting ev evs =>
    obtain ⟨s1, rdt, hget⟩ : ∃ s1 rdt, ioWorkerGet s = (s1, rdt) := ⟨_, _, rfl⟩
    have hsame := ioWorkerGet_same hget
    have hrefs := ioWorkerGet_refs hget
    simp only [hio, runIo, hget] at h
    cases rdt with
    | none =>
      cases h
      exact effect_thread (counts_refl hsame.heap) rfl hsame.next hsame.tasks hsame.epoll fun x => by
        rw [hrefs, add_zero]
    | some rdt =>
      cases h
      refine effect_thread (counts_refl hsame.heap) rfl hsame.next hsame.tasks hsame.epoll fun x => ?_
      have hset :
        (s1.setIo (.adding rdt ev evs)).refs x = s1.refs x := refs_setIo (hsame.io.trans hio) (.adding rdt ev evs) x
      rw [hset, hrefs, add_zero]
  | adding rdt ev evs =>
    rw [hio] at h
    obtain ⟨s1, hkeep, h⟩ := Option.bind_eq_some_iff.1 h
    obtain ⟨s2, hadd, heq⟩ := Option.bind_eq_some_iff.1 h
    cases heq
    obtain ⟨worker, hw, heq⟩ := Option.bind_eq_some_iff.1 hadd
    cases heq
    have hc := counts_keep hkeep
    obtain ⟨a, -, rfl⟩ := ioHndKeep_eq hkeep
    refine effect_thread hc rfl rfl rfl rfl fun x => ?_
    have hrefs := refs_setWorker (s := s.put ev.rioh { a with refcnt := a.refcnt + 1 })
      { worker with eventq := worker.eventq ++ [ev] } hw x
    simp only [Worker.refs, queued_append, refs_put] at hrefs
    have hset := refs_setIo (s := (s.put ev.rioh { a with refcnt := a.refcnt + 1 }).setWorker rdt
      { worker with eventq := worker.eventq ++ [ev] }) hio (.batch evs) x
    simp only [IoPc.events] at hset
    omega

/-- **One step**: every step has one of the effects. -/
theorem step_effect (htab : Table s) (hok : Succeeds s i) (h : step s i = some (s', o)) : Effect i s s' := by
  cases i with
  | add fd events flags cb => exact ioAdd_effect htab h
  | del fd => exact ioDel_effect h
  | task t ok =>
    replace h : taskStep s t ok = some (s', o) := h
    unfold taskStep at h
    cases ht : s.tasks[t]? with
    | none =>
      rw [ht] at h
      cases h
      exact effect_refl s
    | some task =>
      rw [ht] at h
      exact runTask_effect htab ht (hok task ht) h
  | wait evs =>
    cases h
    unfold ioWait
    split
    next hw => exact effect_setIo hw.1 (fun _ => rfl) (fun _ => rfl) (.inl rfl)
    next => exact effect_refl s
  | io => exact runIo_effect htab h
  | worker w =>
    replace h : workerStep s w = some (s', o) := h
    unfold workerStep at h
    cases hw : s.workers[w]? with
    | none =>
      rw [hw] at h
      cases h
      exact effect_refl s
    | some worker =>
      rw [hw] at h
      exact runWorker_effect htab hw h

end Steps

/-! ## Runs -/

section Runs

variable {i : Step} {is : List Step} {s s' : State} {o : List Obs} {os : List (List Obs)}

theorem Effect.next_le (he : Effect i s s') : s.next ≤ s'.next := by
  cases he with
  | move hgoes => exact hgoes.next.ge
  | create _ hnext => omega
  | complete _ _ hnext => exact hnext.ge
  | pass _ hgoes => exact hgoes.next.ge
  | unregister _ hgoes => exact hgoes.next.ge

/-- Only `rd_io_add` makes a handle. -/
theorem Effect.next_eq (he : Effect i s s') (hadds : ¬i.Adds) : s'.next = s.next := by
  cases he with
  | move hgoes => exact hgoes.next
  | create hadd => exact absurd hadd hadds
  | complete _ _ hnext => exact hnext
  | pass _ hgoes => exact hgoes.next
  | unregister _ hgoes => exact hgoes.next

/-- After the start of `rd_io_add` there is a handle. -/
theorem add_next (ht : Table s) (hadds : i.Adds) (h : step s i = some (s', o)) : 0 < s'.next := by
  cases i with
  | add fd events flags cb =>
    replace h : ioAdd s fd events flags cb = some (s', o) := h
    unfold ioAdd ioHndGet at h
    rw [if_neg hadds] at h
    cases hfind : findHnd s fd with
    | none =>
      obtain ⟨rfl, -⟩ : _ = s' ∧ [] = o := by simpa [hfind] using h
      exact Nat.succ_pos s.next
    | some rioh =>
      have hlt : rioh < s.next := by
        by_contra hle
        exact ht.linked rioh (List.mem_of_find?_eq_some hfind) (ht.fresh rioh (by omega))
      rw [hfind] at h
      obtain ⟨⟨s1, r⟩, hget, h⟩ := Option.bind_eq_some_iff.1 h
      obtain ⟨s2, hkeep, heq⟩ := Option.bind_eq_some_iff.1 hget
      obtain ⟨a, -, rfl⟩ := ioHndKeep_eq hkeep
      cases heq
      cases h
      exact Nat.lt_of_le_of_lt rioh.zero_le hlt
  | del fd => exact hadds.elim
  | task t ok => exact hadds.elim
  | wait evs => exact hadds.elim
  | io => exact hadds.elim
  | worker w => exact hadds.elim

theorem inv_initial : Inv initial where
  table := initial_table
  fresh _ _ := rfl
  opened _ hx := by
    obtain ⟨a, ha, -⟩ := hx
    cases ha
  total := ⟨∅, 0, fun _ h => absurd rfl h, by simp [initial, State.dels], fun h => absurd h (Nat.lt_irrefl 0)⟩

/-- Every run keeps the invariant, and there is a handle exactly if `rd_io_add` was called with events. -/
theorem run_inv (hok : ioMachine.Each Succeeds initial is) (hrun : ioMachine.run initial is = some (s, os)) :
    Inv s ∧ (0 < s.next ↔ ∃ i ∈ is, i.Adds) := by
  have hI := Machine.run_keeps (M := ioMachine) (Q := Succeeds)
    (I := fun s hist => Inv s ∧ (0 < s.next ↔ ∃ i ∈ hist.map Prod.fst, i.Adds)) ?_ []
    ⟨inv_initial, by simp [initial]⟩ hok hrun
  · rwa [List.nil_append, List.map_fst_zip (Machine.run_length hrun).ge] at hI
  · rintro s hist i s' o ⟨hinv, hiff⟩ hi hstep
    have heff : Effect i s s' := step_effect hinv.table hi hstep
    refine ⟨heff.inv hinv (step_table hinv.table hstep), ?_⟩
    rw [List.map_append, List.map_cons, List.map_nil]
    by_cases hadds : i.Adds
    · exact iff_of_true (add_next hinv.table hadds hstep) ⟨i, by simp, hadds⟩
    · rw [heff.next_eq hadds, hiff]
      constructor
      · rintro ⟨j, hj, hadd⟩
        exact ⟨j, List.mem_append_left _ hj, hadd⟩
      · rintro ⟨j, hj, hadd⟩
        refine ⟨j, (List.mem_append.1 hj).resolve_right fun h => ?_, hadd⟩
        obtain rfl : j = i := List.mem_singleton.1 h
        exact hadds hadd

/-- Threads hold at least one reference for an event. -/
theorem events_le_refs (s : State) (x : Nat) : s.events x ≤ s.refs x := by
  have hsum : (s.workers.map fun w => queued x w.eventq + w.pc.events x).sum ≤ (s.workers.map (Worker.refs x)).sum := by
    refine List.sum_le_sum fun w _ => Nat.add_le_add_left ?_ _
    cases w.pc with
    | idle => exact Nat.le_refl _
    | popped ev => exact Nat.le_refl _
    | calling ev => exact Nat.le_mul_of_pos_left _ Nat.two_pos
    | called ev => exact Nat.le_refl _
  unfold State.events State.refs
  omega

section Quiet

variable (hquiet : Quiet s)

include hquiet

theorem Quiet.not_adding (x : Nat) : ¬s.Adding x := by
  rintro ⟨task, hmem, -⟩
  rw [hquiet] at hmem
  cases hmem

theorem Quiet.pend_eq (x : Nat) : s.pend x = 0 := by rw [State.pend, hquiet]; rfl

theorem Quiet.dels_eq : s.dels = 0 := by rw [State.dels, hquiet]; rfl

/-- With references as they should be, none is left behind: a handle that is not deleted would have two. -/
theorem Inv.left_nonpos (h : Inv s) (hlaw : Law s) (x : Nat) : s.left x ≤ 0 := by
  have hle := events_le_refs s x
  cases ha : s.heap x with
  | none =>
    simp only [State.left, State.cnt, ha, Option.elim_none]
    omega
  | some a =>
    have hcnt := hlaw.refcnt x a ha
    have hleft : s.left x = a.refcnt - s.refs x := by rw [State.left, cnt_of_some ha]
    by_cases hfd : a.fd = -1
    · rw [if_pos hfd] at hcnt
      omega
    · have hopen := (h.opened x ⟨a, ha, hfd⟩).2.resolve_left (hquiet.not_adding x)
      rw [hquiet.pend_eq] at hopen
      rw [if_neg hfd] at hcnt
      omega

/-- Once there are handles, references are left behind. -/
theorem Inv.not_law (h : Inv s) (hpos : 0 < s.next) : ¬Law s := by
  intro hlaw
  obtain ⟨F, n, -, hcard, hn⟩ := h.total
  have hn : 0 < n := (hn hpos).resolve_right fun ⟨x, hx⟩ => hquiet.not_adding x hx
  have hsum : ∑ x ∈ Finset.range s.next, s.left x ≤ 0 := Finset.sum_nonpos fun x _ => h.left_nonpos hquiet hlaw x
  rw [hquiet.dels_eq] at hcard
  omega

end Quiet

/-- Without handles there is nothing to count. -/
theorem Table.law (h : Table s) (hnext : s.next = 0) : Law s := by
  have hheap (x : Nat) : s.heap x = none := h.fresh x (hnext ▸ x.zero_le)
  refine ⟨fun x a ha => ?_, fun x a ha => ?_, h.linked⟩
  · exact nomatch (hheap x).symm.trans ha
  · exact nomatch (hheap x).symm.trans ha

/-- **References**: in every run that ends with no call in progress, where the IO thread could be started and
`epoll_ctl` succeeded, the references of handles are as they should be if and only if `rd_io_add` was never called with
events. -/
theorem run_law_iff (hok : ioMachine.Each Succeeds initial is) (hrun : ioMachine.run initial is = some (s, os))
    (hquiet : Quiet s) : Law s ↔ ∀ i ∈ is, ¬i.Adds := by
  obtain ⟨hinv, hiff⟩ := run_inv hok hrun
  constructor
  · intro hlaw i hi hadds
    exact hinv.not_law hquiet (hiff.2 ⟨i, hi, hadds⟩) hlaw
  · intro hno
    refine hinv.table.law (Nat.eq_zero_of_not_pos fun hpos => ?_)
    obtain ⟨i, hi, hadds⟩ := hiff.1 hpos
    exact hno i hi hadds

end Runs

/-- A descriptor is registered, one event is delivered for it and handled, and it is deleted. -/
def sampleRun : List Step :=
  [.add 5 1 0 ⟨7, none, 0⟩, .task 0 true, .task 0 true, .task 0 true, .task 0 true, .task 0 true, .task 0 true,
    .wait [(5, 1)], .io, .io, .io, .io, .worker 0, .worker 0, .worker 0, .worker 0,
    .del 5, .task 0 true, .task 0 true, .task 0 true, .task 0 true, .task 0 true, .task 0 true]

theorem run_law_iff_sample : ∃ s os, ioMachine.Each Succeeds initial sampleRun ∧
    ioMachine.run initial sampleRun = some (s, os) ∧ Quiet s ∧ (Law s ↔ ∀ i ∈ sampleRun, ¬i.Adds) := by
  obtain ⟨s, os, hrun, hquiet⟩ : ∃ s os, ioMachine.run initial sampleRun = some (s, os) ∧ Quiet s := ⟨_, _, rfl, rfl⟩
  have hok : ioMachine.Each Succeeds initial sampleRun := by decide
  exact ⟨s, os, hok, hrun, hquiet, run_law_iff hok hrun hquiet⟩

/-- The handle is neither unlinked nor freed, with one reference left. -/
theorem sample_leaks : ∃ s os a, ioMachine.Each Succeeds initial sampleRun ∧
    ioMachine.run initial sampleRun = some (s, os) ∧ Quiet s ∧ s.hnds = [0] ∧ s.heap 0 = some a ∧ a.fd = -1 ∧
    a.refcnt = 1 ∧ s.events 0 = 0 ∧ ¬Law s := by
  refine ⟨_, _, _, by decide, rfl, rfl, rfl, rfl, rfl, rfl, rfl, fun hlaw => ?_⟩
  exact absurd (hlaw.freed 0 _ rfl rfl) (by decide)

end Librd.Io
