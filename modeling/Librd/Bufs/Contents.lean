import Librd.Bufs.Lengths

/-!
# The contents of heads

What a head holds is the bytes appended, formatted and received, in the order of the calls, with what is moved to it
after what it held (`callSpec`, `contents`). The bytes lie in the blocks of its buffers (`Stored`), wherever they were
split, and `rd_bufh_copyout` writes their concatenation (`copyout_eq`). Every operation keeps that (`step_holds`), so it
holds after every run (`copyout_contents`), but for two lengths: `recv` gives a length whose `int` is -1, which is taken
for an error (`recv_loses`), or `totlen + 1` overflows.
-/

namespace Librd.Bufs

/-! ## Bytes in buffers -/

/-- `rb` holds `bytes`, from the start of its block on, and its block is as long as `rb_olen` says. -/
structure Stores (rb : Buf) (bytes : List UInt8) : Prop where
  data : rb.data = 0
  len_eq : rb.len = bytes.length
  block : ∃ m, rb.orig = some m ∧ m.length = rb.olen ∧ m.take rb.len = bytes.map some

/-- Buffers hold the concatenation of what each of them holds. -/
inductive Stored : List Buf → List UInt8 → Prop
  | nil : Stored [] []
  | cons {rb : Buf} {bufs : List Buf} {xs ys : List UInt8} : Stores rb xs → Stored bufs ys →
      Stored (rb :: bufs) (xs ++ ys)

theorem Stored.single {rb : Buf} {xs : List UInt8} (h : Stores rb xs) : Stored [rb] xs := by
  simpa using Stored.cons h .nil

theorem Stored.append {l l' : List Buf} {xs ys : List UInt8} (h : Stored l xs) (h' : Stored l' ys) :
    Stored (l ++ l') (xs ++ ys) := by
  induction h with
  | nil => exact h'
  | cons hrb _ ih => rw [List.append_assoc]; exact .cons hrb ih

theorem Stored.split {l' : List Buf} : ∀ {l : List Buf} {zs : List UInt8}, Stored (l ++ l') zs →
    ∃ xs ys, zs = xs ++ ys ∧ Stored l xs ∧ Stored l' ys
  | [], zs, h => ⟨[], zs, rfl, .nil, h⟩
  | rb :: l, zs, h => by
    cases h with
    | cons hrb h =>
      obtain ⟨xs, ys, rfl, hl, hl'⟩ := Stored.split h
      exact ⟨_, ys, (List.append_assoc _ _ _).symm, .cons hrb hl, hl'⟩

theorem Stored.sumLen {l : List Buf} {xs : List UInt8} (h : Stored l xs) : sumLen l = xs.length := by
  induction h with
  | nil => rfl
  | cons hrb _ ih => rw [sumLen_cons, ih, hrb.len_eq, List.length_append]

/-- A new buffer holds nothing. -/
theorem bufNew_stores {data : Option Block} {len : Nat} {owner : Bool}
    (h : owner = true → ∃ d, data = some d ∧ d.length = len) : Stores (bufNew data len owner) [] := by
  cases owner with
  | false => exact ⟨rfl, rfl, _, rfl, List.length_replicate, by simp [bufNew]⟩
  | true =>
    obtain ⟨d, rfl, hd⟩ := h rfl
    exact ⟨rfl, rfl, d, rfl, hd, by simp [bufNew]⟩

/-- Writing `new`, and a terminator that is not counted, after what a buffer holds. -/
theorem Stores.write {rb : Buf} {bytes : List UInt8} (h : Stores rb bytes) (new nul : List UInt8)
    (hroom : rb.len + (new ++ nul).length ≤ rb.olen) :
    ∃ orig, write rb.orig rb.len ((new ++ nul).map some) = .ok orig ∧
      Stores { rb with orig := orig, len := rb.len + new.length } (bytes ++ new) := by
  obtain ⟨m, hm, hlen, htake⟩ := h.block
  have hfits : rb.len + ((new ++ nul).map some).length ≤ m.length := by simpa [hlen] using hroom
  have hw : Bufs.write rb.orig rb.len ((new ++ nul).map some) = .ok (some (m.take rb.len ++ (new ++ nul).map some ++
      m.drop (rb.len + ((new ++ nul).map some).length))) := by
    simp only [Bufs.write, hm, memcpy, if_pos hfits]
    rfl
  refine ⟨_, hw, h.data, ?_, _, rfl, ?_, ?_⟩
  · simp [h.len_eq]
  · simp only [List.length_append, List.length_map, List.length_take, List.length_drop] at hfits ⊢
    omega
  · have hpre : m.take rb.len ++ new.map some = (bytes ++ new).map some := by rw [htake, List.map_append]
    have hlen' : rb.len + new.length = ((bytes ++ new).map some).length := by simp [h.len_eq]
    rw [List.map_append, ← List.append_assoc, hpre, hlen', List.append_assoc, List.take_left]

/-! ## Copying out -/

theorem Stores.read {rb : Buf} {bytes : List UInt8} (h : Stores rb bytes) :
    read rb.orig rb.len = .ok (bytes.map some) := by
  obtain ⟨m, hm, -, htake⟩ := h.block
  have hle : rb.len ≤ m.length := by
    have := congrArg List.length htake
    simp only [List.length_take, List.length_map, ← h.len_eq] at this
    omega
  simp only [Bufs.read, hm, if_pos hle, htake]

theorem memcpy_append (done rest bytes : Block) (h : bytes.length ≤ rest.length) :
    memcpy (done ++ rest) done.length bytes = .ok (done ++ bytes ++ rest.drop bytes.length) := by
  have hfits : done.length + bytes.length ≤ (done ++ rest).length := by
    rw [List.length_append]
    omega
  rw [memcpy, if_pos hfits, List.take_left, ← List.drop_drop, List.drop_left]

/-- What each buffer has: the `rb_len` bytes from the start of its block. -/
def Reads (bufs : List Buf) (cs : List Block) : Prop := List.Forall₂ (fun rb c => read rb.orig rb.len = .ok c) bufs cs

theorem read_length {p : Option Block} {n : Nat} {c : Block} (h : Bufs.read p n = .ok c) : c.length = n := by
  unfold Bufs.read at h
  split at h <;> split at h <;> cases h <;> simp [*]

theorem Stored.reads {bufs : List Buf} {xs : List UInt8} (h : Stored bufs xs) :
    ∃ cs, Reads bufs cs ∧ cs.flatten = xs.map some := by
  induction h with
  | nil => exact ⟨[], .nil, rfl⟩
  | @cons rb bufs xs ys hrb _ ih =>
    obtain ⟨cs, hcs, hflat⟩ := ih
    exact ⟨xs.map some :: cs, .cons hrb.read hcs, by rw [List.flatten_cons, hflat, List.map_append]⟩

/-- The loop of `rd_bufh_serialize_binary_mem0` writes what the buffers have, after what it wrote already. -/
theorem serializeLoop_eq {bufs : List Buf} {cs : List Block} (h : Reads bufs cs) :
    ∀ {done rest : Block}, cs.flatten.length ≤ rest.length →
      serializeLoop bufs (done ++ rest) done.length =
        .ok (done ++ cs.flatten ++ rest.drop cs.flatten.length, done.length + cs.flatten.length) := by
  induction h with
  | nil => intro done rest _; simp [serializeLoop]
  | @cons rb c bufs cs hrb _ ih =>
    intro done rest hroom
    rw [List.flatten_cons, List.length_append] at hroom
    have hcopy := memcpy_append done rest c (by omega)
    have hnext : done.length + rb.len = (done ++ c).length := by rw [List.length_append, read_length hrb]
    have hrest : cs.flatten.length ≤ (rest.drop c.length).length := by
      rw [List.length_drop]
      omega
    rw [serializeLoop, hrb]
    show (memcpy (done ++ rest) done.length c >>= fun dst => serializeLoop bufs dst (done.length + rb.len)) = _
    rw [hcopy, hnext]
    show serializeLoop bufs _ _ = _
    rw [ih hrest]
    simp [List.drop_drop, Nat.add_assoc]

/-- `rd_bufh_copyout` to any memory with enough room writes what the buffers have, and returns its length. -/
theorem copyout_reads {b : Bufh} {cs : List Block} (h : Reads b.bufs cs) {dst : Block}
    (hroom : cs.flatten.length ≤ dst.length) :
    bufhCopyout b dst = .ok (cs.flatten ++ dst.drop cs.flatten.length, cs.flatten.length) := by
  have hloop := @serializeLoop_eq b.bufs cs h [] dst hroom
  simpa [bufhCopyout] using hloop

/-- A head of owned buffers, one for each block. -/
def headOf (cs : List Block) : Bufh where
  bufs := cs.map fun c => { len := c.length, olen := c.length, owner := true, data := 0, orig := some c }
  len := cs.flatten.length % 2 ^ 32
  free := true

theorem headOf_reads : ∀ cs : List Block, Reads (headOf cs).bufs cs
  | [] => .nil
  | c :: cs => .cons (by simp [read]) (headOf_reads cs)

/-- **`rd_bufh_copyout` writes what the head holds**, and returns its length. -/
theorem copyout_eq {b : Bufh} {xs : List UInt8} (h : Stored b.bufs xs) {dst : Block} (hroom : xs.length ≤ dst.length) :
    bufhCopyout b dst = .ok (xs.map some ++ dst.drop xs.length, xs.length) := by
  obtain ⟨cs, hcs, hflat⟩ := h.reads
  have hlen : cs.flatten.length = xs.length := by rw [hflat, List.length_map]
  have hcopy := copyout_reads hcs (show cs.flatten.length ≤ dst.length by omega)
  rwa [hlen, hflat] at hcopy

/-! ## What heads hold -/

/-- A head that holds `bytes`. -/
structure Holds (b : Bufh) (bytes : List UInt8) : Prop where
  good : Good b
  stored : Stored b.bufs bytes

theorem Holds.len_eq {b : Bufh} {bytes : List UInt8} (h : Holds b bytes) : b.len = bytes.length % 2 ^ 32 := by
  rw [h.good.len_eq, h.stored.sumLen]

section Slots

variable {b : Bufh} {data : Option Block} {len : Nat} {owner : Bool} {init : List Buf} {rb : Buf} {bytes : List UInt8}

/-- What is in the slot already is the end of what the head holds. -/
theorem Slot.stores (hs : Slot b data len owner init rb) (hb : Holds b bytes)
    (ho : owner = true → ∃ d, data = some d ∧ d.length = len) :
    ∃ xs ys, bytes = xs ++ ys ∧ Stored init xs ∧ Stores rb ys := by
  rcases hs.origin with ⟨h, -⟩ | ⟨rfl, rfl⟩
  · obtain ⟨xs, ys, rfl, hx, hy⟩ := (h ▸ hb.stored).split
    cases hy with
    | cons hrb hnil =>
      cases hnil
      exact ⟨xs, _, rfl, hx, by simpa using hrb⟩
  · exact ⟨bytes, [], by simp, hb.stored, bufNew_stores ho⟩

/-- Making room changes nothing. -/
theorem Slot.holds_room (hs : Slot b data len owner init rb) (hb : Holds b bytes)
    (ho : owner = true → ∃ d, data = some d ∧ d.length = len) : Holds (filled b init rb rb.orig 0) bytes := by
  obtain ⟨xs, ys, rfl, hinit, hrb⟩ := hs.stores hb ho
  exact ⟨hs.good hb.good (Nat.zero_le len), hinit.append (.single hrb)⟩

/-- Filling a slot with `new`, and with a terminator that is not counted, appends `new`. -/
theorem Slot.holds (hs : Slot b data len owner init rb) (hb : Holds b bytes)
    (ho : owner = true → ∃ d, data = some d ∧ d.length = len) (new nul : List UInt8)
    (hlen : (new ++ nul).length ≤ len) :
    rb.data = 0 ∧ ∃ orig, write rb.orig rb.len ((new ++ nul).map some) = .ok orig ∧
      Holds (filled b init rb orig new.length) (bytes ++ new) := by
  have hroom := hs.room
  obtain ⟨xs, ys, rfl, hinit, hrb⟩ := hs.stores hb ho
  obtain ⟨orig, hw, hst⟩ := hrb.write new nul (by omega)
  refine ⟨hrb.data, orig, hw, hs.good hb.good ?_, ?_⟩
  · rw [List.length_append] at hlen
    omega
  · rw [List.append_assoc]
    exact hinit.append (.single hst)

theorem append_holds {d : List UInt8} (owner : Bool) (hb : Holds b bytes) (hlen : len < 2 ^ 32) (hd : d.length = len) :
    ∃ b', bufhAppend b (some (d.map some)) len owner = .ok b' ∧ Holds b' (bytes ++ d) := by
  obtain ⟨init, rb, hs, heq⟩ := append_eq (d.map some) owner hb.good hlen
  obtain ⟨-, orig, hw, hh⟩ := hs.holds hb (fun _ => ⟨_, rfl, by simpa using hd⟩) d [] (by simp [hd])
  rw [List.append_nil] at hw
  rw [heq, hw, ← hd]
  exact ⟨_, rfl, hh⟩

theorem vsprintf_holds {str : List UInt8} (hb : Holds b bytes) (hstr : str.length < intMax) :
    ∃ b', bufhVsprintf b str = .ok b' ∧ Holds b' (bytes ++ str) := by
  obtain ⟨init, rb, hs, heq⟩ := vsprintf_eq hb.good hstr
  obtain ⟨-, orig, hw, hh⟩ := hs.holds hb (fun h => nomatch h) str [0] (by simp)
  rw [heq, hw]
  exact ⟨_, rfl, hh⟩

/-- `rd_bufh_recv`, unless it takes the length for an error. -/
theorem recv_holds {received : Option (List UInt8)} (hb : Holds b bytes) (hlen : len < 2 ^ 32)
    (hr : ∀ new ∈ received, new.length ≤ len ∧ new.length ≠ 2 ^ 32 - 1) :
    ∃ b', bufhRecv b len received = .ok (b', received.isSome) ∧ Holds b' (bytes ++ received.getD []) := by
  cases received with
  | none =>
    obtain ⟨init, rb, hs, heq⟩ := recv_fail_eq hb.good hlen
    rw [heq, Option.getD_none, List.append_nil]
    exact ⟨_, rfl, hs.holds_room hb fun h => nomatch h⟩
  | some new =>
    obtain ⟨hle, hne⟩ := hr new rfl
    obtain ⟨init, rb, hs, heq⟩ := recv_eq hb.good hlen hle
    obtain ⟨hdata, orig, hw, hh⟩ := hs.holds hb (fun h => nomatch h) new [] (by simpa using hle)
    rw [List.append_nil] at hw
    rw [heq, hdata, Nat.zero_add, hw]
    simp only [Except.map, if_neg hne]
    exact ⟨_, rfl, hh⟩

end Slots

theorem move_holds {dst src : Bufh} {xs ys : List UInt8} (hd : Holds dst xs) (hs : Holds src ys) :
    Holds (bufhMove dst src).1 (xs ++ ys) ∧ Holds (bufhMove dst src).2 [] := by
  have hg := move_good hd.good hs.good
  refine ⟨⟨hg.1, ?_⟩, ⟨hg.2, .nil⟩⟩
  rw [bufhMove, moveLoop_eq src.bufs hd.good.len_lt]
  exact hd.stored.append hs.stored

/-! ## The specification -/

/-- The bytes held by each head that exists. -/
abbrev Contents := Nat → Option (List UInt8)

/-- What the calls are for: bytes go to the end of a head. Also whether a call returns a buffer. -/
def callSpec (c : Contents) : Op → Contents × Bool
  | .new h _ => (Function.update c h (some []), false)
  | .append h data _ _ => (Function.update c h ((c h).map (· ++ data.getD [])), true)
  | .sprintf h str => (Function.update c h ((c h).map (· ++ str)), true)
  | .recv h _ received => (Function.update c h ((c h).map (· ++ received.getD [])), received.isSome)
  | .move dst src =>
    (Function.update (Function.update c dst (some ((c dst).getD [] ++ (c src).getD []))) src (some []), false)
  | _ => (c, false)

/-- The calls that write: `append` of data, `sprintf`, `recv` and `move`, to heads that were made. -/
def Writes : Op → Prop
  | .new _ _ | .sprintf _ _ | .recv _ _ _ | .move _ _ => True
  | .append _ data _ _ => data ≠ none
  | _ => False

/-- The length of what is formatted or received is not one that the `int` of the code spoils: `totlen + 1` does not
overflow, and `r` is not -1. -/
def NoWrap : Op → Prop
  | .sprintf _ str => str.length < intMax
  | .recv _ _ received => ∀ new ∈ received, new.length ≠ 2 ^ 32 - 1
  | _ => True

/-- The heads hold the contents. -/
def Refines (s : State) (c : Contents) : Prop := ∀ h, Option.Rel Holds (s h) (c h)

theorem Refines.head {s : State} {c : Contents} {h : Nat} (hr : Refines s c) (hs : s h ≠ none) :
    ∃ b bytes, s h = some b ∧ c h = some bytes ∧ Holds b bytes := by
  have := hr h
  revert this hs
  generalize s h = o, c h = o'
  intro hs hrel
  cases hrel with
  | none => exact absurd rfl hs
  | some hb => exact ⟨_, _, rfl, rfl, hb⟩

theorem Refines.update {s : State} {c : Contents} (hr : Refines s c) (h : Nat) {b : Bufh} {bytes : List UInt8}
    (hb : Holds b bytes) : Refines (Function.update s h (some b)) (Function.update c h (some bytes)) := by
  intro h'
  by_cases hh : h' = h
  · subst hh
    rw [Function.update_self, Function.update_self]
    exact .some hb
  · rw [Function.update_of_ne hh, Function.update_of_ne hh]
    exact hr h'

/-- **Every call that writes does what the specification says.** -/
theorem step_holds {s : State} {c : Contents} {op : Op} (hr : Refines s c) (hok : Ok s op) (hw : Writes op)
    (hn : NoWrap op) : ∃ s', machine.step s op = some (s', (callSpec c op).2) ∧ Refines s' (callSpec c op).1 := by
  simp only [machine_step_some]
  cases op with
  | new h free =>
    refine ⟨_, rfl, hr.update h ⟨⟨by simp [bufhNew], rfl⟩, .nil⟩⟩
  | append h data len owner =>
    obtain ⟨b, bytes, hb, hc, hh⟩ := hr.head hok.1
    obtain ⟨d, rfl⟩ := Option.ne_none_iff_exists'.1 hw
    obtain ⟨b', happ, hh'⟩ := append_holds owner hh hok.2.1 (hok.2.2 d rfl)
    refine ⟨Function.update s h (some b'), ?_, ?_⟩
    · simp only [stepE, headAt, hb, bind, Except.bind, Option.map_some, happ]
      rfl
    · simpa [callSpec, hc] using hr.update h hh'
  | sprintf h str =>
    obtain ⟨b, bytes, hb, hc, hh⟩ := hr.head hok.1
    obtain ⟨b', hpr, hh'⟩ := vsprintf_holds hh hn
    refine ⟨Function.update s h (some b'), ?_, ?_⟩
    · simp only [stepE, headAt, hb, bind, Except.bind, hpr]
      rfl
    · simpa [callSpec, hc] using hr.update h hh'
  | recv h len received =>
    obtain ⟨b, bytes, hb, hc, hh⟩ := hr.head hok.1
    obtain ⟨b', hrv, hh'⟩ := recv_holds hh hok.2.1 fun new hnew => ⟨hok.2.2 new hnew, hn new hnew⟩
    refine ⟨Function.update s h (some b'), ?_, ?_⟩
    · simp only [stepE, headAt, hb, bind, Except.bind, hrv]
      rfl
    · simpa [callSpec, hc] using hr.update h hh'
  | move dst src =>
    obtain ⟨d, xs, hd, hcd, hhd⟩ := hr.head hok.1
    obtain ⟨r, ys, hs, hcs, hhs⟩ := hr.head hok.2.1
    have hm := move_holds hhd hhs
    refine ⟨Function.update (Function.update s dst (some (bufhMove d r).1)) src (some (bufhMove d r).2), ?_, ?_⟩
    · simp only [stepE, headAt, hd, hs, bind, Except.bind]
      rfl
    · simpa [callSpec, hcd, hcs] using (hr.update dst hm.1).update src hm.2
  | prepend h data len owner => exact hw.elim
  | insert h after str => exact hw.elim
  | bufDestroy h i => exact hw.elim
  | destroy h => exact hw.elim

/-! ## Runs -/

/-- What the calls put in each head. -/
def contents (ops : List Op) : Contents := (Machine.specRun callSpec (fun _ => none) ops).1

/-- `rd_bufh_copyout` to any memory with enough room writes exactly `bytes`, and returns their number, which is
`rd_bufh_len` if it is below `2 ^ 32`. -/
def CopiesOut (b : Bufh) (bytes : List UInt8) : Prop :=
  (∀ dst, bytes.length ≤ dst.length →
    bufhCopyout b dst = .ok (bytes.map some ++ dst.drop bytes.length, bytes.length)) ∧
  (bytes.length < 2 ^ 32 → b.len = bytes.length)

/-- The calls all return, and afterwards every head copies out what the calls put in it. -/
def Faithful (ops : List Op) : Prop :=
  ∃ s os, machine.run init ops = some (s, os) ∧ ∀ h, Option.Rel CopiesOut (s h) (contents ops h)

theorem Holds.copiesOut {b : Bufh} {bytes : List UInt8} (h : Holds b bytes) : CopiesOut b bytes :=
  ⟨fun _ hroom => copyout_eq h.stored hroom, fun hlt => by rw [h.len_eq, Nat.mod_eq_of_lt hlt]⟩

theorem rel_mono {R R' : Bufh → List UInt8 → Prop} (h : ∀ b bytes, R b bytes → R' b bytes) :
    ∀ {o : Option Bufh} {o' : Option (List UInt8)}, Option.Rel R o o' → Option.Rel R' o o'
  | _, _, .none => .none
  | _, _, .some hab => .some (h _ _ hab)

/-- **Copying out gives the bytes in the order of the calls**, however they are split into buffers. -/
theorem copyout_contents (ops : List Op) (h : machine.Admits init ops) (hw : ∀ op ∈ ops, Writes op)
    (hn : ∀ op ∈ ops, NoWrap op) : Faithful ops := by
  have hQ := Machine.each_and h (Machine.each_of_forall fun op hop => And.intro (hw op hop) (hn op hop))
  have hinit : Refines init fun _ => none := fun _ => .none
  obtain ⟨s, hrun, hr⟩ := Machine.run_sim (fun s c op hr hq => step_holds hr hq.1 hq.2.1 hq.2.2) ops init _ hinit hQ
  exact ⟨s, _, hrun, fun k => rel_mono (fun _ _ => Holds.copiesOut) (hr k)⟩

/-- A tail with room, a terminator overwritten, a short `recv`, a failed one and an owned buffer. -/
theorem copyout_contents_moved :
    Faithful [.new 0 true, .new 1 false, .append 0 (some [1, 2, 3]) 3 false, .sprintf 0 [65, 66],
      .recv 0 64 (some [4, 5]), .recv 0 8 none, .append 1 (some [6]) 1 true, .move 1 0] ∧
    contents [.new 0 true, .new 1 false, .append 0 (some [1, 2, 3]) 3 false, .sprintf 0 [65, 66],
      .recv 0 64 (some [4, 5]), .recv 0 8 none, .append 1 (some [6]) 1 true, .move 1 0] 1 =
        some [6, 1, 2, 3, 65, 66, 4, 5] :=
  ⟨copyout_contents _ (by decide) (by simp [Writes]) (by simp [NoWrap, intMax]), by decide⟩

/-! ## A length that is taken for an error -/

/-- A head made, and as many bytes received as were asked for. -/
def recvOps (bytes : List UInt8) : List Op := [.new 0 true, .recv 0 bytes.length (some bytes)]

/-- The state after `rd_bufh_recv` with an `int` of -1. -/
theorem recv_lost {bytes : List UInt8} (h : bytes.length = 2 ^ 32 - 1) :
    ∃ b', bufhRecv (bufhNew true) bytes.length (some bytes) = .ok (b', false) ∧ Holds b' [] := by
  have hb : Holds (bufhNew true) [] := ⟨⟨by simp [bufhNew], rfl⟩, .nil⟩
  obtain ⟨init, rb, hs, heq⟩ := recv_eq hb.good (show bytes.length < 2 ^ 32 by omega) (Nat.le_refl bytes.length)
  obtain ⟨hdata, orig, hw, hh⟩ := hs.holds hb (fun h => absurd h Bool.false_ne_true) [] bytes (by simp)
  rw [List.nil_append] at hw
  rw [heq, hdata, Nat.zero_add, hw]
  simp only [Except.map, if_pos h]
  exact ⟨_, rfl, hh⟩

theorem recvOps_admitted {bytes : List UInt8} (h : bytes.length < 2 ^ 32) : machine.Admits init (recvOps bytes) := by
  refine ⟨rfl, ⟨by simp, h, ?_⟩, ?_⟩
  · simp
  · split <;> trivial

theorem contents_recvOps (bytes : List UInt8) : contents (recvOps bytes) 0 = some bytes := by
  simp [contents, recvOps, Machine.specRun, callSpec]

theorem contents_recvOps_of_ne (bytes : List UInt8) {h : Nat} (hh : h ≠ 0) : contents (recvOps bytes) h = none := by
  simp [contents, recvOps, Machine.specRun, callSpec, Function.update_of_ne hh]

/-- Nothing is copied out then. -/
theorem recvOps_loses {bytes : List UInt8} (h : bytes.length = 2 ^ 32 - 1) : ¬Faithful (recvOps bytes) := by
  rintro ⟨s, os, hrun, hrel⟩
  obtain ⟨b', hrecv, hb'⟩ := recv_lost h
  have hstep : stepE (Function.update init 0 (some (bufhNew true))) (.recv 0 bytes.length (some bytes)) =
      .ok (Function.update (Function.update init 0 (some (bufhNew true))) 0 (some b'), false) := by
    simp only [stepE, headAt, Function.update_self, bind, Except.bind, hrecv]
    rfl
  have hnew : machine.step init (.new 0 true) = some (Function.update init 0 (some (bufhNew true)), false) := rfl
  have hrun' := Machine.run_cons hnew (Machine.run_cons (machine_step_some.2 hstep) (Machine.run_nil machine _))
  obtain ⟨rfl, -⟩ : _ = s ∧ _ = os := by simpa using hrun'.symm.trans hrun
  have hc : contents (recvOps bytes) 0 = some bytes := contents_recvOps bytes
  have h0 := hrel 0
  rw [hc, Function.update_self] at h0
  cases h0 with
  | some hout =>
    have hcopy := hout.1 (List.replicate bytes.length none) (by simp)
    rw [copyout_eq hb'.stored (Nat.zero_le _)] at hcopy
    have hlen : 0 = bytes.length := (Prod.mk.inj (Except.ok.inj hcopy)).2
    omega

/-- **`rd_bufh_recv` loses `2 ^ 32 - 1` bytes**: their number is -1 as an `int`. -/
theorem recv_loses_all :
    machine.Admits init (recvOps (List.replicate (2 ^ 32 - 1) 0)) ∧
    (∀ op ∈ recvOps (List.replicate (2 ^ 32 - 1) 0), Writes op) ∧
    (∀ h bytes, contents (recvOps (List.replicate (2 ^ 32 - 1) 0)) h = some bytes → bytes.length < 2 ^ 32) ∧
    ¬Faithful (recvOps (List.replicate (2 ^ 32 - 1) 0)) := by
  have hlen : (List.replicate (2 ^ 32 - 1) (0 : UInt8)).length = 2 ^ 32 - 1 := List.length_replicate
  generalize List.replicate (2 ^ 32 - 1) (0 : UInt8) = bytes at hlen ⊢
  have hlt : bytes.length < 2 ^ 32 := by omega
  refine ⟨recvOps_admitted hlt, by simp [recvOps, Writes], fun h bytes' hc => ?_, recvOps_loses hlen⟩
  by_cases hh : h = 0
  · rw [hh, contents_recvOps] at hc
    exact Option.some.inj hc ▸ hlt
  · rw [contents_recvOps_of_ne bytes hh] at hc
    cases hc

end Librd.Bufs
