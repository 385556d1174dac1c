import Librd.Opt.Accept

/-!
# The names of options in messages

`rd_opt_syntaxname` puts a name together piece by piece, in one of four rows that it takes in turns. The rows have 4
characters, since the dimensions of `ret` are the wrong way round.

- Texts put together by `snprintf` after `snprintf` (`putAll`): the places that are written (`places`), all of them in
  the buffer exactly if no offset exceeds its size (`places_inside_iff`), and the text that is left there (`put_text`).
- A call returns the name cut to 3 characters (`optSyntaxname_text`), unless it writes outside of `ret`.
- The names returned stay intact for three calls, and all is written in the row of the call, exactly if no entry with
  arguments has a name of more than 4 characters (`names_kept_iff`).
-/

namespace Librd.Opt

/-! ## Texts put together -/

/-- `of += snprintf(buf+of, size-of, ...)` for one text after the other. -/
def putAll (base size : Nat) : List CStr → List Char × Nat → Except Fault (List Char × Nat)
  | [], p => .ok p
  | text :: texts, p => do putAll base size texts (← put base size text p)

/-- A text that is put where a condition holds. -/
def pieceIf (c : Prop) [Decidable c] (text : CStr) : List CStr := if c then [text] else []

/-- The places that a `snprintf` writes. -/
def putPlaces (base size of : Nat) (text : CStr) : List Nat :=
  if sizeLeft size of = 0 then [] else List.range' (base + of) (min text.length (sizeLeft size of - 1) + 1)

/-- The places that are written for one text after the other. -/
def places (base size : Nat) : List CStr → Nat → List Nat
  | [], _ => []
  | text :: texts, of => putPlaces base size of text ++ places base size texts (of + text.length)

/-- The offsets of the texts. -/
def offsets : List CStr → Nat → List Nat
  | [], _ => []
  | text :: texts, of => of :: offsets texts (of + text.length)

/-- There is a text, with its NUL, at a place. -/
def HasText (mem : List Char) (off : Nat) (text : CStr) : Prop := (mem.drop off).take (text.length + 1) = text ++ [nul]

section Put

variable {mem mem' : List Char} {base size of off : Nat} {text : CStr} {texts : List CStr} {p q : List Char × Nat}

theorem putAll_append (texts texts' : List CStr) :
    ∀ p, putAll base size (texts ++ texts') p = putAll base size texts p >>= putAll base size texts' := by
  induction texts with
  | nil => intro p; rfl
  | cons text texts ih =>
    intro p
    simp only [List.cons_append, putAll]
    cases put base size text p with
    | error e => rfl
    | ok q => exact ih q

theorem putAll_pieceIf (c : Prop) [Decidable c] : putAll base size (pieceIf c text) p = putIf c base size text p := by
  by_cases h : c
  · simp only [pieceIf, putIf, if_pos h, putAll]
    cases put base size text p <;> rfl
  · simp only [pieceIf, putIf, if_neg h, putAll]

/-- What `snprintf` stores. -/
theorem put_eq : put base size text p =
    (if sizeLeft size p.2 = 0 then .ok p.1 else poke p.1 (base + p.2) (text.take (sizeLeft size p.2 - 1) ++ [nul])).map
      fun mem => (mem, p.2 + text.length) := by
  unfold put snprintf
  by_cases h : sizeLeft size p.2 = 0
  · simp only [if_pos h]
    rfl
  · simp only [if_neg h]
    cases poke p.1 (base + p.2) (text.take (sizeLeft size p.2 - 1) ++ [nul]) <;> rfl

theorem poke_frame {cs : List Char} (h : poke mem off cs = .ok mem') :
    mem'.length = mem.length ∧ ∀ j, j ∉ List.range' off cs.length → mem'[j]? = mem[j]? := by
  unfold poke at h
  split at h
  · next hfits =>
    cases h
    refine ⟨by simp; omega, fun j hj => ?_⟩
    rw [List.mem_range'_1, not_and_or, not_le, not_lt] at hj
    have hlen : (mem.take off).length = off := by rw [List.length_take]; omega
    rcases hj with hj | hj
    · rw [List.append_assoc, List.getElem?_append_left (by omega), List.getElem?_take_of_lt hj]
    · rw [List.getElem?_append_right (by rw [List.length_append]; omega), List.length_append, hlen,
        List.getElem?_drop, Nat.add_sub_cancel' hj]
  · cases h

/-- A `snprintf` changes the places that it writes only, and adds its length to the offset. -/
theorem put_frame (h : put base size text p = .ok q) :
    q.1.length = p.1.length ∧ q.2 = p.2 + text.length ∧
      ∀ j, j ∉ putPlaces base size p.2 text → q.1[j]? = p.1[j]? := by
  rw [put_eq] at h
  unfold putPlaces
  split at h
  · next h0 =>
    cases h
    exact ⟨rfl, rfl, fun _ _ => rfl⟩
  · next h0 =>
    cases hp : poke p.1 (base + p.2) (text.take (sizeLeft size p.2 - 1) ++ [nul]) with
    | error e => simp [hp, Except.map] at h
    | ok mem =>
      rw [hp] at h
      cases h
      obtain ⟨hlen, hframe⟩ := poke_frame hp
      refine ⟨hlen, rfl, fun j hj => hframe j ?_⟩
      rw [if_neg h0] at hj
      rw [List.length_append, List.length_take, List.length_singleton, Nat.min_comm]
      exact hj

/-- It faults exactly if one of the places is outside of memory. -/
theorem put_ok_iff : (∃ q, put base size text p = .ok q) ↔ ∀ j ∈ putPlaces base size p.2 text, j < p.1.length := by
  rw [put_eq]
  unfold putPlaces
  by_cases h0 : sizeLeft size p.2 = 0
  · simp [h0, Except.map]
  · simp only [if_neg h0]
    unfold poke
    rw [List.length_append, List.length_take, List.length_singleton, Nat.min_comm]
    split
    · next hfits =>
      refine iff_of_true ⟨_, rfl⟩ fun j hj => ?_
      rw [List.mem_range'_1] at hj
      omega
    · next hfits =>
      refine iff_of_false (fun ⟨q, hq⟩ => nomatch hq) fun h => ?_
      have hlast := h (base + p.2 + min text.length (sizeLeft size p.2 - 1)) (by rw [List.mem_range'_1]; omega)
      omega

/-- A `snprintf` writes in its buffer only, exactly if the offset does not exceed the size. -/
theorem putPlaces_inside_iff (hof : of < size + 2 ^ 64) :
    (∀ j ∈ putPlaces base size of text, base ≤ j ∧ j < base + size) ↔ of ≤ size := by
  unfold putPlaces sizeLeft
  by_cases h : of ≤ size
  · refine iff_of_true (fun j hj => ?_) h
    rw [if_pos h] at hj
    split at hj
    · cases hj
    · rw [List.mem_range'_1] at hj
      omega
  · refine iff_of_false (fun hall => ?_) h
    have hfirst := hall (base + of) (by
      rw [if_neg h, if_neg (by omega), List.mem_range'_1]
      omega)
    omega

theorem places_inside_iff (h : ∀ o ∈ offsets texts of, o < size + 2 ^ 64) :
    (∀ j ∈ places base size texts of, base ≤ j ∧ j < base + size) ↔ ∀ o ∈ offsets texts of, o ≤ size := by
  induction texts generalizing of with
  | nil => simp [places, offsets]
  | cons text texts ih =>
    rw [offsets, List.forall_mem_cons] at h ⊢
    rw [places, List.forall_mem_append, putPlaces_inside_iff h.1, ih h.2]

/-- The text in the buffer, cut at its size, goes on with the text that is put. -/
theorem put_text {done : CStr} (h : HasText p.1 base (done.take (size - 1))) (hp : p.2 = done.length)
    (hle : done.length ≤ size) (hq : put base size text p = .ok q) :
    HasText q.1 base ((done ++ text).take (size - 1)) := by
  rw [put_eq, hp, sizeLeft, if_pos hle] at hq
  by_cases h0 : size - done.length = 0
  · rw [if_pos h0] at hq
    cases hq
    rwa [List.take_append_of_le_length (by omega)]
  · rw [if_neg h0] at hq
    have hdone : done.take (size - 1) = done := List.take_of_length_le (by omega)
    unfold poke at hq
    split at hq
    · next hfits =>
      cases hq
      rw [hdone, HasText] at h
      have hpre : (p.1.take (base + done.length)).drop base = done := by
        rw [List.drop_take, Nat.add_sub_cancel_left]
        have htake := congrArg (List.take done.length) h
        rwa [List.take_take, Nat.min_eq_left (Nat.le_succ _), List.take_left] at htake
      have hlen : base ≤ (p.1.take (base + done.length)).length := by
        rw [List.length_append] at hfits
        rw [List.length_take]
        omega
      have htext : (done ++ text).take (size - 1) = done ++ text.take (size - done.length - 1) := by
        rw [List.take_append, hdone]
        congr 2
        omega
      rw [HasText, htext, List.append_assoc, List.drop_append_of_le_length hlen, hpre, ← List.append_assoc,
        ← List.append_assoc, List.take_left']
      simp only [List.length_append, List.length_singleton]
    · cases hq

/-- A string is read up to its NUL. -/
theorem cstrAt_of_hasText (h : HasText mem off text) (hnul : nul ∉ text) : cstrAt mem off = .ok text := by
  have hmem : mem.drop off = text ++ nul :: (mem.drop off).drop (text.length + 1) := by
    conv_lhs => rw [← List.take_append_drop (text.length + 1) (mem.drop off), h, List.append_assoc]
    rfl
  have hne : ∀ c ∈ text, decide (c ≠ nul) = true := fun c hc => by
    rw [decide_eq_true_eq]
    rintro rfl
    exact hnul hc
  rw [cstrAt, hmem, if_pos (by simp), List.takeWhile_append_of_pos hne]
  simp

/-- A text stays where it is while its places do not change. -/
theorem HasText.frame (h : HasText mem off text) (hsame : ∀ j, off ≤ j → j ≤ off + text.length → mem'[j]? = mem[j]?) :
    HasText mem' off text := by
  rw [HasText, ← h]
  refine List.ext_getElem? fun k => ?_
  by_cases hk : k < text.length + 1
  · rw [List.getElem?_take_of_lt hk, List.getElem?_take_of_lt hk, List.getElem?_drop, List.getElem?_drop,
      hsame (off + k) (by omega) (by omega)]
  · rw [List.getElem?_eq_none (by simp; omega), List.getElem?_eq_none (by simp; omega)]

theorem putAll_frame (h : putAll base size texts p = .ok q) :
    q.1.length = p.1.length ∧ q.2 = p.2 + texts.flatten.length ∧
      ∀ j, j ∉ places base size texts p.2 → q.1[j]? = p.1[j]? := by
  induction texts generalizing p with
  | nil =>
    cases h
    exact ⟨rfl, rfl, fun _ _ => rfl⟩
  | cons text texts ih =>
    obtain ⟨r, hput, hrest⟩ := Outcome.exists_of_bind h
    obtain ⟨hlen, hof, hframe⟩ := put_frame hput
    obtain ⟨hlen', hof', hframe'⟩ := ih hrest
    refine ⟨hlen'.trans hlen, ?_, fun j hj => ?_⟩
    · rw [hof', hof, List.flatten_cons, List.length_append, Nat.add_assoc]
    · rw [places, List.mem_append, not_or, ← hof] at hj
      rw [hframe' j hj.2, hframe j hj.1]

theorem putAll_ok_iff :
    (∃ q, putAll base size texts p = .ok q) ↔ ∀ j ∈ places base size texts p.2, j < p.1.length := by
  induction texts generalizing p with
  | nil => simp [putAll, places]
  | cons text texts ih =>
    rw [putAll, places, List.forall_mem_append, ← put_ok_iff]
    cases hput : put base size text p with
    | error e => exact iff_of_false (fun ⟨q, hq⟩ => nomatch hq) fun h => nomatch h.1
    | ok r =>
      obtain ⟨hlen, hof, -⟩ := put_frame hput
      rw [← hlen, ← hof, ← ih]
      exact (and_iff_right ⟨r, rfl⟩).symm

theorem putAll_text {done : CStr} (h : HasText p.1 base (done.take (size - 1))) (hp : p.2 = done.length)
    (hle : ∀ o ∈ offsets texts p.2, o ≤ size) (hq : putAll base size texts p = .ok q) :
    HasText q.1 base ((done ++ texts.flatten).take (size - 1)) := by
  induction texts generalizing p done with
  | nil =>
    cases hq
    rwa [List.flatten_nil, List.append_nil]
  | cons text texts ih =>
    rw [offsets, List.forall_mem_cons] at hle
    obtain ⟨r, hput, hrest⟩ := Outcome.exists_of_bind hq
    obtain ⟨-, hof, -⟩ := put_frame hput
    have htext := put_text h hp (hp ▸ hle.1) hput
    rw [List.flatten_cons, ← List.append_assoc]
    exact ih htext (by rw [hof, hp, List.length_append]) (hof ▸ hle.2) hrest

theorem offsets_append (texts texts' : List CStr) (of : Nat) :
    offsets (texts ++ texts') of = offsets texts of ++ offsets texts' (of + texts.flatten.length) := by
  induction texts generalizing of with
  | nil => rfl
  | cons text texts ih =>
    simp only [List.cons_append, offsets, ih, List.flatten_cons, List.length_append, Nat.add_assoc]

theorem places_append (base size : Nat) (texts texts' : List CStr) (of : Nat) : places base size (texts ++ texts') of =
    places base size texts of ++ places base size texts' (of + texts.flatten.length) := by
  induction texts generalizing of with
  | nil => rfl
  | cons text texts ih =>
    simp only [List.cons_append, places, ih, List.flatten_cons, List.length_append, Nat.add_assoc, List.append_assoc]

end Put

/-! ## One call -/

/-- The pieces of a name: the short one, a slash, and the long one. -/
def nameTexts (ro : RdOpt) : List CStr :=
  pieceIf (ro.roShort ≠ nul) ('-' :: ro.roShort :: if ro.roLong.isSome then ['/'] else []) ++
    pieceIf (ro.roLong ≠ none) ("--".toList ++ ro.roLong.getD [])

/-- The piece for the arguments. -/
def argTexts (ro : RdOpt) : List CStr := pieceIf (ro.roArgcnt ≠ 0) " <...>".toList

/-- The name of an entry. -/
def nameOf (ro : RdOpt) : CStr := (nameTexts ro).flatten

/-- The name and ` <...>`, where an entry takes arguments. -/
def syntaxOf (ro : RdOpt) : CStr := nameOf ro ++ (argTexts ro).flatten

/-- Where the row of the next call starts. -/
def rowOf (m : Mem) : Nat := 4 * ((m.i + 1) % 4)

/-- The places that a call writes, with its row at `base`. -/
def namePlaces (base : Nat) (ro : RdOpt) : List Nat := base :: places base 4 (nameTexts ro ++ argTexts ro) 0

/-- An entry as it is in C: its long name has no NUL, and fits in memory. -/
structure CEntry (ro : RdOpt) : Prop where
  noNul : ∀ l ∈ ro.roLong, nul ∉ l
  fits : ∀ l ∈ ro.roLong, l.length + 1 < 2 ^ 64

section Call

variable {m m' : Mem} {ro : RdOpt} {name : Nat}

theorem optSyntaxname_eq (m : Mem) (ro : RdOpt) : optSyntaxname m ro = do
    let names ← poke m.names (rowOf m) [nul]
    let p ← putAll (rowOf m) 4 (nameTexts ro ++ argTexts ro) (names, 0)
    return ({ m with names := p.1, i := (m.i + 1) % 4 }, rowOf m) := by
  simp only [optSyntaxname, nameTexts, argTexts, putAll_append, putAll_pieceIf, bind_assoc]
  rfl

/-- The offsets before the arguments are in the row. -/
theorem nameTexts_offsets (ro : RdOpt) : ∀ o ∈ offsets (nameTexts ro) 0, o ≤ 4 := by
  by_cases hs : ro.roShort = nul <;> cases hl : ro.roLong <;> simp [nameTexts, pieceIf, offsets, hs, hl]

theorem argTexts_offsets (ro : RdOpt) (of : Nat) :
    (∀ o ∈ offsets (argTexts ro) of, o ≤ 4) ↔ ro.roArgcnt = 0 ∨ of ≤ 4 := by
  by_cases hc : ro.roArgcnt = 0 <;> simp [argTexts, pieceIf, offsets, hc]

theorem nul_notMem_nameOf (h : CEntry ro) : nul ∉ nameOf ro := by
  have hdash : nul ≠ '-' := by decide
  have hslash : nul ≠ '/' := by decide
  by_cases hs : ro.roShort = nul
  · cases hl : ro.roLong with
    | none => simp [nameOf, nameTexts, pieceIf, hs, hl]
    | some l => simpa [nameOf, nameTexts, pieceIf, hs, hl, hdash] using h.noNul l hl
  · have hs' : nul ≠ ro.roShort := Ne.symm hs
    cases hl : ro.roLong with
    | none => simp [nameOf, nameTexts, pieceIf, hs, hs', hl, hdash]
    | some l => simpa [nameOf, nameTexts, pieceIf, hs, hs', hl, hdash, hslash] using h.noNul l hl

theorem nul_notMem_syntaxOf (h : CEntry ro) : nul ∉ syntaxOf ro := by
  have harg : nul ∉ (argTexts ro).flatten := by
    unfold argTexts pieceIf
    split <;> decide
  rw [syntaxOf, List.mem_append, not_or]
  exact ⟨nul_notMem_nameOf h, harg⟩

theorem nameOf_length_lt (h : CEntry ro) : (nameOf ro).length < 4 + 2 ^ 64 := by
  by_cases hs : ro.roShort = nul
  · cases hl : ro.roLong with
    | none => simp [nameOf, nameTexts, pieceIf, hs, hl]
    | some l =>
      have hfits := h.fits l hl
      simp [nameOf, nameTexts, pieceIf, hs, hl]
      omega
  · cases hl : ro.roLong with
    | none => simp [nameOf, nameTexts, pieceIf, hs, hl]
    | some l =>
      have hfits := h.fits l hl
      simp [nameOf, nameTexts, pieceIf, hs, hl]
      omega

theorem name_offsets (ro : RdOpt) : offsets (nameTexts ro ++ argTexts ro) 0 =
    offsets (nameTexts ro) 0 ++ offsets (argTexts ro) (nameOf ro).length := by
  rw [offsets_append, Nat.zero_add]
  rfl

/-- **A call writes in its row only exactly if the entry has no arguments, or a name of 4 characters at most.** -/
theorem namePlaces_inside_iff (h : CEntry ro) (base : Nat) :
    (∀ j ∈ namePlaces base ro, base ≤ j ∧ j < base + 4) ↔ ro.roArgcnt = 0 ∨ (nameOf ro).length ≤ 4 := by
  have hlt := nameOf_length_lt h
  have hoff : ∀ o ∈ offsets (nameTexts ro ++ argTexts ro) 0, o < 4 + 2 ^ 64 := by
    intro o ho
    rw [name_offsets, List.mem_append] at ho
    rcases ho with ho | ho
    · have := nameTexts_offsets ro o ho
      omega
    · by_cases hc : ro.roArgcnt = 0
      · simp [argTexts, pieceIf, offsets, hc] at ho
      · simp only [argTexts, pieceIf, offsets, hc, ne_eq, not_false_eq_true, if_true, List.mem_singleton] at ho
        omega
  rw [namePlaces, List.forall_mem_cons, places_inside_iff hoff, name_offsets, List.forall_mem_append, argTexts_offsets]
  constructor
  · rintro ⟨-, -, harg⟩
    exact harg
  · intro harg
    exact ⟨by omega, nameTexts_offsets ro, harg⟩

/-- What a call does with memory, if it returns. -/
theorem optSyntaxname_frame (h : optSyntaxname m ro = .ok (m', name)) :
    name = rowOf m ∧ m'.i = (m.i + 1) % 4 ∧ m'.store = m.store ∧ m'.names.length = m.names.length ∧
      ∀ j, j ∉ namePlaces (rowOf m) ro → m'.names[j]? = m.names[j]? := by
  rw [optSyntaxname_eq] at h
  obtain ⟨names, hpoke, h⟩ := Outcome.exists_of_bind h
  obtain ⟨p, hput, h⟩ := Outcome.exists_of_bind h
  cases h
  obtain ⟨hlen, hframe⟩ := poke_frame hpoke
  obtain ⟨hlen', -, hframe'⟩ := putAll_frame hput
  refine ⟨rfl, rfl, rfl, hlen'.trans hlen, fun j hj => ?_⟩
  rw [namePlaces, List.mem_cons, not_or] at hj
  rw [hframe' j hj.2, hframe j (by simpa using hj.1)]

/-- A call returns exactly if it writes in `ret` only. -/
theorem optSyntaxname_ok_iff :
    (∃ r, optSyntaxname m ro = .ok r) ↔ ∀ j ∈ namePlaces (rowOf m) ro, j < m.names.length := by
  rw [optSyntaxname_eq, namePlaces, List.forall_mem_cons]
  cases hpoke : poke m.names (rowOf m) [nul] with
  | error e =>
    refine iff_of_false (fun ⟨r, hr⟩ => nomatch hr) fun h => ?_
    unfold poke at hpoke
    rw [if_pos (by simpa using h.1)] at hpoke
    cases hpoke
  | ok names =>
    obtain ⟨hlen, -⟩ := poke_frame hpoke
    have hrow : rowOf m < m.names.length := by
      unfold poke at hpoke
      split at hpoke
      · next hfits => simpa using hfits
      · cases hpoke
    rw [and_iff_right hrow, ← hlen]
    have hok := @putAll_ok_iff (rowOf m) 4 (nameTexts ro ++ argTexts ro) (names, 0)
    rw [← hok]
    cases hput : putAll (rowOf m) 4 (nameTexts ro ++ argTexts ro) (names, 0) with
    | error e =>
      refine iff_of_false (fun ⟨r, hr⟩ => ?_) fun ⟨q, hq⟩ => nomatch hq
      simp only [hput, bind, Except.bind] at hr
      cases hr
    | ok p =>
      refine iff_of_true ?_ ⟨p, rfl⟩
      simp only [hput, bind, Except.bind]
      exact ⟨_, rfl⟩

theorem poke_nul_text {mem mem' : List Char} {base : Nat} (h : poke mem base [nul] = .ok mem') :
    HasText mem' base [] := by
  unfold poke at h
  split at h
  · next hfits =>
    cases h
    have hlen : (mem.take base).length = base := by
      rw [List.length_take]
      simp only [List.length_singleton] at hfits
      omega
    rw [HasText, List.append_assoc, List.drop_append_of_le_length hlen.ge, List.drop_of_length_le hlen.le]
    rfl
  · cases h

/-- Putting the arguments leaves a name in the row as it is, where they do not go on with it. -/
theorem putArgs_text {p q : List Char × Nat} {base : Nat} (h : HasText p.1 base ((nameOf ro).take 3))
    (hp : p.2 = (nameOf ro).length) (hq : putAll base 4 (argTexts ro) p = .ok q) :
    HasText q.1 base ((syntaxOf ro).take 3) := by
  by_cases hfit : ro.roArgcnt = 0 ∨ (nameOf ro).length ≤ 4
  · exact putAll_text h hp (by rw [hp]; exact (argTexts_offsets ro _).2 hfit) hq
  · have hlong : 4 < (nameOf ro).length := by omega
    rw [syntaxOf, List.take_append_of_le_length (by omega)]
    obtain ⟨-, -, hframe⟩ := putAll_frame hq
    refine h.frame fun j hj hj' => hframe j fun hmem => ?_
    have hc : ro.roArgcnt ≠ 0 := by omega
    rw [List.length_take] at hj'
    simp only [argTexts, pieceIf, if_pos hc, places, putPlaces, List.append_nil] at hmem
    split at hmem
    · cases hmem
    · rw [List.mem_range'_1] at hmem
      omega

/-- **What a call returns**: the name and the arguments, cut to 3 characters. -/
theorem optSyntaxname_text (h : optSyntaxname m ro = .ok (m', name)) :
    HasText m'.names name ((syntaxOf ro).take 3) := by
  rw [optSyntaxname_eq] at h
  obtain ⟨names, hpoke, h⟩ := Outcome.exists_of_bind h
  obtain ⟨q, hput, h⟩ := Outcome.exists_of_bind h
  cases h
  rw [putAll_append] at hput
  obtain ⟨p, hname, hargs⟩ := Outcome.exists_of_bind hput
  have hstart : HasText names (rowOf m) (([] : CStr).take 3) := poke_nul_text hpoke
  have htext := putAll_text hstart rfl (nameTexts_offsets ro) hname
  obtain ⟨-, hof, -⟩ := putAll_frame hname
  exact putArgs_text htext (hof.trans (Nat.zero_add _)) hargs

end Call

/-! ## Calls in a row -/

/-- The string at `name` is `text`, before the calls and after each of them. -/
def Keeps (name : Nat) (text : CStr) : Mem → List RdOpt → Prop
  | m, [] => cstrAt m.names name = .ok text
  | m, ro :: ros =>
    cstrAt m.names name = .ok text ∧ ∃ m' other, optSyntaxname m ro = .ok (m', other) ∧ Keeps name text m' ros

/-- Every call writes in its row only, and what it returns, the syntax of the entry cut to the row, stays as it is
during the next three calls. -/
def NamesKept : Mem → List RdOpt → Prop
  | _, [] => True
  | m, ro :: ros =>
    (∀ j ∈ namePlaces (rowOf m) ro, rowOf m ≤ j ∧ j < rowOf m + 4) ∧
    ∃ m' name, optSyntaxname m ro = .ok (m', name) ∧ Keeps name ((syntaxOf ro).take 3) m' (ros.take 3) ∧
      NamesKept m' ros

/-- All that a call writes is in the row of the call. -/
def Fits (ro : RdOpt) : Prop := ro.roArgcnt = 0 ∨ (nameOf ro).length ≤ 4

instance (ro : RdOpt) : Decidable (Fits ro) := inferInstanceAs (Decidable (_ ∨ _))

section Calls

variable {m m' : Mem} {ro : RdOpt} {ros : List RdOpt} {name r : Nat} {text : CStr}

theorem rowOf_lt (m : Mem) : rowOf m + 4 ≤ 16 := by
  unfold rowOf
  omega

/-- A call that fits returns. -/
theorem Fits.returns (h : Fits ro) (hc : CEntry ro) (hm : m.names.length = namesSize) :
    ∃ m' name, optSyntaxname m ro = .ok (m', name) ∧ m'.names.length = namesSize := by
  have hrow := rowOf_lt m
  have hin := (namePlaces_inside_iff hc (rowOf m)).2 h
  obtain ⟨⟨m', name⟩, hr⟩ := optSyntaxname_ok_iff.2 fun j hj => by
    have := (hin j hj).2
    rw [hm, namesSize]
    omega
  exact ⟨m', name, hr, by rw [(optSyntaxname_frame hr).2.2.2.1, hm]⟩

/-- Calls in other rows keep what is in a row. -/
theorem keeps_of_rows (hr : r < 4) (htext : text.length ≤ 3) (hnul : nul ∉ text) (hm : m.names.length = namesSize)
    (hfit : ∀ ro ∈ ros, Fits ro ∧ CEntry ro) (hrow : ∀ k < ros.length, (m.i + 1 + k) % 4 ≠ r)
    (h : HasText m.names (4 * r) text) : Keeps (4 * r) text m ros := by
  induction ros generalizing m with
  | nil => exact cstrAt_of_hasText h hnul
  | cons ro ros ih =>
    refine ⟨cstrAt_of_hasText h hnul, ?_⟩
    obtain ⟨hro, hc⟩ := hfit ro List.mem_cons_self
    obtain ⟨m', other, hcall, hm'⟩ := hro.returns hc hm
    obtain ⟨-, hi, -, -, hframe⟩ := optSyntaxname_frame hcall
    refine ⟨m', other, hcall, ih hm' (fun x hx => hfit x (List.mem_cons_of_mem ro hx)) ?_ ?_⟩
    · intro k hk
      have := hrow (k + 1) (by simpa using hk)
      rw [hi]
      omega
    · have hother := hrow 0 (by simp)
      refine h.frame fun j hj hj' => hframe j fun hmem => ?_
      have hin := (namePlaces_inside_iff hc (rowOf m)).2 hro j hmem
      unfold rowOf at hin
      omega

end Calls

/-- **The names returned stay intact, and all writes in their rows, exactly if no entry that takes arguments has a name
of more than 4 characters.** -/
theorem names_kept_iff : ∀ (ros : List RdOpt) (m : Mem), m.names.length = namesSize → (∀ ro ∈ ros, CEntry ro) →
    (NamesKept m ros ↔ ∀ ro ∈ ros, ro.roArgcnt = 0 ∨ (nameOf ro).length ≤ 4) := by
  intro ros
  induction ros with
  | nil =>
    intro m _ _
    simp [NamesKept]
  | cons ro ros ih =>
    intro m hm hc
    have hro := hc ro List.mem_cons_self
    have hros : ∀ x ∈ ros, CEntry x := fun x hx => hc x (List.mem_cons_of_mem ro hx)
    rw [NamesKept, namePlaces_inside_iff hro, List.forall_mem_cons]
    refine and_congr_right fun hfit => ?_
    obtain ⟨m', name, hcall, hm'⟩ := Fits.returns hfit hro hm
    obtain ⟨hname, hi, -⟩ := optSyntaxname_frame hcall
    constructor
    · rintro ⟨m'', name', hcall', -, hkept⟩
      obtain ⟨rfl, -⟩ := Prod.mk.inj (Except.ok.inj (hcall.symm.trans hcall'))
      exact (ih m' hm' hros).1 hkept
    · intro hfits
      refine ⟨m', name, hcall, ?_, (ih m' hm' hros).2 hfits⟩
      have htext := optSyntaxname_text hcall
      rw [hname] at htext ⊢
      refine keeps_of_rows (by omega) (by simp) ?_ hm' ?_ ?_ htext
      · exact fun h => nul_notMem_syntaxOf hro (List.mem_of_mem_take h)
      · exact fun x hx => ⟨hfits x (List.mem_of_mem_take hx), hros x (List.mem_of_mem_take hx)⟩
      · intro k hk
        rw [List.length_take] at hk
        rw [hi]
        omega

theorem names_kept_short :
    NamesKept sampleMem [{ roShort := 'a' }, { roShort := 'n', roArgcnt := 1 }, { roLong := some ['v', 'e', 'r'] }] :=
  (names_kept_iff _ sampleMem (by simp [sampleMem]) (by
    intro ro hro
    simp only [List.mem_cons, List.not_mem_nil, or_false] at hro
    rcases hro with rfl | rfl | rfl <;> constructor <;> simp [nul])).2 (by decide)

/-- A short and a long name, and an argument. -/
def fileEntry : RdOpt := { roType := optStr, roShort := 'f', roLong := some ['f', 'i', 'l', 'e'], roArgcnt := 1 }

/-- The arguments of `-f` and `--file` are written over the names that two calls returned before; the last of them was
`-z`. -/
theorem names_overwritten :
    ¬NamesKept sampleMem [{ roShort := 'x' }, { roShort := 'y' }, { roShort := 'z' }, fileEntry] ∧
      (do let (m, _) ← optSyntaxname sampleMem { roShort := 'x' }
          let (m, _) ← optSyntaxname m { roShort := 'y' }
          let (m, name) ← optSyntaxname m { roShort := 'z' }
          let (m', _) ← optSyntaxname m fileEntry
          return (← cstrAt m.names name, ← cstrAt m'.names name)) = .ok (['-', 'z'], ['.', '.', '>']) := by
  constructor
  · rintro ⟨-, m₁, _, h₁, -, -, m₂, _, h₂, -, -, m₃, _, h₃, -, hin, -⟩
    have hrow : rowOf m₃ = 0 := by
      rw [rowOf, (optSyntaxname_frame h₃).2.1, (optSyntaxname_frame h₂).2.1, (optSyntaxname_frame h₁).2.1]
      rfl
    rw [hrow] at hin
    exact absurd (hin 9 (by decide)) (by decide)
  · decide +kernel

end Librd.Opt
