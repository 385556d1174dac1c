import Librd.Log.Log

/-!
# Log lines: the end of the buffer

A message that leaves room for the newline and the NUL is followed by them (`putMessage_fits`); one that is longer than
the rest of the buffer is cut, and ends with dots (`putMessage_cut`). The test for the second kind does not count the
newline and the NUL: of a message that is as long as the rest of the buffer, or one character shorter, the NUL is
written behind the buffer (`putMessage_full`). All others are safe (`putMessage_safe_iff`), after every header that fits
(`rdputs0_eq`).
-/

namespace Librd.Log

/-- Nothing is written outside of the buffer, and the text that is passed to `write` ends with a newline. -/
def Safe (result : Option Text) : Prop := ∃ text, result = some text ∧ text.getLast? = some '\n'

/-! ## Writes -/

section Writes

variable {buf : List Char} {of : Nat} {cs : List Char}

theorem poke_eq (h : of + cs.length ≤ buf.length) : poke buf of cs = some (Splice.write buf of cs) := by
  rw [poke, if_pos (by omega), Int.toNat_natCast]

theorem poke_outside (h : buf.length < of + cs.length) : poke buf of cs = none := by
  rw [poke, if_neg (by omega)]

theorem sizeLeft_eq (h : of ≤ bufSize) : sizeLeft of = bufSize - of := by
  have hle : of ≤ 4096 := h
  show ((4096 - of : Int) % 2 ^ 64).toNat = 4096 - of
  omega

/-- A result of `vsnprintf` beyond the rest of the buffer. -/
theorem cut_iff {n left : Nat} (h : left ≤ bufSize) :
    toSize (if n ≤ intMax then (n : Int) else -1) > left ↔ left < n := by
  have hle : left ≤ 4096 := h
  by_cases hn : n ≤ 2147483647
  · have hmod : toSize (n : Int) = n := by
      show ((n : Int) % 2 ^ 64).toNat = n
      omega
    rw [intMax, if_pos hn, hmod]
  · rw [intMax, if_neg hn]
    refine iff_of_true ?_ (by omega)
    show left < 18446744073709551615
    omega

theorem snprintf_eq (hbuf : buf.length = bufSize) (hof : of < bufSize) (text : Text) : snprintf buf of text =
    some (Splice.write buf of (text.take (bufSize - of - 1) ++ [nul]),
      if text.length ≤ intMax then (text.length : Int) else -1) := by
  have hroom : of + (text.take (bufSize - of - 1) ++ [nul]).length ≤ buf.length := by
    rw [List.length_append, List.length_take, List.length_singleton]
    omega
  rw [snprintf, sizeLeft_eq (Nat.le_of_lt hof), if_neg (by omega), poke_eq hroom]
  rfl

theorem putNewline_eq (h : of + 1 < buf.length) : putNewline buf of = some (buf.take of ++ ['\n']) := by
  have hnl : of + ['\n'].length ≤ buf.length := by
    rw [List.length_singleton]
    omega
  have hnul : (of + 1) + [nul].length ≤ (Splice.write buf of ['\n']).length := by
    rw [Splice.length_write hnl, List.length_singleton]
    omega
  have htake := Splice.take_write hnl
  rw [List.length_singleton] at htake
  have hof : ((of : Int) + 1) = ((of + 1 : Nat) : Int) := by omega
  simp only [putNewline, hof, poke_eq hnl, poke_eq hnul, Option.bind_eq_bind, Option.bind_some, Int.toNat_natCast]
  rw [Splice.take_write_of_le hnul (Nat.le_refl _), htake]
  rfl

/-- No room for the NUL. -/
theorem putNewline_full (h : buf.length ≤ of + 1) : putNewline buf of = none := by
  have hnul : ∀ b : List Char, b.length = buf.length → poke b (of + 1 : Nat) [nul] = none := fun b hb => by
    apply poke_outside
    rw [List.length_singleton]
    omega
  have hof : ((of : Int) + 1) = ((of + 1 : Nat) : Int) := by omega
  rw [putNewline, hof]
  by_cases hin : of + ['\n'].length ≤ buf.length
  · rw [poke_eq hin, Option.bind_eq_bind, Option.bind_some, hnul _ (Splice.length_write hin)]
    rfl
  · rw [poke_outside (Nat.lt_of_not_le hin)]
    rfl

end Writes

/-! ## Messages -/

section Messages

variable {buf : List Char} {of : Nat} {msg : Text}

/-- The buffer after `vsnprintf` of a message that is not longer than the rest of the buffer. -/
theorem putMessage_uncut (hbuf : buf.length = bufSize) (hof : of < bufSize) (h : of + msg.length ≤ bufSize) :
    putMessage buf of msg =
      putNewline (Splice.write buf of (msg.take (bufSize - of - 1) ++ [nul])) ((of + msg.length : Nat) : Int) := by
  have hcut : ¬toSize (if msg.length ≤ intMax then (msg.length : Int) else -1) > sizeLeft of := by
    rw [sizeLeft_eq (Nat.le_of_lt hof), cut_iff (Nat.sub_le _ _)]
    omega
  have hmax : msg.length ≤ intMax := by
    have hlt : msg.length ≤ 4096 := (Nat.le_add_left _ _).trans h
    exact hlt.trans (by decide)
  rw [if_pos hmax] at hcut
  rw [putMessage, snprintf_eq hbuf hof, if_pos hmax]
  simp only [Option.bind_eq_bind, Option.bind_some, endMessage, if_neg hcut, Int.natCast_add]

/-- **A message that fits** with its newline and NUL. -/
theorem putMessage_fits (hbuf : buf.length = bufSize) (h : of + msg.length + 1 < bufSize) :
    putMessage buf of msg = some (buf.take of ++ msg ++ ['\n']) := by
  have hroom : of + (msg ++ [nul]).length ≤ buf.length := by
    rw [List.length_append, List.length_singleton]
    omega
  have htake : (Splice.write buf of (msg ++ [nul])).take (of + msg.length) = buf.take of ++ msg := by
    have hall := congrArg (List.take (of + msg.length)) (Splice.take_write hroom)
    have hlen : (buf.take of ++ msg).length = of + msg.length := by
      rw [List.length_append, Splice.length_take_write hroom]
    rw [List.take_take, ← List.append_assoc, List.take_append_of_le_length hlen.ge, List.take_of_length_le hlen.le,
      List.length_append, Nat.min_eq_left (by omega)] at hall
    exact hall
  rw [putMessage_uncut hbuf (by omega) (by omega), List.take_of_length_le (by omega), putNewline_eq ?_, htake]
  rw [Splice.length_write hroom]
  omega

/-- **A message that fills the buffer**, or leaves one byte of it: the NUL is written behind it. -/
theorem putMessage_full (hbuf : buf.length = bufSize) (hof : of < bufSize) (h : of + msg.length ≤ bufSize)
    (hfull : bufSize ≤ of + msg.length + 1) : putMessage buf of msg = none := by
  rw [putMessage_uncut hbuf hof h]
  apply putNewline_full
  rw [Splice.length_write, hbuf]
  · exact hfull
  · rw [List.length_append, List.length_take, List.length_singleton]
    omega

/-- What the buffer has before the dots. -/
theorem take_cut (hbuf : buf.length = bufSize) (hof : of < bufSize) (h : bufSize < of + msg.length) :
    (Splice.write buf of (msg.take (bufSize - of - 1) ++ [nul])).take (bufSize - 5) =
      (buf.take of ++ msg).take (bufSize - 5) := by
  have hlen : (buf.take of).length = of := by
    rw [List.length_take]
    omega
  have hmsg : (msg.take (bufSize - of - 1)).length = bufSize - of - 1 := by
    rw [List.length_take]
    omega
  -- the message without its end, and its NUL, fill the buffer
  have hroom : of + (msg.take (bufSize - of - 1) ++ [nul]).length = bufSize := by
    rw [List.length_append, hmsg, List.length_singleton]
    omega
  have hall := Splice.take_write (l := buf) (Nat.le_of_eq (hroom.trans hbuf.symm))
  have hwhole := congrArg (List.take (bufSize - 5)) hall
  rw [hroom, List.take_take, Nat.min_eq_left (by decide), ← List.append_assoc,
    List.take_append_of_le_length (by rw [List.length_append, hlen, hmsg, bufSize]; omega)] at hwhole
  have hcut : (msg.take (bufSize - of - 1)).take (bufSize - 5 - of) = msg.take (bufSize - 5 - of) := by
    rw [List.take_take, Nat.min_eq_left (by omega)]
  rw [hwhole, List.take_append, List.take_append, hlen, hcut]

/-- A dot in the buffer. -/
theorem dot_eq {i : Nat} (hbuf : buf.length = bufSize) (hi : i < bufSize) : ∃ buf', poke buf i ['.'] = some buf' ∧
    buf'.length = bufSize ∧ buf'.take (i + 1) = buf.take i ++ ['.'] := by
  have hin : i + ['.'].length ≤ buf.length := by
    rw [List.length_singleton]
    omega
  exact ⟨_, poke_eq hin, (Splice.length_write hin).trans hbuf, Splice.take_write hin⟩

/-- The dots. -/
theorem endMessage_cut {rc : Int} (hbuf : buf.length = bufSize) (hcut : toSize rc > sizeLeft of) :
    ∃ buf', endMessage buf of rc = some (buf', ((bufSize - 2 : Nat) : Int)) ∧ buf'.length = bufSize ∧
      buf'.take (bufSize - 2) = buf.take (bufSize - 5) ++ ['.', '.', '.'] := by
  obtain ⟨buf₁, hpoke₁, hlen₁, htake₁⟩ := dot_eq (i := bufSize - 5) hbuf (by decide)
  obtain ⟨buf₂, hpoke₂, hlen₂, htake₂⟩ := dot_eq (i := bufSize - 4) hlen₁ (by decide)
  obtain ⟨buf₃, hpoke₃, hlen₃, htake₃⟩ := dot_eq (i := bufSize - 3) hlen₂ (by decide)
  refine ⟨buf₃, ?_, hlen₃, ?_⟩
  · have h₁ : poke buf ((bufSize : Int) - 2 - 3) ['.'] = some buf₁ := hpoke₁
    have h₂ : poke buf₁ ((bufSize : Int) - 2 - 2) ['.'] = some buf₂ := hpoke₂
    have h₃ : poke buf₂ ((bufSize : Int) - 2 - 1) ['.'] = some buf₃ := hpoke₃
    rw [endMessage, if_pos hcut]
    simp only [h₁, h₂, h₃, Option.bind_eq_bind, Option.bind_some]
    rfl
  · calc buf₃.take (bufSize - 2)
        = buf₂.take (bufSize - 3) ++ ['.'] := htake₃
      _ = (buf₁.take (bufSize - 4) ++ ['.']) ++ ['.'] := congrArg (· ++ ['.']) htake₂
      _ = ((buf.take (bufSize - 5) ++ ['.']) ++ ['.']) ++ ['.'] := congrArg (· ++ ['.'] ++ ['.']) htake₁
      _ = buf.take (bufSize - 5) ++ ['.', '.', '.'] := by rw [List.append_assoc, List.append_assoc]; rfl

/-- **A message that is cut.** -/
theorem putMessage_cut (hbuf : buf.length = bufSize) (hof : of < bufSize) (h : bufSize < of + msg.length) :
    putMessage buf of msg = some ((buf.take of ++ msg).take (bufSize - 5) ++ ['.', '.', '.'] ++ ['\n']) := by
  have hcut : toSize (if msg.length ≤ intMax then (msg.length : Int) else -1) > sizeLeft of := by
    rw [sizeLeft_eq (Nat.le_of_lt hof), cut_iff (Nat.sub_le _ _)]
    omega
  have hlen : (Splice.write buf of (msg.take (bufSize - of - 1) ++ [nul])).length = bufSize := by
    rw [Splice.length_write, hbuf]
    rw [List.length_append, List.length_take, List.length_singleton]
    omega
  obtain ⟨buf', hend, hlen', htake⟩ := endMessage_cut hlen hcut
  rw [putMessage, snprintf_eq hbuf hof]
  simp only [Option.bind_eq_bind, Option.bind_some, hend]
  rw [putNewline_eq (by rw [hlen']; decide), htake, take_cut hbuf hof h]

end Messages

/-! ## The header -/

section Header

variable {buf : List Char} {of : Nat}

/-- A piece of the header that fits. -/
theorem putPieces_cons (hbuf : buf.length = bufSize) {piece : Text} (h : of + piece.length < bufSize)
    (pieces : List Text) :
    ∃ buf', putPieces buf of (piece :: pieces) = putPieces buf' (of + piece.length : Nat) pieces ∧
      buf'.length = bufSize ∧ buf'.take (of + piece.length) = buf.take of ++ piece := by
  have hroom : of + (piece ++ [nul]).length ≤ buf.length := by
    rw [List.length_append, List.length_singleton]
    omega
  have hmax : piece.length ≤ intMax := by
    have hlt : piece.length ≤ 4096 := (Nat.le_add_left _ _).trans (Nat.le_of_lt h)
    exact hlt.trans (by decide)
  refine ⟨Splice.write buf of (piece ++ [nul]), ?_, (Splice.length_write hroom).trans hbuf, ?_⟩
  · rw [putPieces, snprintf_eq hbuf (by omega), if_pos hmax, List.take_of_length_le (by omega)]
    simp only [Option.bind_eq_bind, Option.bind_some, Int.natCast_add]
  · have hall := congrArg (List.take (of + piece.length)) (Splice.take_write hroom)
    have hlen : (buf.take of ++ piece).length = of + piece.length := by
      rw [List.length_append, Splice.length_take_write hroom]
    rw [List.take_take, List.length_append, Nat.min_eq_left (by omega), ← List.append_assoc,
      List.take_append_of_le_length hlen.ge, List.take_of_length_le hlen.le] at hall
    exact hall

theorem putPieces_eq {pieces : List Text} (hbuf : buf.length = bufSize) (h : of + pieces.flatten.length < bufSize) :
    ∃ buf' : List Char, putPieces buf of pieces = some (buf', ((of + pieces.flatten.length : Nat) : Int)) ∧
      buf'.length = bufSize ∧
      buf'.take (of + pieces.flatten.length) = buf.take of ++ pieces.flatten := by
  induction pieces generalizing buf of with
  | nil => exact ⟨buf, rfl, hbuf, (List.append_nil _).symm⟩
  | cons piece pieces ih =>
    rw [List.flatten_cons, List.length_append, ← Nat.add_assoc] at h ⊢
    have hfit : of + piece.length < bufSize := by omega
    obtain ⟨buf₁, hput, hbuf₁, htake₁⟩ := putPieces_cons hbuf hfit pieces
    obtain ⟨buf₂, hrest, hbuf₂, htake₂⟩ := ih hbuf₁ h
    refine ⟨buf₂, hput.trans hrest, hbuf₂, ?_⟩
    rw [htake₂, htake₁, List.append_assoc]

/-- The two parts of a line. -/
theorem rdputs0_parts {s : State} {pieces : List Text} (buf : List.Vector Char bufSize) {severity : Int} {now : Nat}
    {func name : Text} {line : Int} (hsev : severity ≤ s.severity) (hctx : ctxPieces s = some pieces) (msg : Text) :
    rdputs0 s buf now func line name severity msg =
      (putPieces buf.1 0 (header now func line name :: pieces)).bind fun q => (putMessage q.1 q.2 msg).map some := by
  rw [rdputs0, if_neg (not_lt.2 hsev), hctx]
  simp only [Option.bind_eq_bind, Option.bind_some]
  generalize putPieces buf.1 0 (header now func line name :: pieces) = result
  cases result with
  | none => rfl
  | some q =>
    simp only [Option.bind_some]
    cases putMessage q.1 q.2 msg <;> rfl

/-- **A line**: after a header of fewer than 4096 bytes the rest is the message, at its offset. -/
theorem rdputs0_eq {s : State} {pieces : List Text} (buf : List.Vector Char bufSize) {severity : Int} {now : Nat}
    {func name : Text} {line : Int} (hsev : severity ≤ s.severity) (hctx : ctxPieces s = some pieces)
    (hlen : (header now func line name ++ pieces.flatten).length < bufSize) :
    ∃ buf' : List Char, buf'.length = bufSize ∧
      buf'.take (header now func line name ++ pieces.flatten).length = header now func line name ++ pieces.flatten ∧
      ∀ msg, rdputs0 s buf now func line name severity msg =
        (putMessage buf' (header now func line name ++ pieces.flatten).length msg).map some := by
  have hfit : 0 + (header now func line name :: pieces).flatten.length < bufSize := by
    rwa [List.flatten_cons, Nat.zero_add]
  obtain ⟨buf', hput, hbuf', htake⟩ := putPieces_eq buf.2 hfit
  rw [List.flatten_cons, Nat.zero_add] at hput htake
  refine ⟨buf', hbuf', htake, fun msg => ?_⟩
  rw [rdputs0_parts buf hsev hctx, ← Int.natCast_zero, hput, Option.bind_some]

end Header

/-- **The end of the buffer.** After a header of fewer than 4096 bytes, a message is written and passed on with a
newline if and only if it is not as long as the rest of the buffer, and not one character shorter. -/
theorem putMessage_safe_iff {buf : List Char} (hbuf : buf.length = bufSize) {of : Nat}
    (hof : of < bufSize) (msg : Text) :
    Safe (putMessage buf of msg) ↔ of + msg.length ≠ bufSize - 1 ∧ of + msg.length ≠ bufSize := by
  have hsize : bufSize = 4096 := rfl
  rcases Nat.lt_or_ge bufSize (of + msg.length) with hcut | hle
  · refine iff_of_true ⟨_, putMessage_cut hbuf hof hcut, ?_⟩ ⟨by omega, by omega⟩
    rw [List.getLast?_append]
    rfl
  · rcases Nat.lt_or_ge (of + msg.length + 1) bufSize with hfits | hfull
    · refine iff_of_true ⟨_, putMessage_fits hbuf hfits, ?_⟩ ⟨by omega, by omega⟩
      rw [List.getLast?_append]
      rfl
    · refine iff_of_false ?_ (by omega)
      rw [putMessage_full hbuf hof hle hfull]
      rintro ⟨text, htext, -⟩
      cases htext

/-- A header of 20 bytes and a message of two. -/
theorem putMessage_safe_short : Safe (putMessage (List.replicate bufSize nul) (20 : Nat) ['o', 'k']) :=
  (putMessage_safe_iff List.length_replicate (by decide) ['o', 'k']).2 (by decide)

/-- A header of 20 bytes and a message of 4075: with the newline it fills the buffer. -/
theorem putMessage_unsafe :
    ¬Safe (putMessage (List.replicate bufSize nul) (20 : Nat) (List.replicate 4075 'x')) := by
  rw [putMessage_full List.length_replicate (by decide) (by rw [List.length_replicate]; decide)
    (by rw [List.length_replicate]; decide)]
  rintro ⟨text, htext, -⟩
  cases htext

end Librd.Log
