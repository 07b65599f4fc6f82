import Gopherize.Core.Shown
import Gopherize.Html.Token

/-! The buffer of the tokenizer does not show. Bytes that are gone, buffered or still with the
reader are one input, and a token is a range of it. -/
namespace Gopherize.Html
open GoCore

/-- A reader that does not return nothing, without an error, a hundred times in a row. -/
def Reader.Steady (r : Reader) : Prop := ∀ k, ∃ j < 100, r.sizes[k + j]? ≠ some 0

/-- What a read that finds bytes returns. -/
structure Reader.Gives (r : Reader) (room : Nat) (b : Bytes) (err : Option Err) (after : Reader) :
    Prop where
  some_bytes : b ≠ []
  fits : b.length ≤ room
  rest : r.rest = b ++ after.rest
  final : after.final = r.final
  steady : after.Steady
  err : err = none ∨ err = some r.final ∧ after.rest = []

theorem Reader.Steady.tail {r : Reader} (steady : r.Steady) (rest : Bytes) :
    Reader.Steady { r with rest := rest, sizes := r.sizes.tail } := by
  intro k
  obtain ⟨j, bound, gives⟩ := steady (k + 1)
  refine ⟨j, bound, ?_⟩
  rw [List.getElem?_tail]
  rwa [show k + 1 + j = k + j + 1 by omega] at gives

theorem readAtLeastOneByte_over {r : Reader} (past : r.rest = []) {tries : Nat} (room : Nat)
    (positive : 0 < tries) : readAtLeastOneByte r room tries = ([], some r.final, r) := by
  cases tries with
  | zero => omega
  | succ tries => simp [readAtLeastOneByte, Reader.read, past]

/-- How many bytes the next read returns is zero only if the reader says so. -/
theorem Reader.size_eq_zero {r : Reader} {room : Nat} (more : r.rest ≠ []) (positive : 0 < room) :
    min room (r.sizes.headD r.rest.length) = 0 ↔ r.sizes[0]? = some 0 := by
  cases sizes : r.sizes with
  | nil => simp [more]; omega
  | cons n ns => simp; omega

theorem readAtLeastOneByte_gives {r : Reader} {tries : Nat} (room : Nat) (more : r.rest ≠ [])
    (positive : 0 < room) (steady : r.Steady) (gives : ∃ j < tries, r.sizes[j]? ≠ some 0) :
    ∃ b err after, readAtLeastOneByte r room tries = (b, err, after) ∧ r.Gives room b err after := by
  induction tries generalizing r with
  | zero => simp at gives
  | succ tries ih =>
    have size := r.size_eq_zero more positive
    have fits : min room (r.sizes.headD r.rest.length) ≤ room := Nat.min_le_left _ _
    simp only [readAtLeastOneByte, Reader.read, if_neg more]
    generalize min room (r.sizes.headD r.rest.length) = n at size fits
    by_cases nothing : n = 0
    · -- the read returns no bytes and no error, so the loop goes on
      obtain ⟨j, bound, other⟩ := gives
      cases j with
      | zero => exact absurd (size.mp nothing) other
      | succ j =>
        obtain ⟨b, err, after, same, given⟩ :=
          ih (r := { r with rest := r.rest, sizes := r.sizes.tail }) more (steady.tail _)
            ⟨j, by omega, by rwa [List.getElem?_tail]⟩
        refine ⟨b, err, after, ?_, given.some_bytes, given.fits, given.rest, given.final,
          given.steady, given.err⟩
        rw [if_neg (by simp [nothing, more]), nothing]
        exact same
    · have some_bytes : r.rest.take n ≠ [] := by simp [nothing, more]
      rw [if_pos (.inl some_bytes)]
      refine ⟨_, _, _, rfl, some_bytes, ?_, (List.take_append_drop n r.rest).symm, rfl,
        steady.tail _, ?_⟩
      · rw [List.length_take]
        omega
      · by_cases last : r.eager && r.rest.drop n = []
        · exact .inr ⟨if_pos last, by simp at last; simpa using last.2⟩
        · exact .inl (if_neg last)

/-- A tokenizer over the whole input: ranges count from its first byte. -/
structure Cursor where
  input : Bytes
  final : Err
  tt : TokenType
  err : Option Err
  raw : Span
  data : Span
  pendingAttr : Span × Span
  attr : List (Span × Span)
  rawTag : Bytes
  textIsRaw : Bool
  convertNUL : Bool
  allowCDATA : Bool

/-- The cursor of a tokenizer whose buffer has lost the bytes `gone`. -/
def Tokenizer.cursor (gone : Bytes) (z : Tokenizer) : Cursor where
  input := gone ++ z.buf ++ z.r.rest
  final := z.r.final
  tt := z.tt
  err := z.err
  raw := z.raw.sub (-gone.length)
  data := z.data.sub (-gone.length)
  pendingAttr := (z.pendingAttr.1.sub (-gone.length), z.pendingAttr.2.sub (-gone.length))
  attr := z.attr.map fun a => (a.1.sub (-gone.length), a.2.sub (-gone.length))
  rawTag := z.rawTag
  textIsRaw := z.textIsRaw
  convertNUL := z.convertNUL
  allowCDATA := z.allowCDATA

/-- The current token lies in the buffer, and an error of the reader comes after its last byte. -/
structure Tokenizer.Valid (z : Tokenizer) : Prop where
  unlimited : z.maxBuf = 0
  lower : 0 ≤ z.raw.start
  order : z.raw.start ≤ z.raw.stop
  upper : z.raw.stop ≤ z.buf.length
  room : 0 < z.cap ∧ z.buf.length ≤ z.cap
  reader : z.readErr = none ∧ z.r.Steady ∨ z.readErr = some z.r.final ∧ z.r.rest = []

def Shows (z : Tokenizer) (v : Cursor) : Prop := ∃ gone, z.cursor gone = v ∧ z.Valid

namespace Cursor

/-- Move to a position. -/
def seek (v : Cursor) (n : Int) (e : Option Err) : Cursor :=
  { v with raw := ⟨v.raw.start, n⟩, err := e }

@[simp] theorem seek_seek (v : Cursor) : (v.seek n e).seek m f = v.seek m f := rfl
@[simp] theorem seek_input (v : Cursor) : (v.seek n e).input = v.input := rfl
@[simp] theorem seek_final (v : Cursor) : (v.seek n e).final = v.final := rfl
@[simp] theorem seek_err (v : Cursor) : (v.seek n e).err = e := rfl
@[simp] theorem seek_raw (v : Cursor) : (v.seek n e).raw = ⟨v.raw.start, n⟩ := rfl
@[simp] theorem seek_data (v : Cursor) : (v.seek n e).data = v.data := rfl
@[simp] theorem seek_rawTag (v : Cursor) : (v.seek n e).rawTag = v.rawTag := rfl
@[simp] theorem seek_pendingAttr (v : Cursor) : (v.seek n e).pendingAttr = v.pendingAttr := rfl
@[simp] theorem seek_attr (v : Cursor) : (v.seek n e).attr = v.attr := rfl

def setData (v : Cursor) (s : Span) : Cursor := { v with data := s }

def setPending (v : Cursor) (a : Span × Span) : Cursor := { v with pendingAttr := a }

@[simp] theorem setData_input (v : Cursor) : (v.setData s).input = v.input := rfl
@[simp] theorem setData_final (v : Cursor) : (v.setData s).final = v.final := rfl
@[simp] theorem setData_err (v : Cursor) : (v.setData s).err = v.err := rfl
@[simp] theorem setData_raw (v : Cursor) : (v.setData s).raw = v.raw := rfl
@[simp] theorem setData_data (v : Cursor) : (v.setData s).data = s := rfl
@[simp] theorem setPending_input (v : Cursor) : (v.setPending a).input = v.input := rfl
@[simp] theorem setPending_final (v : Cursor) : (v.setPending a).final = v.final := rfl
@[simp] theorem setPending_err (v : Cursor) : (v.setPending a).err = v.err := rfl
@[simp] theorem setPending_raw (v : Cursor) : (v.setPending a).raw = v.raw := rfl
@[simp] theorem setPending_pendingAttr (v : Cursor) : (v.setPending a).pendingAttr = a := rfl

/-- The byte at a position. -/
def peek (v : Cursor) (i : Int) : UInt8 := v.input.getD i.toNat 0

@[simp] theorem seek_peek (v : Cursor) : (v.seek n e).peek i = v.peek i := rfl
@[simp] theorem setData_peek (v : Cursor) : (v.setData s).peek i = v.peek i := rfl
@[simp] theorem setPending_peek (v : Cursor) : (v.setPending a).peek i = v.peek i := rfl

/-- The bytes of a range. -/
def cut (v : Cursor) (s : Span) : Bytes := (v.input.take s.stop.toNat).drop s.start.toNat

end Cursor

variable {v w u : Cursor} {z : Tokenizer}

theorem slice_eq {buf : Bytes} {s : Span} (lower : 0 ≤ s.start) (order : s.start ≤ s.stop)
    (upper : s.stop ≤ buf.length) :
    slice buf s = .ok ((buf.take s.stop.toNat).drop s.start.toNat) :=
  if_pos ⟨lower, order, upper⟩

theorem sub_sub_neg (s : Span) (x : Int) (gone dropped : Bytes) (length : (dropped.length : Int) = x) :
    (s.sub x).sub (-(gone ++ dropped).length) = s.sub (-gone.length) := by
  simp only [Span.sub, List.length_append, Span.mk.injEq]
  omega

/-- Moving the current token to the front and reading more bytes does not show. -/
theorem cursor_moveToFront {r : Reader} {more : Bytes} (gone : Bytes) (valid : z.Valid)
    (full : z.raw.stop = z.buf.length) (rest : z.r.rest = more ++ r.rest) (final : r.final = z.r.final)
    (readErr : Option Err) (cap : Nat) :
    Tokenizer.cursor (gone ++ z.buf.take z.raw.start.toNat)
      { moveToFront z (z.buf.drop z.raw.start.toNat) more with
        r := r, readErr := readErr, cap := cap } = z.cursor gone := by
  have lower := valid.lower
  have order := valid.order
  have dropped : ((z.buf.take z.raw.start.toNat).length : Int) = z.raw.start := by
    rw [List.length_take]
    omega
  have raw : (⟨0, (z.buf.drop z.raw.start.toNat).length⟩ : Span) = z.raw.sub z.raw.start := by
    simp only [Span.sub, List.length_drop, Span.mk.injEq]
    omega
  simp only [Tokenizer.cursor, moveToFront, raw, List.map_map, Function.comp_def,
    sub_sub_neg _ _ gone _ dropped, final, rest, List.append_assoc,
    List.append_cancel_left_eq, Cursor.mk.injEq, and_true]
  rw [← List.append_assoc, List.take_append_drop]

theorem Tokenizer.Valid.room_left (valid : z.Valid) {n cap : Nat} (fits : n ≤ z.buf.length)
    (grown : cap = if 2 * n > z.cap then 2 * z.cap else z.cap) : n < cap := by
  obtain ⟨positive, room⟩ := valid.room
  subst grown
  split <;> omega

theorem fill_more (shown : Shows z v) (empty : z.buf.length ≤ z.raw.stop)
    (more : v.raw.stop < v.input.length) :
    ∃ z', fill z = .ok (true, z') ∧ Shows z' v ∧ z'.raw.stop < z'.buf.length := by
  obtain ⟨gone, rfl, valid⟩ := shown
  have full : z.raw.stop = z.buf.length := Int.le_antisymm valid.upper empty
  have left : z.r.rest ≠ [] := by
    intro past
    simp [Tokenizer.cursor, Span.sub, past] at more
    omega
  obtain ⟨unread, steady⟩ | ⟨-, past⟩ := valid.reader
  · have lower := valid.lower
    have order := valid.order
    have live : slice z.buf z.raw = .ok (z.buf.drop z.raw.start.toNat) := by
      rw [slice_eq valid.lower valid.order valid.upper, full, Int.toNat_natCast, List.take_length]
    generalize grown : (if 2 * (z.buf.drop z.raw.start.toNat).length > z.cap then 2 * z.cap else z.cap)
      = cap
    have room := valid.room_left (n := (z.buf.drop z.raw.start.toNat).length) (by simp) grown.symm
    obtain ⟨b, err, after, read, given⟩ :=
      readAtLeastOneByte_gives (cap - (z.buf.drop z.raw.start.toNat).length) left (by omega) steady
        (steady 0 |>.imp fun j => And.imp_right (by rw [Nat.zero_add]; exact id))
    have fits := given.fits
    refine ⟨_, ?_, ⟨_, cursor_moveToFront gone valid full given.rest given.final err cap, ?_⟩, ?_⟩
    · simp only [fill, unread, live, Fault.ok_bind, grown, read, given.some_bytes, if_false,
        Fault.pure_eq_ok]
    · constructor
      · exact valid.unlimited
      · exact Int.le_refl 0
      · exact Int.natCast_nonneg _
      · simp only [moveToFront, List.length_append]
        omega
      · simp only [moveToFront, List.length_append]
        omega
      · obtain rfl | ⟨rfl, past⟩ := given.err
        · exact .inl ⟨rfl, given.steady⟩
        · exact .inr ⟨by simp only [given.final], past⟩
    · have := List.length_pos_of_ne_nil given.some_bytes
      simp only [moveToFront, List.length_append]
      omega
  · exact absurd past left

theorem fill_over (shown : Shows z v) (empty : z.buf.length ≤ z.raw.stop)
    (past : v.raw.stop = v.input.length) :
    ∃ z', fill z = .ok (false, z') ∧ Shows z' (v.seek v.raw.stop (some v.final)) := by
  obtain ⟨gone, rfl, valid⟩ := shown
  have full : z.raw.stop = z.buf.length := Int.le_antisymm valid.upper empty
  have nothing : z.r.rest = [] := by
    simp only [Tokenizer.cursor, Span.sub, List.length_append, full] at past
    exact List.eq_nil_of_length_eq_zero (by omega)
  obtain ⟨unread, steady⟩ | ⟨ended, -⟩ := valid.reader
  · have lower := valid.lower
    have order := valid.order
    have live : slice z.buf z.raw = .ok (z.buf.drop z.raw.start.toNat) := by
      rw [slice_eq valid.lower valid.order valid.upper, full, Int.toNat_natCast, List.take_length]
    generalize grown : (if 2 * (z.buf.drop z.raw.start.toNat).length > z.cap then 2 * z.cap else z.cap)
      = cap
    have room := valid.room_left (n := (z.buf.drop z.raw.start.toNat).length) (by simp) grown.symm
    have same := cursor_moveToFront gone valid full (show z.r.rest = [] ++ z.r.rest from rfl) rfl
      (some z.r.final) cap
    refine ⟨{ moveToFront z (z.buf.drop z.raw.start.toNat) [] with
      readErr := some z.r.final, cap := cap, err := some z.r.final }, ?_,
      gone ++ z.buf.take z.raw.start.toNat, ?_, ?_⟩
    · simp only [fill, unread, live, Fault.ok_bind, grown, readAtLeastOneByte_over nothing,
        Nat.zero_lt_succ, if_true, Fault.pure_eq_ok]
      rfl
    · exact congrArg (fun v => v.seek v.raw.stop (some z.r.final)) same
    · constructor
      · exact valid.unlimited
      · exact Int.le_refl 0
      · exact Int.natCast_nonneg _
      · simp [moveToFront]
      · simp only [moveToFront, List.append_nil]
        omega
      · exact .inr ⟨rfl, nothing⟩
  · refine ⟨{ z with err := some z.r.final }, ?_, gone, rfl, ?_⟩
    · simp [fill, ended]
    · exact ⟨valid.unlimited, valid.lower, valid.order, valid.upper, valid.room, valid.reader⟩

/-- A byte of the buffer is a byte of the input. -/
theorem byteAt_eq {i : Int} (gone : Bytes) (lower : 0 ≤ i) (upper : i < z.buf.length) :
    byteAt z.buf i = .ok ((z.cursor gone).peek (i + gone.length)) := by
  have position : (i + gone.length).toNat = gone.length + i.toNat := by omega
  have inside : i.toNat < z.buf.length := by omega
  have found : (gone ++ z.buf ++ z.r.rest)[gone.length + i.toNat]? = some z.buf[i.toNat] := by
    rw [List.append_assoc, List.getElem?_append_right (Nat.le_add_right _ _),
      Nat.add_sub_cancel_left, List.getElem?_append_left inside, List.getElem?_eq_getElem inside]
  simp [byteAt, lower, inside, Cursor.peek, Tokenizer.cursor, position, found, -List.append_assoc]

/-- Bytes of the buffer are bytes of the input. -/
theorem slice_cut {s : Span} (gone : Bytes) (lower : 0 ≤ s.start) (order : s.start ≤ s.stop)
    (upper : s.stop ≤ z.buf.length) :
    slice z.buf s = .ok ((z.cursor gone).cut (s.sub (-gone.length))) := by
  have start : (s.start - -(gone.length : Int)).toNat = gone.length + s.start.toNat := by omega
  have stop : (s.stop - -(gone.length : Int)).toNat = gone.length + s.stop.toNat := by omega
  rw [slice_eq lower order upper]
  simp only [Cursor.cut, Tokenizer.cursor, Span.sub, start, stop, List.append_assoc,
    List.take_length_add_append, List.drop_length_add_append]
  rw [List.take_append_of_le_length (by omega)]

theorem takeByte_eq (shown : Shows z v) (more : z.raw.stop < z.buf.length) :
    ∃ z', takeByte z = .ok (v.peek v.raw.stop, z') ∧ Shows z' (v.seek (v.raw.stop + 1) v.err) := by
  obtain ⟨gone, rfl, valid⟩ := shown
  have lower := valid.lower
  have order := valid.order
  refine ⟨{ z with raw := ⟨z.raw.start, z.raw.stop + 1⟩ }, ?_, gone, ?_, ?_⟩
  · rw [takeByte, byteAt_eq gone (Int.le_trans lower order) more]
    simp [valid.unlimited, Tokenizer.cursor, Span.sub]
  · simp only [Tokenizer.cursor, Cursor.seek, Span.sub, Cursor.mk.injEq, Span.mk.injEq, and_true,
      true_and]
    omega
  · exact ⟨valid.unlimited, valid.lower, by simp only; omega, by simp only; omega, valid.room,
      valid.reader⟩

theorem readByte_more (shown : Shows z v) (more : v.raw.stop < v.input.length) :
    ∃ z', readByte z = .ok (v.peek v.raw.stop, z') ∧ Shows z' (v.seek (v.raw.stop + 1) v.err) := by
  by_cases empty : (z.buf.length : Int) ≤ z.raw.stop
  · obtain ⟨full, filled, shown, available⟩ := fill_more shown empty more
    obtain ⟨z', taken, shown'⟩ := takeByte_eq shown available
    exact ⟨z', by simp [readByte, empty, filled, taken], shown'⟩
  · obtain ⟨z', taken, shown'⟩ := takeByte_eq shown (by omega)
    exact ⟨z', by simp [readByte, empty, taken], shown'⟩

theorem readByte_over (shown : Shows z v) (past : v.raw.stop = v.input.length) :
    ∃ z', readByte z = .ok (0, z') ∧ Shows z' (v.seek v.raw.stop (some v.final)) := by
  have empty : (z.buf.length : Int) ≤ z.raw.stop := by
    obtain ⟨gone, rfl, -⟩ := shown
    simp only [Tokenizer.cursor, Span.sub, List.length_append] at past
    omega
  obtain ⟨z', filled, shown'⟩ := fill_over shown empty past
  exact ⟨z', by simp [readByte, empty, filled], shown'⟩

/-- The position is in the input, and an error is the reader's at the end of it. -/
structure Cursor.Sound (v : Cursor) : Prop where
  lower : 0 ≤ v.raw.start
  order : v.raw.start ≤ v.raw.stop
  upper : v.raw.stop ≤ v.input.length
  ended : v.err = none ∨ v.err = some v.final ∧ v.raw.stop = v.input.length

/-- A position further on. -/
structure Cursor.Reaches (v : Cursor) (n : Int) (e : Option Err) : Prop where
  forward : v.raw.stop ≤ n
  upper : n ≤ v.input.length
  ended : e = none ∨ e = some v.final ∧ n = v.input.length

/-- The cursor has moved on, and nothing else has changed. -/
def Cursor.Ahead (v w : Cursor) : Prop := ∃ n e, w = v.seek n e ∧ v.Reaches n e

theorem Cursor.Sound.seek (sound : v.Sound) (reaches : v.Reaches n e) : (v.seek n e).Sound :=
  ⟨sound.lower, Int.le_trans sound.order reaches.forward, reaches.upper, reaches.ended⟩

theorem Cursor.reaches_next (more : v.raw.stop < v.input.length) :
    v.Reaches (v.raw.stop + 1) none :=
  ⟨by omega, by omega, .inl rfl⟩

theorem Cursor.reaches_here (more : v.raw.stop < v.input.length) : v.Reaches v.raw.stop none :=
  ⟨by omega, by omega, .inl rfl⟩

theorem Cursor.Sound.stay (sound : v.Sound) : v.Reaches v.raw.stop v.err :=
  ⟨Int.le_refl _, sound.upper, sound.ended⟩

theorem Cursor.Sound.past (sound : v.Sound) (past : v.raw.stop = v.input.length) :
    v.Reaches v.raw.stop (some v.final) :=
  ⟨Int.le_refl _, sound.upper, .inr ⟨rfl, past⟩⟩

theorem Cursor.Sound.over_of_err (sound : v.Sound) (failed : v.err ≠ none) :
    v.raw.stop = v.input.length := by
  obtain fresh | ⟨-, last⟩ := sound.ended
  · exact absurd fresh failed
  · exact last

theorem Cursor.Reaches.trans (first : v.Reaches n e) (second : (v.seek n e).Reaches m f) :
    v.Reaches m f :=
  ⟨Int.le_trans first.forward second.forward, second.upper, second.ended⟩

theorem Cursor.Reaches.ahead (first : v.Reaches n e) (second : (v.seek n e).Ahead w) :
    v.Ahead w := by
  obtain ⟨m, f, rfl, reaches⟩ := second
  exact ⟨m, f, rfl, first.trans reaches⟩

/-- The position moves on in the same token; data and attributes may change. -/
structure Cursor.Moves (v w : Cursor) : Prop where
  input : w.input = v.input
  final : w.final = v.final
  start : w.raw.start = v.raw.start
  forward : v.raw.stop ≤ w.raw.stop
  upper : w.raw.stop ≤ v.input.length
  ended : w.err = none ∨ w.err = some v.final ∧ w.raw.stop = v.input.length

theorem Cursor.Moves.sound (moves : v.Moves w) (sound : v.Sound) : w.Sound where
  lower := moves.start ▸ sound.lower
  order := moves.start ▸ Int.le_trans sound.order moves.forward
  upper := moves.input ▸ moves.upper
  ended := by
    rw [moves.input, moves.final]
    exact moves.ended

theorem Cursor.Moves.trans (first : v.Moves w) (second : w.Moves u) : v.Moves u where
  input := second.input.trans first.input
  final := second.final.trans first.final
  start := second.start.trans first.start
  forward := Int.le_trans first.forward second.forward
  upper := first.input ▸ second.upper
  ended := by
    have ended := second.ended
    rwa [first.input, first.final] at ended

theorem Cursor.Reaches.moves (reaches : v.Reaches n e) : v.Moves (v.seek n e) :=
  ⟨rfl, rfl, rfl, reaches.forward, reaches.upper, reaches.ended⟩

section Rules
variable {α : Type} {post : α → Cursor → Prop} {done : Unit → Cursor → Prop}

theorem failed_runs {post : Bool → Cursor → Prop} (holds : post v.err.isSome v) :
    Runs Shows failed v post := by
  refine Runs.read (p := pure v.err.isSome) ?_ (.done holds)
  rintro z ⟨gone, rfl, -⟩
  rfl

/-- Go on unless there was an error. -/
theorem check_runs {past rest : Scan α} (ended : v.err ≠ none → Runs Shows past v post)
    (fresh : v.err = none → Runs Shows rest v post) :
    Runs Shows (do if ← failed then past else rest) v post := by
  have check : Runs Shows failed v fun b w => b = v.err.isSome ∧ w = v := failed_runs ⟨rfl, rfl⟩
  refine check.bind ?_
  rintro _ _ ⟨rfl, rfl⟩
  split
  · rename_i some
    exact ended (Option.isSome_iff_ne_none.mp some)
  · rename_i none
    exact fresh (by simpa using none)

theorem readByte_runs (sound : v.Sound) : Runs Shows readByte v fun c w =>
    v.raw.stop < v.input.length ∧ c = v.peek v.raw.stop ∧ w = v.seek (v.raw.stop + 1) none ∨
      v.raw.stop = v.input.length ∧ w = v.seek v.raw.stop (some v.final) := by
  by_cases left : v.raw.stop < v.input.length
  · have fresh : v.err = none := by
      obtain fresh | ⟨-, last⟩ := sound.ended
      · exact fresh
      · omega
    exact ⟨_, _, .inl ⟨left, rfl, rfl⟩, fun z shown => fresh ▸ readByte_more shown left⟩
  · have last : v.raw.stop = v.input.length := Int.le_antisymm sound.upper (by omega)
    exact ⟨_, _, .inr ⟨last, rfl⟩, fun z shown => readByte_over shown last⟩

/-- Read a byte, and go on from it unless the input is over. -/
theorem byte_runs {past : Scan α} {rest : UInt8 → Scan α} (sound : v.Sound)
    (ended : v.raw.stop = v.input.length →
      Runs Shows past (v.seek v.raw.stop (some v.final)) post)
    (more : v.raw.stop < v.input.length →
      Runs Shows (rest (v.peek v.raw.stop)) (v.seek (v.raw.stop + 1) none) post) :
    Runs Shows (do let c ← readByte; if ← failed then past else rest c) v post := by
  refine (readByte_runs sound).bind ?_
  rintro _ _ (⟨left, rfl, rfl⟩ | ⟨last, rfl⟩)
  · exact check_runs (fun some => absurd rfl some) fun _ => more left
  · exact check_runs (fun _ => ended last) nofun

theorem startAt_sub (s t : Span) (n x : Int) :
    (s.startAt (t.stop - n)).sub x = (s.sub x).startAt ((t.sub x).stop - n) := by
  simp only [Span.sub, Span.startAt, Span.mk.injEq, and_true]
  omega

theorem stopAt_sub (s t : Span) (n x : Int) :
    (s.stopAt (t.stop - n)).sub x = (s.sub x).stopAt ((t.sub x).stop - n) := by
  simp only [Span.sub, Span.stopAt, Span.mk.injEq, true_and]
  omega

/-- An update that the cursor follows. -/
theorem update_runs {g : Tokenizer → Tokenizer} (follow : Cursor → Cursor)
    (shown : ∀ gone z, (g z).cursor gone = follow (z.cursor gone))
    (valid : ∀ z, z.Valid → (g z).Valid) (holds : done () (follow v)) :
    Runs Shows (modify g : Scan Unit) v done :=
  Runs.update (fun z ⟨gone, same, ok⟩ => ⟨gone, by rw [shown, same], valid z ok⟩) holds

theorem back_runs {n : Int} (forth : 0 ≤ n) (lower : v.raw.start ≤ v.raw.stop - n)
    (holds : done () (v.seek (v.raw.stop - n) v.err)) : Runs Shows (back n) v done := by
  refine Runs.update ?_ holds
  rintro z ⟨gone, rfl, valid⟩
  have upper : z.raw.stop - n ≤ z.buf.length := Int.le_trans (by omega) valid.upper
  have order : z.raw.start ≤ z.raw.stop - n := by
    simp only [Tokenizer.cursor, Span.sub] at lower
    omega
  refine ⟨gone, ?_, valid.unlimited, valid.lower, order, upper, valid.room, valid.reader⟩
  simp only [Tokenizer.cursor, stopAt_sub]
  rfl

/-- Go back to where the data starts. -/
theorem rewind_runs (lower : v.raw.start ≤ v.data.start) (upper : v.data.start ≤ v.raw.stop)
    (holds : done () (v.seek v.data.start v.err)) :
    Runs Shows (modify fun z => { z with raw := z.raw.stopAt z.data.start } : Scan Unit) v done := by
  refine Runs.update ?_ holds
  rintro z ⟨gone, rfl, valid⟩
  have limit := valid.upper
  simp only [Tokenizer.cursor, Span.sub] at lower upper
  exact ⟨gone, rfl, valid.unlimited, valid.lower, by simp only [Span.stopAt]; omega,
    by simp only [Span.stopAt]; omega, valid.room, valid.reader⟩

/-- Give back bytes from a known position. -/
theorem seek_back_runs {n k : Int} (forth : 0 ≤ k) (lower : v.raw.start ≤ n - k)
    (holds : done () (v.seek (n - k) e)) : Runs Shows (back k) (v.seek n e) done :=
  back_runs forth lower holds

/-- Give back the byte that was just read. -/
theorem unread_runs (sound : v.Sound) (holds : done () (v.seek v.raw.stop none)) :
    Runs Shows (back 1) (v.seek (v.raw.stop + 1) none) done := by
  have order := sound.order
  refine seek_back_runs (by omega) (by omega) ?_
  rwa [show v.raw.stop + 1 - 1 = v.raw.stop by omega]

theorem dataStart_runs {n : Int} (holds : done () (v.setData (v.data.startAt (v.raw.stop - n)))) :
    Runs Shows (dataStart n) v done :=
  update_runs (fun v => v.setData (v.data.startAt (v.raw.stop - n)))
    (fun gone z => by simp only [Tokenizer.cursor, Cursor.setData, startAt_sub])
    (fun z h => ⟨h.1, h.2, h.3, h.4, h.5, h.6⟩) holds

theorem dataEnd_runs {n : Int} (holds : done () (v.setData (v.data.stopAt (v.raw.stop - n)))) :
    Runs Shows (dataEnd n) v done :=
  update_runs (fun v => v.setData (v.data.stopAt (v.raw.stop - n)))
    (fun gone z => by simp only [Tokenizer.cursor, Cursor.setData, stopAt_sub])
    (fun z h => ⟨h.1, h.2, h.3, h.4, h.5, h.6⟩) holds

theorem keyStart_runs {n : Int} (holds : done () (v.setPending (v.pendingAttr.1.startAt (v.raw.stop - n), v.pendingAttr.2))) :
    Runs Shows (keyStart n) v done :=
  update_runs (fun v => v.setPending (v.pendingAttr.1.startAt (v.raw.stop - n), v.pendingAttr.2))
    (fun gone z => by simp only [Tokenizer.cursor, Cursor.setPending, startAt_sub])
    (fun z h => ⟨h.1, h.2, h.3, h.4, h.5, h.6⟩) holds

theorem keyEnd_runs {n : Int} (holds : done () (v.setPending (v.pendingAttr.1.stopAt (v.raw.stop - n), v.pendingAttr.2))) :
    Runs Shows (keyEnd n) v done :=
  update_runs (fun v => v.setPending (v.pendingAttr.1.stopAt (v.raw.stop - n), v.pendingAttr.2))
    (fun gone z => by simp only [Tokenizer.cursor, Cursor.setPending, stopAt_sub])
    (fun z h => ⟨h.1, h.2, h.3, h.4, h.5, h.6⟩) holds

theorem valStart_runs {n : Int} (holds : done () (v.setPending (v.pendingAttr.1, v.pendingAttr.2.startAt (v.raw.stop - n)))) :
    Runs Shows (valStart n) v done :=
  update_runs (fun v => v.setPending (v.pendingAttr.1, v.pendingAttr.2.startAt (v.raw.stop - n)))
    (fun gone z => by simp only [Tokenizer.cursor, Cursor.setPending, startAt_sub])
    (fun z h => ⟨h.1, h.2, h.3, h.4, h.5, h.6⟩) holds

theorem valEnd_runs {n : Int} (holds : done () (v.setPending (v.pendingAttr.1, v.pendingAttr.2.stopAt (v.raw.stop - n)))) :
    Runs Shows (valEnd n) v done :=
  update_runs (fun v => v.setPending (v.pendingAttr.1, v.pendingAttr.2.stopAt (v.raw.stop - n)))
    (fun gone z => by simp only [Tokenizer.cursor, Cursor.setPending, stopAt_sub])
    (fun z h => ⟨h.1, h.2, h.3, h.4, h.5, h.6⟩) holds

end Rules

end Gopherize.Html
