import Gopherize.Html.Escape

/-! `Text`, `TagName`, `TagAttr` and `Token` of html/token.go. They rewrite the buffer of the
tokenizer in place, and what they return are parts of it. The bytes behind the current token stay
as they are; so the tokens are those that are computed from bytes that are only read. -/
namespace Gopherize.Html
open GoCore InPlace

/-- A `Token`, without the atom that stands for its data, and with keys and values for its
attributes. -/
structure Token where
  type : TokenType
  data : Bytes
  attr : List (Bytes × Bytes)
  deriving DecidableEq, Repr

/-- `lower`, which works in place. -/
def lower (b : Bytes) : Except Fault (Bytes × Nat) := pure (b.map lowerByte, b.length)

/-- A function that works in place, called with a slice of the buffer; the result is the front of
that slice. -/
def inBuffer (f : Bytes → Except Fault (Bytes × Nat)) (s : Span) : Scan Span := fun z => do
  let (array, n) ← f (← slice z.buf s)
  pure (⟨s.start, s.start + n⟩, { z with buf := ← put z.buf s.start.toNat array })

/-- `bytes.Replace(s, nul, replacement, -1)`. -/
def replaceNUL (s : Bytes) : Bytes := s.flatMap fun c => if c = 0 then [0xef, 0xbf, 0xbd] else [c]

/-- `Text`, for a token that has a text. -/
def text (t : Entities) (fuel : Nat) : Scan Bytes := fun z => do
  let (s, z) ← inBuffer (convertNewlines fuel) z.data { z with data := ⟨z.raw.stop, z.raw.stop⟩ }
  let b ← slice z.buf s
  if (z.convertNUL || z.tt = .commentToken) && b.contains 0 then
    -- the replacement is a copy, and `unescape` works on that
    if z.textIsRaw then pure (replaceNUL b, z)
    else do
      let (array, n) ← unescape t false fuel (replaceNUL b)
      pure (array.take n, z)
  else if z.textIsRaw then pure (b, z)
  else do
    let (s, z) ← inBuffer (unescape t false fuel) s z
    pure (← slice z.buf s, z)

/-- `TagName`, for a tag: where the name is, and whether there are attributes. -/
def tagName : Scan (Span × Bool) := fun z =>
  if z.data.start < z.data.stop then do
    let (s, z) ← inBuffer lower z.data { z with data := ⟨z.raw.stop, z.raw.stop⟩ }
    pure ((s, z.attr ≠ []), z)
  else pure (({}, false), z)

/-- `TagAttr`, for an attribute of a start tag. -/
def tagAttr (t : Entities) (fuel : Nat) (x : Span × Span) : Scan (Bytes × Bytes) := fun z => do
  let (key, z) ← inBuffer lower x.1 z
  let (val, z) ← inBuffer (convertNewlines fuel) x.2 z
  let (val, z) ← inBuffer (unescape t true fuel) val z
  pure ((← slice z.buf key, ← slice z.buf val), z)

/-- The loop of `Token` over the attributes, with `nAttrReturned` as far as the loop is. `TagAttr`
gives none for an end tag, and says that there are no more. -/
def tagAttrs (t : Entities) (fuel : Nat) : List (Span × Span) → Scan (List (Bytes × Bytes))
  | [], z => pure ([], z)
  | x :: xs, z =>
    if z.tt = .endTagToken then pure ([([], [])], z)
    else do
      let (a, z) ← tagAttr t fuel x z
      let (as, z) ← tagAttrs t fuel xs z
      pure (a :: as, z)

def TokenType.hasText (t : TokenType) : Bool :=
  t = .textToken || t = .commentToken || t = .doctypeToken

/-- `Token`, after a call of `Next`. The name of a tag is read after the attributes. -/
def token (t : Entities) (fuel : Nat) : Scan Token := fun z =>
  if z.tt = .errorToken then pure (⟨z.tt, [], []⟩, z)
  else if z.tt.hasText then do
    let (data, z) ← text t fuel z
    pure (⟨z.tt, data, []⟩, z)
  else do
    let ((name, moreAttr), z) ← tagName z
    let (attr, z) ← tagAttrs t fuel (if moreAttr then z.attr else []) z
    pure (⟨z.tt, ← slice z.buf name, attr⟩, z)

/-- Calls of `Next` and `Token` up to the error token. -/
def tokens (t : Entities) (fuel : Nat) : Nat → Tokenizer → Except Fault (List Token)
  | 0, _ => throw .outOfFuel
  | n + 1, z => do
    let (type, z) ← next fuel z
    let (now, z) ← token t fuel z
    if type = .errorToken then pure [now] else do pure (now :: (← tokens t fuel n z))

/-- The text of a token. -/
def decodedText (t : Entities) (nul isRaw : Bool) (b : Bytes) : Bytes :=
  let s := if nul then replaceNUL (normalized b) else normalized b
  if isRaw then s else unescaped t false s

def decodedAttr (t : Entities) (a : Bytes × Bytes) : Bytes × Bytes :=
  (a.1.map lowerByte, unescaped t true (normalized a.2))

/-- The token that stands for the bytes of a token of the input. -/
def Lexeme.decoded (t : Entities) (convertNUL isRaw : Bool) (u : Lexeme) : Token :=
  if u.type = .errorToken then ⟨u.type, [], []⟩
  else if u.type.hasText then
    ⟨u.type, decodedText t (convertNUL || u.type = .commentToken) isRaw u.data, []⟩
  else ⟨u.type, u.data.map lowerByte, u.attr.map (decodedAttr t)⟩

/-- The current token, from bytes that are only read. -/
def decode (t : Entities) (z : Tokenizer) : Except Fault Token := do
  pure ((← current z).decoded t z.convertNUL z.textIsRaw)

variable {t : Entities} {z : Tokenizer} {fuel : Nat}

section Buffer

/-- The bytes of a range of the buffer. -/
def part (buf : Bytes) (s : Span) : Bytes := (buf.take s.stop.toNat).drop s.start.toNat

/-- A range that is in the buffer. -/
structure Span.In (s : Span) (buf : Bytes) : Prop where
  lower : 0 ≤ s.start
  order : s.start ≤ s.stop
  upper : s.stop ≤ buf.length

theorem Span.In.slice_eq {s : Span} {buf : Bytes} (inside : s.In buf) : slice buf s = .ok (part buf s) :=
  Html.slice_eq inside.lower inside.order inside.upper

theorem Span.In.part_length {s : Span} {buf : Bytes} (inside : s.In buf) :
    ((part buf s).length : Int) = s.stop - s.start := by
  have lower := inside.lower
  have order := inside.order
  have upper := inside.upper
  rw [part, List.length_drop, List.length_take]
  omega

/-- `f` works in place on slices of less than `size` bytes, and gives what `g` says. -/
def Rewrites (f : Bytes → Except Fault (Bytes × Nat)) (g : Bytes → Bytes) (size : Nat) : Prop :=
  ∀ b : Bytes, b.length < size → ∃ b' n, f b = .ok (b', n) ∧ b'.take n = g b ∧
    b'.length = b.length ∧ n ≤ b'.length

theorem lower_rewrites (size : Nat) : Rewrites lower (List.map lowerByte) size := by
  intro b _
  refine ⟨b.map lowerByte, b.length, rfl, ?_, List.length_map _, Nat.le_of_eq (List.length_map _).symm⟩
  rw [← List.length_map lowerByte, List.take_length]

theorem convertNewlines_rewrites (fuel : Nat) : Rewrites (convertNewlines fuel) normalized fuel :=
  fun b small => convertNewlines_sweeps b small

theorem unescape_rewrites (t : Entities) (inAttribute : Bool) (fuel : Nat) :
    Rewrites (unescape t inAttribute fuel) (unescaped t inAttribute) fuel :=
  fun b small => unescape_sweeps t inAttribute b (Nat.le_of_lt small)

/-- A range was rewritten; what was written stands at its front. -/
structure Rewritten (buf : Bytes) (s : Span) (new buf' : Bytes) (s' : Span) : Prop where
  within : Within s.start.toNat s.stop.toNat buf buf'
  start : s'.start = s.start
  stop : s'.stop ≤ s.stop
  inside : s'.In buf'
  part : part buf' s' = new

theorem inBuffer_eq {f : Bytes → Except Fault (Bytes × Nat)} {g : Bytes → Bytes} {size : Nat} {s : Span}
    (rewrites : Rewrites f g size) (inside : s.In z.buf) (small : s.stop - s.start < size) :
    ∃ buf s', inBuffer f s z = .ok (s', { z with buf := buf }) ∧
      Rewritten z.buf s (g (part z.buf s)) buf s' := by
  have length := inside.part_length
  obtain ⟨lower, order, upper⟩ := inside
  obtain ⟨array, n, ran, result, same, fits⟩ := rewrites (part z.buf s) (by omega)
  have room : s.start.toNat + array.length ≤ z.buf.length := by omega
  have stop : s.start.toNat + array.length = s.stop.toNat := by omega
  obtain ⟨buf, written, within, front⟩ := put_within room fits
  rw [stop] at within
  have whole := within.length
  refine ⟨buf, ⟨s.start, s.start + n⟩, ?_, within, rfl, ?_, ⟨lower, ?_, ?_⟩, ?_⟩
  · simp only [inBuffer, slice_eq lower order upper, Fault.ok_bind, Fault.pure_eq_ok]
    rw [show (z.buf.take s.stop.toNat).drop s.start.toNat = part z.buf s from rfl, ran, Fault.ok_bind,
      written]
    rfl
  · simp only
    omega
  · simp only
    omega
  · simp only
    omega
  · rw [part, show (s.start + n).toNat = s.start.toNat + n by omega, front, result]

/-- A range before the one that was rewritten. -/
theorem Rewritten.before {buf new buf' : Bytes} {s s' r : Span} (rewritten : Rewritten buf s new buf' s')
    (order : r.stop ≤ s.start) : Html.part buf' r = Html.part buf r :=
  rewritten.within.part_before (by omega)

/-- A range behind the one that was rewritten. -/
theorem Rewritten.behind {buf new buf' : Bytes} {s s' r : Span} (rewritten : Rewritten buf s new buf' s')
    (order : s.stop ≤ r.start) : Html.part buf' r = Html.part buf r :=
  rewritten.within.part_behind (by omega)

theorem Span.In.congr {buf buf' : Bytes} {s : Span} (inside : s.In buf)
    (length : buf'.length = buf.length) : s.In buf' :=
  ⟨inside.lower, inside.order, by rw [length]; exact inside.upper⟩

theorem Rewritten.shorter {buf new buf' : Bytes} {s s' : Span} (rewritten : Rewritten buf s new buf' s') :
    s'.stop - s'.start ≤ s.stop - s.start := by
  have start := rewritten.start
  have stop := rewritten.stop
  omega

end Buffer

theorem replaceNUL_plain {s : Bytes} (plain : 0 ∉ s) : replaceNUL s = s := by
  induction s with
  | nil => rfl
  | cons c cs ih =>
    simp only [List.mem_cons, not_or] at plain
    rw [replaceNUL, List.flatMap_cons, if_neg (Ne.symm plain.1)]
    exact congrArg (c :: ·) (ih plain.2)

theorem replaceNUL_length (s : Bytes) : (replaceNUL s).length ≤ 3 * s.length := by
  induction s with
  | nil => exact Nat.le_refl 0
  | cons c cs ih =>
    have first : (if c = 0 then [0xef, 0xbf, 0xbd] else [c] : Bytes).length ≤ 3 := by
      split <;> simp
    rw [replaceNUL, List.flatMap_cons, List.length_append, List.length_cons]
    change _ + (replaceNUL cs).length ≤ 3 * (cs.length + 1)
    omega

/-- `Text` gives the decoded text, and changes no bytes but its own. -/
theorem text_eq (t : Entities) (fuel : Nat) (inside : z.data.In z.buf)
    (enough : 3 * (z.data.stop - z.data.start) < fuel) :
    ∃ buf, text t fuel z =
        .ok (decodedText t (z.convertNUL || z.tt = .commentToken) z.textIsRaw (part z.buf z.data),
          { z with buf := buf, data := ⟨z.raw.stop, z.raw.stop⟩ }) ∧
      Within z.data.start.toNat z.data.stop.toNat z.buf buf := by
  have order := inside.order
  obtain ⟨buf, s, ran, rewritten⟩ := inBuffer_eq (z := { z with data := ⟨z.raw.stop, z.raw.stop⟩ })
    (convertNewlines_rewrites fuel) inside (by omega)
  have shorter := rewritten.shorter
  have length := rewritten.inside.part_length
  have start := rewritten.start
  simp only [text, ran, Fault.ok_bind, rewritten.inside.slice_eq, rewritten.part, Fault.pure_eq_ok]
  rw [rewritten.part] at length
  simp only at length
  -- without a NUL there is nothing to replace, and `unescape` goes on in the buffer
  have same (plain : ¬((z.convertNUL || z.tt = .commentToken) &&
      (normalized (part z.buf z.data)).contains 0) = true) :
      (if z.convertNUL || z.tt = .commentToken then replaceNUL (normalized (part z.buf z.data))
        else normalized (part z.buf z.data)) = normalized (part z.buf z.data) := by
    split
    · next nul =>
      rw [nul, Bool.true_and, List.contains_iff_mem] at plain
      exact replaceNUL_plain plain
    · rfl
  split_ifs with nul isRaw isRaw
  · refine ⟨buf, ?_, rewritten.within⟩
    rw [Bool.and_eq_true] at nul
    rw [decodedText, if_pos nul.1, if_pos isRaw]
  · have longer := replaceNUL_length (normalized (part z.buf z.data))
    have few : (replaceNUL (normalized (part z.buf z.data))).length ≤ fuel := by omega
    obtain ⟨array, n, done, result, -⟩ := unescape_sweeps t false _ few
    refine ⟨buf, ?_, rewritten.within⟩
    rw [Bool.and_eq_true] at nul
    rw [done, Fault.ok_bind, decodedText, if_pos nul.1, if_neg isRaw, result]
  · refine ⟨buf, ?_, rewritten.within⟩
    simp only [decodedText, same nul, if_pos isRaw]
  · obtain ⟨buf₁, s₁, done, again⟩ := inBuffer_eq
      (z := { z with buf := buf, data := ⟨z.raw.stop, z.raw.stop⟩ })
      (unescape_rewrites t false fuel) rewritten.inside (by omega)
    refine ⟨buf₁, ?_, rewritten.within.trans (again.within.mono ?_ ?_)⟩
    · simp only [done, Fault.ok_bind, again.inside.slice_eq, again.part, rewritten.part, decodedText,
        same nul, if_neg isRaw]
    · exact Nat.le_of_eq (congrArg Int.toNat start.symm)
    · have stop := rewritten.stop
      omega

/-- `TagAttr` gives the decoded attribute, and changes no bytes but its own. -/
theorem tagAttr_eq (t : Entities) (fuel : Nat) {x : Span × Span} (key : x.1.In z.buf) (val : x.2.In z.buf)
    (order : x.1.stop ≤ x.2.start) (enough : x.2.stop - x.1.start < fuel) :
    ∃ buf, tagAttr t fuel x z =
        .ok (decodedAttr t (part z.buf x.1, part z.buf x.2), { z with buf := buf }) ∧
      Within x.1.start.toNat x.2.stop.toNat z.buf buf := by
  have key_order := key.order
  have val_order := val.order
  obtain ⟨buf, k, lowered, first⟩ :=
    inBuffer_eq (z := z) (lower_rewrites fuel) key (by omega)
  obtain ⟨buf₁, s, converted, second⟩ := inBuffer_eq (z := { z with buf := buf })
    (convertNewlines_rewrites fuel) (val.congr first.within.length) (by omega)
  have start := second.start
  have stop := second.stop
  obtain ⟨buf₂, s₂, done, third⟩ := inBuffer_eq (z := { z with buf := buf₁ })
    (unescape_rewrites t true fuel) second.inside (by omega)
  have key_stop := first.stop
  -- the key is read when the value has been rewritten
  have kept : part buf₂ k = part buf k := by
    rw [third.before (by omega), second.before (by omega)]
  have inside := (first.inside.congr second.within.length).congr third.within.length
  refine ⟨buf₂, ?_, ?_⟩
  · simp only [tagAttr, lowered, converted, done, Fault.ok_bind, inside.slice_eq, third.inside.slice_eq,
      third.part, second.part, kept, first.part, first.behind order, decodedAttr, Fault.pure_eq_ok]
  · refine (first.within.mono (Nat.le_refl _) (by omega)).trans
      ((second.within.mono (by omega) (Nat.le_refl _)).trans (third.within.mono (by omega) (by omega)))

/-- The loop over the attributes: each is decoded as it stood before the loop. -/
theorem tagAttrs_eq (t : Entities) (fuel : Nat) {low high : Int} {xs : List (Span × Span)}
    (ordered : InOrder low xs high) (nonneg : 0 ≤ low) (upper : high ≤ z.buf.length) (bare : z.tt = .endTagToken → xs = [])
    (enough : high - low < fuel) :
    ∃ buf, tagAttrs t fuel xs z =
        .ok (xs.map fun x => decodedAttr t (part z.buf x.1, part z.buf x.2), { z with buf := buf }) ∧
      Within low.toNat high.toNat z.buf buf := by
  induction xs generalizing low z with
  | nil => exact ⟨z.buf, rfl, .refl _ _ _⟩
  | cons x xs ih =>
    obtain ⟨first, key, between, val, rest⟩ := ordered
    have last := rest.le
    have other : z.tt ≠ .endTagToken := fun closing => List.cons_ne_nil x xs (bare closing)
    obtain ⟨buf, ran, within⟩ := tagAttr_eq t fuel (z := z) (x := x) ⟨by omega, key, by omega⟩
      ⟨by omega, val, by omega⟩ between (by omega)
    have length := within.length
    obtain ⟨buf₁, looped, behind⟩ := ih (z := { z with buf := buf }) rest (by omega)
      (by simp only; omega) (fun closing => absurd closing other) (by omega)
    have same : (xs.map fun x => decodedAttr t (part buf x.1, part buf x.2)) =
        xs.map fun x => decodedAttr t (part z.buf x.1, part z.buf x.2) := by
      refine List.map_congr_left fun y mem => ?_
      obtain ⟨lower, -, order, -⟩ := rest.inside mem
      have inner := rest.inside mem
      have left : part buf y.1 = part z.buf y.1 := within.part_behind (by omega)
      have right : part buf y.2 = part z.buf y.2 := within.part_behind (by omega)
      rw [left, right]
    refine ⟨buf₁, ?_, (within.mono (by omega) (by omega)).trans (behind.mono (by omega) (Nat.le_refl _))⟩
    simp only [tagAttrs, if_neg other, ran, looped, Fault.ok_bind, Fault.pure_eq_ok, same, List.map_cons]

/-- The ranges of the current token are in the buffer, one after the other. -/
structure Tokenizer.Spans (z : Tokenizer) : Prop where
  lower : 0 ≤ z.raw.start
  data_lower : z.raw.start ≤ z.data.start
  data_order : z.data.start ≤ z.data.stop
  data_upper : z.data.stop ≤ z.raw.stop
  upper : z.raw.stop ≤ z.buf.length
  named : z.tt ≠ .errorToken → ¬z.tt.hasText → z.data.start < z.data.stop
  ordered : z.tt ≠ .errorToken → ¬z.tt.hasText → InOrder z.data.stop z.attr z.raw.stop
  bare : z.tt = .endTagToken → z.attr = []

theorem Tokenizer.Spans.data (spans : z.Spans) : z.data.In z.buf :=
  ⟨Int.le_trans spans.lower spans.data_lower, spans.data_order,
    Int.le_trans spans.data_upper spans.upper⟩

/-- What is read off the buffer, as it stands. -/
theorem Tokenizer.Spans.current_eq (spans : z.Spans) :
    ∃ attr, current z = .ok ⟨z.tt, part z.buf z.raw, part z.buf z.data, attr⟩ ∧
      (z.tt ≠ .errorToken → ¬z.tt.hasText →
        attr = z.attr.map fun x => (part z.buf x.1, part z.buf x.2)) := by
  have data_lower := spans.data_lower
  have data_order := spans.data_order
  have data_upper := spans.data_upper
  have lower := spans.lower
  have upper := spans.upper
  have raw : z.raw.In z.buf := ⟨lower, by omega, upper⟩
  by_cases starts : z.tt = .startTagToken ∨ z.tt = .selfClosingTagToken
  · have ordered : InOrder z.data.stop z.attr z.raw.stop := by
      refine spans.ordered ?_ ?_ <;> obtain same | same := starts <;> simp [same, TokenType.hasText]
    have attrs : (z.attr.mapM fun a => do pure (← slice z.buf a.1, ← slice z.buf a.2)) = .ok _ :=
      slice_attrs (f := part z.buf) fun x mem => by
        have inner := ordered.inside mem
        have key : x.1.In z.buf := ⟨by omega, by omega, by omega⟩
        have val : x.2.In z.buf := ⟨by omega, by omega, by omega⟩
        exact ⟨key.slice_eq, val.slice_eq⟩
    simp only [Fault.pure_eq_ok] at attrs
    refine ⟨_, ?_, fun _ _ => rfl⟩
    simp only [current, raw.slice_eq, spans.data.slice_eq, if_pos starts, attrs, Fault.ok_bind,
      Fault.pure_eq_ok]
  · refine ⟨[], ?_, fun other tag => ?_⟩
    · simp only [current, raw.slice_eq, spans.data.slice_eq, if_neg starts, Fault.ok_bind,
        Fault.pure_eq_ok]
    · have closing : z.tt = .endTagToken := by
        cases type : z.tt <;> simp_all [TokenType.hasText]
      rw [spans.bare closing]
      rfl

/-- The tags: the name is read when the attributes have been rewritten. -/
theorem tag_eq (t : Entities) (fuel : Nat) (spans : z.Spans) (other : z.tt ≠ .errorToken) (tag : ¬z.tt.hasText)
    (enough : 3 * (z.raw.stop - z.raw.start) < fuel) :
    ∃ buf, token t fuel z =
        .ok (⟨z.tt, (part z.buf z.data).map lowerByte,
            z.attr.map fun x => decodedAttr t (part z.buf x.1, part z.buf x.2)⟩,
          { z with buf := buf, data := ⟨z.raw.stop, z.raw.stop⟩ }) ∧
      Within z.data.start.toNat z.raw.stop.toNat z.buf buf := by
  have lower := spans.data.lower
  have data_lower := spans.data_lower
  have data_upper := spans.data_upper
  have named := spans.named other tag
  have ordered := spans.ordered other tag
  obtain ⟨buf, name, lowered, first⟩ := inBuffer_eq (z := { z with data := ⟨z.raw.stop, z.raw.stop⟩ })
    (lower_rewrites fuel) spans.data (by omega)
  have length := first.within.length
  obtain ⟨buf₁, looped, second⟩ := tagAttrs_eq t fuel
    (z := { z with buf := buf, data := ⟨z.raw.stop, z.raw.stop⟩ }) ordered (by omega)
    (by rw [length]; exact spans.upper) spans.bare (by omega)
  have kept : part buf₁ name = part buf name := by
    have stop := first.stop
    exact second.part_before (by omega)
  have same : (z.attr.map fun x => decodedAttr t (part buf x.1, part buf x.2)) =
      z.attr.map fun x => decodedAttr t (part z.buf x.1, part z.buf x.2) := by
    refine List.map_congr_left fun x mem => ?_
    have inner := ordered.inside mem
    rw [first.behind (r := x.1) (by omega), first.behind (r := x.2) (by omega)]
  have inside := first.inside.congr second.length
  have more : (if decide (z.attr ≠ []) = true then z.attr else []) = z.attr := by
    simp only [decide_eq_true_eq, ite_eq_left_iff, not_not]
    exact Eq.symm
  refine ⟨buf₁, ?_, ?_⟩
  · simp only [token, if_neg other, if_neg tag, tagName, if_pos named, lowered, Fault.ok_bind,
      Fault.pure_eq_ok, more, looped, inside.slice_eq, kept, first.part, same]
  · exact (first.within.mono (Nat.le_refl _) (by omega)).trans (second.mono (by omega) (Nat.le_refl _))

/-- `Token` gives what is decoded from the bytes as they stand, and changes no bytes but those of
the token. -/
theorem token_eq (t : Entities) (fuel : Nat) (spans : z.Spans) (enough : 3 * (z.raw.stop - z.raw.start) < fuel) :
    ∃ now buf data, token t fuel z = .ok (now, { z with buf := buf, data := data }) ∧
      decode t z = .ok now ∧ Within z.raw.start.toNat z.raw.stop.toNat z.buf buf := by
  have data_lower := spans.data_lower
  have data_upper := spans.data_upper
  have lower := spans.lower
  obtain ⟨attr, read, attrs⟩ := spans.current_eq
  simp only [decode, read, Fault.ok_bind, Fault.pure_eq_ok, Lexeme.decoded]
  by_cases error : z.tt = .errorToken
  · refine ⟨_, z.buf, z.data, ?_, rfl, .refl _ _ _⟩
    simp only [token, if_pos error]
    rfl
  by_cases tag : z.tt.hasText
  · obtain ⟨buf, ran, within⟩ := text_eq t fuel spans.data (by omega)
    refine ⟨_, buf, ⟨z.raw.stop, z.raw.stop⟩, ?_, rfl, within.mono (by omega) (by omega)⟩
    simp only [token, if_neg error, if_pos tag, ran, Fault.ok_bind, Fault.pure_eq_ok]
  · obtain ⟨buf, ran, within⟩ := tag_eq t fuel spans error tag enough
    refine ⟨_, buf, _, ran, ?_, within.mono (by omega) (Nat.le_refl _)⟩
    rw [if_neg error, if_neg tag, attrs error tag, List.map_map]
    rfl

section Runs
variable {v w : Cursor} {type : TokenType}

theorem Cursor.Yields.named (yields : w.Yields type w) (other : type ≠ .errorToken) (tag : ¬type.hasText) :
    w.data.start < w.data.stop := by
  have shaped := yields.shaped
  have some {first : Int} (tagged : w.Tagged first) : w.data.start < w.data.stop :=
    tagged.name_start.symm ▸ tagged.name_some
  cases type with
  | errorToken => exact absurd rfl other
  | textToken | commentToken | doctypeToken => exact absurd rfl tag
  | startTagToken => exact some shaped.2
  | selfClosingTagToken => exact some shaped.2.1
  | endTagToken => exact some shaped.2.2

/-- After `Next` the ranges of the token are in the buffer. -/
theorem spans_of_shown (shown : Shows z w) (yields : w.Yields type w) : z.Spans := by
  obtain ⟨gone, rfl, valid⟩ := shown
  obtain rfl : z.tt = type := yields.type
  have data_lower := yields.data_lower
  have data_order := yields.data_order
  have data_upper := yields.data_upper
  have name := yields.named
  simp only [Tokenizer.cursor, Span.sub] at data_lower data_order data_upper name
  refine ⟨valid.lower, by omega, by omega, by omega, valid.upper, fun other tag => ?_,
    fun other tag => ?_, ?_⟩
  · have := name other tag
    omega
  · by_cases closing : z.tt = .endTagToken
    · have bare : z.attr = [] := List.map_eq_nil_iff.mp (yields.bare closing)
      rw [bare]
      change z.data.stop ≤ z.raw.stop
      omega
    · have starts : z.tt = .startTagToken ∨ z.tt = .selfClosingTagToken := by
        cases same : z.tt <;> simp_all [TokenType.hasText]
      exact (yields.ordered starts).shift
  · exact fun closing => List.map_eq_nil_iff.mp (yields.bare closing)

/-- `Next` starts behind the last token. -/
def Tokenizer.restart (z : Tokenizer) : Tokenizer :=
  { z with raw := ⟨z.raw.stop, z.raw.stop⟩, data := ⟨z.raw.stop, z.raw.stop⟩ }

/-- The tokenizer behind the last token, without the bytes that it has read. -/
def Tokenizer.ahead (z : Tokenizer) : Tokenizer :=
  moveToFront z.restart [] (z.buf.drop z.raw.stop.toNat)

theorem Tokenizer.Valid.restart (valid : z.Valid) : z.restart.Valid :=
  ⟨valid.unlimited, Int.le_trans valid.lower valid.order, Int.le_refl _, valid.upper, valid.room,
    valid.reader⟩

/-- The bytes that were read do not show. -/
theorem cursor_ahead (valid : z.Valid) (gone : Bytes) :
    z.ahead.cursor (gone ++ z.buf.take z.raw.stop.toNat) = z.restart.cursor gone := by
  have lower := valid.lower
  have order := valid.order
  have upper := valid.upper
  have dropped : ((z.buf.take z.raw.stop.toNat).length : Int) = z.raw.stop := by
    rw [List.length_take]
    omega
  have raw : (⟨0, ([] : Bytes).length⟩ : Span) = (⟨z.raw.stop, z.raw.stop⟩ : Span).sub z.raw.stop := by
    simp [Span.sub]
  simp only [Tokenizer.ahead, Tokenizer.restart, Tokenizer.cursor, moveToFront, raw, List.map_map,
    Function.comp_def, sub_sub_neg _ _ gone _ dropped, List.append_assoc, List.nil_append,
    List.append_cancel_left_eq, Cursor.mk.injEq, and_true]
  rw [← List.append_assoc, List.take_append_drop]

theorem Tokenizer.Valid.ahead (valid : z.Valid) : z.ahead.Valid := by
  obtain ⟨positive, room⟩ := valid.room
  refine ⟨valid.unlimited, Int.le_refl 0, Int.le_refl 0, Int.natCast_nonneg _, ⟨positive, ?_⟩,
    valid.reader⟩
  simp only [Tokenizer.ahead, Tokenizer.restart, moveToFront, List.nil_append, List.length_drop]
  omega

section Collect
variable {α : Type} {read : Tokenizer → Except Fault α} {value : Cursor → α}

/-- What is read off after each `Next` depends on what the tokenizer shows, if each reading does. -/
theorem collect_shown (count : Nat)
    (reads : ∀ z w type, Shows z w → w.Yields type w → read z = .ok (value w)) (sound : v.Sound)
    (enough : 3 * (v.input.length - v.raw.stop) + 1 < fuel)
    (many : v.input.length - v.raw.stop < count) :
    ∃ as, ∀ z, Shows z v → collect read fuel count z = .ok as := by
  induction count generalizing v with
  | zero =>
    have := sound.upper
    omega
  | succ count ih =>
    obtain ⟨type, w, nexts, run⟩ := next_runs sound enough
    have yields := nexts.yields
    by_cases error : type = .errorToken
    · subst error
      refine ⟨[value w], fun z shown => ?_⟩
      obtain ⟨z', ran, shown'⟩ := run z shown
      exact collect_last ran (reads z' w _ shown' yields)
    · have some_bytes := yields.some_bytes error
      have start := nexts.start
      obtain ⟨as, rest⟩ := ih yields.sound (by rw [nexts.input]; omega) (by rw [nexts.input]; omega)
      refine ⟨value w :: as, fun z shown => ?_⟩
      obtain ⟨z', ran, shown'⟩ := run z shown
      exact collect_more ran error (reads z' w _ shown' yields) (rest z' shown')

theorem collect_restart (read : Tokenizer → Except Fault α) (count : Nat) (z : Tokenizer) :
    collect read fuel count z.restart = collect read fuel count z := by
  cases count <;> rfl

/-- The bytes that were read do not matter for the tokens that follow. -/
theorem collect_ahead (count : Nat)
    (reads : ∀ z w type, Shows z w → w.Yields type w → read z = .ok (value w)) (shown : Shows z v)
    (sound : v.Sound) (enough : 3 * (v.input.length - v.raw.stop) + 1 < fuel)
    (many : v.input.length - v.raw.stop < count) :
    collect read fuel count z.ahead = collect read fuel count z := by
  obtain ⟨gone, rfl, valid⟩ := shown
  have begins : (z.restart.cursor gone).Sound :=
    ⟨Int.le_trans sound.lower sound.order, Int.le_refl _, sound.upper, sound.ended⟩
  obtain ⟨as, same⟩ := collect_shown count reads begins enough many
  rw [← collect_restart read count z, same _ ⟨gone, rfl, valid.restart⟩,
    same _ ⟨_, cursor_ahead valid gone, valid.ahead⟩]

end Collect

theorem decode_shown (t : Entities) : ∀ z w type, Shows z w → w.Yields type w →
    decode t z = .ok (w.lexeme.decoded t w.convertNUL w.textIsRaw) := by
  intro z w type shown yields
  rw [decode, current_eq shown yields]
  obtain ⟨gone, rfl, -⟩ := shown
  rfl

/-- What `Token` leaves behind the current token is what was there. -/
theorem ahead_rewritten {buf : Bytes} (data : Span)
    (within : Within z.raw.start.toNat z.raw.stop.toNat z.buf buf) :
    Tokenizer.ahead { z with buf := buf, data := data } = z.ahead := by
  simp only [Tokenizer.ahead, Tokenizer.restart, within.behind]
  rfl

/-- A cursor over other bytes, up to the end of the token, with the rest as it is. -/
structure Cursor.Overwrites (v w : Cursor) : Prop where
  length : w.input.length = v.input.length
  final : w.final = v.final
  raw : w.raw = v.raw
  err : w.err = v.err

theorem Cursor.Overwrites.sound (overwrites : v.Overwrites w) (sound : v.Sound) : w.Sound := by
  obtain ⟨lower, order, upper, ended⟩ := sound
  rw [← overwrites.raw] at lower order
  refine ⟨lower, order, ?_, ?_⟩
  · rw [overwrites.length, overwrites.raw]
    exact upper
  · rw [overwrites.err, overwrites.final, overwrites.raw, overwrites.length]
    exact ended

theorem Shows.overwrite {buf : Bytes} (shown : Shows z v) (data : Span)
    (length : buf.length = z.buf.length) :
    ∃ w, Shows { z with buf := buf, data := data } w ∧ v.Overwrites w := by
  obtain ⟨gone, rfl, valid⟩ := shown
  refine ⟨_, ⟨gone, rfl, ?_⟩, ?_, rfl, rfl, rfl⟩
  · refine ⟨valid.unlimited, valid.lower, valid.order, ?_, ?_, valid.reader⟩
    · rw [length]
      exact valid.upper
    · rw [length]
      exact valid.room
  · simp only [Tokenizer.cursor, List.length_append, length]

/-- Tokens read one after the other in place are those of the bytes as they were. -/
theorem tokens_shown (t : Entities) (count : Nat) (shown : Shows z v) (sound : v.Sound)
    (enough : 3 * (v.input.length - v.raw.stop) + 1 < fuel)
    (many : v.input.length - v.raw.stop < count) :
    tokens t fuel count z = collect (decode t) fuel count z := by
  induction count generalizing z v with
  | zero => rfl
  | succ count ih =>
    obtain ⟨type, w, nexts, run⟩ := next_runs sound enough
    obtain ⟨z', ran, shown'⟩ := run z shown
    have yields := nexts.yields
    have input := nexts.input
    have start := nexts.start
    have upper := yields.sound.upper
    rw [input] at upper
    have length : z'.raw.stop - z'.raw.start = w.raw.stop - w.raw.start := by
      obtain ⟨gone, rfl, -⟩ := shown'
      simp only [Tokenizer.cursor, Span.sub]
      omega
    obtain ⟨now, buf, data, given, decoded, within⟩ :=
      token_eq t fuel (spans_of_shown shown' yields) (by omega)
    simp only [tokens, collect, ran, given, decoded, Fault.ok_bind]
    split_ifs with error
    · rfl
    have some_bytes := yields.some_bytes error
    -- the rest is read from a buffer that differs only in the bytes of this token
    obtain ⟨u, shown'', overwrites⟩ := Shows.overwrite shown' data within.length
    have rest : tokens t fuel count { z' with buf := buf, data := data } =
        collect (decode t) fuel count z' := by
      have sound' := overwrites.sound yields.sound
      have left : (u.input.length : Int) - u.raw.stop = w.input.length - w.raw.stop := by
        rw [overwrites.length, overwrites.raw]
      have few : (w.input.length : Int) - w.raw.stop < count := by
        rw [input]
        omega
      have fueled : 3 * ((w.input.length : Int) - w.raw.stop) + 1 < fuel := by
        rw [input]
        omega
      calc tokens t fuel count { z' with buf := buf, data := data }
        _ = collect (decode t) fuel count { z' with buf := buf, data := data } :=
          ih shown'' sound' (by rw [left]; exact fueled) (by rw [left]; exact few)
        _ = collect (decode t) fuel count (Tokenizer.ahead { z' with buf := buf, data := data }) :=
          (collect_ahead count (decode_shown t) shown'' sound' (by rw [left]; exact fueled)
            (by rw [left]; exact few)).symm
        _ = collect (decode t) fuel count z'.ahead := by rw [ahead_rewritten data within]
        _ = collect (decode t) fuel count z' :=
          collect_ahead count (decode_shown t) shown' yields.sound fueled few
    rw [rest]

/-- Reading the tokens with `Token`, which rewrites the buffer in place, gives those that are decoded
from bytes that are only read: no token is changed by the ones before it. How a reader cuts the input
into pieces makes no difference. -/
theorem tokens_undisturbed {count : Nat} (t : Entities) (input : Bytes) (final : Err) (tag : Bytes)
    (enough : 3 * input.length + 1 < fuel) (many : input.length < count) :
    ∃ ts, ∀ r : Reader, r.Steady → r.rest = input → r.final = final →
      tokens t fuel count (newTokenizerFragment r tag) = .ok ts ∧
      collect (decode t) fuel count (newTokenizerFragment r tag) = .ok ts := by
  obtain ⟨v, shown⟩ : ∃ v, v = (newTokenizerFragment { rest := input, final := final } tag).cursor [] :=
    ⟨_, rfl⟩
  have left : (v.input.length : Int) - v.raw.stop = input.length := by
    rw [shown]
    exact Int.sub_zero _
  have sound : v.Sound := by
    rw [shown]
    exact ⟨Int.le_refl _, Int.le_refl _, Int.natCast_nonneg _, .inl rfl⟩
  have fueled : 3 * ((v.input.length : Int) - v.raw.stop) + 1 < fuel := by omega
  have few : (v.input.length : Int) - v.raw.stop < count := by omega
  obtain ⟨ts, runs⟩ := collect_shown count (decode_shown t) sound fueled few
  refine ⟨ts, ?_⟩
  rintro r steady rfl rfl
  have here : Shows (newTokenizerFragment r tag) v :=
    ⟨[], by rw [shown]; rfl, fragment_valid steady tag⟩
  exact ⟨(tokens_shown t count here sound fueled few).trans (runs _ here), runs _ here⟩

theorem tokens_undisturbed_pieces : pieces.Steady ∧ whole.Steady ∧
    ∃ ts, tokens fewEntities 30 9 (newTokenizerFragment pieces []) = .ok ts ∧
      collect (decode fewEntities) 30 9 (newTokenizerFragment whole []) = .ok ts := by
  have enough : 3 * pieces.rest.length + 1 < 30 := by simp [pieces_length]
  have many : pieces.rest.length < 9 := by simp [pieces_length]
  obtain ⟨ts, given⟩ := tokens_undisturbed fewEntities pieces.rest .eof [] enough many
  exact ⟨pieces_steady, whole_steady, ts, (given pieces pieces_steady rfl rfl).1,
    (given whole whole_steady rfl rfl).2⟩

end Runs

end Gopherize.Html
