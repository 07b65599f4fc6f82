import Gopherize.Html.Markup

/-! Tags: their names, attributes and ends. -/
namespace Gopherize.Html
open GoCore

variable {v w u : Cursor} {fuel : Nat}

/-- A byte of an attribute's key. -/
def keyByte (c : UInt8) : Bool := !(isSpace c || c = byte '/' || c = byte '=' || c = byte '>')

def keyPast (c : UInt8) : Bool := isSpace c || c = byte '/'

def keyUpto (c : UInt8) : Bool := c = byte '=' || c = byte '>'

theorem keyByte_eq {c : UInt8} (past : keyPast c = false) (upto : keyUpto c = false) :
    keyByte c = true := by
  simp_all [keyByte, keyPast, keyUpto]

/-- The key that was read, with the key's range. -/
theorem readTagAttrKey_runs (sound : v.Sound) (enough : v.input.length - v.raw.stop < fuel) :
    Runs Shows (readTagAttrKey fuel) v fun _ w => ∃ n e k,
      w = (v.seek n e).setPending (⟨v.raw.stop, n - k⟩, v.pendingAttr.2) ∧
        v.Scans keyPast keyUpto n e k := by
  refine (keyStart_runs ?_).seq
  have here : (v.setPending (v.pendingAttr.1.startAt (v.raw.stop - 0), v.pendingAttr.2)).Sound :=
    ⟨sound.lower, sound.order, sound.upper, sound.ended⟩
  refine (scanTo_runs (fun w n => keyEnd_runs rfl) here enough).imp ?_
  rintro _ _ ⟨n, e, k, rfl, scans⟩
  refine ⟨n, e, k, ?_, ⟨scans.forward, scans.upper, scans.ended⟩, scans.nonneg, scans.forward_end,
    scans.inside, scans.stopped⟩
  simp only [Span.startAt, Int.sub_zero]
  rfl

/-- The value that was read: an equals sign is consumed, and all else of the token is as before. -/
def Cursor.Values (v w : Cursor) : Prop :=
  ∃ n e s, w = (v.seek n e).setPending (v.pendingAttr.1, s) ∧ v.Reaches n e ∧
    v.raw.stop ≤ s.start ∧ s.start ≤ s.stop ∧ s.stop ≤ n ∧
      (e = none → v.peek v.raw.stop = byte '=' → v.raw.stop < n)

theorem Cursor.Reaches.values {s : Span} (reaches : v.Reaches n e) (lower : v.raw.stop ≤ s.start)
    (order : s.start ≤ s.stop) (upper : s.stop ≤ n)
    (progress : e = none → v.peek v.raw.stop = byte '=' → v.raw.stop < n) :
    v.Values ((v.seek n e).setPending (v.pendingAttr.1, s)) :=
  ⟨n, e, s, rfl, reaches, lower, order, upper, progress⟩

theorem setPending_sound {a : Span × Span} (sound : v.Sound) : (v.setPending a).Sound :=
  ⟨sound.lower, sound.order, sound.upper, sound.ended⟩

theorem valEnd_sets (w : Cursor) (n : Int) : Runs Shows (valEnd n) w fun _ u =>
    u = w.setPending (w.pendingAttr.1, w.pendingAttr.2.stopAt (w.raw.stop - n)) := valEnd_runs rfl

/-- A value from `start` on, up to where a scan ends. -/
theorem scanValue_runs {past upto : UInt8 → Bool} (start m : Int) (s : Span) (sound : v.Sound)
    (reaches : v.Reaches m none) (later : v.raw.stop < m) (lower : v.raw.stop ≤ start)
    (upper : start ≤ m) (enough : v.input.length - v.raw.stop < fuel) :
    Runs Shows (scanTo past upto valEnd fuel)
      ((v.seek m none).setPending (v.pendingAttr.1, s.startAt start)) fun _ w => v.Values w := by
  have here : ((v.seek m none).setPending (v.pendingAttr.1, s.startAt start)).Sound :=
    setPending_sound (sound.seek reaches)
  refine (scanTo_runs valEnd_sets here (by simp; omega)).imp ?_
  rintro _ _ ⟨n, e, k, rfl, scans⟩
  have nonneg := scans.nonneg
  have end_later := scans.forward_end
  have forward := scans.forward
  simp only [Cursor.setPending_raw, Cursor.seek_raw] at end_later forward
  exact Cursor.Reaches.values (s := ⟨start, n - k⟩)
    (reaches.trans ⟨scans.forward, scans.upper, scans.ended⟩) lower (by simp only; omega)
    (by simp only; omega) (fun _ _ => by omega)

theorem readAfterEquals_runs {s : Span} {n : Int} (sound : v.Sound) (reaches : v.Reaches n none)
    (later : v.raw.stop < n) (lower : v.raw.stop ≤ s.start) (order : s.start ≤ s.stop)
    (upper : s.stop ≤ n) (enough : v.input.length - v.raw.stop < fuel) :
    Runs Shows (readAfterEquals fuel) ((v.seek n none).setPending (v.pendingAttr.1, s)) fun _ w =>
      v.Values w := by
  have here : ((v.seek n none).setPending (v.pendingAttr.1, s)).Sound :=
    setPending_sound (sound.seek reaches)
  refine (skipWhiteSpace_runs here (by simp; omega)).bind ?_
  rintro _ _ ⟨m, f, rfl, skips⟩
  have forward := skips.forward
  simp only [Cursor.setPending_raw, Cursor.seek_raw] at forward
  have reached : v.Reaches m f := reaches.trans ⟨skips.forward, skips.upper, skips.ended⟩
  refine check_runs (fun _ => .done (reached.values lower order (by omega) fun _ _ => by omega))
    fun fresh => ?_
  change f = none at fresh
  subst fresh
  have there : ((v.seek m none).setPending (v.pendingAttr.1, s)).Sound :=
    setPending_sound (sound.seek reached)
  refine byte_runs there (fun past => ?_) fun more => ?_
  · have last : v.Reaches m (some v.final) := reached.trans ((sound.seek reached).past past)
    exact .done (last.values lower order (by omega) fun _ _ => by omega)
  · have next : v.Reaches (m + 1) none := reached.trans (Cursor.reaches_next more)
    split_ifs
    · refine unread_runs there ?_
      exact (reached.values lower order (by omega) fun _ _ => by omega : v.Values _)
    · refine (valStart_runs ?_).seq
      exact scanValue_runs (m + 1 - 0) (m + 1) s sound next (by omega) (by omega) (by omega) enough
    · refine (valStart_runs ?_).seq
      exact scanValue_runs (m + 1 - 1) (m + 1) s sound next (by omega) (by omega) (by omega) enough

theorem readTagAttrVal_runs (sound : v.Sound) (enough : v.input.length - v.raw.stop < fuel) :
    Runs Shows (readTagAttrVal fuel) v fun _ w => v.Values w := by
  refine (valStart_runs ?_).seq
  refine (valEnd_runs ?_).seq
  change Runs Shows _ (v.setPending (v.pendingAttr.1,
    (v.pendingAttr.2.startAt (v.raw.stop - 0)).stopAt (v.raw.stop - 0))) _
  generalize empty : (v.pendingAttr.2.startAt (v.raw.stop - 0)).stopAt (v.raw.stop - 0) = s
  have start : s.start = v.raw.stop := by rw [← empty]; simp [Span.startAt, Span.stopAt]
  have stop : s.stop = v.raw.stop := by rw [← empty]; simp [Span.stopAt]
  have here : (v.setPending (v.pendingAttr.1, s)).Sound := setPending_sound sound
  refine (skipWhiteSpace_runs here enough).bind ?_
  rintro _ _ ⟨n, e, rfl, skips⟩
  have forward := skips.forward
  simp only [Cursor.setPending_raw] at forward
  have reaches : v.Reaches n e := ⟨skips.forward, skips.upper, skips.ended⟩
  refine check_runs (fun failed => ?_) fun fresh => ?_
  · exact .done (reaches.values (by omega) (by omega) (by omega) fun fresh => absurd fresh failed)
  change e = none at fresh
  subst fresh
  have there : ((v.seek n none).setPending (v.pendingAttr.1, s)).Sound :=
    setPending_sound (sound.seek reaches)
  refine byte_runs there (fun past => ?_) fun more => ?_
  · have last : v.Reaches n (some v.final) := reaches.trans ((sound.seek reaches).past past)
    exact .done (last.values (by omega) (by omega) (by omega) (by simp))
  · have next : v.Reaches (n + 1) none := reaches.trans (Cursor.reaches_next more)
    split_ifs with other
    · refine unread_runs there ?_
      refine (reaches.values (s := s) (by omega) (by omega) (by omega) fun _ equals => ?_ : v.Values _)
      -- no space was skipped before an equals sign, and it was read
      have stay : n = v.raw.stop := skips.stays (by
        rw [Cursor.setPending_peek, Cursor.setPending_raw, equals]
        decide)
      subst stay
      exact absurd equals other
    · exact readAfterEquals_runs (n := n + 1) (s := s) sound next (by omega) (by omega) (by omega) (by omega) enough

/-- An attribute in the part of the token that was read. -/
structure Cursor.AttrIn (v : Cursor) (a : Span × Span) : Prop where
  key_lower : v.raw.start ≤ a.1.start
  key_some : a.1.start < a.1.stop
  key_upper : a.1.stop ≤ v.raw.stop
  key_bytes : ∀ i, a.1.start ≤ i → i < a.1.stop → keyByte (v.peek i) = true
  val_lower : v.raw.start ≤ a.2.start
  val_order : a.2.start ≤ a.2.stop
  val_upper : a.2.stop ≤ v.raw.stop

theorem Cursor.Moves.peek (moves : v.Moves w) (i : Int) : w.peek i = v.peek i := by
  simp only [Cursor.peek, moves.input]

theorem Cursor.AttrIn.moves {a : Span × Span} (inside : v.AttrIn a) (moves : v.Moves w) :
    w.AttrIn a where
  key_lower := moves.start ▸ inside.key_lower
  key_some := inside.key_some
  key_upper := Int.le_trans inside.key_upper moves.forward
  key_bytes i lower upper := moves.peek i ▸ inside.key_bytes i lower upper
  val_lower := moves.start ▸ inside.val_lower
  val_order := inside.val_order
  val_upper := Int.le_trans inside.val_upper moves.forward

/-- The keys and values of the attributes come one after the other between two positions. -/
def InOrder (low : Int) : List (Span × Span) → Int → Prop
  | [], high => low ≤ high
  | a :: as, high => low ≤ a.1.start ∧ a.1.start ≤ a.1.stop ∧ a.1.stop ≤ a.2.start ∧
      a.2.start ≤ a.2.stop ∧ InOrder a.2.stop as high

theorem InOrder.mono {low high higher : Int} {as : List (Span × Span)} (ordered : InOrder low as high)
    (order : high ≤ higher) : InOrder low as higher := by
  induction as generalizing low with
  | nil => exact Int.le_trans ordered order
  | cons a as ih =>
    obtain ⟨first, key, between, val, rest⟩ := ordered
    exact ⟨first, key, between, val, ih rest⟩

theorem InOrder.concat {low high higher : Int} {as : List (Span × Span)} {a : Span × Span}
    (ordered : InOrder low as high) (next : InOrder high [a] higher) : InOrder low (as ++ [a]) higher := by
  induction as generalizing low with
  | nil =>
    obtain ⟨first, rest⟩ := next
    exact ⟨Int.le_trans ordered first, rest⟩
  | cons b as ih =>
    obtain ⟨first, key, between, val, rest⟩ := ordered
    exact ⟨first, key, between, val, ih rest⟩

theorem InOrder.le {low high : Int} {xs : List (Span × Span)} (ordered : InOrder low xs high) :
    low ≤ high := by
  induction xs generalizing low with
  | nil => exact ordered
  | cons x xs ih =>
    obtain ⟨first, key, between, val, rest⟩ := ordered
    have last := ih rest
    omega

/-- The ranges of the attributes lie between the two positions. -/
theorem InOrder.inside {low high : Int} {xs : List (Span × Span)} (ordered : InOrder low xs high)
    {x : Span × Span} (mem : x ∈ xs) : low ≤ x.1.start ∧ x.1.start ≤ x.1.stop ∧ x.1.stop ≤ x.2.start ∧
      x.2.start ≤ x.2.stop ∧ x.2.stop ≤ high := by
  induction xs generalizing low with
  | nil => exact absurd mem List.not_mem_nil
  | cons y ys ih =>
    obtain ⟨first, key, between, val, rest⟩ := ordered
    obtain rfl | later := List.mem_cons.mp mem
    · exact ⟨first, key, between, val, rest.le⟩
    · have inner := ih rest later
      omega

theorem InOrder.shift {low high d : Int} {xs : List (Span × Span)}
    (ordered : InOrder (low - d) (xs.map fun x => (x.1.sub d, x.2.sub d)) (high - d)) :
    InOrder low xs high := by
  induction xs generalizing low with
  | nil =>
    change low - d ≤ high - d at ordered
    change low ≤ high
    omega
  | cons x xs ih =>
    obtain ⟨first, key, between, val, rest⟩ := ordered
    simp only [Span.sub] at first key between val
    exact ⟨by omega, by omega, by omega, by omega, ih rest⟩

/-- `attr = append(attr, pendingAttr)`, unless the key is empty. -/
theorem pushAttr_runs {saveAttr : Bool} {done : Unit → Cursor → Prop}
    (holds : ∀ kept, (kept = v.attr ∨ saveAttr = true ∧ kept = v.attr ++ [v.pendingAttr] ∧
      v.pendingAttr.1.start ≠ v.pendingAttr.1.stop) → done () { v with attr := kept }) :
    Runs Shows (modify fun z =>
      if saveAttr && z.pendingAttr.1.start ≠ z.pendingAttr.1.stop then
        { z with attr := z.attr ++ [z.pendingAttr] }
      else z : Scan Unit) v done := by
  refine update_runs (fun v => if saveAttr && v.pendingAttr.1.start ≠ v.pendingAttr.1.stop then
    { v with attr := v.attr ++ [v.pendingAttr] } else v) (fun gone z => ?_) (fun z h => ?_) ?_
  · have same : (z.cursor gone).pendingAttr.1.start ≠ (z.cursor gone).pendingAttr.1.stop ↔
        z.pendingAttr.1.start ≠ z.pendingAttr.1.stop := by
      simp only [Tokenizer.cursor, Span.sub]
      omega
    simp only [same]
    split
    · simp [Tokenizer.cursor]
    · rfl
  · split
    · exact ⟨h.1, h.2, h.3, h.4, h.5, h.6⟩
    · exact h
  · split_ifs with push
    · simp only [Bool.and_eq_true, decide_eq_true_eq] at push
      exact holds _ (.inr ⟨push.1, rfl, push.2⟩)
    · exact holds _ (.inl rfl)

/-- The attributes were read, up to the end of the tag or of the input. -/
structure Cursor.Attrs (saveAttr : Bool) (v w : Cursor) : Prop extends v.Moves w where
  data : w.data = v.data
  kept : saveAttr = false → w.attr = v.attr
  attrs : ∀ a ∈ w.attr, w.AttrIn a
  ordered : InOrder w.data.stop w.attr w.raw.stop
  closed : w.err = none → v.raw.stop < w.raw.stop ∧ w.peek (w.raw.stop - 1) = byte '>'

theorem Cursor.Moves.attrs {saveAttr : Bool} (first : v.Moves w) (same : w.data = v.data)
    (kept : saveAttr = false → w.attr = v.attr) (second : w.Attrs saveAttr u) :
    v.Attrs saveAttr u where
  toMoves := first.trans second.toMoves
  data := second.data.trans same
  kept unsaved := (second.kept unsaved).trans (kept unsaved)
  attrs := second.attrs
  ordered := second.ordered
  closed fresh := ⟨Int.lt_of_le_of_lt first.forward (second.closed fresh).1, (second.closed fresh).2⟩

/-- A key and its value take at least one byte, if they do not start with the end of the tag. -/
theorem Cursor.Scans.progress {n m k : Int} {e f : Option Err}
    (scans : v.Scans keyPast keyUpto n e k) (more : v.raw.stop < v.input.length)
    (open_tag : v.peek v.raw.stop ≠ byte '>') (forward : n ≤ m)
    (ended : f = none ∨ f = some v.final ∧ m = v.input.length)
    (value : f = none → v.peek n = byte '=' → n < m) : v.raw.stop < m := by
  have end_later := scans.forward_end
  have later := scans.forward
  obtain fresh | ⟨-, last⟩ := scans.ended
  · obtain ⟨rfl, -⟩ | ⟨-, -, upto⟩ := scans.stopped fresh
    · omega
    · by_cases moved : v.raw.stop < n
      · omega
      · have here : n = v.raw.stop := by omega
        subst here
        obtain fresh | ⟨-, last⟩ := ended
        · simp only [keyUpto, Bool.or_eq_true, decide_eq_true_eq] at upto
          exact value fresh (upto.resolve_right open_tag)
        · omega
  · omega

/-- One attribute was read. -/
structure Cursor.OneAttr (saveAttr : Bool) (v w : Cursor) : Prop extends v.Moves w where
  data : w.data = v.data
  kept : saveAttr = false → w.attr = v.attr
  attrs : ∀ a ∈ w.attr, w.AttrIn a
  ordered : InOrder w.data.stop w.attr w.raw.stop
  progress : v.raw.stop < w.raw.stop

theorem readAttr_runs {saveAttr : Bool} (sound : v.Sound) (attrs : ∀ a ∈ v.attr, v.AttrIn a)
    (ordered : InOrder v.data.stop v.attr v.raw.stop) (more : v.raw.stop < v.input.length)
    (open_tag : v.peek v.raw.stop ≠ byte '>')
    (enough : v.input.length - v.raw.stop < fuel) :
    Runs Shows (readAttr saveAttr fuel) v fun _ w => v.OneAttr saveAttr w := by
  refine (readTagAttrKey_runs sound enough).bind ?_
  rintro _ _ ⟨n, e, k, rfl, scans⟩
  have forward := scans.forward
  refine (readTagAttrVal_runs (setPending_sound (sound.seek scans.toReaches)) (by simp; omega)).bind ?_
  rintro _ _ ⟨m, f, s, rfl, valued, lower, order, upper, value⟩
  have later := valued.forward
  have reached : v.Reaches m f := scans.trans ⟨valued.forward, valued.upper, valued.ended⟩
  simp only [Cursor.setPending_raw, Cursor.seek_raw] at lower later
  refine pushAttr_runs fun kept how => ?_
  have moves : v.Moves { (v.seek m f).setPending (⟨v.raw.stop, n - k⟩, s) with attr := kept } :=
    ⟨rfl, rfl, rfl, reached.forward, reached.upper, reached.ended⟩
  refine ⟨moves, rfl, fun unsaved => ?_, fun a mem => ?_, ?_,
    scans.progress more open_tag later reached.ended value⟩
  · obtain same | ⟨saved, -⟩ := how
    · exact same
    · exact absurd (saved.symm.trans unsaved) (by decide)
  rotate_left
  · obtain rfl | ⟨-, rfl, -⟩ := how
    · exact ordered.mono reached.forward
    · have nonneg := scans.nonneg
      have between : n - k ≤ s.start := by omega
      exact ordered.concat ⟨Int.le_refl _, scans.forward_end, between, order, upper⟩
  obtain rfl | ⟨-, rfl, named⟩ := how
  · exact (attrs a mem).moves moves
  · obtain old | new := List.mem_append.mp mem
    · exact (attrs a old).moves moves
    · obtain rfl := List.mem_singleton.mp new
      have nonneg := scans.nonneg
      have end_later := scans.forward_end
      have start := sound.order
      have key : v.raw.stop ≠ n - k := named
      refine ⟨sound.order, ?_, ?_, ?_, ?_, order, upper⟩
      · change v.raw.stop < n - k
        omega
      · change n - k ≤ m
        omega
      · intro i lower upper
        have plain := scans.inside i lower upper
        exact keyByte_eq plain.1 plain.2
      · change v.raw.start ≤ s.start
        omega

theorem attrLoop_runs {saveAttr : Bool} {count : Nat} (sound : v.Sound)
    (attrs : ∀ a ∈ v.attr, v.AttrIn a) (ordered : InOrder v.data.stop v.attr v.raw.stop)
    (enough : v.input.length - v.raw.stop < fuel)
    (many : v.input.length - v.raw.stop < count) :
    Runs Shows (attrLoop saveAttr fuel count) v fun _ w => v.Attrs saveAttr w := by
  induction count generalizing v with
  | zero =>
    have := sound.upper
    omega
  | succ count ih =>
    refine byte_runs sound (fun past => ?_) fun more => ?_
    · have moves := (sound.past past).moves
      exact .done ⟨moves, rfl, fun _ => rfl, fun a mem => (attrs a mem).moves moves, ordered, nofun⟩
    have one := Cursor.reaches_next more
    split_ifs with close
    · refine .done ⟨one.moves, rfl, fun _ => rfl, fun a mem => (attrs a mem).moves one.moves,
        ordered.mono one.forward, fun _ => ⟨?_, ?_⟩⟩
      · exact Int.lt_succ _
      · simp only [Cursor.seek_peek, Cursor.seek_raw, Int.add_sub_cancel, close]
    · refine (unread_runs sound ?_).seq
      have here := Cursor.reaches_here more
      refine (readAttr_runs (sound.seek here) (fun a mem => (attrs a mem).moves here.moves) ordered more
        close enough).bind fun _ q read => ?_
      have moves := here.moves.trans read.toMoves
      have progress := read.progress
      simp only [Cursor.seek_raw] at progress
      refine (skipWhiteSpace_runs (moves.sound sound) (by rw [moves.input]; omega)).bind ?_
      rintro _ _ ⟨n, e, rfl, skips⟩
      have skipped := moves.trans skips.toReaches.moves
      have after : ∀ a ∈ (q.seek n e).attr, (q.seek n e).AttrIn a :=
        fun a mem => (read.attrs a mem).moves skips.toReaches.moves
      refine check_runs (fun failed => ?_) fun _ => ?_
      · exact .done ⟨skipped, read.data, read.kept, after, read.ordered.mono skips.forward,
          fun fresh => absurd fresh failed⟩
      · have rest := skips.forward
        refine (ih (skipped.sound sound) after (read.ordered.mono rest) ?_ ?_).imp fun _ _ =>
          skipped.attrs read.data read.kept
        all_goals
          simp only [Cursor.seek_input, Cursor.seek_raw, moves.input]
          omega

/-- A tag was read whose first letter is the byte before the position. -/
structure Cursor.TagRead (saveAttr : Bool) (v w : Cursor) : Prop extends v.Moves w where
  name_start : w.data.start = v.raw.stop - 1
  name_order : v.raw.stop ≤ w.data.stop
  name_upper : w.data.stop ≤ w.raw.stop
  name_bytes : ∀ i, v.raw.stop ≤ i → i < w.data.stop → endsTag (w.peek i) = false
  attrs : ∀ a ∈ w.attr, w.AttrIn a
  ordered : InOrder w.data.stop w.attr w.raw.stop
  bare : saveAttr = false → w.attr = []
  closed : w.err = none → w.data.stop < w.raw.stop ∧ w.peek (w.raw.stop - 1) = byte '>'

theorem clearAttr_runs {done : Unit → Cursor → Prop} (holds : done () { v with attr := [] }) :
    Runs Shows (modify fun z => { z with attr := [] } : Scan Unit) v done :=
  update_runs (fun v => { v with attr := [] }) (fun _ _ => rfl)
    (fun _ h => ⟨h.1, h.2, h.3, h.4, h.5, h.6⟩) holds

theorem readTagName_runs (sound : v.Sound) (enough : v.input.length - v.raw.stop < fuel) :
    Runs Shows (readTagName fuel) v fun _ w => ∃ n e k,
      w = (v.seek n e).setData ⟨v.raw.stop - 1, n - k⟩ ∧
        v.Scans isSpace (fun c => c = byte '/' || c = byte '>') n e k := by
  refine (dataStart_runs ?_).seq
  have here : (v.setData (v.data.startAt (v.raw.stop - 1))).Sound :=
    ⟨sound.lower, sound.order, sound.upper, sound.ended⟩
  refine (scanTo_runs dataEnd_sets here enough).imp ?_
  rintro _ _ ⟨n, e, k, rfl, scans⟩
  exact ⟨n, e, k, rfl, ⟨scans.forward, scans.upper, scans.ended⟩, scans.nonneg, scans.forward_end,
    scans.inside, scans.stopped⟩

theorem readTag_runs {saveAttr : Bool} (sound : v.Sound) (enough : v.input.length - v.raw.stop < fuel) :
    Runs Shows (readTag saveAttr fuel) v fun _ w => v.TagRead saveAttr w := by
  refine (clearAttr_runs ?_).seq
  generalize cleared : ({ v with attr := [] } : Cursor) = o
  have none_left : o.attr = [] := by rw [← cleared]
  have stop : o.raw.stop = v.raw.stop := by rw [← cleared]
  have moves : v.Moves o := by
    rw [← cleared]
    exact ⟨rfl, rfl, rfl, Int.le_refl _, sound.upper, sound.ended⟩
  have here := moves.sound sound
  rw [← moves.input, ← stop] at enough
  refine (readTagName_runs here enough).bind ?_
  rintro _ _ ⟨n, e, k, rfl, scans⟩
  have forward := scans.forward
  have nonneg := scans.nonneg
  have named : v.Moves ((o.seek n e).setData ⟨o.raw.stop - 1, n - k⟩) :=
    moves.trans ⟨rfl, rfl, rfl, scans.forward, scans.upper, scans.ended⟩
  refine (skipWhiteSpace_runs (named.sound sound) (by simp; omega)).bind ?_
  rintro _ _ ⟨m, f, rfl, skips⟩
  have skipped := named.trans skips.toReaches.moves
  have later := skips.forward
  simp only [Cursor.setData_raw, Cursor.seek_raw] at later
  -- the name stays as it was read, whatever is read behind it
  have finish {w : Cursor} (attrs : (((o.seek n e).setData ⟨o.raw.stop - 1, n - k⟩).seek m f).Attrs saveAttr w) :
      v.TagRead saveAttr w := by
    have past := skipped.trans attrs.toMoves
    have beyond := attrs.forward
    have end_later := scans.forward_end
    simp only [Cursor.seek_raw] at beyond
    have data : w.data = ⟨o.raw.stop - 1, n - k⟩ := attrs.data
    refine ⟨past, ?_, ?_, ?_, ?_, attrs.attrs, attrs.ordered,
      fun unsaved => (attrs.kept unsaved).trans none_left, fun fresh => ?_⟩
    · rw [data, stop]
    · rw [data, ← stop]
      exact scans.forward_end
    · rw [data]
      simp only
      omega
    · intro i lower upper
      rw [data] at upper
      have plain := scans.inside i (stop ▸ lower) upper
      rw [past.peek, ← moves.peek]
      simp_all [endsTag]
    · obtain ⟨progress, last⟩ := attrs.closed fresh
      simp only [Cursor.seek_raw] at progress
      refine ⟨?_, last⟩
      rw [data]
      simp only
      omega
  have nothing : ∀ a ∈ (((o.seek n e).setData ⟨o.raw.stop - 1, n - k⟩).seek m f).attr,
      (((o.seek n e).setData ⟨o.raw.stop - 1, n - k⟩).seek m f).AttrIn a := by
    intro a mem
    change a ∈ o.attr at mem
    simp [none_left] at mem
  have empty : InOrder (n - k) o.attr m := by
    rw [none_left]
    change n - k ≤ m
    omega
  refine check_runs (fun failed => ?_) fun _ => ?_
  · refine .done (finish ⟨(skipped.sound sound).stay.moves, rfl, fun _ => rfl, nothing, empty, ?_⟩)
    exact fun fresh => absurd fresh failed
  · refine (attrLoop_runs (skipped.sound sound) nothing empty ?_ ?_).imp fun _ _ => finish <;>
    · simp
      omega

theorem matchesAt_eq {buf s : Bytes} {i : Int} (lower : 0 ≤ i) (upper : i + s.length ≤ buf.length) :
    matchesAt buf i s = .ok (((buf.drop i.toNat).take s.length).map lowerByte = s) := by
  induction s generalizing i with
  | nil => simp [matchesAt]
  | cons c s ih =>
    have inside : i.toNat < buf.length := by
      simp at upper
      omega
    have next : (i + 1).toNat = i.toNat + 1 := by omega
    rw [List.length_cons] at upper
    rw [matchesAt, byteAt, if_pos lower, List.getElem?_eq_getElem inside,
      List.drop_eq_getElem_cons inside]
    simp only [Fault.pure_eq_ok, Fault.ok_bind]
    by_cases first : lowerByte buf[i.toNat] = c
    · rw [if_pos first, ih (by omega) (by omega), next]
      simp only [List.length_cons, List.take_succ_cons, List.map_cons, List.cons.injEq, first,
        true_and]
    · rw [if_neg first]
      simp only [List.length_cons, List.take_succ_cons, List.map_cons, List.cons.injEq, first,
        false_and, decide_false]

/-- `startTagIn` looks for the name among the words. -/
theorem startTagIn_eq {z : Tokenizer} (lower : 0 ≤ z.data.start) (order : z.data.start ≤ z.data.stop)
    (upper : z.data.stop ≤ z.buf.length) (words : List Bytes) :
    startTagIn z words =
      .ok (((z.buf.take z.data.stop.toNat).drop z.data.start.toNat).map lowerByte ∈ words) := by
  generalize named : (z.buf.take z.data.stop.toNat).drop z.data.start.toNat = name
  have length : (name.length : Int) = z.data.stop - z.data.start := by
    rw [← named, List.length_drop, List.length_take]
    omega
  induction words with
  | nil => simp [startTagIn]
  | cons word words ih =>
    rw [startTagIn]
    split
    · rename_i other
      have apart : name.map lowerByte ≠ word := by
        intro same
        rw [← same, List.length_map] at other
        omega
      simp only [ih, List.mem_cons, apart, false_or]
    · rename_i same
      have taken : (z.buf.drop z.data.start.toNat).take word.length = name := by
        rw [← named, List.drop_take]
        congr 1
        omega
      rw [matchesAt_eq lower (by omega), taken]
      by_cases found : name.map lowerByte = word
      · simp [found]
      · simp [found, ih]

/-- A tag that was read is a start tag or, with a slash at its end, a self-closing one. -/
theorem classifyTag_runs (sound : v.Sound) (lower : v.raw.start ≤ v.data.start)
    (order : v.data.start < v.data.stop) (upper : v.data.stop < v.raw.stop) :
    Runs Shows classifyTag v fun t w => (∃ tag, w = { v with rawTag := tag }) ∧
      (t = .startTagToken ∨ t = .selfClosingTagToken ∧ v.peek (v.raw.stop - 2) = byte '/') := by
  refine ⟨if v.peek (v.raw.stop - 2) = byte '/' then .selfClosingTagToken else .startTagToken,
    { v with rawTag := if (v.cut v.data).map lowerByte ∈ rawNames (lowerByte (v.peek v.data.start))
      then (v.cut v.data).map lowerByte else v.rawTag }, ⟨⟨_, rfl⟩, ?_⟩, ?_⟩
  · split_ifs with slash
    · exact .inr ⟨rfl, slash⟩
    · exact .inl rfl
  rintro z ⟨gone, rfl, valid⟩
  have raw_lower := valid.lower
  have raw_upper := valid.upper
  simp only [Tokenizer.cursor, Span.sub] at lower order upper
  have name : slice z.buf z.data = .ok ((z.cursor gone).cut (z.cursor gone).data) :=
    slice_cut gone (by omega) (by omega) (by omega)
  have name_eq := Except.ok.inj ((slice_eq (by omega) (by omega) (by omega)).symm.trans name)
  have first := byteAt_eq (z := z) (i := z.data.start) gone (by omega) (by omega)
  have last := byteAt_eq (z := z) (i := z.raw.stop - 2) gone (by omega) (by omega)
  have found := startTagIn_eq (z := z) (by omega) (by omega) (by omega)
    (rawNames (lowerByte ((z.cursor gone).peek (z.data.start + gone.length))))
  rw [name_eq] at found
  have start : (z.cursor gone).data.start = z.data.start + gone.length := by
    simp only [Tokenizer.cursor, Span.sub]
    omega
  have stop : (z.cursor gone).raw.stop - 2 = z.raw.stop - 2 + gone.length := by
    simp only [Tokenizer.cursor, Span.sub]
    omega
  rw [start, stop]
  generalize tagged : (if ((z.cursor gone).cut (z.cursor gone).data).map lowerByte ∈
    rawNames (lowerByte ((z.cursor gone).peek (z.data.start + gone.length)))
    then ((z.cursor gone).cut (z.cursor gone).data).map lowerByte else (z.cursor gone).rawTag) = tag
  refine ⟨{ z with rawTag := tag }, ?_, gone, rfl, valid.1, valid.2, valid.3, valid.4, valid.5,
    valid.6⟩
  simp only [classifyTag, first, found, last, name, Fault.ok_bind, Fault.pure_eq_ok]
  split_ifs at tagged with raw
  · subst tagged
    simp only [raw, decide_true, if_true]
  · subst tagged
    simp only [raw, decide_false, Bool.false_eq_true, if_false]
    rfl

/-- How `readStartTag` ends: at an error, or with a tag whose last bytes tell its type. -/
structure Cursor.StartTag (v w : Cursor) (t : TokenType) : Prop extends v.TagRead true w where
  error : t = .errorToken → w.err ≠ none
  fresh : t ≠ .errorToken → w.err = none
  type : t ≠ .errorToken → t = .startTagToken ∨
    t = .selfClosingTagToken ∧ w.peek (w.raw.stop - 2) = byte '/'

theorem readStartTag_runs (sound : v.Sound) (opened : v.raw.start + 1 ≤ v.raw.stop)
    (enough : v.input.length - v.raw.stop < fuel) :
    Runs Shows (readStartTag fuel) v fun t w => v.StartTag w t := by
  refine (readTag_runs sound enough).bind fun _ w read => ?_
  refine check_runs (fun failed => ?_) fun fresh => ?_
  · exact .done ⟨read, fun _ => failed, fun other => absurd rfl other, fun other => absurd rfl other⟩
  · have start := read.name_start
    have order := read.name_order
    obtain ⟨closed, -⟩ := read.closed fresh
    have same := read.start
    refine (classifyTag_runs (read.sound sound) (by omega) (by omega) closed).imp ?_
    rintro t _ ⟨⟨tag, rfl⟩, type⟩
    refine ⟨⟨⟨read.input, read.final, read.start, read.forward, read.upper, read.ended⟩,
      read.name_start, read.name_order, read.name_upper, read.name_bytes, ?_, read.ordered,
      read.bare, read.closed⟩, ?_, fun _ => fresh, fun _ => type⟩
    · intro a mem
      have inside := read.attrs a mem
      exact ⟨inside.1, inside.2, inside.3, inside.4, inside.5, inside.6, inside.7⟩
    · rintro rfl
      simp at type

end Gopherize.Html
