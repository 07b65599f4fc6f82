import Gopherize.Html.Tags

/-! `Next` and runs of it: whatever the reader does, the tokens are those of the input, they
cover it, and each is well formed. -/
namespace Gopherize.Html
open GoCore

variable {v w u : Cursor} {fuel : Nat}

namespace Cursor

/-- A tag whose name starts at `first`, as it stands in the input. -/
structure Tagged (v : Cursor) (first : Int) : Prop where
  name_start : v.data.start = first
  letter : isLetter (v.peek first) = true
  name_some : first < v.data.stop
  name_inside : v.data.stop < v.raw.stop
  name_bytes : ∀ i, first < i → i < v.data.stop → endsTag (v.peek i) = false
  closed : v.peek (v.raw.stop - 1) = byte '>'

/-- How a token of each type looks in the input. -/
def Shaped (v : Cursor) : TokenType → Prop
  | .errorToken => v.raw.stop = v.input.length
  | .textToken => v.raw.start < v.raw.stop
  | .startTagToken => v.peek v.raw.start = byte '<' ∧ v.Tagged (v.raw.start + 1)
  | .selfClosingTagToken => v.peek v.raw.start = byte '<' ∧ v.Tagged (v.raw.start + 1) ∧
      v.peek (v.raw.stop - 2) = byte '/'
  | .endTagToken => v.peek v.raw.start = byte '<' ∧ v.peek (v.raw.start + 1) = byte '/' ∧
      v.Tagged (v.raw.start + 2)
  | .commentToken | .doctypeToken => v.raw.start < v.raw.stop ∧ v.peek v.raw.start = byte '<'

/-- A token of type `t` was read from the start of the current one. -/
structure Yields (v : Cursor) (t : TokenType) (w : Cursor) : Prop where
  input : w.input = v.input
  final : w.final = v.final
  start : w.raw.start = v.raw.start
  sound : w.Sound
  type : w.tt = t
  data_lower : w.raw.start ≤ w.data.start
  data_order : w.data.start ≤ w.data.stop
  data_upper : w.data.stop ≤ w.raw.stop
  shaped : w.Shaped t
  attrs : t = .startTagToken ∨ t = .selfClosingTagToken → ∀ a ∈ w.attr, w.AttrIn a
  ordered : t = .startTagToken ∨ t = .selfClosingTagToken → InOrder w.data.stop w.attr w.raw.stop
  bare : t = .endTagToken → w.attr = []

end Cursor

/-- A token that was read from a later position of the same token's start. -/
theorem Cursor.Yields.of_same {t : TokenType} (yields : w.Yields t u) (input : w.input = v.input)
    (final : w.final = v.final) (start : w.raw.start = v.raw.start) : v.Yields t u :=
  ⟨yields.input.trans input, yields.final.trans final, yields.start.trans start, yields.sound,
    yields.type, yields.data_lower, yields.data_order, yields.data_upper, yields.shaped, yields.attrs,
    yields.ordered, yields.bare⟩

theorem Cursor.Moves.yields {t : TokenType} (moves : v.Moves w) (yields : w.Yields t u) :
    v.Yields t u :=
  yields.of_same moves.input moves.final moves.start

theorem emit_runs {t : TokenType} {post : TokenType → Cursor → Prop} (holds : post t { v with tt := t }) :
    Runs Shows (emit t) v post := by
  have set : Runs Shows (modify fun z => { z with tt := t } : Scan Unit) v fun _ w =>
      w = { v with tt := t } :=
    update_runs (fun v => { v with tt := t }) (fun _ _ => rfl)
      (fun _ h => ⟨h.1, h.2, h.3, h.4, h.5, h.6⟩) rfl
  refine set.bind ?_
  rintro _ _ rfl
  exact .done holds

/-- Markup that is not a tag, with its text behind its first bytes. -/
theorem Cursor.Reads.yields {t : TokenType} {n : Int} (reads : (v.seek n none).Reads w)
    (sound : (v.seek n none).Sound) (opened : v.raw.start < n) (angle : v.peek v.raw.start = byte '<')
    (type : t.Declared) : v.Yields t { w with tt := t } := by
  have here := reads.sound sound
  have start : w.raw.start = v.raw.start := reads.start
  have lower := reads.data_lower
  have forward := reads.forward
  simp only [Cursor.seek_raw] at lower forward
  refine ⟨reads.input, reads.final, reads.start, ⟨here.lower, here.order, here.upper, here.ended⟩, rfl,
    ?_, reads.data_order, reads.data_upper, ?_, ?_, ?_, ?_⟩
  · change w.raw.start ≤ w.data.start
    omega
  · have some_bytes : w.raw.start < w.raw.stop := by omega
    have first : w.peek w.raw.start = byte '<' := by rw [start, reads.peek]; exact angle
    obtain rfl | rfl | rfl := type
    · exact ⟨some_bytes, first⟩
    · exact ⟨some_bytes, first⟩
    · exact some_bytes
  all_goals obtain rfl | rfl | rfl := type <;> simp

theorem Cursor.TagRead.tagged {saveAttr : Bool} (read : v.TagRead saveAttr w) (fresh : w.err = none)
    (letter : isLetter (v.peek (v.raw.stop - 1)) = true) : w.Tagged (v.raw.stop - 1) := by
  have order := read.name_order
  obtain ⟨inside, closed⟩ := read.closed fresh
  refine ⟨read.name_start, by rwa [read.peek], by omega, inside, fun i lower upper => ?_, closed⟩
  exact read.name_bytes i (by omega) upper

/-- A tag that was read up to its end, or to the end of the input. -/
theorem Cursor.TagRead.yields {saveAttr : Bool} {t : TokenType} {n : Int}
    (read : (v.seek n none).TagRead saveAttr w) (sound : (v.seek n none).Sound)
    (opened : v.raw.start < n) (shaped : w.Shaped t) (type : t = .endTagToken → saveAttr = false) :
    v.Yields t { w with tt := t } := by
  have here := read.sound sound
  have start : w.raw.start = v.raw.start := read.start
  have name_start := read.name_start
  have name_order := read.name_order
  simp only [Cursor.seek_raw] at name_start name_order
  refine ⟨read.input, read.final, read.start, ⟨here.lower, here.order, here.upper, here.ended⟩, rfl,
    ?_, ?_, read.name_upper, ?_, fun _ a mem => ?_, fun _ => read.ordered,
    fun last => read.bare (type last)⟩
  · change w.raw.start ≤ w.data.start
    omega
  · change w.data.start ≤ w.data.stop
    omega
  · cases t with
    | errorToken | textToken | commentToken | doctypeToken => exact shaped
    | startTagToken =>
      obtain ⟨angle, tagged⟩ := shaped
      exact ⟨angle, tagged.1, tagged.2, tagged.3, tagged.4, tagged.5, tagged.6⟩
    | selfClosingTagToken =>
      obtain ⟨angle, tagged, slash⟩ := shaped
      exact ⟨angle, ⟨tagged.1, tagged.2, tagged.3, tagged.4, tagged.5, tagged.6⟩, slash⟩
    | endTagToken =>
      obtain ⟨angle, slash, tagged⟩ := shaped
      exact ⟨angle, slash, tagged.1, tagged.2, tagged.3, tagged.4, tagged.5, tagged.6⟩
  · have inside := read.attrs a mem
    exact ⟨inside.1, inside.2, inside.3, inside.4, inside.5, inside.6, inside.7⟩

/-- A token, or the end of the input without one. -/
def Cursor.Offers (v : Cursor) : Option TokenType → Cursor → Prop
  | some t, w => v.Yields t w
  | none, w => v.Moves w ∧ w.data = ⟨w.raw.start, w.raw.start⟩ ∧ w.err ≠ none

/-- The first bytes of markup were read. -/
structure Cursor.Opened (v : Cursor) (n : Int) : Prop where
  sound : (v.seek n none).Sound
  two : n = v.raw.start + 2
  forward : v.raw.stop ≤ n
  data : v.data = ⟨v.raw.start, v.raw.start⟩
  angle : v.peek v.raw.start = byte '<'

theorem Cursor.Opened.moves {n m : Int} {e : Option Err} (opened : v.Opened n)
    (reaches : (v.seek n none).Reaches m e) : v.Moves (v.seek m e) :=
  ⟨rfl, rfl, rfl, Int.le_trans opened.forward reaches.forward, reaches.upper, reaches.ended⟩

theorem readEndTag_runs {n : Int} (opened : v.Opened n) (slash : v.peek (v.raw.start + 1) = byte '/')
    (enough : v.input.length - n < fuel) :
    Runs Shows (readEndTag fuel) (v.seek n none) v.Offers := by
  have two := opened.two
  have sound := opened.sound
  refine byte_runs sound (fun past => ?_) fun more => ?_
  · exact .done ⟨opened.moves (sound.past past), opened.data, nofun⟩
  have one := Cursor.reaches_next more
  have here := sound.seek one
  simp only [Cursor.seek_seek, Cursor.seek_raw] at here one
  split_ifs with close letter
  · refine Runs.seq (emit_runs (.done ?_))
    refine ⟨rfl, rfl, rfl, ⟨here.lower, here.order, here.upper, here.ended⟩, rfl, ?_, ?_, ?_, ?_, by simp, by simp,
      by simp⟩
    · simp [opened.data]
    · simp [opened.data]
    · simp [opened.data]
      omega
    · exact ⟨by simp; omega, opened.angle⟩
  · refine (readTag_runs here (by simp; omega)).bind fun _ w read => ?_
    have start : w.raw.start = v.raw.start := read.start
    refine check_runs (fun failed => ?_) fun fresh => ?_
    · refine Runs.seq (emit_runs (.done ?_))
      exact read.yields here (by omega) ((read.sound here).over_of_err failed) (by simp)
    · refine Runs.seq (emit_runs (.done ?_))
      have letter' : isLetter ((v.seek (n + 1) none).peek (n + 1 - 1)) = true := by
        rw [show n + 1 - 1 = n by omega]
        exact letter
      have tagged := read.tagged fresh letter'
      refine read.yields here (by omega) ⟨?_, ?_, ?_⟩ fun _ => rfl
      · rw [start, read.peek]
        exact opened.angle
      · rw [start, read.peek]
        exact slash
      · rwa [start, ← two, show n = n + 1 - 1 by omega]
  · refine (unread_runs sound ?_).seq
    refine (readUntilCloseAngle_runs sound enough).bind fun _ w reads => ?_
    refine Runs.seq (emit_runs (.done ?_))
    exact reads.yields sound (by omega) opened.angle (.inl rfl)

theorem Cursor.StartTag.shaped {t : TokenType} {n : Int} (opened : v.Opened n)
    (letter : isLetter (v.peek (v.raw.start + 1)) = true) (read : (v.seek n none).StartTag w t) :
    w.Shaped t := by
  have two := opened.two
  have start : w.raw.start = v.raw.start := read.start
  have angle : w.peek w.raw.start = byte '<' := by
    rw [start, read.peek]
    exact opened.angle
  have first : w.raw.start + 1 = n - 1 := by omega
  by_cases error : t = .errorToken
  · subst error
    exact (read.sound opened.sound).over_of_err (read.error rfl)
  · have tagged := read.tagged (read.fresh error) (by
      simp only [Cursor.seek_raw, Cursor.seek_peek]
      rwa [show n - 1 = v.raw.start + 1 by omega])
    obtain rfl | ⟨rfl, slash⟩ := read.type error
    · exact ⟨angle, by rw [first]; exact tagged⟩
    · exact ⟨angle, by rw [first]; exact tagged, slash⟩

theorem readMarkup_runs {n : Int} (opened : v.Opened n) (enough : v.input.length - n + 1 < fuel) :
    Runs Shows (readMarkup fuel (v.peek (v.raw.start + 1))) (v.seek n none) v.Offers := by
  have two := opened.two
  have sound := opened.sound
  rw [readMarkup]
  split_ifs with letter slash bang
  · refine (readStartTag_runs sound (by simp; omega) (by simp; omega)).bind fun t w read => ?_
    refine Runs.seq (emit_runs (.done ?_))
    refine read.yields sound (by omega) (read.shaped opened letter) ?_
    rintro rfl
    simpa using read.type
  · exact readEndTag_runs opened slash (by omega)
  · refine (readMarkupDeclaration_runs sound (by simp; omega)).bind fun t w ⟨reads, type⟩ => ?_
    refine Runs.seq (emit_runs (.done ?_))
    exact reads.yields sound (by omega) opened.angle type
  · refine (seek_back_runs (by omega) (by omega) ?_).seq
    have limit : n ≤ v.input.length := sound.upper
    have here : (v.seek (n - 1) none).Sound :=
      ⟨sound.lower, by simp; omega, by simp only [Cursor.seek_raw, Cursor.seek_input]; omega, .inl rfl⟩
    refine (readUntilCloseAngle_runs here (by simp; omega)).bind fun _ w reads => ?_
    refine Runs.seq (emit_runs (.done ?_))
    exact reads.yields here (by omega) opened.angle (.inl rfl)

/-- Text from the start of the token to the position. -/
theorem Cursor.text_yields {n : Int} {e : Option Err} (sound : (v.seek n e).Sound) (some_text : v.raw.start < n)
    (data : v.data.start = v.raw.start) :
    v.Yields .textToken { (v.seek n e).setData (v.data.stopAt (n - 0)) with tt := .textToken } := by
  refine ⟨rfl, rfl, rfl, ⟨sound.lower, sound.order, sound.upper, sound.ended⟩, rfl, ?_, ?_, ?_,
    some_text, by simp, by simp, by simp⟩
  · simp [Span.stopAt, data, Cursor.setData]
  · simp [Span.stopAt, data, Cursor.setData]
    omega
  · simp [Span.stopAt, Cursor.setData]

theorem nextLoop_runs {count : Nat} (sound : v.Sound) (data : v.data = ⟨v.raw.start, v.raw.start⟩)
    (enough : v.input.length - v.raw.stop < fuel) (many : v.input.length - v.raw.stop < count) :
    Runs Shows (nextLoop fuel count) v v.Offers := by
  induction count generalizing v with
  | zero =>
    have := sound.upper
    omega
  | succ count ih =>
    have order := sound.order
    have text : v.data.start = v.raw.start := by rw [data]
    -- the loop goes on behind the byte that was read
    have again {n : Int} (reaches : v.Reaches n none) (later : v.raw.stop < n) :
        Runs Shows (nextLoop fuel count) (v.seek n none) v.Offers := by
      refine (ih (sound.seek reaches) data (by simp; omega) (by simp; omega)).imp ?_
      rintro (_ | t) w offers
      · exact ⟨reaches.moves.trans offers.1, offers.2⟩
      · exact reaches.moves.yields offers
    refine byte_runs sound (fun past => ?_) fun more => ?_
    · exact .done ⟨(sound.past past).moves, data, nofun⟩
    have one := Cursor.reaches_next more
    split_ifs with other
    · exact again one (Int.lt_succ _)
    · refine byte_runs (sound.seek one) (fun past => ?_) fun next => ?_
      · exact .done ⟨(one.trans ((sound.seek one).past past)).moves, data, nofun⟩
      have two := one.trans (Cursor.reaches_next next)
      have limit : v.raw.stop + 1 < v.input.length := next
      split_ifs with plain
      · refine (unread_runs (sound.seek one) ?_).seq
        exact again one (Int.lt_succ _)
      · refine Runs.read (p := if v.raw.start < v.raw.stop + 1 + 1 - 2 then do
            back 2
            dataEnd 0
            pure (some (← emit .textToken))
          else readMarkup fuel (v.peek (v.raw.stop + 1))) ?_ ?_
        · rintro z ⟨gone, same, -⟩
          have start : z.raw.start + gone.length = v.raw.start := by
            simpa [Tokenizer.cursor, Span.sub] using congrArg (fun w => w.raw.start) same
          have stop : z.raw.stop + gone.length = v.raw.stop + 1 + 1 := by
            simpa [Tokenizer.cursor, Span.sub] using congrArg (fun w => w.raw.stop) same
          have here : z.raw.start < z.raw.stop - 2 ↔ v.raw.start < v.raw.stop + 1 + 1 - 2 := by omega
          simp only [here]
          rfl
        · split_ifs with before
          · refine (seek_back_runs (by omega) (by simp; omega) ?_).seq
            refine (dataEnd_runs ?_).seq
            refine Runs.seq (emit_runs (.done ?_))
            refine Cursor.text_yields ⟨sound.lower, ?_, ?_, .inl rfl⟩ before text
            · simp only [Cursor.seek_raw]
              omega
            · simp only [Cursor.seek_raw, Cursor.seek_input]
              omega
          · have stop : v.raw.stop = v.raw.start := by omega
            have opened : v.Opened (v.raw.stop + 1 + 1) :=
              ⟨sound.seek two, by omega, by omega, data, by rw [← stop]; simpa using other⟩
            have run : Runs Shows (readMarkup fuel _) _ _ := readMarkup_runs opened (by omega)
            rwa [← stop] at run

theorem clearFlags_runs {done : Unit → Cursor → Prop}
    (holds : done () { v with textIsRaw := false, convertNUL := false }) :
    Runs Shows (modify fun z => { z with textIsRaw := false, convertNUL := false } : Scan Unit) v done :=
  update_runs (fun v => { v with textIsRaw := false, convertNUL := false }) (fun _ _ => rfl)
    (fun _ h => ⟨h.1, h.2, h.3, h.4, h.5, h.6⟩) holds

/-- `Next` from the start of a token outside of raw text. -/
theorem nextContent_runs (sound : v.Sound) (data : v.data = ⟨v.raw.start, v.raw.start⟩)
    (enough : v.input.length - v.raw.stop < fuel) :
    Runs Shows (nextContent fuel) v v.Yields := by
  refine (clearFlags_runs ?_).seq
  generalize cleared : ({ v with textIsRaw := false, convertNUL := false } : Cursor) = o
  have moves : v.Moves o := by
    rw [← cleared]
    exact ⟨rfl, rfl, rfl, Int.le_refl _, sound.upper, sound.ended⟩
  have same : o.data = ⟨o.raw.start, o.raw.start⟩ := by rw [← cleared]; exact data
  have stop : o.raw.stop = v.raw.stop := by rw [← cleared]
  rw [← moves.input, ← stop] at enough
  refine (nextLoop_runs (moves.sound sound) same enough enough).bind ?_
  rintro (_ | t) w offers
  · obtain ⟨goes, empty, failed⟩ := offers
    have here := goes.sound (moves.sound sound)
    have order := here.order
    have last := here.over_of_err failed
    refine Runs.read (p := if w.raw.start < w.raw.stop then do
        dataEnd 0
        emit .textToken
      else emit .errorToken) ?_ ?_
    · rintro z ⟨gone, rfl, -⟩
      have here : z.raw.start < z.raw.stop ↔ (z.cursor gone).raw.start < (z.cursor gone).raw.stop := by
        simp only [Tokenizer.cursor, Span.sub]
        omega
      simp only [here]
    · split_ifs with some_text
      · refine (dataEnd_runs ?_).seq
        refine emit_runs ((moves.trans goes).yields ?_)
        exact Cursor.text_yields (v := w) (n := w.raw.stop) (e := w.err) here some_text (by rw [empty])
      · refine emit_runs (moves.yields ⟨goes.input, goes.final, goes.start,
          ⟨here.lower, here.order, here.upper, here.ended⟩, rfl, ?_, ?_, ?_, last, by simp, by simp, by simp⟩)
        all_goals
          simp only [empty]
          omega
  · exact .done (moves.yields offers)

theorem begin_runs {done : Unit → Cursor → Prop}
    (holds : done () { v with raw := ⟨v.raw.stop, v.raw.stop⟩, data := ⟨v.raw.stop, v.raw.stop⟩ }) :
    Runs Shows (modify fun z =>
      { z with raw := ⟨z.raw.stop, z.raw.stop⟩, data := ⟨z.raw.stop, z.raw.stop⟩ } : Scan Unit) v done :=
  update_runs (fun v => { v with raw := ⟨v.raw.stop, v.raw.stop⟩, data := ⟨v.raw.stop, v.raw.stop⟩ })
    (fun _ _ => rfl)
    (fun _ h => ⟨h.1, Int.le_trans h.2 h.3, Int.le_refl _, h.4, h.5, h.6⟩) holds

/-- What `Next` does: a token from where the last one ended. -/
structure Cursor.Nexts (v : Cursor) (t : TokenType) (w : Cursor) : Prop where
  input : w.input = v.input
  final : w.final = v.final
  start : w.raw.start = v.raw.stop
  yields : w.Yields t w

theorem next_runs (sound : v.Sound) (enough : 3 * (v.input.length - v.raw.stop) + 1 < fuel) :
    Runs Shows (next fuel) v v.Nexts := by
  have upper := sound.upper
  refine (begin_runs ?_).seq
  generalize begun : ({ v with raw := ⟨v.raw.stop, v.raw.stop⟩, data := ⟨v.raw.stop, v.raw.stop⟩ } : Cursor) = o
  have input : o.input = v.input := by rw [← begun]
  have raw : o.raw = ⟨v.raw.stop, v.raw.stop⟩ := by rw [← begun]
  have data : o.data = ⟨o.raw.start, o.raw.start⟩ := by rw [← begun]
  have here : o.Sound := by
    rw [← begun]
    exact ⟨Int.le_trans sound.lower sound.order, Int.le_refl _, sound.upper, sound.ended⟩
  have nexts {t : TokenType} {w : Cursor} (yields : o.Yields t w) : v.Nexts t w := by
    refine ⟨yields.input.trans input, ?_, ?_, yields.of_same ?_ ?_ ?_⟩
    · rw [yields.final, ← begun]
    · rw [yields.start, raw]
    · exact yields.input.symm
    · exact yields.final.symm
    · exact yields.start.symm
  have content : Runs Shows (nextContent fuel) o v.Nexts :=
    (nextContent_runs here data (by rw [input, raw]; simp only; omega)).imp fun _ _ => nexts
  refine check_runs (fun failed => ?_) fun fresh => ?_
  · refine emit_runs (nexts ⟨rfl, rfl, rfl, ⟨here.lower, here.order, here.upper, here.ended⟩, rfl, ?_, ?_, ?_,
      here.over_of_err failed, by simp, by simp, by simp⟩) <;> simp [data, raw]
  · refine Runs.read (p := if o.rawTag ≠ [] then do
        readRawText fuel
        let z ← get
        if z.data.start < z.data.stop then do
          modify fun z => { z with convertNUL := true }
          emit .textToken
        else nextContent fuel
      else nextContent fuel) ?_ ?_
    · rintro z ⟨gone, rfl, -⟩
      rfl
    · split_ifs with tag
      · have start : o.raw.start = o.raw.stop := by rw [raw]
        refine (readRawText_runs here fresh (by rw [input, raw]; exact enough)).bind fun _ w text => ?_
        have order := text.sound.order
        have same : w.data = ⟨w.raw.start, w.raw.stop⟩ := by
          rw [text.data, data, text.start]
          rfl
        refine Runs.read (p := if w.raw.start < w.raw.stop then do
            modify fun z => { z with convertNUL := true }
            emit .textToken
          else nextContent fuel) ?_ ?_
        · rintro z ⟨gone, rfl, -⟩
          have here : z.data.start < z.data.stop ↔
              (z.cursor gone).raw.start < (z.cursor gone).raw.stop := by
            have start := congrArg Span.start same
            have stop := congrArg Span.stop same
            simp only [Tokenizer.cursor, Span.sub] at start stop ⊢
            omega
          simp only [here]
        · split_ifs with some_text
          · refine (convertNUL_runs ?_).seq
            have found := text.sound
            refine emit_runs (nexts ⟨text.input, text.final, text.start,
              ⟨found.lower, found.order, found.upper, found.ended⟩, rfl, ?_, ?_, ?_, some_text, by simp,
              by simp, by simp⟩) <;>
            simp [same]
            exact order
          · have empty : w.data = ⟨w.raw.start, w.raw.start⟩ := by
              rw [same, show w.raw.stop = w.raw.start by omega]
            refine (nextContent_runs text.sound empty ?_).imp fun t u yields =>
              nexts (yields.of_same text.input text.final text.start)
            rw [text.input, input]
            have begins := text.start
            rw [raw] at begins
            simp only at begins
            omega
      · exact content

end Gopherize.Html
