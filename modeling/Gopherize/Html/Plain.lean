import Gopherize.Html.Accessors

/-! Text without markup, through the whole tokenizer: it is one token, with its references replaced.
What `EscapeString` writes is such a text, and is read back as it was. -/
namespace Gopherize.Html
open GoCore

variable {v w : Cursor} {z : Tokenizer} {fuel : Nat}

/-- No byte from the position on starts markup. -/
def Cursor.Plain (v : Cursor) : Prop := ∀ i, v.raw.stop ≤ i → i < v.input.length → v.peek i ≠ byte '<'

theorem nextLoop_plain {count : Nat} (sound : v.Sound) (plain : v.Plain)
    (many : v.input.length - v.raw.stop < count) :
    Runs Shows (nextLoop fuel count) v fun t w =>
      t = none ∧ w = v.seek v.input.length (some v.final) := by
  induction count generalizing v with
  | zero =>
    have := sound.upper
    omega
  | succ count ih =>
    refine byte_runs sound (fun past => ?_) fun more => ?_
    · exact .done ⟨rfl, by rw [past]⟩
    · rw [if_pos (plain v.raw.stop (Int.le_refl _) more)]
      have later : (v.seek (v.raw.stop + 1) none).Plain := by
        intro i lower upper
        simp only [Cursor.seek_raw] at lower
        exact plain i (by omega) upper
      refine ih (sound.seek (Cursor.reaches_next more)) later ?_
      simp only [Cursor.seek_input, Cursor.seek_raw]
      omega

/-- The token that holds all the text that is left. -/
def Cursor.lastText (v : Cursor) : Cursor :=
  { v with
    tt := .textToken, err := some v.final, raw := ⟨v.raw.stop, v.input.length⟩
    data := ⟨v.raw.stop, v.input.length⟩, textIsRaw := false, convertNUL := false }

theorem nextContent_plain (sound : v.Sound) (plain : v.Plain) (begins : v.raw.start = v.raw.stop)
    (data : v.data.start = v.raw.stop) (more : v.raw.stop < v.input.length)
    (enough : v.input.length - v.raw.stop < fuel) :
    Runs Shows (nextContent fuel) v fun t w => t = .textToken ∧ w = v.lastText := by
  refine (clearFlags_runs ?_).seq
  have here : Cursor.Sound { v with textIsRaw := false, convertNUL := false } :=
    ⟨sound.lower, sound.order, sound.upper, sound.ended⟩
  refine (nextLoop_plain here plain enough).bind ?_
  rintro _ _ ⟨rfl, rfl⟩
  refine Runs.read (p := do
    dataEnd 0
    emit .textToken) ?_ ?_
  · rintro z ⟨gone, same, -⟩
    have start : z.raw.start + gone.length = v.raw.start := by
      simpa [Tokenizer.cursor, Span.sub] using congrArg (fun w => w.raw.start) same
    have stop : z.raw.stop + gone.length = v.input.length := by
      simpa [Tokenizer.cursor, Span.sub] using congrArg (fun w => w.raw.stop) same
    rw [if_pos (by omega)]
  · refine (dataEnd_runs ?_).seq
    refine emit_runs ⟨rfl, ?_⟩
    simp only [Cursor.lastText, Cursor.seek, Cursor.setData, Span.stopAt, data, begins, Int.sub_zero]

theorem next_plain (fuel : Nat) (sound : v.Sound) (plain : v.Plain) (fresh : v.err = none) (tag : v.rawTag = [])
    (more : v.raw.stop < v.input.length) (enough : v.input.length - v.raw.stop < fuel) :
    Runs Shows (next fuel) v fun t w => t = .textToken ∧ w = v.lastText := by
  refine (begin_runs ?_).seq
  refine check_runs (fun failed => absurd fresh failed) fun _ => ?_
  refine Runs.read (p := nextContent fuel) ?_ ?_
  · rintro z ⟨gone, same, -⟩
    have none : z.rawTag = [] := (congrArg Cursor.rawTag same).trans tag
    rw [if_neg (not_not.mpr none)]
  · have here : Cursor.Sound { v with raw := ⟨v.raw.stop, v.raw.stop⟩, data := ⟨v.raw.stop, v.raw.stop⟩ } :=
      ⟨Int.le_trans sound.lower sound.order, Int.le_refl _, sound.upper, sound.ended⟩
    exact nextContent_plain here plain rfl rfl more enough

/-- Behind the last token, with the error that ended it. -/
def Cursor.atEnd (v : Cursor) : Cursor :=
  { v with tt := .errorToken, raw := ⟨v.raw.stop, v.raw.stop⟩, data := ⟨v.raw.stop, v.raw.stop⟩ }

theorem next_failed (fuel : Nat) (failed : v.err ≠ none) :
    Runs Shows (next fuel) v fun t w => t = .errorToken ∧ w = v.atEnd := by
  refine (begin_runs ?_).seq
  exact check_runs (fun _ => emit_runs ⟨rfl, rfl⟩) fun fresh => absurd fresh failed

theorem Cursor.lastText_yields (sound : v.Sound) (more : v.raw.stop < v.input.length) :
    v.lastText.Yields .textToken v.lastText := by
  have lower := sound.lower
  have order := sound.order
  have upper := sound.upper
  refine ⟨rfl, rfl, rfl, ⟨?_, upper, Int.le_refl _, .inr ⟨rfl, rfl⟩⟩, rfl, Int.le_refl _, upper,
    Int.le_refl _, more, by simp, by simp, by simp⟩
  exact Int.le_trans lower order

theorem Cursor.atEnd_yields (sound : v.Sound) (last : v.raw.stop = v.input.length) :
    v.atEnd.Yields .errorToken v.atEnd :=
  ⟨rfl, rfl, rfl, ⟨Int.le_trans sound.lower sound.order, Int.le_refl _, sound.upper, sound.ended⟩, rfl,
    Int.le_refl _, Int.le_refl _, Int.le_refl _, last, by simp, by simp, by simp⟩

theorem Cursor.lastText_decoded (t : Entities) (begins : v.raw.stop = 0) :
    v.lastText.lexeme.decoded t false false = ⟨.textToken, unescaped t false (normalized v.input), []⟩ := by
  have all : v.lastText.cut ⟨v.raw.stop, v.input.length⟩ = v.input := by
    rw [begins]
    exact Cursor.cut_rest 0
  change Token.mk _ (unescaped t false (normalized (v.lastText.cut ⟨v.raw.stop, v.input.length⟩))) _ = _
  rw [all]
  rfl

/-- An input without markup is one text token, with line ends and references replaced. -/
theorem tokens_plain {r : Reader} (t : Entities) (count : Nat) (steady : r.Steady) (some : r.rest ≠ [])
    (plain : byte '<' ∉ r.rest) (enough : 3 * r.rest.length + 1 < fuel) (many : r.rest.length < count) :
    tokens t fuel count (newTokenizerFragment r []) =
      .ok [⟨.textToken, unescaped t false (normalized r.rest), []⟩, ⟨.errorToken, [], []⟩] := by
  obtain ⟨v, start⟩ : ∃ v, v = (newTokenizerFragment r []).cursor [] := ⟨_, rfl⟩
  have shown : Shows (newTokenizerFragment r []) v := ⟨[], start.symm, fragment_valid steady []⟩
  have input : v.input = r.rest := by rw [start]; rfl
  have begins : v.raw.stop = 0 := by rw [start]; rfl
  have fresh : v.err = none := by rw [start]; rfl
  have tag : v.rawTag = [] := by rw [start]; rfl
  have sound : v.Sound := by
    rw [start]
    exact ⟨Int.le_refl _, Int.le_refl _, Int.natCast_nonneg _, .inl rfl⟩
  have length : 0 < r.rest.length := List.length_pos_iff.mpr some
  have more : v.raw.stop < v.input.length := by
    rw [begins, input]
    omega
  have bare : v.Plain := by
    intro i lower upper same
    rw [input] at upper
    have inside : i.toNat < r.rest.length := by omega
    refine plain ?_
    rw [← same, Cursor.peek, input, List.getD_eq_getElem?_getD, List.getElem?_eq_getElem inside]
    exact List.getElem_mem inside
  have left : (v.input.length : Int) - v.raw.stop = r.rest.length := by
    rw [begins, input, Int.sub_zero]
  obtain ⟨_, _, ⟨rfl, rfl⟩, run⟩ := next_plain fuel sound bare fresh tag more (by omega)
  obtain ⟨z, ran, shown'⟩ := run _ shown
  have yields := Cursor.lastText_yields sound more
  obtain ⟨_, _, ⟨rfl, rfl⟩, run'⟩ := next_failed (v := v.lastText) fuel (by simp [Cursor.lastText])
  obtain ⟨z', ran', shown''⟩ := run' z shown'
  have first := decode_shown t _ _ _ shown' yields
  have last := decode_shown t _ _ _ shown'' (Cursor.atEnd_yields yields.sound rfl)
  obtain ⟨n, rfl⟩ : ∃ n, count = n + 1 + 1 := ⟨count - 2, by omega⟩
  rw [tokens_shown t _ shown sound (by omega) (by omega),
    collect_more ran (by simp) first (collect_last ran' last)]
  have text := Cursor.lastText_decoded t begins
  rw [input] at text
  exact congrArg (fun token => Except.ok [token, _]) text

/-- A text that is escaped and read again is one token, with the text as it was. -/
theorem tokens_escaped {r : Reader} (t : Entities) (count : Nat) (s : Bytes) (steady : r.Steady)
    (some : s ≠ []) (written : escapeString fuel s = .ok r.rest) (small : s.length < fuel)
    (enough : 3 * r.rest.length + 1 < fuel) (many : r.rest.length < count) :
    tokens t fuel count (newTokenizerFragment r []) =
      .ok [⟨.textToken, s, []⟩, ⟨.errorToken, [], []⟩] := by
  have rest : r.rest = escaped s := Except.ok.inj (written.symm.trans (escapeString_eq s small))
  have back := unescaped_escaped t false s
  have none (c : UInt8) (special : c ∈ escapedChars) (other : c ≠ byte '&') : c ∉ r.rest := by
    intro mem
    exact other (escaped_safe s c (rest ▸ mem) special)
  have more : r.rest ≠ [] := by
    intro nothing
    rw [← rest, nothing, unescaped, InPlace.rewrite_nil] at back
    exact some back.symm
  rw [tokens_plain t count steady more (none _ (by decide) (by decide)) enough many,
    normalized_of_plain (none _ (by decide) (by decide)), rest, back]

theorem tokens_escaped_tag :
    tokens fewEntities 50 20 (newTokenizerFragment { rest := escaped (bytes "<b>") } []) =
      .ok [⟨.textToken, bytes "<b>", []⟩, ⟨.errorToken, [], []⟩] := by
  have length : (escaped (bytes "<b>")).length = 9 := by decide
  have small : (bytes "<b>").length < 50 := by decide
  have steady : Reader.Steady { rest := escaped (bytes "<b>") } := fun k => ⟨0, by decide, by simp⟩
  have written : escapeString 50 (bytes "<b>") = .ok (escaped (bytes "<b>")) := escapeString_eq _ small
  exact tokens_escaped fewEntities 20 (bytes "<b>") steady (by decide) written small (by simp [length])
    (by simp [length])

end Gopherize.Html
