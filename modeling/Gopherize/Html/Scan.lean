import Gopherize.Html.Buffer

/-! What each scanning function of the tokenizer does to the cursor. With fuel for the bytes that
are left they all return; positions move on and spans stay between start and position. -/
namespace Gopherize.Html
open GoCore

variable {v w : Cursor} {fuel : Nat}

namespace Cursor

/-- Spaces are passed, and nothing is passed unless there is one. -/
structure Skips (v : Cursor) (n : Int) (e : Option Err) : Prop extends v.Reaches n e where
  stays : isSpace (v.peek v.raw.stop) = false → n = v.raw.stop

theorem Reaches.fresh_of_lt (reaches : v.Reaches n e) (more : n < v.input.length) : e = none := by
  obtain fresh | ⟨-, last⟩ := reaches.ended
  · exact fresh
  · omega

end Cursor

theorem skipLoop_runs (sound : v.Sound) (enough : v.input.length - v.raw.stop < fuel) :
    Runs Shows (skipLoop fuel) v fun _ w => ∃ n e, w = v.seek n e ∧ v.Skips n e := by
  induction fuel generalizing v with
  | zero =>
    have := sound.upper
    omega
  | succ fuel ih =>
    refine byte_runs sound (fun past => .done ⟨_, _, rfl, sound.past past, fun _ => rfl⟩) fun more => ?_
    split
    · rename_i space
      have next := Cursor.reaches_next more
      refine (ih (sound.seek next) (by simp; omega)).imp ?_
      rintro _ _ ⟨n, e, rfl, skips⟩
      exact ⟨n, e, rfl, next.trans skips.toReaches, fun plain => by simp [plain] at space⟩
    · exact unread_runs sound ⟨_, _, rfl, Cursor.reaches_here more, fun _ => rfl⟩

theorem skipWhiteSpace_runs (sound : v.Sound) (enough : v.input.length - v.raw.stop < fuel) :
    Runs Shows (skipWhiteSpace fuel) v fun _ w => ∃ n e, w = v.seek n e ∧ v.Skips n e := by
  exact check_runs (fun _ => .done ⟨_, _, rfl, sound.stay, fun _ => rfl⟩)
    fun _ => skipLoop_runs sound enough

/-- How a comparison with a word of the given length ends. -/
structure Cursor.Compares (v : Cursor) (length : Nat) (o : Compared) (n : Int) (e : Option Err) : Prop
    extends v.Reaches n e where
  error : o = .error → e ≠ none
  fresh : o ≠ .error → e = none
  whole : o = .whole → n = v.raw.stop + length
  mismatch : o = .mismatch → v.raw.stop + 1 ≤ n

theorem expect_runs {same : UInt8 → UInt8 → Bool} {s : Bytes} (sound : v.Sound)
    (fresh : s = [] → v.err = none) :
    Runs Shows (expect same s) v fun o w => ∃ n e, w = v.seek n e ∧ v.Compares s.length o n e := by
  induction s generalizing v with
  | nil =>
    refine .done ⟨v.raw.stop, v.err, rfl, sound.stay, ?_, fun _ => fresh rfl, ?_, ?_⟩ <;> simp
  | cons s ss ih =>
    refine byte_runs sound (fun past => .done ⟨_, _, rfl, sound.past past, ?_, ?_, ?_, ?_⟩) fun more => ?_
    all_goals try simp
    have next := Cursor.reaches_next more
    split
    · refine (ih (sound.seek next) fun _ => rfl).imp ?_
      rintro o _ ⟨n, e, rfl, compares⟩
      refine ⟨n, e, rfl, next.trans compares.toReaches, compares.error, compares.fresh, ?_, ?_⟩
      · intro whole
        have := compares.whole whole
        simp at this ⊢
        omega
      · intro mismatch
        have := compares.mismatch mismatch
        simp at this
        omega
    · exact .done ⟨_, _, rfl, next, by simp, by simp, by simp, by simp⟩

/-- A scan that ends at position `n` with a span that ends `k` bytes before it. -/
structure Cursor.Scans (v : Cursor) (past upto : UInt8 → Bool) (n : Int) (e : Option Err) (k : Int) :
    Prop extends v.Reaches n e where
  nonneg : 0 ≤ k
  forward_end : v.raw.stop ≤ n - k
  inside : ∀ i, v.raw.stop ≤ i → i < n - k → past (v.peek i) = false ∧ upto (v.peek i) = false
  stopped : e = none → k = 1 ∧ past (v.peek (n - 1)) = true ∨
    k = 0 ∧ n < v.input.length ∧ upto (v.peek n) = true

theorem scanTo_runs {past upto : UInt8 → Bool} {setEnd : Int → Scan Unit}
    {ends : Cursor → Int → Cursor}
    (sets : ∀ w n, Runs Shows (setEnd n) w fun _ u => u = ends w n) (sound : v.Sound)
    (enough : v.input.length - v.raw.stop < fuel) :
    Runs Shows (scanTo past upto setEnd fuel) v fun _ u =>
      ∃ n e k, u = ends (v.seek n e) k ∧ v.Scans past upto n e k := by
  induction fuel generalizing v with
  | zero =>
    have := sound.upper
    omega
  | succ fuel ih =>
    refine byte_runs sound (fun past => ?_) fun more => ?_
    · refine (sets _ _).imp fun _ u same => ⟨_, _, _, same, sound.past past, ?_, ?_, ?_, ?_⟩
      · omega
      · omega
      · intro i lower upper
        omega
      · simp
    · have next := Cursor.reaches_next more
      have order := sound.order
      split
      · rename_i ends
        refine (sets _ _).imp fun _ u same => ⟨_, _, _, same, next, ?_, ?_, ?_, ?_⟩
        · omega
        · omega
        · intro i lower upper
          omega
        · intro _
          exact .inl ⟨rfl, by rwa [show v.raw.stop + 1 - 1 = v.raw.stop by omega]⟩
      · rename_i other
        split
        · rename_i ends
          refine (unread_runs sound ?_).seq
          refine (sets _ _).imp fun _ u same =>
            ⟨_, _, _, same, Cursor.reaches_here more, ?_, ?_, ?_, fun _ => .inr ⟨rfl, more, ends⟩⟩
          · omega
          · omega
          · intro i lower upper
            omega
        · rename_i plain
          refine (ih (sound.seek next) (by simp; omega)).imp ?_
          rintro _ u ⟨n, e, k, same, scans⟩
          refine ⟨n, e, k, same, next.trans scans.toReaches, scans.nonneg, ?_, ?_, scans.stopped⟩
          · have := scans.forward_end
            simp at this
            omega
          · intro i lower upper
            by_cases first : i = v.raw.stop
            · subst first
              exact ⟨by simpa using other, by simpa using plain⟩
            · exact scans.inside i (by simp; omega) upper

/-- What `rawEndTag` finds: the tag's name and one byte behind it. -/
theorem rawEndTag_runs (sound : v.Sound) (fresh : v.err = none) :
    Runs Shows rawEndTag v fun b w => ∃ n e, w = v.seek n e ∧ v.Reaches n e ∧
      (b = true → e = none ∧ n = v.raw.stop + v.rawTag.length + 1) := by
  refine Runs.read (p := do afterRawTag (← expect sameLetter v.rawTag)) ?_ ?_
  · rintro z ⟨gone, rfl, -⟩
    rfl
  refine (expect_runs sound fun _ => fresh).bind ?_
  rintro o _ ⟨n, e, rfl, compares⟩
  have forward := compares.forward
  have order := sound.order
  cases o with
  | error => exact .done ⟨n, e, rfl, compares.toReaches, by simp⟩
  | mismatch =>
    have one := compares.mismatch rfl
    refine (seek_back_runs (by omega) (by omega) ?_).seq
    have upper := compares.upper
    exact .done ⟨_, _, rfl, ⟨by omega, by omega, .inl (compares.fresh (by simp))⟩, by simp⟩
  | whole =>
    have length := compares.whole rfl
    refine byte_runs (sound.seek compares.toReaches) (fun past => ?_) fun more => ?_
    · exact .done ⟨_, _, rfl, compares.trans ((sound.seek compares.toReaches).past past), by simp⟩
    · have next := compares.trans (Cursor.reaches_next more)
      split
      · refine .done ⟨_, _, rfl, next, fun _ => ⟨rfl, ?_⟩⟩
        simp
        omega
      · refine (unread_runs (sound.seek compares.toReaches) ?_).seq
        exact .done ⟨_, _, rfl, compares.trans (Cursor.reaches_here more), by simp⟩

/-- After "</", the position is before these two bytes or further on. -/
theorem readRawEndTag_runs (sound : v.Sound) (fresh : v.err = none)
    (opened : v.raw.start + 2 ≤ v.raw.stop) :
    Runs Shows readRawEndTag v fun b w => (b = true → w = v.seek (v.raw.stop - 2) none) ∧
      (b = false → v.Ahead w) := by
  refine (rawEndTag_runs sound fresh).bind ?_
  rintro b _ ⟨n, e, rfl, reaches, found⟩
  cases b with
  | false => exact .done ⟨nofun, fun _ => ⟨n, e, rfl, reaches⟩⟩
  | true =>
    obtain ⟨rfl, rfl⟩ := found rfl
    refine Runs.read (p := do back (3 + v.rawTag.length); pure true) ?_ ?_
    · rintro z ⟨gone, same, -⟩
      rw [show z.rawTag = v.rawTag from congrArg Cursor.rawTag same]
    · refine (seek_back_runs (by omega) (by omega) ?_).seq
      refine .done ⟨fun _ => ?_, nofun⟩
      congr 1
      omega

/-- How far the position can fall back at a label of `readScript`, in steps of the loop: three
for a byte, and what the label may still do without reading on. -/
def Script.rank : Script → Nat
  | .dataLessThanSign | .dataEndTagOpen | .dataEscapeStart | .dataEscapeStartDash
  | .escapedEndTagOpen | .doubleEscapedLessThanSign | .doubleEscapeEnd => 1
  | .escapedLessThanSign => 2
  | .doubleEscapeStart => 4
  | _ => 0

/-- How many bytes of the token were read before a label of `readScript`, at least. -/
def Script.margin : Script → Nat
  | .dataLessThanSign | .escapedLessThanSign | .doubleEscapedLessThanSign | .doubleEscapeStart => 1
  | .dataEndTagOpen | .escapedEndTagOpen | .doubleEscapeEnd => 2
  | _ => 0

namespace Cursor

structure Proceeds (v : Cursor) (label : Script) (next : Option Script) (n : Int) (e : Option Err) :
    Prop where
  lower : v.raw.start ≤ n
  upper : n ≤ v.input.length
  ended : e = none ∨ e = some v.final ∧ n = v.input.length
  fresh : ∀ l, next = some l → e = none
  margin : ∀ l, next = some l → v.raw.start + l.margin ≤ n
  decreases : ∀ l, next = some l →
    3 * (v.input.length - n) + l.rank < 3 * (v.input.length - v.raw.stop) + label.rank

/-- What a label of `readScript` does. -/
def Steps (v : Cursor) (label : Script) (next : Option Script) (w : Cursor) : Prop :=
  ∃ n e, w = v.seek n e ∧ v.Proceeds label next n e

theorem Reaches.returns (reaches : v.Reaches n e) (sound : v.Sound) (label : Script) :
    v.Steps label none (v.seek n e) :=
  ⟨n, e, rfl, Int.le_trans sound.order reaches.forward, reaches.upper, reaches.ended, nofun, nofun,
    nofun⟩

end Cursor

section Script
variable {label l : Script}

theorem onByte_runs {next : UInt8 → Scan (Option Script)} (sound : v.Sound)
    (more : v.raw.stop < v.input.length →
      Runs Shows (next (v.peek v.raw.stop)) (v.seek (v.raw.stop + 1) none) (v.Steps label)) :
    Runs Shows (onByte next) v (v.Steps label) :=
  byte_runs sound (fun past => .done ((sound.past past).returns sound label)) more

theorem goto_runs (margin : v.raw.start + label.margin ≤ v.raw.stop)
    (more : v.raw.stop < v.input.length) (rank : l.rank < 3 + label.rank)
    (room : l.margin ≤ 1 + label.margin) :
    Runs Shows (pure (some l) : Scan (Option Script)) (v.seek (v.raw.stop + 1) none)
      (v.Steps label) := by
  refine .done ⟨_, _, rfl, by omega, by omega, .inl rfl, fun _ _ => rfl, ?_, ?_⟩ <;>
  · rintro _ ⟨⟩
    omega

theorem backTo_runs (sound : v.Sound) (margin : v.raw.start + label.margin ≤ v.raw.stop)
    (rank : l.rank < label.rank) (room : l.margin ≤ label.margin) :
    Runs Shows (backTo l) (v.seek (v.raw.stop + 1) none) (v.Steps label) := by
  have upper := sound.upper
  refine (unread_runs sound ?_).seq
  refine .done ⟨_, _, rfl, by omega, by omega, .inl rfl, fun _ _ => rfl, ?_, ?_⟩ <;>
  · rintro _ ⟨⟩
    omega

theorem endTagOr_runs (sound : v.Sound) (fresh : v.err = none)
    (opened : v.raw.start + 2 ≤ v.raw.stop) (rank : l.rank < label.rank) (room : l.margin = 0) :
    Runs Shows (endTagOr l) v (v.Steps label) := by
  have upper := sound.upper
  refine (readRawEndTag_runs sound fresh opened).bind ?_
  rintro b w ⟨found, other⟩
  cases b with
  | true =>
    rw [found rfl]
    exact .done ⟨_, _, rfl, by omega, by omega, .inl rfl, nofun, nofun, nofun⟩
  | false =>
    obtain ⟨n, e, rfl, reaches⟩ := other rfl
    refine check_runs (fun _ => .done (reaches.returns sound label)) fun fresh => ?_
    have forward := reaches.forward
    refine .done ⟨_, _, rfl, by omega, reaches.upper, .inl fresh, fun _ _ => fresh, ?_, ?_⟩ <;>
    · rintro _ ⟨⟩
      omega

theorem doubleEscapeStart_runs (sound : v.Sound) (fresh : v.err = none)
    (margin : v.raw.start + 1 ≤ v.raw.stop) :
    Runs Shows (scriptStep .doubleEscapeStart) v (v.Steps .doubleEscapeStart) := by
  have upper := sound.upper
  have first : (v.seek (v.raw.stop - 1) v.err).Sound :=
    ⟨sound.lower, by simp; omega, by simp; omega, .inl fresh⟩
  refine (back_runs (by omega) (by omega) ?_).seq
  refine (expect_runs first fun _ => fresh).bind ?_
  rintro o _ ⟨n, e, rfl, compares⟩
  have forward := compares.forward
  have limit := compares.upper
  simp only [Cursor.seek_raw, Cursor.seek_input] at forward limit
  have here : (v.seek n e).Sound := first.seek compares.toReaches
  cases o with
  | error =>
    exact .done ⟨n, e, rfl, here.order, here.upper, here.ended, by simp, by simp, by simp⟩
  | mismatch =>
    have one := compares.mismatch rfl
    have none := compares.fresh (by simp)
    simp only [Cursor.seek_raw] at one
    refine (seek_back_runs (by omega) (by simp; omega) ?_).seq
    refine .done ⟨n - 1, e, rfl, by omega, by omega, .inl none, fun _ _ => none, ?_, ?_⟩ <;>
    · rintro _ ⟨⟩
      simp only [Script.margin, Script.rank]
      omega
  | whole =>
    have length := compares.whole rfl
    simp only [Cursor.seek_raw] at length
    have six : (bytes "script").length = 6 := rfl
    refine byte_runs here (fun past => ?_) fun more => ?_
    · have last := here.past past
      exact .done ⟨_, _, rfl, here.order, last.upper, last.ended, by simp, by simp, by simp⟩
    · simp only [Cursor.seek_raw, Cursor.seek_input] at more
      split
      · refine .done ⟨n + 1, none, rfl, by omega, by omega, .inl rfl, fun _ _ => rfl, ?_, ?_⟩ <;>
        · rintro _ ⟨⟩
          simp only [Script.margin, Script.rank]
          omega
      · refine (unread_runs here ?_).seq
        refine .done ⟨n, none, rfl, by omega, by omega, .inl rfl, fun _ _ => rfl, ?_, ?_⟩ <;>
        · rintro _ ⟨⟩
          simp only [Script.margin, Script.rank]
          omega

/-- The position that `readRawEndTag` goes back from is where the label goes on. -/
theorem doubleEscapeEnd_runs (sound : v.Sound) (fresh : v.err = none) (tag : v.rawTag.length = 6) :
    Runs Shows (scriptStep .doubleEscapeEnd) v (v.Steps .doubleEscapeEnd) := by
  simp only [scriptStep, readRawEndTag, bind_assoc]
  refine (rawEndTag_runs sound fresh).bind ?_
  rintro b _ ⟨n, e, rfl, reaches, found⟩
  have order := sound.order
  have forward := reaches.forward
  have upper := reaches.upper
  cases b with
  | false =>
    simp only [Bool.false_eq_true, if_false, pure_bind]
    refine check_runs (fun _ => .done (reaches.returns sound _)) fun fresh => ?_
    refine .done ⟨n, e, rfl, by omega, upper, .inl fresh, fun _ _ => fresh, ?_, ?_⟩ <;>
    · rintro _ ⟨⟩
      simp only [Script.margin, Script.rank]
      omega
  | true =>
    obtain ⟨rfl, same⟩ := found rfl
    refine ⟨some .escaped, v.seek n none, ⟨n, none, rfl, by omega, upper, .inl rfl,
      fun _ _ => rfl, ?_, ?_⟩, ?_⟩
    · rintro _ ⟨⟩
      simp only [Script.margin]
      omega
    · rintro _ ⟨⟩
      simp only [Script.rank]
      omega
    · intro z shown
      have length : z.rawTag.length = 6 := by
        obtain ⟨gone, same, -⟩ := shown
        rw [← tag, show z.rawTag = v.rawTag from congrArg Cursor.rawTag same]
      have forth : z.raw.stop - (3 + z.rawTag.length) - -9 = z.raw.stop := by omega
      refine ⟨z, ?_, shown⟩
      change Except.ok (some Script.escaped,
        { z with raw := ⟨z.raw.start, z.raw.stop - (3 + z.rawTag.length) - -9⟩ }) = _
      rw [forth]

theorem scriptStep_runs (sound : v.Sound) (fresh : v.err = none) (tag : v.rawTag.length = 6)
    (margin : v.raw.start + label.margin ≤ v.raw.stop) :
    Runs Shows (scriptStep label) v (v.Steps label) := by
  cases label with
  | dataEndTagOpen => exact endTagOr_runs sound fresh margin (by decide) rfl
  | escapedEndTagOpen => exact endTagOr_runs sound fresh margin (by decide) rfl
  | doubleEscapeStart => exact doubleEscapeStart_runs sound fresh margin
  | doubleEscapeEnd => exact doubleEscapeEnd_runs sound fresh tag
  | _ =>
    refine onByte_runs sound fun more => ?_
    split_ifs
    all_goals first
      | exact goto_runs margin more (by decide) (by decide)
      | exact backTo_runs sound margin (by decide) (by decide)

theorem scriptLoop_runs (sound : v.Sound) (fresh : v.err = none) (tag : v.rawTag.length = 6)
    (margin : v.raw.start + label.margin ≤ v.raw.stop)
    (enough : 3 * (v.input.length - v.raw.stop) + label.rank < fuel) :
    Runs Shows (scriptLoop fuel label) v fun _ w => ∃ n e, w = v.seek n e ∧
      v.raw.start ≤ n ∧ n ≤ v.input.length ∧ (e = none ∨ e = some v.final ∧ n = v.input.length) := by
  induction fuel generalizing v label with
  | zero =>
    have := sound.upper
    omega
  | succ fuel ih =>
    refine (scriptStep_runs sound fresh tag margin).bind ?_
    rintro next _ ⟨n, e, rfl, proceeds⟩
    cases next with
    | none => exact .done ⟨n, e, rfl, proceeds.lower, proceeds.upper, proceeds.ended⟩
    | some l =>
      have decreases := proceeds.decreases l rfl
      refine (ih (v := v.seek n e) ⟨sound.lower, proceeds.lower, proceeds.upper, proceeds.ended⟩
        (proceeds.fresh l rfl) tag (proceeds.margin l rfl) (by simp; omega)).imp ?_
      rintro _ _ ⟨m, f, rfl, rest⟩
      exact ⟨m, f, rfl, rest⟩

end Script

theorem rcdataLoop_runs (sound : v.Sound) (enough : v.input.length - v.raw.stop < fuel) :
    Runs Shows (rcdataLoop fuel) v fun _ w => v.Ahead w := by
  induction fuel generalizing v with
  | zero =>
    have := sound.upper
    omega
  | succ fuel ih =>
    refine byte_runs sound (fun past => .done ⟨_, _, rfl, sound.past past⟩) fun more => ?_
    have one := Cursor.reaches_next more
    split
    · exact (ih (sound.seek one) (by simp; omega)).imp fun _ _ => one.ahead
    · refine byte_runs (sound.seek one) (fun past => ?_) fun more => ?_
      · exact .done ⟨_, _, rfl, one.trans ((sound.seek one).past past)⟩
      · have two := one.trans (Cursor.reaches_next more)
        simp only [Cursor.seek_raw, Cursor.seek_input] at more two
        split
        · exact (ih (sound.seek two) (by simp; omega)).imp fun _ _ => two.ahead
        · have order := sound.order
          refine (readRawEndTag_runs (sound.seek two) rfl (by simp; omega)).bind ?_
          rintro b w ⟨found, other⟩
          cases b with
          | true =>
            rw [found rfl]
            exact .done ⟨_, _, rfl, by simp; omega, by simp; omega, .inl rfl⟩
          | false =>
            obtain ⟨n, e, rfl, reaches⟩ := other rfl
            have reached := two.trans reaches
            refine check_runs (fun _ => .done ⟨_, _, rfl, reached⟩) fun _ => ?_
            have forward := reaches.forward
            simp only [Cursor.seek_raw] at forward
            exact (ih (sound.seek reached) (by simp; omega)).imp fun _ _ => reached.ahead

theorem plaintextLoop_runs (sound : v.Sound)
    (enough : v.input.length - v.raw.stop + (if v.err = none then 1 else 0) < fuel) :
    Runs Shows (plaintextLoop fuel) v fun _ w => v.Ahead w := by
  induction fuel generalizing v with
  | zero =>
    have := sound.upper
    split at enough <;> omega
  | succ fuel ih =>
    refine check_runs (fun _ => .done ⟨_, _, rfl, sound.stay⟩) fun fresh => ?_
    rw [if_pos fresh] at enough
    refine (readByte_runs sound).bind ?_
    rintro _ _ (⟨more, -, rfl⟩ | ⟨last, rfl⟩)
    · have next := Cursor.reaches_next more
      exact (ih (sound.seek next) (by simp; omega)).imp fun _ _ => next.ahead
    · have past := sound.past last
      exact (ih (sound.seek past) (by simp; omega)).imp fun _ _ => past.ahead

/-- Raw text is data as far as it was read. -/
structure Cursor.RawText (v w : Cursor) : Prop where
  input : w.input = v.input
  final : w.final = v.final
  start : w.raw.start = v.raw.start
  sound : w.Sound
  data : w.data = v.data.stopAt w.raw.stop

/-- The end of each way to read raw text. -/
theorem rawText_runs {p : Scan Unit} {g : Tokenizer → Tokenizer} (flag : Cursor → Bool)
    (tag : Cursor → Bytes)
    (read : Runs Shows p v fun _ w => ∃ n e, w = v.seek n e ∧ (v.seek n e).Sound)
    (shown : ∀ gone z, (g z).cursor gone =
      { z.cursor gone with
        textIsRaw := flag (z.cursor gone), rawTag := tag (z.cursor gone) })
    (valid : ∀ z, z.Valid → (g z).Valid) :
    Runs Shows (do p; dataEnd 0; modify g) v fun _ w => v.RawText w := by
  refine read.bind ?_
  rintro _ _ ⟨n, e, rfl, sound⟩
  refine (dataEnd_runs ?_).seq
  refine update_runs (fun v => { v with textIsRaw := flag v, rawTag := tag v }) shown valid ?_
  exact ⟨rfl, rfl, rfl, ⟨sound.lower, sound.order, sound.upper, sound.ended⟩, by simp [Cursor.setData]⟩

theorem Cursor.Ahead.sound (sound : v.Sound) (ahead : v.Ahead w) :
    ∃ n e, w = v.seek n e ∧ (v.seek n e).Sound := by
  obtain ⟨n, e, rfl, reaches⟩ := ahead
  exact ⟨n, e, rfl, sound.seek reaches⟩

theorem readRawOrRCDATA_runs (sound : v.Sound) (fresh : v.err = none)
    (enough : 3 * (v.input.length - v.raw.stop) < fuel) :
    Runs Shows (readRawOrRCDATA fuel) v fun _ w => v.RawText w := by
  have upper := sound.upper
  have valid : ∀ (flag : Tokenizer → Bool) (z : Tokenizer), z.Valid →
      Tokenizer.Valid { z with textIsRaw := flag z, rawTag := [] } :=
    fun flag z h => ⟨h.1, h.2, h.3, h.4, h.5, h.6⟩
  by_cases script : v.rawTag = bytes "script"
  · refine Runs.read (p := do
      readScript fuel
      modify fun z => { z with textIsRaw := true, rawTag := [] }) ?_ ?_
    · rintro z ⟨gone, rfl, -⟩
      exact if_pos script
    · have order := sound.order
      have run : Runs Shows (scriptLoop fuel .data) v _ :=
        scriptLoop_runs sound fresh (by rw [script]; rfl)
          (by simp only [Script.margin]; omega) (by simp only [Script.rank]; omega)
      simp only [readScript, bind_assoc]
      refine rawText_runs (fun _ => true) (fun _ => []) (run.imp ?_) (fun _ _ => rfl)
        (valid fun _ => true)
      rintro _ _ ⟨n, e, rfl, lower, upper, ended⟩
      exact ⟨n, e, rfl, sound.lower, lower, upper, ended⟩
  · refine Runs.read (p := do
      rcdataLoop fuel
      dataEnd 0
      modify fun z => { z with
        textIsRaw := z.rawTag ≠ bytes "textarea" && z.rawTag ≠ bytes "title", rawTag := [] }) ?_ ?_
    · rintro z ⟨gone, rfl, -⟩
      exact if_neg script
    · exact rawText_runs
        (fun v => v.rawTag ≠ bytes "textarea" && v.rawTag ≠ bytes "title") (fun _ => [])
        ((rcdataLoop_runs sound (by omega)).imp fun _ _ => Cursor.Ahead.sound sound)
        (fun _ _ => rfl) (valid _)

theorem readRawText_runs (sound : v.Sound) (fresh : v.err = none)
    (enough : 3 * (v.input.length - v.raw.stop) + 1 < fuel) :
    Runs Shows (readRawText fuel) v fun _ w => v.RawText w := by
  have upper := sound.upper
  by_cases plaintext : v.rawTag = bytes "plaintext"
  · refine Runs.read (p := do
      plaintextLoop fuel
      dataEnd 0
      modify fun z => { z with textIsRaw := true }) ?_ ?_
    · rintro z ⟨gone, rfl, -⟩
      exact if_pos plaintext
    · exact rawText_runs (fun _ => true) Cursor.rawTag
        ((plaintextLoop_runs sound (by rw [if_pos fresh]; omega)).imp
          fun _ _ => Cursor.Ahead.sound sound)
        (fun _ _ => rfl) (fun z h => ⟨h.1, h.2, h.3, h.4, h.5, h.6⟩)
  · refine Runs.read (p := readRawOrRCDATA fuel) ?_ (readRawOrRCDATA_runs sound fresh (by omega))
    rintro z ⟨gone, rfl, -⟩
    exact if_neg plaintext

end Gopherize.Html
