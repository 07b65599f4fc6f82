import Gopherize.Html.Scan

/-! Tags, comments and declarations: what the tokenizer has read of them, and where their
names, attributes and texts are. -/
namespace Gopherize.Html
open GoCore

variable {v w u : Cursor} {fuel : Nat}

/-- Markup was read, with its text in the part that was read. -/
structure Cursor.Reads (v w : Cursor) : Prop extends v.Moves w where
  data_lower : v.raw.stop ≤ w.data.start
  data_order : w.data.start ≤ w.data.stop
  data_upper : w.data.stop ≤ w.raw.stop

theorem Cursor.Moves.reads (first : v.Moves w) (second : w.Reads u) : v.Reads u where
  toMoves := first.trans second.toMoves
  data_lower := Int.le_trans first.forward second.data_lower
  data_order := second.data_order
  data_upper := second.data_upper

/-- The position has moved on and the text was set. -/
theorem Cursor.Reaches.reads {s : Span} (reaches : v.Reaches n e) (lower : v.raw.stop ≤ s.start)
    (order : s.start ≤ s.stop) (upper : s.stop ≤ n) : v.Reads ((v.seek n e).setData s) :=
  ⟨⟨rfl, rfl, rfl, reaches.forward, reaches.upper, reaches.ended⟩, lower, order, upper⟩

theorem dataEnd_sets (w : Cursor) (n : Int) : Runs Shows (dataEnd n) w fun _ u =>
    u = w.setData (w.data.stopAt (w.raw.stop - n)) := dataEnd_runs rfl

theorem readUntilCloseAngle_runs (sound : v.Sound) (enough : v.input.length - v.raw.stop < fuel) :
    Runs Shows (readUntilCloseAngle fuel) v fun _ w => v.Reads w := by
  refine (dataStart_runs ?_).seq
  have here : (v.setData (v.data.startAt (v.raw.stop - 0))).Sound :=
    ⟨sound.lower, sound.order, sound.upper, sound.ended⟩
  refine (scanTo_runs dataEnd_sets here enough).imp ?_
  rintro _ _ ⟨n, e, k, rfl, scans⟩
  have nonneg := scans.nonneg
  have forward := scans.forward_end
  exact Cursor.Reaches.reads ⟨scans.forward, scans.upper, scans.ended⟩ (by simp [Span.startAt, Span.stopAt])
    (by simpa [Span.startAt, Span.stopAt] using forward) (by simp [Span.stopAt]; omega)

/-- The loop of a comment ends its text anywhere before the position. -/
theorem commentLoop_runs {dashCount : Nat} (sound : v.Sound)
    (enough : v.input.length - v.raw.stop < fuel) :
    Runs Shows (commentLoop fuel dashCount) v fun _ w => ∃ n e k,
      w = (v.seek n e).setData (v.data.stopAt (n - k)) ∧ v.Reaches n e ∧ 0 ≤ k := by
  induction fuel generalizing v dashCount with
  | zero =>
    have := sound.upper
    omega
  | succ fuel ih =>
    refine byte_runs sound (fun past => ?_) fun more => ?_
    · exact dataEnd_runs ⟨_, _, _, rfl, sound.past past, by omega⟩
    · have one := Cursor.reaches_next more
      have again {m : Int} (d : Nat) (reaches : v.Reaches m none) (later : v.raw.stop + 1 ≤ m) :
          Runs Shows (commentLoop fuel d) (v.seek m none) fun _ w => ∃ n e k,
            w = (v.seek n e).setData (v.data.stopAt (n - k)) ∧ v.Reaches n e ∧ 0 ≤ k := by
        refine (ih (sound.seek reaches) (by simp; omega)).imp ?_
        rintro _ _ ⟨n, e, k, rfl, rest, nonneg⟩
        exact ⟨n, e, k, rfl, reaches.trans rest, nonneg⟩
      split_ifs
      · exact again _ one (Int.le_refl _)
      · exact dataEnd_runs ⟨_, _, 3, rfl, one, by omega⟩
      · refine byte_runs (sound.seek one) (fun past => ?_) fun more => ?_
        · exact dataEnd_runs ⟨_, _, 0, rfl, one.trans ((sound.seek one).past past), by omega⟩
        · have two := one.trans (Cursor.reaches_next more)
          simp only [Cursor.seek_raw] at two
          split
          · exact dataEnd_runs ⟨_, _, 4, rfl, two, by omega⟩
          · exact again _ two (by simp only [Cursor.seek_raw]; omega)
      · exact again _ one (Int.le_refl _)

theorem clampData_runs {done : Unit → Cursor → Prop}
    (empty : v.data.stop < v.data.start → done () (v.setData (v.data.stopAt v.data.start)))
    (proper : v.data.start ≤ v.data.stop → done () v) :
    Runs Shows (modify fun z =>
      if z.data.stop < z.data.start then { z with data := z.data.stopAt z.data.start } else z : Scan Unit)
      v done := by
  refine update_runs
    (fun v => if v.data.stop < v.data.start then v.setData (v.data.stopAt v.data.start) else v)
    (fun gone z => ?_) (fun z h => ?_) ?_
  · have same : z.data.stop < z.data.start ↔
        (z.cursor gone).data.stop < (z.cursor gone).data.start := by
      simp only [Tokenizer.cursor, Span.sub]
      omega
    simp only [← same]
    split <;> rfl
  · split
    · exact ⟨h.1, h.2, h.3, h.4, h.5, h.6⟩
    · exact h
  · split_ifs with short
    · exact empty short
    · exact proper (by omega)

theorem readComment_runs (sound : v.Sound) (enough : v.input.length - v.raw.stop < fuel) :
    Runs Shows (readComment fuel) v fun _ w => v.Reads w := by
  have here : (v.setData (v.data.startAt (v.raw.stop - 0))).Sound :=
    ⟨sound.lower, sound.order, sound.upper, sound.ended⟩
  refine (dataStart_runs ?_).seq
  refine (commentLoop_runs here enough).bind ?_
  rintro _ _ ⟨n, e, k, rfl, reaches, nonneg⟩
  have forward := reaches.forward
  simp only [Cursor.setData_raw] at forward
  have reached : v.Reaches n e := ⟨reaches.forward, reaches.upper, reaches.ended⟩
  refine clampData_runs (fun _ => ?_) fun proper => ?_
  · exact reached.reads (s := ⟨v.raw.stop - 0, v.raw.stop - 0⟩) (by simp) (by simp)
      (by simp only; omega)
  · simp only [Cursor.setData_data, Span.startAt, Span.stopAt] at proper
    exact reached.reads (s := ⟨v.raw.stop - 0, n - k⟩) (by simp) proper (by simp only; omega)

/-- A declaration that was not one: the position is back, unless the input is over. -/
structure Cursor.Refuses (v w : Cursor) : Prop extends v.Moves w where
  again : w.err = none → w.data.start = w.raw.stop

theorem readDoctype_runs (sound : v.Sound) (start : v.data.start = v.raw.stop)
    (enough : v.input.length - v.raw.stop < fuel) :
    Runs Shows (readDoctype fuel) v fun b w =>
      (b = true → v.Reads w) ∧ (b = false → v.Refuses w) := by
  refine (expect_runs sound fun none => absurd none ?_).bind ?_
  · decide
  rintro o _ ⟨n, e, rfl, compares⟩
  have forward := compares.forward
  have here := sound.seek compares.toReaches
  cases o with
  | error =>
    refine (dataEnd_runs ?_).seq
    refine .done ⟨nofun, fun _ => ⟨⟨rfl, rfl, rfl, forward, compares.upper, compares.ended⟩, ?_⟩⟩
    exact fun fresh => absurd fresh (compares.error rfl)
  | mismatch =>
    have order := sound.order
    refine (rewind_runs (by simp; omega) (by simp; omega) ?_).seq
    refine .done ⟨nofun, fun _ => ⟨⟨rfl, rfl, rfl, ?_, ?_, .inl (compares.fresh nofun)⟩, fun _ => rfl⟩⟩
    · simp only [Cursor.seek_raw, Cursor.seek_data]
      omega
    · simp only [Cursor.seek_raw, Cursor.seek_data, start]
      exact sound.upper
  | whole =>
    refine (skipWhiteSpace_runs here (by simp; omega)).bind ?_
    rintro _ _ ⟨m, f, rfl, skips⟩
    have reached := compares.trans skips.toReaches
    refine check_runs (fun _ => ?_) fun _ => ?_
    · refine (dataStart_runs ?_).seq
      refine (dataEnd_runs ?_).seq
      refine .done ⟨fun _ => reached.reads ?_ ?_ ?_, nofun⟩ <;> simp [Span.startAt, Span.stopAt]
      exact reached.forward
    · have later := reached.forward
      refine (readUntilCloseAngle_runs (sound.seek reached) (by simp; omega)).bind ?_
      intro _ w reads
      exact .done ⟨fun _ => reached.moves.reads reads, nofun⟩

theorem cdataLoop_runs {brackets : Nat} (sound : v.Sound)
    (count : v.data.start + brackets ≤ v.raw.stop) (enough : v.input.length - v.raw.stop < fuel) :
    Runs Shows (cdataLoop fuel brackets) v fun _ w => ∃ n e k,
      w = (v.seek n e).setData (v.data.stopAt (n - k)) ∧ v.Reaches n e ∧ 0 ≤ k ∧
        v.data.start ≤ n - k := by
  induction fuel generalizing v brackets with
  | zero =>
    have := sound.upper
    omega
  | succ fuel ih =>
    refine byte_runs sound (fun past => ?_) fun more => ?_
    · exact dataEnd_runs ⟨_, _, 0, rfl, sound.past past, by omega, by omega⟩
    · have one := Cursor.reaches_next more
      have again (b : Nat) (fewer : b ≤ brackets + 1) :
          Runs Shows (cdataLoop fuel b) (v.seek (v.raw.stop + 1) none) fun _ w => ∃ n e k,
            w = (v.seek n e).setData (v.data.stopAt (n - k)) ∧ v.Reaches n e ∧ 0 ≤ k ∧
              v.data.start ≤ n - k := by
        refine (ih (sound.seek one) (by simp; omega) (by simp; omega)).imp ?_
        rintro _ _ ⟨n, e, k, rfl, rest, holds⟩
        exact ⟨n, e, k, rfl, one.trans rest, holds⟩
      split_ifs
      · exact again _ (Nat.le_refl _)
      · exact dataEnd_runs ⟨_, _, 3, rfl, one, by omega, by omega⟩
      · exact again _ (Nat.zero_le _)

theorem readCDATA_runs (sound : v.Sound) (start : v.err = none → v.data.start = v.raw.stop)
    (enough : v.input.length - v.raw.stop < fuel) :
    Runs Shows (readCDATA fuel) v fun b w =>
      (b = true → v.Reads w) ∧ (b = false → v.Moves w) := by
  refine (expect_runs sound fun none => absurd none ?_).bind ?_
  · decide
  rintro o _ ⟨n, e, rfl, compares⟩
  have forward := compares.forward
  cases o with
  | error =>
    refine (dataEnd_runs ?_).seq
    exact .done ⟨by simp, fun _ => ⟨rfl, rfl, rfl, forward, compares.upper, compares.ended⟩⟩
  | mismatch =>
    have order := sound.order
    have fresh : v.err = none := by
      have one := compares.mismatch rfl
      have upper := compares.upper
      obtain fresh | ⟨-, last⟩ := sound.ended
      · exact fresh
      · omega
    have here := start fresh
    refine (rewind_runs (by simp; omega) (by simp; omega) ?_).seq
    refine .done ⟨by simp, fun _ => ⟨rfl, rfl, rfl, ?_, ?_, .inl (compares.fresh (by simp))⟩⟩
    · simp only [Cursor.seek_raw, Cursor.seek_data]
      omega
    · simp only [Cursor.seek_raw, Cursor.seek_data, here]
      exact sound.upper
  | whole =>
    have here := sound.seek compares.toReaches
    have inside : ((v.seek n e).setData (v.data.startAt (n - 0))).Sound :=
      ⟨here.lower, here.order, here.upper, here.ended⟩
    refine (dataStart_runs ?_).seq
    refine (cdataLoop_runs inside (by simp [Span.startAt]) (by simp; omega)).bind ?_
    rintro _ _ ⟨m, f, k, rfl, reaches, nonneg, order⟩
    have reached : v.Reaches m f :=
      ⟨Int.le_trans forward reaches.forward, reaches.upper, reaches.ended⟩
    simp only [Cursor.setData_data, Span.startAt, Int.sub_zero] at order
    exact .done ⟨fun _ => reached.reads (by simpa [Span.startAt, Span.stopAt] using forward)
      (by simpa [Span.startAt, Span.stopAt] using order) (by simp [Span.stopAt]; omega), by simp⟩

/-- `z.allowCDATA && z.readCDATA()`. -/
theorem allowedCDATA_runs (sound : v.Sound) (start : v.err = none → v.data.start = v.raw.stop)
    (enough : v.input.length - v.raw.stop < fuel) :
    Runs Shows (do if (← get).allowCDATA then readCDATA fuel else pure false) v fun b w =>
      (b = true → v.Reads w) ∧ (b = false → v.Moves w) := by
  refine Runs.read (p := if v.allowCDATA then readCDATA fuel else pure false) ?_ ?_
  · rintro z ⟨gone, rfl, -⟩
    rfl
  · split
    · exact readCDATA_runs sound start enough
    · exact .done ⟨nofun, fun _ => sound.stay.moves⟩

theorem convertNUL_runs {done : Unit → Cursor → Prop} (holds : done () { v with convertNUL := true }) :
    Runs Shows (modify fun z => { z with convertNUL := true } : Scan Unit) v done :=
  update_runs (fun v => { v with convertNUL := true }) (fun _ _ => rfl)
    (fun _ h => ⟨h.1, h.2, h.3, h.4, h.5, h.6⟩) holds

/-- The types of what `readMarkupDeclaration` reads. -/
abbrev TokenType.Declared (t : TokenType) : Prop :=
  t = .commentToken ∨ t = .doctypeToken ∨ t = .textToken

theorem readMarkupDeclaration_runs (sound : v.Sound) (enough : v.input.length - v.raw.stop < fuel) :
    Runs Shows (readMarkupDeclaration fuel) v fun t w => v.Reads w ∧ t.Declared := by
  refine (dataStart_runs ?_).seq
  generalize opened : v.setData (v.data.startAt (v.raw.stop - 0)) = o
  have moves : v.Moves o := by
    subst opened
    exact ⟨rfl, rfl, rfl, Int.le_refl _, sound.upper, sound.ended⟩
  have start : o.data.start = o.raw.stop := by rw [← opened]; simp [Span.startAt]
  have here := moves.sound sound
  replace enough : o.input.length - o.raw.stop < fuel := by rw [← opened]; exact enough
  refine Runs.imp ?_ fun t w (h : o.Reads w ∧ t.Declared) => ⟨moves.reads h.1, h.2⟩
  -- the input ends before the two bytes that tell declarations apart
  have past {m : Int} (reaches : o.Reaches m (some o.final)) :
      Runs Shows (do dataEnd 0; pure TokenType.commentToken) (o.seek m (some o.final))
        fun t w => o.Reads w ∧ t.Declared := by
    have forward := reaches.forward
    refine (dataEnd_runs ?_).seq
    refine .done ⟨reaches.reads (s := o.data.stopAt (m - 0)) ?_ ?_ ?_, by decide⟩ <;>
    · simp only [Span.stopAt, start]
      omega
  refine byte_runs here (fun last => past (here.past last)) fun more => ?_
  have one := Cursor.reaches_next more
  refine byte_runs (here.seek one) (fun last => past (one.trans ((here.seek one).past last))) fun two => ?_
  have two := one.trans (Cursor.reaches_next two)
  split
  · refine (readComment_runs (here.seek two) (by simp; omega)).bind fun _ w reads => ?_
    exact .done ⟨two.moves.reads reads, by decide⟩
  · have order := here.order
    have backed : o.seek (o.raw.stop + 1 + 1 - 2) none = o.seek o.raw.stop none := by
      congr 1
      omega
    have again := here.seek (Cursor.reaches_here more)
    refine (seek_back_runs (by omega) (by simp; omega) ?_).seq
    simp only [Cursor.seek_seek, Cursor.seek_raw, backed]
    have moved := (Cursor.reaches_here more).moves
    refine (readDoctype_runs again start (by simpa using enough)).bind ?_
    rintro b w ⟨found, other⟩
    cases b with
    | true => exact .done ⟨moved.reads (found rfl), by decide⟩
    | false =>
      have refuses := other rfl
      have forward := refuses.forward
      have sound := refuses.sound again
      simp only [Cursor.seek_raw] at forward
      have enough' : w.input.length - w.raw.stop < fuel := by
        rw [refuses.input]
        simp
        omega
      refine (allowedCDATA_runs sound refuses.again enough').bind ?_
      rintro b u ⟨found, other⟩
      cases b with
      | true =>
        have reads := moved.reads (refuses.toMoves.reads (found rfl))
        refine (convertNUL_runs ?_).seq
        exact .done ⟨⟨⟨reads.input, reads.final, reads.start, reads.forward, reads.upper, reads.ended⟩,
          reads.data_lower, reads.data_order, reads.data_upper⟩, by decide⟩
      | false =>
        have goes := other rfl
        have later := goes.forward
        refine (readUntilCloseAngle_runs (goes.sound sound) ?_).bind fun _ x reads => ?_
        · rw [goes.input]
          omega
        · exact .done ⟨moved.reads (refuses.toMoves.reads (goes.reads reads)), by decide⟩

end Gopherize.Html
