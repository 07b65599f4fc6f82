import Gopherize.Html.Tokens

/-! Runs of the tokenizer over a whole input. -/
namespace Gopherize.Html
open GoCore

variable {v w u : Cursor} {z : Tokenizer} {fuel : Nat}

namespace Cursor

/-- The token in the input. -/
def lexeme (v : Cursor) : Lexeme where
  type := v.tt
  raw := v.cut v.raw
  data := v.cut v.data
  attr := if v.tt = .startTagToken ∨ v.tt = .selfClosingTagToken then
    v.attr.map fun a => (v.cut a.1, v.cut a.2) else []

theorem cut_append {a b c : Int} (first : a ≤ b) (second : b ≤ c) :
    v.cut ⟨a, c⟩ = v.cut ⟨a, b⟩ ++ v.cut ⟨b, c⟩ := by
  have lower : a.toNat ≤ b.toNat := by omega
  have upper : b.toNat ≤ c.toNat := by omega
  simp only [cut, List.drop_take]
  rw [show c.toNat - a.toNat = (b.toNat - a.toNat) + (c.toNat - b.toNat) by omega, List.take_add,
    List.drop_drop, show a.toNat + (b.toNat - a.toNat) = b.toNat by omega]

theorem cut_one {i : Int} (lower : 0 ≤ i) (upper : i < v.input.length) :
    v.cut ⟨i, i + 1⟩ = [v.peek i] := by
  have inside : i.toNat < v.input.length := by omega
  simp only [cut, List.drop_take, show (i + 1).toNat - i.toNat = 1 by omega]
  rw [List.drop_eq_getElem_cons inside, List.take_succ_cons, List.take_zero]
  simp [peek, inside]

/-- A range starts with its first byte. -/
theorem cut_cons {a b : Int} (lower : 0 ≤ a) (order : a < b) (upper : b ≤ v.input.length) :
    v.cut ⟨a, b⟩ = v.peek a :: v.cut ⟨a + 1, b⟩ := by
  rw [cut_append (b := a + 1) (by omega) (by omega), cut_one lower (by omega), List.singleton_append]

/-- A range ends with its last byte. -/
theorem cut_concat {a b : Int} (lower : 0 ≤ a) (order : a < b) (upper : b ≤ v.input.length) :
    v.cut ⟨a, b⟩ = v.cut ⟨a, b - 1⟩ ++ [v.peek (b - 1)] := by
  have last := cut_one (v := v) (i := b - 1) (by omega) (by omega)
  rw [Int.sub_add_cancel] at last
  rw [cut_append (b := b - 1) (by omega) (by omega), last]

theorem mem_cut {s : Span} (lower : 0 ≤ s.start) {c : UInt8} (mem : c ∈ v.cut s) :
    ∃ i, s.start ≤ i ∧ i < s.stop ∧ c = v.peek i := by
  obtain ⟨k, bound, rfl⟩ := List.getElem_of_mem mem
  simp only [cut, List.length_drop, List.length_take] at bound
  refine ⟨s.start + k, by omega, by omega, ?_⟩
  have position : (s.start + k).toNat = s.start.toNat + k := by omega
  have inside : s.start.toNat + k < v.input.length := by omega
  simp [cut, peek, position, inside]

theorem cut_rest (a : Int) :
    v.cut ⟨a, v.input.length⟩ = v.input.drop a.toNat := by
  simp [cut]

/-- A range of the token is a part of it. -/
theorem cut_within {s t : Span} (lower : s.start ≤ t.start) (order : t.start ≤ t.stop)
    (upper : t.stop ≤ s.stop) : v.cut t <:+: v.cut s := by
  refine ⟨v.cut ⟨s.start, t.start⟩, v.cut ⟨t.stop, s.stop⟩, ?_⟩
  rw [← cut_append lower order, ← cut_append (Int.le_trans lower order) upper]

end Cursor

/-- A range in the current token is in the buffer. -/
theorem slice_inside {s : Span} {gone : Bytes} (valid : z.Valid)
    (lower : (z.cursor gone).raw.start ≤ (s.sub (-gone.length)).start)
    (order : (s.sub (-gone.length)).start ≤ (s.sub (-gone.length)).stop)
    (upper : (s.sub (-gone.length)).stop ≤ (z.cursor gone).raw.stop) :
    slice z.buf s = .ok ((z.cursor gone).cut (s.sub (-gone.length))) := by
  have raw_lower := valid.lower
  have raw_upper := valid.upper
  simp only [Tokenizer.cursor, Span.sub] at lower order upper
  exact slice_cut gone (by omega) (by omega) (by omega)

theorem slice_attrs {f : Span → Bytes} {attrs : List (Span × Span)}
    (inside : ∀ a ∈ attrs, slice z.buf a.1 = .ok (f a.1) ∧ slice z.buf a.2 = .ok (f a.2)) :
    (attrs.mapM fun a => do pure (← slice z.buf a.1, ← slice z.buf a.2)) =
      .ok (attrs.map fun a => (f a.1, f a.2)) := by
  induction attrs with
  | nil => rfl
  | cons a attrs ih =>
    obtain ⟨key, val⟩ := inside a List.mem_cons_self
    rw [List.mapM_cons, ih fun b mem => inside b (List.mem_cons_of_mem _ mem), key, val]
    rfl

/-- `Raw`, `Text`, `TagName` and `TagAttr` do not panic, and cut the input. -/
theorem current_eq {t : TokenType} (shown : Shows z v) (yields : v.Yields t v) :
    current z = .ok v.lexeme := by
  obtain ⟨gone, rfl, valid⟩ := shown
  have raw : slice z.buf z.raw = .ok ((z.cursor gone).cut (z.cursor gone).raw) :=
    slice_inside valid (Int.le_refl _) yields.sound.order (Int.le_refl _)
  have data : slice z.buf z.data = .ok ((z.cursor gone).cut (z.cursor gone).data) :=
    slice_inside valid yields.data_lower yields.data_order yields.data_upper
  have type : z.tt = t := yields.type
  simp only [current, raw, data, Fault.ok_bind, Fault.pure_eq_ok]
  by_cases tag : z.tt = .startTagToken ∨ z.tt = .selfClosingTagToken
  · have attrs : (z.attr.mapM fun a => do pure (← slice z.buf a.1, ← slice z.buf a.2)) = .ok _ :=
      slice_attrs (f := fun s => (z.cursor gone).cut (s.sub (-gone.length))) fun a mem => by
        have inside := yields.attrs (type ▸ tag) (a.1.sub (-gone.length), a.2.sub (-gone.length))
          (List.mem_map_of_mem mem)
        exact ⟨slice_inside valid inside.key_lower (Int.le_of_lt inside.key_some) inside.key_upper,
          slice_inside valid inside.val_lower inside.val_order inside.val_upper⟩
    simp only [Fault.pure_eq_ok] at attrs
    simp only [if_pos tag, attrs, Cursor.lexeme]
    simp [Tokenizer.cursor, tag]
  · simp only [if_neg tag, Cursor.lexeme]
    simp [Tokenizer.cursor, tag]

section Collect
variable {α : Type} {read : Tokenizer → Except Fault α} {z' : Tokenizer} {a : α} {n : Nat}

theorem collect_last (ran : next fuel z = .ok (.errorToken, z')) (seen : read z' = .ok a) :
    collect read fuel (n + 1) z = .ok [a] := by
  simp [collect, ran, seen]

theorem collect_more {t : TokenType} {as : List α} (ran : next fuel z = .ok (t, z'))
    (other : t ≠ .errorToken) (seen : read z' = .ok a) (rest : collect read fuel n z' = .ok as) :
    collect read fuel (n + 1) z = .ok (a :: as) := by
  simp [collect, ran, seen, other, rest]

end Collect

/-- The tokens of an input, the last of which is the error token. -/
structure Tokenized (input : Bytes) (ts : List Lexeme) : Prop where
  covers : (ts.map Lexeme.raw).flatten = input
  ended : ∃ front last, ts = front ++ [last] ∧ last.type = .errorToken ∧
    ∀ t ∈ front, t.type ≠ .errorToken ∧ t.raw ≠ []

theorem Cursor.Yields.some_bytes {t : TokenType} (yields : v.Yields t w) (token : t ≠ .errorToken) :
    w.raw.start < w.raw.stop := by
  have shaped := yields.shaped
  cases t with
  | errorToken => exact absurd rfl token
  | textToken => exact shaped
  | commentToken => exact shaped.1
  | doctypeToken => exact shaped.1
  | startTagToken =>
    have tag := shaped.2
    have := tag.name_some
    have := tag.name_inside
    omega
  | selfClosingTagToken =>
    have tag := shaped.2.1
    have := tag.name_some
    have := tag.name_inside
    omega
  | endTagToken =>
    have tag := shaped.2.2
    have := tag.name_some
    have := tag.name_inside
    omega

/-- From every state that shows the same cursor come the same tokens, and they cover the rest of
the input. -/
theorem tokenize_shown (fuel count : Nat) (sound : v.Sound)
    (enough : 3 * (v.input.length - v.raw.stop) + 1 < fuel)
    (many : v.input.length - v.raw.stop < count) :
    ∃ ts, (∀ z, Shows z v → tokenize fuel count z = .ok ts) ∧
      Tokenized (v.input.drop v.raw.stop.toNat) ts ∧
      ∀ t ∈ ts, ∃ w : Cursor, w.Yields t.type w ∧ t = w.lexeme := by
  induction count generalizing v with
  | zero =>
    have := sound.upper
    omega
  | succ count ih =>
    obtain ⟨t, w, nexts, run⟩ := next_runs sound enough
    have yields := nexts.yields
    have order := yields.sound.order
    have start := nexts.start
    have input := nexts.input
    have lower := yields.sound.lower
    by_cases error : t = .errorToken
    · subst error
      have last : w.raw.stop = w.input.length := yields.shaped
      have raw : w.lexeme.raw = v.input.drop v.raw.stop.toNat := by
        change w.cut ⟨w.raw.start, w.raw.stop⟩ = _
        rw [last, Cursor.cut_rest, start, input]
      refine ⟨[w.lexeme], fun z shown => ?_, ⟨by simp [raw], [], _, rfl, yields.type, by simp⟩, ?_⟩
      · obtain ⟨z', ran, shown'⟩ := run z shown
        exact collect_last ran (current_eq shown' yields)
      · simp only [List.mem_singleton]
        rintro _ rfl
        exact ⟨w, by rw [show w.lexeme.type = _ from yields.type]; exact yields, rfl⟩
    · have some_bytes := yields.some_bytes error
      obtain ⟨ts, runs, tokenized, each⟩ := ih yields.sound (by rw [input]; omega) (by rw [input]; omega)
      have upper := yields.sound.upper
      have raw : w.lexeme.raw = w.cut ⟨w.raw.start, w.raw.stop⟩ := rfl
      have type : w.lexeme.type = t := yields.type
      obtain ⟨front, last, same, final, others⟩ := tokenized.ended
      refine ⟨w.lexeme :: ts, fun z shown => ?_, ⟨?_, w.lexeme :: front, last, by rw [same]; rfl, final, ?_⟩, ?_⟩
      · obtain ⟨z', ran, shown'⟩ := run z shown
        exact collect_more ran error (current_eq shown' yields) (runs z' shown')
      · rw [List.map_cons, List.flatten_cons, tokenized.covers, raw, ← Cursor.cut_rest, ← start, ← input,
          ← Cursor.cut_rest]
        exact (Cursor.cut_append order upper).symm
      · intro t' mem
        obtain rfl | mem := List.mem_cons.mp mem
        · refine ⟨type ▸ error, ?_⟩
          rw [raw, Cursor.cut_cons lower some_bytes upper]
          exact List.cons_ne_nil _ _
        · exact others t' mem
      · intro t' mem
        obtain rfl | mem := List.mem_cons.mp mem
        · exact ⟨w, type ▸ yields, rfl⟩
        · exact each t' mem

theorem fragment_valid {r : Reader} (steady : r.Steady) (tag : Bytes) :
    (newTokenizerFragment r tag).Valid :=
  ⟨rfl, Int.le_refl _, Int.le_refl _, Int.le_refl _, ⟨Nat.succ_pos 4095, Nat.zero_le _⟩,
    .inl ⟨rfl, steady⟩⟩

/-- The tokens of an input: every reader that has it gives them. -/
theorem tokenize_fragment {count : Nat} (input : Bytes) (final : Err) (tag : Bytes)
    (enough : 3 * input.length + 1 < fuel) (many : input.length < count) :
    ∃ ts, (∀ r : Reader, r.Steady → r.rest = input → r.final = final →
        tokenize fuel count (newTokenizerFragment r tag) = .ok ts) ∧
      Tokenized input ts ∧ ∀ t ∈ ts, ∃ w : Cursor, w.Yields t.type w ∧ t = w.lexeme := by
  obtain ⟨v, shown⟩ : ∃ v, v = (newTokenizerFragment { rest := input, final := final } tag).cursor [] :=
    ⟨_, rfl⟩
  have same : v.input = input := by rw [shown]; rfl
  have begins : v.raw.stop = 0 := by rw [shown]; rfl
  have sound : v.Sound := by
    rw [shown]
    exact ⟨Int.le_refl _, Int.le_refl _, Int.natCast_nonneg _, .inl rfl⟩
  obtain ⟨ts, runs, tokenized, each⟩ :=
    tokenize_shown fuel count sound (by rw [same, begins]; omega) (by rw [same, begins]; omega)
  rw [same, begins] at tokenized
  refine ⟨ts, ?_, tokenized, each⟩
  rintro r steady rfl rfl
  exact runs _ ⟨[], by rw [shown]; rfl, fragment_valid steady tag⟩

/-- With enough fuel the tokenizer reaches the end of every input. No byte of it is lost: the raw
bytes of the tokens, one after the other, are the input. -/
theorem tokenize_lossless {r : Reader} {count : Nat} (steady : r.Steady) (tag : Bytes)
    (enough : 3 * r.rest.length + 1 < fuel) (many : r.rest.length < count) :
    ∃ ts, tokenize fuel count (newTokenizerFragment r tag) = .ok ts ∧ Tokenized r.rest ts := by
  obtain ⟨ts, runs, tokenized, -⟩ := tokenize_fragment r.rest r.final tag enough many
  exact ⟨ts, runs r steady rfl rfl, tokenized⟩

/-- A paragraph, in pieces of one, none, two and then all bytes, with the end reported early. -/
def pieces : Reader := { rest := bytes "<p>a</p>", sizes := [1, 0, 2], eager := true }

theorem pieces_steady : pieces.Steady := fun k => ⟨3, by decide, by simp [pieces]⟩

theorem pieces_length : pieces.rest.length = 8 := by decide +kernel

theorem tokenize_lossless_pieces :
    pieces.Steady ∧ ∃ ts, tokenize 30 9 (newTokenizerFragment pieces []) = .ok ts ∧
      Tokenized pieces.rest ts :=
  ⟨pieces_steady, tokenize_lossless pieces_steady [] (by simp [pieces_length])
    (by simp [pieces_length])⟩

/-- How a reader cuts the input into pieces, and when it reports the end, makes no difference. -/
theorem tokenize_chunks {r r' : Reader} {count : Nat} (steady : r.Steady) (steady' : r'.Steady)
    (rest : r.rest = r'.rest) (final : r.final = r'.final) (tag : Bytes)
    (enough : 3 * r.rest.length + 1 < fuel) (many : r.rest.length < count) :
    tokenize fuel count (newTokenizerFragment r tag) =
      tokenize fuel count (newTokenizerFragment r' tag) := by
  obtain ⟨ts, runs, -⟩ := tokenize_fragment r.rest r.final tag enough many
  rw [runs r steady rfl rfl, runs r' steady' rest.symm final.symm]

/-- The same bytes at once. -/
def whole : Reader := { rest := pieces.rest }

theorem whole_steady : whole.Steady := fun k => ⟨0, by decide, by simp [whole]⟩

theorem tokenize_chunks_pieces :
    pieces.Steady ∧ whole.Steady ∧ tokenize 30 9 (newTokenizerFragment pieces []) =
      tokenize 30 9 (newTokenizerFragment whole []) := by
  have enough : 3 * pieces.rest.length + 1 < 30 := by simp [pieces_length]
  have many : pieces.rest.length < 9 := by simp [pieces_length]
  have same := tokenize_chunks pieces_steady whole_steady rfl rfl [] enough many
  exact ⟨pieces_steady, whole_steady, same⟩

/-- A tag's name: a letter, and then nothing that ends a name. -/
def IsName (name : Bytes) : Prop :=
  ∃ c cs, name = c :: cs ∧ isLetter c = true ∧ ∀ d ∈ cs, endsTag d = false

/-- The bytes of each type of token. -/
def Lexeme.Bracketed (t : Lexeme) : Prop :=
  match t.type with
  | .errorToken => True
  | .textToken => t.raw ≠ []
  | .startTagToken => IsName t.data ∧ ∃ rest, t.raw = byte '<' :: (t.data ++ rest ++ [byte '>'])
  | .selfClosingTagToken => IsName t.data ∧
      ∃ rest, t.raw = byte '<' :: (t.data ++ rest ++ [byte '/', byte '>'])
  | .endTagToken => IsName t.data ∧
      ∃ rest, t.raw = byte '<' :: byte '/' :: (t.data ++ rest ++ [byte '>'])
  | .commentToken | .doctypeToken => ∃ rest, t.raw = byte '<' :: rest

structure Lexeme.WellFormed (t : Lexeme) : Prop where
  data : t.data <:+: t.raw
  keys : ∀ a ∈ t.attr, a.1 ≠ [] ∧ ∀ c ∈ a.1, keyByte c = true
  attrs : ∀ a ∈ t.attr, a.1 <:+: t.raw ∧ a.2 <:+: t.raw
  bracketed : t.Bracketed

namespace Cursor

theorem Tagged.name {first : Int} (tagged : v.Tagged first) (sound : v.Sound) (lower : 0 ≤ first) :
    IsName (v.cut v.data) := by
  have some_name := tagged.name_some
  have inside := tagged.name_inside
  have upper := sound.upper
  have data : v.data = ⟨first, v.data.stop⟩ := by rw [← tagged.name_start]
  rw [data, cut_cons lower some_name (by omega)]
  refine ⟨_, _, rfl, tagged.letter, fun d mem => ?_⟩
  obtain ⟨i, after, before, rfl⟩ := mem_cut (by simp only; omega) mem
  exact tagged.name_bytes i (by simp only at after; omega) before

/-- A tag is what is before its name, the name and the rest, up to the bracket. -/
theorem Tagged.cut_eq {first : Int} (tagged : v.Tagged first) (sound : v.Sound)
    (lower : v.raw.start ≤ first) :
    v.cut v.raw = v.cut ⟨v.raw.start, first⟩ ++
      (v.cut v.data ++ v.cut ⟨v.data.stop, v.raw.stop - 1⟩ ++ [byte '>']) := by
  have some_name := tagged.name_some
  have inside := tagged.name_inside
  have start := sound.lower
  have data : v.cut v.data = v.cut ⟨first, v.data.stop⟩ := by rw [← tagged.name_start]
  change v.cut ⟨v.raw.start, v.raw.stop⟩ = _
  rw [data, ← cut_append (by omega) (by omega), ← tagged.closed, ← List.append_assoc,
    ← cut_append (by omega) (by omega), ← cut_concat (by omega) (by omega) sound.upper]

/-- The slash before the bracket is not in the name. -/
theorem Tagged.before_slash {first : Int} (tagged : v.Tagged first)
    (slash : v.peek (v.raw.stop - 2) = byte '/') : v.data.stop ≤ v.raw.stop - 2 := by
  have some_name := tagged.name_some
  have inside := tagged.name_inside
  by_contra long
  have last : v.raw.stop - 2 = v.data.stop - 1 := by omega
  rw [last] at slash
  by_cases letter : v.data.stop - 1 = first
  · have is_letter := tagged.letter
    rw [← letter, slash] at is_letter
    exact absurd is_letter (by decide)
  · have plain := tagged.name_bytes (v.data.stop - 1) (by omega) (by omega)
    rw [slash] at plain
    exact absurd plain (by decide)

theorem Yields.bracketed {t : TokenType} (yields : v.Yields t v) : v.lexeme.Bracketed := by
  have sound := yields.sound
  have lower := sound.lower
  have upper := sound.upper
  have shaped := yields.shaped
  have raw : v.lexeme.raw = v.cut ⟨v.raw.start, v.raw.stop⟩ := rfl
  unfold Lexeme.Bracketed
  rw [show v.lexeme.type = t from yields.type]
  cases t with
  | errorToken => trivial
  | textToken =>
    rw [raw, cut_cons lower shaped upper]
    exact List.cons_ne_nil _ _
  | commentToken | doctypeToken =>
    obtain ⟨some_bytes, angle⟩ := shaped
    exact ⟨_, by rw [raw, cut_cons lower some_bytes upper, angle]⟩
  | startTagToken =>
    obtain ⟨angle, tagged⟩ := shaped
    have some_name := tagged.name_some
    have inside := tagged.name_inside
    refine ⟨tagged.name sound (by omega), v.cut ⟨v.data.stop, v.raw.stop - 1⟩, ?_⟩
    change v.cut v.raw = _
    rw [tagged.cut_eq sound (by omega), cut_one lower (by omega), angle]
    rfl
  | selfClosingTagToken =>
    obtain ⟨angle, tagged, slash⟩ := shaped
    have some_name := tagged.name_some
    have short := tagged.before_slash slash
    refine ⟨tagged.name sound (by omega), v.cut ⟨v.data.stop, v.raw.stop - 2⟩, ?_⟩
    change v.cut v.raw = _
    have last : v.raw.stop - 1 - 1 = v.raw.stop - 2 := by omega
    rw [tagged.cut_eq sound (by omega), cut_one lower (by omega), angle,
      cut_concat (a := v.data.stop) (by omega) (by omega) (by omega), last, slash]
    simp [lexeme]
  | endTagToken =>
    obtain ⟨angle, slash, tagged⟩ := shaped
    have some_name := tagged.name_some
    have inside := tagged.name_inside
    have first : v.raw.start + 2 = v.raw.start + 1 + 1 := by omega
    refine ⟨tagged.name sound (by omega), v.cut ⟨v.data.stop, v.raw.stop - 1⟩, ?_⟩
    change v.cut v.raw = _
    rw [tagged.cut_eq sound (by omega), cut_cons lower (by omega) (by omega), first,
      cut_one (by omega) (by omega), angle, slash]
    rfl

theorem AttrIn.key {a : Span × Span} (inside : v.AttrIn a) (sound : v.Sound) :
    v.cut a.1 ≠ [] ∧ ∀ c ∈ v.cut a.1, keyByte c = true := by
  have lower := sound.lower
  have start := inside.key_lower
  constructor
  · have first := cut_cons (a := a.1.start) (b := a.1.stop) (by omega) inside.key_some
      (Int.le_trans inside.key_upper sound.upper)
    intro empty
    exact absurd (empty.symm.trans first) nofun
  · intro c mem
    obtain ⟨i, after, before, rfl⟩ := mem_cut (by omega) mem
    exact inside.key_bytes i after before

theorem Yields.wellFormed {t : TokenType} (yields : v.Yields t v) : v.lexeme.WellFormed := by
  have attrs : ∀ a ∈ v.lexeme.attr, ∃ b, v.AttrIn b ∧ a = (v.cut b.1, v.cut b.2) := by
    intro a mem
    simp only [lexeme] at mem
    split_ifs at mem with tag
    · obtain ⟨b, member, rfl⟩ := List.mem_map.mp mem
      exact ⟨b, yields.attrs (yields.type ▸ tag) b member, rfl⟩
    · exact absurd mem List.not_mem_nil
  refine ⟨cut_within yields.data_lower yields.data_order yields.data_upper, fun a mem => ?_, fun a mem => ?_,
    yields.bracketed⟩
  · obtain ⟨b, inside, rfl⟩ := attrs a mem
    exact inside.key yields.sound
  · obtain ⟨b, inside, rfl⟩ := attrs a mem
    exact ⟨cut_within inside.key_lower (Int.le_of_lt inside.key_some) inside.key_upper,
      cut_within inside.val_lower inside.val_order inside.val_upper⟩

end Cursor

/-- Every token is what its type says: its text is in it, a tag has a name between its brackets, and
an attribute has a key without anything that would end it. -/
theorem tokens_wellFormed {r : Reader} {count : Nat} {ts : List Lexeme} (steady : r.Steady) (tag : Bytes)
    (enough : 3 * r.rest.length + 1 < fuel) (many : r.rest.length < count)
    (run : tokenize fuel count (newTokenizerFragment r tag) = .ok ts) : ∀ t ∈ ts, t.WellFormed := by
  obtain ⟨us, runs, -, each⟩ := tokenize_fragment r.rest r.final tag enough many
  obtain rfl : us = ts := Except.ok.inj ((runs r steady rfl rfl).symm.trans run)
  intro t mem
  obtain ⟨w, yields, rfl⟩ := each t mem
  exact yields.wellFormed

theorem tokens_wellFormed_pieces :
    ∃ ts, tokenize 30 9 (newTokenizerFragment pieces []) = .ok ts ∧ ∀ t ∈ ts, t.WellFormed := by
  have enough : 3 * pieces.rest.length + 1 < 30 := by simp [pieces_length]
  have many : pieces.rest.length < 9 := by simp [pieces_length]
  obtain ⟨ts, runs, -⟩ := tokenize_fragment pieces.rest pieces.final [] enough many
  have run := runs pieces pieces_steady rfl rfl
  exact ⟨ts, run, tokens_wellFormed pieces_steady [] enough many run⟩

end Gopherize.Html
