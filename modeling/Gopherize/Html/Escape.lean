import Gopherize.Core.InPlace
import Gopherize.Html.Tokenize

/-! html/escape.go, and `convertNewlines` of html/token.go. References like "&lt;" and line ends are
replaced in place, and each replacement is at most as long as what it replaces; so the slice ends
as a plain rewriting of its bytes. Escaping a text and unescaping it gives the text back. -/
namespace Gopherize.Html
open GoCore InPlace

/-- `utf8.EncodeRune`: the bytes of a rune; U+FFFD stands for what is not a Unicode character. -/
def encodeRune (r : Int) : Bytes :=
  let i := (r % 0x100000000).toNat
  if i ≤ 0x7f then [.ofNat i]
  else if i ≤ 0x7ff then [.ofNat (0xc0 + i / 64), .ofNat (0x80 + i % 64)]
  else if 0x10ffff < i ∨ 0xd800 ≤ i ∧ i ≤ 0xdfff then [0xef, 0xbf, 0xbd]
  else if i ≤ 0xffff then
    [.ofNat (0xe0 + i / 4096), .ofNat (0x80 + i / 64 % 64), .ofNat (0x80 + i % 64)]
  else
    [.ofNat (0xf0 + i / 262144), .ofNat (0x80 + i / 4096 % 64), .ofNat (0x80 + i / 64 % 64),
      .ofNat (0x80 + i % 64)]

theorem encodeRune_length (r : Int) : (encodeRune r).length ≤ 4 := by
  simp only [encodeRune]
  split_ifs <;> simp

/-- The maps `entity` and `entity2`, without the names that they do not have. A character is never
longer than the name that stands for it, with the ampersand before the name; the names that `escape`
writes stand for the bytes that it replaces. -/
structure Entities where
  entity : Bytes → Option Int
  entity2 : Bytes → Option (Int × Int)
  fits : ∀ name x, entity name = some x → (encodeRune x).length ≤ name.length + 1
  fits2 : ∀ name x y, entity2 name = some (x, y) →
    (encodeRune x ++ encodeRune y).length ≤ name.length + 1
  amp : entity (bytes "amp;") = some 0x26
  lt : entity (bytes "lt;") = some 0x3c
  gt : entity (bytes "gt;") = some 0x3e

/-- What the numbers from 0x80 to 0x9f stand for. -/
def replacementTable : List Int :=
  [0x20ac, 0x81, 0x201a, 0x192, 0x201e, 0x2026, 0x2020, 0x2021, 0x2c6, 0x2030, 0x160, 0x2039, 0x152,
    0x8d, 0x17d, 0x8f, 0x90, 0x2018, 0x2019, 0x201c, 0x201d, 0x2022, 0x2013, 0x2014, 0x2dc, 0x2122,
    0x161, 0x203a, 0x153, 0x9d, 0x17e, 0x178]

/-- All entities that do not end with ';' have 6 or fewer bytes. -/
def longestEntityWithoutSemicolon : Nat := 6

def isDigit (c : UInt8) : Bool := byte '0' ≤ c && c ≤ byte '9'

/-- The value of a digit in a numeric reference. -/
def digitValue (hex : Bool) (c : UInt8) : Option Int :=
  if isDigit c then some (c.toNat - 48)
  else if hex && byte 'a' ≤ c && c ≤ byte 'f' then some (c.toNat - 87)
  else if hex && byte 'A' ≤ c && c ≤ byte 'F' then some (c.toNat - 55)
  else none

/-- The digits of a numeric reference, read into an `int32`, and the position behind them. -/
def digits (hex : Bool) : Bytes → Int → Nat → Int × Nat
  | [], x, i => (x, i)
  | c :: cs, x, i =>
    match digitValue hex c with
    | some d => digits hex cs (((if hex then 16 else 10) * x + d).bmod (0x100000000)) (i + 1)
    | none => (x, if c = byte ';' then i + 1 else i)

/-- The character that a number stands for. -/
def numbered (x : Int) : Int :=
  if 0x80 ≤ x ∧ x ≤ 0x9f then replacementTable.getD (x - 0x80).toNat 0
  else if x = 0 ∨ 0xd800 ≤ x ∧ x ≤ 0xdfff ∨ 0x10ffff < x then 0xfffd
  else x

/-- The position behind the name of a named reference. -/
def nameEnd : Bytes → Nat → Nat
  | [], i => i
  | c :: cs, i =>
    if isLetter c || isDigit c then nameEnd cs (i + 1) else if c = byte ';' then i + 1 else i

/-- The longest front of a name, of at most `j` and at least two bytes, that is a name. -/
def frontEntity (t : Entities) (name : Bytes) : Nat → Option (Int × Nat)
  | 0 => none
  | j + 1 =>
    if j = 0 then none
    else match t.entity (name.take (j + 1)) with
      | some x => some (x, j + 1)
      | none => frontEntity t name j

/-- A reference like "&#39;" and how many bytes it has. Where there are no digits, the ampersand
stands for itself. -/
def numericReference (s : Bytes) : Bytes × Nat :=
  if s.length ≤ 3 then (s.take 1, 1)
  else
    let hex := s[2]? = some (byte 'x') || s[2]? = some (byte 'X')
    let first := if hex then 3 else 2
    let (x, i) := digits hex (s.drop first) 0 first
    if i ≤ 3 then (s.take 1, 1) else (encodeRune (numbered x), i)

/-- A reference like "&lt;" and how many bytes it has. A name that is unknown stands for itself. -/
def namedReference (t : Entities) (inAttribute : Bool) (s : Bytes) : Bytes × Nat :=
  let i := nameEnd (s.drop 1) 1
  let name := (s.take i).drop 1
  if name = [] then (s.take i, i)
  else if inAttribute && name.getLast? ≠ some (byte ';') && s[i]? = some (byte '=') then (s.take i, i)
  else match t.entity name, t.entity2 name with
    | some x, _ => (encodeRune x, i)
    | none, some (x, y) => (encodeRune x ++ encodeRune y, i)
    | none, none =>
      if inAttribute then (s.take i, i)
      else match frontEntity t name (min (name.length - 1) longestEntityWithoutSemicolon) with
        | some (x, j) => (encodeRune x, j + 1)
        | none => (s.take i, i)

/-- What a reference is replaced by, and how many bytes are. `s` starts with an ampersand. -/
def reference (t : Entities) (inAttribute : Bool) (s : Bytes) : Bytes × Nat :=
  if s.length ≤ 1 then (s.take 1, 1)
  else if s[1]? = some (byte '#') then numericReference s
  else namedReference t inAttribute s

/-- `unescapeEntity`: all that it reads comes before what it writes. -/
def unescapeEntity (t : Entities) (inAttribute : Bool) (b : Bytes) (dst src : Nat) :
    Except Fault (Bytes × Nat × Nat) := do
  let (out, n) := reference t inAttribute (b.drop src)
  pure (← put b dst out, dst + out.length, src + n)

def unescapeLoop (t : Entities) (inAttribute : Bool) :
    Nat → Bytes → Nat → Nat → Except Fault (Bytes × Nat)
  | 0, _, _, _ => throw .outOfFuel
  | fuel + 1, b, dst, src =>
    match b[src]? with
    | none => pure (b, dst)
    | some c =>
      if c = byte '&' then do
        let (b, dst, src) ← unescapeEntity t inAttribute b dst src
        unescapeLoop t inAttribute fuel b dst src
      else do unescapeLoop t inAttribute fuel (← put b dst [c]) (dst + 1) (src + 1)

/-- `unescape`: the array behind the slice and the length of the result, which is its front. -/
def unescape (t : Entities) (inAttribute : Bool) (fuel : Nat) (b : Bytes) : Except Fault (Bytes × Nat) :=
  match b.findIdx? (· = byte '&') with
  | none => pure (b, b.length)
  | some i => do
    let (b, dst, src) ← unescapeEntity t inAttribute b i i
    unescapeLoop t inAttribute fuel b dst src

/-- The second loop of `convertNewlines`, once a line end has lost a byte. -/
def shiftNewlines : Nat → Bytes → Nat → Nat → Except Fault (Bytes × Nat)
  | 0, _, _, _ => throw .outOfFuel
  | fuel + 1, s, dst, src =>
    match s[src]? with
    | none => pure (s, dst)
    | some c =>
      if c = 0x0d then do
        let src := if s[src + 1]? = some 0x0a then src + 1 else src
        shiftNewlines fuel (← put s dst [0x0a]) (dst + 1) (src + 1)
      else do shiftNewlines fuel (← put s dst [c]) (dst + 1) (src + 1)

/-- The first loop of `convertNewlines`, from index `i` on. -/
def scanNewlines : Nat → Bytes → Nat → Except Fault (Bytes × Nat)
  | 0, _, _ => throw .outOfFuel
  | fuel + 1, s, i =>
    match s[i]? with
    | none => pure (s, s.length)
    | some c =>
      if c ≠ 0x0d then scanNewlines fuel s (i + 1)
      else if s[i + 1]? = some 0x0a then shiftNewlines fuel s i (i + 1)
      else do scanNewlines fuel (← put s i [0x0a]) (i + 1)

def convertNewlines (fuel : Nat) (s : Bytes) : Except Fault (Bytes × Nat) := scanNewlines fuel s 0

/-- The bytes that are escaped: an ampersand, quotes, angles and a carriage return. -/
def escapedChars : Bytes := [byte '&', 0x27, byte '<', byte '>', 0x22, 0x0d]

def escapeChar (c : UInt8) : Except Fault Bytes :=
  if c = byte '&' then pure (bytes "&amp;")
  else if c = 0x27 then pure (bytes "&#39;")
  else if c = byte '<' then pure (bytes "&lt;")
  else if c = byte '>' then pure (bytes "&gt;")
  else if c = 0x22 then pure (bytes "&#34;")
  else if c = 0x0d then pure (bytes "&#13;")
  else throw (.panicked "unrecognized escape character")

/-- `escape` to a writer that has `w`. -/
def escape : Nat → Bytes → Bytes → Except Fault Bytes
  | 0, _, _ => throw .outOfFuel
  | fuel + 1, w, s =>
    match s.findIdx? (escapedChars.contains ·) with
    | none => pure (w ++ s)
    | some i => do escape fuel (w ++ s.take i ++ (← escapeChar (s.getD i 0))) (s.drop (i + 1))

def escapeString (fuel : Nat) (s : Bytes) : Except Fault Bytes :=
  if s.findIdx? (escapedChars.contains ·) = none then pure s else escape fuel [] s

def unescapeString (t : Entities) (fuel : Nat) (s : Bytes) : Except Fault Bytes :=
  if s.contains (byte '&') then do
    let (b, n) ← unescape t false fuel s
    pure (b.take n)
  else pure s

variable {t : Entities} {inAttribute : Bool}

section Shrinks

theorem digits_bounds (hex : Bool) (s : Bytes) (x : Int) (i : Nat) :
    i ≤ (digits hex s x i).2 ∧ (digits hex s x i).2 ≤ i + s.length := by
  induction s generalizing x i with
  | nil => simp [digits]
  | cons c cs ih =>
    rw [digits]
    split
    · next d _ =>
      have rest := ih (((if hex then 16 else 10) * x + d).bmod (0x100000000)) (i + 1)
      simp only [List.length_cons]
      omega
    · simp only [List.length_cons]
      split <;> omega

theorem nameEnd_bounds (s : Bytes) (i : Nat) : i ≤ nameEnd s i ∧ nameEnd s i ≤ i + s.length := by
  induction s generalizing i with
  | nil => simp [nameEnd]
  | cons c cs ih =>
    have rest := ih (i + 1)
    simp only [nameEnd, List.length_cons]
    split_ifs <;> omega

theorem frontEntity_bounds {name : Bytes} {x : Int} {n j : Nat} (found : frontEntity t name n = some (x, j)) :
    t.entity (name.take j) = some x ∧ j ≤ n := by
  induction n with
  | zero => simp [frontEntity] at found
  | succ n ih =>
    rw [frontEntity] at found
    split_ifs at found
    split at found
    · next y known =>
      cases found
      exact ⟨known, Nat.le_refl _⟩
    · obtain ⟨known, bound⟩ := ih found
      exact ⟨known, by omega⟩

/-- A replacement of the front of `s`, at most as long as what it replaces. -/
structure Shorter (s : Bytes) (r : Bytes × Nat) : Prop where
  some : 0 < r.2
  inside : r.2 ≤ s.length
  fits : r.1.length ≤ r.2

theorem Shorter.shrinks {step : Step UInt8} (each : ∀ s ≠ [], Shorter s (step s)) : Shrinks step :=
  ⟨fun s some => (each s some).some, fun s some => (each s some).inside,
    fun s some => (each s some).fits⟩

theorem shorter_take {s : Bytes} {i : Nat} (some : 0 < i) (inside : i ≤ s.length) :
    Shorter s (s.take i, i) :=
  ⟨some, inside, List.length_take_le i s⟩

theorem numericReference_shorter {s : Bytes} (some : 0 < s.length) : Shorter s (numericReference s) := by
  have keep := shorter_take Nat.one_pos some
  rw [numericReference]
  extract_lets hex n
  split
  · exact keep
  · have start : n ≤ 3 := by
      simp only [n]
      split <;> omega
    have bounds := digits_bounds hex (s.drop n) 0 n
    rw [List.length_drop] at bounds
    generalize digits hex (s.drop n) 0 n = read at bounds
    obtain ⟨x, i⟩ := read
    simp only at bounds ⊢
    split
    · exact keep
    · have length := encodeRune_length (numbered x)
      constructor
      · simp only
        omega
      · simp only
        omega
      · simp only
        omega

theorem namedReference_shorter {s : Bytes} (some : 0 < s.length) :
    Shorter s (namedReference t inAttribute s) := by
  simp only [namedReference]
  have bounds := nameEnd_bounds (s.drop 1) 1
  rw [List.length_drop] at bounds
  generalize nameEnd (s.drop 1) 1 = i at bounds
  have copy : Shorter s (s.take i, i) := shorter_take (by omega) (by omega)
  have length : ((s.take i).drop 1).length + 1 = i := by
    simp only [List.length_drop, List.length_take]
    omega
  split
  · exact copy
  split
  · exact copy
  split
  · next x known => exact ⟨copy.some, copy.inside, length ▸ t.fits _ x known⟩
  · next x y _ known => exact ⟨copy.some, copy.inside, length ▸ t.fits2 _ x y known⟩
  · split
    · exact copy
    split
    · next x j found =>
      obtain ⟨known, bound⟩ := frontEntity_bounds found
      have fits := t.fits _ x known
      rw [List.length_take] at fits
      constructor
      · exact Nat.succ_pos j
      · simp only
        omega
      · simp only
        omega
    · exact copy

theorem reference_shorter {s : Bytes} (some : 0 < s.length) : Shorter s (reference t inAttribute s) := by
  rw [reference]
  split
  · exact shorter_take Nat.one_pos some
  split
  · exact numericReference_shorter some
  · exact namedReference_shorter some

end Shrinks

/-- One round of unescaping: a reference, or a byte as it is. -/
def unescapeStep (t : Entities) (inAttribute : Bool) : Step UInt8
  | [] => ([], 0)
  | c :: cs => if c = byte '&' then reference t inAttribute (c :: cs) else ([c], 1)

theorem unescapeStep_shrinks (t : Entities) (inAttribute : Bool) :
    Shrinks (unescapeStep t inAttribute) := by
  refine Shorter.shrinks fun s some => ?_
  obtain ⟨c, cs, rfl⟩ := List.exists_cons_of_ne_nil some
  rw [unescapeStep]
  split
  · exact reference_shorter (Nat.succ_pos _)
  · exact ⟨Nat.one_pos, Nat.succ_pos _, Nat.le_refl 1⟩

/-- The bytes with all references replaced. -/
def unescaped (t : Entities) (inAttribute : Bool) : Bytes → Bytes := rewrite (unescapeStep t inAttribute)

theorem unescaped_cons {c : UInt8} (other : c ≠ byte '&') (cs : Bytes) :
    unescaped t inAttribute (c :: cs) = c :: unescaped t inAttribute cs := by
  rw [unescaped, (unescapeStep_shrinks t inAttribute).rewrite_eq (List.cons_ne_nil _ _), unescapeStep,
    if_neg other]
  rfl

theorem unescaped_plain (t : Entities) (inAttribute : Bool) {s : Bytes} (plain : byte '&' ∉ s)
    (rest : Bytes) :
    unescaped t inAttribute (s ++ rest) = s ++ unescaped t inAttribute rest := by
  induction s with
  | nil => rfl
  | cons c cs ih =>
    have other : c ≠ byte '&' := fun same => plain (same ▸ List.mem_cons_self)
    rw [List.cons_append, unescaped_cons other, ih fun mem => plain (List.mem_cons_of_mem _ mem),
      List.cons_append]

theorem unescaped_of_plain (t : Entities) (inAttribute : Bool) {s : Bytes} (plain : byte '&' ∉ s) :
    unescaped t inAttribute s = s := by
  have same := unescaped_plain t inAttribute plain []
  rwa [unescaped, rewrite_nil, List.append_nil] at same

section InPlace
variable {b written rest : Bytes} {dst src fuel : Nat}

theorem get_of_drop (behind : b.drop src = rest) : b[src]? = rest.head? := by
  rw [← behind, List.head?_drop]

theorem unescapeLoop_eq (t : Entities) (inAttribute : Bool) (fuel : Nat)
    (sweep : Sweep b dst src written rest) (enough : rest.length < fuel) :
    ∃ b' n, unescapeLoop t inAttribute fuel b dst src = .ok (b', n) ∧
      b'.take n = written ++ unescaped t inAttribute rest ∧ b'.length = b.length ∧ n ≤ b'.length := by
  refine Sweep.loop (unescapeStep_shrinks t inAttribute) ?_ ?_ fuel sweep enough
  · intro fuel b dst src behind
    rw [unescapeLoop, get_of_drop behind]
    rfl
  · intro fuel b b' dst src c cs behind done
    rw [unescapeLoop, get_of_drop behind]
    rw [unescapeStep] at done ⊢
    simp only [List.head?_cons]
    split_ifs at done ⊢ with reference
    · simp only [unescapeEntity, behind, done, Fault.ok_bind, Fault.pure_eq_ok]
    · simp only [done, Fault.ok_bind, List.length_singleton]

theorem findIdx?_split {p : UInt8 → Bool} {s : Bytes} {i : Nat} (found : s.findIdx? p = some i) :
    ∃ c rest, s.drop i = c :: rest ∧ p c = true ∧ ∀ d ∈ s.take i, p d = false := by
  obtain ⟨inside, holds, before⟩ := List.findIdx?_eq_some_iff_getElem.mp found
  refine ⟨s[i], s.drop (i + 1), List.drop_eq_getElem_cons inside, holds, fun d mem => ?_⟩
  obtain ⟨j, bound, rfl⟩ := List.getElem_of_mem mem
  rw [List.length_take] at bound
  simpa using before j (by omega)

/-- `unescape` does not panic, and its result is the plain rewriting. -/
theorem unescape_sweeps (t : Entities) (inAttribute : Bool) (b : Bytes) (enough : b.length ≤ fuel) :
    ∃ b' n, unescape t inAttribute fuel b = .ok (b', n) ∧ b'.take n = unescaped t inAttribute b ∧
      b'.length = b.length ∧ n ≤ b'.length := by
  rw [unescape]
  split
  · next none =>
    have plain : byte '&' ∉ b := by
      intro mem
      simpa using List.findIdx?_eq_none_iff.mp none _ mem
    refine ⟨b, b.length, rfl, ?_, rfl, Nat.le_refl _⟩
    rw [unescaped_of_plain t inAttribute plain, List.take_length]
  · next i found =>
    obtain ⟨c, rest, behind, ampersand, before⟩ := findIdx?_split found
    obtain rfl : c = byte '&' := by simpa using ampersand
    have inside : i ≤ b.length := Nat.le_of_lt (List.findIdx?_eq_some_iff_getElem.mp found).1
    have plain : byte '&' ∉ b.take i := by
      intro mem
      simpa using before _ mem
    -- the first reference is one more round of the loop
    obtain ⟨b', n, ran, result, rest'⟩ := unescapeLoop_eq t inAttribute (fuel + 1)
      (Sweep.start inside) (by rw [List.length_drop]; omega)
    rw [unescapeLoop, get_of_drop behind, List.head?_cons] at ran
    simp only [if_true] at ran
    refine ⟨b', n, ran, ?_, rest'⟩
    rw [result, ← unescaped_plain t inAttribute plain, List.take_append_drop]

/-- One round of `convertNewlines`. -/
def newlineStep : Step UInt8
  | [] => ([], 0)
  | c :: cs => if c = 0x0d then ([0x0a], if cs.head? = some 0x0a then 2 else 1) else ([c], 1)

theorem newlineStep_shrinks : Shrinks newlineStep := by
  refine Shorter.shrinks fun s some => ?_
  obtain ⟨c, cs, rfl⟩ := List.exists_cons_of_ne_nil some
  have one : Shorter (c :: cs) ([0x0a], 1) := ⟨Nat.one_pos, Nat.succ_pos _, Nat.le_refl 1⟩
  rw [newlineStep]
  split
  · split
    · next feed =>
      obtain ⟨ds, rfl⟩ : ∃ ds, cs = 0x0a :: ds := List.head?_eq_some_iff.mp feed
      exact ⟨Nat.two_pos, Nat.le_add_left 2 _, Nat.le_succ 1⟩
    · exact one
  · exact ⟨one.some, one.inside, one.fits⟩

/-- The bytes with each line end as one line feed. -/
def normalized : Bytes → Bytes := rewrite newlineStep

theorem normalized_cons {c : UInt8} (other : c ≠ 0x0d) (cs : Bytes) :
    normalized (c :: cs) = c :: normalized cs := by
  rw [normalized, newlineStep_shrinks.rewrite_eq (List.cons_ne_nil _ _), newlineStep, if_neg other]
  rfl

theorem normalized_return {cs : Bytes} (alone : cs.head? ≠ some 0x0a) :
    normalized (0x0d :: cs) = 0x0a :: normalized cs := by
  rw [normalized, newlineStep_shrinks.rewrite_eq (List.cons_ne_nil _ _), newlineStep, if_pos rfl,
    if_neg alone]
  rfl

/-- A carriage return before a line feed is left out. -/
theorem normalized_pair (cs : Bytes) : normalized (0x0d :: 0x0a :: cs) = normalized (0x0a :: cs) := by
  have feed : normalized (0x0a :: cs) = 0x0a :: normalized cs := normalized_cons (by decide) cs
  rw [feed, normalized, newlineStep_shrinks.rewrite_eq (List.cons_ne_nil _ _)]
  rfl

theorem next_of_drop {c : UInt8} (behind : b.drop src = c :: rest) : b[src + 1]? = rest.head? := by
  rw [← List.head?_drop, ← List.drop_drop, behind]
  rfl

theorem shiftNewlines_eq (fuel : Nat) (sweep : Sweep b dst src written rest)
    (enough : rest.length < fuel) :
    ∃ b' n, shiftNewlines fuel b dst src = .ok (b', n) ∧ b'.take n = written ++ normalized rest ∧
      b'.length = b.length ∧ n ≤ b'.length := by
  refine Sweep.loop newlineStep_shrinks ?_ ?_ fuel sweep enough
  · intro fuel b dst src behind
    rw [shiftNewlines, get_of_drop behind]
    rfl
  · intro fuel b b' dst src c cs behind done
    rw [shiftNewlines, get_of_drop behind]
    rw [newlineStep] at done ⊢
    simp only [List.head?_cons, next_of_drop behind]
    split_ifs at done ⊢ <;> simp only [done, Fault.ok_bind, List.length_singleton]

theorem scanNewlines_eq (fuel : Nat) (sweep : Sweep b i i written rest) (enough : rest.length < fuel) :
    ∃ b' n, scanNewlines fuel b i = .ok (b', n) ∧ b'.take n = written ++ normalized rest ∧
      b'.length = b.length ∧ n ≤ b'.length := by
  induction fuel generalizing b i written rest with
  | zero => omega
  | succ fuel ih =>
    have inside := sweep.inside
    rw [scanNewlines, get_of_drop sweep.rest]
    cases rest with
    | nil =>
      have last : i = b.length := by
        have nothing := congrArg List.length sweep.rest
        rw [List.length_drop, List.length_nil] at nothing
        omega
      subst last
      refine ⟨b, b.length, rfl, ?_, rfl, Nat.le_refl _⟩
      rw [sweep.written, normalized, rewrite_nil, List.append_nil]
    | cons c cs =>
      have few : cs.length < fuel := by
        simp only [List.length_cons] at enough
        omega
      simp only [List.head?_cons, next_of_drop sweep.rest]
      split_ifs with plain feed
      · obtain ⟨b', n, ran, result, rest'⟩ := ih sweep.pass few
        refine ⟨b', n, ran, ?_, rest'⟩
        rw [result, normalized_cons plain, List.append_assoc, List.singleton_append]
      · obtain rfl : c = 0x0d := by simpa using plain
        obtain ⟨ds, rfl⟩ : ∃ ds, cs = 0x0a :: ds := List.head?_eq_some_iff.mp feed
        obtain ⟨b', n, ran, result, rest'⟩ := shiftNewlines_eq fuel sweep.skip few
        exact ⟨b', n, ran, by rw [result, normalized_pair], rest'⟩
      · obtain rfl : c = 0x0d := by simpa using plain
        obtain ⟨b₁, done, length, sweep₁⟩ :=
          sweep.put [0x0a] (n := 1) (Nat.le_refl 1) (Nat.succ_pos _)
        obtain ⟨b', n, ran, result, length', inside'⟩ := ih sweep₁ few
        refine ⟨b', n, ?_, ?_, length'.trans length, inside'⟩
        · rw [done, Fault.ok_bind]
          exact ran
        · rw [result, normalized_return feed, List.append_assoc]
          rfl

/-- `convertNewlines` does not panic, and its result is the plain rewriting. -/
theorem convertNewlines_sweeps (s : Bytes) (enough : s.length < fuel) :
    ∃ b n, convertNewlines fuel s = .ok (b, n) ∧ b.take n = normalized s ∧ b.length = s.length ∧
      n ≤ b.length :=
  scanNewlines_eq fuel (Sweep.start (Nat.zero_le _)) enough

end InPlace

/-- No carriage return is left. -/
theorem normalized_plain (s : Bytes) : 0x0d ∉ normalized s := by
  induction s with
  | nil => simp [normalized]
  | cons c cs ih =>
    by_cases other : c = 0x0d
    · subst other
      by_cases feed : cs.head? = some 0x0a
      · obtain ⟨ds, rfl⟩ : ∃ ds, cs = 0x0a :: ds := List.head?_eq_some_iff.mp feed
        rwa [normalized_pair]
      · rw [normalized_return feed]
        simp [ih]
    · rw [normalized_cons other]
      simp [ih, Ne.symm other]

theorem normalized_of_plain {s : Bytes} (plain : 0x0d ∉ s) : normalized s = s := by
  induction s with
  | nil => exact rewrite_nil
  | cons c cs ih =>
    simp only [List.mem_cons, not_or] at plain
    rw [normalized_cons (Ne.symm plain.1), ih plain.2]

section Escape

/-- What is written for a byte. -/
def escapedByte (c : UInt8) : Bytes :=
  if c = byte '&' then bytes "&amp;"
  else if c = 0x27 then bytes "&#39;"
  else if c = byte '<' then bytes "&lt;"
  else if c = byte '>' then bytes "&gt;"
  else if c = 0x22 then bytes "&#34;"
  else if c = 0x0d then bytes "&#13;"
  else [c]

def escaped (s : Bytes) : Bytes := s.flatMap escapedByte

theorem escapeChar_eq {c : UInt8} (special : c ∈ escapedChars) : escapeChar c = .ok (escapedByte c) := by
  simp only [escapedChars, List.mem_cons, List.not_mem_nil, or_false] at special
  rcases special with rfl | rfl | rfl | rfl | rfl | rfl <;> rfl

theorem escapedByte_plain {c : UInt8} (plain : c ∉ escapedChars) : escapedByte c = [c] := by
  simp only [escapedChars, List.mem_cons, List.not_mem_nil, or_false, not_or] at plain
  simp [escapedByte, plain]

theorem escaped_plain {s : Bytes} (plain : ∀ c ∈ s, c ∉ escapedChars) : escaped s = s := by
  induction s with
  | nil => rfl
  | cons c cs ih =>
    rw [escaped, List.flatMap_cons, escapedByte_plain (plain c List.mem_cons_self)]
    exact congrArg (c :: ·) (ih fun d mem => plain d (List.mem_cons_of_mem _ mem))

theorem escaped_of_none {s : Bytes} (none : s.findIdx? (escapedChars.contains ·) = none) :
    escaped s = s := by
  refine escaped_plain fun c mem special => ?_
  simpa [special] using List.findIdx?_eq_none_iff.mp none c mem

theorem escape_eq (fuel : Nat) (w s : Bytes) (enough : s.length < fuel) :
    escape fuel w s = .ok (w ++ escaped s) := by
  induction fuel generalizing w s with
  | zero => omega
  | succ fuel ih =>
    rw [escape]
    split
    · next none =>
      rw [escaped_of_none none]
      rfl
    · next i found =>
      obtain ⟨c, rest, behind, special, before⟩ := findIdx?_split found
      have first : s.getD i 0 = c := by
        rw [List.getD_eq_getElem?_getD, ← List.head?_drop, behind]
        rfl
      have tail : s.drop (i + 1) = rest := by
        rw [← List.drop_drop, behind]
        rfl
      have length := congrArg List.length behind
      rw [List.length_drop, List.length_cons] at length
      have split : escaped s = s.take i ++ (escapedByte c ++ escaped rest) := by
        have front : escaped (s.take i) = s.take i := escaped_plain fun d mem special => by
          simpa [special] using before d mem
        conv_lhs => rw [← List.take_append_drop i s, behind, escaped, List.flatMap_append,
          List.flatMap_cons]
        exact congrArg (· ++ _) front
      rw [first, tail, escapeChar_eq (by simpa using special), Fault.ok_bind, ih _ _ (by omega), split]
      simp only [List.append_assoc]

theorem escapeString_eq (s : Bytes) (enough : s.length < fuel) :
    escapeString fuel s = .ok (escaped s) := by
  rw [escapeString]
  split
  · next none =>
    rw [escaped_of_none none]
    rfl
  · rw [escape_eq fuel [] s enough, List.nil_append]

theorem nameEnd_eq {name : Bytes} (plain : ∀ c ∈ name, (isLetter c || isDigit c) = true)
    (rest : Bytes) (i : Nat) : nameEnd (name ++ byte ';' :: rest) i = i + name.length + 1 := by
  induction name generalizing i with
  | nil => rfl
  | cons c cs ih =>
    rw [List.cons_append, nameEnd, if_pos (plain c List.mem_cons_self),
      ih fun d mem => plain d (List.mem_cons_of_mem _ mem), List.length_cons]
    omega

/-- A known name between an ampersand and a semicolon, whatever follows. -/
theorem reference_named (name : Bytes) {x : Int} (all : name.all (fun c => isLetter c || isDigit c) = true)
    (some : name ≠ []) (known : t.entity (name ++ [byte ';']) = .some x) (rest : Bytes) :
    reference t inAttribute (byte '&' :: (name ++ byte ';' :: rest)) =
      (encodeRune x, name.length + 2) := by
  obtain ⟨c, cs, rfl⟩ := List.exists_cons_of_ne_nil some
  have plain := List.all_eq_true.mp all
  have first : c ≠ byte '#' := by
    rintro rfl
    exact absurd (plain _ List.mem_cons_self) (by decide)
  have stop : nameEnd (c :: cs ++ byte ';' :: rest) 1 = (c :: cs).length + 2 := by
    rw [nameEnd_eq plain]
    omega
  have front : (c :: cs ++ byte ';' :: rest).take ((c :: cs).length + 1) = c :: cs ++ [byte ';'] := by
    rw [List.take_length_add_append]
    rfl
  rw [reference, if_neg (by simp), if_neg (by simpa using first)]
  simp only [namedReference, List.drop_one, List.tail_cons, stop, List.take_succ_cons, front, known]
  have last : (c :: cs ++ [byte ';']).getLast? = .some (byte ';') := List.getLast?_concat ..
  rw [if_neg (by simp), if_neg (by rw [last]; simp)]

theorem digits_two {a b : UInt8} (x y : Int) (first : digitValue false a = some x)
    (second : digitValue false b = some y) (rest : Bytes) (i : Nat) :
    digits false (a :: b :: byte ';' :: rest) 0 i = ((10 * x.bmod (0x100000000) + y).bmod (0x100000000), i + 3) := by
  have stop : digitValue false (byte ';') = none := by decide
  simp only [digits, first, second, stop, Bool.false_eq_true, if_false, if_true, Int.mul_zero, Int.zero_add]

/-- A number of two digits between "&#" and a semicolon, whatever follows. -/
theorem reference_numeric {a b : UInt8} (x y : Int) (first : digitValue false a = some x)
    (second : digitValue false b = some y) (rest : Bytes) :
    reference t inAttribute (byte '&' :: byte '#' :: a :: b :: byte ';' :: rest) =
      (encodeRune (numbered ((10 * x.bmod (0x100000000) + y).bmod (0x100000000))), 5) := by
  have decimal : a ≠ byte 'x' ∧ a ≠ byte 'X' := by
    constructor <;>
    · rintro rfl
      cases first
  have hex : (decide (some a = some (byte 'x')) || decide (some a = some (byte 'X'))) = false := by
    simp [decimal]
  rw [reference, if_neg (by simp), if_pos (by simp), numericReference, if_neg (by simp)]
  simp only [List.getElem?_cons_succ, List.getElem?_cons_zero, hex, Bool.false_eq_true, if_false,
    List.drop_succ_cons, List.drop_zero, digits_two x y first second]
  rfl

theorem unescaped_reference {s rest : Bytes} {c : UInt8}
    (read : reference t inAttribute (byte '&' :: (s ++ rest)) = ([c], s.length + 1)) :
    unescaped t inAttribute (byte '&' :: (s ++ rest)) = c :: unescaped t inAttribute rest := by
  rw [unescaped, (unescapeStep_shrinks t inAttribute).rewrite_eq (List.cons_ne_nil _ _), unescapeStep,
    if_pos rfl, read]
  simp

theorem unescaped_escapedByte (t : Entities) (inAttribute : Bool) (c : UInt8) (rest : Bytes) :
    unescaped t inAttribute (escapedByte c ++ rest) = c :: unescaped t inAttribute rest := by
  by_cases special : c ∈ escapedChars
  · simp only [escapedChars, List.mem_cons, List.not_mem_nil, or_false] at special
    rcases special with rfl | rfl | rfl | rfl | rfl | rfl
    · exact unescaped_reference (s := bytes "amp;")
        (reference_named (bytes "amp") (by decide) (by decide) t.amp rest)
    · exact unescaped_reference (s := bytes "#39;") (reference_numeric 3 9 rfl rfl rest)
    · exact unescaped_reference (s := bytes "lt;")
        (reference_named (bytes "lt") (by decide) (by decide) t.lt rest)
    · exact unescaped_reference (s := bytes "gt;")
        (reference_named (bytes "gt") (by decide) (by decide) t.gt rest)
    · exact unescaped_reference (s := bytes "#34;") (reference_numeric 3 4 rfl rfl rest)
    · exact unescaped_reference (s := bytes "#13;") (reference_numeric 1 3 rfl rfl rest)
  · rw [escapedByte_plain special]
    refine unescaped_cons ?_ rest
    rintro rfl
    exact special List.mem_cons_self

theorem unescaped_escaped (t : Entities) (inAttribute : Bool) (s : Bytes) :
    unescaped t inAttribute (escaped s) = s := by
  induction s with
  | nil => exact rewrite_nil
  | cons c cs ih =>
    rw [escaped, List.flatMap_cons, unescaped_escapedByte]
    exact congrArg (c :: ·) ih

theorem escapedByte_safe {d : UInt8} (special : d ∈ escapedChars) :
    ∀ c ∈ escapedByte d, c ∈ escapedChars → c = byte '&' := by
  have all : escapedChars.all (fun d => (escapedByte d).all fun c =>
      !escapedChars.contains c || c == byte '&') = true := by decide
  intro c inside again
  have each := List.all_eq_true.mp (List.all_eq_true.mp all d special) c inside
  simpa [again] using each

/-- Nothing that is escaped is left but the ampersand. -/
theorem escaped_safe (s : Bytes) : ∀ c ∈ escaped s, c ∈ escapedChars → c = byte '&' := by
  intro c mem special
  obtain ⟨d, -, inside⟩ := List.mem_flatMap.mp mem
  by_cases plain : d ∈ escapedChars
  · exact escapedByte_safe plain c inside special
  · rw [escapedByte_plain plain] at inside
    obtain rfl := List.mem_singleton.mp inside
    exact absurd special plain

theorem escapedByte_length {d : UInt8} (special : d ∈ escapedChars) : (escapedByte d).length ≤ 5 := by
  have all : escapedChars.all (fun d => (escapedByte d).length ≤ 5) = true := by decide
  simpa using List.all_eq_true.mp all d special

theorem escaped_length (s : Bytes) : (escaped s).length ≤ 5 * s.length := by
  induction s with
  | nil => exact Nat.le_refl 0
  | cons c cs ih =>
    have first : (escapedByte c).length ≤ 5 := by
      by_cases plain : c ∈ escapedChars
      · exact escapedByte_length plain
      · rw [escapedByte_plain plain]
        exact Nat.succ_le_succ (Nat.zero_le 4)
    rw [escaped, List.flatMap_cons, List.length_append, List.length_cons]
    change (escapedByte c).length + (escaped cs).length ≤ 5 * (cs.length + 1)
    omega

end Escape

section Results
variable {fuel : Nat}

theorem unescapeString_eq (t : Entities) (s : Bytes) (enough : s.length ≤ fuel) :
    unescapeString t fuel s = .ok (unescaped t false s) := by
  rw [unescapeString]
  split
  · obtain ⟨array, n, ran, result, -⟩ := unescape_sweeps t false s enough
    rw [ran, Fault.ok_bind]
    exact congrArg Except.ok result
  · next none =>
    rw [unescaped_of_plain t false (by simpa using none)]
    rfl

/-- A few names of the two maps. -/
def fewEntities : Entities where
  entity name :=
    if name = bytes "amp;" then some 0x26
    else if name = bytes "lt;" then some 0x3c
    else if name = bytes "gt;" then some 0x3e
    else if name = bytes "not" then some 0xac
    else none
  entity2 name := if name = bytes "nvgt;" then some (0x3e, 0x20d2) else none
  fits name x known := by
    split_ifs at known <;> obtain rfl := Option.some.inj known <;> subst name <;> decide
  fits2 name x y known := by
    split_ifs at known
    cases known
    subst name
    decide
  amp := rfl
  lt := rfl
  gt := rfl

/-- `unescape` works in place, and no reference writes over bytes that are still to be read: the
result is the plain rewriting of the input, and never longer. -/
theorem unescape_in_place (t : Entities) (inAttribute : Bool) (b : Bytes) (enough : b.length ≤ fuel) :
    (do let (array, n) ← unescape t inAttribute fuel b; pure (array.take n)) =
      (.ok (unescaped t inAttribute b) : Except Fault Bytes) ∧
    (unescaped t inAttribute b).length ≤ b.length := by
  obtain ⟨array, n, ran, result, length, -⟩ := unescape_sweeps t inAttribute b enough
  constructor
  · rw [ran, Fault.ok_bind]
    exact congrArg Except.ok result
  · rw [← result, ← length]
    exact List.length_take_le' n array

theorem unescape_in_place_not : (bytes "a&notb").length ≤ 6 ∧
    (do let (array, n) ← unescape fewEntities false 6 (bytes "a&notb"); pure (array.take n)) =
      (.ok (unescaped fewEntities false (bytes "a&notb")) : Except Fault Bytes) :=
  ⟨by decide, (unescape_in_place fewEntities false (bytes "a&notb") (by decide)).1⟩

/-- `convertNewlines` works in place as well. No carriage return is left, and a second conversion
changes nothing. -/
theorem convertNewlines_in_place (s : Bytes) (enough : s.length < fuel) :
    (do let (array, n) ← convertNewlines fuel s; pure (array.take n)) =
      (.ok (normalized s) : Except Fault Bytes) ∧
    0x0d ∉ normalized s ∧ normalized (normalized s) = normalized s := by
  obtain ⟨array, n, ran, result, -⟩ := convertNewlines_sweeps s enough
  refine ⟨?_, normalized_plain s, normalized_of_plain (normalized_plain s)⟩
  rw [ran, Fault.ok_bind]
  exact congrArg Except.ok result

theorem convertNewlines_in_place_two : ([0x61, 0x0d, 0x0a, 0x0d] : Bytes).length < 5 ∧
    (do let (array, n) ← convertNewlines 5 [0x61, 0x0d, 0x0a, 0x0d]; pure (array.take n)) =
      (.ok (normalized [0x61, 0x0d, 0x0a, 0x0d]) : Except Fault Bytes) :=
  ⟨by decide, (convertNewlines_in_place [0x61, 0x0d, 0x0a, 0x0d] (by decide)).1⟩

/-- `UnescapeString(EscapeString(s)) == s` always holds; and what is escaped into the value of an
attribute is read back from it. -/
theorem unescape_escape (t : Entities) (s : Bytes) (enough : 5 * s.length < fuel) :
    (do unescapeString t fuel (← escapeString fuel s)) = .ok s ∧
    (do let (array, n) ← unescape t true fuel (← escapeString fuel s); pure (array.take n)) =
      (.ok s : Except Fault Bytes) := by
  have length := escaped_length s
  rw [escapeString_eq s (by omega)]
  constructor
  · rw [Fault.ok_bind, unescapeString_eq t _ (by omega), unescaped_escaped]
  · obtain ⟨array, n, ran, result, -⟩ := 
      unescape_sweeps t true (escaped s) (show (escaped s).length ≤ fuel by omega)
    rw [Fault.ok_bind, ran, Fault.ok_bind]
    exact congrArg Except.ok (result.trans (unescaped_escaped t true s))

theorem unescape_escape_tag : 5 * (bytes "<b>").length < 16 ∧
    (do unescapeString fewEntities 16 (← escapeString 16 (bytes "<b>"))) = .ok (bytes "<b>") :=
  ⟨by decide, (unescape_escape fewEntities (bytes "<b>") (by decide)).1⟩

/-- Markup starts with an angle. -/
theorem Lexeme.Bracketed.opens {u : Lexeme} (bracketed : u.Bracketed) (text : u.type ≠ .textToken)
    (error : u.type ≠ .errorToken) : byte '<' ∈ u.raw := by
  unfold Lexeme.Bracketed at bracketed
  split at bracketed
  · exact absurd ‹_› error
  · exact absurd ‹_› text
  · obtain ⟨-, rest, raw⟩ := bracketed
    exact raw ▸ List.mem_cons_self
  · obtain ⟨-, rest, raw⟩ := bracketed
    exact raw ▸ List.mem_cons_self
  · obtain ⟨-, rest, raw⟩ := bracketed
    exact raw ▸ List.mem_cons_self
  · obtain ⟨rest, raw⟩ := bracketed
    exact raw ▸ List.mem_cons_self
  · obtain ⟨rest, raw⟩ := bracketed
    exact raw ▸ List.mem_cons_self

/-- An escaped text has no markup for the tokenizer, in any element: all tokens are text, and
together, unescaped, they are the text. -/
theorem escaped_no_markup {r : Reader} (count : Nat) (t : Entities) (s tag : Bytes) (steady : r.Steady)
    (written : escapeString fuel s = .ok r.rest) (small : s.length < fuel)
    (enough : 3 * r.rest.length + 1 < fuel) (many : r.rest.length < count) :
    ∃ us, tokenize fuel count (newTokenizerFragment r tag) = .ok us ∧
      (∀ u ∈ us, u.type = .textToken ∨ u.type = .errorToken) ∧
      unescaped t false (us.map Lexeme.raw).flatten = s := by
  obtain ⟨us, runs, tokenized, each⟩ := tokenize_fragment r.rest r.final tag enough many
  have rest : r.rest = escaped s := Except.ok.inj (written.symm.trans (escapeString_eq s small))
  refine ⟨us, runs r steady rfl rfl, fun u mem => ?_, ?_⟩
  · obtain ⟨w, yields, same⟩ := each u mem
    have plain : byte '<' ∉ u.raw := by
      intro angle
      have inside : byte '<' ∈ escaped s := by
        rw [← rest, ← tokenized.covers]
        exact List.mem_flatten.mpr ⟨u.raw, List.mem_map_of_mem mem, angle⟩
      exact absurd (escaped_safe s _ inside (by decide)) (by decide)
    have bracketed := yields.bracketed
    rw [← same] at bracketed
    by_contra markup
    rw [not_or] at markup
    exact plain (bracketed.opens markup.1 markup.2)
  · rw [tokenized.covers, rest, unescaped_escaped]

theorem escaped_no_markup_tag : ∃ us,
    tokenize 50 20 (newTokenizerFragment { rest := escaped (bytes "<b>") } []) = .ok us ∧
      ∀ u ∈ us, u.type = .textToken ∨ u.type = .errorToken := by
  have length : (escaped (bytes "<b>")).length = 9 := by decide
  have small : (bytes "<b>").length < 50 := by decide
  have steady : Reader.Steady { rest := escaped (bytes "<b>") } := fun k => ⟨0, by decide, by simp⟩
  have written : escapeString 50 (bytes "<b>") = .ok (escaped (bytes "<b>")) := escapeString_eq _ small
  obtain ⟨us, ran, texts, -⟩ := escaped_no_markup 20 fewEntities (bytes "<b>") [] steady written
    small (by simp [length]) (by simp [length])
  exact ⟨us, ran, texts⟩

end Results

end Gopherize.Html
