import Mathlib.Data.List.DropRight

/-! The functions of Go's `strings` package that take a text apart: trimming,
splitting at a separator, and prefixes. -/
namespace GoCore.Text

/-- `unicode.IsSpace`, by code points. -/
def isSpace (c : Char) : Bool :=
  let n := c.toNat
  9 ≤ n && n ≤ 13 || 0x2000 ≤ n && n ≤ 0x200a ||
    [0x20, 0x85, 0xa0, 0x1680, 0x2028, 0x2029, 0x202f, 0x205f, 0x3000].contains n

/-- Without the leading and trailing characters that satisfy `p`. -/
def trimBoth (p : Char → Bool) (s : List Char) : List Char := (s.dropWhile p).rdropWhile p

def trimSpace (s : String) : String := String.ofList (trimBoth isSpace s.toList)

/-- `strings.Trim`. -/
def trim (cutset : List Char) (s : String) : String :=
  String.ofList (trimBoth (cutset.contains ·) s.toList)

/-- `strings.Split` at one character. -/
def split (sep : Char) (s : String) : List String := (s.toList.splitOn sep).map String.ofList

/-- `strings.HasPrefix` and `strings.TrimPrefix`: the text after the given start. -/
def afterPrefix (start s : String) : Option String :=
  if start.toList.isPrefixOf s.toList then some (String.ofList (s.toList.drop start.length)) else none

theorem trimBoth_eq_nil {p : Char → Bool} : trimBoth p s = [] ↔ ∀ c ∈ s, p c = true := by
  rw [trimBoth, List.rdropWhile_eq_nil_iff]
  constructor
  · intro rest c member
    by_contra kept
    have split := List.takeWhile_append_dropWhile (p := p) (l := s)
    rw [← split] at member
    rcases List.mem_append.mp member with left | right
    · exact kept (List.mem_takeWhile_imp left)
    · exact kept (rest c right)
  · intro all c member
    exact all c (List.dropWhile_suffix p |>.subset member)

/-- A text is blank when trimming leaves nothing of it. -/
theorem trimSpace_eq_empty : trimSpace s = "" ↔ ∀ c ∈ s.toList, isSpace c = true := by
  rw [← trimBoth_eq_nil, trimSpace, ← String.ofList_nil, String.ofList_inj]

theorem trimBoth_pad {p : Char → Bool} {a b : List Char} (left : ∀ c ∈ a, p c = true)
    (right : ∀ c ∈ b, p c = true) (s : List Char) : trimBoth p (a ++ s ++ b) = trimBoth p s := by
  by_cases blank : trimBoth p s = []
  · rw [blank, trimBoth_eq_nil]
    rw [trimBoth_eq_nil] at blank
    intro c member
    rcases List.mem_append.mp member with member | member
    · exact (List.mem_append.mp member).elim (left c) (blank c)
    · exact right c member
  · have inner : (s.dropWhile p).isEmpty ≠ true := by
      intro empty
      rw [trimBoth, List.isEmpty_iff.mp empty] at blank
      exact blank rfl
    rw [trimBoth, List.append_assoc, List.dropWhile_append_of_pos left, List.dropWhile_append,
      if_neg inner, List.rdropWhile, List.reverse_append, List.dropWhile_append_of_pos
        (fun c member => right c (List.mem_reverse.mp member)), ← List.rdropWhile, trimBoth]

/-- A text of white space only. -/
def Blank (s : String) : Prop := ∀ c ∈ s.toList, isSpace c = true

instance : DecidablePred Blank := fun _ => decidable_of_iff _ List.all_eq_true

theorem trimSpace_pad (left : Blank a) (right : Blank b) (s : String) :
    trimSpace (a ++ s ++ b) = trimSpace s := by
  rw [trimSpace, String.toList_append, String.toList_append, trimBoth_pad left right, trimSpace]

theorem afterPrefix_eq_some {start s k : String} :
    afterPrefix start s = some k ↔ s = start ++ k := by
  rw [afterPrefix]
  constructor
  · intro cut
    split at cut
    · next starts =>
      obtain ⟨rest, whole⟩ := List.isPrefixOf_iff_prefix.mp starts
      rw [← whole, ← String.length_toList, List.drop_left, Option.some.injEq] at cut
      apply String.toList_injective
      rw [← whole, String.toList_append, ← cut, String.toList_ofList]
    · cases cut
  · rintro rfl
    rw [String.toList_append, if_pos (List.isPrefixOf_iff_prefix.mpr (List.prefix_append _ _)),
      ← String.length_toList, List.drop_left, String.ofList_toList]

theorem afterPrefix_eq_none {start s : String} :
    afterPrefix start s = none ↔ ∀ k, s ≠ start ++ k := by
  simp only [Option.eq_none_iff_forall_ne_some, ne_eq, afterPrefix_eq_some]

theorem split_of_not_mem {sep : Char} {s : String} (absent : sep ∉ s.toList) :
    split sep s = [s] := by
  rw [split, List.splitOn_eq_singleton absent, List.map_singleton, String.ofList_toList]

/-- A separator ends one part and starts the next. -/
theorem split_append (sep : Char) (s t : String) :
    split sep (s ++ String.singleton sep ++ t) = split sep s ++ split sep t := by
  rw [split, String.toList_append, String.toList_append, String.toList_singleton,
    List.append_assoc, List.singleton_append, List.splitOn_append_cons_self, List.map_append]
  rfl

theorem split_intercalate {sep : Char} {parts : List String} (some : parts ≠ [])
    (absent : ∀ s ∈ parts, sep ∉ s.toList) :
    split sep ((String.singleton sep).intercalate parts) = parts := by
  rw [split, String.toList_intercalate, String.toList_singleton, List.splitOn_intercalate]
  · simp
  · simpa using absent
  · simpa using some

end GoCore.Text
