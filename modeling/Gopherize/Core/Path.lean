import Mathlib.Data.List.Basic
import Mathlib.Data.List.Infix

/-! The lexical path operations of Go's `path/filepath` with `/` as separator,
over the characters of a string. On a clean relative path `Join` is plain
concatenation, so it keeps distinct paths distinct. -/
namespace GoCore.Path

/-- One element of the path, given the elements kept so far, last one first. -/
def push (rooted : Bool) (kept : List (List Char)) (elem : List Char) : List (List Char) :=
  if elem = [] ∨ elem = ['.'] then kept
  else if elem = ['.', '.'] then
    match kept with
    | [] => if rooted then [] else [elem]
    | last :: rest => if last = ['.', '.'] then elem :: kept else rest
  else elem :: kept

/-- `filepath.Clean`. -/
def clean (path : List Char) : List Char :=
  let rooted := path.head? = some '/'
  let kept := (path.splitOn '/').foldl (push rooted) []
  let body := ['/'].intercalate kept.reverse
  if rooted then '/' :: body else if body = [] then ['.'] else body

/-- `filepath.Join`: leading empty elements are ignored and the rest is cleaned. -/
def join (elems : List String) : String :=
  match elems.dropWhile (· = "") with
  | [] => ""
  | elems => String.ofList (clean (['/'].intercalate (elems.map String.toList)))

/-- A path element that `Clean` keeps as it is. -/
def Plain (elem : List Char) : Prop := elem ≠ [] ∧ elem ≠ ['.'] ∧ elem ≠ ['.', '.']

instance : DecidablePred Plain := fun _ => inferInstanceAs (Decidable (_ ∧ _ ∧ _))

/-- A relative path with no empty, `.` or `..` element. -/
def CleanPath (path : List Char) : Prop := ∀ elem ∈ path.splitOn '/', Plain elem

instance : DecidablePred CleanPath := fun path =>
  inferInstanceAs (Decidable (∀ elem ∈ path.splitOn '/', Plain elem))

theorem push_plain (rooted : Bool) (kept : List (List Char)) (plain : Plain elem) :
    push rooted kept elem = elem :: kept := by
  obtain ⟨nonempty, dot, dots⟩ := plain
  simp only [push, nonempty, dot, dots, or_self, if_false]

theorem foldl_push_plain {elems : List (List Char)} (rooted : Bool) (plain : ∀ elem ∈ elems, Plain elem)
    (kept : List (List Char)) : elems.foldl (push rooted) kept = elems.reverse ++ kept := by
  induction elems generalizing kept with
  | nil => rfl
  | cons elem elems ih =>
    have head := push_plain rooted kept (plain elem (by simp))
    have tail := ih (fun e member => plain e (by simp [member])) (elem :: kept)
    rw [List.foldl_cons, head, tail]
    simp

theorem CleanPath.ne_nil (cleanPath : CleanPath path) : path ≠ [] := by
  rintro rfl
  exact (cleanPath [] (by simp)).1 rfl

theorem CleanPath.relative (cleanPath : CleanPath path) : path.head? ≠ some '/' := by
  intro rooted
  obtain ⟨rest, rfl⟩ : ∃ rest, path = '/' :: rest := List.head?_eq_some_iff.mp rooted
  have split := List.splitOn_append_cons_self (a := '/') [] rest
  rw [List.nil_append] at split
  exact (cleanPath [] (by simp [split])).1 rfl

theorem clean_cleanPath (cleanPath : CleanPath path) : clean path = path := by
  have relative := cleanPath.relative
  simp only [clean, relative, decide_false, if_false]
  rw [foldl_push_plain false cleanPath, List.append_nil, List.reverse_reverse,
    List.intercalate_splitOn, if_neg cleanPath.ne_nil]

/-- An ending without a separator only extends the last element. -/
theorem splitOn_append_ending {ending : List Char} (noSlash : '/' ∉ ending) (path : List Char) :
    ∃ front last, path.splitOn '/' = front ++ [last] ∧
      (path ++ ending).splitOn '/' = front ++ [last ++ ending] := by
  induction path with
  | nil => exact ⟨[], [], by simp, by simp [List.splitOn_eq_singleton noSlash]⟩
  | cons c path ih =>
    obtain ⟨front, last, before, after⟩ := ih
    simp only [List.cons_append, List.splitOn_cons_eq_if_modifyHead, before, after]
    by_cases slash : c = '/'
    · exact ⟨[] :: front, last, by simp [slash], by simp [slash]⟩
    · cases front with
      | nil => exact ⟨[], c :: last, by simp [slash], by simp [slash]⟩
      | cons first front =>
        exact ⟨(c :: first) :: front, last, by simp [slash], by simp [slash]⟩

/-- A file extension keeps a path clean: only the last element changes, and it
becomes longer than the two special elements. -/
theorem CleanPath.append_ending (cleanPath : CleanPath path) {ending : List Char}
    (noSlash : '/' ∉ ending) (long : 2 ≤ ending.length) : CleanPath (path ++ ending) := by
  obtain ⟨front, last, before, after⟩ := splitOn_append_ending noSlash path
  simp only [CleanPath, before, after, List.mem_append, List.mem_singleton] at cleanPath ⊢
  rintro elem (old | rfl)
  · exact cleanPath elem (Or.inl old)
  · have nonempty := List.length_pos_iff.mpr (cleanPath last (Or.inr rfl)).1
    have size : (last ++ ending).length = last.length + ending.length := List.length_append
    refine ⟨?_, ?_, ?_⟩ <;> intro same <;> rw [same] at size <;> simp at size <;> omega

theorem CleanPath.cons (first : Plain dir) (noSlash : '/' ∉ dir) (rest : CleanPath path) :
    CleanPath (dir ++ '/' :: path) := by
  intro elem member
  rw [List.splitOn_append_cons_self_of_not_mem noSlash] at member
  rcases List.mem_cons.mp member with rfl | member
  · exact first
  · exact rest elem member

/-- Joining a directory with a clean path and an extension is concatenation. -/
theorem join_dir {dir path ending : String} (first : Plain dir.toList) (noSlash : '/' ∉ dir.toList)
    (cleanPath : CleanPath path.toList) (plainEnding : '/' ∉ ending.toList)
    (long : 2 ≤ ending.toList.length) :
    join [dir, path ++ ending] = dir ++ "/" ++ path ++ ending := by
  have nonempty : dir ≠ "" := by
    rintro rfl
    exact first.1 rfl
  have whole := CleanPath.cons first noSlash (cleanPath.append_ending plainEnding long)
  have joined : ['/'].intercalate [dir.toList, (path ++ ending).toList] =
      dir.toList ++ '/' :: (path.toList ++ ending.toList) := by
    simp [List.intercalate]
  simp only [join, List.dropWhile_cons, nonempty, decide_false, Bool.false_eq_true, if_false,
    List.map_cons, List.map_nil]
  rw [joined, clean_cleanPath whole]
  apply String.toList_injective
  simp

end GoCore.Path
