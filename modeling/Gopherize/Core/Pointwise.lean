import Mathlib.Data.List.Basic

/-! Two lists of one length, related position by position by a relation that may
depend on the position. -/
namespace GoCore

structure Pointwise (R : Nat → α → β → Prop) (xs : List α) (ys : List β) : Prop where
  length : xs.length = ys.length
  related : ∀ i x y, xs[i]? = some x → ys[i]? = some y → R i x y

namespace Pointwise
variable {R S : Nat → α → β → Prop} {xs : List α} {ys : List β}

theorem nil : Pointwise R [] [] := ⟨rfl, by simp⟩

theorem imp (all : Pointwise R xs ys) (weaker : ∀ i x y, R i x y → S i x y) : Pointwise S xs ys :=
  ⟨all.length, fun i x y left right => weaker i x y (all.related i x y left right)⟩

/-- Both lists end at the same position. -/
theorem cases (all : Pointwise R xs ys) (i : Nat) :
    xs[i]? = none ∧ ys[i]? = none ∨ ∃ x y, xs[i]? = some x ∧ ys[i]? = some y ∧ R i x y := by
  by_cases inside : i < xs.length
  · have left := List.getElem?_eq_getElem inside
    have right := List.getElem?_eq_getElem (all.length ▸ inside)
    exact .inr ⟨_, _, left, right, all.related i _ _ left right⟩
  · have outside := all.length ▸ inside
    exact .inl ⟨List.getElem?_eq_none (by omega), List.getElem?_eq_none (by omega)⟩

theorem left_of_right {i : Nat} (all : Pointwise R xs ys) (found : ys[i]? = some y) : ∃ x, xs[i]? = some x := by
  rcases all.cases i with ⟨_, none⟩ | ⟨x, _, known, _⟩
  · rw [none] at found
    cases found
  · exact ⟨x, known⟩

theorem concat (all : Pointwise R xs ys) (last : R xs.length x y) :
    Pointwise R (xs ++ [x]) (ys ++ [y]) := by
  refine ⟨by simp [all.length], ?_⟩
  intro i a b left right
  rcases Nat.lt_trichotomy i xs.length with before | rfl | after
  · rw [List.getElem?_append_left before] at left
    rw [List.getElem?_append_left (all.length ▸ before)] at right
    exact all.related i a b left right
  · rw [List.getElem?_concat_length] at left
    rw [all.length, List.getElem?_concat_length] at right
    cases left
    cases right
    exact last
  · rw [List.getElem?_eq_none (by simp; omega)] at left
    cases left

/-- Replace both elements at one position. -/
theorem set (all : Pointwise R xs ys) (others : ∀ j x y, j ≠ i → R j x y → S j x y) (here : S i x y) :
    Pointwise S (xs.set i x) (ys.set i y) := by
  refine ⟨by simp [all.length], ?_⟩
  intro j a b left right
  by_cases same : j = i
  · subst same
    have inside : j < xs.length := by
      simpa using (List.getElem?_eq_some_iff.mp left).1
    rw [List.getElem?_set_self inside] at left
    rw [List.getElem?_set_self (all.length ▸ inside)] at right
    cases left
    cases right
    exact here
  · rw [List.getElem?_set_ne (Ne.symm same)] at left right
    exact others j a b same (all.related j a b left right)

end Pointwise
end GoCore
