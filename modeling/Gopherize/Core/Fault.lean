import Gopherize.Core.Execution

/-! Computations that may stop with a panic value: a text, an error with its
format and arguments, or a failed type assertion. A loop over a linked structure
gets fuel; running out of it is kept apart from every panic of the program. -/
namespace GoCore

inductive Fault where
  | panicked (message : String)
  | errorf (format : String) (args : List String)
  | typeAssertion (wanted : String)
  | outOfFuel
  deriving DecidableEq, Repr

namespace Fault

@[simp] theorem ok_bind (a : α) (f : α → Except Fault β) : (Except.ok a >>= f) = f a := rfl

@[simp] theorem error_bind (e : Fault) (f : α → Except Fault β) :
    ((Except.error e : Except Fault α) >>= f) = .error e := rfl

@[simp] theorem pure_eq_ok (a : α) : (pure a : Except Fault α) = .ok a := rfl

@[simp] theorem throw_eq_error (e : Fault) : (throw e : Except Fault α) = .error e := rfl

theorem bind_eq_ok {x : Except Fault α} {f : α → Except Fault β} :
    (x >>= f) = .ok b ↔ ∃ a, x = .ok a ∧ f a = .ok b := by
  cases x with
  | error e => simp
  | ok a => simp

/-- A call of a library from a program that only tells whether the library panicked. -/
def called : Except Fault α → Except Panic α
  | .ok a => .ok a
  | .error _ => .error .invalidArgument

section Loops
variable {σ : Type}

/-- A loop that reads its elements one by one and works on what it has read. -/
theorem foldlM_mapM (f : α → Except Fault β) (step : σ → β → σ) (xs : List α) (s : σ) :
    xs.foldlM (fun s x => do pure (step s (← f x))) s =
      (do pure ((← xs.mapM f).foldl step s)) := by
  induction xs generalizing s with
  | nil => simp
  | cons x xs ih =>
    rw [List.foldlM_cons, List.mapM_cons]
    cases f x with
    | error e => rfl
    | ok y => simp only [ok_bind, pure_bind, ih, bind_assoc, List.foldl_cons]

theorem mapM_eq_ok {f : α → Except Fault β} {xs : List α} {ys : List β} :
    xs.mapM f = .ok ys ↔ List.Forall₂ (fun x y => f x = .ok y) xs ys := by
  induction xs generalizing ys with
  | nil =>
    rw [List.mapM_nil, List.forall₂_nil_left_iff]
    exact ⟨fun same => (Except.ok.inj same).symm, fun same => same ▸ rfl⟩
  | cons x xs ih =>
    simp only [List.mapM_cons, bind_eq_ok, ih]
    constructor
    · rintro ⟨y, head, ys, tail, same⟩
      cases same
      exact .cons head tail
    · rintro (_ | ⟨head, tail⟩)
      exact ⟨_, head, _, tail, rfl⟩

theorem mapM_congr {f g : α → Except Fault β} {xs : List α} (same : ∀ x ∈ xs, f x = g x) :
    xs.mapM f = xs.mapM g := by
  induction xs with
  | nil => rfl
  | cons x xs ih =>
    rw [List.mapM_cons, List.mapM_cons, same x List.mem_cons_self,
      ih (fun y member => same y (List.mem_cons_of_mem _ member))]

theorem mapM_isOk {f : α → Except Fault β} {xs : List α} :
    (∃ ys, xs.mapM f = .ok ys) ↔ ∀ x ∈ xs, ∃ y, f x = .ok y := by
  simp only [mapM_eq_ok]
  induction xs with
  | nil => exact ⟨fun _ _ member => absurd member List.not_mem_nil, fun _ => ⟨[], .nil⟩⟩
  | cons x xs ih =>
    rw [List.forall_mem_cons, ← ih]
    constructor
    · rintro ⟨_, _ | ⟨head, tail⟩⟩
      exact ⟨⟨_, head⟩, _, tail⟩
    · rintro ⟨⟨y, head⟩, ys, tail⟩
      exact ⟨y :: ys, .cons head tail⟩

end Loops
end Fault
end GoCore
