import Mathlib.Data.List.Basic

/-! Runs of a deterministic machine over a list of events, over any types of
states and events: invariants, and the last event that wrote an observed value. -/
namespace GoCore.History
variable {S E O : Type} {step : S → E → S}

/-- What every step preserves under a condition on its event, every run preserves. -/
theorem foldl_invariant (inv : S → Prop) (legal : E → Prop)
    (preserves : ∀ s e, legal e → inv s → inv (step s e)) (events : List E)
    (allowed : ∀ e ∈ events, legal e) (start : inv s) : inv (events.foldl step s) := by
  induction events generalizing s with
  | nil => exact start
  | cons e events ih =>
    apply ih
    · intro later member
      exact allowed later (List.mem_cons_of_mem _ member)
    · exact preserves s e (allowed e List.mem_cons_self) start

/-- Events that do not write an observed value leave it alone. -/
theorem foldl_quiet (observe : S → O) (writes : E → Prop)
    (keeps : ∀ s e, ¬ writes e → observe (step s e) = observe s) (events : List E)
    (quiet : ∀ e ∈ events, ¬ writes e) (s : S) :
    observe (events.foldl step s) = observe s := by
  induction events generalizing s with
  | nil => rfl
  | cons e events ih =>
    have head := keeps s e (quiet e List.mem_cons_self)
    have tail := ih (fun later member => quiet later (List.mem_cons_of_mem _ member)) (step s e)
    exact tail.trans head

/-- The events either contain no write, or split at the last one. -/
theorem last_write (writes : E → Prop) (events : List E) :
    (∀ e ∈ events, ¬ writes e) ∨
      ∃ earlier e later, events = earlier ++ e :: later ∧ writes e ∧ ∀ e ∈ later, ¬ writes e := by
  induction events with
  | nil => exact Or.inl (by simp)
  | cons e events ih =>
    rcases ih with quiet | ⟨earlier, last, later, rfl, wrote, quiet⟩
    · by_cases first : writes e
      · exact Or.inr ⟨[], e, events, rfl, first, quiet⟩
      · apply Or.inl
        intro other member
        rcases List.mem_cons.mp member with rfl | member
        · exact first
        · exact quiet other member
    · exact Or.inr ⟨e :: earlier, last, later, rfl, wrote, quiet⟩

/-- At the end of a run an observed value is the one its last write left. -/
theorem observe_last (observe : S → O) (writes : E → Prop)
    (keeps : ∀ s e, ¬ writes e → observe (step s e) = observe s) (events : List E) (s : S) :
    (∀ e ∈ events, ¬ writes e) ∧ observe (events.foldl step s) = observe s ∨
      ∃ earlier e later, events = earlier ++ e :: later ∧ writes e ∧ (∀ e ∈ later, ¬ writes e) ∧
        observe (events.foldl step s) = observe (step (earlier.foldl step s) e) := by
  rcases last_write writes events with quiet | ⟨earlier, e, later, rfl, wrote, quiet⟩
  · exact Or.inl ⟨quiet, foldl_quiet observe writes keeps events quiet s⟩
  · refine Or.inr ⟨earlier, e, later, rfl, wrote, quiet, ?_⟩
    rw [List.foldl_append, List.foldl_cons]
    exact foldl_quiet observe writes keeps later quiet _

end GoCore.History
