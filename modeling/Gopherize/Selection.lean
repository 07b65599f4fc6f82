import Gopherize.Core.Choice
import Gopherize.Core.History
import Gopherize.Core.Rand

/-! What the program is for, apart from heaps, pointers and screens: one value is
chosen for each category, one category is open, and the user chooses, resets,
shuffles and opens. The values are of any type with a blank one; the categories
are lists of options. -/
namespace Gopherize
open GoCore GoCore.Choice

/-- The operations of the user interface; a part is the number of a category. -/
inductive Call (α : Type) where
  | updateGopher (part : Nat) (val : α)
  | resetGopher
  | randomGopher
  | expand (i : Int)
  deriving DecidableEq, Repr

/-- The chosen values, the open category, and the bounds of all draws so far. -/
structure Selection (α : Type) where
  parts : List α
  opened : Int := 0
  calls : List Nat := []

namespace Selection
variable {α : Type} [Inhabited α]

abbrev sizes (options : List (List α)) : List Nat := options.map List.length

/-- The first options of the first two categories, and nothing for the rest. -/
def initial (options : List (List α)) : List α :=
  options.mapIdx (fun i values => if i < 2 then values.headD default else default)

/-- The selection after mounting. -/
abbrev start (options : List (List α)) : Selection α := { parts := initial options }

def step (rng : Rng) (options : List (List α)) (s : Selection α) : Call α → Selection α
  | .updateGopher part val => { s with parts := s.parts.set part val }
  | .resetGopher => { s with parts := initial options }
  | .randomGopher =>
    { s with
      parts := pick options (rng.draws s.calls (sizes options))
      calls := s.calls ++ sizes options }
  | .expand i => { s with opened := i }

def run (rng : Rng) (options : List (List α)) (s : Selection α) (calls : List (Call α)) :
    Selection α := calls.foldl (step rng options) s

/-- Every category has an option, and one can be left blank from the third on. -/
structure WellFormed (options : List (List α)) : Prop where
  two : 2 ≤ options.length
  nonempty : ∀ values ∈ options, values ≠ []
  blank : ∀ i values, options[i]? = some values → 2 ≤ i → default ∈ values

/-- The part of a call, if it has one, is a category. -/
def InRange (n : Nat) : Call α → Prop
  | .updateGopher part _ => part < n
  | _ => True

instance (n : Nat) : DecidablePred (InRange n : Call α → Prop)
  | .updateGopher part _ => inferInstanceAs (Decidable (part < n))
  | .resetGopher => isTrue trivial
  | .randomGopher => isTrue trivial
  | .expand _ => isTrue trivial

/-- A call that a rendered page can offer. -/
def Offered (options : List (List α)) : Call α → Prop
  | .updateGopher part val => ∃ values, options[part]? = some values ∧ val ∈ values
  | .expand i => 0 ≤ i ∧ i < options.length
  | _ => True

/-- One option is chosen in each category and one category is open. -/
structure Valid (options : List (List α)) (s : Selection α) : Prop where
  chosen : Chosen options s.parts
  opened : 0 ≤ s.opened ∧ s.opened < options.length

variable {rng : Rng} {options : List (List α)} {s : Selection α}

@[simp] theorem initial_length : (initial options).length = options.length := by
  simp [initial]

omit [Inhabited α] in
theorem sizes_pos (nonempty : ∀ values ∈ options, values ≠ []) : ∀ n ∈ sizes options, 0 < n := by
  intro n member
  obtain ⟨values, found, rfl⟩ := List.mem_map.mp member
  exact List.length_pos_iff.mpr (nonempty values found)

theorem initial_chosen (formed : WellFormed options) : Chosen options (initial options) := by
  rw [Chosen, List.forall₂_iff_get]
  refine ⟨initial_length, ?_⟩
  intro i _ bound
  simp only [initial, List.get_eq_getElem, List.getElem_mapIdx]
  split
  · have nonempty := formed.nonempty options[i] (List.getElem_mem bound)
    rw [List.headD_eq_head?_getD, List.head?_eq_some_head nonempty]
    exact List.head_mem nonempty
  · exact formed.blank i _ (List.getElem?_eq_getElem bound) (by omega)

omit [Inhabited α] in
theorem chosen_set {parts values : List α} {i : Nat} (chosen : Chosen options parts)
    (found : options[i]? = some values) (member : v ∈ values) : Chosen options (parts.set i v) := by
  rw [Chosen, List.forall₂_iff_get] at chosen ⊢
  refine ⟨by simpa using chosen.1, ?_⟩
  intro j inParts bound
  simp only [List.get_eq_getElem, List.getElem_set]
  split
  · rename_i same
    subst same
    obtain ⟨_, rfl⟩ := List.getElem?_eq_some_iff.mp found
    exact member
  · exact chosen.2 j (by simpa using inParts) bound

/-- Each call that a page can offer leads to another valid selection. -/
theorem step_valid (formed : WellFormed options) (call : Call α) (offered : Offered options call)
    (valid : Valid options s) : Valid options (step rng options s call) := by
  cases call with
  | updateGopher part val =>
    obtain ⟨values, found, member⟩ := offered
    exact ⟨chosen_set valid.chosen found member, valid.opened⟩
  | resetGopher => exact ⟨initial_chosen formed, valid.opened⟩
  | randomGopher =>
    have numbers := rng.draws_lt s.calls (sizes_pos formed.nonempty)
    exact ⟨pick_chosen numbers, valid.opened⟩
  | expand i => exact ⟨valid.chosen, offered⟩

theorem run_valid (formed : WellFormed options) (calls : List (Call α))
    (offered : ∀ call ∈ calls, Offered options call) (valid : Valid options s) :
    Valid options (run rng options s calls) :=
  History.foldl_invariant _ _ (fun _ call => step_valid formed call) calls offered valid

section History

/-- The bounds of the draws before the one for category `i` in the `k`-th
shuffle, both counted from zero. -/
def drawsBefore (options : List (List α)) (k i : Nat) : List Nat :=
  (List.replicate k (sizes options)).flatten ++ (sizes options).take i

omit [Inhabited α] in
theorem drawsBefore_length (options : List (List α)) (k : Nat) (within : i ≤ options.length) :
    (drawsBefore options k i).length = k * options.length + i := by
  simp [drawsBefore, within]

def shuffles (events : List (Call α)) : Nat := events.countP (· matches .randomGopher)

theorem run_calls (rng : Rng) (options : List (List α)) (events : List (Call α)) (s : Selection α) :
    (run rng options s events).calls =
      s.calls ++ (List.replicate (shuffles events) (sizes options)).flatten := by
  unfold run
  induction events generalizing s with
  | nil => simp [shuffles]
  | cons call events ih =>
    rw [List.foldl_cons, ih]
    cases call <;> simp [step, shuffles, List.replicate_succ]

/-- A call that decides the value of category `i`. -/
def Decides (i : Nat) : Call α → Prop
  | .updateGopher part _ => part = i
  | .resetGopher => True
  | .randomGopher => True
  | .expand _ => False

theorem step_undecided (rng : Rng) (options : List (List α)) (i : Nat) (s : Selection α)
    (call : Call α) (other : ¬ Decides i call) :
    (step rng options s call).parts[i]? = s.parts[i]? := by
  cases call with
  | updateGopher part val => exact List.getElem?_set_ne other
  | resetGopher => exact absurd trivial other
  | randomGopher => exact absurd trivial other
  | expand i => rfl

/-- Where the value of category `i` comes from: the last call that decided it. -/
inductive Origin (rng : Rng) (options : List (List α)) (i : Nat) (events : List (Call α)) :
    Option α → Prop where
  | untouched : (∀ call ∈ events, ¬ Decides i call) →
      Origin rng options i events (initial options)[i]?
  | updated {earlier later val} : events = earlier ++ .updateGopher i val :: later →
      (∀ call ∈ later, ¬ Decides i call) → Origin rng options i events (some val)
  | reset {earlier later} : events = earlier ++ .resetGopher :: later →
      (∀ call ∈ later, ¬ Decides i call) → Origin rng options i events (initial options)[i]?
  | shuffled {earlier later values} : events = earlier ++ .randomGopher :: later →
      (∀ call ∈ later, ¬ Decides i call) → options[i]? = some values →
      Origin rng options i events
        values[rng.draw (drawsBefore options (shuffles earlier) i) values.length]?

theorem pick_draws_getElem? (rng : Rng) {values : List α} {i : Nat} (found : options[i]? = some values)
    (nonempty : values ≠ []) (calls : List Nat) :
    (pick options (rng.draws calls (sizes options)))[i]? =
      values[rng.draw (calls ++ (sizes options).take i) values.length]? := by
  have size : (sizes options)[i]? = some values.length := by simp [found]
  have bound := rng.draw_lt (calls ++ (sizes options).take i) values.length
    (List.length_pos_iff.mpr nonempty)
  simp only [pick, List.getElem?_zipWith, found, rng.draws_getElem? calls size,
    List.getD_eq_getElem _ _ bound, List.getElem?_eq_getElem bound]

theorem run_length (rng : Rng) (calls : List (Call α)) (start : s.parts.length = options.length) :
    (run rng options s calls).parts.length = options.length := by
  apply History.foldl_invariant (fun s : Selection α => s.parts.length = options.length)
    (fun _ => True) _ calls (fun _ _ => trivial) start
  intro s call _ same
  cases call with
  | updateGopher part val => simpa [step] using same
  | resetGopher => simp [step]
  | randomGopher => simp [step, pick]
  | expand i => exact same

/-- Calls that do not decide a value come and go without a trace. -/
theorem run_undecided (rng : Rng) (options : List (List α)) (s : Selection α)
    (quiet : ∀ call ∈ events, ¬ Decides i call) :
    (run rng options s events).parts[i]? = s.parts[i]? :=
  History.foldl_quiet (fun s : Selection α => s.parts[i]?) (Decides i)
    (step_undecided rng options i) events quiet s

/-- What a call decides lasts as long as no later call decides it again. -/
theorem run_decided (rng : Rng) (options : List (List α)) (s : Selection α)
    (quiet : ∀ call ∈ later, ¬ Decides i call) :
    (run rng options s (earlier ++ call :: later)).parts[i]? =
      (step rng options (run rng options s earlier) call).parts[i]? := by
  have split : run rng options s (earlier ++ call :: later) =
      run rng options (step rng options (run rng options s earlier) call) later := by
    simp only [run, List.foldl_append, List.foldl_cons]
  rw [split]
  exact run_undecided rng options _ quiet

theorem Origin.eq_run (nonempty : ∀ values ∈ options, values ≠ []) (within : i < options.length)
    (origin : Origin rng options i events v) :
    v = (run rng options (start options) events).parts[i]? := by
  cases origin with
  | untouched quiet => exact (run_undecided rng options (start options) quiet).symm
  | @updated earlier later val split quiet =>
    have size : (run rng options (start options) earlier).parts.length = options.length :=
      run_length rng earlier initial_length
    rw [split, run_decided rng options _ quiet, step, List.getElem?_set_self (size.symm ▸ within)]
  | reset split quiet =>
    rw [split, run_decided rng options _ quiet]
    rfl
  | @shuffled earlier later values split quiet found =>
    have solid := nonempty values (List.mem_of_getElem? found)
    rw [split, run_decided rng options _ quiet, step, run_calls, List.nil_append]
    exact (pick_draws_getElem? rng found solid _).symm

/-- Every value has an origin: its last deciding call, if there is one. -/
theorem origin_exists (rng : Rng) (within : i < options.length) (events : List (Call α)) :
    ∃ v, Origin rng options i events v := by
  rcases History.last_write (Decides i) events with
    quiet | ⟨earlier, call, later, split, decides, quiet⟩
  · exact ⟨_, .untouched quiet⟩
  · cases call with
    | updateGopher part val =>
      obtain rfl : part = i := decides
      exact ⟨_, .updated split quiet⟩
    | resetGopher => exact ⟨_, .reset split quiet⟩
    | randomGopher => exact ⟨_, .shuffled split quiet (List.getElem?_eq_getElem within)⟩
    | expand i => exact absurd decides (by simp [Decides])

/-- The closed form of a run: each value is what the last call that decided it set. -/
theorem run_origin (rng : Rng) (nonempty : ∀ values ∈ options, values ≠ [])
    (events : List (Call α)) (within : i < options.length) (v : Option α) :
    Origin rng options i events v ↔ v = (run rng options (start options) events).parts[i]? := by
  constructor
  · exact Origin.eq_run nonempty within
  · rintro rfl
    obtain ⟨v, origin⟩ := origin_exists rng within events
    exact origin.eq_run nonempty within ▸ origin

/-- The open category is the one that was opened last. -/
theorem run_opened (rng : Rng) (options : List (List α)) (events : List (Call α)) (s : Selection α) :
    (∀ i, .expand i ∉ events) ∧ (run rng options s events).opened = s.opened ∨
      ∃ earlier i later, events = earlier ++ .expand i :: later ∧ (∀ j, .expand j ∉ later) ∧
        (run rng options s events).opened = i := by
  have keeps (s : Selection α) (call : Call α) (other : ¬ ∃ i, call = .expand i) :
      (step rng options s call).opened = s.opened := by
    cases call with
    | expand i => exact absurd ⟨i, rfl⟩ other
    | _ => rfl
  have last := History.observe_last Selection.opened _ keeps events s
  rcases last with ⟨quiet, same⟩ | ⟨earlier, call, later, rfl, ⟨i, rfl⟩, quiet, same⟩
  · exact Or.inl ⟨fun i member => quiet _ member ⟨i, rfl⟩, same⟩
  · exact Or.inr ⟨earlier, i, later, rfl, fun j member => quiet _ member ⟨j, rfl⟩, same⟩

end History
end Selection
end Gopherize
