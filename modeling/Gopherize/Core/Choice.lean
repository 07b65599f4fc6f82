import Mathlib.Data.List.Sections
import Mathlib.Data.List.Nodup
import Mathlib.Data.List.GetD
import Mathlib.Data.Set.Card
import Mathlib.Data.Set.Function
import Mathlib.Algebra.BigOperators.Group.List.Basic
import Mathlib.Algebra.Group.Action.Defs

/-! Choices of one value per position from a list of option lists, over any type
of values. Choices correspond to vectors of option numbers, their number is the
product of the list lengths, and they survive the removal of a blank value as
long as every other value tells its position. Options in ascending order satisfy
these conditions at the cost of one comparison per option. -/
namespace GoCore.Choice
variable {α : Type}

/-- One value from each option list. -/
def Chosen (options : List (List α)) (values : List α) : Prop :=
  List.Forall₂ (· ∈ ·) values options

/-- One option number for each option list. -/
def Numbers (options : List (List α)) (numbers : List Nat) : Prop :=
  List.Forall₂ (· < ·) numbers (options.map List.length)

theorem Numbers.cons_inv {values : List α} (numbers : Numbers (values :: options) ks) :
    ∃ k rest, ks = k :: rest ∧ k < values.length ∧ Numbers options rest := by
  obtain ⟨k, rest, bound, tail, rfl⟩ := List.forall₂_cons_right_iff.mp numbers
  exact ⟨k, rest, rfl, bound, tail⟩

theorem Chosen.cons_inv {values : List α} (chosen : Chosen (values :: options) vs) :
    ∃ v rest, vs = v :: rest ∧ v ∈ values ∧ Chosen options rest := by
  obtain ⟨v, rest, member, tail, rfl⟩ := List.forall₂_cons_right_iff.mp chosen
  exact ⟨v, rest, rfl, member, tail⟩

theorem Chosen.mem_option (chosen : Chosen options vs) (member : v ∈ vs) :
    ∃ values ∈ options, v ∈ (values : List α) := by
  induction chosen with
  | nil => simp at member
  | cons head _ ih =>
    rcases List.mem_cons.mp member with rfl | member
    · exact ⟨_, List.mem_cons_self, head⟩
    · obtain ⟨values, found, inside⟩ := ih member
      exact ⟨values, List.mem_cons_of_mem _ found, inside⟩

theorem Chosen.getElem? {i : Nat} {values : List α} (chosen : Chosen options vs)
    (found : options[i]? = some values) : ∃ v ∈ values, vs[i]? = some v := by
  obtain ⟨bound, rfl⟩ := List.getElem?_eq_some_iff.mp found
  have within : i < vs.length := chosen.length_eq ▸ bound
  exact ⟨vs[i], chosen.get within bound, List.getElem?_eq_getElem within⟩

/-- Replacing values from the front, one position at a time. -/
theorem set_take_append_drop {xs ys : List α} {n : Nat} (found : xs[n]? = some v)
    (within : n < ys.length) :
    (xs.take n ++ ys.drop n).set n v = xs.take (n + 1) ++ ys.drop (n + 1) := by
  have bound := (List.getElem?_eq_some_iff.mp found).1
  have size : (xs.take n).length = n := List.length_take_of_le (Nat.le_of_lt bound)
  rw [List.set_append_right _ _ size.le, size, Nat.sub_self, List.drop_eq_getElem_cons within,
    List.set_cons_zero, List.take_add_one, found]
  simp

section Pick
variable [Inhabited α]

/-- The options with the given numbers. -/
def pick (options : List (List α)) (numbers : List Nat) : List α :=
  List.zipWith (fun values k => values.getD k default) options numbers

theorem pick_chosen {options : List (List α)} (numbers : Numbers options ks) :
    Chosen options (pick options ks) := by
  induction options generalizing ks with
  | nil =>
    cases numbers
    exact .nil
  | cons values options ih =>
    obtain ⟨k, rest, rfl, bound, tail⟩ := numbers.cons_inv
    have head : values.getD k default ∈ values := by
      rw [List.getD_eq_getElem _ _ bound]
      exact List.getElem_mem bound
    exact .cons head (ih tail)

theorem pick_injective {options : List (List α)} (distinct : ∀ values ∈ options, values.Nodup)
    (first : Numbers options ks) (second : Numbers options ls)
    (same : pick options ks = pick options ls) : ks = ls := by
  induction options generalizing ks ls with
  | nil =>
    cases first
    cases second
    rfl
  | cons values options ih =>
    obtain ⟨k, ks, rfl, kBound, kTail⟩ := first.cons_inv
    obtain ⟨l, ls, rfl, lBound, lTail⟩ := second.cons_inv
    have nodup := distinct values (by simp)
    simp only [pick, List.zipWith_cons_cons, List.cons.injEq, List.getD_eq_getElem _ _ kBound,
      List.getD_eq_getElem _ _ lBound] at same
    have heads : k = l := (nodup.getElem_inj_iff).mp same.1
    have tails := ih (fun values member => distinct values (by simp [member])) kTail lTail same.2
    rw [heads, tails]

theorem pick_surjective {options : List (List α)} (chosen : Chosen options vs) :
    ∃ ks, Numbers options ks ∧ pick options ks = vs := by
  induction options generalizing vs with
  | nil =>
    cases chosen
    exact ⟨[], .nil, rfl⟩
  | cons values options ih =>
    obtain ⟨v, rest, rfl, member, tail⟩ := chosen.cons_inv
    obtain ⟨k, bound, found⟩ := List.getElem_of_mem member
    obtain ⟨ks, numbers, picked⟩ := ih tail
    refine ⟨k :: ks, .cons bound numbers, ?_⟩
    rw [pick, List.zipWith_cons_cons, List.getD_eq_getElem _ _ bound, found]
    exact congrArg (v :: ·) picked

/-- Over duplicate-free options, choices and vectors of option numbers are the same. -/
theorem pick_bijOn {options : List (List α)} (distinct : ∀ values ∈ options, values.Nodup) :
    Set.BijOn (pick options) {ks | Numbers options ks} {vs | Chosen options vs} := by
  refine ⟨fun ks numbers => pick_chosen numbers, ?_, ?_⟩
  · intro ks first ls second same
    exact pick_injective distinct first second same
  · intro vs chosen
    obtain ⟨ks, numbers, picked⟩ := pick_surjective chosen
    exact ⟨ks, numbers, picked⟩

end Pick

section Count

theorem sections_length (options : List (List α)) :
    options.sections.length = (options.map List.length).prod := by
  induction options with
  | nil => rfl
  | cons values options ih =>
    simp only [List.sections, List.length_flatMap, List.length_map, List.map_const', List.sum_replicate,
      smul_eq_mul, ih, List.map_cons, List.prod_cons]
    exact Nat.mul_comm _ _

theorem sections_nodup {options : List (List α)} (distinct : ∀ values ∈ options, values.Nodup) :
    options.sections.Nodup := by
  induction options with
  | nil => simp [List.sections]
  | cons values options ih =>
    have tail := ih (fun values member => distinct values (by simp [member]))
    rw [List.sections, List.nodup_flatMap]
    constructor
    · intro rest _
      exact (distinct values (by simp)).map (fun _ _ same => (List.cons.inj same).1)
    · apply tail.pairwise_of_forall_ne
      intro first _ second _ different
      simp only [Function.onFun, List.disjoint_left, List.mem_map, not_exists, not_and]
      rintro _ ⟨v, _, rfl⟩ w _ same
      exact different (List.cons.inj same).2.symm

theorem chosen_ncard {options : List (List α)} (distinct : ∀ values ∈ options, values.Nodup) :
    {vs | Chosen options vs}.ncard = (options.map List.length).prod := by
  classical
  have finite : {vs | Chosen options vs} = ↑options.sections.toFinset := by
    ext vs
    simp only [Set.mem_ofPred_eq, Chosen, List.coe_toFinset, List.mem_sections]
  rw [finite, Set.ncard_coe_finset, List.toFinset_card_of_nodup (sections_nodup distinct),
    sections_length]

end Count

section Blank
variable [DecidableEq α]

/-- No value but the blank one is an option at two positions. -/
def Apart (blank : α) (options : List (List α)) : Prop :=
  options.Pairwise (fun first second => ∀ v ∈ first, v ≠ blank → v ∉ second)

instance (blank : α) : DecidablePred (Apart blank) := fun options =>
  inferInstanceAs (Decidable (options.Pairwise _))

/-- A blank first choice cannot look like one that is not blank: the first kept
value would have to be an option at two positions. -/
theorem filter_ne_cons {blank : α} {values : List α} (later : Chosen options vs)
    (apart : ∀ other ∈ options, ∀ v ∈ values, v ≠ blank → v ∉ other)
    (member : v ∈ values) (solid : v ≠ blank) :
    vs.filter (· ≠ blank) ≠ v :: rest := by
  intro same
  have kept : v ∈ vs.filter (· ≠ blank) := same ▸ List.mem_cons_self
  obtain ⟨other, found, inside⟩ := later.mem_option (List.mem_filter.mp kept).1
  exact apart other found v member solid inside

/-- Dropping the blanks loses the positions but not the choice. -/
theorem filter_injective {blank : α} {options : List (List α)} (apart : Apart blank options)
    (first : Chosen options vs) (second : Chosen options ws)
    (same : vs.filter (· ≠ blank) = ws.filter (· ≠ blank)) : vs = ws := by
  induction options generalizing vs ws with
  | nil =>
    cases first
    cases second
    rfl
  | cons values options ih =>
    obtain ⟨v, vs, rfl, vMember, vTail⟩ := first.cons_inv
    obtain ⟨w, ws, rfl, wMember, wTail⟩ := second.cons_inv
    obtain ⟨here, apart⟩ := List.pairwise_cons.mp apart
    by_cases vBlank : v = blank
    · by_cases wBlank : w = blank
      · subst vBlank wBlank
        simp only [ne_eq, not_true_eq_false, decide_false, Bool.false_eq_true, not_false_eq_true,
          List.filter_cons_of_neg] at same
        rw [ih apart vTail wTail same]
      · rw [List.filter_cons_of_neg (by simpa using vBlank),
          List.filter_cons_of_pos (by simpa using wBlank)] at same
        exact absurd same (filter_ne_cons vTail here wMember wBlank)
    · by_cases wBlank : w = blank
      · rw [List.filter_cons_of_pos (by simpa using vBlank),
          List.filter_cons_of_neg (by simpa using wBlank)] at same
        exact absurd same.symm (filter_ne_cons wTail here vMember vBlank)
      · rw [List.filter_cons_of_pos (by simpa using vBlank),
          List.filter_cons_of_pos (by simpa using wBlank)] at same
        obtain ⟨heads, tails⟩ := List.cons.inj same
        rw [heads, ih apart vTail wTail tails]

end Blank
section Ascending
variable [DecidableEq α]

/-- A blank value at most once in each list, and all other values in strictly
ascending order throughout. -/
def Ascending [LT α] (blank : α) (options : List (List α)) : Prop :=
  (options.flatten.filter (· ≠ blank)).IsChain (· < ·) ∧ ∀ values ∈ options, values.count blank ≤ 1

instance [LT α] [DecidableLT α] (blank : α) : DecidablePred (Ascending blank) := fun _ =>
  inferInstanceAs (Decidable (List.IsChain _ _ ∧ _))

theorem Ascending.solid [Preorder α] {blank : α} (ascending : Ascending blank options) :
    (∀ values ∈ options, (values.filter (· ≠ blank)).Nodup) ∧
      (options.map (List.filter (· ≠ blank))).Pairwise List.Disjoint := by
  have distinct : (options.flatten.filter (· ≠ blank)).Nodup :=
    ascending.1.pairwise.imp (fun less => less.ne)
  rw [List.filter_flatten, List.nodup_flatten] at distinct
  refine ⟨?_, distinct.2⟩
  intro values member
  exact distinct.1 _ (List.mem_map_of_mem member)

theorem Ascending.nodup [Preorder α] {blank : α} (ascending : Ascending blank options) :
    ∀ values ∈ options, values.Nodup := by
  intro values member
  rw [List.nodup_iff_count_le_one]
  intro v
  by_cases same : v = blank
  · rw [same]
    exact ascending.2 values member
  · have solid := List.nodup_iff_count_le_one.mp (ascending.solid.1 values member) v
    rwa [List.count_filter (by simpa using same)] at solid

theorem Ascending.apart [Preorder α] {blank : α} (ascending : Ascending blank options) :
    Apart blank options := by
  have disjoint := List.pairwise_map.mp ascending.solid.2
  apply disjoint.imp
  intro first second separate v inFirst solid inSecond
  exact separate (List.mem_filter.mpr ⟨inFirst, by simpa using solid⟩)
    (List.mem_filter.mpr ⟨inSecond, by simpa using solid⟩)

end Ascending

section Encoding
variable {β : Type} {encode : α → β} {options : List (List α)}

theorem nodup_of_encoding (distinct : ∀ values ∈ options.map (List.map encode), values.Nodup) :
    ∀ values ∈ options, values.Nodup := by
  intro values member
  exact (distinct _ (List.mem_map_of_mem member)).of_map

theorem Apart.of_encoding (injective : Function.Injective encode)
    (apart : Apart (encode blank) (options.map (List.map encode))) : Apart blank options := by
  apply (List.pairwise_map.mp apart).imp
  intro first second separate v inFirst solid inSecond
  exact separate (encode v) (List.mem_map_of_mem inFirst) (injective.ne solid)
    (List.mem_map_of_mem inSecond)

end Encoding
end GoCore.Choice
