import Gopherize.Core.Store

/-! A generator of `math/rand`, through its documented behaviour only. The answer
to a call may depend on the seed and on all earlier calls, so every stream of
draws within the requested bounds is one of these generators. -/
namespace GoCore

/-- A seeded generator: the answer to `Intn(n)` after the calls with the bounds `calls`. -/
structure Rng where
  draw : List Nat → Nat → Nat
  draw_lt : ∀ calls n, 0 < n → draw calls n < n

/-- The object behind a `*rand.Rand`: the bounds asked for so far, oldest first. -/
structure Rand where
  calls : List Nat
  deriving DecidableEq, Repr

namespace Rng

/-- `r.Intn(n)`, which panics unless `n` is positive. -/
def intn (rng : Rng) (r : Ref Rand) (n : Nat) : Exec (Table Rand) Nat := do
  let table ← get
  let rand ← table.deref r
  match r with
  | none => throw .nilDereference
  | some p =>
    if n = 0 then throw .invalidArgument
    else
      Table.write p ⟨rand.calls ++ [n]⟩
      pure (rng.draw rand.calls n)

theorem intn_returns (rng : Rng) {t : Table Rand} (found : t.read p = some ⟨calls⟩)
    (positive : 0 < n) :
    Returns (rng.intn (some p) n) t
      (fun v u => v = rng.draw calls n ∧ u.read p = some ⟨calls ++ [n]⟩) := by
  refine returns_get_bind (returns_lift_bind (Table.deref_some found) ?_)
  simp only [Nat.ne_of_gt positive, if_false]
  have written := Table.read_replace (v := Rand.mk (calls ++ [n])) found
  exact (Table.write_returns written).bind (fun _ _ read => returns_pure ⟨rfl, read⟩)

/-- The answers to a sequence of calls with the given bounds. -/
def draws (rng : Rng) (calls : List Nat) : List Nat → List Nat
  | [] => []
  | n :: ns => rng.draw calls n :: rng.draws (calls ++ [n]) ns

@[simp] theorem draws_length (rng : Rng) (calls bounds : List Nat) :
    (rng.draws calls bounds).length = bounds.length := by
  induction bounds generalizing calls with
  | nil => rfl
  | cons n ns ih => simp [draws, ih]

theorem draws_getElem? (rng : Rng) (calls : List Nat) {bounds : List Nat}
    (found : bounds[i]? = some n) :
    (rng.draws calls bounds)[i]? = some (rng.draw (calls ++ bounds.take i) n) := by
  induction bounds generalizing calls i with
  | nil => simp at found
  | cons m ms ih =>
    cases i with
    | zero =>
      cases found
      simp [draws]
    | succ i =>
      rw [List.getElem?_cons_succ] at found
      simp only [draws, List.getElem?_cons_succ, ih _ found, List.take_succ_cons,
        List.append_assoc, List.singleton_append]

theorem draws_lt (rng : Rng) (calls : List Nat) {bounds : List Nat} (positive : ∀ n ∈ bounds, 0 < n) :
    List.Forall₂ (· < ·) (rng.draws calls bounds) bounds := by
  induction bounds generalizing calls with
  | nil => exact .nil
  | cons n ns ih =>
    have head := rng.draw_lt calls n (positive n (by simp))
    exact .cons head (ih _ (fun m member => positive m (by simp [member])))

/-- The generator that gives the listed answers, one per call after the first
`past` calls, wherever they lie within the bound asked for. -/
def replay (past : Nat) (answers : List Nat) : Rng where
  draw calls n :=
    let answer := answers.getD (calls.length - past) 0
    if answer < n then answer else 0
  draw_lt calls n positive := by
    simp only
    split
    · assumption
    · exact positive

theorem draws_replay_suffix {bounds : List Nat} (earlier answers : List Nat) (calls : List Nat)
    (position : calls.length = past + earlier.length)
    (within : List.Forall₂ (· < ·) answers bounds) :
    (replay past (earlier ++ answers)).draws calls bounds = answers := by
  induction within generalizing earlier calls with
  | nil => rfl
  | @cons answer n answers bounds bound _ ih =>
    have next := ih (earlier ++ [answer]) (calls ++ [n]) (by simp [position, Nat.add_assoc])
    have offset : calls.length - past = earlier.length := by omega
    have first : (replay past (earlier ++ answer :: answers)).draw calls n = answer := by
      simp [replay, offset, bound]
    simp only [List.append_assoc, List.singleton_append] at next
    rw [draws, first, next]

theorem draws_replay {bounds : List Nat} (calls : List Nat)
    (within : List.Forall₂ (· < ·) answers bounds) :
    (replay calls.length answers).draws calls bounds = answers :=
  draws_replay_suffix [] answers calls (by simp) within

end Rng
end GoCore
