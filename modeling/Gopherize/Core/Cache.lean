import Gopherize.Core.Execution

/-! Outputs cached under the properties that produced them. A component is drawn
again only when it is forced or when its properties change, and children are
matched with their new properties by position. Over sound caches the pruned
update is the same computation as drawing everything from nothing, panics included. -/
namespace GoCore

structure Cached (P O : Type) where
  props : P
  output : O

namespace Cached
variable {P O : Type}

def draw (render : P → Except Panic O) (p : P) : Except Panic (Cached P O) := do
  pure ⟨p, ← render p⟩

/-- The cache holds what its own properties give under `render`. -/
def Sound (render : P → Except Panic O) (c : Cached P O) : Prop :=
  render c.props = .ok c.output

theorem draw_eq_ok {render : P → Except Panic O} {c : Cached P O} :
    draw render p = .ok c ↔ c.props = p ∧ c.Sound render := by
  obtain ⟨props, output⟩ := c
  constructor
  · intro drawn
    obtain ⟨out, rendered, same⟩ := bind_eq_ok.mp drawn
    cases same
    exact ⟨rfl, rendered⟩
  · rintro ⟨rfl, rendered⟩
    exact bind_eq_ok.mpr ⟨output, rendered, rfl⟩

theorem Sound.mono {H : Type} [Preorder H] {render : P → H → Except Panic O} {c : Cached P O}
    {before after : H} (stable : ∀ p, Stable (render p)) (grown : before ≤ after)
    (sound : c.Sound (render · before)) : c.Sound (render · after) :=
  stable c.props grown sound

section Update
variable [DecidableEq P]

/-- The update of a mounted component by its parent. -/
def receive (render : P → Except Panic O) (forced : Bool) (c : Cached P O) (p : P) :
    Except Panic (Cached P O) :=
  if !forced && decide (c.props = p) then pure c else draw render p

theorem receive_eq_draw {render : P → Except Panic O} {forced : Bool} {c : Cached P O}
    (sound : forced = false → c.Sound render) (p : P) :
    receive render forced c p = draw render p := by
  unfold receive
  split
  · rename_i kept
    simp only [Bool.and_eq_true, Bool.not_eq_true', decide_eq_true_eq] at kept
    exact (draw_eq_ok.mpr ⟨kept.2, sound kept.1⟩).symm
  · rfl

/-- Position by position: present children are updated, surplus properties
mount new children and surplus children are dropped. -/
def reconcile (render : P → Except Panic O) :
    List (Cached P O) → List P → Except Panic (List (Cached P O))
  | _, [] => pure []
  | [], p :: ps => do pure ((← draw render p) :: (← reconcile render [] ps))
  | c :: cs, p :: ps => do pure ((← receive render false c p) :: (← reconcile render cs ps))

theorem reconcile_eq_draw {render : P → Except Panic O} {cs : List (Cached P O)}
    (sound : ∀ c ∈ cs, c.Sound render) (ps : List P) :
    reconcile render cs ps = ps.mapM (draw render) := by
  induction ps generalizing cs with
  | nil => cases cs <;> rfl
  | cons p ps ih =>
    rw [List.mapM_cons]
    cases cs with
    | nil => rw [reconcile, ih (by simp)]
    | cons c cs =>
      have head : receive render false c p = draw render p :=
        receive_eq_draw (fun _ => sound c (by simp)) p
      have tail : reconcile render cs ps = ps.mapM (draw render) :=
        ih (fun c member => sound c (by simp [member]))
      rw [reconcile, head, tail]

end Update

/-- Everything drawn in one pass is sound and carries its own properties. -/
theorem mapM_draw_eq_ok {render : P → Except Panic O} {ps : List P} {cs : List (Cached P O)} :
    ps.mapM (draw render) = .ok cs ↔ cs.map props = ps ∧ ∀ c ∈ cs, c.Sound render := by
  induction ps generalizing cs with
  | nil =>
    rw [List.mapM_nil, List.map_eq_nil_iff]
    constructor
    · intro same
      cases same
      simp
    · rintro ⟨rfl, _⟩
      rfl
  | cons p ps ih =>
    simp only [List.mapM_cons, bind_eq_ok, draw_eq_ok, ih]
    constructor
    · rintro ⟨c, ⟨rfl, head⟩, cs, ⟨rfl, tail⟩, same⟩
      cases same
      exact ⟨rfl, by simpa using ⟨head, tail⟩⟩
    · rintro ⟨same, sound⟩
      obtain ⟨c, cs, rfl, rfl, rfl⟩ := List.map_eq_cons_iff.mp same
      simp only [List.mem_cons, forall_eq_or_imp] at sound
      exact ⟨c, ⟨rfl, sound.1⟩, cs, ⟨rfl, sound.2⟩, rfl⟩

end Cached
end GoCore
