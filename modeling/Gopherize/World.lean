import Gopherize.Core.Cache
import Gopherize.Chooser
import Gopherize.Panel
import Gopherize.Preview

/-! The mounted components and their state, as `ComponentDef` of the react package
keeps them. `SetState` stores at once and asks for a re-render, unless the new
state equals the old one; the re-render itself is a later step. -/
namespace Gopherize
open GoCore

structure OuterState where
  current : Ref Gopher := none
  config : Ref Config := none
  rand : Ref Rand := none
  deriving DecidableEq

/-- The mounted chooser: its identity and state, whether a re-render is due, the
last output, and its panels with the output of each. -/
structure ChooserBody where
  self : ChooserDef
  state : ChooserState
  pending : Bool
  output : Element
  panels : List (Cached PanelProps Element)

/-- The mounted children of the outer component with its own last output. -/
structure Tree where
  output : Element
  preview : Cached PreviewProps Element
  chooser : Cached ChooserProps ChooserBody

structure World where
  heap : Heap
  self : OuterDef
  state : OuterState := {}
  pending : Bool := false
  tree : Option Tree := none
  nextElem : Nat
  alerts : List String := []

/-- The open category, once the chooser is mounted. -/
def World.opened (w : World) : Option Int := w.tree.map (·.chooser.output.state.opened)

abbrev Go := Exec World

abbrev onHeap (m : Exec Heap α) : Go α := m.zoom World.heap (fun h w => { w with heap := h })

namespace OuterDef

/-- `o.State()`; a component that is not mounted has no state to read. -/
def state (o : OuterDef) : Go OuterState := do
  let w ← get
  if o = w.self then pure w.state else throw .nilDereference

def setState (o : OuterDef) (s : OuterState) : Go Unit := do
  let cur ← o.state
  if s = cur then pure () else modify (fun w => { w with state := s, pending := true })

theorem state_run {w : World} (mounted : o = w.self) : o.state.run w = .ok (w.state, w) := by
  subst mounted
  simp [state]

/-- An equal state is not stored again, which makes no difference to the state. -/
theorem setState_returns {w : World} (mounted : o = w.self)
    (holds : ∀ pending, (pending = false → w.pending = false ∧ s = w.state) →
      post () { w with state := s, pending := pending }) :
    Returns (o.setState s) w post := by
  refine returns_run_bind (state_run mounted) ?_
  split
  · rename_i same
    subst same
    exact returns_pure (holds w.pending (fun clear => ⟨clear, rfl⟩))
  · exact returns_modify _ (holds true (by simp))

end OuterDef

/-- Replace the mounted chooser. -/
def Tree.withChooser (t : Tree) (body : ChooserBody) : Tree :=
  { t with chooser := { t.chooser with output := body } }

namespace ChooserDef

/-- The mounted tree, provided that `ch` is the chooser in it. -/
def mounted (ch : ChooserDef) : Go Tree := do
  let w ← get
  match w.tree with
  | none => throw .nilDereference
  | some t => if ch = t.chooser.output.self then pure t else throw .nilDereference

def props (ch : ChooserDef) : Go ChooserProps := do pure (← ch.mounted).chooser.props

def state (ch : ChooserDef) : Go ChooserState := do pure (← ch.mounted).chooser.output.state

def setState (ch : ChooserDef) (s : ChooserState) : Go Unit := do
  let t ← ch.mounted
  if s = t.chooser.output.state then pure ()
  else modify (fun w =>
    { w with tree := some (t.withChooser { t.chooser.output with state := s, pending := true }) })

def expand (ch : ChooserDef) (i : Int) : Go Unit := do
  let s ← ch.state
  ch.setState { s with opened := i }

variable {w : World} {t : Tree}

theorem mounted_run (shown : w.tree = some t) (self : ch = t.chooser.output.self) :
    ch.mounted.run w = .ok (t, w) := by
  subst self
  simp [mounted, shown]

theorem props_run (shown : w.tree = some t) (self : ch = t.chooser.output.self) :
    ch.props.run w = .ok (t.chooser.props, w) := by
  simp [props, mounted_run shown self]

theorem state_run (shown : w.tree = some t) (self : ch = t.chooser.output.self) :
    ch.state.run w = .ok (t.chooser.output.state, w) := by
  simp [state, mounted_run shown self]

theorem expand_returns (shown : w.tree = some t) (self : ch = t.chooser.output.self)
    (holds : ∀ pending,
      (pending = false → t.chooser.output.pending = false ∧ i = t.chooser.output.state.opened) →
      post () { w with tree := some (t.withChooser
        { t.chooser.output with state := ⟨i⟩, pending := pending }) }) :
    Returns (ch.expand i) w post := by
  refine returns_run_bind (state_run shown self) (returns_run_bind (mounted_run shown self) ?_)
  split
  · rename_i same
    obtain rfl : i = t.chooser.output.state.opened := congrArg ChooserState.opened same
    have unchanged := holds t.chooser.output.pending (fun clear => ⟨clear, rfl⟩)
    have whole : { w with tree := some t } = w := by
      rw [← shown]
    exact returns_pure (whole ▸ unchanged)
  · exact returns_modify _ (holds true (by simp))

end ChooserDef
end Gopherize
