import Gopherize.HackConfig
import Gopherize.Refinement

/-! Everything a user can do: click a handler of any render so far, also one that
is no longer on the screen, with renders in between. Each click is at most one
step of the selection machine, and a step that some page offered. -/
namespace Gopherize
open GoCore GoCore.Choice

/-- The calls that a click makes on the mounted components. -/
def Handler.calls : Handler → List (Call String)
  | .shuffleClick _ => [.randomGopher]
  | .resetClick _ => [.resetGopher]
  | .saveClick _ => []
  | .expandClick _ i => [.expand i]
  | .chooseItemClick _ ci v => [.updateGopher ci.toNat v]

/-- The worlds that clicks and renders lead to after mounting, each with the
handlers of all renders so far. -/
inductive Reachable (rng : Rng) (c : Ref Config) (h : Heap) : World → List Handler → Prop where
  | mounted {w} : (mount c).run (World.unmounted h) = .ok ((), w) → Reachable rng c h w w.handlers
  | clicked {w w' seen handler} : Reachable rng c h w seen → handler ∈ seen →
      (handler.onClick rng).run w = .ok ((), w') → Reachable rng c h w' seen
  | rendered {w w' seen} : Reachable rng c h w seen → flush.run w = .ok ((), w') →
      Reachable rng c h w' (seen ++ w'.handlers)

section
variable {base : Heap} {c : Ref Config} {refs : List (Ref Category)} {slots : List Slot} {o : OuterDef}
  {ch : ChooserDef} {w : World} {s : Selection String}

/-- A click does what its call does, whenever its handler was rendered. -/
theorem onClick_refines (rng : Rng) (refines : w.Refines base c refs slots o ch s)
    (populated : Populated slots) (shown : Shown o ch st slots handler) :
    Returns (handler.onClick rng) w
      (fun _ w' => w'.Refines base c refs slots o ch (s.run rng (optionsOf slots) handler.calls)) := by
  obtain ⟨t, present, mounted, current⟩ := refines.tree
  have props := ChooserDef.props_run present mounted.self.symm
  cases shown with
  | shuffle =>
    apply returns_run_bind props
    rw [mounted.update]
    exact randomGopher_refines rng refines populated
  | reset =>
    apply returns_run_bind props
    rw [mounted.update]
    exact resetGopher_refines refines populated
  | save =>
    apply returns_modify
    exact ⟨refines.self, refines.state, t, present, mounted, current⟩
  | heading within => exact expand_refines refines _
  | label found _ offered =>
    exact updateGopher_refines refines (List.getElem?_eq_some_iff.mp found).1 _

/-- A click asks for something that a page offered. -/
theorem Shown.offered (shown : Shown o ch st slots handler) :
    ∀ call ∈ handler.calls, Selection.Offered (optionsOf slots) call := by
  intro call member
  cases shown with
  | shuffle =>
    cases List.mem_singleton.mp member
    trivial
  | reset =>
    cases List.mem_singleton.mp member
    trivial
  | save => simp [Handler.calls] at member
  | @heading i within =>
    cases List.mem_singleton.mp member
    simp only [Selection.Offered, List.length_map]
    omega
  | @label i slot v found _ offered =>
    cases List.mem_singleton.mp member
    exact ⟨slot.options, by simp [found], offered⟩

/-- What is on the screen once everything is rendered. -/
theorem World.Refines.mem_handlers (refines : w.Refines base c refs slots o ch s)
    (settled : w.Settled) :
    handler ∈ w.handlers ↔ Shown o ch ⟨s.opened⟩ slots handler := by
  have whole := refines.settled settled
  have sizes := refines.state.config.length
  have shown : handler ∈ (Tree.view o w.state ch ⟨s.opened⟩ refs slots s.parts).handlers ↔
      Shown o ch ⟨s.opened⟩ slots handler := Tree.handlers_view sizes refines.state.size
  rw [← whole]
  simpa only [World.handlers, World.rendered, refines.self, Option.map_some, Option.getD_some]
    using shown

/-- The invariant of all reachable worlds: a valid selection behind the state,
and only handlers of this program among those rendered so far. -/
structure Reached (base : Heap) (c : Ref Config) (refs : List (Ref Category)) (slots : List Slot)
    (w : World) (seen : List Handler) (s : Selection String) : Prop where
  refines : w.Refines base c refs slots ⟨0⟩ ⟨1⟩ s
  valid : s.Valid (optionsOf slots)
  known : ∀ handler ∈ seen, ∃ st, Shown ⟨0⟩ ⟨1⟩ st slots handler

theorem mount_reached {h : Heap} (config : h.ConfigAt c refs slots)
    (formed : Selection.WellFormed (optionsOf slots)) :
    Returns (mount c) (World.unmounted h) (fun _ w => w.Settled ∧
      Reached h c refs slots w w.handlers (Selection.start (optionsOf slots))) := by
  apply (mount_returns config (populated_of_wellFormed formed)).mono
  rintro _ w ⟨refines, settled⟩
  refine ⟨settled, refines, ⟨Selection.initial_chosen formed, ?_⟩, ?_⟩
  · have two := formed.two
    simp only at two ⊢
    omega
  · intro handler member
    exact ⟨_, (refines.mem_handlers settled).mp member⟩

theorem onClick_reached (rng : Rng) (formed : Selection.WellFormed (optionsOf slots))
    (reached : Reached base c refs slots w seen s) (member : handler ∈ seen) :
    Returns (handler.onClick rng) w (fun _ w' =>
      Reached base c refs slots w' seen (s.run rng (optionsOf slots) handler.calls)) := by
  obtain ⟨st, shown⟩ := reached.known handler member
  apply (onClick_refines rng reached.refines (populated_of_wellFormed formed) shown).mono
  intro _ w' refines
  exact ⟨refines, Selection.run_valid formed _ shown.offered reached.valid, reached.known⟩

theorem flush_reached (reached : Reached base c refs slots w seen s) :
    Returns flush w (fun _ w' => w'.Settled ∧ w' = w.rendered refs slots ⟨1⟩ s ∧
      Reached base c refs slots w' (seen ++ w'.handlers) s) := by
  apply flush_returns reached.refines
  obtain ⟨refines, settled⟩ : (w.rendered refs slots ⟨1⟩ s).Refines base c refs slots ⟨0⟩ ⟨1⟩ s ∧
      (w.rendered refs slots ⟨1⟩ s).Settled :=
    World.rendered_refines reached.refines.self reached.refines.state
  refine ⟨settled, rfl, refines, reached.valid, ?_⟩
  intro handler member
  rcases List.mem_append.mp member with old | new
  · exact reached.known handler old
  · exact ⟨_, (refines.mem_handlers settled).mp new⟩

/-- Runs of any length: every reachable world satisfies the invariant. -/
theorem Reachable.reached {h : Heap} (config : h.ConfigAt c refs slots)
    (formed : Selection.WellFormed (optionsOf slots)) (reachable : Reachable rng c h w seen) :
    ∃ s, Reached h c refs slots w seen s := by
  induction reachable with
  | mounted ran => exact ⟨_, ((mount_reached config formed).outcome ran).2⟩
  | clicked _ member ran ih =>
    obtain ⟨s, reached⟩ := ih
    exact ⟨_, (onClick_reached rng formed reached member).outcome ran⟩
  | rendered _ ran ih =>
    obtain ⟨s, reached⟩ := ih
    exact ⟨_, ((flush_reached reached).outcome ran).2.2⟩

end
/-- The state after mounting: a gopher with one option of each category, and one
open category. -/
structure World.Valid (slots : List Slot) (w : World) : Prop where
  current : w.state.current ≠ none
  parts : ∃ parts, w.heap.partsOf w.state.current = .ok parts ∧ parts.length = slots.length ∧
    ∀ (i : Nat) (slot : Slot), slots[i]? = some slot → ∃ part ∈ slot.options, parts[i]? = some part
  opened : ∃ i, w.opened = some i ∧ 0 ≤ i ∧ i < slots.length

theorem Reached.world_valid {w : World} (reached : Reached base c refs slots w seen s) :
    w.Valid slots := by
  have gopher := reached.refines.state.gopher
  have chosen := reached.valid.chosen
  refine ⟨?_, ⟨s.parts, gopher.partsOf, reached.refines.state.size, ?_⟩, ?_⟩
  · obtain ⟨p, g, same, _⟩ := gopher
    simp [same]
  · intro i slot found
    exact chosen.getElem? (by simp [found])
  · have opened := reached.valid.opened
    rw [List.length_map] at opened
    exact ⟨s.opened, reached.refines.open_eq, opened⟩

/-- Mounting, clicks on handlers of any render so far and renders never panic, in
any order and for every generator, and only ever lead to valid states. -/
theorem events_never_panic (rng : Rng) {h : Heap} (config : h.ConfigAt c refs slots)
    (formed : Selection.WellFormed (optionsOf slots)) :
    Returns (mount c) (World.unmounted h) (fun _ w => w.Valid slots) ∧
    (∀ w seen, Reachable rng c h w seen → w.Valid slots ∧
      (∀ handler ∈ seen, Returns (handler.onClick rng) w (fun _ w' => w'.Valid slots)) ∧
      Returns flush w (fun _ w' => w'.Valid slots)) ∧
    Selection.WellFormed (optionsOf hackCategories) := by
  refine ⟨?_, ?_, hackCategories_wellFormed⟩
  · exact (mount_reached config formed).mono (fun _ _ facts => facts.2.world_valid)
  · intro w seen reachable
    obtain ⟨s, reached⟩ := reachable.reached config formed
    refine ⟨reached.world_valid, ?_, ?_⟩
    · intro handler member
      exact (onClick_reached rng formed reached member).mono (fun _ _ after => after.world_valid)
    · exact (flush_reached reached).mono (fun _ _ facts => facts.2.2.world_valid)

/-- The program itself: every click after mounting `hackConfig`. -/
theorem hackConfig_never_panics : Returns (newConfig hackCategories) Heap.empty (fun c h =>
    ∀ rng w seen, Reachable rng c h w seen → ∀ handler ∈ seen,
      Returns (handler.onClick rng) w (fun _ w' => w'.Valid hackCategories)) := by
  apply hackConfig_returns.mono
  rintro c h ⟨refs, config⟩ rng w seen reachable
  exact ((events_never_panic rng config hackCategories_wellFormed).2.1 w seen reachable).2.1

end Gopherize
