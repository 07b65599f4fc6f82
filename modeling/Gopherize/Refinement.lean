import Gopherize.View

/-! The program refines the selection machine. The relation fixes what the heap
holds for the state of the outer component, that it has only grown since an
earlier heap, and how far the mounted tree may lag behind: unless the outer
component waits for a re-render, the tree was rendered with the present state. -/
namespace Gopherize
open GoCore GoCore.Choice

/-- The state of the outer component stands for a selection. -/
structure OuterState.Refines (base : Heap) (c : Ref Config) (refs : List (Ref Category))
    (slots : List Slot) (h : Heap) (st : OuterState) (s : Selection String) : Prop where
  grown : base ≤ h
  pointer : st.config = c
  config : h.ConfigAt st.config refs slots
  gopher : h.GopherAt st.current s.parts
  size : s.parts.length = slots.length
  rand : ∃ r, st.rand = some r ∧ h.rands.read r = some ⟨s.calls⟩

structure World.Refines (base : Heap) (c : Ref Config) (refs : List (Ref Category))
    (slots : List Slot) (o : OuterDef) (ch : ChooserDef) (w : World) (s : Selection String) : Prop where
  self : w.self = o
  state : w.state.Refines base c refs slots w.heap s
  tree : ∃ t, w.tree = some t ∧ t.Mounted o ch ⟨s.opened⟩ w.heap ∧
    (w.pending = false → t.Current o w.state)

section
variable {base : Heap} {c : Ref Config} {refs : List (Ref Category)} {slots : List Slot} {o : OuterDef}
  {ch : ChooserDef} {w : World} {s : Selection String}

/-- The relation may start from any point of a run. -/
theorem World.Refines.rebase (refines : w.Refines base c refs slots o ch s) :
    w.Refines w.heap c refs slots o ch s :=
  ⟨refines.self, { refines.state with grown := le_rfl }, refines.tree⟩

/-- The world with everything rendered. -/
def World.rendered (refs : List (Ref Category)) (slots : List Slot) (ch : ChooserDef) (w : World)
    (s : Selection String) : World :=
  { w with
    pending := false
    tree := some (Tree.view w.self w.state ch ⟨s.opened⟩ refs slots s.parts) }

theorem OuterState.Refines.draw {h : Heap} {st : OuterState} (state : st.Refines base c refs slots h s)
    (o : OuterDef) (ch : ChooserDef) (chooser : ChooserState) :
    Tree.draw o st ch chooser h = .ok (Tree.view o st ch chooser refs slots s.parts) :=
  Tree.draw_eq state.config state.gopher state.size

theorem World.rendered_refines (self : w.self = o)
    (state : w.state.Refines base c refs slots w.heap s) :
    (w.rendered refs slots ch s).Refines base c refs slots o ch s ∧
      (w.rendered refs slots ch s).Settled := by
  subst self
  obtain ⟨mounted, current, still⟩ := Tree.mounted_of_draw (state.draw w.self ch ⟨s.opened⟩)
  constructor
  · exact ⟨rfl, state, _, rfl, mounted, fun _ => current⟩
  · refine ⟨rfl, ?_⟩
    intro t same
    cases same
    exact still

/-- A world that waits for nothing shows the view of its state. -/
theorem World.Refines.settled (refines : w.Refines base c refs slots o ch s) (settled : w.Settled) :
    w.rendered refs slots ch s = w := by
  obtain ⟨t, shown, mounted, current⟩ := refines.tree
  have drawn := mounted.draw_eq (current settled.1) (settled.2 t shown)
  rw [refines.state.draw o ch] at drawn
  have clear := settled.1
  have self := refines.self
  cases w
  simp only at shown clear self
  subst shown clear self
  rw [World.rendered, Except.ok.inj drawn]

theorem World.Refines.open_eq (refines : w.Refines base c refs slots o ch s) :
    w.opened = some s.opened := by
  obtain ⟨t, shown, mounted, _⟩ := refines.tree
  simp only [World.opened, shown, Option.map_some, mounted.state]

/-- Only the chooser is due: its new panels complete the view. -/
theorem Tree.withChooser_eq_view {t : Tree} {h : Heap} {st : OuterState}
    (state : st.Refines base c refs slots h s) (mounted : t.Mounted o ch ⟨s.opened⟩ h)
    (current : t.Current o st) :
    t.chooser.output.redraw h t.chooser.props =
        .ok (ChooserBody.view ch ⟨s.opened⟩ o refs slots s.parts) ∧
      t.withChooser (ChooserBody.view ch ⟨s.opened⟩ o refs slots s.parts) =
        Tree.view o st ch ⟨s.opened⟩ refs slots s.parts := by
  have body : ChooserBody.draw ch ⟨s.opened⟩ h (o.chooserProps st) =
      .ok (ChooserBody.view ch ⟨s.opened⟩ o refs slots s.parts) :=
    ChooserBody.draw_eq state.config state.gopher state.size
  constructor
  · rw [ChooserBody.redraw_eq_draw mounted.sound.panels, mounted.self, mounted.state,
      current.chooser, body]
  · have drawn : Tree.draw o st ch ⟨s.opened⟩ h =
        .ok (t.withChooser (ChooserBody.view ch ⟨s.opened⟩ o refs slots s.parts)) := by
      apply Tree.draw_eq_ok.mpr
      refine ⟨⟨current.output, current.preview, current.chooser⟩, mounted.sound.preview, ?_⟩
      rw [← current.chooser] at body
      exact body
    rw [state.draw o ch] at drawn
    exact (Except.ok.inj drawn).symm

/-- A flush brings everything up to date, whatever was due before. -/
theorem flush_returns (refines : w.Refines base c refs slots o ch s) {post : Unit → World → Prop}
    (holds : post () (w.rendered refs slots ch s)) : Returns flush w post := by
  obtain ⟨t, shown, mounted, current⟩ := refines.tree
  have self := refines.self
  apply returns_get_bind
  simp only [shown]
  split
  · have drawn : t.redraw w.self w.state w.heap =
        .ok (Tree.view w.self w.state ch ⟨s.opened⟩ refs slots s.parts) := by
      rw [Tree.redraw_eq_draw mounted.sound, mounted.self, mounted.state, refines.state.draw]
    exact returns_lift_bind drawn ⟨_, _, rfl, holds⟩
  · rename_i clear
    have clear : w.pending = false := by simpa using clear
    split
    · obtain ⟨drawn, whole⟩ := Tree.withChooser_eq_view refines.state mounted (current clear)
      apply returns_lift_bind drawn
      refine ⟨_, _, rfl, ?_⟩
      rw [World.rendered, ← clear] at holds
      rw [whole, ← self]
      exact holds
    · rename_i still
      apply returns_pure
      have settled : w.Settled := by
        refine ⟨clear, ?_⟩
        intro other same
        rw [shown] at same
        cases same
        simpa using still
      rwa [refines.settled settled] at holds

/-- A new current gopher is a new selection. The mounted tree stays as it is, and
stays current only if nothing changed. -/
theorem publish_returns (refines : w.Refines base c refs slots o ch s) {m : Exec Heap (Ptr Gopher)}
    (size : parts.length = slots.length)
    (built : ∀ r, w.heap.rands.read r = some ⟨s.calls⟩ → w.state.rand = some r →
      Returns m w.heap (fun g k => w.heap ≤ k ∧ k.GopherAt (some g) parts ∧
        k.rands.read r = some ⟨calls⟩)) :
    Returns (do
        let current ← onHeap m
        o.setState { w.state with current := some current }) w
      (fun _ w' => w'.Refines base c refs slots o ch { s with parts, calls }) := by
  obtain ⟨r, rand, found⟩ := refines.state.rand
  obtain ⟨t, shown, mounted, current⟩ := refines.tree
  have self := refines.self
  subst self
  apply (setCurrent_returns (built r found rand)).mono
  rintro _ _ ⟨g, k, pending, ⟨grown, gopher, drawn⟩, unchanged, rfl⟩
  refine ⟨rfl, ⟨refines.state.grown.trans grown, refines.state.pointer,
    refines.state.config.mono grown, gopher, size, r, rand, drawn⟩, t, shown, mounted.mono grown, ?_⟩
  intro clear
  obtain ⟨before, same⟩ := unchanged clear
  simp only at same ⊢
  rw [same]
  exact current before

/-- `Expand` leaves a chooser that waits for its re-render, or nothing changed. -/
theorem Tree.Mounted.expanded {t : Tree} {h : Heap} (mounted : t.Mounted o ch st h)
    (unchanged : pending = false →
      t.chooser.output.pending = false ∧ i = t.chooser.output.state.opened) :
    (t.withChooser { t.chooser.output with state := ⟨i⟩, pending := pending }).Mounted o ch ⟨i⟩ h := by
  refine ⟨mounted.self, rfl, mounted.update, mounted.sound.preview, ?_, mounted.sound.panels⟩
  intro clear
  obtain ⟨before, rfl⟩ := unchanged clear
  have sound := mounted.sound.chooser before
  simp only [Tree.withChooser] at clear ⊢
  rw [clear, ← before]
  exact sound

theorem updateGopher_refines (refines : w.Refines base c refs slots o ch s) (within : part < slots.length)
    (val : String) :
    Returns (o.updateGopher part val) w
      (fun _ w' => w'.Refines base c refs slots o ch { s with parts := s.parts.set part val }) := by
  have state := refines.state
  have inside : part < s.parts.length := state.size.symm ▸ within
  apply returns_run_bind (OuterDef.state_run refines.self.symm)
  apply publish_returns refines
  · simpa using state.size
  · intro r found _
    apply (updatedGopher_returns state.gopher inside val).mono
    rintro g k ⟨grown, gopher, same⟩
    exact ⟨grown, gopher, same ▸ found⟩

theorem resetGopher_refines (refines : w.Refines base c refs slots o ch s)
    (populated : Populated slots) :
    Returns o.resetGopher w (fun _ w' =>
      w'.Refines base c refs slots o ch { s with parts := Selection.initial (optionsOf slots) }) := by
  apply returns_run_bind (OuterDef.state_run refines.self.symm)
  apply publish_returns refines
  · simp
  · intro r found _
    apply (defaultGopher_returns refines.state.config populated).mono
    rintro g k ⟨grown, gopher, same⟩
    exact ⟨grown, gopher, same ▸ found⟩

theorem randomGopher_refines (rng : Rng) (refines : w.Refines base c refs slots o ch s)
    (populated : Populated slots) :
    Returns (o.randomGopher rng) w (fun _ w' =>
      w'.Refines base c refs slots o ch (s.step rng (optionsOf slots) .randomGopher)) := by
  apply returns_run_bind (OuterDef.state_run refines.self.symm)
  apply publish_returns refines
  · simp [pick]
  · intro r found rand
    rw [rand]
    exact shuffledGopher_returns rng refines.state.config populated.nonempty found

theorem expand_refines (refines : w.Refines base c refs slots o ch s) (i : Int) :
    Returns (ch.expand i) w (fun _ w' => w'.Refines base c refs slots o ch { s with opened := i }) := by
  have state := refines.state
  obtain ⟨t, shown, mounted, current⟩ := refines.tree
  apply ChooserDef.expand_returns shown mounted.self.symm
  intro pending unchanged
  refine ⟨refines.self, ⟨state.grown, state.pointer, state.config, state.gopher, state.size, state.rand⟩,
    _, rfl, mounted.expanded unchanged, ?_⟩
  intro clear
  exact ⟨(current clear).output, (current clear).preview, (current clear).chooser⟩

/-- One call of the program is one step of the selection machine. -/
theorem exec_refines (rng : Rng) (refines : w.Refines base c refs slots o ch s)
    (populated : Populated slots) (call : Call String) (inRange : Selection.InRange slots.length call) :
    Returns (call.exec rng) w
      (fun _ w' => w'.Refines base c refs slots o ch (s.step rng (optionsOf slots) call)) := by
  have self := refines.self
  cases call with
  | updateGopher part val =>
    apply returns_get_bind
    rw [self]
    exact updateGopher_refines refines inRange val
  | resetGopher =>
    apply returns_get_bind
    rw [self]
    exact resetGopher_refines refines populated
  | randomGopher =>
    apply returns_get_bind
    rw [self]
    exact randomGopher_refines rng refines populated
  | expand i =>
    obtain ⟨t, shown, mounted, _⟩ := refines.tree
    apply returns_get_bind
    simp only [shown, mounted.self]
    exact expand_refines refines i

theorem componentWillMount_returns {h : Heap} (config : h.ConfigAt c refs slots)
    (populated : Populated slots) :
    Returns ((World.unmounted h).self.componentWillMount c) (World.unmounted h) (fun _ w =>
      w.self = ⟨0⟩ ∧ w.tree = none ∧ w.nextElem = 1 ∧
      w.state.Refines h c refs slots w.heap (Selection.start (optionsOf slots))) := by
  apply (returns_zoom (defaultGopher_returns config populated)).bind
  rintro g _ ⟨k, rfl, grown, gopher, _⟩
  refine Returns.bind (returns_zoom (returns_zoom (Table.alloc_returns _ _))) ?_
  rintro r _ ⟨_, rfl, t, rfl, _, _, found⟩
  apply OuterDef.setState_returns rfl
  intro pending _
  refine ⟨rfl, rfl, rfl, ?_⟩
  exact ⟨grown, rfl, config.mono grown, gopher, by simp, r, rfl, found⟩

/-- Mounting shows the default gopher with the first category open. -/
theorem mount_returns {h : Heap} (config : h.ConfigAt c refs slots) (populated : Populated slots) :
    Returns (mount c) (World.unmounted h) (fun _ w =>
      w.Refines h c refs slots ⟨0⟩ ⟨1⟩ (Selection.start (optionsOf slots)) ∧ w.Settled) := by
  apply returns_get_bind
  apply (componentWillMount_returns config populated).bind
  rintro _ w ⟨self, empty, next, state⟩
  apply returns_get_bind
  simp only [empty, next]
  apply returns_lift_bind (state.draw w.self ⟨1⟩ {})
  exact ⟨_, _, rfl, World.rendered_refines (w := { w with nextElem := 1 + 1 }) self state⟩

/-- Renders leave the selection alone, calls take its steps. -/
theorem step_refines (rng : Rng) (refines : w.Refines base c refs slots o ch s)
    (populated : Populated slots) (step : Step)
    (inRange : ∀ call ∈ callsOf [step], Selection.InRange slots.length call) :
    Returns (step.exec rng) w
      (fun _ w' => w'.Refines base c refs slots o ch (s.run rng (optionsOf slots) (callsOf [step]))) := by
  cases step with
  | call call => exact exec_refines rng refines populated call (inRange call (by simp [callsOf]))
  | render => exact flush_returns refines (World.rendered_refines refines.self refines.state).1

theorem steps_refine (rng : Rng) (refines : w.Refines base c refs slots o ch s)
    (populated : Populated slots) (steps : List Step)
    (inRange : ∀ call ∈ callsOf steps, Selection.InRange slots.length call) :
    Returns (steps.forM (Step.exec rng)) w
      (fun _ w' => w'.Refines base c refs slots o ch (s.run rng (optionsOf slots) (callsOf steps))) := by
  induction steps generalizing w s with
  | nil => exact returns_pure refines
  | cons step steps ih =>
    have split : callsOf (step :: steps) = callsOf [step] ++ callsOf steps :=
      List.filterMap_append (l := [step])
    rw [split] at inRange ⊢
    have now := step_refines rng refines populated step
      (fun call member => inRange call (List.mem_append_left _ member))
    apply now.bind
    intro _ w' reached
    rw [Selection.run, List.foldl_append]
    exact ih reached (fun call member => inRange call (List.mem_append_right _ member))

/-- Every run of the program is a run of the selection machine. -/
theorem runSteps_refines (rng : Rng) {h : Heap} (config : h.ConfigAt c refs slots)
    (populated : Populated slots) (steps : List Step)
    (inRange : ∀ call ∈ callsOf steps, Selection.InRange slots.length call) :
    Returns (runSteps rng c steps) (World.unmounted h) (fun _ w =>
      w.Refines h c refs slots ⟨0⟩ ⟨1⟩ (Selection.run rng (optionsOf slots)
        (Selection.start (optionsOf slots)) (callsOf steps))) := by
  apply (mount_returns config populated).bind
  rintro _ w ⟨mounted, _⟩
  exact steps_refine rng mounted populated steps inRange

end
end Gopherize
