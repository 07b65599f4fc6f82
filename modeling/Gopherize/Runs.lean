import Gopherize.HackConfig
import Gopherize.Refinement

/-! Whole runs of calls and renders in any order: the screen is never stale, and
the final state has a closed form that loses no update. -/
namespace Gopherize
open GoCore GoCore.Choice

/-- The mounted tree is what drawing everything from nothing gives for the
present state of the components. -/
def World.Fresh (w : World) : Prop :=
  ∃ t, w.tree = some t ∧
    Tree.draw w.self w.state t.chooser.output.self t.chooser.output.state w.heap = .ok t

/-- The steps of a program in which every call is followed by its re-render. -/
def eager (calls : List (Call String)) : List Step :=
  calls.flatMap (fun call => [.call call, .render])

section
variable {base : Heap} {c : Ref Config} {refs : List (Ref Category)} {slots : List Slot} {o : OuterDef}
  {ch : ChooserDef} {w : World} {s : Selection String}

theorem World.Refines.fresh (refines : w.Refines base c refs slots o ch s) (settled : w.Settled) :
    w.Fresh := by
  obtain ⟨t, shown, mounted, current⟩ := refines.tree
  have drawn := mounted.draw_eq (current settled.1) (settled.2 t shown)
  rw [← refines.self, ← mounted.self, ← mounted.state] at drawn
  exact ⟨t, shown, drawn⟩

theorem flush_fresh (refines : w.Refines base c refs slots o ch s) :
    Returns flush w (fun _ w' => w'.Refines base c refs slots o ch s ∧ w'.Settled ∧ w'.Fresh) := by
  obtain ⟨rendered, settled⟩ : (w.rendered refs slots ch s).Refines base c refs slots o ch s ∧
      (w.rendered refs slots ch s).Settled := World.rendered_refines refines.self refines.state
  exact flush_returns refines ⟨rendered, settled, rendered.fresh settled⟩

/-- With a render after every call, nothing is ever left to be rendered. -/
theorem eager_settled (rng : Rng) (refines : w.Refines base c refs slots o ch s) (start : w.Settled)
    (populated : Populated slots)
    (calls : List (Call String))
    (inRange : ∀ call ∈ calls, Selection.InRange slots.length call) :
    Returns ((eager calls).forM (Step.exec rng)) w (fun _ w' => w'.Settled ∧ w'.Fresh) := by
  induction calls generalizing w s with
  | nil => exact returns_pure ⟨start, refines.fresh start⟩
  | cons call calls ih =>
    apply (exec_refines rng refines populated call (inRange call List.mem_cons_self)).bind
    intro _ mid called
    apply (flush_fresh called).bind
    rintro _ w' ⟨rendered, settled, _⟩
    exact ih rendered settled (fun call member => inRange call (List.mem_cons_of_mem _ member))

end

/-- Pruned re-rendering never shows a stale view. Wherever the renders fall, a
world that waits for none shows exactly its state, the next render gets there from
anywhere, and with a render after every call the view is never behind. -/
theorem view_never_stale (rng : Rng) {h : Heap} (config : h.ConfigAt c refs slots)
    (populated : Populated slots) (steps : List Step)
    (inRange : ∀ call ∈ callsOf steps, Selection.InRange slots.length call) :
    Returns (runSteps rng c steps) (World.unmounted h) (fun _ w =>
      (w.Settled → w.Fresh) ∧
      Returns flush w (fun _ w' => w'.Settled ∧ w'.Fresh ∧
        w'.heap = w.heap ∧ w'.state = w.state ∧ w'.opened = w.opened)) ∧
    Returns (runSteps rng c (eager (callsOf steps))) (World.unmounted h)
      (fun _ w => w.Settled ∧ w.Fresh) := by
  constructor
  · apply (runSteps_refines rng config populated steps inRange).mono
    intro _ w refines
    refine ⟨refines.fresh, ?_⟩
    obtain ⟨rendered, settled⟩ := World.rendered_refines refines.self refines.state
    exact flush_returns refines ⟨settled, rendered.fresh settled, rfl, rfl,
      rendered.open_eq.trans refines.open_eq.symm⟩
  · apply (mount_returns config populated).bind
    rintro _ w ⟨refines, settled⟩
    exact eager_settled rng refines settled populated (callsOf steps) inRange

/-- A run of `hackConfig` that updates, opens a panel and shuffles. -/
theorem hackConfig_view_fresh : Returns (newConfig hackCategories) Heap.empty (fun c h =>
    ∀ rng : Rng, Returns (runSteps rng c (eager [.updateGopher 2 "", .expand 5, .randomGopher]))
      (World.unmounted h) (fun _ w => w.Settled ∧ w.Fresh)) := by
  apply hackConfig_returns.mono
  rintro c h ⟨refs, config⟩ rng
  exact (view_never_stale rng config (populated_of_wellFormed hackCategories_wellFormed)
    [.call (.updateGopher 2 ""), .call (.expand 5), .call .randomGopher] (by decide)).2

/-- Nothing is written after it has been published: a pointer that stands for a
gopher at some point of a run stands for it ever after. -/
theorem gophers_immutable (rng : Rng) {h : Heap} (config : h.ConfigAt c refs slots)
    (populated : Populated slots) (earlier later : List Step)
    (before : ∀ call ∈ callsOf earlier, Selection.InRange slots.length call)
    (after : ∀ call ∈ callsOf later, Selection.InRange slots.length call) :
    Returns (runSteps rng c earlier) (World.unmounted h) (fun _ w =>
      Returns (later.forM (Step.exec rng)) w (fun _ w' =>
        ∀ g parts, w.heap.GopherAt g parts → w'.heap.GopherAt g parts)) := by
  apply (runSteps_refines rng config populated earlier before).mono
  intro _ w refines
  apply (steps_refine rng refines.rebase populated later after).mono
  intro _ w' reached g parts published
  exact published.mono reached.state.grown

/-- When the renders happen makes no difference to the state. -/
theorem renders_irrelevant (rng : Rng) {h : Heap} (config : h.ConfigAt c refs slots)
    (populated : Populated slots) (first second : List Step) (same : callsOf first = callsOf second)
    (inRange : ∀ call ∈ callsOf first, Selection.InRange slots.length call) :
    Returns (runSteps rng c first) (World.unmounted h) (fun _ w =>
      Returns (runSteps rng c second) (World.unmounted h) (fun _ w' =>
        w.heap.partsOf w.state.current = w'.heap.partsOf w'.state.current ∧ w.opened = w'.opened)) := by
  apply (runSteps_refines rng config populated first inRange).mono
  intro _ w refines
  apply (runSteps_refines rng config populated second (same ▸ inRange)).mono
  intro _ w' refines'
  rw [← same] at refines'
  constructor
  · rw [refines.state.gopher.partsOf, refines'.state.gopher.partsOf]
  · rw [refines.open_eq, refines'.open_eq]

/-- No update is lost: the final parts are what the last calls that decided them
set, each shuffle takes the next draws in category order, the last opened
category is open, and the config stays what it was. -/
theorem run_closed_form (rng : Rng) {h : Heap} (config : h.ConfigAt c refs slots)
    (populated : Populated slots) (steps : List Step)
    (inRange : ∀ call ∈ callsOf steps, Selection.InRange slots.length call) :
    Returns (runSteps rng c steps) (World.unmounted h) (fun _ w =>
      (∃ parts, w.heap.partsOf w.state.current = .ok parts ∧ parts.length = slots.length ∧
        ∀ i v, i < slots.length →
          (Selection.Origin rng (optionsOf slots) i (callsOf steps) v ↔ v = parts[i]?)) ∧
      ((∀ i, .expand i ∉ callsOf steps) ∧ w.opened = some 0 ∨
        ∃ earlier i later, callsOf steps = earlier ++ .expand i :: later ∧
          (∀ j, .expand j ∉ later) ∧ w.opened = some i) ∧
      (∃ r, w.state.rand = some r ∧ w.heap.rands.read r = some ⟨Selection.drawsBefore
        (optionsOf slots) (Selection.shuffles (callsOf steps)) 0⟩) ∧
      w.state.config = c) ∧
    ∀ k i, i ≤ slots.length →
      (Selection.drawsBefore (optionsOf slots) k i).length = k * slots.length + i := by
  constructor
  · apply (runSteps_refines rng config populated steps inRange).mono
    intro _ w refines
    have each : ∀ values ∈ optionsOf slots, values ≠ [] := by simpa using populated.nonempty
    have opened := Selection.run_opened rng (optionsOf slots) (callsOf steps)
      (Selection.start (optionsOf slots))
    refine ⟨⟨_, refines.state.gopher.partsOf, refines.state.size, ?_⟩, ?_, ?_, refines.state.pointer⟩
    · intro i v within
      exact Selection.run_origin rng each (callsOf steps) (by simpa using within) v
    · rw [refines.open_eq]
      rcases opened with ⟨none, same⟩ | ⟨earlier, i, later, split, last, same⟩
      · exact Or.inl ⟨none, congrArg some same⟩
      · exact Or.inr ⟨earlier, i, later, split, last, congrArg some same⟩
    · obtain ⟨r, rand, found⟩ := refines.state.rand
      rw [Selection.run_calls, List.nil_append] at found
      exact ⟨r, rand, by simpa [Selection.drawsBefore] using found⟩
  · intro k i within
    simpa using Selection.drawsBefore_length (optionsOf slots) k (by simpa using within)

/-- A run of `hackConfig` with an update before and after a shuffle. -/
theorem hackConfig_closed_form : Returns (newConfig hackCategories) Heap.empty (fun c h =>
    ∀ rng : Rng, Returns (runSteps rng c
        [.call (.updateGopher 2 ""), .call .randomGopher, .render, .call (.updateGopher 0 "")])
      (World.unmounted h) (fun _ w => ∃ parts, w.heap.partsOf w.state.current = .ok parts ∧
        parts.length = 8 ∧ ∀ i v, i < 8 → (Selection.Origin rng (optionsOf hackCategories) i
          [.updateGopher 2 "", .randomGopher, .updateGopher 0 ""] v ↔ v = parts[i]?))) := by
  apply hackConfig_returns.mono
  rintro c h ⟨refs, config⟩ rng
  have closed := run_closed_form rng config (populated_of_wellFormed hackCategories_wellFormed)
    [.call (.updateGopher 2 ""), .call .randomGopher, .render, .call (.updateGopher 0 "")] (by decide)
  exact closed.1.mono (fun _ _ facts => facts.1)

/-- A shuffle draws once for each category, in category order and within the
number of its options, and from any state, whatever gopher was current, leads to
the options drawn. So it reaches every combination by exactly one draw vector. -/
theorem randomGopher_bijective {slots : List Slot} (nonempty : ∀ slot ∈ slots, slot.options ≠ [])
    (distinct : ∀ slot ∈ slots, slot.options.Nodup) :
    Set.BijOn (pick (optionsOf slots)) {draws | Numbers (optionsOf slots) draws}
      {parts | Chosen (optionsOf slots) parts} ∧
    ∀ (w : World) (refs : List (Ref Category)) (r : Ptr Rand) (calls : List Nat),
      w.heap.ConfigAt w.state.config refs slots → w.state.rand = some r →
      w.heap.rands.read r = some ⟨calls⟩ →
      (∀ rng : Rng, Returns (w.self.randomGopher rng) w (fun _ w' =>
        w'.heap.rands.read r = some ⟨calls ++ slots.map (·.options.length)⟩ ∧
        w'.heap.partsOf w'.state.current =
          .ok (pick (optionsOf slots) (rng.draws calls (slots.map (·.options.length)))) ∧
        w'.state = { w.state with current := w'.state.current })) ∧
      Set.range (fun rng : Rng => rng.draws calls (slots.map (·.options.length))) =
        {draws | Numbers (optionsOf slots) draws} := by
  have sizes : Selection.sizes (optionsOf slots) = slots.map (·.options.length) := by simp
  refine ⟨pick_bijOn (by simpa using distinct), ?_⟩
  intro w refs r calls config rand found
  rw [← sizes]
  constructor
  · intro rng
    have built := shuffledGopher_returns rng config nonempty found
    rw [← rand] at built
    apply returns_run_bind (OuterDef.state_run rfl)
    apply (setCurrent_returns built).mono
    rintro _ _ ⟨g, k, pending, ⟨_, gopher, drawn⟩, _, rfl⟩
    exact ⟨drawn, gopher.partsOf, rfl⟩
  · apply Set.Subset.antisymm
    · rintro _ ⟨rng, rfl⟩
      exact rng.draws_lt calls (Selection.sizes_pos (by simpa using nonempty))
    · intro draws numbers
      exact ⟨Rng.replay calls.length draws, Rng.draws_replay calls numbers⟩

/-- The first shuffle of `hackConfig`. -/
theorem hackConfig_first_shuffle : Returns (newConfig hackCategories) Heap.empty (fun c h =>
    Returns (mount c) (World.unmounted h) (fun _ w => ∀ rng : Rng,
      Returns (w.self.randomGopher rng) w (fun _ w' => w'.heap.partsOf w'.state.current =
        .ok (pick (optionsOf hackCategories) (rng.draws [] [6, 9, 54, 54, 37, 22, 29, 24]))))) := by
  apply hackConfig_returns.mono
  rintro c h ⟨refs, config⟩
  have formed := hackCategories_wellFormed
  apply (mount_returns config (populated_of_wellFormed formed)).mono
  rintro _ w ⟨refines, _⟩ rng
  obtain ⟨r, rand, found⟩ := refines.state.rand
  have shuffled := (randomGopher_bijective (populated_of_wellFormed formed).nonempty
    (by simpa using hackCategories_nodup)).2 w refs r [] refines.state.config rand found
  exact (shuffled.1 rng).mono (fun _ _ facts => facts.2.1)

end Gopherize
