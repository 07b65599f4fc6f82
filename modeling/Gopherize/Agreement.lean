import Gopherize.Clicks

/-! The chooser and the preview agree: the rendered page of every reachable state
marks exactly the parts that the picture is made of. -/
namespace Gopherize
open GoCore GoCore.Choice

/-- The labels of a panel, in the order of the page. -/
def PanelDef.labels (element : Element) : List Attrs := element.withTag .label

/-- The images of the parts that are not blank, in their order. -/
def layersOf (parts : List String) : List String :=
  (parts.filter (· ≠ "")).map fun p => Path.join ["artwork", p ++ ".png"]

/-- The small images of the options; the blank one has an image of its own. -/
def thumbnailsOf (options : List String) : List String :=
  options.map fun o =>
    if o = "" then "artwork/whitebox_thumbnail.png" else Path.join ["artwork", o ++ "_thumbnail.png"]

/-- The page shows the categories in config order with `opened` expanded, marks
one of its options, and draws the parts. -/
structure Tree.Agrees (slots : List Slot) (parts : List String) (opened : Nat) (t : Tree) : Prop where
  children : t.output.previews = [t.preview.props] ∧ t.output.choosers = [t.chooser.props] ∧
    t.chooser.output.output.panels = t.chooser.output.panels.map (·.props)
  headings : t.chooser.output.panels.map (·.output.texts) = slots.map (fun slot => [slot.name])
  opens : ∀ (i : Nat) (panel : Cached PanelProps Element), t.chooser.output.panels[i]? = some panel →
    panel.output.handlers.head? = some (.expandClick t.chooser.output.self i)
  within : opened < slots.length
  expanded : ∀ (i : Nat) (panel : Cached PanelProps Element),
    t.chooser.output.panels[i]? = some panel → (PanelDef.expanded panel.output = true ↔ i = opened)
  closed : ∀ (i : Nat) (panel : Cached PanelProps Element),
    t.chooser.output.panels[i]? = some panel → i ≠ opened → PanelDef.labels panel.output = []
  labels : ∀ (panel : Cached PanelProps Element) (slot : Slot),
    t.chooser.output.panels[opened]? = some panel → slots[opened]? = some slot →
    (PanelDef.labels panel.output).map (·.onClick) =
        slot.options.map (fun v => some (.chooseItemClick t.chooser.props.update opened v)) ∧
      panel.output.images = thumbnailsOf slot.options ∧
      ∃ k v, slot.options[k]? = some v ∧ parts[opened]? = some v ∧
        ∀ (j : Nat) (attrs : Attrs), (PanelDef.labels panel.output)[j]? = some attrs →
          (PanelDef.marked attrs = true ↔ j = k)
  picture : t.preview.output.images = layersOf parts
  clean : (∀ p ∈ parts, p ≠ "" → Path.CleanPath p.toList) →
    t.preview.output.images = (parts.filter (· ≠ "")).map fun p => "artwork/" ++ p ++ ".png"
  layers : ∀ (i : Nat) (part : String), parts[i]? = some part →
    t.preview.output.images =
        layersOf (parts.take i) ++ layersOf [part] ++ layersOf (parts.drop (i + 1)) ∧
      (layersOf [part] = [] ↔ part = "")

section
variable {refs : List (Ref Category)} {slots : List Slot} {parts : List String}

/-- Exactly the label of the chosen option is marked. -/
theorem marked_unique {options : List String} {j k : Nat} (props : PanelProps)
    (distinct : options.Nodup) (chosen : options[k]? = some props.selected)
    (found : (options.map (PanelDef.labelAttrs props))[j]? = some attrs) :
    PanelDef.marked attrs = true ↔ j = k := by
  rw [List.getElem?_map, Option.map_eq_some_iff] at found
  obtain ⟨v, inside, rfl⟩ := found
  rw [PanelDef.marked_iff]
  constructor
  · rintro rfl
    obtain ⟨kBound, kSame⟩ := List.getElem?_eq_some_iff.mp chosen
    obtain ⟨jBound, jSame⟩ := List.getElem?_eq_some_iff.mp inside
    exact (distinct.getElem_inj_iff).mp (jSame.trans kSame.symm)
  · rintro rfl
    exact Option.some.inj (inside.symm.trans chosen)

theorem layersOf_append (front back : List String) :
    layersOf (front ++ back) = layersOf front ++ layersOf back := by
  rw [layersOf, List.filter_append, List.map_append]
  rfl

/-- The picture is made part by part. -/
theorem layersOf_split {i : Nat} (found : parts[i]? = some part) :
    layersOf parts = layersOf (parts.take i) ++ layersOf [part] ++ layersOf (parts.drop (i + 1)) := by
  obtain ⟨bound, rfl⟩ := List.getElem?_eq_some_iff.mp found
  rw [← layersOf_append, ← layersOf_append, List.append_assoc, List.singleton_append,
    ← List.drop_eq_getElem_cons bound, List.take_append_drop]

theorem layersOf_eq_nil : layersOf [part] = [] ↔ part = "" := by
  simp [layersOf]

/-- The images that `PreviewDef.render` asks for. -/
theorem preview_images (parts : List String) :
    (PreviewDef.page ((PreviewDef.drawn parts).map PreviewDef.image)).images = layersOf parts :=
  PreviewDef.images_page _

/-- On clean paths nothing but the directory and the ending is added. -/
theorem layersOf_clean (clean : ∀ p ∈ parts, p ≠ "" → Path.CleanPath p.toList) :
    layersOf parts = (parts.filter (· ≠ "")).map fun p => "artwork/" ++ p ++ ".png" := by
  refine List.map_congr_left fun p member => ?_
  obtain ⟨inside, solid⟩ := List.mem_filter.mp member
  exact Path.join_dir (by decide) (by decide) (clean p inside (by simpa using solid)) (by decide)
    (by decide)

theorem labelSource_eq (o : String) : PanelDef.labelSource o =
    if o = "" then "artwork/whitebox_thumbnail.png" else Path.join ["artwork", o ++ "_thumbnail.png"] := by
  have blank : PanelDef.blank = "artwork/whitebox_thumbnail.png" := by decide
  rw [PanelDef.labelSource, blank]

/-- The panels are those that the page of the chooser asks for. -/
theorem ChooserBody.view_children (ch : ChooserDef) (st : ChooserState) (update : UpdateGopher)
    (sizes : refs.length = slots.length) (lengths : parts.length = slots.length) :
    (ChooserBody.view ch st update refs slots parts).output.panels =
      (ChooserBody.view ch st update refs slots parts).panels.map (·.props) := by
  have count : (ChooserDef.panelList ch st update refs parts).length ≤ slots.length := by
    rw [ChooserDef.panelList_length ch st update (lengths.trans sizes.symm), sizes]
  have zipped := List.map_fst_zip count
  rw [List.map_zip_eq_zipWith] at zipped
  simp only [ChooserBody.view, ChooserDef.panels_page, List.map_zipWith]
  exact zipped.symm

/-- One panel for each category, with its name as heading. -/
theorem ChooserBody.view_headings (ch : ChooserDef) (st : ChooserState) (update : UpdateGopher)
    (sizes : refs.length = slots.length) (lengths : parts.length = slots.length) :
    (ChooserBody.view ch st update refs slots parts).panels.map (·.output.texts) =
      slots.map (fun slot => [slot.name]) := by
  have count := ChooserBody.view_length ch st update sizes lengths
  apply List.ext_getElem
  · simpa using count
  · intro i inPanels _
    rw [List.length_map] at inPanels
    obtain ⟨ref, slot, selected, found, _, same⟩ :=
      ChooserBody.view_inv sizes lengths (List.getElem?_eq_getElem inPanels)
    obtain ⟨_, rfl⟩ := List.getElem?_eq_some_iff.mp found
    rw [List.getElem_map, List.getElem_map, same, PanelDef.texts_view]

/-- An open panel offers its options in order and marks the chosen one. -/
theorem PanelDef.view_labels (props : PanelProps) (isOpen : props.isOpen = true)
    (distinct : slot.options.Nodup) (chosen : props.selected ∈ slot.options) :
    (PanelDef.labels (PanelDef.view props slot)).map (·.onClick) =
        slot.options.map (fun v => some (.chooseItemClick props.update props.part v)) ∧
      (PanelDef.view props slot).images = thumbnailsOf slot.options ∧
      ∃ k : Nat, slot.options[k]? = some props.selected ∧
        ∀ (j : Nat) (attrs : Attrs), (PanelDef.labels (PanelDef.view props slot))[j]? = some attrs →
          (PanelDef.marked attrs = true ↔ j = k) := by
  obtain ⟨k, inside⟩ := List.getElem?_of_mem chosen
  rw [PanelDef.labels, PanelDef.labels_view, if_pos isOpen, PanelDef.images_view, if_pos isOpen]
  refine ⟨?_, List.map_congr_left fun o _ => labelSource_eq o, k, inside, ?_⟩
  · rw [List.map_map]
    rfl
  · intro j attrs shown
    exact marked_unique props distinct inside shown

theorem Tree.view_agrees (sizes : refs.length = slots.length)
    (chosen : Chosen (optionsOf slots) parts) (distinct : ∀ slot ∈ slots, slot.options.Nodup)
    {opened : Nat} (within : opened < slots.length) :
    (Tree.view o s ch ⟨opened⟩ refs slots parts).Agrees slots parts opened := by
  have lengths : parts.length = slots.length := by simpa using chosen.length_eq
  have panel {i : Nat} {panel : Cached PanelProps Element}
      (found : (Tree.view o s ch ⟨opened⟩ refs slots parts).chooser.output.panels[i]? = some panel) :=
    ChooserBody.view_inv sizes lengths found
  constructor
  case children => exact ⟨rfl, rfl, ChooserBody.view_children ch ⟨opened⟩ o sizes lengths⟩
  case headings => exact ChooserBody.view_headings ch ⟨opened⟩ o sizes lengths
  case opens =>
    intro i _ found
    obtain ⟨ref, slot, selected, _, _, rfl⟩ := panel found
    rw [PanelDef.handlers_view]
    rfl
  case within => exact within
  case expanded =>
    intro i _ found
    obtain ⟨ref, slot, selected, _, _, rfl⟩ := panel found
    simp only [PanelDef.expanded_view, ChooserDef.panelProps, decide_eq_true_eq, Int.natCast_inj]
    exact eq_comm
  case closed =>
    intro i _ found other
    obtain ⟨ref, slot, selected, _, _, rfl⟩ := panel found
    have shut : (opened : Int) ≠ i := by omega
    simp only [PanelDef.labels, PanelDef.labels_view, ChooserDef.panelProps, shut, decide_false]
    rfl
  case labels =>
    intro _ slot found offered
    obtain ⟨ref, other, selected, same, part, rfl⟩ := panel found
    obtain rfl : slot = other := Option.some.inj (offered.symm.trans same)
    have options : (optionsOf slots)[opened]? = some slot.options := by simp [offered]
    obtain ⟨v, member, present⟩ := chosen.getElem? options
    obtain rfl : v = selected := Option.some.inj (present.symm.trans part)
    obtain ⟨clicks, images, k, inside, unique⟩ := PanelDef.view_labels
      (ChooserDef.panelProps ch ⟨opened⟩ o opened ref v) (decide_eq_true rfl)
      (distinct slot (List.mem_of_getElem? offered)) member
    exact ⟨clicks, images, k, v, inside, present, unique⟩
  case picture => exact preview_images parts
  case clean =>
    intro clean
    exact (preview_images parts).trans (layersOf_clean clean)
  case layers =>
    intro i part found
    exact ⟨(preview_images parts).trans (layersOf_split found), layersOf_eq_nil⟩

end
/-- In every reachable state the rendered page agrees with the current parts;
`hackConfig` satisfies the conditions. -/
theorem page_agrees (rng : Rng) {h : Heap} (config : h.ConfigAt c refs slots)
    (formed : Selection.WellFormed (optionsOf slots))
    (distinct : ∀ slot ∈ slots, slot.options.Nodup) (reachable : Reachable rng c h w seen) :
    Returns flush w (fun _ w' => w'.state = w.state ∧ w'.heap = w.heap ∧ (w.Settled → w' = w) ∧
      ∃ (t : Tree) (parts : List String) (opened : Nat), w'.tree = some t ∧
        w.opened = some (opened : Int) ∧ w.heap.partsOf w.state.current = .ok parts ∧
        t.Agrees slots parts opened) ∧
    Selection.WellFormed (optionsOf hackCategories) ∧
    ∀ slot ∈ hackCategories, slot.options.Nodup := by
  refine ⟨?_, hackCategories_wellFormed, by simpa using hackCategories_nodup⟩
  obtain ⟨s, reached⟩ := reachable.reached config formed
  have refines := reached.refines
  obtain ⟨low, high⟩ := reached.valid.opened
  rw [List.length_map] at high
  obtain ⟨opened, same⟩ := Int.eq_ofNat_of_zero_le low
  have agrees : (Tree.view w.self w.state ⟨1⟩ ⟨opened⟩ refs slots s.parts).Agrees slots s.parts opened :=
    Tree.view_agrees refines.state.config.length reached.valid.chosen distinct (by omega)
  apply flush_returns refines
  refine ⟨rfl, rfl, refines.settled, _, s.parts, opened, rfl, ?_, refines.state.gopher.partsOf, ?_⟩
  · rw [refines.open_eq, same]
  · rw [same]
    exact agrees

/-- The page of `hackConfig` after mounting. -/
theorem hackConfig_page_agrees : Returns (newConfig hackCategories) Heap.empty (fun c h =>
    Returns (mount c) (World.unmounted h) (fun _ w => Returns flush w (fun _ w' =>
      ∃ (t : Tree) (parts : List String) (opened : Nat), w'.tree = some t ∧
        t.Agrees hackCategories parts opened))) := by
  apply hackConfig_returns.mono
  rintro c h ⟨refs, config⟩
  have formed := hackCategories_wellFormed
  obtain ⟨_, w, ran, _⟩ := mount_reached config formed
  refine ⟨(), w, ran, ?_⟩
  have agrees := page_agrees (Rng.replay 0 []) config formed (by simpa using hackCategories_nodup)
    (.mounted ran)
  apply agrees.1.mono
  rintro _ _ ⟨_, _, _, t, parts, opened, shown, _, _, agrees⟩
  exact ⟨t, parts, opened, shown, agrees⟩

end Gopherize
