import Gopherize.Clicks
import Mathlib.Logic.Relation

/-! The pictures that the page can show are the combinations of options, one
picture each: every combination can be clicked together on the page, and a picture
determines the parts although it does not show the blank ones. -/
namespace Gopherize
open GoCore GoCore.Choice

/-- A config whose pictures tell which options were chosen. -/
structure Telling (slots : List Slot) : Prop where
  formed : Selection.WellFormed (optionsOf slots)
  distinct : ∀ slot ∈ slots, slot.options.Nodup
  apart : Apart "" (optionsOf slots)
  clean : ∀ slot ∈ slots, ∀ v ∈ slot.options, v ≠ "" → Path.CleanPath v.toList

theorem hackCategories_telling : Telling hackCategories where
  formed := hackCategories_wellFormed
  distinct := by simpa using hackCategories_nodup
  apart := hackCategories_apart
  clean := by simpa using hackCategories_cleanPath

/-- The sources of the images that the previews on the page render for the state. -/
def World.picture (w : World) : Except Panic (List String) := do
  let previews ← (w.self.render w.state).previews.mapM (PreviewDef.render · w.heap)
  pure (previews.flatMap Element.images)

section Pictures
variable {slots : List Slot} {parts others : List String}

theorem source_eq (clean : Path.CleanPath p.toList) :
    PreviewDef.source p = "artwork" ++ "/" ++ p ++ ".png" :=
  Path.join_dir (by decide) (by decide) clean (by decide) (by decide)

theorem Telling.drawn_clean (telling : Telling slots) (chosen : Chosen (optionsOf slots) parts) :
    ∀ p ∈ PreviewDef.drawn parts, Path.CleanPath p.toList := by
  intro p member
  obtain ⟨inside, solid⟩ := List.mem_filter.mp member
  obtain ⟨values, found, offered⟩ := chosen.mem_option inside
  obtain ⟨slot, present, rfl⟩ := List.mem_map.mp found
  exact telling.clean slot present p offered (by simpa using solid)

/-- Equal pictures come from equal parts. -/
theorem Telling.picture_injective (telling : Telling slots) (first : Chosen (optionsOf slots) parts)
    (second : Chosen (optionsOf slots) others)
    (same : (PreviewDef.drawn parts).map PreviewDef.source =
      (PreviewDef.drawn others).map PreviewDef.source) : parts = others := by
  have plain {ps : List String} (clean : ∀ p ∈ ps, Path.CleanPath p.toList) :
      ps.map PreviewDef.source = ps.map (fun p => "artwork" ++ "/" ++ p ++ ".png") :=
    List.map_congr_left (fun p member => source_eq (clean p member))
  have injective : Function.Injective (fun p : String => "artwork" ++ "/" ++ p ++ ".png") := by
    intro p q equal
    have chars := congrArg String.toList equal
    simpa [String.toList_append, String.toList_inj] using chars
  rw [plain (telling.drawn_clean first), plain (telling.drawn_clean second)] at same
  exact filter_injective telling.apart first second (List.map_injective_iff.mpr injective same)

theorem Reached.picture_eq {w : World} (reached : Reached base c refs slots w seen s) :
    w.picture = .ok ((PreviewDef.drawn s.parts).map PreviewDef.source) := by
  have previews : (w.self.render w.state).previews = [OuterDef.previewProps w.state] := rfl
  simp only [World.picture, previews, List.mapM_cons, List.mapM_nil, OuterDef.previewProps,
    PreviewDef.render_eq reached.refines.state.gopher, ok_bind, pure_eq_ok, List.flatMap_cons,
    List.flatMap_nil, List.append_nil, PreviewDef.images_page]

theorem Reached.shown {w : World} (reached : Reached base c refs slots w seen s) (settled : w.Settled) :
    ∃ t, w.tree = some t ∧
      t.preview.output.images = (PreviewDef.drawn s.parts).map PreviewDef.source := by
  rw [← reached.refines.settled settled]
  exact ⟨_, rfl, PreviewDef.images_page _⟩

end Pictures
/-- A heading or a label of a panel. -/
def Handler.OnPanel : Handler → Prop
  | .expandClick _ _ => True
  | .chooseItemClick _ _ _ => True
  | _ => False

/-- One click on a heading or label that is on the page, and the render after it. -/
def Pressed (rng : Rng) (w w' : World) : Prop :=
  ∃ handler mid, handler ∈ w.handlers ∧ handler.OnPanel ∧
    (handler.onClick rng).run w = .ok ((), mid) ∧ flush.run mid = .ok ((), w')

/-- A reachable page with everything rendered, showing the selection `s`. -/
structure OnPage (rng : Rng) (c : Ref Config) (h : Heap) (refs : List (Ref Category))
    (slots : List Slot) (w : World) (s : Selection String) : Prop where
  settled : w.Settled
  reached : ∃ seen, Reachable rng c h w seen ∧ Reached h c refs slots w seen s ∧ w.handlers ⊆ seen

section Paths
variable {rng : Rng} {c : Ref Config} {h : Heap} {refs : List (Ref Category)} {slots : List Slot}
  {w : World} {s : Selection String}

theorem flush_onPage (reachable : Reachable rng c h w seen)
    (reached : Reached h c refs slots w seen s) :
    Returns flush w (fun _ w' => OnPage rng c h refs slots w' s) := by
  obtain ⟨_, w', ran, settled, _, after⟩ := flush_reached reached
  refine ⟨(), w', ran, settled, _, .rendered reachable ran, after, ?_⟩
  exact List.subset_append_right _ _

theorem mount_onPage (rng : Rng) (config : h.ConfigAt c refs slots)
    (formed : Selection.WellFormed (optionsOf slots)) :
    Returns (mount c) (World.unmounted h)
      (fun _ w => OnPage rng c h refs slots w (Selection.start (optionsOf slots))) := by
  obtain ⟨_, w, ran, settled, reached⟩ := mount_reached config formed
  exact ⟨(), w, ran, settled, _, .mounted ran, reached, List.Subset.refl _⟩

theorem press (formed : Selection.WellFormed (optionsOf slots)) (page : OnPage rng c h refs slots w s)
    (shown : Shown ⟨0⟩ ⟨1⟩ ⟨s.opened⟩ slots handler) (onPanel : handler.OnPanel) :
    ∃ w', Pressed rng w w' ∧
      OnPage rng c h refs slots w' (s.run rng (optionsOf slots) handler.calls) := by
  obtain ⟨settled, seen, reachable, reached, present⟩ := page
  have member := (reached.refines.mem_handlers settled).mpr shown
  obtain ⟨_, mid, clicked, next⟩ := onClick_reached rng formed reached (present member)
  obtain ⟨_, w', rendered, after⟩ := flush_onPage (.clicked reachable (present member) clicked) next
  exact ⟨w', ⟨handler, mid, member, onPanel, clicked, rendered⟩, after⟩

/-- Any option of any category is two clicks away: its heading, then its label. -/
theorem press_option (formed : Selection.WellFormed (optionsOf slots))
    (page : OnPage rng c h refs slots w s) {i : Nat} (found : slots[i]? = some slot)
    (offered : v ∈ slot.options) :
    ∃ w', Relation.ReflTransGen (Pressed rng) w w' ∧
      OnPage rng c h refs slots w' { s with parts := s.parts.set i v, opened := i } := by
  have within := (List.getElem?_eq_some_iff.mp found).1
  obtain ⟨mid, first, opened⟩ := press formed page (.heading within) trivial
  obtain ⟨w', second, chosen⟩ := press formed opened (.label found rfl offered) trivial
  exact ⟨w', .tail (.single first) second, chosen⟩

/-- Going through the categories one by one, the parts become the wanted ones. -/
theorem press_options (formed : Selection.WellFormed (optionsOf slots))
    (page : OnPage rng c h refs slots w s) (size : s.parts.length = slots.length)
    (chosen : Chosen (optionsOf slots) wanted) (n : Nat) (within : n ≤ slots.length) :
    ∃ w' s', Relation.ReflTransGen (Pressed rng) w w' ∧ OnPage rng c h refs slots w' s' ∧
      s'.parts = wanted.take n ++ s.parts.drop n := by
  induction n with
  | zero => exact ⟨w, s, .refl, page, by simp⟩
  | succ n ih =>
    obtain ⟨mid, s', path, reached, soFar⟩ := ih (by omega)
    have found := List.getElem?_eq_getElem within
    have options : (optionsOf slots)[n]? = some slots[n].options := by simp [found]
    obtain ⟨v, offered, present⟩ := chosen.getElem? options
    obtain ⟨w', last, after⟩ := press_option formed reached found offered
    refine ⟨w', _, path.trans last, after, ?_⟩
    rw [soFar]
    exact set_take_append_drop present (size ▸ within)

/-- Every combination can be clicked together on the page. -/
theorem press_combination (formed : Selection.WellFormed (optionsOf slots))
    (page : OnPage rng c h refs slots w s) (chosen : Chosen (optionsOf slots) wanted) :
    ∃ w' s', Relation.ReflTransGen (Pressed rng) w w' ∧ OnPage rng c h refs slots w' s' ∧
      s'.parts = wanted := by
  obtain ⟨seen, _, reached, _⟩ := page.reached
  have size := reached.refines.state.size
  have length : wanted.length = slots.length := by simpa using chosen.length_eq
  obtain ⟨w', s', path, after, parts⟩ := press_options formed page size chosen slots.length le_rfl
  refine ⟨w', s', path, after, ?_⟩
  rw [parts, ← length, List.take_length, length, ← size, List.drop_length, List.append_nil]

end Paths

/-- The pictures on the screen of the reachable pages. -/
def pictures (rng : Rng) (c : Ref Config) (h : Heap) : Set (List String) :=
  {sources | ∃ w seen t, Reachable rng c h w seen ∧ w.Settled ∧ w.tree = some t ∧
    t.preview.output.images = sources}

/-- The pictures are those of the combinations. -/
theorem pictures_eq (rng : Rng) {h : Heap} (config : h.ConfigAt c refs slots)
    (formed : Selection.WellFormed (optionsOf slots)) :
    pictures rng c h = (fun parts => (PreviewDef.drawn parts).map PreviewDef.source) ''
      {parts | Chosen (optionsOf slots) parts} := by
  apply Set.Subset.antisymm
  · rintro _ ⟨w, seen, t, reachable, settled, shown, rfl⟩
    obtain ⟨s, reached⟩ := reachable.reached config formed
    obtain ⟨t', shown', drawn⟩ := reached.shown settled
    obtain rfl : t = t' := Option.some.inj (shown.symm.trans shown')
    exact ⟨s.parts, reached.valid.chosen, drawn.symm⟩
  · rintro _ ⟨wanted, chosen, rfl⟩
    obtain ⟨_, w, _, page⟩ := mount_onPage rng config formed
    obtain ⟨w', s', _, ⟨settled, seen, reachable, reached, _⟩, rfl⟩ :=
      press_combination formed page chosen
    obtain ⟨t, shown, drawn⟩ := reached.shown settled
    exact ⟨w', seen, t, reachable, settled, shown, drawn⟩

/-- The pictures are the combinations, one picture each. From every reachable
state, clicks on what is on the page lead to any combination; states with the
same picture have the same parts; so there are as many pictures as combinations. -/
theorem pictures_are_combinations (rng : Rng) {h : Heap} (config : h.ConfigAt c refs slots)
    (telling : Telling slots) :
    (∀ w seen wanted, Reachable rng c h w seen → Chosen (optionsOf slots) wanted →
      Returns flush w (fun _ page => (w.Settled → page = w) ∧
        ∃ w' seen', Relation.ReflTransGen (Pressed rng) page w' ∧ Reachable rng c h w' seen' ∧
          w'.heap.partsOf w'.state.current = .ok wanted)) ∧
    (∀ w seen rng' w' seen', Reachable rng c h w seen → Reachable rng' c h w' seen' →
      w.picture = w'.picture →
      w.heap.partsOf w.state.current = w'.heap.partsOf w'.state.current) ∧
    (pictures rng c h).ncard = (slots.map (·.options.length)).prod ∧
    Telling hackCategories ∧ (hackCategories.map (·.options.length)).prod = 89210284416 := by
  refine ⟨?_, ?_, ?_, hackCategories_telling, by decide⟩
  · intro w seen wanted reachable chosen
    obtain ⟨s, reached⟩ := reachable.reached config telling.formed
    obtain ⟨_, page, ran, onPage⟩ := flush_onPage reachable reached
    obtain ⟨w', s', path, ⟨_, seen', after, result, _⟩, rfl⟩ :=
      press_combination telling.formed onPage chosen
    refine ⟨(), page, ran, ?_, w', seen', path, after, result.refines.state.gopher.partsOf⟩
    intro settled
    have same := ((flush_reached reached).outcome ran).2.1
    rw [same, reached.refines.settled settled]
  · intro w seen rng' w' seen' first second same
    obtain ⟨s, reached⟩ := first.reached config telling.formed
    obtain ⟨s', reached'⟩ := second.reached config telling.formed
    rw [reached.picture_eq, reached'.picture_eq] at same
    have parts := telling.picture_injective reached.valid.chosen reached'.valid.chosen
      (Except.ok.inj same)
    rw [reached.refines.state.gopher.partsOf, reached'.refines.state.gopher.partsOf, parts]
  · have counted : {parts | Chosen (optionsOf slots) parts}.ncard = _ :=
      chosen_ncard (by simpa using telling.distinct)
    have injective : Set.InjOn (fun parts => (PreviewDef.drawn parts).map PreviewDef.source)
        {parts | Chosen (optionsOf slots) parts} :=
      fun _ first _ second same => telling.picture_injective first second same
    rw [pictures_eq rng config telling.formed, injective.ncard_image, counted, List.map_map]
    rfl

/-- The number of pictures of the program. -/
theorem hackConfig_pictures : Returns (newConfig hackCategories) Heap.empty (fun c h =>
    ∀ rng, (pictures rng c h).ncard = 89210284416) := by
  apply hackConfig_returns.mono
  rintro c h ⟨refs, config⟩ rng
  obtain ⟨_, _, counted, _, product⟩ := pictures_are_combinations rng config hackCategories_telling
  rw [counted, product]

end Gopherize
