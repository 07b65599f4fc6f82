import Gopherize.Runtime

/-! The view of a state in closed form. Drawing succeeds as soon as the current
gopher has one part for each category, and gives exactly this view. -/
namespace Gopherize
open GoCore

/-- The chooser over the categories `slots`, which are stored at `refs`. -/
def ChooserBody.view (ch : ChooserDef) (st : ChooserState) (update : UpdateGopher)
    (refs : List (Ref Category)) (slots : List Slot) (parts : List String) : ChooserBody :=
  let list := ChooserDef.panelList ch st update refs parts
  { self := ch
    state := st
    pending := false
    output := ChooserDef.page ch (list.map .panel) footerView
    panels := List.zipWith (fun props slot => ⟨props, PanelDef.view props slot⟩) list slots }

def Tree.view (o : OuterDef) (s : OuterState) (ch : ChooserDef) (st : ChooserState)
    (refs : List (Ref Category)) (slots : List Slot) (parts : List String) : Tree :=
  { output := o.render s
    preview := ⟨OuterDef.previewProps s,
      PreviewDef.page ((PreviewDef.drawn parts).map PreviewDef.image)⟩
    chooser := ⟨o.chooserProps s, ChooserBody.view ch st o refs slots parts⟩ }

section
variable {h : Heap} {refs : List (Ref Category)} {slots : List Slot} {parts : List String}

theorem ChooserBody.view_panel (ch : ChooserDef) (st : ChooserState) (update : UpdateGopher) {i : Nat}
    (category : refs[i]? = some ref) (slot : slots[i]? = some offered)
    (part : parts[i]? = some selected) :
    (ChooserBody.view ch st update refs slots parts).panels[i]? =
      some ⟨ChooserDef.panelProps ch st update i ref selected,
        PanelDef.view (ChooserDef.panelProps ch st update i ref selected) offered⟩ := by
  simp only [ChooserBody.view, List.getElem?_zipWith, slot,
    ChooserDef.panelList_getElem? ch st update category part]

theorem ChooserBody.view_length (ch : ChooserDef) (st : ChooserState) (update : UpdateGopher)
    (sizes : refs.length = slots.length) (lengths : parts.length = slots.length) :
    (ChooserBody.view ch st update refs slots parts).panels.length = slots.length := by
  simp [ChooserBody.view, ChooserDef.panelList, sizes, lengths]

theorem ChooserBody.draw_eq (config : h.ConfigAt props.config refs slots)
    (gopher : h.GopherAt props.current parts) (lengths : parts.length = slots.length) :
    ChooserBody.draw ch st h props =
      .ok (ChooserBody.view ch st props.update refs slots parts) := by
  have sizes := config.length
  have matching := lengths.trans sizes.symm
  have drawn : (ChooserDef.panelList ch st props.update refs parts).mapM
        (Cached.draw (PanelDef.render · h)) =
      .ok (ChooserBody.view ch st props.update refs slots parts).panels := by
    rw [mapM_eq_ok, List.forall₂_iff_get]
    constructor
    · rw [ChooserDef.panelList_length _ _ _ matching, ChooserBody.view_length _ _ _ sizes lengths, sizes]
    · intro i inList inPanels
      rw [ChooserDef.panelList_length _ _ _ matching] at inList
      rw [ChooserBody.view_length _ _ _ sizes lengths] at inPanels
      have ref := List.getElem?_eq_getElem inList
      have slot := List.getElem?_eq_getElem inPanels
      have part := List.getElem?_eq_getElem (lengths ▸ inPanels)
      have category := config.2.get inList inPanels
      obtain ⟨_, given⟩ := List.getElem?_eq_some_iff.mp
        (ChooserDef.panelList_getElem? ch st props.update ref part)
      obtain ⟨_, shown⟩ := List.getElem?_eq_some_iff.mp
        (ChooserBody.view_panel ch st props.update ref slot part)
      rw [List.get_eq_getElem, List.get_eq_getElem, given, shown, Cached.draw_eq_ok]
      exact ⟨rfl, PanelDef.render_eq category⟩
  simp only [draw, ChooserDef.render_eq config gopher matching, ok_bind,
    ChooserDef.panels_page, drawn]
  rfl

theorem Tree.draw_eq (config : h.ConfigAt s.config refs slots) (gopher : h.GopherAt s.current parts)
    (lengths : parts.length = slots.length) :
    Tree.draw o s ch st h = .ok (Tree.view o s ch st refs slots parts) := by
  have preview : Cached.draw (PreviewDef.render · h) (OuterDef.previewProps s) =
      .ok (Tree.view o s ch st refs slots parts).preview :=
    Cached.draw_eq_ok.mpr ⟨rfl, PreviewDef.render_eq gopher⟩
  have chooser : Cached.draw (ChooserBody.draw ch st h) (o.chooserProps s) =
      .ok (Tree.view o s ch st refs slots parts).chooser :=
    Cached.draw_eq_ok.mpr ⟨rfl, ChooserBody.draw_eq config gopher lengths⟩
  simp only [Tree.draw, OuterDef.children_render, preview, chooser, ok_bind]
  rfl

/-- Every panel of the view belongs to the category at its position. -/
theorem ChooserBody.view_inv {i : Nat} (sizes : refs.length = slots.length)
    (lengths : parts.length = slots.length)
    (found : (ChooserBody.view ch st update refs slots parts).panels[i]? = some panel) :
    ∃ ref slot selected, slots[i]? = some slot ∧ parts[i]? = some selected ∧
      panel = ⟨ChooserDef.panelProps ch st update i ref selected,
        PanelDef.view (ChooserDef.panelProps ch st update i ref selected) slot⟩ := by
  have within := (List.getElem?_eq_some_iff.mp found).1
  rw [ChooserBody.view_length _ _ _ sizes lengths] at within
  have slot := List.getElem?_eq_getElem within
  have ref := List.getElem?_eq_getElem (sizes ▸ within)
  have part := List.getElem?_eq_getElem (lengths ▸ within)
  rw [ChooserBody.view_panel ch st update ref slot part] at found
  exact ⟨_, _, _, slot, part, (Option.some.inj found).symm⟩

/-- The handlers on the screen: the three buttons, all headings, and the labels
of the open category. -/
inductive Shown (o : OuterDef) (ch : ChooserDef) (st : ChooserState) (slots : List Slot) :
    Handler → Prop where
  | shuffle : Shown o ch st slots (.shuffleClick ch)
  | reset : Shown o ch st slots (.resetClick ch)
  | save : Shown o ch st slots (.saveClick ch)
  | heading {i : Nat} : i < slots.length → Shown o ch st slots (.expandClick ch i)
  | label {i : Nat} {slot : Slot} {v : String} : slots[i]? = some slot → st.opened = i →
      v ∈ slot.options → Shown o ch st slots (.chooseItemClick o i v)

theorem ChooserBody.shown_of_panel (sizes : refs.length = slots.length)
    (lengths : parts.length = slots.length)
    (member : panel ∈ (ChooserBody.view ch st o refs slots parts).panels)
    (clicked : handler ∈ panel.output.handlers) : Shown o ch st slots handler := by
  obtain ⟨i, present⟩ := List.getElem?_of_mem member
  obtain ⟨ref, slot, selected, found, _, rfl⟩ := ChooserBody.view_inv sizes lengths present
  rw [PanelDef.handlers_view, List.mem_cons] at clicked
  rcases clicked with rfl | clicked
  · exact .heading (List.getElem?_eq_some_iff.mp found).1
  · split at clicked
    · rename_i isOpen
      obtain ⟨v, offered, rfl⟩ := List.mem_map.mp clicked
      exact .label found (of_decide_eq_true isOpen) offered
    · simp at clicked

/-- The panel of a category is there, with its heading and, if open, its labels. -/
theorem ChooserBody.panel_handlers (o : OuterDef) (ch : ChooserDef) (st : ChooserState) {i : Nat}
    (sizes : refs.length = slots.length) (lengths : parts.length = slots.length) (found : slots[i]? = some slot) :
    ∃ panel ∈ (ChooserBody.view ch st o refs slots parts).panels,
      panel.output.handlers = .expandClick ch i ::
        (if st.opened = i then slot.options.map (.chooseItemClick o i) else []) := by
  have within := (List.getElem?_eq_some_iff.mp found).1
  have ref := List.getElem?_eq_getElem (sizes ▸ within)
  have part := List.getElem?_eq_getElem (lengths ▸ within)
  refine ⟨_, List.mem_of_getElem? (ChooserBody.view_panel ch st o ref found part), ?_⟩
  simp only [PanelDef.handlers_view, ChooserDef.panelProps, decide_eq_true_eq]

theorem Tree.handlers_view (sizes : refs.length = slots.length)
    (lengths : parts.length = slots.length) :
    handler ∈ (Tree.view o s ch st refs slots parts).handlers ↔ Shown o ch st slots handler := by
  have outer : (o.render s).handlers = [] := rfl
  have buttons : (ChooserBody.view ch st o refs slots parts).output.handlers =
      [.shuffleClick ch, .resetClick ch, .saveClick ch] := ChooserDef.handlers_page ch _ _
  simp only [Tree.handlers, Tree.view, outer, PreviewDef.handlers_page, buttons, List.nil_append,
    List.mem_append, List.mem_flatMap]
  constructor
  · rintro (button | ⟨panel, member, clicked⟩)
    · simp only [List.mem_cons, List.not_mem_nil, or_false] at button
      rcases button with rfl | rfl | rfl
      · exact .shuffle
      · exact .reset
      · exact .save
    · exact ChooserBody.shown_of_panel sizes lengths member clicked
  · intro shown
    cases shown with
    | shuffle => exact Or.inl (by simp)
    | reset => exact Or.inl (by simp)
    | save => exact Or.inl (by simp)
    | heading within =>
      obtain ⟨panel, member, clicks⟩ := ChooserBody.panel_handlers o ch st sizes lengths
        (List.getElem?_eq_getElem within)
      exact Or.inr ⟨panel, member, by simp [clicks]⟩
    | label slot isOpen offered =>
      obtain ⟨panel, member, clicks⟩ := ChooserBody.panel_handlers o ch st sizes lengths slot
      exact Or.inr ⟨panel, member, by simp [clicks, isOpen, offered]⟩

end
end Gopherize
