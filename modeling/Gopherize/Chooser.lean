import Gopherize.Element
import Gopherize.Footer

/-! chooser.go: the buttons, one panel for each category of the config, and the
footer. -/
namespace Gopherize
open GoCore

structure ChooserState where
  opened : Int := 0
  deriving DecidableEq, Repr

namespace ChooserDef

def page (ch : ChooserDef) (catDivs : List Element) (footer : React.Elem) : Element :=
  .host .div { className := "col-xs-4" }
    [ .host .button { id := "shuffle-button", className := "btn btn-default",
                      onClick := some (.shuffleClick ch) }
        [.host .i { className := "glyphicon glyphicon-refresh" } [], .text " Shuffle"],
      .host .button { id := "reset-button", className := "btn btn-default",
                      onClick := some (.resetClick ch) }
        [.text "Reset"],
      .host .br {} [],
      .host .br {} [],
      .host .div { className := "panel-group", id := "options", role := "tablist" } catDivs,
      .host .div { className := "panel panel-default" }
        [ .host .div { className := "panel-body text-right", overflowY := "hidden" }
            [ .host .button { id := "next-button", className := "btn btn-primary btn-lg",
                              onClick := some (.saveClick ch) }
                [ .text "Save & continue…",
                  .host .i { className := "glyphicon glyphicon glyphicon-chevron-right" } [] ] ] ],
      .markup footer ]

/-- The panel of the category at position `i`; `cg.Parts[i]` may be out of range. -/
def panelElem (ch : ChooserDef) (st : ChooserState) (props : ChooserProps) (h : Heap)
    (cat : Ref Category × Nat) : Except Panic Element := do
  let cg ← h.gophers.deref props.current
  let selected ← cg.parts.get h.strings cat.2
  pure (.panel {
    category := cat.1
    isOpen := decide (st.opened = cat.2)
    part := cat.2
    selected := selected
    update := props.update
    expand := ch })

def render (ch : ChooserDef) (st : ChooserState) (props : ChooserProps) (h : Heap) :
    Except Panic Element := do
  let config ← h.configs.deref props.config
  let cats ← config.categories.elems h.categoryLists
  let catDivs ← cats.zipIdx.foldlM
    (fun catDivs cat => do pure (catDivs ++ [← panelElem ch st props h cat])) []
  pure (page ch catDivs (← footerElem))

/-- The panel of one category that shows `selected` as the chosen option. -/
def panelProps (ch : ChooserDef) (st : ChooserState) (update : UpdateGopher) (i : Nat)
    (category : Ref Category) (selected : String) : PanelProps :=
  { category, isOpen := decide (st.opened = i), part := i, selected, update, expand := ch }

/-- The panels in config order. -/
def panelList (ch : ChooserDef) (st : ChooserState) (update : UpdateGopher)
    (refs : List (Ref Category)) (parts : List String) : List PanelProps :=
  (refs.zip parts).mapIdx (fun i entry => panelProps ch st update i entry.1 entry.2)

theorem panelElem_eq {h : Heap} (gopher : h.GopherAt props.current parts) {i : Nat}
    (found : parts[i]? = some selected) :
    panelElem ch st props h (cat, i) = .ok (.panel (panelProps ch st props.update i cat selected)) := by
  obtain ⟨p, g, same, read, denotes⟩ := gopher
  simp only [panelElem, same, Table.deref_some read, ok_bind, denotes.get i found]
  rfl

theorem render_eq {h : Heap} (config : h.ConfigAt props.config refs slots)
    (gopher : h.GopherAt props.current parts) (lengths : parts.length = refs.length) :
    render ch st props h =
      .ok (page ch ((panelList ch st props.update refs parts).map .panel) footerView) := by
  obtain ⟨⟨p, c, same, found, denotes⟩, _⟩ := config
  have loop : refs.zipIdx.mapM (panelElem ch st props h) =
      .ok ((panelList ch st props.update refs parts).map .panel) := by
    rw [mapM_eq_ok, List.forall₂_iff_get]
    have size : (refs.zip parts).length = refs.length := by simp [lengths]
    refine ⟨by simp [panelList, lengths], ?_⟩
    intro i inRefs inPanels
    have within : i < parts.length := by simpa [lengths] using inRefs
    simp only [panelList, List.get_eq_getElem, List.getElem_zipIdx, List.getElem_map,
      List.getElem_mapIdx, List.getElem_zip, Nat.zero_add]
    exact panelElem_eq gopher (List.getElem?_eq_getElem within)
  simp only [render, same, Table.deref_some found, ok_bind, denotes.elems, foldlM_collect, loop,
    footerElem_eq]
  rfl

theorem stable_render (ch : ChooserDef) (st : ChooserState) (props : ChooserProps) :
    Stable (render ch st props) := by
  have config : Stable (fun h : Heap => h.configs.deref props.config) :=
    fun _ _ _ grown => Table.stable_deref _ grown.2.2.2.2
  have cats (c : Config) : Stable (fun h : Heap => c.categories.elems h.categoryLists) :=
    fun _ _ _ grown => Slice.stable_elems _ grown.2.1
  have curr : Stable (fun h : Heap => h.gophers.deref props.current) :=
    fun _ _ _ grown => Table.stable_deref _ grown.2.2.1
  have part (g : Gopher) (i : Int) : Stable (fun h : Heap => g.parts.get h.strings i) :=
    fun _ _ _ grown => Slice.stable_get _ _ grown.1
  have panel (cat : Ref Category × Nat) : Stable (fun h => panelElem ch st props h cat) :=
    curr.bind (fun g => (part g cat.2).bind (fun _ => .const _))
  have body (catDivs : List Element) (cat : Ref Category × Nat) :
      Stable (fun h => do pure (catDivs ++ [← panelElem ch st props h cat])) :=
    (panel cat).bind (fun _ => .const _)
  exact config.bind (fun c => (cats c).bind (fun cs =>
    (Stable.foldlM body cs.zipIdx []).bind (fun _ => .const _)))

/-- The component elements of the page are the panels of the loop. -/
theorem panels_page (ch : ChooserDef) (list : List PanelProps) (footer : React.Elem) :
    (page ch (list.map .panel) footer).panels = list := by
  have panels := Element.collect_map Element.panelOf Element.panel id
    (fun _ => rfl) list
  simpa [page, Element.panels, Element.collect, Element.panelOf] using panels

theorem handlers_page (ch : ChooserDef) (list : List PanelProps) (footer : React.Elem) :
    (page ch (list.map .panel) footer).handlers = [.shuffleClick ch, .resetClick ch, .saveClick ch] := by
  simp [page, Element.handlers, Element.collect, Element.handlerOf, List.flatMap_map]

theorem panelList_length (ch : ChooserDef) (st : ChooserState) (update : UpdateGopher)
    (lengths : parts.length = refs.length) :
    (panelList ch st update refs parts).length = refs.length := by
  simp [panelList, lengths]

theorem panelList_getElem? (ch : ChooserDef) (st : ChooserState) (update : UpdateGopher) {i : Nat}
    (category : refs[i]? = some ref) (found : parts[i]? = some selected) :
    (panelList ch st update refs parts)[i]? =
      some (panelProps ch st update i ref selected) := by
  have entry : (refs.zip parts)[i]? = some (ref, selected) :=
    List.getElem?_zip_eq_some.mpr ⟨category, found⟩
  simp only [panelList, List.getElem?_mapIdx, entry, Option.map_some]

end ChooserDef
end Gopherize
