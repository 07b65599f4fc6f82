import Gopherize.Core.Path
import Gopherize.Element

/-! panel.go: the heading of one category and, while the panel is open, one label
for each option. -/
namespace Gopherize.PanelDef
open GoCore

def blank : String := Path.join ["artwork", "whitebox_thumbnail.png"]

def labelClass (selected o : String) : String :=
  if o = selected then "item" ++ " selected"
  else if o = "" then "item" ++ " none"
  else "item"

def labelSource (o : String) : String :=
  if o = "" then blank else Path.join ["artwork", o ++ "_thumbnail.png"]

def labelAttrs (props : PanelProps) (o : String) : Attrs :=
  { className := labelClass props.selected o
    onClick := some (.chooseItemClick props.update props.part o) }

def label (props : PanelProps) (o : String) : Element :=
  .host .label (labelAttrs props o) [.host .img { src := labelSource o } []]

def page (props : PanelProps) (name collapse : String) (imgs : List Element) : Element :=
  .host .div { className := "panel panel-default" }
    [ .host .div { className := "panel-heading", role := "tab" }
        [ .host .h4 { className := "panel-title" }
            [ .host .a { onClick := some (.expandClick props.expand props.part) } [.text name] ] ],
      .host .div { id := "Body", className := "panel-collapse collapse in", role := "tabpanel" }
        [ .host .div { className := "panel-body" ++ collapse } [.host .div {} imgs] ] ]

/-- The labels of the loop over the options; a closed panel has none. -/
def items (props : PanelProps) (h : Heap) : Except Panic (List Element) :=
  if props.isOpen then do
    let category ← h.categories.deref props.category
    let options ← category.options.elems h.strings
    pure (options.foldl (fun imgs o => imgs ++ [label props o]) [])
  else pure []

def render (props : PanelProps) (h : Heap) : Except Panic Element := do
  let collapse := if props.isOpen then "" else " collapse"
  let imgs ← items props h
  let category ← h.categories.deref props.category
  pure (page props category.name collapse imgs)

/-- What the panel of a category looks like. -/
def view (props : PanelProps) (slot : Slot) : Element :=
  page props slot.name (if props.isOpen then "" else " collapse")
    (if props.isOpen then slot.options.map (label props) else [])

theorem labels_eq (props : PanelProps) (options : List String) (imgs : List Element) :
    options.foldl (fun imgs o => imgs ++ [label props o]) imgs = imgs ++ options.map (label props) := by
  induction options generalizing imgs with
  | nil => simp
  | cons o options ih => simp [ih]

theorem render_eq {h : Heap} (category : h.CategoryAt props.category slot) :
    render props h = .ok (view props slot) := by
  obtain ⟨p, c, same, found, named, denotes⟩ := category
  have read : h.categories.deref props.category = .ok c := same ▸ Table.deref_some found
  have labels : items props h = .ok (if props.isOpen then slot.options.map (label props) else []) := by
    unfold items
    split
    · simp only [read, ok_bind, denotes.elems, labels_eq, List.nil_append]
      rfl
    · rfl
  simp only [render, view, labels, read, ok_bind, named]
  rfl

theorem stable_render (props : PanelProps) : Stable (render props) := by
  have category : Stable (fun h : Heap => h.categories.deref props.category) :=
    fun _ _ _ grown => Table.stable_deref _ grown.2.2.2.1
  have options (c : Category) : Stable (fun h : Heap => c.options.elems h.strings) :=
    fun _ _ _ grown => Slice.stable_elems _ grown.1
  have labels : Stable (items props) := by
    unfold items
    split
    · exact category.bind (fun c => (options c).bind (fun _ => .const _))
    · exact .const _
  exact labels.bind (fun _ => category.bind (fun _ => .const _))

/-- The panel shows its labels. -/
def expanded (element : Element) : Bool :=
  (element.withTag .div).any (fun attrs => attrs.hasClass "panel-body" && !attrs.hasClass "collapse")

/-- The label is marked as the chosen one. -/
def marked (attrs : Attrs) : Bool := attrs.hasClass "selected"

theorem texts_view (props : PanelProps) (slot : Slot) : (view props slot).texts = [slot.name] := by
  cases shown : props.isOpen <;>
    simp [view, page, shown, Element.texts, Element.collect, Element.textOf, label,
      List.flatMap_map]

theorem handlers_view (props : PanelProps) (slot : Slot) :
    (view props slot).handlers = .expandClick props.expand props.part ::
      (if props.isOpen then slot.options.map (.chooseItemClick props.update props.part) else []) := by
  have clicks := Element.collect_map Element.handlerOf (label props)
    (Handler.chooseItemClick props.update props.part) (fun _ => rfl) slot.options
  cases shown : props.isOpen with
  | false => simp [view, page, shown, Element.handlers, Element.collect, Element.handlerOf]
  | true => simpa [view, page, shown, Element.handlers, Element.collect, Element.handlerOf] using clicks

theorem labels_view (props : PanelProps) (slot : Slot) :
    (view props slot).withTag .label =
      if props.isOpen then slot.options.map (labelAttrs props) else [] := by
  have labels := Element.collect_map (Element.tagged .label) (label props)
    (labelAttrs props) (fun _ => rfl) slot.options
  cases shown : props.isOpen with
  | false => simp [view, page, shown, Element.withTag, Element.collect, Element.tagged]
  | true => simpa [view, page, shown, Element.withTag, Element.collect, Element.tagged] using labels

theorem images_view (props : PanelProps) (slot : Slot) :
    (view props slot).images = if props.isOpen then slot.options.map labelSource else [] := by
  have sources := Element.collect_map Element.imageOf (label props) labelSource (fun _ => rfl)
    slot.options
  cases shown : props.isOpen with
  | false => simp [view, page, shown, Element.images, Element.collect, Element.imageOf]
  | true => simpa [view, page, shown, Element.images, Element.collect, Element.imageOf] using sources

theorem divs_view (props : PanelProps) (slot : Slot) :
    (view props slot).withTag .div =
      [{ className := "panel panel-default" }, { className := "panel-heading", role := "tab" },
        { id := "Body", className := "panel-collapse collapse in", role := "tabpanel" },
        { className := "panel-body" ++ (if props.isOpen then "" else " collapse") }, {}] := by
  cases shown : props.isOpen <;>
    simp [view, page, shown, Element.withTag, Element.collect, Element.tagged, label,
      List.flatMap_map]

theorem expanded_view (props : PanelProps) (slot : Slot) :
    expanded (view props slot) = props.isOpen := by
  rw [expanded, divs_view]
  cases props.isOpen with
  | false => decide
  | true => decide

theorem marked_iff (props : PanelProps) (o : String) :
    marked (labelAttrs props o) = true ↔ o = props.selected := by
  have selected : marked { className := "item" ++ " selected" } = true := by decide
  have blank : marked { className := "item" ++ " none" } = false := by decide
  have plain : marked { className := "item" } = false := by decide
  simp only [marked, Attrs.hasClass, labelAttrs, labelClass] at selected blank plain ⊢
  split
  · rename_i same
    exact iff_of_true selected same
  · rename_i other
    split
    · simp only [blank, other]
      simp
    · simp only [plain, other]
      simp

end Gopherize.PanelDef
