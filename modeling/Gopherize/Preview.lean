import Gopherize.Core.Path
import Gopherize.Element

/-! preview.go: the picture as a stack of images, one for each non-blank part. -/
namespace Gopherize.PreviewDef
open GoCore

/-- The image file of one part. -/
def source (p : String) : String := Path.join ["artwork", p ++ ".png"]

def image (p : String) : Element := .host .img { src := source p, marginTop := "0px" } []

def addPart (parts : List Element) (p : String) : List Element := parts ++ [image p]

def page (parts : List Element) : Element :=
  .host .div { className := "col-xs-8" } [.host .div { id := "preview" } parts]

def render (props : PreviewProps) (h : Heap) : Except Panic Element := do
  let curr ← h.gophers.deref props.current
  let ps ← curr.parts.elems h.strings
  let parts := ps.foldl (fun parts p => if p ≠ "" then addPart parts p else parts) []
  pure (page parts)

/-- The parts that the picture draws, in their order. -/
def drawn (parts : List String) : List String := parts.filter (· ≠ "")

theorem addParts_eq (ps : List String) (parts : List Element) :
    ps.foldl (fun parts p => if p ≠ "" then addPart parts p else parts) parts =
      parts ++ (drawn ps).map image := by
  induction ps generalizing parts with
  | nil => simp [drawn]
  | cons p ps ih =>
    rw [List.foldl_cons, ih]
    by_cases blank : p = ""
    · simp [drawn, blank]
    · simp [drawn, blank, addPart]

theorem render_eq {h : Heap} (gopher : h.GopherAt current parts) :
    render ⟨current⟩ h = .ok (page ((drawn parts).map image)) := by
  obtain ⟨p, g, rfl, found, denotes⟩ := gopher
  simp only [render, Table.deref_some found, ok_bind, denotes.elems, addParts_eq, List.nil_append]
  rfl

theorem stable_render (props : PreviewProps) : Stable (render props) := by
  have curr : Stable (fun h : Heap => h.gophers.deref props.current) :=
    fun _ _ _ grown => Table.stable_deref _ grown.2.2.1
  have elems (g : Gopher) : Stable (fun h : Heap => g.parts.elems h.strings) :=
    fun _ _ _ grown => Slice.stable_elems _ grown.1
  exact curr.bind (fun g => (elems g).bind (fun _ => .const _))

theorem images_page (parts : List String) :
    (page (parts.map image)).images = parts.map source := by
  have sources := Element.collect_map Element.imageOf image source
    (fun _ => rfl) parts
  simpa [page, Element.images, Element.collect, Element.imageOf] using sources

theorem handlers_page (parts : List String) : (page (parts.map image)).handlers = [] := by
  simp [page, Element.handlers, Element.collect, Element.handlerOf, image]

end Gopherize.PreviewDef
