import Gopherize.Jsx.Html

/-! The footer of the page: the text that chooser.go hands to `jsx.HTMLElem`, the nodes that the
parser makes of it, and the element that becomes of them. -/
namespace Gopherize
open GoCore Html

def footer : String :=
  "\n\t\t\t<footer>\n" ++
  "\t\t\t\tBe truly unique, there are\n" ++
  "\t\t\t\t<span class='total_combinations'></span>\n" ++
  "\t\t\t\t<hr/>\n" ++
  "\t\t\t\tArtwork by <a href='https://twitter.com/ashleymcnamara' target='_blank'>Ashley McNamara</a>" ++
  "<br />inspired by <a href='http://reneefrench.blogspot.co.uk/' target='_blank'>Renee French</a><br />\n" ++
  "\t\t\t\tOriginal web app by <a href='https://twitter.com/matryer' target='_blank'>Mat Ryer</a><br/>\n" ++
  "\t\t\t\tFront-end Go React version by " ++
  "<a href=\"https://twitter.com/_myitcv\" target=\"_blank\">Paul Jolly</a>\n" ++
  "\t\t\t\t<hr>\n" ++
  "\t\t\t\t<a href='https://github.com/myitcv/gopherize.me/tree/master/client'>Source on GitHub</a><br/>\n" ++
  "\t\t\t\t<a href='https://github.com/matryer/gopherize.me'>Original source on GitHub</a>\n" ++
  "\t\t\t</footer>\n\t\t"

namespace Footer

def text (s : String) : Rose Content := .node { type := .textNode, data := s } []

def element (tag : String) (attr : List Attribute) (children : List (Rose Content)) : Rose Content :=
  .node { type := .elementNode, data := tag, attr } children

/-- A link that opens a page of its own. -/
def blankLink (href name : String) : Rose Content :=
  element "a" [⟨"href", href⟩, ⟨"target", "_blank"⟩] [text name]

def link (href name : String) : Rose Content := element "a" [⟨"href", href⟩] [text name]

def br : Rose Content := element "br" [] []

def hr : Rose Content := element "hr" [] []

/-- What the parser makes of the footer below a div. -/
def nodes : Rose Content :=
  element "footer" []
    [ text "\n\t\t\t\tBe truly unique, there are\n\t\t\t\t",
      element "span" [⟨"class", "total_combinations"⟩] [],
      text "\n\t\t\t\t",
      hr,
      text "\n\t\t\t\tArtwork by ",
      blankLink "https://twitter.com/ashleymcnamara" "Ashley McNamara",
      br,
      text "inspired by ",
      blankLink "http://reneefrench.blogspot.co.uk/" "Renee French",
      br,
      text "\n\t\t\t\tOriginal web app by ",
      blankLink "https://twitter.com/matryer" "Mat Ryer",
      br,
      text "\n\t\t\t\tFront-end Go React version by ",
      blankLink "https://twitter.com/_myitcv" "Paul Jolly",
      text "\n\t\t\t\t",
      hr,
      text "\n\t\t\t\t",
      link "https://github.com/myitcv/gopherize.me/tree/master/client" "Source on GitHub",
      br,
      text "\n\t\t\t\t",
      link "https://github.com/matryer/gopherize.me" "Original source on GitHub",
      text "\n\t\t\t" ]

def meaning : Meaning := fun context s =>
  if context = Jsx.div ∧ s = Text.trimSpace footer then some (.ok [nodes]) else none

end Footer

/-- `jsx.HTMLElem` on the footer. What was called before does not show in its answer, so the call is
made on a cache of its own. -/
def footerElem : Except Panic React.Elem :=
  Fault.called (Jsx.HTMLElem (planter Footer.meaning) .initial footer).1

/-- Every element and attribute of the footer is known. -/
theorem footer_accepted (s t : String) :
    ∃ e, (Jsx.rendered s (.ok [Footer.nodes]) >>= Jsx.onlyOne t) = .ok e := by
  have single : (Jsx.parseTree (Jsx.strip Jsx.isBlank Footer.nodes)).toOption.isSome = true := by
    decide +kernel
  have shown : Jsx.isBlank Footer.nodes.root = false := rfl
  cases made : Jsx.parseTree (Jsx.strip Jsx.isBlank Footer.nodes) with
  | error e =>
    rw [made] at single
    cases single
  | ok e => exact ⟨e, by simp [Jsx.rendered, shown, made, Jsx.onlyOne]⟩

theorem footerElem_ok : ∃ e, footerElem = .ok e := by
  have meant : Footer.meaning Jsx.div (Text.trimSpace footer) = some (.ok [Footer.nodes]) :=
    if_pos ⟨rfl, rfl⟩
  have result := Jsx.HTMLElem_eq (planter_means Footer.meaning) (Jsx.coherent_initial _) footer meant
  obtain ⟨e, accepted⟩ := footer_accepted (Text.trimSpace footer) footer
  exact ⟨e, congrArg Fault.called (result.trans accepted)⟩

/-- The element that becomes of the footer. -/
def footerView : React.Elem := (footerElem.toOption).getD (.S "")

theorem footerElem_eq : footerElem = .ok footerView := by
  obtain ⟨e, made⟩ := footerElem_ok
  rw [footerView, made]
  rfl

end Gopherize
