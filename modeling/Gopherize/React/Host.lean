import Gopherize.Core.Text
import Mathlib.Data.List.Nodup
import Mathlib.Logic.Function.Basic

/-! gen_react_coreGen.go and gen_react_cssGen.go: the properties of host elements
and the JavaScript objects that the constructors make of them. All constructors
are one function of a tag and of the fields that only this element has. -/
namespace Gopherize.React
open GoCore

/-- The fields of `CSS`. -/
inductive CssKey where
  | float | fontSize | fontStyle | height | left | marginTop | maxHeight | minHeight
  | overflow | overflowY | position | resize | top | width | zIndex
  deriving DecidableEq, Repr

namespace CssKey

def all : List CssKey :=
  [float, fontSize, fontStyle, height, left, marginTop, maxHeight, minHeight,
    overflow, overflowY, position, resize, top, width, zIndex]

/-- The property of the style object that `hack` sets. -/
def jsName : CssKey → String
  | float => "float"
  | fontSize => "fontSize"
  | fontStyle => "fontStyle"
  | height => "height"
  | left => "left"
  | marginTop => "marginTop"
  | maxHeight => "maxHeight"
  | minHeight => "minHeight"
  | overflow => "overflow"
  | overflowY => "overflowY"
  | position => "position"
  | resize => "resize"
  | top => "top"
  | width => "width"
  | zIndex => "zIndex"

end CssKey

abbrev CSS := CssKey → String

/-- `new(CSS)`. -/
def CSS.zero : CSS := fun _ => ""

/-- The style object: one property for each field, also for empty ones. -/
def CSS.hack (c : CSS) (name : String) : Option String :=
  (CssKey.all.find? (fun key => key.jsName = name)).map c

/-- The fields of the properties structs that markup can set. -/
inductive Field where
  | ariaExpanded | ariaHasPopup | ariaLabelledBy | className | id | key | role | style
  | alt | htmlFor | href | placeholder | src | srcDoc | target | title | type | value
  deriving DecidableEq, Repr

namespace Field

def all : List Field :=
  [ariaExpanded, ariaHasPopup, ariaLabelledBy, className, id, key, role, style,
    alt, htmlFor, href, placeholder, src, srcDoc, target, title, type, value]

/-- The fields that every element has. -/
def common : List Field :=
  [ariaExpanded, ariaHasPopup, ariaLabelledBy, className, id, key, role, style]

/-- The name in the `js` tag of the field. -/
def jsName : Field → String
  | ariaExpanded => "aria-expanded"
  | ariaHasPopup => "aria-haspopup"
  | ariaLabelledBy => "aria-labelledby"
  | className => "className"
  | id => "id"
  | key => "key"
  | role => "role"
  | style => "style"
  | alt => "alt"
  | htmlFor => "htmlFor"
  | href => "href"
  | placeholder => "placeholder"
  | src => "src"
  | srcDoc => "srcDoc"
  | target => "target"
  | title => "title"
  | type => "type"
  | value => "value"

/-- Fields with the tag `omitempty`. -/
def omitEmpty : Field → Bool
  | id | key => true
  | _ => false

theorem mem_all (field : Field) : field ∈ all := by
  cases field <;> decide

theorem jsName_injective : Function.Injective jsName := by
  have distinct : (all.map jsName).Nodup := by decide +kernel
  intro f g same
  exact List.inj_on_of_nodup_map distinct (mem_all f) (mem_all g) same

end Field

/-- The value of a field. A `*CSS` may be nil. -/
inductive Value where
  | bool (b : Bool)
  | string (s : String)
  | style (css : Option CSS)

/-- The zero value of a field's type. -/
def Field.zero : Field → Value
  | .ariaExpanded | .ariaHasPopup => .bool false
  | .style => .style none
  | _ => .string ""

/-- A properties struct. A nil `DataSet` and an empty one are alike. -/
structure Props where
  value : Field → Value := Field.zero
  dataSet : String → Option String := fun _ => none

namespace Props

def set (p : Props) (f : Field) (v : Value) : Props :=
  { p with value := Function.update p.value f v }

/-- `ds[k] = v`. -/
def setData (p : Props) (k v : String) : Props :=
  { p with dataSet := Function.update p.dataSet k (some v) }

end Props

inductive JsValue where
  | null
  | bool (b : Bool)
  | string (s : String)
  | style (object : String → Option String)

/-- The properties of a JavaScript object. -/
abbrev JsObject := String → Option JsValue

/-- What a constructor assigns for one field, if anything. -/
def Field.assigned (f : Field) : Value → Option JsValue
  | .bool b => some (.bool b)
  | .string s => if f.omitEmpty && s = "" then none else some (.string s)
  | .style none => some .null
  | .style (some css) => some (.style css.hack)

/-- The object that a constructor hands to `createElement`. -/
def rprops (fields : List Field) : Option Props → JsObject
  | none => fun _ => none
  | some p => fun name =>
    match Text.afterPrefix "data-" name with
    | some k => (p.dataSet k).map .string
    | none =>
      match fields.find? (fun f => f.jsName = name) with
      | some f => f.assigned (p.value f)
      | none => if name = "dangerouslySetInnerHTML" then some .null else none

/-- An element: a text, or what `createElement` makes of a tag, an object and
children. -/
inductive Elem where
  | S (text : String)
  | host (tag : String) (props : JsObject) (children : List Elem)

/-- The Go type that the children of an element have to have. -/
inductive Child where
  | none | element | rendersLi | optionElem
  deriving DecidableEq, Repr

/-- One element of the generated code. -/
structure Markup where
  tag : String
  extra : List Field := []
  child : Child := .element
  deriving DecidableEq, Repr

namespace Markup

def fields (m : Markup) : List Field := Field.common ++ m.extra

/-- The constructor of the element. -/
def create (m : Markup) (props : Option Props) (children : List Elem) : Elem :=
  .host m.tag (rprops m.fields props) children

def a : Markup := { tag := "a", extra := [.href, .target, .title] }
def abbr : Markup := { tag := "abbr" }
def article : Markup := { tag := "article" }
def aside : Markup := { tag := "aside" }
def b : Markup := { tag := "b" }
def br : Markup := { tag := "br" }
def button : Markup := { tag := "button", extra := [.type] }
def caption : Markup := { tag := "caption" }
def code : Markup := { tag := "code" }
def div : Markup := { tag := "div" }
def em : Markup := { tag := "em" }
def footer : Markup := { tag := "footer" }
def form : Markup := { tag := "form" }
def h1 : Markup := { tag := "h1" }
def h2 : Markup := { tag := "h2" }
def h3 : Markup := { tag := "h3" }
def h4 : Markup := { tag := "h4" }
def h5 : Markup := { tag := "h5" }
def h6 : Markup := { tag := "h6" }
def header : Markup := { tag := "header" }
def hr : Markup := { tag := "hr", child := .none }
def i : Markup := { tag := "i" }
def iFrame : Markup := { tag := "iframe", extra := [.srcDoc] }
def img : Markup := { tag := "img", extra := [.alt, .src] }
def input : Markup := { tag := "input", extra := [.placeholder, .type, .value] }
def label : Markup := { tag := "label", extra := [.htmlFor] }
def li : Markup := { tag := "li" }
def main : Markup := { tag := "main" }
def nav : Markup := { tag := "nav" }
def option : Markup := { tag := "option", extra := [.value] }
def p : Markup := { tag := "p" }
def pre : Markup := { tag := "pre" }
def select : Markup := { tag := "select", extra := [.value], child := .optionElem }
def span : Markup := { tag := "span" }
def strike : Markup := { tag := "s" }
def sup : Markup := { tag := "sup" }
def table : Markup := { tag := "table" }
def tbody : Markup := { tag := "tbody" }
def td : Markup := { tag := "td" }
def textArea : Markup := { tag := "textarea", extra := [.placeholder, .value] }
def th : Markup := { tag := "th" }
def thead : Markup := { tag := "thead" }
def tr : Markup := { tag := "tr" }
def ul : Markup := { tag := "ul", child := .rendersLi }

def all : List Markup :=
  [a, abbr, article, aside, b, br, button, caption, code, div, em, footer, form, h1, h2, h3, h4,
    h5, h6, header, hr, i, iFrame, img, input, label, li, main, nav, option, p, pre, select, span,
    strike, sup, table, tbody, td, textArea, th, thead, tr, ul]

end Markup
end Gopherize.React
