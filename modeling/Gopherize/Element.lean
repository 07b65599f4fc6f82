import Gopherize.Gopher
import Gopherize.React.Host

/-! React elements as the components build them: host elements with the
attributes that the program sets, text, elements made from markup, and component elements
that still have to be rendered. Event handlers are data, as in the source. -/
namespace Gopherize
open GoCore

/-- A component value is its identity, the JavaScript object that it wraps. -/
structure OuterDef where
  elem : Nat
  deriving DecidableEq, Repr

structure ChooserDef where
  elem : Nat
  deriving DecidableEq, Repr

/-- `OuterDef` is the only implementation of the interface. -/
abbrev UpdateGopher := OuterDef

/-- `ChooserDef` is the only implementation of the interface. -/
abbrev ExpandPanel := ChooserDef

structure PreviewProps where
  current : Ref Gopher
  deriving DecidableEq

structure ChooserProps where
  current : Ref Gopher
  config : Ref Config
  update : UpdateGopher
  deriving DecidableEq

structure PanelProps where
  category : Ref Category
  isOpen : Bool
  part : Int
  selected : String
  update : UpdateGopher
  expand : ExpandPanel
  deriving DecidableEq

inductive Handler where
  | shuffleClick (ch : ChooserDef)
  | resetClick (ch : ChooserDef)
  | saveClick (ch : ChooserDef)
  | expandClick (e : ExpandPanel) (i : Int)
  | chooseItemClick (u : UpdateGopher) (ci : Int) (v : String)
  deriving DecidableEq, Repr

inductive Tag where
  | a | br | button | div | h4 | i | img | label
  deriving DecidableEq, Repr

/-- The attributes that some element of the program sets; the rest are unset. -/
structure Attrs where
  id : String := ""
  className : String := ""
  role : String := ""
  src : String := ""
  marginTop : String := ""
  overflowY : String := ""
  onClick : Option Handler := none
  deriving DecidableEq, Repr

inductive Element where
  | text (s : String)
  /-- An element that the jsx package made; none of its nodes is a component. -/
  | markup (elem : React.Elem)
  | host (tag : Tag) (attrs : Attrs) (children : List Element)
  | preview (props : PreviewProps)
  | chooser (props : ChooserProps)
  | panel (props : PanelProps)

namespace Element

mutual
/-- Visit the nodes of an element in document order. -/
def collect (visit : Element → List β) : Element → List β
  | .text s => visit (.text s)
  | .markup elem => visit (.markup elem)
  | .host tag attrs children => visit (.host tag attrs children) ++ collectAll visit children
  | .preview props => visit (.preview props)
  | .chooser props => visit (.chooser props)
  | .panel props => visit (.panel props)

def collectAll (visit : Element → List β) : List Element → List β
  | [] => []
  | element :: elements => element.collect visit ++ collectAll visit elements
end

@[simp] theorem collectAll_eq (visit : Element → List β) (elements : List Element) :
    collectAll visit elements = elements.flatMap (collect visit) := by
  induction elements with
  | nil => rfl
  | cons element elements ih => rw [collectAll, ih, List.flatMap_cons]

/-- Nodes that each contribute one value contribute the list of them. -/
theorem collect_map (visit : Element → List β) (node : α → Element) (f : α → β)
    (single : ∀ x, (node x).collect visit = [f x]) (xs : List α) :
    (xs.map node).flatMap (collect visit) = xs.map f := by
  simp only [List.flatMap_map, single]
  exact List.map_eq_flatMap.symm

def previewOf : Element → List PreviewProps
  | .preview props => [props]
  | _ => []

def chooserOf : Element → List ChooserProps
  | .chooser props => [props]
  | _ => []

def panelOf : Element → List PanelProps
  | .panel props => [props]
  | _ => []

def handlerOf : Element → List Handler
  | .host _ attrs _ => attrs.onClick.toList
  | _ => []

def imageOf : Element → List String
  | .host .img attrs _ => [attrs.src]
  | _ => []

def textOf : Element → List String
  | .text s => [s]
  | _ => []

def tagged (tag : Tag) : Element → List Attrs
  | .host other attrs _ => if other = tag then [attrs] else []
  | _ => []

/-- The previews that still have to be rendered. -/
def previews : Element → List PreviewProps := collect previewOf

/-- The choosers that still have to be rendered. -/
def choosers : Element → List ChooserProps := collect chooserOf

/-- The panels that still have to be rendered. -/
def panels : Element → List PanelProps := collect panelOf

/-- The handlers that a user can click. -/
def handlers : Element → List Handler := collect handlerOf

/-- The sources of the images. -/
def images : Element → List String := collect imageOf

def texts : Element → List String := collect textOf

/-- The attributes of the elements with one tag. -/
def withTag (tag : Tag) : Element → List Attrs := collect (tagged tag)

end Element

/-- The class list of an element contains one class. -/
def Attrs.hasClass (attrs : Attrs) (name : String) : Bool :=
  (attrs.className.toList.splitOn ' ').contains name.toList

end Gopherize
