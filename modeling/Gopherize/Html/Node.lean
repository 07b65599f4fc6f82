import Gopherize.Core.Fault
import Gopherize.Core.Links
import Gopherize.Core.Store

/-! html/node.go: nodes that hold each other through five links. `RemoveChild`,
`InsertBefore` and `AppendChild` are lists of link assignments, as in the source;
each of them changes one list of children. -/
namespace Gopherize.Html
open GoCore

inductive NodeType where
  | errorNode | textNode | documentNode | elementNode | commentNode | doctypeNode | scopeMarkerNode
  deriving DecidableEq, Repr

structure Attribute where
  key : String
  val : String
  deriving DecidableEq, Repr

/-- The part of a node that is not a link. -/
structure Content where
  type : NodeType
  data : String := ""
  attr : List Attribute := []
  deriving DecidableEq, Repr

structure Node extends Content where
  parent : Option (Ptr Node) := none
  firstChild : Option (Ptr Node) := none
  lastChild : Option (Ptr Node) := none
  prevSibling : Option (Ptr Node) := none
  nextSibling : Option (Ptr Node) := none

namespace Node

def link (n : Node) : Link → Ref Node
  | .parent => n.parent
  | .firstChild => n.firstChild
  | .lastChild => n.lastChild
  | .prevSibling => n.prevSibling
  | .nextSibling => n.nextSibling

def setLink (n : Node) (l : Link) (target : Ref Node) : Node :=
  match l with
  | .parent => { n with parent := target }
  | .firstChild => { n with firstChild := target }
  | .lastChild => { n with lastChild := target }
  | .prevSibling => { n with prevSibling := target }
  | .nextSibling => { n with nextSibling := target }

@[simp] theorem link_setLink (n : Node) (l k : Link) (target : Ref Node) :
    (n.setLink l target).link k = if k = l then target else n.link k := by
  cases l <;> cases k <;> rfl

@[simp] theorem content_setLink (n : Node) (l : Link) (target : Ref Node) :
    (n.setLink l target).toContent = n.toContent := by
  cases l <;> rfl

end Node

/-- All nodes. Addresses from `size` on are not allocated yet. -/
structure Nodes where
  cell : Ptr Node → Node
  size : Nat

namespace Nodes

def empty : Nodes := ⟨fun _ => { type := .errorNode }, 0⟩

def link (h : Nodes) (l : Link) (p : Ptr Node) : Ref Node := (h.cell p).link l

def links (h : Nodes) : Links (Ptr Node) := h.link

def content (h : Nodes) (p : Ptr Node) : Content := (h.cell p).toContent

/-- The assignment `p.l = target`. -/
def setLink (h : Nodes) (l : Link) (p : Ptr Node) (target : Ref Node) : Nodes :=
  { h with cell := Function.update h.cell p ((h.cell p).setLink l target) }

/-- `&Node{...}` with the links unset. -/
def alloc (h : Nodes) (content : Content) : Ptr Node × Nodes :=
  (⟨h.size⟩, ⟨Function.update h.cell ⟨h.size⟩ { content with }, h.size + 1⟩)

@[simp] theorem link_setLink (h : Nodes) (l k : Link) (p q : Ptr Node) (target : Ref Node) :
    (h.setLink l p target).link k q = if k = l ∧ q = p then target else h.link k q := by
  by_cases here : q = p
  · subst here
    simp [link, setLink]
  · simp [link, setLink, here]

@[simp] theorem content_setLink (h : Nodes) (l : Link) (p : Ptr Node) (target : Ref Node) :
    (h.setLink l p target).content = h.content := by
  funext q
  by_cases here : q = p
  · subst here
    simp [content, setLink]
  · simp [content, setLink, here]

@[simp] theorem size_setLink (h : Nodes) (l : Link) (p : Ptr Node) (target : Ref Node) :
    (h.setLink l p target).size = h.size := rfl

/-- `if cond { p.l = target }`. -/
def setLinkIf (h : Nodes) (cond : Prop) [Decidable cond] (l : Link) (p : Ptr Node) (target : Ref Node) :
    Nodes :=
  if cond then h.setLink l p target else h

/-- `if r != nil { r.l = target }`. -/
def setLinkOf (h : Nodes) (l : Link) (r : Ref Node) (target : Ref Node) : Nodes :=
  match r with
  | some p => h.setLink l p target
  | none => h

/-- `if r != nil { r.l = target } else { p.k = target }`. -/
def setLinkOr (h : Nodes) (l : Link) (r : Ref Node) (k : Link) (p : Ptr Node) (target : Ref Node) :
    Nodes :=
  match r with
  | some q => h.setLink l q target
  | none => h.setLink k p target

@[simp] theorem link_setLinkIf (h : Nodes) (cond : Prop) [Decidable cond] (l k : Link)
    (p q : Ptr Node) (target : Ref Node) :
    (h.setLinkIf cond l p target).link k q =
      if cond ∧ k = l ∧ q = p then target else h.link k q := by
  by_cases holds : cond
  · simp [setLinkIf, holds]
  · simp [setLinkIf, holds]

@[simp] theorem link_setLinkOf (h : Nodes) (l k : Link) (r : Ref Node) (q : Ptr Node)
    (target : Ref Node) :
    (h.setLinkOf l r target).link k q = if k = l ∧ r = some q then target else h.link k q := by
  cases r with
  | none => simp [setLinkOf]
  | some p => simp [setLinkOf, eq_comm]

@[simp] theorem link_setLinkOr (h : Nodes) (l k m : Link) (r : Ref Node) (p q : Ptr Node)
    (target : Ref Node) :
    (h.setLinkOr l r k p target).link m q =
      if m = l ∧ r = some q ∨ r = none ∧ m = k ∧ q = p then target else h.link m q := by
  cases r with
  | none => simp [setLinkOr]
  | some p => simp [setLinkOr, eq_comm]

@[simp] theorem content_setLinkIf (h : Nodes) (cond : Prop) [Decidable cond] (l : Link)
    (p : Ptr Node) (target : Ref Node) : (h.setLinkIf cond l p target).content = h.content := by
  unfold setLinkIf
  split <;> simp

@[simp] theorem content_setLinkOf (h : Nodes) (l : Link) (r target : Ref Node) :
    (h.setLinkOf l r target).content = h.content := by
  cases r <;> simp [setLinkOf]

@[simp] theorem content_setLinkOr (h : Nodes) (l k : Link) (r : Ref Node) (p : Ptr Node)
    (target : Ref Node) : (h.setLinkOr l r k p target).content = h.content := by
  cases r <;> simp [setLinkOr]

@[simp] theorem size_setLinkIf (h : Nodes) (cond : Prop) [Decidable cond] (l : Link)
    (p : Ptr Node) (target : Ref Node) : (h.setLinkIf cond l p target).size = h.size := by
  unfold setLinkIf
  split <;> rfl

@[simp] theorem size_setLinkOf (h : Nodes) (l : Link) (r target : Ref Node) :
    (h.setLinkOf l r target).size = h.size := by
  cases r <;> rfl

@[simp] theorem size_setLinkOr (h : Nodes) (l k : Link) (r : Ref Node) (p : Ptr Node)
    (target : Ref Node) : (h.setLinkOr l r k p target).size = h.size := by
  cases r <;> rfl

/-- The node has a parent or a sibling. -/
def attached (h : Nodes) (c : Ptr Node) : Prop :=
  h.link .parent c ≠ none ∨ h.link .prevSibling c ≠ none ∨ h.link .nextSibling c ≠ none

instance (h : Nodes) (c : Ptr Node) : Decidable (h.attached c) :=
  inferInstanceAs (Decidable (_ ∨ _ ∨ _))

/-- The sibling that a new child of `n` before `oldChild` comes after. -/
def prevOf (h : Nodes) (n : Ptr Node) (oldChild : Ref Node) : Ref Node :=
  match oldChild with
  | some old => h.link .prevSibling old
  | none => h.link .lastChild n

def insertBefore (h : Nodes) (n newChild : Ptr Node) (oldChild : Ref Node) : Except Fault Nodes :=
  if h.attached newChild then
    throw (.panicked "html: InsertBefore called for an attached child Node")
  else
    let prev := h.prevOf n oldChild
    let next := oldChild
    let h := h.setLinkOr .nextSibling prev .firstChild n (some newChild)
    let h := h.setLinkOr .prevSibling next .lastChild n (some newChild)
    let h := h.setLink .parent newChild (some n)
    let h := h.setLink .prevSibling newChild prev
    pure (h.setLink .nextSibling newChild next)

def appendChild (h : Nodes) (n c : Ptr Node) : Except Fault Nodes :=
  if h.attached c then
    throw (.panicked "html: AppendChild called for an attached child Node")
  else
    let last := h.link .lastChild n
    let h := h.setLinkOr .nextSibling last .firstChild n (some c)
    let h := h.setLink .lastChild n (some c)
    let h := h.setLink .parent c (some n)
    pure (h.setLink .prevSibling c last)

def removeChild (h : Nodes) (n c : Ptr Node) : Except Fault Nodes :=
  if h.link .parent c ≠ some n then
    throw (.panicked "html: RemoveChild called for a non-child Node")
  else
    let h := h.setLinkIf (h.link .firstChild n = some c) .firstChild n (h.link .nextSibling c)
    let h := h.setLinkOf .prevSibling (h.link .nextSibling c) (h.link .prevSibling c)
    let h := h.setLinkIf (h.link .lastChild n = some c) .lastChild n (h.link .prevSibling c)
    let h := h.setLinkOf .nextSibling (h.link .prevSibling c) (h.link .nextSibling c)
    let h := h.setLink .parent c none
    let h := h.setLink .prevSibling c none
    pure (h.setLink .nextSibling c none)

/-- The same nodes with other links. -/
structure Relinks (h h' : Nodes) (links : Links (Ptr Node)) : Prop where
  links : h'.links = links
  content : h'.content = h.content
  size : h'.size = h.size

section
variable {h : Nodes} {kids : Ptr Node → List (Ptr Node)} {n c : Ptr Node} {xs ys : List (Ptr Node)}

/-- Taking out a child, whatever its neighbours are. -/
theorem removeChild_eq (consistent : h.links.Consistent kids) (listed : kids n = xs ++ c :: ys) :
    ∃ h', removeChild h n c = .ok h' ∧ Relinks h h' (h.links.relinked n c xs [] ys) := by
  obtain ⟨parent, prev, next⟩ := consistent.placed listed
  have first := consistent.first n
  have last := consistent.last n
  have nodup := consistent.nodup n
  change h.link _ _ = _ at parent prev next first last
  rw [listed] at first last nodup
  simp only [removeChild, parent, ne_eq, not_true_eq_false, if_false]
  refine ⟨_, rfl, ?_, by simp, by simp⟩
  funext l q
  cases l with
  | parent => simp [links, Links.relinked]
  | firstChild =>
    by_cases here : q = n
    · subst here
      cases xs with
      | nil => simp [links, Links.relinked, first, next]
      | cons a us =>
        have other : a ≠ c := by
          rintro rfl
          simp at nodup
        simp [links, Links.relinked, first, other]
    · simp [links, Links.relinked, here]
  | lastChild =>
    by_cases here : q = n
    · subst here
      rcases List.eq_nil_or_concat ys with rfl | ⟨vs, b, rfl⟩
      · simp [links, Links.relinked, last, prev]
      · have other : b ≠ c := by
          rintro rfl
          simp [List.nodup_append] at nodup
        have shape : xs ++ c :: vs.concat b = (xs ++ c :: vs) ++ [b] := by simp
        rw [shape, List.getLast?_concat] at last
        simp [links, Links.relinked, last, other]
    · simp [links, Links.relinked, here]
  | prevSibling => simp [links, Links.relinked, prev, next]
  | nextSibling => simp [links, Links.relinked, prev, next]

/-- Putting in a detached node before one of the children, or at the end. -/
theorem insertBefore_eq (consistent : h.links.Consistent kids) (listed : kids n = xs ++ ys)
    (detached : ∀ q, c ∉ kids q) :
    ∃ h', insertBefore h n c ys.head? = .ok h' ∧ Relinks h h' (h.links.relinked n c xs [c] ys) := by
  obtain ⟨noParent, noPrev, noNext⟩ := consistent.detached detached
  have first := consistent.first n
  have last := consistent.last n
  change h.link _ _ = _ at noParent noPrev noNext first last
  rw [listed] at first last
  have prev : h.prevOf n ys.head? = xs.getLast? := by
    cases ys with
    | nil => simpa [prevOf] using last
    | cons b vs => exact (consistent.placed listed).2.1
  have free : ¬h.attached c := by simp [attached, noParent, noPrev, noNext]
  simp only [insertBefore, free, if_false, prev]
  refine ⟨_, rfl, ?_, by simp, by simp⟩
  funext l q
  cases l with
  | parent => simp [links, Links.relinked]
  | firstChild =>
    by_cases here : q = n
    · subst here
      cases xs with
      | nil => simp [links, Links.relinked]
      | cons a us => simp [links, Links.relinked, first]
    · simp [links, Links.relinked, here]
  | lastChild =>
    by_cases here : q = n
    · subst here
      cases ys with
      | nil => simp [links, Links.relinked]
      | cons b vs => simp [links, Links.relinked, last]
    · simp [links, Links.relinked, here]
  | prevSibling => simp [links, Links.relinked]
  | nextSibling => simp [links, Links.relinked]

/-- The nodes hold the lists of children `kids`; only allocated nodes take part. -/
structure Holds (h : Nodes) (kids : Ptr Node → List (Ptr Node)) : Prop where
  consistent : h.links.Consistent kids
  bounded : ∀ p, ∀ c ∈ kids p, p.addr < h.size ∧ c.addr < h.size

/-- The outcome of an operation that changes the children of `n` to `list`. -/
structure Updates (h h' : Nodes) (kids : Ptr Node → List (Ptr Node)) (n : Ptr Node)
    (list : List (Ptr Node)) : Prop where
  holds : h'.Holds (Function.update kids n list)
  content : h'.content = h.content
  size : h'.size = h.size

theorem Relinks.updates (relinks : Relinks h h' (h.links.relinked n c xs mid' ys))
    (site : h.links.Site kids n c xs mid ys) (bounded : ∀ p, ∀ d ∈ kids p, p.addr < h.size ∧ d.addr < h.size)
    (shape : mid' = [] ∨ mid' = [c]) (allocated : n.addr < h.size ∧ c.addr < h.size) :
    Updates h h' kids n (xs ++ mid' ++ ys) := by
  refine ⟨⟨relinks.links ▸ site.relinked shape, ?_⟩, relinks.content, relinks.size⟩
  intro p d member
  rw [relinks.size]
  by_cases here : p = n
  · subst here
    rw [Function.update_self] at member
    rcases shape with rfl | rfl
    · exact bounded p d (by rw [site.listed]; simp at member ⊢; tauto)
    · by_cases same : d = c
      · exact same ▸ allocated
      · exact bounded p d (by rw [site.listed]; simp [same] at member ⊢; tauto)
  · rw [Function.update_of_ne here] at member
    exact bounded p d member

/-- `RemoveChild` on a child. -/
theorem Holds.removeChild (holds : h.Holds kids) (listed : kids n = xs ++ c :: ys) :
    ∃ h', removeChild h n c = .ok h' ∧ Updates h h' kids n (xs ++ ys) := by
  obtain ⟨h', removed, relinks⟩ := removeChild_eq holds.consistent listed
  have member : c ∈ kids n := by simp [listed]
  have outside : c ∉ xs ++ ys := by
    have nodup := holds.consistent.nodup n
    rw [listed, List.nodup_middle, List.nodup_cons] at nodup
    exact nodup.1
  have site : h.links.Site kids n c xs [c] ys :=
    ⟨holds.consistent, by simp [listed], by simp, outside,
      fun q other also => other (holds.consistent.parent_unique also member)⟩
  have updates := relinks.updates site holds.bounded (.inl rfl) (holds.bounded n c member)
  exact ⟨h', removed, by simpa using updates⟩

/-- `InsertBefore` of a detached node before the first node of `ys`. -/
theorem Holds.insertBefore (holds : h.Holds kids) (listed : kids n = xs ++ ys)
    (detached : ∀ q, c ∉ kids q) (allocated : n.addr < h.size ∧ c.addr < h.size) :
    ∃ h', insertBefore h n c ys.head? = .ok h' ∧ Updates h h' kids n (xs ++ c :: ys) := by
  obtain ⟨h', inserted, relinks⟩ := insertBefore_eq holds.consistent listed detached
  have site : h.links.Site kids n c xs [] ys :=
    ⟨holds.consistent, by simp [listed], by simp, listed ▸ detached n, fun q _ => detached q⟩
  have updates := relinks.updates site holds.bounded (.inr rfl) allocated
  exact ⟨h', inserted, by simpa using updates⟩

theorem ext_links {h h' : Nodes} (links : h'.links = h.links) (content : h'.content = h.content)
    (size : h'.size = h.size) : h' = h := by
  obtain ⟨cell, bound⟩ := h
  obtain ⟨cell', bound'⟩ := h'
  obtain rfl : cell' = cell := by
    funext p
    have link : ∀ l, (cell' p).link l = (cell p).link l := fun l => congrFun (congrFun links l) p
    have same : (cell' p).toContent = (cell p).toContent := congrFun content p
    have parent := link .parent
    have first := link .firstChild
    have last := link .lastChild
    have prev := link .prevSibling
    have next := link .nextSibling
    generalize cell' p = m, cell p = k at *
    obtain ⟨_, _, _, _, _, _⟩ := m
    obtain ⟨_, _, _, _, _, _⟩ := k
    simp only [Node.link] at parent first last prev next same
    subst parent first last prev next same
    rfl
  exact congrArg (Nodes.mk cell') size

/-- `AppendChild` is `InsertBefore` without a next sibling. -/
theorem appendChild_eq (consistent : h.links.Consistent kids) (detached : ∀ q, c ∉ kids q) :
    appendChild h n c = insertBefore h n c none := by
  obtain ⟨noParent, noPrev, noNext⟩ := consistent.detached detached
  have last := consistent.last n
  change h.link _ _ = _ at noParent noPrev noNext last
  have free : ¬h.attached c := by simp [attached, noParent, noPrev, noNext]
  have other : h.link .lastChild n ≠ some c := by
    intro same
    exact detached n (List.mem_of_getLast? (last.symm.trans same))
  simp only [appendChild, insertBefore, free, if_false, prevOf]
  refine congrArg Except.ok (ext_links ?_ (by simp) (by simp))
  funext l q
  by_cases self : q = c
  · subst self
    cases l <;> simp [links, noNext, other]
  · cases l <;> simp [links, self]

theorem Holds.appendChild (holds : h.Holds kids) (detached : ∀ q, c ∉ kids q)
    (allocated : n.addr < h.size ∧ c.addr < h.size) :
    ∃ h', appendChild h n c = .ok h' ∧ Updates h h' kids n (kids n ++ [c]) := by
  rw [appendChild_eq holds.consistent detached]
  have inserted := holds.insertBefore (List.append_nil (kids n)).symm detached allocated
  rw [List.head?_nil] at inserted
  exact inserted

end
end Nodes
end Gopherize.Html
