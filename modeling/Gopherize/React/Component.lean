import Gopherize.Core.Objects
import Mathlib.Data.Sigma.Basic

/-! react.go: components as Go values over JavaScript objects. `State`, `SetState`,
`Props`, `Children`, `CreateElement`, and the functions that `buildReactComponent`
hands to React, each with the property reads and writes of the source. -/
namespace Gopherize.React
open GoCore

variable {C T E : Type} {Val : T → Type}

/-- A value in an interface: its type with the value. -/
abbrev Dyn (Val : T → Type) : Type := (t : T) × Val t

/-- What `wrapValue` is given: a `*State`, a `*Props` or a `*[]Element`. -/
inductive Boxed (Val : T → Type) (E : Type) where
  | state (s : Dyn Val)
  | props (p : Dyn Val)
  | children (es : List E)

abbrev JsObjects (Val : T → Type) (E : Type) := Objects (Boxed Val E)

abbrev JsRef (Val : T → Type) (E : Type) := Objects.Value (Boxed Val E)

/-- The functions that `buildReactComponent` hands to React and that read nothing: each builds the
component and calls its method, if it has one. -/
inductive Hook where
  | willMount
  | didMount
  | willUnmount

/-- The methods of a program's components and of their states and properties, as react.go calls them.
They are generated, so that each may assert the type it expects. -/
structure Generated (C : Type) (Val : T → Type) where
  /-- How `EqualsIntf` compares two values of one type: with `==`, or with the type's own `Equals`. -/
  equals : (t : T) → Val t → Val t → Bool
  /-- What `GetInitialStateIntf` gives, for a component that has a state. -/
  initial : C → Option (Dyn Val)
  /-- The type that `ComponentWillReceivePropsIntf` asserts, for a component that has the method. -/
  receives : C → Option T
  hooks : C → Hook → Bool

section Assertions
variable [DecidableEq T] [ToString T]

/-- The type assertion `v.(t)`, which fails on a nil interface as well. -/
def assertType (t : T) : Option (Dyn Val) → Except Fault (Val t)
  | some v => if same : v.1 = t then pure (same ▸ v.2) else throw (.typeAssertion (toString t))
  | none => throw (.typeAssertion (toString t))

@[simp] theorem assertType_self (t : T) (x : Val t) :
    assertType t (some (⟨t, x⟩ : Dyn Val)) = .ok x := by
  simp [assertType]

/-- The generated `EqualsIntf`. -/
def equalsIntf (equals : (t : T) → Val t → Val t → Bool) (a b : Option (Dyn Val)) :
    Except Fault Bool :=
  match a with
  | none => throw (.panicked "invalid memory address or nil pointer dereference")
  | some a => do pure (equals a.1 a.2 (← assertType a.1 b))

end Assertions

def unwrapState : JsRef Val E → Except Fault (Dyn Val)
  | .boxed (.state s) => pure s
  | _ => throw (.typeAssertion "*react.State")

def unwrapProps : JsRef Val E → Except Fault (Dyn Val)
  | .boxed (.props p) => pure p
  | _ => throw (.typeAssertion "*react.Props")

def unwrapChildren : JsRef Val E → Except Fault (List E)
  | .boxed (.children es) => pure es
  | _ => throw (.typeAssertion "*[]react.Element")

/-- `ComponentDef`; `elem` is the `this` of React, and nil outside of a render. -/
structure ComponentDef (Val : T → Type) (E : Type) where
  elem : JsRef Val E := .null

namespace ComponentDef
variable (c : ComponentDef Val E) (h : JsObjects Val E)

def Props : Except Fault (Dyn Val) := do
  unwrapProps (← h.get (← h.get c.elem "props") "_props")

def Children : Except Fault (Option (List E)) := do
  match ← h.get (← h.get c.elem "props") "_children" with
  | .undefined => pure none
  | v => do pure (some (← unwrapChildren v))

def State : Except Fault (Dyn Val) := do
  let rs ← h.get c.elem "state"
  let is ← h.get rs "_state"
  unwrapState (← h.get is "__lastState")

variable [DecidableEq T] [ToString T]

/-- The objects afterwards, and whether `forceUpdate` was called. -/
def SetState (equals : (t : T) → Val t → Val t → Bool) (i : Dyn Val) :
    Except Fault (Bool × JsObjects Val E) := do
  let rs ← h.get c.elem "state"
  let is ← h.get rs "_state"
  let cur ← unwrapState (← h.get is "__lastState")
  if ← equalsIntf equals (some i) (some cur) then pure (false, h)
  else do
    let h ← h.set is "__lastState" (.boxed (.state i))
    pure (true, h)

/-- The generated `State` and `Props` of a component with states or properties of type `t`. -/
def StateAs (t : T) : Except Fault (Val t) := do assertType t (some (← c.State h))

def PropsAs (t : T) : Except Fault (Val t) := do assertType t (some (← c.Props h))

end ComponentDef

/-- `getInitialState` of a component whose `GetInitialStateIntf`, if it has one,
gives `initial`. -/
def getInitialState (initial : Option (Dyn Val)) (h : JsObjects Val E) :
    Except Fault (JsRef Val E × JsObjects Val E) := do
  let wv : JsRef Val E := match initial with
    | some x => .boxed (.state x)
    | none => .null
  let (res, h) := h.new
  let (is, h) := h.new
  let h ← h.set (.object res) "_state" (.object is)
  let h ← h.set (.object is) "__lastState" wv
  pure (.object res, h)

/-- The current properties as `shouldComponentUpdate` reads them; `none` where it
returns false at once. -/
def curProps (h : JsObjects Val E) (this : JsRef Val E) : Except Fault (Option (Option (Dyn Val))) :=
  match this with
  | .null => pure (some none)
  | this => do
    match ← h.get this "props" with
    | .null => pure (some none)
    | p =>
      match h.has p "_props" with
      | some true => do
        match ← h.get p "_props" with
        | .null => pure (some none)
        | v => do pure (some (some (← unwrapProps v)))
      | _ => pure none

def nextProps (h : JsObjects Val E) (next : JsRef Val E) : Except Fault (Option (Dyn Val)) :=
  match next with
  | .null => pure none
  | next =>
    match h.has next "_props" with
    | some true => do pure (some (← unwrapProps (← h.get next "_props")))
    | _ => pure none

def shouldComponentUpdate [DecidableEq T] [ToString T] (equals : (t : T) → Val t → Val t → Bool)
    (h : JsObjects Val E) (this next : JsRef Val E) : Except Fault Bool := do
  match ← curProps h this with
  | none => pure false
  | some cur => do
    let same ← equalsIntf equals cur (← nextProps h next)
    pure !same

/-- React's own check before an update: a component that waits for an update is not asked. -/
def checkShouldComponentUpdate (forced : Bool) (asked : Except Fault Bool) : Except Fault Bool :=
  if forced then pure true else asked

/-- The properties that a component's own `ComponentWillReceiveProps` is called with, if it has one. -/
def componentWillReceiveProps [DecidableEq T] [ToString T] (receives : Option T) (h : JsObjects Val E)
    (next : JsRef Val E) : Except Fault (Option (Dyn Val)) :=
  match receives with
  | none => pure none
  | some t => do
    let ourProps ← unwrapProps (← h.get next "_props")
    pure (some ⟨t, ← assertType t (some ourProps)⟩)

/-- The object that `CreateElement` hands to React. -/
def propsWrap (newprops : Option (Dyn Val)) (children : Option (List E)) (h : JsObjects Val E) :
    Except Fault (Nat × JsObjects Val E) := do
  let (o, h) := h.new
  let h ← match newprops with
    | some p => h.set (.object o) "_props" (.boxed (.props p))
    | none => pure h
  let h ← match children with
    | some es => h.set (.object o) "_children" (.boxed (.children es))
    | none => pure h
  pure (o, h)

/-- `compMap`, and the classes that `buildReactComponent` made, by their builders. -/
structure Classes (C : Type) where
  compMap : C → Option Nat := fun _ => none
  built : List C := []

/-- The class of a component, built on first use. -/
def Classes.lookup [DecidableEq C] (k : Classes C) (typ : C) : Nat × Classes C :=
  match k.compMap typ with
  | some comp => (comp, k)
  | none => (k.built.length,
      ⟨Function.update k.compMap typ (some k.built.length), k.built ++ [typ]⟩)

/-- What `React.createElement` is given: a class, the object with the properties and
the children. -/
structure JsElement (E : Type) where
  comp : Nat
  propsWrap : Nat
  children : List E

def CreateElement [DecidableEq C] (typ : C) (newprops : Option (Dyn Val)) (children : Option (List E))
    (k : Classes C) (h : JsObjects Val E) :
    Except Fault (JsElement E × Classes C × JsObjects Val E) := do
  let (comp, k) := k.lookup typ
  let (o, h) ← propsWrap newprops children h
  pure (⟨comp, o, children.getD []⟩, k, h)

end Gopherize.React
