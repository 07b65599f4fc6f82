import Gopherize.Core.Pointwise
import Gopherize.React.Component

/-! Mounted components. React keeps an object for each of them, asks for its state
when it is mounted, and asks `shouldComponentUpdate` when a parent hands it new
properties, unless an update of its own is due. Over any sequence of these events the
objects of react.go behave as a list of components, each with its properties and its state. -/
namespace Gopherize.React
open GoCore

variable {C T E : Type} {Val : T → Type}

/-- What happens to the components. React calls the hook `willMount` after it has mounted a
component, and `willReceive` before `receive`; what the component's own method then does are the
events that follow. `receive` is for an element that the component has not received before. -/
inductive Event (C : Type) (Val : T → Type) (E : Type) where
  | create (typ : C) (props : Option (Dyn Val)) (children : Option (List E))
  | mount (element : Nat)
  | hook (component : Nat) (which : Hook)
  | willReceive (component element : Nat)
  | receive (component element : Nat)
  | setState (component : Nat) (s : Dyn Val)
  /-- React does the update that `forceUpdate` asked for, if one is due. -/
  | update (component : Nat)

inductive Outcome (Val : T → Type) where
  | created
  | mounted
  /-- Whether the component has a method for the hook. -/
  | called (has : Bool)
  /-- The properties that the component's own method is called with. -/
  | told (props : Option (Dyn Val))
  /-- An update, with whether the component is rendered again. -/
  | updated (render : Bool)
  /-- A call of `SetState`, with whether it asked for an update. -/
  | stored (force : Bool)
  | absent

section Abstract

/-- An element before it is mounted. -/
structure Described (C : Type) (Val : T → Type) (E : Type) where
  typ : C
  props : Option (Dyn Val)
  children : Option (List E)

/-- A mounted component with its state, and whether it waits for an update of its own. -/
structure Mounted (C : Type) (Val : T → Type) (E : Type) extends Described C Val E where
  state : Option (Dyn Val)
  forced : Bool := false

structure Components (C : Type) (Val : T → Type) (E : Type) where
  elements : List (Described C Val E) := []
  mounted : List (Mounted C Val E) := []

/-- What `State` gives for a component; one without a state has none to read. -/
def stateOf : Option (Dyn Val) → Except Fault (Dyn Val)
  | some s => .ok s
  | none => .error (.typeAssertion "*react.State")

def propsOf : Option (Dyn Val) → Except Fault (Dyn Val)
  | some p => .ok p
  | none => .error (.typeAssertion "*react.Props")

variable [DecidableEq C] [DecidableEq T] [ToString T]

/-- Whether new properties ask for a render: when they are not equal to the old ones. A
component without properties is never rendered by its parent; properties may not
disappear or change their type. -/
def differs (equals : (t : T) → Val t → Val t → Bool) :
    Option (Dyn Val) → Option (Dyn Val) → Except Fault Bool
  | none, _ => pure false
  | some p, q => do pure !(← equalsIntf equals (some p) q)

/-- Whether a new state is stored: when it is not equal to the old one. -/
def replaces (equals : (t : T) → Val t → Val t → Bool) (s : Dyn Val) (state : Option (Dyn Val)) :
    Except Fault Bool := do
  pure !(← equalsIntf equals (some s) (some (← stateOf state)))

/-- The properties that `ComponentWillReceivePropsIntf` is called with. -/
def tells (receives : Option T) (props : Option (Dyn Val)) : Except Fault (Option (Dyn Val)) :=
  match receives with
  | none => pure none
  | some t => do pure (some ⟨t, ← assertType t (some (← propsOf props))⟩)

def Components.step (g : Generated C Val) (a : Components C Val E) :
    Event C Val E → Except Fault (Outcome Val × Components C Val E)
  | .create typ props children =>
    pure (.created, { a with elements := a.elements ++ [⟨typ, props, children⟩] })
  | .mount e =>
    match a.elements[e]? with
    | none => pure (.absent, a)
    | some d =>
      pure (.mounted, { a with mounted := a.mounted ++ [{ d with state := g.initial d.typ }] })
  | .hook i which =>
    match a.mounted[i]? with
    | none => pure (.absent, a)
    | some m => pure (.called (g.hooks m.typ which), a)
  | .willReceive i e =>
    match a.mounted[i]?, a.elements[e]? with
    | some m, some d =>
      if d.typ = m.typ then do pure (.told (← tells (g.receives m.typ) d.props), a)
      else pure (.absent, a)
    | _, _ => pure (.absent, a)
  | .receive i e =>
    match a.mounted[i]?, a.elements[e]? with
    | some m, some d =>
      if d.typ = m.typ then do
        let render ← checkShouldComponentUpdate m.forced (differs g.equals m.props d.props)
        pure (.updated render, { a with mounted := a.mounted.set i { d with state := m.state } })
      else pure (.absent, a)
    | _, _ => pure (.absent, a)
  | .setState i s =>
    match a.mounted[i]? with
    | none => pure (.absent, a)
    | some m => do
      let force ← replaces g.equals s m.state
      pure (.stored force, { a with mounted := a.mounted.set i { m with
        state := if force then some s else m.state
        forced := m.forced || force } })
  | .update i =>
    match a.mounted[i]? with
    | none => pure (.absent, a)
    | some m =>
      pure (.updated m.forced, { a with mounted := a.mounted.set i { m with forced := false } })

end Abstract

/-- The object of a mounted component, its class, and whether `forceUpdate` was called
on it since its last render. -/
structure Instance where
  this : Nat
  comp : Nat
  forced : Bool := false
  deriving DecidableEq, Repr

structure Machine (C : Type) (Val : T → Type) (E : Type) where
  objects : JsObjects Val E := .empty
  classes : Classes C := {}
  elements : List (JsElement E) := []
  mounted : List Instance := []

section Machine
variable [DecidableEq C] [DecidableEq T] [ToString T]

/-- Mounting an element: a new object with the properties, and the state that
`getInitialState` of its class gives. -/
def Machine.mount (initial : C → Option (Dyn Val)) (m : Machine C Val E) (el : JsElement E) (typ : C) :
    Except Fault (Machine C Val E) := do
  let (this, h) := m.objects.new
  let h ← h.set (.object this) "props" (.object el.propsWrap)
  let (res, h) ← getInitialState (initial typ) h
  let h ← h.set (.object this) "state" res
  pure { m with objects := h, mounted := m.mounted ++ [⟨this, el.comp, false⟩] }

def Machine.step (g : Generated C Val) (m : Machine C Val E) :
    Event C Val E → Except Fault (Outcome Val × Machine C Val E)
  | .create typ props children => do
    let (el, k, h) ← CreateElement typ props children m.classes m.objects
    pure (.created, { m with objects := h, classes := k, elements := m.elements ++ [el] })
  | .mount e =>
    match m.elements[e]? with
    | none => pure (.absent, m)
    | some el =>
      match m.classes.built[el.comp]? with
      | none => pure (.absent, m)
      | some typ => do pure (.mounted, ← m.mount g.initial el typ)
  | .hook i which =>
    match m.mounted[i]? with
    | none => pure (.absent, m)
    | some inst =>
      match m.classes.built[inst.comp]? with
      | none => pure (.absent, m)
      | some typ => pure (.called (g.hooks typ which), m)
  | .willReceive i e =>
    match m.mounted[i]?, m.elements[e]? with
    | some inst, some el =>
      match m.classes.built[inst.comp]? with
      | none => pure (.absent, m)
      | some typ =>
        if el.comp = inst.comp then do
          pure (.told (← componentWillReceiveProps (g.receives typ) m.objects (.object el.propsWrap)), m)
        else pure (.absent, m)
    | _, _ => pure (.absent, m)
  | .receive i e =>
    match m.mounted[i]?, m.elements[e]? with
    | some inst, some el =>
      -- an element of another class is not an update of the component
      if el.comp = inst.comp then do
        let render ← checkShouldComponentUpdate inst.forced
          (shouldComponentUpdate g.equals m.objects (.object inst.this) (.object el.propsWrap))
        let h ← m.objects.set (.object inst.this) "props" (.object el.propsWrap)
        pure (.updated render,
          { m with objects := h, mounted := m.mounted.set i { inst with forced := false } })
      else pure (.absent, m)
    | _, _ => pure (.absent, m)
  | .setState i s =>
    match m.mounted[i]? with
    | none => pure (.absent, m)
    | some inst => do
      let (force, h) ← (ComponentDef.mk (.object inst.this)).SetState m.objects g.equals s
      pure (.stored force,
        { m with objects := h, mounted := m.mounted.set i { inst with forced := inst.forced || force } })
  | .update i =>
    match m.mounted[i]? with
    | none => pure (.absent, m)
    | some inst =>
      pure (.updated inst.forced, { m with mounted := m.mounted.set i { inst with forced := false } })

end Machine

/-- What an object is for: the properties of an element, or one of the three objects
of a component. -/
inductive Role where
  | wrap
  | this (i : Nat)
  | res (i : Nat)
  | inner (i : Nat)
  deriving DecidableEq, Repr

/-- The role belongs to component `i` or to no component. -/
def Role.concerns (i : Nat) : Role → Prop
  | wrap => True
  | this j | res j | inner j => j = i

section Shows
variable (h : JsObjects Val E) (roles : Nat → Role)

/-- The object holds wrapped properties and children. -/
structure Wraps (o : Nat) (props : Option (Dyn Val)) (children : Option (List E)) : Prop where
  inside : o < h.size
  role : roles o = .wrap
  props : h.prop o "_props" = props.map (fun p => .boxed (.props p))
  children : h.prop o "_children" = children.map (fun es => .boxed (.children es))

/-- What `__lastState` holds. -/
def lastState : Option (Dyn Val) → JsRef Val E
  | some s => .boxed (.state s)
  | none => .null

/-- The objects `rs` and `is` between `this` and the state of component `i`. -/
structure Holds (i this rs is : Nat) (state : Option (Dyn Val)) : Prop where
  outer : h.prop this "state" = some (.object rs)
  outerInside : rs < h.size
  outerRole : roles rs = .res i
  nested : h.prop rs "_state" = some (.object is)
  inside : is < h.size
  role : roles is = .inner i
  last : h.prop is "__lastState" = some (lastState state)

/-- The objects of component `i` hold its properties and its state. -/
structure ShowsMounted (i this : Nat) (m : Mounted C Val E) : Prop where
  inside : this < h.size
  role : roles this = .this i
  wrap : ∃ o, h.prop this "props" = some (.object o) ∧ Wraps h roles o m.props m.children
  state : ∃ rs is, Holds h roles i this rs is m.state

end Shows

section Frame
variable {h h' : JsObjects Val E} {roles roles' : Nat → Role}

/-- Old objects keep their role, and those with a role in `P` their properties. -/
structure Keeps (P : Role → Prop) (h h' : JsObjects Val E) (roles roles' : Nat → Role) : Prop where
  grown : h.size ≤ h'.size
  role : ∀ o < h.size, roles' o = roles o
  prop : ∀ o < h.size, P (roles o) → h'.prop o = h.prop o

theorem Keeps.mono {P Q : Role → Prop} (keeps : Keeps P h h' roles roles') (weaker : ∀ r, Q r → P r) :
    Keeps Q h h' roles roles' :=
  ⟨keeps.grown, keeps.role, fun o inside holds => keeps.prop o inside (weaker _ holds)⟩

theorem Wraps.frame (wraps : Wraps h roles o p es)
    (keeps : Keeps (· = .wrap) h h' roles roles') : Wraps h' roles' o p es where
  inside := Nat.lt_of_lt_of_le wraps.inside keeps.grown
  role := (keeps.role o wraps.inside).trans wraps.role
  props := by rw [keeps.prop o wraps.inside wraps.role, wraps.props]
  children := by rw [keeps.prop o wraps.inside wraps.role, wraps.children]

theorem ShowsMounted.frame {m : Mounted C Val E} (shows : ShowsMounted h roles i this m)
    (keeps : Keeps (Role.concerns i) h h' roles roles') : ShowsMounted h' roles' i this m := by
  obtain ⟨o, props, wraps⟩ := shows.wrap
  obtain ⟨rs, is, holds⟩ := shows.state
  have own : h'.prop this = h.prop this :=
    keeps.prop this shows.inside (by rw [shows.role]; rfl)
  refine ⟨Nat.lt_of_lt_of_le shows.inside keeps.grown, (keeps.role this shows.inside).trans shows.role,
    ⟨o, by rw [own, props], wraps.frame (keeps.mono ?_)⟩, rs, is, ?_⟩
  · rintro r rfl
    trivial
  · exact ⟨by rw [own, holds.outer], Nat.lt_of_lt_of_le holds.outerInside keeps.grown,
      (keeps.role rs holds.outerInside).trans holds.outerRole,
      by rw [keeps.prop rs holds.outerInside (by rw [holds.outerRole]; rfl), holds.nested],
      Nat.lt_of_lt_of_le holds.inside keeps.grown, (keeps.role is holds.inside).trans holds.role,
      by rw [keeps.prop is holds.inside (by rw [holds.role]; rfl), holds.last]⟩

end Frame

/-- The objects, classes and lists of the machine stand for the components. -/
structure Represents (m : Machine C Val E) (a : Components C Val E) (roles : Nat → Role) : Prop where
  compMap : ∀ c k, m.classes.compMap c = some k ↔ m.classes.built[k]? = some c
  elements : Pointwise (fun _ el (d : Described C Val E) => m.classes.built[el.comp]? = some d.typ ∧
    Wraps m.objects roles el.propsWrap d.props d.children) m.elements a.elements
  mounted : Pointwise (fun i inst (c : Mounted C Val E) => m.classes.built[inst.comp]? = some c.typ ∧
    inst.forced = c.forced ∧ ShowsMounted m.objects roles i inst.this c) m.mounted a.mounted

section Objects
variable {h : JsObjects Val E} {roles : Nat → Role}

/-- A new object with a role of its own. -/
theorem Keeps.new {P : Role → Prop} {h' : JsObjects Val E} {r : Role} (size : h'.size = h.size + 1)
    (prop : ∀ o < h.size, h'.prop o = h.prop o) :
    Keeps P h h' roles (Function.update roles h.size r) :=
  ⟨by omega, fun o inside => Function.update_of_ne (Nat.ne_of_lt inside) ..,
    fun o inside _ => prop o inside⟩

theorem propsWrap_eq (h : JsObjects Val E) (roles : Nat → Role) (props : Option (Dyn Val)) (children : Option (List E)) :
    ∃ h', propsWrap props children h = .ok (h.size, h') ∧ (∀ o < h.size, h'.prop o = h.prop o) ∧
      h'.size = h.size + 1 ∧ Wraps h' (Function.update roles h.size .wrap) h.size props children := by
  have fresh : ∀ o < h.size, o ≠ h.size := fun o inside => Nat.ne_of_lt inside
  cases props with
  | none =>
    cases children with
    | none =>
      exact ⟨h.new.2, rfl, fun o inside => h.prop_new inside, rfl, by simp, by simp, by simp, by simp⟩
    | some es =>
      refine ⟨h.new.2.assign h.size "_children" (.boxed (.children es)), rfl, ?_, rfl, by simp, by simp,
        by simp, by simp⟩
      intro o inside
      rw [Objects.prop_assign _ _ _ (fresh o inside), h.prop_new inside]
  | some p =>
    cases children with
    | none =>
      refine ⟨h.new.2.assign h.size "_props" (.boxed (.props p)), rfl, ?_, rfl, by simp, by simp,
        by simp, by simp⟩
      intro o inside
      rw [Objects.prop_assign _ _ _ (fresh o inside), h.prop_new inside]
    | some es =>
      refine ⟨(h.new.2.assign h.size "_props" (.boxed (.props p))).assign h.size "_children"
        (.boxed (.children es)), rfl, ?_, rfl, by simp, by simp, by simp, by simp⟩
      intro o inside
      rw [Objects.prop_assign _ _ _ (fresh o inside), Objects.prop_assign _ _ _ (fresh o inside),
        h.prop_new inside]

theorem State_eq (holds : Holds h roles i this rs is state) :
    (ComponentDef.mk (.object this)).State h = unwrapState (lastState state : JsRef Val E) := by
  simp [ComponentDef.State, holds.outer, holds.nested, holds.last]

/-- Storing a state touches the inner object of its component only. -/
theorem Keeps.assign {P : Role → Prop} (outside : ¬ P (roles o)) (name : String) (x : JsRef Val E) :
    Keeps P h (h.assign o name x) roles roles := by
  refine ⟨Nat.le_refl _, fun _ _ => rfl, fun q _ holds => Objects.prop_assign _ _ _ ?_⟩
  rintro rfl
  exact outside holds

variable [DecidableEq T] [ToString T] (equals : (t : T) → Val t → Val t → Bool)

theorem shouldComponentUpdate_eq {m : Mounted C Val E} (shows : ShowsMounted h roles i this m)
    (wraps : Wraps h roles o props children) :
    shouldComponentUpdate equals h (.object this) (.object o) = differs equals m.props props := by
  obtain ⟨old, current, wrapped⟩ := shows.wrap
  have cur : curProps h (.object this) = .ok (m.props.map some) := by
    cases given : m.props with
    | none =>
      have absent := wrapped.props
      simp only [given, Option.map_none] at absent
      simp [curProps, current, Objects.has, absent]
    | some p =>
      have present := wrapped.props
      simp only [given, Option.map_some] at present
      simp [curProps, current, Objects.has, present, unwrapProps]
  have next : nextProps h (.object o) = .ok props := by
    cases given : props with
    | none => simp [nextProps, Objects.has, wraps.props, given]
    | some p => simp [nextProps, Objects.has, wraps.props, given, unwrapProps]
  rw [shouldComponentUpdate, cur, next]
  cases m.props with
  | none => rfl
  | some p => rfl

theorem componentWillReceiveProps_eq (wraps : Wraps h roles o props children) (receives : Option T) :
    componentWillReceiveProps receives h (.object o) = tells receives props := by
  cases receives with
  | none => rfl
  | some t =>
    have given := wraps.props
    cases props with
    | none => simp at given; simp [componentWillReceiveProps, tells, given, propsOf, unwrapProps]
    | some p => simp at given; simp [componentWillReceiveProps, tells, given, propsOf, unwrapProps]

/-- `SetState` stores a state that differs and asks for an update, and does nothing
otherwise. -/
theorem SetState_eq (holds : Holds h roles i this rs is state) (s : Dyn Val) :
    (ComponentDef.mk (.object this)).SetState h equals s = (do
      let force ← replaces equals s state
      pure (force, if force then h.assign is "__lastState" (.boxed (.state s)) else h)) := by
  have reads : (ComponentDef.mk (.object this)).SetState h equals s = (do
      let cur ← unwrapState (lastState state : JsRef Val E)
      if ← equalsIntf equals (some s) (some cur) then pure (false, h)
      else pure (true, h.assign is "__lastState" (.boxed (.state s)))) := by
    simp [ComponentDef.SetState, holds.outer, holds.nested, holds.last]
  rw [reads]
  cases state with
  | none => rfl
  | some cur =>
    simp only [lastState, unwrapState, replaces, stateOf, Fault.pure_eq_ok, Fault.ok_bind]
    rcases equalsIntf equals (some s) (some cur) with e | same
    · rfl
    · cases same <;> rfl

end Objects

section Classes
variable [DecidableEq C]

/-- Each type has one class, and old classes stay. -/
theorem Classes.lookup_eq {k : Classes C}
    (table : ∀ c n, k.compMap c = some n ↔ k.built[n]? = some c) (typ : C) :
    (∀ c (n : Nat), (k.lookup typ).2.compMap c = some n ↔ (k.lookup typ).2.built[n]? = some c) ∧
      (k.lookup typ).2.built[(k.lookup typ).1]? = some typ ∧
      ∀ (n : Nat) c, k.built[n]? = some c → (k.lookup typ).2.built[n]? = some c := by
  rw [Classes.lookup]
  cases found : k.compMap typ with
  | some comp => exact ⟨table, (table typ comp).mp found, fun _ _ old => old⟩
  | none =>
    have new : ∀ n : Nat, k.built[n]? ≠ some typ := by
      intro n old
      rw [(table typ n).mpr old] at found
      cases found
    refine ⟨?_, List.getElem?_concat_length, ?_⟩
    · intro c n
      dsimp only
      by_cases same : c = typ
      · subst same
        rw [Function.update_self, Option.some.injEq]
        constructor
        · rintro rfl
          exact List.getElem?_concat_length
        · intro at_n
          by_contra other
          by_cases inside : n < k.built.length
          · rw [List.getElem?_append_left inside] at at_n
            exact new n at_n
          · rw [List.getElem?_eq_none (by simp; omega)] at at_n
            cases at_n
      · rw [Function.update_of_ne same, table]
        by_cases inside : n < k.built.length
        · rw [List.getElem?_append_left inside]
        · rw [List.getElem?_eq_none (by omega), List.getElem?_append_right (by omega)]
          constructor
          · intro impossible
            cases impossible
          · intro at_n
            obtain ⟨_, at_n⟩ := List.getElem?_eq_some_iff.mp at_n
            rw [List.getElem_singleton] at at_n
            exact absurd at_n.symm same
    · intro n c old
      have inside := (List.getElem?_eq_some_iff.mp old).1
      rw [List.getElem?_append_left inside]
      exact old

end Classes

section Parts
variable {m : Machine C Val E} {a : Components C Val E} {h : JsObjects Val E} {roles : Nat → Role}

/-- Elements and components of one class have one type. -/
theorem Represents.comp_eq_iff {c c' : C} {j k : Nat} (rep : Represents m a roles)
    (left : m.classes.built[j]? = some c) (right : m.classes.built[k]? = some c') :
    j = k ↔ c = c' := by
  constructor
  · rintro rfl
    exact Option.some.inj (left.symm.trans right)
  · rintro rfl
    exact Option.some.inj (((rep.compMap c j).mpr left).symm.trans ((rep.compMap c k).mpr right))

/-- Whether an update is due is not kept in the objects. -/
theorem ShowsMounted.waiting {c : Mounted C Val E} (shows : ShowsMounted h roles i this c) (forced : Bool) :
    ShowsMounted h roles i this { c with forced } :=
  ⟨shows.inside, shows.role, shows.wrap, shows.state⟩

/-- New properties in the object of a component. -/
theorem ShowsMounted.receive {c : Mounted C Val E} {d : Described C Val E}
    (shows : ShowsMounted h roles i this c) (wraps : Wraps h roles o d.props d.children) :
    ShowsMounted (h.assign this "props" (.object o)) roles i this
      ({ d with state := c.state } : Mounted C Val E) := by
  obtain ⟨rs, is, holds⟩ := shows.state
  have other : ∀ q, roles q ≠ .this i → q ≠ this := by
    rintro q different rfl
    exact different shows.role
  have outer := Objects.prop_assign h "props" (.object o) (other rs (by simp [holds.outerRole]))
  have inner := Objects.prop_assign h "props" (.object o) (other is (by simp [holds.role]))
  refine ⟨shows.inside, shows.role, ⟨o, by simp, wraps.frame (Keeps.assign ?_ ..)⟩, rs, is, ?_⟩
  · simp [shows.role]
  · exact ⟨by simp [holds.outer], holds.outerInside, holds.outerRole, by rw [outer, holds.nested],
      holds.inside, holds.role, by rw [inner, holds.last]⟩

/-- A new state in the inner object of a component. -/
theorem ShowsMounted.store {c : Mounted C Val E} (shows : ShowsMounted h roles i this c)
    (holds : Holds h roles i this rs is c.state) (s : Dyn Val) :
    ShowsMounted (h.assign is "__lastState" (.boxed (.state s))) roles i this
      { c with state := some s } := by
  obtain ⟨o, props, wraps⟩ := shows.wrap
  have other : ∀ q, roles q ≠ .inner i → q ≠ is := by
    rintro q different rfl
    exact different holds.role
  have own := Objects.prop_assign h "__lastState" (.boxed (.state s)) (other this (by simp [shows.role]))
  have outer := Objects.prop_assign h "__lastState" (.boxed (.state s))
    (other rs (by simp [holds.outerRole]))
  refine ⟨shows.inside, shows.role, ⟨o, by rw [own, props], wraps.frame (Keeps.assign ?_ ..)⟩, rs, is, ?_⟩
  · simp [holds.role]
  · exact ⟨by rw [own, holds.outer], holds.outerInside, holds.outerRole, by rw [outer, holds.nested],
      holds.inside, holds.role, by simp [lastState]⟩

/-- The roles of the three objects that mounting component `i` makes. -/
def mountRoles (roles : Nat → Role) (size i : Nat) : Nat → Role :=
  Function.update (Function.update (Function.update roles size (.this i)) (size + 1) (.res i))
    (size + 2) (.inner i)

/-- The objects after mounting: `this`, then the two of its state. -/
def mountObjects (h : JsObjects Val E) (o : Nat) (state : Option (Dyn Val)) : JsObjects Val E :=
  let n := h.size
  let h := (h.new.2.assign n "props" (.object o)).new.2.new.2
  ((h.assign (n + 1) "_state" (.object (n + 2))).assign (n + 2) "__lastState" (lastState state)).assign n
    "state" (.object (n + 1))

theorem mountObjects_old (h : JsObjects Val E) (state : Option (Dyn Val)) (inside : q < h.size) :
    (mountObjects h o state).prop q = h.prop q := by
  have zero : q ≠ h.size := by omega
  have one : q ≠ h.size + 1 := by omega
  have two : q ≠ h.size + 2 := by omega
  simp [mountObjects, Objects.new, Objects.assign, zero, one, two]

theorem mountObjects_props (h : JsObjects Val E) (o : Nat) (state : Option (Dyn Val)) :
    (mountObjects h o state).prop h.size "props" = some (.object o) := by
  have other : h.size ≠ h.size + 1 + 1 := by omega
  simp [mountObjects, Objects.new, Objects.assign, other]

theorem mountObjects_holds (h : JsObjects Val E) (i o : Nat) (state : Option (Dyn Val)) :
    Holds (mountObjects h o state) (mountRoles roles h.size i) i h.size (h.size + 1) (h.size + 2)
      state where
  outer := by simp [mountObjects]
  outerInside := by simp [mountObjects]
  outerRole := by simp [mountRoles]
  nested := by simp [mountObjects, Objects.assign]
  inside := by simp [mountObjects]
  role := by simp [mountRoles]
  last := by simp [mountObjects, Objects.assign]

theorem mount_eq (initial : C → Option (Dyn Val)) (el : JsElement E) (typ : C) :
    m.mount initial el typ = .ok { m with
        objects := mountObjects m.objects el.propsWrap (initial typ),
        mounted := m.mounted ++ [⟨m.objects.size, el.comp, false⟩] } := by
  cases given : initial typ <;> simp [Machine.mount, getInitialState, mountObjects, given, lastState]

theorem mount_keeps (roles : Nat → Role) (h : JsObjects Val E) (o i : Nat) (state : Option (Dyn Val)) (P : Role → Prop) :
    Keeps P h (mountObjects h o state) roles (mountRoles roles h.size i) where
  grown := by simp [mountObjects]; omega
  role q inside := by
    have zero : q ≠ h.size := by omega
    have one : q ≠ h.size + 1 := by omega
    have two : q ≠ h.size + 2 := by omega
    simp [mountRoles, zero, one, two]
  prop q inside _ := mountObjects_old h state inside

theorem represents_initial (roles : Nat → Role) : Represents ({} : Machine C Val E) {} roles :=
  ⟨by simp, Pointwise.nil, Pointwise.nil⟩

end Parts

section Steps
variable [DecidableEq C] [DecidableEq T] [ToString T] {m : Machine C Val E} {a : Components C Val E}
  {roles : Nat → Role}

/-- One event does the same to the objects and to the components. -/
def Simulates (g : Generated C Val) (m : Machine C Val E) (a : Components C Val E) (event : Event C Val E) :
    Prop :=
  match a.step g event with
  | .error e => m.step g event = .error e
  | .ok (outcome, a') => ∃ m' roles', m.step g event = .ok (outcome, m') ∧ Represents m' a' roles'

variable (g : Generated C Val) (rep : Represents m a roles)
include rep

theorem create_simulates (typ : C) (props : Option (Dyn Val)) (children : Option (List E)) :
    Simulates g m a (.create typ props children) := by
  obtain ⟨h', wrapped, old, size, wraps⟩ :=
    propsWrap_eq m.objects roles props children
  obtain ⟨table, own, kept⟩ := Classes.lookup_eq rep.compMap typ
  have done : m.step g (.create typ props children) = .ok (.created,
      { m with objects := h', classes := (m.classes.lookup typ).2,
               elements := m.elements ++ [⟨(m.classes.lookup typ).1, m.objects.size, children.getD []⟩] }) := by
    simp [Machine.step, CreateElement, wrapped]
  refine ⟨_, Function.update roles m.objects.size .wrap, done, table, ?_, ?_⟩
  · refine (rep.elements.imp fun _ _ _ ⟨comp, wrapped⟩ => ?_).concat ⟨own, wraps⟩
    exact ⟨kept _ _ comp, wrapped.frame (Keeps.new size old)⟩
  · exact rep.mounted.imp fun _ _ _ ⟨comp, due, shows⟩ =>
      ⟨kept _ _ comp, due, shows.frame (Keeps.new size old)⟩

theorem mount_simulates (e : Nat) : Simulates g m a (.mount e) := by
  rw [Simulates, Components.step]
  rcases rep.elements.cases e with ⟨none, none'⟩ | ⟨el, d, found, found', comp, wraps⟩
  · rw [none']
    exact ⟨m, roles, by simp [Machine.step, none], rep⟩
  · rw [found']
    have done : m.step g (.mount e) = .ok (.mounted, { m with
        objects := mountObjects m.objects el.propsWrap (g.initial d.typ),
        mounted := m.mounted ++ [⟨m.objects.size, el.comp, false⟩] }) := by
      simp [Machine.step, found, comp, mount_eq]
    have keeps := mount_keeps roles m.objects el.propsWrap m.mounted.length (g.initial d.typ)
    have shows : ShowsMounted (mountObjects m.objects el.propsWrap (g.initial d.typ))
        (mountRoles roles m.objects.size m.mounted.length) m.mounted.length m.objects.size
        ({ d with state := g.initial d.typ } : Mounted C Val E) :=
      ⟨by simp [mountObjects]; omega, by simp [mountRoles],
        ⟨el.propsWrap, mountObjects_props .., wraps.frame (keeps _)⟩,
        _, _, mountObjects_holds ..⟩
    refine ⟨_, mountRoles roles m.objects.size m.mounted.length, done, rep.compMap, ?_, ?_⟩
    · exact rep.elements.imp fun _ _ _ ⟨comp, wrapped⟩ => ⟨comp, wrapped.frame (keeps _)⟩
    · refine (rep.mounted.imp fun _ _ _ ⟨comp, due, shows⟩ => ?_).concat ⟨comp, rfl, shows⟩
      exact ⟨comp, due, shows.frame (keeps _)⟩

theorem hook_simulates (i : Nat) (which : Hook) : Simulates g m a (.hook i which) := by
  rw [Simulates, Components.step, Machine.step]
  rcases rep.mounted.cases i with ⟨none, none'⟩ | ⟨inst, c, found, found', comp, _⟩
  · rw [none, none']
    exact ⟨m, roles, rfl, rep⟩
  · rw [found, found']
    simp only [comp]
    exact ⟨m, roles, rfl, rep⟩

theorem willReceive_simulates (i e : Nat) : Simulates g m a (.willReceive i e) := by
  rw [Simulates, Components.step, Machine.step]
  rcases rep.mounted.cases i with ⟨none, none'⟩ | ⟨inst, c, found, found', comp, _⟩
  · simp only [none, none']
    exact ⟨m, roles, rfl, rep⟩
  rcases rep.elements.cases e with ⟨none, none'⟩ | ⟨el, d, at_e, at_e', comp', wraps⟩
  · simp only [found, found', none, none']
    exact ⟨m, roles, rfl, rep⟩
  simp only [found, found', at_e, at_e', comp, rep.comp_eq_iff comp' comp,
    componentWillReceiveProps_eq wraps]
  by_cases same : d.typ = c.typ
  · rw [if_pos same, if_pos same]
    cases tells (g.receives c.typ) d.props with
    | error e' => rfl
    | ok told => exact ⟨m, roles, rfl, rep⟩
  · rw [if_neg same, if_neg same]
    exact ⟨m, roles, rfl, rep⟩

theorem receive_simulates (i e : Nat) : Simulates g m a (.receive i e) := by
  rw [Simulates, Components.step, Machine.step]
  rcases rep.mounted.cases i with ⟨none, none'⟩ | ⟨inst, c, found, found', comp, due, shows⟩
  · simp only [none, none']
    exact ⟨m, roles, rfl, rep⟩
  rcases rep.elements.cases e with ⟨none, none'⟩ | ⟨el, d, at_e, at_e', comp', wraps⟩
  · simp only [found, found', none, none']
    exact ⟨m, roles, rfl, rep⟩
  simp only [found, found', at_e, at_e', rep.comp_eq_iff comp' comp, due,
    shouldComponentUpdate_eq g.equals shows wraps]
  by_cases same : d.typ = c.typ
  · rw [if_pos same, if_pos same]
    cases checkShouldComponentUpdate c.forced (differs g.equals c.props d.props) with
    | error e' => rfl
    | ok render =>
      refine ⟨_, roles, rfl, rep.compMap, ?_, ?_⟩
      · exact rep.elements.imp fun _ _ _ ⟨comp, wrapped⟩ =>
          ⟨comp, wrapped.frame (Keeps.assign (by simp [shows.role]) ..)⟩
      · refine rep.mounted.set ?_ ⟨same ▸ comp, rfl, shows.receive wraps⟩
        rintro j inst' c' other ⟨comp, due, shows'⟩
        exact ⟨comp, due,
          shows'.frame (Keeps.assign (by simp [shows.role, Role.concerns, Ne.symm other]) ..)⟩
  · rw [if_neg same, if_neg same]
    exact ⟨m, roles, rfl, rep⟩

theorem setState_simulates (i : Nat) (s : Dyn Val) : Simulates g m a (.setState i s) := by
  rw [Simulates, Components.step, Machine.step]
  rcases rep.mounted.cases i with ⟨none, none'⟩ | ⟨inst, c, found, found', comp, due, shows⟩
  · simp only [none, none']
    exact ⟨m, roles, rfl, rep⟩
  obtain ⟨rs, is, holds⟩ := shows.state
  simp only [found, found', SetState_eq g.equals holds]
  cases replaces g.equals s c.state with
  | error e => rfl
  | ok force =>
    cases force with
    | false =>
      refine ⟨_, roles, rfl, rep.compMap, rep.elements, ?_⟩
      exact rep.mounted.set (fun _ _ _ _ related => related) ⟨comp, by rw [due], shows.waiting _⟩
    | true =>
      refine ⟨_, roles, rfl, rep.compMap, ?_, ?_⟩
      · exact rep.elements.imp fun _ _ _ ⟨comp, wrapped⟩ =>
          ⟨comp, wrapped.frame (Keeps.assign (by simp [holds.role]) ..)⟩
      · refine rep.mounted.set ?_ ⟨comp, by rw [due], (shows.store holds s).waiting _⟩
        rintro j inst' c' other ⟨comp, due, shows'⟩
        exact ⟨comp, due,
          shows'.frame (Keeps.assign (by simp [holds.role, Role.concerns, Ne.symm other]) ..)⟩

theorem update_simulates (i : Nat) : Simulates g m a (.update i) := by
  rw [Simulates, Components.step, Machine.step]
  rcases rep.mounted.cases i with ⟨none, none'⟩ | ⟨inst, c, found, found', comp, due, shows⟩
  · simp only [none, none']
    exact ⟨m, roles, rfl, rep⟩
  · simp only [found, found', due]
    refine ⟨_, roles, rfl, rep.compMap, rep.elements, ?_⟩
    exact rep.mounted.set (fun _ _ _ _ related => related) ⟨comp, rfl, shows.waiting false⟩

theorem step_simulates (event : Event C Val E) : Simulates g m a event := by
  cases event with
  | create typ props children => exact create_simulates g rep typ props children
  | mount e => exact mount_simulates g rep e
  | hook i which => exact hook_simulates g rep i which
  | willReceive i e => exact willReceive_simulates g rep i e
  | receive i e => exact receive_simulates g rep i e
  | setState i s => exact setState_simulates g rep i s
  | update i => exact update_simulates g rep i

/-- What the components do, the objects do. -/
theorem step_represents {event : Event C Val E} (done : a.step g event = .ok (outcome, a')) :
    ∃ m' roles', m.step g event = .ok (outcome, m') ∧ Represents m' a' roles' := by
  have simulated := step_simulates g rep event
  rw [Simulates, done] at simulated
  exact simulated

end Steps

section Runs

/-- A panic is recovered and leaves the state as it was. -/
def recovered (s : σ) : Except Fault (Outcome Val × σ) → Except Fault (Outcome Val) × σ
  | .ok (outcome, s') => (.ok outcome, s')
  | .error e => (.error e, s)

/-- The outcomes of a sequence of events, and the state after it. -/
def runEvents (step : σ → Event C Val E → Except Fault (Outcome Val × σ)) (s : σ) :
    List (Event C Val E) → List (Except Fault (Outcome Val)) × σ
  | [] => ([], s)
  | event :: events =>
    let now := recovered s (step s event)
    let rest := runEvents step now.2 events
    (now.1 :: rest.1, rest.2)

/-- The events one after the other, up to the first panic. -/
def runAll (step : σ → Event C Val E → Except Fault (Outcome Val × σ)) (s : σ)
    (events : List (Event C Val E)) : Except Fault σ :=
  events.foldlM (fun s event => do pure (← step s event).2) s

theorem runAll_cons {step : σ → Event C Val E → Except Fault (Outcome Val × σ)}
    (stepped : step s event = .ok (outcome, s')) (events : List (Event C Val E)) :
    runAll step s (event :: events) = runAll step s' events := by
  rw [runAll, List.foldlM_cons, stepped]
  rfl

variable [DecidableEq C] [DecidableEq T] [ToString T] {m : Machine C Val E} {a : Components C Val E}
  {roles : Nat → Role}

theorem runAll_represents (g : Generated C Val) (rep : Represents m a roles)
    {events : List (Event C Val E)} (done : runAll (Components.step g) a events = .ok a') :
    ∃ m' roles', runAll (Machine.step g) m events = .ok m' ∧ Represents m' a' roles' := by
  induction events generalizing m a roles with
  | nil =>
    cases done
    exact ⟨m, roles, rfl, rep⟩
  | cons event events ih =>
    rw [runAll, List.foldlM_cons] at done
    obtain ⟨a₁, first, rest⟩ := Fault.bind_eq_ok.mp done
    obtain ⟨⟨outcome, _⟩, stepped, same⟩ := Fault.bind_eq_ok.mp first
    cases same
    obtain ⟨m₁, roles₁, first', rep₁⟩ := step_represents g rep stepped
    obtain ⟨m', roles', rest', rep'⟩ := ih rep₁ rest
    exact ⟨m', roles', (runAll_cons first' events).trans rest', rep'⟩

theorem run_refines (g : Generated C Val) (rep : Represents m a roles) (events : List (Event C Val E)) :
    (runEvents (Machine.step g) m events).1 = (runEvents (Components.step g) a events).1 ∧
      ∃ roles', Represents (runEvents (Machine.step g) m events).2
        (runEvents (Components.step g) a events).2 roles' := by
  induction events generalizing m a roles with
  | nil => exact ⟨rfl, roles, rep⟩
  | cons event events ih =>
    have step := step_simulates g rep event
    rw [Simulates] at step
    cases done : a.step g event with
    | error e =>
      rw [done] at step
      simp only at step
      simp only [runEvents, done, step, recovered]
      obtain ⟨same, roles', rep'⟩ := ih rep
      exact ⟨by rw [same], roles', rep'⟩
    | ok next =>
      rw [done] at step
      obtain ⟨m', roles', done', rep'⟩ := step
      simp only [runEvents, done, done', recovered]
      obtain ⟨same, roles'', rep''⟩ := ih rep'
      exact ⟨by rw [same], roles'', rep''⟩

end Runs

end Gopherize.React
