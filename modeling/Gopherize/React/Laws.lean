import Gopherize.React.Mounting

/-! What a program may rely on, over every sequence of events. -/
namespace Gopherize.React
open GoCore

variable {C T E : Type} {Val : T → Type}

section Reads
variable {h : JsObjects Val E} {roles : Nat → Role} {c : Mounted C Val E}

theorem ShowsMounted.reads (shows : ShowsMounted h roles i this c) :
    (ComponentDef.mk (.object this)).State h = stateOf c.state ∧
      (ComponentDef.mk (.object this)).Props h = propsOf c.props ∧
      (ComponentDef.mk (.object this)).Children h = .ok c.children := by
  obtain ⟨rs, is, holds⟩ := shows.state
  obtain ⟨o, props, wraps⟩ := shows.wrap
  refine ⟨?_, ?_, ?_⟩
  · rw [State_eq holds]
    cases c.state <;> rfl
  · have given := wraps.props
    cases present : c.props with
    | none => simp [present] at given; simp [ComponentDef.Props, props, given, propsOf, unwrapProps]
    | some p => simp [present] at given; simp [ComponentDef.Props, props, given, propsOf, unwrapProps]
  · have given := wraps.children
    cases present : c.children with
    | none => simp [present] at given; simp [ComponentDef.Children, props, given]
    | some es =>
      simp [present] at given
      simp [ComponentDef.Children, props, given, unwrapChildren]

/-- The generated `State` gives a state of its own type. -/
theorem ShowsMounted.stateAs [DecidableEq T] [ToString T] {t : T} {x : Val t}
    (shows : ShowsMounted h roles i this c) (has : c.state = some ⟨t, x⟩) :
    (ComponentDef.mk (.object this)).StateAs h t = .ok x := by
  rw [ComponentDef.StateAs, shows.reads.1, has, stateOf, Fault.ok_bind, assertType_self]

theorem ShowsMounted.propsAs [DecidableEq T] [ToString T] {t : T} {x : Val t}
    (shows : ShowsMounted h roles i this c) (has : c.props = some ⟨t, x⟩) :
    (ComponentDef.mk (.object this)).PropsAs h t = .ok x := by
  rw [ComponentDef.PropsAs, shows.reads.2.1, has, propsOf, Fault.ok_bind, assertType_self]

end Reads

/-- A program cannot tell the objects from the components: the same mounted ones, with
the same state, properties and children to read. Elements have one class exactly
when their components have one type. -/
structure Agrees (m : Machine C Val E) (a : Components C Val E) : Prop where
  count : m.mounted.length = a.mounted.length
  reads : ∀ (i : Nat) inst c, m.mounted[i]? = some inst → a.mounted[i]? = some c →
    (ComponentDef.mk (.object inst.this)).State m.objects = stateOf c.state ∧
    (ComponentDef.mk (.object inst.this)).Props m.objects = propsOf c.props ∧
    (ComponentDef.mk (.object inst.this)).Children m.objects = .ok c.children
  classes : ∀ (i k : Nat) el el' d d', m.elements[i]? = some el → a.elements[i]? = some d →
    m.elements[k]? = some el' → a.elements[k]? = some d' → (el.comp = el'.comp ↔ d.typ = d'.typ)

theorem Represents.agrees {m : Machine C Val E} {a : Components C Val E} {roles : Nat → Role}
    (rep : Represents m a roles) : Agrees m a where
  count := rep.mounted.length
  reads i inst c left right := (rep.mounted.related i inst c left right).2.2.reads
  classes i k el el' d d' left right left' right' :=
    rep.comp_eq_iff (rep.elements.related i el d left right).1
      (rep.elements.related k el' d' left' right').1

section Types
variable (propsType : C → Option T) (initial : C → Option (Dyn Val))

/-- Properties and states have the types of their components. -/
structure WellTyped (a : Components C Val E) : Prop where
  elements : ∀ d ∈ a.elements, d.props.map Sigma.fst = propsType d.typ
  mounted : ∀ c ∈ a.mounted, c.props.map Sigma.fst = propsType c.typ ∧
    c.state.map Sigma.fst = (initial c.typ).map Sigma.fst

variable {propsType} {initial}

/-- Replace one component by a well typed one. -/
theorem WellTyped.set {a : Components C Val E} (typed : WellTyped propsType initial a) (i : Nat)
    {c : Mounted C Val E} (props : c.props.map Sigma.fst = propsType c.typ)
    (state : c.state.map Sigma.fst = (initial c.typ).map Sigma.fst) :
    WellTyped propsType initial { a with mounted := a.mounted.set i c } := by
  refine ⟨typed.elements, fun c' member => ?_⟩
  rcases List.mem_or_eq_of_mem_set member with old | rfl
  · exact typed.mounted c' old
  · exact ⟨props, state⟩

end Types

section Comparisons
variable [DecidableEq T] [ToString T] {equals : (t : T) → Val t → Val t → Bool}

theorem replaces_eq_ok {s : Dyn Val} {state : Option (Dyn Val)} {force : Bool}
    (stored : replaces equals s state = .ok force) :
    ∃ cur, state = some cur ∧ equalsIntf equals (some s) (some cur) = .ok (!force) := by
  cases state with
  | none => cases stored
  | some cur =>
    rw [replaces, stateOf, Fault.ok_bind] at stored
    obtain ⟨same, compared, flipped⟩ := Fault.bind_eq_ok.mp stored
    cases flipped
    exact ⟨cur, rfl, by rw [compared, Bool.not_not]⟩

/-- A value that is equal to another of its type, where `EqualsIntf` calls no different values equal. -/
theorem eq_of_equalsIntf {s cur : Dyn Val} (lawful : ∀ t x y, equals t x y = true → x = y)
    (compared : equalsIntf equals (some s) (some cur) = .ok true) : s = cur := by
  obtain ⟨t, x⟩ := s
  obtain ⟨u, y⟩ := cur
  obtain ⟨y', asserted, same⟩ := Fault.bind_eq_ok.mp compared
  by_cases type : u = t
  · subst type
    rw [assertType_self] at asserted
    cases asserted
    rw [lawful u x y (Except.ok.inj same)]
  · simp [assertType, type] at asserted

theorem assertType_ok {t : T} {v : Option (Dyn Val)} (type : v.map Sigma.fst = some t) :
    ∃ x, assertType t v = .ok x := by
  cases v with
  | none => cases type
  | some v =>
    obtain ⟨u, x⟩ := v
    cases type
    exact ⟨x, assertType_self u x⟩

theorem equalsIntf_ok {a : Dyn Val} {b : Option (Dyn Val)} (type : b.map Sigma.fst = some a.1) :
    ∃ same, equalsIntf equals (some a) b = .ok same := by
  obtain ⟨y, asserted⟩ := assertType_ok type
  exact ⟨_, by rw [equalsIntf, asserted]; rfl⟩

theorem differs_ok {p q : Option (Dyn Val)} (types : p.map Sigma.fst = q.map Sigma.fst) :
    ∃ render, differs equals p q = .ok render := by
  cases p with
  | none => exact ⟨false, rfl⟩
  | some p =>
    obtain ⟨same, compared⟩ := equalsIntf_ok (a := p) types.symm
    exact ⟨!same, by rw [differs, compared]; rfl⟩

theorem checkShouldComponentUpdate_ok {asked : Except Fault Bool} (forced : Bool)
    (answers : ∃ render, asked = .ok render) :
    ∃ render, checkShouldComponentUpdate forced asked = .ok render := by
  cases forced with
  | true => exact ⟨true, rfl⟩
  | false => exact answers

theorem replaces_ok {s : Dyn Val} {state : Option (Dyn Val)} (types : state.map Sigma.fst = some s.1) :
    ∃ force, replaces equals s state = .ok force := by
  cases state with
  | none => cases types
  | some cur =>
    obtain ⟨same, compared⟩ := equalsIntf_ok (a := s) (b := some cur) types
    exact ⟨!same, by rw [replaces, stateOf, Fault.ok_bind, compared]; rfl⟩

theorem tells_ok {receives : Option T} {props : Option (Dyn Val)}
    (types : ∀ t, receives = some t → props.map Sigma.fst = some t) :
    ∃ told, tells receives props = .ok told := by
  cases receives with
  | none => exact ⟨none, rfl⟩
  | some t =>
    obtain ⟨p, rfl, _⟩ := Option.map_eq_some_iff.mp (types t rfl)
    obtain ⟨x, asserted⟩ := assertType_ok (types t rfl)
    exact ⟨some ⟨t, x⟩, by rw [tells, propsOf, Fault.ok_bind, asserted]; rfl⟩

end Comparisons

section Readable
variable [DecidableEq T] [ToString T] {propsType : C → Option T} {g : Generated C Val}

/-- What the generated methods read from the object of a component of a type: no read panics. -/
structure Readable (propsType : C → Option T) (g : Generated C Val) (h : JsObjects Val E) (this : Nat)
    (typ : C) : Prop where
  state : ∀ t, (g.initial typ).map Sigma.fst = some t →
    ∃ x, (ComponentDef.mk (.object this)).StateAs h t = .ok x
  props : ∀ t, propsType typ = some t → ∃ x, (ComponentDef.mk (.object this)).PropsAs h t = .ok x
  children : ∃ es, (ComponentDef.mk (.object this)).Children h = .ok es

theorem ShowsMounted.readable {h : JsObjects Val E} {roles : Nat → Role} {c : Mounted C Val E}
    (shows : ShowsMounted h roles i this c) (props : c.props.map Sigma.fst = propsType c.typ)
    (state : c.state.map Sigma.fst = (g.initial c.typ).map Sigma.fst) :
    Readable propsType g h this c.typ := by
  refine ⟨fun t type => ?_, fun t type => ?_, _, shows.reads.2.2⟩
  · rw [← state] at type
    obtain ⟨⟨_, x⟩, has, rfl⟩ := Option.map_eq_some_iff.mp type
    exact ⟨x, shows.stateAs has⟩
  · rw [← props] at type
    obtain ⟨⟨_, x⟩, has, rfl⟩ := Option.map_eq_some_iff.mp type
    exact ⟨x, shows.propsAs has⟩

end Readable

/-- A component replaced by one with the same state. -/
theorem set_state {l : List (Mounted C Val E)} {c m new : Mounted C Val E} {i j : Nat}
    (found : l[i]? = some c) (mounted : l[j]? = some m) (same : new.state = m.state) :
    ∃ c', (l.set j new)[i]? = some c' ∧ c'.state = c.state := by
  by_cases here : j = i
  · subst here
    cases found.symm.trans mounted
    have inside := (List.getElem?_eq_some_iff.mp found).1
    exact ⟨new, List.getElem?_set_self inside, same⟩
  · exact ⟨c, (List.getElem?_set_ne here).trans found, rfl⟩

section Laws
variable [DecidableEq C] [DecidableEq T] [ToString T] {g : Generated C Val}

/-- An event that does not set the state of component `i` leaves it as it is. -/
theorem step_state (g : Generated C Val) {a : Components C Val E} {c : Mounted C Val E}
    (found : a.mounted[i]? = some c) (event : Event C Val E) (quiet : ∀ s, event ≠ .setState i s) :
    ∃ c', (recovered a (a.step g event)).2.mounted[i]? = some c' ∧ c'.state = c.state := by
  have same : ∃ c', a.mounted[i]? = some c' ∧ c'.state = c.state := ⟨c, found, rfl⟩
  cases event with
  | create typ props children => exact same
  | mount e =>
    rw [Components.step]
    split
    · exact same
    · have inside := (List.getElem?_eq_some_iff.mp found).1
      exact ⟨c, (List.getElem?_append_left inside).trans found, rfl⟩
  | hook j which =>
    rw [Components.step]
    split <;> exact same
  | willReceive j e =>
    rw [Components.step]
    split
    · next m d _ _ =>
      split
      · cases tells (g.receives m.typ) d.props <;> exact same
      · exact same
    · exact same
  | receive j e =>
    rw [Components.step]
    split
    · next m d mounted _ =>
      split
      · cases checkShouldComponentUpdate m.forced (differs g.equals m.props d.props) with
        | error e => exact same
        | ok render => exact set_state found mounted rfl
      · exact same
    · exact same
  | setState j s =>
    have other : j ≠ i := by
      rintro rfl
      exact quiet s rfl
    rw [Components.step]
    split
    · exact same
    · next m _ =>
      cases replaces g.equals s m.state with
      | error e => exact same
      | ok force => exact ⟨c, (List.getElem?_set_ne other).trans found, rfl⟩
  | update j =>
    rw [Components.step]
    split
    · exact same
    · next m mounted => exact set_state found mounted rfl

theorem run_state (g : Generated C Val) {a : Components C Val E} {c : Mounted C Val E}
    (found : a.mounted[i]? = some c) (events : List (Event C Val E))
    (quiet : ∀ s, .setState i s ∉ events) :
    ∃ c', (runEvents (Components.step g) a events).2.mounted[i]? = some c' ∧ c'.state = c.state := by
  induction events generalizing a c with
  | nil => exact ⟨c, found, rfl⟩
  | cons event events ih =>
    obtain ⟨c₁, found₁, same₁⟩ := step_state g found event
      (fun s same => quiet s (same ▸ List.mem_cons_self))
    obtain ⟨c₂, found₂, same₂⟩ := ih found₁ (fun s member => quiet s (List.mem_cons_of_mem _ member))
    exact ⟨c₂, found₂, same₂.trans same₁⟩

/-- An accepted `SetState` found its component, which afterwards has the new state, or
still the old one when they are equal. -/
theorem setState_stored {a a' : Components C Val E} {s : Dyn Val} {force : Bool}
    (done : a.step g (.setState i s) = .ok (.stored force, a')) :
    ∃ c cur c', a.mounted[i]? = some c ∧ c.state = some cur ∧
      equalsIntf g.equals (some s) (some cur) = .ok (!force) ∧
      a'.mounted[i]? = some c' ∧ c'.state = some (if force then s else cur) := by
  rw [Components.step] at done
  split at done
  · cases done
  · next c found =>
    obtain ⟨force', stored, same⟩ := Fault.bind_eq_ok.mp done
    cases same
    obtain ⟨cur, had, compared⟩ := replaces_eq_ok stored
    have inside := (List.getElem?_eq_some_iff.mp found).1
    refine ⟨c, cur, _, found, had, compared, List.getElem?_set_self inside, ?_⟩
    cases force with
    | false => exact had
    | true => rfl

/-- `SetState` asks for an update exactly when `EqualsIntf` tells the state from the one
before. `State` then returns that state, and otherwise the one before, whatever happened to
other components and to the properties of this one since. Where only identical states
are equal, it returns the last state given to `SetState`. -/
theorem State_last (earlier later : List (Event C Val E)) (i : Nat) (s : Dyn Val) (force : Bool)
    (m : Machine C Val E)
    (set : (runEvents (Machine.step g) {} earlier).2.step g (.setState i s) = .ok (.stored force, m))
    (quiet : ∀ s', .setState i s' ∉ later) :
    ∃ before cur after, (runEvents (Machine.step g) {} earlier).2.mounted[i]? = some before ∧
      (ComponentDef.mk (.object before.this)).State
        (runEvents (Machine.step g) {} earlier).2.objects = .ok cur ∧
      equalsIntf g.equals (some s) (some cur) = .ok (!force) ∧
      (runEvents (Machine.step g) m later).2.mounted[i]? = some after ∧
      (ComponentDef.mk (.object after.this)).State (runEvents (Machine.step g) m later).2.objects =
        .ok (if force then s else cur) ∧
      ((∀ t x y, g.equals t x y = true → x = y) →
        (ComponentDef.mk (.object after.this)).State (runEvents (Machine.step g) m later).2.objects =
          .ok s) := by
  obtain ⟨_, roles, rep⟩ := run_refines g (represents_initial fun _ => .wrap) earlier
  have simulated := step_simulates g rep (.setState i s)
  rw [Simulates] at simulated
  cases done : (runEvents (Components.step g) {} earlier).2.step g (.setState i s) with
  | error e =>
    rw [done] at simulated
    cases set.symm.trans simulated
  | ok next =>
    obtain ⟨outcome, a'⟩ := next
    rw [done] at simulated
    obtain ⟨m', roles', done', rep'⟩ := simulated
    cases set.symm.trans done'
    obtain ⟨c, cur, c', found, had, compared, found', has⟩ := setState_stored done
    obtain ⟨before, known⟩ := rep.mounted.left_of_right found
    obtain ⟨_, roles'', rep''⟩ := run_refines g rep' later
    obtain ⟨c'', found'', same⟩ := run_state g found' later quiet
    obtain ⟨after, known'⟩ := rep''.mounted.left_of_right found''
    have reads : (ComponentDef.mk (.object after.this)).State
        (runEvents (Machine.step g) m later).2.objects = .ok (if force then s else cur) := by
      rw [(rep''.agrees.reads i after c'' known' found'').1, same, has]
      rfl
    refine ⟨before, cur, after, known, ?_, compared, known', reads, ?_⟩
    · rw [(rep.agrees.reads i before c known found).1, had]
      rfl
    · intro lawful
      cases force with
      | true => exact reads
      | false =>
        rw [reads, eq_of_equalsIntf lawful compared]
        rfl

/-- Counters that are equal when they show the same last digit. -/
def lastDigit : Generated Unit (fun _ : Unit => Nat) where
  equals _ x y := x % 10 == y % 10
  initial _ := some ⟨(), 0⟩
  receives _ := none
  hooks _ _ := false

/-- The state 7 is stored, and 17 after it is not. -/
theorem State_last_counter :
    ∃ (m : Machine Unit (fun _ : Unit => Nat) Unit) (after : Instance),
      (runEvents (Machine.step lastDigit) {}
        [.create () none none, .mount 0, .setState 0 ⟨(), 7⟩]).2.step lastDigit (.setState 0 ⟨(), 17⟩) =
          .ok (.stored false, m) ∧
      (runEvents (Machine.step lastDigit) m [.receive 0 0]).2.mounted[0]? = some after ∧
      (ComponentDef.mk (.object after.this)).State
        (runEvents (Machine.step lastDigit) m [.receive 0 0]).2.objects = .ok ⟨(), 7⟩ := by
  obtain ⟨before, cur, after, known, reads, _, known', reads', _⟩ := State_last
    (g := lastDigit) (E := Unit) [.create () none none, .mount 0, .setState 0 ⟨(), 7⟩] [.receive 0 0] 0
    ⟨(), 17⟩ false _ rfl (by simp)
  cases known
  cases reads
  exact ⟨_, after, rfl, known', reads'⟩

section Typed
variable (propsType : C → Option T) (g)

/-- What the generated functions `buildElem` and `SetState` of a component let through. -/
def TypedEvent (a : Components C Val E) : Event C Val E → Prop
  | .create typ props _ => props.map Sigma.fst = propsType typ
  | .setState i s => ∀ c, a.mounted[i]? = some c → (g.initial c.typ).map Sigma.fst = some s.1
  | _ => True

def TypedRun (a : Components C Val E) : List (Event C Val E) → Prop
  | [] => True
  | event :: events => TypedEvent g propsType a event ∧
      TypedRun (recovered a (a.step g event)).2 events

variable {propsType} {g}

theorem typed_step (methods : ∀ typ t, g.receives typ = some t → propsType typ = some t)
    {a : Components C Val E} (typed : WellTyped propsType g.initial a) (event : Event C Val E)
    (allowed : TypedEvent g propsType a event) :
    ∃ outcome a', a.step g event = .ok (outcome, a') ∧ WellTyped propsType g.initial a' := by
  cases event with
  | create typ props children =>
    refine ⟨_, _, rfl, fun d member => ?_, typed.mounted⟩
    rcases List.mem_append.mp member with old | new
    · exact typed.elements d old
    · cases List.mem_singleton.mp new
      exact allowed
  | mount e =>
    rw [Components.step]
    split
    · exact ⟨_, _, rfl, typed⟩
    · next d found =>
      refine ⟨_, _, rfl, typed.elements, fun c member => ?_⟩
      rcases List.mem_append.mp member with old | new
      · exact typed.mounted c old
      · cases List.mem_singleton.mp new
        exact ⟨typed.elements d (List.mem_of_getElem? found), rfl⟩
  | hook i which =>
    rw [Components.step]
    split <;> exact ⟨_, _, rfl, typed⟩
  | willReceive i e =>
    rw [Components.step]
    split
    · next c d _ described =>
      split
      · next same =>
        have new := typed.elements d (List.mem_of_getElem? described)
        have answers : ∃ told, tells (g.receives c.typ) d.props = .ok told :=
          tells_ok (fun t has => by rw [new, same, methods c.typ t has])
        obtain ⟨told, done⟩ := answers
        exact ⟨_, _, by rw [done]; rfl, typed⟩
      · exact ⟨_, _, rfl, typed⟩
    · exact ⟨_, _, rfl, typed⟩
  | receive i e =>
    rw [Components.step]
    split
    · next c d mounted described =>
      have old := typed.mounted c (List.mem_of_getElem? mounted)
      have new := typed.elements d (List.mem_of_getElem? described)
      split
      · next same =>
        obtain ⟨render, decided⟩ := checkShouldComponentUpdate_ok c.forced
          (differs_ok (p := c.props) (q := d.props) (by rw [old.1, new, same]))
        exact ⟨_, _, by rw [decided]; rfl, typed.set i new (by rw [old.2, same])⟩
      · exact ⟨_, _, rfl, typed⟩
    · exact ⟨_, _, rfl, typed⟩
  | setState i s =>
    rw [Components.step]
    split
    · exact ⟨_, _, rfl, typed⟩
    · next c found =>
      have old := typed.mounted c (List.mem_of_getElem? found)
      have kind := allowed c found
      have answers : ∃ force, replaces g.equals s c.state = .ok force := replaces_ok (old.2.trans kind)
      obtain ⟨force, stored⟩ := answers
      have state : (if force then some s else c.state).map Sigma.fst =
          (g.initial c.typ).map Sigma.fst := by
        cases force with
        | false => exact old.2
        | true => exact kind.symm
      exact ⟨_, _, by rw [stored]; rfl,
        typed.set (c := { c with state := _, forced := c.forced || force }) i old.1 state⟩
  | update i =>
    rw [Components.step]
    split
    · exact ⟨_, _, rfl, typed⟩
    · next c found =>
      have old := typed.mounted c (List.mem_of_getElem? found)
      exact ⟨_, _, rfl, typed.set i old.1 old.2⟩

theorem typed_components (methods : ∀ typ t, g.receives typ = some t → propsType typ = some t)
    {a : Components C Val E} (typed : WellTyped propsType g.initial a)
    (events : List (Event C Val E)) (allowed : TypedRun g propsType a events) :
    (∀ r ∈ (runEvents (Components.step g) a events).1, ∃ outcome, r = .ok outcome) ∧
      WellTyped propsType g.initial (runEvents (Components.step g) a events).2 := by
  induction events generalizing a with
  | nil => exact ⟨fun r member => absurd member List.not_mem_nil, typed⟩
  | cons event events ih =>
    obtain ⟨outcome, a', done, typed'⟩ := typed_step methods typed event allowed.1
    have rest := allowed.2
    simp only [done, recovered] at rest
    simp only [runEvents, done, recovered]
    obtain ⟨accepted, final⟩ := ih typed' rest
    exact ⟨List.forall_mem_cons.mpr ⟨⟨outcome, rfl⟩, accepted⟩, final⟩

/-- A program that goes through the generated functions never fails a type assertion: neither when
it creates, mounts and updates components, nor when it reads their state, properties and children. -/
theorem typed_run_ok (methods : ∀ typ t, g.receives typ = some t → propsType typ = some t)
    (events : List (Event C Val E))
    (typed : TypedRun g propsType ({} : Components C Val E) events) :
    (∀ r ∈ (runEvents (Machine.step g) ({} : Machine C Val E) events).1, ∃ outcome, r = .ok outcome) ∧
    ∀ inst ∈ (runEvents (Machine.step g) ({} : Machine C Val E) events).2.mounted,
      ∃ typ, (runEvents (Machine.step g) ({} : Machine C Val E) events).2.classes.built[inst.comp]? =
          some typ ∧
        Readable propsType g (runEvents (Machine.step g) ({} : Machine C Val E) events).2.objects
          inst.this typ := by
  obtain ⟨same, roles, rep⟩ := run_refines g (represents_initial fun _ => .wrap) events
  obtain ⟨accepted, final⟩ := typed_components methods ⟨by simp, by simp⟩ events typed
  refine ⟨same ▸ accepted, fun inst member => ?_⟩
  obtain ⟨i, found⟩ := List.getElem?_of_mem member
  rcases rep.mounted.cases i with ⟨none, _⟩ | ⟨inst', c, found', known, comp, _, shows⟩
  · cases found.symm.trans none
  · cases found.symm.trans found'
    obtain ⟨props, state⟩ := final.mounted c (List.mem_of_getElem? known)
    exact ⟨c.typ, comp, shows.readable props state⟩

/-- A counter with its label as a property, which it is told before it receives it. -/
def labelled : Generated Unit (fun _ : Bool => Nat) where
  equals _ x y := x == y
  initial _ := some ⟨false, 0⟩
  receives _ := some true
  hooks _ _ := false

/-- The counter is mounted, set, told its next label and handed it. -/
def labelledRun : List (Event Unit (fun _ : Bool => Nat) Unit) :=
  [.create () (some ⟨true, 1⟩) none, .mount 0, .setState 0 ⟨false, 7⟩,
    .create () (some ⟨true, 2⟩) none, .willReceive 0 1, .receive 0 1]

theorem typed_run_ok_counter :
    TypedRun labelled (fun _ => some true) {} labelledRun ∧
    (∀ r ∈ (runEvents (Machine.step labelled) {} labelledRun).1, ∃ outcome, r = .ok outcome) ∧
    ∀ inst ∈ (runEvents (Machine.step labelled) {} labelledRun).2.mounted,
      ∃ typ, (runEvents (Machine.step labelled) {} labelledRun).2.classes.built[inst.comp]? = some typ ∧
        Readable (fun _ => some true) labelled (runEvents (Machine.step labelled) {} labelledRun).2.objects
          inst.this typ := by
  have typed : TypedRun labelled (fun _ => some true) {} labelledRun :=
    ⟨rfl, trivial, fun _ _ => rfl, rfl, trivial, trivial, trivial⟩
  exact ⟨typed, typed_run_ok (by simp [labelled]) labelledRun typed⟩

end Typed
end Laws
end Gopherize.React
