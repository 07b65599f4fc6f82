import Gopherize.Clicks
import Gopherize.React.Laws

/-! The program over react.go. The other modules keep the state and the properties of its
components in a record; react.go keeps them in JavaScript objects. Whatever a user does,
the calls of `SetState` and the renders of the program, made on the objects as react.go
makes them, never panic and leave there what the record holds. -/
namespace Gopherize
open GoCore React

/-- The types of the states and properties of the components that have a state. -/
inductive GoType where
  | outerState | chooserState | chooserProps
  deriving DecidableEq, Repr

instance : ToString GoType where
  toString
    | .outerState => "main.OuterState"
    | .chooserState => "main.ChooserState"
    | .chooserProps => "main.ChooserProps"

def GoVal : GoType → Type
  | .outerState => OuterState
  | .chooserState => ChooserState
  | .chooserProps => ChooserProps

instance : ∀ t, DecidableEq (GoVal t)
  | .outerState => inferInstanceAs (DecidableEq OuterState)
  | .chooserState => inferInstanceAs (DecidableEq ChooserState)
  | .chooserProps => inferInstanceAs (DecidableEq ChooserProps)

inductive Component where
  | outer | chooser
  deriving DecidableEq, Repr

abbrev outerValue (s : OuterState) : Dyn GoVal := ⟨.outerState, s⟩
abbrev chooserValue (s : ChooserState) : Dyn GoVal := ⟨.chooserState, s⟩
abbrev propsValue (p : ChooserProps) : Dyn GoVal := ⟨.chooserProps, p⟩

/-- The generated methods of the two components: their values are compared with `==`, and only
the outer component has a method for a hook. -/
def generated : Generated Component GoVal where
  equals _ x y := decide (x = y)
  initial
    | .outer => some (outerValue {})
    | .chooser => some (chooserValue {})
  receives _ := none
  hooks
    | .outer, .willMount => true
    | _, _ => false

abbrev ReactEvent := Event Component GoVal Element
abbrev ReactMachine := Machine Component GoVal Element

/-- What the program and React ask of react.go: a call of `SetState` on one of the two components,
or the renders that are due. -/
inductive Request where
  | outer (s : OuterState)
  | chooser (s : ChooserState)
  | render

/-- The outer component before its `ComponentWillMount` has done anything. -/
def mountOuter : List ReactEvent := [.create .outer none none, .mount 0, .hook 0 .willMount]

/-- The elements of choosers on the page of the outer component. -/
def createChoosers (o : OuterDef) (s : OuterState) : List ReactEvent :=
  (o.render s).choosers.map (fun p => .create .chooser (some (propsValue p)) none)

/-- The events of a request. The outer component is rendered with the state that react.go reads from
its object; its first render mounts the chooser, a later one hands it new properties. -/
def Request.events (o : OuterDef) (m : ReactMachine) : Request → Except Fault (List ReactEvent)
  | .outer s => pure [.setState 0 (outerValue s)]
  | .chooser s => pure [.setState 1 (chooserValue s)]
  | .render =>
    match m.mounted with
    | [first] => do
      let s ← (ComponentDef.mk (.object first.this)).StateAs m.objects .outerState
      pure (.update 0 :: createChoosers o s ++ [.mount m.elements.length, .hook 1 .willMount])
    | [first, _] =>
      if first.forced then do
        let s ← (ComponentDef.mk (.object first.this)).StateAs m.objects .outerState
        pure (.update 0 :: createChoosers o s ++
          [.willReceive 1 m.elements.length, .receive 1 m.elements.length])
      else pure [.update 1]
    | _ => pure []

def Request.exec (o : OuterDef) (m : ReactMachine) (request : Request) : Except Fault ReactMachine := do
  runAll (Machine.step generated) m (← request.events o m)

/-- A program run on the objects of react.go, from the empty page. -/
def runRequests (o : OuterDef) (requests : List Request) : Except Fault ReactMachine := do
  requests.foldlM (Request.exec o) (← runAll (Machine.step generated) {} mountOuter)

/-- The call of `SetState` that a click makes when it leads to `w`. -/
def Handler.requests (w : World) : Handler → List Request
  | .shuffleClick _ | .resetClick _ | .chooseItemClick .. => [.outer w.state]
  | .expandClick _ i => [.chooser ⟨i⟩]
  | .saveClick _ => []

/-- The runs of the program, each with what it asks of react.go. -/
inductive Asks (rng : Rng) (c : Ref Config) (h : Heap) : World → List Handler → List Request → Prop where
  | mounted {w₁ w} : ((World.unmounted h).self.componentWillMount c).run (World.unmounted h) = .ok ((), w₁) →
      flush.run w₁ = .ok ((), w) → Asks rng c h w w.handlers [.outer w₁.state, .render]
  | clicked {w w' seen handler requests} : Asks rng c h w seen requests → handler ∈ seen →
      (handler.onClick rng).run w = .ok ((), w') → Asks rng c h w' seen (requests ++ handler.requests w')
  | rendered {w w' seen requests} : Asks rng c h w seen requests → flush.run w = .ok ((), w') →
      Asks rng c h w' (seen ++ w'.handlers) (requests ++ [.render])

/-- Every reachable world is reached by a run that asks for something. -/
theorem Reachable.asks (reachable : Reachable rng c h w seen) :
    ∃ requests, Asks rng c h w seen requests := by
  induction reachable with
  | mounted ran =>
    obtain ⟨_, _, got, ran⟩ := run_bind_eq_ok.mp ran
    cases got
    obtain ⟨_, w₁, first, drawn⟩ := run_bind_eq_ok.mp ran
    exact ⟨_, .mounted first drawn⟩
  | clicked _ member ran ih =>
    obtain ⟨requests, asks⟩ := ih
    exact ⟨_, asks.clicked member ran⟩
  | rendered _ ran ih =>
    obtain ⟨requests, asks⟩ := ih
    exact ⟨_, asks.rendered ran⟩

def World.outerMounted (w : World) : React.Mounted Component GoVal Element where
  typ := .outer
  props := none
  children := none
  state := some (outerValue w.state)
  forced := w.pending

def Tree.chooserMounted (t : Tree) : React.Mounted Component GoVal Element where
  typ := .chooser
  props := some (propsValue t.chooser.props)
  children := none
  state := some (chooserValue t.chooser.output.state)
  forced := t.chooser.output.pending

/-- The components of the world in the order in which they are mounted. -/
def World.components (w : World) : List (React.Mounted Component GoVal Element) :=
  w.outerMounted :: (w.tree.map Tree.chooserMounted).toList

/-- The objects are those of the world's components, wherever they are. -/
def World.InObjects (w : World) (m : ReactMachine) : Prop :=
  ∃ a roles, Represents m a roles ∧ a.mounted = w.components

section Simulation
variable {w w' : World} {m : ReactMachine} {a : Components Component GoVal Element} {roles : Nat → Role}

/-- A run on the components of a world is one on its objects. -/
theorem exec_of_components {request : Request} (rep : Represents m a roles)
    (asked : request.events o m = .ok events)
    (done : ∃ a', runAll (Components.step generated) a events = .ok a' ∧ a'.mounted = w'.components) :
    ∃ m', request.exec o m = .ok m' ∧ w'.InObjects m' := by
  obtain ⟨a', ran, same⟩ := done
  obtain ⟨m', roles', ran', rep'⟩ := runAll_represents generated rep ran
  exact ⟨m', by rw [Request.exec, asked]; exact ran', a', roles', rep', same⟩

theorem replaces_generated (t : GoType) (s cur : GoVal t) :
    replaces generated.equals (⟨t, s⟩ : Dyn GoVal) (some ⟨t, cur⟩) = .ok (decide (s ≠ cur)) := by
  simp [replaces, stateOf, equalsIntf, generated]

theorem differs_generated (t : GoType) (p q : GoVal t) :
    differs generated.equals (some (⟨t, p⟩ : Dyn GoVal)) (some ⟨t, q⟩) = .ok (decide (p ≠ q)) := by
  simp [differs, equalsIntf, generated]

theorem OuterDef.state_ok (read : (OuterDef.state o).run w = .ok (s, w')) : s = w.state ∧ w' = w := by
  by_cases self : o = w.self
  · rw [OuterDef.state_run self] at read
    cases read
    exact ⟨rfl, rfl⟩
  · simp [OuterDef.state, self] at read
    cases read

/-- What `SetState` of the outer component leaves. -/
theorem OuterDef.setState_ok (ran : (OuterDef.setState o s).run w = .ok ((), w')) :
    w' = { w with state := s, pending := w.pending || decide (s ≠ w.state) } := by
  obtain ⟨cur, w₁, read, rest⟩ := run_bind_eq_ok.mp ran
  obtain ⟨rfl, rfl⟩ := OuterDef.state_ok read
  by_cases same : s = w₁.state
  · rw [if_pos same] at rest
    cases rest
    simp [same]
  · rw [if_neg same] at rest
    cases rest
    simp [same]

/-- `SetState` on a component whose state has the type of the new one. -/
theorem step_setState {c : React.Mounted Component GoVal Element} {t : GoType} {cur : GoVal t}
    (found : a.mounted[i]? = some c) (state : c.state = some ⟨t, cur⟩) (s : GoVal t) :
    a.step generated (.setState i ⟨t, s⟩) = .ok (.stored (decide (s ≠ cur)),
      { a with mounted := a.mounted.set i { c with
        state := some ⟨t, s⟩, forced := c.forced || decide (s ≠ cur) } }) := by
  have stored := replaces_generated t s cur
  simp only [Components.step, found, state, stored, Fault.ok_bind]
  by_cases same : s = cur
  · simp [same]
  · simp [same]

theorem outer_simulates (rep : Represents m a roles) (same : a.mounted = w.components)
    (ran : (OuterDef.setState o s).run w = .ok ((), w')) :
    ∃ m', (Request.outer s).exec p m = .ok m' ∧ w'.InObjects m' := by
  have found : a.mounted[0]? = some w.outerMounted := by rw [same]; rfl
  apply exec_of_components rep rfl
  refine ⟨_, runAll_cons (step_setState found rfl s) [], ?_⟩
  obtain rfl := OuterDef.setState_ok ran
  simp only [same]
  rfl

theorem ChooserDef.mounted_ok (ran : (ChooserDef.mounted ch).run w = .ok (t, w')) :
    w.tree = some t ∧ w' = w := by
  obtain ⟨_, _, got, ran⟩ := run_bind_eq_ok.mp ran
  cases got
  cases shown : w.tree with
  | none =>
    simp only [shown] at ran
    cases ran
  | some t' =>
    simp only [shown] at ran
    split at ran
    · cases ran
      exact ⟨rfl, rfl⟩
    · cases ran

/-- What `SetState` of the chooser leaves. -/
theorem ChooserDef.setState_ok (ran : (ChooserDef.setState ch s).run w = .ok ((), w')) :
    ∃ t, w.tree = some t ∧ w' = { w with tree := some (t.withChooser { t.chooser.output with
      state := s, pending := t.chooser.output.pending || decide (s ≠ t.chooser.output.state) }) } := by
  obtain ⟨t, w₁, found, rest⟩ := run_bind_eq_ok.mp ran
  obtain ⟨shown, rfl⟩ := ChooserDef.mounted_ok found
  refine ⟨t, shown, ?_⟩
  by_cases same : s = t.chooser.output.state
  · rw [if_pos same] at rest
    cases rest
    simp [same, Tree.withChooser, ← shown]
  · rw [if_neg same] at rest
    cases rest
    simp [same]

theorem chooser_simulates (rep : Represents m a roles) (same : a.mounted = w.components)
    (ran : (ChooserDef.setState ch s).run w = .ok ((), w')) :
    ∃ m', (Request.chooser s).exec p m = .ok m' ∧ w'.InObjects m' := by
  obtain ⟨t, shown, rfl⟩ := ChooserDef.setState_ok ran
  have found : a.mounted[1]? = some t.chooserMounted := by
    rw [same, World.components, shown]
    rfl
  apply exec_of_components rep rfl
  refine ⟨_, runAll_cons (step_setState found rfl s) [], ?_⟩
  simp only [same, World.components, shown]
  rfl

theorem ChooserBody.redraw_ok {b body : ChooserBody} (drawn : b.redraw h p = .ok body) :
    body.state = b.state ∧ body.pending = false := by
  obtain ⟨output, _, drawn⟩ := bind_eq_ok.mp drawn
  obtain ⟨panels, _, same⟩ := bind_eq_ok.mp drawn
  cases same
  exact ⟨rfl, rfl⟩

/-- What the outer component leaves of the chooser when it is rendered again. -/
theorem Tree.redraw_ok {t t' : Tree} (drawn : t.redraw o s h = .ok t') :
    t'.chooser.props = o.chooserProps s ∧ t'.chooser.output.state = t.chooser.output.state ∧
      t'.chooser.output.pending = false := by
  rw [Tree.redraw, OuterDef.children_render, ok_bind] at drawn
  obtain ⟨preview, _, drawn⟩ := bind_eq_ok.mp drawn
  obtain ⟨chooser, received, same⟩ := bind_eq_ok.mp drawn
  cases same
  simp only [Cached.receive] at received
  split at received
  · next kept =>
    simp only [Bool.and_eq_true, Bool.not_eq_true', decide_eq_true_eq] at kept
    cases received
    exact ⟨kept.2, rfl, kept.1⟩
  · obtain ⟨props, sound⟩ := Cached.draw_eq_ok.mp received
    exact ⟨props, ChooserBody.redraw_ok sound⟩

/-- A render leaves nothing due. The chooser keeps its state; it has the properties of its first
render, or new ones if the outer component was due. -/
theorem flush_ok (ran : flush.run w = .ok ((), w')) :
    w'.self = w.self ∧ w'.state = w.state ∧ w'.pending = false ∧
    ∃ t', w'.tree = some t' ∧ t'.chooser.output.pending = false ∧
      match w.tree with
      | none => t'.chooser.props = w.self.chooserProps w.state ∧ t'.chooser.output.state = {}
      | some t => t'.chooser.props = (if w.pending then w.self.chooserProps w.state else t.chooser.props) ∧
          t'.chooser.output.state = t.chooser.output.state := by
  obtain ⟨_, _, got, ran⟩ := run_bind_eq_ok.mp ran
  cases got
  cases shown : w.tree with
  | none =>
    simp only [shown] at ran
    obtain ⟨t', _, lifted, ran⟩ := run_bind_eq_ok.mp ran
    obtain ⟨drawn, rfl⟩ := lift_eq_ok.mp lifted
    cases ran
    obtain ⟨mounted, current, still⟩ := Tree.mounted_of_draw drawn
    exact ⟨rfl, rfl, rfl, t', rfl, still, current.chooser, mounted.state⟩
  | some t =>
    simp only [shown] at ran
    split at ran
    · next due =>
      obtain ⟨t', _, lifted, ran⟩ := run_bind_eq_ok.mp ran
      obtain ⟨drawn, rfl⟩ := lift_eq_ok.mp lifted
      cases ran
      obtain ⟨props, state, still⟩ := Tree.redraw_ok drawn
      exact ⟨rfl, rfl, rfl, t', rfl, still, by rw [if_pos due]; exact props, state⟩
    · next clear =>
      have quiet : w.pending = false := Bool.eq_false_iff.mpr clear
      split at ran
      · obtain ⟨body, _, lifted, ran⟩ := run_bind_eq_ok.mp ran
        obtain ⟨drawn, rfl⟩ := lift_eq_ok.mp lifted
        cases ran
        obtain ⟨state, still⟩ := ChooserBody.redraw_ok drawn
        exact ⟨rfl, rfl, quiet, _, rfl, still, by rw [if_neg clear]; rfl, state⟩
      · next still =>
        cases ran
        exact ⟨rfl, rfl, quiet, t, shown, Bool.eq_false_iff.mpr still, by rw [if_neg clear], rfl⟩

/-- The first render of the outer component mounts the chooser. -/
theorem first_render (els : List (Described Component GoVal Element))
    (x : React.Mounted Component GoVal Element) (p : ChooserProps) :
    runAll (Components.step generated) ⟨els, [x]⟩
        [.update 0, .create .chooser (some (propsValue p)) none, .mount els.length, .hook 1 .willMount] =
      .ok ⟨els ++ [⟨.chooser, some (propsValue p), none⟩], [{ x with forced := false },
        ⟨⟨.chooser, some (propsValue p), none⟩, some (chooserValue {}), false⟩]⟩ := by
  simp [runAll, Components.step, generated]

/-- A later one hands the chooser new properties. -/
theorem next_render (els : List (Described Component GoVal Element))
    (x y : React.Mounted Component GoVal Element) (typ : y.typ = .chooser)
    (props : y.props = some (propsValue q)) (p : ChooserProps) :
    runAll (Components.step generated) ⟨els, [x, y]⟩
        [.update 0, .create .chooser (some (propsValue p)) none, .willReceive 1 els.length,
          .receive 1 els.length] =
      .ok ⟨els ++ [⟨.chooser, some (propsValue p), none⟩], [{ x with forced := false },
        ⟨⟨.chooser, some (propsValue p), none⟩, y.state, false⟩]⟩ := by
  have decided : ∃ render, checkShouldComponentUpdate y.forced
      (differs generated.equals y.props (some (propsValue p))) = .ok render := by
    rw [props]
    exact checkShouldComponentUpdate_ok _ ⟨_, differs_generated .chooserProps q p⟩
  obtain ⟨render, decided⟩ := decided
  have untold : generated.receives .chooser = none := rfl
  simp [runAll, Components.step, typ, decided, tells, untold]

/-- The components once everything is rendered. -/
theorem components_rendered {t : Tree} (shown : w.tree = some t) (state : w.state = s)
    (clear : w.pending = false) (props : t.chooser.props = p) (chosen : t.chooser.output.state = st)
    (still : t.chooser.output.pending = false) :
    w.components = [⟨⟨.outer, none, none⟩, some (outerValue s), false⟩,
      ⟨⟨.chooser, some (propsValue p), none⟩, some (chooserValue st), false⟩] := by
  subst state props chosen
  simp [World.components, World.outerMounted, Tree.chooserMounted, shown, clear, still]

theorem render_simulates (rep : Represents m a roles) (same : a.mounted = w.components)
    (ran : flush.run w = .ok ((), w')) :
    ∃ m', Request.render.exec w.self m = .ok m' ∧ w'.InObjects m' := by
  obtain ⟨els, mounted⟩ := a
  simp only at same
  subst same
  have count := rep.mounted.length
  have last : m.elements.length = els.length := rep.elements.length
  obtain ⟨_, state, clear, t', shown', still, due⟩ := flush_ok ran
  cases shown : w.tree with
  | none =>
    simp only [shown] at due
    simp only [World.components, shown] at rep count
    obtain ⟨first, alone⟩ := List.length_eq_one_iff.mp count
    have shows := (rep.mounted.related 0 first w.outerMounted (by rw [alone]; rfl) rfl).2.2
    have asked : Request.render.events w.self m = .ok [.update 0,
        .create .chooser (some (propsValue (w.self.chooserProps w.state))) none, .mount els.length,
        .hook 1 .willMount] := by
      simp only [Request.events, alone, shows.stateAs rfl, last]
      rfl
    refine exec_of_components rep asked ⟨_, first_render els _ _, ?_⟩
    exact (components_rendered shown' state clear due.1 due.2 still).symm
  | some t =>
    simp only [shown] at due
    simp only [World.components, shown] at rep count
    obtain ⟨first, second, both⟩ := List.length_eq_two.mp count
    obtain ⟨_, waits, shows⟩ :=
      rep.mounted.related 0 first w.outerMounted (by rw [both]; rfl) rfl
    have rendered := components_rendered shown' state clear due.1 due.2 still
    by_cases pending : w.pending = true
    · have asked : Request.render.events w.self m = .ok [.update 0,
          .create .chooser (some (propsValue (w.self.chooserProps w.state))) none,
          .willReceive 1 els.length, .receive 1 els.length] := by
        simp only [Request.events, both, waits, World.outerMounted, pending, if_true,
          shows.stateAs rfl, last]
        rfl
      rw [if_pos pending] at rendered
      refine exec_of_components rep asked ⟨_, next_render els _ t.chooserMounted rfl rfl _, ?_⟩
      exact rendered.symm
    · have asked : Request.render.events w.self m = .ok [.update 1] := by
        simp [Request.events, both, waits, World.outerMounted, pending]
      rw [if_neg pending] at rendered
      refine exec_of_components rep asked ⟨_, runAll_cons rfl [], ?_⟩
      rw [rendered]
      simp [World.outerMounted, Tree.chooserMounted, pending]

/-- The operations on the gopher build it on the heap and call `SetState` once. -/
theorem publishes {f : OuterState → Exec Heap (Ptr Gopher)} {o : OuterDef}
    (ran : (do
      let s ← o.state
      let current ← onHeap (f s)
      o.setState { s with current := some current }).run w = .ok ((), w')) :
    ∃ k, (o.setState w'.state).run { w with heap := k } = .ok ((), w') := by
  obtain ⟨s, _, read, ran⟩ := run_bind_eq_ok.mp ran
  obtain ⟨rfl, rfl⟩ := OuterDef.state_ok read
  obtain ⟨current, _, built, ran⟩ := run_bind_eq_ok.mp ran
  obtain ⟨k, _, rfl⟩ := zoom_eq_ok built
  have state := congrArg World.state (OuterDef.setState_ok ran)
  exact ⟨k, state ▸ ran⟩

theorem componentWillMount_publishes (ran : (OuterDef.componentWillMount o c).run w = .ok ((), w')) :
    ∃ k, (o.setState w'.state).run { w with heap := k } = .ok ((), w') := by
  obtain ⟨current, _, built, ran⟩ := run_bind_eq_ok.mp ran
  obtain ⟨k₁, _, rfl⟩ := zoom_eq_ok built
  obtain ⟨rand, _, made, ran⟩ := run_bind_eq_ok.mp ran
  obtain ⟨k₂, _, rfl⟩ := zoom_eq_ok made
  have state := congrArg World.state (OuterDef.setState_ok ran)
  exact ⟨k₂, state ▸ ran⟩

/-- Such an operation is one request. -/
theorem publish_simulates (rep : Represents m a roles) (same : a.mounted = w.components)
    (called : ∃ k, (OuterDef.setState o w'.state).run { w with heap := k } = .ok ((), w')) :
    w'.self = w.self ∧ ∃ m', [Request.outer w'.state].foldlM (Request.exec p) m = .ok m' ∧ w'.InObjects m' := by
  obtain ⟨k, ran⟩ := called
  obtain ⟨m', done, within⟩ := outer_simulates (w := { w with heap := k }) (p := p) rep same ran
  have self := congrArg World.self (OuterDef.setState_ok ran)
  exact ⟨self, m', by rw [List.foldlM_cons, done]; rfl, within⟩

/-- `Expand` only reads the state that it replaces. -/
theorem ChooserDef.expand_ok (ran : (ChooserDef.expand ch i).run w = .ok ((), w')) :
    (ChooserDef.setState ch ⟨i⟩).run w = .ok ((), w') := by
  obtain ⟨s, _, read, stored⟩ := run_bind_eq_ok.mp ran
  obtain ⟨t, _, found, state⟩ := run_bind_eq_ok.mp read
  obtain ⟨_, rfl⟩ := ChooserDef.mounted_ok found
  cases state
  exact stored

theorem expand_simulates (rep : Represents m a roles) (same : a.mounted = w.components)
    (ran : (ChooserDef.expand ch i).run w = .ok ((), w')) :
    w'.self = w.self ∧ ∃ m', [Request.chooser ⟨i⟩].foldlM (Request.exec p) m = .ok m' ∧ w'.InObjects m' := by
  have stored := ChooserDef.expand_ok ran
  obtain ⟨m', done, within⟩ := chooser_simulates (p := p) rep same stored
  obtain ⟨_, _, left⟩ := ChooserDef.setState_ok stored
  have self := congrArg World.self left
  exact ⟨self, m', by rw [List.foldlM_cons, done]; rfl, within⟩

/-- A click on the page is the request that it makes. -/
theorem click_simulates (rep : Represents m a roles) (same : a.mounted = w.components)
    (ran : (Handler.onClick rng handler).run w = .ok ((), w')) :
    w'.self = w.self ∧
      ∃ m', (handler.requests w').foldlM (Request.exec o) m = .ok m' ∧ w'.InObjects m' := by
  have props_ok {ch p w₁} (read : (ChooserDef.props ch).run w = .ok (p, w₁)) : w₁ = w := by
    obtain ⟨t, _, found, props⟩ := run_bind_eq_ok.mp read
    obtain ⟨_, rfl⟩ := ChooserDef.mounted_ok found
    cases props
    rfl
  cases handler with
  | shuffleClick ch =>
    obtain ⟨p, _, read, ran⟩ := run_bind_eq_ok.mp ran
    cases props_ok read
    exact publish_simulates rep same (publishes ran)
  | resetClick ch =>
    obtain ⟨p, _, read, ran⟩ := run_bind_eq_ok.mp ran
    cases props_ok read
    exact publish_simulates rep same (publishes ran)
  | saveClick ch =>
    cases ran
    exact ⟨rfl, m, rfl, a, roles, rep, same⟩
  | expandClick ch i => exact expand_simulates rep same ran
  | chooseItemClick u ci v => exact publish_simulates rep same (publishes ran)

theorem mountOuter_inObjects (h : Heap) :
    ∃ m, runAll (Machine.step generated) {} mountOuter = .ok m ∧ (World.unmounted h).InObjects m := by
  have mounted : runAll (Components.step generated) {} mountOuter =
      .ok ⟨[⟨.outer, none, none⟩], (World.unmounted h).components⟩ := rfl
  obtain ⟨m, roles, ran, rep⟩ :=
    runAll_represents generated (represents_initial fun _ => .wrap) mounted
  exact ⟨m, ran, _, roles, rep, rfl⟩

theorem runRequests_append (ran : runRequests o requests = .ok m)
    (rest : more.foldlM (Request.exec o) m = .ok m') : runRequests o (requests ++ more) = .ok m' := by
  obtain ⟨m₀, mounted, ran⟩ := Fault.bind_eq_ok.mp ran
  rw [runRequests, mounted, Fault.ok_bind, List.foldlM_append, ran, Fault.ok_bind, rest]

/-- Over every run the objects hold what the world holds. -/
theorem Asks.inObjects (asks : Asks rng c h w seen requests) :
    w.self = ⟨0⟩ ∧ ∃ m, runRequests ⟨0⟩ requests = .ok m ∧ w.InObjects m := by
  induction asks with
  | @mounted w₁ w called drawn =>
    obtain ⟨m₀, ran₀, a₀, roles₀, rep₀, same₀⟩ := mountOuter_inObjects h
    obtain ⟨self₁, m₁, ran₁, a₁, roles₁, rep₁, same₁⟩ :=
      publish_simulates (p := ⟨0⟩) rep₀ same₀ (componentWillMount_publishes called)
    obtain ⟨m, ran, within⟩ := render_simulates rep₁ same₁ drawn
    have first : runRequests ⟨0⟩ [.outer w₁.state] = .ok m₁ := by
      rw [runRequests, ran₀, Fault.ok_bind, ran₁]
    rw [self₁] at ran
    refine ⟨(flush_ok drawn).1.trans self₁, m, runRequests_append first ?_, within⟩
    exact Fault.bind_eq_ok.mpr ⟨m, ran, rfl⟩
  | clicked _ _ ran ih =>
    obtain ⟨self, m, before, a, roles, rep, same⟩ := ih
    obtain ⟨self', m', clicked, within⟩ := click_simulates (o := ⟨0⟩) rep same ran
    exact ⟨self'.trans self, m', runRequests_append before clicked, within⟩
  | rendered _ ran ih =>
    obtain ⟨self, m, before, a, roles, rep, same⟩ := ih
    obtain ⟨m', rendered, within⟩ := render_simulates rep same ran
    rw [self] at rendered
    refine ⟨(flush_ok ran).1.trans self, m', runRequests_append before ?_, within⟩
    exact Fault.bind_eq_ok.mpr ⟨m', rendered, rfl⟩

end Simulation

/-- What the program reads from react.go is what the world holds, and the same updates are due. -/
structure World.ShownBy (w : World) (m : ReactMachine) : Prop where
  count : m.mounted.length = 1 + (w.tree.map fun _ => 1).getD 0
  outer : ∃ inst, m.mounted[0]? = some inst ∧ inst.forced = w.pending ∧
    (ComponentDef.mk (.object inst.this)).StateAs m.objects .outerState = .ok w.state
  chooser : ∀ t, w.tree = some t → ∃ inst, m.mounted[1]? = some inst ∧
    inst.forced = t.chooser.output.pending ∧
    (ComponentDef.mk (.object inst.this)).StateAs m.objects .chooserState = .ok t.chooser.output.state ∧
    (ComponentDef.mk (.object inst.this)).PropsAs m.objects .chooserProps = .ok t.chooser.props

section Program
variable {w : World} {m : ReactMachine}

theorem World.InObjects.chooser {t : Tree} (within : w.InObjects m) (shown : w.tree = some t) :
    ∃ roles inst, m.mounted[1]? = some inst ∧ inst.forced = t.chooser.output.pending ∧
      ShowsMounted m.objects roles 1 inst.this t.chooserMounted := by
  obtain ⟨a, roles, rep, same⟩ := within
  have found : a.mounted[1]? = some t.chooserMounted := by
    rw [same, World.components, shown]
    rfl
  obtain ⟨inst, known⟩ := rep.mounted.left_of_right found
  obtain ⟨_, waits, shows⟩ := rep.mounted.related 1 inst _ known found
  exact ⟨roles, inst, known, waits, shows⟩

theorem World.InObjects.shownBy (within : w.InObjects m) : w.ShownBy m where
  count := by
    obtain ⟨a, roles, rep, same⟩ := within
    rw [rep.mounted.length, same, World.components]
    cases w.tree <;> rfl
  outer := by
    obtain ⟨a, roles, rep, same⟩ := within
    have found : a.mounted[0]? = some w.outerMounted := by
      rw [same]
      rfl
    obtain ⟨inst, known⟩ := rep.mounted.left_of_right found
    obtain ⟨_, waits, shows⟩ := rep.mounted.related 0 inst _ known found
    exact ⟨inst, known, waits, shows.stateAs rfl⟩
  chooser t shown := by
    obtain ⟨roles, inst, known, waits, shows⟩ := within.chooser shown
    exact ⟨inst, known, waits, shows.stateAs rfl, shows.propsAs rfl⟩

/-- Every run of the program can be made on the objects of react.go: the calls of `SetState`
and the renders never panic there, and what react.go then reads is what the world holds. -/
theorem program_in_objects (reachable : Reachable rng c h w seen) :
    (∃ requests, Asks rng c h w seen requests) ∧
    ∀ requests, Asks rng c h w seen requests →
      ∃ m, runRequests ⟨0⟩ requests = .ok m ∧ w.ShownBy m := by
  refine ⟨reachable.asks, fun requests asks => ?_⟩
  obtain ⟨_, m, ran, within⟩ := asks.inObjects
  exact ⟨m, ran, within.shownBy⟩

/-- The program itself, as it is mounted. -/
theorem hackConfig_in_objects : Returns (newConfig hackCategories) Heap.empty (fun c h =>
    ∀ rng : Rng, Returns (mount c) (World.unmounted h) (fun _ w =>
      ∃ requests m, Asks rng c h w w.handlers requests ∧ runRequests ⟨0⟩ requests = .ok m ∧
        w.ShownBy m)) := by
  apply hackConfig_returns.mono
  rintro c h ⟨refs, config⟩ rng
  obtain ⟨_, w, ran, _⟩ := mount_reached config hackCategories_wellFormed
  have reachable : Reachable rng c h w w.handlers := .mounted ran
  obtain ⟨⟨requests, asks⟩, follows⟩ := program_in_objects reachable
  obtain ⟨m, done, shown⟩ := follows requests asks
  exact ⟨_, w, ran, requests, m, asks, done, shown⟩

/-- The chooser is drawn again by its parent exactly when it waits for an update of its own,
or `shouldComponentUpdate` says so of its object and the object with its new properties. -/
theorem receive_as_shouldComponentUpdate (asks : Asks rng c h w seen requests)
    (ran : runRequests ⟨0⟩ requests = .ok m) (shown : w.tree = some t) (p : ChooserProps)
    (draw : ChooserProps → Except Panic ChooserBody) :
    ∃ inst o objects asked, m.mounted[1]? = some inst ∧ inst.forced = t.chooser.output.pending ∧
      propsWrap (some (propsValue p)) none m.objects = .ok (o, objects) ∧
      shouldComponentUpdate generated.equals objects (.object inst.this) (.object o) = .ok asked ∧
      Cached.receive draw t.chooser.output.pending t.chooser p =
        if inst.forced || asked then Cached.draw draw p else pure t.chooser := by
  obtain ⟨_, m', ran', within⟩ := asks.inObjects
  cases ran.symm.trans ran'
  obtain ⟨roles, inst, known, waits, shows⟩ := within.chooser shown
  obtain ⟨objects, wrapped, old, size, wraps⟩ :=
    propsWrap_eq m.objects roles (some (propsValue p)) none
  have decided := shouldComponentUpdate_eq generated.equals (shows.frame (Keeps.new size old)) wraps
  have compared : differs generated.equals t.chooserMounted.props (some (propsValue p)) =
      .ok (decide (t.chooser.props ≠ p)) :=
    (differs_generated .chooserProps t.chooser.props p).trans (congrArg _ (decide_eq_decide.mpr Iff.rfl))
  refine ⟨inst, _, objects, _, known, waits, wrapped, decided.trans compared, ?_⟩
  rw [waits]
  cases t.chooser.output.pending with
  | true => rfl
  | false =>
    by_cases same : t.chooser.props = p
    · simp [Cached.receive, same]
    · simp [Cached.receive, same]

/-- A click on the second heading makes the chooser of the program wait for an update. -/
theorem expand_waits {c : Ref Config} {h : Heap} (rng : Rng) (config : h.ConfigAt c refs hackCategories) :
    ∃ w t seen, Reachable rng c h w seen ∧ w.tree = some t ∧ t.chooser.output.pending = true := by
  obtain ⟨_, w, mounted, settled, reached⟩ := mount_reached config hackCategories_wellFormed
  have offered : Handler.expandClick ⟨1⟩ 1 ∈ w.handlers :=
    (reached.refines.mem_handlers settled).mpr (.heading (i := 1) (by decide))
  obtain ⟨_, w', clicked, _⟩ := onClick_reached rng hackCategories_wellFormed reached offered
  obtain ⟨t, shown, left⟩ := ChooserDef.setState_ok (ChooserDef.expand_ok clicked)
  obtain ⟨t', shown', tree, _⟩ := reached.refines.tree
  cases shown.symm.trans shown'
  have opened : t.chooser.output.state = ⟨0⟩ := tree.state
  refine ⟨w', _, _, .clicked (.mounted mounted) offered clicked, congrArg World.tree left, ?_⟩
  simp [Tree.withChooser, opened]

theorem receive_as_shouldComponentUpdate_waiting : Returns (newConfig hackCategories) Heap.empty (fun c h =>
    ∀ rng : Rng, ∃ w t seen requests m inst, Asks rng c h w seen requests ∧
      runRequests ⟨0⟩ requests = .ok m ∧ w.tree = some t ∧ m.mounted[1]? = some inst ∧ inst.forced = true ∧
      Cached.receive (t.chooser.output.redraw w.heap) t.chooser.output.pending t.chooser t.chooser.props =
        Cached.draw (t.chooser.output.redraw w.heap) t.chooser.props) := by
  apply hackConfig_returns.mono
  rintro c h ⟨refs, config⟩ rng
  obtain ⟨w, t, seen, reachable, shown, waits⟩ := expand_waits rng config
  obtain ⟨requests, asks⟩ := reachable.asks
  obtain ⟨_, m, ran, _⟩ := asks.inObjects
  obtain ⟨inst, _, _, _, known, forced, _, _, drawn⟩ := receive_as_shouldComponentUpdate asks ran shown
    t.chooser.props (t.chooser.output.redraw w.heap)
  rw [waits] at forced
  rw [forced] at drawn
  exact ⟨w, t, seen, requests, m, inst, asks, ran, shown, known, forced, drawn⟩

end Program
end Gopherize
