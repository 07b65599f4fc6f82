import Gopherize.Outer

/-! Rendering and events as the react package runs them for this program. A
re-render of a mounted component draws a child again only if its properties
changed or it asked for it itself; `draw` is the same view drawn from nothing. -/
namespace Gopherize
open GoCore

namespace ChooserBody

/-- The chooser with all its panels, drawn from nothing. -/
def draw (ch : ChooserDef) (st : ChooserState) (h : Heap) (props : ChooserProps) :
    Except Panic ChooserBody := do
  let output ← ch.render st props h
  let panels ← output.panels.mapM (Cached.draw (PanelDef.render · h))
  pure { self := ch, state := st, pending := false, output, panels }

/-- The re-render of a mounted chooser. -/
def redraw (b : ChooserBody) (h : Heap) (props : ChooserProps) : Except Panic ChooserBody := do
  let output ← b.self.render b.state props h
  let panels ← Cached.reconcile (PanelDef.render · h) b.panels output.panels
  pure { b with pending := false, output, panels }

theorem redraw_eq_draw {b : ChooserBody} {h : Heap}
    (sound : ∀ panel ∈ b.panels, panel.Sound (PanelDef.render · h)) (props : ChooserProps) :
    b.redraw h props = draw b.self b.state h props := by
  simp only [redraw, draw, Cached.reconcile_eq_draw sound]

theorem stable_draw (ch : ChooserDef) (st : ChooserState) (props : ChooserProps) :
    Stable (fun h => draw ch st h props) := by
  have panel (props : PanelProps) : Stable (fun h => Cached.draw (PanelDef.render · h) props) :=
    (PanelDef.stable_render props).bind (fun _ => .const _)
  exact (ChooserDef.stable_render ch st props).bind (fun output =>
    (Stable.mapM panel output.panels).bind (fun _ => .const _))

theorem draw_ok (drawn : draw ch st h props = .ok body) :
    body.self = ch ∧ body.state = st ∧ body.pending = false ∧
      ∀ panel ∈ body.panels, panel.Sound (PanelDef.render · h) := by
  obtain ⟨output, _, drawn⟩ := bind_eq_ok.mp drawn
  obtain ⟨panels, each, same⟩ := bind_eq_ok.mp drawn
  cases same
  exact ⟨rfl, rfl, rfl, (Cached.mapM_draw_eq_ok.mp each).2⟩

end ChooserBody

namespace Tree

/-- The whole view of a state, drawn from nothing. -/
def draw (o : OuterDef) (s : OuterState) (ch : ChooserDef) (st : ChooserState) (h : Heap) :
    Except Panic Tree := do
  let output := o.render s
  let (previewProps, chooserProps) ← OuterDef.children output
  let preview ← Cached.draw (PreviewDef.render · h) previewProps
  let chooser ← Cached.draw (ChooserBody.draw ch st h) chooserProps
  pure { output, preview, chooser }

/-- The re-render of the mounted outer component. -/
def redraw (t : Tree) (o : OuterDef) (s : OuterState) (h : Heap) : Except Panic Tree := do
  let output := o.render s
  let (previewProps, chooserProps) ← OuterDef.children output
  let preview ← t.preview.receive (PreviewDef.render · h) false previewProps
  let chooser ← t.chooser.receive (t.chooser.output.redraw h) t.chooser.output.pending chooserProps
  pure { output, preview, chooser }

def handlers (t : Tree) : List Handler :=
  t.output.handlers ++ t.preview.output.handlers ++ t.chooser.output.output.handlers ++
    t.chooser.output.panels.flatMap (·.output.handlers)

/-- Every cached output is what its own properties give in the heap. The chooser
may be behind its own state as long as it waits for a re-render. -/
structure Sound (h : Heap) (t : Tree) : Prop where
  preview : t.preview.Sound (PreviewDef.render · h)
  chooser : t.chooser.output.pending = false →
    t.chooser.Sound (ChooserBody.draw t.chooser.output.self t.chooser.output.state h)
  panels : ∀ panel ∈ t.chooser.output.panels, panel.Sound (PanelDef.render · h)

/-- The tree has been rendered with the properties of the state. -/
structure Current (o : OuterDef) (s : OuterState) (t : Tree) : Prop where
  output : t.output = o.render s
  preview : t.preview.props = OuterDef.previewProps s
  chooser : t.chooser.props = o.chooserProps s

theorem draw_eq_ok {t : Tree} : draw o s ch st h = .ok t ↔
    t.Current o s ∧ t.preview.Sound (PreviewDef.render · h) ∧
      t.chooser.Sound (ChooserBody.draw ch st h) := by
  simp only [draw, OuterDef.children_render, ok_bind, bind_eq_ok, Cached.draw_eq_ok]
  constructor
  · rintro ⟨preview, ⟨first, previewSound⟩, chooser, ⟨second, chooserSound⟩, same⟩
    cases same
    exact ⟨⟨rfl, first, second⟩, previewSound, chooserSound⟩
  · rintro ⟨⟨output, first, second⟩, previewSound, chooserSound⟩
    obtain ⟨_, preview, chooser⟩ := t
    cases output
    exact ⟨preview, ⟨first, previewSound⟩, chooser, ⟨second, chooserSound⟩, rfl⟩

/-- Pruning makes no difference over sound caches. -/
theorem redraw_eq_draw {t : Tree} {h : Heap} (sound : t.Sound h) (o : OuterDef) (s : OuterState) :
    t.redraw o s h = draw o s t.chooser.output.self t.chooser.output.state h := by
  have chooser : t.chooser.output.redraw h =
      ChooserBody.draw t.chooser.output.self t.chooser.output.state h :=
    funext (fun props => ChooserBody.redraw_eq_draw sound.panels props)
  simp only [redraw, draw, chooser, Cached.receive_eq_draw (fun _ => sound.preview),
    Cached.receive_eq_draw sound.chooser]

theorem Sound.mono {t : Tree} {h k : Heap} (grown : h ≤ k) (sound : t.Sound h) : t.Sound k where
  preview := sound.preview.mono PreviewDef.stable_render grown
  chooser still := ChooserBody.stable_draw _ _ _ grown (sound.chooser still)
  panels panel member := (sound.panels panel member).mono PanelDef.stable_render grown

/-- The tree is mounted with sound caches, and its chooser is `ch` in the state
`st`, whichever gopher it was last rendered with. -/
structure Mounted (o : OuterDef) (ch : ChooserDef) (st : ChooserState) (h : Heap) (t : Tree) :
    Prop where
  self : t.chooser.output.self = ch
  state : t.chooser.output.state = st
  update : t.chooser.props.update = o
  sound : t.Sound h

theorem mounted_of_draw {t : Tree} (drawn : draw o s ch st h = .ok t) :
    t.Mounted o ch st h ∧ t.Current o s ∧ t.chooser.output.pending = false := by
  obtain ⟨current, preview, chooser⟩ := draw_eq_ok.mp drawn
  obtain ⟨self, state, still, panels⟩ := ChooserBody.draw_ok chooser
  have update : t.chooser.props.update = o := by rw [current.chooser]; rfl
  subst self state
  exact ⟨⟨rfl, rfl, update, preview, fun _ => chooser, panels⟩, current, still⟩

/-- A current tree that waits for nothing is the whole view, drawn from nothing. -/
theorem Mounted.draw_eq {t : Tree} (mounted : t.Mounted o ch st h) (current : t.Current o s)
    (still : t.chooser.output.pending = false) : draw o s ch st h = .ok t := by
  obtain ⟨rfl, rfl, _, sound⟩ := mounted
  exact draw_eq_ok.mpr ⟨current, sound.preview, sound.chooser still⟩

theorem Mounted.mono {t : Tree} {h k : Heap} (grown : h ≤ k) (mounted : t.Mounted o ch st h) :
    t.Mounted o ch st k :=
  ⟨mounted.self, mounted.state, mounted.update, mounted.sound.mono grown⟩

end Tree

/-- The handlers on the screen. -/
def World.handlers (w : World) : List Handler := (w.tree.map Tree.handlers).getD []

/-- Everything on the screen is up to date as far as the components know. -/
def World.Settled (w : World) : Prop :=
  w.pending = false ∧ ∀ t, w.tree = some t → t.chooser.output.pending = false

/-- Do the re-renders that are due, the outer component first; its first
render mounts the children. -/
def flush : Go Unit := do
  let w ← get
  match w.tree with
  | none =>
    let t ← Tree.draw w.self w.state ⟨w.nextElem⟩ {} w.heap
    set { w with pending := false, tree := some t, nextElem := w.nextElem + 1 }
  | some t =>
    if w.pending then
      let t ← t.redraw w.self w.state w.heap
      set { w with pending := false, tree := some t }
    else if t.chooser.output.pending then
      let body ← t.chooser.output.redraw w.heap t.chooser.props
      set { w with tree := some (t.withChooser body) }
    else pure ()

/-- The program before anything is mounted. -/
def World.unmounted (h : Heap) : World := { heap := h, self := ⟨0⟩, nextElem := 1 }

/-- `ComponentWillMount` and the first render. -/
def mount (hackConfig : Ref Config) : Go Unit := do
  let w ← get
  w.self.componentWillMount hackConfig
  flush

def Handler.onClick (rng : Rng) : Handler → Go Unit
  | .shuffleClick ch => do (← ch.props).update.randomGopher rng
  | .resetClick ch => do (← ch.props).update.resetGopher
  | .saveClick _ => modify (fun w => { w with alerts := w.alerts ++ ["Frontend only for now..."] })
  | .expandClick e i => e.expand i
  | .chooseItemClick u ci v => u.updateGopher ci v

/-- A method call on the mounted components. -/
def Call.exec (rng : Rng) : Call String → Go Unit
  | .updateGopher part val => do (← get).self.updateGopher part val
  | .resetGopher => do (← get).self.resetGopher
  | .randomGopher => do (← get).self.randomGopher rng
  | .expand i => do
    match (← get).tree with
    | none => throw .nilDereference
    | some t => t.chooser.output.self.expand i

/-- A run mixes calls with renders in any order. -/
inductive Step where
  | call (c : Call String)
  | render

def Step.exec (rng : Rng) : Step → Go Unit
  | .call c => c.exec rng
  | .render => flush

/-- Mount the program and take the steps one after the other. -/
def runSteps (rng : Rng) (hackConfig : Ref Config) (steps : List Step) : Go Unit := do
  mount hackConfig
  steps.forM (Step.exec rng)

def callsOf (steps : List Step) : List (Call String) :=
  steps.filterMap (fun | .call c => some c | .render => none)

end Gopherize
