import Gopherize.Selection
import Gopherize.World

/-! outer.go: the operations on the current gopher. Each one builds a new gopher
in storage of its own and publishes it with `SetState`; the heap specifications
below say that everything published before is left as it was. -/
namespace Gopherize
open GoCore GoCore.Choice

/-- The option lists of the categories. -/
abbrev optionsOf (slots : List Slot) : List (List String) := slots.map Slot.options

/-- At least two categories, each with an option. -/
structure Populated (slots : List Slot) : Prop where
  two : 2 ≤ slots.length
  nonempty : ∀ slot ∈ slots, slot.options ≠ []

theorem populated_of_wellFormed (formed : Selection.WellFormed (optionsOf slots)) :
    Populated slots where
  two := by simpa using formed.two
  nonempty slot member := formed.nonempty slot.options (List.mem_map_of_mem member)

namespace Heap
variable {h : Heap}

theorem le_strings {t : Table (List String)} (grown : h.strings ≤ t) : h ≤ { h with strings := t } :=
  ⟨grown, le_rfl, le_rfl, le_rfl, le_rfl⟩

/-- A gopher over a slice whose elements are known. -/
theorem newGopher_returns {parts : Slice String} (denotes : parts.Denotes h.strings values) :
    Returns (onGophers (Table.alloc ⟨parts⟩)) h
      (fun g k => h ≤ k ∧ k.GopherAt (some g) values ∧ k.rands = h.rands) := by
  apply (returns_zoom (Table.alloc_returns h.gophers _)).mono
  rintro g _ ⟨t, rfl, grown, _, found⟩
  exact ⟨⟨le_rfl, le_rfl, grown, le_rfl, le_rfl⟩, ⟨g, _, rfl, found, denotes⟩, rfl⟩

end Heap

/-- `c.Categories[i].Options[0]`. -/
def firstOption (c : Ref Config) (i : Int) (h : Heap) : Except Panic String := do
  let config ← h.configs.deref c
  let cat ← config.categories.get h.categoryLists i
  let category ← h.categories.deref cat
  category.options.get h.strings 0

def defaultGopher (c : Ref Config) : Exec Heap (Ptr Gopher) := do
  let h ← get
  let config ← h.configs.deref c
  let parts ← Heap.onStrings (Slice.make "" config.categories.len)
  let h ← get
  let first ← firstOption c 0 h
  Heap.onStrings (parts.set 0 first)
  let h ← get
  let second ← firstOption c 1 h
  Heap.onStrings (parts.set 1 second)
  Heap.onGophers (Table.alloc ⟨parts⟩)

/-- The new gopher of `UpdateGopher`: a copy of the current parts with one changed. -/
def updatedGopher (current : Ref Gopher) (part : Int) (val : String) : Exec Heap (Ptr Gopher) := do
  let h ← get
  let gopher ← h.gophers.deref current
  let nps ← Heap.onStrings (Slice.make "" gopher.parts.len)
  let _ ← Heap.onStrings (Slice.copy nps gopher.parts)
  Heap.onStrings (nps.set part val)
  Heap.onGophers (Table.alloc ⟨nps⟩)

/-- One round of the loop of `RandomGopher`. -/
def addRandomPart (rng : Rng) (rand : Ref Rand) (parts : Slice String) (cat : Ref Category) :
    Exec Heap (Slice String) := do
  let h ← get
  let category ← h.categories.deref cat
  let k ← Heap.onRands (rng.intn rand category.options.len)
  let h ← get
  let p ← category.options.get h.strings k
  Heap.onStrings (parts.append "" p)

/-- The new gopher of `RandomGopher`. -/
def shuffledGopher (rng : Rng) (c : Ref Config) (rand : Ref Rand) : Exec Heap (Ptr Gopher) := do
  let h ← get
  let config ← h.configs.deref c
  let cats ← config.categories.elems h.categoryLists
  let parts ← cats.foldlM (addRandomPart rng rand) Slice.nil
  Heap.onGophers (Table.alloc ⟨parts⟩)

namespace OuterDef

def componentWillMount (o : OuterDef) (hackConfig : Ref Config) : Go Unit := do
  let current ← onHeap (defaultGopher hackConfig)
  let rand ← onHeap (Heap.onRands (Table.alloc ⟨[]⟩))
  o.setState { current := some current, config := hackConfig, rand := some rand }

def resetGopher (o : OuterDef) : Go Unit := do
  let s ← o.state
  let current ← onHeap (defaultGopher s.config)
  o.setState { s with current := some current }

def updateGopher (o : OuterDef) (part : Int) (val : String) : Go Unit := do
  let s ← o.state
  let current ← onHeap (updatedGopher s.current part val)
  o.setState { s with current := some current }

def randomGopher (o : OuterDef) (rng : Rng) : Go Unit := do
  let s ← o.state
  let current ← onHeap (shuffledGopher rng s.config s.rand)
  o.setState { s with current := some current }

def previewProps (s : OuterState) : PreviewProps := { current := s.current }

def chooserProps (o : OuterDef) (s : OuterState) : ChooserProps :=
  { current := s.current, config := s.config, update := o }

def render (o : OuterDef) (s : OuterState) : Element :=
  .host .div {} [.preview (previewProps s), .chooser (o.chooserProps s)]

/-- The children that the page asks for. React mounts whatever elements it finds there; the mounted
tree has a place for one preview and one chooser. -/
def children (page : Element) : Except Panic (PreviewProps × ChooserProps) :=
  match page.previews, page.choosers, page.panels with
  | [preview], [chooser], [] => pure (preview, chooser)
  | _, _, _ => throw .unmodelled

theorem children_render (o : OuterDef) (s : OuterState) :
    children (o.render s) = .ok (previewProps s, o.chooserProps s) := rfl

end OuterDef

section Specifications
variable {h : Heap}

theorem firstOption_eq (config : h.ConfigAt c refs slots) {i : Nat} (found : slots[i]? = some slot)
    (nonempty : slot.options ≠ []) : firstOption c i h = .ok (slot.options.headD "") := by
  obtain ⟨ref, inRefs, p, category, rfl, read, _, options⟩ := config.category found
  obtain ⟨⟨q, cfg, rfl, cell, categories⟩, _⟩ := config
  have head : slot.options[0]? = some (slot.options.headD "") := by
    cases same : slot.options with
    | nil => exact absurd same nonempty
    | cons v values => rfl
  simp only [firstOption, Table.deref_some cell, ok_bind, categories.get i inRefs,
    Table.deref_some read]
  exact options.get 0 head

theorem initial_eq_set (two : 2 ≤ slots.length) :
    ((List.replicate slots.length "").set 0 (slots[0].options.headD "")).set 1
        (slots[1].options.headD "") = Selection.initial (optionsOf slots) := by
  apply List.ext_getElem
  · simp
  · intro i _ _
    simp only [List.getElem_set, List.getElem_replicate, Selection.initial, List.getElem_mapIdx,
      List.getElem_map]
    rcases i with _ | _ | i
    · rfl
    · rfl
    · simp

theorem defaultGopher_returns (config : h.ConfigAt c refs slots) (populated : Populated slots) :
    Returns (defaultGopher c) h (fun g k => h ≤ k ∧
      k.GopherAt (some g) (Selection.initial (optionsOf slots)) ∧ k.rands = h.rands) := by
  have option (i : Nat) (within : i < slots.length) {t : Table (List String)}
      (grown : h.strings ≤ t) :
      firstOption c i { h with strings := t } = .ok (slots[i].options.headD "") :=
    firstOption_eq (config.mono (Heap.le_strings grown)) (List.getElem?_eq_getElem within)
      (populated.nonempty _ (List.getElem_mem within))
  have two := populated.two
  have sizes := config.length
  obtain ⟨p, cfg, rfl, cell, categories⟩ := config.1
  have width : cfg.categories.len = slots.length := by rw [← categories.length, sizes]
  refine returns_get_bind (returns_lift_bind (Table.deref_some cell) ?_)
  refine (returns_zoom (Slice.make_returns "" _ h.strings)).bind ?_
  rintro parts _ ⟨t, rfl, grown, owned, denotes⟩
  rw [width] at denotes
  refine returns_get_bind (returns_lift_bind (option 0 (by omega) grown) ?_)
  refine (returns_zoom (Slice.set_returns grown owned denotes 0 (by simp; omega) _)).bind ?_
  rintro _ _ ⟨t', rfl, grown', denotes'⟩
  refine returns_get_bind (returns_lift_bind (option 1 (by omega) grown') ?_)
  refine (returns_zoom (Slice.set_returns grown' owned denotes' 1 (by simp; omega) _)).bind ?_
  rintro _ _ ⟨t'', rfl, grown'', denotes''⟩
  rw [initial_eq_set two] at denotes''
  exact (Heap.newGopher_returns denotes'').mono (fun g k ⟨later, gopher, same⟩ =>
    ⟨(Heap.le_strings grown'').trans later, gopher, same⟩)

theorem updatedGopher_returns (gopher : h.GopherAt current values) {part : Nat}
    (within : part < values.length) (val : String) :
    Returns (updatedGopher current part val) h (fun g k => h ≤ k ∧
      k.GopherAt (some g) (values.set part val) ∧ k.rands = h.rands) := by
  obtain ⟨p, g, rfl, found, published⟩ := gopher
  refine returns_get_bind (returns_lift_bind (Table.deref_some found) ?_)
  refine (returns_zoom (Slice.make_returns "" _ h.strings)).bind ?_
  rintro nps _ ⟨t, rfl, grown, owned, denotes⟩
  have lengths : values.length = (List.replicate g.parts.len "").length := by
    rw [List.length_replicate, published.length]
  refine (returns_zoom
    (Slice.copy_returns grown owned (published.mono grown) denotes lengths)).bind ?_
  rintro _ _ ⟨t', rfl, grown', denotes'⟩
  refine (returns_zoom (Slice.set_returns grown' owned denotes' part within val)).bind ?_
  rintro _ _ ⟨t'', rfl, grown'', denotes''⟩
  exact (Heap.newGopher_returns denotes'').mono (fun g k ⟨later, gopher, same⟩ =>
    ⟨(Heap.le_strings grown'').trans later, gopher, same⟩)

/-- One round draws once, within the number of options, and appends that option. -/
theorem addRandomPart_returns (rng : Rng) {k : Heap} (grown : h ≤ k) {parts : Slice String}
    (owned : parts.Owned h.strings) (denotes : parts.Denotes k.strings values)
    (category : h.CategoryAt cat slot) (nonempty : slot.options ≠ [])
    (generator : k.rands.read r = some ⟨calls⟩) :
    Returns (addRandomPart rng (some r) parts cat) k (fun s k' => h ≤ k' ∧ s.Owned h.strings ∧
      s.Denotes k'.strings
        (values ++ [slot.options.getD (rng.draw calls slot.options.length) default]) ∧
      k'.rands.read r = some ⟨calls ++ [slot.options.length]⟩) := by
  obtain ⟨p, c, rfl, found, _, options⟩ := category.mono grown
  have positive := List.length_pos_iff.mpr nonempty
  have bound := rng.draw_lt calls _ positive
  rw [options.length] at positive bound ⊢
  have inside : rng.draw calls c.options.len < slot.options.length := options.length ▸ bound
  refine returns_get_bind (returns_lift_bind (Table.deref_some found) ?_)
  refine (returns_zoom (rng.intn_returns generator positive)).bind ?_
  rintro _ _ ⟨t, rfl, rfl, recorded⟩
  refine returns_get_bind (returns_lift_bind (options.get _ (List.getElem?_eq_getElem inside)) ?_)
  refine Returns.mono (returns_zoom (Slice.append_returns "" _ grown.1 owned denotes)) ?_
  rintro s _ ⟨u, rfl, kept, ownedAfter, extended⟩
  rw [List.getD_eq_getElem _ _ inside]
  exact ⟨⟨kept, grown.2⟩, ownedAfter, extended, recorded⟩

/-- The whole loop: one draw for each category in config order, and the options
with the drawn numbers. -/
theorem addRandomParts_returns (rng : Rng) {k : Heap} (stored : List.Forall₂ h.CategoryAt refs slots)
    (nonempty : ∀ slot ∈ slots, slot.options ≠ []) (grown : h ≤ k) {parts : Slice String}
    (owned : parts.Owned h.strings) (denotes : parts.Denotes k.strings values)
    (generator : k.rands.read r = some ⟨calls⟩) :
    Returns (refs.foldlM (addRandomPart rng (some r)) parts) k (fun s k' => h ≤ k' ∧
      s.Denotes k'.strings
        (values ++ pick (optionsOf slots) (rng.draws calls (Selection.sizes (optionsOf slots)))) ∧
      k'.rands.read r = some ⟨calls ++ Selection.sizes (optionsOf slots)⟩) := by
  induction stored generalizing k parts values calls with
  | nil =>
    apply returns_pure
    simpa [pick, Rng.draws] using ⟨grown, denotes, generator⟩
  | @cons cat slot refs slots category _ ih =>
    have first := addRandomPart_returns rng grown owned denotes category
      (nonempty slot List.mem_cons_self) generator
    have others (slot : Slot) (member : slot ∈ slots) : slot.options ≠ [] :=
      nonempty slot (List.mem_cons_of_mem _ member)
    rw [List.foldlM_cons]
    apply first.bind
    rintro extended k' ⟨grown', owned', denotes', generator'⟩
    apply (ih others grown' owned' denotes' generator').mono
    rintro s k'' ⟨grown'', denotes'', generator''⟩
    simp only [List.append_assoc, List.singleton_append] at denotes'' generator''
    exact ⟨grown'', denotes'', generator''⟩

theorem shuffledGopher_returns (rng : Rng) (config : h.ConfigAt c refs slots)
    (nonempty : ∀ slot ∈ slots, slot.options ≠ []) (generator : h.rands.read r = some ⟨calls⟩) :
    Returns (shuffledGopher rng c (some r)) h (fun g k => h ≤ k ∧
      k.GopherAt (some g)
        (pick (optionsOf slots) (rng.draws calls (Selection.sizes (optionsOf slots)))) ∧
      k.rands.read r = some ⟨calls ++ Selection.sizes (optionsOf slots)⟩) := by
  obtain ⟨⟨p, cfg, rfl, cell, categories⟩, stored⟩ := config
  have loop := addRandomParts_returns rng stored nonempty le_rfl (Slice.owned_nil _)
    (Slice.denotes_nil _) generator
  refine returns_get_bind (returns_lift_bind (Table.deref_some cell)
    (returns_lift_bind categories.elems ?_))
  apply loop.bind
  rintro parts k ⟨grown, denotes, drawn⟩
  apply (Heap.newGopher_returns denotes).mono
  rintro g k' ⟨later, gopher, same⟩
  exact ⟨grown.trans later, gopher, same ▸ drawn⟩

/-- The common part of the operations: a new gopher is built on the heap and
`SetState` publishes it. Nothing else of the world changes. -/
theorem setCurrent_returns {w : World} {m : Exec Heap (Ptr Gopher)} (built : Returns m w.heap post) :
    Returns (do
        let current ← onHeap m
        w.self.setState { w.state with current := some current }) w
      (fun _ w' => ∃ g k pending, post g k ∧
        (pending = false → w.pending = false ∧ { w.state with current := some g } = w.state) ∧
        w' = { w with heap := k, state := { w.state with current := some g }, pending := pending }) := by
  apply (returns_zoom built).bind
  rintro g _ ⟨k, rfl, holds⟩
  apply OuterDef.setState_returns (w := { w with heap := k }) rfl
  intro pending unchanged
  exact ⟨g, k, pending, holds, unchanged, rfl⟩

end Specifications
end Gopherize
