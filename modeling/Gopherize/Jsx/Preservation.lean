import Gopherize.Jsx.Html

/-! What `HTML` keeps of its markup. Apart from blank texts, the elements have the
tags and the texts of the nodes in the same order and nesting. A blank text that
is kept stops the elements that ask for a type of their children: a list or a
select with two blank gaps is never accepted. -/
namespace Gopherize.Jsx
open GoCore Html React

inductive Label where
  | text (s : String)
  | tag (name : String)
  deriving DecidableEq, Repr

def Label.blank : Label → Bool
  | .text s => Text.trimSpace s = ""
  | .tag _ => false

def label (content : Content) : Label :=
  if content.type = .textNode then .text content.data else .tag content.data

mutual
/-- The tags and texts of an element. -/
def outline : Elem → Rose Label
  | .S text => .node (.text text) []
  | .host tag _ children => .node (.tag tag) (outlines children)

def outlines : List Elem → List (Rose Label)
  | [] => []
  | e :: es => outline e :: outlines es
end

theorem outlines_eq (es : List Elem) : outlines es = es.map outline := by
  induction es with
  | nil => rfl
  | cons e es ih => rw [outlines, ih, List.map_cons]

theorem isBlank_eq (content : Content) : isBlank content = (label content).blank := by
  by_cases text : content.type = .textNode
  · simp [isBlank, label, text, Label.blank]
  · simp [isBlank, label, text, Label.blank]

/-- Texts and rules have no children, as in every parsed document. -/
inductive Leafy : Rose Content → Prop where
  | node {content ts} : (content.type = .textNode ∨ content.data = "hr" → ts = []) →
    (∀ t ∈ ts, Leafy t) → Leafy (.node content ts)

/-- Only `hr` takes no children. -/
theorem tag_of_leaf {m : Markup} (member : m ∈ Markup.all) (leaf : m.child = .none) :
    m.tag = "hr" := by
  have only : ∀ m ∈ Markup.all, m.child = .none → m.tag = "hr" := by decide +kernel
  exact only m member leaf

theorem outline_all {ts : List (Rose Content)} {es : List Elem} (all : List.Forall₂ Mirrors ts es)
    (each : ∀ t ∈ ts, ∀ e, Mirrors t e → outline e = t.map label) :
    es.map outline = ts.map (Rose.map label) := by
  induction all with
  | nil => rfl
  | @cons t e ts es head _ ih =>
    rw [List.map_cons, List.map_cons, each t List.mem_cons_self e head,
      ih (fun s member => each s (List.mem_cons_of_mem _ member))]

/-- An accepted tree without hidden children keeps all its tags and texts. -/
theorem Mirrors.outline {t : Rose Content} {e : Elem} (mirrors : Mirrors t e) (leafy : Leafy t) :
    outline e = t.map label := by
  induction t using Rose.induct generalizing e with
  | step content ts ih =>
    cases leafy with
    | node bare below =>
      cases mirrors with
      | text type => simp [Jsx.outline, bare (.inl type), label, type]
      | leaf type member tag leaf _ =>
        have rule : content.data = "hr" := tag.symm.trans (tag_of_leaf member leaf)
        simp [Jsx.outline, outlines, bare (.inr rule), label, type]
      | @element _ _ m o es type member tag inner _ all _ =>
        have kids := outline_all all (fun t child e made => ih t child made (below t child))
        simp [Jsx.outline, outlines_eq, kids, label, type]

theorem Leafy.strip {t : Rose Content} (leafy : Leafy t) : Leafy (strip isBlank t) := by
  induction leafy with
  | @node content ts bare below ih =>
    rw [Jsx.strip]
    refine .node ?_ ?_
    · intro leaf
      rw [bare leaf]
      rfl
    · intro s member
      rcases strip_cases isBlank ts with ⟨_, _, each⟩ | ⟨before, b, after, split, _, _, _, each⟩
      · rw [each] at member
        obtain ⟨t, inside, rfl⟩ := List.mem_map.mp member
        exact ih t inside
      · rw [each] at member
        rcases List.mem_append.mp member with left | right
        · obtain ⟨t, inside, rfl⟩ := List.mem_map.mp left
          exact ih t (by simp [split, inside])
        · exact below s (by simp [split, right])

/-- `u` stands in the tree, and everything above it is an element with children. -/
inductive Below (u : Rose Content) : Rose Content → Prop where
  | here : Below u u
  | child {content ts t} : content.type = .elementNode → content.data ≠ "hr" → t ∈ ts →
    Below u t → Below u (.node content ts)

/-- Everything that `parse` reaches is mirrored. -/
theorem Below.mirrors {u t : Rose Content} (below : Below u t) {e : Elem} (mirrors : Mirrors t e) :
    ∃ e', Mirrors u e' := by
  induction below generalizing e with
  | here => exact ⟨e, mirrors⟩
  | child type inner member _ ih =>
    cases mirrors with
    | text text => rw [type] at text; cases text
    | leaf _ known tag leaf _ => exact absurd (tag.symm.trans (tag_of_leaf known leaf)) inner
    | element _ _ _ _ _ all _ =>
      obtain ⟨e', _, made⟩ := forall₂_of_mem all member
      exact ih made

/-- A list or a select, whose children have to have a type of their own. -/
structure Demanding (content : Content) : Prop where
  type : content.type = .elementNode
  tag : content.data = "ul" ∨ content.data = "select"

/-- A demanding element with a blank child is not accepted. -/
theorem Demanding.refused {content : Content} (demanding : Demanding content)
    {ts : List (Rose Content)} {b : Rose Content} (member : b ∈ ts) (blank : isBlank b.root = true)
    (e : Elem) : ¬ Mirrors (.node content ts) e := by
  have typed : ∀ m ∈ Markup.all, m.tag = "ul" ∨ m.tag = "select" →
      m.child = .rendersLi ∨ m.child = .optionElem := by decide +kernel
  have text : b.root.type = .textNode := by
    simp only [isBlank, Bool.and_eq_true, decide_eq_true_eq] at blank
    exact blank.1
  intro mirrors
  cases mirrors with
  | text type => rw [demanding.type] at type; cases type
  | leaf _ known tag leaf _ =>
    have := typed _ known (tag ▸ demanding.tag)
    simp [leaf] at this
  | element _ known tag _ _ all accepted =>
    obtain ⟨e', inside, made⟩ := forall₂_of_mem all member
    have asked := accepted e' inside
    cases made with
    | text type => rcases typed _ known (tag ▸ demanding.tag) with child | child <;>
        simp [child, accepts] at asked
    | leaf type => simp only [Rose.root] at text; rw [text] at type; cases type
    | element type => simp only [Rose.root] at text; rw [text] at type; cases type

/-- Of two blank children one is left. -/
theorem stripAll_leaves {ts : List (Rose Content)} (two : 2 ≤ ts.countP (fun t => isBlank t.root)) :
    ∃ b ∈ stripAll isBlank ts, isBlank b.root = true := by
  rcases strip_cases isBlank ts with ⟨none, _, _⟩ | ⟨before, b, after, rfl, none, _, _, each⟩
  · rw [List.countP_eq_zero.mpr (by simpa using none)] at two
    omega
  · rw [List.countP_append, List.countP_eq_zero.mpr (by simpa using none), List.countP_cons] at two
    have more : 0 < after.countP (fun t => isBlank t.root) := by split at two <;> omega
    obtain ⟨b', inside, blank⟩ := List.countP_pos_iff.mp more
    exact ⟨b', by rw [each]; exact List.mem_append_right _ inside, blank⟩

/-- Wherever it stands, a demanding element with two blank children keeps one. -/
theorem Below.keeps_blank {content : Content} (demanding : Demanding content)
    {us : List (Rose Content)} (two : 2 ≤ us.countP (fun t => isBlank t.root)) {t : Rose Content}
    (below : Below (.node content us) t) :
    isBlank t.root = false ∧ ∃ vs, (∃ b ∈ vs, isBlank b.root = true) ∧
      Below (.node content vs) (strip isBlank t) := by
  induction below with
  | here =>
    refine ⟨by simp [Rose.root, isBlank, demanding.type], _, stripAll_leaves two, ?_⟩
    rw [strip]
    exact .here
  | @child above ts t type inner member below ih =>
    obtain ⟨notBlank, vs, left, reached⟩ := ih
    refine ⟨by simp [Rose.root, isBlank, type], ?_⟩
    rw [strip]
    rcases strip_cases isBlank ts with ⟨_, _, each⟩ | ⟨before, b, after, rfl, _, blank, _, each⟩
    · exact ⟨vs, left, .child type inner (each ▸ List.mem_map_of_mem member) reached⟩
    · rw [each]
      rcases List.mem_append.mp member with early | late
      · exact ⟨vs, left, .child type inner
          (List.mem_append_left _ (List.mem_map_of_mem early)) reached⟩
      · rcases List.mem_cons.mp late with rfl | late
        · rw [notBlank] at blank
          cases blank
        · -- nothing after the removed child was walked
          have some : 0 < us.countP (fun t => isBlank t.root) := by omega
          exact ⟨us, List.countP_pos_iff.mp some, .child type inner (List.mem_append_right _ late) below⟩

section Results
variable {build : TreeBuilder} {meaning : Meaning} {st : State} {s : String}
  {ts : List (Rose Content)} {es : List Elem} {res : Slice Elem}

/-- What `HTML` returns mirrors the nodes that are not blank, stripped. -/
theorem HTML_mirrors (means : build.Means meaning) (coherent : Coherent meaning st)
    (meant : meaning div (Text.trimSpace s) = some (.ok ts)) (made : (HTML build st s).1 = .ok res) :
    ∃ es, res.elems (HTML build st s).2.arrays = .ok es ∧
      List.Forall₂ Mirrors ((ts.filter (fun t => !isBlank t.root)).map (strip isBlank)) es := by
  obtain ⟨gives, _⟩ := HTML_eq means coherent s meant
  rw [made] at gives
  obtain ⟨es, expected, denotes⟩ := gives
  refine ⟨es, denotes.elems, ?_⟩
  simpa only [rendered, Fault.mapM_eq_ok, parseTree_mirrors] using expected

/-- Apart from blank texts nothing is lost, added or moved. -/
theorem HTML_outline (means : build.Means meaning) (coherent : Coherent meaning st)
    (meant : meaning div (Text.trimSpace s) = some (.ok ts)) (leafy : ∀ t ∈ ts, Leafy t)
    (made : (HTML build st s).1 = .ok res) :
    ∃ es, res.elems (HTML build st s).2.arrays = .ok es ∧
      cleanAll Label.blank (es.map outline) = cleanAll Label.blank (ts.map (Rose.map label)) := by
  obtain ⟨es, read, mirrors⟩ := HTML_mirrors means coherent meant made
  have outlines := outline_all mirrors ?_
  · have same : Label.blank ∘ label = isBlank := funext fun content => (isBlank_eq content).symm
    exact ⟨es, read, by rw [outlines, cleanAll_map, cleanAll_map, same, cleanAll_strip]⟩
  · intro t member e made
    obtain ⟨r, inside, rfl⟩ := List.mem_map.mp member
    exact made.outline (leafy r (List.mem_filter.mp inside).1).strip

/-- A paragraph with a rule after it and a blank between them. -/
def ruled : List (Rose Content) :=
  [paragraph "a", .node { type := .textNode, data := "\n" } [], .node { type := .elementNode, data := "hr" } []]

def ruledMeaning : Meaning := fun context s =>
  if context = div ∧ s = "<p>a</p>\n<hr>" then some (.ok ruled) else none

theorem HTML_outline_ruled :
    ∃ res es, (HTML (planter ruledMeaning) .initial " <p>a</p>\n<hr> ").1 = .ok res ∧
      res.elems (HTML (planter ruledMeaning) .initial " <p>a</p>\n<hr> ").2.arrays = .ok es ∧
      cleanAll Label.blank (es.map outline) =
        [.node (.tag "p") [.node (.text "a") []], .node (.tag "hr") []] := by
  have means := planter_means ruledMeaning
  have coherent := coherent_initial ruledMeaning
  have trimmed : Text.trimSpace " <p>a</p>\n<hr> " = "<p>a</p>\n<hr>" := by decide +kernel
  have meant : ruledMeaning div (Text.trimSpace " <p>a</p>\n<hr> ") = some (.ok ruled) := by
    rw [trimmed]
    rfl
  have leafy : ∀ t ∈ ruled, Leafy t := by
    simp only [ruled, paragraph, List.forall_mem_cons]
    exact ⟨.node (by simp) (by simpa using .node (by simp) (by simp)), .node (by simp) (by simp),
      .node (by simp) (by simp), by simp⟩
  have accepted : ∃ es, rendered (Text.trimSpace " <p>a</p>\n<hr> ") (.ok ruled) = .ok es := ⟨_, rfl⟩
  obtain ⟨es, result⟩ := accepted
  obtain ⟨res, made, _⟩ := HTML_made means coherent meant result
  obtain ⟨es, read, same⟩ := HTML_outline means coherent meant leafy made
  exact ⟨res, es, made, read, same⟩

/-- A list with an item between two line ends. -/
def gappedList : Rose Content :=
  .node { type := .elementNode, data := "ul" } [.node { type := .textNode, data := "\n" } [],
    .node { type := .elementNode, data := "li" } [], .node { type := .textNode, data := "\n" } []]

def gappedMeaning : Meaning := fun context s =>
  if context = div ∧ s = "<ul>\n<li></li>\n</ul>" then some (.ok [gappedList]) else none

end Results

end Gopherize.Jsx
