import Gopherize.Html.Edits
import Gopherize.Jsx.Css

/-! gen_jsx_coreGen.go: parsed nodes become elements. The functions `parseA` to
`parseUl` are one function of the markup they make. The recursion over linked
nodes is compared with one over trees, and that one with what it is for: the
element mirrors the markup. -/
namespace Gopherize.Jsx
open GoCore Html React

/-- `strconv.ParseBool`, with false for a text it does not know. -/
def parseBool (s : String) : Bool := ["1", "t", "T", "true", "TRUE", "True"].contains s

/-- The attribute that sets a field. -/
def attrKey : Field → String
  | .ariaExpanded => "aria-expanded"
  | .ariaHasPopup => "aria-haspopup"
  | .ariaLabelledBy => "aria-labelledby"
  | .className => "class"
  | .id => "id"
  | .key => "key"
  | .role => "role"
  | .style => "style"
  | .alt => "alt"
  | .htmlFor => "for"
  | .href => "href"
  | .placeholder => "placeholder"
  | .src => "src"
  | .srcDoc => "srcdoc"
  | .target => "target"
  | .title => "title"
  | .type => "type"
  | .value => "value"

/-- What an attribute's text sets a field to. -/
def readField (f : Field) (val : String) : Except Fault Value :=
  match f with
  | .ariaExpanded | .ariaHasPopup => pure (.bool (parseBool val))
  | .style => do pure (.style (some (← parseCSS val)))
  | _ => pure (.string val)

/-- One assignment of the loop over the attributes. -/
inductive Setting where
  | field (f : Field) (v : Value)
  | data (k v : String)

def Setting.apply (vp : Props) : Setting → Props
  | .field f v => vp.set f v
  | .data k v => vp.setData k v

/-- The switch on the attribute's key. -/
def setting (m : Markup) (a : Attribute) : Except Fault Setting :=
  match m.fields.find? (fun f => attrKey f = a.key) with
  | some f => do pure (.field f (← readField f a.val))
  | none =>
    match Text.afterPrefix "data-" a.key with
    | some k => pure (.data k a.val)
    | none => throw (.errorf ("don't know how to handle <" ++ m.tag ++ "> attribute %q") [a.key])

def parseAttrs (m : Markup) (attr : List Attribute) : Except Fault (Option Props) :=
  if attr = [] then pure none
  else do
    let vp ← attr.foldlM (fun vp a => do pure (Setting.apply vp (← setting m a))) ({} : Props)
    pure (some vp)

/-- Whether an element has the Go type that a parent asserts for its children. -/
def accepts : Child → Elem → Bool
  | .rendersLi, .host tag _ _ => tag = "li"
  | .optionElem, .host tag _ _ => tag = "option"
  | .rendersLi, .S _ | .optionElem, .S _ => false
  | .element, _ | .none, _ => true

def wanted : Child → String
  | .rendersLi => "react.RendersLi"
  | .optionElem => "*react.OptionElem"
  | .element | .none => "react.Element"

/-- `parse(c).(T)` after the call. -/
def assertChild (child : Child) (e : Elem) : Except Fault Elem :=
  if accepts child e then pure e else throw (.typeAssertion (wanted child))

def markup (tag : String) : Option Markup := Markup.all.find? (fun m => m.tag = tag)

def typeNumber : NodeType → Nat
  | .errorNode => 0
  | .textNode => 1
  | .documentNode => 2
  | .elementNode => 3
  | .commentNode => 4
  | .doctypeNode => 5
  | .scopeMarkerNode => 6

/-- `parse` up to its loop over the children, which is given. -/
def parseContent (content : Content) (kids : Child → Except Fault (List Elem)) : Except Fault Elem :=
  match content.type with
  | .textNode => pure (.S content.data)
  | .elementNode =>
    match markup content.data with
    | some m => do
      let vp ← parseAttrs m content.attr
      -- parseHr has no loop
      let es ← if m.child = .none then pure [] else kids m.child
      pure (m.create vp es)
    | none => throw (.errorf "cannot handle Element %v" [content.data])
  | type => throw (.errorf "cannot handle NodeType %v" [toString (typeNumber type)])

/-- The loop over the children, from `c` on. -/
def parseKids (h : Nodes) (parse : Ptr Node → Except Fault Elem) (child : Child) :
    Nat → Ref Node → Except Fault (List Elem)
  | _, none => pure []
  | 0, some _ => throw .outOfFuel
  | fuel + 1, some c => do
    let e ← assertChild child (← parse c)
    let es ← parseKids h parse child fuel (h.link .nextSibling c)
    pure (e :: es)

def parse (h : Nodes) : Nat → Ptr Node → Except Fault Elem
  | 0, _ => throw .outOfFuel
  | fuel + 1, n =>
    parseContent (h.content n) fun child =>
      parseKids h (parse h fuel) child fuel (h.link .firstChild n)

mutual
/-- The same on trees. -/
def parseTree : Rose Content → Except Fault Elem
  | .node content ts => parseContent content fun child => parseTrees child ts

def parseTrees (child : Child) : List (Rose Content) → Except Fault (List Elem)
  | [] => pure []
  | t :: ts => do
    let e ← assertChild child (← parseTree t)
    let es ← parseTrees child ts
    pure (e :: es)
end

section Linked
variable {h : Nodes} {kids : Lists} {ts : List (Rose (Ptr Node))}

theorem parseKids_eq (holds : h.Holds kids) (listed : kids n = before ++ ts.map Rose.root)
    (each : ∀ t ∈ ts, parse h deep t.root = parseTree (t.map h.content))
    (enough : ts.length ≤ fuel) (child : Child) :
    parseKids h (parse h deep) child fuel (ts.map Rose.root).head? =
      parseTrees child (ts.map (Rose.map h.content)) := by
  induction ts generalizing before fuel with
  | nil => cases fuel <;> rfl
  | cons t ts ih =>
    obtain ⟨fuel, rfl⟩ : ∃ k, fuel = k + 1 := ⟨fuel - 1, by simp at enough; omega⟩
    have split : kids n = before ++ t.root :: ts.map Rose.root := listed
    have next := (holds.consistent.placed split).2.2
    simp only [Nodes.links] at next
    have listed' : kids n = (before ++ [t.root]) ++ ts.map Rose.root := by simp [split]
    have rest := ih listed' (fun s member => each s (List.mem_cons_of_mem _ member))
      (by simpa using enough)
    rw [List.map_cons, List.head?_cons, parseKids, List.map_cons, parseTrees, next, rest,
      each t List.mem_cons_self]

/-- On linked nodes that form a tree, `parse` is the recursion over the tree. -/
theorem parse_eq (holds : h.Holds kids) {t : Rose (Ptr Node)} (unfolds : t.Unfolds kids)
    (enough : t.nodes.length ≤ fuel) :
    parse h fuel t.root = parseTree (t.map h.content) := by
  induction t using Rose.induct generalizing fuel with
  | step a ts ih =>
    cases unfolds with
    | node listed below =>
      simp only [Rose.nodes_node, List.length_cons] at enough
      obtain ⟨fuel, rfl⟩ : ∃ k, fuel = k + 1 := ⟨fuel - 1, by omega⟩
      have room := Rose.length_le_nodes ts
      have each : ∀ t ∈ ts, parse h fuel t.root = parseTree (t.map h.content) := by
        intro t member
        have part := Rose.nodes_length_le member
        exact ih t member (below t member) (by omega)
      have first := holds.consistent.first a
      simp only [Nodes.links, listed] at first
      rw [Rose.map_node, parseTree, Rose.root, parse, first]
      congr 1
      funext child
      have split : kids a = [] ++ ts.map Rose.root := listed
      exact parseKids_eq holds split each (by omega) child

end Linked

/-- The value of the last attribute with a key. -/
def lastVal (attr : List Attribute) (key : String) : Option String :=
  (attr.reverse.find? (fun a => a.key = key)).map Attribute.val

theorem lastVal_cons (a : Attribute) (attr : List Attribute) (key : String) :
    lastVal (a :: attr) key = (lastVal attr key).or (if a.key = key then some a.val else none) := by
  rw [lastVal, List.reverse_cons, List.find?_append, Option.map_or, lastVal]
  congr 1
  by_cases same : a.key = key
  · simp [same]
  · simp [same]

/-- An attribute that the markup has a case for, with a text that can be read. -/
def Known (m : Markup) (a : Attribute) : Prop :=
  (∃ f ∈ m.fields, attrKey f = a.key ∧ ∃ v, readField f a.val = .ok v) ∨ ∃ k, a.key = "data-" ++ k

/-- The object that stands for a list of attributes: for each field the last
attribute counts, and a field without one has its zero value; data attributes are
kept under their names. Without any attribute the object is empty. -/
structure Mirror (m : Markup) (attr : List Attribute) (o : JsObject) : Prop where
  known : ∀ a ∈ attr, Known m a
  bare : attr = [] → o = fun _ => none
  field : attr ≠ [] → ∀ f ∈ m.fields,
    match lastVal attr (attrKey f) with
    | none => o f.jsName = f.assigned f.zero
    | some val => ∃ v, readField f val = .ok v ∧ o f.jsName = f.assigned v
  data : attr ≠ [] → ∀ k, o ("data-" ++ k) = (lastVal attr ("data-" ++ k)).map .string
  inner : attr ≠ [] → o "dangerouslySetInnerHTML" = some .null
  other : ∀ name, (∀ f ∈ m.fields, f.jsName ≠ name) → (∀ k, name ≠ "data-" ++ k) →
    name ≠ "dangerouslySetInnerHTML" → o name = none

theorem attrKey_injective : Function.Injective attrKey := by
  have distinct : (Field.all.map attrKey).Nodup := by decide +kernel
  intro f g same
  exact List.inj_on_of_nodup_map distinct (Field.mem_all f) (Field.mem_all g) same

theorem attrKey_not_data (f : Field) (k : String) : attrKey f ≠ "data-" ++ k := by
  have plain : Text.afterPrefix "data-" (attrKey f) = none := by cases f <;> decide +kernel
  exact Text.afterPrefix_eq_none.mp plain k

theorem jsName_not_data (f : Field) (k : String) : f.jsName ≠ "data-" ++ k := by
  have plain : Text.afterPrefix "data-" f.jsName = none := by cases f <;> decide +kernel
  exact Text.afterPrefix_eq_none.mp plain k

/-- Looking up a field by an injective name. -/
theorem find_field {name : Field → String} (injective : Function.Injective name)
    {fields : List Field} {key : String} {f : Field} :
    fields.find? (fun f => name f = key) = some f ↔ f ∈ fields ∧ name f = key := by
  constructor
  · intro found
    exact ⟨List.mem_of_find?_eq_some found, by simpa using List.find?_some found⟩
  · rintro ⟨member, rfl⟩
    cases found : fields.find? (fun g => name g = name f) with
    | none => simpa using List.find?_eq_none.mp found f member
    | some g =>
      have same := List.find?_some found
      rw [decide_eq_true_eq] at same
      rw [injective same]

theorem setting_eq_ok {m : Markup} {a : Attribute} {s : Setting} :
    setting m a = .ok s ↔
      (∃ f ∈ m.fields, attrKey f = a.key ∧ ∃ v, readField f a.val = .ok v ∧ s = .field f v) ∨
      ∃ k, a.key = "data-" ++ k ∧ s = .data k a.val := by
  rw [setting]
  cases found : m.fields.find? (fun f => attrKey f = a.key) with
  | some f =>
    obtain ⟨member, key⟩ := (find_field attrKey_injective).mp found
    simp only [Fault.bind_eq_ok, Fault.pure_eq_ok, Except.ok.injEq]
    constructor
    · rintro ⟨v, read, same⟩
      exact .inl ⟨f, member, key, v, read, same.symm⟩
    · rintro (⟨g, _, key', v, read, same⟩ | ⟨k, data, _⟩)
      · cases attrKey_injective (key'.trans key.symm)
        exact ⟨v, read, same.symm⟩
      · exact absurd (key.trans data) (attrKey_not_data f k)
  | none =>
    have unknown : ∀ f ∈ m.fields, attrKey f ≠ a.key := by
      simpa using List.find?_eq_none.mp found
    cases data : Text.afterPrefix "data-" a.key with
    | some k =>
      rw [Text.afterPrefix_eq_some] at data
      simp only [Fault.pure_eq_ok, Except.ok.injEq]
      constructor
      · intro same
        exact .inr ⟨k, data, same.symm⟩
      · rintro (⟨f, member, key, _⟩ | ⟨k', data', same⟩)
        · exact absurd key (unknown f member)
        · have keys := (String.append_right_inj "data-").mp (data.symm.trans data')
          rw [same, keys]
    | none =>
      rw [Text.afterPrefix_eq_none] at data
      constructor
      · intro impossible
        cases impossible
      · rintro (⟨f, member, key, _⟩ | ⟨k, data', _⟩)
        · exact absurd key (unknown f member)
        · exact absurd data' (data k)

theorem known_iff {m : Markup} {a : Attribute} : (∃ s, setting m a = .ok s) ↔ Known m a := by
  simp only [setting_eq_ok, Known]
  constructor
  · rintro ⟨s, ⟨f, member, key, v, read, _⟩ | ⟨k, data, _⟩⟩
    · exact .inl ⟨f, member, key, v, read⟩
    · exact .inr ⟨k, data⟩
  · rintro (⟨f, member, key, v, read⟩ | ⟨k, data⟩)
    · exact ⟨_, .inl ⟨f, member, key, v, read, rfl⟩⟩
    · exact ⟨_, .inr ⟨k, data, rfl⟩⟩

section Settings
variable {m : Markup} {attr : List Attribute} {ss : List Setting}

/-- Each field ends up with what its last attribute says. -/
theorem value_settings (each : List.Forall₂ (fun a s => setting m a = .ok s) attr ss)
    (f : Field) (p : Props) :
    match lastVal attr (attrKey f) with
    | none => (ss.foldl Setting.apply p).value f = p.value f
    | some val => readField f val = .ok ((ss.foldl Setting.apply p).value f) := by
  induction each generalizing p with
  | nil => rfl
  | @cons a s attr ss head _ ih =>
    rw [lastVal_cons, List.foldl_cons]
    have rest := ih (s.apply p)
    cases later : lastVal attr (attrKey f) with
    | some val =>
      rw [later] at rest
      exact rest
    | none =>
      rw [later] at rest
      rw [Option.none_or]
      rcases setting_eq_ok.mp head with ⟨g, _, key, v, read, rfl⟩ | ⟨k, data, rfl⟩
      · by_cases same : f = g
        · subst same
          rw [if_pos key.symm]
          have written : ((Setting.field f v).apply p).value f = v := Function.update_self ..
          exact read.trans (congrArg _ (rest.trans written).symm)
        · rw [if_neg (fun also => same (attrKey_injective (key.trans also)).symm)]
          simpa [Setting.apply, Props.set, same] using rest
      · rw [if_neg (fun also => attrKey_not_data f k (also.symm.trans data))]
        exact rest

theorem dataSet_settings (each : List.Forall₂ (fun a s => setting m a = .ok s) attr ss)
    (k : String) (p : Props) :
    (ss.foldl Setting.apply p).dataSet k = (lastVal attr ("data-" ++ k)).or (p.dataSet k) := by
  induction each generalizing p with
  | nil => rfl
  | @cons a s attr ss head _ ih =>
    rw [lastVal_cons, List.foldl_cons, ih, Option.or_assoc]
    congr 1
    rcases setting_eq_ok.mp head with ⟨f, _, key, v, read, rfl⟩ | ⟨k', data, rfl⟩
    · rw [if_neg (fun also => attrKey_not_data f k (key.trans also))]
      rfl
    · by_cases same : k = k'
      · subst same
        simp [Setting.apply, Props.setData, data]
      · have other : a.key ≠ "data-" ++ k := by
          intro also
          exact same ((String.append_right_inj "data-").mp (also.symm.trans data))
        simp [Setting.apply, Props.setData, same, other]

/-- The object made of attributes that can all be read stands for them. -/
theorem mirror_settings (some : attr ≠ [])
    (each : List.Forall₂ (fun a s => setting m a = .ok s) attr ss) :
    Mirror m attr (rprops m.fields (.some (ss.foldl Setting.apply {}))) where
  known a member := by
    rw [← known_iff]
    exact Fault.mapM_isOk.mp ⟨ss, Fault.mapM_eq_ok.mpr each⟩ a member
  bare none := absurd none some
  field _ f member := by
    have named := (find_field Field.jsName_injective).mpr ⟨member, rfl⟩
    have object : rprops m.fields (.some (ss.foldl Setting.apply {})) f.jsName =
        f.assigned ((ss.foldl Setting.apply {}).value f) := by
      simp only [rprops, Text.afterPrefix_eq_none.mpr (jsName_not_data f), named]
    have value := value_settings each f {}
    cases last : lastVal attr (attrKey f) with
    | none =>
      rw [last] at value
      exact object.trans (congrArg _ value)
    | some val =>
      rw [last] at value
      exact ⟨_, value, object⟩
  data _ k := by
    simp only [rprops, Text.afterPrefix_eq_some.mpr rfl, dataSet_settings each k {}, Option.or_none]
  inner _ := by
    have notData : Text.afterPrefix "data-" "dangerouslySetInnerHTML" = none := by decide +kernel
    have absent : m.fields.find? (fun f => f.jsName = "dangerouslySetInnerHTML") = none := by
      rw [List.find?_eq_none]
      rintro f -
      cases f <;> decide +kernel
    simp only [rprops, notData, absent, if_pos]
  other name noField noData noInner := by
    have absent : m.fields.find? (fun f => f.jsName = name) = none := by
      simpa using noField
    simp only [rprops, Text.afterPrefix_eq_none.mpr noData, absent, if_neg noInner]

theorem Mirror.unique (first : Mirror m attr o) (second : Mirror m attr o') : o = o' := by
  by_cases none : attr = []
  · rw [first.bare none, second.bare none]
  funext name
  by_cases isField : ∃ f ∈ m.fields, f.jsName = name
  · obtain ⟨f, member, rfl⟩ := isField
    have left := first.field none f member
    have right := second.field none f member
    cases last : lastVal attr (attrKey f) with
    | none =>
      rw [last] at left right
      rw [left, right]
    | some val =>
      rw [last] at left right
      obtain ⟨v, read, left⟩ := left
      obtain ⟨v', read', right⟩ := right
      cases read.symm.trans read'
      rw [left, right]
  · by_cases isData : ∃ k, name = "data-" ++ k
    · obtain ⟨k, rfl⟩ := isData
      rw [first.data none, second.data none]
    · by_cases isInner : name = "dangerouslySetInnerHTML"
      · rw [isInner, first.inner none, second.inner none]
      · push Not at isField isData
        rw [first.other name isField isData isInner, second.other name isField isData isInner]

theorem parseAttrs_eq (some : attr ≠ []) : parseAttrs m attr =
    (do pure (.some ((← attr.mapM (setting m)).foldl Setting.apply {}))) := by
  rw [parseAttrs, if_neg some, Fault.foldlM_mapM, bind_assoc]
  rfl

/-- The attributes are accepted exactly when an object stands for them, and that is
the object made. -/
theorem parseAttrs_mirror {o : JsObject} :
    (∃ vp, parseAttrs m attr = .ok vp ∧ rprops m.fields vp = o) ↔ Mirror m attr o := by
  by_cases none : attr = []
  · subst none
    constructor
    · rintro ⟨vp, made, rfl⟩
      cases made
      exact ⟨by simp, fun _ => rfl, by simp, by simp, by simp, fun _ _ _ _ => rfl⟩
    · intro mirror
      exact ⟨.none, rfl, (mirror.bare rfl).symm⟩
  · rw [parseAttrs_eq none]
    constructor
    · rintro ⟨vp, made, rfl⟩
      obtain ⟨ss, read, same⟩ := Fault.bind_eq_ok.mp made
      cases same
      exact mirror_settings none (Fault.mapM_eq_ok.mp read)
    · intro mirror
      have each : ∀ a ∈ attr, ∃ s, setting m a = .ok s := fun a member =>
        known_iff.mpr (mirror.known a member)
      obtain ⟨ss, read⟩ := Fault.mapM_isOk.mpr each
      refine ⟨_, by rw [read, Fault.ok_bind, Fault.pure_eq_ok], ?_⟩
      exact (mirror_settings none (Fault.mapM_eq_ok.mp read)).unique mirror

end Settings

/-- The element mirrors the tree of nodes: texts become texts, an element becomes
one of the same tag with an object that stands for its attributes and the mirrored
children in order, each of the type its parent asks for. -/
inductive Mirrors : Rose Content → Elem → Prop where
  | text {content ts} : content.type = .textNode → Mirrors (.node content ts) (.S content.data)
  | leaf {content ts m o} : content.type = .elementNode → m ∈ Markup.all → m.tag = content.data →
    m.child = .none → Mirror m content.attr o → Mirrors (.node content ts) (.host content.data o [])
  | element {content ts m o es} : content.type = .elementNode → m ∈ Markup.all →
    m.tag = content.data → m.child ≠ .none → Mirror m content.attr o →
    List.Forall₂ Mirrors ts es → (∀ e ∈ es, accepts m.child e = true) →
    Mirrors (.node content ts) (.host content.data o es)

theorem markup_eq_some {tag : String} {m : Markup} :
    markup tag = some m ↔ m ∈ Markup.all ∧ m.tag = tag := by
  have distinct : (Markup.all.map Markup.tag).Nodup := by decide +kernel
  constructor
  · intro found
    exact ⟨List.mem_of_find?_eq_some found, by simpa using List.find?_some found⟩
  · rintro ⟨member, rfl⟩
    cases found : markup m.tag with
    | none => simpa using List.find?_eq_none.mp found m member
    | some m' =>
      have same := List.find?_some found
      rw [decide_eq_true_eq] at same
      rw [List.inj_on_of_nodup_map distinct (List.mem_of_find?_eq_some found) member same]

theorem assertChild_eq_ok {child : Child} {e e' : Elem} :
    assertChild child e = .ok e' ↔ accepts child e = true ∧ e = e' := by
  rw [assertChild]
  split
  · next yes => simp [yes]
  · next no => simp [no]

theorem parseTrees_eq_ok {child : Child} {ts : List (Rose Content)} {es : List Elem}
    (each : ∀ t ∈ ts, ∀ e, parseTree t = .ok e ↔ Mirrors t e) :
    parseTrees child ts = .ok es ↔
      List.Forall₂ Mirrors ts es ∧ ∀ e ∈ es, accepts child e = true := by
  induction ts generalizing es with
  | nil =>
    rw [parseTrees, List.forall₂_nil_left_iff]
    constructor
    · intro made
      cases made
      simp
    · rintro ⟨rfl, _⟩
      rfl
  | cons t ts ih =>
    have rest : ∀ es, parseTrees child ts = .ok es ↔
        List.Forall₂ Mirrors ts es ∧ ∀ e ∈ es, accepts child e = true :=
      fun _ => ih (fun s member => each s (List.mem_cons_of_mem _ member))
    simp only [parseTrees, Fault.bind_eq_ok, assertChild_eq_ok, rest, each t List.mem_cons_self,
      Fault.pure_eq_ok, Except.ok.injEq]
    constructor
    · rintro ⟨e, mirrors, _, ⟨ok, rfl⟩, es', ⟨all, allOk⟩, rfl⟩
      exact ⟨.cons mirrors all, List.forall_mem_cons.mpr ⟨ok, allOk⟩⟩
    · rintro ⟨_ | ⟨mirrors, all⟩, ok⟩
      obtain ⟨ok, allOk⟩ := List.forall_mem_cons.mp ok
      exact ⟨_, mirrors, _, ⟨ok, rfl⟩, _, ⟨all, allOk⟩, rfl⟩

/-- A tree is accepted exactly when an element mirrors it, and that is the result. -/
theorem parseTree_mirrors {t : Rose Content} {e : Elem} :
    parseTree t = .ok e ↔ Mirrors t e := by
  induction t using Rose.induct generalizing e with
  | step content ts ih =>
    rw [parseTree, parseContent]
    constructor
    · intro made
      cases type : content.type with
      | textNode =>
        simp only [type, Fault.pure_eq_ok, Except.ok.injEq] at made
        exact made ▸ .text type
      | elementNode =>
        cases found : markup content.data with
        | none => simp [type, found] at made
        | some m =>
          obtain ⟨member, tag⟩ := markup_eq_some.mp found
          simp only [type, found, Fault.bind_eq_ok, Fault.pure_eq_ok, Markup.create, tag] at made
          obtain ⟨vp, attrs, made⟩ := made
          have mirror := parseAttrs_mirror.mp ⟨vp, attrs, rfl⟩
          by_cases leaf : m.child = .none
          · rw [if_pos leaf, Fault.ok_bind, Except.ok.injEq] at made
            exact made ▸ .leaf type member tag leaf mirror
          · rw [if_neg leaf, Fault.bind_eq_ok] at made
            obtain ⟨es, kids, same⟩ := made
            rw [parseTrees_eq_ok (fun t inside e => ih t inside)] at kids
            cases same
            exact .element type member tag leaf mirror kids.1 kids.2
      | _ => simp [type] at made
    · intro mirrors
      cases mirrors with
      | text type => simp [type]
      | @leaf _ _ m o type member tag leaf mirror =>
        obtain ⟨vp, attrs, rfl⟩ := parseAttrs_mirror.mpr mirror
        simp [type, markup_eq_some.mpr ⟨member, tag⟩, attrs, leaf, Markup.create, tag]
      | @element _ _ m o es type member tag inner mirror all ok =>
        obtain ⟨vp, attrs, rfl⟩ := parseAttrs_mirror.mpr mirror
        have kids := (parseTrees_eq_ok (fun t inside e => ih t inside)).mpr ⟨all, ok⟩
        simp [type, markup_eq_some.mpr ⟨member, tag⟩, attrs, inner, Markup.create, tag, kids]

end Gopherize.Jsx
