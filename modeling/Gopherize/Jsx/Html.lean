import Gopherize.Html.Fragment
import Gopherize.Jsx.Blank
import Gopherize.Jsx.Parse

/-! jsx.go: `HTML`, `HTMLElem` and `Markdown` over a cache that is never emptied.
Whatever was called before, and whichever calls panicked, a call gives what its
text alone gives, as long as nobody writes to a slice that `HTML` returned: the
cache hands out one slice to all callers with one text. -/
namespace Gopherize.Jsx
open GoCore Html React

/-- The nodes and the arrays of elements made so far, and `htmlCache`. -/
structure State where
  nodes : Nodes
  arrays : Table (List Elem)
  htmlCache : String → Option (Slice Elem)

def State.initial : State := ⟨.empty, ⟨[]⟩, fun _ => none⟩

/-- The dummy div for parsing the fragment. -/
def div : Content := { type := .elementNode, data := "div" }

/-- The slice that the elements are appended to, one by one. Its spare capacity is not
modelled; nothing here appends to it later. -/
def appendAll (arrays : Table (List Elem)) : List Elem → Slice Elem × Table (List Elem)
  | [] => (.nil, arrays)
  | e :: es =>
    (⟨some ⟨arrays.cells.length⟩, (e :: es).length, (e :: es).length⟩, ⟨arrays.cells ++ [e :: es]⟩)

theorem appendAll_denotes (arrays : Table (List Elem)) (es : List Elem) :
    arrays ≤ (appendAll arrays es).2 ∧ (appendAll arrays es).1.Denotes (appendAll arrays es).2 es := by
  cases es with
  | nil => exact ⟨le_rfl, Slice.denotes_nil _⟩
  | cons e es =>
    exact ⟨List.prefix_append _ _, e :: es, by simp [Table.read, appendAll], rfl, le_rfl,
      List.take_length⟩

/-- The body of `HTML` after the look into the cache. -/
def compute (build : TreeBuilder) (st : State) (s : String) : Except Fault (Slice Elem × State) := do
  let (context, h) := st.nodes.alloc div
  match ← parseFragment build h s context with
  | .error e => throw (.errorf "failed to parse HTML %q: %v" [s, e])
  | .ok (h, elems) => do
    let toParse := elems.filter (fun v => !isBlank (h.content v))
    let h ← walk h.size h toParse
    let (res, arrays) := appendAll st.arrays (← toParse.mapM (parse h h.size))
    pure (res, ⟨h, arrays, Function.update st.htmlCache s (some res)⟩)

/-- The result with the state after it. A panic leaves the cache alone, and nodes
and arrays that nothing refers to. -/
def HTML (build : TreeBuilder) (st : State) (s : String) : Except Fault (Slice Elem) × State :=
  match st.htmlCache (Text.trimSpace s) with
  | some v => (.ok v, st)
  | none =>
    match compute build st (Text.trimSpace s) with
    | .ok (res, st') => (.ok res, st')
    | .error e => (.error e, st)

/-- `HTMLElem` after its call of `HTML`. -/
def single (arrays : Table (List Elem)) (s : String) (res : Slice Elem) : Except Fault Elem :=
  if res.len ≠ 1 then
    .error (.errorf "expected single element result from %q; got %v" [s, toString res.len])
  else
    match res.get arrays 0 with
    | .ok e => .ok e
    | .error _ => .error (.panicked "index out of range")

def HTMLElem (build : TreeBuilder) (st : State) (s : String) : Except Fault Elem × State :=
  let (res, st) := HTML build st s
  (res >>= single st.arrays s, st)

/-- `markdownCommon` is the function of the markdown package. -/
def Markdown (markdownCommon : String → String) (build : TreeBuilder) (st : State) (s : String) :
    Except Fault (Slice Elem) × State :=
  HTML build st (markdownCommon s)

/-- What a trimmed text with a meaning gives, without cache and without nodes. -/
def rendered (s : String) : Except String (List (Rose Content)) → Except Fault (List Elem)
  | .error e => .error (.errorf "failed to parse HTML %q: %v" [s, e])
  | .ok ts => ((ts.filter (fun t => !isBlank t.root)).map (strip isBlank)).mapM parseTree

/-- `HTMLElem` on the elements that `HTML` gives. -/
def onlyOne (s : String) : List Elem → Except Fault Elem
  | [e] => .ok e
  | es => .error (.errorf "expected single element result from %q; got %v" [s, toString es.length])

/-- The cache holds what its keys give. -/
structure Coherent (meaning : Meaning) (st : State) : Prop where
  nodes : ∃ kids, st.nodes.Holds kids
  cache : ∀ s res, st.htmlCache s = some res → ∃ es, res.Denotes st.arrays es ∧
    ∀ meant, meaning div s = some meant → rendered s meant = .ok es

theorem coherent_initial (meaning : Meaning) : Coherent meaning .initial :=
  ⟨⟨_, Nodes.empty_holds⟩, by simp [State.initial]⟩

/-- The result of a call, read from the arrays after it, is what its text gives. -/
def Gives (arrays : Table (List Elem)) (expected : Except Fault (List Elem)) :
    Except Fault (Slice Elem) → Prop
  | .ok res => ∃ es, expected = .ok es ∧ res.Denotes arrays es
  | .error e => expected = .error e

section Compute
variable {build : TreeBuilder} {meaning : Meaning} {st : State}
  {meant : Except String (List (Rose Content))}

/-- Walking and parsing the nodes of a fragment. -/
theorem walk_parse {h : Nodes} {kids : Lists} {rs : List (Rose (Ptr Node))}
    {ts : List (Rose Content)} (yields : h.Yields kids rs ts) :
    ∃ h' kids', walk h.size h ((rs.map Rose.root).filter (fun v => !isBlank (h.content v))) = .ok h' ∧
      h'.Holds kids' ∧
      ((rs.map Rose.root).filter (fun v => !isBlank (h.content v))).mapM (parse h' h'.size) =
        ((ts.filter (fun t => !isBlank t.root)).map (strip isBlank)).mapM parseTree := by
  let queue := rs.filter (fun r => !isBlank (h.content r.root))
  have roots : (rs.map Rose.root).filter (fun v => !isBlank (h.content v)) = queue.map Rose.root :=
    List.filter_map ..
  have trees : ts.filter (fun t => !isBlank t.root) = queue.map (Rose.map h.content) := by
    rw [← yields.means, List.filter_map]
    simp only [Function.comp_def, Rose.root_map, queue]
  have part : queue.Sublist rs := List.filter_sublist
  have whole : Queue kids queue :=
    ⟨fun r member => yields.unfolds r (part.subset member),
      yields.separate.sublist (part.flatMap Rose.nodes)⟩
  have enough : (queue.flatMap Rose.nodes).length ≤ h.size :=
    (part.flatMap Rose.nodes).length_le.trans yields.bounded
  obtain ⟨h', kids', walked, holds', content, size, stripped⟩ :=
    walk_eq yields.holds queue whole enough
  refine ⟨h', kids', by rw [roots, walked], holds', ?_⟩
  rw [roots, trees, List.mapM_map, List.map_map, List.mapM_map]
  apply Fault.mapM_congr
  intro r member
  have short := (nodes_strip_sublist (fun p => isBlank (h.content p)) r).length_le
  have room := Rose.nodes_length_le member
  have parsed := parse_eq holds' (stripped.unfolds r member) (show _ ≤ h'.size by omega)
  rw [root_strip, content] at parsed
  simp only [Function.comp_apply, strip_map]
  exact parsed

/-- Without a cached result `HTML` gives what the text gives. -/
theorem compute_eq (means : build.Means meaning) (coherent : Coherent meaning st) (s : String)
    (given : meaning div s = some meant) :
    match rendered s meant with
    | .error e => compute build st s = .error e
    | .ok es => ∃ h kids, h.Holds kids ∧ compute build st s = .ok ((appendAll st.arrays es).1,
        ⟨h, (appendAll st.arrays es).2,
          Function.update st.htmlCache s (some (appendAll st.arrays es).1)⟩) := by
  obtain ⟨kids, holds⟩ := coherent.nodes
  have content : (st.nodes.alloc div).2.content (st.nodes.alloc div).1 = div := by
    simp [Nodes.content, Nodes.alloc]
  have inside : (st.nodes.alloc div).1.addr < (st.nodes.alloc div).2.size := Nat.lt_succ_self _
  have alone : ∀ q, (st.nodes.alloc div).1 ∉ kids q := (holds.fresh (p := ⟨st.nodes.size⟩) le_rfl).2
  have reads : build.Reads ((st.nodes.alloc div).2.content (st.nodes.alloc div).1) s meant := by
    rw [content]
    exact means div s meant given
  have parsed := parseFragment_eq (holds.alloc div) reads inside alone (by rw [content]; rfl)
  cases meant with
  | error e =>
    simp only [rendered] at parsed ⊢
    simp [compute, parsed]
  | ok ts =>
    obtain ⟨h₁, kids₁, rs, parsed, yields⟩ := parsed
    obtain ⟨h', kids', walked, holds', each⟩ := walk_parse yields
    simp only [rendered]
    rw [← each]
    cases made : ((rs.map Rose.root).filter (fun v => !isBlank (h₁.content v))).mapM
        (parse h' h'.size) with
    | error e => simp [compute, parsed, walked, made]
    | ok es => exact ⟨h', kids', holds', by simp [compute, parsed, walked, made]⟩

/-- A new entry of the cache, beside the old ones. -/
theorem Coherent.extend {h : Nodes} {kids : Lists} {arrays : Table (List Elem)} {res : Slice Elem}
    {es : List Elem} (coherent : Coherent meaning st) (holds : h.Holds kids)
    (grown : st.arrays ≤ arrays) (denotes : res.Denotes arrays es)
    (given : meaning div s = some meant) (result : rendered s meant = .ok es) :
    Coherent meaning ⟨h, arrays, Function.update st.htmlCache s (some res)⟩ := by
  refine ⟨⟨kids, holds⟩, fun s' res' found => ?_⟩
  dsimp only at found
  by_cases same : s' = s
  · subst same
    rw [Function.update_self] at found
    cases found
    refine ⟨es, denotes, fun meant' given' => ?_⟩
    cases given.symm.trans given'
    exact result
  · rw [Function.update_of_ne same] at found
    obtain ⟨es', old, known⟩ := coherent.cache s' res' found
    exact ⟨es', old.mono grown, known⟩

/-- `HTML` gives what its text gives; the arrays only grow. -/
theorem HTML_eq (means : build.Means meaning) (coherent : Coherent meaning st) (s : String)
    (given : meaning div (Text.trimSpace s) = some meant) :
    Gives (HTML build st s).2.arrays (rendered (Text.trimSpace s) meant) (HTML build st s).1 ∧
      st.arrays ≤ (HTML build st s).2.arrays ∧ Coherent meaning (HTML build st s).2 := by
  rw [HTML]
  cases cached : st.htmlCache (Text.trimSpace s) with
  | some res =>
    obtain ⟨es, denotes, known⟩ := coherent.cache _ res cached
    exact ⟨⟨es, known meant given, denotes⟩, le_rfl, coherent⟩
  | none =>
    have fresh := compute_eq means coherent (Text.trimSpace s) given
    cases result : rendered (Text.trimSpace s) meant with
    | error e =>
      rw [result] at fresh
      simp only at fresh
      simp only [fresh]
      exact ⟨rfl, le_rfl, coherent⟩
    | ok es =>
      rw [result] at fresh
      obtain ⟨h, kids, holds, fresh⟩ := fresh
      obtain ⟨grown, denotes⟩ := appendAll_denotes st.arrays es
      simp only [fresh]
      exact ⟨⟨es, rfl, denotes⟩, grown, coherent.extend holds grown denotes given result⟩

/-- A text that gives elements gives them through a slice. -/
theorem HTML_made (means : build.Means meaning) (coherent : Coherent meaning st)
    (given : meaning div (Text.trimSpace s) = some meant)
    (result : rendered (Text.trimSpace s) meant = .ok es) :
    ∃ res, (HTML build st s).1 = .ok res ∧ res.Denotes (HTML build st s).2.arrays es := by
  obtain ⟨gives, _, _⟩ := HTML_eq means coherent s given
  cases made : (HTML build st s).1 with
  | error e =>
    rw [made] at gives
    cases result.symm.trans gives
  | ok res =>
    rw [made] at gives
    obtain ⟨es', expected, denotes⟩ := gives
    cases result.symm.trans expected
    exact ⟨res, rfl, denotes⟩

theorem single_eq {arrays : Table (List Elem)} {res : Slice Elem} {es : List Elem}
    (denotes : res.Denotes arrays es) (s : String) : single arrays s res = onlyOne s es := by
  have length := denotes.length
  rw [single, ← length]
  rcases es with _ | ⟨e, _ | ⟨e', es⟩⟩
  · rfl
  · have first : res.get arrays 0 = .ok e := denotes.get 0 rfl
    simp [first, onlyOne]
  · simp [onlyOne]

theorem HTMLElem_eq (means : build.Means meaning) (coherent : Coherent meaning st) (s : String)
    (given : meaning div (Text.trimSpace s) = some meant) :
    (HTMLElem build st s).1 = (rendered (Text.trimSpace s) meant >>= onlyOne s) := by
  obtain ⟨gives, _, _⟩ := HTML_eq means coherent s given
  simp only [HTMLElem]
  cases result : (HTML build st s).1 with
  | error e =>
    rw [result] at gives
    rw [show rendered (Text.trimSpace s) meant = .error e from gives]
    rfl
  | ok res =>
    rw [result] at gives
    obtain ⟨es, expected, denotes⟩ := gives
    rw [expected]
    exact single_eq denotes s

end Compute

section Calls

/-- A call of one of the package's functions. -/
inductive Call where
  | html (s : String)
  | htmlElem (s : String)
  | markdown (s : String)

/-- What a call returns. -/
inductive Answer where
  | slice (res : Slice Elem)
  | elem (e : Elem)

/-- The elements of an answer, read from the arrays. -/
def Answer.elems (arrays : Table (List Elem)) : Answer → Except Panic (List Elem)
  | .slice res => res.elems arrays
  | .elem e => pure [e]

variable (markdownCommon : String → String)

/-- The text that a call hands to the parser. -/
def Call.text : Call → String
  | .html s => Text.trimSpace s
  | .htmlElem s => Text.trimSpace s
  | .markdown s => Text.trimSpace (markdownCommon s)

def Call.exec (build : TreeBuilder) (st : State) : Call → Except Fault Answer × State
  | .html s => ((HTML build st s).1.map .slice, (HTML build st s).2)
  | .htmlElem s => ((HTMLElem build st s).1.map .elem, (HTMLElem build st s).2)
  | .markdown s => ((Markdown markdownCommon build st s).1.map .slice, (Markdown markdownCommon build st s).2)

/-- What a call gives by its text alone. -/
def Call.answer (meant : Except String (List (Rose Content))) (call : Call) :
    Except Fault (List Elem) :=
  match call with
  | .htmlElem s => (rendered (call.text markdownCommon) meant >>= onlyOne s).map ([·])
  | _ => rendered (call.text markdownCommon) meant

/-- Calls one after another; a panic is recovered and the next call follows. -/
def runCalls (build : TreeBuilder) (st : State) : List Call → List (Except Fault Answer) × State
  | [] => ([], st)
  | call :: calls =>
    let now := call.exec markdownCommon build st
    let rest := runCalls build now.2 calls
    (now.1 :: rest.1, rest.2)

/-- The answer, read from the arrays, is what the call's own text gives. -/
def Call.Answered (meaning : Meaning) (arrays : Table (List Elem)) (call : Call)
    (result : Except Fault Answer) : Prop :=
  ∃ meant, meaning div (call.text markdownCommon) = some meant ∧
    match result with
    | .ok a => ∃ es, call.answer markdownCommon meant = .ok es ∧ a.elems arrays = .ok es
    | .error e => call.answer markdownCommon meant = .error e

variable {markdownCommon} {build : TreeBuilder} {meaning : Meaning} {st : State}
  {meant : Except String (List (Rose Content))}

/-- Later calls leave an answer as it is. -/
theorem Call.Answered.mono {call : Call} {result : Except Fault Answer} (grown : t ≤ u)
    (answered : call.Answered markdownCommon meaning t result) :
    call.Answered markdownCommon meaning u result := by
  obtain ⟨meant, given, holds⟩ := answered
  refine ⟨meant, given, ?_⟩
  cases result with
  | error e => exact holds
  | ok a =>
    obtain ⟨es, expected, reads⟩ := holds
    refine ⟨es, expected, ?_⟩
    cases a with
    | slice res => exact Slice.stable_elems res grown reads
    | elem e => exact reads

theorem answered_slice {call : Call} {r : Except Fault (Slice Elem)}
    (given : meaning div (call.text markdownCommon) = some meant)
    (answer : call.answer markdownCommon meant = rendered (call.text markdownCommon) meant)
    (gives : Gives arrays (rendered (call.text markdownCommon) meant) r) :
    call.Answered markdownCommon meaning arrays (r.map .slice) := by
  refine ⟨meant, given, ?_⟩
  cases r with
  | error e => exact answer.trans gives
  | ok res =>
    obtain ⟨es, expected, denotes⟩ := gives
    exact ⟨es, answer.trans expected, denotes.elems⟩

theorem Call.exec_eq (means : build.Means meaning) (coherent : Coherent meaning st) (call : Call)
    (given : meaning div (call.text markdownCommon) = some meant) :
    call.Answered markdownCommon meaning (call.exec markdownCommon build st).2.arrays
        (call.exec markdownCommon build st).1 ∧
      st.arrays ≤ (call.exec markdownCommon build st).2.arrays ∧
      Coherent meaning (call.exec markdownCommon build st).2 := by
  cases call with
  | html s =>
    obtain ⟨gives, after⟩ := HTML_eq means coherent s given
    exact ⟨answered_slice given rfl gives, after⟩
  | htmlElem s =>
    refine ⟨⟨meant, given, ?_⟩, (HTML_eq means coherent s given).2⟩
    have result := HTMLElem_eq means coherent s given
    simp only [Call.exec, Call.answer, Call.text]
    rw [← result]
    cases (HTMLElem build st s).1 with
    | error e => rfl
    | ok e => exact ⟨[e], rfl, rfl⟩
  | markdown s =>
    obtain ⟨gives, after⟩ := HTML_eq means coherent (markdownCommon s) given
    exact ⟨answered_slice given rfl gives, after⟩

theorem runCalls_answered (means : build.Means meaning) (coherent : Coherent meaning st)
    (calls : List Call)
    (known : ∀ call ∈ calls, ∃ meant, meaning div (call.text markdownCommon) = some meant) :
    List.Forall₂ (Call.Answered markdownCommon meaning (runCalls markdownCommon build st calls).2.arrays)
        calls (runCalls markdownCommon build st calls).1 ∧
      st.arrays ≤ (runCalls markdownCommon build st calls).2.arrays := by
  induction calls generalizing st with
  | nil => exact ⟨.nil, le_rfl⟩
  | cons call calls ih =>
    obtain ⟨meant, given⟩ := known call List.mem_cons_self
    obtain ⟨answered, grown, coherent'⟩ := call.exec_eq means coherent given
    obtain ⟨rest, later⟩ := ih coherent' (fun other member => known other (List.mem_cons_of_mem _ member))
    exact ⟨.cons (answered.mono later) rest, grown.trans later⟩

end Calls

/-- A paragraph around a text. -/
def paragraph (s : String) : Rose Content :=
  .node { type := .elementNode, data := "p" } [.node { type := .textNode, data := s } []]

/-- What the parser makes of three texts below a div. -/
def sample : Meaning := fun context s =>
  if context ≠ div then none
  else if s = "a" then some (.ok [.node { type := .textNode, data := "a" } []])
  else if s = "<p>a</p>" then some (.ok [paragraph "a"])
  else if s = "<p>b</p>" then some (.ok [paragraph "b"])
  else none

/-- What the markdown package makes of one word. -/
def oneWord (s : String) : String := "<p>" ++ s ++ "</p>\n"

/-- Four calls; the last one finds the text of the second in the cache. -/
def sampleCalls : List Call := [.html "a", .htmlElem " <p>a</p> ", .markdown "b", .markdown "a"]

section Sharing
variable {build : TreeBuilder} {meaning : Meaning} {st : State}
  {meant : Except String (List (Rose Content))}

theorem compute_cached (done : compute build st s = .ok (res, st')) : st'.htmlCache s = some res := by
  obtain ⟨parsed, _, done⟩ := Fault.bind_eq_ok.mp done
  cases parsed with
  | error e => cases done
  | ok found =>
    obtain ⟨h, _, done⟩ := Fault.bind_eq_ok.mp done
    obtain ⟨es, _, done⟩ := Fault.bind_eq_ok.mp done
    cases done
    exact Function.update_self ..

/-- What `HTML` returns is in the cache. -/
theorem HTML_cached (made : (HTML build st s).1 = .ok res) :
    (HTML build st s).2.htmlCache (Text.trimSpace s) = some res := by
  rw [HTML] at made ⊢
  cases cached : st.htmlCache (Text.trimSpace s) with
  | some v =>
    simp only [cached] at made ⊢
    cases made
    rfl
  | none =>
    simp only [cached] at made ⊢
    cases done : compute build st (Text.trimSpace s) with
    | error e =>
      rw [done] at made
      cases made
    | ok next =>
      rw [done] at made
      cases made
      exact compute_cached done

end Sharing

end Gopherize.Jsx
