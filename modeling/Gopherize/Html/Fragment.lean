import Gopherize.Html.Edits
import Mathlib.Data.List.Perm.Subperm

/-! The end of html/parse.go's `ParseFragment`, and its tree construction as a
parameter: the rules of HTML that turn a text into nodes are not modelled, only
that they leave a tree of nodes below the node `root`. There are texts on which
`p.parse` never returns, so nothing is assumed of a text without a meaning. Every
forest can be left there by allocating nodes and appending them. -/
namespace Gopherize.Html
open GoCore

/-- `p.parse` on a text with a context node: an error, or the nodes after it with the
node `root` that `ParseFragment` made. A fault stands for a run that does not end. -/
abbrev TreeBuilder := Nodes → String → Ptr Node → Except Fault (Except String (Nodes × Ptr Node))

/-- What the parser makes of some texts in the context of an element. -/
abbrev Meaning := Content → String → Option (Except String (List (Rose Content)))

/-- The nodes below `root` form the forest `ts`. -/
def Nodes.Grows (h : Nodes) (root : Ptr Node) (ts : List (Rose Content)) : Prop :=
  ∃ kids rs, h.Holds kids ∧ Rose.Unfolds kids (.node root rs) ∧ rs.map (Rose.map h.content) = ts ∧
    ∃ m, (Links.up h.links)^[m] (some root) = none

/-- The tree builder makes this of the text below a context node that stands alone, on any
well formed nodes. -/
def TreeBuilder.Reads (build : TreeBuilder) (context : Content) (s : String)
    (meant : Except String (List (Rose Content))) : Prop :=
  ∀ h kids p, h.Holds kids → p.addr < h.size → (∀ q, p ∉ kids q) → h.content p = context →
    match meant with
    | .error e => build h s p = .ok (.error e)
    | .ok ts => ∃ h' root, build h s p = .ok (.ok (h', root)) ∧ h'.Grows root ts

/-- The tree builder gives the texts their meaning. -/
def TreeBuilder.Means (build : TreeBuilder) (meaning : Meaning) : Prop :=
  ∀ context s meant, meaning context s = some meant → build.Reads context s meant

def parseFragment (build : TreeBuilder) (h : Nodes) (s : String) (context : Ptr Node) :
    Except Fault (Except String (Nodes × List (Ptr Node))) :=
  if (h.content context).type ≠ .elementNode then
    pure (.error "html: ParseFragment of non-element Node")
  else do
    match ← build h s context with
    | .error e => pure (.error e)
    | .ok (h, root) => do
      let result ← h.detachChildren root h.size (h.link .firstChild root) []
      pure (.ok result)

section Bounds
variable {h : Nodes} {kids : Lists}

theorem Nodes.Holds.nodes_bounded (holds : h.Holds kids) {t : Rose (Ptr Node)}
    (unfolds : t.Unfolds kids) (inside : t.root.addr < h.size) : ∀ d ∈ t.nodes, d.addr < h.size := by
  induction unfolds with
  | @node a ts listed _ ih =>
    intro d member
    rw [Rose.nodes_node] at member
    rcases List.mem_cons.mp member with rfl | below
    · exact inside
    · obtain ⟨t, child, member⟩ := List.mem_flatMap.mp below
      have bound := (holds.bounded a t.root (listed ▸ List.mem_map_of_mem child)).2
      exact ih t child bound d member

/-- Different allocated nodes are no more than there are addresses. -/
theorem length_le_size {l : List (Ptr Node)} (nodup : l.Nodup) (inside : ∀ p ∈ l, p.addr < n) :
    l.length ≤ n := by
  have distinct : (l.map Ptr.addr).Nodup := by
    refine nodup.map ?_
    rintro ⟨a⟩ ⟨b⟩ rfl
    rfl
  have below : l.map Ptr.addr ⊆ List.range n := by
    intro a member
    obtain ⟨p, inList, rfl⟩ := List.mem_map.mp member
    exact List.mem_range.mpr (inside p inList)
  simpa using (List.Nodup.subperm distinct below).length_le

end Bounds

/-- The nodes that `ParseFragment` returns: the roots of separate trees that form
the forest which the text means. -/
structure Nodes.Yields (h : Nodes) (kids : Lists) (rs : List (Rose (Ptr Node)))
    (ts : List (Rose Content)) : Prop where
  holds : h.Holds kids
  unfolds : ∀ r ∈ rs, r.Unfolds kids
  separate : (rs.flatMap Rose.nodes).Nodup
  bounded : (rs.flatMap Rose.nodes).length ≤ h.size
  means : rs.map (Rose.map h.content) = ts

theorem Nodes.Grows.detach {h : Nodes} {root : Ptr Node} {ts : List (Rose Content)}
    (grows : h.Grows root ts) :
    ∃ h' kids rs, h.detachChildren root h.size (h.link .firstChild root) [] =
      .ok (h', rs.map Rose.root) ∧ h'.Yields kids rs ts := by
  obtain ⟨kids, rs, holds, unfolds, means, m, ends⟩ := grows
  have whole := holds.consistent.nodes_nodup unfolds ends
  cases unfolds with
  | node listed below =>
    rw [Rose.nodes_node, List.nodup_cons] at whole
    have inside : ∀ p ∈ rs.flatMap Rose.nodes, p.addr < h.size := by
      intro p member
      obtain ⟨r, inList, member⟩ := List.mem_flatMap.mp member
      have bound := (holds.bounded root r.root (listed ▸ List.mem_map_of_mem inList)).2
      exact holds.nodes_bounded (below r inList) bound p member
    have count := length_le_size whole.2 inside
    have room : (rs.map Rose.root).length ≤ h.size := by
      have := Rose.length_le_nodes rs
      rw [List.length_map]
      omega
    obtain ⟨h', detached, content, size, holds'⟩ := Nodes.detachChildren_eq holds listed room []
    have first := holds.consistent.first root
    simp only [Nodes.links, listed] at first
    rw [first]
    refine ⟨h', _, rs, detached, holds', ?_, whole.2, size ▸ count, by rw [content, means]⟩
    intro r member
    refine (below r member).congr (fun p inTree => Function.update_of_ne ?_ ..)
    rintro rfl
    exact whole.1 (List.mem_flatMap.mpr ⟨r, member, inTree⟩)

/-- `ParseFragment` of a text in the context of an element. -/
theorem parseFragment_eq {build : TreeBuilder} {meant : Except String (List (Rose Content))}
    {h : Nodes} {kids : Lists} (holds : h.Holds kids) {context : Ptr Node}
    (reads : build.Reads (h.content context) s meant) (inside : context.addr < h.size)
    (alone : ∀ q, context ∉ kids q) (element : (h.content context).type = .elementNode) :
    match meant with
    | .error e => parseFragment build h s context = .ok (.error e)
    | .ok ts => ∃ h' kids' rs, parseFragment build h s context = .ok (.ok (h', rs.map Rose.root)) ∧
        h'.Yields kids' rs ts := by
  have built := reads h kids context holds inside alone rfl
  rw [parseFragment, if_neg (not_not.mpr element)]
  cases meant with
  | error e =>
    simp only at built ⊢
    rw [built]
    rfl
  | ok ts =>
    obtain ⟨h₁, root, built, grows⟩ := built
    obtain ⟨h', kids', rs, detached, yields⟩ := grows.detach
    exact ⟨h', kids', rs, by simp [built, detached], yields⟩

section Plant

mutual
/-- Allocate the nodes of a tree and append them below each other. -/
def plant (h : Nodes) : Rose Content → Except Fault (Nodes × Ptr Node)
  | .node content ts => do
    let (p, h) := h.alloc content
    let h ← plantAll p h ts
    pure (h, p)

def plantAll (p : Ptr Node) (h : Nodes) : List (Rose Content) → Except Fault Nodes
  | [] => pure h
  | t :: ts => do
    let (h, q) ← plant h t
    let h ← h.appendChild p q
    plantAll p h ts
end

/-- The nodes after the trees `rs` were planted below `p`. Nodes that were there
before keep their content and, except for `p`, their children. -/
structure Planted (p : Ptr Node) (h h' : Nodes) (kids kids' : Lists) (rs : List (Rose (Ptr Node)))
    (ts : List (Rose Content)) : Prop where
  holds : h'.Holds kids'
  size : h.size ≤ h'.size
  listed : kids' p = kids p ++ rs.map Rose.root
  unfolds : ∀ r ∈ rs, r.Unfolds kids'
  fresh : ∀ r ∈ rs, ∀ q ∈ r.nodes, h.size ≤ q.addr
  means : rs.map (Rose.map h'.content) = ts
  others : ∀ q, q.addr < h.size → q ≠ p → kids' q = kids q
  content : ∀ q, q.addr < h.size → h'.content q = h.content q
  new : ∀ q, ∀ c ∈ kids' q, c ∈ kids q ∨ h.size ≤ c.addr

/-- The nodes after the detached tree `r` was planted, from the next address on. -/
structure Sprouted (h h' : Nodes) (kids kids' : Lists) (r : Rose (Ptr Node)) (t : Rose Content) :
    Prop where
  holds : h'.Holds kids'
  unfolds : r.Unfolds kids'
  means : r.map h'.content = t
  nodes : ∀ q ∈ r.nodes, h.size ≤ q.addr ∧ q.addr < h'.size
  detached : ∀ q, r.root ∉ kids' q
  others : ∀ q, q.addr < h.size → kids' q = kids q
  content : ∀ q, q.addr < h.size → h'.content q = h.content q
  new : ∀ q, ∀ c ∈ kids' q, c ∈ kids q ∨ h.size ≤ c.addr

/-- The tree can be planted beside any well formed nodes. -/
def Plants (t : Rose Content) : Prop :=
  ∀ (h : Nodes) (kids : Lists), h.Holds kids → ∃ h' kids' r,
    plant h t = .ok (h', Rose.root r) ∧ Sprouted h h' kids kids' r t

theorem plantAll_eq {p : Ptr Node} {ts : List (Rose Content)} (each : ∀ t ∈ ts, Plants t)
    {h : Nodes} {kids : Lists} (holds : h.Holds kids) (inside : p.addr < h.size) :
    ∃ h' kids' rs, plantAll p h ts = .ok h' ∧ Planted p h h' kids kids' rs ts := by
  induction ts generalizing h kids with
  | nil =>
    exact ⟨h, kids, [], rfl, holds, le_rfl, by simp, by simp, by simp, rfl, fun _ _ _ => rfl,
      fun _ _ => rfl, fun _ _ member => .inl member⟩
  | cons t ts ih =>
    obtain ⟨h₁, kids₁, r, planted, sprouted⟩ := each t List.mem_cons_self h kids holds
    have rootBound := sprouted.nodes r.root r.root_mem_nodes
    have inside₁ : p.addr < h₁.size := by omega
    obtain ⟨h₂, appended, update⟩ :=
      sprouted.holds.appendChild sprouted.detached ⟨inside₁, rootBound.2⟩
    obtain ⟨h₃, kids₃, rs, rest, planted₃⟩ :=
      ih (fun s member => each s (List.mem_cons_of_mem _ member)) update.holds
        (update.size ▸ inside₁)
    have grown := planted₃.size
    rw [update.size] at grown
    -- a node of the first tree is not touched any more
    have kept : ∀ q ∈ r.nodes, kids₃ q = kids₁ q ∧ h₃.content q = h₁.content q := by
      intro q member
      have bound := sprouted.nodes q member
      have notP : q ≠ p := by rintro rfl; omega
      rw [planted₃.others q (by rw [update.size]; exact bound.2) notP,
        planted₃.content q (by rw [update.size]; exact bound.2), update.content]
      exact ⟨Function.update_of_ne notP .., rfl⟩
    refine ⟨h₃, kids₃, r :: rs, ?_, ?_⟩
    · simp only [plantAll, planted, Fault.ok_bind, appended, rest]
    · refine ⟨planted₃.holds, by omega, ?_, ?_, ?_, ?_, ?_, ?_, ?_⟩
      · rw [planted₃.listed, Function.update_self, sprouted.others p inside]
        simp
      · intro s member
        rcases List.mem_cons.mp member with rfl | later
        · exact sprouted.unfolds.congr (fun q member => (kept q member).1)
        · exact planted₃.unfolds s later
      · intro s member q inTree
        rcases List.mem_cons.mp member with rfl | later
        · exact (sprouted.nodes q inTree).1
        · have bound := planted₃.fresh s later q inTree
          rw [update.size] at bound
          omega
      · rw [List.map_cons, planted₃.means, Rose.map_congr (fun q member => (kept q member).2),
          sprouted.means]
      · intro q bound notP
        rw [planted₃.others q (by rw [update.size]; omega) notP, Function.update_of_ne notP,
          sprouted.others q bound]
      · intro q bound
        rw [planted₃.content q (by rw [update.size]; omega), update.content, sprouted.content q bound]
      · intro q c member
        rcases planted₃.new q c member with old | fresh
        · by_cases atP : q = p
          · subst atP
            rw [Function.update_self, List.mem_append, List.mem_singleton] at old
            rcases old with old | rfl
            · exact sprouted.new q c old
            · exact .inr rootBound.1
          · rw [Function.update_of_ne atP] at old
            exact sprouted.new q c old
        · rw [update.size] at fresh
          exact .inr (by omega)

theorem plants (t : Rose Content) : Plants t := by
  induction t using Rose.induct with
  | step content ts ih =>
    intro h kids holds
    obtain ⟨noKids, nowhere⟩ := holds.fresh (p := ⟨h.size⟩) le_rfl
    have size : (h.alloc content).2.size = h.size + 1 := rfl
    obtain ⟨h', kids', rs, built, planted⟩ :=
      plantAll_eq (p := ⟨h.size⟩) ih (holds.alloc content) (by rw [size]; simp)
    have grown := planted.size
    have unfolds : Rose.Unfolds kids' (.node ⟨h.size⟩ rs) :=
      .node (by rw [planted.listed, noKids, List.nil_append]) planted.unfolds
    have bounded := planted.holds.nodes_bounded unfolds (by rw [Rose.root]; simp; omega)
    refine ⟨h', kids', .node ⟨h.size⟩ rs, ?_, planted.holds, unfolds, ?_, ?_, ?_, ?_, ?_, ?_⟩
    · rw [plant]
      simp only [Nodes.alloc] at built ⊢
      simp [built, Rose.root]
    · have own := planted.content ⟨h.size⟩ (by rw [size]; simp)
      rw [Rose.map_node, planted.means, own]
      simp [Nodes.content, Nodes.alloc]
    · intro q member
      refine ⟨?_, bounded q member⟩
      rw [Rose.nodes_node] at member
      rcases List.mem_cons.mp member with rfl | below
      · exact le_rfl
      · obtain ⟨r, inList, inTree⟩ := List.mem_flatMap.mp below
        have bound := planted.fresh r inList q inTree
        omega
    · intro q member
      rcases planted.new q _ member with old | fresh
      · exact nowhere q old
      · simp only [Rose.root] at fresh
        omega
    · intro q bound
      have other : q ≠ ⟨h.size⟩ := by rintro rfl; simp at bound
      exact planted.others q (by omega) other
    · intro q bound
      have other : q ≠ ⟨h.size⟩ := by rintro rfl; simp at bound
      rw [planted.content q (by omega)]
      simp [Nodes.content, Nodes.alloc, other]
    · intro q c member
      rcases planted.new q c member with old | fresh
      · exact .inl old
      · exact .inr (by omega)

/-- A tree builder that plants what a text means. -/
def planter (meaning : Meaning) : TreeBuilder := fun h s context =>
  match meaning (h.content context) s with
  | none => throw .outOfFuel
  | some (.error e) => pure (.error e)
  | some (.ok ts) => do pure (.ok (← plant h (.node { type := .elementNode, data := "html" } ts)))

/-- Whatever texts mean, there is a builder that gives them this meaning. -/
theorem planter_means (meaning : Meaning) : (planter meaning).Means meaning := by
  rintro _ s meant given h kids context holds _ _ rfl
  cases meant with
  | error e => simp [planter, given]
  | ok ts =>
    obtain ⟨h', kids', r, built, sprouted⟩ :=
      plants (.node { type := .elementNode, data := "html" } ts) h kids holds
    cases r with
    | node root rs =>
      have means := sprouted.means
      rw [Rose.map_node] at means
      refine ⟨h', root, by simp [planter, given, built, Rose.root], kids', rs, sprouted.holds,
        sprouted.unfolds, ?_, 1, (sprouted.holds.consistent.detached sprouted.detached).1⟩
      injection means

end Plant

end Gopherize.Html
