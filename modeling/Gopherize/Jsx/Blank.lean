import Gopherize.Core.Text
import Gopherize.Html.Edits
import Mathlib.Data.List.Flatten

/-! The part of jsx.go's `HTML` that walks the parsed nodes and removes blank text.
`RemoveChild` clears the links of the removed node, so the loop over the children
ends there: one blank child goes, and what follows it is neither cleaned nor
walked. On trees this is the recursion `strip`. -/
namespace Gopherize.Jsx
open GoCore Html

/-- `c.Type == html.TextNode && strings.TrimSpace(c.Data) == ""`. -/
def isBlank (content : Content) : Bool :=
  content.type = .textNode && Text.trimSpace content.data = ""

/-- The loop over the children of `v`, from `c` on. -/
def walkChildren (v : Ptr Node) : Nat → Nodes → Ref Node → List (Ptr Node) →
    Except Fault (Nodes × List (Ptr Node))
  | _, h, none, toWalk => pure (h, toWalk)
  | 0, _, some _, _ => throw .outOfFuel
  | fuel + 1, h, some c, toWalk => do
    let h ← if isBlank (h.content c) then h.removeChild v c else pure h
    walkChildren v fuel h (h.link .nextSibling c) (toWalk ++ [c])

/-- The loop over the queue of nodes. -/
def walk : Nat → Nodes → List (Ptr Node) → Except Fault Nodes
  | _, h, [] => pure h
  | 0, _, _ :: _ => throw .outOfFuel
  | fuel + 1, h, v :: toWalk => do
    let (h, toWalk) ← walkChildren v fuel h (h.link .firstChild v) toWalk
    walk fuel h toWalk

section Strip
variable {α β : Type} (blank : α → Bool)

mutual
/-- Remove the first blank child of a node, and clean the children before it. -/
def strip : Rose α → Rose α
  | .node a ts => .node a (stripAll ts)

def stripAll : List (Rose α) → List (Rose α)
  | [] => []
  | t :: ts => if blank t.root then ts else strip t :: stripAll ts
end

mutual
/-- Remove all blank nodes below the root. -/
def clean : Rose α → Rose α
  | .node a ts => .node a (cleanAll ts)

def cleanAll : List (Rose α) → List (Rose α)
  | [] => []
  | t :: ts => if blank t.root then cleanAll ts else clean t :: cleanAll ts
end

/-- The children that the loop passes: up to the first blank one. -/
def passed : List (Rose α) → List (Rose α)
  | [] => []
  | t :: ts => if blank t.root then [t] else t :: passed ts

@[simp] theorem root_strip (t : Rose α) : (strip blank t).root = t.root := by
  cases t with
  | node a ts => rw [strip]; rfl

/-- Either nothing is blank, or the first blank child goes and the loop ends. -/
theorem strip_cases (ts : List (Rose α)) :
    ((∀ t ∈ ts, blank t.root = false) ∧ passed blank ts = ts ∧
      stripAll blank ts = ts.map (strip blank)) ∨
    ∃ before b after, ts = before ++ b :: after ∧ (∀ t ∈ before, blank t.root = false) ∧
      blank b.root = true ∧ passed blank ts = before ++ [b] ∧
      stripAll blank ts = before.map (strip blank) ++ after := by
  induction ts with
  | nil => exact .inl ⟨by simp, rfl, rfl⟩
  | cons t ts ih =>
    by_cases first : blank t.root = true
    · exact .inr ⟨[], t, ts, rfl, by simp, first, by simp [passed, first], by simp [stripAll, first]⟩
    · have clean := Bool.eq_false_iff.mpr first
      rcases ih with ⟨all, whole, each⟩ | ⟨before, b, after, split, all, stop, whole, each⟩
      · refine .inl ⟨?_, by simp [passed, first, whole], by simp [stripAll, first, each]⟩
        intro s member
        rcases List.mem_cons.mp member with rfl | later
        · exact clean
        · exact all s later
      · refine .inr ⟨t :: before, b, after, by simp [split], ?_, stop, by simp [passed, first, whole],
          by simp [stripAll, first, each]⟩
        intro s member
        rcases List.mem_cons.mp member with rfl | later
        · exact clean
        · exact all s later

/-- Stripping looks at the values of the roots only. -/
theorem strip_map {blank : β → Bool} (f : α → β) (t : Rose α) :
    strip blank (t.map f) = (strip (blank ∘ f) t).map f := by
  induction t using Rose.induct with
  | step a ts ih =>
    rw [Rose.map_node, strip, strip, Rose.map_node]
    congr 1
    induction ts with
    | nil => rfl
    | cons t ts rest =>
      simp only [List.map_cons, stripAll, Rose.root_map, Function.comp_apply]
      split
      · rfl
      · rw [ih t List.mem_cons_self, List.map_cons,
          rest (fun s member => ih s (List.mem_cons_of_mem _ member))]

theorem cleanAll_eq (ts : List (Rose α)) :
    cleanAll blank ts = (ts.filter (fun t => !blank t.root)).map (clean blank) := by
  induction ts with
  | nil => rfl
  | cons t ts ih =>
    rw [cleanAll, ih]
    by_cases first : blank t.root = true
    · simp [first]
    · simp [first]

/-- Only blank nodes are stripped. -/
theorem clean_strip (t : Rose α) : clean blank (strip blank t) = clean blank t := by
  induction t using Rose.induct with
  | step a ts ih =>
    rw [strip, clean, clean]
    congr 1
    induction ts with
    | nil => rfl
    | cons t ts rest =>
      have later := rest (fun s member => ih s (List.mem_cons_of_mem _ member))
      by_cases first : blank t.root = true
      · simp [stripAll, cleanAll, first]
      · simp [stripAll, cleanAll, first, ih t List.mem_cons_self, later]

theorem clean_map {blank : β → Bool} (f : α → β) (t : Rose α) :
    clean blank (t.map f) = (clean (blank ∘ f) t).map f := by
  induction t using Rose.induct with
  | step a ts ih =>
    rw [Rose.map_node, clean, clean, Rose.map_node, cleanAll_eq, cleanAll_eq, List.filter_map,
      List.map_map, List.map_map]
    simp only [Function.comp_def, Rose.root_map]
    congr 1
    exact List.map_congr_left (fun t member => ih t (List.mem_filter.mp member).1)

theorem cleanAll_map {blank : β → Bool} (f : α → β) (ts : List (Rose α)) :
    cleanAll blank (ts.map (Rose.map f)) = (cleanAll (blank ∘ f) ts).map (Rose.map f) := by
  rw [cleanAll_eq, cleanAll_eq, List.filter_map, List.map_map, List.map_map]
  simp only [Function.comp_def, Rose.root_map]
  exact List.map_congr_left (fun t _ => clean_map f t)

theorem cleanAll_strip (ts : List (Rose α)) :
    cleanAll blank ((ts.filter (fun t => !blank t.root)).map (strip blank)) = cleanAll blank ts := by
  rw [cleanAll_eq, cleanAll_eq, List.filter_map, List.map_map]
  simp only [Function.comp_def, root_strip, clean_strip, List.filter_filter, Bool.and_self]

theorem nodes_strip_sublist (t : Rose α) : (strip blank t).nodes.Sublist t.nodes := by
  induction t using Rose.induct with
  | step a ts ih =>
    rw [strip, Rose.nodes_node, Rose.nodes_node]
    refine List.Sublist.cons_cons a ?_
    induction ts with
    | nil => exact .slnil
    | cons t ts rest =>
      rw [stripAll]
      split
      · rw [List.flatMap_cons]
        exact List.sublist_append_right ..
      · rw [List.flatMap_cons, List.flatMap_cons]
        exact (ih t List.mem_cons_self).append
          (rest (fun s member => ih s (List.mem_cons_of_mem _ member)))

theorem passed_sublist (ts : List (Rose α)) : (passed blank ts).Sublist ts := by
  rcases strip_cases blank ts with ⟨_, whole, _⟩ | ⟨before, b, after, rfl, _, _, whole, _⟩
  · rw [whole]
  · rw [whole]
    simp

end Strip

variable {h : Nodes} {kids : Lists}

/-- One pass over children that start with `ts` removes the first blank one. -/
theorem walkChildren_eq (holds : h.Holds kids) (listed : kids v = before ++ ts.map Rose.root)
    (enough : ts.length ≤ fuel) (toWalk : List (Ptr Node)) :
    ∃ h', walkChildren v fuel h (ts.map Rose.root).head? toWalk =
        .ok (h', toWalk ++ (passed (fun p => isBlank (h.content p)) ts).map Rose.root) ∧
      h.Updates h' kids v (before ++ (stripAll (fun p => isBlank (h.content p)) ts).map Rose.root) := by
  induction ts generalizing before fuel toWalk with
  | nil =>
    refine ⟨h, by simp [walkChildren, passed], ?_, rfl, rfl⟩
    simpa only [stripAll, ← listed, Function.update_eq_self] using holds
  | cons t ts ih =>
    obtain ⟨fuel, rfl⟩ : ∃ k, fuel = k + 1 := ⟨fuel - 1, by simp at enough; omega⟩
    have split : kids v = before ++ t.root :: ts.map Rose.root := listed
    by_cases blank : isBlank (h.content t.root) = true
    · obtain ⟨h', removed, update⟩ := holds.removeChild split
      -- the removed node has no next sibling any more
      have next := (update.holds.consistent.detached (holds.taken_out split)).2.2
      simp only [Nodes.links] at next
      refine ⟨h', ?_, ?_⟩
      · simp [walkChildren, passed, blank, removed, next]
      · simpa [stripAll, blank] using update
    · have next := (holds.consistent.placed split).2.2
      simp only [Nodes.links] at next
      have listed' : kids v = (before ++ [t.root]) ++ ts.map Rose.root := by simp [split]
      obtain ⟨h', done, update⟩ := ih listed' (by simpa using enough) (toWalk ++ [t.root])
      refine ⟨h', ?_, ?_⟩
      · simpa [walkChildren, passed, blank, next] using done
      · simpa [stripAll, blank] using update

/-- What is left of a node's children after a pass: the passed ones will be
stripped, and the ones after the removed child stay as they are. -/
theorem unfolds_stripAll {blank : Ptr Node → Bool} {after : Lists}
    (unfolds : ∀ t ∈ ts, t.Unfolds kids)
    (stripped : ∀ t ∈ passed blank ts, (strip blank t).Unfolds after)
    (untouched : ∀ u ∈ ts.flatMap Rose.nodes, u ∉ (passed blank ts).flatMap Rose.nodes → after u = kids u)
    (separate : (ts.flatMap Rose.nodes).Nodup) :
    ∀ s ∈ stripAll blank ts, s.Unfolds after := by
  rcases strip_cases blank ts with ⟨_, whole, each⟩ | ⟨before, b, rest, rfl, _, _, whole, each⟩
  · rw [each]
    intro s member
    obtain ⟨t, inside, rfl⟩ := List.mem_map.mp member
    exact stripped t (by rwa [whole])
  · rw [each]
    rw [whole] at stripped untouched
    intro s member
    rcases List.mem_append.mp member with left | right
    · obtain ⟨t, inside, rfl⟩ := List.mem_map.mp left
      exact stripped t (List.mem_append_left _ inside)
    · refine (unfolds s (by simp [right])).congr (fun u inside => untouched u ?_ ?_)
      · exact List.mem_flatMap.mpr ⟨s, by simp [right], inside⟩
      · have parts : (before ++ b :: rest).flatMap Rose.nodes =
            (before ++ [b]).flatMap Rose.nodes ++ rest.flatMap Rose.nodes := by simp
        rw [parts] at separate
        intro earlier
        have later : u ∈ rest.flatMap Rose.nodes := List.mem_flatMap.mpr ⟨s, right, inside⟩
        exact (List.nodup_append.mp separate).2.2 u earlier u later rfl

/-- The trees of a queue unfold the lists and share no node. -/
structure Queue (kids : Lists) (queue : List (Rose (Ptr Node))) : Prop where
  unfolds : ∀ t ∈ queue, t.Unfolds kids
  separate : (queue.flatMap Rose.nodes).Nodup

/-- The lists after a walk over a queue: its trees are stripped, and everything
else is as it was. -/
structure Stripped (blank : Ptr Node → Bool) (kids after : Lists) (queue : List (Rose (Ptr Node))) :
    Prop where
  unfolds : ∀ t ∈ queue, (strip blank t).Unfolds after
  frame : ∀ u ∉ queue.flatMap Rose.nodes, after u = kids u

section Queue
variable {blank : Ptr Node → Bool} {v : Ptr Node} {ts queue : List (Rose (Ptr Node))}

theorem Queue.head (whole : Queue kids (.node v ts :: queue)) :
    kids v = ts.map Rose.root ∧ (∀ t ∈ ts, t.Unfolds kids) := by
  cases whole.unfolds _ List.mem_cons_self with
  | node listed below => exact ⟨listed, below⟩

theorem Queue.apart (whole : Queue kids (.node v ts :: queue)) :
    v ∉ (ts ++ queue).flatMap Rose.nodes ∧ ((ts ++ queue).flatMap Rose.nodes).Nodup := by
  have separate := whole.separate
  rwa [List.flatMap_cons, Rose.nodes_node, List.cons_append, ← List.flatMap_append,
    List.nodup_cons] at separate

/-- The next queue is made of trees of the old one below `v` and beside it. -/
theorem mem_next (member : t ∈ queue ++ passed blank ts) : t ∈ ts ++ queue := by
  rcases List.mem_append.mp member with later | child
  · exact List.mem_append_right _ later
  · exact List.mem_append_left _ ((passed_sublist blank ts).subset child)

theorem Queue.pass (whole : Queue kids (.node v ts :: queue)) :
    Queue (Function.update kids v ((stripAll blank ts).map Rose.root)) (queue ++ passed blank ts) := by
  obtain ⟨fresh, separate⟩ := whole.apart
  constructor
  · intro t member
    have before : t.Unfolds kids := by
      rcases List.mem_append.mp (mem_next member) with child | later
      · exact whole.head.2 t child
      · exact whole.unfolds t (List.mem_cons_of_mem _ later)
    refine before.congr (fun u inside => Function.update_of_ne ?_ ..)
    rintro rfl
    exact fresh (List.mem_flatMap.mpr ⟨t, mem_next member, inside⟩)
  · have swapped : ((queue ++ ts).flatMap Rose.nodes).Nodup :=
      (List.perm_append_comm.flatMap_right Rose.nodes).nodup_iff.mp separate
    refine swapped.sublist (List.Sublist.flatMap ?_ Rose.nodes)
    exact (List.Sublist.refl queue).append (passed_sublist blank ts)

theorem Queue.stripped (whole : Queue kids (.node v ts :: queue))
    (rest : Stripped blank (Function.update kids v ((stripAll blank ts).map Rose.root)) after
      (queue ++ passed blank ts)) : Stripped blank kids after (.node v ts :: queue) := by
  obtain ⟨fresh, separate⟩ := whole.apart
  rw [List.flatMap_append] at fresh separate
  obtain ⟨inner, _, apart⟩ := List.nodup_append.mp separate
  have unchanged : ∀ u, u ≠ v → u ∉ queue.flatMap Rose.nodes →
      u ∉ (passed blank ts).flatMap Rose.nodes → after u = kids u := by
    intro u other outQueue outPassed
    rw [rest.frame u (by simp only [List.flatMap_append, List.mem_append]; tauto),
      Function.update_of_ne other]
  have short := (passed_sublist blank ts).flatMap Rose.nodes
  constructor
  · intro t member
    rcases List.mem_cons.mp member with rfl | later
    · rw [strip]
      refine .node ?_ (unfolds_stripAll whole.head.2 ?_ ?_ inner)
      · rw [rest.frame v ?_, Function.update_self]
        rw [List.flatMap_append]
        intro inside
        rcases List.mem_append.mp inside with inQueue | inPassed
        · exact fresh (List.mem_append_right _ inQueue)
        · exact fresh (List.mem_append_left _ (short.subset inPassed))
      · intro t child
        exact rest.unfolds t (List.mem_append_right _ child)
      · intro u inside outside
        refine unchanged u ?_ (fun inQueue => apart u inside u inQueue rfl) outside
        rintro rfl
        exact fresh (List.mem_append_left _ inside)
    · exact rest.unfolds t (List.mem_append_left _ later)
  · intro u outside
    rw [List.flatMap_cons, Rose.nodes_node, List.cons_append, List.mem_cons, List.mem_append,
      not_or, not_or] at outside
    obtain ⟨other, outTs, outQueue⟩ := outside
    exact unchanged u other outQueue (fun inPassed => outTs (short.subset inPassed))

end Queue

/-- The walk over a queue of separate trees ends, and leaves each tree stripped and
everything else alone. -/
theorem walk_eq (holds : h.Holds kids) (queue : List (Rose (Ptr Node))) (whole : Queue kids queue)
    (enough : (queue.flatMap Rose.nodes).length ≤ fuel) :
    ∃ h' kids', walk fuel h (queue.map Rose.root) = .ok h' ∧ h'.Holds kids' ∧
      h'.content = h.content ∧ h'.size = h.size ∧ Stripped (fun p => isBlank (h.content p)) kids kids' queue := by
  induction fuel generalizing h kids queue with
  | zero =>
    cases queue with
    | nil => exact ⟨h, kids, rfl, holds, rfl, rfl, by simp, fun _ _ => rfl⟩
    | cons t queue =>
      obtain ⟨v, ts⟩ := t
      simp at enough
  | succ fuel ih =>
    cases queue with
    | nil => exact ⟨h, kids, rfl, holds, rfl, rfl, by simp, fun _ _ => rfl⟩
    | cons t queue =>
      obtain ⟨v, ts⟩ := t
      have children := Rose.length_le_nodes ts
      simp only [List.flatMap_cons, Rose.nodes_node, List.length_append, List.length_cons] at enough
      have split : kids v = [] ++ ts.map Rose.root := whole.head.1
      have room : ts.length ≤ fuel := by omega
      obtain ⟨h₁, pass, update⟩ := walkChildren_eq holds split room (queue.map Rose.root)
      rw [List.nil_append] at update
      have fewer := ((passed_sublist (fun p => isBlank (h.content p)) ts).flatMap Rose.nodes).length_le
      obtain ⟨h', kids', done, holds', content, size, stripped⟩ := ih update.holds _ whole.pass
        (by rw [List.flatMap_append, List.length_append]; omega)
      rw [update.content] at content stripped
      refine ⟨h', kids', ?_, holds', content, size.trans update.size, whole.stripped stripped⟩
      have first := holds.consistent.first v
      simp only [Nodes.links, whole.head.1] at first
      simp only [List.map_cons, Rose.root, walk, first, pass, Fault.ok_bind]
      simpa only [List.map_append] using done

end Gopherize.Jsx
