import Gopherize.Core.Rose
import Mathlib.Logic.Function.Basic
import Mathlib.Logic.Function.Iterate

/-! Ordered trees held as doubly linked nodes. Each node has five links. Taken
together they say one list of children for each node, and those lists determine
every link. Putting a node between two neighbours and taking it out again are the
two directions of one change. -/
namespace GoCore

inductive Link where
  | parent | firstChild | lastChild | prevSibling | nextSibling
  deriving DecidableEq, Repr

/-- The links of all nodes. -/
abbrev Links (ι : Type) := Link → ι → Option ι

namespace Links
variable {ι : Type} {links links' : Links ι} {kids : ι → List ι}

/-- The links say exactly the lists `kids`. -/
structure Consistent (links : Links ι) (kids : ι → List ι) : Prop where
  first : ∀ p, links .firstChild p = (kids p).head?
  last : ∀ p, links .lastChild p = (kids p).getLast?
  placed : ∀ {p xs c ys}, kids p = xs ++ c :: ys →
    links .parent c = some p ∧ links .prevSibling c = xs.getLast? ∧ links .nextSibling c = ys.head?
  detached : ∀ {c}, (∀ p, c ∉ kids p) →
    links .parent c = none ∧ links .prevSibling c = none ∧ links .nextSibling c = none
  nodup : ∀ p, (kids p).Nodup

theorem Consistent.parent_of_mem (consistent : Consistent links kids) (member : c ∈ kids p) :
    links .parent c = some p := by
  obtain ⟨xs, ys, split⟩ := List.append_of_mem member
  exact (consistent.placed split).1

theorem Consistent.mem_iff (consistent : Consistent links kids) :
    c ∈ kids p ↔ links .parent c = some p := by
  refine ⟨consistent.parent_of_mem, ?_⟩
  intro parent
  by_contra outside
  by_cases elsewhere : ∀ q, c ∉ kids q
  · rw [(consistent.detached elsewhere).1] at parent
    contradiction
  · push Not at elsewhere
    obtain ⟨q, member⟩ := elsewhere
    have same := (consistent.parent_of_mem member).symm.trans parent
    exact outside (Option.some.inj same ▸ member)

/-- A node has one parent at most. -/
theorem Consistent.parent_unique (consistent : Consistent links kids) (first : c ∈ kids p)
    (second : c ∈ kids q) : p = q :=
  Option.some.inj ((consistent.parent_of_mem first).symm.trans (consistent.parent_of_mem second))

/-- The lists determine the links. -/
theorem Consistent.unique (first : Consistent links kids) (second : Consistent links' kids) :
    links = links' := by
  have sides : ∀ c, links .parent c = links' .parent c ∧
      links .prevSibling c = links' .prevSibling c ∧ links .nextSibling c = links' .nextSibling c := by
    intro c
    by_cases everywhere : ∀ p, c ∉ kids p
    · obtain ⟨parent, prev, next⟩ := first.detached everywhere
      obtain ⟨parent', prev', next'⟩ := second.detached everywhere
      exact ⟨parent.trans parent'.symm, prev.trans prev'.symm, next.trans next'.symm⟩
    · push Not at everywhere
      obtain ⟨p, member⟩ := everywhere
      obtain ⟨xs, ys, split⟩ := List.append_of_mem member
      obtain ⟨parent, prev, next⟩ := first.placed split
      obtain ⟨parent', prev', next'⟩ := second.placed split
      exact ⟨parent.trans parent'.symm, prev.trans prev'.symm, next.trans next'.symm⟩
  funext link c
  cases link with
  | parent => exact (sides c).1
  | firstChild => exact (first.first c).trans (second.first c).symm
  | lastChild => exact (first.last c).trans (second.last c).symm
  | prevSibling => exact (sides c).2.1
  | nextSibling => exact (sides c).2.2

/-- What a change of the children of `p` around the node `c` starts from: `c` is
between `xs` and `ys` (`mid` is `[c]`) or nowhere (`mid` is empty). -/
structure Site (links : Links ι) (kids : ι → List ι) (p c : ι) (xs mid ys : List ι) : Prop where
  consistent : Consistent links kids
  listed : kids p = xs ++ mid ++ ys
  only : ∀ d ∈ mid, d = c
  outside : c ∉ xs ++ ys
  elsewhere : ∀ q, q ≠ p → c ∉ kids q

section Site
variable {p c d : ι} {xs mid mid' ys us vs w : List ι}

theorem Site.left (site : Site links kids p c xs mid ys) (split : xs = us ++ d :: w) :
    links .parent d = some p ∧ links .prevSibling d = us.getLast? ∧
      (w ≠ [] → links .nextSibling d = w.head?) := by
  have listed : kids p = us ++ d :: (w ++ mid ++ ys) := by
    rw [site.listed, split]
    simp
  obtain ⟨parent, prev, next⟩ := site.consistent.placed listed
  refine ⟨parent, prev, ?_⟩
  intro more
  obtain ⟨e, w, rfl⟩ := List.exists_cons_of_ne_nil more
  exact next

theorem Site.right (site : Site links kids p c xs mid ys) (split : ys = w ++ d :: vs) :
    links .parent d = some p ∧ links .nextSibling d = vs.head? ∧
      (w ≠ [] → links .prevSibling d = w.getLast?) := by
  have listed : kids p = (xs ++ mid ++ w) ++ d :: vs := by
    rw [site.listed, split]
    simp
  obtain ⟨parent, prev, next⟩ := site.consistent.placed listed
  refine ⟨parent, next, ?_⟩
  intro more
  rw [prev, List.getLast?_append_of_ne_nil _ more]

theorem Site.apart (site : Site links kids p c xs mid ys) : (xs ++ ys).Nodup := by
  have nodup := site.consistent.nodup p
  rw [site.listed, List.append_assoc] at nodup
  refine nodup.sublist ?_
  exact (List.Sublist.refl xs).append (List.sublist_append_right mid ys)

/-- Other nodes' children are away from the change. -/
theorem Site.away (site : Site links kids p c xs mid ys) (other : q ≠ p) (member : d ∈ kids q) :
    d ≠ c ∧ ys.head? ≠ some d ∧ xs.getLast? ≠ some d := by
  have stranger : d ∉ kids p := fun also => other (site.consistent.parent_unique member also)
  rw [site.listed] at stranger
  refine ⟨?_, ?_, ?_⟩
  · rintro rfl
    exact site.elsewhere q other member
  · intro head
    exact stranger (by simp [List.mem_of_mem_head? head])
  · intro last
    exact stranger (by simp [List.mem_of_getLast? last])

/-- Where a given element of a list in three parts is. -/
theorem split_three (same : xs ++ mid ++ ys = us ++ d :: vs) :
    (∃ w, xs = us ++ d :: w ∧ vs = w ++ mid ++ ys) ∨
    (∃ z w, mid = z ++ d :: w ∧ us = xs ++ z ∧ vs = w ++ ys) ∨
    (∃ w, ys = w ++ d :: vs ∧ us = xs ++ mid ++ w) := by
  rcases List.append_eq_append_iff.mp same with ⟨w, before, after⟩ | ⟨w, before, after⟩
  · exact .inr (.inr ⟨w, after, before⟩)
  · cases w with
    | nil => exact .inr (.inr ⟨[], by simpa using after.symm, by simpa using before.symm⟩)
    | cons e w =>
      obtain ⟨rfl, rfl⟩ := List.cons.inj after
      rcases List.append_eq_append_iff.mp before with ⟨z, left, right⟩ | ⟨z, left, right⟩
      · exact .inr (.inl ⟨z, w, right, left, rfl⟩)
      · cases z with
        | nil => exact .inr (.inl ⟨[], w, by simpa using right.symm, by simpa using left.symm, rfl⟩)
        | cons e z =>
          obtain ⟨rfl, rfl⟩ := List.cons.inj right
          exact .inl ⟨z, left, rfl⟩

end Site

section Trees

/-- One step towards the root. -/
def up (links : Links ι) (position : Option ι) : Option ι := position.bind (links .parent)

theorem up_iterate_none (links : Links ι) (k : Nat) : (up links)^[k] none = none :=
  Function.iterate_fixed rfl k

/-- A node from which the way up ends is not its own ancestor. -/
theorem not_own_ancestor (ends : (up links)^[m] (some a) = none) (k : Nat) :
    (up links)^[k + 1] (some a) ≠ some a := by
  intro cycle
  induction m using Nat.strongRecOn with
  | _ m ih =>
    by_cases short : m ≤ k + 1
    · obtain ⟨rest, total⟩ := Nat.exists_eq_add_of_le' short
      rw [total, Function.iterate_add_apply, ends, up_iterate_none] at cycle
      contradiction
    · refine ih (m - (k + 1)) (by omega) ?_
      have total : m = (m - (k + 1)) + (k + 1) := by omega
      rw [total, Function.iterate_add_apply, cycle] at ends
      exact ends

/-- From every node of an unfolded tree the way up leads to the root. -/
theorem Consistent.up_root (consistent : Consistent links kids) (unfolds : Rose.Unfolds kids t) :
    ∀ d ∈ t.nodes, ∃ k, (up links)^[k] (some d) = some t.root := by
  induction unfolds with
  | @node a ts listed _ ih =>
    intro d member
    rw [Rose.nodes_node] at member
    rcases List.mem_cons.mp member with rfl | below
    · exact ⟨0, rfl⟩
    · obtain ⟨t, child, inside⟩ := List.mem_flatMap.mp below
      obtain ⟨k, reached⟩ := ih t child d inside
      have parent := consistent.parent_of_mem (listed ▸ List.mem_map_of_mem child)
      refine ⟨k + 1, ?_⟩
      rw [Function.iterate_succ_apply', reached]
      exact parent

/-- Two ways up from one node meet siblings only when these are the same. -/
theorem siblings_eq (ends : (up links)^[m] (some a) = none) (first : links .parent s = some a)
    (second : links .parent t = some a) (toFirst : (up links)^[j] (some d) = some s)
    (toSecond : (up links)^[k] (some d) = some t) : s = t := by
  wlog order : j ≤ k generalizing s t j k
  · exact (this second first toSecond toFirst (by omega)).symm
  obtain ⟨rest, rfl⟩ := Nat.exists_eq_add_of_le' order
  rw [Function.iterate_add_apply, toFirst] at toSecond
  cases rest with
  | zero => exact Option.some.inj toSecond
  | succ i =>
    have step : up links (some s) = some a := first
    rw [Function.iterate_succ_apply, step] at toSecond
    refine absurd ?_ (not_own_ancestor ends i)
    rw [Function.iterate_succ_apply', toSecond]
    exact second

/-- A tree whose root is not below itself has every node once. -/
theorem Consistent.nodes_nodup (consistent : Consistent links kids) (unfolds : Rose.Unfolds kids t)
    (ends : (up links)^[m] (some t.root) = none) : t.nodes.Nodup := by
  induction unfolds generalizing m with
  | @node a ts listed unfolded ih =>
    change (up links)^[m] (some a) = none at ends
    have parent : ∀ t ∈ ts, links .parent t.root = some a :=
      fun t child => consistent.parent_of_mem (listed ▸ List.mem_map_of_mem child)
    have distinct : ts.Pairwise (fun s t => s.root ≠ t.root) := by
      have nodup := consistent.nodup a
      rw [listed] at nodup
      exact List.pairwise_map.mp nodup
    rw [Rose.nodes_node, List.nodup_cons, List.nodup_flatMap]
    refine ⟨?_, ?_, ?_⟩
    · intro below
      obtain ⟨t, child, inside⟩ := List.mem_flatMap.mp below
      obtain ⟨k, reached⟩ := consistent.up_root (unfolded t child) a inside
      refine not_own_ancestor ends k ?_
      rw [Function.iterate_succ_apply', reached]
      exact parent t child
    · intro t child
      have step : up links (some t.root) = some a := parent t child
      have longer : (up links)^[m + 1] (some t.root) = none := by
        rw [Function.iterate_succ_apply, step]
        exact ends
      exact ih t child longer
    · refine distinct.imp_of_mem ?_
      intro s t left right differ d inFirst inSecond
      obtain ⟨j, toFirst⟩ := consistent.up_root (unfolded s left) d inFirst
      obtain ⟨k, toSecond⟩ := consistent.up_root (unfolded t right) d inSecond
      exact differ (siblings_eq ends (parent s left) (parent t right) toFirst toSecond)

/-- A node without a parent is the last one on the way up. -/
theorem up_le_of_detached (detached : links .parent s = none)
    (reached : (up links)^[j] (some d) = some s) (passed : (up links)^[k] (some d) = some t) :
    k ≤ j := by
  by_contra later
  obtain ⟨rest, rfl⟩ : ∃ rest, k = rest + 1 + j := ⟨k - j - 1, by omega⟩
  have top : up links (some s) = none := detached
  rw [Function.iterate_add_apply, reached, Function.iterate_succ_apply, top, up_iterate_none] at passed
  contradiction

/-- Detached trees with different roots share no node. -/
theorem Consistent.forest_nodup {ts : List (Rose ι)} (consistent : Consistent links kids)
    (unfolds : ∀ t ∈ ts, Rose.Unfolds kids t) (detached : ∀ t ∈ ts, links .parent t.root = none)
    (distinct : (ts.map Rose.root).Nodup) : (ts.flatMap Rose.nodes).Nodup := by
  rw [List.nodup_flatMap]
  constructor
  · intro t member
    have ends : (up links)^[1] (some t.root) = none := detached t member
    exact consistent.nodes_nodup (unfolds t member) ends
  · refine (List.pairwise_map.mp distinct).imp_of_mem ?_
    intro s t left right differ d inFirst inSecond
    obtain ⟨j, toFirst⟩ := consistent.up_root (unfolds s left) d inFirst
    obtain ⟨k, toSecond⟩ := consistent.up_root (unfolds t right) d inSecond
    have same : j = k := Nat.le_antisymm
      (up_le_of_detached (detached t right) toSecond toFirst)
      (up_le_of_detached (detached s left) toFirst toSecond)
    subst same
    exact differ (Option.some.inj (toFirst.symm.trans toSecond))

end Trees

variable [DecidableEq ι]

/-- Assign one link. -/
def set (links : Links ι) (link : Link) (p : ι) (target : Option ι) : Links ι :=
  fun k q => if k = link ∧ q = p then target else links k q

/-- The links after `c` has been put between the children `xs` and `ys` of `p`
(`mid` is `[c]`) or taken out from there (`mid` is empty). -/
def relinked (links : Links ι) (p c : ι) (xs mid ys : List ι) : Links ι
  | .parent, q => if q = c then (if c ∈ mid then some p else none) else links .parent q
  | .firstChild, q => if q = p then (xs ++ mid ++ ys).head? else links .firstChild q
  | .lastChild, q => if q = p then (xs ++ mid ++ ys).getLast? else links .lastChild q
  | .prevSibling, q =>
    if q = c then (if c ∈ mid then xs.getLast? else none)
    else if ys.head? = some q then (xs ++ mid).getLast? else links .prevSibling q
  | .nextSibling, q =>
    if q = c then (if c ∈ mid then ys.head? else none)
    else if xs.getLast? = some q then (mid ++ ys).head? else links .nextSibling q

section Relinked
variable {p c d : ι} {xs mid mid' ys us vs : List ι}

/-- The links of a child to the left of the change. -/
theorem Site.relinked_left (site : Site links kids p c xs mid ys) (split : xs = us ++ d :: w) :
    relinked links p c xs mid' ys .parent d = some p ∧
    relinked links p c xs mid' ys .prevSibling d = us.getLast? ∧
    relinked links p c xs mid' ys .nextSibling d = (w ++ mid' ++ ys).head? := by
  have apart := site.apart
  have other : d ≠ c := by
    rintro rfl
    exact site.outside (by simp [split])
  have notHead : ys.head? ≠ some d := by
    intro head
    have inYs := List.mem_of_mem_head? head
    exact (List.nodup_append.mp apart).2.2 d (by simp [split]) d inYs rfl
  obtain ⟨parent, prev, next⟩ := site.left split
  simp only [relinked, other, notHead, if_false, parent, prev, true_and]
  cases w with
  | nil => simp [split]
  | cons e w =>
    have notLast : xs.getLast? ≠ some d := by
      rw [split]
      intro last
      have inTail : d ∈ e :: w := by
        rw [List.getLast?_append_of_ne_nil _ (by simp), List.getLast?_cons_cons] at last
        exact List.mem_of_getLast? last
      have nodup := (List.nodup_append.mp apart).1
      rw [split] at nodup
      exact (List.nodup_cons.mp (List.nodup_append.mp nodup).2.1).1 inTail
    simp only [notLast, if_false, next (by simp)]
    rfl

theorem Site.relinked_right (site : Site links kids p c xs mid ys) (split : ys = w ++ d :: vs) :
    relinked links p c xs mid' ys .parent d = some p ∧
    relinked links p c xs mid' ys .prevSibling d = (xs ++ mid' ++ w).getLast? ∧
    relinked links p c xs mid' ys .nextSibling d = vs.head? := by
  have apart := site.apart
  have other : d ≠ c := by
    rintro rfl
    exact site.outside (by simp [split])
  have notLast : xs.getLast? ≠ some d := by
    intro last
    have inXs := List.mem_of_getLast? last
    exact (List.nodup_append.mp apart).2.2 d inXs d (by simp [split]) rfl
  obtain ⟨parent, next, prev⟩ := site.right split
  simp only [relinked, other, notLast, if_false, parent, next, true_and, and_true]
  cases w with
  | nil => simp [split]
  | cons e w =>
    have notHead : ys.head? ≠ some d := by
      rw [split, List.cons_append, List.head?_cons]
      intro head
      have nodup := (List.nodup_append.mp apart).2.1
      rw [split, List.cons_append, List.nodup_cons] at nodup
      exact nodup.1 (Option.some.inj head ▸ by simp)
    simp only [notHead, if_false, prev (by simp), List.getLast?_append_of_ne_nil _ (List.cons_ne_nil e w)]

/-- Putting a node between two neighbours, or taking it out, changes the list of
one parent and nothing else. -/
theorem Site.relinked (site : Site links kids p c xs mid ys) (shape : mid' = [] ∨ mid' = [c]) :
    Consistent (relinked links p c xs mid' ys) (Function.update kids p (xs ++ mid' ++ ys)) where
  first q := by
    by_cases here : q = p
    · subst here
      simp [Links.relinked]
    · simp [Links.relinked, here, site.consistent.first]
  last q := by
    by_cases here : q = p
    · subst here
      simp [Links.relinked]
    · simp [Links.relinked, here, site.consistent.last]
  placed := by
    intro q us d vs listed
    by_cases here : q = p
    · subst here
      rw [Function.update_self] at listed
      rcases split_three listed with ⟨w, left, rfl⟩ | ⟨z, w, middle, rfl, rfl⟩ | ⟨w, right, rfl⟩
      · exact site.relinked_left left
      · obtain rfl : mid' = [c] := by
          rcases shape with rfl | same
          · simp at middle
          · exact same
        obtain ⟨rfl, rfl, rfl⟩ : z = [] ∧ d = c ∧ w = [] := by
          cases z with
          | nil => simpa [eq_comm] using middle
          | cons e z => simp at middle
        simp [Links.relinked]
      · exact site.relinked_right right
    · rw [Function.update_of_ne here] at listed
      have member : d ∈ kids q := by simp [listed]
      obtain ⟨other, notHead, notLast⟩ := site.away here member
      simpa [Links.relinked, other, notHead, notLast] using site.consistent.placed listed
  detached := by
    intro d nowhere
    have atP := nowhere p
    rw [Function.update_self] at atP
    by_cases same : d = c
    · subst same
      have gone : d ∉ mid' := fun inside => atP (by simp [inside])
      simp [Links.relinked, gone]
    · have notHead : ys.head? ≠ some d := fun head => atP (by simp [List.mem_of_mem_head? head])
      have notLast : xs.getLast? ≠ some d := fun last => atP (by simp [List.mem_of_getLast? last])
      have before : ∀ q, d ∉ kids q := by
        intro q member
        by_cases here : q = p
        · subst here
          rw [site.listed] at member
          have inside : d ∈ mid := by
            simp only [List.mem_append] at member atP
            tauto
          exact same (site.only d inside)
        · have after := nowhere q
          rw [Function.update_of_ne here] at after
          exact after member
      simpa [Links.relinked, same, notHead, notLast] using site.consistent.detached before
  nodup q := by
    by_cases here : q = p
    · subst here
      rw [Function.update_self]
      rcases shape with rfl | rfl
      · simpa using site.apart
      · rw [List.append_assoc, List.singleton_append, List.nodup_middle]
        exact List.nodup_cons.mpr ⟨site.outside, site.apart⟩
    · rw [Function.update_of_ne here]
      exact site.consistent.nodup q

end Relinked
end Links
end GoCore
