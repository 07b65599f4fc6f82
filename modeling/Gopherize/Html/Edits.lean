import Gopherize.Html.Node

/-! Sequences of node operations. Against lists of children, an operation is
refused exactly when the code panics, and otherwise does to the lists what it does
to the links. The loops of node.go and of `ParseFragment` that move all children
of a node are sequences of such operations. -/
namespace Gopherize.Html
open GoCore

/-- The children of each node. -/
abbrev Lists := Ptr Node → List (Ptr Node)

namespace Nodes
variable {h h' : Nodes} {kids : Lists} {n c : Ptr Node} {xs ys : List (Ptr Node)}

theorem empty_holds : empty.Holds (fun _ => []) where
  consistent := by
    refine ⟨?_, ?_, ?_, ?_, ?_⟩
    · intro p
      rfl
    · intro p
      rfl
    · intro p xs c ys listed
      simp at listed
    · intro c _
      exact ⟨rfl, rfl, rfl⟩
    · intro p
      exact List.nodup_nil
  bounded := by simp

/-- A node that is not allocated has no part in the lists. -/
theorem Holds.fresh (holds : h.Holds kids) (free : h.size ≤ p.addr) :
    kids p = [] ∧ ∀ q, p ∉ kids q := by
  constructor
  · by_contra some
    obtain ⟨c, member⟩ := List.exists_mem_of_ne_nil _ some
    have := (holds.bounded p c member).1
    omega
  · intro q member
    have := (holds.bounded q p member).2
    omega

/-- A new node changes no list. -/
theorem Holds.alloc (holds : h.Holds kids) (content : Content) :
    (h.alloc content).2.Holds kids := by
  obtain ⟨noKids, nowhere⟩ := holds.fresh (p := ⟨h.size⟩) le_rfl
  have same : (h.alloc content).2.links = h.links := by
    funext l q
    by_cases here : q = ⟨h.size⟩
    · subst here
      obtain ⟨parent, prev, next⟩ := holds.consistent.detached nowhere
      have first := holds.consistent.first ⟨h.size⟩
      have last := holds.consistent.last ⟨h.size⟩
      rw [noKids] at first last
      cases l <;> simp [links, link, Nodes.alloc, Node.link] at * <;> simp [*]
    · simp [links, link, Nodes.alloc, here]
  refine ⟨same ▸ holds.consistent, ?_⟩
  intro p d member
  have bounded := holds.bounded p d member
  simp only [Nodes.alloc]
  omega

/-- The children of four nodes, the second of which is below the first. -/
def fourLists : Lists := Function.update (fun _ => []) ⟨0⟩ [⟨1⟩]

@[simp] theorem fourLists_first : fourLists ⟨0⟩ = [⟨1⟩] := Function.update_self ..

theorem mem_fourLists {c q : Ptr Node} (member : c ∈ fourLists q) : c = ⟨1⟩ := by
  rw [fourLists, Function.update_apply] at member
  split at member
  · exact List.mem_singleton.mp member
  · exact absurd member List.not_mem_nil

theorem four_nodes : ∃ h : Nodes, h.size = 4 ∧ h.Holds fourLists := by
  have holds := (((empty_holds.alloc ⟨.elementNode, "ul", []⟩).alloc ⟨.elementNode, "li", []⟩).alloc
    ⟨.elementNode, "p", []⟩).alloc ⟨.elementNode, "hr", []⟩
  obtain ⟨h, -, update⟩ := holds.appendChild (n := ⟨0⟩) (c := ⟨1⟩) (by simp) (by decide)
  exact ⟨h, update.size, update.holds⟩

theorem Holds.attached_iff (holds : h.Holds kids) : h.attached c ↔ ∃ q, c ∈ kids q := by
  constructor
  · intro attached
    by_contra nowhere
    push Not at nowhere
    obtain ⟨parent, prev, next⟩ := holds.consistent.detached nowhere
    simp only [links] at parent prev next
    simp [Nodes.attached, parent, prev, next] at attached
  · rintro ⟨q, member⟩
    have parent := holds.consistent.parent_of_mem member
    simp only [links] at parent
    simp [Nodes.attached, parent]

/-- A node that has been taken out is in no list. -/
theorem Holds.taken_out (holds : h.Holds kids) (listed : kids n = xs ++ c :: ys) (q : Ptr Node) :
    c ∉ Function.update kids n (xs ++ ys) q := by
  have member : c ∈ kids n := by simp [listed]
  have nodup := holds.consistent.nodup n
  rw [listed, List.nodup_middle, List.nodup_cons] at nodup
  by_cases here : q = n
  · subst here
    simpa using nodup.1
  · rw [Function.update_of_ne here]
    exact fun also => here (holds.consistent.parent_unique also member)

/-- Taking a child out and putting it back before its old neighbour restores every
link. -/
theorem removeChild_insertBefore (holds : h.Holds kids) (listed : kids n = xs ++ c :: ys) :
    (do insertBefore (← removeChild h n c) n c ys.head?) = .ok h := by
  obtain ⟨h₁, removed, update⟩ := holds.removeChild listed
  have allocated := holds.bounded n c (by simp [listed])
  rw [← update.size] at allocated
  obtain ⟨h₂, inserted, restored⟩ :=
    update.holds.insertBefore (Function.update_self ..) (holds.taken_out listed) allocated
  have lists : Function.update (Function.update kids n (xs ++ ys)) n (xs ++ c :: ys) = kids := by
    rw [Function.update_idem, ← listed, Function.update_eq_self]
  have links := restored.holds.consistent
  rw [lists] at links
  have whole : h₂ = h := ext_links (links.unique holds.consistent)
    (restored.content.trans update.content) (restored.size.trans update.size)
  simp only [removed, Fault.ok_bind, inserted, whole]

theorem removeChild_insertBefore_only :
    ∃ h : Nodes, h.size = 4 ∧ (do insertBefore (← removeChild h ⟨0⟩ ⟨1⟩) ⟨0⟩ ⟨1⟩ none) = .ok h := by
  obtain ⟨h, size, holds⟩ := four_nodes
  have listed : fourLists ⟨0⟩ = [] ++ ⟨1⟩ :: [] := fourLists_first
  have restored := removeChild_insertBefore holds listed
  exact ⟨h, size, restored⟩

/-- A neighbour from another parent is not noticed, and afterwards the links are
those of no document. -/
theorem insertBefore_stranger (holds : h.Holds kids) (detached : ∀ q, c ∉ kids q)
    (stranger : old ∈ kids m) (other : m ≠ n) :
    ∃ h', insertBefore h n c (some old) = .ok h' ∧ ∀ kids', ¬h'.Holds kids' := by
  have free : ¬h.attached c := by
    rw [holds.attached_iff]
    push Not
    exact detached
  have parent := holds.consistent.parent_of_mem stranger
  have distinct : old ≠ c := by
    rintro rfl
    exact detached m stranger
  simp only [links] at parent
  simp only [insertBefore, free, if_false]
  refine ⟨_, rfl, ?_⟩
  intro kids' after
  -- the neighbour still belongs to `m`, so the new node would be a child of `m` too
  have inside : old ∈ kids' m := after.consistent.mem_iff.mpr (by simp [links, distinct, parent])
  obtain ⟨us, vs, split⟩ := List.append_of_mem inside
  have prev := (after.consistent.placed split).2.1
  simp only [links, link_setLink, link_setLinkOr, distinct, and_false, if_false, reduceCtorEq,
    and_self, true_or, if_true] at prev
  have member : c ∈ kids' m := by
    rw [split]
    simp [List.mem_of_getLast? prev.symm]
  have wrong := after.consistent.mem_iff.mp member
  simp only [links, link_setLink, reduceCtorEq, false_and, if_false, and_self, if_true,
    Option.some.injEq] at wrong
  exact other wrong.symm

theorem insertBefore_stranger_fourth :
    ∃ h : Nodes, h.Holds fourLists ∧ ∃ h', insertBefore h ⟨3⟩ ⟨2⟩ (some ⟨1⟩) = .ok h' ∧
      ∀ kids', ¬h'.Holds kids' := by
  obtain ⟨h, -, holds⟩ := four_nodes
  refine ⟨h, holds, insertBefore_stranger (m := ⟨0⟩) holds (fun q member => ?_) (by simp) (by decide)⟩
  exact absurd (mem_fourLists member) (by decide)

end Nodes

/-- What the nodes stand for: lists of children, and contents. -/
structure Document where
  kids : Lists
  content : Ptr Node → Content
  size : Nat

structure Nodes.Shows (h : Nodes) (d : Document) : Prop where
  holds : h.Holds d.kids
  content : h.content = d.content
  size : h.size = d.size

inductive Edit where
  | create (content : Content)
  | insertBefore (n newChild : Ptr Node) (oldChild : Ref Node)
  | appendChild (n c : Ptr Node)
  | removeChild (n c : Ptr Node)

namespace Edit

def exec (h : Nodes) : Edit → Except Fault Nodes
  | create content => pure (h.alloc content).2
  | insertBefore n newChild oldChild => h.insertBefore n newChild oldChild
  | appendChild n c => h.appendChild n c
  | removeChild n c => h.removeChild n c

/-- The panic of a refused operation. -/
def refusal : Edit → String
  | create _ => ""
  | insertBefore _ _ _ => "html: InsertBefore called for an attached child Node"
  | appendChild _ _ => "html: AppendChild called for an attached child Node"
  | removeChild _ _ => "html: RemoveChild called for a non-child Node"

/-- The list with `c` before `old`, or at the end. -/
def insertInto (c : Ptr Node) (old : Ref Node) : List (Ptr Node) → List (Ptr Node)
  | [] => [c]
  | x :: xs => if old = some x then c :: x :: xs else x :: insertInto c old xs

open Classical in
/-- What the operation does to a document; it refuses to attach a node twice and
to remove what is not there. -/
noncomputable def apply (d : Document) : Edit → Option Document
  | create content => some ⟨d.kids, Function.update d.content ⟨d.size⟩ content, d.size + 1⟩
  | insertBefore n c old =>
    if ∃ q, c ∈ d.kids q then none
    else some { d with kids := Function.update d.kids n (insertInto c old (d.kids n)) }
  | appendChild n c =>
    if ∃ q, c ∈ d.kids q then none
    else some { d with kids := Function.update d.kids n (d.kids n ++ [c]) }
  | removeChild n c =>
    if c ∈ d.kids n then some { d with kids := Function.update d.kids n ((d.kids n).erase c) }
    else none

/-- The operation is about allocated nodes, and a new neighbour is a child of the
node in question; the code checks neither. -/
def Legal (d : Document) : Edit → Prop
  | create _ => True
  | insertBefore n c old => n.addr < d.size ∧ c.addr < d.size ∧ ∀ o ∈ old, o ∈ d.kids n
  | appendChild n c => n.addr < d.size ∧ c.addr < d.size
  | removeChild _ _ => True

/-- The code refuses what the document refuses, and else does the same. -/
def Refines (d : Document) (e : Edit) (h : Nodes) : Prop :=
  match e.apply d with
  | none => e.exec h = .error (.panicked e.refusal)
  | some d' => ∃ h', e.exec h = .ok h' ∧ h'.Shows d'

variable {h : Nodes} {d : Document}

theorem Refines.accepted {e : Edit} (applied : e.apply d = some d')
    (done : ∃ h', e.exec h = .ok h' ∧ h'.Shows d') : e.Refines d h := by
  simpa only [Refines, applied] using done

theorem Refines.refused {e : Edit} (applied : e.apply d = none)
    (stopped : e.exec h = .error (.panicked e.refusal)) : e.Refines d h := by
  simpa only [Refines, applied] using stopped

theorem create_refines (shows : h.Shows d) (content : Content) : (create content).Refines d h := by
  refine .accepted rfl ⟨_, rfl, shows.holds.alloc content, ?_, ?_⟩
  · funext q
    by_cases here : q = ⟨h.size⟩
    · subst here
      simp [Nodes.content, Nodes.alloc, shows.size]
    · have there : q ≠ ⟨d.size⟩ := shows.size ▸ here
      simp [Nodes.content, Nodes.alloc, here, there, ← shows.content]
  · simp [Nodes.alloc, shows.size]

theorem insertInto_eq (c : Ptr Node) (child : ∀ o ∈ old, o ∈ list) :
    ∃ xs ys, list = xs ++ ys ∧ old = ys.head? ∧ insertInto c old list = xs ++ c :: ys := by
  induction list with
  | nil =>
    refine ⟨[], [], rfl, ?_, rfl⟩
    exact Option.eq_none_iff_forall_not_mem.mpr (fun o member => List.not_mem_nil (child o member))
  | cons x list ih =>
    by_cases here : old = some x
    · exact ⟨[], x :: list, rfl, here, by simp [insertInto, here]⟩
    · have later : ∀ o ∈ old, o ∈ list := by
        intro o member
        rcases List.mem_cons.mp (child o member) with rfl | inside
        · exact absurd member here
        · exact inside
      obtain ⟨xs, ys, listed, next, inserted⟩ := ih later
      exact ⟨x :: xs, ys, by simp [listed], next, by simp [insertInto, here, inserted]⟩

theorem insertBefore_refines (shows : h.Shows d) (legal : (insertBefore n c old).Legal d) :
    (insertBefore n c old).Refines d h := by
  obtain ⟨inN, inC, child⟩ := legal
  by_cases attached : ∃ q, c ∈ d.kids q
  · refine .refused (if_pos attached) ?_
    simp [exec, Nodes.insertBefore, shows.holds.attached_iff.mpr attached, refusal]
  · refine .accepted (if_neg attached) ?_
    push Not at attached
    obtain ⟨xs, ys, listed, rfl, inserted⟩ := insertInto_eq c child
    rw [← shows.size] at inN inC
    obtain ⟨h', done, update⟩ := shows.holds.insertBefore listed attached ⟨inN, inC⟩
    refine ⟨h', done, inserted ▸ update.holds, ?_, update.size.trans shows.size⟩
    exact update.content.trans shows.content

theorem appendChild_refines (shows : h.Shows d) (legal : (appendChild n c).Legal d) :
    (appendChild n c).Refines d h := by
  obtain ⟨inN, inC⟩ := legal
  by_cases attached : ∃ q, c ∈ d.kids q
  · refine .refused (if_pos attached) ?_
    simp [exec, Nodes.appendChild, shows.holds.attached_iff.mpr attached, refusal]
  · refine .accepted (if_neg attached) ?_
    push Not at attached
    rw [← shows.size] at inN inC
    obtain ⟨h', done, update⟩ := shows.holds.appendChild attached ⟨inN, inC⟩
    exact ⟨h', done, update.holds, update.content.trans shows.content, update.size.trans shows.size⟩

theorem removeChild_refines (shows : h.Shows d) : (removeChild n c).Refines d h := by
  by_cases member : c ∈ d.kids n
  · refine .accepted (if_pos member) ?_
    obtain ⟨xs, ys, listed⟩ := List.append_of_mem member
    obtain ⟨h', done, update⟩ := shows.holds.removeChild listed
    have nodup := shows.holds.consistent.nodup n
    have erased : (d.kids n).erase c = xs ++ ys := by
      rw [listed, List.nodup_middle, List.nodup_cons] at nodup
      have left : c ∉ xs := fun inside => nodup.1 (by simp [inside])
      rw [listed, List.erase_append_right _ left, List.erase_cons_head]
    refine ⟨h', done, ?_, update.content.trans shows.content, update.size.trans shows.size⟩
    simpa only [erased] using update.holds
  · refine .refused (if_neg member) ?_
    have stranger : h.link .parent c ≠ some n :=
      fun parent => member (shows.holds.consistent.mem_iff.mpr parent)
    simp [exec, Nodes.removeChild, stranger, refusal]

theorem exec_refines (shows : h.Shows d) (e : Edit) (legal : e.Legal d) : e.Refines d h := by
  cases e with
  | create content => exact create_refines shows content
  | insertBefore n c old => exact insertBefore_refines shows legal
  | appendChild n c => exact appendChild_refines shows legal
  | removeChild n c => exact removeChild_refines shows

end Edit

def runEdits (h : Nodes) (es : List Edit) : Except Fault Nodes := es.foldlM Edit.exec h

noncomputable def Document.run (d : Document) (es : List Edit) : Option Document :=
  es.foldlM Edit.apply d

/-- Every operation is legal when its turn comes. -/
def LegalRun (d : Document) : List Edit → Prop
  | [] => True
  | e :: es => e.Legal d ∧ ∀ d', e.apply d = some d' → LegalRun d' es

/-- No sequence of operations breaks the links: the run goes on exactly as long as
the document accepts, and the nodes always show the document. -/
theorem edits_refine (es : List Edit) (shows : h.Shows d) (legal : LegalRun d es) :
    match d.run es with
    | none => ∃ e ∈ es, runEdits h es = .error (.panicked e.refusal)
    | some d' => ∃ h', runEdits h es = .ok h' ∧ h'.Shows d' := by
  induction es generalizing h d with
  | nil => exact ⟨h, rfl, shows⟩
  | cons e es ih =>
    obtain ⟨first, rest⟩ := legal
    have step := Edit.exec_refines shows e first
    cases applied : e.apply d with
    | none =>
      simp only [Edit.Refines, applied] at step
      simp only [Document.run, List.foldlM_cons, applied, runEdits, step]
      exact ⟨e, List.mem_cons_self, rfl⟩
    | some d₁ =>
      simp only [Edit.Refines, applied] at step
      obtain ⟨h₁, done, shown⟩ := step
      have run := ih shown (rest d₁ applied)
      have start : d.run (e :: es) = d₁.run es := by
        simp [Document.run, applied]
      have same : runEdits h (e :: es) = runEdits h₁ es := by
        simp [runEdits, done]
      rw [start, same]
      cases finished : d₁.run es with
      | none =>
        simp only [finished] at run ⊢
        obtain ⟨e', member, stopped⟩ := run
        exact ⟨e', List.mem_cons_of_mem _ member, stopped⟩
      | some d' => simpa only [finished] using run

def Document.empty : Document := ⟨fun _ => [], Nodes.empty.content, 0⟩

/-- Two new nodes, one put below the other. -/
theorem edits_refine_pair :
    ∃ h', runEdits Nodes.empty [.create ⟨.elementNode, "ul", []⟩, .create ⟨.elementNode, "li", []⟩,
        .appendChild ⟨0⟩ ⟨1⟩] = .ok h' ∧ h'.link .firstChild ⟨0⟩ = some ⟨1⟩ := by
  have legal : LegalRun Document.empty [.create ⟨.elementNode, "ul", []⟩,
      .create ⟨.elementNode, "li", []⟩, .appendChild ⟨0⟩ ⟨1⟩] := by
    simp [LegalRun, Edit.Legal, Edit.apply, Document.empty]
  obtain ⟨d', accepted, kids⟩ : ∃ d', Document.empty.run [.create ⟨.elementNode, "ul", []⟩,
      .create ⟨.elementNode, "li", []⟩, .appendChild ⟨0⟩ ⟨1⟩] = some d' ∧ d'.kids ⟨0⟩ = [⟨1⟩] := by
    simp [Document.run, Edit.apply, Document.empty]
  have run := edits_refine _ ⟨Nodes.empty_holds, rfl, rfl⟩ legal
  rw [accepted] at run
  obtain ⟨h', done, shows⟩ := run
  exact ⟨h', done, (shows.holds.consistent.first ⟨0⟩).trans (by simp [kids])⟩

namespace Nodes
variable {h : Nodes} {kids : Lists}

/-- The loop of `reparentChildren`. -/
def reparentChildren (dst src : Ptr Node) : Nat → Nodes → Except Fault Nodes
  | 0, _ => throw .outOfFuel
  | fuel + 1, h =>
    match h.link .firstChild src with
    | none => pure h
    | some child => do
      let h ← h.removeChild src child
      let h ← h.appendChild dst child
      reparentChildren dst src fuel h

/-- The loop at the end of `ParseFragment`, which takes the children of `parent`
out one by one; `next` is read before the removal. -/
def detachChildren (parent : Ptr Node) : Nat → Nodes → Ref Node → List (Ptr Node) →
    Except Fault (Nodes × List (Ptr Node))
  | _, h, none, result => pure (h, result)
  | 0, _, some _, _ => throw .outOfFuel
  | fuel + 1, h, some c, result => do
    let next := h.link .nextSibling c
    let h ← h.removeChild parent c
    detachChildren parent fuel h next (result ++ [c])

/-- All children move to the end of the other node's children, in their order. -/
theorem reparentChildren_eq (holds : h.Holds kids) (other : dst ≠ src) (inside : dst.addr < h.size)
    (enough : (kids src).length < fuel) :
    ∃ h', reparentChildren dst src fuel h = .ok h' ∧ h'.content = h.content ∧ h'.size = h.size ∧
      h'.Holds (Function.update (Function.update kids src []) dst (kids dst ++ kids src)) := by
  induction fuel generalizing h kids with
  | zero => omega
  | succ fuel ih =>
    have first := holds.consistent.first src
    simp only [links] at first
    cases listed : kids src with
    | nil =>
      rw [listed] at first
      refine ⟨h, by simp [reparentChildren, first], rfl, rfl, ?_⟩
      have same : Function.update (Function.update kids src []) dst (kids dst ++ []) = kids := by
        rw [List.append_nil, ← listed, Function.update_eq_self, Function.update_eq_self]
      rwa [same]
    | cons c rest =>
      rw [listed] at first enough
      simp only [List.length_cons] at enough
      have split : kids src = [] ++ c :: rest := listed
      obtain ⟨h₁, removed, taken⟩ := holds.removeChild split
      have allocated := (holds.bounded src c (by simp [listed])).2
      rw [← taken.size] at inside allocated
      obtain ⟨h₂, appended, moved⟩ :=
        taken.holds.appendChild (holds.taken_out split) ⟨inside, allocated⟩
      rw [← moved.size] at inside
      obtain ⟨h', done, content, size, final⟩ :=
        ih moved.holds inside (by simp [Function.update_of_ne other.symm]; omega)
      refine ⟨h', ?_, content.trans (moved.content.trans taken.content),
        size.trans (moved.size.trans taken.size), ?_⟩
      · simp [reparentChildren, first, removed, appended, done]
      · convert final using 1
        funext q
        by_cases atDst : q = dst
        · subst atDst
          simp [other, other.symm]
        · by_cases atSrc : q = src
          · subst atSrc
            simp [atDst]
          · simp [atDst, atSrc]

theorem reparentChildren_eq_third :
    ∃ h : Nodes, h.Holds fourLists ∧ ∃ h', reparentChildren ⟨2⟩ ⟨0⟩ 2 h = .ok h' ∧
      h'.content = h.content ∧ h'.size = h.size ∧
        h'.Holds (Function.update (Function.update fourLists ⟨0⟩ []) ⟨2⟩
          (fourLists ⟨2⟩ ++ fourLists ⟨0⟩)) := by
  obtain ⟨h, size, holds⟩ := four_nodes
  have apart : (⟨2⟩ : Ptr Node) ≠ ⟨0⟩ := by decide
  have enough : (fourLists ⟨0⟩).length < 2 := by simp
  exact ⟨h, holds, reparentChildren_eq holds apart (by simp [size]) enough⟩

/-- Moving the children of a node to itself never ends. -/
theorem reparentChildren_self (holds : h.Holds kids) (some : kids n ≠ []) (fuel : Nat) :
    reparentChildren n n fuel h = .error .outOfFuel := by
  induction fuel generalizing h kids with
  | zero => rfl
  | succ fuel ih =>
    obtain ⟨c, rest, listed⟩ := List.exists_cons_of_ne_nil some
    have first := holds.consistent.first n
    simp only [links, listed, List.head?_cons] at first
    have split : kids n = [] ++ c :: rest := listed
    obtain ⟨h₁, removed, taken⟩ := holds.removeChild split
    have allocated := holds.bounded n c (by simp [listed])
    rw [← taken.size] at allocated
    obtain ⟨h₂, appended, moved⟩ := taken.holds.appendChild (holds.taken_out split) allocated
    have again := ih moved.holds (by simp)
    simp [reparentChildren, first, removed, appended, again]

theorem reparentChildren_self_first :
    ∃ h : Nodes, h.Holds fourLists ∧ reparentChildren ⟨0⟩ ⟨0⟩ 9 h = .error .outOfFuel := by
  obtain ⟨h, -, holds⟩ := four_nodes
  exact ⟨h, holds, reparentChildren_self holds (by simp) 9⟩

/-- Every child is returned, in order and detached, and the parent is left empty. -/
theorem detachChildren_eq (holds : h.Holds kids) (listed : kids parent = list)
    (enough : list.length ≤ fuel) (result : List (Ptr Node)) :
    ∃ h', detachChildren parent fuel h list.head? result = .ok (h', result ++ list) ∧
      h'.content = h.content ∧ h'.size = h.size ∧ h'.Holds (Function.update kids parent []) := by
  induction list generalizing h kids fuel result with
  | nil =>
    refine ⟨h, by simp [detachChildren], rfl, rfl, ?_⟩
    rwa [← listed, Function.update_eq_self]
  | cons c rest ih =>
    obtain ⟨fuel, rfl⟩ : ∃ k, fuel = k + 1 := ⟨fuel - 1, by simp at enough; omega⟩
    have split : kids parent = [] ++ c :: rest := listed
    have next := (holds.consistent.placed split).2.2
    simp only [links] at next
    obtain ⟨h₁, removed, taken⟩ := holds.removeChild split
    obtain ⟨h', done, content, size, final⟩ :=
      ih taken.holds (Function.update_self ..) (by simpa using enough) (result ++ [c])
    refine ⟨h', ?_, content.trans taken.content, size.trans taken.size, ?_⟩
    · simpa [detachChildren, next, removed] using done
    · rwa [Function.update_idem] at final

end Nodes
end Gopherize.Html
