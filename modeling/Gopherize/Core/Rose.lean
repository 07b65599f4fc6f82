import Mathlib.Data.List.Nodup
import Mathlib.Data.List.Forall2

/-! Finite ordered trees, and when a tree unfolds a function that lists the
children of each node. -/
namespace GoCore

inductive Rose (α : Type) where
  | node (value : α) (children : List (Rose α))

namespace Rose
variable {α β : Type}

def root : Rose α → α
  | node a _ => a

def children : Rose α → List (Rose α)
  | node _ ts => ts

mutual
/-- The values of a tree in document order. -/
def nodes : Rose α → List α
  | node a ts => a :: nodesAll ts

def nodesAll : List (Rose α) → List α
  | [] => []
  | t :: ts => t.nodes ++ nodesAll ts
end

mutual
def map (f : α → β) : Rose α → Rose β
  | node a ts => node (f a) (mapAll f ts)

def mapAll (f : α → β) : List (Rose α) → List (Rose β)
  | [] => []
  | t :: ts => t.map f :: mapAll f ts
end

@[simp] theorem nodesAll_eq (ts : List (Rose α)) : nodesAll ts = ts.flatMap nodes := by
  induction ts with
  | nil => rfl
  | cons t ts ih => rw [nodesAll, ih, List.flatMap_cons]

@[simp] theorem mapAll_eq (f : α → β) (ts : List (Rose α)) : mapAll f ts = ts.map (map f) := by
  induction ts with
  | nil => rfl
  | cons t ts ih => rw [mapAll, ih, List.map_cons]

@[simp] theorem nodes_node (a : α) (ts : List (Rose α)) :
    (node a ts).nodes = a :: ts.flatMap nodes := by
  rw [nodes, nodesAll_eq]

@[simp] theorem map_node (f : α → β) (a : α) (ts : List (Rose α)) :
    (node a ts).map f = node (f a) (ts.map (map f)) := by
  rw [map, mapAll_eq]

@[simp] theorem root_map (f : α → β) (t : Rose α) : (t.map f).root = f t.root := by
  cases t with
  | node a ts => rw [map_node]; rfl

theorem root_mem_nodes (t : Rose α) : t.root ∈ t.nodes := by
  cases t with
  | node a ts => simp [root]

theorem length_le_nodes (ts : List (Rose α)) : ts.length ≤ (ts.flatMap nodes).length := by
  induction ts with
  | nil => simp
  | cons t ts ih =>
    cases t with
    | node a us =>
      simp only [List.flatMap_cons, nodes_node, List.length_append, List.length_cons]
      omega

theorem nodes_length_le {ts : List (Rose α)} (member : t ∈ ts) :
    t.nodes.length ≤ (ts.flatMap nodes).length := by
  obtain ⟨before, after, rfl⟩ := List.append_of_mem member
  simp only [List.flatMap_append, List.flatMap_cons, List.length_append]
  omega

/-- Induction over all subtrees. -/
theorem induct {P : Rose α → Prop}
    (step : ∀ a ts, (∀ t ∈ ts, P t) → P (node a ts)) (t : Rose α) : P t := by
  refine @Rose.rec α P (fun ts => ∀ t ∈ ts, P t) step ?_ ?_ t
  · intro s member
    exact absurd member List.not_mem_nil
  · intro first ts head tail s member
    rcases List.mem_cons.mp member with rfl | later
    · exact head
    · exact tail s later

theorem map_congr {f g : α → β} {t : Rose α} (same : ∀ a ∈ t.nodes, f a = g a) :
    t.map f = t.map g := by
  induction t using induct with
  | step a ts ih =>
    rw [map_node, map_node, same a (by simp)]
    congr 1
    refine List.map_congr_left (fun t member => ih t member (fun b inside => same b ?_))
    rw [nodes_node]
    exact List.mem_cons_of_mem _ (List.mem_flatMap.mpr ⟨t, member, inside⟩)

/-- The tree lists below each of its nodes exactly what `kids` says. -/
inductive Unfolds (kids : α → List α) : Rose α → Prop where
  | node {a ts} : kids a = ts.map root → (∀ t ∈ ts, Unfolds kids t) → Unfolds kids (node a ts)

/-- Only the lists of the tree's own nodes matter. -/
theorem Unfolds.congr {kids kids' : α → List α} (unfolds : Unfolds kids t)
    (same : ∀ a ∈ t.nodes, kids' a = kids a) : Unfolds kids' t := by
  induction unfolds with
  | @node a ts listed _ ih =>
    refine .node ((same a (by simp)).trans listed) ?_
    intro t member
    refine ih t member (fun b inside => same b ?_)
    rw [nodes_node]
    exact List.mem_cons_of_mem _ (List.mem_flatMap.mpr ⟨t, member, inside⟩)

end Rose

theorem forall₂_of_mem {R : α → β → Prop} {xs : List α} {ys : List β} (all : List.Forall₂ R xs ys)
    (member : x ∈ xs) : ∃ y ∈ ys, R x y := by
  induction all with
  | nil => exact absurd member List.not_mem_nil
  | @cons a b _ _ head _ ih =>
    rcases List.mem_cons.mp member with rfl | later
    · exact ⟨b, List.mem_cons_self, head⟩
    · obtain ⟨y, inside, related⟩ := ih later
      exact ⟨y, List.mem_cons_of_mem _ inside, related⟩

end GoCore
