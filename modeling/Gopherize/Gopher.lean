import Gopherize.Core.Rand

/-! The data model of gopher.go and the heap it lives in. Gophers, categories and
configs are objects with identities; `Parts`, `Options` and `Categories` are slices
whose backing arrays are shared storage. The predicates `GopherAt`, `CategoryAt`
and `ConfigAt` say what a pointer stands for; several pointers may share storage. -/
namespace Gopherize
open GoCore

structure Gopher where
  parts : Slice String

structure Category where
  name : String
  options : Slice String

structure Config where
  categories : Slice (Ref Category)

structure Heap where
  strings : Table (List String)
  categoryLists : Table (List (Ref Category))
  gophers : Table Gopher
  categories : Table Category
  configs : Table Config
  rands : Table Rand

/-- What a category offers, apart from where it is stored. -/
structure Slot where
  name : String
  options : List String
  deriving DecidableEq, Repr

namespace Heap

def empty : Heap := ⟨⟨[]⟩, ⟨[]⟩, ⟨[]⟩, ⟨[]⟩, ⟨[]⟩, ⟨[]⟩⟩

/-- Growth keeps all gophers, categories, configs and backing arrays as they
are. The generators are left out: drawing from one changes it in place. -/
instance : Preorder Heap where
  le h k := h.strings ≤ k.strings ∧ h.categoryLists ≤ k.categoryLists ∧ h.gophers ≤ k.gophers ∧
    h.categories ≤ k.categories ∧ h.configs ≤ k.configs
  le_refl _ := ⟨le_rfl, le_rfl, le_rfl, le_rfl, le_rfl⟩
  le_trans _ _ _ first second := ⟨first.1.trans second.1, first.2.1.trans second.2.1,
    first.2.2.1.trans second.2.2.1, first.2.2.2.1.trans second.2.2.2.1,
    first.2.2.2.2.trans second.2.2.2.2⟩

abbrev onStrings (m : Exec (Table (List String)) α) : Exec Heap α :=
  m.zoom strings (fun t h => { h with strings := t })

abbrev onGophers (m : Exec (Table Gopher) α) : Exec Heap α :=
  m.zoom gophers (fun t h => { h with gophers := t })

abbrev onCategories (m : Exec (Table Category) α) : Exec Heap α :=
  m.zoom categories (fun t h => { h with categories := t })

abbrev onCategoryLists (m : Exec (Table (List (Ref Category))) α) : Exec Heap α :=
  m.zoom categoryLists (fun t h => { h with categoryLists := t })

abbrev onConfigs (m : Exec (Table Config) α) : Exec Heap α :=
  m.zoom configs (fun t h => { h with configs := t })

abbrev onRands (m : Exec (Table Rand) α) : Exec Heap α :=
  m.zoom rands (fun t h => { h with rands := t })

/-- `r.Parts`, element by element. -/
def partsOf (h : Heap) (r : Ref Gopher) : Except Panic (List String) := do
  (← h.gophers.deref r).parts.elems h.strings

def GopherAt (h : Heap) (r : Ref Gopher) (parts : List String) : Prop :=
  ∃ p g, r = some p ∧ h.gophers.read p = some g ∧ g.parts.Denotes h.strings parts

def CategoryAt (h : Heap) (r : Ref Category) (slot : Slot) : Prop :=
  ∃ p c, r = some p ∧ h.categories.read p = some c ∧ c.name = slot.name ∧
    c.options.Denotes h.strings slot.options

def ConfigAt (h : Heap) (r : Ref Config) (refs : List (Ref Category)) (slots : List Slot) : Prop :=
  (∃ p c, r = some p ∧ h.configs.read p = some c ∧ c.categories.Denotes h.categoryLists refs) ∧
    List.Forall₂ h.CategoryAt refs slots

variable {h k : Heap}

theorem GopherAt.mono (grown : h ≤ k) (stored : h.GopherAt r parts) : k.GopherAt r parts := by
  obtain ⟨p, g, same, found, denotes⟩ := stored
  exact ⟨p, g, same, Table.read_mono grown.2.2.1 found, denotes.mono grown.1⟩

theorem CategoryAt.mono (grown : h ≤ k) (stored : h.CategoryAt r slot) : k.CategoryAt r slot := by
  obtain ⟨p, c, same, found, named, denotes⟩ := stored
  exact ⟨p, c, same, Table.read_mono grown.2.2.2.1 found, named, denotes.mono grown.1⟩

theorem ConfigAt.mono (grown : h ≤ k) (stored : h.ConfigAt r refs slots) :
    k.ConfigAt r refs slots := by
  obtain ⟨⟨p, c, same, found, denotes⟩, categories⟩ := stored
  have grownCells := Table.read_mono grown.2.2.2.2 found
  exact ⟨⟨p, c, same, grownCells, denotes.mono grown.2.1⟩,
    categories.imp (fun _ _ category => category.mono grown)⟩

theorem GopherAt.partsOf (stored : h.GopherAt r parts) : h.partsOf r = .ok parts := by
  obtain ⟨p, g, rfl, found, denotes⟩ := stored
  simp only [Heap.partsOf, Table.deref_some found, ok_bind, denotes.elems]

theorem ConfigAt.length (stored : h.ConfigAt r refs slots) : refs.length = slots.length :=
  stored.2.length_eq

theorem ConfigAt.category {i : Nat} (stored : h.ConfigAt r refs slots) (found : slots[i]? = some slot) :
    ∃ ref, refs[i]? = some ref ∧ h.CategoryAt ref slot := by
  obtain ⟨bound, rfl⟩ := List.getElem?_eq_some_iff.mp found
  have within : i < refs.length := by rw [stored.length]; exact bound
  exact ⟨refs[i], List.getElem?_eq_getElem within, stored.2.get within bound⟩

end Heap
end Gopherize
