import Gopherize.Core.Execution
import Mathlib.Data.List.Infix

/-! Objects with identities, and slices over shared backing arrays. Growth of a
table keeps every object that was there before; a write keeps an older table
exactly when it goes to an object that the older table did not have. -/
namespace GoCore

@[ext] structure Ptr (α : Type) where
  addr : Nat

/-- Pointers are compared by identity, whatever they point to. -/
instance : DecidableEq (Ptr α) := fun p q => decidable_of_iff (p.addr = q.addr) Ptr.ext_iff.symm

/-- A Go pointer; `none` is nil. -/
abbrev Ref (α : Type) := Option (Ptr α)

/-- All objects of one type. An address is a position and is never reused. -/
structure Table (α : Type) where
  cells : List α

namespace Table
variable {α : Type}

instance : Preorder (Table α) where
  le t u := t.cells <+: u.cells
  le_refl t := List.prefix_rfl
  le_trans _ _ _ first second := first.trans second

def read (t : Table α) (p : Ptr α) : Option α := t.cells[p.addr]?

def deref (t : Table α) : Ref α → Except Panic α
  | none => .error .nilDereference
  | some p => match t.read p with
    | some v => .ok v
    | none => .error .nilDereference

def alloc (v : α) : Exec (Table α) (Ptr α) := do
  let t ← get
  set (Table.mk (t.cells ++ [v]))
  pure ⟨t.cells.length⟩

def replace (t : Table α) (p : Ptr α) (v : α) : Table α := ⟨t.cells.set p.addr v⟩

def write (p : Ptr α) (v : α) : Exec (Table α) Unit := modify (·.replace p v)

theorem read_mono {t u : Table α} (grown : t ≤ u) (found : t.read p = some v) :
    u.read p = some v := by
  obtain ⟨extra, same⟩ := grown
  have bound := (List.getElem?_eq_some_iff.mp found).1
  rw [read, ← same, List.getElem?_append_left bound]
  exact found

theorem deref_some {t : Table α} (found : t.read p = some v) : t.deref (some p) = .ok v := by
  simp only [deref, found]

theorem deref_ok {t : Table α} (done : t.deref r = .ok v) :
    ∃ p, r = some p ∧ t.read p = some v := by
  cases r with
  | none => contradiction
  | some p =>
    cases found : t.read p with
    | none => simp only [deref, found] at done; contradiction
    | some w =>
      simp only [deref, found, Except.ok.injEq] at done
      exact ⟨p, rfl, found.trans (congrArg some done)⟩

theorem stable_deref (r : Ref α) : Stable (fun t : Table α => t.deref r) := by
  intro t u v grown done
  obtain ⟨p, rfl, found⟩ := deref_ok done
  exact deref_some (read_mono grown found)

theorem alloc_returns (t : Table α) (v : α) :
    Returns (alloc v) t (fun p u => t ≤ u ∧ p.addr = t.cells.length ∧ u.read p = some v) :=
  ⟨⟨t.cells.length⟩, ⟨t.cells ++ [v]⟩, rfl, List.prefix_append _ _, rfl, by simp [read]⟩

/-- Writing to an object younger than `t` keeps every object of `t`. -/
theorem le_replace {t u : Table α} (grown : t ≤ u) (young : t.cells.length ≤ p.addr) :
    t ≤ u.replace p v := by
  obtain ⟨extra, same⟩ := grown
  refine ⟨extra.set (p.addr - t.cells.length) v, ?_⟩
  rw [replace, ← same, List.set_append_right _ _ young]

theorem read_replace {t : Table α} (found : t.read p = some old) :
    (t.replace p v).read p = some v := by
  have bound := (List.getElem?_eq_some_iff.mp found).1
  simp only [read, replace, List.getElem?_set_self bound]

theorem write_returns {post : Unit → Table α → Prop} (holds : post () (t.replace p v)) :
    Returns (write p v) t post := returns_modify _ holds

end Table

/-- A slice from the first cell of its backing array; no program here reslices.
The nil slice has no backing array. -/
structure Slice (α : Type) where
  array : Ref (List α)
  len : Nat
  cap : Nat

namespace Slice
variable {α : Type}

def nil : Slice α := ⟨none, 0, 0⟩

def elems (arrays : Table (List α)) (s : Slice α) : Except Panic (List α) :=
  match s.array with
  | none => pure []
  | some p => do pure ((← arrays.deref (some p)).take s.len)

/-- The index expression `s[i]`. -/
def get (arrays : Table (List α)) (s : Slice α) (i : Int) : Except Panic α := do
  let xs ← s.elems arrays
  match i with
  | .ofNat k => match xs[k]? with
    | some v => pure v
    | none => throw (.indexOutOfRange i s.len)
  | .negSucc _ => throw (.indexOutOfRange i s.len)

/-- The assignment `s[i] = v`, in place. -/
def set (s : Slice α) (i : Int) (v : α) : Exec (Table (List α)) Unit := do
  let arrays ← MonadState.get
  match s.array, i with
  | some p, .ofNat k =>
    if k < s.len then do
      let cells ← arrays.deref (some p)
      Table.write p (cells.set k v)
    else throw (.indexOutOfRange i s.len)
  | _, _ => throw (.indexOutOfRange i s.len)

/-- `make([]T, n)`, with the zero value of `T`. -/
def make (zero : α) (n : Nat) : Exec (Table (List α)) (Slice α) := do
  let p ← Table.alloc (List.replicate n zero)
  pure ⟨some p, n, n⟩

/-- The composite literal `[]T{...}`. -/
def literal (xs : List α) : Exec (Table (List α)) (Slice α) := do
  let p ← Table.alloc xs
  pure ⟨some p, xs.length, xs.length⟩

/-- `copy(dst, src)`. -/
def copy (dst src : Slice α) : Exec (Table (List α)) Nat := do
  let arrays ← MonadState.get
  let xs ← src.elems arrays
  let n := min src.len dst.len
  match dst.array with
  | none => pure 0
  | some p =>
    let cells ← arrays.deref (some p)
    Table.write p (xs.take n ++ cells.drop n)
    pure n

/-- The capacity that the GopherJS runtime gives a slice that has to grow. -/
def grownCap (cap newLen : Nat) : Nat :=
  max newLen (if cap < 1024 then cap * 2 else cap * 5 / 4)

/-- `append(s, v)`: in place while the capacity lasts, else into a new array. -/
def append (zero : α) (s : Slice α) (v : α) : Exec (Table (List α)) (Slice α) := do
  let arrays ← MonadState.get
  if s.cap < s.len + 1 then do
    let xs ← s.elems arrays
    let newCap := grownCap s.cap (s.len + 1)
    let p ← Table.alloc (xs ++ v :: List.replicate (newCap - (s.len + 1)) zero)
    pure ⟨some p, s.len + 1, newCap⟩
  else match s.array with
    | none => throw .nilDereference
    | some p => do
      let cells ← arrays.deref (some p)
      Table.write p (cells.set s.len v)
      pure ⟨some p, s.len + 1, s.cap⟩

/-- The slice is well formed and its elements are `xs`. -/
def Denotes (arrays : Table (List α)) (s : Slice α) (xs : List α) : Prop :=
  match s.array with
  | none => s.len = 0 ∧ s.cap = 0 ∧ xs = []
  | some p => ∃ cells, arrays.read p = some cells ∧ cells.length = s.cap ∧ s.len ≤ s.cap ∧
      cells.take s.len = xs

/-- The backing array is younger than the table `t`. -/
def Owned (t : Table (List α)) (s : Slice α) : Prop :=
  ∀ p, s.array = some p → t.cells.length ≤ p.addr

theorem owned_nil (t : Table (List α)) : Owned t nil := by
  intro p same
  contradiction

theorem denotes_nil (t : Table (List α)) : nil.Denotes t [] := ⟨rfl, rfl, rfl⟩

theorem Denotes.mono {s : Slice α} (grown : t ≤ u) (denotes : s.Denotes t xs) :
    s.Denotes u xs := by
  obtain ⟨array, len, cap⟩ := s
  cases array with
  | none => exact denotes
  | some p =>
    obtain ⟨cells, found, rest⟩ := denotes
    exact ⟨cells, Table.read_mono grown found, rest⟩

theorem Denotes.length {s : Slice α} (denotes : s.Denotes t xs) : xs.length = s.len := by
  obtain ⟨array, len, cap⟩ := s
  cases array with
  | none =>
    obtain ⟨empty, _, rfl⟩ := denotes
    exact empty.symm
  | some p =>
    obtain ⟨cells, _, size, bound, rfl⟩ := denotes
    exact List.length_take_of_le (size ▸ bound)

theorem Denotes.elems {s : Slice α} (denotes : s.Denotes t xs) : s.elems t = .ok xs := by
  obtain ⟨array, len, cap⟩ := s
  cases array with
  | none =>
    obtain ⟨_, _, rfl⟩ := denotes
    rfl
  | some p =>
    obtain ⟨cells, found, _, _, rfl⟩ := denotes
    simp only [Slice.elems, Table.deref_some found]
    rfl

theorem Denotes.get {s : Slice α} (denotes : s.Denotes t xs) (k : Nat) (found : xs[k]? = some v) :
    s.get t k = .ok v := by
  simp only [Slice.get, denotes.elems, ok_bind, found]
  rfl

theorem stable_elems (s : Slice α) : Stable (fun t => s.elems t) := by
  unfold elems
  split
  · exact .const _
  · exact (Table.stable_deref _).bind (fun _ => .const _)

theorem stable_get (s : Slice α) (i : Int) : Stable (fun t => s.get t i) :=
  (stable_elems s).bind (fun _ => .const _)

theorem make_returns (zero : α) (n : Nat) (t : Table (List α)) :
    Returns (make zero n) t (fun s u => t ≤ u ∧ s.Owned t ∧ s.Denotes u (List.replicate n zero)) := by
  refine (Table.alloc_returns t _).bind (fun p u ⟨grown, fresh, found⟩ => returns_pure ?_)
  refine ⟨grown, ?_, _, found, by simp, le_rfl, by simp⟩
  intro q same
  cases same
  exact fresh.ge

theorem literal_returns (xs : List α) (t : Table (List α)) :
    Returns (literal xs) t (fun s u => t ≤ u ∧ s.Denotes u xs) := by
  refine (Table.alloc_returns t _).bind (fun p u ⟨grown, _, found⟩ => returns_pure ?_)
  exact ⟨grown, _, found, rfl, le_rfl, List.take_length⟩

/-- An in-place assignment to an owned slice leaves the older table alone. -/
theorem set_returns {s : Slice α} (grown : t ≤ u) (owned : s.Owned t) (denotes : s.Denotes u xs)
    (k : Nat) (within : k < xs.length) (v : α) :
    Returns (s.set k v) u (fun _ after => t ≤ after ∧ s.Denotes after (xs.set k v)) := by
  have bound := denotes.length ▸ within
  obtain ⟨array, len, cap⟩ := s
  cases array with
  | none => exact absurd bound (denotes.1 ▸ Nat.not_lt_zero k)
  | some p =>
    obtain ⟨cells, found, size, fits, rfl⟩ := denotes
    refine returns_get_bind ?_
    simp only [if_pos bound]
    refine returns_lift_bind (Table.deref_some found) (Table.write_returns ?_)
    refine ⟨Table.le_replace grown (owned p rfl), _, Table.read_replace found, ?_, fits, ?_⟩
    · simpa only [List.length_set] using size
    · exact List.take_set

/-- Copying between slices of one length makes the target hold the source's elements. -/
theorem copy_returns {dst src : Slice α} (grown : t ≤ u) (owned : dst.Owned t)
    (source : src.Denotes u xs) (target : dst.Denotes u ys) (lengths : xs.length = ys.length) :
    Returns (copy dst src) u (fun _ after => t ≤ after ∧ dst.Denotes after xs) := by
  have srcLen := source.length
  have dstLen := target.length
  refine returns_get_bind (returns_lift_bind source.elems ?_)
  obtain ⟨array, len, cap⟩ := dst
  cases array with
  | none =>
    obtain ⟨empty, full, rfl⟩ := target
    obtain rfl : xs = [] := List.eq_nil_of_length_eq_zero lengths
    exact returns_pure ⟨grown, empty, full, rfl⟩
  | some p =>
    obtain ⟨cells, found, size, fits, rfl⟩ := target
    refine returns_lift_bind (Table.deref_some found) ?_
    refine (Table.write_returns ?_).bind (fun _ _ done => returns_pure done)
    simp only at srcLen dstLen lengths size fits ⊢
    have whole : min src.len len = xs.length := by omega
    rw [whole, List.take_length]
    refine ⟨Table.le_replace grown (owned p rfl), _, Table.read_replace found, ?_, fits, ?_⟩
    · simp only [List.length_append, List.length_drop]
      omega
    · rw [← dstLen, ← lengths, List.take_left]

/-- Appending to an owned slice never writes into the older table, whether or
not the backing array still has room. -/
theorem append_returns {s : Slice α} (zero v : α) (grown : t ≤ u) (owned : s.Owned t)
    (denotes : s.Denotes u xs) :
    Returns (append zero s v) u
      (fun r after => t ≤ after ∧ r.Owned t ∧ r.Denotes after (xs ++ [v])) := by
  have sameLen := denotes.length
  refine returns_get_bind ?_
  split
  · refine returns_lift_bind denotes.elems ?_
    refine (Table.alloc_returns u _).bind (fun p after ⟨grown', fresh, found⟩ => returns_pure ?_)
    refine ⟨grown.trans grown', ?_, _, found, ?_, ?_, ?_⟩
    · intro q same
      cases same
      exact fresh ▸ grown.length_le
    · simp only [List.length_append, List.length_cons, List.length_replicate, sameLen, grownCap]
      omega
    · exact le_max_left _ _
    · change List.take (s.len + 1) _ = _
      rw [← sameLen, List.take_append, List.take_of_length_le (Nat.le_succ _)]
      simp
  · rename_i room
    obtain ⟨array, len, cap⟩ := s
    cases array with
    | none =>
      obtain ⟨_, full, _⟩ := denotes
      simp only at full room
      omega
    | some p =>
      obtain ⟨cells, found, size, fits, rfl⟩ := denotes
      refine returns_lift_bind (Table.deref_some found) ?_
      refine (Table.write_returns ?_).bind (fun _ _ done => returns_pure done)
      simp only at size fits room sameLen ⊢
      refine ⟨Table.le_replace grown (owned p rfl), owned, _, Table.read_replace found, ?_, ?_, ?_⟩
      · simpa only [List.length_set] using size
      · exact Nat.le_of_not_lt room
      · rw [List.take_succ_eq_append_getElem (by simp; omega), List.take_set_of_le le_rfl,
          List.getElem_set_self]

end Slice
end GoCore
