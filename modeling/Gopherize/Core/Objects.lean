import Gopherize.Core.Fault
import Mathlib.Logic.Function.Basic

/-! Objects with named properties, as a host language keeps them. A property holds
a reference to another object or a boxed value of the program. -/
namespace GoCore

inductive Objects.Value (β : Type) where
  | undefined
  | null
  | object (id : Nat)
  | boxed (b : β)

/-- The objects with an identity below `size` exist. -/
structure Objects (β : Type) where
  prop : Nat → String → Option (Objects.Value β)
  size : Nat

namespace Objects
variable {β : Type}

def empty : Objects β := ⟨fun _ _ => none, 0⟩

/-- `new Object()`. -/
def new (h : Objects β) : Nat × Objects β :=
  (h.size, ⟨Function.update h.prop h.size (fun _ => none), h.size + 1⟩)

def get (h : Objects β) (v : Value β) (name : String) : Except Fault (Value β) :=
  match v with
  | .object o => pure ((h.prop o name).getD .undefined)
  | .boxed _ => pure .undefined
  | _ => throw (.panicked ("cannot read property " ++ name))

/-- The objects after an assignment to a property of `o`. -/
def assign (h : Objects β) (o : Nat) (name : String) (x : Value β) : Objects β :=
  { h with prop := Function.update h.prop o (Function.update (h.prop o) name (some x)) }

def set (h : Objects β) (v : Value β) (name : String) (x : Value β) : Except Fault (Objects β) :=
  match v with
  | .object o => pure (h.assign o name x)
  | _ => throw (.panicked ("cannot set property " ++ name))

/-- `name in v`; there is no answer when `v` is not an object. -/
def has (h : Objects β) (v : Value β) (name : String) : Option Bool :=
  match v with
  | .object o => some (h.prop o name).isSome
  | .boxed _ => some false
  | _ => none

@[simp] theorem new_fst (h : Objects β) : h.new.1 = h.size := rfl

@[simp] theorem size_new (h : Objects β) : h.new.2.size = h.size + 1 := rfl

@[simp] theorem prop_new_self (h : Objects β) : h.new.2.prop h.size = fun _ => none :=
  Function.update_self ..

theorem prop_new (h : Objects β) (old : o < h.size) : h.new.2.prop o = h.prop o :=
  Function.update_of_ne (Nat.ne_of_lt old) ..

@[simp] theorem get_object (h : Objects β) (o : Nat) (name : String) :
    h.get (.object o) name = .ok ((h.prop o name).getD .undefined) := rfl

@[simp] theorem set_object (h : Objects β) (o : Nat) (name : String) (x : Value β) :
    h.set (.object o) name x = .ok (h.assign o name x) := rfl

@[simp] theorem size_assign (h : Objects β) (o : Nat) (name : String) (x : Value β) :
    (h.assign o name x).size = h.size := rfl

@[simp] theorem prop_assign_self (h : Objects β) (o : Nat) (name : String) (x : Value β) :
    (h.assign o name x).prop o name = some x := by
  simp [assign]

@[simp] theorem prop_assign_name (h : Objects β) (o : Nat) (x : Value β) (other : name' ≠ name) :
    (h.assign o name x).prop o name' = h.prop o name' := by
  simp [assign, other]

theorem prop_assign (h : Objects β) (name : String) (x : Value β) (other : q ≠ o) :
    (h.assign o name x).prop q = h.prop q :=
  Function.update_of_ne other ..

end Objects
end GoCore
