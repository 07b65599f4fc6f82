import Mathlib.Data.List.Forall2
import Mathlib.Order.Defs.PartialOrder

/-! Go computations that may panic, with total-correctness rules. A run either
returns a value and a state or stops in a run-time panic; `Returns` claims that
the run does return, so every result stated with it also excludes panics. -/
namespace GoCore

/-- The run-time panics of indexing, of pointer use and of library calls, and `unmodelled` for a
state that a model has no place for; `Returns` excludes it with the panics. -/
inductive Panic where
  | indexOutOfRange (index : Int) (length : Nat)
  | nilDereference
  | invalidArgument
  | unmodelled
  deriving DecidableEq, Repr

abbrev Exec (S : Type) := StateT S (Except Panic)

@[simp] theorem ok_bind (a : α) (f : α → Except Panic β) : (Except.ok a >>= f) = f a := rfl

@[simp] theorem error_bind (e : Panic) (f : α → Except Panic β) :
    ((Except.error e : Except Panic α) >>= f) = .error e := rfl

@[simp] theorem pure_eq_ok (a : α) : (pure a : Except Panic α) = .ok a := rfl

theorem bind_eq_ok {x : Except Panic α} {f : α → Except Panic β} :
    (x >>= f) = .ok b ↔ ∃ a, x = .ok a ∧ f a = .ok b := by
  cases x with
  | error e => simp
  | ok a => simp

section Returns
variable {S T : Type}

/-- Running `m` from `s` returns, and the outcome satisfies `post`. -/
def Returns (m : Exec S α) (s : S) (post : α → S → Prop) : Prop :=
  ∃ a t, m.run s = .ok (a, t) ∧ post a t

theorem returns_pure {post : α → S → Prop} (holds : post a s) :
    Returns (pure a) s post := ⟨a, s, rfl, holds⟩

theorem returns_run_bind {m : Exec S α} {f : α → Exec S β} (ran : m.run s = .ok (a, t))
    (rest : Returns (f a) t post) : Returns (m >>= f) s post := by
  obtain ⟨b, u, continued, done⟩ := rest
  refine ⟨b, u, ?_, done⟩
  rw [StateT.run_bind, ran]
  exact continued

theorem run_bind_eq_ok {m : Exec S α} {f : α → Exec S β} :
    (m >>= f).run s = .ok r ↔ ∃ a t, m.run s = .ok (a, t) ∧ (f a).run t = .ok r := by
  rw [StateT.run_bind, bind_eq_ok, Prod.exists]

theorem Returns.bind {m : Exec S α} {f : α → Exec S β} (first : Returns m s mid)
    (rest : ∀ a t, mid a t → Returns (f a) t post) : Returns (m >>= f) s post := by
  obtain ⟨a, t, ran, reached⟩ := first
  exact returns_run_bind ran (rest a t reached)

theorem Returns.mono {m : Exec S α} (returned : Returns m s mid)
    (weaker : ∀ a t, mid a t → post a t) : Returns m s post := by
  obtain ⟨a, t, ran, reached⟩ := returned
  exact ⟨a, t, ran, weaker a t reached⟩

/-- Runs are deterministic, so the actual outcome is the one described. -/
theorem Returns.outcome {m : Exec S α} (returned : Returns m s post)
    (ran : m.run s = .ok (a, t)) : post a t := by
  obtain ⟨b, u, same, holds⟩ := returned
  rw [ran] at same
  cases same
  exact holds

theorem returns_get_bind {f : S → Exec S α} (rest : Returns (f s) s post) :
    Returns (get >>= f) s post := rest

theorem returns_modify {post : Unit → S → Prop} (f : S → S) (holds : post () (f s)) :
    Returns (modify f : Exec S Unit) s post := ⟨(), f s, rfl, holds⟩

theorem lift_eq_ok {x : Except Panic α} :
    (liftM x : Exec S α).run s = .ok (a, t) ↔ x = .ok a ∧ t = s := by
  constructor
  · intro ran
    obtain ⟨b, ready, same⟩ := bind_eq_ok.mp ran
    cases same
    exact ⟨ready, rfl⟩
  · rintro ⟨rfl, rfl⟩
    rfl

theorem returns_lift_bind {x : Except Panic α} {f : α → Exec S β} (ready : x = .ok a)
    (rest : Returns (f a) s post) : Returns (liftM x >>= f) s post := by
  subst ready
  exact rest

/-- Run a computation on one component of a larger state. -/
def Exec.zoom (get : S → T) (set : T → S → S) (m : Exec T α) : Exec S α := fun s => do
  let (a, t) ← m.run (get s)
  pure (a, set t s)

theorem zoom_eq_ok {m : Exec T α} {get : S → T} {set : T → S → S}
    (ran : (m.zoom get set).run s = .ok (a, s')) : ∃ t, m.run (get s) = .ok (a, t) ∧ s' = set t s := by
  obtain ⟨⟨b, t⟩, inner, same⟩ := bind_eq_ok.mp ran
  cases same
  exact ⟨t, inner, rfl⟩

theorem returns_zoom {m : Exec T α} {get : S → T} {set : T → S → S}
    (returned : Returns m (get s) post) :
    Returns (m.zoom get set) s (fun a s' => ∃ t, s' = set t s ∧ post a t) := by
  obtain ⟨a, t, ran, holds⟩ := returned
  refine ⟨a, set t s, ?_, t, rfl, holds⟩
  simp only [Exec.zoom, StateT.run] at ran ⊢
  rw [ran]
  rfl

end Returns

section Readers
variable {H : Type} [Preorder H]

/-- A reader whose successful results survive every growth of the store. -/
def Stable (read : H → Except Panic α) : Prop :=
  ∀ ⦃before after a⦄, before ≤ after → read before = .ok a → read after = .ok a

theorem Stable.const (x : Except Panic α) : Stable (fun _ : H => x) :=
  fun _ _ _ _ done => done

theorem Stable.bind {read : H → Except Panic α} {next : α → H → Except Panic β}
    (first : Stable read) (rest : ∀ a, Stable (next a)) :
    Stable (fun h => read h >>= fun a => next a h) := by
  intro before after b grown done
  obtain ⟨a, initial, final⟩ := bind_eq_ok.mp done
  exact bind_eq_ok.mpr ⟨a, first grown initial, rest a grown final⟩

theorem Stable.foldlM {step : β → α → H → Except Panic β} (stable : ∀ acc x, Stable (step acc x))
    (xs : List α) (acc : β) : Stable (fun h => xs.foldlM (fun acc x => step acc x h) acc) := by
  induction xs generalizing acc with
  | nil => exact .const _
  | cons x xs ih => simpa only [List.foldlM_cons] using (stable acc x).bind (fun acc => ih acc)

theorem Stable.mapM {read : α → H → Except Panic β} (stable : ∀ x, Stable (read x))
    (xs : List α) : Stable (fun h => xs.mapM (fun x => read x h)) := by
  induction xs with
  | nil => exact .const _
  | cons x xs ih =>
    simpa only [List.mapM_cons] using
      (stable x).bind (fun y => ih.bind (fun ys => .const (pure (y :: ys))))

end Readers

section Loops

/-- A loop that appends one result per element is a map over the elements. -/
theorem foldlM_collect (f : α → Except Panic β) (xs : List α) (acc : List β) :
    xs.foldlM (fun acc x => do pure (acc ++ [← f x])) acc =
      (do pure (acc ++ (← xs.mapM f))) := by
  induction xs generalizing acc with
  | nil => simp
  | cons x xs ih =>
    simp only [List.foldlM_cons, List.mapM_cons]
    cases f x with
    | error e => rfl
    | ok y =>
      simp only [ok_bind, pure_bind, ih, bind_assoc, List.append_assoc, List.singleton_append]

theorem mapM_eq_ok {f : α → Except Panic β} {xs : List α} {ys : List β} :
    xs.mapM f = .ok ys ↔ List.Forall₂ (fun x y => f x = .ok y) xs ys := by
  induction xs generalizing ys with
  | nil =>
    rw [List.mapM_nil, List.forall₂_nil_left_iff]
    exact ⟨fun same => (Except.ok.inj same).symm, fun same => same ▸ rfl⟩
  | cons x xs ih =>
    simp only [List.mapM_cons, bind_eq_ok, ih]
    constructor
    · rintro ⟨y, head, ys, tail, same⟩
      cases same
      exact .cons head tail
    · rintro (_ | ⟨head, tail⟩)
      exact ⟨_, head, _, tail, rfl⟩

end Loops

end GoCore
