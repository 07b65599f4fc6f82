import Gopherize.Core.Fault

/-! Stateful computations seen through what their state shows. Many concrete states show the
same abstract one; a computation `Runs` at an abstract state when it returns from all
of them, with one result and ends that show one abstract state. -/
namespace GoCore

variable {σ ν ε α β : Type} {shows : σ → ν → Prop} {v w : ν}

def Runs (shows : σ → ν → Prop) (p : StateT σ (Except ε) α) (v : ν) (post : α → ν → Prop) : Prop :=
  ∃ a w, post a w ∧ ∀ z, shows z v → ∃ z', p z = .ok (a, z') ∧ shows z' w

namespace Runs

variable {p : StateT σ (Except ε) α} {f : α → StateT σ (Except ε) β} {post : α → ν → Prop}

theorem imp {weaker : α → ν → Prop} (h : Runs shows p v post)
    (weaken : ∀ a w, post a w → weaker a w) : Runs shows p v weaker := by
  obtain ⟨a, w, holds, run⟩ := h
  exact ⟨a, w, weaken a w holds, run⟩

theorem done {a : α} (holds : post a v) :
    Runs shows (pure a : StateT σ (Except ε) α) v post :=
  ⟨a, v, holds, fun z shown => ⟨z, rfl, shown⟩⟩

theorem bind {after : β → ν → Prop} (h : Runs shows p v post)
    (rest : ∀ a w, post a w → Runs shows (f a) w after) : Runs shows (p >>= f) v after := by
  obtain ⟨a, w, holds, first⟩ := h
  obtain ⟨b, u, result, second⟩ := rest a w holds
  refine ⟨b, u, result, fun z shown => ?_⟩
  obtain ⟨z', ran, shown'⟩ := first z shown
  obtain ⟨z'', ran', shown''⟩ := second z' shown'
  exact ⟨z'', by simp [Bind.bind, StateT.bind, ran, Except.bind, ran'], shown''⟩

theorem seq {after : β → ν → Prop} (h : Runs shows p v fun a w => Runs shows (f a) w after) :
    Runs shows (p >>= f) v after :=
  h.bind fun _ _ rest => rest

/-- What a computation reads of the state is given by what the state shows. -/
theorem read {g : σ → StateT σ (Except ε) α} (same : ∀ z, shows z v → g z = p)
    (h : Runs shows p v post) : Runs shows (get >>= g) v post := by
  obtain ⟨a, w, holds, run⟩ := h
  refine ⟨a, w, holds, fun z shown => ?_⟩
  obtain ⟨z', ran, shown'⟩ := run z shown
  refine ⟨z', ?_, shown'⟩
  rw [← ran, ← same z shown]
  rfl

theorem update {g : σ → σ} {post : Unit → ν → Prop} (moves : ∀ z, shows z v → shows (g z) w)
    (holds : post () w) : Runs shows (modify g : StateT σ (Except ε) Unit) v post :=
  ⟨(), w, holds, fun z shown => ⟨g z, rfl, moves z shown⟩⟩

end Runs

end GoCore
