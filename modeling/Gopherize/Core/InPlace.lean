import Gopherize.Core.Fault

/-! Rewriting a slice in place. A loop that writes no further than it has read never overwrites
what it has still to read, and ends with the slice that it would have built anew. -/
namespace GoCore.InPlace

variable {α : Type} {b written rest : List α} {dst src n : Nat}

/-- Write all of `out` into `b` from position `dst` on; a write behind the end panics. -/
def put (b : List α) (dst : Nat) (out : List α) : Except Fault (List α) :=
  if dst + out.length ≤ b.length then
    .ok (b.take dst ++ out ++ b.drop (dst + out.length))
  else .error (.panicked "index out of range")

theorem put_eq {out : List α} (inside : dst + out.length ≤ b.length) :
    put b dst out = .ok (b.take dst ++ out ++ b.drop (dst + out.length)) :=
  if_pos inside

/-- Two lists of one length that differ at most between two positions. -/
structure Within (low high : Nat) (b b' : List α) : Prop where
  length : b'.length = b.length
  before : b'.take low = b.take low
  behind : b'.drop high = b.drop high

section Within
variable {b' b'' : List α} {low high lower higher : Nat}

theorem Within.refl (low high : Nat) (b : List α) : Within low high b b := ⟨rfl, rfl, rfl⟩

theorem Within.trans (first : Within low high b b') (second : Within low high b' b'') :
    Within low high b b'' :=
  ⟨second.length.trans first.length, second.before.trans first.before,
    second.behind.trans first.behind⟩

theorem Within.mono (within : Within low high b b') (left : lower ≤ low) (right : high ≤ higher) :
    Within lower higher b b' := by
  refine ⟨within.length, ?_, ?_⟩
  · have before := congrArg (List.take lower) within.before
    rwa [List.take_take, List.take_take, Nat.min_eq_left left] at before
  · have behind := congrArg (List.drop (higher - high)) within.behind
    rwa [List.drop_drop, List.drop_drop, Nat.add_sub_cancel' right] at behind

/-- A range before the difference. -/
theorem Within.part_before {i j : Nat} (within : Within low high b b') (order : j ≤ low) :
    (b'.take j).drop i = (b.take j).drop i := by
  rw [(within.mono order (Nat.le_refl high)).before]

/-- A range behind the difference. -/
theorem Within.part_behind {i j : Nat} (within : Within low high b b') (order : high ≤ i) :
    (b'.take j).drop i = (b.take j).drop i := by
  rw [List.drop_take, List.drop_take, (within.mono (Nat.le_refl low) order).behind]

theorem put_within {out : List α} (inside : dst + out.length ≤ b.length) (fits : n ≤ out.length) :
    ∃ b', put b dst out = .ok b' ∧ Within dst (dst + out.length) b b' ∧
      (b'.take (dst + n)).drop dst = out.take n := by
  have taken : (b.take dst).length = dst := by
    rw [List.length_take]
    omega
  refine ⟨_, put_eq inside, ⟨?_, ?_, ?_⟩, ?_⟩
  · simp only [List.length_append, taken, List.length_drop]
    omega
  · rw [List.append_assoc, List.take_left' taken]
  · rw [List.drop_left' (by rw [List.length_append, taken])]
  · rw [List.drop_take, List.append_assoc, List.drop_left' taken, Nat.add_sub_cancel_left,
      List.take_append_of_le_length fits]

end Within

/-- A loop has written up to `dst` and read up to `src`. -/
structure Sweep (b : List α) (dst src : Nat) (written rest : List α) : Prop where
  written : b.take dst = written
  rest : b.drop src = rest
  order : dst ≤ src
  inside : src ≤ b.length

theorem Sweep.start (inside : n ≤ b.length) : Sweep b n n (b.take n) (b.drop n) :=
  ⟨rfl, rfl, Nat.le_refl n, inside⟩

/-- The next `n` elements are replaced by no more than `n`. -/
theorem Sweep.put (sweep : Sweep b dst src written rest) (out : List α) (fits : out.length ≤ n)
    (left : n ≤ rest.length) :
    ∃ b', InPlace.put b dst out = .ok b' ∧ b'.length = b.length ∧
      Sweep b' (dst + out.length) (src + n) (written ++ out) (rest.drop n) := by
  have order := sweep.order
  have length : rest.length = b.length - src := by
    rw [← sweep.rest, List.length_drop]
  have inside := sweep.inside
  have taken : (b.take dst).length = dst := by
    rw [List.length_take]
    omega
  refine ⟨_, put_eq (by omega), ?_, ?_, ?_, by omega, ?_⟩
  · simp only [List.length_append, taken, List.length_drop]
    omega
  · rw [← sweep.written, List.take_left' (by rw [List.length_append, taken])]
  · -- what is left to read lies behind the write
    have behind : src + n = (b.take dst ++ out).length + (src + n - (dst + out.length)) := by
      rw [List.length_append, taken]
      omega
    rw [behind, List.drop_length_add_append, List.drop_drop, ← sweep.rest, List.drop_drop]
    congr 1
    omega
  · simp only [List.length_append, taken, List.length_drop]
    omega

/-- Leave out an element. -/
theorem Sweep.skip {c : α} (sweep : Sweep b dst src written (c :: rest)) :
    Sweep b dst (src + 1) written rest := by
  have order := sweep.order
  have length := congrArg List.length sweep.rest
  rw [List.length_drop, List.length_cons] at length
  refine ⟨sweep.written, ?_, by omega, by omega⟩
  rw [← List.drop_drop, sweep.rest, List.drop_one, List.tail_cons]

/-- Pass an element that stays where it is. -/
theorem Sweep.pass {c : α} (sweep : Sweep b n n written (c :: rest)) :
    Sweep b (n + 1) (n + 1) (written ++ [c]) rest := by
  have skip := sweep.skip
  refine ⟨?_, skip.rest, Nat.le_refl _, skip.inside⟩
  rw [List.take_add, sweep.written, sweep.rest, List.take_succ_cons, List.take_zero]

/-- What replaces the front of a list, and how many elements it replaces. -/
abbrev Step (α : Type) := List α → List α × Nat

/-- A step goes on, stays inside and never makes the list longer. -/
structure Shrinks (step : Step α) : Prop where
  some : ∀ s ≠ [], 0 < (step s).2
  inside : ∀ s ≠ [], (step s).2 ≤ s.length
  fits : ∀ s ≠ [], (step s).1.length ≤ (step s).2

/-- The list with all steps taken. -/
def rewrite (step : Step α) : List α → List α
  | [] => []
  | c :: cs => (step (c :: cs)).1 ++ rewrite step (cs.drop ((step (c :: cs)).2 - 1))
termination_by s => s.length
decreasing_by
  simp only [List.length_drop, List.length_cons]
  omega

variable {step : Step α}

@[simp] theorem rewrite_nil : rewrite step [] = [] := by
  rw [rewrite]

theorem Shrinks.rewrite_eq (shrinks : Shrinks step) {s : List α} (some : s ≠ []) :
    rewrite step s = (step s).1 ++ rewrite step (s.drop (step s).2) := by
  obtain ⟨c, cs, rfl⟩ := List.exists_cons_of_ne_nil some
  have positive := shrinks.some (c :: cs) some
  rw [rewrite]
  conv_rhs => rw [show (step (c :: cs)).2 = (step (c :: cs)).2 - 1 + 1 by omega, List.drop_succ_cons]

/-- A loop that replaces the front of what is left by a step, in place, until nothing is left, ends
with the list rewritten. -/
theorem Sweep.loop {loop : Nat → List α → Nat → Nat → Except Fault (List α × Nat)}
    (shrinks : Shrinks step)
    (stop : ∀ fuel b dst src, b.drop src = [] → loop (fuel + 1) b dst src = .ok (b, dst))
    (next : ∀ fuel b b' dst src c cs, b.drop src = c :: cs →
      InPlace.put b dst (step (c :: cs)).1 = .ok b' → loop (fuel + 1) b dst src =
        loop fuel b' (dst + (step (c :: cs)).1.length) (src + (step (c :: cs)).2))
    (fuel : Nat) (sweep : Sweep b dst src written rest) (enough : rest.length < fuel) :
    ∃ b' n, loop fuel b dst src = .ok (b', n) ∧ b'.take n = written ++ rewrite step rest ∧
      b'.length = b.length ∧ n ≤ b'.length := by
  induction fuel generalizing b dst src written rest with
  | zero => omega
  | succ fuel ih =>
    cases rest with
    | nil =>
      have written := sweep.written
      refine ⟨b, dst, stop fuel b dst src sweep.rest, ?_, rfl, Nat.le_trans sweep.order sweep.inside⟩
      rw [written, rewrite_nil, List.append_nil]
    | cons c cs =>
      have some := List.cons_ne_nil c cs
      have progress := shrinks.some _ some
      have left := shrinks.inside _ some
      obtain ⟨b₁, done, length, sweep₁⟩ := sweep.put _ (shrinks.fits _ some) left
      have fewer : ((c :: cs).drop (step (c :: cs)).2).length < fuel := by
        rw [List.length_drop]
        omega
      obtain ⟨b', n, ran, result, length', inside⟩ := ih sweep₁ fewer
      refine ⟨b', n, ?_, ?_, length'.trans length, inside⟩
      · rw [next fuel b b₁ dst src c cs sweep.rest done, ran]
      · rw [result, shrinks.rewrite_eq some, List.append_assoc]

end GoCore.InPlace
