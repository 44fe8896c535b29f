import LinProg.Simplex.Solve

/-!
# Loops that end

A loop of rounds ends by itself when a measure falls with every round that asks for another one.
-/

namespace LinProg

/-- What a step preserves survives a loop, whatever its fuel. -/
theorem rounds_preserves {σ : Type} {step : σ → σ × Bool} {I : σ → Prop}
    (hstep : ∀ s, I s → I (step s).1) : ∀ (fuel : Nat) (s : σ), I s → I (rounds step fuel s).1
  | 0, _, hs => hs
  | fuel + 1, s, hs => by
    have hnext := hstep s hs
    rw [rounds]
    split
    next next heq => exact rounds_preserves hstep fuel next (by rwa [heq] at hnext)
    next last heq => rwa [heq] at hnext

/-- A loop without fuel, which repeats a step while it asks for more, ends in a state. -/
inductive Ends {σ : Type} (step : σ → σ × Bool) : σ → σ → Prop
  | stop {s last : σ} (h : step s = (last, false)) : Ends step s last
  | again {s next last : σ} (h : step s = (next, true)) (rest : Ends step next last) :
      Ends step s last

/-- A loop that ends does so with a step that asks for no other. -/
theorem Ends.last_step {σ : Type} {step : σ → σ × Bool} {I : σ → Prop} {s last : σ}
    (hstep : ∀ s, I s → (step s).2 = true → I (step s).1) (h : Ends step s last) (hs : I s) :
    ∃ s', I s' ∧ step s' = (last, false) := by
  induction h with
  | stop h => exact ⟨_, hs, h⟩
  | again h _ ih =>
    have hnext := hstep _ hs (by rw [h])
    rw [h] at hnext
    exact ih hnext

/-- With a measure below its fuel a loop is the one without fuel, and asks for no more. -/
theorem rounds_ends {σ : Type} {step : σ → σ × Bool} {I : σ → Prop} {μ : σ → Nat}
    (hstep : ∀ s, I s → (step s).2 = true → I (step s).1 ∧ μ (step s).1 < μ s) :
    ∀ (fuel : Nat) (s : σ), I s → μ s < fuel →
      Ends step s (rounds step fuel s).1 ∧ (rounds step fuel s).2 = false
  | 0, _, _, hfuel => absurd hfuel (Nat.not_lt_zero _)
  | fuel + 1, s, hs, hfuel => by
    rw [rounds]
    split
    next next hnext =>
      obtain ⟨hinv, hless⟩ := hstep s hs (by rw [hnext])
      rw [hnext] at hinv hless
      have hrest := rounds_ends hstep fuel next hinv
        (Nat.lt_of_lt_of_le hless (Nat.le_of_lt_succ hfuel))
      exact ⟨.again hnext hrest.1, hrest.2⟩
    next last hlast => exact ⟨.stop hlast, rfl⟩

end LinProg
