import Mathlib.Logic.Basic

/-!
# Loops that must end

`run body unfinished` repeats the body of a loop on its state; it fails with `unfinished` when the
given number of rounds is not enough. The rules are for total correctness. `run_returns`: a body
that keeps an invariant and lowers a measure ends within as many rounds as the measure says.
`run_simulates`: it then returns what a function does that takes the same rounds.
-/

namespace Rounds

universe u v w

/-- How a round of a loop ends. -/
inductive Round (σ : Type u) (β : Type v)
  | again (s : σ)
  | done (b : β)

variable {ε ε' : Type w} {σ : Type u} {α β : Type v}

/-- At most so many rounds of a loop. -/
def run (body : σ → Except ε (Round σ β)) (unfinished : ε) : Nat → σ → Except ε β
  | 0, _ => .error unfinished
  | rounds + 1, s =>
    match body s with
    | .error e => .error e
    | .ok (.done b) => .ok b
    | .ok (.again s') => run body unfinished rounds s'

/-- A computation returns, with a result as described. -/
def Returns (x : Except ε α) (P : α → Prop) : Prop := ∃ a, x = .ok a ∧ P a

variable {body : σ → Except ε (Round σ β)} {unfinished : ε} {m : σ → Nat} {P : σ → Prop}
  {Q : β → Prop} {rounds n : Nat} {s : σ}

/-- A loop returns when each round of it does, keeps the invariant and lowers the measure. -/
theorem run_returns
    (hbody : ∀ s, P s → (∃ b, body s = .ok (.done b) ∧ Q b) ∨
      ∃ s', body s = .ok (.again s') ∧ P s' ∧ m s' < m s)
    (hs : P s) (hrounds : m s < rounds) : Returns (run body unfinished rounds s) Q := by
  induction rounds generalizing s with
  | zero => cases hrounds
  | succ rounds ih =>
    rw [run]
    rcases hbody s hs with ⟨b, hdone, hb⟩ | ⟨s', hagain, hs', hlt⟩
    · rw [hdone]
      exact ⟨b, rfl, hb⟩
    · rw [hagain]
      exact ih hs' (Nat.lt_of_lt_of_le hlt (Nat.le_of_lt_succ hrounds))

/-- `other` stops where the loop stops, and otherwise goes on with one round less. -/
theorem run_simulates (other : Nat → σ → Except ε' β)
    (hbody : ∀ s, P s → (∃ b, body s = .ok (.done b) ∧ Q b ∧ other 0 s = .ok b ∧
        ∀ n, other (n + 1) s = .ok b) ∨
      ∃ s', body s = .ok (.again s') ∧ P s' ∧ m s' < m s ∧
        ∀ n, other (n + 1) s = other n s')
    (hs : P s) (hrounds : m s < rounds) (hn : m s ≤ n) :
    Returns (run body unfinished rounds s) fun b => Q b ∧ other n s = .ok b := by
  induction rounds generalizing s n with
  | zero => cases hrounds
  | succ rounds ih =>
    rw [run]
    rcases hbody s hs with ⟨b, hdone, hb, hzero, hother⟩ | ⟨s', hagain, hs', hlt, hother⟩
    · rw [hdone]
      refine ⟨b, rfl, hb, ?_⟩
      cases n with
      | zero => exact hzero
      | succ n => exact hother n
    · obtain ⟨n, rfl⟩ : ∃ k, n = k + 1 :=
        Nat.exists_eq_succ_of_ne_zero (Nat.ne_of_gt (Nat.lt_of_lt_of_le (Nat.zero_lt_of_lt hlt) hn))
      have hrounds' := Nat.lt_of_lt_of_le hlt (Nat.le_of_lt_succ hrounds)
      have hn' := Nat.le_of_lt_succ (Nat.lt_of_lt_of_le hlt hn)
      rw [hagain, hother]
      exact ih hs' hrounds' hn'

/-- The rule for a loop without an invariant. -/
theorem run_agrees (other : Nat → σ → Except ε' β)
    (hbody : ∀ s, (∃ b, body s = .ok (.done b) ∧ other 0 s = .ok b ∧
        ∀ n, other (n + 1) s = .ok b) ∨
      ∃ s', body s = .ok (.again s') ∧ m s' < m s ∧ ∀ n, other (n + 1) s = other n s')
    (hrounds : m s < rounds) (hn : m s ≤ n) :
    Returns (run body unfinished rounds s) fun b => other n s = .ok b := by
  have hrun : Returns (run body unfinished rounds s) fun b => True ∧ other n s = .ok b := by
    refine run_simulates other (P := fun _ => True) (fun s _ => ?_) trivial hrounds hn
    rcases hbody s with ⟨b, hdone, hother⟩ | ⟨s', hagain, hother⟩
    · exact Or.inl ⟨b, hdone, trivial, hother⟩
    · exact Or.inr ⟨s', hagain, trivial, hother⟩
  obtain ⟨b, hb, -, hother⟩ := hrun
  exact ⟨b, hb, hother⟩

end Rounds
