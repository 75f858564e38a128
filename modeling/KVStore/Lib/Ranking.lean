import KVStore.Lib.Run
import Mathlib.Algebra.BigOperators.Group.Finset.Basic
import Mathlib.Algebra.Order.BigOperators.Group.Finset
import Mathlib.Data.Fintype.Basic

/-!
# Runs that end

When every step of a run lowers a rank, the run is as short as the rank is small
(`Run.length_add_le`), and some continuation of it ends in a state without a step
(`Run.exists_stuck`). When the steps belong to parties, and a step lowers the rank of its own party
and raises no other, the bound is one for each party (`Run.countP_add_le`) and their sum for the
whole run (`sum_rank_lt`).
-/

namespace Transition

universe u v w

variable {σ : Type u} {ε : Type v} {step : σ → ε → σ → Prop} {s₀ s : σ} {tr : List (σ × ε)}

section

variable (rank : σ → Nat)
  (hrank : ∀ {tr s e s'}, Run step s₀ tr s → step s e s' → rank s' < rank s)
include hrank

theorem Run.length_add_le (h : Run step s₀ tr s) : tr.length + rank s ≤ rank s₀ := by
  induction h with
  | nil => simp
  | snoc h hs ih =>
    have hlt := hrank h hs
    rw [List.length_append, List.length_singleton]
    omega

/-- Every run can be continued until no step is left. -/
theorem Run.exists_stuck (h : Run step s₀ tr s) :
    ∃ tr' s', Run step s tr' s' ∧ ∀ e s'', ¬ step s' e s'' := by
  induction hn : rank s using Nat.strong_induction_on generalizing tr s with
  | _ n ih =>
    by_cases hstuck : ∀ e s'', ¬ step s e s''
    · exact ⟨[], s, .nil, hstuck⟩
    · push Not at hstuck
      obtain ⟨e, s₁, hs⟩ := hstuck
      obtain ⟨tr', s', hrun, hend⟩ := ih (rank s₁) (hn ▸ hrank h hs) (h.snoc hs) rfl
      exact ⟨(s, e) :: tr', s', Run.cons hs hrun, hend⟩

end

section

variable {ι : Type w} [DecidableEq ι] {party : ε → ι} (rank : ι → σ → Nat)

/-- A party takes no more steps than its rank. -/
theorem Run.countP_add_le
    (hown : ∀ {tr s e s'}, Run step s₀ tr s → step s e s' → rank (party e) s' < rank (party e) s)
    (hother : ∀ {s e s' i}, step s e s' → i ≠ party e → rank i s' ≤ rank i s)
    (h : Run step s₀ tr s) (i : ι) :
    (tr.countP fun p => party p.2 = i) + rank i s ≤ rank i s₀ := by
  induction h with
  | nil => simp
  | @snoc tr s s' e h hs ih =>
    rw [List.countP_append, List.countP_singleton]
    by_cases hi : party e = i
    · have hlt := hown h hs
      rw [hi] at hlt
      rw [if_pos (decide_eq_true hi)]
      omega
    · have hle := hother hs (Ne.symm hi)
      rw [if_neg (by simpa using hi)]
      omega

omit [DecidableEq ι] in
theorem sum_rank_lt [Fintype ι] {s s' : σ} {i : ι} (hown : rank i s' < rank i s)
    (hother : ∀ k ≠ i, rank k s' ≤ rank k s) : ∑ k, rank k s' < ∑ k, rank k s := by
  refine Finset.sum_lt_sum (fun k _ => ?_) ⟨i, Finset.mem_univ i, hown⟩
  rcases eq_or_ne k i with rfl | hne
  · exact hown.le
  · exact hother k hne

end

end Transition
