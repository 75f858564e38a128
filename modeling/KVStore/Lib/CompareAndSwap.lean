import KVStore.Lib.Run

/-!
# Compare-and-swap with repeated and late requests

A register of a system whose every write takes a new tag from a clock. A compare-and-swap names the
tag of the value that it was computed from, and goes through when the register still has it.
`Register.swaps_increasing`: the tags of those that go through increase. So a request that is
repeated, or comes late, goes through at most once.
-/

namespace CompareAndSwap

open Transition

universe u v

structure Register {σ : Type u} {ε : Type v} (step : σ → ε → σ → Prop) where
  /-- The tag of the value, if there is one. -/
  tag : σ → Option Nat
  clock : σ → Nat
  /-- The tag named by the compare-and-swap of a step that goes through. -/
  swapped : σ → ε → Option Nat
  step_clock : ∀ {s e s'}, step s e s' → clock s ≤ clock s'
  step_tag : ∀ {s e s'}, step s e s' → ∀ t ∈ tag s', t ∈ tag s ∨ t = clock s ∧ clock s < clock s'
  step_swapped : ∀ {s e s'}, step s e s' → ∀ t ∈ swapped s e, t ∈ tag s ∧ clock s < clock s' ∧
    ∀ t' ∈ tag s', t' = clock s

variable {σ : Type u} {ε : Type v} {step : σ → ε → σ → Prop} (R : Register step)

namespace Register

/-- The tags of the compare-and-swaps that went through, in that order. -/
def swaps (tr : List (σ × ε)) : List Nat :=
  tr.filterMap fun p => R.swapped p.1 p.2

structure Ordered (tr : List (σ × ε)) (s : σ) : Prop where
  tag_lt : ∀ t ∈ R.tag s, t < R.clock s
  swaps_lt : ∀ t ∈ R.swaps tr, t < R.clock s
  swaps_lt_tag : ∀ t ∈ R.swaps tr, ∀ t' ∈ R.tag s, t < t'
  increasing : (R.swaps tr).Pairwise (· < ·)

variable {R} {s₀ s s' : σ} {e : ε} {tr : List (σ × ε)}

theorem swaps_snoc : R.swaps (tr ++ [(s, e)]) = R.swaps tr ++ (R.swapped s e).toList := by
  unfold swaps
  rw [List.filterMap_append, List.filterMap_cons, List.filterMap_nil]
  cases R.swapped s e <;> rfl

theorem Ordered.initial (h : ∀ t ∈ R.tag s₀, t < R.clock s₀) : R.Ordered [] s₀ where
  tag_lt := h
  swaps_lt _ ht := by cases ht
  swaps_lt_tag _ ht := by cases ht
  increasing := .nil

theorem Ordered.snoc (h : R.Ordered tr s) (hs : step s e s') :
    R.Ordered (tr ++ [(s, e)]) s' := by
  have hclock := R.step_clock hs
  have htag := R.step_tag hs
  have hswapped := R.step_swapped hs
  have hlt : ∀ t ∈ R.swapped s e, t < R.clock s ∧ R.clock s < R.clock s' := fun t ht =>
    ⟨h.tag_lt t (hswapped t ht).1, (hswapped t ht).2.1⟩
  refine ⟨fun t ht => ?_, ?_, ?_, ?_⟩
  · rcases htag t ht with ht | ⟨rfl, hlt⟩
    · exact Nat.lt_of_lt_of_le (h.tag_lt t ht) hclock
    · exact hlt
  · rw [swaps_snoc, List.forall_mem_append]
    refine ⟨fun t ht => Nat.lt_of_lt_of_le (h.swaps_lt t ht) hclock, fun t ht => ?_⟩
    obtain ⟨hold, hnew⟩ := hlt t (Option.mem_toList.mp ht)
    exact Nat.lt_trans hold hnew
  · rw [swaps_snoc, List.forall_mem_append]
    refine ⟨fun t ht t' ht' => ?_, fun t ht t' ht' => ?_⟩
    · rcases htag t' ht' with ht' | ⟨rfl, -⟩
      · exact h.swaps_lt_tag t ht t' ht'
      · exact h.swaps_lt t ht
    · have ht := Option.mem_toList.mp ht
      rw [(hswapped t ht).2.2 t' ht']
      exact (hlt t ht).1
  · rw [swaps_snoc, List.pairwise_append]
    refine ⟨h.increasing, ?_, fun t ht t' ht' => ?_⟩
    · cases R.swapped s e
      · exact .nil
      · exact List.pairwise_singleton _ _
    · exact h.swaps_lt_tag t ht t' (hswapped t' (Option.mem_toList.mp ht')).1

/-- The tags of the compare-and-swaps that go through increase. -/
theorem swaps_increasing (h₀ : ∀ t ∈ R.tag s₀, t < R.clock s₀) (h : Run step s₀ tr s) :
    (R.swaps tr).Pairwise (· < ·) :=
  (Run.invariant (P := R.Ordered) (Ordered.initial h₀) (fun _ ih hs => ih.snoc hs) h).increasing

end Register

end CompareAndSwap
