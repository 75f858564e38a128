import Mathlib.Data.List.Basic

/-!
# Runs of a labelled step relation

A step relation `step s e s'` says that from `s` a step labelled `e` may lead to `s'`. A run keeps
the trace of its steps: for each one the state it was taken from and its label, in order. Conditions
on the steps of a run are conditions on the members of its trace, and the states a run passes
through are the states of its trace together with the last one.

The rules: `Run.invariant` (what every step preserves holds at the end), `Run.trans` and `Run.cons`
(runs compose), `Run.step_of_mem` (the trace holds steps), `throughout_snoc` (what holds in all
states of a run), `replay_run` (a schedule that takes steps is a run).
-/

namespace Transition

universe u u' v v' w

variable {σ : Type u} {ε : Type v}

/-- Runs from `s₀`, with the trace of their steps. -/
inductive Run (step : σ → ε → σ → Prop) (s₀ : σ) : List (σ × ε) → σ → Prop
  | nil : Run step s₀ [] s₀
  | snoc {tr : List (σ × ε)} {s s' : σ} {e : ε} (h : Run step s₀ tr s) (hs : step s e s') :
      Run step s₀ (tr ++ [(s, e)]) s'

variable {step step' : σ → ε → σ → Prop} {s₀ s s' : σ} {e : ε} {tr tr' : List (σ × ε)}

/-- What holds at the start and is preserved by every step of a run holds at its end. -/
theorem Run.invariant {P : List (σ × ε) → σ → Prop} (h0 : P [] s₀)
    (hs : ∀ {tr s e s'}, Run step s₀ tr s → P tr s → step s e s' → P (tr ++ [(s, e)]) s')
    (h : Run step s₀ tr s) : P tr s := by
  induction h with
  | nil => exact h0
  | snoc h h' ih => exact hs h ih h'

theorem Run.mono (hle : ∀ {s e s'}, step s e s' → step' s e s') (h : Run step s₀ tr s) :
    Run step' s₀ tr s := by
  induction h with
  | nil => exact .nil
  | snoc _ h' ih => exact ih.snoc (hle h')

theorem Run.trans (h : Run step s₀ tr s) (h' : Run step s tr' s') :
    Run step s₀ (tr ++ tr') s' := by
  induction h' with
  | nil => simpa using h
  | snoc _ hs ih =>
    rw [← List.append_assoc]
    exact ih.snoc hs

theorem Run.cons (hs : step s₀ e s) (h : Run step s tr s') : Run step s₀ ((s₀, e) :: tr) s' :=
  (Run.nil.snoc hs).trans h

theorem Run.step_of_mem (h : Run step s₀ tr s) {p : σ × ε} (hp : p ∈ tr) :
    ∃ s', step p.1 p.2 s' := by
  induction h with
  | nil => cases hp
  | snoc _ hs ih =>
    rcases List.mem_append.mp hp with hp | hp
    · exact ih hp
    · obtain rfl := List.mem_singleton.mp hp
      exact ⟨_, hs⟩

/-- A run has reached every state of its trace, and gone on from there. -/
theorem Run.split_of_mem (h : Run step s₀ tr s) {p : σ × ε} (hp : p ∈ tr) :
    ∃ tr₁ tr₂, tr = tr₁ ++ p :: tr₂ ∧ Run step s₀ tr₁ p.1 ∧ Run step p.1 (p :: tr₂) s := by
  induction h with
  | nil => cases hp
  | @snoc tr s s' e h hs ih =>
    rcases List.mem_append.mp hp with hp | hp
    · obtain ⟨tr₁, tr₂, rfl, h₁, h₂⟩ := ih hp
      exact ⟨tr₁, tr₂ ++ [(s, e)], List.append_assoc .., h₁, h₂.snoc hs⟩
    · obtain rfl := List.mem_singleton.mp hp
      exact ⟨tr, [], rfl, h, Run.nil.snoc hs⟩

/-- A run is a run of what its steps are seen as. -/
theorem Run.map {σ' : Type u'} {ε' : Type v'} {step' : σ' → ε' → σ' → Prop} {f : σ → σ'}
    {g : ε → ε'} (hstep : ∀ {s e s'}, step s e s' → step' (f s) (g e) (f s'))
    (h : Run step s₀ tr s) : Run step' (f s₀) (tr.map fun p => (f p.1, g p.2)) (f s) := by
  induction h with
  | nil => exact .nil
  | snoc _ hs ih =>
    rw [List.map_append]
    exact ih.snoc (hstep hs)

/-- A property of the trace so far and the state holds in every state of a run. -/
def Throughout (Q : List (σ × ε) → σ → Prop) (tr : List (σ × ε)) (s : σ) : Prop :=
  (∀ tr₁ p tr₂, tr = tr₁ ++ p :: tr₂ → Q tr₁ p.1) ∧ Q tr s

theorem throughout_nil {Q : List (σ × ε) → σ → Prop} : Throughout Q [] s ↔ Q [] s := by
  refine and_iff_right fun tr₁ p tr₂ h => ?_
  cases tr₁ <;> cases h

theorem throughout_snoc {Q : List (σ × ε) → σ → Prop} :
    Throughout Q (tr ++ [(s, e)]) s' ↔ Throughout Q tr s ∧ Q (tr ++ [(s, e)]) s' := by
  refine and_congr_left fun _ => ⟨fun h => ⟨fun tr₁ p tr₂ he => ?_, ?_⟩, ?_⟩
  · apply h tr₁ p (tr₂ ++ [(s, e)])
    rw [he, List.append_assoc]
    rfl
  · exact h tr (s, e) [] rfl
  · rintro ⟨h, hlast⟩ tr₁ p tr₂ he
    rcases List.eq_nil_or_concat tr₂ with rfl | ⟨tr₃, q, rfl⟩
    · obtain ⟨rfl, hp⟩ := List.append_inj' he rfl
      cases hp
      exact hlast
    · rw [List.concat_eq_append, ← List.cons_append, ← List.append_assoc] at he
      exact h tr₁ p tr₃ (List.append_inj' he rfl).1

/-! ## Schedules -/

/-- The trace and the last state of a schedule: `next` is the step that a letter of the schedule
takes, if it can take one. -/
def replay {α : Type w} (next : σ → α → Option (ε × σ)) : List α → σ → List (σ × ε) × σ
  | [], s => ([], s)
  | a :: schedule, s =>
    match next s a with
    | none => replay next schedule s
    | some (e, s') => ((s, e) :: (replay next schedule s').1, (replay next schedule s').2)

/-- A schedule whose letters take steps is replayed by a run. -/
theorem replay_run {α : Type w} {next : σ → α → Option (ε × σ)} {schedule : List α} {s : σ}
    (h : ∀ a ∈ schedule, ∀ {s e s'}, next s a = some (e, s') → step s e s') :
    Run step s (replay next schedule s).1 (replay next schedule s).2 := by
  induction schedule generalizing s with
  | nil => exact .nil
  | cons a schedule ih =>
    have htail := fun s => @ih s fun b hb => h b (List.mem_cons_of_mem _ hb)
    rw [replay]
    split
    · exact htail s
    · next e s' he => exact Run.cons (h a List.mem_cons_self he) (htail s')

end Transition
