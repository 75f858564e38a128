import KVStore.Lib.Run
import Mathlib.Logic.Function.Basic

/-!
# Memo tables

A request is answered with the entry under its key, which is created when it is missing. Entries
stay for good (`Step.mono`): all answers under a key are the entry (`answered_of_run`), which some
request with this key created (`created_of_run`).
-/

namespace Memo

open Transition

universe u v w

variable {α : Type u} {κ : Type v} {β : Type w} [DecidableEq κ]

/-- A request with its answer, or `none` for what leaves the table alone. -/
inductive Step (key : α → κ) (table : κ → Option β) : Option (α × β) → (κ → Option β) → Prop
  | idle : Step key table none table
  | hit {a : α} {v : β} (h : table (key a) = some v) : Step key table (some (a, v)) table
  | create {a : α} {v : β} (h : table (key a) = none) :
      Step key table (some (a, v)) (Function.update table (key a) (some v))

variable {key : α → κ} {table table' : κ → Option β} {e : Option (α × β)} {k : κ} {v : β}

/-- Entries are neither replaced nor removed. -/
theorem Step.mono (hs : Step key table e table') (h : table k = some v) : table' k = some v := by
  cases hs with
  | @create a v' hnone =>
    by_cases hk : k = key a
    · subst hk
      cases hnone.symm.trans h
    · rw [Function.update_of_ne hk]
      exact h
  | _ => exact h

theorem Step.answered {a : α} (hs : Step key table (some (a, v)) table') :
    table' (key a) = some v := by
  cases hs with
  | hit h => exact h
  | create => exact Function.update_self ..

/-- An entry is an old one, or was created by the request. -/
theorem Step.created (hs : Step key table e table') (h : table' k = some v) :
    table k = some v ∨ table k = none ∧ ∃ a, e = some (a, v) ∧ key a = k := by
  cases hs with
  | @create a v' hnone =>
    by_cases hk : k = key a
    · subst hk
      rw [Function.update_self] at h
      obtain rfl := Option.some.inj h
      exact Or.inr ⟨hnone, a, rfl, rfl⟩
    · rw [Function.update_of_ne hk] at h
      exact Or.inl h
  | _ => exact Or.inl h

variable {tr : List ((κ → Option β) × Option (α × β))}

/-- Every answer is the entry under its key. -/
theorem answered_of_run {table₀ : κ → Option β} (h : Run (Step key) table₀ tr table) :
    ∀ p ∈ tr, ∀ a v, p.2 = some (a, v) → table (key a) = some v := by
  induction h with
  | nil => exact fun p hp => absurd hp List.not_mem_nil
  | snoc _ hs ih =>
    intro p hp a v he
    rcases List.mem_append.mp hp with hp | hp
    · exact hs.mono (ih p hp a v he)
    · obtain rfl := List.mem_singleton.mp hp
      obtain rfl := he
      exact hs.answered

/-- Every entry was created by a request with its key. -/
theorem created_of_run (h : Run (Step key) (fun _ => none) tr table) (hv : table k = some v) :
    ∃ p ∈ tr, ∃ a, p.2 = some (a, v) ∧ key a = k ∧ p.1 k = none := by
  induction h with
  | nil => cases hv
  | snoc _ hs ih =>
    rcases hs.created hv with hold | ⟨hnone, a, rfl, hk⟩
    · obtain ⟨p, hp, hrest⟩ := ih hold
      exact ⟨p, List.mem_append_left _ hp, hrest⟩
    · exact ⟨_, List.mem_append_right _ (List.mem_singleton_self _), a, rfl, hk, hnone⟩

end Memo
