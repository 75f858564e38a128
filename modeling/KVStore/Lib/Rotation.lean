import Mathlib.Data.Int.CardIntervalMod

/-!
# Turns of a rotation

`k` places take turns: after `j` turns from `start` on it is the turn of `turn k start j`, and
`advance k` goes from one place to the next. Over any number of turns, two places have had as many
turns as each other, up to one (`count_turns`), and in a round each has one (`turns_perm_range`).
-/

namespace Rotation

/-- The place whose turn comes after `j` others. -/
def turn (k start j : Nat) : Nat := (start + j) % k

/-- The place after `i`, and the first one after the last. -/
def advance (k i : Nat) : Nat := if i + 1 < k then i + 1 else 0

/-- The places of the first `n` turns. -/
def turns (k start n : Nat) : List Nat := (List.range n).map (turn k start)

variable {k start i j n : Nat}

theorem turn_lt (hk : 0 < k) : turn k start j < k := Nat.mod_lt _ hk

theorem turn_zero (h : start < k) : turn k start 0 = start := Nat.mod_eq_of_lt h

theorem advance_turn (hk : 0 < k) : advance k (turn k start j) = turn k start (j + 1) := by
  have hlt : turn k start j < k := turn_lt hk
  have hmod : (start + (j + 1)) % k = ((start + j) % k + 1) % k := by
    rw [← Nat.add_assoc, Nat.mod_add_mod]
  unfold advance turn at *
  rw [hmod]
  split
  · next h => rw [Nat.mod_eq_of_lt h]
  · next h =>
    have hlast : (start + j) % k + 1 = k := by omega
    rw [hlast, Nat.mod_self]

@[simp] theorem turns_zero : turns k start 0 = [] := rfl

theorem turns_succ : turns k start (n + 1) = turns k start n ++ [turn k start n] := by
  simp [turns, List.range_succ]

@[simp] theorem length_turns : (turns k start n).length = n := by simp [turns]

/-- Nobody has a second turn before all have had one. -/
theorem nodup_turns (h : n ≤ k) : (turns k start n).Nodup := by
  apply List.Nodup.map_on _ List.nodup_range
  intro i hi j hj hij
  rw [List.mem_range] at hi hj
  have hmod : i ≡ j [MOD k] := Nat.ModEq.add_left_cancel' start hij
  rwa [Nat.ModEq, Nat.mod_eq_of_lt (hi.trans_le h), Nat.mod_eq_of_lt (hj.trans_le h)] at hmod

/-- A whole round. -/
theorem turns_perm_range : (turns k start k).Perm (List.range k) := by
  have hsub : turns k start k ⊆ List.range k := by
    intro i hi
    obtain ⟨j, hj, rfl⟩ := List.mem_map.mp hi
    exact List.mem_range.mpr (turn_lt (Nat.zero_lt_of_lt (List.mem_range.mp hj)))
  refine (List.subperm_of_subset (nodup_turns le_rfl) hsub).perm_of_length_le ?_
  rw [length_turns, List.length_range]

/-- The turns of one place are those in one residue class. -/
theorem turn_eq_iff (hi : i < k) : turn k start j = i ↔ j ≡ i + (k - start % k) [MOD k] := by
  have hk : 0 < k := Nat.zero_lt_of_lt hi
  have hstart : start + (i + (k - start % k)) ≡ i [MOD k] := by
    have hsum : start + (i + (k - start % k)) = i + k * (start / k + 1) := by
      have hdiv := Nat.div_add_mod start k
      have hmod := Nat.mod_lt start hk
      rw [Nat.mul_add, Nat.mul_one]
      omega
    rw [hsum]
    exact Nat.add_mul_mod_self_left i k _
  constructor
  · intro h
    have hturn : start + j ≡ i [MOD k] := by
      rw [Nat.ModEq, Nat.mod_eq_of_lt hi]
      exact h
    exact Nat.ModEq.add_left_cancel' start (hturn.trans hstart.symm)
  · intro h
    have hturn := (h.add_left start).trans hstart
    rw [Nat.ModEq, Nat.mod_eq_of_lt hi] at hturn
    exact hturn

theorem count_turns_eq (hi : i < k) :
    (turns k start n).count i = Nat.count (· ≡ i + (k - start % k) [MOD k]) n := by
  induction n with
  | zero => simp
  | succ n ih =>
    rw [turns_succ, List.count_append, ih, Nat.count_succ, List.count_singleton]
    congr 1
    simp only [beq_iff_eq, turn_eq_iff hi]

/-- **A rotation is fair**: each place has had `n / k` of the first `n` turns, rounded down or
up. -/
theorem count_turns (hi : i < k) :
    (turns k start n).count i = n / k ∨ (turns k start n).count i = (n + k - 1) / k := by
  have hk : 0 < k := Nat.zero_lt_of_lt hi
  rw [count_turns_eq hi, Nat.count_modEq_card n hk]
  split
  · next hlt =>
    right
    have hmod := Nat.mod_lt n hk
    have hup : n + k - 1 = (n % k - 1) + k * (n / k + 1) := by
      have hdiv := Nat.div_add_mod n k
      rw [Nat.mul_add, Nat.mul_one]
      omega
    have hsmall : (n % k - 1) / k = 0 := Nat.div_eq_of_lt (by omega)
    rw [hup, Nat.add_mul_div_left _ _ hk, hsmall, Nat.zero_add]
  · left
    rw [Nat.add_zero]

end Rotation
