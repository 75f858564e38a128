import KVStore.Lib.TextSearch

/-!
# Replacing a pair of symbols

`replaceLoop a b c` is the loop that searches for the pair `a b`, puts `c` in its place and goes on
behind it. It reads the text once, from left to right (`replaceLoop_eq`): `replacePairs`.
-/

namespace TextSearch

universe u

variable {α : Type u} [DecidableEq α]

/-- The loop from position `pos` on. Every round shortens the text, so its length is fuel enough
(`replaceLoop_eq`). -/
def replaceLoop (a b c : α) : Nat → List α → Nat → List α
  | 0, s, _ => s
  | fuel + 1, s, pos =>
    match find s [a, b] pos with
    | none => s
    | some p => replaceLoop a b c fuel (s.take p ++ c :: s.drop (p + 2)) (p + 1)

/-- Each pair `a b`, from left to right, becomes `c`. -/
def replacePairs (a b c : α) : List α → List α
  | [] => []
  | [x] => [x]
  | x :: y :: s =>
    if x = a ∧ y = b then c :: replacePairs a b c s else x :: replacePairs a b c (y :: s)

variable {a b c x y : α} {s t : List α}

@[simp] theorem replacePairs_nil : replacePairs a b c [] = [] := rfl

@[simp] theorem replacePairs_pair :
    replacePairs a b c (a :: b :: s) = c :: replacePairs a b c s := by
  simp [replacePairs]

/-- A symbol that does not begin a pair stays. -/
theorem replacePairs_cons (h : ¬ (x = a ∧ s.head? = some b)) :
    replacePairs a b c (x :: s) = x :: replacePairs a b c s := by
  cases s with
  | nil => rfl
  | cons y s =>
    rw [replacePairs, if_neg]
    rintro ⟨rfl, rfl⟩
    exact h ⟨rfl, rfl⟩

theorem replacePairs_cons_ne (h : x ≠ a) :
    replacePairs a b c (x :: s) = x :: replacePairs a b c s :=
  replacePairs_cons fun he => h he.1

theorem replacePairs_cons_cons_ne (h : y ≠ b) :
    replacePairs a b c (x :: y :: s) = x :: replacePairs a b c (y :: s) :=
  replacePairs_cons fun he => h (Option.some.inj he.2)

theorem isPrefixOf_pair : [a, b].isPrefixOf (x :: s) = true ↔ x = a ∧ s.head? = some b := by
  rw [List.isPrefixOf_iff_prefix, List.cons_prefix_cons, eq_comm]
  cases s with
  | nil => simp
  | cons y s => simp [List.cons_prefix_cons, eq_comm]

theorem replacePairs_of_none {i : Nat} (h : findFrom [a, b] s i = none) :
    replacePairs a b c s = s := by
  induction s generalizing i with
  | nil => rfl
  | cons x s ih =>
    rw [findFrom] at h
    split at h
    · cases h
    · next hno => rw [replacePairs_cons (mt isPrefixOf_pair.mpr hno), ih h]

theorem replacePairs_of_some {i j : Nat} (h : findFrom [a, b] s i = some j) :
    ∃ u v, s = u ++ a :: b :: v ∧ j = i + u.length ∧
      replacePairs a b c s = u ++ c :: replacePairs a b c v := by
  induction s generalizing i with
  | nil => cases h
  | cons x s ih =>
    rw [findFrom] at h
    split at h
    · next hpair =>
      cases h
      obtain ⟨rfl, hhead⟩ := isPrefixOf_pair.mp hpair
      obtain ⟨v, rfl⟩ := List.head?_eq_some_iff.mp hhead
      exact ⟨[], v, rfl, rfl, replacePairs_pair⟩
    · next hno =>
      obtain ⟨u, v, rfl, rfl, he⟩ := ih h
      refine ⟨x :: u, v, rfl, ?_, ?_⟩
      · rw [List.length_cons]
        omega
      · rw [replacePairs_cons (mt isPrefixOf_pair.mpr hno), he]
        rfl

/-- The loop replaces the pairs of the text from its position on. -/
theorem replaceLoop_eq {fuel : Nat} (hfuel : s.length ≤ fuel) (t : List α) :
    replaceLoop a b c fuel (t ++ s) t.length = t ++ replacePairs a b c s := by
  induction fuel generalizing s t with
  | zero =>
    obtain rfl := List.length_eq_zero_iff.mp (Nat.le_zero.mp hfuel)
    rfl
  | succ fuel ih =>
    have hle : t.length ≤ (t ++ s).length := by
      rw [List.length_append]
      exact Nat.le_add_right ..
    rw [replaceLoop, find_of_le hle, List.drop_left]
    cases hfind : findFrom [a, b] s t.length with
    | none => rw [replacePairs_of_none hfind]
    | some p =>
      obtain ⟨u, v, rfl, rfl, he⟩ := replacePairs_of_some (c := c) hfind
      have htake : (t ++ (u ++ a :: b :: v)).take (t.length + u.length) = t ++ u := by
        rw [← List.append_assoc, ← List.length_append, List.take_left]
      have hdrop : (t ++ (u ++ a :: b :: v)).drop (t.length + u.length + 2) = v := by
        rw [← List.append_assoc, ← List.length_append, ← List.drop_drop, List.drop_left]
        rfl
      have hlen : (t ++ u ++ [c]).length = t.length + u.length + 1 := by
        simp only [List.length_append, List.length_singleton]
      have hrest : v.length ≤ fuel := by
        simp only [List.length_append, List.length_cons] at hfuel
        omega
      have hnext := ih hrest (t ++ u ++ [c])
      rw [hlen, List.append_assoc (t ++ u), List.singleton_append] at hnext
      dsimp only
      rw [htake, hdrop, he, hnext]
      simp only [List.append_assoc, List.singleton_append]

end TextSearch
