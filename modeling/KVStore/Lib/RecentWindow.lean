import Mathlib.Data.List.DropRight
import Mathlib.Data.List.Nodup

/-!
# The most recent entries of an append-only log

A bounded view of an append-only log shows its last `n` entries, `l.rtake n`. Appending to the view
and cutting it back to `n` entries is the view of the appended log (`rtake_rtake_append`), so a
reader that only ever holds the view can maintain it. An entry leaves the view only after `n` later
entries (`mem_rtake_append`), and an entry of a duplicate-free log that left the view is not in it
again (`getElem_notMem_rtake`).
-/

namespace RecentWindow

universe u v

variable {α : Type u} {β : Type v} {l m : List α} {k n : Nat} {a : α}

theorem length_rtake (l : List α) (n : Nat) : (l.rtake n).length = min n l.length := by
  simp only [List.rtake, List.length_drop]
  omega

theorem rtake_of_length_le (h : l.length ≤ n) : l.rtake n = l := by
  simp [List.rtake, Nat.sub_eq_zero_of_le h]

theorem mem_of_mem_rtake (h : a ∈ l.rtake n) : a ∈ l :=
  List.mem_of_mem_drop h

theorem map_rtake (f : α → β) (l : List α) (n : Nat) :
    (l.map f).rtake n = (l.rtake n).map f := by
  simp [List.rtake, List.map_drop]

/-- The view after appending `m` is computed from the view before. -/
theorem rtake_rtake_append (l m : List α) (n : Nat) :
    (l.rtake n ++ m).rtake n = (l ++ m).rtake n := by
  rcases Nat.le_total l.length n with h | h
  · rw [rtake_of_length_le h]
  · have hle : l.length - n ≤ l.length := Nat.sub_le _ _
    simp only [List.rtake, List.length_append, List.length_drop]
    rw [← List.drop_append_of_le_length hle, List.drop_drop]
    congr 1
    omega

theorem map_rtake_append (f : α → β) (l : List α) (a : α) (n : Nat) :
    ((l ++ [a]).rtake n).map f = ((l.rtake n).map f ++ [f a]).rtake n := by
  rw [← rtake_rtake_append, ← map_rtake, List.map_append, List.map_singleton]

/-- A full view starts with the entry `n` places from the end. -/
theorem rtake_eq_cons (h : n ≤ l.length) (hn : 0 < n) :
    l.rtake n = l[l.length - n] :: l.drop (l.length - n + 1) :=
  List.drop_eq_getElem_cons (by omega)

/-- Appending to a view keeps all but its oldest place. -/
theorem rtake_append_singleton (hn : 0 < n) :
    (l ++ [a]).rtake n = l.rtake (n - 1) ++ [a] := by
  simp only [List.rtake, List.length_append, List.length_singleton]
  rw [List.drop_append_of_le_length (by omega)]
  congr 2
  omega

theorem rtake_sublist_rtake (h : k ≤ n) : (l.rtake k).Sublist (l.rtake n) :=
  List.drop_sublist_drop_left l (by omega)

/-- An entry of the view stays in it while fewer than `n` entries have been appended after it. -/
theorem mem_rtake_append (h : m.length < n) : a ∈ (l ++ [a] ++ m).rtake n := by
  simp only [List.rtake, List.length_append, List.length_singleton]
  rw [List.append_assoc, List.mem_drop_iff_getElem]
  refine ⟨l.length - (l.length + 1 + m.length - n), by simp; omega, ?_⟩
  rw [List.getElem_append_right (by omega)]
  have hzero : l.length + 1 + m.length - n + (l.length - (l.length + 1 + m.length - n))
      - l.length = 0 := by omega
  simp only [hzero]
  rfl

theorem mem_rtake_or_eq (h : a ∈ (l ++ m).rtake n) : a ∈ l.rtake n ∨ a ∈ m := by
  rw [← rtake_rtake_append] at h
  exact List.mem_append.mp (mem_of_mem_rtake h)

/-- An entry of a duplicate-free log that lies before the view is not in the view. -/
theorem getElem_notMem_rtake (hl : l.Nodup) {i : Nat} (hi : i < l.length - n) :
    l[i] ∉ l.rtake n := by
  intro h
  obtain ⟨j, hj, he⟩ := List.mem_drop_iff_getElem.mp h
  have := hl.getElem_inj_iff.mp he
  omega

/-- The entries of a log outside its view are those before it. -/
theorem getElem_of_notMem_rtake (h : a ∈ l) (hn : a ∉ l.rtake n) :
    ∃ i, ∃ hi : i < l.length - n, l[i] = a := by
  obtain ⟨i, hi, rfl⟩ := List.getElem_of_mem h
  refine ⟨i, ?_, rfl⟩
  by_contra hlt
  apply hn
  rw [List.rtake, List.mem_drop_iff_getElem]
  exact ⟨i - (l.length - n), by omega, by congr 1; omega⟩

end RecentWindow
