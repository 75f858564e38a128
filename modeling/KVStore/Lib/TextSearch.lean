import Mathlib.Data.List.Infix

/-!
# Substring search and substrings

`find s pat pos` is the offset of the first occurrence of `pat` in `s` that starts at `pos` or
later, and `substr s pos count` the at most `count` symbols from `pos` on (`none` when `pos` lies
past the end). A search is evaluated piece by piece: it skips a prefix that cannot start an
occurrence (`findFrom_append`, `findFrom_cons_ne`) and stops at an occurrence (`findFrom_self`).
-/

namespace TextSearch

universe u

variable {α : Type u} [DecidableEq α]

/-- The first occurrence of `pat` in a text whose first symbol has offset `i`. -/
def findFrom (pat : List α) : List α → Nat → Option Nat
  | [], i => if pat = [] then some i else none
  | a :: s, i => if pat.isPrefixOf (a :: s) then some i else findFrom pat s (i + 1)

def find (s pat : List α) (pos : Nat) : Option Nat :=
  if pos ≤ s.length then findFrom pat (s.drop pos) pos else none

def substr (s : List α) (pos count : Nat) : Option (List α) :=
  if pos ≤ s.length then some ((s.drop pos).take count) else none

/-- What stands before and behind the first `c`. -/
def cut (c : α) : List α → Option (List α × List α)
  | [] => none
  | a :: s => if a = c then some ([], s) else (cut c s).map fun p => (a :: p.1, p.2)

variable {s t pre pat : List α} {a c : α} {i j pos : Nat}

/-! ## Evaluating a search -/

theorem findFrom_self (pat s : List α) (i : Nat) : findFrom pat (pat ++ s) i = some i := by
  cases h : pat ++ s with
  | nil => simp [findFrom, (List.append_eq_nil_iff.mp h).1]
  | cons a t =>
    have : pat.isPrefixOf (a :: t) = true := by
      rw [List.isPrefixOf_iff_prefix, ← h]
      exact List.prefix_append _ _
    simp [findFrom, this]

theorem findFrom_cons_ne (h : pat.isPrefixOf (a :: s) = false) :
    findFrom pat (a :: s) i = findFrom pat s (i + 1) := by
  simp [findFrom, h]

theorem isPrefixOf_append_eq_false (hne : pre ≠ []) (hc : c ∉ pre) :
    (c :: pat).isPrefixOf (pre ++ s) = false := by
  obtain ⟨a, t, rfl⟩ := List.exists_cons_of_ne_nil hne
  have hca : (c == a) = false := by
    simpa using fun e : c = a => hc (e ▸ List.mem_cons_self)
  simp [List.isPrefixOf, hca]

/-- A search skips symbols other than the first one of the pattern. -/
theorem findFrom_append {i : Nat} (h : c ∉ pre) :
    findFrom (c :: pat) (pre ++ s) i = findFrom (c :: pat) s (i + pre.length) := by
  induction pre generalizing i with
  | nil => rfl
  | cons a pre ih =>
    have hne : (c == a) = false := by
      simpa using fun e : c = a => h (e ▸ List.mem_cons_self)
    rw [List.cons_append, findFrom_cons_ne (by simp [List.isPrefixOf, hne]),
      ih (fun hm => h (List.mem_cons_of_mem _ hm)), List.length_cons]
    congr 1
    omega

theorem findFrom_none {i : Nat} (h : c ∉ s) : findFrom (c :: pat) s i = none := by
  induction s generalizing i with
  | nil => simp [findFrom]
  | cons a s ih =>
    have hne : (c == a) = false := by
      simpa using fun e : c = a => h (e ▸ List.mem_cons_self)
    rw [findFrom_cons_ne (by simp [List.isPrefixOf, hne])]
    exact ih fun hm => h (List.mem_cons_of_mem _ hm)

omit [DecidableEq α] in
/-- An occurrence at the start that cannot reach beyond a symbol ends before it. -/
theorem prefix_of_notMem (hc : c ∉ pat) (h : pat <+: pre ++ c :: s) : pat <+: pre := by
  rcases Nat.le_total pat.length pre.length with hle | hle
  · exact List.prefix_of_prefix_length_le h (List.prefix_append _ _) hle
  · obtain ⟨t, ht⟩ := List.prefix_of_prefix_length_le (List.prefix_append pre (c :: s)) h hle
    subst ht
    rw [List.prefix_append_right_inj] at h
    cases t with
    | nil => simp
    | cons d t =>
      obtain ⟨rfl, -⟩ := List.cons_prefix_cons.mp h
      exact absurd (List.mem_append_right _ List.mem_cons_self) hc

/-- A search skips a part without the pattern, up to a symbol that the pattern does not have. -/
theorem findFrom_skip {i : Nat} (hc : c ∉ pat) (h : ¬ pat <:+: pre) :
    findFrom pat (pre ++ c :: s) i = findFrom pat (c :: s) (i + pre.length) := by
  induction pre generalizing i with
  | nil => rfl
  | cons a pre ih =>
    have hno : pat.isPrefixOf (a :: (pre ++ c :: s)) = false := by
      rw [Bool.eq_false_iff, Ne, List.isPrefixOf_iff_prefix]
      intro hp
      have hp : pat <+: (a :: pre) ++ c :: s := hp
      exact h (prefix_of_notMem hc hp).isInfix
    have hrest : ¬ pat <:+: pre := fun hp => h (hp.trans (List.suffix_cons a pre).isInfix)
    rw [List.cons_append, findFrom_cons_ne hno, ih hrest, List.length_cons]
    congr 1
    omega

/-- A search for one symbol, from the start of a part that does not hold it. -/
theorem find_skip (h : c ∉ pre) (t s : List α) :
    find (t ++ (pre ++ c :: s)) [c] t.length = some (t.length + pre.length) := by
  have hle : t.length ≤ (t ++ (pre ++ c :: s)).length := by
    rw [List.length_append]
    exact Nat.le_add_right ..
  unfold find
  rw [if_pos hle, List.drop_left, findFrom_append h]
  exact findFrom_self [c] s _

theorem cut_append (h : c ∉ pre) (s : List α) : cut c (pre ++ c :: s) = some (pre, s) := by
  induction pre with
  | nil => simp [cut]
  | cons a pre ih =>
    have hne : a ≠ c := fun he => h (he ▸ List.mem_cons_self)
    rw [List.cons_append, cut, if_neg hne, ih fun hm => h (List.mem_cons_of_mem a hm)]
    rfl

theorem cut_none (h : c ∉ s) : cut c s = none := by
  induction s with
  | nil => rfl
  | cons a s ih =>
    have hne : a ≠ c := fun he => h (he ▸ List.mem_cons_self)
    rw [cut, if_neg hne, ih fun hm => h (List.mem_cons_of_mem a hm)]
    rfl

theorem cut_cons_ne (h : a ≠ c) :
    cut c (a :: s) = (cut c s).map fun p => (a :: p.1, p.2) := if_neg h

theorem cut_eq_some {post : List α} (h : cut c s = some (pre, post)) :
    s = pre ++ c :: post ∧ c ∉ pre := by
  by_cases hc : c ∈ s
  · obtain ⟨pre', post', rfl, hpre⟩ := List.eq_append_cons_of_mem hc
    rw [cut_append hpre] at h
    obtain ⟨rfl, rfl⟩ := Prod.mk.inj (Option.some.inj h)
    exact ⟨rfl, hpre⟩
  · rw [cut_none hc] at h
    cases h

/-- A search for one symbol cuts the rest of the text there. -/
theorem find_cut (t s : List α) (c : α) :
    find (t ++ s) [c] t.length = (cut c s).map fun p => t.length + p.1.length := by
  by_cases hc : c ∈ s
  · obtain ⟨pre, post, rfl, hpre⟩ := List.eq_append_cons_of_mem hc
    rw [find_skip hpre, cut_append hpre]
    rfl
  · have hle : t.length ≤ (t ++ s).length := by
      rw [List.length_append]
      exact Nat.le_add_right ..
    rw [find, if_pos hle, List.drop_left, findFrom_none hc, cut_none hc]
    rfl

/-- Behind the first `c`, the text goes on after what stands before it. -/
theorem append_of_cut {post : List α} (h : cut c s = some (pre, post)) (t : List α) :
    t ++ s = (t ++ pre ++ [c]) ++ post ∧ (t ++ pre ++ [c]).length = t.length + pre.length + 1 := by
  obtain ⟨rfl, -⟩ := cut_eq_some h
  constructor
  · simp only [List.append_assoc, List.singleton_append]
  · simp only [List.length_append, List.length_singleton]

/-- A search for another symbol that starts at the `c` goes on behind it. -/
theorem find_behind_cut {d : α} {post : List α} (h : cut c s = some (pre, post)) (hne : c ≠ d)
    (t : List α) :
    find (t ++ s) [d] (t.length + pre.length) =
      (cut d post).map fun p => (t ++ pre ++ [c]).length + p.1.length := by
  have hlen := (append_of_cut h t).2
  obtain ⟨rfl, -⟩ := cut_eq_some h
  rw [← List.append_assoc, ← List.length_append, find_cut, cut_cons_ne hne]
  cases cut d post with
  | none => rfl
  | some p =>
    simp only [Option.map_some, hlen, List.length_append, List.length_cons]
    congr 1
    omega

theorem find_of_le (h : pos ≤ s.length) : find s pat pos = findFrom pat (s.drop pos) pos := by
  simp [find, h]

/-! ## What a search finds -/

/-- A search that succeeds splits the text at the first occurrence of the pattern. -/
theorem findFrom_eq_some {i : Nat} (h : findFrom pat s i = some j) :
    ∃ k, j = i + k ∧ k ≤ s.length ∧ pat <+: s.drop k ∧ ∀ m < k, ¬ pat <+: s.drop m := by
  induction s generalizing i with
  | nil =>
    simp only [findFrom, Option.ite_none_right_eq_some, Option.some.injEq] at h
    obtain ⟨rfl, rfl⟩ := h
    exact ⟨0, by simp⟩
  | cons a s ih =>
    simp only [findFrom] at h
    split at h
    · next hp =>
      obtain rfl := Option.some.inj h
      exact ⟨0, rfl, Nat.zero_le _, List.isPrefixOf_iff_prefix.mp hp, by simp⟩
    · next hp =>
      obtain ⟨k, rfl, hk, hpre, hmin⟩ := ih h
      refine ⟨k + 1, by omega, by simpa using hk, by simpa using hpre, ?_⟩
      intro m hm
      cases m with
      | zero => simpa [List.isPrefixOf_iff_prefix] using hp
      | succ m => simpa using hmin m (by omega)

theorem find_eq_some (h : find s pat pos = some j) :
    pos ≤ j ∧ j ≤ s.length ∧ pat <+: s.drop j ∧ ∀ m, pos ≤ m → m < j → ¬ pat <+: s.drop m := by
  unfold find at h
  split at h
  · next hpos =>
    obtain ⟨k, rfl, hk, hpre, hmin⟩ := findFrom_eq_some h
    rw [List.length_drop] at hk
    refine ⟨by omega, by omega, by simpa [List.drop_drop] using hpre, fun m hm hmj => ?_⟩
    have hno := hmin (m - pos) (by omega)
    rwa [List.drop_drop, Nat.add_sub_cancel' hm] at hno
  · cases h

/-- A pattern that is first found behind a part does not occur in it. -/
theorem not_infix_of_find (h : find s pat 0 = some j) (hs : s = pre ++ t) (hj : pre.length ≤ j)
    (hpat : pat ≠ []) : ¬ pat <:+: pre := by
  rintro ⟨a, b, rfl⟩
  obtain ⟨-, -, -, hmin⟩ := find_eq_some h
  have hpos := List.length_pos_of_ne_nil hpat
  simp only [List.length_append] at hj
  apply hmin a.length (Nat.zero_le _) (by omega)
  subst hs
  simp only [List.append_assoc, List.drop_left]
  exact List.prefix_append _ _

/-- The pattern occurs at the position, and nowhere before it. -/
def FirstAt (s pat : List α) (pos : Nat) : Prop :=
  pat <+: s.drop pos ∧ ∀ m < pos, ¬ pat <+: s.drop m

omit [DecidableEq α] in
theorem FirstAt.unique (h : FirstAt s pat i) (h' : FirstAt s pat j) : i = j := by
  rcases Nat.lt_trichotomy i j with hlt | heq | hlt
  · exact absurd h.1 (h'.2 i hlt)
  · exact heq
  · exact absurd h'.1 (h.2 j hlt)

/-- A search from the start finds the first occurrence. -/
theorem firstAt_of_find (h : find s pat 0 = some j) : FirstAt s pat j := by
  obtain ⟨-, -, hpat, hmin⟩ := find_eq_some h
  exact ⟨hpat, fun m hm => hmin m (Nat.zero_le m) hm⟩

/-- No symbol before the first occurrence of a one-symbol pattern is that symbol. -/
theorem find_singleton_eq_some (h : find s [c] pos = some j) :
    c ∉ (s.drop pos).take (j - pos) := by
  obtain ⟨hpos, -, -, hmin⟩ := find_eq_some h
  intro hm
  obtain ⟨m, hm, he⟩ := List.getElem_of_mem hm
  simp only [List.length_take, List.length_drop] at hm
  apply hmin (pos + m) (by omega) (by omega)
  rw [List.drop_eq_getElem_cons (by omega), List.cons_prefix_cons]
  refine ⟨?_, List.nil_prefix⟩
  rw [← he]
  simp

/-- A search for another symbol from an occurrence on finds it behind that one. -/
theorem find_lt_find {d : α} (h : find s [c] pos = some i) (h' : find s [d] i = some j)
    (hne : c ≠ d) : i < j := by
  obtain ⟨-, -, ⟨u, hu⟩, -⟩ := find_eq_some h
  obtain ⟨hle, -, ⟨v, hv⟩, -⟩ := find_eq_some h'
  apply Nat.lt_of_le_of_ne hle
  rintro rfl
  rw [← hu] at hv
  exact hne (List.cons.inj hv).1.symm

theorem find_singleton_eq_none (h : find s [c] pos = none) (hpos : pos ≤ s.length) :
    c ∉ s.drop pos := by
  rw [find_of_le hpos] at h
  intro hm
  obtain ⟨pre, post, he, hpre⟩ := List.eq_append_cons_of_mem hm
  rw [he, findFrom_append hpre] at h
  have hself := findFrom_self [c] post (pos + pre.length)
  rw [List.singleton_append, h] at hself
  cases hself

end TextSearch
