import Mathlib.Data.List.Count
import Mathlib.Data.List.Sort
import Mathlib.Data.Rat.Floor
import Mathlib.Tactic.Linarith
import Mathlib.Tactic.FieldSimp

/-!
# Order statistics and percentiles

An entry of a sorted list is known by counting: it reaches `x` when no more entries than its
position are below `x` (`le_sorted_iff`). So pointwise dominance of two lists carries over to their
sorted versions, and the percentiles of one list dominate those of another one, of any length,
exactly when its share of entries below each entry of the other is not larger
(`forall_percentile_le_iff`).
-/

namespace OrderStatistics

universe u

variable {α : Type u} [LinearOrder α] {l s t : List α} {x : α} {i : Nat} {p : ℚ}

/-- The entries in ascending order. -/
def sorted (l : List α) : List α := l.insertionSort (· ≤ ·)

/-- The number of entries below `x`. -/
def below (l : List α) (x : α) : Nat := l.countP (· < x)

/-- The position of the `p`-th percentile among `n` entries: `n * p / 100` rounded down, but no more
than the last one. -/
def percentileIndex (n : Nat) (p : ℚ) : Nat := min ⌊n * p / 100⌋₊ (n - 1)

@[simp] theorem length_sorted (l : List α) : (sorted l).length = l.length :=
  List.length_insertionSort _ l

theorem sorted_perm (l : List α) : (sorted l).Perm l := List.perm_insertionSort _ l

theorem pairwise_sorted (l : List α) : (sorted l).Pairwise (· ≤ ·) :=
  List.pairwise_insertionSort _ l

theorem mem_sorted : x ∈ sorted l ↔ x ∈ l := (sorted_perm l).mem_iff

/-- The order in which entries come is lost. -/
theorem sorted_eq_of_perm (h : s.Perm t) : sorted s = sorted t :=
  (((sorted_perm s).trans h).trans (sorted_perm t).symm).eq_of_pairwise'
    (pairwise_sorted s) (pairwise_sorted t)

@[simp] theorem sorted_sorted (l : List α) : sorted (sorted l) = sorted l :=
  sorted_eq_of_perm (sorted_perm l)

@[simp] theorem sorted_eq_nil_iff : sorted l = [] ↔ l = [] := by
  rw [← List.length_eq_zero_iff, length_sorted, List.length_eq_zero_iff]

@[simp] theorem below_sorted (l : List α) (x : α) : below (sorted l) x = below l x :=
  (sorted_perm l).countP_eq _

theorem below_lt_of_mem (h : x ∈ l) : below l x < l.length := by
  rw [below, List.countP_lt_length_iff]
  exact ⟨x, h, by simp⟩

/-- In a list in ascending order, the entries below `x` come first. -/
theorem le_getElem_iff (hl : l.Pairwise (· ≤ ·)) (hi : i < l.length) :
    x ≤ l[i] ↔ below l x ≤ i := by
  induction l generalizing i with
  | nil => simp at hi
  | cons a l ih =>
    rw [List.pairwise_cons] at hl
    by_cases hax : a < x
    · cases i with
      | zero => simp [below, hax]
      | succ i =>
        have hi' : i < l.length := by simpa using hi
        have hrest := ih hl.2 hi'
        rw [below] at hrest ⊢
        simp [hax, hrest]
    · have hnone : below (a :: l) x = 0 := by
        rw [below, List.countP_eq_zero]
        intro b hb
        rcases List.mem_cons.mp hb with rfl | hb
        · simpa using hax
        · simpa using (not_lt.mp hax).trans (hl.1 b hb)
      have hle : x ≤ (a :: l)[i] := by
        apply (not_lt.mp hax).trans
        rcases List.mem_cons.mp (List.getElem_mem hi) with heq | hmem
        · exact heq.ge
        · exact hl.1 _ hmem
      simp [hnone, hle]

theorem le_sorted_iff (hi : i < (sorted l).length) : x ≤ (sorted l)[i] ↔ below l x ≤ i := by
  rw [le_getElem_iff (pairwise_sorted l) hi, below_sorted]

/-- What dominates a list entry by entry has no more entries below any `x`. -/
theorem below_le_of_forall₂ (h : List.Forall₂ (· ≤ ·) s t) (x : α) : below t x ≤ below s x := by
  induction h with
  | nil => exact le_rfl
  | @cons a b s t hab _ ih =>
    unfold below at ih ⊢
    rw [List.countP_cons, List.countP_cons]
    by_cases hbx : b < x
    · simpa [hbx, hab.trans_lt hbx] using ih
    · simp only [hbx, decide_false, Bool.false_eq_true, if_false, Nat.add_zero]
      exact ih.trans (Nat.le_add_right ..)

theorem percentileIndex_lt {n : Nat} (hn : 0 < n) (p : ℚ) : percentileIndex n p < n := by
  unfold percentileIndex
  omega

/-- The `p`-th percentile of a list with entries. -/
def percentile (l : List α) (hl : l ≠ []) (p : ℚ) : α :=
  have hlt : percentileIndex l.length p < (sorted l).length :=
    length_sorted l ▸ percentileIndex_lt (List.length_pos_of_ne_nil hl) p
  (sorted l)[percentileIndex l.length p]

theorem percentile_mem (hl : l ≠ []) (p : ℚ) : percentile l hl p ∈ l :=
  mem_sorted.mp (List.getElem_mem _)

/-- The percentile reaches `x` when the share of the entries below `x` is at most `p / 100`. -/
theorem le_percentile_iff (hl : l ≠ []) (hp : 0 ≤ p) :
    x ≤ percentile l hl p ↔ (below l x : ℚ) * 100 ≤ l.length * p ∧ below l x < l.length := by
  have hpos := List.length_pos_of_ne_nil hl
  have hnonneg : 0 ≤ (l.length : ℚ) * p / 100 := by positivity
  rw [percentile, le_sorted_iff, percentileIndex, Nat.le_min, Nat.le_floor_iff hnonneg,
    le_div_iff₀ (by norm_num)]
  refine and_congr_right fun _ => ?_
  omega

/-- **Dominance of percentiles**: the percentiles of `t` dominate those of `s` exactly when, for
each entry `x` of `s`, the share of `t` below `x` is at most the share of `s` below `x`. -/
theorem forall_percentile_le_iff (hs : s ≠ []) (ht : t ≠ []) :
    (∀ p : ℚ, 0 ≤ p → p ≤ 100 → percentile s hs p ≤ percentile t ht p) ↔
      ∀ x ∈ s, below t x * s.length ≤ below s x * t.length := by
  have hpos : (0 : ℚ) < s.length := by exact_mod_cast List.length_pos_of_ne_nil hs
  constructor
  · intro h x hx
    have hlt := below_lt_of_mem hx
    -- the percentile at which the entries of `s` begin to reach `x`
    have hp0 : (0 : ℚ) ≤ 100 * below s x / s.length := by positivity
    have hshare : (s.length : ℚ) * (100 * below s x / s.length) = 100 * below s x := by
      field_simp
    have hp100 : 100 * (below s x : ℚ) / s.length ≤ 100 := by
      rw [div_le_iff₀ hpos]
      have : (below s x : ℚ) ≤ s.length := by exact_mod_cast hlt.le
      linarith
    have hreach : x ≤ percentile s hs (100 * below s x / s.length) := by
      rw [le_percentile_iff hs hp0, hshare]
      exact ⟨by linarith, hlt⟩
    have hdom := hreach.trans (h _ hp0 hp100)
    rw [le_percentile_iff ht hp0] at hdom
    have hle : (below t x : ℚ) * s.length ≤ below s x * t.length := by
      have hmul := mul_le_mul_of_nonneg_right hdom.1 hpos.le
      have hright : (t.length : ℚ) * (100 * below s x / s.length) * s.length =
          100 * (below s x * t.length) := by
        field_simp
      rw [hright] at hmul
      linarith
    exact_mod_cast hle
  · intro h p hp _
    have hshare := h _ (percentile_mem hs p)
    obtain ⟨hreach, hlt⟩ := (le_percentile_iff hs hp).mp le_rfl
    generalize percentile s hs p = x at hshare hreach hlt ⊢
    rw [le_percentile_iff ht hp]
    constructor
    · have hle : (below t x : ℚ) * s.length ≤ below s x * t.length := by exact_mod_cast hshare
      have ht0 : (0 : ℚ) ≤ t.length := Nat.cast_nonneg _
      have hmul := mul_le_mul_of_nonneg_right hreach ht0
      apply le_of_mul_le_mul_right _ hpos
      linarith
    · have hstrict : below s x * t.length < s.length * t.length :=
        Nat.mul_lt_mul_of_pos_right hlt (List.length_pos_of_ne_nil ht)
      rw [Nat.mul_comm s.length] at hstrict
      exact Nat.lt_of_mul_lt_mul_right (hshare.trans_lt hstrict)

end OrderStatistics
