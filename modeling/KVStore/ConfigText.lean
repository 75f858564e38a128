import KVStore.Types
import KVStore.Lib.TextSearch

/-!
# How configuration texts are read

The service reads its configuration and the account configurations with a few helpers of its own
(`ExtractStringValue` and `ExtractRegionStorageMap`): a search for the quoted name, and loops over
positions. An index or a position past the end is `outOfRange`, and sizes wrap around at 2^64.
`closingQuote_eq`: the loop that looks for the end of a string stops behind `bodyLength` characters.
-/

namespace KVStore

open TextSearch

/-- `a - b` on `size_t`. -/
def sizeSub (a b : Nat) : Nat := if b ≤ a then a - b else a + 18446744073709551616 - b

/-- `s[i]`. -/
def charAt (s : Text) (i : Nat) : Except StdError Char :=
  match s[i]? with
  | some c => .ok c
  | none => .error .outOfRange

/-- `s.substr(pos, count)`. -/
def substrAt (s : Text) (pos count : Nat) : Except StdError Text :=
  match substr s pos count with
  | some text => .ok text
  | none => .error .outOfRange

/-- `"\"" + key + "\""`. -/
def searchKey (key : Text) : Text := ['"'] ++ key ++ ['"']

/-- The loop from `endQuote` on: up to a quote without a backslash before it, or to the end. Every
round moves `endQuote` forward, so the length of the text is fuel enough (`closingQuote_eq`). -/
def closingQuote (json : Text) : Nat → Nat → Except StdError Nat
  | 0, endQuote => .ok endQuote
  | fuel + 1, endQuote =>
    if endQuote < json.length then do
      let c ← charAt json endQuote
      let previous ← charAt json (sizeSub endQuote 1)
      if c = '"' ∧ previous ≠ '\\' then .ok endQuote
      else closingQuote json fuel (endQuote + 1)
    else .ok endQuote

/-! ## What the helpers compute -/

theorem sizeSub_of_le {a b : Nat} (h : b ≤ a) : sizeSub a b = a - b := if_pos h

/-- The length of what stands between two positions, as the code computes it. -/
theorem sizeSub_between (a n : Nat) : sizeSub (sizeSub (a + 1 + n) a) 1 = n := by
  have hinner : sizeSub (a + 1 + n) a = 1 + n := by
    rw [sizeSub_of_le (by omega)]
    omega
  rw [hinner, sizeSub_of_le (Nat.le_add_right ..), Nat.add_sub_cancel_left]

theorem charAt_of_lt {s : Text} {i : Nat} (h : i < s.length) : charAt s i = .ok s[i] := by
  rw [charAt, List.getElem?_eq_getElem h]

theorem charAt_append (t : Text) (c : Char) (s : Text) :
    charAt (t ++ c :: s) t.length = .ok c := by
  simp [charAt]

theorem substrAt_append (t body s : Text) :
    substrAt (t ++ (body ++ s)) t.length body.length = .ok body := by
  simp [substrAt, substr]

theorem substrAt_of_le {s : Text} {pos : Nat} (h : pos ≤ s.length) (count : Nat) :
    substrAt s pos count = .ok ((s.drop pos).take count) := by
  simp [substrAt, substr, h]

/-- How many characters stand before the closing quote, if there is one, when `previous` is the
character before them. -/
def bodyLength (previous : Char) : Text → Nat
  | [] => 0
  | c :: s => if c = '"' ∧ previous ≠ '\\' then 0 else bodyLength c s + 1

theorem closingQuote_eq (t : Text) (previous : Char) (s : Text) {fuel : Nat}
    (hfuel : s.length ≤ fuel) :
    closingQuote (t ++ previous :: s) fuel (t.length + 1) =
      .ok (t.length + 1 + bodyLength previous s) := by
  induction s generalizing t previous fuel with
  | nil =>
    cases fuel with
    | zero => rfl
    | succ fuel =>
      rw [closingQuote, if_neg (by simp), bodyLength, Nat.add_zero]
  | cons c s ih =>
    cases fuel with
    | zero => cases hfuel
    | succ fuel =>
      have hc : charAt (t ++ previous :: c :: s) (t.length + 1) = .ok c := by
        have := charAt_append (t ++ [previous]) c s
        simpa using this
      have hnext := ih (t ++ [previous]) c (Nat.le_of_succ_le_succ hfuel)
      rw [List.append_assoc, List.singleton_append, List.length_append,
        List.length_singleton] at hnext
      have hlt : t.length + 1 < (t ++ previous :: c :: s).length := by simp
      rw [closingQuote, if_pos hlt, hc, sizeSub_of_le (Nat.le_add_left 1 _), Nat.add_sub_cancel,
        charAt_append, bodyLength]
      change (if c = '"' ∧ previous ≠ '\\' then _ else _) = _
      split
      · rw [Nat.add_zero]
      · rw [hnext, Nat.add_assoc (t.length + 1), Nat.add_comm 1]

/-- What an extraction reads from an opening quote on, with the text `t` before it. -/
theorem readString_eq (t s : Text) (f : Text → Text) :
    (do
      let endQuote ← closingQuote (t ++ '"' :: s) (t ++ '"' :: s).length (t.length + 1)
      if (t ++ '"' :: s).length ≤ endQuote then return none
      else
        let value ← substrAt (t ++ '"' :: s) (t.length + 1) (sizeSub (sizeSub endQuote t.length) 1)
        return some (f value) : Except StdError (Option Text)) =
      .ok (if s.length ≤ bodyLength '"' s then none
        else some (f (s.take (bodyLength '"' s)))) := by
  have hlen : (t ++ '"' :: s).length = t.length + 1 + s.length := by
    rw [List.length_append, List.length_cons]
    omega
  have hdrop : (t ++ '"' :: s).drop (t.length + 1) = s := by
    rw [← List.drop_drop, List.drop_left]
    rfl
  rw [closingQuote_eq t '"' s (hlen ▸ Nat.le_add_left ..)]
  change (if _ then _ else _) = _
  rw [hlen, sizeSub_between, substrAt_of_le (by omega), hdrop]
  by_cases h : s.length ≤ bodyLength '"' s
  · rw [if_pos (by omega), if_pos h]
    rfl
  · rw [if_neg (by omega), if_neg h]
    rfl

/-- A search for one character splits the text at it. -/
theorem split_of_find {json : Text} {c : Char} {pos i : Nat} (h : find json [c] pos = some i) :
    ∃ t s, json = t ++ c :: s ∧ t.length = i := by
  obtain ⟨-, hle, ⟨s, hs⟩, -⟩ := find_eq_some h
  refine ⟨json.take i, s, ?_, List.length_take_of_le hle⟩
  rw [← List.singleton_append, hs, List.take_append_drop]

end KVStore
