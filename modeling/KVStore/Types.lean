import Mathlib.Data.List.TakeWhile

/-!
# Data types of the store (`KVTypes.h`) and standard-library text conversions

`std::string` is a list of characters. `toText` is `std::to_string` on a 64-bit value and `stoull`
is `std::stoull` in base 10: it skips leading white space, takes an optional sign (a minus sign
negates modulo 2^64) and reads digits up to the first other character.
-/

namespace KVStore

abbrev Text := List Char

/-- An inference token. -/
abbrev Token := Int64

/-- A hash value (`hash_t`). -/
abbrev Hash := UInt64

/-- A prompt chunk. Every place that fills a chunk in sets `bufferSize` to the size of `buffer`. -/
structure PromptChunk where
  hash : Hash := 0
  partitionKey : Text := []
  parentHash : Hash := 0
  buffer : List UInt8 := []
  bufferSize : Nat := buffer.length
  tokens : List Token := []
  completionId : Text := []
  bufferSize_eq : bufferSize = buffer.length := by rfl
deriving DecidableEq

/-- The chunk that nothing is filled in. -/
def PromptChunk.empty : PromptChunk := {}

/-- A block location: the token-based blob name or the GUID of an additional version. -/
structure BlockLocation where
  hash : Hash
  location : Text
deriving DecidableEq, Repr

structure LookupResult where
  cachedBlocks : Nat := 0
  lastHash : Hash := 0
  locations : List BlockLocation := []
deriving DecidableEq, Repr

/-- The standard-library exceptions that the code can raise. -/
inductive StdError
  | invalidArgument
  | outOfRange
deriving DecidableEq, Repr

theorem bind_eq_ok {ε α β : Type} {x : Except ε α} {f : α → Except ε β} {b : β}
    (h : (x >>= f) = .ok b) : ∃ a, x = .ok a ∧ f a = .ok b := by
  cases x with
  | error e => cases h
  | ok a => exact ⟨a, rfl, h⟩

/-! ## Numbers as text -/

/-- `std::to_string`. -/
def toText (n : UInt64) : Text := Nat.toDigits 10 n.toNat

/-- `std::isspace`. -/
def isSpace (c : Char) : Bool := c = ' ' || ('\t' ≤ c && c ≤ '\r')

/-- `std::stoull`. -/
def stoull (s : Text) : Except StdError UInt64 :=
  let s := s.dropWhile isSpace
  let negative := s.head? = some '-'
  let s := if s.head? = some '-' ∨ s.head? = some '+' then s.tail else s
  let digits := s.takeWhile Char.isDigit
  if digits = [] then .error .invalidArgument
  else
    let value := Nat.ofDigitChars 10 digits 0
    if UInt64.size ≤ value then .error .outOfRange
    else .ok (if negative then -(UInt64.ofNat value) else UInt64.ofNat value)

theorem isSpace_of_isDigit {c : Char} (h : c.isDigit = true) : isSpace c = false := by
  simp only [Char.isDigit, isSpace, Bool.and_eq_true, decide_eq_true_eq, Bool.or_eq_false_iff,
    Bool.and_eq_false_iff, decide_eq_false_iff_not, Char.le_def, UInt32.le_iff_toNat_le,
    Char.ext_iff, ← UInt32.toNat_inj] at h ⊢
  simp at h ⊢
  omega

theorem isDigit_of_mem_toText {n : UInt64} {c : Char} (h : c ∈ toText n) : c.isDigit = true :=
  Nat.isDigit_of_mem_toDigits (by decide) (by decide) h

theorem toText_ne_nil (n : UInt64) : toText n ≠ [] :=
  Nat.toDigits_ne_nil

/-- A text of digits is read as a whole. -/
theorem stoull_digits {s : Text} (hs : s ≠ []) (hd : ∀ c ∈ s, c.isDigit = true)
    (hlt : Nat.ofDigitChars 10 s 0 < UInt64.size) :
    stoull s = .ok (UInt64.ofNat (Nat.ofDigitChars 10 s 0)) := by
  obtain ⟨c, t, rfl⟩ := List.exists_cons_of_ne_nil hs
  have hc : c.isDigit = true := hd c List.mem_cons_self
  have hdrop : (c :: t).dropWhile isSpace = c :: t := by
    rw [List.dropWhile_cons_of_neg (by simp [isSpace_of_isDigit hc])]
  have hsign : c ≠ '-' ∧ c ≠ '+' := by
    constructor <;> rintro rfl <;> exact absurd hc (by decide)
  have htake : (c :: t).takeWhile Char.isDigit = c :: t := List.takeWhile_eq_self_iff.mpr hd
  simp only [stoull, hdrop, List.head?_cons, Option.some.injEq, hsign.1, hsign.2, or_self,
    if_false, htake, List.cons_ne_nil, Nat.not_le.mpr hlt]

/-- `std::stoull` reads back what `std::to_string` writes. -/
@[simp] theorem stoull_toText (n : UInt64) : stoull (toText n) = .ok n := by
  have hval : Nat.ofDigitChars 10 (toText n) 0 = n.toNat := Nat.ofDigitChars_ten_toDigits
  rw [stoull_digits (toText_ne_nil n) (fun _ => isDigit_of_mem_toText)
    (by rw [hval]; exact n.toNat_lt_size), hval, UInt64.ofNat_toNat]

/-- Different values have different texts. -/
theorem toText_injective {m n : UInt64} (h : toText m = toText n) : m = n := by
  have := congrArg stoull h
  simpa using this

end KVStore
