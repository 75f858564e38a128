import KVStore.Types
import KVStore.Lib.Base64

/-!
# Blob names (`EncodeTokensToBlobName`, `GenerateGuid`)

A block of tokens is stored under the base64url text of its tokens, four bytes each; an additional
version of a block is stored under a GUID-like string. Base64url is the SDK's: `Base64Url` is what
the store relies on, that decoding undoes encoding and how long a code is, with or without padding.

Two token sequences share a name exactly when they agree in the low 32 bits of every token
(`encodeTokensToBlobName_eq_iff`), and no GUID is the name of a token sequence
(`generateGuid_ne_blobName`).
-/

namespace KVStore

class Base64Url where
  encode : List UInt8 → Text
  decode : Text → List UInt8
  decode_encode : ∀ bytes, decode (encode bytes) = bytes
  length_encode : ∀ bytes, (encode bytes).length = (4 * bytes.length + 2) / 3 ∨
    (encode bytes).length = 4 * ((bytes.length + 2) / 3)

/-- The code without padding. -/
@[reducible] def Base64Url.unpadded : Base64Url where
  encode := Base64.encode
  decode := Base64.decode
  decode_encode := Base64.decode_encode
  length_encode bytes := Or.inl (Base64.length_encode bytes)

/-- `static_cast<uint32_t>` of a token. -/
def low32 (token : Token) : UInt32 := token.toUInt64.toUInt32

def tokenBytes (token : Token) : List UInt8 :=
  let token := low32 token
  [((token >>> 24) &&& 0xFF).toUInt8, ((token >>> 16) &&& 0xFF).toUInt8,
    ((token >>> 8) &&& 0xFF).toUInt8, (token &&& 0xFF).toUInt8]

/-- `setw(16)` with fill `0` and `hex`. -/
def hex16 (part : UInt64) : Text := (Nat.toDigits 16 part.toNat).leftpad 16 '0'

/-- `GenerateGuid` with the two numbers it draws. -/
def generateGuid (part1 part2 : UInt64) : Text := hex16 part1 ++ "-".toList ++ hex16 part2

def encodeTokensToBlobName [Base64Url] (tokens : List Token) : Text :=
  Base64Url.encode (tokens.flatMap tokenBytes)

/-! ## Token names -/

theorem tokenBytes_inj {s t : Token} : tokenBytes s = tokenBytes t ↔ low32 s = low32 t := by
  refine ⟨fun h => ?_, fun h => by unfold tokenBytes; rw [h]⟩
  have hand : ∀ n : Nat, n &&& 255 = n % 256 := fun n => Nat.and_two_pow_sub_one_eq_mod n 8
  simp only [tokenBytes, List.cons.injEq, and_true, ← UInt8.toNat_inj] at h
  simp [hand, Nat.shiftRight_eq_div_pow] at h
  have hs := (low32 s).toNat_lt
  have ht := (low32 t).toNat_lt
  apply UInt32.toNat.inj
  omega

theorem flatMap_tokenBytes_inj {s t : List Token} :
    s.flatMap tokenBytes = t.flatMap tokenBytes ↔ s.map low32 = t.map low32 := by
  induction s generalizing t with
  | nil => cases t <;> simp [tokenBytes]
  | cons a s ih =>
    cases t with
    | nil => simp [tokenBytes]
    | cons b t =>
      have hlen : (tokenBytes a).length = (tokenBytes b).length := rfl
      rw [List.flatMap_cons, List.flatMap_cons, List.map_cons, List.map_cons, List.cons.injEq,
        ← tokenBytes_inj, ← ih]
      refine ⟨fun h => List.append_inj h hlen, fun h => ?_⟩
      rw [h.1, h.2]

/-- Token sequences share a name exactly when their tokens agree in the low 32 bits. -/
theorem encodeTokensToBlobName_eq_iff [Base64Url] {s t : List Token} :
    encodeTokensToBlobName s = encodeTokensToBlobName t ↔ s.map low32 = t.map low32 := by
  rw [← flatMap_tokenBytes_inj]
  refine ⟨fun h => ?_, fun h => by unfold encodeTokensToBlobName; rw [h]⟩
  have := congrArg Base64Url.decode h
  simpa only [encodeTokensToBlobName, Base64Url.decode_encode] using this

/-- A token that its low 32 bits determine. -/
def Token32 (token : Token) : Prop :=
  0 ≤ token.toInt ∧ token.toInt < 4294967296

theorem toInt_eq_low32 {token : Token} (h : Token32 token) :
    token.toInt = (low32 token).toNat := by
  obtain ⟨h0, h1⟩ := h
  have hlow : (low32 token).toNat = token.toBitVec.toNat % 4294967296 := rfl
  have hint : token.toInt = token.toBitVec.toInt := rfl
  have hlt := token.toBitVec.isLt
  rw [hint, BitVec.toInt_eq_toNat_cond] at h0 h1 ⊢
  rw [hlow]
  split at h1 <;> omega

theorem low32_inj {s t : Token} (hs : Token32 s) (ht : Token32 t) (h : low32 s = low32 t) :
    s = t := by
  apply Int64.toInt_inj.mp
  rw [toInt_eq_low32 hs, toInt_eq_low32 ht, h]

theorem map_low32_inj {s t : List Token} (hs : ∀ a ∈ s, Token32 a) (ht : ∀ a ∈ t, Token32 a)
    (h : s.map low32 = t.map low32) : s = t := by
  induction s generalizing t with
  | nil => exact (List.map_eq_nil_iff.mp h.symm).symm
  | cons a s ih =>
    cases t with
    | nil => cases h
    | cons b t =>
      simp only [List.map_cons, List.cons.injEq] at h
      rw [low32_inj (hs a List.mem_cons_self) (ht b List.mem_cons_self) h.1,
        ih (fun x hx => hs x (List.mem_cons_of_mem _ hx))
          (fun x hx => ht x (List.mem_cons_of_mem _ hx)) h.2]

/-! ## GUIDs -/

theorem length_hex16 (part : UInt64) : (hex16 part).length = 16 := by
  have h : (Nat.toDigits 16 part.toNat).length ≤ 16 :=
    (Nat.length_toDigits_le_iff (by decide) (by decide)).mpr part.toNat_lt
  rw [hex16, List.length_leftpad]
  omega

theorem length_generateGuid (part1 part2 : UInt64) :
    (generateGuid part1 part2).length = 33 := by
  rw [generateGuid, List.length_append, List.length_append, length_hex16, length_hex16]
  rfl

/-- The number that a hexadecimal text shows. -/
def hexValue (s : Text) : Nat :=
  s.foldl (fun n c => n * 16 + "0123456789abcdef".toList.idxOf c) 0

theorem hexValue_toDigits (n : Nat) : hexValue (Nat.toDigits 16 n) = n := by
  have hdigit : ∀ d < 16, "0123456789abcdef".toList.idxOf (Nat.digitChar d) = d := by decide
  induction n using Nat.strongRecOn with
  | _ n ih =>
    by_cases hn : n < 16
    · rw [Nat.toDigits_of_lt_base hn]
      exact (Nat.zero_add _).trans (hdigit n hn)
    · have hlast := hdigit (n % 16) (Nat.mod_lt _ (by decide))
      have hinit := ih (n / 16) (by omega)
      rw [Nat.toDigits_of_base_le (by decide) (by omega)]
      unfold hexValue at hinit ⊢
      rw [List.foldl_append, hinit, List.foldl_cons, List.foldl_nil, hlast]
      omega

theorem hexValue_hex16 (part : UInt64) : hexValue (hex16 part) = part.toNat := by
  have hzeros : ∀ k, hexValue (List.replicate k '0' ++ Nat.toDigits 16 part.toNat) =
      part.toNat := by
    intro k
    induction k with
    | zero => exact hexValue_toDigits _
    | succ k ih => exact ih
  exact hzeros _

theorem generateGuid_inj {part1 part2 part1' part2' : UInt64}
    (h : generateGuid part1 part2 = generateGuid part1' part2') :
    part1 = part1' ∧ part2 = part2' := by
  have hhex : ∀ {p q : UInt64}, hex16 p = hex16 q → p = q := by
    intro p q he
    rw [← UInt64.toNat_inj, ← hexValue_hex16, ← hexValue_hex16, he]
  unfold generateGuid at h
  obtain ⟨hleft, hright⟩ := List.append_inj' h (by rw [length_hex16, length_hex16])
  obtain ⟨hleft, -⟩ := List.append_inj' hleft rfl
  exact ⟨hhex hleft, hhex hright⟩

theorem length_flatMap_tokenBytes (tokens : List Token) :
    (tokens.flatMap tokenBytes).length = 4 * tokens.length := by
  induction tokens with
  | nil => rfl
  | cons t tokens ih =>
    rw [List.flatMap_cons, List.length_append, ih, List.length_cons]
    simp only [tokenBytes, List.length_cons, List.length_nil]
    omega

/-- No GUID is the name of a token sequence: no base64url text of whole tokens is as long. -/
theorem generateGuid_ne_blobName [Base64Url] (part1 part2 : UInt64) (tokens : List Token) :
    generateGuid part1 part2 ≠ encodeTokensToBlobName tokens := by
  intro h
  have hlen := congrArg List.length h
  rw [length_generateGuid] at hlen
  have hname := Base64Url.length_encode (tokens.flatMap tokenBytes)
  rw [length_flatMap_tokenBytes] at hname
  unfold encodeTokensToBlobName at hlen
  omega

theorem mem_toDigits_sixteen {c : Char} {n : Nat} (h : c ∈ Nat.toDigits 16 n) :
    c ∈ "0123456789abcdef".toList := by
  induction n using Nat.strongRecOn with
  | _ n ih =>
    have hdigit : ∀ d < 16, Nat.digitChar d ∈ "0123456789abcdef".toList := by decide
    by_cases hn : n < 16
    · rw [Nat.toDigits_of_lt_base hn, List.mem_singleton] at h
      rw [h]
      exact hdigit n hn
    · rw [Nat.toDigits_of_base_le (by decide) (by omega), List.mem_append,
        List.mem_singleton] at h
      rcases h with h | h
      · exact ih (n / 16) (by omega) h
      · rw [h]
        exact hdigit _ (Nat.mod_lt _ (by decide))

theorem mem_generateGuid {c : Char} {part1 part2 : UInt64} (h : c ∈ generateGuid part1 part2) :
    c ∈ "0123456789abcdef-".toList := by
  have hsub : "0123456789abcdef-".toList = "0123456789abcdef".toList ++ ['-'] := rfl
  have hhex : ∀ part, c ∈ hex16 part → c ∈ "0123456789abcdef-".toList := by
    intro part hc
    rw [hex16, List.leftpad, List.mem_append] at hc
    rcases hc with hc | hc
    · rw [List.eq_of_mem_replicate hc]
      decide
    · rw [hsub]
      exact List.mem_append_left _ (mem_toDigits_sixteen hc)
  rw [generateGuid, List.mem_append, List.mem_append] at h
  rcases h with (h | h) | h
  · exact hhex _ h
  · have hdash : "-".toList = ['-'] := rfl
    rw [hdash, List.mem_singleton] at h
    rw [h]
    decide
  · exact hhex _ h

end KVStore
