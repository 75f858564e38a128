import Mathlib.Data.List.GetD

/-!
# Base64url without padding

Three bytes are four characters of the url-safe alphabet; one or two bytes left over are two or
three characters. `decode_encode`: decoding undoes encoding. `length_encode`: the length of a code.
-/

namespace Base64

def alphabet : List Char :=
  "ABCDEFGHIJKLMNOPQRSTUVWXYZabcdefghijklmnopqrstuvwxyz0123456789-_".toList

def encodeDigit (n : Nat) : Char := alphabet.getD n 'A'

def decodeDigit (c : Char) : Nat := alphabet.idxOf c

def encode : List UInt8 → List Char
  | a :: b :: c :: rest =>
    let n := a.toNat * 65536 + b.toNat * 256 + c.toNat
    encodeDigit (n / 262144) :: encodeDigit (n / 4096 % 64) :: encodeDigit (n / 64 % 64) ::
      encodeDigit (n % 64) :: encode rest
  | [a, b] =>
    let n := a.toNat * 65536 + b.toNat * 256
    [encodeDigit (n / 262144), encodeDigit (n / 4096 % 64), encodeDigit (n / 64 % 64)]
  | [a] =>
    let n := a.toNat * 65536
    [encodeDigit (n / 262144), encodeDigit (n / 4096 % 64)]
  | [] => []

def decode : List Char → List UInt8
  | w :: x :: y :: z :: rest =>
    let n := decodeDigit w * 262144 + decodeDigit x * 4096 + decodeDigit y * 64 + decodeDigit z
    UInt8.ofNat (n / 65536) :: UInt8.ofNat (n / 256 % 256) :: UInt8.ofNat (n % 256) :: decode rest
  | [w, x, y] =>
    let n := decodeDigit w * 262144 + decodeDigit x * 4096 + decodeDigit y * 64
    [UInt8.ofNat (n / 65536), UInt8.ofNat (n / 256 % 256)]
  | [w, x] =>
    let n := decodeDigit w * 262144 + decodeDigit x * 4096
    [UInt8.ofNat (n / 65536)]
  | _ => []

theorem decodeDigit_encodeDigit {n : Nat} (h : n < 64) : decodeDigit (encodeDigit n) = n := by
  have hall : ∀ k < 64, decodeDigit (encodeDigit k) = k := by decide +kernel
  exact hall n h

theorem ofNat_of_eq {a : UInt8} {n : Nat} (h : n = a.toNat) : UInt8.ofNat n = a := by
  rw [h, UInt8.ofNat_toNat]

/-- Decoding undoes encoding. -/
theorem decode_encode : ∀ bytes : List UInt8, decode (encode bytes) = bytes
  | a :: b :: c :: rest => by
    have ha := a.toNat_lt
    have hb := b.toNat_lt
    have hc := c.toNat_lt
    simp only [encode, decode, List.cons.injEq, decode_encode rest, and_true]
    rw [decodeDigit_encodeDigit (by omega), decodeDigit_encodeDigit (by omega),
      decodeDigit_encodeDigit (by omega), decodeDigit_encodeDigit (by omega)]
    exact ⟨ofNat_of_eq (by omega), ofNat_of_eq (by omega), ofNat_of_eq (by omega)⟩
  | [a, b] => by
    have ha := a.toNat_lt
    have hb := b.toNat_lt
    simp only [encode, decode, List.cons.injEq, and_true]
    rw [decodeDigit_encodeDigit (by omega), decodeDigit_encodeDigit (by omega),
      decodeDigit_encodeDigit (by omega)]
    exact ⟨ofNat_of_eq (by omega), ofNat_of_eq (by omega)⟩
  | [a] => by
    have ha := a.toNat_lt
    simp only [encode, decode, List.cons.injEq, and_true]
    rw [decodeDigit_encodeDigit (by omega), decodeDigit_encodeDigit (by omega)]
    exact ofNat_of_eq (by omega)
  | [] => rfl

theorem length_encode : ∀ bytes : List UInt8,
    (encode bytes).length = (4 * bytes.length + 2) / 3
  | a :: b :: c :: rest => by
    have ih := length_encode rest
    simp only [encode, List.length_cons, ih]
    omega
  | [a, b] => by simp [encode]
  | [a] => by simp [encode]
  | [] => by simp [encode]

end Base64
