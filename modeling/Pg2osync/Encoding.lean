import Mathlib.Tactic.Ring

/-!
# Bytes and numbers as text

Integers are written in decimal, bytes in hexadecimal or in base 64. What is written in
decimal or in hexadecimal is read back as it was; base 64 has an alphabet of its own.
-/

namespace Encoding

/-! ## Integers -/

/-- An integer, from its text: digits behind at most one sign. -/
def readInt : List Char → Option ℤ
  | '-' :: digits => if digits ≠ [] ∧ digits.all Char.isDigit then
      some (-(Nat.ofDigitChars 10 digits 0 : ℤ)) else none
  | '+' :: digits => if digits ≠ [] ∧ digits.all Char.isDigit then
      some (Nat.ofDigitChars 10 digits 0 : ℤ) else none
  | digits => if digits ≠ [] ∧ digits.all Char.isDigit then
      some (Nat.ofDigitChars 10 digits 0 : ℤ) else none

/-- The text of an integer. -/
def printInt (n : ℤ) : List Char :=
  if n < 0 then '-' :: Nat.toDigits 10 n.natAbs else Nat.toDigits 10 n.natAbs

theorem toList_toString (n : ℤ) : (toString n).toList = printInt n := by
  cases n with
  | ofNat n =>
    have h : ¬(Int.ofNat n < 0) := Int.not_lt.mpr (Int.natCast_nonneg n)
    rw [printInt, if_neg h]
    exact Nat.toList_repr
  | negSucc n =>
    have h : Int.negSucc n < 0 := Int.negSucc_lt_zero n
    rw [printInt, if_pos h]
    change ("-" ++ Nat.repr (n + 1)).toList = _
    rw [String.toList_append, Nat.toList_repr]
    rfl

theorem toDigits_digits (n : ℕ) :
    Nat.toDigits 10 n ≠ [] ∧ (Nat.toDigits 10 n).all Char.isDigit = true := by
  refine ⟨fun h => ?_, List.all_eq_true.mpr fun c hc =>
    Nat.isDigit_of_mem_toDigits (by decide) (by decide) hc⟩
  have := Nat.length_toDigits_pos (b := 10) (n := n)
  rw [h] at this
  cases this

theorem toNat_of_isDigit {c : Char} (h : c.isDigit = true) : 48 ≤ c.toNat ∧ c.toNat ≤ 57 := by
  simp only [Char.isDigit, Bool.and_eq_true, decide_eq_true_eq] at h
  exact h

/-- Digits are read as they are: a sign is no digit. -/
theorem readInt_digits {digits : List Char} (hne : digits ≠ [])
    (hall : digits.all Char.isDigit = true) :
    readInt digits = some (Nat.ofDigitChars 10 digits 0 : ℤ) := by
  have hdigit : ∀ c rest, digits = c :: rest → c.isDigit = true :=
    fun c rest h => List.all_eq_true.mp hall c (h ▸ List.mem_cons_self)
  rw [readInt]
  · exact if_pos ⟨hne, hall⟩
  · intro rest h
    exact absurd (hdigit _ _ h) (by decide)
  · intro rest h
    exact absurd (hdigit _ _ h) (by decide)

theorem readInt_printInt (n : ℤ) : readInt (printInt n) = some n := by
  have hdigits := toDigits_digits n.natAbs
  by_cases hneg : n < 0
  · rw [printInt, if_pos hneg, readInt, if_pos hdigits, Nat.ofDigitChars_ten_toDigits]
    exact congrArg some (by omega)
  · rw [printInt, if_neg hneg, readInt_digits hdigits.1 hdigits.2, Nat.ofDigitChars_ten_toDigits]
    exact congrArg some (by omega)

/-! ## Hexadecimal -/

/-- A hexadecimal digit. -/
def hexDigit (n : ℕ) : Char :=
  "0123456789abcdef".toList.getD n '0'

/-- The digits of bytes. -/
def hex (bytes : List UInt8) : List Char :=
  bytes.flatMap fun b => [hexDigit (b.toNat / 16), hexDigit (b.toNat % 16)]

/-- `char::to_digit`, in base 16. -/
def hexValue (c : Char) : Option ℕ :=
  if c.isDigit then some (c.toNat - 48)
  else if 'a' ≤ c ∧ c ≤ 'f' then some (c.toNat - 87)
  else if 'A' ≤ c ∧ c ≤ 'F' then some (c.toNat - 55)
  else none

/-- Bytes, from their digits. -/
def readHex : List Char → Option (List UInt8)
  | [] => some []
  | [_] => none
  | hi :: lo :: rest =>
    (hexValue hi).bind fun hi => (hexValue lo).bind fun lo =>
      (readHex rest).map (UInt8.ofNat (hi * 16 + lo) :: ·)

theorem hexValue_hexDigit {n : ℕ} (h : n < 16) : hexValue (hexDigit n) = some n := by
  revert n
  decide

theorem readHex_hex (bytes : List UInt8) : readHex (hex bytes) = some bytes := by
  induction bytes with
  | nil => rfl
  | cons b bytes ih =>
    have hb : b.toNat < 256 := b.toNat_lt
    have hbyte : UInt8.ofNat (b.toNat / 16 * 16 + b.toNat % 16) = b := by
      rw [show b.toNat / 16 * 16 + b.toNat % 16 = b.toNat by omega]
      exact UInt8.ofNat_toNat
    have hcons : hex (b :: bytes) =
        hexDigit (b.toNat / 16) :: hexDigit (b.toNat % 16) :: hex bytes := rfl
    rw [hcons, readHex, hexValue_hexDigit (by omega), hexValue_hexDigit (by omega), ih]
    simp only [Option.bind_some, Option.map_some, hbyte]

/-! ## Base 64 -/

/-- The alphabet. -/
def alphabet : List Char :=
  "ABCDEFGHIJKLMNOPQRSTUVWXYZabcdefghijklmnopqrstuvwxyz0123456789+/".toList

/-- The character of six bits. -/
def sextet (n : ℕ) : Char :=
  alphabet.getD n '='

/-- Bytes in base 64, padded. -/
def base64 : List UInt8 → List Char
  | [] => []
  | [a] => [sextet (a.toNat / 4), sextet (a.toNat % 4 * 16), '=', '=']
  | [a, b] => [sextet (a.toNat / 4), sextet (a.toNat % 4 * 16 + b.toNat / 16),
      sextet (b.toNat % 16 * 4), '=']
  | a :: b :: c :: rest =>
    sextet (a.toNat / 4) :: sextet (a.toNat % 4 * 16 + b.toNat / 16) ::
      sextet (b.toNat % 16 * 4 + c.toNat / 64) :: sextet (c.toNat % 64) :: base64 rest

theorem sextet_mem (n : ℕ) : sextet n ∈ '=' :: alphabet := by
  rw [sextet, List.getD_eq_getElem?_getD]
  cases h : alphabet[n]? with
  | none => exact List.mem_cons_self
  | some c => exact List.mem_cons_of_mem _ (List.mem_of_getElem? h)

theorem base64_mem {bytes : List UInt8} {c : Char} (h : c ∈ base64 bytes) :
    c ∈ '=' :: alphabet := by
  induction bytes using base64.induct with
  | case1 => cases h
  | case2 a =>
    simp only [base64, List.mem_cons, List.not_mem_nil, or_false] at h
    rcases h with rfl | rfl | rfl | rfl
    · exact sextet_mem _
    · exact sextet_mem _
    · exact List.mem_cons_self
    · exact List.mem_cons_self
  | case3 a b =>
    simp only [base64, List.mem_cons, List.not_mem_nil, or_false] at h
    rcases h with rfl | rfl | rfl | rfl
    · exact sextet_mem _
    · exact sextet_mem _
    · exact sextet_mem _
    · exact List.mem_cons_self
  | case4 a b d rest ih =>
    rw [base64] at h
    rcases List.mem_cons.mp h with rfl | h
    · exact sextet_mem _
    rcases List.mem_cons.mp h with rfl | h
    · exact sextet_mem _
    rcases List.mem_cons.mp h with rfl | h
    · exact sextet_mem _
    rcases List.mem_cons.mp h with rfl | h
    · exact sextet_mem _
    · exact ih h

example : base64 [0x00, 0xFF, 0x10] = "AP8Q".toList := by decide

end Encoding
