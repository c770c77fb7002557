import Mathlib.Data.Nat.Bitwise
import Pg2osync.Core
import Pg2osync.GtidSet
import Pg2osync.Numerals

/-!
# Positions as text

Postgres writes a position as two hexadecimal numbers with a slash between them, the upper half
of the bits and the lower half. A position is displayed that way and read back. A half is read
as a number of 64 bits, though, and the two are put together by a shift and an or, so a half that
is too long for its place is not refused but loses or mixes its bits.
-/

namespace Pg2osync

open MySql (splitOnce)

/-- The values of hexadecimal digits. -/
def digitsOf (text : List Char) : List ℕ :=
  text.map fun c => (Encoding.hexValue c).getD 0

/-- Hexadecimal digits, of either case. -/
def IsHex (text : List Char) : Prop :=
  text ≠ [] ∧ ∀ c ∈ text, (Encoding.hexValue c).isSome

/-- The number of hexadecimal digits. -/
def hexNumber (text : List Char) : ℕ :=
  Numerals.value 16 (digitsOf text)

instance (text : List Char) : Decidable (IsHex text) :=
  @instDecidableAnd _ _ inferInstance
    (List.decidableBAll (fun c => (Encoding.hexValue c).isSome) text)

/-- `u64::from_str_radix`, in base 16: digits, behind a plus sign or not. -/
def fromStrRadix16 (text : List Char) : Option ℕ :=
  let digits := match text with
    | '+' :: digits => digits
    | _ => text
  if IsHex digits ∧ hexNumber digits < 2 ^ 64 then some (hexNumber digits) else none

/-- A number in capital hexadecimal digits. -/
def upperHex (n : ℕ) : List Char :=
  (Nat.toDigits 16 n).map Char.toUpper

namespace Lsn

/-- `from_str`. -/
def fromStr (s : List Char) : Except CoreError Lsn :=
  match splitOnce '/' s with
  | none => .error (.invalidLsn (String.ofList s))
  | some (hi, lo) =>
    match fromStrRadix16 hi with
    | none => .error (.invalidLsn (String.ofList s))
    | some hi =>
      match fromStrRadix16 lo with
      | none => .error (.invalidLsn (String.ofList s))
      | some lo => .ok (hi <<< 32 % 2 ^ 64 ||| lo)

/-- `fmt`. -/
def fmt (lsn : Lsn) : List Char :=
  upperHex (lsn >>> 32) ++ '/' :: upperHex (lsn &&& (2 ^ 32 - 1))

end Lsn

/-! ## Numerals in text -/

theorem hexValue_lt {c : Char} {d : ℕ} (h : Encoding.hexValue c = some d) : d < 16 := by
  rw [Encoding.hexValue] at h
  split at h
  · next hdigit =>
    have := Encoding.toNat_of_isDigit hdigit
    cases h
    omega
  · split at h
    · next hlower =>
      have hle : c.toNat ≤ 'f'.toNat := hlower.2
      cases h
      change c.toNat ≤ 102 at hle
      omega
    · split at h
      · next hupper =>
        have hle : c.toNat ≤ 'F'.toNat := hupper.2
        cases h
        change c.toNat ≤ 70 at hle
        omega
      · cases h

theorem digitsOf_lt (text : List Char) : ∀ d ∈ digitsOf text, d < 16 := by
  intro d hd
  obtain ⟨c, -, rfl⟩ := List.mem_map.mp hd
  cases h : Encoding.hexValue c with
  | none => exact Nat.zero_lt_succ 15
  | some d => exact hexValue_lt h

variable {text : List Char}

theorem IsHex.notMem (h : IsHex text) {c : Char} (hc : Encoding.hexValue c = none) : c ∉ text := by
  intro hmem
  have := h.2 c hmem
  rw [hc] at this
  cases this

/-- What a number of 64 bits may be read from. -/
def IsNumeral (text : List Char) : Prop :=
  ∃ digits, (text = digits ∨ text = '+' :: digits) ∧ IsHex digits ∧ hexNumber digits < 2 ^ 64

theorem fromStrRadix16_of_isHex (h : IsHex text) (hlt : hexNumber text < 2 ^ 64) :
    fromStrRadix16 text = some (hexNumber text) := by
  rw [fromStrRadix16]
  · exact if_pos ⟨h, hlt⟩
  · rintro digits rfl
    exact h.notMem (by decide) List.mem_cons_self

theorem fromStrRadix16_plus {digits : List Char} (h : IsHex digits)
    (hlt : hexNumber digits < 2 ^ 64) :
    fromStrRadix16 ('+' :: digits) = some (hexNumber digits) :=
  if_pos ⟨h, hlt⟩

theorem isSome_fromStrRadix16_iff (text : List Char) :
    (fromStrRadix16 text).isSome ↔ IsNumeral text := by
  constructor
  · intro h
    by_cases hplus : ∃ digits, text = '+' :: digits
    · obtain ⟨digits, rfl⟩ := hplus
      by_cases hread : IsHex digits ∧ hexNumber digits < 2 ^ 64
      · exact ⟨digits, Or.inr rfl, hread.1, hread.2⟩
      · rw [show fromStrRadix16 ('+' :: digits) = none from if_neg hread] at h
        cases h
    · by_cases hread : IsHex text ∧ hexNumber text < 2 ^ 64
      · exact ⟨text, Or.inl rfl, hread.1, hread.2⟩
      · rw [fromStrRadix16, if_neg hread] at h
        · cases h
        · exact fun digits hdigits => hplus ⟨digits, hdigits⟩
  · rintro ⟨digits, rfl | rfl, hhex, hlt⟩
    · rw [fromStrRadix16_of_isHex hhex hlt]
      rfl
    · rw [fromStrRadix16_plus hhex hlt]
      rfl

theorem IsNumeral.notMem (h : IsNumeral text) : '/' ∉ text := by
  obtain ⟨digits, rfl | rfl, hhex, -⟩ := h
  · exact hhex.notMem (by decide)
  · intro hmem
    rcases List.mem_cons.mp hmem with hplus | hrest
    · cases hplus
    · exact hhex.notMem (by decide) hrest

/-! ## What is displayed -/

theorem hexNumber_concat (text : List Char) (c : Char) :
    hexNumber (text ++ [c]) = hexNumber text * 16 + (Encoding.hexValue c).getD 0 := by
  rw [hexNumber, digitsOf, List.map_append]
  exact Numerals.value_concat _ _

theorem hexValue_digitChar {d : ℕ} (h : d < 16) :
    Encoding.hexValue d.digitChar.toUpper = some d := by
  revert d
  decide

theorem upperHex_of_lt {n : ℕ} (h : n < 16) : upperHex n = [n.digitChar.toUpper] := by
  rw [upperHex, Nat.toDigits_of_lt_base h]
  rfl

theorem upperHex_of_le {n : ℕ} (h : 16 ≤ n) :
    upperHex n = upperHex (n / 16) ++ [(n % 16).digitChar.toUpper] := by
  rw [upperHex, Nat.toDigits_of_base_le (by decide) h, List.map_append]
  rfl

/-- What is displayed for a number is read back as it. -/
theorem upperHex_spec (n : ℕ) : IsHex (upperHex n) ∧ hexNumber (upperHex n) = n := by
  induction n using Nat.strong_induction_on with
  | _ n ih =>
    rcases Nat.lt_or_ge n 16 with hlt | hge
    · have hdigit := hexValue_digitChar hlt
      rw [upperHex_of_lt hlt]
      refine ⟨⟨List.cons_ne_nil _ _, fun c hc => ?_⟩, ?_⟩
      · rw [List.mem_singleton.mp hc, hdigit]
        rfl
      · rw [← List.nil_append [n.digitChar.toUpper], hexNumber_concat, hdigit]
        exact (Nat.zero_add n)
    · have hdigit := hexValue_digitChar (Nat.mod_lt n (by decide : 0 < 16))
      obtain ⟨⟨-, hall⟩, hvalue⟩ := ih (n / 16) (Nat.div_lt_self (by omega) (by decide))
      rw [upperHex_of_le hge]
      refine ⟨⟨List.append_ne_nil_of_right_ne_nil _ (List.cons_ne_nil _ _), fun c hc => ?_⟩, ?_⟩
      · rcases List.mem_append.mp hc with hc | hc
        · exact hall c hc
        · rw [List.mem_singleton.mp hc, hdigit]
          rfl
      · rw [hexNumber_concat, hvalue, hdigit, Option.getD_some]
        omega

/-! ## What is accepted -/

/-- A half of a position: the hexadecimal digits of a number of 32 bits. -/
def IsHalf (text : List Char) : Prop :=
  IsHex text ∧ hexNumber text < 2 ^ 32

instance (text : List Char) : Decidable (IsHalf text) :=
  inferInstanceAs (Decidable (_ ∧ _))

/-- Two halves with a slash between them. -/
def IsPosition (text : List Char) : Prop :=
  ∃ hi lo, text = hi ++ '/' :: lo ∧ IsHalf hi ∧ IsHalf lo

theorem IsHalf.isNumeral (h : IsHalf text) : IsNumeral text :=
  ⟨text, Or.inl rfl, h.1, h.2.trans (by decide)⟩

theorem append_slash_inj {hi lo hi' lo' : List Char} (h : '/' ∉ hi) (h' : '/' ∉ hi')
    (heq : hi ++ '/' :: lo = hi' ++ '/' :: lo') : hi = hi' ∧ lo = lo' := by
  have hsplit := MySql.splitOnce_append h lo
  rw [heq, MySql.splitOnce_append h' lo'] at hsplit
  cases hsplit
  exact ⟨rfl, rfl⟩

variable {hi lo : List Char}

theorem isPosition_append (h : '/' ∉ hi) :
    IsPosition (hi ++ '/' :: lo) ↔ IsHalf hi ∧ IsHalf lo := by
  constructor
  · rintro ⟨hi', lo', heq, hhi, hlo⟩
    obtain ⟨rfl, rfl⟩ := append_slash_inj h hhi.isNumeral.notMem heq
    exact ⟨hhi, hlo⟩
  · rintro ⟨hhi, hlo⟩
    exact ⟨hi, lo, rfl, hhi, hlo⟩

namespace Lsn

theorem fromStr_append (h : '/' ∉ hi) {x y : ℕ} (hhi : fromStrRadix16 hi = some x)
    (hlo : fromStrRadix16 lo = some y) :
    fromStr (hi ++ '/' :: lo) = .ok (x <<< 32 % 2 ^ 64 ||| y) := by
  rw [fromStr, MySql.splitOnce_append h]
  simp only [hhi, hlo]

theorem fromStr_ok {s : List Char} {x : Lsn} (h : fromStr s = .ok x) :
    ∃ hi lo, s = hi ++ '/' :: lo ∧ IsNumeral hi ∧ IsNumeral lo := by
  rw [fromStr] at h
  split at h
  · cases h
  · next hi lo hsplit =>
    split at h
    · cases h
    · next x hhi =>
      split at h
      · cases h
      · next y hlo =>
        refine ⟨hi, lo, (MySql.splitOnce_eq_some hsplit).1, ?_, ?_⟩
        · exact (isSome_fromStrRadix16_iff hi).mp (by rw [hhi]; rfl)
        · exact (isSome_fromStrRadix16_iff lo).mp (by rw [hlo]; rfl)

/-- A text is accepted exactly when it has a numeral of 64 bits on each side of a slash. -/
theorem accepts_iff (s : List Char) :
    (∃ x, fromStr s = .ok x) ↔ ∃ hi lo, s = hi ++ '/' :: lo ∧ IsNumeral hi ∧ IsNumeral lo := by
  refine ⟨fun ⟨x, hx⟩ => fromStr_ok hx, ?_⟩
  rintro ⟨hi, lo, rfl, hhi, hlo⟩
  obtain ⟨x, hx⟩ := Option.isSome_iff_exists.mp ((isSome_fromStrRadix16_iff hi).mpr hhi)
  obtain ⟨y, hy⟩ := Option.isSome_iff_exists.mp ((isSome_fromStrRadix16_iff lo).mpr hlo)
  exact ⟨_, fromStr_append hhi.notMem hx hy⟩

/-- Two halves make up the position they are the halves of. -/
theorem fromStr_halves (hhi : IsHalf hi) (hlo : IsHalf lo) :
    fromStr (hi ++ '/' :: lo) = .ok (hexNumber hi * 2 ^ 32 + hexNumber lo) := by
  have hlt : hexNumber hi <<< 32 < 2 ^ 64 := by
    have := hhi.2
    rw [Nat.shiftLeft_eq]
    omega
  rw [fromStr_append hhi.isNumeral.notMem
    (fromStrRadix16_of_isHex hhi.1 (hhi.2.trans (by decide)))
    (fromStrRadix16_of_isHex hlo.1 (hlo.2.trans (by decide))),
    Nat.mod_eq_of_lt hlt, ← Nat.shiftLeft_add_eq_or_of_lt hlo.2, Nat.shiftLeft_eq]

theorem fromStr_fmt {x : Lsn} (h : x < 2 ^ 64) : fromStr (fmt x) = .ok x := by
  obtain ⟨hhi, hhiValue⟩ := upperHex_spec (x >>> 32)
  obtain ⟨hlo, hloValue⟩ := upperHex_spec (x &&& (2 ^ 32 - 1))
  have hhigh : x >>> 32 = x / 2 ^ 32 := Nat.shiftRight_eq_div_pow x 32
  have hlow : x &&& (2 ^ 32 - 1) = x % 2 ^ 32 := Nat.and_two_pow_sub_one_eq_mod x 32
  have hhiFits : hexNumber (upperHex (x >>> 32)) < 2 ^ 32 := by
    rw [hhiValue, hhigh]
    exact Nat.div_lt_of_lt_mul h
  have hloFits : hexNumber (upperHex (x &&& (2 ^ 32 - 1))) < 2 ^ 32 := by
    rw [hloValue, hlow]
    exact Nat.mod_lt x (by decide)
  rw [fmt, fromStr_halves ⟨hhi, hhiFits⟩ ⟨hlo, hloFits⟩, hhiValue, hloValue, hhigh, hlow]
  exact congrArg Except.ok (Nat.div_add_mod' x (2 ^ 32))

/-! ## What the halves say -/

/-- The digits of both halves, without zeros in front. -/
def halves (text : List Char) : List ℕ × List ℕ :=
  match splitOnce '/' text with
  | some (hi, lo) => (Numerals.trimmed (digitsOf hi), Numerals.trimmed (digitsOf lo))
  | none => ([], [])

/-- The order of texts by their halves: the shorter half is first, of halves of one length the
one that is first as a text. -/
def Before (s t : List Char) : Prop :=
  Prod.Lex (List.Shortlex (· < ·)) (List.Shortlex (· < ·)) (halves s) (halves t)

/-- What is expected of two texts: each is accepted if it is a position, and what they are read
as is in the order that the texts are in. -/
structure ReadAsWritten (s t : List Char) : Prop where
  /-- the first is accepted exactly when it is a position -/
  accepted : (∃ x, fromStr s = .ok x) ↔ IsPosition s
  /-- and so is the second -/
  accepted' : (∃ y, fromStr t = .ok y) ↔ IsPosition t
  /-- one position has one text, but for zeros in front -/
  distinct : ∀ x y, fromStr s = .ok x → fromStr t = .ok y → (x = y ↔ halves s = halves t)
  /-- the order of the texts is that of the positions -/
  ordered : ∀ x y, fromStr s = .ok x → fromStr t = .ok y → (x < y ↔ Before s t)

/-- A half that has a sign, or a number of more than 32 bits. -/
def Unfit (half : List Char) : Prop :=
  half.head? = some '+' ∨ 2 ^ 32 ≤ hexNumber half

/-- Two numerals of 64 bits with a slash between them, one of which is no half. -/
def Overlong (text : List Char) : Prop :=
  ∃ hi lo, text = hi ++ '/' :: lo ∧ IsNumeral hi ∧ IsNumeral lo ∧ (Unfit hi ∨ Unfit lo)

theorem halves_append {hi : List Char} (h : '/' ∉ hi) (lo : List Char) :
    halves (hi ++ '/' :: lo) =
      (Numerals.trimmed (digitsOf hi), Numerals.trimmed (digitsOf lo)) := by
  rw [halves, MySql.splitOnce_append h]

/-- A numeral is a half, or it is not fit to be one. -/
theorem isHalf_iff (h : IsNumeral text) : IsHalf text ↔ ¬Unfit text := by
  constructor
  · rintro ⟨hhex, hlt⟩ (hsign | hlong)
    · exact hhex.notMem (by decide) (List.mem_of_mem_head? hsign)
    · exact absurd hlt hlong.not_gt
  · intro hfit
    obtain ⟨digits, rfl | rfl, hhex, -⟩ := h
    · exact ⟨hhex, Nat.lt_of_not_ge fun hge => hfit (Or.inr hge)⟩
    · exact absurd (Or.inl rfl) hfit

theorem accepted_iff_isPosition (s : List Char) :
    ((∃ x, fromStr s = .ok x) ↔ IsPosition s) ↔ ¬Overlong s := by
  constructor
  · rintro haccepted ⟨hi, lo, rfl, hhi, hlo, hunfit⟩
    have hposition := haccepted.mp ((accepts_iff _).mpr ⟨hi, lo, rfl, hhi, hlo⟩)
    obtain ⟨hhalf, hhalf'⟩ := (isPosition_append hhi.notMem).mp hposition
    rcases hunfit with hunfit | hunfit
    · exact (isHalf_iff hhi).mp hhalf hunfit
    · exact (isHalf_iff hlo).mp hhalf' hunfit
  · intro hfit
    rw [accepts_iff]
    constructor
    · rintro ⟨hi, lo, rfl, hhi, hlo⟩
      refine ⟨hi, lo, rfl, (isHalf_iff hhi).mpr fun hunfit => ?_,
        (isHalf_iff hlo).mpr fun hunfit => ?_⟩
      · exact hfit ⟨hi, lo, rfl, hhi, hlo, Or.inl hunfit⟩
      · exact hfit ⟨hi, lo, rfl, hhi, hlo, Or.inr hunfit⟩
    · rintro ⟨hi, lo, rfl, hhi, hlo⟩
      exact ⟨hi, lo, rfl, hhi.isNumeral, hlo.isNumeral⟩

theorem hexNumber_eq_iff (a b : List Char) : hexNumber a = hexNumber b ↔
    Numerals.trimmed (digitsOf a) = Numerals.trimmed (digitsOf b) :=
  Numerals.value_eq_value_iff (by decide) (digitsOf_lt a) (digitsOf_lt b)

theorem hexNumber_lt_iff (a b : List Char) : hexNumber a < hexNumber b ↔
    List.Shortlex (· < ·) (Numerals.trimmed (digitsOf a)) (Numerals.trimmed (digitsOf b)) :=
  Numerals.value_lt_value_iff (by decide) (digitsOf_lt a) (digitsOf_lt b)

/-- Positions are told apart and put in order by their halves, the upper one first. -/
theorem order_of_halves {hi lo hi' lo' : List Char} (hhi : IsHalf hi) (hlo : IsHalf lo)
    (hhi' : IsHalf hi') (hlo' : IsHalf lo') :
    (hexNumber hi * 2 ^ 32 + hexNumber lo = hexNumber hi' * 2 ^ 32 + hexNumber lo' ↔
        halves (hi ++ '/' :: lo) = halves (hi' ++ '/' :: lo')) ∧
      (hexNumber hi * 2 ^ 32 + hexNumber lo < hexNumber hi' * 2 ^ 32 + hexNumber lo' ↔
        Before (hi ++ '/' :: lo) (hi' ++ '/' :: lo')) := by
  have hlow := hlo.2
  have hlow' := hlo'.2
  rw [Before, halves_append hhi.isNumeral.notMem, halves_append hhi'.isNumeral.notMem,
    Prod.mk.injEq, Prod.lex_def, ← hexNumber_eq_iff, ← hexNumber_eq_iff, ← hexNumber_lt_iff,
    ← hexNumber_lt_iff]
  constructor <;> omega

/-- A position is read back as it is displayed. Of two texts each is accepted if it is a position
and only then, and they are read in the order they are written in, unless one of them has a half
with a sign or of more than 32 bits. -/
theorem positions_in_text (x : UInt64) (s t : List Char) :
    fromStr (fmt x.toNat) = .ok x.toNat ∧
      (ReadAsWritten s t ↔ ¬Overlong s ∧ ¬Overlong t) := by
  refine ⟨fromStr_fmt x.toNat_lt, fun h => ?_, fun ⟨hs, ht⟩ => ?_⟩
  · exact ⟨(accepted_iff_isPosition s).mp h.accepted, (accepted_iff_isPosition t).mp h.accepted'⟩
  · have haccepted := (accepted_iff_isPosition s).mpr hs
    have haccepted' := (accepted_iff_isPosition t).mpr ht
    -- both texts are positions, so what is read is made of the numbers of their halves
    have horder : ∀ x y, fromStr s = .ok x → fromStr t = .ok y →
        (x = y ↔ halves s = halves t) ∧ (x < y ↔ Before s t) := by
      intro x y hx hy
      obtain ⟨hi, lo, rfl, hhi, hlo⟩ := haccepted.mp ⟨x, hx⟩
      obtain ⟨hi', lo', rfl, hhi', hlo'⟩ := haccepted'.mp ⟨y, hy⟩
      obtain rfl := Except.ok.inj (hx.symm.trans (fromStr_halves hhi hlo))
      obtain rfl := Except.ok.inj (hy.symm.trans (fromStr_halves hhi' hlo'))
      exact order_of_halves hhi hlo hhi' hlo'
    exact ⟨haccepted, haccepted', fun x y hx hy => (horder x y hx hy).1,
      fun x y hx hy => (horder x y hx hy).2⟩

/-- An upper half of more than 32 bits is shifted out, and a lower one runs into the upper half:
such texts are accepted, and read as a position that has another text. -/
theorem overlong_accepted :
    fromStr "100000000/0".toList = .ok 0 ∧ fromStr "0/0".toList = .ok 0 ∧
      fromStr "1/200000000".toList = .ok (3 * 2 ^ 32) ∧
      ¬ReadAsWritten "100000000/0".toList "0/0".toList ∧
      ¬ReadAsWritten "0/0".toList "1/200000000".toList := by
  refine ⟨by decide +kernel, by decide +kernel, by decide +kernel, fun h => ?_, fun h => ?_⟩
  · have hposition : IsPosition ("100000000".toList ++ '/' :: ['0']) :=
      h.accepted.mp ⟨0, by decide +kernel⟩
    exact absurd ((isPosition_append (by decide +kernel)).mp hposition) (by decide +kernel)
  · have hposition : IsPosition (['1'] ++ '/' :: "200000000".toList) :=
      h.accepted'.mp ⟨3 * 2 ^ 32, by decide +kernel⟩
    exact absurd ((isPosition_append (by decide +kernel)).mp hposition) (by decide +kernel)

end Lsn

end Pg2osync
