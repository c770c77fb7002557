import Mathlib.Algebra.Order.Ring.Rat
import Mathlib.Data.List.TakeWhile
import Mathlib.Tactic.FieldSimp
import Mathlib.Tactic.Ring
import Pg2osync.Decimal
import Pg2osync.Encoding

/-!
# The number that a text denotes

A text of digits, a point and an exponent denotes a rational number, whatever a machine can hold
of it. A double that is read from it is printed as the shortest decimal that is read as the same
double, so the number survives both if it is that decimal.
-/

/-- A decimal, as a rational number. -/
def Decimal.value (d : Decimal) : ℚ :=
  d.mantissa / 10 ^ d.scale

namespace Double

/-! ## The parts of a text -/

/-- The digits behind a point, and what follows them. -/
def splitFraction : List Char → List Char × List Char
  | '.' :: after => (after.takeWhile Char.isDigit, after.dropWhile Char.isDigit)
  | after => ([], after)

/-- The exponent that ends a text, or none. -/
def endExponent : List Char → Option (Bool × ℕ)
  | [] => some (false, 0)
  | c :: exponent => if c = 'e' ∨ c = 'E' then readExponent exponent else none

/-- The digits of a text as one number, how many of them are behind the point, and the
exponent. -/
def numberParts (text : List Char) : Option (ℕ × ℕ × Bool × ℕ) :=
  let whole := text.takeWhile Char.isDigit
  let fraction := (splitFraction (text.dropWhile Char.isDigit)).1
  if whole = [] ∧ fraction = [] then none
  else (endExponent (splitFraction (text.dropWhile Char.isDigit)).2).map fun exponent =>
    (Nat.ofDigitChars 10 (whole ++ fraction) 0, fraction.length, exponent)

/-- A number, from the parts of its text. -/
def partsValue : ℕ × ℕ × Bool × ℕ → ℚ
  | (mantissa, scale, true, exponent) => mantissa / 10 ^ (scale + exponent)
  | (mantissa, scale, false, exponent) => mantissa * 10 ^ exponent / 10 ^ scale

/-- The number that a text denotes. -/
def textValue (text : List Char) : Option ℚ :=
  let (negative, rest) := splitSign text
  (numberParts rest).map fun parts => if negative then -partsValue parts else partsValue parts

/-- A double is read from the parts of its text. -/
theorem readNumber_eq (negative : Bool) (text : List Char) :
    readNumber negative text = (numberParts text).map fun parts =>
      scaled negative parts.1 parts.2.1 parts.2.2 := by
  have hread : ∀ whole : List Char, ∀ tail : List Char × List Char,
      (if whole = [] ∧ tail.1 = [] then none
      else match tail.2 with
        | [] => some (scaled negative (Nat.ofDigitChars 10 (whole ++ tail.1) 0) tail.1.length
            (false, 0))
        | c :: exponent => if c = 'e' ∨ c = 'E' then
            (readExponent exponent).map
              (scaled negative (Nat.ofDigitChars 10 (whole ++ tail.1) 0) tail.1.length)
            else none) =
      (if whole = [] ∧ tail.1 = [] then none
      else (endExponent tail.2).map fun exponent =>
        (Nat.ofDigitChars 10 (whole ++ tail.1) 0, tail.1.length, exponent)).map fun parts =>
          scaled negative parts.1 parts.2.1 parts.2.2 := by
    rintro whole ⟨fraction, rest⟩
    split_ifs
    · rfl
    · cases rest with
      | nil => rfl
      | cons c exponent =>
        rw [endExponent]
        dsimp only
        split_ifs
        · rw [Option.map_map]
          rfl
        · rfl
  exact hread (text.takeWhile Char.isDigit) (splitFraction (text.dropWhile Char.isDigit))

/-! ## Texts that are printed -/

theorem numberParts_digits {digits : List Char} (hne : digits ≠ [])
    (hall : ∀ c ∈ digits, c.isDigit = true) :
    numberParts digits = some (Nat.ofDigitChars 10 digits 0, 0, false, 0) := by
  have htake : digits.takeWhile Char.isDigit = digits := List.takeWhile_eq_self_iff.mpr hall
  have hdrop : digits.dropWhile Char.isDigit = [] := List.dropWhile_eq_nil_iff.mpr hall
  rw [numberParts, htake, hdrop]
  simp [splitFraction, endExponent, hne]

theorem numberParts_fraction {whole fraction : List Char} (hne : whole ≠ [])
    (hwhole : ∀ c ∈ whole, c.isDigit = true) (hfraction : ∀ c ∈ fraction, c.isDigit = true) :
    numberParts (whole ++ '.' :: fraction) =
      some (Nat.ofDigitChars 10 (whole ++ fraction) 0, fraction.length, false, 0) := by
  obtain ⟨htake, hdrop⟩ := Decimal.takeWhile_digits hwhole (.inr ⟨fraction, rfl⟩)
  have htake' : fraction.takeWhile Char.isDigit = fraction := List.takeWhile_eq_self_iff.mpr hfraction
  have hdrop' : fraction.dropWhile Char.isDigit = [] := List.dropWhile_eq_nil_iff.mpr hfraction
  rw [numberParts, htake, hdrop]
  simp [splitFraction, endExponent, hne, htake', hdrop']

variable {text : List Char}

/-- What `Decimal.readNat` reads has these parts. -/
theorem numberParts_of_readNat {n scale : ℕ} (h : Decimal.readNat text = some (n, scale)) :
    numberParts text = some (n, scale, false, 0) := by
  have hwhole : ∀ c ∈ text.takeWhile Char.isDigit, c.isDigit = true := fun c hc =>
    List.mem_takeWhile_imp hc
  have htext := List.takeWhile_append_dropWhile (p := Char.isDigit) (l := text)
  rw [Decimal.readNat] at h
  split at h
  · cases h
  · next hne =>
    split at h
    · next hdrop =>
      cases h
      rw [hdrop, List.append_nil] at htext
      exact (congrArg numberParts htext.symm).trans (numberParts_digits hne hwhole)
    · next c fraction hdrop =>
      split at h
      · next hpoint =>
        cases h
        obtain ⟨rfl, -, hfraction⟩ := hpoint
        rw [hdrop] at htext
        exact (congrArg numberParts htext.symm).trans
          (numberParts_fraction hne hwhole (List.all_eq_true.mp hfraction))
      · cases h

/-- An integer's text denotes it. -/
theorem textValue_of_readInt {n : ℤ} (h : Encoding.readInt text = some n) :
    textValue text = some (n : ℚ) := by
  have hread : ∀ digits : List Char, digits ≠ [] ∧ digits.all Char.isDigit = true →
      numberParts digits = some (Nat.ofDigitChars 10 digits 0, 0, false, 0) := fun digits hdigits =>
    numberParts_digits hdigits.1 (List.all_eq_true.mp hdigits.2)
  unfold Encoding.readInt at h
  split at h
  · split at h
    · next hdigits =>
      cases h
      rw [textValue, splitSign]
      simp [hread _ hdigits, partsValue]
    · cases h
  · split at h
    · next hdigits =>
      cases h
      rw [textValue, splitSign]
      simp [hread _ hdigits, partsValue]
    · cases h
  · next hminus hplus =>
    split at h
    · next hdigits =>
      cases h
      have hsign : splitSign text = (false, text) := by
        rw [splitSign]
        · exact hminus
        · exact hplus
      rw [textValue, hsign]
      simp [hread _ hdigits, partsValue]
    · cases h

theorem splitSign_of_isDigit {c : Char} {rest : List Char} (h : c.isDigit = true) :
    splitSign (c :: rest) = (false, c :: rest) := by
  have hminus : c ≠ '-' := by
    rintro rfl
    cases h
  have hplus : c ≠ '+' := by
    rintro rfl
    cases h
  rw [splitSign]
  · exact fun tail htail => hminus (List.cons.inj htail).1
  · exact fun tail htail => hplus (List.cons.inj htail).1

/-- The text of a decimal denotes it. -/
theorem textValue_print (d : Decimal) : textValue d.print = some d.value := by
  obtain ⟨m, scale⟩ := d
  have hparts := numberParts_of_readNat (Decimal.readNat_printNat m.natAbs scale)
  have habs : ((m.natAbs : ℕ) : ℚ) = |(m : ℚ)| := by
    rw [Nat.cast_natAbs, Int.cast_abs]
  by_cases hneg : m < 0
  · have hprint : Decimal.print ⟨m, scale⟩ = '-' :: Decimal.printNat m.natAbs scale := if_pos hneg
    have hm : |(m : ℚ)| = -m := abs_of_neg (by exact_mod_cast hneg)
    rw [hprint, textValue, splitSign]
    simp only [hparts, Option.map_some, partsValue, habs, hm, Decimal.value, if_true, pow_zero,
      mul_one, neg_div, neg_neg]
  · have hprint : Decimal.print ⟨m, scale⟩ = Decimal.printNat m.natAbs scale := if_neg hneg
    have hm : |(m : ℚ)| = m := abs_of_nonneg (by exact_mod_cast not_lt.mp hneg)
    obtain ⟨c, rest, hhead, hdigit⟩ := Decimal.head_printNat m.natAbs scale
    rw [hprint, textValue, hhead, splitSign_of_isDigit hdigit, ← hhead]
    simp only [hparts, Option.map_some, partsValue, habs, hm, Decimal.value, Bool.false_eq_true,
      if_false, pow_zero, mul_one]

/-! ## What a double is printed as -/

/-- The decimals that a double may be printed as: those next to it with one digit, then with two, and
so on, the nearer one first. -/
def candidates (units : ℕ) : List Decimal :=
  (List.range 17).flatMap fun digits => neighbours units (digits + 1)

/-- A number is the shortest decimal of a double: the first one next to it whose nearest double it
is. -/
def IsShortest (units : ℤ) (q : ℚ) : Prop :=
  (units = 0 ∧ q = 0) ∨ (units ≠ 0 ∧ ∃ front d back, candidates units.natAbs = front ++ d :: back ∧
    (∀ c ∈ front, ofDecimal c ≠ .finite units.natAbs) ∧ ofDecimal d = .finite units.natAbs ∧
    q = if units < 0 then -d.value else d.value)

theorem value_neg (m : ℤ) (scale : ℕ) : Decimal.value ⟨-m, scale⟩ = -Decimal.value ⟨m, scale⟩ := by
  rw [Decimal.value, Decimal.value]
  push_cast
  exact neg_div _ _

/-- **A double is printed as its shortest decimal**: as no other number, unless that is zero. -/
theorem value_toDecimal_iff {units : ℤ} {q : ℚ} (hzero : q = 0 → units = 0) :
    (toDecimal (.finite units)).value = q ↔ IsShortest units q := by
  by_cases hu : units = 0
  · subst hu
    have hvalue : (toDecimal (.finite 0)).value = 0 := by
      simp [toDecimal, Decimal.value]
    rw [hvalue]
    constructor
    · exact fun h => .inl ⟨rfl, h.symm⟩
    · rintro (⟨-, h⟩ | ⟨h, -⟩)
      · exact h.symm
      · exact absurd rfl h
  · have hvalue : (toDecimal (.finite units)).value =
        if units < 0 then -(shortest units.natAbs).value else (shortest units.natAbs).value := by
      rw [toDecimal, if_neg hu]
      generalize shortest units.natAbs = d
      obtain ⟨m, scale⟩ := d
      dsimp only
      split
      · exact value_neg m scale
      · rfl
    have hshortest : shortest units.natAbs =
        ((candidates units.natAbs).find? fun d => ofDecimal d = .finite units.natAbs).getD ⟨0, 0⟩ :=
      rfl
    rw [hvalue, hshortest, IsShortest]
    generalize candidates units.natAbs = all
    generalize units.natAbs = n
    cases hfind : all.find? fun d => ofDecimal d = .finite n with
    | none =>
      have hnone : (if units < 0 then -Decimal.value ⟨0, 0⟩ else Decimal.value ⟨0, 0⟩) = 0 := by
        simp [Decimal.value]
      rw [Option.getD_none, hnone]
      constructor
      · exact fun h => absurd (hzero h.symm) hu
      · rintro (⟨h, -⟩ | ⟨-, front, d, back, hall, -, hd, -⟩)
        · exact absurd h hu
        · have := List.find?_eq_none.mp hfind d (hall ▸ List.mem_append_right _ List.mem_cons_self)
          exact absurd (decide_eq_true hd) this
    | some d =>
      rw [Option.getD_some]
      obtain ⟨hd, front, back, hall, hfront⟩ := List.find?_eq_some_iff_append.mp hfind
      have hfirst : ∀ c ∈ front, ofDecimal c ≠ .finite n := fun c hc => by
        simpa using hfront c hc
      constructor
      · exact fun h => .inr ⟨hu, front, d, back, hall, hfirst, of_decide_eq_true hd, h.symm⟩
      · rintro (⟨h, -⟩ | ⟨-, front', d', back', hall', hfirst', hd', h⟩)
        · exact absurd h hu
        · have hfind' : all.find? (fun d => ofDecimal d = .finite n) = some d' :=
            List.find?_eq_some_iff_append.mpr ⟨decide_eq_true hd', front', back', hall',
              fun c hc => by simpa using hfirst' c hc⟩
          rw [hfind] at hfind'
          rw [Option.some.inj hfind', h]

theorem ofFraction_zero (negative : Bool) (d : ℕ) : ofFraction negative 0 d = .finite 0 := by
  have hround : ∀ d, roundHalfEven 0 d = 0 := by
    intro d
    rw [roundHalfEven]
    cases d with
    | zero => rfl
    | succ d => simp
  have hpos : 0 < one := by decide +kernel
  have hone : ∀ k, ¬2 ^ k * one ≤ 0 := fun k =>
    Nat.not_le.mpr (Nat.mul_pos (Nat.two_pow_pos k) hpos)
  rw [ofFraction, Nat.zero_mul, hround, Nat.zero_mul, if_neg (hone _)]
  cases negative with
  | false => rfl
  | true => rfl

theorem scaled_zero (negative : Bool) (scale : ℕ) (exponent : Bool × ℕ) :
    scaled negative 0 scale exponent = .finite 0 := by
  obtain ⟨negativeExponent, exponent⟩ := exponent
  cases negativeExponent with
  | false => rw [scaled, Nat.zero_mul, ofFraction_zero]
  | true => rw [scaled, ofFraction_zero]

theorem partsValue_eq_zero {mantissa scale : ℕ} {exponent : Bool × ℕ}
    (h : partsValue (mantissa, scale, exponent) = 0) : mantissa = 0 := by
  obtain ⟨negative, exponent⟩ := exponent
  have hten : ∀ k, (10 : ℚ) ^ k ≠ 0 := fun k => pow_ne_zero k (by norm_num)
  cases negative with
  | false =>
    rw [partsValue, div_eq_zero_iff, or_iff_left (hten _), mul_eq_zero, or_iff_left (hten _)] at h
    exact_mod_cast h
  | true =>
    rw [partsValue, div_eq_zero_iff, or_iff_left (hten _)] at h
    exact_mod_cast h

/-- A text that is read as a finite double denotes a number, and zero only if the double is. -/
theorem textValue_of_read {units : ℤ} (h : read text = some (.finite units)) :
    ∃ q, textValue text = some q ∧ (q = 0 → units = 0) := by
  rw [read] at h
  rcases hsplit : splitSign text with ⟨negative, rest⟩
  rw [hsplit] at h
  dsimp only at h
  split at h
  · cases h
  · split at h
    · cases h
    · rw [readNumber_eq] at h
      obtain ⟨⟨mantissa, scale, exponent⟩, hparts, hscaled⟩ := Option.map_eq_some_iff.mp h
      have htext : textValue text = some (if negative = true then
          -partsValue (mantissa, scale, exponent) else partsValue (mantissa, scale, exponent)) := by
        rw [textValue, hsplit]
        simp only [hparts, Option.map_some]
      refine ⟨_, htext, fun hzero => ?_⟩
      have hvalue : partsValue (mantissa, scale, exponent) = 0 := by
        cases negative with
        | false => exact hzero
        | true => exact neg_eq_zero.mp hzero
      rw [partsValue_eq_zero hvalue, scaled_zero] at hscaled
      cases hscaled
      rfl

end Double
