import Mathlib.Data.List.Basic
import Mathlib.Tactic.Ring

/-!
# Decimals and doubles

A decimal is an integer and the number of its digits that stand behind the point. It
is printed with that many of them and read back as it was.

A finite double is an integer number of units of the least positive one, so that two
doubles are compared as integers. The double of a fraction is the nearest one, the
even one of two that are equally near.
-/

/-- An integer whose last `scale` digits stand behind the point. -/
structure Decimal : Type where
  mantissa : ℤ
  scale : ℕ
  deriving DecidableEq, Repr

namespace Decimal

/-- An integer. -/
def ofInt (n : ℤ) : Decimal := ⟨n, 0⟩

/-- Comparison, as rational numbers. -/
def cmp (a b : Decimal) : Ordering :=
  compare (a.mantissa * 10 ^ b.scale) (b.mantissa * 10 ^ a.scale)

/-- The digits of a natural number, with zeros in front so that there is at least one
before the point. -/
def digits (n scale : ℕ) : List Char :=
  let written := Nat.toDigits 10 n
  List.replicate (scale + 1 - written.length) '0' ++ written

/-- The text of a decimal without its sign. -/
def printNat (n scale : ℕ) : List Char :=
  let all := digits n scale
  let whole := all.take (all.length - scale)
  if scale = 0 then whole else whole ++ '.' :: all.drop (all.length - scale)

/-- The text of a decimal. -/
def print (d : Decimal) : List Char :=
  if d.mantissa < 0 then '-' :: printNat d.mantissa.natAbs d.scale
  else printNat d.mantissa.natAbs d.scale

/-- Digits, a point and digits, or digits alone. -/
def readNat (text : List Char) : Option (ℕ × ℕ) :=
  let whole := text.takeWhile Char.isDigit
  if whole = [] then none
  else
    match text.dropWhile Char.isDigit with
    | [] => some (Nat.ofDigitChars 10 whole 0, 0)
    | c :: fraction =>
      if c = '.' ∧ fraction ≠ [] ∧ fraction.all Char.isDigit then
        some (Nat.ofDigitChars 10 (whole ++ fraction) 0, fraction.length)
      else none

/-- A decimal, from its text. -/
def read (text : List Char) : Option Decimal :=
  match text with
  | '-' :: rest => (readNat rest).map fun (n, scale) => ⟨-n, scale⟩
  | _ => (readNat text).map fun (n, scale) => ⟨n, scale⟩

theorem ofDigitChars_digits (n scale : ℕ) : Nat.ofDigitChars 10 (digits n scale) 0 = n := by
  simp only [digits, Nat.ofDigitChars_append, Nat.ofDigitChars_replicate_zero, Nat.mul_zero,
    Nat.ofDigitChars_ten_toDigits]

theorem isDigit_digits {n scale : ℕ} {c : Char} (h : c ∈ digits n scale) : c.isDigit = true := by
  rcases List.mem_append.mp h with h | h
  · rw [(List.mem_replicate.mp h).2]
    decide
  · exact Nat.isDigit_of_mem_toDigits (by decide) (by decide) h

theorem lt_length_digits (n scale : ℕ) : scale < (digits n scale).length := by
  have := Nat.length_toDigits_pos (b := 10) (n := n)
  simp only [digits, List.length_append, List.length_replicate]
  omega

theorem takeWhile_digits {whole rest : List Char} (hwhole : ∀ c ∈ whole, c.isDigit = true)
    (hrest : rest = [] ∨ ∃ tail, rest = '.' :: tail) :
    (whole ++ rest).takeWhile Char.isDigit = whole ∧
      (whole ++ rest).dropWhile Char.isDigit = rest := by
  rw [List.takeWhile_append_of_pos hwhole, List.dropWhile_append_of_pos hwhole]
  rcases hrest with rfl | ⟨tail, rfl⟩
  · simp
  · constructor <;> simp [Char.isDigit]

/-- What is printed is read back. -/
theorem readNat_printNat (n scale : ℕ) : readNat (printNat n scale) = some (n, scale) := by
  have hlt := lt_length_digits n scale
  set all := digits n scale with hall
  set whole := all.take (all.length - scale) with hwhole
  set fraction := all.drop (all.length - scale) with hfraction
  have hsplit : whole ++ fraction = all := List.take_append_drop _ _
  have hdigits : ∀ c ∈ all, c.isDigit = true := fun c hc => isDigit_digits (hall ▸ hc)
  have hwholeDigits : ∀ c ∈ whole, c.isDigit = true := fun c hc =>
    hdigits c (List.mem_of_mem_take hc)
  have hvalue : Nat.ofDigitChars 10 all 0 = n := ofDigitChars_digits n scale
  have hne : whole ≠ [] := fun h => by
    have hlen := congrArg List.length h
    rw [hwhole, List.length_take, List.length_nil] at hlen
    omega
  have hprint : printNat n scale = if scale = 0 then whole else whole ++ '.' :: fraction := rfl
  rw [hprint]
  by_cases hs : scale = 0
  · obtain ⟨htake, hdrop⟩ := takeWhile_digits hwholeDigits (.inl rfl)
    rw [List.append_nil] at htake hdrop
    have hfull : whole = all := by
      rw [hwhole, hs, Nat.sub_zero, List.take_length]
    rw [if_pos hs]
    simp only [readNat, htake, hdrop, if_neg hne]
    rw [hfull, hvalue, hs]
  · obtain ⟨htake, hdrop⟩ := takeWhile_digits hwholeDigits (.inr ⟨fraction, rfl⟩)
    have hlen : fraction.length = scale := by
      rw [hfraction, List.length_drop]
      omega
    have hnonempty : fraction ≠ [] := fun h => hs (by rw [← hlen, h]; rfl)
    have hfractionDigits : fraction.all Char.isDigit = true :=
      List.all_eq_true.mpr fun c hc => hdigits c (List.mem_of_mem_drop hc)
    rw [if_neg hs]
    simp only [readNat, htake, hdrop, if_neg hne]
    rw [if_pos ⟨trivial, hnonempty, hfractionDigits⟩, hsplit, hvalue, hlen]

/-- A printed number begins with a digit. -/
theorem head_printNat (n scale : ℕ) : ∃ c rest, printNat n scale = c :: rest ∧ c.isDigit = true := by
  have hlt := lt_length_digits n scale
  cases h : digits n scale with
  | nil => simp [h] at hlt
  | cons c rest =>
    have hdigit : c.isDigit = true := isDigit_digits (h ▸ List.mem_cons_self)
    have htake : ∃ more, (digits n scale).take ((digits n scale).length - scale) = c :: more := by
      obtain ⟨k, hk⟩ : ∃ k, (digits n scale).length - scale = k + 1 :=
        ⟨(digits n scale).length - scale - 1, by omega⟩
      exact ⟨rest.take k, by rw [hk, h, List.take_succ_cons]⟩
    obtain ⟨more, hmore⟩ := htake
    simp only [printNat, hmore]
    by_cases hs : scale = 0
    · exact ⟨c, more, if_pos hs, hdigit⟩
    · exact ⟨c, _, by rw [if_neg hs]; rfl, hdigit⟩

theorem read_print (d : Decimal) : read d.print = some d := by
  obtain ⟨m, scale⟩ := d
  have hback := readNat_printNat m.natAbs scale
  by_cases hneg : m < 0
  · have hprint : print ⟨m, scale⟩ = '-' :: printNat m.natAbs scale := if_pos hneg
    rw [hprint, read, hback, Option.map_some]
    have : -((m.natAbs : ℕ) : ℤ) = m := by omega
    simp only [this]
  · have hprint : print ⟨m, scale⟩ = printNat m.natAbs scale := if_neg hneg
    obtain ⟨c, rest, hhead, hdigit⟩ := head_printNat m.natAbs scale
    have hsign : c ≠ '-' := fun h => by
      rw [h] at hdigit
      revert hdigit
      decide
    have hread : read (printNat m.natAbs scale) =
        (readNat (printNat m.natAbs scale)).map fun (n, scale) => ⟨n, scale⟩ := by
      rw [hhead, read]
      intro tail htail
      exact hsign (List.cons.inj htail).1
    rw [hprint, hread, hback, Option.map_some]
    have : ((m.natAbs : ℕ) : ℤ) = m := by omega
    simp only [this]

end Decimal

/-- A binary64 number. A finite one is a number of units of 2 to the power of -1074. -/
inductive Double : Type where
  | finite (units : ℤ) : Double
  | infinite (negative : Bool) : Double
  | nan : Double
  deriving DecidableEq, Repr

namespace Double

/-- How many units make one. -/
def one : ℕ := 2 ^ 1074

/-- The integer nearest to a fraction, the even one of two. -/
def roundHalfEven (n d : ℕ) : ℕ :=
  let q := n / d
  let r := n % d
  if 2 * r < d then q else if d < 2 * r then q + 1 else q + q % 2

/-- Rounding adds no more than one. -/
theorem roundHalfEven_le (n d : ℕ) : roundHalfEven n d ≤ n / d + 1 := by
  simp only [roundHalfEven]
  split
  · omega
  · split <;> omega

/-- The double nearest to a fraction: 53 bits of it, counted from the first that is set,
but none below a unit. -/
def ofFraction (negative : Bool) (n d : ℕ) : Double :=
  let cut := 2 ^ (Nat.log2 (n * one / d) - 52)
  let units := roundHalfEven (n * one) (d * cut) * cut
  if 2 ^ 1024 * one ≤ units then .infinite negative
  else .finite (if negative then -units else units)

/-- The double nearest to a decimal. -/
def ofDecimal (d : Decimal) : Double :=
  ofFraction (d.mantissa < 0) d.mantissa.natAbs (10 ^ d.scale)

/-- The double nearest to an integer. -/
def ofInt (n : ℤ) : Double := ofDecimal (.ofInt n)

/-- Comparison; a NaN has no place in the order. -/
def cmp : Double → Double → Option Ordering
  | .nan, _ | _, .nan => none
  | .finite a, .finite b => some (compare a b)
  | .infinite a, .infinite b => some (compare b a)
  | .infinite negative, .finite _ => some (if negative then .lt else .gt)
  | .finite _, .infinite negative => some (if negative then .gt else .lt)

/-! ### Text -/

/-- A sign and what follows it. -/
def splitSign : List Char → Bool × List Char
  | '-' :: rest => (true, rest)
  | '+' :: rest => (false, rest)
  | text => (false, text)

/-- The digits of an exponent, with its sign. -/
def readExponent (text : List Char) : Option (Bool × ℕ) :=
  let (negative, digits) := splitSign text
  if digits ≠ [] ∧ digits.all Char.isDigit then some (negative, Nat.ofDigitChars 10 digits 0)
  else none

/-- The nearest double to a mantissa with some digits behind the point and an exponent. -/
def scaled (negative : Bool) (mantissa scale : ℕ) : Bool × ℕ → Double
  | (true, exponent) => ofFraction negative mantissa (10 ^ (scale + exponent))
  | (false, exponent) => ofFraction negative (mantissa * 10 ^ exponent) (10 ^ scale)

/-- A double, from its text: digits with at most one point among them, and an exponent. -/
def readNumber (negative : Bool) (text : List Char) : Option Double :=
  let whole := text.takeWhile Char.isDigit
  let (fraction, rest) := match text.dropWhile Char.isDigit with
    | '.' :: after => (after.takeWhile Char.isDigit, after.dropWhile Char.isDigit)
    | after => ([], after)
  if whole = [] ∧ fraction = [] then none
  else
    let mantissa := Nat.ofDigitChars 10 (whole ++ fraction) 0
    match rest with
    | [] => some (scaled negative mantissa fraction.length (false, 0))
    | c :: exponent =>
      if c = 'e' ∨ c = 'E' then
        (readExponent exponent).map (scaled negative mantissa fraction.length)
      else none

/-- A double, from any text that denotes one. -/
def read (text : List Char) : Option Double :=
  let (negative, rest) := splitSign text
  let word := String.ofList (rest.map Char.toLower)
  if word = "inf" ∨ word = "infinity" then some (.infinite negative)
  else if word = "nan" then some .nan
  else readNumber negative rest

/-- The decimal exponent of the first digit of a positive number of units. -/
def leadingExponent (units : ℕ) : ℤ :=
  if one ≤ units then (Nat.toDigits 10 (units / one)).length - 1
  else -((Nat.toDigits 10 ((one - 1) / units)).length : ℤ)

/-- The two decimals with a number of digits that a number of units lies between, the
nearer one first. -/
def neighbours (units count : ℕ) : List Decimal :=
  let shift := leadingExponent units - (count - 1)
  let (n, d, up, down) := match shift with
    | .ofNat e => (units, one * 10 ^ e, 10 ^ e, 0)
    | .negSucc e => (units * 10 ^ (e + 1), one, 1, e + 1)
  let below : Decimal := ⟨(n / d * up : ℕ), down⟩
  let above : Decimal := ⟨((n / d + 1) * up : ℕ), down⟩
  if 2 * (n % d) ≤ d then [below, above] else [above, below]

/-- The shortest decimal that is read as a number of units. -/
def shortest (units : ℕ) : Decimal :=
  (((List.range 17).flatMap fun digits => neighbours units (digits + 1)).find? fun d =>
    ofDecimal d = .finite units).getD ⟨0, 0⟩

/-- The decimal that a finite double is printed as. -/
def toDecimal : Double → Decimal
  | .finite units =>
    if units = 0 then ⟨0, 0⟩
    else
      let d := shortest units.natAbs
      ⟨if units < 0 then -d.mantissa else d.mantissa, d.scale⟩
  | _ => ⟨0, 0⟩

example : (ofDecimal ⟨1, 1⟩).toDecimal = ⟨1, 1⟩ := by decide +kernel

example : ofInt (2 ^ 53 + 1) = ofInt (2 ^ 53) := by decide +kernel

end Double
