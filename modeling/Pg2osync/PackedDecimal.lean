import Mathlib.Tactic.IntervalCases
import Mathlib.Tactic.Linarith
import Mathlib.Tactic.Ring
import Pg2osync.BinlogValue

/-!
# Packed decimals

The server packs nine decimal digits into four bytes, the high byte first, on both sides of the
point, and what is left over at either end into as few bytes as hold it. The top bit is the sign,
and a negative number has all bits inverted. What is packed is read back as the number's text, with
all the digits of its scale.
-/

namespace Encoding

/-! ## Digits -/

theorem ofDigitChars_concat (l : List Char) (c : Char) :
    Nat.ofDigitChars 10 (l ++ [c]) 0 = 10 * Nat.ofDigitChars 10 l 0 + (c.toNat - '0'.toNat) := by
  rw [Nat.ofDigitChars_append, Nat.ofDigitChars_cons, Nat.ofDigitChars_nil]

variable {l : List Char}

theorem ofDigitChars_lt (h : ∀ c ∈ l, c.isDigit = true) :
    Nat.ofDigitChars 10 l 0 < 10 ^ l.length := by
  induction l using List.reverseRecOn with
  | nil => exact Nat.one_pos
  | append_singleton l c ih =>
    have hc := toNat_of_isDigit (h c (by simp))
    have hl := ih fun d hd => h d (List.mem_append_left _ hd)
    have hzero : '0'.toNat = 48 := rfl
    rw [ofDigitChars_concat, List.length_append, List.length_singleton, pow_succ, hzero]
    omega

/-- Digits are known by how many they are and by their number. -/
theorem digits_ext {l m : List Char} (hl : ∀ c ∈ l, c.isDigit = true)
    (hm : ∀ c ∈ m, c.isDigit = true) (hlength : l.length = m.length)
    (hvalue : Nat.ofDigitChars 10 l 0 = Nat.ofDigitChars 10 m 0) : l = m := by
  induction l using List.reverseRecOn generalizing m with
  | nil => exact (List.eq_nil_of_length_eq_zero hlength.symm).symm
  | append_singleton l c ih =>
    obtain rfl | ⟨m, d, rfl⟩ := List.eq_nil_or_concat' m
    · simp at hlength
    · have hc := toNat_of_isDigit (hl c (by simp))
      have hd := toNat_of_isDigit (hm d (by simp))
      have hzero : '0'.toNat = 48 := rfl
      rw [ofDigitChars_concat, ofDigitChars_concat, hzero] at hvalue
      have hsame : c = d := Char.toNat_inj.mp (by omega)
      have hfront := ih (fun e he => hl e (List.mem_append_left _ he))
        (fun e he => hm e (List.mem_append_left _ he)) (by simpa using hlength) (by omega)
      rw [hfront, hsame]

/-- Digits are a number with zeros ahead of it. -/
theorem padded_ofDigitChars (h : ∀ c ∈ l, c.isDigit = true) (hne : l ≠ []) :
    padded l.length (Nat.ofDigitChars 10 l 0) = l :=
  digits_ext (fun _ => isDigit_padded) h
    (length_padded (List.length_pos_of_ne_nil hne) (ofDigitChars_lt h)) (ofDigitChars_padded _ _)

/-- A number does not begin with a zero. -/
theorem head?_toDigits {n : ℕ} (h : 0 < n) : (Nat.toDigits 10 n).head? ≠ some '0' := by
  induction n using Nat.strongRecOn with
  | ind n ih =>
    by_cases hlt : n < 10
    · rw [Nat.toDigits_of_lt_base hlt]
      interval_cases n <;> decide
    · rw [Nat.toDigits_of_base_le (by decide) (by omega),
        List.head?_append_of_ne_nil _ Nat.toDigits_ne_nil]
      exact ih (n / 10) (by omega) (by omega)

theorem dropWhile_zero_toDigits {n : ℕ} (h : 0 < n) :
    (Nat.toDigits 10 n).dropWhile (fun c => c = '0') = Nat.toDigits 10 n := by
  have hhead := head?_toDigits h
  cases hdigits : Nat.toDigits 10 n with
  | nil => rfl
  | cons c rest =>
    rw [hdigits, List.head?_cons] at hhead
    have hc : c ≠ '0' := fun heq => hhead (congrArg some heq)
    simp [hc]

/-- Digits without the zeros ahead of them are the text of their number. -/
theorem dropWhile_zero_digits (h : ∀ c ∈ l, c.isDigit = true) :
    l.dropWhile (fun c => c = '0') =
      if Nat.ofDigitChars 10 l 0 = 0 then [] else Nat.toDigits 10 (Nat.ofDigitChars 10 l 0) := by
  by_cases hne : l = []
  · subst hne
    rfl
  · have hzeros : ∀ count (rest : List Char),
        (List.replicate count '0' ++ rest).dropWhile (fun c => c = '0') =
          rest.dropWhile (fun c => c = '0') := fun count rest =>
      List.dropWhile_append_of_pos fun c hc => decide_eq_true (List.eq_of_mem_replicate hc)
    conv => lhs; rw [← padded_ofDigitChars h hne, padded, hzeros]
    split
    · next hzero =>
      rw [hzero]
      rfl
    · next hpos => exact dropWhile_zero_toDigits (Nat.pos_of_ne_zero hpos)

/-! ## Groups of nine digits -/

/-- The last groups of nine digits of a number, the high one first. -/
def ninesOf : ℕ → ℕ → List ℕ
  | 0, _ => []
  | count + 1, n => ninesOf count (n / 10 ^ 9) ++ [n % 10 ^ 9]

/-- The digits of the groups. -/
def ninesText (count n : ℕ) : List Char :=
  (ninesOf count n).flatMap (padded 9)

theorem ninesText_succ (count n : ℕ) :
    ninesText (count + 1) n = ninesText count (n / 10 ^ 9) ++ padded 9 (n % 10 ^ 9) := by
  rw [ninesText, ninesOf, List.flatMap_append, List.flatMap_singleton]
  rfl

theorem isDigit_ninesText {count n : ℕ} {c : Char} (h : c ∈ ninesText count n) :
    c.isDigit = true := by
  obtain ⟨group, -, hc⟩ := List.mem_flatMap.mp h
  exact isDigit_padded hc

theorem length_padded_nine (n : ℕ) : (padded 9 (n % 10 ^ 9)).length = 9 :=
  length_padded (by decide) (Nat.mod_lt _ (by decide))

theorem length_ninesText (count n : ℕ) : (ninesText count n).length = 9 * count := by
  induction count generalizing n with
  | zero => rfl
  | succ count ih =>
    rw [ninesText_succ, List.length_append, ih, length_padded_nine, Nat.mul_succ]

theorem ofDigitChars_ninesText (count n : ℕ) :
    Nat.ofDigitChars 10 (ninesText count n) 0 = n % 10 ^ (9 * count) := by
  induction count generalizing n with
  | zero => rw [Nat.mul_zero, pow_zero, Nat.mod_one]; rfl
  | succ count ih =>
    rw [ninesText_succ, Nat.ofDigitChars_append, Nat.ofDigitChars_eq_ofDigitChars_zero,
      ofDigitChars_padded, length_padded_nine, ih, Nat.mul_succ, Nat.add_comm (9 * count) 9, pow_add,
      Nat.mod_mul]
    omega

/-- The bytes of the groups. -/
def ninesBytes (count n : ℕ) : List UInt8 :=
  (ninesOf count n).flatMap (toBigEndian 4)

theorem ninesBytes_succ (count n : ℕ) :
    ninesBytes (count + 1) n = ninesBytes count (n / 10 ^ 9) ++ toBigEndian 4 (n % 10 ^ 9) := by
  rw [ninesBytes, ninesOf, List.flatMap_append, List.flatMap_singleton]
  rfl

@[simp] theorem length_ninesBytes (count n : ℕ) : (ninesBytes count n).length = 4 * count := by
  induction count generalizing n with
  | zero => rfl
  | succ count ih =>
    rw [ninesBytes_succ, List.length_append, ih, length_toBigEndian, Nat.mul_succ]

end Encoding

namespace Pg2osync

namespace MySql

open Encoding

/-- Groups between other bytes are read. -/
theorem nines_eq (front back : List UInt8) (count n : ℕ) :
    nines (front ++ (ninesBytes count n ++ back)) front.length count =
      ninesText count n := by
  induction count generalizing n back with
  | zero => rfl
  | succ count ih =>
    have hsucc : ∀ buf pos, nines buf pos (count + 1) = nines buf pos count ++
        padded 9 (bigEndian ((buf.drop (pos + 4 * count)).take 4)) := by
      intro buf pos
      rw [nines, List.range_succ, List.flatMap_append, List.flatMap_singleton]
      rfl
    have hfront := ih (toBigEndian 4 (n % 10 ^ 9) ++ back) (n / 10 ^ 9)
    have hlast : (front ++ (ninesBytes count (n / 10 ^ 9) ++
        (toBigEndian 4 (n % 10 ^ 9) ++ back))).drop (front.length + 4 * count) =
        toBigEndian 4 (n % 10 ^ 9) ++ back := by
      rw [← List.append_assoc]
      exact List.drop_left' (by simp)
    have htake : (toBigEndian 4 (n % 10 ^ 9) ++ back).take 4 =
        toBigEndian 4 (n % 10 ^ 9) := List.take_left' (by simp)
    have hlt : n % 10 ^ 9 < 256 ^ 4 := by omega
    rw [hsucc, ninesBytes_succ, List.append_assoc, hfront, hlast, htake,
      bigEndian_toBigEndian, Nat.mod_eq_of_lt hlt, ninesText_succ]

/-- A group of digits fits its bytes, with a bit to spare. -/
theorem pow_lt_digBytes {digits : ℕ} (hpos : 0 < digits) (hle : digits ≤ 9) :
    2 * 10 ^ digits ≤ 256 ^ digBytes digits := by
  interval_cases digits <;> decide

/-- A decimal of some digits, as a column or a document holds it: zero has no sign. -/
structure StoredDecimal : Type where
  /-- how many digits it may have -/
  precision : ℕ
  /-- how many of them are behind the point -/
  scale : ℕ
  /-- whether it is below zero -/
  negative : Bool
  /-- its digits, as one number -/
  magnitude : ℕ
  precision_pos : 0 < precision
  precision_le : precision ≤ 65
  scale_le : scale ≤ precision
  scale_le_thirty : scale ≤ 30
  magnitude_lt : magnitude < 10 ^ precision
  sign : negative = true → 0 < magnitude

namespace StoredDecimal

variable (d : StoredDecimal)

/-- The digits before the point. -/
def whole : ℕ :=
  d.magnitude / 10 ^ d.scale

/-- And behind it. -/
def fraction : ℕ :=
  d.magnitude % 10 ^ d.scale

/-- How many digits may stand before the point. -/
def intg : ℕ :=
  d.precision - d.scale

/-- The bytes without the sign. -/
def plain : List UInt8 :=
  Encoding.toBigEndian (digBytes (d.intg % 9)) (d.whole / 10 ^ (9 * (d.intg / 9))) ++
    (Encoding.ninesBytes (d.intg / 9) d.whole ++
      (Encoding.ninesBytes (d.scale / 9) (d.fraction / 10 ^ (d.scale % 9)) ++
        Encoding.toBigEndian (digBytes (d.scale % 9)) (d.fraction % 10 ^ (d.scale % 9))))

/-- The bytes: the top bit is set, and all are inverted of a negative one. -/
def image : List UInt8 :=
  let marked := (d.plain.headD 0 ||| 0x80) :: d.plain.tail
  if d.negative then marked.map fun b => ~~~b else marked

/-- The text: the digits of its scale are all there. -/
def text : List Char :=
  (if d.negative then ['-'] else []) ++ (Nat.toDigits 10 d.whole ++
    if d.scale = 0 then [] else '.' :: Encoding.padded d.scale d.fraction)

theorem whole_lt : d.whole < 10 ^ d.intg := by
  rw [whole, Nat.div_lt_iff_lt_mul (Nat.pow_pos (by decide)), ← pow_add, intg,
    Nat.sub_add_cancel d.scale_le]
  exact d.magnitude_lt

theorem fraction_lt : d.fraction < 10 ^ d.scale :=
  Nat.mod_lt _ (Nat.pow_pos (by decide))

/-- The first group. -/
theorem first_lt : d.whole / 10 ^ (9 * (d.intg / 9)) < 10 ^ (d.intg % 9) := by
  rw [Nat.div_lt_iff_lt_mul (Nat.pow_pos (by decide)), ← pow_add, Nat.mod_add_div]
  exact d.whole_lt

theorem length_plain : d.plain.length = d.intg / 9 * 4 + digBytes (d.intg % 9) + d.scale / 9 * 4 +
    digBytes (d.scale % 9) := by
  simp only [plain, List.length_append, length_toBigEndian, length_ninesBytes]
  omega

theorem digBytes_pos {digits : ℕ} (hpos : 0 < digits) (hle : digits ≤ 9) : 0 < digBytes digits := by
  interval_cases digits <;> decide

/-- The high byte of a number that leaves its top bit free. -/
theorem head_toBigEndian_lt {width n : ℕ} (hwidth : 0 < width) (h : 2 * n < 256 ^ width) :
    ((toBigEndian width n).headD 0).toNat < 128 := by
  have hne : toLittleEndian width n ≠ [] := fun h => by
    have := congrArg List.length h
    rw [length_toLittleEndian, List.length_nil] at this
    omega
  have hhead : (toBigEndian width n).headD 0 =
      (toLittleEndian width n).getLastD 0 := by
    rw [toBigEndian, List.headD_eq_head?_getD, List.head?_reverse,
      List.getLastD_eq_getLast?]
  have hhalf := half_le_getLastD hne
  rw [length_toLittleEndian, littleEndian_toLittleEndian,
    Nat.mod_eq_of_lt (by omega)] at hhalf
  rw [hhead]
  omega

/-- The top bit is free for the sign. -/
theorem plain_top : d.plain ≠ [] ∧ (d.plain.headD 0).toNat < 128 := by
  have happend : ∀ {xs ys : List UInt8}, xs ≠ [] → (xs.headD 0).toNat < 128 →
      xs ++ ys ≠ [] ∧ ((xs ++ ys).headD 0).toNat < 128 := by
    intro xs ys hne hlt
    cases xs with
    | nil => exact absurd rfl hne
    | cons x xs => exact ⟨List.cons_ne_nil _ _, hlt⟩
  have hgroup : ∀ {digits n : ℕ} {ys : List UInt8}, 0 < digits → digits ≤ 9 → n < 10 ^ digits →
      toBigEndian (digBytes digits) n ++ ys ≠ [] ∧
        ((toBigEndian (digBytes digits) n ++ ys).headD 0).toNat < 128 := by
    intro digits n ys hpos hle hlt
    have hbytes := digBytes_pos hpos hle
    refine happend (fun h => ?_) (head_toBigEndian_lt hbytes ?_)
    · have := congrArg List.length h
      rw [length_toBigEndian, List.length_nil] at this
      omega
    · exact Nat.lt_of_lt_of_le (by omega) (pow_lt_digBytes hpos hle)
  have hnines : ∀ {count n : ℕ} {ys : List UInt8}, 0 < count → ninesBytes count n ++ ys ≠ [] ∧
      ((ninesBytes count n ++ ys).headD 0).toNat < 128 := by
    intro count
    induction count with
    | zero => exact fun h => absurd h (Nat.lt_irrefl 0)
    | succ count ih =>
      intro n ys _
      rw [ninesBytes_succ, List.append_assoc]
      rcases Nat.eq_zero_or_pos count with rfl | hcount
      · exact hgroup (show 0 < 9 by decide) (by decide) (Nat.mod_lt _ (by decide))
      · exact ih hcount
  have hempty : digBytes 0 = 0 := rfl
  have hnil : ∀ n, toBigEndian 0 n = [] := fun _ => rfl
  have hnone : ∀ n, ninesBytes 0 n = [] := fun _ => rfl
  have hdigits := d.precision_pos
  have hscale := d.scale_le
  rw [plain]
  rcases Nat.eq_zero_or_pos (d.intg % 9) with hfirst | hfirst
  · rw [hfirst, hempty, hnil, List.nil_append]
    rcases Nat.eq_zero_or_pos (d.intg / 9) with hwhole | hwhole
    · rw [hwhole, hnone, List.nil_append]
      have hall : 0 < d.scale := by
        have : d.intg = 0 := by omega
        rw [intg] at this
        omega
      rcases Nat.eq_zero_or_pos (d.scale / 9) with hfraction | hfraction
      · rw [hfraction, hnone, List.nil_append]
        have hlast := @hgroup (d.scale % 9) (d.fraction % 10 ^ (d.scale % 9)) []
          (by omega) (by omega) (Nat.mod_lt _ (Nat.pow_pos (by decide)))
        rwa [List.append_nil] at hlast
      · exact hnines hfraction
    · exact hnines hwhole
  · exact hgroup hfirst (by omega) d.first_lt

set_option maxRecDepth 2000 in
/-- A bit that is set is seen, and taken away. -/
theorem mark_byte {b : UInt8} (h : b.toNat < 128) :
    (b ||| 0x80) &&& 0x80 ≠ 0 ∧ (b ||| 0x80) &&& 0x7F = b ∧ ~~~(b ||| 0x80) &&& 0x80 = 0 ∧
      ~~~ ~~~(b ||| 0x80) = b ||| 0x80 := by
  have hall : ∀ n < 128, (UInt8.ofNat n ||| 0x80) &&& 0x80 ≠ 0 ∧
      (UInt8.ofNat n ||| 0x80) &&& 0x7F = UInt8.ofNat n ∧
      ~~~(UInt8.ofNat n ||| 0x80) &&& 0x80 = 0 ∧
      ~~~ ~~~(UInt8.ofNat n ||| 0x80) = UInt8.ofNat n ||| 0x80 := by
    decide
  have hb := hall b.toNat h
  rwa [UInt8.ofNat_toNat] at hb

/-- The sign is read, and the bytes without it. -/
theorem image_marked : d.image.length = d.plain.length ∧
    ((d.image.headD 0 &&& 0x80 ≠ 0) ↔ d.negative = false) ∧
    ((if d.negative then d.image.map (fun b => ~~~b) else d.image).headD 0 &&& 0x7F) ::
      (if d.negative then d.image.map (fun b => ~~~b) else d.image).tail = d.plain := by
  obtain ⟨hne, htop⟩ := d.plain_top
  obtain ⟨b, rest, hplain⟩ := List.exists_cons_of_ne_nil hne
  rw [hplain, List.headD_cons] at htop
  obtain ⟨hset, hclear, hunset, hback⟩ := mark_byte htop
  cases hnegative : d.negative with
  | false =>
    simp only [image, hnegative, hplain, Bool.false_eq_true, if_false, List.headD_cons,
      List.tail_cons, List.length_cons, hclear, iff_true, and_true, true_and]
    exact hset
  | true =>
    have htwice : (rest.map fun b => ~~~b).map (fun b => ~~~b) = rest := by
      rw [List.map_map]
      refine (List.map_congr_left fun b _ => ?_).trans (List.map_id rest)
      exact UInt8.not_not
    simp only [image, hnegative, hplain, if_true, List.map_cons, List.headD_cons, List.tail_cons,
      List.length_cons, List.length_map, hback, hclear, htwice, hunset, ne_eq, not_true_eq_false,
      Bool.true_eq_false, and_true]

/-- The digits before the point are read. -/
theorem whole_read : ((if 0 < d.intg % 9 then Nat.toDigits 10 (bigEndian
      (d.plain.take (digBytes (d.intg % 9)))) else []) ++
    nines d.plain (digBytes (d.intg % 9)) (d.intg / 9)).dropWhile (fun c => c = '0') =
      if d.whole = 0 then [] else Nat.toDigits 10 d.whole := by
  have hlength := length_toBigEndian (digBytes (d.intg % 9))
    (d.whole / 10 ^ (9 * (d.intg / 9)))
  have hnines : nines d.plain (digBytes (d.intg % 9)) (d.intg / 9) =
      ninesText (d.intg / 9) d.whole := by
    have := nines_eq (toBigEndian (digBytes (d.intg % 9))
      (d.whole / 10 ^ (9 * (d.intg / 9)))) (ninesBytes (d.scale / 9)
        (d.fraction / 10 ^ (d.scale % 9)) ++ toBigEndian (digBytes (d.scale % 9))
          (d.fraction % 10 ^ (d.scale % 9))) (d.intg / 9) d.whole
    rwa [hlength] at this
  have hfirst : d.plain.take (digBytes (d.intg % 9)) =
      toBigEndian (digBytes (d.intg % 9)) (d.whole / 10 ^ (9 * (d.intg / 9))) :=
    List.take_left' hlength
  have hlt := d.first_lt
  rw [hnines, hfirst, bigEndian_toBigEndian]
  generalize htop : d.whole / 10 ^ (9 * (d.intg / 9)) = top at hlt
  have hvalue : top * 10 ^ (9 * (d.intg / 9)) + d.whole % 10 ^ (9 * (d.intg / 9)) = d.whole := by
    rw [← htop]
    exact Nat.div_add_mod' _ _
  have hdigits : ∀ text : List Char, (∀ c ∈ text, c.isDigit = true) →
      Nat.ofDigitChars 10 text 0 = top →
      (text ++ ninesText (d.intg / 9) d.whole).dropWhile (fun c => c = '0') =
        if d.whole = 0 then [] else Nat.toDigits 10 d.whole := by
    intro text htext hread
    have hall : Nat.ofDigitChars 10 (text ++ ninesText (d.intg / 9) d.whole) 0 =
        d.whole := by
      rw [Nat.ofDigitChars_append, Nat.ofDigitChars_eq_ofDigitChars_zero,
        ofDigitChars_ninesText, length_ninesText, hread, Nat.mul_comm, hvalue]
    rw [dropWhile_zero_digits fun c hc => ?_, hall]
    exact (List.mem_append.mp hc).elim (htext c) isDigit_ninesText
  split
  · next hpos =>
    have hfits : top % 256 ^ digBytes (d.intg % 9) = top := Nat.mod_eq_of_lt <| by
      have := pow_lt_digBytes hpos (by omega)
      omega
    rw [hfits]
    exact hdigits _ (fun c hc => Nat.isDigit_of_mem_toDigits (by decide) (by decide) hc)
      Nat.ofDigitChars_ten_toDigits
  · next hnone =>
    have hzero : d.intg % 9 = 0 := by omega
    rw [hzero, pow_zero] at hlt
    exact hdigits [] (fun c hc => by cases hc) (by rw [Nat.ofDigitChars_nil]; omega)

/-- The digits behind the point are read, all of them. -/
theorem fraction_read (hscale : 0 < d.scale) :
    nines d.plain (digBytes (d.intg % 9) + 4 * (d.intg / 9)) (d.scale / 9) ++
      (if 0 < d.scale % 9 then padded (d.scale % 9) (bigEndian
        ((d.plain.drop (digBytes (d.intg % 9) + 4 * (d.intg / 9) + 4 * (d.scale / 9))).take
          (digBytes (d.scale % 9)))) else []) = padded d.scale d.fraction := by
  have hfront : (toBigEndian (digBytes (d.intg % 9)) (d.whole / 10 ^ (9 * (d.intg / 9))) ++
      ninesBytes (d.intg / 9) d.whole).length =
        digBytes (d.intg % 9) + 4 * (d.intg / 9) := by
    simp
  have hplain : d.plain = (toBigEndian (digBytes (d.intg % 9))
      (d.whole / 10 ^ (9 * (d.intg / 9))) ++ ninesBytes (d.intg / 9) d.whole) ++
        (ninesBytes (d.scale / 9) (d.fraction / 10 ^ (d.scale % 9)) ++
          toBigEndian (digBytes (d.scale % 9)) (d.fraction % 10 ^ (d.scale % 9))) := by
    rw [plain, List.append_assoc]
  have hnines := nines_eq (toBigEndian (digBytes (d.intg % 9))
    (d.whole / 10 ^ (9 * (d.intg / 9))) ++ ninesBytes (d.intg / 9) d.whole)
      (toBigEndian (digBytes (d.scale % 9)) (d.fraction % 10 ^ (d.scale % 9))) (d.scale / 9)
        (d.fraction / 10 ^ (d.scale % 9))
  rw [← hplain, hfront] at hnines
  have hlast : (d.plain.drop (digBytes (d.intg % 9) + 4 * (d.intg / 9) + 4 * (d.scale / 9))).take
      (digBytes (d.scale % 9)) =
        toBigEndian (digBytes (d.scale % 9)) (d.fraction % 10 ^ (d.scale % 9)) := by
    rw [hplain, ← List.append_assoc, List.drop_left' (by simp; omega),
      List.take_of_length_le (by simp)]
  have hlt := d.fraction_lt
  have hhigh : d.fraction / 10 ^ (d.scale % 9) < 10 ^ (9 * (d.scale / 9)) := by
    rw [Nat.div_lt_iff_lt_mul (Nat.pow_pos (by decide)), ← pow_add, Nat.div_add_mod]
    exact hlt
  have hsum : d.fraction / 10 ^ (d.scale % 9) * 10 ^ (d.scale % 9) +
      d.fraction % 10 ^ (d.scale % 9) = d.fraction := Nat.div_add_mod' _ _
  rw [hnines, hlast, bigEndian_toBigEndian]
  have hdigits : ∀ last : List Char, (∀ c ∈ last, c.isDigit = true) → last.length = d.scale % 9 →
      Nat.ofDigitChars 10 last 0 = d.fraction % 10 ^ (d.scale % 9) →
      ninesText (d.scale / 9) (d.fraction / 10 ^ (d.scale % 9)) ++ last =
        padded d.scale d.fraction := by
    intro last hlast hlength hread
    refine digits_ext (fun c hc => ?_) (fun _ => isDigit_padded) ?_ ?_
    · exact (List.mem_append.mp hc).elim isDigit_ninesText (hlast c)
    · rw [List.length_append, length_ninesText, hlength, length_padded hscale hlt,
        Nat.div_add_mod]
    · rw [Nat.ofDigitChars_append, Nat.ofDigitChars_eq_ofDigitChars_zero,
        ofDigitChars_ninesText, hlength, hread, Nat.mod_eq_of_lt hhigh, Nat.mul_comm, hsum,
        ofDigitChars_padded]
  have hrest : d.fraction % 10 ^ (d.scale % 9) < 10 ^ (d.scale % 9) :=
    Nat.mod_lt _ (Nat.pow_pos (by decide))
  split
  · next hpos =>
    have hfits : d.fraction % 10 ^ (d.scale % 9) % 256 ^ digBytes (d.scale % 9) =
        d.fraction % 10 ^ (d.scale % 9) := Nat.mod_eq_of_lt <| by
      have := pow_lt_digBytes hpos (by omega)
      omega
    rw [hfits]
    exact hdigits _ (fun _ => isDigit_padded) (length_padded hpos hrest)
      (ofDigitChars_padded _ _)
  · next hnone =>
    have hzero : d.scale % 9 = 0 := by omega
    refine hdigits [] (fun c hc => by cases hc) hzero.symm ?_
    rw [hzero, pow_zero, Nat.mod_one]
    rfl

/-- **What is packed is read back**, with the sign and all digits of the scale, and nothing else. -/
theorem decodeDecimal_image (rest : List UInt8) :
    (decodeDecimal d.precision d.scale).run (d.image ++ rest) =
      .ok (.str (String.ofList d.text), rest) := by
  obtain ⟨hlength, hsign, hplain⟩ := d.image_marked
  have hintg : d.precision - d.scale = d.intg := rfl
  have hfirst : d.intg - d.intg / 9 * 9 = d.intg % 9 := by omega
  have hlast : d.scale - d.scale / 9 * 9 = d.scale % 9 := by omega
  have htotal : d.image.length = d.intg / 9 * 4 + digBytes (d.intg % 9) + d.scale / 9 * 4 +
      digBytes (d.scale % 9) := hlength.trans d.length_plain
  have htake : (R.take (d.intg / 9 * 4 + digBytes (d.intg % 9) + d.scale / 9 * 4 +
      digBytes (d.scale % 9))).run (d.image ++ rest) = .ok (d.image, rest) :=
    R.take_append _ htotal
  have hbuf : (if d.image.headD 0 &&& 0x80 ≠ 0 then d.image else d.image.map fun b => ~~~b) =
      if d.negative then d.image.map (fun b => ~~~b) else d.image := by
    cases hnegative : d.negative with
    | false => rw [if_pos (hsign.mpr hnegative)]; rfl
    | true => rw [if_neg fun h => by rw [hsign.mp h] at hnegative; cases hnegative]; rfl
  unfold decodeDecimal
  simp only [hintg, hfirst, hlast]
  rw [R.run_bind_ok htake]
  simp only [hbuf, hplain]
  simp only [d.whole_read, hsign]
  have hresult : ∀ text, text = d.text → (pure (Json.str (String.ofList text)) : R Json).run rest =
      .ok (.str (String.ofList d.text), rest) := fun _ h => h ▸ rfl
  refine hresult _ ?_
  have hwhole : (if (if d.whole = 0 then [] else Nat.toDigits 10 d.whole) = [] then ['0']
      else if d.whole = 0 then [] else Nat.toDigits 10 d.whole) = Nat.toDigits 10 d.whole := by
    by_cases hzero : d.whole = 0
    · rw [if_pos hzero, if_pos rfl, hzero, Nat.toDigits_zero]
    · rw [if_neg hzero, if_neg Nat.toDigits_ne_nil]
  have hnil : (if d.whole = 0 then [] else Nat.toDigits 10 d.whole) = [] ↔ d.whole = 0 := by
    by_cases hzero : d.whole = 0
    · simp [hzero]
    · simp [hzero, Nat.toDigits_ne_nil]
  rw [text, hwhole, List.append_assoc]
  simp only [hnil]
  have hvalue : d.whole * 10 ^ d.scale + d.fraction = d.magnitude := Nat.div_add_mod' _ _
  rcases Nat.eq_zero_or_pos d.scale with hscale | hscale
  · have hmagnitude : d.negative = false ∨ d.whole ≠ 0 := by
      cases hnegative : d.negative with
      | false => exact .inl rfl
      | true =>
        have hpos := d.sign hnegative
        have hlt := d.fraction_lt
        rw [hscale, pow_zero] at hlt hvalue
        exact .inr (by omega)
    simp only [hscale, List.take_zero, if_true, and_true]
    refine congrArg (· ++ _) ?_
    cases hnegative : d.negative with
    | false => rw [if_pos (.inl rfl)]; rfl
    | true =>
      rw [hnegative] at hmagnitude
      have hne := hmagnitude.resolve_left Bool.noConfusion
      rw [if_neg fun h => h.elim Bool.noConfusion hne]
      rfl
  · have hlength := length_padded hscale d.fraction_lt
    have htaken : (padded d.scale d.fraction).take d.scale =
        padded d.scale d.fraction := List.take_of_length_le hlength.le
    have hne : padded d.scale d.fraction ≠ [] :=
      List.ne_nil_of_length_pos (Nat.lt_of_lt_of_eq hscale hlength.symm)
    rw [d.fraction_read hscale, htaken, if_neg hne, if_neg hscale.ne']
    simp only [hne, and_false, or_false]
    refine congrArg (· ++ _) ?_
    cases d.negative with
    | false => rw [if_pos rfl]; rfl
    | true => rw [if_neg Bool.noConfusion]; rfl

/-! ## Values -/

/-- The value, in units of its last place. -/
def unscaled : ℤ :=
  if d.negative then -d.magnitude else d.magnitude

/-- Each number of so many digits is stored. -/
theorem exists_unscaled {precision scale : ℕ} (hpos : 0 < precision) (hle : precision ≤ 65)
    (hscale : scale ≤ precision) (hthirty : scale ≤ 30) {value : ℤ}
    (hlt : value.natAbs < 10 ^ precision) :
    ∃ d : StoredDecimal, d.precision = precision ∧ d.scale = scale ∧ d.unscaled = value := by
  refine ⟨⟨precision, scale, decide (value < 0), value.natAbs, hpos, hle, hscale, hthirty, hlt,
    fun hneg => ?_⟩, rfl, rfl, ?_⟩
  · have hbelow := of_decide_eq_true hneg
    omega
  · by_cases hneg : value < 0
    · simp only [unscaled, hneg, decide_true, if_true]
      omega
    · simp only [unscaled, hneg, decide_false, Bool.false_eq_true, if_false]
      omega

/-- The digits on both sides of the point, and nothing else. -/
theorem text_digits :
    (∀ c ∈ Nat.toDigits 10 d.whole ++ padded d.scale d.fraction, c.isDigit = true) ∧
      (0 < d.scale → Nat.ofDigitChars 10
        (Nat.toDigits 10 d.whole ++ padded d.scale d.fraction) 0 = d.magnitude) := by
  refine ⟨fun c hc => ?_, fun hscale => ?_⟩
  · exact (List.mem_append.mp hc).elim (Nat.isDigit_of_mem_toDigits (by decide) (by decide))
      isDigit_padded
  · have hlength := length_padded hscale d.fraction_lt
    rw [Nat.ofDigitChars_append, Nat.ofDigitChars_eq_ofDigitChars_zero, ofDigitChars_padded,
      Nat.ofDigitChars_ten_toDigits, hlength, Nat.mul_comm]
    exact Nat.div_add_mod' _ _

/-- A point is no digit, and no sign. -/
theorem filter_point {text : List Char} (h : ∀ c ∈ text, c.isDigit = true) :
    text.filter (fun c => c ≠ '.') = text := by
  refine List.filter_eq_self.mpr fun c hc => decide_eq_true fun heq => ?_
  have hdigit := h c hc
  rw [heq] at hdigit
  exact absurd hdigit (by decide)

/-- The text without its point is the value in units of its last place. -/
theorem readInt_text : readInt (d.text.filter fun c => c ≠ '.') = some d.unscaled := by
  obtain ⟨hdigits, hvalue⟩ := d.text_digits
  -- the digits alone, whether there is a point between them or not
  have hplain : ∃ digits, digits ≠ [] ∧ digits.all Char.isDigit = true ∧
      Nat.ofDigitChars 10 digits 0 = d.magnitude ∧
      d.text.filter (fun c => c ≠ '.') = (if d.negative then ['-'] else []) ++ digits := by
    have hwhole := filter_point fun c hc => hdigits c (List.mem_append_left _ hc)
    have hsign : (if d.negative then ['-'] else []).filter (fun c => c ≠ '.') =
        if d.negative then ['-'] else [] := by
      cases d.negative <;> rfl
    rcases Nat.eq_zero_or_pos d.scale with hscale | hscale
    · refine ⟨Nat.toDigits 10 d.whole, Nat.toDigits_ne_nil, (toDigits_digits _).2, ?_, ?_⟩
      · rw [Nat.ofDigitChars_ten_toDigits, whole, hscale, pow_zero, Nat.div_one]
      · rw [text, if_pos hscale, List.append_nil, List.filter_append, hsign, hwhole]
    · have hback := filter_point fun c hc => hdigits c (List.mem_append_right _ hc)
      refine ⟨_, List.append_ne_nil_of_left_ne_nil Nat.toDigits_ne_nil _,
        List.all_eq_true.mpr hdigits, hvalue hscale, ?_⟩
      rw [text, if_neg hscale.ne', List.filter_append, List.filter_append, hsign, hwhole,
        List.filter_cons_of_neg (by decide), hback]
  obtain ⟨digits, hne, hall, hmagnitude, htext⟩ := hplain
  rw [htext, unscaled]
  cases d.negative with
  | false =>
    refine (readInt_digits hne hall).trans ?_
    rw [hmagnitude]
    rfl
  | true =>
    change readInt ('-' :: digits) = _
    rw [readInt, if_pos ⟨hne, hall⟩, hmagnitude]
    rfl

/-- Behind the point there are as many digits as its scale says. -/
theorem length_behind_point : (d.text.dropWhile fun c => c ≠ '.').tail.length = d.scale := by
  obtain ⟨hdigits, -⟩ := d.text_digits
  have hahead : ∀ c ∈ (if d.negative then ['-'] else []) ++ Nat.toDigits 10 d.whole,
      decide (c ≠ '.') = true := by
    intro c hc
    refine decide_eq_true fun heq => ?_
    subst heq
    rcases List.mem_append.mp hc with hsign | hwhole
    · revert hsign
      cases d.negative <;> decide
    · exact absurd (hdigits '.' (List.mem_append_left _ hwhole)) (by decide)
  rw [text, ← List.append_assoc, List.dropWhile_append_of_pos hahead]
  rcases Nat.eq_zero_or_pos d.scale with hscale | hscale
  · rw [if_pos hscale, hscale]
    rfl
  · rw [if_neg hscale.ne', List.dropWhile_cons_of_neg (by decide), List.tail_cons]
    exact length_padded hscale d.fraction_lt

/-- **Packed decimals are read back**: each number of a precision and a scale is stored, and the
decoder takes its bytes, all of them and no others, and gives the text that denotes it, with as
many digits behind the point as the scale says. -/
theorem decimals_read_back :
    (∀ precision scale : ℕ, 0 < precision → precision ≤ 65 → scale ≤ precision → scale ≤ 30 →
      ∀ value : ℤ, value.natAbs < 10 ^ precision →
        ∃ d : StoredDecimal, d.precision = precision ∧ d.scale = scale ∧ d.unscaled = value) ∧
    ∀ (d : StoredDecimal) (rest : List UInt8),
      (decodeDecimal d.precision d.scale).run (d.image ++ rest) =
        .ok (.str (String.ofList d.text), rest) ∧
      Encoding.readInt (d.text.filter fun c => c ≠ '.') = some d.unscaled ∧
      (d.text.dropWhile fun c => c ≠ '.').tail.length = d.scale :=
  ⟨fun _ _ hpos hle hscale hthirty _ hlt => exists_unscaled hpos hle hscale hthirty hlt,
    fun d rest => ⟨d.decodeDecimal_image rest, d.readInt_text, d.length_behind_point⟩⟩

end StoredDecimal

end MySql

end Pg2osync
