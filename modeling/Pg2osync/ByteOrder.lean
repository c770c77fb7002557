import Pg2osync.Encoding
import Mathlib.Data.List.Basic
import Mathlib.Data.List.Induction

/-!
# Numbers as bytes

A number of a fixed width is written with its low byte first or last, and one in decimal with
zeros ahead of it. What is written is read back, up to the width.
-/

namespace Encoding

/-! ## Bytes -/

/-- A number from its bytes, the low one first. -/
def littleEndian : List UInt8 → ℕ
  | [] => 0
  | b :: rest => b.toNat + 256 * littleEndian rest

/-- A number from its bytes, the high one first. -/
def bigEndian (bytes : List UInt8) : ℕ :=
  bytes.foldl (fun acc b => acc <<< 8 ||| b.toNat) 0

/-- The low bytes of a number, the low one first. -/
def toLittleEndian : ℕ → ℕ → List UInt8
  | 0, _ => []
  | width + 1, n => UInt8.ofNat n :: toLittleEndian width (n / 256)

/-- And the high one first. -/
def toBigEndian (width n : ℕ) : List UInt8 :=
  (toLittleEndian width n).reverse

@[simp] theorem length_toLittleEndian (width n : ℕ) : (toLittleEndian width n).length = width := by
  induction width generalizing n with
  | zero => rfl
  | succ width ih => simp [toLittleEndian, ih]

@[simp] theorem length_toBigEndian (width n : ℕ) : (toBigEndian width n).length = width := by
  simp [toBigEndian]

theorem littleEndian_toLittleEndian (width n : ℕ) :
    littleEndian (toLittleEndian width n) = n % 256 ^ width := by
  induction width generalizing n with
  | zero => simp [toLittleEndian, littleEndian, Nat.mod_one]
  | succ width ih =>
    have hbyte : (UInt8.ofNat n).toNat = n % 256 := by simp
    rw [toLittleEndian, littleEndian, ih, hbyte, pow_succ', Nat.mod_mul]

theorem littleEndian_append (front back : List UInt8) :
    littleEndian (front ++ back) = littleEndian front + 256 ^ front.length * littleEndian back := by
  induction front with
  | nil => simp [littleEndian]
  | cons b front ih =>
    simp only [List.cons_append, littleEndian, ih, List.length_cons, pow_succ']
    ring

theorem littleEndian_lt (bytes : List UInt8) : littleEndian bytes < 256 ^ bytes.length := by
  induction bytes with
  | nil => simp [littleEndian]
  | cons b bytes ih =>
    have hb := b.toNat_lt
    simp only [littleEndian, List.length_cons, pow_succ']
    omega

theorem littleEndian_replicate_zero (count : ℕ) : littleEndian (List.replicate count 0) = 0 := by
  induction count with
  | zero => rfl
  | succ count ih => simp [List.replicate_succ, littleEndian, ih]

theorem littleEndian_replicate_ones (count : ℕ) :
    littleEndian (List.replicate count 0xFF) + 1 = 256 ^ count := by
  induction count with
  | zero => rfl
  | succ count ih =>
    have hbyte : (0xFF : UInt8).toNat = 255 := rfl
    simp only [List.replicate_succ, littleEndian, hbyte, pow_succ']
    omega

/-- A byte behind a shifted number fills the place made for it. -/
theorem shiftLeft_or (n : ℕ) (b : UInt8) : n <<< 8 ||| b.toNat = 256 * n + b.toNat := by
  rw [← Nat.shiftLeft_add_eq_or_of_lt (show b.toNat < 2 ^ 8 from b.toNat_lt), Nat.shiftLeft_eq]
  ring

theorem bigEndian_append_singleton (bytes : List UInt8) (b : UInt8) :
    bigEndian (bytes ++ [b]) = 256 * bigEndian bytes + b.toNat := by
  simp only [bigEndian, List.foldl_append, List.foldl_cons, List.foldl_nil, shiftLeft_or]

theorem bigEndian_reverse (bytes : List UInt8) : bigEndian bytes.reverse = littleEndian bytes := by
  induction bytes with
  | nil => rfl
  | cons b bytes ih =>
    rw [List.reverse_cons, bigEndian_append_singleton, ih, littleEndian]
    omega

theorem bigEndian_toBigEndian (width n : ℕ) :
    bigEndian (toBigEndian width n) = n % 256 ^ width := by
  rw [toBigEndian, bigEndian_reverse, littleEndian_toLittleEndian]

theorem toLittleEndian_littleEndian (bytes : List UInt8) :
    toLittleEndian bytes.length (littleEndian bytes) = bytes := by
  induction bytes with
  | nil => rfl
  | cons b bytes ih =>
    have hb := b.toNat_lt
    have hlow : UInt8.ofNat (b.toNat + 256 * littleEndian bytes) = b := by
      rw [← UInt8.toNat_inj, UInt8.toNat_ofNat']
      omega
    have hhigh : (b.toNat + 256 * littleEndian bytes) / 256 = littleEndian bytes := by
      omega
    rw [List.length_cons, littleEndian, toLittleEndian, hlow, hhigh, ih]

theorem bigEndian_eq (bytes : List UInt8) : bigEndian bytes = littleEndian bytes.reverse := by
  rw [← bigEndian_reverse, List.reverse_reverse]

/-- Bytes are written of their number. -/
theorem toBigEndian_bigEndian (bytes : List UInt8) :
    toBigEndian bytes.length (bigEndian bytes) = bytes := by
  rw [toBigEndian, bigEndian_eq, ← List.length_reverse, toLittleEndian_littleEndian,
    List.reverse_reverse]

/-- The high byte says whether a number is in the upper half. -/
theorem half_le_getLastD {bytes : List UInt8} (hne : bytes ≠ []) :
    128 ≤ (bytes.getLastD 0).toNat ↔ 256 ^ bytes.length ≤ 2 * littleEndian bytes := by
  obtain ⟨front, b, rfl⟩ := List.eq_nil_or_concat' bytes |>.resolve_left hne
  have hfront := littleEndian_lt front
  have hvalue : littleEndian [b] = b.toNat := by simp [littleEndian]
  rw [List.getLastD_concat, List.length_append, List.length_singleton, pow_succ,
    littleEndian_append, hvalue]
  generalize 256 ^ front.length = unit at *
  constructor
  · intro h
    have := Nat.mul_le_mul_left unit h
    omega
  · intro h
    by_contra hlt
    have := Nat.mul_le_mul_left unit (show b.toNat ≤ 127 by omega)
    omega

set_option maxRecDepth 2000 in
/-- The top bit of a byte. -/
theorem and_top_ne_zero (b : UInt8) : b &&& 0x80 ≠ 0 ↔ 128 ≤ b.toNat := by
  have h : ∀ n < 256, UInt8.ofNat n &&& 0x80 ≠ 0 ↔ 128 ≤ n := by decide
  have hb := h b.toNat b.toNat_lt
  rwa [UInt8.ofNat_toNat] at hb

set_option maxRecDepth 2000 in
theorem complement_toNat (b : UInt8) : (~~~b).toNat = 255 - b.toNat := by
  have h : ∀ n < 256, (~~~UInt8.ofNat n).toNat = 255 - n := by decide
  have hb := h b.toNat b.toNat_lt
  rwa [UInt8.ofNat_toNat] at hb

/-- A number and its complement fill their bytes. -/
theorem bigEndian_complement (bytes : List UInt8) :
    bigEndian (bytes.map fun b => ~~~b) + bigEndian bytes + 1 = 256 ^ bytes.length := by
  induction bytes using List.reverseRecOn with
  | nil => rfl
  | append_singleton bytes b ih =>
    have hb := b.toNat_lt
    rw [List.map_append, List.map_singleton, bigEndian_append_singleton,
      bigEndian_append_singleton, complement_toNat, List.length_append,
      List.length_singleton, pow_succ]
    omega

theorem bigEndian_lt (bytes : List UInt8) : bigEndian bytes < 256 ^ bytes.length := by
  have := bigEndian_complement bytes
  omega

/-! ## Padded text -/

/-- A number in decimal, with zeros ahead of it up to a width. -/
def padded (width n : ℕ) : List Char :=
  List.replicate (width - (Nat.toDigits 10 n).length) '0' ++ Nat.toDigits 10 n

theorem ofDigitChars_padded (width n : ℕ) : Nat.ofDigitChars 10 (padded width n) 0 = n := by
  rw [padded, Nat.ofDigitChars_append, Nat.ofDigitChars_replicate_zero, Nat.mul_zero,
    Nat.ofDigitChars_ten_toDigits]

theorem padded_injective {width width' n n' : ℕ} (h : padded width n = padded width' n') :
    n = n' := by
  rw [← ofDigitChars_padded width n, h, ofDigitChars_padded]

theorem width_le_length_padded (width n : ℕ) : width ≤ (padded width n).length := by
  simp only [padded, List.length_append, List.length_replicate]
  omega

variable {width n : ℕ}

theorem length_padded (hwidth : 0 < width) (h : n < 10 ^ width) :
    (padded width n).length = width := by
  have hle := (Nat.length_toDigits_le_iff (b := 10) (by decide) hwidth).mpr h
  simp only [padded, List.length_append, List.length_replicate]
  omega

theorem isDigit_padded {c : Char} (h : c ∈ padded width n) : c.isDigit = true := by
  rcases List.mem_append.mp h with hzero | hdigit
  · rw [List.eq_of_mem_replicate hzero]
    rfl
  · exact Nat.isDigit_of_mem_toDigits (by decide) (by decide) hdigit

theorem readInt_padded {width : ℕ} (hwidth : 0 < width) (n : ℕ) :
    readInt (padded width n) = some (n : ℤ) := by
  have hne : padded width n ≠ [] := by
    apply List.ne_nil_of_length_pos
    exact Nat.lt_of_lt_of_le hwidth (width_le_length_padded width n)
  rw [readInt_digits hne (List.all_eq_true.mpr fun _ => isDigit_padded), ofDigitChars_padded]

/-- Behind the first character of a number there are digits. -/
theorem isDigit_of_readInt {text : List Char} {n : ℤ} (h : readInt text = some n) :
    ∀ c ∈ text.tail, c.isDigit = true := by
  have hall : ∀ {digits : List Char} {m : ℤ},
      (if digits ≠ [] ∧ digits.all Char.isDigit = true then some m else none) = some n →
        digits.all Char.isDigit = true := by
    intro digits m hread
    split at hread
    · rename_i hdigits
      exact hdigits.2
    · cases hread
  intro c hc
  rw [readInt.eq_def] at h
  split at h
  · exact List.all_eq_true.mp (hall h) c hc
  · exact List.all_eq_true.mp (hall h) c hc
  · exact List.all_eq_true.mp (hall h) c (List.mem_of_mem_tail hc)

theorem notMem_padded {c : Char} (h : c.isDigit = false) : c ∉ padded width n := by
  intro hmem
  rw [isDigit_padded hmem] at h
  cases h

variable {α : Type} {sep : α}

/-- What is before the first separator, and what is behind it. -/
theorem append_sep_inj {xs ys as bs : List α} (hxs : sep ∉ xs) (hys : sep ∉ ys)
    (h : xs ++ sep :: as = ys ++ sep :: bs) : xs = ys ∧ as = bs := by
  induction xs generalizing ys with
  | nil =>
    cases ys with
    | nil => exact ⟨rfl, (List.cons.inj h).2⟩
    | cons y ys =>
      obtain ⟨rfl, -⟩ := List.cons.inj h
      exact absurd List.mem_cons_self hys
  | cons x xs ih =>
    cases ys with
    | nil =>
      obtain ⟨rfl, -⟩ := List.cons.inj h
      exact absurd List.mem_cons_self hxs
    | cons y ys =>
      obtain ⟨rfl, hrest⟩ := List.cons.inj h
      obtain ⟨rfl, rfl⟩ := ih (fun hmem => hxs (List.mem_cons_of_mem _ hmem))
        (fun hmem => hys (List.mem_cons_of_mem _ hmem)) hrest
      exact ⟨rfl, rfl⟩

/-- What is before the last separator, and what is behind it. -/
theorem append_sep_inj_last {xs ys as bs : List α} (hxs : sep ∉ xs) (hys : sep ∉ ys)
    (h : as ++ sep :: xs = bs ++ sep :: ys) : xs = ys ∧ as = bs := by
  have hreverse := congrArg List.reverse h
  simp only [List.reverse_append, List.reverse_cons, List.append_assoc,
    List.singleton_append] at hreverse
  obtain ⟨hback, hfront⟩ := append_sep_inj (List.mem_reverse.not.mpr hxs)
    (List.mem_reverse.not.mpr hys) hreverse
  exact ⟨List.reverse_injective hback, List.reverse_injective hfront⟩

/-- Numbers before a separator are told apart by it. -/
theorem padded_append_inj {width m n : ℕ} {sep : Char} {xs ys : List Char}
    (hsep : sep.isDigit = false) (h : padded width m ++ sep :: xs = padded width n ++ sep :: ys) :
    m = n ∧ xs = ys := by
  obtain ⟨hnumber, hrest⟩ := append_sep_inj (notMem_padded hsep) (notMem_padded hsep) h
  exact ⟨padded_injective hnumber, hrest⟩

/-- What is before the last separator, and what is behind it. -/
def rsplitOnce {α : Type} [DecidableEq α] (sep : α) : List α → Option (List α × List α)
  | [] => none
  | x :: xs =>
    match rsplitOnce sep xs with
    | some (front, back) => some (x :: front, back)
    | none => if x = sep then some ([], xs) else none

theorem rsplitOnce_of_notMem [DecidableEq α] {xs : List α} (h : sep ∉ xs) :
    rsplitOnce sep xs = none := by
  induction xs with
  | nil => rfl
  | cons x xs ih =>
    have hx : x ≠ sep := fun heq => h (heq ▸ List.mem_cons_self)
    rw [rsplitOnce, ih fun hmem => h (List.mem_cons_of_mem _ hmem)]
    simp [hx]

theorem rsplitOnce_append [DecidableEq α] (front : List α) {back : List α} (h : sep ∉ back) :
    rsplitOnce sep (front ++ sep :: back) = some (front, back) := by
  induction front with
  | nil => simp [rsplitOnce, rsplitOnce_of_notMem h]
  | cons x front ih => simp [rsplitOnce, ih]

theorem exists_last_separator {xs : List α} (h : sep ∈ xs) :
    ∃ front back, xs = front ++ sep :: back ∧ sep ∉ back := by
  induction xs with
  | nil => cases h
  | cons x xs ih =>
    by_cases hmem : sep ∈ xs
    · obtain ⟨front, back, rfl, hback⟩ := ih hmem
      exact ⟨x :: front, back, rfl, hback⟩
    · rcases List.mem_cons.mp h with rfl | h
      · exact ⟨[], xs, rfl, hmem⟩
      · exact absurd h hmem

/-- What is behind the last element of a joined list is behind the whole. -/
theorem intercalate_append_last (sep : List α) (xs : List (List α)) (a b : List α) :
    sep.intercalate (xs ++ [a ++ b]) = sep.intercalate (xs ++ [a]) ++ b := by
  induction xs with
  | nil => simp [List.intercalate]
  | cons x xs ih =>
    cases xs with
    | nil => simp [List.intercalate]
    | cons y xs =>
      simp only [List.cons_append, List.intercalate_cons_cons, List.append_assoc] at ih ⊢
      rw [ih]

theorem mem_intercalate {sep : List α} {xs : List (List α)} {c : α} (h : c ∈ sep.intercalate xs) :
    c ∈ sep ∨ ∃ x ∈ xs, c ∈ x := by
  induction xs with
  | nil => simp [List.intercalate] at h
  | cons x xs ih =>
    cases xs with
    | nil =>
      simp only [List.intercalate_singleton] at h
      exact .inr ⟨x, List.mem_cons_self, h⟩
    | cons y xs =>
      rw [List.intercalate_cons_cons, List.append_assoc] at h
      rcases List.mem_append.mp h with h | h
      · exact .inr ⟨x, List.mem_cons_self, h⟩
      · rcases List.mem_append.mp h with h | h
        · exact .inl h
        · rcases ih h with h | ⟨z, hz, hc⟩
          · exact .inl h
          · exact .inr ⟨z, List.mem_cons_of_mem _ hz, hc⟩

end Encoding
