import Mathlib.Data.List.Basic
import Mathlib.Order.Basic

/-!
# Characters from bytes

Bytes are read as UTF-8, and what is no character becomes the replacement character, one for
each longest piece that begins a character. ASCII is read as it is.
-/

namespace Encoding

/-- A character of which some bytes were read. -/
structure Utf8Rest : Type where
  /-- its bits so far -/
  value : ℕ
  /-- how many bytes are to come -/
  need : ℕ
  /-- the least the next one may be -/
  low : ℕ
  /-- the greatest -/
  high : ℕ
  deriving DecidableEq, Repr

/-- The replacement character. -/
def replacement : Char :=
  Char.ofNat 0xFFFD

/-- A byte that begins a character: the character, or what is to come of it. -/
def utf8Start (b : ℕ) : List Char × Option Utf8Rest :=
  if b < 0x80 then ([Char.ofNat b], none)
  else if 0xC2 ≤ b ∧ b ≤ 0xDF then ([], some ⟨b % 32, 1, 0x80, 0xBF⟩)
  -- no overlong form, no surrogate, nothing above the last plane
  else if b = 0xE0 then ([], some ⟨b % 16, 2, 0xA0, 0xBF⟩)
  else if b = 0xED then ([], some ⟨b % 16, 2, 0x80, 0x9F⟩)
  else if 0xE1 ≤ b ∧ b ≤ 0xEF then ([], some ⟨b % 16, 2, 0x80, 0xBF⟩)
  else if b = 0xF0 then ([], some ⟨b % 8, 3, 0x90, 0xBF⟩)
  else if 0xF1 ≤ b ∧ b ≤ 0xF3 then ([], some ⟨b % 8, 3, 0x80, 0xBF⟩)
  else if b = 0xF4 then ([], some ⟨b % 8, 3, 0x80, 0x8F⟩)
  else ([replacement], none)

/-- The characters of some bytes, behind what was begun. -/
def utf8Chars : Option Utf8Rest → List UInt8 → List Char
  | none, [] => []
  | some _, [] => [replacement]
  | none, b :: rest => (utf8Start b.toNat).1 ++ utf8Chars (utf8Start b.toNat).2 rest
  | some r, b :: rest =>
    if r.low ≤ b.toNat ∧ b.toNat ≤ r.high then
      if r.need = 1 then Char.ofNat (r.value * 64 + b.toNat % 64) :: utf8Chars none rest
      else utf8Chars (some ⟨r.value * 64 + b.toNat % 64, r.need - 1, 0x80, 0xBF⟩) rest
    else replacement :: ((utf8Start b.toNat).1 ++ utf8Chars (utf8Start b.toNat).2 rest)

/-- `String::from_utf8_lossy`. -/
def utf8Lossy (bytes : List UInt8) : String :=
  String.ofList (utf8Chars none bytes)

/-- The bytes of ASCII text. -/
def asciiBytes (text : List Char) : List UInt8 :=
  text.map fun c => UInt8.ofNat c.toNat

theorem utf8Chars_ascii {text : List Char} (h : ∀ c ∈ text, c.toNat < 0x80) :
    utf8Chars none (asciiBytes text) = text := by
  induction text with
  | nil => rfl
  | cons c text ih =>
    have hc := h c List.mem_cons_self
    have hbyte : (UInt8.ofNat c.toNat).toNat = c.toNat := by
      simp
      omega
    have hrest := ih fun d hd => h d (List.mem_cons_of_mem _ hd)
    simp only [asciiBytes] at hrest
    simp [asciiBytes, utf8Chars, hbyte, utf8Start, hc, hrest]

theorem utf8Lossy_ascii {text : List Char} (h : ∀ c ∈ text, c.toNat < 0x80) :
    utf8Lossy (asciiBytes text) = String.ofList text := by
  rw [utf8Lossy, utf8Chars_ascii h]

/-- A scalar value is no surrogate. -/
theorem char_range (c : Char) : c.toNat < 0xD800 ∨ 0xDFFF < c.toNat ∧ c.toNat < 0x110000 :=
  c.valid

theorem utf8Chars_start {b : ℕ} (h : b < 256) {r : Utf8Rest} (hstart : utf8Start b = ([], some r))
    (rest : List UInt8) : utf8Chars none (UInt8.ofNat b :: rest) = utf8Chars (some r) rest := by
  rw [utf8Chars, UInt8.toNat_ofNat', Nat.mod_eq_of_lt h, hstart, List.nil_append]

theorem utf8Chars_more {value need low high b : ℕ} (h : b < 256) (hlow : low ≤ b) (hhigh : b ≤ high)
    (rest : List UInt8) : utf8Chars (some ⟨value, need + 2, low, high⟩) (UInt8.ofNat b :: rest) =
      utf8Chars (some ⟨value * 64 + b % 64, need + 1, 0x80, 0xBF⟩) rest := by
  rw [utf8Chars, UInt8.toNat_ofNat', Nat.mod_eq_of_lt h, if_pos ⟨hlow, hhigh⟩]
  exact if_neg (by dsimp only; omega)

theorem utf8Chars_last {value low high b : ℕ} (h : b < 256) (hlow : low ≤ b) (hhigh : b ≤ high)
    (rest : List UInt8) : utf8Chars (some ⟨value, 1, low, high⟩) (UInt8.ofNat b :: rest) =
      Char.ofNat (value * 64 + b % 64) :: utf8Chars none rest := by
  rw [utf8Chars, UInt8.toNat_ofNat', Nat.mod_eq_of_lt h, if_pos ⟨hlow, hhigh⟩]
  exact if_pos rfl

/-- A character that is written is read back. -/
theorem utf8Chars_utf8EncodeChar (c : Char) (rest : List UInt8) :
    utf8Chars none (String.utf8EncodeChar c ++ rest) = c :: utf8Chars none rest := by
  have hrange := char_range c
  have hback : ∀ n, n = c.toNat → Char.ofNat n = c := fun n h => h ▸ Char.ofNat_toNat c
  have hval : c.val.toNat = c.toNat := rfl
  rw [String.utf8EncodeChar, hval]
  generalize c.toNat = v at hrange hback
  split_ifs with h1 h2 h3
  · rw [List.singleton_append, utf8Chars, UInt8.toNat_ofNat', Nat.mod_eq_of_lt (by omega), utf8Start,
      if_pos (by omega), hback v rfl]
    rfl
  · have hlead : utf8Start (v / 64 % 32 + 192) = ([], some ⟨v / 64, 1, 0x80, 0xBF⟩) := by
      rw [utf8Start, if_neg (by omega), if_pos (by omega)]
      congr 3
      omega
    rw [List.cons_append, List.cons_append, List.nil_append, utf8Chars_start (by omega) hlead,
      utf8Chars_last (by omega) (by omega) (by omega), hback _ (by omega)]
  · have hlead : ∃ low high, utf8Start (v / 4096 % 16 + 224) = ([], some ⟨v / 4096, 2, low, high⟩) ∧
        low ≤ v / 64 % 64 + 128 ∧ v / 64 % 64 + 128 ≤ high := by
      unfold utf8Start
      rw [if_neg (by omega), if_neg (by omega)]
      split_ifs <;> first | omega | exact ⟨_, _, by congr 3; omega, by omega, by omega⟩
    obtain ⟨low, high, hlead, hlow, hhigh⟩ := hlead
    rw [List.cons_append, List.cons_append, List.cons_append, List.nil_append,
      utf8Chars_start (by omega) hlead, utf8Chars_more (by omega) hlow hhigh,
      utf8Chars_last (by omega) (by omega) (by omega), hback _ (by omega)]
  · have hlead : ∃ low high, utf8Start (v / 262144 % 8 + 240) =
        ([], some ⟨v / 262144, 3, low, high⟩) ∧
        low ≤ v / 4096 % 64 + 128 ∧ v / 4096 % 64 + 128 ≤ high := by
      unfold utf8Start
      rw [if_neg (by omega), if_neg (by omega), if_neg (by omega), if_neg (by omega),
        if_neg (by omega)]
      split_ifs <;> first | omega | exact ⟨_, _, by congr 3; omega, by omega, by omega⟩
    obtain ⟨low, high, hlead, hlow, hhigh⟩ := hlead
    rw [List.cons_append, List.cons_append, List.cons_append, List.cons_append, List.nil_append,
      utf8Chars_start (by omega) hlead, utf8Chars_more (by omega) hlow hhigh,
      utf8Chars_more (by omega) (by omega) (by omega), utf8Chars_last (by omega) (by omega) (by omega),
      hback _ (by omega)]

/-- A byte of ASCII is of the character that it is. -/
theorem toNat_of_mem_utf8EncodeChar {c : Char} {b : UInt8} (h : b ∈ String.utf8EncodeChar c)
    (hb : b.toNat < 0x80) : c.toNat = b.toNat := by
  -- every other byte of a character has its top bit set
  have hhigh : ∀ n, n < 256 → 0x80 ≤ n → b ≠ UInt8.ofNat n := by
    rintro n hlt hge rfl
    rw [UInt8.toNat_ofNat', Nat.mod_eq_of_lt hlt] at hb
    omega
  have hval : c.val.toNat = c.toNat := rfl
  rw [String.utf8EncodeChar, hval] at h
  split_ifs at h with h1 h2 h3
  · rw [List.mem_singleton.mp h, UInt8.toNat_ofNat', Nat.mod_eq_of_lt (by omega)]
  all_goals
    simp only [List.mem_cons, List.not_mem_nil, or_false] at h
    exfalso
  · rcases h with h | h
    all_goals exact hhigh _ (by omega) (by omega) h
  · rcases h with h | h | h
    all_goals exact hhigh _ (by omega) (by omega) h
  · rcases h with h | h | h | h
    all_goals exact hhigh _ (by omega) (by omega) h

/-- The bytes of a text. -/
def utf8Bytes (s : String) : List UInt8 :=
  s.toList.flatMap String.utf8EncodeChar

/-- What is written is read back. -/
theorem utf8Lossy_utf8Bytes (s : String) : utf8Lossy (utf8Bytes s) = s := by
  have hchars : ∀ text : List Char, utf8Chars none (text.flatMap String.utf8EncodeChar) = text := by
    intro text
    induction text with
    | nil => rfl
    | cons c text ih =>
      rw [List.flatMap_cons, utf8Chars_utf8EncodeChar, ih]
  rw [utf8Lossy, utf8Bytes, hchars, String.ofList_toList]

theorem isAscii_of_isDigit {c : Char} (h : c.isDigit = true) : c.toNat < 0x80 := by
  simp only [Char.isDigit, Bool.and_eq_true, decide_eq_true_eq] at h
  have h9 : c.val.toNat ≤ 57 := h.2
  exact Nat.lt_of_le_of_lt h9 (by decide)

end Encoding
