import Pg2osync.BinlogValue

/-!
# Dates and times of the binlog

The server packs a date or a time into bits, the high byte first, and puts the digits behind
the seconds in as few bytes as hold pairs of them. The initial load reads the same value as
text, of a TIMESTAMP in the time zone of its session. This says for which values the stream
reads the same text.
-/

namespace Pg2osync

namespace MySql

open Encoding

/-! ## Values -/

/-- The digits behind a second. -/
structure Fraction : Type where
  /-- how many there are -/
  fsp : ℕ
  /-- the number they make -/
  value : ℕ
  /-- at most six -/
  fsp_le : fsp ≤ 6
  /-- no more than there are -/
  value_lt : value < 10 ^ fsp

namespace Fraction

/-- How many bytes they take. -/
def bytes (f : Fraction) : ℕ :=
  (f.fsp + 1) / 2

/-- The number that is stored: of an odd count of digits, as if one more were there. -/
def stored (f : Fraction) : ℕ :=
  f.value * 10 ^ (f.fsp % 2)

/-- The bytes. -/
def image (f : Fraction) : List UInt8 :=
  Encoding.toBigEndian f.bytes f.stored

/-- The text. -/
def text (f : Fraction) : List Char :=
  if 0 < f.fsp then '.' :: Encoding.padded f.fsp f.value else []

end Fraction

/-- A date as a column holds it, of which parts may be zero. -/
structure StoredDate : Type where
  /-- the date -/
  date : Calendar.Date
  year_le : date.year ≤ 9999
  month_le : date.month ≤ 12
  day_le : date.day ≤ 31

/-- Hours, minutes and seconds. -/
structure Clock : Type where
  /-- the hours -/
  hour : ℕ
  /-- the minutes -/
  minute : ℕ
  /-- the seconds -/
  second : ℕ
  minute_lt : minute < 60
  second_lt : second < 60

/-- The seconds of a clock. -/
def Clock.seconds (c : Clock) : ℕ :=
  3600 * c.hour + 60 * c.minute + c.second

/-- A clock in twelve, six and six bits. -/
def Clock.packed (c : Clock) : ℕ :=
  c.hour * 2 ^ 12 + c.minute * 2 ^ 6 + c.second

/-- The day of the first second of Unix time. -/
def epochDay : ℕ := 719528

/-- A moment: what a clock in a time zone shows. -/
structure Moment : Type where
  /-- the date there -/
  date : Calendar.Date
  /-- the time there -/
  clock : Clock
  /-- by how many seconds the zone is ahead -/
  offset : ℤ
  /-- the seconds of Unix time -/
  secs : ℕ
  isDay : date.IsDay
  year_pos : 1 ≤ date.year
  hour_lt : clock.hour < 24
  offset_lt : -86400 < offset ∧ offset < 86400
  secs_eq : (secs : ℤ) + offset = ((date.number : ℤ) - epochDay) * 86400 + clock.seconds
  secs_lt : secs < 2 ^ 32

/-- A date or a time as a column holds it. -/
inductive Temporal : Type where
  /-- a DATE -/
  | date (d : StoredDate) : Temporal
  /-- a YEAR -/
  | year (y : ℕ) (h : y = 0 ∨ 1901 ≤ y ∧ y ≤ 2155) : Temporal
  /-- a TIME, of which zero is not negative -/
  | time (negative : Bool) (clock : Clock) (f : Fraction) (hour_le : clock.hour ≤ 838)
      (sign : negative = true → 0 < clock.packed ∨ 0 < f.value) : Temporal
  /-- a DATETIME -/
  | datetime (d : StoredDate) (clock : Clock) (f : Fraction) (hour_lt : clock.hour < 24) : Temporal
  /-- a TIMESTAMP -/
  | timestamp (m : Moment) (f : Fraction) (secs_pos : 0 < m.secs) : Temporal
  /-- the TIMESTAMP that is none -/
  | zeroTimestamp (f : Fraction) (zero : f.value = 0) : Temporal

namespace Temporal

/-- The code of its type. -/
def code : Temporal → ℕ
  | .date _ => 10
  | .year _ _ => 13
  | .time _ _ _ _ _ => 19
  | .datetime _ _ _ _ => 18
  | .timestamp _ _ _ | .zeroTimestamp _ _ => 17

/-- What belongs to the type in a table map. -/
def metadata : Temporal → List UInt8
  | .date _ | .year _ _ => []
  | .time _ _ f _ _ | .datetime _ _ f _ | .timestamp _ f _ | .zeroTimestamp f _ =>
    [UInt8.ofNat f.fsp]

/-- Its name in the catalogue. -/
def dataType : Temporal → String
  | .date _ => "date"
  | .year _ _ => "year"
  | .time _ _ _ _ _ => "time"
  | .datetime _ _ _ _ => "datetime"
  | .timestamp _ _ _ | .zeroTimestamp _ _ => "timestamp"

/-- A value in a row image. -/
def image : Temporal → List UInt8
  | .date d =>
    Encoding.toLittleEndian 3 (d.date.year * 2 ^ 9 + d.date.month * 2 ^ 5 + d.date.day)
  | .year y _ => Encoding.toLittleEndian 1 (y - 1900)
  | .time negative clock f _ _ =>
    -- a time and its fraction are one number, the negative ones below the middle
    let half := 2 ^ (8 * (3 + f.bytes) - 1)
    let packed := clock.packed * 256 ^ f.bytes + f.stored
    Encoding.toBigEndian (3 + f.bytes) (if negative then half - packed else half + packed)
  | .datetime d clock f _ =>
    Encoding.toBigEndian 5 (2 ^ 39 + (d.date.year * 13 + d.date.month) * 2 ^ 22 +
      d.date.day * 2 ^ 17 + clock.packed) ++ f.image
  | .timestamp m f _ => Encoding.toBigEndian 4 m.secs ++ f.image
  | .zeroTimestamp f _ => Encoding.toBigEndian 4 0 ++ f.image

/-- A value as the load reads it. -/
def text : Temporal → List Char
  | .date d => Encoding.padded 4 d.date.year ++ '-' :: (twoDigits d.date.month ++
      '-' :: twoDigits d.date.day)
  | .year y _ => Encoding.padded 4 y
  | .time negative clock f _ _ => (if negative then ['-'] else []) ++ (twoDigits clock.hour ++
      ':' :: (twoDigits clock.minute ++ ':' :: (twoDigits clock.second ++ f.text)))
  | .datetime d clock f _ => dateTimeText d.date clock.hour clock.minute clock.second f.text
  | .timestamp m f _ => dateTimeText m.date m.clock.hour m.clock.minute m.clock.second f.text
  | .zeroTimestamp f _ => dateTimeText ⟨0, 0, 0⟩ 0 0 0 f.text

/-- The values of which the stream reads the same text: no YEAR 0, of TIMEs only zero without
digits behind the second, no DATETIME with an odd count of digits unless they are zero, and
TIMESTAMPs where the session is at the zone of Unix time, without digits, or with six that are
not zero and the same in both orders of their bytes. -/
def ReadsSame : Temporal → Prop
  | .date _ => True
  | .year y _ => y ≠ 0
  | .time _ clock f _ _ => f.fsp = 0 ∧ clock.packed = 0
  | .datetime _ _ f _ => f.fsp % 2 = 0 ∨ f.value = 0
  | .timestamp m f _ => m.offset = 0 ∧
      (f.fsp = 0 ∨ f.fsp = 6 ∧ f.value ≠ 0 ∧ f.value / 65536 = f.value % 256)
  | .zeroTimestamp _ _ => False

/-- What the load makes of a value. -/
def loaded (parsers : TypeMap.Parsers) (columnType : String) (v : Temporal) : Json :=
  TypeMap.convert parsers (TypeMap.shapeOf v.dataType columnType)
    (some (Encoding.asciiBytes v.text))

/-- What the stream makes of the bytes at a value. -/
def streamed (parsers : TypeMap.Parsers) (columnType : String) (unsigned : Bool) (v : Temporal) :
    R Json :=
  decodeValue parsers v.code v.metadata unsigned (some (TypeMap.shapeOf v.dataType columnType))

end Temporal

/-! ## Digits behind the second -/

namespace Fraction

variable (f : Fraction)

theorem stored_lt : f.stored < 256 ^ f.bytes := by
  obtain ⟨fsp, value, hle, hlt⟩ := f
  simp only [stored, bytes]
  interval_cases fsp <;> simp at * <;> omega

@[simp] theorem length_image : f.image.length = (f.fsp + 1) / 2 :=
  length_toBigEndian _ _

theorem bigEndian_image : bigEndian f.image = f.stored := by
  rw [image, bigEndian_toBigEndian, Nat.mod_eq_of_lt f.stored_lt]

theorem stored_eq_iff : f.stored = f.value ↔ f.fsp % 2 = 0 ∨ f.value = 0 := by
  rcases Nat.mod_two_eq_zero_or_one f.fsp with h | h
  · simp [stored, h]
  · simp only [stored, h]
    omega

/-- The digits as the stream reads them of a TIMESTAMP. -/
def asMicros : List Char :=
  let micros := Encoding.littleEndian f.image * 10 ^ (6 - f.fsp)
  if 0 < micros then '.' :: Encoding.padded 6 micros else []

theorem littleEndian_image (h : f.fsp = 6) :
    littleEndian f.image =
      f.value / 65536 + 256 * (f.value / 256 % 256) + 65536 * (f.value % 256) := by
  have hlt := f.value_lt
  simp only [image, bytes, stored, h] at *
  simp [toBigEndian, toLittleEndian, littleEndian]
  omega

theorem asMicros_eq_iff :
    f.asMicros = f.text ↔
      f.fsp = 0 ∨ f.fsp = 6 ∧ f.value ≠ 0 ∧ f.value / 65536 = f.value % 256 := by
  have hlt := f.value_lt
  rcases Nat.eq_zero_or_pos f.fsp with h0 | hpos
  · have hbytes : f.image = [] := by
      apply List.eq_nil_of_length_eq_zero
      rw [length_image, h0]
    simp [asMicros, text, h0, hbytes, littleEndian]
  · constructor
    · intro h
      simp only [asMicros, text, if_pos hpos] at h
      split at h
      · rename_i hmicros
        have hdigits : padded 6 _ = padded f.fsp f.value := (List.cons.inj h).2
        have hlength := congrArg List.length hdigits
        rw [length_padded hpos hlt] at hlength
        have hsix := width_le_length_padded 6
          (littleEndian f.image * 10 ^ (6 - f.fsp))
        have hfsp : f.fsp = 6 := by
          have := f.fsp_le
          omega
        have hvalue := padded_injective hdigits
        rw [f.littleEndian_image hfsp, hfsp] at hvalue
        rw [f.littleEndian_image hfsp, hfsp] at hmicros
        rw [hfsp] at hlt
        refine .inr ⟨hfsp, ?_, ?_⟩ <;> omega
      · cases h
    · rintro (h0 | ⟨hfsp, hne, hsame⟩)
      · omega
      · have hvalue : littleEndian f.image * 10 ^ (6 - f.fsp) = f.value := by
          rw [f.littleEndian_image hfsp, hfsp]
          omega
        simp only [asMicros, text, hvalue, if_pos hpos]
        rw [if_pos (by omega), hfsp]

end Fraction

/-! ## Texts -/

/-- A text says what its parts are. -/
theorem dateTimeText_inj {date date' : Calendar.Date} {h m s h' m' s' : ℕ} {frac frac' : List Char}
    (hs : s < 60) (hs' : s' < 60)
    (heq : dateTimeText date h m s frac = dateTimeText date' h' m' s' frac') :
    date = date' ∧ h = h' ∧ m = m' ∧ s = s' ∧ frac = frac' := by
  obtain ⟨year, month, day⟩ := date
  obtain ⟨year', month', day'⟩ := date'
  simp only [dateTimeText, twoDigits] at heq
  obtain ⟨rfl, hmonth⟩ := padded_append_inj (by decide) heq
  obtain ⟨rfl, hday⟩ := padded_append_inj (by decide) hmonth
  obtain ⟨rfl, hhour⟩ := padded_append_inj (by decide) hday
  obtain ⟨rfl, hminute⟩ := padded_append_inj (by decide) hhour
  obtain ⟨rfl, hsecond⟩ := padded_append_inj (by decide) hminute
  have hlength : (padded 2 s).length = (padded 2 s').length := by
    rw [length_padded (by decide) (by omega),
      length_padded (by decide) (by omega)]
  obtain ⟨hdigits, rfl⟩ := List.append_inj hsecond hlength
  exact ⟨rfl, rfl, rfl, padded_injective hdigits, rfl⟩

/-- A character of a number, or one that separates numbers. -/
def IsPlain (c : Char) : Prop :=
  c.isDigit = true ∨ c ∈ ['-', ':', ' ', '.']

theorem isPlain_padded {width n : ℕ} : ∀ c ∈ padded width n, IsPlain c :=
  fun _ h => .inl (isDigit_padded h)

theorem Fraction.isPlain_text (f : Fraction) : ∀ c ∈ f.text, IsPlain c := by
  intro c hc
  rw [Fraction.text] at hc
  split at hc
  · rcases List.mem_cons.mp hc with rfl | hc
    · exact .inr (by decide)
    · exact isPlain_padded c hc
  · cases hc

theorem isPlain_append {xs ys : List Char} (hxs : ∀ c ∈ xs, IsPlain c)
    (hys : ∀ c ∈ ys, IsPlain c) : ∀ c ∈ xs ++ ys, IsPlain c := by
  intro c hc
  rcases List.mem_append.mp hc with hc | hc
  · exact hxs c hc
  · exact hys c hc

theorem isPlain_cons {x : Char} {xs : List Char} (hx : x ∈ ['-', ':', ' ', '.'])
    (hxs : ∀ c ∈ xs, IsPlain c) : ∀ c ∈ x :: xs, IsPlain c := by
  intro c hc
  rcases List.mem_cons.mp hc with rfl | hc
  · exact .inr hx
  · exact hxs c hc

theorem isPlain_dateTimeText (date : Calendar.Date) (h m s : ℕ) {frac : List Char}
    (hfrac : ∀ c ∈ frac, IsPlain c) : ∀ c ∈ dateTimeText date h m s frac, IsPlain c := by
  rw [dateTimeText]
  repeat refine isPlain_append isPlain_padded (isPlain_cons (by decide) ?_)
  exact isPlain_append isPlain_padded hfrac

namespace Temporal

theorem isPlain_text (v : Temporal) : ∀ c ∈ v.text, IsPlain c := by
  cases v with
  | date d =>
    repeat refine isPlain_append isPlain_padded (isPlain_cons (by decide) ?_)
    exact isPlain_padded
  | year y h => exact isPlain_padded
  | time negative clock f hle hsign =>
    refine isPlain_append ?_ ?_
    · cases negative
      · exact fun c hc => by cases hc
      · exact isPlain_cons (by decide) (fun c hc => by cases hc)
    · repeat refine isPlain_append isPlain_padded (isPlain_cons (by decide) ?_)
      exact isPlain_append isPlain_padded f.isPlain_text
  | datetime d clock f hlt => exact isPlain_dateTimeText _ _ _ _ f.isPlain_text
  | timestamp m f hpos => exact isPlain_dateTimeText _ _ _ _ f.isPlain_text
  | zeroTimestamp f hzero => exact isPlain_dateTimeText _ _ _ _ f.isPlain_text

theorem isAscii_of_isPlain {c : Char} (h : IsPlain c) : c.toNat < 0x80 := by
  rcases h with h | h
  · exact isAscii_of_isDigit h
  · simp only [List.mem_cons, List.not_mem_nil, or_false] at h
    rcases h with rfl | rfl | rfl | rfl <;> decide

theorem utf8Lossy_text (v : Temporal) :
    utf8Lossy (asciiBytes v.text) = String.ofList v.text :=
  utf8Lossy_ascii fun c hc => isAscii_of_isPlain (v.isPlain_text c hc)

theorem shapeOf_dataType (v : Temporal) (columnType : String) :
    TypeMap.shapeOf v.dataType columnType = if v.code = 13 then .int else .text := by
  cases v <;> simp [TypeMap.shapeOf, dataType, code]

/-- What is no YEAR is loaded as it is. -/
theorem loaded_of_text (parsers : TypeMap.Parsers) (columnType : String) (v : Temporal)
    (h : v.code ≠ 13) : v.loaded parsers columnType = .str (String.ofList v.text) := by
  rw [loaded, shapeOf_dataType, if_neg h]
  simp only [TypeMap.convert, utf8Lossy_text]

/-- A YEAR is loaded as a number. -/
theorem loaded_year (parsers : TypeMap.Parsers) (columnType : String) {y : ℕ}
    (h : y = 0 ∨ 1901 ≤ y ∧ y ≤ 2155) : (year y h).loaded parsers columnType = .int y := by
  have htext : utf8Lossy (asciiBytes (year y h).text) =
      String.ofList (padded 4 y) := utf8Lossy_text (.year y h)
  rw [loaded, shapeOf_dataType]
  simp only [code, if_true, TypeMap.convert, htext, TypeMap.parseI64, String.toList_ofList,
    readInt_padded (show 0 < 4 by decide)]
  rw [Option.filter_some_pos (by simp; omega)]
  rfl

/-! ## What the stream reads -/

/-- What is read where text is loaded is the same exactly if the texts are. -/
theorem str_eq_iff {xs ys : List Char} :
    Json.str (String.ofList xs) = Json.str (String.ofList ys) ↔ xs = ys := by
  rw [Json.str.injEq, String.ofList_inj]

theorem shr_eq (n k : ℕ) : n >>> k = n / 2 ^ k :=
  Nat.shiftRight_eq_div_pow n k

theorem and_mask (n : ℕ) :
    n &&& 31 = n % 32 ∧ n &&& 15 = n % 16 ∧ n &&& 0x3F = n % 64 ∧ n &&& 0xFF = n % 256 ∧
      n &&& 0x1FFFF = n % 131072 :=
  ⟨Nat.and_two_pow_sub_one_eq_mod n 5, Nat.and_two_pow_sub_one_eq_mod n 4,
    Nat.and_two_pow_sub_one_eq_mod n 6, Nat.and_two_pow_sub_one_eq_mod n 8,
    Nat.and_two_pow_sub_one_eq_mod n 17⟩

theorem streamed_date (parsers : TypeMap.Parsers) (columnType : String) (unsigned : Bool)
    (d : StoredDate) (rest : List UInt8) :
    ((date d).streamed parsers columnType unsigned).run ((date d).image ++ rest) =
      .ok (.str (String.ofList (date d).text), rest) := by
  obtain ⟨⟨year, month, day⟩, hyear, hmonth, hday⟩ := d
  simp only at hyear hmonth hday
  have hrun : (R.u24).run ((date ⟨⟨year, month, day⟩, hyear, hmonth, hday⟩).image ++ rest) =
      .ok (littleEndian (toLittleEndian 3 (year * 2 ^ 9 + month * 2 ^ 5 + day)),
        rest) := R.uint_append 3 (length_toLittleEndian _ _)
  have hpacked : (year * 2 ^ 9 + month * 2 ^ 5 + day) % 256 ^ 3 =
      year * 2 ^ 9 + month * 2 ^ 5 + day := Nat.mod_eq_of_lt (by omega)
  have hparts : (year * 2 ^ 9 + month * 2 ^ 5 + day) / 2 ^ 9 = year ∧
      (year * 2 ^ 9 + month * 2 ^ 5 + day) / 2 ^ 5 % 16 = month ∧
      (year * 2 ^ 9 + month * 2 ^ 5 + day) % 32 = day := by omega
  rw [littleEndian_toLittleEndian, hpacked] at hrun
  change (decodeValue parsers 10 [] unsigned _).run _ = _
  rw [decodeValue, R.run_bind_ok hrun]
  simp only [shr_eq, (and_mask _).1, (and_mask _).2.1, hparts.1, hparts.2.1, hparts.2.2]
  rfl

theorem streamed_year (parsers : TypeMap.Parsers) (columnType : String) (unsigned : Bool) {y : ℕ}
    (h : y = 0 ∨ 1901 ≤ y ∧ y ≤ 2155) (rest : List UInt8) :
    ((year y h).streamed parsers columnType unsigned).run ((year y h).image ++ rest) =
      .ok (.int ((y - 1900 : ℕ) + 1900), rest) := by
  have hrun : (R.u8v).run ((year y h).image ++ rest) =
      .ok (littleEndian (toLittleEndian 1 (y - 1900)), rest) :=
    R.uint_append 1 (length_toLittleEndian _ _)
  rw [littleEndian_toLittleEndian, Nat.mod_eq_of_lt (by omega)] at hrun
  change (decodeValue parsers 13 [] unsigned _).run _ = _
  rw [decodeValue, R.run_bind_ok hrun]
  rfl

/-- The fraction of a DATETIME is written with as many digits as the column has, as it is
stored. -/
theorem streamed_datetime (parsers : TypeMap.Parsers) (columnType : String) (unsigned : Bool)
    (d : StoredDate) (clock : Clock) (f : Fraction) (hlt : clock.hour < 24) (rest : List UInt8) :
    ((datetime d clock f hlt).streamed parsers columnType unsigned).run
        ((datetime d clock f hlt).image ++ rest) =
      .ok (.str (String.ofList (dateTimeText d.date clock.hour clock.minute clock.second
        (if 0 < f.fsp then '.' :: padded f.fsp f.stored else []))), rest) := by
  obtain ⟨⟨year, month, day⟩, hyear, hmonth, hday⟩ := d
  obtain ⟨hour, minute, second, hminute, hsecond⟩ := clock
  simp only at hyear hmonth hday hlt
  have hfsp : (UInt8.ofNat f.fsp).toNat = f.fsp := by
    have := f.fsp_le
    simp
    omega
  obtain ⟨packed, hpacked⟩ : ∃ n, n = 2 ^ 39 + (year * 13 + month) * 2 ^ 22 + day * 2 ^ 17 +
      (hour * 2 ^ 12 + minute * 2 ^ 6 + second) := ⟨_, rfl⟩
  have hwhole : (R.take 5).run (toBigEndian 5 packed ++ (f.image ++ rest)) =
      .ok (toBigEndian 5 packed, f.image ++ rest) :=
    R.take_append 5 (length_toBigEndian _ _)
  have hfrac : (R.take ((f.fsp + 1) / 2)).run (f.image ++ rest) = .ok (f.image, rest) :=
    R.take_append _ f.length_image
  have hvalue : bigEndian (toBigEndian 5 packed) = packed := by
    rw [bigEndian_toBigEndian]
    omega
  have hym : packed / 2 ^ 22 % 131072 = year * 13 + month := by omega
  have hparts : packed / 2 ^ 17 % 32 = day ∧ packed / 2 ^ 12 % 32 = hour ∧
      packed / 2 ^ 6 % 64 = minute ∧ packed % 64 = second := by omega
  have hdate : (year * 13 + month) / 13 = year ∧ (year * 13 + month) % 13 = month := by omega
  have hmicros : ∀ width, f.stored * 10 ^ width / 10 ^ width = f.stored := fun width =>
    Nat.mul_div_cancel _ (by positivity)
  change (decodeDatetime (UInt8.ofNat f.fsp).toNat).run
    ((toBigEndian 5 (2 ^ 39 + (year * 13 + month) * 2 ^ 22 + day * 2 ^ 17 +
      (hour * 2 ^ 12 + minute * 2 ^ 6 + second)) ++ f.image) ++ rest) = _
  rw [hfsp, ← hpacked, List.append_assoc, decodeDatetime, R.run_bind_ok hwhole,
    R.run_bind_ok hfrac]
  simp only [hvalue, shr_eq, (and_mask _).1, (and_mask _).2.2.1, (and_mask _).2.2.2.2, hym,
    hparts.1, hparts.2.1, hparts.2.2.1, hparts.2.2.2, hdate.1, hdate.2, f.bigEndian_image]
  split
  · rw [hmicros]
    rfl
  · rfl

variable {negative : Bool} {clock : Clock}

theorem streamed_time (parsers : TypeMap.Parsers) (columnType : String) (unsigned : Bool)
    {f : Fraction} (hle : clock.hour ≤ 838)
    (hsign : negative = true → 0 < clock.packed ∨ 0 < f.value) (rest : List UInt8) :
    ((time negative clock f hle hsign).streamed parsers columnType unsigned).run
        ((time negative clock f hle hsign).image ++ rest) =
      .ok (.str (String.ofList
        (timeText (3 + f.bytes) (time negative clock f hle hsign).image)), rest) := by
  have hfsp : (UInt8.ofNat f.fsp).toNat = f.fsp := by
    have := f.fsp_le
    simp
    omega
  have hrun : (R.take (3 + (f.fsp + 1) / 2)).run ((time negative clock f hle hsign).image ++ rest) =
      .ok ((time negative clock f hle hsign).image, rest) :=
    R.take_append _ (length_toBigEndian _ _)
  change (decodeTime (UInt8.ofNat f.fsp).toNat).run _ = _
  rw [hfsp, decodeTime, R.run_bind_ok hrun]
  rfl

/-- No digits behind the seconds are ever read of a TIME. -/
theorem dot_notMem_timeText (nbytes : ℕ) (raw : List UInt8) : '.' ∉ timeText nbytes raw := by
  have hdigits : ∀ n, '.' ∉ twoDigits n := fun n => notMem_padded (by decide)
  rw [timeText]
  simp only [List.mem_append, List.mem_cons, hdigits, false_or, or_false]
  split <;> simp

/-- Of the bits of a TIME, the stream has the seconds eight further up than they are, and the
rest with them. -/
theorem timeText_whole (hle : clock.hour ≤ 838) (hsign : negative = true → 0 < clock.packed) :
    timeText 3 (toBigEndian 3
        (if negative then 2 ^ 23 - clock.packed else 2 ^ 23 + clock.packed)) =
      let v := if negative then clock.packed - 1 else clock.packed
      (if negative then ['-'] else []) ++ (twoDigits 0 ++
        ':' :: (twoDigits (v / 2 ^ 16 % 256) ++ ':' :: twoDigits (v / 2 ^ 8 % 256))) := by
  obtain ⟨packed, hpacked⟩ : ∃ n, n = clock.packed := ⟨_, rfl⟩
  have hlt : packed < 2 ^ 22 := by
    have hm := clock.minute_lt
    have hs := clock.second_lt
    rw [hpacked, Clock.packed]
    omega
  rw [← hpacked] at hsign ⊢
  have hhead : ∀ n, (toBigEndian 3 n).headD 0 = UInt8.ofNat (n / 256 / 256) := fun _ => rfl
  have hshift : ∀ n < 2 ^ 22, n / 2 ^ 24 = 0 := fun n hn => Nat.div_eq_of_lt (by omega)
  have hmask : ∀ n, n &&& (2 ^ (8 * 3 - 1) - 1) = n % 2 ^ 23 := fun n =>
    Nat.and_two_pow_sub_one_eq_mod n 23
  cases negative with
  | false =>
    have htop : ¬(toBigEndian 3 (2 ^ 23 + packed)).headD 0 &&& 0x80 = 0 := by
      refine (and_top_ne_zero _).mpr ?_
      rw [hhead]
      simp
      omega
    have hvalue : bigEndian (toBigEndian 3 (2 ^ 23 + packed)) % 2 ^ 23 =
        packed := by
      rw [bigEndian_toBigEndian]
      omega
    simp only [Bool.false_eq_true, if_false, timeText, if_neg htop, List.map_id', hmask, hvalue,
      shr_eq, (and_mask _).2.2.2.1, hshift packed hlt]
  | true =>
    have hpos := hsign rfl
    have htop : (toBigEndian 3 (2 ^ 23 - packed)).headD 0 &&& 0x80 = 0 := by
      by_contra h
      have hge := (and_top_ne_zero _).mp h
      rw [hhead] at hge
      simp at hge
      omega
    have hvalue : bigEndian
        ((toBigEndian 3 (2 ^ 23 - packed)).map fun b => ~~~b) % 2 ^ 23 = packed - 1 := by
      have hsum := bigEndian_complement (toBigEndian 3 (2 ^ 23 - packed))
      rw [bigEndian_toBigEndian, length_toBigEndian] at hsum
      omega
    simp only [if_true, timeText, if_pos htop, hmask, hvalue, shr_eq, (and_mask _).2.2.2.1,
      hshift (packed - 1) (by omega)]

/-- What the stream reads of a TIME is its text only where the time is zero. -/
theorem timeText_eq_iff (hle : clock.hour ≤ 838) (hsign : negative = true → 0 < clock.packed) :
    timeText 3 (toBigEndian 3
        (if negative then 2 ^ 23 - clock.packed else 2 ^ 23 + clock.packed)) =
      (if negative then ['-'] else []) ++ (twoDigits clock.hour ++ ':' :: (twoDigits clock.minute ++
        ':' :: twoDigits clock.second)) ↔ clock.packed = 0 := by
  have hm := clock.minute_lt
  have hs := clock.second_lt
  have hpacked : clock.packed = clock.hour * 2 ^ 12 + clock.minute * 2 ^ 6 + clock.second := rfl
  rw [timeText_whole hle hsign, List.append_cancel_left_eq]
  constructor
  · intro h
    obtain ⟨hhour, hrest⟩ := padded_append_inj (by decide) h
    obtain ⟨hminute, hsecond⟩ := padded_append_inj (by decide) hrest
    have hlast := padded_injective hsecond
    have hsmall : clock.packed < 4096 := by omega
    cases negative with
    | false =>
      simp only [Bool.false_eq_true, if_false] at hminute hlast
      rw [Nat.div_eq_of_lt (by omega)] at hminute
      have hnone : clock.minute = 0 := hminute.symm
      have htiny : clock.packed < 64 := by omega
      rw [Nat.div_eq_of_lt (by omega)] at hlast
      omega
    | true =>
      have hpos := hsign rfl
      simp only [if_true] at hminute hlast
      rw [Nat.div_eq_of_lt (by omega)] at hminute
      have hnone : clock.minute = 0 := hminute.symm
      have htiny : clock.packed < 64 := by omega
      rw [Nat.div_eq_of_lt (by omega)] at hlast
      omega
  · intro h
    have hzero : clock.hour = 0 ∧ clock.minute = 0 ∧ clock.second = 0 := by omega
    cases negative with
    | false => simp [h, hzero.1, hzero.2.1, hzero.2.2]
    | true =>
      have := hsign rfl
      omega

/-- Seconds of Unix time as the stream writes them, with what it reads behind them. -/
def utcText (secs : ℕ) (frac : List Char) : List Char :=
  dateTimeText (Calendar.civil (secs / 86400 + 719468)) (secs % 86400 / 3600)
    (secs % 86400 % 3600 / 60) (secs % 86400 % 60) frac

theorem decodeTimestamp_append (f : Fraction) {secs : ℕ} (h : secs < 2 ^ 32) (rest : List UInt8) :
    (decodeTimestamp (UInt8.ofNat f.fsp).toNat).run
        ((toBigEndian 4 secs ++ f.image) ++ rest) =
      .ok (.str (String.ofList (utcText secs f.asMicros)), rest) := by
  have hfsp : (UInt8.ofNat f.fsp).toNat = f.fsp := by
    have := f.fsp_le
    simp
    omega
  have hwhole : (R.take 4).run (toBigEndian 4 secs ++ (f.image ++ rest)) =
      .ok (toBigEndian 4 secs, f.image ++ rest) :=
    R.take_append 4 (length_toBigEndian _ _)
  have hfrac : (R.take ((f.fsp + 1) / 2)).run (f.image ++ rest) = .ok (f.image, rest) :=
    R.take_append _ f.length_image
  have hvalue : bigEndian (toBigEndian 4 secs) = secs := by
    rw [bigEndian_toBigEndian]
    omega
  rw [hfsp, List.append_assoc, decodeTimestamp, R.run_bind_ok hwhole]
  simp only [hvalue]
  rw [R.run_bind_ok hfrac]
  rfl

theorem streamed_timestamp (parsers : TypeMap.Parsers) (columnType : String) (unsigned : Bool)
    (m : Moment) (f : Fraction) (hpos : 0 < m.secs) (rest : List UInt8) :
    ((timestamp m f hpos).streamed parsers columnType unsigned).run
        ((timestamp m f hpos).image ++ rest) =
      .ok (.str (String.ofList (utcText m.secs f.asMicros)), rest) :=
  decodeTimestamp_append f m.secs_lt rest

theorem streamed_zeroTimestamp (parsers : TypeMap.Parsers) (columnType : String) (unsigned : Bool)
    (f : Fraction) (hzero : f.value = 0) (rest : List UInt8) :
    ((zeroTimestamp f hzero).streamed parsers columnType unsigned).run
        ((zeroTimestamp f hzero).image ++ rest) =
      .ok (.str (String.ofList (utcText 0 f.asMicros)), rest) :=
  decodeTimestamp_append f (by decide) rest

/-- What the stream writes is what a clock shows exactly if the clock is not ahead or behind. -/
theorem utcText_eq_iff (m : Moment) (frac frac' : List Char) :
    utcText m.secs frac = dateTimeText m.date m.clock.hour m.clock.minute m.clock.second frac' ↔
      m.offset = 0 ∧ frac = frac' := by
  obtain ⟨date, ⟨hour, minute, second, hminute, hsecond⟩, offset, secs, hday, hyear, hhour, hoffset,
    hsecs, hlt⟩ := m
  have hnumber := Calendar.sixty_le_number hday hyear
  have hcivil := Calendar.civil_number hday hyear
  simp only [Clock.seconds, epochDay] at hsecs hhour ⊢
  constructor
  · intro h
    obtain ⟨hdate, hh, hm, hs, hfrac⟩ := dateTimeText_inj (by omega) (by omega) h
    rw [← hcivil] at hdate
    have hdays := Calendar.civil_injective hdate
    have hclock : secs % 86400 = 3600 * hour + 60 * minute + second := by omega
    exact ⟨by omega, hfrac⟩
  · rintro ⟨rfl, rfl⟩
    have hdays : secs / 86400 + 719468 = date.number - 60 := by omega
    have hclock : secs % 86400 = 3600 * hour + 60 * minute + second := by omega
    have hparts : (3600 * hour + 60 * minute + second) / 3600 = hour ∧
        (3600 * hour + 60 * minute + second) % 3600 / 60 = minute ∧
        (3600 * hour + 60 * minute + second) % 60 = second := by omega
    rw [utcText, hdays, hcivil, hclock, hparts.1, hparts.2.1, hparts.2.2]

/-- The TIMESTAMP that is none is written as the first second of Unix time. -/
theorem utcText_zero_ne (frac frac' : List Char) :
    utcText 0 frac ≠ dateTimeText ⟨0, 0, 0⟩ 0 0 0 frac' := by
  intro h
  have hdate := (dateTimeText_inj (by decide) (by decide) h).1
  exact absurd hdate (by decide)

/-! ## The two readers -/

/-- The stream reads a value as the load does, and its bytes exactly. -/
def ReadAlike (parsers : TypeMap.Parsers) (columnType : String) (unsigned : Bool) (v : Temporal) :
    Prop :=
  ∀ rest, (v.streamed parsers columnType unsigned).run (v.image ++ rest) =
    .ok (v.loaded parsers columnType, rest)

/-- What the stream reads of a value. -/
def streamedValue : Temporal → Json
  | .date d => .str (String.ofList (date d).text)
  | .year y _ => .int ((y - 1900 : ℕ) + 1900)
  | .time negative clock f hle hsign => .str (String.ofList
      (timeText (3 + f.bytes) (time negative clock f hle hsign).image))
  | .datetime d clock f _ => .str (String.ofList (dateTimeText d.date clock.hour clock.minute
      clock.second (if 0 < f.fsp then '.' :: Encoding.padded f.fsp f.stored else [])))
  | .timestamp m f _ => .str (String.ofList (utcText m.secs f.asMicros))
  | .zeroTimestamp f _ => .str (String.ofList (utcText 0 f.asMicros))

/-- The bytes of a value are read, all of them and no more. -/
theorem streamed_ok (parsers : TypeMap.Parsers) (columnType : String) (unsigned : Bool)
    (v : Temporal) (rest : List UInt8) :
    (v.streamed parsers columnType unsigned).run (v.image ++ rest) =
      .ok (v.streamedValue, rest) := by
  cases v with
  | date d => exact streamed_date parsers columnType unsigned d rest
  | year y h => exact streamed_year parsers columnType unsigned h rest
  | time negative clock f hle hsign =>
    exact streamed_time parsers columnType unsigned hle hsign rest
  | datetime d clock f hlt => exact streamed_datetime parsers columnType unsigned d clock f hlt rest
  | timestamp m f hpos => exact streamed_timestamp parsers columnType unsigned m f hpos rest
  | zeroTimestamp f hzero => exact streamed_zeroTimestamp parsers columnType unsigned f hzero rest

/-- What is streamed of a value is what is loaded where both read the same. -/
theorem streamedValue_eq_iff (parsers : TypeMap.Parsers) (columnType : String) (v : Temporal) :
    v.streamedValue = v.loaded parsers columnType ↔ v.ReadsSame := by
  cases v with
  | date d =>
    rw [loaded_of_text parsers columnType (date d) (by simp [code])]
    exact iff_of_true rfl trivial
  | year y h =>
    rw [loaded_year parsers columnType h, streamedValue, Json.int.injEq, ReadsSame]
    omega
  | time negative clock f hle hsign =>
    rw [loaded_of_text parsers columnType (time negative clock f hle hsign) (by simp [code]),
      streamedValue, str_eq_iff, ReadsSame]
    rcases Nat.eq_zero_or_pos f.fsp with hfsp | hfsp
    · have hvalue := f.value_lt
      rw [hfsp] at hvalue
      have hbytes : f.bytes = 0 := by rw [Fraction.bytes, hfsp]
      have hstored : f.stored = 0 := by rw [Fraction.stored, Nat.lt_one_iff.mp hvalue, Nat.zero_mul]
      have hpacked : negative = true → 0 < clock.packed := fun hneg => by
        have := hsign hneg
        omega
      have htext := timeText_eq_iff hle hpacked
      simp only [image, text, Fraction.text, hbytes, hstored, hfsp, Nat.lt_irrefl, if_false,
        List.append_nil, Nat.pow_zero, Nat.mul_one, Nat.add_zero, true_and] at htext ⊢
      exact htext
    · refine iff_of_false (fun h => ?_) (by omega)
      apply dot_notMem_timeText (3 + f.bytes) (image (.time negative clock f hle hsign))
      rw [h]
      simp [text, Fraction.text, hfsp]
  | datetime d clock f hlt =>
    rw [loaded_of_text parsers columnType (datetime d clock f hlt) (by simp [code]), streamedValue,
      str_eq_iff, ReadsSame, ← f.stored_eq_iff, text]
    constructor
    · intro h
      have hfrac := (dateTimeText_inj clock.second_lt clock.second_lt h).2.2.2.2
      rw [Fraction.text] at hfrac
      split at hfrac
      · exact padded_injective (List.cons.inj hfrac).2
      · have hvalue := f.value_lt
        have hfsp : f.fsp = 0 := by omega
        rw [hfsp] at hvalue
        rw [Fraction.stored, Nat.lt_one_iff.mp hvalue, Nat.zero_mul]
    · intro h
      rw [h]
      rfl
  | timestamp m f hpos =>
    rw [loaded_of_text parsers columnType (timestamp m f hpos) (by simp [code]), streamedValue,
      str_eq_iff, ReadsSame, ← f.asMicros_eq_iff, text]
    exact utcText_eq_iff m _ _
  | zeroTimestamp f hzero =>
    rw [loaded_of_text parsers columnType (zeroTimestamp f hzero) (by simp [code]), streamedValue,
      str_eq_iff, ReadsSame, text]
    exact iff_of_false (utcText_zero_ne _ _) not_false

/-- For every value, and with whatever the column is declared as. -/
theorem temporalReadAlike_iff (parsers : TypeMap.Parsers) (columnType : String) (unsigned : Bool)
    (v : Temporal) : ReadAlike parsers columnType unsigned v ↔ v.ReadsSame := by
  have hstreamed := streamed_ok parsers columnType unsigned v
  rw [← streamedValue_eq_iff parsers columnType]
  constructor
  · intro h
    have heq := (hstreamed []).symm.trans (h [])
    exact (Prod.mk.inj (Except.ok.inj heq)).1
  · intro h rest
    rw [hstreamed rest, h]

/-! ## Half past ten -/

/-- A TIME without digits behind the second. -/
def halfPastTen : Temporal :=
  .time false ⟨10, 30, 0, by decide, by decide⟩ ⟨0, 0, by decide, by decide⟩ (by decide)
    (fun h => by cases h)

/-- It is loaded as it is, and streamed with its bits eight further up. -/
theorem halfPastTen_readApart :
    halfPastTen.loaded TypeMap.Parsers.nothing "time" = .str "10:30:00" ∧
      (halfPastTen.streamed TypeMap.Parsers.nothing "time" false).run halfPastTen.image =
        .ok (.str "00:00:167", []) := by
  constructor
  · rw [loaded_of_text TypeMap.Parsers.nothing "time" halfPastTen (by decide)]
    rfl
  · rfl

end Temporal

end MySql

end Pg2osync
