import Pg2osync.JsonEncoding
import Pg2osync.StreamedTimes

/-!
# Dates, times and decimals in a document

JSON has no type for them, so the server keeps them with the code of their field type: a date or a
time as one word of eight bytes, negative ones as its complement, and a decimal as a column has it.
This says which text, or number, each of them is read as.
-/

namespace Pg2osync

open Encoding

/-! ## Decimals -/

/-- A digit has no other case. -/
theorem toLower_of_isDigit {c : Char} (h : c.isDigit = true) : c.toLower = c := by
  have hall : ∀ n < 58, 48 ≤ n → (Char.ofNat n).toLower = Char.ofNat n := by decide
  obtain ⟨hlow, hhigh⟩ := toNat_of_isDigit h
  have hc := hall c.toNat (by omega) hlow
  rwa [Char.ofNat_toNat] at hc

/-- A double is read from digits, with a sign ahead of them or none. -/
theorem Double.read_of_isDigit (negative : Bool) {c : Char} {rest : List Char} (hc : c.isDigit = true)
    {mantissa scale : ℕ} (hparts : Double.numberParts (c :: rest) = some (mantissa, scale, false, 0)) :
    Double.read ((if negative then ['-'] else []) ++ c :: rest) =
      some (Double.ofFraction negative mantissa (10 ^ scale)) := by
  have hsplit : Double.splitSign ((if negative then ['-'] else []) ++ c :: rest) =
      (negative, c :: rest) := by
    cases negative with
    | false => exact Double.splitSign_of_isDigit hc
    | true => rfl
  have hword : ∀ (word : Char) (more : List Char), word.isDigit = false →
      String.ofList ((c :: rest).map Char.toLower) ≠ String.ofList (word :: more) := by
    intro word more hword heq
    rw [String.ofList_inj, List.map_cons, toLower_of_isDigit hc] at heq
    rw [(List.cons.inj heq).1, hword] at hc
    cases hc
  have hinf : ¬(String.ofList ((c :: rest).map Char.toLower) = "inf" ∨
      String.ofList ((c :: rest).map Char.toLower) = "infinity") := by
    rintro (h | h)
    · exact hword 'i' ['n', 'f'] rfl h
    · exact hword 'i' ['n', 'f', 'i', 'n', 'i', 't', 'y'] rfl h
  have hnan : String.ofList ((c :: rest).map Char.toLower) ≠ "nan" := fun h =>
    hword 'n' ['a', 'n'] rfl h
  rw [Double.read, hsplit]
  dsimp only
  rw [if_neg hinf, if_neg hnan, Double.readNumber_eq, hparts, Option.map_some, Double.scaled, pow_zero,
    Nat.mul_one]

/-- What is far below the greatest double has a nearest one. -/
theorem Double.ofFraction_finite (negative : Bool) {n : ℕ} (h : 2 * n + 1 < 2 ^ 1024) (d : ℕ) :
    ∃ units, Double.ofFraction negative n d = .finite units := by
  have hone : 0 < Double.one := by decide +kernel
  unfold Double.ofFraction
  dsimp only
  generalize hk : n * Double.one / d = k
  have hcut : 2 ^ (Nat.log2 k - 52) ≤ k + 1 := by
    rcases Nat.eq_zero_or_pos k with rfl | hpos
    · decide
    · calc 2 ^ (Nat.log2 k - 52) ≤ 2 ^ Nat.log2 k := Nat.pow_le_pow_right (by decide) (Nat.sub_le _ _)
        _ ≤ k := Nat.log2_self_le hpos.ne'
        _ ≤ k + 1 := Nat.le_succ k
  generalize 2 ^ (Nat.log2 k - 52) = cut at hcut ⊢
  have hunits : Double.roundHalfEven (n * Double.one) (d * cut) * cut ≤ 2 * k + 1 := by
    calc Double.roundHalfEven (n * Double.one) (d * cut) * cut
        ≤ (n * Double.one / (d * cut) + 1) * cut :=
          Nat.mul_le_mul_right _ (Double.roundHalfEven_le _ _)
      _ = k / cut * cut + cut := by rw [← Nat.div_div_eq_div_mul, hk, Nat.succ_mul]
      _ ≤ 2 * k + 1 := by
        have := Nat.div_mul_le_self k cut
        omega
  have hle : k ≤ n * Double.one := hk ▸ Nat.div_le_self _ _
  have hlt : 2 * k + 1 < 2 ^ 1024 * Double.one := by
    calc 2 * k + 1 ≤ (2 * n + 1) * Double.one := by
          rw [Nat.add_mul, Nat.mul_assoc, Nat.one_mul]
          omega
      _ < 2 ^ 1024 * Double.one := Nat.mul_lt_mul_of_pos_right h hone
  rw [if_neg (by omega)]
  exact ⟨_, rfl⟩

namespace MySql

/-- The parts of a decimal's text are its digits and its scale. -/
theorem StoredDecimal.numberParts_text (d : StoredDecimal) :
    Double.numberParts (Nat.toDigits 10 d.whole ++
      if d.scale = 0 then [] else '.' :: padded d.scale d.fraction) =
      some (d.magnitude, d.scale, false, 0) := by
  have hdigits : ∀ c ∈ Nat.toDigits 10 d.whole, c.isDigit = true := fun c hc =>
    Nat.isDigit_of_mem_toDigits (by decide) (by decide) hc
  by_cases hscale : d.scale = 0
  · rw [if_pos hscale, List.append_nil, Double.numberParts_digits Nat.toDigits_ne_nil hdigits,
      Nat.ofDigitChars_ten_toDigits, StoredDecimal.whole, hscale, pow_zero, Nat.div_one]
  · have hlength : (padded d.scale d.fraction).length = d.scale :=
      length_padded (Nat.pos_of_ne_zero hscale) d.fraction_lt
    have hvalue : 10 ^ d.scale * d.whole + d.fraction = d.magnitude := Nat.div_add_mod _ _
    rw [if_neg hscale, Double.numberParts_fraction Nat.toDigits_ne_nil hdigits
      fun c hc => isDigit_padded hc, Nat.ofDigitChars_append, Nat.ofDigitChars_ten_toDigits,
      Nat.ofDigitChars_eq_ofDigitChars_zero, hlength, ofDigitChars_padded, hvalue]

/-- A decimal's text is read as the double nearest to it. -/
theorem StoredDecimal.read_text (d : StoredDecimal) :
    Double.read d.text = some (Double.ofFraction d.negative d.magnitude (10 ^ d.scale)) := by
  obtain ⟨c, rest, hrest⟩ := List.exists_cons_of_ne_nil
    (Nat.toDigits_ne_nil (b := 10) (n := d.whole))
  have hc : c.isDigit = true :=
    Nat.isDigit_of_mem_toDigits (b := 10) (n := d.whole) (by decide) (by decide)
      (hrest ▸ List.mem_cons_self)
  have hparts := d.numberParts_text
  rw [hrest, List.cons_append] at hparts
  rw [StoredDecimal.text, hrest, List.cons_append]
  exact Double.read_of_isDigit d.negative hc hparts

namespace BinaryJson

/-- A date, a time or a decimal of a document. -/
inductive OpaqueValue : Type where
  /-- a DATE -/
  | date (d : StoredDate) : OpaqueValue
  /-- a DATETIME -/
  | datetime (d : StoredDate) (clock : Clock) (micros : ℕ) (hour_lt : clock.hour < 24)
    (micros_lt : micros < 10 ^ 6) : OpaqueValue
  /-- a TIMESTAMP -/
  | timestamp (d : StoredDate) (clock : Clock) (micros : ℕ) (hour_lt : clock.hour < 24)
    (micros_lt : micros < 10 ^ 6) : OpaqueValue
  /-- a TIME -/
  | time (negative : Bool) (clock : Clock) (micros : ℕ) (hour_le : clock.hour ≤ 838)
    (micros_lt : micros < 10 ^ 6) (sign : negative = true → 0 < clock.packed ∨ 0 < micros) :
    OpaqueValue
  /-- a DECIMAL -/
  | decimal (d : StoredDecimal) : OpaqueValue

/-- The word of a date and a time of day. -/
def packedWord (date : Calendar.Date) (clock micros : ℕ) : ℕ :=
  (((date.year * 13 + date.month) * 2 ^ 5 + date.day) * 2 ^ 17 + clock) * 2 ^ 24 + micros

namespace OpaqueValue

/-- The code of its field type. -/
def fieldType : OpaqueValue → ℕ
  | .date _ => 10
  | .datetime _ _ _ _ _ => 12
  | .timestamp _ _ _ _ _ => 7
  | .time _ _ _ _ _ _ => 11
  | .decimal _ => 246

/-- The bytes. -/
def body : OpaqueValue → List UInt8
  | .date d => Encoding.toLittleEndian 8 (packedWord d.date 0 0)
  | .datetime d clock micros _ _ | .timestamp d clock micros _ _ =>
    Encoding.toLittleEndian 8 (packedWord d.date clock.packed micros)
  | .time negative clock micros _ _ _ =>
    let word := clock.packed * 2 ^ 24 + micros
    Encoding.toLittleEndian 8 (if negative then 2 ^ 64 - word else word)
  | .decimal d => UInt8.ofNat d.precision :: UInt8.ofNat d.scale :: d.image

/-- The text, of which the digits behind the second may be written in more than one way. -/
def textWith (digits : ℕ → List Char) : OpaqueValue → List Char
  | .date d => Encoding.padded 4 d.date.year ++ '-' :: (twoDigits d.date.month ++
      '-' :: twoDigits d.date.day)
  | .datetime d clock micros _ _ | .timestamp d clock micros _ _ =>
    dateTimeText d.date clock.hour clock.minute clock.second (digits micros)
  | .time negative clock micros _ _ _ => (if negative then ['-'] else []) ++
      (twoDigits clock.hour ++ ':' :: (twoDigits clock.minute ++ ':' :: (twoDigits clock.second ++
        digits micros)))
  | .decimal d => d.text

/-- The server's text: there are always six digits behind the second. -/
def text : OpaqueValue → List Char :=
  textWith fun micros => '.' :: Encoding.padded 6 micros

/-- The text without them if they are zero. -/
def shortText : OpaqueValue → List Char :=
  textWith fun micros => if 0 < micros then '.' :: Encoding.padded 6 micros else []

/-- What is no time below zero, and none of 32 hours or more. -/
def Plain : OpaqueValue → Prop
  | .time negative clock _ _ _ _ => negative = false ∧ clock.hour < 32
  | _ => True

/-- What a value should be read as: a decimal as the number of the nearest double, and any other as
its text. -/
def Rendered (serde : SerdeJson) : OpaqueValue → Json → Prop
  | .decimal d, w => ∃ units,
      Double.ofFraction d.negative d.magnitude (10 ^ d.scale) = .finite units ∧
        w = .float (serde.print units)
  | v, w => w = .str (String.ofList v.shortText)

end OpaqueValue

/-! ## Words -/

theorem packed_toLittleEndian {word : ℕ} (h : word < 2 ^ 63) :
    packed (toLittleEndian 8 word) = word := by
  have htake : (toLittleEndian 8 word).take 8 = toLittleEndian 8 word :=
    List.take_of_length_le (by rw [length_toLittleEndian])
  have hbytes : word < 256 ^ 8 := h.trans (by norm_num)
  have hread : littleEndian ((toLittleEndian 8 word).take 8) = word := by
    rw [htake, littleEndian_toLittleEndian, Nat.mod_eq_of_lt hbytes]
  unfold packed
  rw [hread]
  exact Int.bmod_eq_of_le_mul_two (by norm_num; omega) (by norm_num; omega)

/-- The parts of a word are what it was made of. -/
theorem parts_packedWord {date : Calendar.Date} {clock : Clock} {micros : ℕ} (hmonth : date.month < 13)
    (hday : date.day < 32) (hhour : clock.hour < 32) (hmicros : micros < 2 ^ 24) :
    parts (packedWord date clock.packed micros) =
      ⟨date.year, date.month, date.day, clock.hour, clock.minute, clock.second, micros⟩ := by
  obtain ⟨year, month, day⟩ := date
  obtain ⟨hour, minute, second, hminute, hsecond⟩ := clock
  dsimp only at hmonth hday hhour
  have hclock : (((packedWord ⟨year, month, day⟩ (Clock.packed ⟨hour, minute, second, hminute, hsecond⟩)
      micros : ℕ) : ℤ)) / 2 ^ 24 % 2 ^ 17 = hour * 2 ^ 12 + minute * 2 ^ 6 + second := by
    simp only [packedWord, Clock.packed]
    omega
  have hdate : (((packedWord ⟨year, month, day⟩ (Clock.packed ⟨hour, minute, second, hminute, hsecond⟩)
      micros : ℕ) : ℤ)) / 2 ^ 41 = (year * 13 + month) * 2 ^ 5 + day := by
    simp only [packedWord, Clock.packed]
    omega
  have hmicros' : (((packedWord ⟨year, month, day⟩
      (Clock.packed ⟨hour, minute, second, hminute, hsecond⟩) micros : ℕ) : ℤ)) % 2 ^ 24 = micros := by
    simp only [packedWord, Clock.packed]
    omega
  have hmonths : (((year : ℤ) * 13 + month) * 2 ^ 5 + day) / 2 ^ 5 = year * 13 + month := by omega
  have hyear : ((year : ℤ) * 13 + month).tdiv 13 = year := by
    rw [Int.tdiv_eq_ediv_of_nonneg (by omega)]
    omega
  have hmonth' : ((year : ℤ) * 13 + month).tmod 13 = month := by
    rw [Int.tmod_eq_emod_of_nonneg (by omega)]
    omega
  simp only [parts, hclock, hdate, hmicros', hmonths, hyear, hmonth', Parts.mk.injEq, true_and,
    and_true]
  omega

@[simp] theorem signedPadded_natCast (width n : ℕ) :
    signedPadded width n = padded width n := by
  rw [signedPadded, if_neg (by omega), Int.toNat_natCast]

/-- The text of a clock, from its parts. -/
theorem clock_parts (c : Clock) (micros : ℕ) (year month day : ℤ) :
    clock ⟨year, month, day, c.hour, c.minute, c.second, micros⟩ =
      twoDigits c.hour ++ ':' :: (twoDigits c.minute ++ ':' :: (twoDigits c.second ++
        if 0 < micros then '.' :: padded 6 micros else [])) := by
  simp only [clock, signedPadded_natCast, Nat.cast_pos]
  rfl

/-- And of a date. -/
theorem date_parts (d : Calendar.Date) (hour minute second micros : ℤ) :
    date ⟨d.year, d.month, d.day, hour, minute, second, micros⟩ =
      padded 4 d.year ++ '-' :: (twoDigits d.month ++ '-' :: twoDigits d.day) := by
  simp only [date, signedPadded_natCast]
  rfl

/-- The word of a date and a time of day fits. -/
theorem packedWord_lt (d : StoredDate) {clock : Clock} (hhour : clock.hour < 32) {micros : ℕ}
    (hmicros : micros < 10 ^ 6) : packedWord d.date clock.packed micros < 2 ^ 63 := by
  obtain ⟨⟨year, month, day⟩, hyear, hmonth, hday⟩ := d
  obtain ⟨hour, minute, second, hminute, hsecond⟩ := clock
  dsimp only at hyear hmonth hday hhour
  simp only [packedWord, Clock.packed]
  omega

/-- What the bytes of a date and a time of day are read as. -/
theorem parts_packed (d : StoredDate) {c : Clock} (hhour : c.hour < 32) {micros : ℕ}
    (hmicros : micros < 10 ^ 6) :
    parts (packed (toLittleEndian 8 (packedWord d.date c.packed micros))) =
      ⟨d.date.year, d.date.month, d.date.day, c.hour, c.minute, c.second, micros⟩ := by
  have hmonth := d.month_le
  have hday := d.day_le
  rw [packed_toLittleEndian (packedWord_lt d hhour hmicros)]
  exact parts_packedWord (by omega) (by omega) hhour (hmicros.trans (by norm_num))

theorem datetimeFrom_packed (d : StoredDate) {c : Clock} (hhour : c.hour < 24) {micros : ℕ}
    (hmicros : micros < 10 ^ 6) :
    datetimeFrom (toLittleEndian 8 (packedWord d.date c.packed micros)) =
      .str (String.ofList (dateTimeText d.date c.hour c.minute c.second
        (if 0 < micros then '.' :: padded 6 micros else []))) := by
  rw [datetimeFrom, parts_packed d (by omega) hmicros, date_parts, clock_parts, dateTimeText]
  simp only [List.append_assoc, List.cons_append]

/-! ## What is read -/

namespace OpaqueValue

/-- The bytes of a value are in the form of its field type. -/
theorem otherForm (v : OpaqueValue) : OtherForm v.fieldType v.body := by
  cases v with
  | decimal d => exact ⟨d, rfl⟩
  | date _ | datetime _ _ _ _ _ | timestamp _ _ _ _ _ | time _ _ _ _ _ _ =>
    exact fun _ => length_toLittleEndian _ _

/-- **A plain value is read as its text**, and a decimal as a number. -/
theorem exists_rendered (serde : SerdeJson) {v : OpaqueValue} (h : v.Plain) :
    ∃ w, v.Rendered serde w ∧ opaqueFrom serde v.fieldType v.body = .value w := by
  have hzero : (⟨0, 0, 0, by decide, by decide⟩ : Clock).packed = 0 := rfl
  cases v with
  | date d =>
    refine ⟨_, rfl, congrArg Walked.value ?_⟩
    have hparts := parts_packed d (c := ⟨0, 0, 0, by decide, by decide⟩) (by decide)
      (show 0 < 10 ^ 6 by decide)
    rw [hzero] at hparts
    rw [body, dateFrom, hparts, date_parts]
    rfl
  | datetime d c micros hour_lt micros_lt | timestamp d c micros hour_lt micros_lt =>
    exact ⟨_, rfl, congrArg Walked.value (datetimeFrom_packed d hour_lt micros_lt)⟩
  | time negative c micros hour_le micros_lt sign =>
    obtain ⟨rfl, hhour⟩ := h
    refine ⟨_, rfl, congrArg Walked.value ?_⟩
    have hword : c.packed * 2 ^ 24 + micros = packedWord ⟨0, 0, 0⟩ c.packed micros := by
      simp only [packedWord, Nat.zero_mul, Nat.zero_add]
    have hparts := parts_packed ⟨⟨0, 0, 0⟩, by decide, by decide, by decide⟩ hhour micros_lt
    rw [body, if_neg Bool.false_ne_true, hword, timeFrom, hparts, clock_parts]
    rfl
  | decimal d =>
    have hlt : 2 * d.magnitude + 1 < 2 ^ 1024 := by
      have hten : 10 ^ d.precision ≤ 10 ^ 65 := Nat.pow_le_pow_right (by decide) d.precision_le
      have hbound : 2 * 10 ^ 65 + 1 < 2 ^ 1024 := by decide +kernel
      have := d.magnitude_lt
      omega
    obtain ⟨units, hunits⟩ := Double.ofFraction_finite d.negative hlt (10 ^ d.scale)
    refine ⟨_, ⟨units, hunits, rfl⟩, (decimalFrom_stored serde d).trans ?_⟩
    rw [d.read_text, hunits]
    rfl

/-- A document that is one: its length takes one byte. -/
theorem encodedAs (v : OpaqueValue) : (Value.other v.fieldType v.body).EncodedAs
    (UInt8.ofNat OPAQUE :: UInt8.ofNat v.fieldType :: UInt8.ofNat v.body.length :: v.body) := by
  have hcode : v.fieldType < 256 := by
    cases v <;> (rw [fieldType]; decide)
  have hlength : v.body.length < 128 := by
    cases v with
    | date _ | datetime _ _ _ _ _ | timestamp _ _ _ _ _ | time _ _ _ _ _ _ =>
      rw [body, length_toLittleEndian]
      decide
    | decimal d =>
      have hbytes : ∀ digits < 9, digBytes digits ≤ 4 := by decide
      have hfirst := hbytes (d.intg % 9) (Nat.mod_lt _ (by decide))
      have hlast := hbytes (d.scale % 9) (Nat.mod_lt _ (by decide))
      have hdigits : d.intg ≤ 65 := (Nat.sub_le _ _).trans d.precision_le
      have hscale := d.scale_le_thirty
      rw [body, List.length_cons, List.length_cons, d.image_marked.1, d.length_plain]
      omega
  have hcount : (UInt8.ofNat v.body.length).toNat = v.body.length := by
    rw [UInt8.toNat_ofNat', Nat.mod_eq_of_lt (by omega)]
  exact ⟨_, _, rfl, rfl, v.otherForm, hcode, rfl, [UInt8.ofNat v.body.length],
    ⟨hcount.symm ▸ hlength, hcount.symm⟩, (show 1 ≤ 5 by decide), List.prefix_rfl⟩

/-- **What is not a TIME below zero or of 32 hours is read as its text**, without a fraction that is
zero, and a decimal as the number of the nearest double, wherever in a document it is. -/
theorem rendered (serde : SerdeJson) {v : OpaqueValue} (h : v.Plain) :
    ∃ w, v.Rendered serde w ∧ (Value.other v.fieldType v.body).Is serde w ∧
      ∀ doc, (Value.other v.fieldType v.body).EncodedAs doc → ∀ fuel, 0 < fuel →
        decode serde fuel doc = .value w := by
  obtain ⟨w, hw, hread⟩ := exists_rendered serde h
  have hjson : (Value.other v.fieldType v.body).json serde = w := by
    rw [Value.json, hread]
  refine ⟨w, hw, hread, ?_⟩
  rintro doc ⟨typeCode, data, rfl, hencodes⟩ fuel hfuel
  exact hjson ▸ Value.Encodes.read serde _ hencodes List.prefix_rfl hfuel

/-- The last TIME before 32 hours. -/
theorem rendered_last_plain :
    (time false ⟨31, 59, 59, by decide, by decide⟩ 999999 (by decide) (by decide) (by decide)).Plain ∧
    ∀ fuel, 0 < fuel → decode .scalars fuel
      [0x0f, 0x0b, 0x08, 0x3f, 0x42, 0x0f, 0xfb, 0xfe, 0x01, 0x00, 0x00] =
        .value (.str "31:59:59.999999") := by
  have hplain : (time false ⟨31, 59, 59, by decide, by decide⟩ 999999 (by decide) (by decide)
      (by decide)).Plain := ⟨rfl, by decide⟩
  obtain ⟨w, hw, -, hread⟩ := rendered .scalars hplain
  have htext : w = .str "31:59:59.999999" := hw.trans (by decide +kernel)
  exact ⟨hplain, htext ▸ hread _ (encodedAs _)⟩

/-- What is read is the server's text. -/
def RendersText (serde : SerdeJson) (v : OpaqueValue) : Prop :=
  ∃ w, opaqueFrom serde v.fieldType v.body = .value w ∧
    (w = .str (String.ofList v.text) ∨ w = .float (String.ofList v.text))

instance (serde : SerdeJson) (v : OpaqueValue) : Decidable (RendersText serde v) :=
  decidable_of_iff (opaqueFrom serde v.fieldType v.body = .value (.str (String.ofList v.text)) ∨
      opaqueFrom serde v.fieldType v.body = .value (.float (String.ofList v.text))) (by
    constructor
    · rintro (h | h)
      · exact ⟨_, h, .inl rfl⟩
      · exact ⟨_, h, .inr rfl⟩
    · rintro ⟨_, h, rfl | rfl⟩
      · exact .inl h
      · exact .inr h)

/-- The decimal 1.50 is not, and neither are a DATETIME without a fraction, a TIME below zero and one
of 32 hours. -/
theorem not_rendersText :
    ¬RendersText .scalars (decimal ⟨3, 2, false, 150, by decide, by decide, by decide, by decide,
      by decide, by decide⟩) ∧
    ¬RendersText .scalars (datetime ⟨⟨2024, 3, 5⟩, by decide, by decide, by decide⟩
      ⟨6, 7, 8, by decide, by decide⟩ 0 (by decide) (by decide)) ∧
    ¬RendersText .scalars (time true ⟨1, 0, 0, by decide, by decide⟩ 500000 (by decide) (by decide)
      (by decide)) ∧
    ¬RendersText .scalars (time false ⟨32, 0, 0, by decide, by decide⟩ 1 (by decide) (by decide)
      (by decide)) := by
  decide +kernel

end OpaqueValue

end BinaryJson

end MySql

end Pg2osync
