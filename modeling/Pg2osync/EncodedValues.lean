import Pg2osync.JsonEncoding
import Pg2osync.StreamedIntegers
import Pg2osync.StreamedStrings
import Pg2osync.StreamedTimes
import Pg2osync.ValueReadings

/-!
# The bytes of values

What the server writes of a value follows from the type of its column: the types that are read are
the integers, the dates and the times, the decimals, the bits, the strings, the large objects, the
documents and the geometries. Of those on which the load and the stream agree this says that they
are read back, and that nothing is read of a value that is cut off.
-/

namespace Pg2osync

namespace MySql

open Encoding

variable (serde : SerdeJson)

/-- A value of a column, and its bytes in a row image. -/
inductive Encodes : TableMapColumn → Json → List UInt8 → Prop where
  /-- an integer that means the same with a sign and without -/
  | integer {c : TableMapColumn} (t : IntegerType) (unsigned : Bool) (n : ℤ)
      (code_eq : c.typeCode = t.code) (signed : c.unsigned = false) (holds : t.Holds unsigned n)
      (plain : t.Plain n) : Encodes c (.int n) (t.image n)
  /-- a date or a time, as it is loaded -/
  | temporal {c : TableMapColumn} (parsers : TypeMap.Parsers) (columnType : String) (v : Temporal)
      (code_eq : c.typeCode = v.code) (metadata_eq : c.metadata = v.metadata)
      (same : v.ReadsSame) : Encodes c (v.loaded parsers columnType) v.image
  /-- a decimal -/
  | decimal {c : TableMapColumn} (d : StoredDecimal) (code_eq : c.typeCode = 246)
      (metadata_eq : c.metadata = [UInt8.ofNat d.precision, UInt8.ofNat d.scale]) :
      Encodes c (.str (String.ofList d.text)) d.image
  /-- some bits, of which the count is in two parts -/
  | bits {c : TableMapColumn} (count n : ℕ) (count_pos : 0 < count) (count_le : count ≤ 64)
      (lt : n < 2 ^ count) (code_eq : c.typeCode = 16)
      (metadata_eq : c.metadata = [UInt8.ofNat (count % 8), UInt8.ofNat (count / 8)]) :
      Encodes c (.int n) (Encoding.toBigEndian ((count + 7) / 8) n)
  /-- a string or a label, as it is loaded -/
  | string {c : TableMapColumn} (parsers : TypeMap.Parsers) (v : StringValue)
      (code_eq : c.typeCode = v.code) (metadata_eq : c.metadata = v.metadata)
      (shape_eq : c.shape = some v.shape) (same : v.ReadsSame) :
      Encodes c (v.loaded parsers) v.image
  /-- a BLOB, of up to four sizes -/
  | blob {c : TableMapColumn} (size : ℕ) (bytes : List UInt8) (size_pos : 0 < size)
      (size_le : size ≤ 4) (lt : bytes.length < 256 ^ size) (code_eq : c.typeCode = 252)
      (metadata_eq : c.metadata = [UInt8.ofNat size]) (shape_eq : c.shape = some .bytes) :
      Encodes c (.str (String.ofList (Encoding.base64 bytes)))
        (Encoding.toLittleEndian size bytes.length ++ bytes)
  /-- a TEXT -/
  | text {c : TableMapColumn} (size : ℕ) (s : String) (size_pos : 0 < size) (size_le : size ≤ 4)
      (lt : (Encoding.utf8Bytes s).length < 256 ^ size) (code_eq : c.typeCode = 252)
      (metadata_eq : c.metadata = [UInt8.ofNat size]) (shape_eq : c.shape = some .text) :
      Encodes c (.str s)
        (Encoding.toLittleEndian size (Encoding.utf8Bytes s).length ++ Encoding.utf8Bytes s)
  /-- a document -/
  | document {c : TableMapColumn} (v : BinaryJson.Value) (doc : List UInt8)
      (encoded : v.EncodedAs doc) (lt : doc.length < 256 ^ 4) (code_eq : c.typeCode = 245)
      (metadata_eq : c.metadata = [4]) :
      Encodes c (v.json serde) (Encoding.toLittleEndian 4 doc.length ++ doc)
  /-- a geometry -/
  | geometry {c : TableMapColumn} (bytes : List UInt8) (lt : bytes.length < 256 ^ 4)
      (code_eq : c.typeCode = 255) (metadata_eq : c.metadata = [4]) :
      Encodes c (.str (String.ofList (Encoding.base64 bytes)))
        (Encoding.toLittleEndian 4 bytes.length ++ bytes)

/-- The decoder of a column's values, in so many steps. -/
def decoder (fuel : ℕ) (c : TableMapColumn) (b : Slice) : Checked b Json :=
  Checked.decodeValueInner serde fuel c.typeCode c.metadata c.unsigned c.shape

variable {serde} {c : TableMapColumn} {v : Json} {raw : List UInt8}

/-- What the decoder reads that only reads bytes, this one reads. -/
theorem takes_of_decodeValue (parsers : TypeMap.Parsers) {ty : ℕ} {metadata : List UInt8}
    (hcode : c.typeCode = ty) (hmetadata : c.metadata = metadata) (hdoc : ty ≠ 245)
    (hfit : ¬Unfit ty metadata) (hlt : raw.length < 2 ^ 63) (h : ∀ rest,
      (decodeValue parsers ty metadata c.unsigned c.shape).run (raw ++ rest) = .ok (v, rest))
    (fuel : ℕ) : Checked.Takes (decoder serde fuel c) raw v := by
  unfold decoder
  rw [hcode, hmetadata]
  constructor
  · intro b r rest hr
    exact (Checked.mirrors_decodeValue serde fuel parsers c.unsigned c.shape hdoc hfit).read
      (hr ▸ h rest)
  · intro b r tail htail hraw
    have hwhole := h []
    rw [List.append_nil, hraw] at hwhole
    exact (Checked.mirrors_decodeValue serde fuel parsers c.unsigned c.shape hdoc hfit).cut htail
      (hraw ▸ hlt) hwhole

/-- A document is read in the steps that its depth takes. -/
theorem takes_document {w : BinaryJson.Value} {doc : List UInt8} (hencoded : w.EncodedAs doc)
    (hlt : doc.length < 256 ^ 4) (hcode : c.typeCode = 245) (hmetadata : c.metadata = [4])
    {fuel : ℕ} (hfuel : w.depth ≤ fuel) : Checked.Takes (decoder serde fuel c)
      (toLittleEndian 4 doc.length ++ doc) (w.json serde) := by
  have hdecode : BinaryJson.decode serde fuel doc = .value (w.json serde) := by
    obtain ⟨typeCode, data, rfl, hencodes⟩ := hencoded
    exact BinaryJson.Value.Encodes.read serde w hencodes List.prefix_rfl hfuel
  have hdocument : Checked.Takes (fun _ => Checked.check
      (Checked.ofDocument doc (BinaryJson.decode serde fuel doc))) [] (w.json serde) := by
    rw [hdecode]
    exact .pure _
  unfold decoder
  rw [hcode, hmetadata]
  exact .counted (by decide) hlt (by omega) hdocument

theorem unfit_temporal (v : Temporal) : ¬Unfit v.code v.metadata := by
  have hfsp : ∀ f : Fraction, (UInt8.ofNat f.fsp).toNat ≤ 6 := fun f => by
    have := f.fsp_le
    rw [UInt8.toNat_ofNat']
    omega
  cases v with
  | date d => exact id
  | year y h => exact id
  | time negative clock f hle hsign => exact Nat.not_lt.mpr ((hfsp f).trans (by decide))
  | datetime d clock f hlt => exact Nat.not_lt.mpr (hfsp f)
  | timestamp m f hpos => exact Nat.not_lt.mpr (hfsp f)
  | zeroTimestamp f hzero => exact Nat.not_lt.mpr (hfsp f)

/-- Bytes behind their number, of as many bytes as the metadata say. -/
theorem counted_append {size : ℕ} (hle : size ≤ 8) {bytes : List UInt8}
    (hlt : bytes.length < 256 ^ size) (f : List UInt8 → Json) (rest : List UInt8) :
    (R.readUintN (UInt8.ofNat size).toNat >>= fun len => R.take len >>= fun raw => pure (f raw)).run
        (toLittleEndian size bytes.length ++ bytes ++ rest) = .ok (f bytes, rest) := by
  have hsize : min (UInt8.ofNat size).toNat 8 = size := by
    rw [UInt8.toNat_ofNat']
    omega
  rw [R.readUintN, hsize, List.append_assoc,
    R.run_bind_ok (R.uint_append size (length_toLittleEndian size _)),
    littleEndian_toLittleEndian, Nat.mod_eq_of_lt hlt, R.run_bind_ok (R.take_append _ rfl)]
  rfl

theorem unfit_decimal (d : StoredDecimal) :
    ¬Unfit 246 [UInt8.ofNat d.precision, UInt8.ofNat d.scale] := by
  rintro ⟨hzero, -⟩
  have hpos := d.precision_pos
  have hle := d.precision_le
  rw [List.headD_cons, UInt8.toNat_ofNat'] at hzero
  omega

/-- The number of some bits, the high byte first. -/
theorem decodeBits_append {bits count n : ℕ} (hbits : count = bits) (hpos : 0 < count)
    (hle : count ≤ 64) (hlt : n < 2 ^ count) (rest : List UInt8) :
    (R.take (max ((bits + 7) / 8) 1) >>= fun raw => pure (Json.int (TypeMap.beUint raw))).run
        (toBigEndian ((count + 7) / 8) n ++ rest) = .ok (.int n, rest) := by
  subst hbits
  have hmax : max ((count + 7) / 8) 1 = (count + 7) / 8 := by omega
  have hlength := length_toBigEndian ((count + 7) / 8) n
  have hroom : n < 256 ^ ((count + 7) / 8) := by
    refine hlt.trans_le ?_
    rw [show 256 = 2 ^ 8 by decide, ← pow_mul]
    exact Nat.pow_le_pow_right (by decide) (by omega)
  have hvalue : TypeMap.beUint (toBigEndian ((count + 7) / 8) n) = n := by
    rw [TypeMap.beUint, List.take_of_length_le (by omega), bigEndian_toBigEndian,
      Nat.mod_eq_of_lt hroom]
  rw [hmax, R.run_bind_ok (R.take_append _ hlength), hvalue]
  rfl

theorem length_counted {most : ℕ} {bytes : List UInt8} (hmost : most < 2 ^ 62)
    (hle : bytes.length ≤ most) : (StringValue.counted most bytes).length < 2 ^ 63 := by
  rw [StringValue.counted, List.length_append, length_toLittleEndian]
  split <;> omega

theorem length_string (v : StringValue) : v.image.length < 2 ^ 63 := by
  cases v with
  | char charset chars text bytes hchars hwidth hstored hlength htrimmed =>
    have hle : bytes.length ≤ charset.width * chars :=
      (charset.length_le hstored).trans (Nat.mul_le_mul_left _ hlength)
    have hmost : charset.width * chars ≤ 4 * 255 := Nat.mul_le_mul hwidth hchars
    exact length_counted (by omega) hle
  | varchar charset chars text bytes hfits hstored hlength =>
    have hle : bytes.length ≤ charset.width * chars :=
      (charset.length_le hstored).trans (Nat.mul_le_mul_left _ hlength)
    exact length_counted (by omega) hle
  | binary bytes hlength =>
    have hle : (bytes.rdropWhile fun b => b = 0).length ≤ bytes.length :=
      (List.rdropWhile_prefix _ _).length_le
    exact length_counted (by omega) hle
  | varbinary most bytes hfits hlength => exact length_counted (by omega) hlength
  | enum members ordinal hfits hle =>
    have hbytes : StringValue.enumBytes members.length ≤ 2 := by
      rw [StringValue.enumBytes]
      split <;> omega
    rw [StringValue.image, length_toLittleEndian]
    omega
  | set members mask hfits hlt hplain =>
    have hbytes := (StringValue.setBytes_spec hfits).1
    rw [StringValue.image, length_toLittleEndian]
    omega

/-- No value has so many bytes that their number has a sign. -/
theorem Encodes.length_lt (h : Encodes serde c v raw) : raw.length < 2 ^ 63 := by
  cases h with
  | integer t sign n code_eq signed holds plain =>
    rw [IntegerType.length_image]
    cases t <;> decide
  | temporal parsers columnType v code_eq metadata_eq same =>
    have hbytes : ∀ f : Fraction, f.bytes ≤ 3 := fun f => by
      have := f.fsp_le
      rw [Fraction.bytes]
      omega
    have hfraction : ∀ f : Fraction, f.image.length ≤ 3 := fun f => by
      rw [Fraction.length_image]
      exact hbytes f
    cases v with
    | date d => exact (length_toLittleEndian _ _).trans_lt (by decide)
    | year y h => exact (length_toLittleEndian _ _).trans_lt (by decide)
    | time negative clock f hle hsign =>
      have := hbytes f
      exact (length_toBigEndian _ _).trans_lt (by omega)
    | datetime d clock f hlt | timestamp m f hpos | zeroTimestamp f hzero =>
      have := hfraction f
      rw [Temporal.image, List.length_append, length_toBigEndian]
      omega
  | decimal d code_eq metadata_eq =>
    have hgroup : ∀ digits < 9, digBytes digits ≤ 4 := by decide
    have hfirst := hgroup (d.intg % 9) (Nat.mod_lt _ (by decide))
    have hlast := hgroup (d.scale % 9) (Nat.mod_lt _ (by decide))
    have hintg : d.intg ≤ d.precision := Nat.sub_le _ _
    have hprecision := d.precision_le
    have hscale := d.scale_le_thirty
    rw [d.image_marked.1, d.length_plain]
    omega
  | bits count n count_pos count_le lt code_eq metadata_eq =>
    rw [length_toBigEndian]
    omega
  | string parsers v code_eq metadata_eq shape_eq same => exact length_string v
  | blob size _ size_pos size_le lt | text size _ size_pos size_le lt =>
    have hmost : 256 ^ size ≤ 256 ^ 4 := Nat.pow_le_pow_right (by decide) size_le
    rw [List.length_append, length_toLittleEndian]
    omega
  | document v doc encoded lt code_eq metadata_eq =>
    rw [List.length_append, length_toLittleEndian]
    omega
  | geometry bytes lt code_eq metadata_eq =>
    rw [List.length_append, length_toLittleEndian]
    omega

/-- **What is written of a value is read back**, if there are as many steps as it takes. -/
theorem Encodes.read (h : Encodes serde c v raw) :
    ∃ enough, ∀ fuel, enough ≤ fuel → Checked.Takes (decoder serde fuel c) raw v := by
  have hlt := h.length_lt
  cases h with
  | integer t sign n code_eq signed holds plain =>
    have hdoc : c.typeCode ≠ 245 := by
      rw [code_eq]
      cases t <;> decide
    have hfit : ¬Unfit c.typeCode c.metadata := by
      rw [code_eq]
      cases t <;> exact id
    exact ⟨0, fun fuel _ => takes_of_decodeValue .nothing rfl rfl hdoc hfit hlt
      (IntegerType.decode_plain .nothing code_eq signed holds plain) fuel⟩
  | temporal parsers columnType v code_eq metadata_eq same =>
    have hdoc : v.code ≠ 245 := by cases v <;> simp [Temporal.code]
    have hvalue := (v.streamedValue_eq_iff parsers columnType).mpr same
    refine ⟨0, fun fuel _ => takes_of_decodeValue parsers code_eq metadata_eq hdoc
      (unfit_temporal v) hlt (fun rest => ?_) fuel⟩
    rw [← hvalue, ← v.streamed_ok parsers columnType c.unsigned rest]
    cases v <;> rfl
  | decimal d code_eq metadata_eq =>
    refine ⟨0, fun fuel _ => takes_of_decodeValue .nothing code_eq metadata_eq
      (by decide) (unfit_decimal d) hlt (fun rest => ?_) fuel⟩
    have hprecision : (UInt8.ofNat d.precision).toNat = d.precision := by
      have := d.precision_le
      rw [UInt8.toNat_ofNat']
      omega
    have hscale : (UInt8.ofNat d.scale).toNat = d.scale := by
      have := d.scale_le_thirty
      rw [UInt8.toNat_ofNat']
      omega
    have hread := d.decodeDecimal_image rest
    rw [← hprecision, ← hscale] at hread
    exact hread
  | bits count n count_pos count_le lt code_eq metadata_eq =>
    refine ⟨0, fun fuel _ => takes_of_decodeValue .nothing code_eq metadata_eq
      (by decide) id hlt (fun rest => ?_) fuel⟩
    have hcount : (UInt8.ofNat (count / 8)).toNat * 8 + (UInt8.ofNat (count % 8)).toNat =
        count := by
      rw [UInt8.toNat_ofNat', UInt8.toNat_ofNat']
      omega
    exact decodeBits_append hcount.symm count_pos count_le lt rest
  | string parsers v code_eq metadata_eq shape_eq same =>
    have hdoc : v.code ≠ 245 := by cases v <;> simp [StringValue.code]
    have hfit : ¬Unfit v.code v.metadata := by cases v <;> exact id
    refine ⟨0, fun fuel _ => takes_of_decodeValue parsers code_eq metadata_eq hdoc hfit hlt
      (fun rest => ?_) fuel⟩
    rw [shape_eq, ← (v.decoded_iff parsers).mpr same rest]
    cases v <;> rfl
  | blob size bytes size_pos size_le lt code_eq metadata_eq shape_eq =>
    refine ⟨0, fun fuel _ => takes_of_decodeValue .nothing code_eq metadata_eq
      (by decide) id hlt (fun rest => ?_) fuel⟩
    rw [shape_eq]
    exact counted_append (by omega) lt (stringLike (some .bytes)) rest
  | text size s size_pos size_le lt code_eq metadata_eq shape_eq =>
    refine ⟨0, fun fuel _ => takes_of_decodeValue .nothing code_eq metadata_eq
      (by decide) id hlt (fun rest => ?_) fuel⟩
    have hsame : stringLike (some .text) (utf8Bytes s) = .str s :=
      congrArg Json.str (utf8Lossy_utf8Bytes s)
    rw [shape_eq, ← hsame]
    exact counted_append (by omega) lt (stringLike (some .text)) rest
  | document v doc encoded lt code_eq metadata_eq =>
    exact ⟨v.depth, fun fuel hfuel => takes_document encoded lt code_eq metadata_eq hfuel⟩
  | geometry bytes lt code_eq metadata_eq =>
    refine ⟨0, fun fuel _ => takes_of_decodeValue .nothing code_eq metadata_eq
      (by decide) id hlt (fun rest => ?_) fuel⟩
    exact @counted_append 4 (by decide) bytes lt
      (fun bytes => .str (String.ofList (base64 bytes))) rest

end MySql

end Pg2osync
