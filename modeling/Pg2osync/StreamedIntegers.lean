import Pg2osync.BinlogValue

/-!
# Integers of the binlog

A row image has an integer as two's complement, in as many bytes as its type has, and does not
say whether the column has a sign. The initial load reads the same integer in decimal. This
says for which integers the two readers agree.
-/

namespace Pg2osync

namespace MySql

open Encoding

/-- A type of integers. -/
inductive IntegerType : Type where
  | tinyint : IntegerType
  | smallint : IntegerType
  | mediumint : IntegerType
  | int : IntegerType
  | bigint : IntegerType
  deriving DecidableEq, Repr

namespace IntegerType

/-- Its code in a table map. -/
def code : IntegerType → ℕ
  | .tinyint => 1
  | .smallint => 2
  | .mediumint => 9
  | .int => 3
  | .bigint => 8

/-- How many bytes its values take. -/
def bytes : IntegerType → ℕ
  | .tinyint => 1
  | .smallint => 2
  | .mediumint => 3
  | .int => 4
  | .bigint => 8

/-- Its name in the catalogue. -/
def dataType : IntegerType → String
  | .tinyint => "tinyint"
  | .smallint => "smallint"
  | .mediumint => "mediumint"
  | .int => "int"
  | .bigint => "bigint"

/-- What a column of the type holds. -/
def Holds (t : IntegerType) (unsigned : Bool) (v : ℤ) : Prop :=
  if unsigned then 0 ≤ v ∧ v < 256 ^ t.bytes else -256 ^ t.bytes ≤ 2 * v ∧ 2 * v < 256 ^ t.bytes

instance (t : IntegerType) (unsigned : Bool) (v : ℤ) : Decidable (t.Holds unsigned v) :=
  decidable_of_iff ((unsigned = true → 0 ≤ v ∧ v < 256 ^ t.bytes) ∧
    (unsigned = false → -256 ^ t.bytes ≤ 2 * v ∧ 2 * v < 256 ^ t.bytes)) (by
      cases unsigned <;> simp [Holds])

/-- A value in a row image. -/
def image (t : IntegerType) (v : ℤ) : List UInt8 :=
  Encoding.toLittleEndian t.bytes (v % 256 ^ t.bytes).toNat

/-- A value as the load reads it. -/
def text (v : ℤ) : List UInt8 :=
  Encoding.asciiBytes (Encoding.printInt v)

/-- A value that means the same with a sign and without, and is not of the one width that is
extended to a number without a sign when it is below zero. -/
def Plain (t : IntegerType) (v : ℤ) : Prop :=
  2 * v < 256 ^ t.bytes ∧ (t = .mediumint → 0 ≤ v)

instance (t : IntegerType) (v : ℤ) : Decidable (t.Plain v) :=
  inferInstanceAs (Decidable (_ ∧ _))

theorem shapeOf_dataType (t : IntegerType) (columnType : String) :
    TypeMap.shapeOf t.dataType columnType = .int := by
  cases t <;> simp [TypeMap.shapeOf, dataType]

@[simp] theorem length_image (t : IntegerType) (v : ℤ) : (t.image v).length = t.bytes :=
  length_toLittleEndian _ _

/-! ## What the image holds -/

theorem littleEndian_image (t : IntegerType) (v : ℤ) :
    (littleEndian (t.image v) : ℤ) = v % 256 ^ t.bytes := by
  have hpos : (0 : ℤ) < 256 ^ t.bytes := by positivity
  have hlow := Int.emod_nonneg v (ne_of_gt hpos)
  rw [image, littleEndian_toLittleEndian]
  push_cast
  rw [Int.toNat_of_nonneg hlow, Int.emod_emod_of_dvd _ (dvd_refl _)]

theorem bmod_of_lt {u m : ℕ} (heven : 2 ∣ m) (h : u < m) :
    (u : ℤ).bmod m = if 2 * u < m then (u : ℤ) else u - m := by
  rw [Int.bmod_def, Int.emod_eq_of_lt (by omega) (by omega)]
  split <;> split <;> omega

/-- An integer is extended by its highest bit. -/
theorem signedInt_append {n : ℕ} {raw rest : List UInt8} (hlength : raw.length = n) (hpos : 0 < n)
    (hle : n ≤ 8) :
    (signedInt n).run (raw ++ rest) =
      .ok (.int ((littleEndian raw : ℤ).bmod (256 ^ n)), rest) := by
  have hne : raw ≠ [] := by
    rintro rfl
    simp at hlength
    omega
  have hlt := littleEndian_lt raw
  have htop := half_le_getLastD hne
  have hwhole : 256 ^ n * 256 ^ (8 - n) = 2 ^ 64 := by
    rw [← pow_add, Nat.add_sub_cancel' hle]
    rfl
  have heven : 2 ∣ 256 ^ n := dvd_pow (by decide) (by omega)
  have hbig : 256 ^ n ≤ 2 ^ 64 := hwhole ▸ Nat.le_mul_of_pos_right _ (by positivity)
  have heven64 : 2 ∣ 2 ^ 64 := dvd_pow_self 2 (by decide)
  rw [hlength] at hlt htop
  simp only [signedInt, StateT.run_bind, R.take_append n hlength]
  refine congrArg (fun value : ℤ => Except.ok (Json.int value, rest)) ?_
  dsimp only
  by_cases hhigh : raw.getLastD 0 &&& 0x80 ≠ 0
  · have hones := littleEndian_replicate_ones (8 - n)
    have hhalf := htop.mp ((and_top_ne_zero _).mp hhigh)
    have hbuf : littleEndian (raw ++ List.replicate (8 - n) 0xFF) + 256 ^ n =
        littleEndian raw + 2 ^ 64 := by
      rw [littleEndian_append, hlength, ← hwhole, ← hones]
      ring
    rw [if_pos hhigh, bmod_of_lt heven64 (by omega), bmod_of_lt heven hlt, if_neg (by omega),
      if_neg (by omega)]
    omega
  · have hlow : ¬256 ^ n ≤ 2 * littleEndian raw :=
      fun h => hhigh ((and_top_ne_zero _).mpr (htop.mpr h))
    have hbuf : littleEndian (raw ++ List.replicate (8 - n) 0) =
        littleEndian raw := by
      rw [littleEndian_append, littleEndian_replicate_zero]
      omega
    rw [if_neg hhigh, hbuf, bmod_of_lt heven hlt, if_pos (by omega),
      bmod_of_lt heven64 (by omega), if_pos (by omega)]

theorem isAscii_printInt (v : ℤ) : ∀ c ∈ printInt v, c.toNat < 0x80 := by
  have hdigits : ∀ c ∈ Nat.toDigits 10 v.natAbs, c.toNat < 0x80 := fun c hc =>
    isAscii_of_isDigit (Nat.isDigit_of_mem_toDigits (by decide) (by decide) hc)
  intro c hc
  rw [printInt] at hc
  split at hc
  · rcases List.mem_cons.mp hc with rfl | hc
    · decide
    · exact hdigits c hc
  · exact hdigits c hc

/-- Three bytes are extended by a shift up and one back. -/
theorem shifted_back {u : ℕ} (h : u < 256 ^ 3) :
    ((u * 2 ^ 8 : ℤ).bmod (2 ^ 32)) >>> (8 : ℕ) = (u : ℤ).bmod (256 ^ 3) := by
  have hcast : (u * 2 ^ 8 : ℤ) = (u * 2 ^ 8 : ℕ) := by push_cast; rfl
  have hup : ((u * 2 ^ 8 : ℕ) : ℤ).bmod (2 ^ 32) =
      if 2 * u < 256 ^ 3 then (u * 2 ^ 8 : ℤ) else u * 2 ^ 8 - 2 ^ 32 := by
    rw [bmod_of_lt (dvd_pow_self 2 (by decide)) (by omega)]
    split <;> split <;> omega
  rw [hcast, hup, bmod_of_lt (dvd_pow (by decide) (by decide)) h]
  split <;> rw [Int.shiftRight_eq_div_pow] <;> omega

/-- The load reads an integer as it is, up to 63 bits and a sign. -/
theorem convert_text (parsers : TypeMap.Parsers) (v : ℤ) :
    TypeMap.convert parsers .int (some (text v)) =
      if -2 ^ 63 ≤ v ∧ v < 2 ^ 63 then .int v
      else .str (String.ofList (printInt v)) := by
  have htext : utf8Lossy (text v) = String.ofList (printInt v) :=
    utf8Lossy_ascii (isAscii_printInt v)
  simp only [TypeMap.convert, htext, TypeMap.parseI64, String.toList_ofList,
    readInt_printInt]
  by_cases h : -2 ^ 63 ≤ v ∧ v < 2 ^ 63
  · rw [if_pos h, Option.filter_some_pos (by simpa using h)]
    rfl
  · rw [if_neg h, Option.filter_some_neg (by simpa using h)]
    rfl

/-! ## What both readers make of it -/

variable {t : IntegerType} {c : TableMapColumn}

/-- The stream extends a value by its sign, and one of three bytes to a number without one. -/
theorem decode_image (parsers : TypeMap.Parsers) (hcode : c.typeCode = t.code)
    (hsigned : c.unsigned = false) (v : ℤ) (rest : List UInt8) :
    (c.decode parsers).run (t.image v ++ rest) =
      .ok (.int (if t = .mediumint then v.bmod (256 ^ 3) % 2 ^ 64 else v.bmod (256 ^ t.bytes)),
        rest) := by
  have hvalue : (littleEndian (t.image v) : ℤ).bmod (256 ^ t.bytes) =
      v.bmod (256 ^ t.bytes) := by
    rw [littleEndian_image]
    exact_mod_cast Int.emod_bmod v (256 ^ t.bytes)
  have hlength := length_image t v
  rw [TableMapColumn.decode, hcode, hsigned]
  cases t with
  | mediumint =>
    have hrun : (R.u24).run (image .mediumint v ++ rest) =
        .ok (littleEndian (image .mediumint v), rest) := R.uint_append 3 hlength
    change (decodeValue parsers 9 c.metadata false c.shape).run _ = _
    simp only [decodeValue, StateT.run_bind, hrun]
    refine congrArg (fun value : ℤ => Except.ok (Json.int value, rest)) ?_
    have hlt := littleEndian_lt (image .mediumint v)
    rw [hlength] at hlt
    dsimp only
    rw [shifted_back hlt]
    exact congrArg (fun value : ℤ => value % 2 ^ 64) hvalue
  | tinyint => exact (signedInt_append hlength (by decide) (by decide)).trans (by rw [hvalue]; rfl)
  | smallint => exact (signedInt_append hlength (by decide) (by decide)).trans (by rw [hvalue]; rfl)
  | int => exact (signedInt_append hlength (by decide) (by decide)).trans (by rw [hvalue]; rfl)
  | bigint => exact (signedInt_append hlength (by decide) (by decide)).trans (by rw [hvalue]; rfl)

/-- The stream reads a value of a column as the load does, and no bytes besides. -/
def ReadAlike (parsers : TypeMap.Parsers) (t : IntegerType) (c : TableMapColumn)
    (columnType : String) (v : ℤ) : Prop :=
  let shape := TypeMap.shapeOf t.dataType columnType
  ∀ rest, (TableMapColumn.decode parsers { c with shape := some shape }).run (t.image v ++ rest) =
    .ok (TypeMap.convert parsers shape (some (text v)), rest)

theorem bytes_le (t : IntegerType) : (256 : ℤ) ^ t.bytes ≤ 256 ^ 8 := by
  cases t <;> simp [bytes]

variable {unsigned : Bool} {v : ℤ}

/-- A value that keeps its meaning is within 63 bits and a sign. -/
theorem Plain.in_i64 (h : t.Plain v) (hholds : t.Holds unsigned v) : -2 ^ 63 ≤ v ∧ v < 2 ^ 63 := by
  have hle := bytes_le t
  obtain ⟨hupper, -⟩ := h
  rw [Holds] at hholds
  split at hholds <;> omega

/-- And what two's complement makes of it. -/
theorem Plain.bmod_eq (h : t.Plain v) (hholds : t.Holds unsigned v) :
    v.bmod (256 ^ t.bytes) = v := by
  obtain ⟨hupper, -⟩ := h
  have hpos : (0 : ℤ) < 256 ^ t.bytes := by positivity
  apply Int.bmod_eq_of_le_mul_two
  · push_cast
    rw [Holds] at hholds
    split at hholds <;> omega
  · push_cast
    omega

/-- The stream reads a value that keeps its meaning as it is. -/
theorem decode_plain (parsers : TypeMap.Parsers) (hcode : c.typeCode = t.code)
    (hsigned : c.unsigned = false) (hholds : t.Holds unsigned v) (hplain : t.Plain v)
    (rest : List UInt8) : (c.decode parsers).run (t.image v ++ rest) = .ok (.int v, rest) := by
  rw [decode_image parsers hcode hsigned]
  refine congrArg (fun value : ℤ => Except.ok (Json.int value, rest)) ?_
  have hbmod := hplain.bmod_eq hholds
  split
  · rename_i hmedium
    subst hmedium
    have hnonneg := hplain.2 rfl
    have hi64 := hplain.in_i64 hholds
    exact (congrArg (fun value : ℤ => value % 2 ^ 64) hbmod).trans
      (Int.emod_eq_of_lt hnonneg (by omega))
  · exact hbmod

/-- What the stream reads is the value itself only where the value keeps its meaning. -/
theorem plain_of_decoded (hholds : t.Holds unsigned v)
    (h : (if t = .mediumint then v.bmod (256 ^ 3) % 2 ^ 64 else v.bmod (256 ^ t.bytes)) = v) :
    t.Plain v := by
  by_cases hmedium : t = .mediumint
  · subst hmedium
    have hlt : v < 256 ^ 3 := by
      rw [Holds] at hholds
      split at hholds
      · exact hholds.2
      · have := hholds.2
        simp only [bytes] at this
        omega
    have hupper := Int.bmod_lt (x := v) (m := 256 ^ 3) (by decide)
    have hlower := Int.le_bmod (x := v) (m := 256 ^ 3) (by decide)
    rw [if_pos rfl] at h
    have hnonneg : 0 ≤ v := h ▸ Int.emod_nonneg _ (by decide)
    refine ⟨?_, fun _ => hnonneg⟩
    simp only [bytes]
    omega
  · rw [if_neg hmedium] at h
    have hlt := Int.bmod_lt (x := v) (m := 256 ^ t.bytes) (by positivity)
    rw [h] at hlt
    have heven : (2 : ℤ) ∣ 256 ^ t.bytes := dvd_pow (by decide) (by cases t <;> decide)
    push_cast at hlt
    exact ⟨by omega, fun hm => absurd hm hmedium⟩

/-- For every column of every table map, both readers agree on a value exactly if it keeps its
meaning: the sign that a column lacks is never known. -/
theorem integersReadAlike_iff (parsers : TypeMap.Parsers) {payload : List UInt8}
    {table : TableMapEvent} (hmap : parseTableMap payload = .ok table) {c : TableMapColumn}
    (hc : c ∈ table.columns) {t : IntegerType} (hcode : c.typeCode = t.code) (columnType : String)
    {unsigned : Bool} {v : ℤ} (hholds : t.Holds unsigned v) :
    ReadAlike parsers t c columnType v ↔ t.Plain v := by
  have hsigned := parseTableMap_signed hmap hc
  simp only [ReadAlike, shapeOf_dataType, convert_text]
  have hdecode := decode_image (c := { c with shape := some .int }) parsers hcode hsigned v
  constructor
  · intro h
    have hread := (hdecode []).symm.trans (h [])
    simp only [Except.ok.injEq, Prod.mk.injEq, and_true] at hread
    by_cases hi64 : -2 ^ 63 ≤ v ∧ v < 2 ^ 63
    · rw [if_pos hi64, Json.int.injEq] at hread
      exact plain_of_decoded hholds hread
    · rw [if_neg hi64] at hread
      cases hread
  · intro hplain rest
    rw [if_pos (hplain.in_i64 hholds)]
    exact decode_plain (c := { c with shape := some .int }) parsers hcode hsigned hholds hplain rest

/-! ## A counter -/

/-- The table map of a table with one INT column, which may be UNSIGNED: it does not say. -/
def viewsMap : List UInt8 :=
  [1, 0, 0, 0, 0, 0, 0, 0, 4] ++ Encoding.asciiBytes "shop".toList ++ [0, 5] ++
    Encoding.asciiBytes "views".toList ++ [0, 1, 3, 0, 0]

/-- Its column. -/
def viewsColumn : TableMapColumn :=
  ⟨⟨3, [], none⟩, "", false, false⟩

/-- It is read. -/
def viewsTable : TableMapEvent :=
  ⟨1, "shop", "views", [viewsColumn], ⟨[], []⟩⟩

theorem viewsMap_read : parseTableMap viewsMap = .ok viewsTable := by
  rfl

theorem integersReadAlike_iff_seven :
    ReadAlike TypeMap.Parsers.nothing .int viewsColumn "int unsigned" 7 ↔ IntegerType.int.Plain 7 :=
  integersReadAlike_iff TypeMap.Parsers.nothing viewsMap_read (List.mem_singleton.mpr rfl) rfl
    "int unsigned" (show IntegerType.int.Holds true 7 by decide)

/-- The greatest INT UNSIGNED is loaded as it is and streamed as minus one. -/
theorem greatest_readApart :
    parseTableMap viewsMap = .ok viewsTable ∧ viewsColumn ∈ viewsTable.columns ∧
      IntegerType.int.Holds true 4294967295 ∧
      ¬ReadAlike TypeMap.Parsers.nothing .int viewsColumn "int unsigned" 4294967295 := by
  refine ⟨viewsMap_read, List.mem_singleton.mpr rfl, by decide, fun h => ?_⟩
  have hstreamed := h []
  rw [decode_image (t := .int) TypeMap.Parsers.nothing rfl rfl, shapeOf_dataType,
    convert_text] at hstreamed
  simp only [Except.ok.injEq, Prod.mk.injEq] at hstreamed
  exact absurd hstreamed.1 (by decide)

end IntegerType

end MySql

end Pg2osync
