import Mathlib.Data.List.Infix
import Pg2osync.BinaryJson

/-!
# The encoding of a JSON value

What the bytes of a value are, as the server documents them: the type and the size of every scalar,
and of a container how many entries it has, how many bytes it takes, where its keys and its values
lie behind them, and in which order the keys stand. Where exactly a value lies is the writer's
choice, and in which of the two sizes a container is.

A value that is encoded so is read back, with all its members, whatever the bytes behind it.
-/

namespace Pg2osync

open Walked

namespace MySql

namespace BinaryJson

open Encoding

/-- A value of a JSON column. -/
inductive Value : Type where
  /-- `null` -/
  | null : Value
  /-- `true` or `false` -/
  | bool (b : Bool) : Value
  /-- an integer -/
  | int (n : ℤ) : Value
  /-- a double, by its bits -/
  | double (bits : ℕ) : Value
  /-- a text -/
  | str (s : String) : Value
  /-- a value of another type, by the type's code and its bytes -/
  | other (fieldType : ℕ) (body : List UInt8) : Value
  /-- an array -/
  | arr (items : List Value) : Value
  /-- an object -/
  | obj (members : List (String × Value)) : Value

/-! ## What the bytes are -/

/-- A number of some bytes stands at an offset, the low byte first. -/
def Holds (data : List UInt8) (start bytes n : ℕ) : Prop :=
  Encoding.toLittleEndian bytes n <+: data.drop start ∧ n < 256 ^ bytes

/-- An integer in one of six types. -/
def IntForm (typeCode : ℕ) (data : List UInt8) (n : ℤ) : Prop :=
  ∃ bytes sign, (typeCode, bytes, sign) ∈ [(INT16, 2, true), (UINT16, 2, false), (INT32, 4, true),
      (UINT32, 4, false), (INT64, 8, true), (UINT64, 8, false)] ∧
    (if sign then -256 ^ bytes ≤ 2 * n ∧ 2 * n < 256 ^ bytes else 0 ≤ n ∧ n < 256 ^ bytes) ∧
    Holds data 0 bytes (n % 256 ^ bytes).toNat

/-- Groups of seven bits, the low one first; all but the last have the high bit set. -/
def IsVarLen : List UInt8 → ℕ → Prop
  | [], _ => False
  | [b], n => b.toNat < 128 ∧ n = b.toNat
  | b :: more, n => 128 ≤ b.toNat ∧ ∃ m, IsVarLen more m ∧ n = b.toNat - 128 + 128 * m

/-- A length of at most five bytes, and as many bytes behind it. -/
def Counted (data body : List UInt8) : Prop :=
  ∃ code, IsVarLen code body.length ∧ code.length ≤ 5 ∧ code ++ body <+: data

/-- The bytes of another type: a decimal has its precision and its scale ahead of the packed
digits, a date or a time is one word. -/
def OtherForm (fieldType : ℕ) (body : List UInt8) : Prop :=
  if fieldType = 246 then
    ∃ d : StoredDecimal, body = UInt8.ofNat d.precision :: UInt8.ofNat d.scale :: d.image
  else fieldType ∈ [7, 10, 11, 12] → body.length = 8

/-- The types that are in the entry itself. -/
def Inlined (large : Bool) (typeCode : ℕ) : Prop :=
  typeCode ∈ [LITERAL, INT16, UINT16] ∨ large = true ∧ typeCode ∈ [INT32, UINT32]

instance (large : Bool) (typeCode : ℕ) : Decidable (Inlined large typeCode) :=
  inferInstanceAs (Decidable (_ ∨ _))

/-- A value entry: the value is in it, or lies where it says, between the header and the end. -/
def EntryForm (body : List UInt8) (large : Bool) (header start : ℕ)
    (form : ℕ → List UInt8 → Prop) : Prop :=
  ∃ typeCode : UInt8, body[start]? = some typeCode ∧
    if Inlined large typeCode.toNat then
      form typeCode.toNat ((body.drop (start + 1)).take (width large))
    else ∃ offset, Holds body (start + 1) (width large) offset ∧ header ≤ offset ∧
      offset ≤ body.length ∧ form typeCode.toNat (body.drop offset)

/-- A key entry: where the key lies, between the header and the end, and how long it is. -/
def KeyForm (body : List UInt8) (large : Bool) (header start : ℕ) (key : String) : Prop :=
  ∃ offset, Holds body start (width large) offset ∧
    Holds body (start + width large) 2 (Encoding.utf8Bytes key).length ∧ header ≤ offset ∧
    offset ≤ body.length ∧ Encoding.utf8Bytes key <+: body.drop offset

/-- How many entries a container has, and how many bytes it takes. -/
def SizeForm (data : List UInt8) (large : Bool) (count header size : ℕ) : Prop :=
  Holds data 0 (width large) count ∧ Holds data (width large) (width large) size ∧
    header ≤ size ∧ size ≤ data.length

/-- The header of an array. -/
def arrayHeader (large : Bool) (count : ℕ) : ℕ :=
  width large * 2 + count * (width large + 1)

/-- The header of an object. -/
def objectHeader (large : Bool) (count : ℕ) : ℕ :=
  width large * 2 + count * (width large + 2) + count * (width large + 1)

/-- The order of the keys: a shorter one first, and those of one length by their bytes. -/
def KeyBefore (a b : String) : Prop :=
  (Encoding.utf8Bytes a).length < (Encoding.utf8Bytes b).length ∨
    (Encoding.utf8Bytes a).length = (Encoding.utf8Bytes b).length ∧
      Encoding.utf8Bytes a < Encoding.utf8Bytes b

mutual

/-- The bytes of a value, from where it begins; what is behind it does not matter. -/
def Value.Encodes : Value → ℕ → List UInt8 → Prop
  | .null, typeCode, data => typeCode = LITERAL ∧ data.head? = some 0
  | .bool b, typeCode, data => typeCode = LITERAL ∧ data.head? = some (if b then 1 else 2)
  | .int n, typeCode, data => IntForm typeCode data n
  | .double bits, typeCode, data => typeCode = DOUBLE ∧ bits / 2 ^ 52 % 2 ^ 11 ≠ 2047 ∧
      Holds data 0 8 bits
  | .str s, typeCode, data => typeCode = STRING ∧ Counted data (Encoding.utf8Bytes s)
  | .other fieldType body, typeCode, data => typeCode = OPAQUE ∧ OtherForm fieldType body ∧
      fieldType < 256 ∧ data.head? = some (UInt8.ofNat fieldType) ∧ Counted data.tail body
  | .arr items, typeCode, data => ∃ large size,
      typeCode = (if large then LARGE_ARRAY else SMALL_ARRAY) ∧
      SizeForm data large items.length (arrayHeader large items.length) size ∧
      EncodesItems (data.take size) large (arrayHeader large items.length) items 0
  | .obj members, typeCode, data => ∃ large size,
      typeCode = (if large then LARGE_OBJECT else SMALL_OBJECT) ∧
      SizeForm data large members.length (objectHeader large members.length) size ∧
      (members.map Prod.fst).Pairwise KeyBefore ∧
      EncodesMembers (data.take size) large (objectHeader large members.length) members.length
        members 0

/-- The items from one on. -/
def EncodesItems (body : List UInt8) (large : Bool) (header : ℕ) : List Value → ℕ → Prop
  | [], _ => True
  | x :: rest, i =>
    EntryForm body large header (width large * 2 + i * (width large + 1)) (Value.Encodes x) ∧
      EncodesItems body large header rest (i + 1)

/-- The members from one on. -/
def EncodesMembers (body : List UInt8) (large : Bool) (header count : ℕ) :
    List (String × Value) → ℕ → Prop
  | [], _ => True
  | (key, x) :: rest, i =>
    KeyForm body large header (width large * 2 + i * (width large + 2)) key ∧
    EntryForm body large header
      (width large * 2 + count * (width large + 2) + i * (width large + 1)) (Value.Encodes x) ∧
      EncodesMembers body large header count rest (i + 1)

end

/-- A document is a type code and its value. -/
def Value.EncodedAs (v : Value) (doc : List UInt8) : Prop :=
  ∃ typeCode data, doc = typeCode :: data ∧ v.Encodes typeCode.toNat data

mutual

/-- How deep a value is nested. -/
def Value.depth : Value → ℕ
  | .arr items => depthItems items + 1
  | .obj members => depthMembers members + 1
  | .null | .bool _ | .int _ | .double _ | .str _ | .other _ _ => 1

def depthItems : List Value → ℕ
  | [] => 0
  | x :: rest => max (Value.depth x) (depthItems rest)

def depthMembers : List (String × Value) → ℕ
  | [] => 0
  | (_, x) :: rest => max (Value.depth x) (depthMembers rest)

end

section

variable (serde : SerdeJson)

mutual

/-- The value as JSON. -/
def Value.json : Value → Json
  | .null => .null
  | .bool b => .bool b
  | .int n => .int n
  | .double bits => ((fromF64 serde (Double.ofBits bits)).getD .null)
  | .str s => .str s
  | .other fieldType body =>
    match opaqueFrom serde fieldType body with
    | .value v => v
    | _ => .null
  | .arr items => .arr (jsonItems items)
  | .obj members => .obj (Json.extendFields [] (jsonMembers members))

def jsonItems : List Value → List Json
  | [] => []
  | x :: rest => Value.json x :: jsonItems rest

def jsonMembers : List (String × Value) → List (String × Json)
  | [] => []
  | (key, x) :: rest => (key, Value.json x) :: jsonMembers rest

end

end

/-! ## What stands there is read -/

theorem prefix_head {bytes data : List UInt8} {n : ℕ} (h : bytes <+: data)
    (hlength : bytes.length = n) : head n data = some bytes := by
  obtain ⟨rest, rfl⟩ := h
  rw [head, if_pos (by simp [hlength]), List.take_left' hlength]

variable {data data' : List UInt8}

theorem Holds.mono {start bytes n : ℕ} (h : Holds data start bytes n) (hpre : data <+: data') :
    Holds data' start bytes n :=
  ⟨h.1.trans (hpre.drop start), h.2⟩

variable {data : List UInt8}

theorem Holds.head {bytes n : ℕ} (h : Holds data 0 bytes n) :
    ∃ raw, head bytes data = some raw ∧ littleEndian raw = n := by
  refine ⟨_, prefix_head h.1 (length_toLittleEndian _ _), ?_⟩
  rw [littleEndian_toLittleEndian, Nat.mod_eq_of_lt h.2]

theorem Holds.le_length {start bytes n : ℕ} (h : Holds data start bytes n) (hpos : 0 < bytes) :
    start + bytes ≤ data.length := by
  have := h.1.length_le
  rw [length_toLittleEndian, List.length_drop] at this
  omega

theorem width_pos (large : Bool) : 0 < width large := by
  cases large <;> decide

variable {large : Bool}

theorem Holds.field {start n : ℕ} (h : Holds data start (width large) n) :
    field data start large = some n := by
  have hle := h.le_length (width_pos large)
  obtain ⟨raw, hraw, hvalue⟩ := (show Holds (data.drop start) 0 (width large) n from h).head
  rw [BinaryJson.field, behind, if_pos (by omega), Option.bind_some, hraw, Option.map_some, hvalue]

/-- Bits behind a number that has fewer are added to it. -/
theorem or_shiftLeft_eq_add {len k : ℕ} (n : ℕ) (h : len < 2 ^ k) : len ||| n <<< k = len + n * 2 ^ k := by
  rw [Nat.or_comm, ← Nat.shiftLeft_add_eq_or_of_lt h, Nat.shiftLeft_eq, Nat.add_comm]

set_option maxRecDepth 2000 in
/-- A byte's high bit, and the other seven. -/
theorem group_bits (b : UInt8) : (b &&& 0x80 = 0 ↔ b.toNat < 128) ∧
    (b &&& 0x7F).toNat = b.toNat % 128 := by
  have hall : ∀ n < 256, (UInt8.ofNat n &&& 0x80 = 0 ↔ n < 128) ∧
      (UInt8.ofNat n &&& 0x7F).toNat = n % 128 := by
    decide
  have hb := hall b.toNat b.toNat_lt
  rwa [UInt8.ofNat_toNat] at hb

theorem varLenFrom_append {code : List UInt8} {n len i left : ℕ} (h : IsVarLen code n)
    (hlen : len < 2 ^ (7 * i)) (hleft : code.length ≤ left) (rest : List UInt8) :
    varLenFrom len i left (code ++ rest) = some (len + n * 2 ^ (7 * i), rest) := by
  induction code generalizing n len i left with
  | nil => exact absurd h id
  | cons b more ih =>
    obtain ⟨hlast, hbits⟩ := group_bits b
    obtain _ | left := left
    · cases hleft
    rw [List.cons_append, varLenFrom, hbits, or_shiftLeft_eq_add _ hlen]
    cases more with
    | nil =>
      obtain ⟨hb, rfl⟩ := h
      simp only [hlast.mpr hb, if_true, Nat.mod_eq_of_lt hb, List.nil_append]
    | cons b' more =>
      obtain ⟨hb, m, hm, rfl⟩ := h
      have hlt : b.toNat < 256 := b.toNat_lt
      have hhigh : ¬b &&& 0x80 = 0 := fun h => absurd (hlast.mp h) (by omega)
      have hmod : b.toNat % 128 = b.toNat - 128 := by omega
      have hpow : 2 ^ (7 * (i + 1)) = 128 * 2 ^ (7 * i) := by
        rw [Nat.mul_succ, pow_add]
        omega
      have hnext : len + b.toNat % 128 * 2 ^ (7 * i) < 2 ^ (7 * (i + 1)) := by
        have := Nat.mul_le_mul_right (2 ^ (7 * i)) (show b.toNat % 128 ≤ 127 by omega)
        omega
      simp only [hhigh, if_false]
      rw [ih hm hnext (Nat.le_of_succ_le_succ hleft), hpow, hmod]
      congr 2
      ring

/-- A counted value is found behind its length. -/
theorem Counted.varLen {data body : List UInt8} (h : Counted data body) :
    ∃ rest, varLen data = some (body.length, rest) ∧ body <+: rest := by
  obtain ⟨code, hcode, hlength, rest, rfl⟩ := h
  refine ⟨body ++ rest, ?_, List.prefix_append _ _⟩
  have := varLenFrom_append hcode (show 0 < 2 ^ (7 * 0) from Nat.one_pos) hlength (body ++ rest)
  rw [List.append_assoc, BinaryJson.varLen, this]
  simp

theorem Counted.mono {data data' body : List UInt8} (h : Counted data body)
    (hpre : data <+: data') : Counted data' body := by
  obtain ⟨code, hcode, hlength, hbytes⟩ := h
  exact ⟨code, hcode, hlength, hbytes.trans hpre⟩

/-- An integer is read in the type it has. -/
theorem IntForm.read (serde : SerdeJson) {typeCode : ℕ} {n : ℤ} (h : IntForm typeCode data n) :
    scalar serde typeCode data = .value (.int n) := by
  obtain ⟨bytes, sign, hmem, hrange, hholds⟩ := h
  obtain ⟨raw, hraw, hvalue⟩ := hholds.head
  have hcast : (((n % 256 ^ bytes).toNat : ℕ) : ℤ) = n % ((256 ^ bytes : ℕ) : ℤ) := by
    have := Int.emod_nonneg n (b := 256 ^ bytes) (by positivity)
    push_cast
    omega
  have hsigned : sign = true → signed bytes data = some (.int n) := by
    rintro rfl
    obtain ⟨hlow, hhigh⟩ := hrange
    rw [signed, hraw, Option.map_some, hvalue, hcast, Int.emod_bmod, Int.bmod_eq_of_le_mul_two]
    · push_cast
      omega
    · push_cast
      omega
  have hunsigned : sign = false → unsigned bytes data = some (.int n) := by
    rintro rfl
    obtain ⟨hlow, hhigh⟩ := hrange
    rw [unsigned, hraw, Option.map_some, hvalue, hcast]
    push_cast
    rw [Int.emod_eq_of_lt hlow hhigh]
  simp only [List.mem_cons, Prod.mk.injEq, List.not_mem_nil, or_false] at hmem
  obtain ⟨rfl, rfl, rfl⟩ | ⟨rfl, rfl, rfl⟩ | ⟨rfl, rfl, rfl⟩ | ⟨rfl, rfl, rfl⟩ | ⟨rfl, rfl, rfl⟩ |
    ⟨rfl, rfl, rfl⟩ := hmem
  · exact congrArg ofOption (hsigned rfl)
  · exact congrArg ofOption (hunsigned rfl)
  · exact congrArg ofOption (hsigned rfl)
  · exact congrArg ofOption (hunsigned rfl)
  · exact congrArg ofOption (hsigned rfl)
  · exact congrArg ofOption (hunsigned rfl)

/-- A decimal is read as a number, through its text. -/
theorem decimalFrom_stored (serde : SerdeJson) (d : StoredDecimal) :
    decimalFrom serde (UInt8.ofNat d.precision :: UInt8.ofNat d.scale :: d.image) =
      .value (((Double.read d.text).bind (fromF64 serde)).getD (.str (String.ofList d.text))) := by
  have hprecision : (UInt8.ofNat d.precision).toNat = d.precision := by
    have := d.precision_le
    rw [UInt8.toNat_ofNat', Nat.mod_eq_of_lt (by omega)]
  have hscale : (UInt8.ofNat d.scale).toNat = d.scale := by
    have := d.scale_le_thirty
    rw [UInt8.toNat_ofNat', Nat.mod_eq_of_lt (by omega)]
  have hsize : decimalSize d.precision d.scale = d.image.length := by
    have hfirst : d.intg - d.intg / 9 * 9 = d.intg % 9 := by omega
    have hlast : d.scale - d.scale / 9 * 9 = d.scale % 9 := by omega
    rw [d.image_marked.1, d.length_plain, ← hfirst, ← hlast]
    rfl
  have hne : decimalSize d.precision d.scale ≠ 0 := by
    rw [hsize, d.image_marked.1]
    exact fun h => d.plain_top.1 (List.eq_nil_of_length_eq_zero h)
  have hread := d.decodeDecimal_image []
  rw [List.append_nil] at hread
  have hdecode : decodePackedDecimal d.image d.precision d.scale =
      .value (String.ofList d.text) := by
    rw [decodePackedDecimal, if_neg hne, hread]
  rw [decimalFrom, hprecision, hscale, hdecode, Walked.map, String.toList_ofList]

/-- A value of another type is read as something. -/
theorem OtherForm.read (serde : SerdeJson) {fieldType : ℕ} {body : List UInt8}
    (h : OtherForm fieldType body) : ∃ v, opaqueFrom serde fieldType body = .value v := by
  by_cases hdecimal : fieldType = 246
  · subst hdecimal
    rw [OtherForm, if_pos rfl] at h
    obtain ⟨d, rfl⟩ := h
    exact ⟨_, decimalFrom_stored serde d⟩
  · unfold opaqueFrom
    split
    · exact absurd rfl hdecimal
    all_goals exact ⟨_, rfl⟩

/-- An entry is read if its value is, wherever it lies. -/
theorem EntryForm.read {serde : SerdeJson} {fuel : ℕ} {header start size : ℕ}
    {form : ℕ → List UInt8 → Prop} {v : Json}
    (h : EntryForm (data.take size) large header start form)
    (hread : ∀ typeCode d d', form typeCode d → d <+: d' →
      decodeValue serde (fuel + 1) typeCode d' = .value v) :
    entryValue (decodeValue serde (fuel + 1)) (entryAt data start large) = .value v := by
  obtain ⟨typeCode, hcode, hform⟩ := h
  have hpre : data.take size <+: data := List.take_prefix _ _
  have hstart : start < (data.take size).length := (List.getElem?_eq_some_iff.mp hcode).1
  have hlength := hpre.length_le
  have hcode' : data[start]? = some typeCode := by
    rw [List.getElem?_eq_some_iff] at hcode ⊢
    obtain ⟨hlt, rfl⟩ := hcode
    exact ⟨by omega, (List.getElem_take (h := hlt)).symm⟩
  have hbehind : behind data (start + 1) = some (data.drop (start + 1)) := if_pos (by omega)
  have hinline : ∀ {part : Option Json}, ofOption part = .value v →
      entryValue (decodeValue serde (fuel + 1)) (part.map .inline) = .value v := by
    intro part hpart
    cases part with
    | none => cases hpart
    | some w => exact hpart
  unfold entryAt
  rw [hcode', hbehind]
  dsimp only
  by_cases hinlined : Inlined large typeCode.toNat
  · rw [if_pos hinlined] at hform
    have hvalue := hread _ _ (data.drop (start + 1)) hform
      ((List.take_prefix _ _).trans (hpre.drop _))
    generalize typeCode.toNat = code at hinlined hvalue
    simp only [Inlined, List.mem_cons, List.not_mem_nil, or_false] at hinlined
    obtain (rfl | rfl | rfl) | ⟨rfl, rfl | rfl⟩ := hinlined <;> exact hinline hvalue
  · rw [if_neg hinlined] at hform
    obtain ⟨offset, hoffset, -, hle, hform⟩ := hform
    have hfield := (hoffset.mono hpre).field
    have hvalue := hread _ _ (data.drop offset) hform (hpre.drop _)
    generalize typeCode.toNat = code at hinlined hvalue
    have hrefers : ((field data (start + 1) large).bind fun offset =>
        (behind data offset).map (Entry.refers code)) = some (.refers code (data.drop offset)) := by
      rw [hfield, Option.bind_some, behind, if_pos (by omega)]
      rfl
    split
    · exact absurd (.inl (by decide)) hinlined
    · exact absurd (.inl (by decide)) hinlined
    · exact absurd (.inl (by decide)) hinlined
    · exact absurd (.inr (by decide)) hinlined
    · exact absurd (.inr (by decide)) hinlined
    · rw [hrefers]
      exact hvalue

/-- A key is read. -/
theorem KeyForm.read {header size i : ℕ} {key : String}
    (h : KeyForm (data.take size) large header (width large * 2 + i * (width large + 2)) key) :
    keyAt data large i = some key := by
  obtain ⟨offset, hoffset, hlength, -, hle, hkey⟩ := h
  have hpre : data.take size <+: data := List.take_prefix _ _
  have hdata := hpre.length_le
  have hlength' : field data (width large * 2 + i * (width large + 2) + width large) false =
      some (utf8Bytes key).length := (hlength.mono hpre).field
  have hhead : head (utf8Bytes key).length (data.drop offset) =
      some (utf8Bytes key) := prefix_head (hkey.trans (hpre.drop _)) rfl
  rw [keyAt, (hoffset.mono hpre).field, Option.bind_some, hlength', Option.bind_some, behind,
    if_pos (by omega), Option.bind_some, hhead, Option.map_some, utf8Lossy_utf8Bytes]

theorem Value.depth_pos (v : Value) : 0 < v.depth := by
  cases v <;> simp [Value.depth]

/-- A literal is read. -/
theorem literal_read {code : UInt8} {v : Json} (h : data.head? = some code) (hpre : data <+: data')
    (hv : literal code = some v) : data'.head?.bind literal = some v := by
  obtain ⟨rest, rfl⟩ := hpre
  rw [List.head?_append, h]
  exact hv

theorem prefix_take {size : ℕ} (h : data <+: data') (hle : size ≤ data.length) :
    data.take size = data'.take size := by
  obtain ⟨rest, rfl⟩ := h
  exact (List.take_append_of_le_length hle).symm

theorem decodeValue_scalar (serde : SerdeJson) {fuel typeCode : ℕ} (h : 4 ≤ typeCode) :
    decodeValue serde (fuel + 1) typeCode data = scalar serde typeCode data := by
  unfold decodeValue
  split
  · omega
  · omega
  · omega
  · omega
  · rfl

mutual

/-- **What is encoded is read back**, in as many steps as it is deep. -/
theorem Value.Encodes.read (serde : SerdeJson) (v : Value) {typeCode : ℕ} {data data' : List UInt8}
    {fuel : ℕ} (h : v.Encodes typeCode data) (hpre : data <+: data') (hfuel : v.depth ≤ fuel) :
    decodeValue serde fuel typeCode data' = .value (v.json serde) := by
  obtain _ | fuel := fuel
  · exact absurd v.depth_pos (Nat.not_lt.mpr hfuel)
  match v with
  | .null =>
    obtain ⟨rfl, hcode⟩ := h
    exact congrArg ofOption (literal_read hcode hpre rfl)
  | .bool b =>
    obtain ⟨rfl, hcode⟩ := h
    refine congrArg ofOption (literal_read hcode hpre ?_)
    cases b <;> rfl
  | .int n =>
    obtain ⟨bytes, sign, hmem, hrange, hholds⟩ := h
    have hscalar : 4 ≤ typeCode := by
      simp only [List.mem_cons, Prod.mk.injEq, List.not_mem_nil, or_false] at hmem
      obtain ⟨rfl, -⟩ | ⟨rfl, -⟩ | ⟨rfl, -⟩ | ⟨rfl, -⟩ | ⟨rfl, -⟩ | ⟨rfl, -⟩ := hmem <;> decide
    rw [decodeValue_scalar serde hscalar]
    exact IntForm.read serde ⟨bytes, sign, hmem, hrange, hholds.mono hpre⟩
  | .double bits =>
    obtain ⟨rfl, hfinite, hholds⟩ := h
    obtain ⟨raw, hraw, hvalue⟩ := (hholds.mono hpre).head
    have hdouble : ∃ units, Double.ofBits bits = .finite units := by
      rw [Double.ofBits]
      dsimp only
      rw [if_neg hfinite]
      exact ⟨_, rfl⟩
    obtain ⟨units, hunits⟩ := hdouble
    have hread : (head 8 data').bind (fun raw =>
        fromF64 serde (Double.ofBits (littleEndian raw))) =
          some (.float (serde.print units)) := by
      rw [hraw, Option.bind_some, hvalue, hunits, fromF64]
    rw [Value.json, hunits]
    exact congrArg ofOption hread
  | .str s =>
    obtain ⟨rfl, hcounted⟩ := h
    obtain ⟨rest, hlen, hbody⟩ := (hcounted.mono hpre).varLen
    have hread : ((varLen data').bind fun (len, rest) =>
        (head len rest).map fun text => Json.str (utf8Lossy text)) = some (.str s) := by
      rw [hlen, Option.bind_some]
      dsimp only
      rw [prefix_head hbody rfl, Option.map_some, utf8Lossy_utf8Bytes]
    exact congrArg ofOption hread
  | .other fieldType body =>
    obtain ⟨rfl, hform, hlt, hcode, hcounted⟩ := h
    obtain ⟨v, hv⟩ := hform.read serde
    have hjson : (Value.other fieldType body).json serde = v := by
      rw [Value.json, hv]
    obtain ⟨tail, rfl⟩ : ∃ tail, data = UInt8.ofNat fieldType :: tail := by
      cases data with
      | nil => cases hcode
      | cons b tail => exact ⟨tail, by rw [Option.some.inj hcode]⟩
    obtain ⟨more, rfl⟩ := hpre
    obtain ⟨rest, hlen, hbody⟩ := (hcounted.mono (List.prefix_append _ more)).varLen
    have hcode' : (UInt8.ofNat fieldType).toNat = fieldType := by
      rw [UInt8.toNat_ofNat', Nat.mod_eq_of_lt hlt]
    have hread : ((varLen (tail ++ more)).bind fun (len, rest) => head len rest) = some body := by
      rw [List.tail_cons] at hlen
      rw [hlen, Option.bind_some]
      exact prefix_head hbody rfl
    rw [decodeValue_scalar serde (by decide), hjson]
    have hopaque : decodeOpaque serde (UInt8.ofNat fieldType :: (tail ++ more)) = .value v := by
      rw [decodeOpaque, hread, hcode']
      exact hv
    exact hopaque
  | .arr items =>
    obtain ⟨large, size, rfl, ⟨hcount, hsize, hheader, hle⟩, hitems⟩ := h
    rw [prefix_take hpre hle] at hitems
    have hdepth : depthItems items ≤ fuel := by
      rw [Value.depth] at hfuel
      omega
    have hread := EncodesItems.read serde items hitems hdepth
    rw [← List.range_eq_range'] at hread
    have harray : decodeArray (decodeValue serde fuel) data' large =
        .value ((Value.arr items).json serde) := by
      rw [decodeArray, (hcount.mono hpre).field]
      dsimp only
      rw [hread]
      rfl
    cases large <;> exact harray
  | .obj members =>
    obtain ⟨large, size, rfl, ⟨hcount, hsize, hheader, hle⟩, -, hmembers⟩ := h
    rw [prefix_take hpre hle] at hmembers
    have hdepth : depthMembers members ≤ fuel := by
      rw [Value.depth] at hfuel
      omega
    have hread := EncodesMembers.read serde members hmembers hdepth
    rw [← List.range_eq_range'] at hread
    have hobject : decodeObject (decodeValue serde fuel) data' large =
        .value ((Value.obj members).json serde) := by
      rw [decodeObject, (hcount.mono hpre).field]
      dsimp only
      rw [hread]
      rfl
    cases large <;> exact hobject

theorem EncodesItems.read (serde : SerdeJson) (items : List Value) {data : List UInt8}
    {large : Bool} {size header i fuel : ℕ} (h : EncodesItems (data.take size) large header items i)
    (hfuel : depthItems items ≤ fuel) :
    collect (itemValue (decodeValue serde fuel) data large)
      (List.range' i items.length) = .value (jsonItems serde items) := by
  match items with
  | [] => rfl
  | x :: rest =>
    obtain ⟨hentry, hrest⟩ := h
    rw [depthItems] at hfuel
    obtain _ | fuel := fuel
    · have := x.depth_pos
      omega
    have hx := hentry.read fun typeCode d d' hform hpre =>
      Value.Encodes.read serde x hform hpre (show x.depth ≤ fuel + 1 by omega)
    have hmore := EncodesItems.read serde rest hrest (show depthItems rest ≤ fuel + 1 by omega)
    rw [List.length_cons, List.range'_succ, collect]
    have hx' : itemValue (decodeValue serde (fuel + 1)) data large i = .value (x.json serde) := hx
    rw [hx', hmore]
    rfl

theorem EncodesMembers.read (serde : SerdeJson) (members : List (String × Value))
    {data : List UInt8} {large : Bool} {size header count i fuel : ℕ}
    (h : EncodesMembers (data.take size) large header count members i)
    (hfuel : depthMembers members ≤ fuel) :
    collect (memberValue (decodeValue serde fuel) data large count)
      (List.range' i members.length) = .value (jsonMembers serde members) := by
  match members with
  | [] => rfl
  | (key, x) :: rest =>
    obtain ⟨hkey, hentry, hrest⟩ := h
    rw [depthMembers] at hfuel
    obtain _ | fuel := fuel
    · have := x.depth_pos
      omega
    have hx := hentry.read fun typeCode d d' hform hpre =>
      Value.Encodes.read serde x hform hpre (show x.depth ≤ fuel + 1 by omega)
    have hmore := EncodesMembers.read serde rest hrest (show depthMembers rest ≤ fuel + 1 by omega)
    have hentry' : entryValue (decodeValue serde (fuel + 1))
      (entryAt data (memberAt large count i) large) = .value (x.json serde) := hx
    have hx' : memberValue (decodeValue serde (fuel + 1)) data large count i =
        .value (key, x.json serde) := by
      rw [memberValue, hkey.read]
      dsimp only
      rw [hentry']
      rfl
    rw [List.length_cons, List.range'_succ, collect, hx', Walked.bind, hmore]
    rfl

end

/-! ## What is read has the same members -/

/-- Keys in order are different. -/
theorem KeyBefore.ne {a b : String} (h : KeyBefore a b) : a ≠ b := by
  rintro rfl
  obtain h | ⟨-, h⟩ := h
  · exact Nat.lt_irrefl _ h
  · exact List.lt_irrefl _ h

mutual

/-- A JSON value is the one that was encoded: the same literal, number or text, the same items in
the same order, the same members and no others. -/
def Value.Is (serde : SerdeJson) : Value → Json → Prop
  | .null, w => w = .null
  | .bool b, w => w = .bool b
  | .int n, w => w = .int n
  | .double bits, w => ∃ units, Double.ofBits bits = .finite units ∧ w = .float (serde.print units)
  | .str s, w => w = .str s
  | .other fieldType body, w => opaqueFrom serde fieldType body = .value w
  | .arr items, w => ∃ ws, w = .arr ws ∧ IsItems serde items ws
  | .obj members, w => ∃ fields, w = .obj fields ∧ Json.Ordered fields ∧
      (∀ key, (Json.lookup key fields).isSome → key ∈ members.map Prod.fst) ∧
      IsMembers serde members fields

def IsItems (serde : SerdeJson) : List Value → List Json → Prop
  | [], [] => True
  | x :: rest, w :: ws => Value.Is serde x w ∧ IsItems serde rest ws
  | _, _ => False

def IsMembers (serde : SerdeJson) : List (String × Value) → List (String × Json) → Prop
  | [], _ => True
  | (key, x) :: rest, fields =>
    (∃ w, Json.lookup key fields = some w ∧ Value.Is serde x w) ∧ IsMembers serde rest fields

end

theorem map_fst_jsonMembers (serde : SerdeJson) (members : List (String × Value)) :
    (jsonMembers serde members).map Prod.fst = members.map Prod.fst := by
  induction members with
  | nil => rfl
  | cons member rest ih =>
    obtain ⟨key, x⟩ := member
    rw [jsonMembers, List.map_cons, List.map_cons, ih]

mutual

/-- The value as JSON is the value. -/
theorem Value.Encodes.is_json (serde : SerdeJson) (v : Value) {typeCode : ℕ} {data : List UInt8}
    (h : v.Encodes typeCode data) : v.Is serde (v.json serde) := by
  match v with
  | .null | .bool b | .int n | .str s => rfl
  | .double bits =>
    obtain ⟨-, hfinite, -⟩ := h
    have hdouble : ∃ units, Double.ofBits bits = .finite units := by
      rw [Double.ofBits]
      dsimp only
      rw [if_neg hfinite]
      exact ⟨_, rfl⟩
    obtain ⟨units, hunits⟩ := hdouble
    exact ⟨units, hunits, by rw [Value.json, hunits]; rfl⟩
  | .other fieldType body =>
    obtain ⟨-, hform, -⟩ := h
    obtain ⟨w, hw⟩ := hform.read serde
    have hjson : (Value.other fieldType body).json serde = w := by
      rw [Value.json, hw]
    rw [hjson]
    exact hw
  | .arr items =>
    obtain ⟨large, size, -, -, hitems⟩ := h
    exact ⟨_, rfl, EncodesItems.is_json serde items hitems⟩
  | .obj members =>
    obtain ⟨large, size, -, -, hsorted, hmembers⟩ := h
    have hnodup : ((jsonMembers serde members).map Prod.fst).Nodup := by
      rw [map_fst_jsonMembers]
      exact hsorted.imp fun h => h.ne
    refine ⟨_, rfl, Json.extendFields_ordered (show Json.Ordered [] from List.Pairwise.nil) _,
      fun key hkey => ?_,
      EncodesMembers.is_json serde members hmembers fun key x hx =>
        Json.lookup_extendFields_of_mem hnodup hx⟩
    by_contra hnot
    rw [Json.lookup_extendFields_of_notMem (map_fst_jsonMembers serde members ▸ hnot)] at hkey
    cases hkey

theorem EncodesItems.is_json (serde : SerdeJson) (items : List Value) {body : List UInt8}
    {large : Bool} {header i : ℕ} (h : EncodesItems body large header items i) :
    IsItems serde items (jsonItems serde items) := by
  match items with
  | [] => trivial
  | x :: rest =>
    obtain ⟨⟨_, -, hentry⟩, hrest⟩ := h
    refine ⟨?_, EncodesItems.is_json serde rest hrest⟩
    split at hentry
    · exact Value.Encodes.is_json serde x hentry
    · obtain ⟨_, -, -, -, hform⟩ := hentry
      exact Value.Encodes.is_json serde x hform

theorem EncodesMembers.is_json (serde : SerdeJson) (members : List (String × Value))
    {body : List UInt8} {large : Bool} {header count i : ℕ} {fields : List (String × Json)}
    (h : EncodesMembers body large header count members i)
    (hfields : ∀ key w, (key, w) ∈ jsonMembers serde members → Json.lookup key fields = some w) :
    IsMembers serde members fields := by
  match members with
  | [] => trivial
  | (key, x) :: rest =>
    obtain ⟨-, ⟨_, -, hentry⟩, hrest⟩ := h
    have hx : x.Is serde (x.json serde) := by
      split at hentry
      · exact Value.Encodes.is_json serde x hentry
      · obtain ⟨_, -, -, -, hform⟩ := hentry
        exact Value.Encodes.is_json serde x hform
    exact ⟨⟨_, hfields key _ List.mem_cons_self, hx⟩, EncodesMembers.is_json serde rest hrest
      fun key w hw => hfields key w (List.mem_cons_of_mem _ hw)⟩

end

/-- **Decoding undoes the encoding**: of every value, however it is laid out and however deep it is
nested, what is read is that value with the same members. -/
theorem decode_undoes_encoding (serde : SerdeJson) {v : Value} {doc : List UInt8}
    (h : v.EncodedAs doc) :
    ∃ w, v.Is serde w ∧ ∀ fuel, v.depth ≤ fuel → decode serde fuel doc = .value w := by
  obtain ⟨typeCode, data, rfl, hencodes⟩ := h
  exact ⟨v.json serde, hencodes.is_json serde, fun fuel hfuel =>
    Value.Encodes.read serde v hencodes List.prefix_rfl hfuel⟩

/-- A document as a server wrote it: an object with a number and an array. -/
theorem decode_undoes_encoding_captured :
    Value.EncodedAs (.obj [("a", .int 1), ("b", .arr [.bool true, .null, .str "x"])])
      [0x00, 0x02, 0x00, 0x23, 0x00, 0x12, 0x00, 0x01, 0x00, 0x13, 0x00, 0x01, 0x00, 0x05, 0x01, 0x00,
        0x02, 0x14, 0x00, 0x61, 0x62, 0x03, 0x00, 0x0f, 0x00, 0x04, 0x01, 0x00, 0x04, 0x00, 0x00,
        0x0c, 0x0d, 0x00, 0x01, 0x78] ∧
    ∃ w, (Value.obj [("a", .int 1), ("b", .arr [.bool true, .null, .str "x"])]).Is .scalars w ∧
      ∀ fuel, 3 ≤ fuel → decode .scalars fuel
        [0x00, 0x02, 0x00, 0x23, 0x00, 0x12, 0x00, 0x01, 0x00, 0x13, 0x00, 0x01, 0x00, 0x05, 0x01, 0x00,
          0x02, 0x14, 0x00, 0x61, 0x62, 0x03, 0x00, 0x0f, 0x00, 0x04, 0x01, 0x00, 0x04, 0x00, 0x00,
          0x0c, 0x0d, 0x00, 0x01, 0x78] = .value w := by
  have hdoc : Value.EncodedAs (.obj [("a", .int 1), ("b", .arr [.bool true, .null, .str "x"])])
      [0x00, 0x02, 0x00, 0x23, 0x00, 0x12, 0x00, 0x01, 0x00, 0x13, 0x00, 0x01, 0x00, 0x05, 0x01, 0x00,
        0x02, 0x14, 0x00, 0x61, 0x62, 0x03, 0x00, 0x0f, 0x00, 0x04, 0x01, 0x00, 0x04, 0x00, 0x00,
        0x0c, 0x0d, 0x00, 0x01, 0x78] := by
    refine ⟨0x00, _, rfl, false, 35, rfl, ⟨⟨by decide, by decide⟩, ⟨by decide, by decide⟩, by decide,
      by decide⟩, ?_, ?_, ?_, ?_⟩
    · exact .cons (fun b hb => by
        obtain rfl := List.mem_singleton.mp hb
        exact .inr ⟨by decide, by decide⟩) (List.pairwise_singleton _ _)
    · exact ⟨18, ⟨by decide, by decide⟩, ⟨by decide, by decide⟩, by decide, by decide, by decide⟩
    · exact ⟨0x05, by decide, 2, true, by decide, by decide, by decide, by decide⟩
    · refine ⟨⟨19, ⟨by decide, by decide⟩, ⟨by decide, by decide⟩, by decide, by decide, by decide⟩,
        ⟨0x02, by decide, 20, ⟨by decide, by decide⟩, by decide, by decide, false, 15, rfl,
          ⟨⟨by decide, by decide⟩, ⟨by decide, by decide⟩, by decide, by decide⟩, ?_, ?_, ?_, trivial⟩,
        trivial⟩
      · exact ⟨0x04, by decide, rfl, by decide⟩
      · exact ⟨0x04, by decide, rfl, by decide⟩
      · exact ⟨0x0c, by decide, 13, ⟨by decide, by decide⟩, by decide, by decide, rfl, [1],
          ⟨by decide, by decide⟩, by decide, by decide⟩
  exact ⟨hdoc, decode_undoes_encoding .scalars hdoc⟩

end BinaryJson

end MySql

end Pg2osync
