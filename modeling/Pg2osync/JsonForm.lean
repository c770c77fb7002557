import Pg2osync.JsonTotality

/-!
# What a document has to keep to

The decoder takes a document that is not a value of the format where it does not look: at the size
of a container, at whether keys and values lie behind its header and within it, at the order of the
keys, at whether a text is UTF-8, at the length of a date. This states each of these for one value,
by itself; a document whose values all keep to them is a value of the format if it is read at all.
-/

namespace Pg2osync

namespace MySql

namespace BinaryJson

open Encoding

/-! ## How far a value goes -/

/-- How many bytes a length and what it counts take. -/
def counted (data : List UInt8) : Option ℕ :=
  (varLen data).map fun (len, rest) => data.length - rest.length + len

/-- How many bytes a value takes. -/
def extent (typeCode : ℕ) (data : List UInt8) : Option ℕ :=
  match typeCode with
  | 0x00 | 0x02 => field data (width false) false
  | 0x01 | 0x03 => field data (width true) true
  | 0x04 => some 1
  | 0x05 | 0x06 => some 2
  | 0x07 | 0x08 => some 4
  | 0x09 | 0x0a | 0x0b => some 8
  | 0x0c => counted data
  | 0x0f => (counted data.tail).map (· + 1)
  | _ => none

/-- A value entry refers to what lies between the header and the end of its container. -/
def EntryWithin (data : List UInt8) (large : Bool) (header size start : ℕ) : Prop :=
  ∀ typeCode data', entryAt data start large = some (.refers typeCode data') →
    ∃ offset bytes, field data (start + 1) large = some offset ∧ header ≤ offset ∧
      extent typeCode data' = some bytes ∧ offset + bytes ≤ size

/-- A key is a text that lies there. -/
def KeyWithin (data : List UInt8) (large : Bool) (header size i : ℕ) : Prop :=
  ∃ offset key, field data (width large * 2 + i * (width large + 2)) large = some offset ∧
    header ≤ offset ∧ offset + (Encoding.utf8Bytes key).length ≤ size ∧
    field data (width large * 2 + i * (width large + 2) + width large) false =
      some (Encoding.utf8Bytes key).length ∧ Encoding.utf8Bytes key <+: data.drop offset

/-- The size of a container covers its header, and is there. -/
def SizeWithin (data : List UInt8) (large : Bool) (header size : ℕ) : Prop :=
  field data (width large) large = some size ∧ header ≤ size ∧ size ≤ data.length

def ArrayInForm (data : List UInt8) (large : Bool) : Prop :=
  ∀ count, field data 0 large = some count →
    ∃ size, SizeWithin data large (arrayHeader large count) size ∧
      ∀ i < count, EntryWithin data large (arrayHeader large count) size (itemAt large i)

def ObjectInForm (data : List UInt8) (large : Bool) : Prop :=
  ∀ count, field data 0 large = some count →
    ∃ size, SizeWithin data large (objectHeader large count) size ∧
      (∀ i < count, KeyWithin data large (objectHeader large count) size i ∧
        EntryWithin data large (objectHeader large count) size (memberAt large count i)) ∧
      ((List.range count).filterMap (keyAt data large)).Pairwise KeyBefore

/-- What has to hold of a value by itself for it to be one of the format. -/
def InForm : Node → Prop
  | (0x00, data) => ObjectInForm data false
  | (0x01, data) => ObjectInForm data true
  | (0x02, data) => ArrayInForm data false
  | (0x03, data) => ArrayInForm data true
  | (0x0c, data) => ∀ len rest, varLen data = some (len, rest) →
      ∃ s, Encoding.utf8Bytes s = rest.take len
  | (0x0f, data) => ∀ fieldType tail len rest, data = fieldType :: tail →
      varLen tail = some (len, rest) → OtherForm fieldType.toNat (rest.take len)
  | _ => True

/-! ## Lengths -/

variable {data rest : List UInt8}

theorem varLenFrom_spec {len i left n : ℕ} (h : varLenFrom len i left data = some (n, rest))
    (hlen : len < 2 ^ (7 * i)) :
    ∃ code m, data = code ++ rest ∧ IsVarLen code m ∧ code.length ≤ left ∧
      n = len + m * 2 ^ (7 * i) := by
  induction left generalizing len i data with
  | zero =>
    rw [varLenFrom] at h
    cases h
  | succ left ih =>
    obtain _ | ⟨b, data⟩ := data
    · rw [varLenFrom] at h
      · cases h
      · simp
    · obtain ⟨hlast, hbits⟩ := group_bits b
      have hlt : b.toNat < 256 := b.toNat_lt
      have hpow : 2 ^ (7 * (i + 1)) = 128 * 2 ^ (7 * i) := by
        rw [Nat.mul_succ, pow_add]
        omega
      rw [varLenFrom, hbits, or_shiftLeft_eq_add _ hlen] at h
      split at h
      · next hzero =>
        cases h
        have hb := hlast.mp hzero
        exact ⟨[b], b.toNat, rfl, ⟨hb, rfl⟩, by simp, by rw [Nat.mod_eq_of_lt hb]⟩
      · next hone =>
        have hb : 128 ≤ b.toNat := by
          by_contra hlow
          exact hone (hlast.mpr (by omega))
        have hnext : len + b.toNat % 128 * 2 ^ (7 * i) < 2 ^ (7 * (i + 1)) := by
          have := Nat.mul_le_mul_right (2 ^ (7 * i)) (show b.toNat % 128 ≤ 127 by omega)
          omega
        obtain ⟨code, m, rfl, hcode, hlength, rfl⟩ := ih h hnext
        refine ⟨b :: code, b.toNat - 128 + 128 * m, rfl, ?_, Nat.succ_le_succ hlength, ?_⟩
        · cases code with
          | nil => exact absurd hcode id
          | cons c code => exact ⟨hb, m, hcode, rfl⟩
        · have hmod : b.toNat % 128 = b.toNat - 128 := by omega
          rw [hpow, hmod]
          ring

/-- What is read as a length is one. -/
theorem varLen_spec {n : ℕ} (h : varLen data = some (n, rest)) :
    ∃ code, data = code ++ rest ∧ IsVarLen code n ∧ code.length ≤ 5 := by
  obtain ⟨code, m, hdata, hcode, hlength, rfl⟩ := varLenFrom_spec h Nat.one_pos
  exact ⟨code, hdata, by simpa using hcode, hlength⟩

/-- A length and what it counts are found with more bytes behind them. -/
theorem counted_eq {data body : List UInt8} (h : Counted data body) :
    ∃ bytes, counted data = some bytes ∧ bytes ≤ data.length := by
  obtain ⟨code, hcode, hlength, rest, rfl⟩ := h
  have := varLenFrom_append hcode (show 0 < 2 ^ (7 * 0) from Nat.one_pos) hlength (body ++ rest)
  refine ⟨code.length + body.length, ?_, by simp⟩
  rw [counted, varLen, List.append_assoc, this]
  simp

variable {data data' : List UInt8}

theorem counted_mono {bytes : ℕ} (h : counted data = some bytes) (hpre : data <+: data') :
    counted data' = some bytes := by
  obtain ⟨⟨len, rest⟩, hlen, rfl⟩ := Option.map_eq_some_iff.mp h
  obtain ⟨code, rfl, hcode, hlength⟩ := varLen_spec hlen
  obtain ⟨more, rfl⟩ := hpre
  have := varLenFrom_append hcode (show 0 < 2 ^ (7 * 0) from Nat.one_pos) hlength (rest ++ more)
  rw [counted, varLen, List.append_assoc, this]
  simp

variable {large : Bool}

theorem field_mono {start n : ℕ} (h : field data start large = some n) (hpre : data <+: data') :
    field data' start large = some n := by
  obtain ⟨rest, rfl⟩ := hpre
  obtain ⟨tail, htail, h⟩ := Option.bind_eq_some_iff.mp h
  obtain ⟨raw, hraw, rfl⟩ := Option.map_eq_some_iff.mp h
  rw [behind] at htail
  split at htail
  · next hle =>
    cases htail
    rw [head] at hraw
    split at hraw
    · next hwidth =>
      cases hraw
      rw [List.length_drop] at hwidth
      have hdrop : (data ++ rest).drop start = data.drop start ++ rest :=
        List.drop_append_of_le_length hle
      rw [field, behind, if_pos (by rw [List.length_append]; omega), Option.bind_some, hdrop, head,
        if_pos (by rw [List.length_append, List.length_drop]; omega), Option.map_some,
        List.take_append_of_le_length (by rw [List.length_drop]; omega)]
    · cases hraw
  · cases htail

variable {typeCode bytes : ℕ}

theorem extent_mono (h : extent typeCode data = some bytes) (hpre : data <+: data') :
    extent typeCode data' = some bytes := by
  unfold extent at h
  split at h
  case h_1 | h_2 | h_3 | h_4 => exact field_mono h hpre
  case h_13 => exact counted_mono h hpre
  case h_14 =>
    obtain ⟨n, hn, rfl⟩ := Option.map_eq_some_iff.mp h
    obtain ⟨rest, rfl⟩ := hpre
    cases data with
    | nil => cases hn
    | cons b tail => exact congrArg (Option.map (· + 1)) (counted_mono hn (List.prefix_append _ rest))
  case h_15 => cases h
  all_goals exact h

variable {data : List UInt8} {typeCode : ℕ}

/-- What is encoded is there. -/
theorem Value.Encodes.extent {v : Value} (h : v.Encodes typeCode data) :
    ∃ bytes, extent typeCode data = some bytes ∧ bytes ≤ data.length := by
  have hliteral : ∀ {code}, data.head? = some code → 1 ≤ data.length := by
    intro code hcode
    cases data with
    | nil => cases hcode
    | cons b rest => simp
  have hsize : ∀ {large count header size}, SizeForm data large count header size →
      field data (width large) large = some size ∧ size ≤ data.length :=
    fun h => ⟨h.2.1.field, h.2.2.2⟩
  cases v with
  | null =>
    obtain ⟨rfl, hcode⟩ := h
    exact ⟨1, rfl, hliteral hcode⟩
  | bool b =>
    obtain ⟨rfl, hcode⟩ := h
    exact ⟨1, rfl, hliteral hcode⟩
  | int n =>
    obtain ⟨bytes, sign, hmem, -, hholds⟩ := h
    simp only [List.mem_cons, Prod.mk.injEq, List.not_mem_nil, or_false] at hmem
    obtain ⟨rfl, rfl, rfl⟩ | ⟨rfl, rfl, rfl⟩ | ⟨rfl, rfl, rfl⟩ | ⟨rfl, rfl, rfl⟩ | ⟨rfl, rfl, rfl⟩ |
      ⟨rfl, rfl, rfl⟩ := hmem
    all_goals exact ⟨_, rfl, by simpa using hholds.le_length (by decide)⟩
  | double bits =>
    obtain ⟨rfl, -, hholds⟩ := h
    exact ⟨8, rfl, by simpa using hholds.le_length (by decide)⟩
  | str s =>
    obtain ⟨rfl, hcounted⟩ := h
    exact counted_eq hcounted
  | other fieldType body =>
    obtain ⟨rfl, -, -, hcode, hcounted⟩ := h
    obtain ⟨bytes, hbytes, hle⟩ := counted_eq hcounted
    have := hliteral hcode
    refine ⟨bytes + 1, congrArg (Option.map (· + 1)) hbytes, ?_⟩
    rw [List.length_tail] at hle
    omega
  | arr | obj =>
    obtain ⟨large, size, rfl, hform, -⟩ := h
    obtain ⟨hfield, hle⟩ := hsize hform
    exact ⟨size, by cases large <;> exact hfield, hle⟩

theorem SizeForm.mono {count header size : ℕ} (h : SizeForm data large count header size)
    (hpre : data <+: data') : SizeForm data' large count header size :=
  ⟨h.1.mono hpre, h.2.1.mono hpre, h.2.2.1, h.2.2.2.trans hpre.length_le⟩

/-- What is behind a value does not matter. -/
theorem Value.Encodes.mono {v : Value} (h : v.Encodes typeCode data) (hpre : data <+: data') :
    v.Encodes typeCode data' := by
  have hhead : ∀ {code}, data.head? = some code → data'.head? = some code := by
    intro code hcode
    obtain ⟨rest, rfl⟩ := hpre
    rw [List.head?_append, hcode]
    rfl
  cases v with
  | null | bool b => exact ⟨h.1, hhead h.2⟩
  | int n =>
    obtain ⟨bytes, sign, hmem, hrange, hholds⟩ := h
    exact ⟨bytes, sign, hmem, hrange, hholds.mono hpre⟩
  | double bits => exact ⟨h.1, h.2.1, h.2.2.mono hpre⟩
  | str s => exact ⟨h.1, h.2.mono hpre⟩
  | other fieldType body =>
    obtain ⟨rfl, hform, hlt, hcode, hcounted⟩ := h
    refine ⟨rfl, hform, hlt, hhead hcode, ?_⟩
    obtain ⟨rest, rfl⟩ := hpre
    cases data with
    | nil => cases hcode
    | cons b tail => exact hcounted.mono (List.prefix_append _ rest)
  | arr items =>
    obtain ⟨large, size, hcode, hform, hitems⟩ := h
    rw [prefix_take hpre hform.2.2.2] at hitems
    exact ⟨large, size, hcode, hform.mono hpre, hitems⟩
  | obj members =>
    obtain ⟨large, size, hcode, hform, hsorted, hmembers⟩ := h
    rw [prefix_take hpre hform.2.2.2] at hmembers
    exact ⟨large, size, hcode, hform.mono hpre, hsorted, hmembers⟩

/-! ## Entries -/

/-- What an entry is: a scalar that is in it, or where a value begins. -/
theorem entryAt_eq_some (serde : SerdeJson) {start : ℕ} {entry : Entry}
    (h : entryAt data start large = some entry) :
    ∃ typeCode : UInt8, data[start]? = some typeCode ∧
      ((Inlined large typeCode.toNat ∧ ∃ v, entry = .inline v ∧
          scalar serde typeCode.toNat (data.drop (start + 1)) = .value v) ∨
        ¬Inlined large typeCode.toNat ∧ ∃ offset, field data (start + 1) large = some offset ∧
          offset ≤ data.length ∧ entry = .refers typeCode.toNat (data.drop offset)) := by
  unfold entryAt at h
  split at h
  case h_2 => cases h
  next typeCode inline hcode hinline =>
  refine ⟨typeCode, hcode, ?_⟩
  have hdrop : inline = data.drop (start + 1) := by
    rw [behind] at hinline
    split at hinline
    · exact (Option.some.inj hinline).symm
    · cases hinline
  subst hdrop
  generalize typeCode.toNat = code at h ⊢
  have hpart : ∀ {part : Option Json}, part.map Entry.inline = some entry →
      ∃ v, entry = .inline v ∧ Walked.ofOption part = .value v := by
    intro part hpart
    obtain ⟨v, rfl, rfl⟩ := Option.map_eq_some_iff.mp hpart
    exact ⟨v, rfl, rfl⟩
  split at h
  case h_1 | h_2 | h_3 => exact .inl ⟨.inl (by decide), hpart h⟩
  case h_4 | h_5 => exact .inl ⟨.inr (by decide), hpart h⟩
  next h4 h5 h6 h7 h8 =>
  refine .inr ⟨?_, ?_⟩
  · intro hinlined
    simp only [Inlined, List.mem_cons, List.not_mem_nil, or_false] at hinlined
    obtain (h | h | h) | ⟨hlarge, h | h⟩ := hinlined
    · exact h4 h
    · exact h5 h
    · exact h6 h
    · exact h7 h hlarge
    · exact h8 h hlarge
  · obtain ⟨offset, hoffset, h⟩ := Option.bind_eq_some_iff.mp h
    obtain ⟨rest, hrest, rfl⟩ := Option.map_eq_some_iff.mp h
    rw [behind] at hrest
    split at hrest
    · next hle => exact ⟨offset, hoffset, hle, by rw [← Option.some.inj hrest]⟩
    · cases hrest

/-! ## What is read and in form is a value -/

variable {data raw : List UInt8}

/-- The bytes that are read hold their number. -/
theorem holds_of_head {n : ℕ} (h : head n data = some raw) :
    n ≤ data.length ∧ Holds (data.take n) 0 n (littleEndian raw) := by
  rw [head] at h
  split at h
  · next hle =>
    cases h
    have hlength : (data.take n).length = n := List.length_take_of_le hle
    have hraw := toLittleEndian_littleEndian (data.take n)
    have hlt := littleEndian_lt (data.take n)
    rw [hlength] at hraw hlt
    exact ⟨hle, hraw.symm ▸ List.prefix_rfl, hlt⟩
  · cases h

theorem holds_of_field {start n : ℕ} (h : field data start large = some n) :
    Holds data start (width large) n := by
  obtain ⟨rest, hrest, h⟩ := Option.bind_eq_some_iff.mp h
  obtain ⟨raw, hraw, rfl⟩ := Option.map_eq_some_iff.mp h
  rw [behind] at hrest
  split at hrest
  · cases hrest
    exact ((holds_of_head hraw).2.mono (List.take_prefix _ _) :
      Holds (data.drop start) 0 (width large) _)
  · cases hrest

theorem intForm_signed (hpos : 0 < bytes)
    (hmem : (typeCode, bytes, true) ∈ [(INT16, 2, true), (UINT16, 2, false), (INT32, 4, true),
      (UINT32, 4, false), (INT64, 8, true), (UINT64, 8, false)]) (h : head bytes data = some raw) :
    IntForm typeCode (data.take bytes) ((littleEndian raw : ℤ).bmod (256 ^ bytes)) := by
  have hholds := (holds_of_head h).2
  have hunit : 0 < 256 ^ bytes := Nat.pow_pos (by decide)
  have heven : 256 ^ bytes = 2 * (128 * 256 ^ (bytes - 1)) := by
    obtain ⟨k, rfl⟩ : ∃ k, bytes = k + 1 := ⟨bytes - 1, by omega⟩
    rw [Nat.add_sub_cancel, pow_succ]
    omega
  have hlow := Int.le_bmod (x := (littleEndian raw : ℤ)) hunit
  have hhigh := Int.bmod_lt (x := (littleEndian raw : ℤ)) hunit
  have hback : (((littleEndian raw : ℤ).bmod (256 ^ bytes) % 256 ^ bytes).toNat) =
      littleEndian raw := by
    have hmod := Int.bmod_emod (x := (littleEndian raw : ℤ)) (m := 256 ^ bytes)
    push_cast at hmod
    rw [hmod, Int.emod_eq_of_lt (by positivity) (by exact_mod_cast hholds.2), Int.toNat_natCast]
  refine ⟨bytes, true, hmem, ?_, hback.symm ▸ hholds⟩
  push_cast at hlow hhigh ⊢
  have : ((256 : ℤ) ^ bytes) = 2 * (128 * 256 ^ (bytes - 1)) := by exact_mod_cast heven
  constructor <;> omega

theorem intForm_unsigned
    (hmem : (typeCode, bytes, false) ∈ [(INT16, 2, true), (UINT16, 2, false), (INT32, 4, true),
      (UINT32, 4, false), (INT64, 8, true), (UINT64, 8, false)]) (h : head bytes data = some raw) :
    IntForm typeCode (data.take bytes) (littleEndian raw) := by
  have hholds := (holds_of_head h).2
  have hlt : (littleEndian raw : ℤ) < 256 ^ bytes := by exact_mod_cast hholds.2
  have hback : ((littleEndian raw : ℤ) % 256 ^ bytes).toNat = littleEndian raw := by
    rw [Int.emod_eq_of_lt (by positivity) hlt, Int.toNat_natCast]
  exact ⟨bytes, false, hmem, ⟨by positivity, hlt⟩, hback.symm ▸ hholds⟩

/-- What is found behind a length is counted by it. -/
theorem counted_of_varLen {len : ℕ} (h : varLen data = some (len, rest)) (hle : len ≤ rest.length) :
    ∃ bytes, counted data = some bytes ∧ bytes ≤ data.length ∧
      Counted (data.take bytes) (rest.take len) := by
  obtain ⟨code, rfl, hcode, hlength⟩ := varLen_spec h
  refine ⟨code.length + len, ?_, by rw [List.length_append]; omega, code, ?_, hlength, ?_⟩
  · rw [counted, h, Option.map_some]
    dsimp only
    rw [List.length_append, Nat.add_sub_cancel]
  · rwa [List.length_take_of_le hle]
  · rw [List.take_length_add_append]

/-- **A scalar that is read and in form is a value.** -/
theorem exists_scalar (serde : SerdeJson) {j : Json} (hcode : 4 ≤ typeCode)
    (h : scalar serde typeCode data = .value j) (hform : InForm (typeCode, data)) :
    ∃ (v : Value) (bytes : ℕ), extent typeCode data = some bytes ∧ bytes ≤ data.length ∧
      v.Encodes typeCode (data.take bytes) := by
  have hoption : ∀ {x : Option Json}, Walked.ofOption x = .value j → x = some j := by
    intro x hx
    cases x with
    | none => cases hx
    | some w => cases hx; rfl
  have hsigned : ∀ {bytes}, 0 < bytes → (typeCode, bytes, true) ∈ [(INT16, 2, true),
      (UINT16, 2, false), (INT32, 4, true), (UINT32, 4, false), (INT64, 8, true),
      (UINT64, 8, false)] → extent typeCode data = some bytes → signed bytes data = some j →
      ∃ (v : Value) (bytes : ℕ), extent typeCode data = some bytes ∧ bytes ≤ data.length ∧
        v.Encodes typeCode (data.take bytes) := by
    intro bytes hpos hmem hextent hread
    obtain ⟨raw, hraw, -⟩ := Option.map_eq_some_iff.mp hread
    exact ⟨.int _, bytes, hextent, (holds_of_head hraw).1, intForm_signed hpos hmem hraw⟩
  have hunsigned : ∀ {bytes}, (typeCode, bytes, false) ∈ [(INT16, 2, true),
      (UINT16, 2, false), (INT32, 4, true), (UINT32, 4, false), (INT64, 8, true),
      (UINT64, 8, false)] → extent typeCode data = some bytes → unsigned bytes data = some j →
      ∃ (v : Value) (bytes : ℕ), extent typeCode data = some bytes ∧ bytes ≤ data.length ∧
        v.Encodes typeCode (data.take bytes) := by
    intro bytes hmem hextent hread
    obtain ⟨raw, hraw, -⟩ := Option.map_eq_some_iff.mp hread
    exact ⟨.int _, bytes, hextent, (holds_of_head hraw).1, intForm_unsigned hmem hraw⟩
  unfold scalar at h
  split at h
  · obtain ⟨code, hhead, hliteral⟩ := Option.bind_eq_some_iff.mp (hoption h)
    obtain _ | ⟨b, rest⟩ := data
    · cases hhead
    · cases hhead
      have hone : 1 ≤ (code :: rest).length := by simp
      have htake : (code :: rest).take 1 = [code] := rfl
      rw [literal] at hliteral
      split at hliteral
      · next hzero =>
        subst hzero
        exact ⟨.null, 1, rfl, hone, rfl, rfl⟩
      · split at hliteral
        · next htrue =>
          subst htrue
          exact ⟨.bool true, 1, rfl, hone, rfl, rfl⟩
        · split at hliteral
          · next hfalse =>
            subst hfalse
            exact ⟨.bool false, 1, rfl, hone, rfl, rfl⟩
          · cases hliteral
  · exact hsigned (by decide) (by decide) rfl (hoption h)
  · exact hunsigned (by decide) rfl (hoption h)
  · exact hsigned (by decide) (by decide) rfl (hoption h)
  · exact hunsigned (by decide) rfl (hoption h)
  · exact hsigned (by decide) (by decide) rfl (hoption h)
  · exact hunsigned (by decide) rfl (hoption h)
  · obtain ⟨raw, hraw, hdouble⟩ := Option.bind_eq_some_iff.mp (hoption h)
    refine ⟨.double (littleEndian raw), 8, rfl, (holds_of_head hraw).1, rfl, fun hinf => ?_,
      (holds_of_head hraw).2⟩
    rw [Double.ofBits] at hdouble
    dsimp only at hdouble
    rw [if_pos hinf] at hdouble
    split at hdouble <;> cases hdouble
  · obtain ⟨⟨len, rest⟩, hlen, hrest⟩ := Option.bind_eq_some_iff.mp (hoption h)
    obtain ⟨raw, hraw, -⟩ := Option.map_eq_some_iff.mp hrest
    obtain ⟨s, hs⟩ := hform len rest hlen
    have hle := (holds_of_head hraw).1
    obtain ⟨bytes, hbytes, hlength, hcounted⟩ := counted_of_varLen hlen hle
    rw [← hs] at hcounted
    exact ⟨.str s, bytes, hbytes, hlength, rfl, hcounted⟩
  · obtain _ | ⟨fieldType, tail⟩ := data
    · cases h
    · rw [decodeOpaque] at h
      cases hbody : (varLen tail).bind fun (len, rest) => head len rest with
      | none =>
        rw [hbody] at h
        cases h
      | some body =>
        obtain ⟨⟨len, rest⟩, hlen, hhead⟩ := Option.bind_eq_some_iff.mp hbody
        have hother := hform fieldType tail len rest rfl hlen
        have hle := (holds_of_head hhead).1
        obtain ⟨bytes, hbytes, hlength, hcounted⟩ := counted_of_varLen hlen hle
        refine ⟨.other fieldType.toNat (rest.take len), bytes + 1,
          congrArg (Option.map (· + 1)) hbytes, Nat.succ_le_succ hlength, rfl, hother,
          fieldType.toNat_lt, ?_, ?_⟩
        · rw [List.take_succ_cons, List.head?_cons, UInt8.ofNat_toNat]
        · rw [List.take_succ_cons, List.tail_cons]
          exact hcounted
  · cases h

/-! ### Containers -/

/-- A number that stands in a part of the bytes stands there. -/
theorem Holds.take {start bytes n size : ℕ} (h : Holds data start bytes n)
    (hle : start + bytes ≤ size) : Holds (data.take size) start bytes n := by
  refine ⟨?_, h.2⟩
  have hpre := h.1.take bytes
  rw [List.take_of_length_le (length_toLittleEndian _ _).le] at hpre
  rw [List.drop_take]
  exact hpre.trans (List.take_prefix_take_left (by omega))

theorem width_le_extent (h : Inlined large typeCode) (hextent : extent typeCode data = some bytes) :
    bytes ≤ width large := by
  simp only [Inlined, List.mem_cons, List.not_mem_nil, or_false] at h
  obtain hsmall | ⟨rfl, rfl | rfl⟩ := h
  · obtain rfl | rfl | rfl := hsmall <;> cases hextent <;> cases large <;> decide
  · cases hextent
    decide
  · cases hextent
    decide

/-- What is small enough to be in an entry is in form. -/
theorem inForm_of_inlined (h : Inlined large typeCode) (data : List UInt8) :
    4 ≤ typeCode ∧ InForm (typeCode, data) := by
  simp only [Inlined, List.mem_cons, List.not_mem_nil, or_false] at h
  obtain (rfl | rfl | rfl) | ⟨rfl, rfl | rfl⟩ := h <;> exact ⟨by decide, trivial⟩

/-- **An entry that is read and in form is one.** -/
theorem exists_entryForm (serde : SerdeJson) {header size start : ℕ} {entry : Entry}
    (h : entryAt data start large = some entry) (hsize : size ≤ data.length)
    (hstart : start + 1 + width large ≤ size) (hwithin : EntryWithin data large header size start)
    (hrefers : ∀ typeCode data', entry = .refers typeCode data' → ∃ (v : Value) (bytes : ℕ),
      extent typeCode data' = some bytes ∧ bytes ≤ data'.length ∧
        v.Encodes typeCode (data'.take bytes)) :
    ∃ v : Value, EntryForm (data.take size) large header start v.Encodes := by
  obtain ⟨typeCode, hcode, hentry⟩ := entryAt_eq_some serde h
  have hcode' : (data.take size)[start]? = some typeCode := by
    rw [List.getElem?_take_of_lt (by omega), hcode]
  obtain ⟨hinlined, j, -, hscalar⟩ | ⟨hinlined, offset, hoffset, -, rfl⟩ := hentry
  · obtain ⟨hfour, hform⟩ := inForm_of_inlined hinlined (data.drop (start + 1))
    obtain ⟨v, bytes, hextent, -, hencodes⟩ := exists_scalar serde hfour hscalar hform
    have hbytes := width_le_extent hinlined hextent
    refine ⟨v, typeCode, hcode', ?_⟩
    rw [if_pos hinlined, List.drop_take, List.take_take]
    exact hencodes.mono (List.take_prefix_take_left (by omega))
  · obtain ⟨offset', bytes, hoffset', hheader, hextent, hend⟩ := hwithin _ _ h
    obtain rfl := Option.some.inj (hoffset.symm.trans hoffset')
    obtain ⟨v, bytes', hextent', -, hencodes⟩ := hrefers _ _ rfl
    obtain rfl := Option.some.inj (hextent.symm.trans hextent')
    refine ⟨v, typeCode, hcode', ?_⟩
    rw [if_neg hinlined]
    refine ⟨offset, (holds_of_field hoffset).take hstart, hheader, ?_, ?_⟩
    · rw [List.length_take_of_le hsize]
      omega
    · rw [List.drop_take]
      exact hencodes.mono (List.take_prefix_take_left (by omega))

/-- A key that is in form is one, and is what is read. -/
theorem KeyWithin.keyForm {header size i : ℕ} (h : KeyWithin data large header size i)
    (hsize : size ≤ data.length)
    (hstart : width large * 2 + i * (width large + 2) + width large + 2 ≤ size) :
    ∃ key, keyAt data large i = some key ∧ KeyForm (data.take size) large header
      (width large * 2 + i * (width large + 2)) key := by
  obtain ⟨offset, key, hoffset, hheader, hend, hlength, hkey⟩ := h
  have hform : KeyForm (data.take size) large header
      (width large * 2 + i * (width large + 2)) key := by
    have hpre := hkey.take (utf8Bytes key).length
    rw [List.take_length] at hpre
    refine ⟨offset, (holds_of_field hoffset).take (by omega),
      (holds_of_field hlength).take hstart, hheader, ?_, ?_⟩
    · rw [List.length_take_of_le hsize]
      omega
    · rw [List.drop_take]
      exact hpre.trans (List.take_prefix_take_left (by omega))
  exact ⟨key, hform.read, hform⟩

/-- Items that each are one are items. -/
theorem exists_items {body : List UInt8} {header i count : ℕ}
    (h : ∀ k < count, ∃ v : Value, EntryForm body large header (itemAt large (i + k)) v.Encodes) :
    ∃ items : List Value, items.length = count ∧ EncodesItems body large header items i := by
  induction count generalizing i with
  | zero => exact ⟨[], rfl, trivial⟩
  | succ count ih =>
    obtain ⟨v, hv⟩ := h 0 (Nat.succ_pos _)
    obtain ⟨items, hlength, hitems⟩ := ih (i := i + 1) fun k hk => by
      rw [Nat.add_assoc, Nat.add_comm 1 k]
      exact h (k + 1) (Nat.succ_lt_succ hk)
    exact ⟨v :: items, congrArg (· + 1) hlength, hv, hitems⟩

/-- And so are members, with the keys that are read. -/
theorem exists_members {data body : List UInt8} {header count i left : ℕ}
    (hkey : ∀ k < left, ∃ key, keyAt data large (i + k) = some key ∧
      KeyForm body large header (width large * 2 + (i + k) * (width large + 2)) key)
    (hentry : ∀ k < left, ∃ v : Value,
      EntryForm body large header (memberAt large count (i + k)) v.Encodes) :
    ∃ members : List (String × Value), members.length = left ∧
      members.map Prod.fst = (List.range' i left).filterMap (keyAt data large) ∧
      EncodesMembers body large header count members i := by
  induction left generalizing i with
  | zero => exact ⟨[], rfl, rfl, trivial⟩
  | succ left ih =>
    have hshift : ∀ k, i + 1 + k = i + (k + 1) := fun k => by omega
    obtain ⟨key, hread, hform⟩ := hkey 0 (Nat.succ_pos _)
    obtain ⟨v, hv⟩ := hentry 0 (Nat.succ_pos _)
    obtain ⟨members, hlength, hkeys, hmembers⟩ := ih (i := i + 1)
      (fun k hk => by
        rw [hshift]
        exact hkey (k + 1) (Nat.succ_lt_succ hk))
      (fun k hk => by
        rw [hshift]
        exact hentry (k + 1) (Nat.succ_lt_succ hk))
    refine ⟨(key, v) :: members, congrArg (· + 1) hlength, ?_, hform, hv, hmembers⟩
    rw [List.range'_succ, List.filterMap_cons_some (Nat.add_zero i ▸ hread), List.map_cons, hkeys]

end BinaryJson

end MySql

end Pg2osync
