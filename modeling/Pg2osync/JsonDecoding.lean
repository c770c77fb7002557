import Pg2osync.JsonForm

/-!
# When decoding a document is total

Whatever bytes there are, decoding them should come to an end, and to a value only if they are one
of the format. It does exactly if no container that it comes to lies inside itself, no decimal has
no digits, and, where nothing that it reads is refused, everything is in form.
-/

namespace Pg2osync

namespace MySql

namespace BinaryJson

/-! ## What is read and in form is encoded -/

variable {data : List UInt8} {large : Bool}

/-- A container whose items are encoded is an array. -/
theorem exists_array (serde : SerdeJson) {count size : ℕ} (hcount : field data 0 large = some count)
    (hsize : SizeWithin data large (arrayHeader large count) size)
    (hwithin : ∀ i < count, EntryWithin data large (arrayHeader large count) size (itemAt large i))
    (hread : ∀ i < count, ∃ entry, entryAt data (itemAt large i) large = some entry ∧
      ∀ typeCode data', entry = .refers typeCode data' → ∃ (v : Value) (bytes : ℕ),
        extent typeCode data' = some bytes ∧ bytes ≤ data'.length ∧
          v.Encodes typeCode (data'.take bytes)) :
    ∃ v : Value, v.Encodes (if large then LARGE_ARRAY else SMALL_ARRAY) (data.take size) := by
  obtain ⟨hfield, hheader, hle⟩ := hsize
  have hwidth : width large * 2 ≤ arrayHeader large count := by
    rw [arrayHeader]
    omega
  have hentries : ∀ k < count, ∃ v : Value, EntryForm (data.take size) large
      (arrayHeader large count) (itemAt large (0 + k)) v.Encodes := by
    intro i hi
    rw [Nat.zero_add]
    obtain ⟨entry, hentry, hrefers⟩ := hread i hi
    refine exists_entryForm serde hentry hle ?_ (hwithin i hi) hrefers
    have hbefore := Nat.mul_le_mul_right (width large + 1) (Nat.succ_le_of_lt hi)
    rw [Nat.succ_mul] at hbefore
    rw [arrayHeader] at hheader
    rw [itemAt]
    omega
  obtain ⟨items, rfl, hitems⟩ := exists_items hentries
  refine ⟨.arr items, large, size, rfl, ⟨(holds_of_field hcount).take (by omega),
    (holds_of_field hfield).take (by omega), hheader, (List.length_take_of_le hle).ge⟩, ?_⟩
  rwa [List.take_take, min_self]

/-- A container whose keys are in form and whose values are encoded is an object. -/
theorem exists_object (serde : SerdeJson) {count size : ℕ}
    (hcount : field data 0 large = some count)
    (hsize : SizeWithin data large (objectHeader large count) size)
    (hwithin : ∀ i < count, KeyWithin data large (objectHeader large count) size i ∧
      EntryWithin data large (objectHeader large count) size (memberAt large count i))
    (hsorted : ((List.range count).filterMap (keyAt data large)).Pairwise KeyBefore)
    (hread : ∀ i < count, ∃ entry, entryAt data (memberAt large count i) large = some entry ∧
      ∀ typeCode data', entry = .refers typeCode data' → ∃ (v : Value) (bytes : ℕ),
        extent typeCode data' = some bytes ∧ bytes ≤ data'.length ∧
          v.Encodes typeCode (data'.take bytes)) :
    ∃ v : Value, v.Encodes (if large then LARGE_OBJECT else SMALL_OBJECT) (data.take size) := by
  obtain ⟨hfield, hheader, hle⟩ := hsize
  have hwidth : width large * 2 ≤ objectHeader large count := by
    rw [objectHeader]
    omega
  have hkeys : ∀ k < count, ∃ key, keyAt data large (0 + k) = some key ∧
      KeyForm (data.take size) large (objectHeader large count)
        (width large * 2 + (0 + k) * (width large + 2)) key := by
    intro i hi
    rw [Nat.zero_add]
    refine (hwithin i hi).1.keyForm hle ?_
    have hbefore := Nat.mul_le_mul_right (width large + 2) (Nat.succ_le_of_lt hi)
    rw [Nat.succ_mul] at hbefore
    rw [objectHeader] at hheader
    omega
  have hentries : ∀ k < count, ∃ v : Value, EntryForm (data.take size) large
      (objectHeader large count) (memberAt large count (0 + k)) v.Encodes := by
    intro i hi
    rw [Nat.zero_add]
    obtain ⟨entry, hentry, hrefers⟩ := hread i hi
    refine exists_entryForm serde hentry hle ?_ (hwithin i hi).2 hrefers
    have hbefore := Nat.mul_le_mul_right (width large + 1) (Nat.succ_le_of_lt hi)
    rw [Nat.succ_mul] at hbefore
    rw [objectHeader] at hheader
    rw [memberAt]
    omega
  obtain ⟨members, rfl, hfst, hmembers⟩ := exists_members hkeys hentries
  rw [← List.range_eq_range'] at hfst
  refine ⟨.obj members, large, size, rfl, ⟨(holds_of_field hcount).take (by omega),
    (holds_of_field hfield).take (by omega), hheader, (List.length_take_of_le hle).ge⟩,
    hfst.symm ▸ hsorted, ?_⟩
  rwa [List.take_take, min_self]

/-- A part that is not refused is an entry. -/
theorem exists_entry_of_ne_refused {entry : Option Entry} (h : partOf entry ≠ .refused) :
    ∃ e, entry = some e := by
  cases entry with
  | none => exact absurd rfl h
  | some e => exact ⟨e, rfl⟩

/-- **What is read, and everywhere in form, is encoded** in as many bytes as it takes. -/
theorem exists_encodes (serde : SerdeJson) {n : Node} (h : Walk.Readable (next serde) n)
    (hform : ∀ m, Visits serde n m → InForm m) : ∃ (v : Value) (bytes : ℕ),
      extent n.1 n.2 = some bytes ∧ bytes ≤ n.2.length ∧ v.Encodes n.1 (n.2.take bytes) := by
  induction h with
  | @leaf n hnext =>
    obtain ⟨typeCode, data⟩ := n
    by_cases hscalar : 4 ≤ typeCode
    · rw [next_scalar serde hscalar] at hnext
      cases hvalue : scalar serde typeCode data with
      | running | panics | nothing =>
        rw [hvalue] at hnext
        cases hnext
      | value j => exact exists_scalar serde hscalar hvalue (hform _ .refl)
    · obtain rfl | rfl | rfl | rfl : typeCode = 0 ∨ typeCode = 1 ∨ typeCode = 2 ∨ typeCode = 3 := by
        omega
      all_goals cases hnext
  | @node n parts hnext hparts hrefers ih =>
    have hread : ∀ m, .refers m ∈ parts → ∃ (v : Value) (bytes : ℕ),
        extent m.1 m.2 = some bytes ∧ bytes ≤ m.2.length ∧ v.Encodes m.1 (m.2.take bytes) :=
      fun m hm => ih m hm fun k hk =>
        hform k (.head ((Walk.Readable.node hnext hparts hrefers).child hnext hm) hk)
    obtain ⟨typeCode, data⟩ := n
    have hhere := hform _ .refl
    have harray : ∀ large, parts = itemParts data large → ArrayInForm data large →
        ∃ v size, field data (width large) large = some size ∧ size ≤ data.length ∧
          Value.Encodes v (if large then LARGE_ARRAY else SMALL_ARRAY) (data.take size) := by
      rintro large rfl hin
      rw [itemParts] at hparts hread
      cases hcount : field data 0 large with
      | none =>
        rw [hcount] at hparts
        exact absurd List.mem_cons_self hparts
      | some count =>
        rw [hcount] at hparts hread
        obtain ⟨size, hsize, hwithin⟩ := hin count hcount
        obtain ⟨v, hv⟩ := exists_array serde hcount hsize hwithin fun i hi => by
          have hmem := List.mem_map_of_mem (f := itemPart data large) (List.mem_range.mpr hi)
          have hne : partOf (entryAt data (itemAt large i) large) ≠ .refused :=
            fun h => hparts (h ▸ hmem)
          obtain ⟨entry, hentry⟩ := exists_entry_of_ne_refused hne
          refine ⟨entry, hentry, ?_⟩
          rintro typeCode data' rfl
          rw [itemPart, hentry] at hmem
          exact hread (typeCode, data') hmem
        exact ⟨v, size, hsize.1, hsize.2.2, hv⟩
    have hobject : ∀ large, parts = memberParts data large → ObjectInForm data large →
        ∃ v size, field data (width large) large = some size ∧ size ≤ data.length ∧
          Value.Encodes v (if large then LARGE_OBJECT else SMALL_OBJECT) (data.take size) := by
      rintro large rfl hin
      rw [memberParts] at hparts hread
      cases hcount : field data 0 large with
      | none =>
        rw [hcount] at hparts
        exact absurd List.mem_cons_self hparts
      | some count =>
        rw [hcount] at hparts hread
        obtain ⟨size, hsize, hwithin, hsorted⟩ := hin count hcount
        obtain ⟨v, hv⟩ := exists_object serde hcount hsize hwithin hsorted fun i hi => by
          have hmem := List.mem_map_of_mem (f := memberPart data large count)
            (List.mem_range.mpr hi)
          have hne : memberPart data large count i ≠ .refused := fun h => hparts (h ▸ hmem)
          obtain ⟨entry, hentry⟩ := exists_entry_of_ne_refused hne
          rw [memberPart, hentry] at hmem
          obtain ⟨_, -, hentry⟩ := Option.bind_eq_some_iff.mp hentry
          refine ⟨entry, hentry, ?_⟩
          rintro typeCode data' rfl
          exact hread (typeCode, data') hmem
        exact ⟨v, size, hsize.1, hsize.2.2, hv⟩
    by_cases hscalar : 4 ≤ typeCode
    · rw [next_scalar serde hscalar] at hnext
      cases hnext
    · obtain rfl | rfl | rfl | rfl : typeCode = 0 ∨ typeCode = 1 ∨ typeCode = 2 ∨ typeCode = 3 := by
        omega
      · exact hobject false (Sum.inr.inj hnext).symm hhere
      · exact hobject true (Sum.inr.inj hnext).symm hhere
      · exact harray false (Sum.inr.inj hnext).symm hhere
      · exact harray true (Sum.inr.inj hnext).symm hhere

/-! ## What is encoded is in form -/

variable {v : Value}

/-- Where an encoded entry refers to, its value is encoded, and ends within the container. -/
theorem EntryForm.refers (serde : SerdeJson) {data data' : List UInt8}
    {header start size typeCode : ℕ} (h : EntryForm (data.take size) large header start v.Encodes)
    (hle : size ≤ data.length) (hentry : entryAt data start large = some (.refers typeCode data')) :
    v.Encodes typeCode data' ∧ ∃ offset bytes, field data (start + 1) large = some offset ∧
      header ≤ offset ∧ extent typeCode data' = some bytes ∧ offset + bytes ≤ size := by
  obtain ⟨code, hcode, hform⟩ := h
  obtain ⟨code', hcode', hread⟩ := entryAt_eq_some serde hentry
  obtain rfl : code' = code := by
    have hlt := (List.getElem?_eq_some_iff.mp hcode).1
    rw [List.length_take] at hlt
    rw [List.getElem?_take_of_lt (by omega), hcode'] at hcode
    exact Option.some.inj hcode
  obtain ⟨-, _, hinline, -⟩ | ⟨hinlined, offset, hoffset, -, hrefers⟩ := hread
  · cases hinline
  · cases hrefers
    rw [if_neg hinlined] at hform
    obtain ⟨offset', hholds, hheader, hend, hencodes⟩ := hform
    have hpre : data.take size <+: data := List.take_prefix _ _
    obtain rfl := Option.some.inj ((hholds.mono hpre).field.symm.trans hoffset)
    obtain ⟨bytes, hextent, hbytes⟩ := hencodes.extent
    rw [List.length_drop, List.length_take_of_le hle] at hbytes
    rw [List.length_take_of_le hle] at hend
    exact ⟨hencodes.mono (hpre.drop _), offset', bytes, hoffset, hheader,
      extent_mono hextent (hpre.drop _), by omega⟩

theorem EncodesItems.get {items : List Value} {body : List UInt8} {header i : ℕ}
    (h : EncodesItems body large header items i) {k : ℕ} (hk : k < items.length) :
    ∃ x ∈ items, EntryForm body large header (itemAt large (i + k)) (Value.Encodes x) := by
  induction items generalizing i k with
  | nil => cases hk
  | cons x rest ih =>
    obtain ⟨hentry, hrest⟩ := h
    cases k with
    | zero => exact ⟨x, List.mem_cons_self, hentry⟩
    | succ k =>
      obtain ⟨y, hy, hform⟩ := ih hrest (Nat.lt_of_succ_lt_succ hk)
      rw [Nat.add_assoc, Nat.add_comm 1 k] at hform
      exact ⟨y, List.mem_cons_of_mem _ hy, hform⟩

theorem EncodesMembers.get {members : List (String × Value)} {body : List UInt8}
    {header count i : ℕ} (h : EncodesMembers body large header count members i) {k : ℕ}
    (hk : k < members.length) : ∃ x ∈ members,
      KeyForm body large header (width large * 2 + (i + k) * (width large + 2)) x.1 ∧
      EntryForm body large header (memberAt large count (i + k)) (Value.Encodes x.2) := by
  induction members generalizing i k with
  | nil => cases hk
  | cons x rest ih =>
    obtain ⟨hkey, hentry, hrest⟩ := h
    cases k with
    | zero => exact ⟨x, List.mem_cons_self, hkey, hentry⟩
    | succ k =>
      obtain ⟨y, hy, hform⟩ := ih hrest (Nat.lt_of_succ_lt_succ hk)
      rw [Nat.add_assoc, Nat.add_comm 1 k] at hform
      exact ⟨y, List.mem_cons_of_mem _ hy, hform⟩

/-- The keys that are read are those that were encoded. -/
theorem EncodesMembers.keys {members : List (String × Value)} {header count size i : ℕ}
    (h : EncodesMembers (data.take size) large header count members i) :
    (List.range' i members.length).filterMap (keyAt data large) = members.map Prod.fst := by
  induction members generalizing i with
  | nil => rfl
  | cons x rest ih =>
    obtain ⟨hkey, -, hrest⟩ := h
    rw [List.length_cons, List.range'_succ, List.filterMap_cons_some hkey.read, List.map_cons,
      ih hrest]

/-- A key that is encoded is in form. -/
theorem KeyForm.within {header size i : ℕ} {key : String}
    (h : KeyForm (data.take size) large header (width large * 2 + i * (width large + 2)) key)
    (hle : size ≤ data.length) : KeyWithin data large header size i := by
  obtain ⟨offset, hoffset, hlength, hheader, hoffset', hkey⟩ := h
  have hpre : data.take size <+: data := List.take_prefix _ _
  have hend := hkey.length_le
  rw [List.length_drop, List.length_take_of_le hle] at hend
  rw [List.length_take_of_le hle] at hoffset'
  exact ⟨offset, key, (hoffset.mono hpre).field, hheader, by omega,
    ((hlength.mono hpre).field : field data _ false = _), hkey.trans (hpre.drop _)⟩

/-- Where an item is read from. -/
theorem itemAt_of_refers {m : Node} (h : .refers m ∈ itemParts data large) :
    ∃ count i, field data 0 large = some count ∧
      i < count ∧ entryAt data (itemAt large i) large = some (.refers m.1 m.2) := by
  unfold itemParts at h
  split at h
  · cases List.mem_singleton.mp h
  · next count hcount =>
    obtain ⟨i, hi, hpart⟩ := List.mem_map.mp h
    exact ⟨count, i, hcount, List.mem_range.mp hi, partOf_refers hpart⟩

/-- And where a member is. -/
theorem memberAt_of_refers {m : Node} (h : .refers m ∈ memberParts data large) :
    ∃ count i, field data 0 large = some count ∧
      i < count ∧ entryAt data (memberAt large count i) large = some (.refers m.1 m.2) := by
  unfold memberParts at h
  split at h
  · cases List.mem_singleton.mp h
  · next count hcount =>
    obtain ⟨i, hi, hpart⟩ := List.mem_map.mp h
    obtain ⟨_, -, hentry⟩ := Option.bind_eq_some_iff.mp (partOf_refers hpart)
    exact ⟨count, i, hcount, List.mem_range.mp hi, hentry⟩

/-- The parts of what is encoded are encoded. -/
theorem Value.Encodes.child (serde : SerdeJson) {typeCode : ℕ} (h : v.Encodes typeCode data)
    {m : Node} (hchild : Walk.Child (next serde) (typeCode, data) m) :
    ∃ x : Value, x.Encodes m.1 m.2 := by
  obtain ⟨front, back, hnext, -⟩ := hchild
  have hmem : (.refers m : Walk.Part Node) ∈ front ++ .refers m :: back :=
    List.mem_append_right _ List.mem_cons_self
  have hleaf : ∀ {code}, 4 ≤ code → typeCode ≠ code := by
    rintro code hcode rfl
    rw [next_scalar serde hcode] at hnext
    cases hnext
  cases v with
  | null | bool b => exact absurd h.1 (hleaf (by decide))
  | int n =>
    obtain ⟨bytes, sign, hcode, -⟩ := h
    simp only [List.mem_cons, Prod.mk.injEq, List.not_mem_nil, or_false] at hcode
    obtain ⟨rfl, -⟩ | ⟨rfl, -⟩ | ⟨rfl, -⟩ | ⟨rfl, -⟩ | ⟨rfl, -⟩ | ⟨rfl, -⟩ := hcode
    all_goals exact absurd rfl (hleaf (by decide))
  | double bits | str s | other fieldType body => exact absurd h.1 (hleaf (by decide))
  | arr items =>
    obtain ⟨large, size, rfl, ⟨hcount, -, -, hle⟩, hitems⟩ := h
    have hparts : itemParts data large = front ++ .refers m :: back := by
      cases large <;> exact Sum.inr.inj hnext
    rw [← hparts] at hmem
    obtain ⟨count, i, hfield, hi, hentry⟩ := itemAt_of_refers hmem
    obtain rfl := Option.some.inj (hcount.field.symm.trans hfield)
    obtain ⟨x, -, hform⟩ := hitems.get hi
    rw [Nat.zero_add] at hform
    exact ⟨x, (hform.refers serde hle hentry).1⟩
  | obj members =>
    obtain ⟨large, size, rfl, ⟨hcount, -, -, hle⟩, -, hmembers⟩ := h
    have hparts : memberParts data large = front ++ .refers m :: back := by
      cases large <;> exact Sum.inr.inj hnext
    rw [← hparts] at hmem
    obtain ⟨count, i, hfield, hi, hentry⟩ := memberAt_of_refers hmem
    obtain rfl := Option.some.inj (hcount.field.symm.trans hfield)
    obtain ⟨x, -, -, hform⟩ := hmembers.get hi
    rw [Nat.zero_add] at hform
    exact ⟨x.2, (hform.refers serde hle hentry).1⟩

/-- What is encoded is in form. -/
theorem Value.Encodes.inForm (serde : SerdeJson) {typeCode : ℕ} (h : v.Encodes typeCode data) :
    InForm (typeCode, data) := by
  cases v with
  | null | bool b =>
    obtain ⟨rfl, -⟩ := h
    trivial
  | int n =>
    obtain ⟨bytes, sign, hcode, -⟩ := h
    simp only [List.mem_cons, Prod.mk.injEq, List.not_mem_nil, or_false] at hcode
    obtain ⟨rfl, -⟩ | ⟨rfl, -⟩ | ⟨rfl, -⟩ | ⟨rfl, -⟩ | ⟨rfl, -⟩ | ⟨rfl, -⟩ := hcode
    all_goals trivial
  | double bits =>
    obtain ⟨rfl, -⟩ := h
    trivial
  | str s =>
    obtain ⟨rfl, hcounted⟩ := h
    intro len rest hlen
    obtain ⟨rest', hread, hpre⟩ := hcounted.varLen
    cases hread.symm.trans hlen
    exact ⟨s, List.prefix_iff_eq_take.mp hpre⟩
  | other fieldType body =>
    obtain ⟨rfl, hform, hlt, hcode, hcounted⟩ := h
    rintro code tail len rest rfl hlen
    obtain ⟨rest', hread, hpre⟩ := hcounted.varLen
    cases hread.symm.trans hlen
    rw [← List.prefix_iff_eq_take.mp hpre, Option.some.inj hcode, UInt8.toNat_ofNat',
      Nat.mod_eq_of_lt hlt]
    exact hform
  | arr items =>
    obtain ⟨large, size, rfl, ⟨hcount, hsize, hheader, hle⟩, hitems⟩ := h
    have hin : ArrayInForm data large := by
      intro count hfield
      obtain rfl := Option.some.inj (hcount.field.symm.trans hfield)
      refine ⟨size, ⟨hsize.field, hheader, hle⟩, fun i hi typeCode data' hentry => ?_⟩
      obtain ⟨x, -, hform⟩ := hitems.get hi
      rw [Nat.zero_add] at hform
      exact (hform.refers serde hle hentry).2
    cases large <;> exact hin
  | obj members =>
    obtain ⟨large, size, rfl, ⟨hcount, hsize, hheader, hle⟩, hsorted, hmembers⟩ := h
    have hin : ObjectInForm data large := by
      intro count hfield
      obtain rfl := Option.some.inj (hcount.field.symm.trans hfield)
      refine ⟨size, ⟨hsize.field, hheader, hle⟩, fun i hi => ?_, ?_⟩
      · obtain ⟨x, -, hkey, hform⟩ := hmembers.get hi
        rw [Nat.zero_add] at hkey hform
        exact ⟨hkey.within hle, fun typeCode data' hentry => (hform.refers serde hle hentry).2⟩
      · rwa [List.range_eq_range', hmembers.keys]
    cases large <;> exact hin

/-- **All that a reader of what is encoded comes to is in form.** -/
theorem Value.Encodes.visits (serde : SerdeJson) {n m : Node} (h : v.Encodes n.1 n.2)
    (hm : Visits serde n m) : InForm m := by
  have hencoded : ∃ x : Value, x.Encodes m.1 m.2 := by
    induction hm with
    | refl => exact ⟨v, h⟩
    | tail _ hchild ih =>
      obtain ⟨x, hx⟩ := ih
      exact hx.child serde hchild
  obtain ⟨x, hx⟩ := hencoded
  exact hx.inForm serde

/-! ## The decoder -/

/-- A document of the format: none at all for an SQL NULL, or the encoding of a value. -/
def WellFormed (doc : List UInt8) : Prop :=
  doc = [] ∨ ∃ v : Value, v.EncodedAs doc

/-- Decoding a document comes to an end, and to a value only if the document is one. -/
def DecodesTotally (serde : SerdeJson) (doc : List UInt8) : Prop :=
  ∃ fuel, decode serde fuel doc = .nothing ∨
    (∃ w, decode serde fuel doc = .value w) ∧ WellFormed doc

/-- What of a document decides it: nothing that the decoder comes to has no digits or lies inside
itself, and if nothing is refused, everything is in form. -/
def Sound (serde : SerdeJson) : List UInt8 → Prop
  | [] => True
  | typeCode :: data =>
    (∀ m, Visits serde (typeCode.toNat, data) m → ¬NoDigits m ∧ ¬Circular serde m) ∧
      ((∀ m, Visits serde (typeCode.toNat, data) m → ¬Walk.Refused (next serde) m) →
        ∀ m, Visits serde (typeCode.toNat, data) m → InForm m)

/-- What is decoded to a value is read. -/
theorem readable_of_decodeValue {serde : SerdeJson} {fuel typeCode : ℕ} {w : Json}
    (h : decodeValue serde fuel typeCode data = .value w) :
    Walk.Readable (next serde) (typeCode, data) := by
  have hwalk : Walk.walk (next serde) fuel (typeCode, data) = .value () := by
    rw [← kind_decodeValue, h]
    rfl
  exact Walk.readable_of_walk hwalk

/-- **Decoding is total** on exactly the documents that are sound. -/
theorem decodesTotally_iff (serde : SerdeJson) (doc : List UInt8) :
    DecodesTotally serde doc ↔ Sound serde doc := by
  obtain _ | ⟨typeCode, data⟩ := doc
  · exact iff_of_true ⟨0, .inr ⟨⟨.null, rfl⟩, .inl rfl⟩⟩ trivial
  have hreadable := Walk.readable_iff (finite_visits serde (typeCode.toNat, data))
  rw [not_stuck_iff] at hreadable
  constructor
  · rintro ⟨fuel, hend⟩
    have hends := (decodeValue_ends_iff serde typeCode.toNat data).mp
      ⟨fuel, hend.imp_right fun h => h.1⟩
    refine ⟨hends, fun hrefused => ?_⟩
    obtain hnothing | ⟨-, hempty | ⟨v, _, _, hdoc, hencodes⟩⟩ := hend
    · -- nothing is refused, so it is read
      obtain ⟨fuel', hvalue⟩ := (hreadable.mpr ⟨hends, hrefused⟩).walk
      have hwalk : Walk.walk (next serde) fuel (typeCode.toNat, data) = .nothing := by
        have hkind : (decodeValue serde fuel typeCode.toNat data).kind = .nothing := by
          have hdecode : decodeValue serde fuel typeCode.toNat data = .nothing := hnothing
          rw [hdecode]
          rfl
        rw [← hkind, kind_decodeValue]
      obtain ⟨m, hm, h⟩ := Walk.refused_of_walk hwalk
      exact absurd h (hrefused m hm)
    · cases hempty
    · cases hdoc
      exact fun m hm => hencodes.visits serde hm
  · rintro ⟨hends, hform⟩
    obtain ⟨fuel, hnothing | ⟨w, hvalue⟩⟩ := (decodeValue_ends_iff serde _ _).mpr hends
    · exact ⟨fuel, .inl hnothing⟩
    · have hread := readable_of_decodeValue hvalue
      obtain ⟨v, bytes, -, -, hencodes⟩ := exists_encodes serde hread
        (hform (hreadable.mp hread).2)
      exact ⟨fuel, .inr ⟨⟨w, hvalue⟩, .inr ⟨v, typeCode, data, rfl,
        hencodes.mono (List.take_prefix _ _)⟩⟩⟩

/-- An array whose only item is the array itself is read for ever, a decimal without digits panics,
and an array that says that it has no bytes is read. -/
theorem decodes_not_totally :
    ¬DecodesTotally .scalars [0x02, 0x01, 0x00, 0x07, 0x00, 0x02, 0x00, 0x00] ∧
    ¬DecodesTotally .scalars [0x0f, 0xf6, 0x02, 0x00, 0x00] ∧
    ¬DecodesTotally .scalars [0x02, 0x00, 0x00, 0x00, 0x00] := by
  refine ⟨?_, ?_, ?_⟩
  · have hrunning : ∀ fuel,
        decodeValue .scalars fuel 2 [0x01, 0x00, 0x07, 0x00, 0x02, 0x00, 0x00] = .running := by
      intro fuel
      induction fuel with
      | zero => rfl
      | succ fuel ih =>
        have hentry : entryAt [0x01, 0x00, 0x07, 0x00, 0x02, 0x00, 0x00] (itemAt false 0) false =
            some (.refers 2 [0x01, 0x00, 0x07, 0x00, 0x02, 0x00, 0x00]) := by decide
        have hitem : itemValue (decodeValue .scalars fuel)
            [0x01, 0x00, 0x07, 0x00, 0x02, 0x00, 0x00] false 0 = .running := by
          rw [itemValue, hentry]
          exact ih
        have hcount : field [0x01, 0x00, 0x07, 0x00, 0x02, 0x00, 0x00] 0 false = some 1 := by decide
        have harray : decodeArray (decodeValue .scalars fuel)
            [0x01, 0x00, 0x07, 0x00, 0x02, 0x00, 0x00] false = .running := by
          rw [decodeArray, hcount]
          have hrange : List.range 1 = [0] := rfl
          dsimp only
          rw [hrange, Walked.collect, hitem]
          rfl
        exact harray
    rintro ⟨fuel, h | ⟨⟨w, h⟩, -⟩⟩
    · exact absurd ((hrunning fuel).symm.trans h) (by intro h; cases h)
    · exact absurd ((hrunning fuel).symm.trans h) (by intro h; cases h)
  · have hdigits : NoDigits (15, [0xf6, 0x02, 0x00, 0x00]) :=
      ⟨rfl, [0x02, 0x00, 0x00], [0x00, 0x00], 2, [], rfl, by decide, rfl⟩
    have hpanics : ∀ fuel, decode .scalars (fuel + 1) [0x0f, 0xf6, 0x02, 0x00, 0x00] = .panics := by
      intro fuel
      have hscalar : decodeValue .scalars (fuel + 1) 15 [0xf6, 0x02, 0x00, 0x00] =
          scalar .scalars 15 [0xf6, 0x02, 0x00, 0x00] := decodeValue_scalar .scalars (by decide)
      exact hscalar.trans ((scalar_panics .scalars).mpr hdigits)
    rintro ⟨fuel, h⟩
    cases fuel with
    | zero => obtain h | ⟨⟨w, h⟩, -⟩ := h <;> cases h
    | succ fuel =>
      rw [hpanics] at h
      obtain h | ⟨⟨w, h⟩, -⟩ := h <;> cases h
  · rintro ⟨fuel, h | ⟨-, hempty | ⟨v, _, _, hdoc, hencodes⟩⟩⟩
    · cases fuel <;> cases h
    · cases hempty
    · cases hdoc
      have hin : ArrayInForm [0x00, 0x00, 0x00, 0x00] false := hencodes.inForm .scalars
      obtain ⟨size, ⟨hsize, hheader, -⟩, -⟩ := hin 0 (by decide)
      cases (show field [0x00, 0x00, 0x00, 0x00] (width false) false = some 0 by decide).symm.trans
        hsize
      exact absurd hheader (by decide)

end BinaryJson

end MySql

end Pg2osync
