import Pg2osync.RowExtents

/-!
# Which packets are read to an end

Most of what a packet says is checked before it is used. This says what is not, and that nothing
else is wrong: a packet is read to an end exactly if it has a byte and its event says nothing of
that kind.
-/

namespace Pg2osync

namespace MySql

open Checked Ran Reader

variable {b : Slice}

/-! ## What is read ahead of the rows -/

/-- The reader behind the data of an event's own. -/
def skipExtra (evType : ℕ) (r : Reader b) : Option (Reader b) :=
  if evType ∈ [30, 31, 32] then (r.skip 2).bind fun r' => r'.skip (r.number 2 - 2) else some r

/-- What is ahead of the rows, and the reader ahead of the first of them. -/
def rowsHead (evType : ℕ) (kind : RowsKind) (r : Reader b) : Option (RowsHead × Reader b) := do
  let r₁ ← r.skip 6
  let r₂ ← r₁.skip 2
  let r₃ ← skipExtra evType r₂
  let (ncols, r₄) ← r₃.length
  let r₅ ← r₄.skip (bitmapLen ncols)
  let r₆ ← (if kind = .update then r₅.skip (bitmapLen ncols) else some r₅)
  return (⟨r.number 6, ncols, r₄.peek (bitmapLen ncols),
    if kind = .update then r₅.peek (bitmapLen ncols) else []⟩, r₆)

/-! ## What goes wrong -/

/-- A length that leads to where no address is. -/
def LengthOverlong (r : Reader b) : Prop :=
  ∃ p, r.length = some p ∧ 2 ^ 64 ≤ p.2.pos + p.1

/-- The reader behind the names of a table map. -/
def skipNames (r : Reader b) : Option (Reader b) := do
  let r₁ ← r.skip 6
  let r₂ ← r₁.skip 2
  let r₃ ← r₂.skipCounted 1
  let r₄ ← r₃.skip 1
  let r₅ ← r₄.skipCounted 1
  r₅.skip 1

/-- A table map has a length that leads to where no address is: of its columns, or of what belongs
to them. -/
def TableMapSpoils (b : Slice) : Prop :=
  ∃ r, skipNames (Reader.new b) = some r ∧ (LengthOverlong r ∨
    ∃ r', (r.length.bind fun p => p.2.skip p.1) = some r' ∧ LengthOverlong r')

/-- The file that follows has a NUL in the first bytes of its name. -/
def RotateSpoils (b : Slice) : Prop :=
  8 ≤ b.bytes.length ∧ 0 ∈ (b.bytes.drop 8).take 8

variable (ctx : PacketContext)

/-- A row event has no number of a table, or its table is registered and one of its rows is
spoilt. -/
def RowsEventSpoils (evType : ℕ) (kind : RowsKind) (b : Slice) : Prop :=
  b.bytes.length < 6 ∨ ∃ table p, ctx.registered (Encoding.littleEndian (b.bytes.take 6)) =
    some table ∧ rowsHead evType kind (Reader.new b) = some p ∧
      RowsSpoil ctx.serde table.columns kind p.1 p.2

/-- What goes wrong with an event. -/
def EventSpoils (evType : ℕ) (body : Slice) : Prop :=
  match evType with
  | 4 => RotateSpoils body
  | 19 => TableMapSpoils body
  | evType => ∃ kind, rowsKindForType evType = some kind ∧ RowsEventSpoils ctx evType kind body

/-- The event of a packet: its type and its body. -/
def eventOf (checksumLen : ℕ) (pkt : Slice) : Option (ℕ × Slice) :=
  let ev := pkt.part 1 (pkt.bytes.length - 1)
  let stop := ev.bytes.length - checksumLen
  if pkt.bytes.head? = some 0xFF ∨ stop < headerLen then none
  else some ((ev.bytes.getD 4 0).toNat, ev.part headerLen (stop - headerLen))

/-- What goes wrong with a packet. -/
def PacketSpoils (pkt : Slice) : Prop :=
  pkt.bytes = [] ∨
    ∃ p, eventOf ctx.checksumLen pkt = some p ∧ EventSpoils ctx p.1 p.2

/-- A packet is read to an end, without a panic. -/
def ReadToEnd (pkt : Slice) : Prop :=
  ∃ fuel, (readPacket ctx fuel pkt).Ended

/-! ## Headers and short bodies -/

theorem numberIn_eq {bytes : List UInt8} {start stop : ℕ} (h : start ≤ stop)
    (hle : stop ≤ bytes.length) : numberIn bytes start stop =
      .done (Encoding.littleEndian ((bytes.drop start).take (stop - start))) := by
  rw [numberIn, slice_eq h hle]
  rfl

theorem parseHeader_short {ev : List UInt8} (h : ev.length < headerLen) :
    parseHeader ev = .done none := by
  rw [parseHeader, if_pos h]
  rfl

theorem parseHeader_eq {ev : List UInt8} (h : headerLen ≤ ev.length) :
    ∃ header, parseHeader ev = .done (some header) ∧
      header.eventType = (ev.getD 4 0).toNat := by
  have hlength : 19 ≤ ev.length := h
  rw [parseHeader, if_neg (Nat.not_lt.mpr h), numberIn_eq (by omega) (by omega),
    numberIn_eq (by omega) (by omega), numberIn_eq (by omega) (by omega),
    numberIn_eq (by omega) (by omega), index_eq (by omega)]
  refine ⟨_, rfl, ?_⟩
  rw [List.getD_eq_getElem?_getD, List.getElem?_eq_getElem (by omega)]
  rfl

theorem ended_formatUuid {raw : List UInt8} (h : raw.length = 16) : (formatUuid raw).Ended := by
  have hlength : (Encoding.hex raw).length = 32 := by
    simp only [Encoding.hex, List.length_flatMap, List.length_cons, List.length_nil,
      List.map_const', List.sum_replicate, h]
    rfl
  rw [formatUuid, slice_eq (by decide) (by omega), slice_eq (by decide) (by omega),
    slice_eq (by decide) (by omega), slice_eq (by decide) (by omega),
    slice_eq (by decide) (by omega)]
  trivial

theorem ended_parseMysqlGtid (body : List UInt8) : (parseMysqlGtid body).Ended := by
  rw [parseMysqlGtid]
  split
  · trivial
  · next h =>
    rw [numberIn_eq (by decide) (by omega)]
    refine ended_bind.mpr ⟨trivial, fun gno _ => ?_⟩
    split
    · rw [slice_eq (by decide) (by omega), done_bind]
      refine ended_bind.mpr ⟨ended_formatUuid ?_, fun _ _ => trivial⟩
      rw [List.length_take, List.length_drop]
      omega
    · trivial

theorem ended_parseMariaGtid (body : List UInt8) : (parseMariaGtid body).Ended := by
  rw [parseMariaGtid]
  split
  · trivial
  · next h =>
    rw [numberIn_eq (by decide) (by omega), done_bind, numberIn_eq (by decide) (by omega)]
    trivial

theorem ended_parseFde (body : List UInt8) : (parseFde body).Ended := by
  rw [parseFde]
  split
  · trivial
  · next h =>
    rw [index_eq (by omega), done_bind, sub_eq (by omega)]
    trivial

theorem ended_okOf {α ε ε' : Type} {x : Ran ε α} : (okOf x : Ran ε' (Option α)).Ended ↔ x.Ended := by
  cases x <;> rfl

variable {α : Type}

theorem ended_decoded {x : Ran DecodeError α} : (decoded x).Ended ↔ x.Ended := by
  cases x <;> rfl

variable {r : Reader b} {n : ℕ}

/-- A few bytes, and then the rest. -/
theorem ended_take_bind (h : n < 2 ^ 63) {f : List UInt8 → Checked b α}
    (hf : ∀ raw r', ((f raw).run r').Ended) : ((take n >>= f).run r).Ended := by
  rw [StateT.run_bind, ended_bind]
  exact ⟨(meets_take_of_lt True h r).ended trivial trivial, fun p _ => hf p.1 p.2⟩

/-- A number, and then the rest. -/
theorem ended_uint_bind (h : n < 2 ^ 63) {f : ℕ → Checked b α}
    (hf : ∀ v r', v < 256 ^ n → ((f v).run r').Ended) : ((uint n >>= f).run r).Ended := by
  rw [StateT.run_bind, ended_bind]
  refine ⟨(meets_uint True h r).ended trivial trivial, fun p hrun => hf p.1 p.2 ?_⟩
  obtain ⟨hskip, hv⟩ := uint_done hrun
  rw [hv]
  exact (Encoding.littleEndian_lt _).trans_eq (by rw [length_peek hskip])

theorem ended_parseQuery (b : Slice) : (parseQuery b).Ended := by
  rw [parseQuery, ended_bind, ended_okOf]
  refine ⟨?_, fun _ _ => trivial⟩
  refine ended_uint_bind (by decide) fun _ _ _ => ended_uint_bind (by decide) fun _ _ _ => ?_
  refine ended_uint_bind (by decide) fun dbLen _ hdb => ?_
  refine ended_uint_bind (by decide) fun _ _ _ => ?_
  refine ended_uint_bind (by decide) fun statusLen _ hstatus => ?_
  refine ended_take_bind (by omega) fun _ _ => ended_take_bind (by omega) fun _ _ => ?_
  exact ended_uint_bind (by decide) fun _ _ _ => trivial

/-- The first NUL is among the first bytes if one is. -/
theorem findIdx_lt {bytes : List UInt8} :
    (∃ i, (bytes.findIdx? fun byte => byte = 0) = some i ∧ i < n) ↔ 0 ∈ bytes.take n := by
  induction bytes generalizing n with
  | nil =>
    rw [List.take_nil]
    refine iff_of_false ?_ List.not_mem_nil
    rintro ⟨i, h, -⟩
    cases h
  | cons byte rest ih =>
    cases n with
    | zero =>
      refine iff_of_false ?_ List.not_mem_nil
      rintro ⟨i, -, h⟩
      exact Nat.not_lt_zero i h
    | succ n =>
      rw [List.findIdx?_cons, List.take_succ_cons, List.mem_cons, ← ih]
      by_cases hzero : byte = 0
      · rw [if_pos (by rwa [decide_eq_true_eq])]
        exact iff_of_true ⟨0, rfl, n.succ_pos⟩ (.inl hzero.symm)
      · rw [if_neg (by rwa [decide_eq_true_eq]), or_iff_right (Ne.symm hzero)]
        constructor
        · rintro ⟨i, hi, hlt⟩
          obtain ⟨j, hj, rfl⟩ := Option.map_eq_some_iff.mp hi
          exact ⟨j, hj, Nat.lt_of_succ_lt_succ hlt⟩
        · rintro ⟨j, hj, hlt⟩
          exact ⟨j + 1, Option.map_eq_some_iff.mpr ⟨j, hj, rfl⟩, Nat.succ_lt_succ hlt⟩

theorem ended_slice {xs : List α} {start stop : ℕ} :
    (slice xs start stop : Ran DecodeError (List α)).Ended ↔
      start ≤ stop ∧ stop ≤ xs.length := by
  rw [slice]
  split
  · next h => exact iff_of_true trivial h
  · next h => exact iff_of_false id h

/-- The name of a file is read unless it ends too early. -/
theorem ended_rotateName (hpos : r.pos = 8) :
    (rotateName r).Ended ↔ 0 ∉ (b.bytes.drop 8).take 8 := by
  have hle := r.le
  have hrest : r.rest = b.bytes.drop 8 := by rw [rest, hpos]
  rw [rotateName, ended_map, ended_slice, ← findIdx_lt, hrest, hpos]
  cases hfind : (b.bytes.drop 8).findIdx? fun byte => byte = 0 with
  | none =>
    rw [Option.getD_none]
    refine iff_of_true ⟨by omega, le_rfl⟩ ?_
    rintro ⟨i, h, -⟩
    cases h
  | some i =>
    have hlt := (List.findIdx?_eq_some_iff_findIdx_eq.mp hfind).1
    rw [List.length_drop] at hlt
    rw [Option.getD_some]
    refine ⟨?_, fun h => ⟨?_, by omega⟩⟩
    · rintro h ⟨j, hj, hlt⟩
      cases hj
      omega
    · by_contra hlt
      exact h ⟨i, rfl, Nat.lt_of_not_le hlt⟩

/-- **A rotate is read** unless the name of the file ends too early. -/
theorem ended_parseRotate (b : Slice) : (parseRotate b).Ended ↔ ¬RotateSpoils b := by
  have hread := uint_run (show 8 < 2 ^ 63 by decide) (new b)
  rw [parseRotate, u64v, hread]
  cases hskip : (new b).skip 8 with
  | none =>
    have hlt : b.bytes.length - 0 < 8 := skip_eq_none.mp hskip
    exact iff_of_true trivial fun h => absurd h.1 (by omega)
  | some r =>
    have hpos : r.pos = 0 + 8 := skip_eq_some.mp hskip
    have hle := r.le
    refine ended_map.trans ((ended_rotateName hpos).trans ?_)
    rw [RotateSpoils, not_and]
    exact ⟨fun h _ => h, fun h => h (by omega)⟩

/-! ## Table maps -/

variable {fuel : ℕ}

/-- Lengths one after the other are read in as many steps as there are bytes. -/
theorem ended_lengths (h : r.restLen < fuel) : (lengths fuel r).Ended := by
  induction fuel generalizing r with
  | zero => exact absurd h (Nat.not_lt_zero _)
  | succ fuel ih =>
    rw [lengths, lenenc_run]
    cases hlength : r.length with
    | none => trivial
    | some p =>
      have hpos := (length_spec hlength).2
      have hle := p.2.le
      simp only [restLen] at h
      exact ended_map.mpr (ih (by rw [restLen]; omega))

theorem ended_putField {opt : OptionalMeta} {ty : ℕ} {val : Slice} (h : val.bytes.length < fuel) :
    (putField fuel opt ty val).Ended := by
  rw [putField]
  split
  · trivial
  · split
    · exact ended_map.mpr (ended_lengths h)
    · trivial

/-- A field, and the reader behind it. -/
def fieldAt (r : Reader b) : Option ((ℕ × Slice) × Reader b) := do
  let r₁ ← r.skip 2
  let r₂ ← r₁.skip 2
  let r₃ ← r₂.skip (r₁.number 2)
  return ((r.number 2, b.part r₂.pos (r₁.number 2)), r₃)

theorem reads_readOptionalField (r : Reader b) : Checked.Reads readOptionalField r (fieldAt r) := by
  refine .uint_bind (by decide) fun r₁ _ => .uint_bind (by decide) fun r₂ _ => ?_
  have hlt := r₁.number_lt 2
  exact .get_bind (.take_bind (show r₁.number 2 < 2 ^ 63 by omega) fun r₃ _ => .pure _ _)

/-- A field takes more bytes than there are in it. -/
theorem fieldAt_spec {p : (ℕ × Slice) × Reader b} (h : fieldAt r = some p) :
    p.2.restLen < r.restLen ∧ p.1.2.bytes.length < r.restLen := by
  obtain ⟨r₁, h₁, h⟩ := Option.bind_eq_some_iff.mp h
  obtain ⟨r₂, h₂, h⟩ := Option.bind_eq_some_iff.mp h
  obtain ⟨r₃, h₃, h⟩ := Option.bind_eq_some_iff.mp h
  cases h
  have := skip_eq_some.mp h₁
  have := skip_eq_some.mp h₂
  have := skip_eq_some.mp h₃
  have := r₃.le
  simp only [restLen, Slice.part, List.length_take, List.length_drop]
  omega

/-- The fields are read in more steps than there are bytes. -/
theorem ended_readFields {opt : OptionalMeta} (h : r.restLen < fuel) :
    (readFields fuel opt r).Ended := by
  induction fuel generalizing opt r with
  | zero => exact absurd h (Nat.not_lt_zero _)
  | succ fuel ih =>
    rw [readFields]
    split
    · trivial
    · rw [reads_readOptionalField r]
      cases hfield : fieldAt r with
      | none => trivial
      | some p =>
        obtain ⟨hrest, hval⟩ := fieldAt_spec hfield
        have hput : (putField fuel opt p.1.1 p.1.2 >>= fun opt => readFields fuel opt p.2).Ended :=
          ended_bind.mpr ⟨ended_putField (by omega), fun opt _ => ih (by omega)⟩
        exact hput

theorem meets_tableNames (enough : Prop) (r : Reader b) :
    Ran.Meets enough tableNames r True (skipNames r) := by
  refine .bind_always (meets_uint _ (by decide) r) fun _ r₁ _ => ?_
  refine .bind_always (meets_uint _ (by decide) r₁) fun _ r₂ _ => ?_
  refine meets_counted_bind _ fun _ r₃ => .bind_always (meets_uint _ (by decide) r₃) fun _ r₄ _ => ?_
  exact meets_counted_bind _ fun _ r₅ => .map (meets_uint _ (by decide) r₅) _

/-- As many bytes as a length says, and then the rest. -/
theorem ended_length_take {f : ℕ → List UInt8 → Checked b α} :
    ((lenenc >>= fun n => take n >>= f n).run r).Ended ↔ ¬LengthOverlong r ∧
      ∀ p r', r.length = some p → p.2.skip p.1 = some r' →
        ((f p.1 (p.2.peek p.1)).run r').Ended := by
  rw [StateT.run_bind, lenenc_run]
  cases hlength : r.length with
  | none =>
    refine iff_of_true trivial ⟨?_, fun p r' h => by cases h⟩
    rintro ⟨p, hp, -⟩
    cases hlength.symm.trans hp
  | some p =>
    have hlong : LengthOverlong r ↔ 2 ^ 64 ≤ p.2.pos + p.1 := by
      refine ⟨?_, fun h => ⟨p, hlength, h⟩⟩
      rintro ⟨p', hp', h⟩
      cases hlength.symm.trans hp'
      exact h
    rw [done_bind, StateT.run_bind, take_run, hlong]
    split
    · next h => exact iff_of_false id fun h' => h'.1 h
    · next h =>
      cases hskip : p.2.skip p.1 with
      | none =>
        refine iff_of_true trivial ⟨h, fun p' r' hp' hr' => ?_⟩
        cases hp'
        cases hskip.symm.trans hr'
      | some r' =>
        refine ⟨fun hend => ⟨h, fun p' r'' hp' hr' => ?_⟩, fun hall => hall.2 p r' rfl hskip⟩
        cases hp'
        cases hskip.symm.trans hr'
        exact hend

/-- The columns of a table map are read only if none of their lengths leads too far. -/
theorem not_overlong_of_ended {names : ℕ × String × String}
    (h : ((tableColumns fuel names).run r).Ended) : ¬(LengthOverlong r ∨
      ∃ r', (r.length.bind fun p => p.2.skip p.1) = some r' ∧ LengthOverlong r') := by
  obtain ⟨hlong, hinner⟩ := ended_length_take.mp h
  rintro (hlong' | ⟨r', hskip, hlong'⟩)
  · exact hlong hlong'
  · obtain ⟨p, hp, hr'⟩ := Option.bind_eq_some_iff.mp hskip
    exact (ended_length_take.mp (hinner p r' hp hr')).1 hlong'

/-- And then they are, in more steps than there are bytes. -/
theorem ended_tableColumns {names : ℕ × String × String} (hfuel : b.bytes.length < fuel)
    (h : ¬(LengthOverlong r ∨
      ∃ r', (r.length.bind fun p => p.2.skip p.1) = some r' ∧ LengthOverlong r')) :
    ((tableColumns fuel names).run r).Ended := by
  obtain ⟨hcount, hmeta⟩ := not_or.mp h
  refine ended_length_take.mpr ⟨hcount, fun p r' hp hr' => ended_length_take.mpr ⟨?_, ?_⟩⟩
  · exact fun hlong => hmeta ⟨r', Option.bind_eq_some_iff.mpr ⟨p, hp, hr'⟩, hlong⟩
  · intro _ r'' _ _
    have hncols := (length_spec hp).1
    refine ended_take_bind (by omega) fun _ r₃ => ?_
    have hlength : (b.part r₃.pos r₃.restLen).bytes.length ≤ b.bytes.length := by
      rw [Slice.part, List.length_take, List.length_drop]
      omega
    refine ended_get_bind.mpr (ended_check_bind.mpr ⟨ended_readFields ?_, fun _ _ => trivial⟩)
    exact (Nat.sub_le _ _).trans_lt (hlength.trans_lt hfuel)

/-- **A table map is read** unless it has such a length. -/
theorem checkedTableMap_ends_iff (b : Slice) :
    (∃ fuel, (checkedTableMap fuel b).Ended) ↔ ¬TableMapSpoils b := by
  have hnames := meets_tableNames True (new b)
  have hrun : ∀ fuel, (checkedTableMap fuel b).Ended ↔
      (tableNames.run (new b)).Ended ∧ ∀ p, tableNames.run (new b) = .done p →
        ((tableColumns fuel p.1).run p.2).Ended := by
    intro fuel
    rw [checkedTableMap, ended_map, StateT.run_bind, ended_bind]
  constructor
  · rintro ⟨fuel, hended⟩ ⟨r, hr, hspoils⟩
    obtain ⟨hend, h⟩ := (hrun fuel).mp hended
    obtain ⟨names, hread⟩ := hnames.exists_done hend hr
    exact not_overlong_of_ended (h _ hread) hspoils
  · refine fun h => ⟨b.bytes.length + 1, (hrun _).mpr ⟨hnames.ended trivial trivial, ?_⟩⟩
    intro p hread
    exact ended_tableColumns (Nat.lt_succ_self _) fun hspoils => h ⟨p.2, hnames.done hread, hspoils⟩

/-! ## Row events -/

/-- The data of an event's own, and then the rest. -/
theorem reads_extra_bind (evType : ℕ) {f : Unit → Checked b α}
    {g : Reader b → Option (α × Reader b)} (hf : ∀ r', Checked.Reads (f ()) r' (g r')) :
    Checked.Reads (readExtra evType >>= f) r ((skipExtra evType r).bind g) := by
  have hextra : Checked.Reads (readExtra evType) r ((skipExtra evType r).map ((), ·)) := by
    rw [readExtra, skipExtra]
    split
    · rw [Option.map_bind]
      refine .uint_bind (by decide) fun r₁ _ => ?_
      have hlt := r.number_lt 2
      rw [Function.comp_apply, Option.map_eq_bind]
      exact .take_bind (show r.number 2 - 2 < 2 ^ 63 by omega) fun r₂ _ => .pure _ _
    · exact .pure _ _
  have hbind : Checked.Reads (readExtra evType >>= f) r
      (((skipExtra evType r).map ((), ·)).bind fun p => g p.2) := hextra.bind fun p _ => hf p.2
  rwa [Option.bind_map] at hbind

theorem reads_readRowsHead (evType : ℕ) (kind : RowsKind) (r : Reader b) :
    Checked.Reads (readRowsHead evType kind) r (rowsHead evType kind r) := by
  refine .uint_bind (by decide) fun r₁ _ => .uint_bind (by decide) fun r₂ _ => ?_
  refine reads_extra_bind evType fun r₃ => .lenenc_bind fun p hp => ?_
  have hncols := (length_spec hp).1
  have hsize : bitmapLen p.1 < 2 ^ 63 := by
    rw [bitmapLen]
    omega
  refine .take_bind hsize fun r₅ _ => ?_
  by_cases hkind : kind = .update
  · simp only [if_pos hkind]
    exact .take_bind hsize fun r₆ _ => .pure _ _
  · simp only [if_neg hkind]
    exact .pure _ _

variable {evType : ℕ}

/-- **The rows of an event are read** unless one of them is spoilt. -/
theorem parseRows_ends_iff (serde : SerdeJson) {kind : RowsKind}
    (hkind : rowsKindForType evType = some kind) (columns : List TableMapColumn) (b : Slice) :
    (∃ fuel, (parseRows serde fuel evType columns b).Ended) ↔
      ¬∃ p, rowsHead evType kind (new b) = some p ∧
        RowsSpoil serde columns kind p.1 p.2 := by
  have hread := reads_readRowsHead evType kind (new b)
  have hncols : ∀ p, rowsHead evType kind (new b) = some p → p.1.ncols < 2 ^ 64 := by
    intro p hp
    obtain ⟨_, -, h⟩ := Option.bind_eq_some_iff.mp hp
    obtain ⟨_, -, h⟩ := Option.bind_eq_some_iff.mp h
    obtain ⟨_, -, h⟩ := Option.bind_eq_some_iff.mp h
    obtain ⟨_, hlength, h⟩ := Option.bind_eq_some_iff.mp h
    obtain ⟨_, -, h⟩ := Option.bind_eq_some_iff.mp h
    obtain ⟨_, -, h⟩ := Option.bind_eq_some_iff.mp h
    cases h
    exact (length_spec hlength).1
  have hrun : ∀ fuel, (parseRows serde fuel evType columns b).Ended ↔
      ∀ p, rowsHead evType kind (new b) = some p →
        (readRows serde fuel columns kind p.1 fuel p.2).Ended := by
    intro fuel
    rw [parseRows, hkind]
    dsimp only
    rw [hread]
    cases rowsHead evType kind (new b) with
    | none => exact iff_of_true trivial fun p h => by cases h
    | some p =>
      refine ended_map.trans ⟨fun h p' hp => ?_, fun h => h p rfl⟩
      cases hp
      exact h
  constructor
  · rintro ⟨fuel, hended⟩ ⟨p, hp, hspoil⟩
    exact not_rowsSpoil_of_ended serde (hncols p hp) ((hrun fuel).mp hended p hp) hspoil
  · intro h
    obtain ⟨fuel, henough⟩ := exists_enough serde b
    refine ⟨max fuel (b.bytes.length + 1), (hrun _).mpr fun p hp => ?_⟩
    refine ended_readRows serde (henough _ (Nat.le_max_left _ _)) (hncols p hp) ?_ fun hspoil =>
      h ⟨p, hp, hspoil⟩
    have hrest : p.2.restLen ≤ b.bytes.length := Nat.sub_le _ _
    exact (Nat.lt_succ_of_le hrest).trans_le (Nat.le_max_right _ _)

/-- **A row event is read** unless it has no number of a table or one of its rows is spoilt. -/
theorem readRowsEvent_ends_iff {kind : RowsKind} (hkind : rowsKindForType evType = some kind)
    (body : Slice) :
    (∃ fuel, (readRowsEvent ctx fuel evType body).Ended) ↔
      ¬RowsEventSpoils ctx evType kind body := by
  rw [RowsEventSpoils]
  by_cases hshort : body.bytes.length < 6
  · refine iff_of_false ?_ (not_not.mpr (.inl hshort))
    rintro ⟨fuel, hended⟩
    have hslice := (ended_slice.mp (ended_bind.mp hended).1).2
    omega
  · have hslice : (slice body.bytes 0 6 : Ran DecodeError _) = .done (body.bytes.take 6) :=
      slice_eq (by decide) (by omega)
    rw [or_iff_right hshort]
    cases hregistered : ctx.registered (Encoding.littleEndian (body.bytes.take 6)) with
    | none =>
      refine iff_of_true ⟨0, ?_⟩ ?_
      · rw [readRowsEvent, hslice, done_bind]
        dsimp only
        rw [hregistered]
        trivial
      · rintro ⟨table, p, htable, -⟩
        cases htable
    | some table =>
      have hrun : ∀ fuel, (readRowsEvent ctx fuel evType body).Ended ↔
          (parseRows ctx.serde fuel evType table.columns body).Ended := by
        intro fuel
        rw [readRowsEvent, hslice, done_bind]
        dsimp only
        rw [hregistered]
        exact ended_map
      rw [exists_congr hrun, parseRows_ends_iff ctx.serde hkind]
      refine not_congr ⟨?_, ?_⟩
      · rintro ⟨p, h⟩
        exact ⟨table, p, rfl, h⟩
      · rintro ⟨table', p, htable, h⟩
        cases htable
        exact ⟨p, h⟩

/-- Nothing is wrong with an event that is neither a rotate nor a table map nor has rows. -/
theorem not_eventSpoils (body : Slice) (hrotate : evType ≠ 4) (hmap : evType ≠ 19)
    (hkind : rowsKindForType evType = none) : ¬EventSpoils ctx evType body := by
  unfold EventSpoils
  split
  · exact absurd rfl hrotate
  · exact absurd rfl hmap
  · rintro ⟨kind, hsome, -⟩
    cases hkind.symm.trans hsome

/-- **An event is read** unless something is wrong with it. -/
theorem readEvent_ends_iff {ev : Slice} (hev : headerLen ≤ ev.bytes.length) (evType : ℕ)
    (body : Slice) :
    (∃ fuel, (readEvent ctx fuel evType ev body).Ended) ↔ ¬EventSpoils ctx evType body := by
  unfold readEvent
  split
  · refine iff_of_true ⟨0, ended_decoded.mpr ?_⟩
      (not_eventSpoils ctx body (by decide) (by decide) rfl)
    rw [slice_eq hev le_rfl, done_bind]
    exact ended_map.mpr (ended_parseFde _)
  · refine (exists_const ℕ).trans (ended_decoded.trans (ended_map.trans ?_))
    exact ended_parseRotate body
  · exact iff_of_true ⟨0, ended_decoded.mpr (ended_map.mpr (ended_parseQuery body))⟩
      (not_eventSpoils ctx body (by decide) (by decide) rfl)
  · refine iff_of_true ⟨0, ?_⟩ (not_eventSpoils ctx body (by decide) (by decide) rfl)
    split
    · exact ended_decoded.mpr (ended_map.mpr (ended_parseMysqlGtid body.bytes))
    · trivial
  · refine iff_of_true ⟨0, ?_⟩ (not_eventSpoils ctx body (by decide) (by decide) rfl)
    split
    · exact ended_decoded.mpr (ended_map.mpr (ended_parseMariaGtid body.bytes))
    · trivial
  · refine iff_of_true ⟨0, ?_⟩ (not_eventSpoils ctx body (by decide) (by decide) rfl)
    split <;> trivial
  · refine iff_of_true ⟨0, ?_⟩ (not_eventSpoils ctx body (by decide) (by decide) rfl)
    split <;> trivial
  · exact iff_of_true ⟨0, trivial⟩ (not_eventSpoils ctx body (by decide) (by decide) rfl)
  · exact iff_of_true ⟨0, trivial⟩ (not_eventSpoils ctx body (by decide) (by decide) rfl)
  · exact (exists_congr fun fuel => ended_decoded.trans ended_map).trans
      (checkedTableMap_ends_iff body)
  · exact iff_of_true ⟨0, trivial⟩ (not_eventSpoils ctx body (by decide) (by decide) rfl)
  · next hrotate _ _ _ _ _ _ _ hmap _ =>
    cases hkind : rowsKindForType evType with
    | none => exact iff_of_true ⟨0, trivial⟩ (not_eventSpoils ctx body hrotate hmap hkind)
    | some kind =>
      have hspoils : EventSpoils ctx evType body ↔ RowsEventSpoils ctx evType kind body := by
        unfold EventSpoils
        split
        · exact absurd rfl hrotate
        · exact absurd rfl hmap
        · refine ⟨?_, fun h => ⟨kind, hkind, h⟩⟩
          rintro ⟨kind', hkind', h⟩
          cases hkind.symm.trans hkind'
          exact h
      rw [hspoils, ← readRowsEvent_ends_iff ctx hkind]
      exact exists_congr fun fuel => ended_decoded

variable {pkt : Slice}

/-- A packet without a byte is sliced from its second one on. -/
theorem not_readToEnd_of_empty (hempty : pkt.bytes = []) : ¬ReadToEnd ctx pkt := by
  rintro ⟨fuel, hended⟩
  have hslice : (slice pkt.bytes 1 pkt.bytes.length : Ran StreamError _).Ended := by
    rw [readPacket, if_neg (by rw [hempty]; exact fun h => by cases h)] at hended
    exact (ended_bind.mp hended).1
  rw [hempty] at hslice
  exact hslice

/-- A packet without an event is skipped, or refused. -/
theorem readToEnd_of_no_event (hne : pkt.bytes ≠ []) (hevent : eventOf ctx.checksumLen pkt = none) :
    ReadToEnd ctx pkt := by
  have hpos := List.length_pos_iff.mpr hne
  refine ⟨0, ?_⟩
  rw [readPacket]
  split
  · trivial
  · next herror =>
    have hstop : (pkt.part 1 (pkt.bytes.length - 1)).bytes.length - ctx.checksumLen < headerLen := by
      by_contra hle
      exact absurd ((if_neg (not_or.mpr ⟨herror, hle⟩)).symm.trans hevent) (by intro h; cases h)
    rw [slice_eq (by omega) le_rfl, done_bind]
    dsimp only
    by_cases hshort : (pkt.part 1 (pkt.bytes.length - 1)).bytes.length < headerLen
    · rw [parseHeader_short hshort]
      trivial
    · obtain ⟨header, hheader, -⟩ := parseHeader_eq (Nat.not_lt.mp hshort)
      have hbody : eventBody (pkt.part 1 (pkt.bytes.length - 1)) header.eventType ctx.checksumLen =
          .failed _ := if_neg (Nat.not_le.mpr hstop)
      rw [hheader]
      change (eventBody _ _ _ >>= _ : Ran StreamError _).Ended
      rw [hbody]
      trivial

/-- A packet with an event is read if its event is. -/
theorem readToEnd_of_event {p : ℕ × Slice} (hevent : eventOf ctx.checksumLen pkt = some p) :
    ReadToEnd ctx pkt ↔ ¬EventSpoils ctx p.1 p.2 := by
  obtain ⟨hnone, hsome⟩ := Option.ite_none_left_eq_some.mp hevent
  obtain ⟨herror, hstop⟩ := not_or.mp hnone
  have hlength : (pkt.part 1 (pkt.bytes.length - 1)).bytes.length = pkt.bytes.length - 1 := by
    rw [Slice.part, List.length_take, List.length_drop, Nat.min_self]
  have hlong : headerLen ≤ (pkt.part 1 (pkt.bytes.length - 1)).bytes.length := by omega
  have hheaderLen : headerLen = 19 := rfl
  obtain ⟨header, hheader, htype⟩ := parseHeader_eq hlong
  have hbody : eventBody (pkt.part 1 (pkt.bytes.length - 1)) header.eventType ctx.checksumLen =
      .done p.2 := (if_pos (Nat.not_lt.mp hstop)).trans (by cases hsome; rfl)
  have htype : header.eventType = p.1 := htype.trans (by cases hsome; rfl)
  have hread : ∀ fuel, (readPacket ctx fuel pkt).Ended ↔
      (readEvent ctx fuel p.1 (pkt.part 1 (pkt.bytes.length - 1)) p.2).Ended := by
    intro fuel
    rw [readPacket, if_neg herror, slice_eq (by omega) le_rfl, done_bind]
    dsimp only
    rw [hheader]
    change (eventBody _ _ _ >>= _ : Ran StreamError _).Ended ↔ _
    rw [hbody, done_bind, ended_map, htype]
  exact (exists_congr hread).trans (readEvent_ends_iff ctx hlong p.1 p.2)

/-- **A packet is read to an end** exactly if nothing is wrong with it. -/
theorem readToEnd_iff (pkt : Slice) : ReadToEnd ctx pkt ↔ ¬PacketSpoils ctx pkt := by
  by_cases hempty : pkt.bytes = []
  · exact iff_of_false (not_readToEnd_of_empty ctx hempty) (not_not.mpr (.inl hempty))
  rw [PacketSpoils, or_iff_right hempty]
  cases hevent : eventOf ctx.checksumLen pkt with
  | none =>
    refine iff_of_true (readToEnd_of_no_event ctx hempty hevent) ?_
    rintro ⟨p, hp, -⟩
    cases hp
  | some p =>
    rw [readToEnd_of_event ctx hevent]
    refine not_congr ⟨fun h => ⟨p, rfl, h⟩, ?_⟩
    rintro ⟨p', hp', h⟩
    cases hp'
    exact h

/-! ## Packets that are not -/

/-- The table map of a table with a number and a text. -/
def usersMap : List UInt8 :=
  [123, 0, 0, 0, 0, 0, 0, 0, 2, 100, 98, 0, 5, 117, 115, 101, 114, 115, 0, 2, 8, 15, 2, 100, 0, 1]

/-- The table of it. -/
def usersTable : MappedTable where
  columns := [⟨⟨8, [], none⟩, "", false, false⟩, ⟨⟨15, [100, 0], none⟩, "", false, false⟩]
  accepted := ⟨usersMap, ⟨123, "db", "users",
    [⟨⟨8, [], none⟩, "", false, false⟩, ⟨⟨15, [100, 0], none⟩, "", false, false⟩], ⟨[], []⟩⟩, [],
    rfl, rfl⟩

/-- A stream without checksums that has this table. -/
def usersContext : PacketContext where
  serde := .scalars
  tracking := false
  checksumLen := 0
  registered tableId := if tableId = 123 then some usersTable else none

/-- A packet with an event of a type. -/
def packetOf (eventType : UInt8) (body : List UInt8) (h : body.length < 2 ^ 62) : Slice where
  bytes := [0, 0, 0, 0, 0, eventType, 1, 0, 0, 0, 0, 0, 0, 0, 0, 0, 0, 0, 0, 0] ++ body
  fits := by
    simp only [List.length_append, List.length_cons, List.length_nil]
    omega

/-- A packet without a byte panics, so does a rotate to a file of a short name with a NUL behind it;
and rows of no columns are read for ever. -/
theorem packets_not_readToEnd :
    ¬ReadToEnd usersContext ⟨[], by decide⟩ ∧
    ¬ReadToEnd usersContext (packetOf 4 [4, 0, 0, 0, 0, 0, 0, 0, 98, 46, 49, 0] (by decide)) ∧
    ¬ReadToEnd usersContext
      (packetOf 30 [123, 0, 0, 0, 0, 0, 0, 0, 2, 0, 0, 7] (by decide)) := by
  refine ⟨not_readToEnd_of_empty usersContext rfl, ?_, ?_⟩
  · rw [readToEnd_of_event usersContext rfl, not_not]
    exact ⟨by decide, by decide⟩
  · rw [readToEnd_of_event usersContext rfl, not_not]
    -- the reader of the rows does not move
    refine ⟨.write, rfl, .inr ⟨usersTable, _, rfl, rfl, ?_⟩⟩
    exact ⟨_, .refl, by decide, .inr rfl⟩

end MySql

end Pg2osync
