import Pg2osync.EncodedValues
import Pg2osync.RowExtents

/-!
# The bytes of rows

What the server writes of the changes to a table: ahead of the rows, which columns they have, as
one bit a column; of each row, which of these columns are NULL, as one bit for each that the row
has, and then the values. An update has each row twice. There is no count of the rows.
-/

namespace Pg2osync

namespace MySql

/-! ## What the server writes -/

/-- The bits from one on are these, the low one of a byte first. -/
def BitsFrom (bitmap : List UInt8) : ℕ → List Bool → Prop
  | _, [] => True
  | i, bit :: bits =>
    (bitmap.getD (i / 8) 0).toNat.testBit (i % 8) = bit ∧ BitsFrom bitmap (i + 1) bits

/-- Some bits in as few bytes as hold them. It does not matter what is behind them. -/
def IsBitmap (bits : List Bool) (bitmap : List UInt8) : Prop :=
  bitmap.length = (bits.length + 7) / 8 ∧ BitsFrom bitmap 0 bits

/-- A count, in as many bytes as it takes. -/
def lenencBytes (n : ℕ) : List UInt8 :=
  if n < 251 then Encoding.toLittleEndian 1 n
  else if n < 2 ^ 16 then 0xFC :: Encoding.toLittleEndian 2 n
  else if n < 2 ^ 24 then 0xFD :: Encoding.toLittleEndian 3 n
  else 0xFE :: Encoding.toLittleEndian 8 n

/-- What a row has in a column. -/
inductive StoredCell : Type where
  /-- the row does not have the column -/
  | absent : StoredCell
  /-- NULL -/
  | null : StoredCell
  /-- a value, and its bytes -/
  | value (v : Json) (bytes : List UInt8) : StoredCell

namespace StoredCell

/-- Whether the row has the column. -/
def present : StoredCell → Bool
  | absent => false
  | null | value _ _ => true

/-- Whether it is NULL. -/
def isNull : StoredCell → Bool
  | null => true
  | absent | value _ _ => false

/-- Its bytes. -/
def bytes : StoredCell → List UInt8
  | absent | null => []
  | value _ bytes => bytes

/-- What is to be read. -/
def read : StoredCell → Option Json
  | absent => none
  | null => some .null
  | value v _ => some v

/-- It can be in a column. -/
def Fits (serde : SerdeJson) (c : TableMapColumn) : StoredCell → Prop
  | absent | null => True
  | value v bytes => Encodes serde c v bytes

end StoredCell

/-- Of the columns that a row has, which are NULL. -/
def nullBits (row : List StoredCell) : List Bool :=
  (row.filter StoredCell.present).map StoredCell.isNull

/-- A row with some columns, and its bytes. -/
structure IsImage (serde : SerdeJson) (columns : List TableMapColumn) (present : List Bool)
    (row : List StoredCell) (bytes : List UInt8) : Prop where
  /-- there is a cell for each column -/
  fits : List.Forall₂ (StoredCell.Fits serde) columns row
  /-- the row has these columns -/
  present_eq : row.map StoredCell.present = present
  /-- the bits of those that are NULL, and then the values -/
  bytes_eq : ∃ bitmap, IsBitmap (nullBits row) bitmap ∧
    bytes = bitmap ++ row.flatMap StoredCell.bytes

/-- A change to a row. -/
inductive RowChange : RowsKind → Type where
  /-- it is new -/
  | inserted (new : List StoredCell) : RowChange .write
  /-- it was this, and is that -/
  | updated (old new : List StoredCell) : RowChange .update
  /-- it is gone -/
  | deleted (old : List StoredCell) : RowChange .delete

/-- What is to be read of a change. A row that is gone is where one is that is new. -/
def RowChange.read : {kind : RowsKind} → RowChange kind → RowsRow
  | _, inserted new => ⟨none, some (new.map StoredCell.read)⟩
  | _, updated old new => ⟨some (old.map StoredCell.read), some (new.map StoredCell.read)⟩
  | _, deleted old => ⟨none, some (old.map StoredCell.read)⟩

/-- The changes of a row event, and what is ahead of them. -/
structure RowsEvent : Type where
  /-- its type -/
  evType : ℕ
  /-- what it says has become of the rows -/
  kind : RowsKind
  kind_eq : rowsKindForType evType = some kind
  /-- the number of the table -/
  tableId : ℕ
  tableId_lt : tableId < 256 ^ 6
  /-- the flags -/
  flags : ℕ
  flags_lt : flags < 256 ^ 2
  /-- what the second version of the events has besides -/
  extra : List UInt8
  extra_lt : extra.length + 2 < 256 ^ 2
  /-- the columns of the table -/
  columns : List TableMapColumn
  columns_lt : columns.length < 2 ^ 64
  /-- which of them the rows have as they were -/
  old : List Bool
  old_length : old.length = columns.length
  /-- and as they are -/
  new : List Bool
  new_length : new.length = columns.length
  /-- the changes -/
  changes : List (RowChange kind)

namespace RowsEvent

variable (e : RowsEvent)

/-- The bytes that say which columns the rows have. -/
def IsPresence (bytes : List UInt8) : Prop :=
  match e.kind with
  | .write => IsBitmap e.new bytes
  | .update => ∃ old new, IsBitmap e.old old ∧ IsBitmap e.new new ∧ bytes = old ++ new
  | .delete => IsBitmap e.old bytes

/-- The bytes ahead of the rows. -/
def IsHead (bytes : List UInt8) : Prop :=
  ∃ presence, e.IsPresence presence ∧
    bytes = Encoding.toLittleEndian 6 e.tableId ++ (Encoding.toLittleEndian 2 e.flags ++
      ((if e.evType ∈ [30, 31, 32] then
        Encoding.toLittleEndian 2 (e.extra.length + 2) ++ e.extra else []) ++
      (lenencBytes e.columns.length ++ presence)))

/-- The bytes of a change. -/
def IsChange (serde : SerdeJson) (e : RowsEvent) :
    {kind : RowsKind} → RowChange kind → List UInt8 → Prop
  | _, .inserted new, bytes => IsImage serde e.columns e.new new bytes
  | _, .updated old new, bytes => ∃ oldBytes newBytes,
      IsImage serde e.columns e.old old oldBytes ∧ IsImage serde e.columns e.new new newBytes ∧
      bytes = oldBytes ++ newBytes
  | _, .deleted old, bytes => IsImage serde e.columns e.old old bytes

/-- Which columns the rows have that are ahead in their changes. -/
def present : List Bool :=
  match e.kind with
  | .write => e.new
  | .update | .delete => e.old

end RowsEvent

/-! ## Bits -/

theorem BitsFrom.countP {bitmap : List UInt8} {i : ℕ} {bits : List Bool}
    (h : BitsFrom bitmap i bits) :
    (List.range' i bits.length).countP (bmpBit bitmap) = bits.count true := by
  induction bits generalizing i with
  | nil => rfl
  | cons bit bits ih =>
    obtain ⟨hbit, hbits⟩ := h
    have hhead : bmpBit bitmap i = bit := hbit
    rw [List.length_cons, List.range'_succ, List.countP_cons, ih hbits, hhead, List.count_cons]
    cases bit <;> rfl

/-- As many columns are present as bits are set. -/
theorem IsBitmap.presentCount_eq {bits : List Bool} {bitmap : List UInt8}
    (h : IsBitmap bits bitmap) : presentCount bits.length bitmap = bits.count true := by
  rw [presentCount, List.range_eq_range']
  exact h.2.countP

theorem length_nullBits (row : List StoredCell) :
    (nullBits row).length = (row.map StoredCell.present).count true := by
  rw [nullBits, List.length_map, ← List.countP_eq_length_filter, List.count, List.countP_map]
  exact List.countP_congr fun cell _ => by simp

/-! ## What is read of a row -/

open Checked

variable {serde : SerdeJson} {columns : List TableMapColumn} {row : List StoredCell}

/-- The cells of a row are read, each by the bit of its column. -/
theorem takes_imageValues (h : List.Forall₂ (StoredCell.Fits serde) columns row) :
    ∃ enough, ∀ fuel, enough ≤ fuel → ∀ {present nullBmp : List UInt8} {i nth : ℕ},
      BitsFrom present i (row.map StoredCell.present) → BitsFrom nullBmp nth (nullBits row) →
      Takes (fun _ => imageValues serde fuel present nullBmp columns i nth)
        (row.flatMap StoredCell.bytes) (row.map StoredCell.read) := by
  induction h with
  | nil => exact ⟨0, fun fuel _ _ _ _ _ _ _ => .pure _⟩
  | @cons c cell columns row hcell _ ih =>
    obtain ⟨enough, ih⟩ := ih
    cases cell with
    | absent =>
      refine ⟨enough, fun fuel hfuel present nullBmp i nth hpresent hnull => ?_⟩
      have hbit : bmpBit present i = false := hpresent.1
      simp only [imageValues, hbit, Bool.false_eq_true, if_false]
      exact (ih fuel hfuel hpresent.2 hnull).map (none :: ·)
    | null =>
      refine ⟨enough, fun fuel hfuel present nullBmp i nth hpresent hnull => ?_⟩
      have hbit : bmpBit present i = true := hpresent.1
      have hnullBit : bmpBit nullBmp nth = true := hnull.1
      simp only [imageValues, hbit, hnullBit, if_true]
      exact (ih fuel hfuel hpresent.2 hnull.2).map (some Json.null :: ·)
    | value v raw =>
      have hencodes : Encodes serde c v raw := hcell
      obtain ⟨more, hread⟩ := hencodes.read
      refine ⟨max enough more, fun fuel hfuel present nullBmp i nth hpresent hnull => ?_⟩
      have hbit : bmpBit present i = true := hpresent.1
      have hnullBit : bmpBit nullBmp nth = false := hnull.1
      simp only [imageValues, hbit, hnullBit, if_true, Bool.false_eq_true, if_false]
      have hvalue := hread fuel ((Nat.le_max_right _ _).trans hfuel)
      have hrest := (ih fuel ((Nat.le_max_left _ _).trans hfuel) hpresent.2 hnull.2).map
        (some v :: ·)
      exact hvalue.bind (f := fun _ v => _ >>= fun image => pure (some v :: image)) hrest

variable {bytes : List UInt8}

/-- **A row is read**, by the bits of the columns that it has. -/
theorem takes_readImage (hcolumns : columns.length < 2 ^ 64) {present : List Bool}
    (h : IsImage serde columns present row bytes) :
    ∃ enough, ∀ fuel, enough ≤ fuel → ∀ {bitmap : List UInt8}, IsBitmap present bitmap →
      Takes (fun _ => readImage serde fuel columns columns.length bitmap) bytes
        (row.map StoredCell.read) := by
  obtain ⟨hfits, rfl, nullBmp, ⟨hlength, hnull⟩, rfl⟩ := h
  obtain ⟨enough, hread⟩ := takes_imageValues hfits
  refine ⟨enough, fun fuel hfuel bitmap hbitmap => ?_⟩
  have hcount : presentCount columns.length bitmap = (nullBits row).length := by
    rw [length_nullBits, ← hbitmap.presentCount_eq, List.length_map, hfits.length_eq]
  have hsize : nullBmp.length = bitmapLen (presentCount columns.length bitmap) := by
    rw [hlength, hcount, bitmapLen]
  have hle := countP_le columns.length bitmap
  have hlt : bitmapLen (presentCount columns.length bitmap) < 2 ^ 63 := by
    rw [bitmapLen]
    omega
  exact (Takes.take hsize hlt).bind (hread fuel hfuel hbitmap.2 hnull)

/-- What is ahead of the rows is right for them. -/
structure RowsEvent.Heads (e : RowsEvent) (head : RowsHead) : Prop where
  tableId_eq : head.tableId = e.tableId
  ncols_eq : head.ncols = e.columns.length
  after : IsBitmap e.present head.after
  before : e.kind = .update → IsBitmap e.new head.before

variable {head : RowsHead} {e : RowsEvent}

/-- **A change is read.** Of an update, the bits that are ahead are taken for the row as it is, and
those behind for the row as it was; they say the same. -/
theorem takes_readRow (hsame : e.kind = .update → e.old = e.new) (hhead : e.Heads head)
    {change : RowChange e.kind} (h : e.IsChange serde change bytes) :
    ∃ enough, ∀ fuel, enough ≤ fuel →
      Takes (fun _ => readRow serde fuel e.columns e.kind head) bytes change.read := by
  obtain ⟨tableId, ncols, after, before⟩ := head
  obtain ⟨rfl, rfl, hafter, hbefore⟩ := hhead
  obtain ⟨evType, kind, kind_eq, tableId, tableId_lt, flags, flags_lt, extra, extra_lt, columns,
    columns_lt, old, old_length, new, new_length, changes⟩ := e
  cases change with
  | inserted row | deleted row =>
    obtain ⟨enough, hread⟩ := takes_readImage columns_lt h
    exact ⟨enough, fun fuel hfuel => (hread fuel hfuel hafter).map fun row =>
      RowsRow.mk none (some row)⟩
  | updated was is =>
    obtain rfl : old = new := hsame rfl
    obtain ⟨wasBytes, isBytes, hwas, his, rfl⟩ := h
    obtain ⟨enough, hreadWas⟩ := takes_readImage columns_lt hwas
    obtain ⟨more, hreadIs⟩ := takes_readImage columns_lt his
    refine ⟨max enough more, fun fuel hfuel => ?_⟩
    have hfirst := (hreadWas fuel ((Nat.le_max_left _ _).trans hfuel) (hbefore rfl)).map some
    have hsecond := (hreadIs fuel ((Nat.le_max_right _ _).trans hfuel) hafter).map fun row =>
      RowsRow.mk (some (was.map StoredCell.read)) (some row)
    exact hfirst.bind (f := fun _ was => _ >>= fun row => pure (RowsRow.mk was (some row))) hsecond

/-! ## What is read ahead of the rows -/

/-- A count is read in as many bytes as it takes. -/
theorem takes_lenenc {n : ℕ} (h : n < 2 ^ 64) : Takes (fun _ => lenenc) (lenencBytes n) n := by
  have hcode : ∀ code : UInt8, [code] = Encoding.toLittleEndian 1 code.toNat := fun code => by
    rw [Encoding.toLittleEndian, UInt8.ofNat_toNat]
    rfl
  unfold lenencBytes lenenc
  split
  · next hone =>
    rw [← List.append_nil (Encoding.toLittleEndian 1 n)]
    refine (Takes.uint (by omega) (by decide)).bind (.congr (fun b => ?_) (.pure n))
    split <;> first | omega | rfl
  · split
    · next htwo =>
      rw [← List.singleton_append, hcode]
      exact (Takes.uint (by decide) (by decide)).bind (Takes.uint htwo (by decide))
    · split
      · next hthree =>
        rw [← List.singleton_append, hcode]
        exact (Takes.uint (by decide) (by decide)).bind (Takes.uint hthree (by decide))
      · rw [← List.singleton_append, hcode]
        exact (Takes.uint (by decide) (by decide)).bind (Takes.uint h (by decide))

theorem takes_readExtra {evType : ℕ} {extra : List UInt8} (h : extra.length + 2 < 256 ^ 2) :
    Takes (fun _ => readExtra evType) (if evType ∈ [30, 31, 32] then
      Encoding.toLittleEndian 2 (extra.length + 2) ++ extra else []) () := by
  by_cases hversion : evType ∈ [30, 31, 32]
  · simp only [readExtra, if_pos hversion]
    refine (Takes.uint h (by decide)).bind ?_
    exact (Takes.take (Nat.add_sub_cancel _ _).symm (by omega)).map fun _ => ()
  · simp only [readExtra, if_neg hversion]
    exact .pure ()

/-- The bits of the columns, for the rows of every kind. -/
theorem takes_presence (e : RowsEvent) {presence : List UInt8} (h : e.IsPresence presence) :
    ∃ head, e.Heads head ∧ Takes (fun _ => do
      let after ← take (bitmapLen e.columns.length)
      let before ← if e.kind = .update then take (bitmapLen e.columns.length) else pure []
      return RowsHead.mk e.tableId e.columns.length after before) presence head := by
  have hlt : bitmapLen e.columns.length < 2 ^ 63 := by
    have := e.columns_lt
    rw [bitmapLen]
    omega
  have hold : ∀ {bitmap}, IsBitmap e.old bitmap → bitmap.length = bitmapLen e.columns.length :=
    fun h => h.1.trans (by rw [e.old_length, bitmapLen])
  have hnew : ∀ {bitmap}, IsBitmap e.new bitmap → bitmap.length = bitmapLen e.columns.length :=
    fun h => h.1.trans (by rw [e.new_length, bitmapLen])
  rw [RowsEvent.IsPresence] at h
  cases hkind : e.kind with
  | write | delete =>
    rw [hkind] at h
    refine ⟨⟨e.tableId, e.columns.length, presence, []⟩, ⟨rfl, rfl, ?_, fun h => ?_⟩, ?_⟩
    · rw [RowsEvent.present, hkind]
      exact h
    · cases hkind.symm.trans h
    · have hlength : presence.length = bitmapLen e.columns.length := by
        first | exact hnew h | exact hold h
      exact (Takes.take hlength hlt).map fun after => RowsHead.mk _ _ after []
  | update =>
    rw [hkind] at h
    obtain ⟨first, second, hfirst, hsecond, rfl⟩ := h
    refine ⟨⟨e.tableId, e.columns.length, first, second⟩, ⟨rfl, rfl, ?_, fun _ => hsecond⟩, ?_⟩
    · rw [RowsEvent.present, hkind]
      exact hfirst
    · exact (Takes.take (hold hfirst) hlt).bind ((Takes.take (hnew hsecond) hlt).map fun before =>
        RowsHead.mk _ _ first before)

theorem takes_readRowsHead (e : RowsEvent) (h : e.IsHead bytes) :
    ∃ head, e.Heads head ∧ Takes (fun _ => readRowsHead e.evType e.kind) bytes head := by
  obtain ⟨presence, hpresence, rfl⟩ := h
  obtain ⟨head, hhead, hread⟩ := takes_presence e hpresence
  refine ⟨head, hhead, ?_⟩
  refine (Takes.uint e.tableId_lt (by decide)).bind ((Takes.uint e.flags_lt (by decide)).bind ?_)
  exact (takes_readExtra e.extra_lt).bind ((takes_lenenc e.columns_lt).bind hread)

/-! ## All rows -/

/-- The bytes of some changes, which are read one after the other. -/
def Follow (serde : SerdeJson) (e : RowsEvent) (fuel : ℕ) (head : RowsHead)
    (change : RowChange e.kind) (bytes : List UInt8) : Prop :=
  bytes ≠ [] ∧ Takes (fun _ => readRow serde fuel e.columns e.kind head) bytes change.read

/-- Changes are read up to the end, or to one that is cut off. -/
theorem readRows_done {fuel : ℕ} {changes : List (RowChange e.kind)} {rows : List (List UInt8)}
    (h : List.Forall₂ (Follow serde e fuel head) changes rows) {cut : List UInt8}
    (hcut : cut = [] ∨ ∃ change tail, tail ≠ [] ∧ Follow serde e fuel head change (cut ++ tail))
    {left : ℕ} (hleft : changes.length < left) {b : Slice} {r : Reader b}
    (hr : r.rest = rows.flatten ++ cut) :
    readRows serde fuel e.columns e.kind head left r = .done (changes.map RowChange.read) := by
  induction h generalizing left r with
  | nil =>
    obtain _ | left := left
    · exact absurd hleft (Nat.not_lt_zero _)
    rw [readRows]
    split
    · rfl
    · next hrest =>
      have hne : cut ≠ [] := by
        rintro rfl
        rw [← r.length_rest, hr] at hrest
        exact hrest rfl
      obtain ⟨change, tail, htail, -, hread⟩ := hcut.resolve_left hne
      have hfailed : (readRow serde fuel e.columns e.kind head).run r = .failed .eof :=
        hread.cut htail (by rw [hr]; rfl)
      rw [hfailed]
      rfl
  | @cons change bytes changes rows hfirst _ ih =>
    obtain _ | left := left
    · exact absurd hleft (Nat.not_lt_zero _)
    rw [List.flatten_cons, List.append_assoc] at hr
    rw [List.length_cons] at hleft
    obtain ⟨r', hdone, hr'⟩ := hfirst.2.read hr
    have hrest : r.restLen ≠ 0 := by
      have hpos := List.length_pos_of_ne_nil hfirst.1
      rw [← r.length_rest, hr, List.length_append]
      omega
    rw [readRows, if_neg hrest, hdone]
    dsimp only
    rw [ih (Nat.lt_of_succ_lt_succ hleft) hr']
    rfl

/-- A row that has a column has the bits of those that are NULL. -/
theorem IsImage.ne_nil {present : List Bool} (h : IsImage serde columns present row bytes)
    (hpresent : true ∈ present) : bytes ≠ [] := by
  obtain ⟨-, rfl, bitmap, ⟨hlength, -⟩, rfl⟩ := h
  have hpos : 0 < (nullBits row).length := by
    rw [length_nullBits]
    exact List.count_pos_iff.mpr hpresent
  intro hnil
  rw [(List.append_eq_nil_iff.mp hnil).1, List.length_nil] at hlength
  omega

/-- One change or the bytes of one, behind what is ahead of the rows. -/
theorem exists_follow (hsame : e.kind = .update → e.old = e.new) (hpresent : true ∈ e.present)
    (hhead : e.Heads head) {change : RowChange e.kind} (h : e.IsChange serde change bytes) :
    ∃ enough, ∀ fuel, enough ≤ fuel → Follow serde e fuel head change bytes := by
  obtain ⟨enough, hread⟩ := takes_readRow hsame hhead h
  refine ⟨enough, fun fuel hfuel => ⟨?_, hread fuel hfuel⟩⟩
  clear hread hhead hsame
  obtain ⟨evType, kind, kind_eq, tableId, tableId_lt, flags, flags_lt, extra, extra_lt, columns,
    columns_lt, old, old_length, new, new_length, changes⟩ := e
  cases change with
  | inserted row => exact IsImage.ne_nil h hpresent
  | deleted row => exact IsImage.ne_nil h hpresent
  | updated was is =>
    obtain ⟨wasBytes, isBytes, hwas, -, rfl⟩ := h
    exact fun hnil => IsImage.ne_nil hwas hpresent (List.append_eq_nil_iff.mp hnil).1

theorem exists_follows (hsame : e.kind = .update → e.old = e.new) (hpresent : true ∈ e.present)
    (hhead : e.Heads head) {changes : List (RowChange e.kind)} {rows : List (List UInt8)}
    (h : List.Forall₂ (fun change bytes => e.IsChange serde change bytes) changes rows) :
    ∃ enough, ∀ fuel, enough ≤ fuel → List.Forall₂ (Follow serde e fuel head) changes rows := by
  induction h with
  | nil => exact ⟨0, fun _ _ => .nil⟩
  | cons hchange _ ih =>
    obtain ⟨enough, ih⟩ := ih
    obtain ⟨more, hfirst⟩ := exists_follow hsame hpresent hhead hchange
    exact ⟨max enough more, fun fuel hfuel => .cons
      (hfirst fuel ((Nat.le_max_right _ _).trans hfuel))
      (ih fuel ((Nat.le_max_left _ _).trans hfuel))⟩

/-- What the body of an event is: the head, the changes, and the bytes of one that is cut off, if
there is one. -/
def RowsEvent.IsBody (serde : SerdeJson) (e : RowsEvent) (bytes : List UInt8) : Prop :=
  ∃ head rows cut, bytes = head ++ (rows.flatten ++ cut) ∧ e.IsHead head ∧
    List.Forall₂ (fun change bytes => e.IsChange serde change bytes) e.changes rows ∧
    (cut = [] ∨ ∃ (change : RowChange e.kind) (tail : List UInt8), tail ≠ [] ∧
      e.IsChange serde change (cut ++ tail))

/-- **The rows of an event are read**: of every kind and every version, with whatever columns they
have as long as they have one, and an update the same ones as it was and as it is, all changes are
read in their order, value by value; and if the body ends inside one, those that are ahead of it. -/
theorem rows_read (serde : SerdeJson) (e : RowsEvent) (hpresent : true ∈ e.present)
    (hsame : e.kind = .update → e.old = e.new) (b : Slice) (hbody : e.IsBody serde b.bytes) :
    ∃ enough, ∀ fuel, enough ≤ fuel → parseRows serde fuel e.evType e.columns b =
      .done ⟨e.tableId, e.kind, e.changes.map RowChange.read⟩ := by
  obtain ⟨headBytes, rows, cut, hbytes, hhead, hchanges, hcut⟩ := hbody
  obtain ⟨head, hheads, hreadHead⟩ := takes_readRowsHead e hhead
  obtain ⟨enough, hfollow⟩ := exists_follows hsame hpresent hheads hchanges
  obtain ⟨more, hcutFollow⟩ : ∃ more, ∀ fuel, more ≤ fuel → cut = [] ∨ ∃ change tail, tail ≠ [] ∧
      Follow serde e fuel head change (cut ++ tail) := by
    obtain hnil | ⟨change, tail, htail, hchange⟩ := hcut
    · exact ⟨0, fun _ _ => .inl hnil⟩
    · obtain ⟨more, hmore⟩ := exists_follow hsame hpresent hheads hchange
      exact ⟨more, fun fuel hfuel => .inr ⟨change, tail, htail, hmore fuel hfuel⟩⟩
  refine ⟨max (e.changes.length + 1) (max enough more), fun fuel hfuel => ?_⟩
  have hr : (Reader.new b).rest = headBytes ++ (rows.flatten ++ cut) := hbytes
  obtain ⟨r, hrun, hrest⟩ := hreadHead.read hr
  have hrows := readRows_done (hfollow fuel (by omega)) (hcutFollow fuel (by omega))
    (show e.changes.length < fuel by omega) hrest
  have hparse : parseRows serde fuel e.evType e.columns b =
      (readRowsHead e.evType e.kind).run (Reader.new b) >>= fun read => do
        return ⟨read.1.tableId, e.kind,
          ← readRows serde fuel e.columns e.kind read.1 fuel read.2⟩ := by
    rw [parseRows, e.kind_eq]
  rw [hparse, hrun, Ran.done_bind]
  dsimp only
  rw [hrows, hheads.tableId_eq]
  rfl

/-! ## Two counters -/

deriving instance DecidableEq for RowsRow

deriving instance DecidableEq for RowsRowSet

/-- A table of two counters. -/
def counters : List TableMapColumn :=
  [IntegerType.viewsColumn, IntegerType.viewsColumn]

/-- A counter in a row. -/
def counter (n : ℤ) : StoredCell :=
  .value (.int n) (IntegerType.int.image n)

/-- An event of some changes to the table, of the second version. -/
def countersEvent (evType : ℕ) (kind : RowsKind) (kind_eq : rowsKindForType evType = some kind)
    (old new : Bool × Bool) (changes : List (RowChange kind)) : RowsEvent :=
  ⟨evType, kind, kind_eq, 1, by decide, 0, by decide, [], by decide, counters, by decide,
    [old.1, old.2], rfl, [new.1, new.2], rfl, changes⟩

/-- Bytes of which there are few. -/
def few (bytes : List UInt8) (h : bytes.length < 100) : Slice :=
  ⟨bytes, h.trans (by decide)⟩

/-- A row is new. -/
def newCounters : RowsEvent :=
  countersEvent 30 .write rfl (true, true) (true, true) [.inserted [counter 7, .null]]

/-- It is in the body whole, and one byte is there of the next. -/
def newCountersBody : Slice :=
  few [1, 0, 0, 0, 0, 0, 0, 0, 2, 0, 2, 3, 2, 7, 0, 0, 0, 0] (by decide)

/-- The first counter was 7, and the second is 8. -/
def setCounters : RowsEvent :=
  countersEvent 31 .update rfl (true, false) (false, true)
    [.updated [counter 7, .absent] [.absent, counter 8]]

def setCountersBody : Slice :=
  few [1, 0, 0, 0, 0, 0, 0, 0, 2, 0, 2, 1, 2, 0, 7, 0, 0, 0, 0, 8, 0, 0, 0] (by decide)

/-- A row is new of which nothing is said. -/
def noCounters : RowsEvent :=
  countersEvent 30 .write rfl (false, false) (false, false) [.inserted [.absent, .absent]]

def noCountersBody : Slice :=
  few [1, 0, 0, 0, 0, 0, 0, 0, 2, 0, 2, 0] (by decide)

theorem encodes_counter (n : ℤ) (hholds : IntegerType.int.Holds false n)
    (hplain : IntegerType.int.Plain n) :
    (counter n).Fits .scalars IntegerType.viewsColumn :=
  .integer .int false n rfl rfl hholds hplain

theorem newCounters_isBody : newCounters.IsBody .scalars newCountersBody.bytes := by
  have himage : IsImage .scalars counters [true, true] [counter 7, .null]
      (2 :: IntegerType.int.image 7) :=
    ⟨.cons (encodes_counter 7 (by decide) (by decide)) (.cons trivial .nil), rfl, [2],
      ⟨rfl, by decide, by decide, trivial⟩, rfl⟩
  refine ⟨_, [2 :: IntegerType.int.image 7], [0], rfl, ⟨[3], ⟨rfl, by decide, by decide, trivial⟩,
    rfl⟩, .cons himage .nil, .inr ⟨.inserted [counter 8, counter 9],
    IntegerType.int.image 8 ++ IntegerType.int.image 9, by decide, ?_⟩⟩
  exact ⟨.cons (encodes_counter 8 (by decide) (by decide))
    (.cons (encodes_counter 9 (by decide) (by decide)) .nil), rfl, [0],
    ⟨rfl, by decide, by decide, trivial⟩, rfl⟩

/-- The row is read that is there. -/
theorem rows_read_newCounters : ∃ enough, ∀ fuel, enough ≤ fuel →
    parseRows .scalars fuel 30 counters newCountersBody =
      .done ⟨1, .write, [⟨none, some [some (.int 7), some .null]⟩]⟩ :=
  rows_read .scalars newCounters (by decide) (fun h => by cases h) newCountersBody
    newCounters_isBody

/-- A row that is cut off is no error; of an update with other columns as it was and as it is, the
counters are read as each other's; and a row without columns is not read. -/
theorem rows_not_read :
    newCounters.IsBody .scalars newCountersBody.bytes ∧
    parseRows .scalars 9 30 counters newCountersBody =
      .done ⟨1, .write, [⟨none, some [some (.int 7), some .null]⟩]⟩ ∧
    setCounters.IsBody .scalars setCountersBody.bytes ∧
    setCounters.changes.map RowChange.read =
      [⟨some [some (.int 7), none], some [none, some (.int 8)]⟩] ∧
    parseRows .scalars 9 31 counters setCountersBody =
      .done ⟨1, .update, [⟨some [none, some (.int 7)], some [some (.int 8), none]⟩]⟩ ∧
    noCounters.IsBody .scalars noCountersBody.bytes ∧
    noCounters.changes.map RowChange.read = [⟨none, some [none, none]⟩] ∧
    parseRows .scalars 9 30 counters noCountersBody = .done ⟨1, .write, []⟩ := by
  refine ⟨newCounters_isBody, by decide +kernel, ?_, rfl, by decide +kernel, ?_, rfl, rfl⟩
  · refine ⟨_, [0 :: IntegerType.int.image 7 ++ 0 :: IntegerType.int.image 8], [], rfl,
      ⟨[1, 2], ⟨[1], [2], ⟨rfl, by decide, by decide, trivial⟩,
        ⟨rfl, by decide, by decide, trivial⟩, rfl⟩, rfl⟩, .cons ⟨0 :: IntegerType.int.image 7, 0 :: IntegerType.int.image 8, ?_, ?_, rfl⟩
        .nil, .inl rfl⟩
    · exact ⟨.cons (encodes_counter 7 (by decide) (by decide)) (.cons trivial .nil), rfl, [0],
        ⟨rfl, by decide, trivial⟩, rfl⟩
    · exact ⟨.cons trivial (.cons (encodes_counter 8 (by decide) (by decide)) .nil), rfl, [0],
        ⟨rfl, by decide, trivial⟩, rfl⟩
  · refine ⟨_, [[]], [], rfl, ⟨[0], ⟨rfl, by decide, by decide, trivial⟩, rfl⟩,
      .cons ⟨.cons trivial (.cons trivial .nil), rfl, [], ⟨rfl, trivial⟩, rfl⟩ .nil, .inl rfl⟩

end MySql

end Pg2osync
