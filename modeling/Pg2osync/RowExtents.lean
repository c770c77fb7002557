import Pg2osync.Packets
import Pg2osync.ValueExtents

/-!
# Where the rows of an event end

Values follow each other, so where an image ends and whether one of its values is spoilt follows
from where they begin; and rows follow each other until no bytes are left. A row that takes no bytes
is read for ever.
-/

namespace Pg2osync

namespace MySql

/-! ## Images -/

/-- The columns of an image that have a value in it, where `nth` are ahead of them. -/
def valued (present nullBmp : List UInt8) : List TableMapColumn → ℕ → ℕ → List TableMapColumn
  | [], _, _ => []
  | c :: columns, i, nth =>
    if bmpBit present i then
      if bmpBit nullBmp nth then valued present nullBmp columns (i + 1) (nth + 1)
      else c :: valued present nullBmp columns (i + 1) (nth + 1)
    else valued present nullBmp columns (i + 1) nth

variable {b : Slice}

/-- The reader behind some values. -/
def skipValues : List TableMapColumn → Reader b → Option (Reader b)
  | [], r => some r
  | c :: columns, r => ((extentOf c.typeCode c.metadata).skip r).bind (skipValues columns)

/-- The columns that an image has a value of, and the reader ahead of the first. -/
def imageValued (columns : List TableMapColumn) (ncols : ℕ) (present : List UInt8)
    (r : Reader b) : Option (List TableMapColumn × Reader b) :=
  let size := bitmapLen (presentCount ncols present)
  (r.skip size).map fun r' => (valued present (r.peek size) columns 0 0, r')

/-- The reader behind an image. -/
def skipImage (columns : List TableMapColumn) (ncols : ℕ) (present : List UInt8)
    (r : Reader b) : Option (Reader b) :=
  (imageValued columns ncols present r).bind fun p => skipValues p.1 p.2

/-- The reader behind a row. -/
def skipRow (columns : List TableMapColumn) (kind : RowsKind) (head : RowsHead) (r : Reader b) :
    Option (Reader b) :=
  (if kind = .update then skipImage columns head.ncols head.before r else some r).bind
    (skipImage columns head.ncols head.after)

variable (serde : SerdeJson)

/-- One of some values is spoilt, and those ahead of it are not cut off. -/
def ValuesSpoil : List TableMapColumn → Reader b → Prop
  | [], _ => False
  | c :: columns, r => Spoils serde c.typeCode c.metadata r ∨
      ∃ r', (extentOf c.typeCode c.metadata).skip r = some r' ∧ ValuesSpoil columns r'

/-- A value of an image is spoilt. -/
def ImageSpoils (columns : List TableMapColumn) (ncols : ℕ) (present : List UInt8)
    (r : Reader b) : Prop :=
  ∃ p, imageValued columns ncols present r = some p ∧ ValuesSpoil serde p.1 p.2

/-- A value of a row is spoilt. -/
def RowSpoils (columns : List TableMapColumn) (kind : RowsKind) (head : RowsHead)
    (r : Reader b) : Prop :=
  (kind = .update ∧ ImageSpoils serde columns head.ncols head.before r) ∨
    ∃ r', (if kind = .update then skipImage columns head.ncols head.before r else some r) =
      some r' ∧ ImageSpoils serde columns head.ncols head.after r'

/-- A row is begun behind another one. -/
def Behind (columns : List TableMapColumn) (kind : RowsKind) (head : RowsHead)
    (r r' : Reader b) : Prop :=
  0 < r.restLen ∧ skipRow columns kind head r = some r'

/-- From here, a row is come to that takes no bytes or has a value that is spoilt. -/
def RowsSpoil (columns : List TableMapColumn) (kind : RowsKind) (head : RowsHead)
    (r : Reader b) : Prop :=
  ∃ r', Relation.ReflTransGen (Behind columns kind head) r r' ∧ 0 < r'.restLen ∧
    (RowSpoils serde columns kind head r' ∨ skipRow columns kind head r' = some r')

/-! ## What is behind is further on -/

variable {r r' : Reader b}

theorem Extent.le_of_skip {e : Extent} (h : e.skip r = some r') : r.pos ≤ r'.pos := by
  cases e with
  | unread => cases h
  | fixed n =>
    have := Reader.skip_eq_some.mp h
    omega
  | counted n =>
    obtain ⟨r₁, h₁, h₂⟩ := Option.bind_eq_some_iff.mp h
    have := Reader.skip_eq_some.mp h₁
    have := Reader.skip_eq_some.mp h₂
    omega

variable {columns : List TableMapColumn}

theorem le_of_skipValues (h : skipValues columns r = some r') : r.pos ≤ r'.pos := by
  induction columns generalizing r with
  | nil =>
    cases h
    exact le_rfl
  | cons c columns ih =>
    obtain ⟨r₁, h₁, h₂⟩ := Option.bind_eq_some_iff.mp h
    exact (Extent.le_of_skip h₁).trans (ih h₂)

theorem le_of_skipImage {ncols : ℕ} {present : List UInt8}
    (h : skipImage columns ncols present r = some r') : r.pos ≤ r'.pos := by
  obtain ⟨p, hp, h₂⟩ := Option.bind_eq_some_iff.mp h
  obtain ⟨r₁, h₁, rfl⟩ := Option.map_eq_some_iff.mp hp
  have := Reader.skip_eq_some.mp h₁
  exact (Nat.le.intro this.symm).trans (le_of_skipValues h₂)

theorem le_of_skipRow {kind : RowsKind} {head : RowsHead}
    (h : skipRow columns kind head r = some r') : r.pos ≤ r'.pos := by
  obtain ⟨r₁, h₁, h₂⟩ := Option.bind_eq_some_iff.mp h
  refine le_trans ?_ (le_of_skipImage h₂)
  split at h₁
  · exact le_of_skipImage h₁
  · cases h₁
    exact le_rfl

/-! ## The readers -/

open Checked

variable {fuel : ℕ}

/-- Nothing goes wrong with one part nor behind it. -/
theorem not_or_behind {p : Prop} {next : Option (Reader b)} {q : Reader b → Prop} :
    (¬p ∧ ∀ r', next = some r' → ¬q r') ↔ ¬(p ∨ ∃ r', next = some r' ∧ q r') := by
  rw [not_or, not_exists]
  exact and_congr_right fun _ => forall_congr' fun r' => not_and.symm

theorem meets_imageValues (present nullBmp : List UInt8) (columns : List TableMapColumn)
    (i nth : ℕ) (r : Reader b) :
    Ran.Meets (Enough serde b fuel) (imageValues serde fuel present nullBmp columns i nth) r
      (¬ValuesSpoil serde (valued present nullBmp columns i nth) r)
      (skipValues (valued present nullBmp columns i nth) r) := by
  induction columns generalizing i nth r with
  | nil => exact (Ran.Meets.of_done rfl).congr (iff_of_true trivial id)
  | cons c columns ih =>
    rw [imageValues, valued]
    split
    · split
      · exact .map (ih (i + 1) (nth + 1) r) _
      · have hvalue : Ran.Meets (Enough serde b fuel)
            (decodeValueInner serde fuel c.typeCode c.metadata c.unsigned c.shape) r
            (¬Spoils serde c.typeCode c.metadata r) ((extentOf c.typeCode c.metadata).skip r) :=
          meets_decodeValueInner serde c.typeCode c.metadata c.unsigned c.shape r
        have hbind := hvalue.bind fun v r' _ => (ih (i + 1) (nth + 1) r').map (some v :: ·)
        exact hbind.congr not_or_behind
    · exact .map (ih (i + 1) nth r) _

theorem countP_le (ncols : ℕ) (present : List UInt8) : presentCount ncols present ≤ ncols :=
  List.countP_le_length.trans_eq List.length_range

theorem meets_readImage (columns : List TableMapColumn) {ncols : ℕ} (hncols : ncols < 2 ^ 64)
    (present : List UInt8) (r : Reader b) :
    Ran.Meets (Enough serde b fuel) (readImage serde fuel columns ncols present) r
      (¬ImageSpoils serde columns ncols present r) (skipImage columns ncols present r) := by
  have hcount := countP_le ncols present
  have hsize : bitmapLen (presentCount ncols present) < 2 ^ 63 := by
    rw [bitmapLen]
    omega
  have hbind : Ran.Meets (Enough serde b fuel) (readImage serde fuel columns ncols present) r
      (True ∧ ∀ r', r.skip (bitmapLen (presentCount ncols present)) = some r' →
        ¬ValuesSpoil serde (valued present (r.peek (bitmapLen (presentCount ncols present)))
          columns 0 0) r')
      ((r.skip (bitmapLen (presentCount ncols present))).bind (skipValues
        (valued present (r.peek (bitmapLen (presentCount ncols present))) columns 0 0))) := by
    refine .bind (meets_take_of_lt _ hsize r) fun nullBmp r' htake => ?_
    obtain ⟨-, rfl⟩ := take_done htake
    exact meets_imageValues serde present _ columns 0 0 r'
  have hnext : skipImage columns ncols present r =
      (r.skip (bitmapLen (presentCount ncols present))).bind (skipValues
        (valued present (r.peek (bitmapLen (presentCount ncols present))) columns 0 0)) :=
    Option.bind_map ..
  rw [hnext]
  refine hbind.congr ⟨?_, fun hnot => ⟨trivial, fun r' hskip hspoil => ?_⟩⟩
  · rintro ⟨-, h⟩ ⟨p, hp, hspoil⟩
    obtain ⟨r', hskip, rfl⟩ := Option.map_eq_some_iff.mp hp
    exact h r' hskip hspoil
  · exact hnot ⟨_, Option.map_eq_some_iff.mpr ⟨r', hskip, rfl⟩, hspoil⟩

theorem meets_readRow (columns : List TableMapColumn) (kind : RowsKind) {head : RowsHead}
    (hncols : head.ncols < 2 ^ 64) (r : Reader b) :
    Ran.Meets (Enough serde b fuel) (readRow serde fuel columns kind head) r
      (¬RowSpoils serde columns kind head r) (skipRow columns kind head r) := by
  have hafter : ∀ (before : Option Image) r', Ran.Meets (Enough serde b fuel)
      (do return RowsRow.mk before (some (← readImage serde fuel columns head.ncols head.after))) r'
      (¬ImageSpoils serde columns head.ncols head.after r')
      (skipImage columns head.ncols head.after r') := fun before r' =>
    .map (meets_readImage serde columns hncols head.after r') _
  rw [readRow, skipRow, RowSpoils]
  by_cases hkind : kind = .update
  · rw [if_pos hkind, if_pos hkind]
    have hbefore : Ran.Meets (Enough serde b fuel) (some <$> readImage serde fuel columns
        head.ncols head.before) r (¬ImageSpoils serde columns head.ncols head.before r)
        (skipImage columns head.ncols head.before r) :=
      (meets_readImage serde columns hncols head.before r).map some
    have hbind := hbefore.bind fun before r' _ => hafter before r'
    refine hbind.congr (not_or_behind.trans (not_congr ?_))
    rw [and_iff_right hkind]
  · rw [if_neg hkind, if_neg hkind]
    refine (hafter none r).congr (not_congr ?_)
    refine ⟨fun h => .inr ⟨r, rfl, h⟩, ?_⟩
    rintro (⟨h, -⟩ | ⟨r', heq, h⟩)
    · exact absurd h hkind
    · cases heq
      exact h

/-! ## All rows -/

variable {columns : List TableMapColumn} {kind : RowsKind} {head : RowsHead}

/-- Rows that are read to the end have no row that is spoilt. -/
theorem not_rowsSpoil_of_ended (hncols : head.ncols < 2 ^ 64) {left : ℕ} {r : Reader b}
    (h : (readRows serde fuel columns kind head left r).Ended) :
    ¬RowsSpoil serde columns kind head r := by
  induction left generalizing r with
  | zero => exact absurd h id
  | succ left ih =>
    rintro ⟨r', hbehind, hpos, hspoil⟩
    rw [readRows] at h
    split at h
    · next hempty =>
      -- nothing is behind the end
      obtain rfl | ⟨r₁, ⟨hpos₁, -⟩, -⟩ := Relation.ReflTransGen.cases_head hbehind
      · omega
      · omega
    · next hrest =>
      have hmeets : Ran.Meets (Enough serde b fuel) (readRow serde fuel columns kind head) r _ _ :=
        meets_readRow serde columns kind hncols r
      have hended : ((readRow serde fuel columns kind head).run r).Ended ∧
          ∀ row r₁, (readRow serde fuel columns kind head).run r = .done (row, r₁) →
            (readRows serde fuel columns kind head left r₁).Ended := by
        split at h
        · exact absurd h id
        · exact absurd h id
        · next hrun => exact ⟨by rw [hrun]; trivial, fun _ _ heq => by cases hrun.symm.trans heq⟩
        · next hrun => exact ⟨by rw [hrun]; trivial, fun _ _ heq => by cases hrun.symm.trans heq⟩
        · next hrun =>
          refine ⟨by rw [hrun]; trivial, fun _ _ heq => ?_⟩
          cases hrun.symm.trans heq
          exact (Ran.ended_bind.mp h).1
      have hrow := hmeets.ok_of_ended hended.1
      have hnext : ∀ r₁, skipRow columns kind head r = some r₁ →
          (readRows serde fuel columns kind head left r₁).Ended := by
        intro r₁ hskip
        obtain ⟨row, hrun⟩ := hmeets.exists_done hended.1 hskip
        exact hended.2 row r₁ hrun
      obtain rfl | ⟨r₁, ⟨-, hskip⟩, hrest⟩ := Relation.ReflTransGen.cases_head hbehind
      · obtain hspoil | hsame := hspoil
        · exact hrow hspoil
        · exact ih (hnext _ hsame) ⟨r, .refl, hpos, .inr hsame⟩
      · exact ih (hnext _ hskip) ⟨r', hrest, hpos, hspoil⟩

/-- Rows of which none is spoilt are read to the end. -/
theorem ended_readRows (henough : Enough serde b fuel) (hncols : head.ncols < 2 ^ 64) {left : ℕ}
    {r : Reader b} (hleft : r.restLen < left) (h : ¬RowsSpoil serde columns kind head r) :
    (readRows serde fuel columns kind head left r).Ended := by
  induction left generalizing r with
  | zero => exact absurd hleft (Nat.not_lt_zero _)
  | succ left ih =>
    rw [readRows]
    split
    · trivial
    · next hrest =>
      have hpos : 0 < r.restLen := Nat.pos_of_ne_zero hrest
      have hmeets : Ran.Meets (Enough serde b fuel) (readRow serde fuel columns kind head) r _ _ :=
        meets_readRow serde columns kind hncols r
      have hend := hmeets.ended henough fun hspoil => h ⟨r, .refl, hpos, .inl hspoil⟩
      split
      · next hrun => exact absurd (by rwa [hrun] at hend) id
      · next hrun => exact absurd (by rwa [hrun] at hend) id
      · trivial
      · trivial
      · next row r₁ hrun =>
        have hskip := hmeets.done hrun
        have hle := le_of_skipRow hskip
        have hne : r₁ ≠ r := by
          rintro rfl
          exact h ⟨r₁, .refl, hpos, .inr hskip⟩
        have hbehind : ¬RowsSpoil serde columns kind head r₁ := by
          rintro ⟨r', hr', hpos', hspoil⟩
          exact h ⟨r', .head ⟨hpos, hskip⟩ hr', hpos', hspoil⟩
        have hlt : r.pos < r₁.pos := lt_of_le_of_ne hle fun heq => hne (Reader.ext heq.symm)
        have hshorter : r₁.restLen < left := by
          have := r₁.le
          simp only [Reader.restLen] at hleft hpos ⊢
          omega
        exact Ran.ended_bind.mpr ⟨ih hshorter hbehind, fun _ _ => trivial⟩

end MySql

end Pg2osync
