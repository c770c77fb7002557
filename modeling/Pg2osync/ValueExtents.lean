import Pg2osync.CheckedValues
import Pg2osync.JsonTotality

/-!
# Where a value of the binlog ends

Each type says how many bytes a value takes: a number of them that follows from the metadata, or as
many as a length ahead of it says. So where a value ends is known before it is decoded, and so is
whether that goes wrong: the metadata make the arithmetic leave its range, the length leads to where
no address is, or a document is none that the decoder comes to an end with.
-/

namespace Pg2osync

namespace MySql

open Encoding Ran BinaryJson

/-- How many bytes a value takes. -/
inductive Extent : Type where
  /-- it is of a type that is not read -/
  | unread : Extent
  /-- so many -/
  | fixed (n : ℕ) : Extent
  /-- as many as the number ahead of it says, which takes so many -/
  | counted (n : ℕ) : Extent
  deriving DecidableEq

/-- The reader behind a value. -/
def Extent.skip {b : Slice} : Extent → Reader b → Option (Reader b)
  | unread, _ => none
  | fixed n, r => r.skip n
  | counted n, r => r.skipCounted n

/-- How many bytes the values of a type take. -/
def extentOf (ty : ℕ) (metadata : List UInt8) : Extent :=
  let first := (metadata.headD 0).toNat
  let second := (metadata.getD 1 0).toNat
  match ty with
  | 1 | 13 => .fixed 1
  | 2 => .fixed 2
  | 9 | 10 | 14 => .fixed 3
  | 3 => .fixed 4
  | 8 => .fixed 8
  | 17 => .fixed (4 + (first + 1) / 2)
  | 18 => .fixed (5 + (first + 1) / 2)
  | 19 => .fixed (3 + (first + 1) / 2)
  | 246 => .fixed (decimalSize first second)
  | 15 | 253 => .counted (if first + 256 * second < 256 then 1 else 2)
  | 254 =>
    match (metadata.headD 254).toNat with
    | 247 => .fixed 1
    | 248 => .fixed (min (metadata.getD 1 1).toNat 8)
    | _ => .counted (if 128 ≤ second then 2 else 1)
  | 245 => .counted (min (metadata.headD 4).toNat 8)
  | 249 | 250 | 251 | 252 | 255 => .counted (min (metadata.headD 1).toNat 8)
  | 16 => .fixed (max ((second * 8 + first + 7) / 8) 1)
  | _ => .unread

/-- The metadata are none that the arithmetic of the type is made for: more than six digits behind
the seconds, or more than ten of a time, or a decimal without digits. -/
def Unfit (ty : ℕ) (metadata : List UInt8) : Prop :=
  let first := (metadata.headD 0).toNat
  match ty with
  | 17 | 18 => 6 < first
  | 19 => 10 < first
  | 246 => first = 0 ∧ (metadata.getD 1 0).toNat = 0
  | _ => False

/-- A document with which the decoder comes to an end. -/
def DocumentEnds (serde : SerdeJson) : List UInt8 → Prop
  | [] => True
  | typeCode :: data =>
    ∀ m, Visits serde (typeCode.toNat, data) m → ¬NoDigits m ∧ ¬Circular serde m

/-- What is wrong with a value of a type, where a reader stands ahead of it. -/
def Spoils (serde : SerdeJson) {b : Slice} (ty : ℕ) (metadata : List UInt8) (r : Reader b) : Prop :=
  match extentOf ty metadata with
  | .unread => False
  | .fixed n => (r.skip n).isSome ∧ Unfit ty metadata
  | .counted n => r.Overlong n ∨ ty = 245 ∧ ∃ r', r.skip n = some r' ∧
      (r'.skip (r.number n)).isSome ∧ ¬DocumentEnds serde (r'.peek (r.number n))

/-- So many steps are enough for all documents in some bytes with which the decoder comes to an
end. -/
def Enough (serde : SerdeJson) (b : Slice) (fuel : ℕ) : Prop :=
  ∀ doc, doc <:+: b.bytes → DocumentEnds serde doc →
    (Checked.ofDocument doc (BinaryJson.decode serde fuel doc)).Ended

/-! ## Documents -/

variable {doc : List UInt8}

theorem ended_ofDocument {x : Walked Json} :
    (Checked.ofDocument doc x).Ended ↔ x = .nothing ∨ ∃ v, x = .value v := by
  cases x with
  | running | panics => exact iff_of_false id fun h => by obtain h | ⟨v, h⟩ := h <;> cases h
  | nothing => exact iff_of_true trivial (.inl rfl)
  | value v => exact iff_of_true trivial (.inr ⟨v, rfl⟩)

/-- **A document is decoded in some steps** exactly if the decoder comes to an end with it. -/
theorem documentEnds_iff (serde : SerdeJson) (doc : List UInt8) : DocumentEnds serde doc ↔
    ∃ fuel, (Checked.ofDocument doc (decode serde fuel doc)).Ended := by
  cases doc with
  | nil => exact iff_of_true trivial ⟨0, trivial⟩
  | cons typeCode data =>
    refine (decodeValue_ends_iff serde typeCode.toNat data).symm.trans ?_
    exact exists_congr fun fuel => ended_ofDocument.symm

/-- Once a document is decoded, more steps change nothing. -/
theorem ended_of_le {serde : SerdeJson} {fuel fuel' : ℕ} (hle : fuel ≤ fuel')
    (h : (Checked.ofDocument doc (decode serde fuel doc)).Ended) :
    (Checked.ofDocument doc (decode serde fuel' doc)).Ended := by
  cases doc with
  | nil => trivial
  | cons typeCode data =>
    rw [ended_ofDocument] at h ⊢
    exact decodeValue_ended_of_le hle h

/-- Some steps are enough. -/
theorem exists_enough (serde : SerdeJson) (b : Slice) :
    ∃ fuel, ∀ fuel', fuel ≤ fuel' → Enough serde b fuel' := by
  have hall : ∀ docs : List (List UInt8), ∃ fuel, ∀ fuel', fuel ≤ fuel' → ∀ doc ∈ docs,
      DocumentEnds serde doc →
        (Checked.ofDocument doc (decode serde fuel' doc)).Ended := by
    intro docs
    induction docs with
    | nil => exact ⟨0, fun _ _ doc hdoc => absurd hdoc List.not_mem_nil⟩
    | cons doc docs ih =>
      obtain ⟨fuel, hfuel⟩ := ih
      by_cases hends : DocumentEnds serde doc
      · obtain ⟨more, hmore⟩ := (documentEnds_iff serde doc).mp hends
        refine ⟨max fuel more, fun fuel' hle => List.forall_mem_cons.mpr ⟨fun _ => ?_, ?_⟩⟩
        · exact ended_of_le ((Nat.le_max_right _ _).trans hle) hmore
        · exact hfuel fuel' ((Nat.le_max_left _ _).trans hle)
      · refine ⟨fuel, fun fuel' hle => List.forall_mem_cons.mpr ⟨fun h => absurd h hends, ?_⟩⟩
        exact hfuel fuel' hle
  obtain ⟨fuel, hfuel⟩ := hall (b.bytes.tails.flatMap List.inits)
  refine ⟨fuel, fun fuel' hle doc hdoc => hfuel fuel' hle doc ?_⟩
  obtain ⟨tail, hpre, hsuffix⟩ := List.infix_iff_prefix_suffix.mp hdoc
  exact List.mem_flatMap.mpr ⟨tail, (List.mem_tails _ _).mpr hsuffix, (List.mem_inits _ _).mpr hpre⟩

/-! ## Numbers and times -/

namespace Checked

variable {b : Slice} (enough : Prop) {n : ℕ}

theorem meets_signedInt (hpos : 0 < n) (hle : n ≤ 8) (r : Reader b) :
    Ran.Meets enough (signedInt n) r True (r.skip n) := by
  refine (meets_take_of_lt enough (by omega) r).then_done fun raw r' hrun => ?_
  obtain ⟨hskip, rfl⟩ := take_done hrun
  have hlength := Reader.length_peek hskip
  rw [run_check_bind, sub_eq hle, done_bind, run_check_bind, sub_eq hpos, done_bind,
    run_check_bind, index_eq (by omega), done_bind]
  exact ⟨_, rfl⟩

theorem meets_integer (hpos : 0 < n) (hle : n ≤ 8) (unsigned : Bool) (r : Reader b) :
    Ran.Meets enough (if unsigned then do return .int (← uint n) else signedInt n) r True
      (r.skip n) := by
  split
  · exact .map (meets_uint enough (by omega) r) _
  · exact meets_signedInt enough hpos hle r

/-- Up to four bytes of a fraction are shifted within 32 bits. -/
theorem fractionFrom_eq {bytes : List UInt8} {frac i : ℕ} (hfrac : frac < 256 ^ i)
    (h : i + bytes.length ≤ 4) :
    fractionFrom frac i bytes = .done (frac + 256 ^ i * littleEndian bytes) := by
  induction bytes generalizing frac i with
  | nil => rfl
  | cons byte rest ih =>
    rw [List.length_cons] at h
    have hpow : 2 ^ (8 * i) = 256 ^ i := pow_mul 2 8 i
    have hshift : byte.toNat <<< (8 * i) = byte.toNat * 256 ^ i := by
      rw [Nat.shiftLeft_eq, hpow]
    have hbyte : byte.toNat * 256 ^ i + 256 ^ i ≤ 256 ^ (i + 1) := by
      have := Nat.mul_le_mul_right (256 ^ i) (Nat.le_of_lt_succ byte.toNat_lt)
      rw [pow_succ]
      omega
    have hword : 256 ^ (i + 1) ≤ 2 ^ 32 :=
      calc 256 ^ (i + 1) ≤ 256 ^ 4 := Nat.pow_le_pow_right (by decide) (by omega)
        _ = 2 ^ 32 := by decide
    have hor : frac ||| byte.toNat <<< (8 * i) = frac + byte.toNat * 256 ^ i := by
      rw [Nat.or_comm, ← Nat.shiftLeft_add_eq_or_of_lt (by rwa [hpow]), hshift, Nat.add_comm]
    rw [fractionFrom, shl_eq (by omega) (by omega), done_bind, hor,
      ih (by omega) (by omega), littleEndian, pow_succ]
    congr 1
    ring

theorem fractionFrom_ne_failed {bytes : List UInt8} {frac i : ℕ} {e : DecodeError} :
    fractionFrom frac i bytes ≠ .failed e := by
  induction bytes generalizing frac i with
  | nil =>
    intro h
    cases h
  | cons byte rest ih =>
    rw [fractionFrom, shl]
    split
    · exact ih
    · intro h
      cases h

theorem fractionUnit_eq {bits fsp : ℕ} (h : fsp ≤ 6) (hbits : 32 ≤ bits) :
    fractionUnit bits fsp = .done (10 ^ (6 - fsp)) := by
  rw [fractionUnit, sub_eq h, done_bind]
  refine pow_eq ?_
  calc 10 ^ (6 - fsp) ≤ 10 ^ 6 := Nat.pow_le_pow_right (by decide) (Nat.sub_le _ _)
    _ < 2 ^ 32 := by decide
    _ ≤ 2 ^ bits := Nat.pow_le_pow_right (by decide) hbits

theorem fractionUnit_panics {bits fsp : ℕ} (h : 6 < fsp) : fractionUnit bits fsp = .panics := by
  rw [fractionUnit, sub, if_neg (by omega), panics_bind]

variable {fsp : ℕ}

/-- The bytes of a fraction leave room for its unit. -/
theorem fraction_room (h : fsp ≤ 6) :
    (fsp + 1) / 2 ≤ 3 ∧ 256 ^ ((fsp + 1) / 2) * 10 ^ (6 - fsp) ≤ 2 ^ 32 := by
  have hall : ∀ fsp ≤ 6, (fsp + 1) / 2 ≤ 3 ∧ 256 ^ ((fsp + 1) / 2) * 10 ^ (6 - fsp) ≤ 2 ^ 32 := by
    decide
  exact hall fsp h

/-- What a fraction comes to has room. -/
theorem fraction_mul {fsp stored bits : ℕ} (h : fsp ≤ 6) (hstored : stored < 256 ^ ((fsp + 1) / 2))
    (hbits : 32 ≤ bits) :
    (mul bits stored (10 ^ (6 - fsp)) : Ran DecodeError ℕ) =
      .done (stored * 10 ^ (6 - fsp)) := by
  refine mul_eq ?_
  calc stored * 10 ^ (6 - fsp)
      < 256 ^ ((fsp + 1) / 2) * 10 ^ (6 - fsp) := Nat.mul_lt_mul_of_pos_right hstored (by positivity)
    _ ≤ 2 ^ 32 := (fraction_room h).2
    _ ≤ 2 ^ bits := Nat.pow_le_pow_right (by decide) hbits

/-- A fraction comes to what is stored. -/
theorem fractionText_eq {fsp stored : ℕ} (h : fsp ≤ 6) (hstored : stored < 256 ^ ((fsp + 1) / 2)) :
    fractionText fsp stored =
      .done (if 0 < fsp then '.' :: padded fsp (stored * 10 ^ (6 - fsp) / 10 ^ (6 - fsp))
        else []) := by
  rw [fractionText]
  split
  · rw [fractionUnit_eq h (by decide), done_bind, fraction_mul h hstored (by decide),
      done_bind, done_bind]
    rfl
  · rfl

theorem meets_decodeTimestamp (hfsp : fsp < 256) (r : Reader b) :
    Ran.Meets enough (decodeTimestamp fsp) r
      ((r.skip (4 + (fsp + 1) / 2)).isSome → fsp ≤ 6) (r.skip (4 + (fsp + 1) / 2)) := by
  rw [← Reader.skip_skip]
  refine .bind_checked (meets_take_of_lt enough (by decide) r) fun secs r' _ => ?_
  refine ((meets_take_of_lt enough (by omega) r').then_checked ?_ ?_).congr (iff_of_eq (true_and _))
  · intro hle raw r'' hrun
    obtain ⟨hskip, rfl⟩ := take_done hrun
    have hlength := Reader.length_peek hskip
    have hlt := littleEndian_lt (r'.peek ((fsp + 1) / 2))
    have hroom := fraction_room hle
    rw [hlength] at hlt
    rw [run_check_bind, fractionFrom_eq (by decide) (by omega), done_bind, run_check_bind,
      fractionUnit_eq hle (by decide), done_bind, run_check_bind, pow_zero, zero_add, one_mul,
      fraction_mul hle hlt (by decide), done_bind]
    exact ⟨_, rfl⟩
  · intro hgt raw r'' _
    rw [run_check_bind]
    cases hfrac : fractionFrom 0 0 raw with
    | running | panics => exact id
    | failed e => exact absurd hfrac fractionFrom_ne_failed
    | done frac =>
      rw [done_bind, run_check_bind, fractionUnit_panics (Nat.lt_of_not_le hgt), panics_bind]
      exact id

theorem meets_decodeDatetime (hfsp : fsp < 256) (r : Reader b) :
    Ran.Meets enough (decodeDatetime fsp) r
      ((r.skip (5 + (fsp + 1) / 2)).isSome → fsp ≤ 6) (r.skip (5 + (fsp + 1) / 2)) := by
  rw [← Reader.skip_skip]
  refine .bind_checked (meets_take_of_lt enough (by decide) r) fun intPart r' _ => ?_
  refine ((meets_take_of_lt enough (by omega) r').then_checked ?_ ?_).congr (iff_of_eq (true_and _))
  · intro hle raw r'' hrun
    obtain ⟨hskip, rfl⟩ := take_done hrun
    have hlt := bigEndian_lt (r'.peek ((fsp + 1) / 2))
    rw [Reader.length_peek hskip] at hlt
    rw [run_check_bind, fractionText_eq hle hlt, done_bind]
    exact ⟨_, rfl⟩
  · intro hgt raw r'' _
    have hpos : 0 < fsp := by omega
    rw [run_check_bind, fractionText, if_pos hpos, fractionUnit_panics (Nat.lt_of_not_le hgt)]
    exact id

theorem meets_decodeTime (hfsp : fsp < 256) (r : Reader b) :
    Ran.Meets enough (decodeTime fsp) r
      ((r.skip (3 + (fsp + 1) / 2)).isSome → fsp ≤ 10) (r.skip (3 + (fsp + 1) / 2)) := by
  refine ((meets_take_of_lt enough (by omega) r).then_checked ?_ ?_).congr (iff_of_eq (true_and _))
  · intro hle raw r' hrun
    obtain ⟨hskip, rfl⟩ := take_done hrun
    have hlength := Reader.length_peek hskip
    have hbit : 1 <<< ((3 + (fsp + 1) / 2) * 8 - 1) = 2 ^ ((3 + (fsp + 1) / 2) * 8 - 1) := by
      rw [Nat.shiftLeft_eq, one_mul]
    have hlt : 2 ^ ((3 + (fsp + 1) / 2) * 8 - 1) < 2 ^ 64 :=
      Nat.pow_lt_pow_right (by decide) (by omega)
    rw [run_check_bind, index_eq (by omega), done_bind, run_check_bind,
      sub_eq (by omega), done_bind, run_check_bind, shl_eq (by omega) (by omega),
      done_bind, run_check_bind, sub_eq (hbit ▸ Nat.one_le_two_pow), done_bind]
    exact ⟨_, rfl⟩
  · intro hgt raw r' hrun
    obtain ⟨hskip, rfl⟩ := take_done hrun
    have hlength := Reader.length_peek hskip
    rw [run_check_bind, index_eq (by omega), done_bind, run_check_bind,
      sub_eq (by omega), done_bind, run_check_bind, shl, if_neg (by omega)]
    exact id

/-! ## Decimals -/

theorem index_dig2bytes {digits : ℕ} (h : digits ≤ 9) :
    (index dig2bytes digits : Ran DecodeError ℕ) = .done (digBytes digits) := by
  have hall : ∀ digits ≤ 9,
      (index dig2bytes digits : Ran DecodeError ℕ) = .done (digBytes digits) := by decide
  exact hall digits h

variable {buf : List UInt8}

theorem group_eq {pos digits : ℕ} (hdigits : digits ≤ 9) (h : pos + digBytes digits ≤ buf.length) :
    group buf pos digits =
      .done (bigEndian ((buf.drop pos).take (digBytes digits)), pos + digBytes digits) := by
  rw [group, index_dig2bytes hdigits, done_bind, slice_eq (Nat.le_add_right _ _) h,
    done_bind, Nat.add_sub_cancel_left]
  rfl

theorem nines_succ (buf : List UInt8) (pos count : ℕ) : nines buf pos (count + 1) =
    padded 9 (bigEndian ((buf.drop pos).take 4)) ++ nines buf (pos + 4) count := by
  rw [nines, List.range_succ_eq_map, List.flatMap_cons, List.flatMap_map, nines]
  refine congrArg _ (List.flatMap_congr fun i _ => ?_)
  rw [Nat.mul_succ, Nat.add_assoc, Nat.add_comm 4]

theorem groups_eq {count pos : ℕ} (h : pos + 4 * count ≤ buf.length) :
    groups buf count pos = .done (nines buf pos count, pos + 4 * count) := by
  induction count generalizing pos with
  | zero => rfl
  | succ count ih =>
    have hnine : digBytes 9 = 4 := rfl
    rw [groups, group_eq (by decide) (by omega), done_bind]
    dsimp only
    rw [hnine, ih (by omega), done_bind, nines_succ]
    congr 2
    omega

theorem firstDigits_eq {digits : ℕ} (hdigits : digits ≤ 9) (h : digBytes digits ≤ buf.length) :
    firstDigits buf digits =
      .done (if 0 < digits then Nat.toDigits 10 (bigEndian (buf.take (digBytes digits)))
        else [], digBytes digits) := by
  rw [firstDigits]
  split
  · rw [group_eq hdigits (by omega), done_bind, List.drop_zero, Nat.zero_add]
    rfl
  · next hzero =>
    obtain rfl : digits = 0 := by omega
    rfl

theorem lastDigits_eq {pos digits : ℕ} (hdigits : digits ≤ 9)
    (h : pos + digBytes digits ≤ buf.length) : lastDigits buf pos digits =
      .done (if 0 < digits then
        padded digits (bigEndian ((buf.drop pos).take (digBytes digits)))
        else []) := by
  rw [lastDigits]
  split
  · rw [group_eq hdigits h, done_bind]
    rfl
  · rfl

/-- All digits of a decimal are there. -/
theorem decimalDigits_eq {intg0 intgFirst frac0 fracLast : ℕ} (hintg : intgFirst ≤ 9)
    (hfrac : fracLast ≤ 9)
    (h : intg0 * 4 + digBytes intgFirst + frac0 * 4 + digBytes fracLast ≤ buf.length) :
    decimalDigits buf intg0 intgFirst frac0 fracLast = .done
      ((if 0 < intgFirst then Nat.toDigits 10 (bigEndian (buf.take (digBytes intgFirst)))
          else []) ++ nines buf (digBytes intgFirst) intg0,
        nines buf (digBytes intgFirst + 4 * intg0) frac0 ++ (if 0 < fracLast then
          padded fracLast (bigEndian
            ((buf.drop (digBytes intgFirst + 4 * intg0 + 4 * frac0)).take (digBytes fracLast)))
          else [])) := by
  rw [decimalDigits, firstDigits_eq hintg (by omega), done_bind]
  dsimp only
  rw [groups_eq (by omega), done_bind]
  dsimp only
  rw [groups_eq (by omega), done_bind]
  dsimp only
  rw [lastDigits_eq hfrac (by omega), done_bind]
  rfl

/-- What the bytes of a decimal come to. -/
def decimalOf (precision scale : ℕ) (raw : List UInt8) : String :=
  let intg := precision - scale
  let intgFirst := intg - intg / 9 * 9
  let fracLast := scale - scale / 9 * 9
  let positive := raw.headD 0 &&& 0x80 ≠ 0
  let plain := if positive then raw else raw.map fun byte => ~~~byte
  let buf := (plain.headD 0 &&& 0x7F) :: plain.tail
  let first := if 0 < intgFirst then
      Nat.toDigits 10 (Encoding.bigEndian (buf.take (digBytes intgFirst))) else []
  let fracAt := digBytes intgFirst + 4 * (intg / 9)
  let last := if 0 < fracLast then Encoding.padded fracLast
      (Encoding.bigEndian ((buf.drop (fracAt + 4 * (scale / 9))).take (digBytes fracLast))) else []
  decimalText positive
    ((first ++ nines buf (digBytes intgFirst) (intg / 9)).dropWhile fun c => c = '0')
    ((nines buf fracAt (scale / 9) ++ last).take scale) scale

theorem decodeDecimal_eq (precision scale : ℕ) : (decodeDecimal precision scale : Checked b Json) =
    take (decimalSize precision scale) >>= fun raw => check (decimalFrom ((precision - scale) / 9)
      ((precision - scale) - (precision - scale) / 9 * 9) (scale / 9) (scale - scale / 9 * 9)
      scale raw) := by
  rw [decodeDecimal]
  dsimp only
  rw [sub_eq (Nat.div_mul_le_self _ _), check_done_bind, sub_eq (Nat.div_mul_le_self _ _),
    check_done_bind, index_dig2bytes (by omega), check_done_bind, index_dig2bytes (by omega),
    check_done_bind]
  rfl

/-- A decimal that has digits is read without a panic. -/
theorem decimalFrom_eq {precision scale : ℕ} {raw : List UInt8}
    (hsize : raw.length = decimalSize precision scale) (hpos : 0 < raw.length) :
    decimalFrom ((precision - scale) / 9) ((precision - scale) - (precision - scale) / 9 * 9)
      (scale / 9) (scale - scale / 9 * 9) scale raw = .done (.str (decimalOf precision scale raw)) := by
  obtain ⟨top, tail, rfl⟩ := List.exists_cons_of_length_pos hpos
  rw [decimalFrom, index_eq hpos, done_bind]
  dsimp only
  rw [decimalDigits_eq (by omega) (by omega) ?_]
  · rfl
  · rw [decimalSize] at hsize
    rw [← hsize]
    split <;> simp

/-- One without digits has no byte for its sign. -/
theorem decimalFrom_nil (intg0 intgFirst frac0 fracLast scale : ℕ) :
    decimalFrom intg0 intgFirst frac0 fracLast scale [] = .panics :=
  rfl

theorem meets_decodeDecimal {precision scale : ℕ} (hprecision : precision < 256)
    (hscale : scale < 256) (r : Reader b) :
    Ran.Meets enough (decodeDecimal precision scale) r
      ((r.skip (decimalSize precision scale)).isSome → ¬(precision = 0 ∧ scale = 0))
      (r.skip (decimalSize precision scale)) := by
  have hsmall : decimalSize precision scale < 2 ^ 63 := by
    have hbytes : ∀ digits ≤ 9, digBytes digits ≤ 4 := by decide
    have := hbytes ((precision - scale) - (precision - scale) / 9 * 9) (by omega)
    have := hbytes (scale - scale / 9 * 9) (by omega)
    rw [decimalSize]
    omega
  rw [decodeDecimal_eq]
  refine ((meets_take_of_lt enough hsmall r).then_checked ?_ ?_).congr (iff_of_eq (true_and _))
  · intro hdigits raw r' hrun
    obtain ⟨hskip, rfl⟩ := take_done hrun
    have hlength := Reader.length_peek hskip
    have hpos : 0 < decimalSize precision scale := by
      rw [Nat.pos_iff_ne_zero, Ne, decimalSize_eq_zero]
      exact hdigits
    rw [run_check, decimalFrom_eq hlength (by omega)]
    exact ⟨_, rfl⟩
  · intro hdigits raw r' hrun
    obtain ⟨hskip, rfl⟩ := take_done hrun
    have hlength := Reader.length_peek hskip
    rw [decimalSize_eq_zero.mpr (not_not.mp hdigits)] at hlength ⊢
    rw [run_check, List.length_eq_zero_iff.mp hlength, decimalFrom_nil]
    exact id

/-! ## All types -/

variable (serde : SerdeJson) {fuel : ℕ}

/-- What is taken of some bytes is among them. -/
theorem infix_peek (r : Reader b) (n : ℕ) : r.peek n <:+: b.bytes :=
  (List.take_prefix _ _).isInfix.trans (List.drop_suffix _ _).isInfix

/-- A document is decoded in the steps that are enough, if the decoder comes to an end with it. -/
theorem meets_ofDocument (hdoc : doc <:+: b.bytes) (r : Reader b) :
    Ran.Meets (Enough serde b fuel)
      (check (ofDocument doc (decode serde fuel doc)) : Checked b Json) r
      (DocumentEnds serde doc) (some r) where
  ok_of_ended h := by
    rw [run_check, ended_bind] at h
    exact (documentEnds_iff serde doc).mpr ⟨fuel, h.1⟩
  ended henough hends := by
    rw [run_check, ended_bind]
    exact ⟨henough doc hdoc hends, fun _ _ => trivial⟩
  done h := by
    rw [run_check] at h
    cases hof : ofDocument doc (decode serde fuel doc) with
    | running | panics | failed e =>
      rw [hof] at h
      cases h
    | done v =>
      rw [hof] at h
      cases h
      rfl
  failed h := by
    rw [run_check] at h
    cases hdecode : decode serde fuel doc with
    | running | panics | nothing | value v =>
      rw [hdecode] at h
      cases h

/-- A document is read in the steps that are enough for all of them. -/
theorem meets_document (hn : n < 2 ^ 63) (r : Reader b) :
    Ran.Meets (Enough serde b fuel) (do
      let len ← uint n
      let bytes ← take len
      check (ofDocument bytes (decode serde fuel bytes)) : Checked b Json) r
      (¬(r.Overlong n ∨ ∃ r', r.skip n = some r' ∧ (r'.skip (r.number n)).isSome ∧
        ¬DocumentEnds serde (r'.peek (r.number n))))
      (r.skipCounted n) := by
  have hbind : Ran.Meets (Enough serde b fuel) (uint n >>= fun len => take len >>= fun bytes =>
      check (ofDocument bytes (decode serde fuel bytes)) : Checked b Json) r
      (True ∧ ∀ r', r.skip n = some r' → r'.pos + r.number n < 2 ^ 64 ∧
        ((r'.skip (r.number n)).isSome → DocumentEnds serde (r'.peek (r.number n))))
      (r.skipCounted n) := by
    refine .bind (meets_uint _ hn r) fun len r' hrun => ?_
    obtain ⟨-, rfl⟩ := uint_done hrun
    have hread : Ran.Meets (Enough serde b fuel) (take (r.number n) >>= fun bytes =>
        check (ofDocument bytes (decode serde fuel bytes)) : Checked b Json) r'
        (r'.pos + r.number n < 2 ^ 64 ∧ ∀ r'', r'.skip (r.number n) = some r'' →
          DocumentEnds serde (r'.peek (r.number n)))
        ((r'.skip (r.number n)).bind some) := by
      refine .bind (meets_take _ _ r') fun bytes r'' htake => ?_
      obtain ⟨-, rfl⟩ := take_done htake
      exact meets_ofDocument serde (infix_peek r' _) r''
    rw [Option.bind_fun_some] at hread
    refine hread.congr (and_congr_right fun _ => ?_)
    rw [Option.isSome_iff_exists, forall_exists_index]
  refine hbind.congr ⟨?_, fun hnot => ⟨trivial, fun r' hskip => ?_⟩⟩
  · rintro ⟨-, h⟩ (⟨r', hskip, hle⟩ | ⟨r', hskip, hsome, hends⟩)
    · exact absurd (h r' hskip).1 (Nat.not_lt.mpr hle)
    · exact hends ((h r' hskip).2 hsome)
  · obtain ⟨hlong, hdocument⟩ := not_or.mp hnot
    refine ⟨Nat.lt_of_not_le fun hle => hlong ⟨r', hskip, hle⟩, fun hsome => ?_⟩
    by_contra hends
    exact hdocument ⟨r', hskip, hsome, hends⟩

theorem headD_lt (metadata : List UInt8) (d : UInt8) : (metadata.headD d).toNat < 256 :=
  UInt8.toNat_lt _

variable {metadata : List UInt8} {enough : Prop} {r : Reader b} {x : Checked b Json} {ty n : ℕ}

/-- A value of some bytes. -/
theorem meets_fixed (hextent : extentOf ty metadata = .fixed n)
    (h : Ran.Meets enough x r ((r.skip n).isSome → ¬Unfit ty metadata) (r.skip n)) :
    Ran.Meets enough x r (¬Spoils serde ty metadata r) ((extentOf ty metadata).skip r) := by
  rw [Spoils, hextent]
  exact h.congr not_and.symm

/-- A value of bytes that have their number ahead of them, and no document. -/
theorem meets_counted_value (hextent : extentOf ty metadata = .counted n) (hty : ty ≠ 245)
    (h : Ran.Meets enough x r (¬r.Overlong n) (r.skipCounted n)) :
    Ran.Meets enough x r (¬Spoils serde ty metadata r) ((extentOf ty metadata).skip r) := by
  rw [Spoils, hextent]
  exact h.congr (not_congr ⟨.inl, fun h => h.resolve_right fun h => hty h.1⟩)

/-- A value whose metadata say nothing that its arithmetic is not made for. -/
theorem meets_fit (hextent : extentOf ty metadata = .fixed n) (hfit : ¬Unfit ty metadata)
    (h : Ran.Meets enough x r True (r.skip n)) :
    Ran.Meets enough x r (¬Spoils serde ty metadata r) ((extentOf ty metadata).skip r) :=
  meets_fixed serde hextent (h.congr (iff_of_true trivial fun _ => hfit))

/-- A value of a type that is not read. -/
theorem meets_unread {e : DecodeError} {ty : ℕ} (hextent : extentOf ty metadata = .unread) :
    Ran.Meets enough (fail e : Checked b Json) r (¬Spoils serde ty metadata r)
      ((extentOf ty metadata).skip r) := by
  have hfailed : (fail e : Checked b Json).run r = .failed e := rfl
  rw [Spoils, hextent]
  exact (Ran.Meets.of_failed hfailed).congr (iff_of_true trivial id)

/-- **A value is decoded to its end, without a panic, unless something is wrong with it**; and where
its end is follows from its type. -/
theorem meets_decodeValueInner (ty : ℕ) (metadata : List UInt8) (unsigned : Bool)
    (shape : Option ValueShape) (r : Reader b) :
    Ran.Meets (Enough serde b fuel)
      (decodeValueInner serde fuel ty metadata unsigned shape : Checked b Json) r
      (¬Spoils serde ty metadata r) ((extentOf ty metadata).skip r) := by
  have hfirst := headD_lt metadata 0
  have hsecond : (metadata.getD 1 0).toNat < 256 := UInt8.toNat_lt _
  unfold decodeValueInner
  dsimp only
  split
  case h_1 => exact meets_fit serde rfl id (meets_integer _ (by decide) (by decide) unsigned r)
  case h_2 => exact meets_fit serde rfl id (meets_integer _ (by decide) (by decide) unsigned r)
  case h_3 =>
    refine meets_fit serde rfl id ((meets_uint _ (by decide) r).then_done fun v r' _ => ?_)
    split <;> exact ⟨_, rfl⟩
  case h_4 => exact meets_fit serde rfl id (meets_integer _ (by decide) (by decide) unsigned r)
  case h_5 => exact meets_fit serde rfl id (meets_integer _ (by decide) (by decide) unsigned r)
  case h_6 => exact meets_fit serde rfl id (.map (meets_uint _ (by decide) r) _)
  case h_7 => exact meets_fit serde rfl id (.map (meets_uint _ (by decide) r) _)
  case h_8 => exact meets_fit serde rfl id (.map (meets_uint _ (by decide) r) _)
  case h_9 =>
    refine meets_fixed serde rfl ((meets_decodeTimestamp _ hfirst r).congr ?_)
    exact imp_congr_right fun _ => Nat.not_lt.symm
  case h_10 =>
    refine meets_fixed serde rfl ((meets_decodeDatetime _ hfirst r).congr ?_)
    exact imp_congr_right fun _ => Nat.not_lt.symm
  case h_11 =>
    refine meets_fixed serde rfl ((meets_decodeTime _ hfirst r).congr ?_)
    exact imp_congr_right fun _ => Nat.not_lt.symm
  case h_12 => exact meets_fixed serde rfl (meets_decodeDecimal _ hfirst hsecond r)
  case h_13 =>
    refine meets_counted_value serde rfl (by decide) ?_
    split <;> exact meets_counted _ (by decide) r
  case h_14 =>
    refine meets_counted_value serde rfl (by decide) ?_
    split <;> exact meets_counted _ (by decide) r
  case h_15 =>
    split
    case h_1 hreal =>
      have hextent : extentOf 254 metadata = .fixed 1 := by
        rw [extentOf, hreal]
        rfl
      refine meets_fit serde hextent id ((meets_uint _ (by decide) r).then_done fun v r' _ => ?_)
      split <;> exact ⟨_, rfl⟩
    case h_2 hreal =>
      have hextent : extentOf 254 metadata = .fixed (min (metadata.getD 1 1).toNat 8) := by
        rw [extentOf, hreal]
        rfl
      refine meets_fit serde hextent id ((meets_uint _ (by omega) r).then_done fun v r' _ => ?_)
      split <;> exact ⟨_, rfl⟩
    case h_3 hset henum =>
      have hextent : extentOf 254 metadata =
          .counted (if 128 ≤ (metadata.getD 1 0).toNat then 2 else 1) := by
        rw [extentOf]
        split
        · contradiction
        · contradiction
        · rfl
      refine meets_counted_value serde hextent (by decide) ?_
      split <;> exact meets_counted _ (by decide) r
  case h_16 =>
    rw [Spoils]
    refine (meets_document serde (by omega) r).congr (not_congr (or_congr_right ?_))
    exact (and_iff_right rfl).symm
  case h_17 => exact meets_counted_value serde rfl (by decide) (meets_counted _ (by omega) r)
  case h_18 => exact meets_counted_value serde rfl (by decide) (meets_counted _ (by omega) r)
  case h_19 => exact meets_counted_value serde rfl (by decide) (meets_counted _ (by omega) r)
  case h_20 => exact meets_counted_value serde rfl (by decide) (meets_counted _ (by omega) r)
  case h_21 => exact meets_fit serde rfl id (.map (meets_take_of_lt _ (by omega) r) _)
  case h_22 => exact meets_counted_value serde rfl (by decide) (meets_counted _ (by omega) r)
  case h_23 => exact meets_unread serde rfl
  case h_24 =>
    have hextent : extentOf ty metadata = .unread := by
      unfold extentOf
      dsimp only
      split <;> first | contradiction | rfl
    exact meets_unread serde hextent

end Checked

end MySql

end Pg2osync
