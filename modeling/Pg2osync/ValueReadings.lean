import Pg2osync.ValueExtents

/-!
# What the decoders read

The decoders that may panic and those that only read bytes are the same decoders. Where the
metadata are fit for their type, whatever is read of the remaining bytes is also read from where a
reader stands among them, and it stands behind the value then.
-/

namespace Pg2osync

namespace MySql

namespace Checked

open Encoding

variable {b : Slice} {α β : Type} {n : ℕ} {r : Reader b}

/-- A few bytes that are ahead are taken. -/
theorem take_ahead {raw rest : List UInt8} (hr : r.rest = raw ++ rest) (hn : raw.length = n) :
    ∃ r', (take n).run r = .done (raw, r') ∧ r'.rest = rest := by
  have hlength := r.length_rest
  have hle := r.le
  have hfits := b.fits
  rw [hr, List.length_append, hn, Reader.restLen] at hlength
  have hskip : r.skip n = some ⟨r.pos + n, by omega⟩ := Reader.skip_eq_some.mpr rfl
  refine ⟨⟨r.pos + n, by omega⟩, ?_, ?_⟩
  · rw [take_run, if_neg (by omega), hskip]
    dsimp only
    rw [Reader.peek, hr, List.take_left' hn]
  · rw [Reader.rest_skip hskip, hr, List.drop_left' hn]

/-- A few bytes that are not all ahead are not. -/
theorem take_short (hn : n < 2 ^ 63) (h : r.rest.length < n) : (take n).run r = .failed .eof := by
  have hpos := r.pos_lt
  rw [r.length_rest] at h
  rw [take_run, if_neg (by omega), Reader.skip_eq_none.mpr h]

/-- What is read first fails. -/
theorem run_bind_failed {x : Checked b α} {e : DecodeError} (h : x.run r = .failed e)
    (f : α → Checked b β) : (x >>= f).run r = .failed e := by
  rw [StateT.run_bind, h]
  rfl

/-! ## What some bytes are read as -/

/-- Some bytes are read as a value, whatever is behind them; and nothing is where they are cut
off. -/
structure Takes (x : (b : Slice) → Checked b α) (raw : List UInt8) (a : α) : Prop where
  /-- the value is read, and nothing else -/
  read : ∀ {b : Slice} {r : Reader b} {rest}, r.rest = raw ++ rest →
    ∃ r', (x b).run r = .done (a, r') ∧ r'.rest = rest
  /-- the bytes end too early -/
  cut : ∀ {b : Slice} {r : Reader b} {tail}, tail ≠ [] → raw = r.rest ++ tail →
    (x b).run r = .failed .eof

variable {a : α}

namespace Takes

theorem pure (a : α) : Takes (fun _ => Pure.pure a) [] a where
  read {_ r _} hr := ⟨r, rfl, hr⟩
  cut htail hraw := absurd (List.append_eq_nil_iff.mp hraw.symm).2 htail

variable {raw : List UInt8}

theorem take (hn : raw.length = n) (hlt : n < 2 ^ 63) : Takes (fun _ => take n) raw raw where
  read hr := take_ahead hr hn
  cut {b r tail} htail hraw := by
    refine take_short hlt ?_
    have hpos := List.length_pos_of_ne_nil htail
    rw [← hn, hraw, List.length_append]
    omega

/-- One after the other: the bytes are cut off in the first part or in the second. -/
theorem bind {x : (b : Slice) → Checked b α} {f : (b : Slice) → α → Checked b β}
    {raw raw' : List UInt8} {c : β} (hx : Takes x raw a) (hf : Takes (fun b => f b a) raw' c) :
    Takes (fun b => x b >>= f b) (raw ++ raw') c where
  read {b r rest} hr := by
    rw [List.append_assoc] at hr
    obtain ⟨r₁, hdone, hr₁⟩ := hx.read hr
    obtain ⟨r₂, hdone', hr₂⟩ := hf.read hr₁
    exact ⟨r₂, (Ran.run_bind_done hdone (f b)).trans hdone', hr₂⟩
  cut {b r tail} htail hraw := by
    have hbehind : ∀ more, r.rest = raw ++ more → raw' = more ++ tail →
        (x b >>= f b).run r = .failed .eof := by
      intro more hr hmore
      obtain ⟨r₁, hdone, hr₁⟩ := hx.read hr
      exact (Ran.run_bind_done hdone (f b)).trans (hf.cut htail (hr₁ ▸ hmore))
    obtain ⟨more, hr, hmore⟩ | ⟨missing, hr, -⟩ := List.append_eq_append_iff.mp hraw
    · exact hbehind more hr hmore
    · by_cases hmissing : missing = []
      · subst hmissing
        rw [List.append_nil] at hr
        rw [hr] at hraw
        exact hbehind [] (by rw [List.append_nil, hr]) (List.append_cancel_left hraw)
      · exact run_bind_failed (hx.cut hmissing hr) (f b)

theorem map {x : (b : Slice) → Checked b α} (hx : Takes x raw a) (f : α → β) :
    Takes (fun b => x b >>= fun a => Pure.pure (f a)) raw (f a) := by
  have h := hx.bind (f := fun _ a => Pure.pure (f a)) (pure (f a))
  rwa [List.append_nil] at h

theorem congr {x y : (b : Slice) → Checked b α} (h : ∀ b, x b = y b) (hx : Takes x raw a) :
    Takes y raw a :=
  funext h ▸ hx

/-- A number of some bytes. -/
theorem uint {n m : ℕ} (hlt : m < 256 ^ n) (hn : n < 2 ^ 63) :
    Takes (fun _ => uint n) (toLittleEndian n m) m := by
  have h := (take (length_toLittleEndian n m) hn).map littleEndian
  rwa [littleEndian_toLittleEndian, Nat.mod_eq_of_lt hlt] at h

/-- Bytes behind their number. -/
theorem counted (hn : n < 2 ^ 63) {bytes : List UInt8} (hlt : bytes.length < 256 ^ n)
    (hfits : bytes.length < 2 ^ 63) {f : (b : Slice) → List UInt8 → Checked b α}
    (hf : Takes (fun b => f b bytes) [] a) :
    Takes (fun b => Checked.uint n >>= fun len => Checked.take len >>= f b)
      (toLittleEndian n bytes.length ++ bytes) a := by
  have hbytes := (take rfl hfits).bind hf
  rw [List.append_nil] at hbytes
  exact (uint hlt hn).bind hbytes

end Takes

/-! ## Two readers of the same bytes -/

/-- What one reads of the bytes ahead, the other reads from where it stands; and where the bytes
that the one reads are cut off, the other fails. -/
structure Mirrors (x : Checked b α) (y : R α) : Prop where
  /-- it reads the same, and stands behind it -/
  read : ∀ {r : Reader b} {v rest}, y.run r.rest = .ok (v, rest) →
    ∃ r', x.run r = .done (v, r') ∧ r'.rest = rest
  /-- it fails without some bytes at the end -/
  cut : ∀ {r : Reader b} {tail v}, tail ≠ [] → (r.rest ++ tail).length < 2 ^ 63 →
    y.run (r.rest ++ tail) = .ok (v, []) → x.run r = .failed .eof

namespace Mirrors

theorem pure (a : α) : Mirrors (Pure.pure a : Checked b α) (Pure.pure a) where
  read {r v rest} h := by
    cases h
    exact ⟨r, rfl, rfl⟩
  cut {r tail v} htail _ h := by
    have hnil := (Prod.mk.inj (Except.ok.inj h)).2
    exact absurd (List.append_eq_nil_iff.mp hnil).2 htail

/-- A few bytes, and then the rest. -/
theorem take_bind {f : List UInt8 → Checked b α} {g : List UInt8 → R α}
    (h : ∀ raw, raw.length = n → Mirrors (f raw) (g raw)) :
    Mirrors (take n >>= f) (R.take n >>= g) := by
  have htaken : ∀ {bytes : List UInt8} {v rest}, (R.take n >>= g).run bytes = .ok (v, rest) →
      n ≤ bytes.length ∧ (g (bytes.take n)).run (bytes.drop n) = .ok (v, rest) := by
    intro bytes v rest hrun
    rw [StateT.run_bind] at hrun
    obtain ⟨⟨raw, left⟩, htake, hleft⟩ := Except.bind_eq_ok hrun
    simp only [R.take, StateT.run] at htake
    split at htake
    · next hle =>
      obtain ⟨rfl, rfl⟩ := Prod.mk.inj (Except.ok.inj htake)
      exact ⟨hle, hleft⟩
    · cases htake
  constructor
  · intro r v rest hrun
    obtain ⟨hle, hleft⟩ := htaken hrun
    have hlength : (r.rest.take n).length = n := List.length_take_of_le hle
    obtain ⟨r', hdone, hrest⟩ := take_ahead (List.take_append_drop n r.rest).symm hlength
    rw [Ran.run_bind_done hdone]
    exact (h _ hlength).read (hrest ▸ hleft)
  · intro r tail v htail hfits hrun
    obtain ⟨hle, hleft⟩ := htaken hrun
    by_cases hshort : r.rest.length < n
    · exact run_bind_failed (take_short (by omega) hshort) f
    · -- these are all there, so it is the rest that is cut off
      have hlong : n ≤ r.rest.length := Nat.not_lt.mp hshort
      have hlength : (r.rest.take n).length = n := List.length_take_of_le hlong
      obtain ⟨r', hdone, hrest⟩ := take_ahead (List.take_append_drop n r.rest).symm hlength
      rw [List.take_append_of_le_length hlong, List.drop_append_of_le_length hlong,
        ← hrest] at hleft
      rw [List.length_append] at hfits
      rw [Ran.run_bind_done hdone]
      refine (h _ hlength).cut htail ?_ hleft
      rw [hrest, List.length_append, List.length_drop]
      omega

/-- A number, and then the rest. -/
theorem uint_bind {f : ℕ → Checked b α} {g : ℕ → R α} (h : ∀ v, Mirrors (f v) (g v)) :
    Mirrors (uint n >>= f) (R.uint n >>= g) := by
  have hsame : ∀ r : Reader b, (uint n >>= f).run r =
      (take n >>= fun raw => f (littleEndian raw)).run r := by
    intro r
    rw [StateT.run_bind, StateT.run_bind, uint, StateT.run_bind]
    cases (take n).run r <;> rfl
  have hsame' : ∀ bytes, (R.uint n >>= g).run bytes =
      (R.take n >>= fun raw => g (littleEndian raw)).run bytes := by
    intro bytes
    rw [StateT.run_bind, StateT.run_bind, R.uint, StateT.run_bind]
    cases (R.take n).run bytes <;> rfl
  have htake : Mirrors (take n >>= fun raw => f (littleEndian raw))
      (R.take n >>= fun raw => g (littleEndian raw)) := take_bind fun raw _ => h _
  constructor
  · intro r v rest hrun
    rw [hsame]
    exact htake.read (hsame' _ ▸ hrun)
  · intro r tail v htail hfits hrun
    rw [hsame]
    exact htake.cut htail hfits (hsame' _ ▸ hrun)

/-- What does not panic, and then the rest. -/
theorem check_bind {x : Ran DecodeError β} {a : β} {f : β → Checked b α} {y : R α}
    (hx : x = .done a) (h : Mirrors (f a) y) : Mirrors (check x >>= f) y := by
  subst hx
  exact h

theorem check {x : Ran DecodeError α} (hx : x = .done a) :
    Mirrors (check x : Checked b α) (Pure.pure a) := by
  subst hx
  exact pure a

/-- Nothing is read. -/
theorem throw (x : Checked b α) (e : DecodeError) : Mirrors x (MonadExcept.throw e) where
  read h := by cases h
  cut _ _ h := by cases h

end Mirrors

/-! ## Each decoder -/

theorem mirrors_signedInt (hpos : 0 < n) (hle : n ≤ 8) :
    Mirrors (Checked.signedInt n : Checked b Json) (MySql.signedInt n) := by
  refine .take_bind fun raw hlength => ?_
  have htop : raw.getLastD 0 = raw[n - 1] := by
    have hne : raw ≠ [] := List.ne_nil_of_length_pos (by omega)
    subst hlength
    rw [List.getLastD_eq_getLast?, List.getLast?_eq_getLast_of_ne_nil hne, Option.getD_some,
      List.getLast_eq_getElem]
  refine .check_bind (Ran.sub_eq hle) (.check_bind (Ran.sub_eq hpos) ?_)
  refine .check_bind (Ran.index_eq (by omega)) ?_
  rw [← htop]
  exact .pure _

theorem mirrors_integer (hpos : 0 < n) (hle : n ≤ 8) (unsigned : Bool) :
    Mirrors (if unsigned then do return .int (← uint n) else Checked.signedInt n : Checked b Json)
      (if unsigned then do return .int (← R.uint n) else MySql.signedInt n) := by
  split
  · exact .uint_bind fun v => .pure _
  · exact mirrors_signedInt hpos hle

theorem mirrors_decodeTimestamp {fsp : ℕ} (hfsp : fsp ≤ 6) :
    Mirrors (Checked.decodeTimestamp fsp : Checked b Json) (MySql.decodeTimestamp fsp) := by
  refine .take_bind fun secs _ => .take_bind fun raw hlength => ?_
  have hlt := littleEndian_lt raw
  have hroom := (fraction_room hfsp).1
  have hfrac : fractionFrom 0 0 raw = .done (littleEndian raw) := by
    rw [fractionFrom_eq (by decide) (by omega), pow_zero, zero_add, one_mul]
  rw [hlength] at hlt
  refine .check_bind hfrac (.check_bind (fractionUnit_eq hfsp (by decide)) ?_)
  exact .check_bind (fraction_mul hfsp hlt (by decide)) (.pure _)

theorem mirrors_decodeDatetime {fsp : ℕ} (hfsp : fsp ≤ 6) :
    Mirrors (Checked.decodeDatetime fsp : Checked b Json) (MySql.decodeDatetime fsp) := by
  refine .take_bind fun intPart _ => .take_bind fun raw hlength => ?_
  have hlt := bigEndian_lt raw
  rw [hlength] at hlt
  refine .check_bind (fractionText_eq hfsp hlt) ?_
  by_cases hpos : 0 < fsp
  · simp only [if_pos hpos]
    exact .pure _
  · simp only [if_neg hpos]
    exact .pure _

theorem mirrors_decodeTime {fsp : ℕ} (hfsp : fsp ≤ 10) :
    Mirrors (Checked.decodeTime fsp : Checked b Json) (MySql.decodeTime fsp) := by
  refine .take_bind fun raw hlength => ?_
  have hbit : 1 <<< ((3 + (fsp + 1) / 2) * 8 - 1) = 2 ^ ((3 + (fsp + 1) / 2) * 8 - 1) := by
    rw [Nat.shiftLeft_eq, one_mul]
  have hlt : 2 ^ ((3 + (fsp + 1) / 2) * 8 - 1) < 2 ^ 64 :=
    Nat.pow_lt_pow_right (by decide) (by omega)
  have htop : raw.headD 0 = raw[0] := by
    cases raw with
    | nil => exact absurd hlength (by rw [List.length_nil]; omega)
    | cons top tail => rfl
  refine .check_bind (Ran.index_eq (by omega)) (.check_bind (Ran.sub_eq (by omega)) ?_)
  refine .check_bind (Ran.shl_eq (by omega) (by omega)) ?_
  refine .check_bind (Ran.sub_eq (hbit ▸ Nat.one_le_two_pow)) ?_
  rw [hbit, ← htop, Nat.mul_comm]
  exact .pure _

theorem mirrors_decodeDecimal {precision scale : ℕ} (h : ¬(precision = 0 ∧ scale = 0)) :
    Mirrors (Checked.decodeDecimal precision scale : Checked b Json)
      (MySql.decodeDecimal precision scale) := by
  have hpos : 0 < BinaryJson.decimalSize precision scale := by
    rw [Nat.pos_iff_ne_zero, Ne, BinaryJson.decimalSize_eq_zero]
    exact h
  rw [decodeDecimal_eq]
  refine .take_bind fun raw hlength => ?_
  refine .check ((decimalFrom_eq hlength (by omega)).trans ?_)
  simp only [decimalOf, decimalText, decide_eq_true_eq]

/-- Bytes behind their number. -/
theorem mirrors_counted (n : ℕ) (f : List UInt8 → Json) :
    Mirrors (uint n >>= fun len => take len >>= fun raw => pure (f raw) : Checked b Json)
      (R.uint n >>= fun len => R.take len >>= fun raw => pure (f raw)) :=
  .uint_bind fun _ => .take_bind fun _ _ => .pure _

theorem mirrors_ite {x x' : Checked b α} {y y' : R α} {p : Prop} [Decidable p]
    (h : p → Mirrors x y) (h' : ¬p → Mirrors x' y') :
    Mirrors (if p then x else x') (if p then y else y') := by
  split
  · next hp => exact h hp
  · next hp => exact h' hp

/-! ## All types -/

/-- **Whatever is read of the bytes ahead is read from where the reader stands**, of every type but
of documents, if the metadata are fit for it. -/
theorem mirrors_decodeValue (serde : SerdeJson) (fuel : ℕ) (parsers : TypeMap.Parsers) {ty : ℕ}
    {metadata : List UInt8} (unsigned : Bool) (shape : Option ValueShape) (hdoc : ty ≠ 245)
    (hfit : ¬Unfit ty metadata) :
    Mirrors (decodeValueInner serde fuel ty metadata unsigned shape : Checked b Json)
      (decodeValue parsers ty metadata unsigned shape) := by
  unfold decodeValueInner
  dsimp only
  split
  case h_1 => exact mirrors_integer (by decide) (by decide) unsigned
  case h_2 => exact mirrors_integer (by decide) (by decide) unsigned
  case h_3 =>
    refine .uint_bind fun v => ?_
    exact mirrors_ite (fun _ => .pure _) fun _ => .pure _
  case h_4 => exact mirrors_integer (by decide) (by decide) unsigned
  case h_5 => exact mirrors_integer (by decide) (by decide) unsigned
  case h_6 => exact .uint_bind fun v => .pure _
  case h_7 => exact .uint_bind fun v => .pure _
  case h_8 => exact .uint_bind fun v => .pure _
  case h_9 => exact mirrors_decodeTimestamp (Nat.le_of_not_lt hfit)
  case h_10 => exact mirrors_decodeDatetime (Nat.le_of_not_lt hfit)
  case h_11 => exact mirrors_decodeTime (Nat.le_of_not_lt hfit)
  case h_12 => exact mirrors_decodeDecimal hfit
  case h_13 =>
    exact mirrors_ite (fun _ => mirrors_counted 1 _) fun _ => mirrors_counted 2 _
  case h_14 =>
    exact mirrors_ite (fun _ => mirrors_counted 1 _) fun _ => mirrors_counted 2 _
  case h_15 =>
    -- the type that the first byte hides is the same for both
    simp only [decodeValue]
    generalize (metadata.headD 254).toNat = real
    split
    · refine .uint_bind fun ordinal => ?_
      cases shape with
      | none => exact .pure _
      | some shape => cases shape <;> exact .pure _
    · refine .uint_bind fun mask => ?_
      cases shape with
      | none => exact .pure _
      | some shape => cases shape <;> exact .pure _
    · split <;> try split
      all_goals first | contradiction | exact mirrors_counted 2 _ | exact mirrors_counted 1 _
  case h_16 => exact absurd rfl hdoc
  case h_17 => exact mirrors_counted _ _
  case h_18 => exact mirrors_counted _ _
  case h_19 => exact mirrors_counted _ _
  case h_20 => exact mirrors_counted _ _
  case h_21 => exact .take_bind fun raw _ => .pure _
  case h_22 => exact mirrors_counted _ _
  case h_23 => exact .throw _ _
  case h_24 =>
    unfold decodeValue
    dsimp only
    split <;> first | contradiction | exact .throw _ _

end Checked

end MySql

end Pg2osync
