import Pg2osync.BinlogValue
import Pg2osync.Faults

/-!
# A reader that may panic

The decoders read some bytes from the front to the back. They slice them and compute where a slice
ends, which panics if it is out of range. This is the reader as it is in memory: it stands at a
place, and what it adds to that has 64 bits.

Where it does not panic it reads what a reader of the remaining bytes reads.
-/

namespace Pg2osync

namespace MySql

/-- Bytes in memory, of which there are never more than a sign leaves room for. -/
structure Slice : Type where
  /-- the bytes -/
  bytes : List UInt8
  /-- `isize::MAX` -/
  fits : bytes.length < 2 ^ 63

namespace Slice

/-- Some of the bytes. -/
def part (b : Slice) (start n : ℕ) : Slice where
  bytes := (b.bytes.drop start).take n
  fits := by
    have hfits := b.fits
    simp only [List.length_take, List.length_drop]
    omega

end Slice

/-- A reader of some bytes. -/
@[ext] structure Reader (b : Slice) : Type where
  /-- where it is -/
  pos : ℕ
  /-- it is not behind them -/
  le : pos ≤ b.bytes.length
  deriving DecidableEq

variable {n : ℕ} {r r' : Reader b}

namespace Reader

variable {b : Slice}

/-- `R::new` -/
def new (b : Slice) : Reader b :=
  ⟨0, Nat.zero_le _⟩

/-- The bytes that it has not read. -/
def rest (r : Reader b) : List UInt8 :=
  b.bytes.drop r.pos

/-- `rest_len` -/
def restLen (r : Reader b) : ℕ :=
  b.bytes.length - r.pos

/-- The next bytes, which it does not read. -/
def peek (r : Reader b) (n : ℕ) : List UInt8 :=
  r.rest.take n

/-- The reader behind some bytes, if there are so many. -/
def skip (r : Reader b) (n : ℕ) : Option (Reader b) :=
  if h : r.pos + n ≤ b.bytes.length then some ⟨r.pos + n, h⟩ else none

/-- The number in the next bytes. -/
def number (r : Reader b) (n : ℕ) : ℕ :=
  Encoding.littleEndian (r.peek n)

/-- The reader behind some bytes that have their number ahead of them. -/
def skipCounted (r : Reader b) (n : ℕ) : Option (Reader b) :=
  (r.skip n).bind fun r' => r'.skip (r.number n)

/-- It says of some bytes that they end where no address is. -/
def Overlong (r : Reader b) (n : ℕ) : Prop :=
  ∃ r', r.skip n = some r' ∧ 2 ^ 64 ≤ r'.pos + r.number n

theorem number_lt (r : Reader b) (n : ℕ) : r.number n < 256 ^ n := by
  refine (Encoding.littleEndian_lt _).trans_le (Nat.pow_le_pow_right (by decide) ?_)
  exact (List.length_take_le _ _)

/-- A length, in as many bytes as it takes, and the reader behind it. -/
def length (r : Reader b) : Option (ℕ × Reader b) :=
  (r.skip 1).bind fun r' =>
    match r.number 1 with
    | 0xFB => some (0, r')
    | 0xFC => (r'.skip 2).map (r'.number 2, ·)
    | 0xFD => (r'.skip 3).map (r'.number 3, ·)
    | 0xFE => (r'.skip 8).map (r'.number 8, ·)
    | v => some (v, r')

theorem skip_eq_some : r.skip n = some r' ↔ r'.pos = r.pos + n := by
  have hle := r'.le
  unfold skip
  split
  · next h =>
    refine ⟨fun heq => by cases heq; rfl, fun heq => ?_⟩
    cases r'
    subst heq
    rfl
  · exact iff_of_false (fun h => by cases h) (by omega)

theorem skip_eq_none {r : Reader b} : r.skip n = none ↔ r.restLen < n := by
  have hle := r.le
  unfold skip restLen
  split
  · exact iff_of_false (fun h => by cases h) (by omega)
  · exact iff_of_true rfl (by omega)

/-- What is behind two parts is behind both together. -/
theorem skip_skip (r : Reader b) (m n : ℕ) :
    ((r.skip m).bind fun r' => r'.skip n) = r.skip (m + n) := by
  cases hm : r.skip m with
  | none =>
    have hlt := skip_eq_none.mp hm
    exact (skip_eq_none.mpr (by omega)).symm
  | some r' =>
    have hpos := skip_eq_some.mp hm
    rw [Option.bind_some]
    ext r''
    rw [skip_eq_some, skip_eq_some, hpos, Nat.add_assoc]

theorem length_rest (r : Reader b) : r.rest.length = r.restLen :=
  List.length_drop

theorem length_peek (h : r.skip n = some r') : (r.peek n).length = n := by
  rw [skip_eq_some] at h
  have hle := r'.le
  rw [peek, rest, List.length_take, List.length_drop]
  omega

theorem rest_skip (h : r.skip n = some r') : r'.rest = r.rest.drop n := by
  rw [rest, rest, List.drop_drop, skip_eq_some.mp h]

/-- A length has 64 bits and takes a byte. -/
theorem length_spec {r : Reader b} {p : ℕ × Reader b} (h : r.length = some p) :
    p.1 < 2 ^ 64 ∧ r.pos < p.2.pos := by
  obtain ⟨r', hr', h⟩ := Option.bind_eq_some_iff.mp h
  have hpos := skip_eq_some.mp hr'
  have hmore : ∀ {n}, n ≤ 8 → (r'.skip n).map (r'.number n, ·) = some p →
      p.1 < 2 ^ 64 ∧ r.pos < p.2.pos := by
    intro n hn hmap
    obtain ⟨r'', hr'', rfl⟩ := Option.map_eq_some_iff.mp hmap
    have := skip_eq_some.mp hr''
    refine ⟨(r'.number_lt n).trans_le ?_, by dsimp only; omega⟩
    exact Nat.pow_le_pow_right (by decide) hn
  split at h
  · cases h
    exact ⟨Nat.two_pow_pos 64, by dsimp only; omega⟩
  · exact hmore (by decide) h
  · exact hmore (by decide) h
  · exact hmore (by decide) h
  · cases h
    exact ⟨(r.number_lt 1).trans (by decide), by dsimp only; omega⟩

/-- A reader stands where one more byte is in memory. -/
theorem pos_lt (r : Reader b) : r.pos < 2 ^ 63 :=
  r.le.trans_lt b.fits

end Reader

/-- What reads from some bytes. -/
abbrev Checked (b : Slice) : Type → Type :=
  StateT (Reader b) (Ran DecodeError)

namespace Checked

variable {b : Slice} {α β : Type}

/-- The next bytes. -/
def take (n : ℕ) : Checked b (List UInt8) := fun r => do
  let stop ← Ran.add 64 r.pos n
  if h : stop ≤ b.bytes.length then return (r.peek n, ⟨stop, h⟩) else .failed .eof

/-- A number of some bytes. -/
def uint (n : ℕ) : Checked b ℕ := do
  return Encoding.littleEndian (← take n)

def u8v : Checked b ℕ := uint 1
def u16v : Checked b ℕ := uint 2
def u24 : Checked b ℕ := uint 3
def u32v : Checked b ℕ := uint 4
def u48 : Checked b ℕ := uint 6
def u64v : Checked b ℕ := uint 8

/-- A length, in as many bytes as it takes. -/
def lenenc : Checked b ℕ := do
  match ← u8v with
  | 0xFB => return 0
  | 0xFC => u16v
  | 0xFD => u24
  | 0xFE => u64v
  | v => return v

/-- `read_uint_n`. -/
def readUintN (n : ℕ) : Checked b ℕ :=
  uint (min n 8)

/-- What may panic, and reads nothing. -/
def check (x : Ran DecodeError α) : Checked b α :=
  StateT.lift x

/-- An error. -/
def fail (e : DecodeError) : Checked b α :=
  check (.failed e)

/-! ## What the reads come to -/

@[simp] theorem run_check_bind (x : Ran DecodeError α) (f : α → Checked b β) (r : Reader b) :
    (check x >>= f).run r = x >>= fun a => (f a).run r := by
  cases x <;> rfl

theorem ended_check_bind {x : Ran DecodeError α} {f : α → Checked b β} {r : Reader b} :
    ((check x >>= f).run r).Ended ↔ x.Ended ∧ ∀ a, x = .done a → ((f a).run r).Ended := by
  rw [run_check_bind, Ran.ended_bind]

/-- Where the reader is, and then the rest. -/
theorem ended_get_bind {f : Reader b → Checked b α} {r : Reader b} :
    ((get >>= f).run r).Ended ↔ ((f r).run r).Ended :=
  Iff.rfl

@[simp] theorem check_done_bind (a : α) (f : α → Checked b β) : check (.done a) >>= f = f a :=
  rfl

@[simp] theorem run_check (x : Ran DecodeError α) (r : Reader b) :
    (check x).run r = x >>= fun a => .done (a, r) := by
  cases x <;> rfl

@[simp] theorem run_pure (a : α) (r : Reader b) : (pure a : Checked b α).run r = .done (a, r) :=
  rfl

theorem take_run (n : ℕ) (r : Reader b) : (take n).run r =
    if 2 ^ 64 ≤ r.pos + n then .panics
    else match r.skip n with
      | some r' => .done (r.peek n, r')
      | none => .failed .eof := by
  have hrun : (take n).run r = (Ran.add 64 r.pos n >>= fun stop =>
      if h : stop ≤ b.bytes.length then .done (r.peek n, ⟨stop, h⟩) else .failed .eof) := rfl
  rw [hrun]
  split
  · next h => rw [Ran.add, if_neg (Nat.not_lt.mpr h), Ran.panics_bind]
  · next h =>
    rw [Ran.add_eq (Nat.lt_of_not_le h), Ran.done_bind, Reader.skip]
    split <;> rfl

/-- What is taken is what the reader stands ahead of. -/
theorem take_done {bytes : List UInt8} (h : (take n).run r = .done (bytes, r')) :
    r.skip n = some r' ∧ bytes = r.peek n := by
  rw [take_run] at h
  split at h
  · cases h
  · cases hskip : r.skip n with
    | none =>
      rw [hskip] at h
      cases h
    | some r'' =>
      rw [hskip] at h
      cases h
      exact ⟨rfl, rfl⟩

theorem uint_done {n v : ℕ} (h : (uint n).run r = .done (v, r')) :
    r.skip n = some r' ∧ v = r.number n := by
  have hrun : (uint n).run r =
      (take n).run r >>= fun p => .done (Encoding.littleEndian p.1, p.2) := rfl
  rw [hrun] at h
  cases htake : (take n).run r with
  | running | panics | failed e =>
    rw [htake] at h
    cases h
  | done p =>
    rw [htake] at h
    cases h
    obtain ⟨hskip, hbytes⟩ := take_done htake
    exact ⟨hskip, by rw [hbytes, Reader.number]⟩

theorem uint_run (h : n < 2 ^ 63) (r : Reader b) : (uint n).run r =
    match r.skip n with
    | some r' => .done (r.number n, r')
    | none => .failed .eof := by
  have hrun : (uint n).run r =
      (take n).run r >>= fun p => .done (Encoding.littleEndian p.1, p.2) := rfl
  have hpos := r.pos_lt
  rw [hrun, take_run, if_neg (by omega)]
  cases r.skip n <;> rfl

theorem lenenc_run (r : Reader b) : (lenenc : Checked b ℕ).run r =
    match r.length with
    | some p => .done p
    | none => .failed .eof := by
  have hrun : (lenenc : Checked b ℕ).run r = ((uint 1).run r >>= fun p =>
      StateT.run (match p.1 with
        | 0xFB => pure 0
        | 0xFC => uint 2
        | 0xFD => uint 3
        | 0xFE => uint 8
        | v => pure v : Checked b ℕ) p.2) := rfl
  rw [hrun, uint_run (by decide), Reader.length]
  cases r.skip 1 with
  | none => rfl
  | some r' =>
    rw [Ran.done_bind, Option.bind_some]
    dsimp only
    split
    · rfl
    · rw [uint_run (by decide)]
      cases r'.skip 2 <;> rfl
    · rw [uint_run (by decide)]
      cases r'.skip 3 <;> rfl
    · rw [uint_run (by decide)]
      cases r'.skip 8 <;> rfl
    · rfl

/-- It reads this, or ends because the bytes end too early. -/
def Reads (x : Checked b α) (r : Reader b) (read : Option (α × Reader b)) : Prop :=
  x.run r = read.elim (.failed .eof) .done

namespace Reads

theorem pure (a : α) (r : Reader b) : Reads (Pure.pure a) r (some (a, r)) :=
  rfl

/-- A number, and then the rest. -/
theorem uint_bind (h : n < 2 ^ 63) {f : ℕ → Checked b α} {r : Reader b}
    {g : Reader b → Option (α × Reader b)}
    (hf : ∀ r', r.skip n = some r' → Reads (f (r.number n)) r' (g r')) :
    Reads (uint n >>= f) r ((r.skip n).bind g) := by
  rw [Reads, StateT.run_bind, uint_run h]
  cases hskip : r.skip n with
  | none => rfl
  | some r' => exact hf r' hskip

/-- A few bytes, and then the rest. -/
theorem take_bind (h : n < 2 ^ 63) {f : List UInt8 → Checked b α} {r : Reader b}
    {g : Reader b → Option (α × Reader b)}
    (hf : ∀ r', r.skip n = some r' → Reads (f (r.peek n)) r' (g r')) :
    Reads (take n >>= f) r ((r.skip n).bind g) := by
  have hpos := r.pos_lt
  rw [Reads, StateT.run_bind, take_run, if_neg (by omega)]
  cases hskip : r.skip n with
  | none => rfl
  | some r' => exact hf r' hskip

/-- A length, and then the rest. -/
theorem lenenc_bind {f : ℕ → Checked b α} {r : Reader b}
    {g : ℕ × Reader b → Option (α × Reader b)}
    (hf : ∀ p, r.length = some p → Reads (f p.1) p.2 (g p)) :
    Reads (lenenc >>= f) r (r.length.bind g) := by
  rw [Reads, StateT.run_bind, lenenc_run]
  cases hlength : r.length with
  | none => rfl
  | some p => exact hf p hlength

theorem get_bind {f : Reader b → Checked b α} {r : Reader b} {read : Option (α × Reader b)}
    (h : Reads (f r) r read) : Reads (get >>= f) r read :=
  h

/-- One after the other. -/
theorem bind {x : Checked b β} {f : β → Checked b α} {r : Reader b}
    {read : Option (β × Reader b)} {g : β × Reader b → Option (α × Reader b)}
    (hx : Reads x r read) (hf : ∀ p, read = some p → Reads (f p.1) p.2 (g p)) :
    Reads (x >>= f) r (read.bind g) := by
  rw [Reads, StateT.run_bind, hx]
  cases read with
  | none => rfl
  | some p => exact hf p rfl

theorem ended {x : Checked b α} {r : Reader b} {read : Option (α × Reader b)}
    (h : Reads x r read) : (x.run r).Ended := by
  rw [h]
  cases read <;> trivial

end Reads

section

variable (enough : Prop)

/-- Some bytes are read unless they end where no address is. -/
theorem meets_take (n : ℕ) (r : Reader b) :
    Ran.Meets enough (take n) r (r.pos + n < 2 ^ 64) (r.skip n) := by
  have hrun := take_run n r
  have hfits := b.fits
  split at hrun
  · next h =>
    refine .stuck (by rw [hrun]; exact id) (by omega) _
  · next h =>
    have hread : Ran.Meets enough (take n) r True (r.skip n) := by
      cases hskip : r.skip n with
      | some r' =>
        rw [hskip] at hrun
        exact .of_done hrun
      | none =>
        rw [hskip] at hrun
        exact .of_failed hrun
    exact hread.congr (iff_of_true trivial (by omega))

/-- A few bytes never do. -/
theorem meets_take_of_lt (h : n < 2 ^ 63) (r : Reader b) :
    Ran.Meets enough (take n) r True (r.skip n) := by
  have hpos := r.pos_lt
  exact (meets_take enough n r).congr (iff_of_true (by omega) trivial)

theorem meets_uint (h : n < 2 ^ 63) (r : Reader b) : Ran.Meets enough (uint n) r True (r.skip n) :=
  .map (meets_take_of_lt enough h r) _

/-- Bytes that have their number ahead of them. -/
theorem meets_counted (h : n < 2 ^ 63) {f : List UInt8 → α} (r : Reader b) :
    Ran.Meets enough (do
      let len ← uint n
      return f (← take len)) r (¬r.Overlong n) (r.skipCounted n) := by
  have hbind : Ran.Meets enough (uint n >>= fun len => take len >>= fun raw => pure (f raw)) r
      (True ∧ ∀ r', r.skip n = some r' → r'.pos + r.number n < 2 ^ 64) (r.skipCounted n) := by
    refine .bind (meets_uint enough h r) fun len r' hrun => ?_
    obtain ⟨-, rfl⟩ := uint_done hrun
    exact .map (meets_take enough _ r') f
  refine hbind.congr ⟨?_, fun hnot => ⟨trivial, fun r' hskip => ?_⟩⟩
  · rintro ⟨-, hlt⟩ ⟨r', hskip, hle⟩
    exact absurd (hlt r' hskip) (Nat.not_lt.mpr hle)
  · by_contra hle
    exact hnot ⟨r', hskip, Nat.not_lt.mp hle⟩

/-- A few bytes that have their number ahead of them, and then the rest. -/
theorem meets_counted_bind {f : List UInt8 → Checked b α} {r : Reader b}
    {next : Reader b → Option (Reader b)}
    (hf : ∀ raw r', Ran.Meets enough (f raw) r' True (next r')) :
    Ran.Meets enough (do
      let len ← uint 1
      let raw ← take len
      f raw) r True ((r.skipCounted 1).bind next) := by
  rw [Reader.skipCounted, Option.bind_assoc]
  refine .bind_always (meets_uint enough (by decide) r) fun len r' hrun => ?_
  obtain ⟨-, rfl⟩ := uint_done hrun
  have hlt := r.number_lt 1
  exact .bind_always (meets_take_of_lt enough (by omega) r') fun raw r'' _ => hf raw r''

end

end Checked

end MySql

end Pg2osync
