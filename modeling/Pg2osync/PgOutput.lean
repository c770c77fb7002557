import Pg2osync.ByteOrder
import Pg2osync.Classify
import Pg2osync.Formats
import Pg2osync.Utf8

/-!
# Messages of the replication log

A message begins with its tag. Numbers have their high byte first, names end with a zero, and a row
has its columns counted, each with a byte that says whether it is NULL, a TOASTed value that did not
change, or a text that has its length ahead of it.
-/

namespace Pg2osync

namespace PgOutput

open Encoding Ran

/-! ## Messages -/

inductive ParseError : Type where
  | unexpectedEnd : ParseError
  | unknownMessage (tag : UInt8) : ParseError
  | trailingBytes (n : ℕ) : ParseError
  deriving DecidableEq, Repr

/-- The message of an error. -/
def ParseError.describe : ParseError → String
  | .unexpectedEnd => "message ended unexpectedly"
  | .unknownMessage t => "unknown pgoutput message tag " ++ toString t
  | .trailingBytes n => toString n ++ " unparsed trailing bytes"

structure Begin : Type where
  finalLsn : UInt64
  /-- microseconds since 2000 -/
  commitTs : Int64
  xid : UInt32
  deriving DecidableEq

structure Commit : Type where
  flags : UInt8
  commitLsn : UInt64
  endLsn : UInt64
  commitTs : Int64
  deriving DecidableEq

structure RelationColumn : Type where
  name : String
  typeOid : UInt32
  typmod : Int32
  inReplicaIdentity : Bool
  deriving DecidableEq

structure Relation : Type where
  relId : UInt32
  schema : String
  name : String
  replicaIdentity : ReplicaIdentity
  columns : List RelationColumn
  deriving DecidableEq

/-- A value of a row. -/
inductive TupleValue : Type where
  | null : TupleValue
  /-- a TOASTed value that did not change -/
  | unchangedToast : TupleValue
  | text (raw : List UInt8) : TupleValue
  deriving DecidableEq

abbrev Tuple := List TupleValue

/-- An old row: its key, or all of it. -/
inductive OldTuple : Type where
  | key (tuple : Tuple) : OldTuple
  | full (tuple : Tuple) : OldTuple
  deriving DecidableEq

inductive Message : Type where
  | begin (begun : Begin) : Message
  | relation (rel : Relation) : Message
  | type (oid : UInt32) (schema name : String) : Message
  | insert (relId : UInt32) (new : Tuple) : Message
  | update (relId : UInt32) (old : Option OldTuple) (new : Tuple) : Message
  | delete (relId : UInt32) (old : OldTuple) : Message
  | truncate (flags : UInt8) (relIds : List UInt32) : Message
  | commit (committed : Commit) : Message
  deriving DecidableEq

/-! ## The reader -/

/-- The bytes at the first places. -/
def indices (b : List UInt8) : ℕ → Ran ParseError (List UInt8)
  | 0 => pure []
  | n + 1 => do
    let front ← indices b n
    let last ← Ran.index b n
    return front ++ [last]

/-- `Reader::take` -/
def take (n : ℕ) : Reader ParseError UInt8 (List UInt8) := do
  let buf ← get
  if buf.length < n then Ran.fail .unexpectedEnd
  else do
    let head ← StateT.lift (Ran.slice buf 0 n)
    let tail ← StateT.lift (Ran.slice buf n buf.length)
    set tail
    return head

def u8 : Reader ParseError UInt8 UInt8 := do
  let b ← take 1
  StateT.lift (Ran.index b 0)

/-- A number of some bytes, the high one first. -/
def number (width : ℕ) : Reader ParseError UInt8 ℕ := do
  let b ← take width
  let bytes ← StateT.lift (indices b width)
  return Encoding.bigEndian bytes

def u16 : Reader ParseError UInt8 UInt16 := do
  return UInt16.ofNat (← number 2)

def u32 : Reader ParseError UInt8 UInt32 := do
  return UInt32.ofNat (← number 4)

def i32 : Reader ParseError UInt8 Int32 := do
  return (← u32).toInt32

def u64 : Reader ParseError UInt8 UInt64 := do
  return UInt64.ofNat (← number 8)

def i64 : Reader ParseError UInt8 Int64 := do
  return (← u64).toInt64

/-- `Reader::string` -/
def string : Reader ParseError UInt8 String := do
  let buf ← get
  match buf.findIdx? (· = 0) with
  | none => Ran.fail .unexpectedEnd
  | some pos => do
    let raw ← StateT.lift (Ran.slice buf 0 pos)
    let rest ← StateT.lift (Ran.slice buf (pos + 1) buf.length)
    set rest
    return Encoding.utf8Lossy raw

def column : Reader ParseError UInt8 TupleValue := do
  let kind ← u8
  if kind = 'n'.toUInt8 then return .null
  else if kind = 'u'.toUInt8 then return .unchangedToast
  else if kind = 't'.toUInt8 ∨ kind = 'b'.toUInt8 then do
    let len ← i32
    if len < 0 then Ran.fail .unexpectedEnd
    else return .text (← take len.toInt.toNat)
  else Ran.fail (.unknownMessage kind)

/-- `Reader::tuple` -/
def tuple : Reader ParseError UInt8 Tuple := do
  let ncols ← u16
  Ran.many column ncols.toNat

def replicaIdentity : Reader ParseError UInt8 ReplicaIdentity := do
  let b ← u8
  if b = 'd'.toUInt8 then return .default
  else if b = 'n'.toUInt8 then return .nothing
  else if b = 'f'.toUInt8 then return .full
  else if b = 'i'.toUInt8 then return .index
  else Ran.fail (.unknownMessage 'R'.toUInt8)

def relationColumn : Reader ParseError UInt8 RelationColumn := do
  let flag ← u8
  let cname ← string
  let typeOid ← u32
  let typmod ← i32
  -- the server sends a raw one, not the digit
  return ⟨cname, typeOid, typmod, decide (flag = 1 ∨ flag = '1'.toUInt8)⟩

/-- `Reader::relation` -/
def relation : Reader ParseError UInt8 Relation := do
  let relId ← u32
  let schema ← string
  let name ← string
  let identity ← replicaIdentity
  let ncols ← u16
  let columns ← Ran.many relationColumn ncols.toNat
  return ⟨relId, schema, name, identity, columns⟩

/-- The new row, behind the byte that announces it. -/
def newTuple : Reader ParseError UInt8 Tuple := do
  let marker ← u8
  if marker = 'N'.toUInt8 then tuple else Ran.fail (.unknownMessage marker)

/-- The old row, behind a byte that says what it has. -/
def oldTuple : Reader ParseError UInt8 OldTuple := do
  let k ← u8
  if k = 'K'.toUInt8 then return .key (← tuple)
  else if k = 'O'.toUInt8 then return .full (← tuple)
  else Ran.fail (.unknownMessage k)

/-- The old row of an update, if the next byte announces one. -/
def updateTuple : Reader ParseError UInt8 (Option OldTuple) := do
  let buf ← get
  match buf.head? with
  | some k =>
    if k = 'K'.toUInt8 ∨ k = 'O'.toUInt8 then return some (← oldTuple) else return none
  | none => return none

/-- What stands behind a tag. -/
def body (tag : UInt8) : Reader ParseError UInt8 Message :=
  if tag = 'B'.toUInt8 then do
    let finalLsn ← u64
    let commitTs ← i64
    let xid ← u32
    return .begin ⟨finalLsn, commitTs, xid⟩
  else if tag = 'C'.toUInt8 then do
    let flags ← u8
    let commitLsn ← u64
    let endLsn ← u64
    let commitTs ← i64
    return .commit ⟨flags, commitLsn, endLsn, commitTs⟩
  else if tag = 'R'.toUInt8 then do
    return .relation (← relation)
  else if tag = 'Y'.toUInt8 then do
    let oid ← u32
    let schema ← string
    let name ← string
    return .type oid schema name
  else if tag = 'I'.toUInt8 then do
    let relId ← u32
    let new ← newTuple
    return .insert relId new
  else if tag = 'U'.toUInt8 then do
    let relId ← u32
    let old ← updateTuple
    let new ← newTuple
    return .update relId old new
  else if tag = 'D'.toUInt8 then do
    let relId ← u32
    let old ← oldTuple
    return .delete relId old
  else if tag = 'T'.toUInt8 then do
    let nrels ← u32
    let flags ← u8
    let relIds ← Ran.many u32 nrels.toNat
    return .truncate flags relIds
  else Ran.fail (.unknownMessage tag)

/-- `parse` -/
def parse (msg : List UInt8) : Ran ParseError Message :=
  match msg.head? with
  | none => .failed .unexpectedEnd
  | some tag => do
    let rest ← Ran.slice msg 1 msg.length
    let (out, leftover) ← (body tag).run rest
    if 0 < leftover.length then .failed (.trailingBytes leftover.length) else pure out

/-! ## The wire -/

/-- A name: any bytes, as far as they are read as it, and a zero. -/
def nameWire (name : String) (raw : List UInt8) : Prop :=
  ∃ bytes, (0 : UInt8) ∉ bytes ∧ Encoding.utf8Lossy bytes = name ∧ raw = bytes ++ [0]

def be16 (x : UInt16) : List UInt8 := Encoding.toBigEndian 2 x.toNat
def be32 (x : UInt32) : List UInt8 := Encoding.toBigEndian 4 x.toNat
def be64 (x : UInt64) : List UInt8 := Encoding.toBigEndian 8 x.toNat

/-- A column of a row: a text, or what is sent in binary, is taken as it is. -/
def columnWire : TupleValue → List UInt8 → Prop
  | .null, raw => raw = ['n'.toUInt8]
  | .unchangedToast, raw => raw = ['u'.toUInt8]
  | .text bytes, raw => bytes.length < 2 ^ 31 ∧ ∃ kind, (kind = 't'.toUInt8 ∨ kind = 'b'.toUInt8) ∧
      raw = kind :: (Encoding.toBigEndian 4 bytes.length ++ bytes)

def tupleWire (row : Tuple) (raw : List UInt8) : Prop :=
  row.length < 2 ^ 16 ∧ ∃ cols, Ran.Each columnWire row cols ∧
    raw = Encoding.toBigEndian 2 row.length ++ cols

def identityByte : ReplicaIdentity → UInt8
  | .default => 'd'.toUInt8
  | .nothing => 'n'.toUInt8
  | .full => 'f'.toUInt8
  | .index => 'i'.toUInt8

/-- A column of a relation: its flag is one, or it is not. -/
def relationColumnWire (c : RelationColumn) (raw : List UInt8) : Prop :=
  ∃ flag name, (c.inReplicaIdentity = true ↔ flag = 1 ∨ flag = '1'.toUInt8) ∧ nameWire c.name name ∧
    raw = flag :: (name ++ (be32 c.typeOid ++ be32 c.typmod.toUInt32))

def relationWire (rel : Relation) (raw : List UInt8) : Prop :=
  rel.columns.length < 2 ^ 16 ∧ ∃ schema name cols, nameWire rel.schema schema ∧
    nameWire rel.name name ∧ Ran.Each relationColumnWire rel.columns cols ∧
    raw = be32 rel.relId ++ (schema ++ (name ++ (identityByte rel.replicaIdentity ::
      (Encoding.toBigEndian 2 rel.columns.length ++ cols))))

def newWire (row : Tuple) (raw : List UInt8) : Prop :=
  ∃ cols, tupleWire row cols ∧ raw = 'N'.toUInt8 :: cols

def oldWire : OldTuple → List UInt8 → Prop
  | .key row, raw => ∃ cols, tupleWire row cols ∧ raw = 'K'.toUInt8 :: cols
  | .full row, raw => ∃ cols, tupleWire row cols ∧ raw = 'O'.toUInt8 :: cols

namespace Message

def tag : Message → UInt8
  | .begin _ => 'B'.toUInt8
  | .relation _ => 'R'.toUInt8
  | .type _ _ _ => 'Y'.toUInt8
  | .insert _ _ => 'I'.toUInt8
  | .update _ _ _ => 'U'.toUInt8
  | .delete _ _ => 'D'.toUInt8
  | .truncate _ _ => 'T'.toUInt8
  | .commit _ => 'C'.toUInt8

/-- What stands behind the tag. -/
def bodyWire : Message → List UInt8 → Prop
  | .begin b, raw => raw = be64 b.finalLsn ++ (be64 b.commitTs.toUInt64 ++ be32 b.xid)
  | .relation rel, raw => relationWire rel raw
  | .type oid schema name, raw => ∃ s n, nameWire schema s ∧ nameWire name n ∧
      raw = be32 oid ++ (s ++ n)
  | .insert relId new, raw => ∃ row, newWire new row ∧ raw = be32 relId ++ row
  | .update relId none new, raw => ∃ row, newWire new row ∧ raw = be32 relId ++ row
  | .update relId (some old) new, raw => ∃ front row, oldWire old front ∧ newWire new row ∧
      raw = be32 relId ++ (front ++ row)
  | .delete relId old, raw => ∃ row, oldWire old row ∧ raw = be32 relId ++ row
  | .truncate flags relIds, raw => relIds.length < 2 ^ 32 ∧
      raw = Encoding.toBigEndian 4 relIds.length ++ (flags :: relIds.flatMap be32)
  | .commit c, raw => raw = c.flags :: (be64 c.commitLsn ++ (be64 c.endLsn ++
      be64 c.commitTs.toUInt64))

/-- A message as it comes over the wire. -/
def Wire (msg : Message) (raw : List UInt8) : Prop :=
  ∃ rest, raw = msg.tag :: rest ∧ msg.bodyWire rest

end Message

/-! ## What the reader takes -/

theorem indices_eq {b : List UInt8} {n : ℕ} (h : n ≤ b.length) : indices b n = .done (b.take n) := by
  induction n with
  | zero => rfl
  | succ n ih =>
    rw [indices, ih (by omega), done_bind, index_eq (by omega), done_bind,
      List.take_succ_eq_append_getElem (by omega)]
    rfl

theorem take_run (n : ℕ) (buf : List UInt8) : (take n).run buf =
    if buf.length < n then .failed .unexpectedEnd else .done (buf.take n, buf.drop n) := by
  have hrun : (take n).run buf = (if buf.length < n then (fail .unexpectedEnd :
      Reader ParseError UInt8 (List UInt8)) else do
        let head ← StateT.lift (slice buf 0 n)
        let tail ← StateT.lift (slice buf n buf.length)
        set tail
        return head).run buf := rfl
  rw [hrun]
  split
  · rfl
  · next h =>
    have hhead := @slice_eq ParseError UInt8 buf 0 n (Nat.zero_le n) (Nat.le_of_not_lt h)
    have htail := @slice_eq ParseError UInt8 buf n buf.length (Nat.le_of_not_lt h) le_rfl
    have hrest : (buf.drop n).take (buf.length - n) = buf.drop n :=
      List.take_of_length_le (by simp)
    simp only [StateT.run_bind, StateT.run_lift, hhead, htail, hrest, List.drop_zero, Nat.sub_zero,
      done_bind]
    rfl

theorem reads_take (n : ℕ) : Ran.ReadsAs (take n) fun head raw => raw = head ∧ head.length = n where
  complete hw rest := by
    obtain ⟨rfl, hlength⟩ := hw
    rw [take_run, if_neg (by simp; omega), List.take_left' hlength, List.drop_left' hlength]
  sound {s head rest} hrun := by
    rw [take_run] at hrun
    split at hrun
    · cases hrun
    · cases hrun
      exact ⟨s.take n, (List.take_append_drop n s).symm, rfl, List.length_take_of_le (by omega)⟩
  ends s := by
    rw [take_run]
    split <;> trivial

/-- What is computed of the bytes that are taken, without a fault. -/
theorem reads_taken {α : Type} (n : ℕ) (f : List UInt8 → Ran ParseError α) (g : List UInt8 → α)
    (h : ∀ b, b.length = n → f b = .done (g b)) :
    Ran.ReadsAs (take n >>= fun b => StateT.lift (f b)) fun a raw => raw.length = n ∧ a = g raw := by
  have hlift : ∀ b s, b.length = n → (StateT.lift (f b) : Reader ParseError UInt8 α).run s =
      (pure (g b) : Reader ParseError UInt8 α).run s := by
    intro b s hb
    rw [StateT.run_lift, h b hb]
    rfl
  have hsame : (take n >>= fun b => StateT.lift (f b)) =
      (take n >>= fun b => pure (g b) : Reader ParseError UInt8 α) := by
    funext s
    change (take n >>= fun b => StateT.lift (f b)).run s = (take n >>= fun b => pure (g b)).run s
    rw [StateT.run_bind, StateT.run_bind, take_run]
    split
    · rfl
    · exact hlift _ _ (List.length_take_of_le (by omega))
  rw [hsame]
  refine ((reads_take n).map g).congr fun a raw => ?_
  constructor
  · rintro ⟨b, ⟨rfl, hb⟩, rfl⟩
    exact ⟨hb, rfl⟩
  · rintro ⟨hb, rfl⟩
    exact ⟨raw, ⟨rfl, hb⟩, rfl⟩

theorem reads_u8 : Ran.ReadsAs u8 fun b raw => raw = [b] := by
  refine (reads_taken 1 (index · 0) (·.headD 0) fun b hb => ?_).congr fun b raw => ?_
  · obtain ⟨x, rfl⟩ := List.length_eq_one_iff.mp hb
    rfl
  · constructor
    · rintro ⟨hlength, rfl⟩
      obtain ⟨x, rfl⟩ := List.length_eq_one_iff.mp hlength
      rfl
    · rintro rfl
      exact ⟨rfl, rfl⟩

theorem reads_number (width : ℕ) : Ran.ReadsAs (number width) fun n raw =>
    raw = toBigEndian width n ∧ n < 256 ^ width := by
  have hread := (reads_taken width (indices · width) (fun b => b) fun b hb => by
    rw [indices_eq hb.ge, List.take_of_length_le hb.le]).map bigEndian
  rw [bind_assoc] at hread
  refine hread.congr fun n raw => ?_
  constructor
  · rintro ⟨b, ⟨hlength, rfl⟩, rfl⟩
    have hback := toBigEndian_bigEndian b
    rw [hlength] at hback
    exact ⟨hback.symm, hlength ▸ bigEndian_lt b⟩
  · rintro ⟨rfl, hlt⟩
    exact ⟨_, ⟨length_toBigEndian _ _, rfl⟩,
      by rw [bigEndian_toBigEndian, Nat.mod_eq_of_lt hlt]⟩

theorem reads_u16 : Ran.ReadsAs u16 fun x raw => raw = be16 x := by
  refine ((reads_number 2).map UInt16.ofNat).congr fun x raw => ?_
  constructor
  · rintro ⟨n, ⟨rfl, hlt⟩, rfl⟩
    rw [be16, UInt16.toNat_ofNat', Nat.mod_eq_of_lt (show n < 2 ^ 16 from hlt)]
  · rintro rfl
    exact ⟨x.toNat, ⟨rfl, x.toNat_lt⟩, UInt16.ofNat_toNat.symm⟩

theorem reads_u32 : Ran.ReadsAs u32 fun x raw => raw = be32 x := by
  refine ((reads_number 4).map UInt32.ofNat).congr fun x raw => ?_
  constructor
  · rintro ⟨n, ⟨rfl, hlt⟩, rfl⟩
    rw [be32, UInt32.toNat_ofNat', Nat.mod_eq_of_lt (show n < 2 ^ 32 from hlt)]
  · rintro rfl
    exact ⟨x.toNat, ⟨rfl, x.toNat_lt⟩, UInt32.ofNat_toNat.symm⟩

theorem reads_u64 : Ran.ReadsAs u64 fun x raw => raw = be64 x := by
  refine ((reads_number 8).map UInt64.ofNat).congr fun x raw => ?_
  constructor
  · rintro ⟨n, ⟨rfl, hlt⟩, rfl⟩
    rw [be64, UInt64.toNat_ofNat', Nat.mod_eq_of_lt (show n < 2 ^ 64 from hlt)]
  · rintro rfl
    exact ⟨x.toNat, ⟨rfl, x.toNat_lt⟩, UInt64.ofNat_toNat.symm⟩

theorem reads_i32 : Ran.ReadsAs i32 fun x raw => raw = be32 x.toUInt32 := by
  refine (reads_u32.map UInt32.toInt32).congr fun x raw => ?_
  constructor
  · rintro ⟨u, rfl, rfl⟩
    rw [UInt32.toUInt32_toInt32]
  · rintro rfl
    exact ⟨x.toUInt32, rfl, (Int32.toInt32_toUInt32 x).symm⟩

theorem reads_i64 : Ran.ReadsAs i64 fun x raw => raw = be64 x.toUInt64 := by
  refine (reads_u64.map UInt64.toInt64).congr fun x raw => ?_
  constructor
  · rintro ⟨u, rfl, rfl⟩
    rw [UInt64.toUInt64_toInt64]
  · rintro rfl
    exact ⟨x.toUInt64, rfl, (Int64.toInt64_toUInt64 x).symm⟩

theorem string_none {buf : List UInt8} (h : buf.findIdx? (· = 0) = none) :
    string.run buf = .failed .unexpectedEnd := by
  simp only [string, StateT.run_bind, StateT.run_get, pure_eq, done_bind, h, run_fail]

/-- A name is what is ahead of the first zero. -/
theorem string_some {buf : List UInt8} {pos : ℕ} (h : buf.findIdx? (· = 0) = some pos) :
    string.run buf = .done (utf8Lossy (buf.take pos), buf.drop (pos + 1)) := by
  obtain ⟨hlt, -⟩ := List.findIdx?_eq_some_iff_getElem.mp h
  have hraw := @slice_eq ParseError UInt8 buf 0 pos (Nat.zero_le pos) hlt.le
  have hrest := @slice_eq ParseError UInt8 buf (pos + 1) buf.length hlt le_rfl
  have hall : (buf.drop (pos + 1)).take (buf.length - (pos + 1)) = buf.drop (pos + 1) :=
    List.take_of_length_le (by simp)
  simp only [string, StateT.run_bind, StateT.run_get, pure_eq, done_bind, h,
    StateT.run_lift, hraw, hrest, hall, List.drop_zero, Nat.sub_zero]
  rfl

theorem reads_string : Ran.ReadsAs string nameWire where
  complete {name raw} hw rest := by
    obtain ⟨bytes, hzero, rfl, rfl⟩ := hw
    have hpos : (bytes ++ [0] ++ rest).findIdx? (· = 0) = some bytes.length := by
      rw [List.append_assoc, List.singleton_append, List.findIdx?_eq_some_iff_getElem]
      refine ⟨by simp, by simp, fun j hj => ?_⟩
      rw [List.getElem_append_left hj, decide_eq_true_iff]
      exact fun heq => hzero (heq ▸ List.getElem_mem hj)
    rw [string_some hpos, List.append_assoc, List.take_left, ← List.drop_drop, List.drop_left]
    rfl
  sound {s name rest} hrun := by
    cases hpos : s.findIdx? (· = 0) with
    | none =>
      rw [string_none hpos] at hrun
      cases hrun
    | some pos =>
      rw [string_some hpos] at hrun
      cases hrun
      obtain ⟨hlt, hat, hahead⟩ := List.findIdx?_eq_some_iff_getElem.mp hpos
      have hat : s[pos] = 0 := by simpa using hat
      refine ⟨s.take pos ++ [0], ?_, s.take pos, fun hmem => ?_, rfl, rfl⟩
      · rw [List.append_assoc, List.singleton_append, ← hat, List.getElem_cons_drop,
          List.take_append_drop]
      · obtain ⟨j, hj, heq⟩ := List.getElem_of_mem hmem
        rw [List.length_take] at hj
        rw [List.getElem_take] at heq
        exact hahead j (by omega) (by simpa using heq)
  ends s := by
    cases hpos : s.findIdx? (· = 0) with
    | none => exact string_none hpos ▸ trivial
    | some pos => exact string_some hpos ▸ trivial

/-- A signed number is below zero where its top bit is set. -/
theorem toInt_eq (len : Int32) : len.toInt =
    if 2 * len.toUInt32.toNat < 2 ^ 32 then (len.toUInt32.toNat : ℤ) else len.toUInt32.toNat - 2 ^ 32 :=
  BitVec.toInt_eq_toNat_cond len.toBitVec

/-- A length that is not below zero. -/
theorem length_wire {len : Int32} (h : ¬len < 0) :
    len.toUInt32.toNat = len.toInt.toNat ∧ len.toInt.toNat < 2 ^ 31 := by
  have hsign : 0 ≤ len.toInt := by
    rw [Int32.lt_iff_toInt_lt, Int32.toInt_zero] at h
    exact not_lt.mp h
  have hlt := len.toUInt32.toNat_lt
  have hint := toInt_eq len
  split at hint <;> omega

theorem length_read {n : ℕ} (h : n < 2 ^ 31) : ∃ len : Int32, ¬len < 0 ∧ len.toInt.toNat = n ∧
    be32 len.toUInt32 = toBigEndian 4 n := by
  have hnat : (UInt32.ofNat n).toInt32.toUInt32.toNat = n := by
    rw [UInt32.toUInt32_toInt32, UInt32.toNat_ofNat', Nat.mod_eq_of_lt (by omega)]
  have hint := toInt_eq (UInt32.ofNat n).toInt32
  rw [hnat, if_pos (by omega)] at hint
  refine ⟨(UInt32.ofNat n).toInt32, ?_, by rw [hint, Int.toNat_natCast], by rw [be32, hnat]⟩
  rw [Int32.lt_iff_toInt_lt, Int32.toInt_zero, hint]
  omega

theorem reads_column : Ran.ReadsAs column columnWire := by
  have htext : ∀ len : Int32, Ran.ReadsAs (if len < 0 then fail .unexpectedEnd
      else take len.toInt.toNat >>= fun raw => pure (TupleValue.text raw)) _ := fun len =>
    .ite (fun _ => .fail _) fun _ => (reads_take _).map TupleValue.text
  refine (reads_u8.bind fun kind => .ite (fun _ => .pure _) fun _ => .ite (fun _ => .pure _) fun _ =>
    .ite (fun _ => reads_i32.bind htext) fun _ => .fail _).congr fun v raw => ?_
  constructor
  · rintro ⟨kind, x, y, rfl, hy, rfl⟩
    split_ifs at hy with hn hu ht
    · obtain ⟨rfl, rfl⟩ := hy
      rw [hn]
      rfl
    · obtain ⟨rfl, rfl⟩ := hy
      rw [hu]
      rfl
    · obtain ⟨len, x, z, rfl, hz, rfl⟩ := hy
      split_ifs at hz with hneg
      obtain ⟨bytes, ⟨rfl, hlength⟩, rfl⟩ := hz
      obtain ⟨hsame, hlt⟩ := length_wire hneg
      refine ⟨hlength ▸ hlt, kind, ht, ?_⟩
      rw [be32, hsame, hlength]
      rfl
  · intro hv
    cases v with
    | null => exact ⟨'n'.toUInt8, _, [], rfl, ⟨rfl, rfl⟩, hv⟩
    | unchangedToast => exact ⟨'u'.toUInt8, _, [], rfl, ⟨rfl, rfl⟩, hv⟩
    | text bytes =>
      obtain ⟨hlt, kind, hkind, rfl⟩ := hv
      obtain ⟨len, hneg, hlength, hraw⟩ := length_read hlt
      refine ⟨kind, [kind], toBigEndian 4 bytes.length ++ bytes, rfl, ?_, rfl⟩
      have hn : kind ≠ 'n'.toUInt8 := by rcases hkind with rfl | rfl <;> decide
      have hu : kind ≠ 'u'.toUInt8 := by rcases hkind with rfl | rfl <;> decide
      rw [if_neg hn, if_neg hu, if_pos hkind]
      refine ⟨len, be32 len.toUInt32, bytes, rfl, ?_, by rw [hraw]⟩
      rw [if_neg hneg]
      exact ⟨bytes, ⟨rfl, hlength.symm⟩, rfl⟩

/-- What is counted with two bytes. -/
theorem reads_counted {α : Type} {r : Reader ParseError UInt8 α} {W : α → List UInt8 → Prop}
    (h : Ran.ReadsAs r W) :
    Ran.ReadsAs (u16 >>= fun n => many r n.toNat) fun list raw =>
      list.length < 2 ^ 16 ∧ ∃ parts, Ran.Each W list parts ∧
        raw = toBigEndian 2 list.length ++ parts := by
  refine (reads_u16.bind fun n => h.many n.toNat).congr fun list raw => ?_
  constructor
  · rintro ⟨n, x, parts, rfl, ⟨hlength, heach⟩, rfl⟩
    exact ⟨hlength ▸ n.toNat_lt, parts, heach, by rw [be16, hlength]⟩
  · rintro ⟨hlt, parts, heach, rfl⟩
    have hnat : (UInt16.ofNat list.length).toNat = list.length := by
      rw [UInt16.toNat_ofNat', Nat.mod_eq_of_lt hlt]
    exact ⟨UInt16.ofNat list.length, _, parts, rfl, ⟨hnat.symm, heach⟩, by rw [be16, hnat]⟩

theorem reads_tuple : Ran.ReadsAs tuple tupleWire :=
  reads_counted reads_column

theorem reads_replicaIdentity :
    Ran.ReadsAs replicaIdentity fun identity raw => raw = [identityByte identity] := by
  refine (reads_u8.bind fun b => .ite (fun _ => .pure _) fun _ => .ite (fun _ => .pure _) fun _ =>
    .ite (fun _ => .pure _) fun _ => .ite (fun _ => .pure _) fun _ => .fail _).congr
      fun identity raw => ?_
  constructor
  · rintro ⟨b, x, y, rfl, hy, rfl⟩
    split_ifs at hy with hd hn hf hi
    · obtain ⟨rfl, rfl⟩ := hy
      rw [hd]
      rfl
    · obtain ⟨rfl, rfl⟩ := hy
      rw [hn]
      rfl
    · obtain ⟨rfl, rfl⟩ := hy
      rw [hf]
      rfl
    · obtain ⟨rfl, rfl⟩ := hy
      rw [hi]
      rfl
  · rintro rfl
    refine ⟨identityByte identity, _, [], rfl, ?_, rfl⟩
    cases identity <;> exact ⟨rfl, rfl⟩

theorem reads_relationColumn : Ran.ReadsAs relationColumn relationColumnWire := by
  refine (reads_u8.bind fun flag => reads_string.bind fun name => reads_u32.bind fun typeOid =>
    reads_i32.map fun typmod => RelationColumn.mk name typeOid typmod
      (decide (flag = 1 ∨ flag = '1'.toUInt8))).congr fun c raw => ?_
  constructor
  · rintro ⟨flag, x, y, rfl, ⟨name, s, z, hs, ⟨typeOid, o, t, rfl, ⟨typmod, rfl, rfl⟩, rfl⟩, rfl⟩, rfl⟩
    exact ⟨flag, s, decide_eq_true_iff, hs, rfl⟩
  · rintro ⟨flag, s, hflag, hs, rfl⟩
    refine ⟨flag, _, _, rfl, ⟨c.name, s, _, hs, ⟨c.typeOid, _, _, rfl, ⟨c.typmod, rfl, ?_⟩, rfl⟩, rfl⟩,
      rfl⟩
    cases c
    exact congrArg _ (Bool.eq_iff_iff.mpr (hflag.trans decide_eq_true_iff.symm))

theorem reads_relation : Ran.ReadsAs relation relationWire := by
  have hcolumns := fun make : List RelationColumn → Relation =>
    (reads_counted reads_relationColumn).map make
  simp only [bind_assoc] at hcolumns
  refine (reads_u32.bind fun relId => reads_string.bind fun schema => reads_string.bind fun name =>
    reads_replicaIdentity.bind fun identity => hcolumns
      (Relation.mk relId schema name identity)).congr fun rel raw => ?_
  constructor
  · rintro ⟨relId, a, y, rfl, ⟨schema, s, z, hs, ⟨name, n, w, hn, ⟨identity, i, v, rfl,
      ⟨columns, ⟨hlt, cols, heach, rfl⟩, rfl⟩, rfl⟩, rfl⟩, rfl⟩, rfl⟩
    exact ⟨hlt, s, n, cols, hs, hn, heach, rfl⟩
  · rintro ⟨hlt, s, n, cols, hs, hn, heach, rfl⟩
    exact ⟨rel.relId, _, _, rfl, ⟨rel.schema, s, _, hs, ⟨rel.name, n, _, hn, ⟨rel.replicaIdentity, _,
      _, rfl, ⟨rel.columns, ⟨hlt, cols, heach, rfl⟩, rfl⟩, rfl⟩, rfl⟩, rfl⟩, rfl⟩

theorem reads_newTuple : Ran.ReadsAs newTuple newWire := by
  refine (reads_u8.bind fun marker => .ite (fun _ => reads_tuple) fun _ => .fail _).congr
    fun row raw => ?_
  constructor
  · rintro ⟨marker, x, y, rfl, hy, rfl⟩
    split_ifs at hy with hmarker
    exact ⟨y, hy, by rw [hmarker]; rfl⟩
  · rintro ⟨cols, hcols, rfl⟩
    exact ⟨'N'.toUInt8, _, cols, rfl, hcols, rfl⟩

theorem reads_oldTuple : Ran.ReadsAs oldTuple oldWire := by
  refine (reads_u8.bind fun k => .ite (fun _ => reads_tuple.map OldTuple.key) fun _ =>
    .ite (fun _ => reads_tuple.map OldTuple.full) fun _ => .fail _).congr fun old raw => ?_
  constructor
  · rintro ⟨k, x, y, rfl, hy, rfl⟩
    split_ifs at hy with hk ho
    · obtain ⟨row, hrow, rfl⟩ := hy
      exact ⟨y, hrow, by rw [hk]; rfl⟩
    · obtain ⟨row, hrow, rfl⟩ := hy
      exact ⟨y, hrow, by rw [ho]; rfl⟩
  · cases old with
    | key row =>
      rintro ⟨cols, hcols, rfl⟩
      exact ⟨'K'.toUInt8, _, cols, rfl, ⟨row, hcols, rfl⟩, rfl⟩
    | full row =>
      rintro ⟨cols, hcols, rfl⟩
      exact ⟨'O'.toUInt8, _, cols, rfl, ⟨row, hcols, rfl⟩, rfl⟩

/-- The rows of an update: the byte ahead of them says whether there is an old one. -/
theorem reads_updateTuples :
    Ran.ReadsAs (updateTuple >>= fun old => newTuple >>= fun new => pure (old, new))
      fun p raw => (∃ old front row, p.1 = some old ∧ oldWire old front ∧ newWire p.2 row ∧
        raw = front ++ row) ∨ p.1 = none ∧ newWire p.2 raw := by
  have hsome : Ran.ReadsAs (oldTuple >>= fun old => newTuple >>= fun new => pure (some old, new))
      fun p raw => ∃ old front row, p.1 = some old ∧ oldWire old front ∧ newWire p.2 row ∧
        raw = front ++ row := by
    refine (reads_oldTuple.bind fun old => reads_newTuple.map fun new => (some old, new)).congr
      fun p raw => ?_
    constructor
    · rintro ⟨old, front, row, hold, ⟨new, hnew, rfl⟩, rfl⟩
      exact ⟨old, front, row, rfl, hold, hnew, rfl⟩
    · rintro ⟨old, front, row, hp, hold, hnew, rfl⟩
      exact ⟨old, front, row, hold, ⟨p.2, hnew, Prod.ext hp rfl⟩, rfl⟩
  have hnone : Ran.ReadsAs (newTuple >>= fun new => pure ((none : Option OldTuple), new))
      fun p raw => p.1 = none ∧ newWire p.2 raw := by
    refine (reads_newTuple.map fun new => (none, new)).congr fun p raw => ?_
    constructor
    · rintro ⟨new, hnew, rfl⟩
      exact ⟨rfl, hnew⟩
    · rintro ⟨hp, hnew⟩
      exact ⟨p.2, hnew, Prod.ext hp rfl⟩
  refine Ran.ReadsAs.choose (p := fun k => k = 'K'.toUInt8 ∨ k = 'O'.toUInt8) hsome hnone
    (fun k s hk => ?_) (fun s hs => ?_) ?_ ?_
  · simp only [updateTuple, StateT.run_bind, StateT.run_get, pure_eq, done_bind,
      List.head?_cons, if_pos hk, bind_assoc, StateT.run_pure]
  · cases hhead : s.head? with
    | none =>
      simp only [updateTuple, StateT.run_bind, StateT.run_get, pure_eq, done_bind, hhead,
        StateT.run_pure]
    | some k =>
      simp only [updateTuple, StateT.run_bind, StateT.run_get, pure_eq, done_bind, hhead,
        if_neg (hs k hhead), StateT.run_pure]
  · rintro p raw ⟨old, front, row, -, hold, -, rfl⟩
    cases old with
    | key tuple =>
      obtain ⟨cols, -, rfl⟩ := hold
      exact ⟨_, _, rfl, .inl rfl⟩
    | full tuple =>
      obtain ⟨cols, -, rfl⟩ := hold
      exact ⟨_, _, rfl, .inr rfl⟩
  · rintro p raw ⟨-, cols, -, rfl⟩
    exact ⟨_, _, rfl, by decide⟩

/-- What stands behind a tag is read as a message of the tag. -/
theorem reads_body (tag : UInt8) :
    Ran.ReadsAs (body tag) fun msg raw => msg.tag = tag ∧ msg.bodyWire raw := by
  rw [body]
  split_ifs with hb hc hr hy hi hu hd ht
  · subst hb
    refine (reads_u64.bind fun finalLsn => reads_i64.bind fun commitTs => reads_u32.map fun xid =>
      Message.begin ⟨finalLsn, commitTs, xid⟩).congr fun msg raw => ?_
    constructor
    · rintro ⟨a, x, y, rfl, ⟨b, x, y, rfl, ⟨c, rfl, rfl⟩, rfl⟩, rfl⟩
      exact ⟨rfl, rfl⟩
    · rintro ⟨htag, hbody⟩
      cases msg with
      | begin b =>
        exact ⟨b.finalLsn, _, _, rfl, ⟨b.commitTs, _, _, rfl, ⟨b.xid, rfl, rfl⟩, rfl⟩, hbody⟩
      | _ => exact absurd htag (by rw [Message.tag]; decide)
  · subst hc
    refine (reads_u8.bind fun flags => reads_u64.bind fun commitLsn => reads_u64.bind fun endLsn =>
      reads_i64.map fun commitTs => Message.commit ⟨flags, commitLsn, endLsn, commitTs⟩).congr
        fun msg raw => ?_
    constructor
    · rintro ⟨a, x, y, rfl, ⟨b, x, y, rfl, ⟨c, x, y, rfl, ⟨d, rfl, rfl⟩, rfl⟩, rfl⟩, rfl⟩
      exact ⟨rfl, rfl⟩
    · rintro ⟨htag, hbody⟩
      cases msg with
      | commit c =>
        exact ⟨c.flags, _, _, rfl, ⟨c.commitLsn, _, _, rfl, ⟨c.endLsn, _, _, rfl,
          ⟨c.commitTs, rfl, rfl⟩, rfl⟩, rfl⟩, hbody⟩
      | _ => exact absurd htag (by rw [Message.tag]; decide)
  · subst hr
    refine (reads_relation.map Message.relation).congr fun msg raw => ?_
    constructor
    · rintro ⟨rel, hrel, rfl⟩
      exact ⟨rfl, hrel⟩
    · rintro ⟨htag, hbody⟩
      cases msg with
      | relation rel => exact ⟨rel, hbody, rfl⟩
      | _ => exact absurd htag (by rw [Message.tag]; decide)
  · subst hy
    refine (reads_u32.bind fun oid => reads_string.bind fun schema => reads_string.map fun name =>
      Message.type oid schema name).congr fun msg raw => ?_
    constructor
    · rintro ⟨oid, x, y, rfl, ⟨schema, s, n, hs, ⟨name, hn, rfl⟩, rfl⟩, rfl⟩
      exact ⟨rfl, s, n, hs, hn, rfl⟩
    · rintro ⟨htag, hbody⟩
      cases msg with
      | type oid schema name =>
        obtain ⟨s, n, hs, hn, rfl⟩ := hbody
        exact ⟨oid, _, _, rfl, ⟨schema, s, n, hs, ⟨name, hn, rfl⟩, rfl⟩, rfl⟩
      | _ => exact absurd htag (by rw [Message.tag]; decide)
  · subst hi
    refine (reads_u32.bind fun relId => reads_newTuple.map fun new =>
      Message.insert relId new).congr fun msg raw => ?_
    constructor
    · rintro ⟨relId, x, row, rfl, ⟨new, hnew, rfl⟩, rfl⟩
      exact ⟨rfl, row, hnew, rfl⟩
    · rintro ⟨htag, hbody⟩
      cases msg with
      | insert relId new =>
        obtain ⟨row, hnew, rfl⟩ := hbody
        exact ⟨relId, _, row, rfl, ⟨new, hnew, rfl⟩, rfl⟩
      | _ => exact absurd htag (by rw [Message.tag]; decide)
  · subst hu
    have htuples := fun relId => reads_updateTuples.map fun p => Message.update relId p.1 p.2
    simp only [bind_assoc, pure_bind] at htuples
    refine (reads_u32.bind htuples).congr fun msg raw => ?_
    constructor
    · rintro ⟨relId, x, y, rfl, ⟨⟨old, new⟩, hp, rfl⟩, rfl⟩
      obtain ⟨old', front, row, rfl, hold, hnew, rfl⟩ | ⟨rfl, hnew⟩ := hp
      · exact ⟨rfl, front, row, hold, hnew, rfl⟩
      · exact ⟨rfl, y, hnew, rfl⟩
    · rintro ⟨htag, hbody⟩
      cases msg with
      | update relId old new =>
        cases old with
        | none =>
          obtain ⟨row, hnew, rfl⟩ := hbody
          exact ⟨relId, _, row, rfl, ⟨(none, new), .inr ⟨rfl, hnew⟩, rfl⟩, rfl⟩
        | some old =>
          obtain ⟨front, row, hold, hnew, rfl⟩ := hbody
          exact ⟨relId, _, front ++ row, rfl,
            ⟨(some old, new), .inl ⟨old, front, row, rfl, hold, hnew, rfl⟩, rfl⟩, rfl⟩
      | _ => exact absurd htag (by rw [Message.tag]; decide)
  · subst hd
    refine (reads_u32.bind fun relId => reads_oldTuple.map fun old =>
      Message.delete relId old).congr fun msg raw => ?_
    constructor
    · rintro ⟨relId, x, row, rfl, ⟨old, hold, rfl⟩, rfl⟩
      exact ⟨rfl, row, hold, rfl⟩
    · rintro ⟨htag, hbody⟩
      cases msg with
      | delete relId old =>
        obtain ⟨row, hold, rfl⟩ := hbody
        exact ⟨relId, _, row, rfl, ⟨old, hold, rfl⟩, rfl⟩
      | _ => exact absurd htag (by rw [Message.tag]; decide)
  · subst ht
    refine (reads_u32.bind fun nrels => reads_u8.bind fun flags =>
      (reads_u32.many nrels.toNat).map fun relIds => Message.truncate flags relIds).congr
        fun msg raw => ?_
    constructor
    · rintro ⟨nrels, x, y, rfl, ⟨flags, x, y, rfl, ⟨relIds, ⟨hlength, heach⟩, rfl⟩, rfl⟩, rfl⟩
      refine ⟨rfl, hlength ▸ nrels.toNat_lt, ?_⟩
      rw [heach.eq_flatMap fun _ _ h => h, be32, hlength]
      rfl
    · rintro ⟨htag, hbody⟩
      cases msg with
      | truncate flags relIds =>
        obtain ⟨hlt, rfl⟩ := hbody
        have hnat : (UInt32.ofNat relIds.length).toNat = relIds.length := by
          rw [UInt32.toNat_ofNat', Nat.mod_eq_of_lt hlt]
        refine ⟨UInt32.ofNat relIds.length, _, _, rfl, ⟨flags, _, _, rfl, ⟨relIds, ⟨hnat.symm,
          .flatMap fun _ _ => rfl⟩, rfl⟩, rfl⟩, ?_⟩
        rw [be32, hnat]
        rfl
      | _ => exact absurd htag (by rw [Message.tag]; decide)
  · refine (Ran.ReadsAs.fail _).congr fun msg raw => iff_of_false id ?_
    rintro ⟨htag, -⟩
    cases msg with
    | begin b => exact hb htag.symm
    | relation rel => exact hr htag.symm
    | type oid schema name => exact hy htag.symm
    | insert relId new => exact hi htag.symm
    | update relId old new => exact hu htag.symm
    | delete relId old => exact hd htag.symm
    | truncate flags relIds => exact ht htag.symm
    | commit c => exact hc htag.symm

/-- Without a tag there is no message, and behind it the message is all there is. -/
theorem parse_cons (tag : UInt8) (rest : List UInt8) : parse (tag :: rest) =
    (body tag).run rest >>= fun p =>
      if 0 < p.2.length then .failed (.trailingBytes p.2.length) else pure p.1 := by
  have hslice : (slice (tag :: rest) 1 (tag :: rest).length : Ran ParseError (List UInt8)) =
      .done rest := by
    rw [slice_eq (by simp) le_rfl]
    exact congrArg done (List.take_of_length_le (by simp))
  rw [parse, List.head?_cons]
  dsimp only
  rw [hslice, done_bind]

/-- **A message is read of the bytes it may be sent as, and of no others.** -/
theorem parse_done_iff {raw : List UInt8} {msg : Message} :
    parse raw = .done msg ↔ msg.Wire raw := by
  cases raw with
  | nil =>
    refine iff_of_false (fun h => by cases h) fun h => ?_
    obtain ⟨_, h, -⟩ := h
    cases h
  | cons tag rest =>
    rw [parse_cons]
    constructor
    · intro h
      cases hrun : (body tag).run rest with
      | running | panics | failed e =>
        rw [hrun] at h
        cases h
      | done p =>
        rw [hrun, done_bind] at h
        split at h
        · cases h
        · next hleft =>
          cases h
          obtain ⟨front, hfront, htag, hbody⟩ := (reads_body tag).sound hrun
          have hnil : p.2 = [] := List.eq_nil_of_length_eq_zero (by omega)
          rw [hnil, List.append_nil] at hfront
          exact ⟨rest, by rw [htag], hfront ▸ hbody⟩
    · rintro ⟨rest', heq, hbody⟩
      cases heq
      have hrun := (reads_body msg.tag).complete ⟨rfl, hbody⟩ []
      rw [List.append_nil] at hrun
      rw [hrun]
      rfl

/-- It neither panics nor goes on for ever. -/
theorem parse_ended (raw : List UInt8) : (parse raw).Ended := by
  cases raw with
  | nil => trivial
  | cons tag rest =>
    rw [parse_cons, ended_bind]
    refine ⟨(reads_body tag).ends rest, fun p _ => ?_⟩
    split <;> trivial

/-- What is no message is an error. -/
theorem parse_failed_iff {raw : List UInt8} :
    (∃ e, parse raw = .failed e) ↔ ∀ msg : Message, ¬msg.Wire raw := by
  have hended := parse_ended raw
  constructor
  · rintro ⟨e, he⟩ msg hmsg
    have hdone := parse_done_iff.mpr hmsg
    rw [he] at hdone
    cases hdone
  · intro hnone
    cases hparse : parse raw with
    | running | panics =>
      rw [hparse] at hended
      exact absurd hended id
    | failed e => exact ⟨e, rfl⟩
    | done msg => exact absurd (parse_done_iff.mp hparse) (hnone msg)

/-- No message goes on as another. -/
theorem wire_append {msg msg' : Message} {front back : List UInt8} (h : msg.Wire front)
    (h' : msg'.Wire (front ++ back)) : back = [] := by
  obtain ⟨rest, rfl, hbody⟩ := h
  obtain ⟨rest', heq, hbody'⟩ := h'
  rw [List.cons_append, List.cons.injEq] at heq
  obtain ⟨htag, rfl⟩ := heq
  exact (reads_body msg.tag).append_eq_nil ⟨rfl, hbody⟩ ⟨htag.symm, hbody'⟩

/-! ## What the server sends -/

def encodeName (name : String) : List UInt8 :=
  Encoding.utf8Bytes name ++ [0]

def encodeColumn : TupleValue → List UInt8
  | .null => ['n'.toUInt8]
  | .unchangedToast => ['u'.toUInt8]
  | .text bytes => 't'.toUInt8 :: (Encoding.toBigEndian 4 bytes.length ++ bytes)

def encodeTuple (row : Tuple) : List UInt8 :=
  Encoding.toBigEndian 2 row.length ++ row.flatMap encodeColumn

def encodeRelationColumn (c : RelationColumn) : List UInt8 :=
  (if c.inReplicaIdentity then 1 else 0) ::
    (encodeName c.name ++ (be32 c.typeOid ++ be32 c.typmod.toUInt32))

def encodeRelation (rel : Relation) : List UInt8 :=
  be32 rel.relId ++ (encodeName rel.schema ++ (encodeName rel.name ++
    (identityByte rel.replicaIdentity :: (Encoding.toBigEndian 2 rel.columns.length ++
      rel.columns.flatMap encodeRelationColumn))))

def encodeNew (row : Tuple) : List UInt8 :=
  'N'.toUInt8 :: encodeTuple row

def encodeOld : OldTuple → List UInt8
  | .key row => 'K'.toUInt8 :: encodeTuple row
  | .full row => 'O'.toUInt8 :: encodeTuple row

namespace Message

def encodeBody : Message → List UInt8
  | .begin b => be64 b.finalLsn ++ (be64 b.commitTs.toUInt64 ++ be32 b.xid)
  | .relation rel => encodeRelation rel
  | .type oid schema name => be32 oid ++ (encodeName schema ++ encodeName name)
  | .insert relId new => be32 relId ++ encodeNew new
  | .update relId none new => be32 relId ++ encodeNew new
  | .update relId (some old) new => be32 relId ++ (encodeOld old ++ encodeNew new)
  | .delete relId old => be32 relId ++ encodeOld old
  | .truncate flags relIds =>
    Encoding.toBigEndian 4 relIds.length ++ (flags :: relIds.flatMap be32)
  | .commit c => c.flags :: (be64 c.commitLsn ++ (be64 c.endLsn ++ be64 c.commitTs.toUInt64))

end Message

/-- A name has no zero in it. -/
def NameFits (name : String) : Prop :=
  '\x00' ∉ name.toList

/-- A row can be counted, and the texts in it. -/
def TupleFits (row : Tuple) : Prop :=
  row.length < 2 ^ 16 ∧ ∀ bytes, TupleValue.text bytes ∈ row → bytes.length < 2 ^ 31

/-- A message that can be sent: its names end where they should, and what is counted is not more
than can be. -/
def Message.Fits : Message → Prop
  | .begin _ | .commit _ => True
  | .relation rel => NameFits rel.schema ∧ NameFits rel.name ∧ rel.columns.length < 2 ^ 16 ∧
      ∀ c ∈ rel.columns, NameFits c.name
  | .type _ schema name => NameFits schema ∧ NameFits name
  | .insert _ new => TupleFits new
  | .update _ none new => TupleFits new
  | .update _ (some (.key old)) new | .update _ (some (.full old)) new =>
    TupleFits old ∧ TupleFits new
  | .delete _ (.key old) | .delete _ (.full old) => TupleFits old
  | .truncate _ relIds => relIds.length < 2 ^ 32

structure WireMessage : Type where
  message : Message
  fits : message.Fits

/-- The bytes of a message. -/
def WireMessage.encode (w : WireMessage) : List UInt8 :=
  w.message.tag :: w.message.encodeBody

theorem wire_encodeName {name : String} (h : NameFits name) : nameWire name (encodeName name) := by
  refine ⟨utf8Bytes name, fun hmem => ?_, utf8Lossy_utf8Bytes name, rfl⟩
  obtain ⟨c, hc, hbyte⟩ := List.mem_flatMap.mp hmem
  have hzero : c = '\x00' :=
    Char.toNat_inj.mp (toNat_of_mem_utf8EncodeChar hbyte (by decide))
  exact h (hzero ▸ hc)

theorem wire_encodeTuple {row : Tuple} (h : TupleFits row) : tupleWire row (encodeTuple row) := by
  refine ⟨h.1, _, .flatMap fun v hv => ?_, rfl⟩
  cases v with
  | null => rfl
  | unchangedToast => rfl
  | text bytes => exact ⟨h.2 bytes hv, _, .inl rfl, rfl⟩

theorem wire_encodeRelationColumn {c : RelationColumn} (h : NameFits c.name) :
    relationColumnWire c (encodeRelationColumn c) := by
  refine ⟨_, _, ?_, wire_encodeName h, rfl⟩
  cases c.inReplicaIdentity <;> decide

/-- What the server sends is of the message. -/
theorem wire_encode (w : WireMessage) : w.message.Wire w.encode := by
  obtain ⟨msg, hfits⟩ := w
  refine ⟨_, rfl, ?_⟩
  dsimp only
  cases msg with
  | begin b => rfl
  | commit c => rfl
  | relation rel =>
    obtain ⟨hschema, hname, hlength, hcolumns⟩ := hfits
    exact ⟨hlength, _, _, _, wire_encodeName hschema, wire_encodeName hname,
      .flatMap fun c hc => wire_encodeRelationColumn (hcolumns c hc), rfl⟩
  | type oid schema name =>
    exact ⟨_, _, wire_encodeName hfits.1, wire_encodeName hfits.2, rfl⟩
  | insert relId new => exact ⟨_, ⟨_, wire_encodeTuple hfits, rfl⟩, rfl⟩
  | update relId old new =>
    cases old with
    | none => exact ⟨_, ⟨_, wire_encodeTuple hfits, rfl⟩, rfl⟩
    | some old =>
      cases old with
      | key row | full row => exact ⟨_, _, ⟨_, wire_encodeTuple hfits.1, rfl⟩,
          ⟨_, wire_encodeTuple hfits.2, rfl⟩, rfl⟩
  | delete relId old =>
    cases old with
    | key row => exact ⟨_, ⟨_, wire_encodeTuple hfits, rfl⟩, rfl⟩
    | full row => exact ⟨_, ⟨_, wire_encodeTuple hfits, rfl⟩, rfl⟩
  | truncate flags relIds => exact ⟨hfits, rfl⟩

/-- **Messages of the log are read as they were sent**: what the server sends of a message is read
as it; bytes are read as a message exactly where they are of it, a text sent in binary or not, a
flag that is set in either way, a name as far as it can be read; and all others are an error, what
is cut off and what goes on too, and never a panic. -/
theorem messages_read_exactly :
    (∀ w : WireMessage, parse w.encode = .done w.message) ∧
    (∀ (raw : List UInt8) (msg : Message), parse raw = .done msg ↔ msg.Wire raw) ∧
    (∀ raw : List UInt8, (∃ msg, parse raw = .done msg) ∨ ∃ e, parse raw = .failed e) ∧
    (∀ (msg : Message) (front back : List UInt8), msg.Wire (front ++ back) → back ≠ [] →
      ∃ e, parse front = .failed e) ∧
    ∀ (msg : Message) (raw more : List UInt8), msg.Wire raw → more ≠ [] →
      ∃ e, parse (raw ++ more) = .failed e := by
  refine ⟨fun w => parse_done_iff.mpr (wire_encode w), fun _ _ => parse_done_iff, fun raw => ?_,
    fun msg front back hmsg hne => ?_, fun msg raw more hmsg hne => ?_⟩
  · by_cases hmsg : ∃ msg : Message, msg.Wire raw
    · obtain ⟨msg, hmsg⟩ := hmsg
      exact .inl ⟨msg, parse_done_iff.mpr hmsg⟩
    · exact .inr (parse_failed_iff.mpr (not_exists.mp hmsg))
  · exact parse_failed_iff.mpr fun msg' h => hne (wire_append h hmsg)
  · exact parse_failed_iff.mpr fun msg' h => hne (wire_append hmsg h)

/-- A column that is sent in binary is read as a text, though no message is sent so. -/
theorem binary_column_read :
    parse [73, 0, 0, 0, 7, 78, 0, 1, 98, 0, 0, 0, 1, 120] = .done (.insert 7 [.text [120]]) ∧
    ∀ w : WireMessage, w.encode ≠ [73, 0, 0, 0, 7, 78, 0, 1, 98, 0, 0, 0, 1, 120] := by
  have hread : parse [73, 0, 0, 0, 7, 78, 0, 1, 98, 0, 0, 0, 1, 120] =
      .done (.insert 7 [.text [120]]) := by
    decide
  refine ⟨hread, fun w heq => ?_⟩
  have hmsg := parse_done_iff.mpr (wire_encode w)
  rw [heq, hread] at hmsg
  have hencode : w.encode = [73, 0, 0, 0, 7, 78, 0, 1, 116, 0, 0, 0, 1, 120] := by
    rw [WireMessage.encode, ← Ran.done.inj hmsg]
    decide
  rw [heq] at hencode
  exact absurd hencode (by decide)

end PgOutput

end Pg2osync
