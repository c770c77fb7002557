import Mathlib
import Pg2osync.BinlogValue
import Pg2osync.GtidSet
import Pg2osync.NumberText

/-!
# Chunks of a MySQL table

The load reads a table in the order of its key, a chunk at a time, each behind the last row of the
one before. Where that is, a statement says by literals, made of the key as the server sent it. The
server lays rows out by what a column orders by, and compares a column with a literal by what the
literal is. Where the two agree, each row is read once.
-/

namespace Pg2osync

namespace MySql

open Encoding

/-! ## Literals -/

/-- `quote_str`. -/
def quoteStr (value : List Char) : List Char :=
  '\'' :: ((value.flatMap fun c => if c = '\\' ∨ c = '\'' then [c, c] else [c]) ++ ['\''])

/-- A text without the sign in front. -/
def unsigned : List Char → List Char
  | '-' :: digits => digits
  | text => text

/-- Digits, with a point between them or none, behind a sign or none. -/
def isNumeral (text : List Char) : Bool :=
  let (int, frac) := (splitOnce '.' (unsigned text)).getD (unsigned text, ['0'])
  !int.isEmpty && !frac.isEmpty && int.all Char.isDigit && frac.all Char.isDigit

/-- The shapes of numbers. -/
def ValueShape.isNumber : ValueShape → Bool
  | .int | .decimal | .bits => true
  | _ => false

/-- The text that some bytes are read as. -/
def textOf (raw : List UInt8) : List Char :=
  (utf8Lossy raw).toList

/-- `literal`. -/
def literal (shape : ValueShape) (raw : List UInt8) : List Char :=
  if shape = .bytes then 'x' :: '\'' :: (hex raw ++ ['\''])
  else if shape.isNumber && isNumeral (textOf raw) then textOf raw
  else quoteStr (textOf raw)

/-- `cursor_safe`. -/
def cursorSafe : ValueShape → Bool
  | .int | .decimal | .bits | .text | .bytes | .enum _ => true
  | _ => false

/-! ## The server -/

/-- A value in a column. -/
structure KeyValue : Type where
  /-- as the server sends it -/
  raw : List UInt8
  /-- the index of a label; it is zero for the empty text in place of a label -/
  index : ℕ

/-- A literal, as the server reads it. -/
inductive Constant : Type where
  | number (q : ℚ) : Constant
  | text (s : List Char) : Constant
  | bytes (b : List UInt8) : Constant

/-- The number of a numeral. -/
def numeral (text : List Char) : ℚ :=
  ((Decimal.read text).map Decimal.value).getD 0

/-- What a backslash and a character stand for. -/
def escaped : Char → List Char
  | '0' => [Char.ofNat 0]
  | 'b' => [Char.ofNat 8]
  | 'n' => ['\n']
  | 'r' => ['\r']
  | 't' => ['\t']
  | 'Z' => [Char.ofNat 26]
  | '%' => ['\\', '%']
  | '_' => ['\\', '_']
  | c => [c]

/-- The text between quotation marks, from behind the first. -/
def unquote : List Char → Option (List Char)
  | ['\''] => some []
  | '\'' :: '\'' :: rest => (unquote rest).map ('\'' :: ·)
  | '\'' :: _ => none
  | '\\' :: c :: rest => (unquote rest).map (escaped c ++ ·)
  | c :: rest => (unquote rest).map (c :: ·)
  | [] => none

/-- A literal is read. -/
def readLiteral : List Char → Option Constant
  | 'x' :: '\'' :: digits =>
    if digits.getLast? = some '\'' then (readHex digits.dropLast).map .bytes else none
  | '\'' :: rest => (unquote rest).map .text
  | text => if isNumeral text then some (.number (numeral text)) else none

/-- What a server knows of its columns. -/
structure KeyServer (κ : Type) : Type where
  /-- what a text weighs in a column: by its collation, or as the time it is read as -/
  weight : String → List Char → κ
  /-- how many bytes the bits of a column take -/
  bitBytes : String → ℕ
  /-- a number in floating point -/
  double : ℚ → ℚ
  /-- the number that a text is taken for -/
  numeric : List Char → ℚ
  /-- no column has no bits -/
  bitBytes_pos : ∀ name, 0 < bitBytes name
  /-- what is positive stays so in floating point -/
  double_pos : ∀ n : ℕ, 0 < n → 0 < double n
  /-- what begins with a control character is taken for zero -/
  numeric_control : ∀ c text, c.toNat < 9 → numeric (c :: text) = 0

namespace KeyServer

variable {κ : Type} [LinearOrder κ] (server : KeyServer κ)

/-- What a column can hold. -/
def Stored (column : Column) (v : KeyValue) : Prop :=
  match column.shape with
  | .int | .decimal => isNumeral (textOf v.raw) = true
  | .bits => v.raw.length = server.bitBytes column.name
  | .text => ∃ s, v.raw = utf8Bytes s
  | .enum labels => ∃ s, ("" :: labels)[v.index]? = some s ∧ v.raw = utf8Bytes s
  | _ => True

/-- How two values of a column are ordered. -/
def order (column : Column) (v w : KeyValue) : Ordering :=
  match column.shape with
  | .int | .decimal => cmp (numeral (textOf v.raw)) (numeral (textOf w.raw))
  | .bits => cmp (bigEndian v.raw) (bigEndian w.raw)
  | .enum _ => cmp v.index w.index
  | .text => cmp (server.weight column.name (textOf v.raw)) (server.weight column.name (textOf w.raw))
  | _ => cmp (v.raw.map UInt8.toNat) (w.raw.map UInt8.toNat)

/-- How a value compares with a literal that is made of such a column. -/
def compare (column : Column) (v : KeyValue) (constant : Constant) : Option Ordering :=
  match column.shape, constant with
  | .int, .number q | .decimal, .number q => some (cmp (numeral (textOf v.raw)) q)
  | .bits, .number q => some (cmp (bigEndian v.raw : ℚ) q)
  | .bits, .text s => some (cmp (server.double (bigEndian v.raw)) (server.numeric s))
  -- labels are ordered by their index, and compared as texts
  | .text, .text s | .enum _, .text s =>
    some (cmp (server.weight column.name (textOf v.raw)) (server.weight column.name s))
  | .bytes, .bytes b => some (cmp (v.raw.map UInt8.toNat) (b.map UInt8.toNat))
  | _, _ => none

/-- A literal denotes a value: a column compares with the one as it orders the other. -/
def Denotes (column : Column) (literal : List Char) (v : KeyValue) : Prop :=
  ∃ constant, readLiteral literal = some constant ∧
    ∀ w, server.Stored column w → server.compare column w constant = some (server.order column w v)

/-- A column whose values are denoted by their literals. -/
def Suited (column : Column) : Prop :=
  column.shape ≠ .bits ∧ ∀ labels, column.shape = .enum labels →
    ("" :: labels).Pairwise fun a b =>
      server.weight column.name a.toList < server.weight column.name b.toList

end KeyServer

/-! ## What is written is read -/

theorem unquote_cons {c : Char} (hquote : c ≠ '\'') (hslash : c ≠ '\\') (rest : List Char) :
    unquote (c :: rest) = (unquote rest).map (c :: ·) := by
  rw [unquote.eq_def]
  split
  · next h => exact absurd (List.cons.inj h).1 hquote
  · next h => exact absurd (List.cons.inj h).1 hquote
  · next h => exact absurd (List.cons.inj h).1 hquote
  · next h => exact absurd (List.cons.inj h).1 hslash
  · next h => cases h; rfl
  · next h => cases h

theorem unquote_quoted (value : List Char) :
    unquote ((value.flatMap fun c => if c = '\\' ∨ c = '\'' then [c, c] else [c]) ++ ['\'']) =
      some value := by
  induction value with
  | nil => rfl
  | cons c value ih =>
    rw [List.flatMap_cons, List.append_assoc]
    by_cases hslash : c = '\\'
    · subst hslash
      simp [unquote, ih, escaped]
    by_cases hquote : c = '\''
    · subst hquote
      simp [unquote, ih]
    rw [if_neg (not_or.mpr ⟨hslash, hquote⟩), List.singleton_append, unquote_cons hquote hslash, ih]
    rfl

theorem readLiteral_quoteStr (value : List Char) :
    readLiteral (quoteStr value) = some (.text value) := by
  rw [quoteStr, readLiteral, unquote_quoted]
  rfl

theorem readLiteral_bytes (raw : List UInt8) :
    readLiteral (literal .bytes raw) = some (.bytes raw) := by
  have hquote : (hex raw ++ ['\'']).getLast? = some '\'' := List.getLast?_concat
  rw [literal, if_pos rfl, readLiteral, if_pos hquote, List.dropLast_concat, readHex_hex]
  rfl

theorem isNumeral_cons {c : Char} {text : List Char} (h : isNumeral (c :: text) = true) :
    c = '-' ∨ c.isDigit = true := by
  by_contra hnot
  obtain ⟨hsign, hdigit⟩ := not_or.mp hnot
  have hunsigned : unsigned (c :: text) = c :: text := by
    rw [unsigned.eq_def]
    split
    · next h => exact absurd (List.cons.inj h).1 hsign
    · rfl
  rw [isNumeral, hunsigned, splitOnce] at h
  split_ifs at h
  · simp at h
  · cases hrest : splitOnce '.' text <;> simp [hrest, hdigit] at h

theorem readLiteral_numeral {text : List Char} (h : isNumeral text = true) :
    readLiteral text = some (.number (numeral text)) := by
  rw [readLiteral.eq_def]
  split
  · exact absurd (isNumeral_cons h) (by decide)
  · exact absurd (isNumeral_cons h) (by decide)
  · exact if_pos h

/-! ## What is denoted -/

namespace KeyServer

variable {κ : Type} [LinearOrder κ] {server : KeyServer κ} {column : Column} {v : KeyValue}

theorem textOf_utf8Bytes (s : String) : textOf (utf8Bytes s) = s.toList :=
  congrArg String.toList (utf8Lossy_utf8Bytes s)

theorem denotes_number (hshape : column.shape = .int ∨ column.shape = .decimal)
    (hv : server.Stored column v) : server.Denotes column (literal column.shape v.raw) v := by
  have hnumeral : isNumeral (textOf v.raw) = true := by
    rcases hshape with h | h <;> simpa only [Stored, h] using hv
  refine ⟨_, (congrArg readLiteral ?_).trans (readLiteral_numeral hnumeral), fun w _ => ?_⟩
  · rcases hshape with h | h <;> simp [literal, h, ValueShape.isNumber, hnumeral]
  · rcases hshape with h | h <;> simp only [compare, order, h]

/-- A text is put in quotation marks, so what is compared is its weight. -/
theorem readLiteral_text {shape : ValueShape} (hbytes : shape ≠ .bytes)
    (hnumber : shape.isNumber = false) (raw : List UInt8) :
    readLiteral (literal shape raw) = some (.text (textOf raw)) := by
  rw [literal, if_neg hbytes, hnumber, Bool.false_and, if_neg Bool.false_ne_true,
    readLiteral_quoteStr]

/-- Labels are denoted where they weigh what their indices say. -/
theorem denotes_enum_iff {labels : List String} (hshape : column.shape = .enum labels) :
    (∀ v, server.Stored column v → server.Denotes column (literal column.shape v.raw) v) ↔
      ("" :: labels).Pairwise fun a b =>
        server.weight column.name a.toList < server.weight column.name b.toList := by
  have hread : ∀ v : KeyValue, readLiteral (literal column.shape v.raw) =
      some (.text (textOf v.raw)) := fun v =>
    readLiteral_text (by simp [hshape]) (by rw [hshape]; rfl) v.raw
  rw [List.pairwise_iff_getElem]
  constructor
  · intro h i j hi hj hlt
    have hstored : ∀ k (hk : k < ("" :: labels).length),
        server.Stored column ⟨utf8Bytes ("" :: labels)[k], k⟩ := fun k hk => by
      simp only [Stored, hshape]
      exact ⟨_, List.getElem?_eq_getElem hk, rfl⟩
    obtain ⟨constant, hconstant, hcompare⟩ := h _ (hstored i hi)
    obtain rfl := Option.some.inj ((hread _).symm.trans hconstant)
    have := hcompare _ (hstored j hj)
    simp only [compare, order, hshape, textOf_utf8Bytes, Option.some.injEq] at this
    exact (cmp_eq_gt_iff _ _).mp (this.trans ((cmp_eq_gt_iff _ _).mpr hlt))
  · intro h v hv
    refine ⟨_, hread v, fun w hw => ?_⟩
    simp only [Stored, hshape] at hv hw
    obtain ⟨s, hs, hraw⟩ := hv
    obtain ⟨s', hs', hraw'⟩ := hw
    obtain ⟨hi, rfl⟩ := List.getElem?_eq_some_iff.mp hs
    obtain ⟨hj, rfl⟩ := List.getElem?_eq_some_iff.mp hs'
    simp only [compare, order, hshape, hraw, hraw', textOf_utf8Bytes]
    rcases lt_trichotomy w.index v.index with hlt | heq | hlt
    · rw [(cmp_eq_lt_iff _ _).mpr hlt, (cmp_eq_lt_iff _ _).mpr (h _ _ hj hi hlt)]
    · simp only [heq, cmp_self_eq_eq]
    · rw [(cmp_eq_gt_iff _ _).mpr hlt, (cmp_eq_gt_iff _ _).mpr (h _ _ hi hj hlt)]

/-- The bits of one are sent as a character that no number begins with. -/
theorem not_denotes_bits (server : KeyServer κ) (hshape : column.shape = .bits) :
    ∃ v, server.Stored column v ∧ ¬ server.Denotes column (literal column.shape v.raw) v := by
  have hpos := server.bitBytes_pos column.name
  generalize hzeros : List.replicate (server.bitBytes column.name - 1) (0 : UInt8) = zeros
  have hstored : server.Stored column ⟨zeros ++ [1], 0⟩ := by
    simp only [Stored, hshape, ← hzeros, List.length_append, List.length_replicate,
      List.length_singleton]
    omega
  refine ⟨_, hstored, ?_⟩
  obtain ⟨c, rest, htext, hc⟩ : ∃ c rest, textOf (zeros ++ [1]) = c :: rest ∧
      (c = Char.ofNat 0 ∨ c = Char.ofNat 1) := by
    rw [textOf, utf8Lossy, String.toList_ofList]
    subst hzeros
    cases server.bitBytes column.name - 1 with
    | zero => exact ⟨_, _, rfl, .inr rfl⟩
    | succ n => exact ⟨_, _, rfl, .inl rfl⟩
  have hpositive : 0 < bigEndian (zeros ++ [1]) := by
    rw [bigEndian_append_singleton]
    exact Nat.succ_pos _
  have hliteral : readLiteral (literal column.shape (zeros ++ [1])) =
      some (.text (textOf (zeros ++ [1]))) := by
    rw [literal, if_neg (by simp [hshape]), if_neg, readLiteral_quoteStr]
    intro h
    rw [Bool.and_eq_true, htext] at h
    rcases hc with rfl | rfl
    all_goals exact absurd (isNumeral_cons h.2) (by decide)
  rintro ⟨constant, hconstant, hcompare⟩
  obtain rfl := Option.some.inj (hliteral.symm.trans hconstant)
  have hself := hcompare _ hstored
  simp only [compare, order, hshape, Option.some.injEq, cmp_self_eq_eq, cmp_eq_eq_iff] at hself
  rw [htext, server.numeric_control _ _ (by rcases hc with rfl | rfl <;> decide)] at hself
  exact absurd hself (server.double_pos _ hpositive).ne'

/-- **The literals of a column denote its values** just if it does not hold bits, and its labels,
if it has some, rise as texts. -/
theorem denotes_iff_suited (hsafe : cursorSafe column.shape = true) :
    (∀ v, server.Stored column v → server.Denotes column (literal column.shape v.raw) v) ↔
      server.Suited column := by
  rw [Suited]
  cases hshape : column.shape with
  | int | decimal =>
    simp only [← hshape]
    exact iff_of_true (fun v hv => denotes_number (by simp [hshape]) hv) (by simp [hshape])
  | text =>
    refine iff_of_true (fun v hv => ⟨_, readLiteral_text (by simp) rfl v.raw, fun w _ => ?_⟩)
      (by simp)
    simp only [compare, order, hshape]
  | bytes =>
    refine iff_of_true (fun v hv => ⟨_, readLiteral_bytes v.raw, fun w _ => ?_⟩) (by simp)
    simp only [compare, order, hshape]
  | bits =>
    obtain ⟨v, hv, hnot⟩ := not_denotes_bits server hshape
    rw [hshape] at hnot
    exact iff_of_false (fun h => hnot (h v hv)) fun h => h.1 rfl
  | enum labels =>
    rw [← hshape, denotes_enum_iff hshape]
    simp [hshape]
  | float | json | set => simp [hshape, cursorSafe] at hsafe

end KeyServer

/-! ## Keys, and what is behind them -/

/-- A row as the server holds it. -/
abbrev StoredRow : Type := List (Option KeyValue)

namespace TableSchema

variable (schema : TableSchema)

/-- The column of a name. -/
def column? (name : String) : Option Column :=
  schema.columns.find? fun c => c.name = name

/-- What a row holds in a column. -/
def value? (row : StoredRow) (name : String) : Option KeyValue :=
  (schema.columns.findIdx? fun c => c.name = name).bind fun i => row[i]?.join

/-- The literal of a row in a column. -/
def literalOf (row : StoredRow) (name : String) : Option (List Char) := do
  let column ← schema.column? name
  let v ← schema.value? row name
  return literal column.shape v.raw

/-- `key_literals`. -/
def keyLiterals (row : StoredRow) : Option (List (List Char)) :=
  schema.pkColumns.mapM (schema.literalOf row)

/-- Whether a table is read in chunks. -/
def isChunked : Bool :=
  (schema.pkColumns.all fun name => (schema.column? name).any fun c => cursorSafe c.shape) &&
    !schema.pkColumns.isEmpty

end TableSchema

/-- A column is compared with a literal. -/
structure Comparison : Type where
  /-- the column -/
  name : String
  /-- whether it is greater, or equal -/
  greater : Bool
  /-- the literal -/
  literal : List Char

/-- `after_predicate`: terms that an `OR` joins, of comparisons that an `AND` joins. -/
def afterPredicate (key : List String) (values : List (List Char)) : List (List Comparison) :=
  (List.range key.length).map fun i =>
    ((List.range i).map fun j => ⟨key.getD j "", false, values.getD j []⟩) ++
      [⟨key.getD i "", true, values.getD i []⟩]

theorem afterPredicate_cons (name : String) (key : List String) (l : List Char)
    (values : List (List Char)) :
    afterPredicate (name :: key) (l :: values) =
      [⟨name, true, l⟩] :: (afterPredicate key values).map (⟨name, false, l⟩ :: ·) := by
  simp only [afterPredicate, List.length_cons, List.range_succ_eq_map, List.map_cons, List.map_map,
    List.range_zero, List.map_nil, List.nil_append, List.getD_cons_zero, Function.comp_def,
    List.getD_cons_succ, List.cons_append]

/-- How a load ended, as far as it was followed. -/
inductive LoadEnd : Type where
  /-- it still reads -/
  | reading : LoadEnd
  /-- a full chunk had no key to go on from -/
  | refused : LoadEnd
  /-- the table is read -/
  | finished : LoadEnd

namespace KeyServer

variable {κ : Type} [LinearOrder κ] (server : KeyServer κ) (schema : TableSchema)

/-- How two rows are ordered by one column. -/
def orderBy (name : String) (r s : StoredRow) : Ordering :=
  match schema.column? name, schema.value? r name, schema.value? s name with
  | some column, some v, some w => server.order column v w
  | _, _, _ => .eq

/-- Whether a row comes before another in the order of some columns. -/
def before : List String → StoredRow → StoredRow → Prop
  | [], _, _ => False
  | name :: key, r, s => server.orderBy schema name r s = .lt ∨
      server.orderBy schema name r s = .eq ∧ before key r s

/-- Whether a comparison holds of a row. -/
def holds (row : StoredRow) (c : Comparison) : Bool :=
  match schema.column? c.name, schema.value? row c.name, readLiteral c.literal with
  | some column, some v, some constant =>
    server.compare column v constant = some (if c.greater then .gt else .eq)
  | _, _, _ => false

/-- Whether a row is behind a cursor, of which one that does not fit the key is none. -/
def behind (cursor : Option (List (List Char))) (row : StoredRow) : Bool :=
  match cursor.filter fun values => values.length = schema.pkColumns.length with
  | some values => (afterPredicate schema.pkColumns values).any fun term =>
      term.all (server.holds schema row)
  | none => true

section

variable (chunkRows : ℕ) (rows : List StoredRow)

/-- `chunk_statement`, and its answer: of the rows its other conditions let through, in the order
of the key, those behind the cursor. -/
def chunk (cursor : Option (List (List Char))) : List StoredRow :=
  let answer := rows.filter (server.behind schema cursor)
  if schema.isChunked then answer.take (max chunkRows 1) else answer

/-- The loop of `run`: what it sends in some turns. -/
def load : ℕ → Option (List (List Char)) → List StoredRow × LoadEnd
  | 0, _ => ([], .reading)
  | turns + 1, cursor =>
    let chunk := server.chunk schema chunkRows rows cursor
    if !schema.isChunked || chunk.length < max chunkRows 1 then (chunk, .finished)
    else match chunk.getLast?.bind schema.keyLiterals with
      | none => (chunk, .refused)
      | some key =>
        let rest := load turns (some key)
        (chunk ++ rest.1, rest.2)

end

/-- A row has a value in some columns. -/
def Keyed (key : List String) (row : StoredRow) : Prop :=
  ∀ name ∈ key, ∃ column v, schema.column? name = some column ∧ schema.value? row name = some v ∧
    server.Stored column v

/-- The literals of some columns denote the values they are made of. -/
def DenotesKey (key : List String) : Prop :=
  ∀ name ∈ key, ∀ column, schema.column? name = some column →
    ∀ v, server.Stored column v → server.Denotes column (literal column.shape v.raw) v

/-- Rows with a key, laid out in its order. -/
structure IsTable (rows : List StoredRow) : Prop where
  /-- no part of a key is null -/
  keyed : ∀ row ∈ rows, server.Keyed schema schema.pkColumns row
  /-- no two keys are the same -/
  sorted : rows.Pairwise (server.before schema schema.pkColumns)

/-- A table is read whole, and each row once. -/
structure Loads : Prop where
  /-- a literal denotes the value it is made of -/
  denotes : server.DenotesKey schema schema.pkColumns
  /-- a load ends, and has sent the rows -/
  covers : ∀ chunkRows rows, server.IsTable schema rows →
    ∃ turns, server.load schema chunkRows rows turns none = (rows, .finished)
  /-- resumed from the key of a row, it sends those behind it -/
  resumes : ∀ chunkRows front row back, server.IsTable schema (front ++ row :: back) →
    ∀ key, schema.keyLiterals row = some key → ∃ turns,
      server.load schema chunkRows (front ++ row :: back) turns (some key) = (back, .finished)

variable {server schema}

theorem order_swap (column : Column) (v w : KeyValue) :
    (server.order column v w).swap = server.order column w v := by
  unfold order
  split
  all_goals exact cmp_swap _ _

theorem orderBy_swap (name : String) (r s : StoredRow) :
    (server.orderBy schema name r s).swap = server.orderBy schema name s r := by
  unfold orderBy
  cases schema.column? name <;> cases schema.value? r name <;> cases schema.value? s name
  all_goals first | rfl | exact order_swap _ _ _

theorem before_asymm {key : List String} {r s : StoredRow} (h : server.before schema key r s) :
    ¬ server.before schema key s r := by
  induction key with
  | nil => exact h.elim
  | cons name key ih =>
    intro h'
    have hswap : _ = server.orderBy schema name s r := orderBy_swap name r s
    rcases h with h | ⟨heq, h⟩ <;> rcases h' with h' | ⟨heq', h'⟩
    · simp [h, h'] at hswap
    · simp [h, heq'] at hswap
    · simp [heq, h'] at hswap
    · exact ih h h'

/-- The predicate of a cursor holds of what comes after the row it is made of. -/
theorem any_afterPredicate_iff {key : List String} {r s : StoredRow}
    (hs : server.Keyed schema key s) (hr : server.Keyed schema key r)
    (hdenotes : server.DenotesKey schema key) {values : List (List Char)}
    (hvalues : key.mapM (schema.literalOf s) = some values) :
    values.length = key.length ∧ (((afterPredicate key values).any fun term =>
      term.all (server.holds schema r)) = true ↔ server.before schema key s r) := by
  induction key generalizing values with
  | nil =>
    obtain rfl := Option.some.inj hvalues
    exact ⟨rfl, iff_of_false Bool.false_ne_true not_false⟩
  | cons name key ih =>
    obtain ⟨column, v, hcolumn, hv, hstored⟩ := hs name List.mem_cons_self
    obtain ⟨column', w, hcolumn', hw, hstored'⟩ := hr name List.mem_cons_self
    obtain rfl := Option.some.inj (hcolumn.symm.trans hcolumn')
    obtain ⟨constant, hconstant, hcompare⟩ := hdenotes name List.mem_cons_self _ hcolumn v hstored
    rw [List.mapM_cons] at hvalues
    obtain ⟨l, hl, hvalues⟩ := Option.bind_eq_some_iff.mp hvalues
    obtain ⟨rest, hrest, hvalues⟩ := Option.bind_eq_some_iff.mp hvalues
    cases hvalues
    simp only [TableSchema.literalOf, hcolumn, hv, Option.bind_eq_bind, Option.bind_some] at hl
    obtain rfl := Option.some.inj hl
    obtain ⟨hlength, hiff⟩ := ih (fun n hn => hs n (List.mem_cons_of_mem _ hn))
      (fun n hn => hr n (List.mem_cons_of_mem _ hn))
      (fun n hn => hdenotes n (List.mem_cons_of_mem _ hn)) hrest
    refine ⟨congrArg Nat.succ hlength, ?_⟩
    have horder : server.orderBy schema name s r = server.order column v w := by
      simp only [orderBy, hcolumn, hv, hw]
    have hholds : ∀ greater, server.holds schema r ⟨name, greater, literal column.shape v.raw⟩ =
        true ↔ server.order column v w = if greater then .lt else .eq := by
      intro greater
      rw [← order_swap column w v]
      simp only [holds, hcolumn, hw, hconstant, hcompare w hstored', decide_eq_true_eq,
        Option.some.injEq]
      cases server.order column w v <;> cases greater <;> simp
    rw [afterPredicate_cons, before, horder, ← hiff]
    simp only [List.any_cons, List.all_cons, List.all_nil, Bool.and_true, Bool.or_eq_true,
      List.any_map, Function.comp_def, hholds, if_true]
    refine or_congr Iff.rfl ?_
    simp only [List.any_eq_true, Bool.and_eq_true, hholds]
    exact ⟨fun ⟨t, ht, h⟩ => ⟨h.1, t, ht, h.2⟩, fun ⟨h, t, ht, h'⟩ => ⟨t, ht, h, h'⟩⟩

theorem behind_iff (hdenotes : server.DenotesKey schema schema.pkColumns) {r s : StoredRow}
    (hs : server.Keyed schema schema.pkColumns s) (hr : server.Keyed schema schema.pkColumns r)
    {key : List (List Char)} (hkey : schema.keyLiterals s = some key) :
    server.behind schema (some key) r = true ↔ server.before schema schema.pkColumns s r := by
  obtain ⟨hlength, hiff⟩ := any_afterPredicate_iff hs hr hdenotes hkey
  simp only [behind, Option.filter_some, hlength, decide_true, if_true]
  exact hiff

omit [LinearOrder κ] in
theorem exists_keyLiterals {row : StoredRow} {key : List String}
    (h : server.Keyed schema key row) : ∃ values, key.mapM (schema.literalOf row) = some values := by
  induction key with
  | nil => exact ⟨[], rfl⟩
  | cons name key ih =>
    obtain ⟨column, v, hcolumn, hv, -⟩ := h name List.mem_cons_self
    obtain ⟨values, hvalues⟩ := ih fun n hn => h n (List.mem_cons_of_mem _ hn)
    refine ⟨literal column.shape v.raw :: values, ?_⟩
    simp [List.mapM_cons, TableSchema.literalOf, hcolumn, hv, hvalues]

/-- Behind a row of a table is what follows it. -/
theorem filter_behind (hdenotes : server.DenotesKey schema schema.pkColumns)
    {front back : List StoredRow} {row : StoredRow}
    (htable : server.IsTable schema (front ++ row :: back)) {key : List (List Char)}
    (hkey : schema.keyLiterals row = some key) :
    (front ++ row :: back).filter (server.behind schema (some key)) = back := by
  have hiff : ∀ r ∈ front ++ row :: back, server.behind schema (some key) r = true ↔
      server.before schema schema.pkColumns row r := fun r hr =>
    behind_iff hdenotes (htable.keyed row (by simp)) (htable.keyed r hr) hkey
  have hsorted := htable.sorted
  rw [List.pairwise_append, List.pairwise_cons] at hsorted
  obtain ⟨-, ⟨hback, -⟩, hfront⟩ := hsorted
  rw [List.filter_append, List.filter_cons_of_neg, List.filter_eq_nil_iff.mpr,
    List.filter_eq_self.mpr, List.nil_append]
  · exact fun r hr => (hiff r (by simp [hr])).mpr (hback r hr)
  · exact fun r hr h => before_asymm (hfront r hr row List.mem_cons_self)
      ((hiff r (by simp [hr])).mp h)
  · exact fun h => (fun hself => before_asymm hself hself) ((hiff row (by simp)).mp h)

/-- **From a cursor the load goes through what is behind it**, a chunk at a time. -/
theorem load_behind (hchunked : schema.isChunked = true)
    (hdenotes : server.DenotesKey schema schema.pkColumns) (chunkRows : ℕ) :
    ∀ (rest front : List StoredRow) (cursor : Option (List (List Char))),
      server.IsTable schema (front ++ rest) →
      (front ++ rest).filter (server.behind schema cursor) = rest →
      ∃ turns, server.load schema chunkRows (front ++ rest) turns cursor = (rest, .finished) := by
  intro rest
  induction hlen : rest.length using Nat.strong_induction_on generalizing rest with
  | _ length ih =>
  intro front cursor htable hcursor
  have hchunk : server.chunk schema chunkRows (front ++ rest) cursor =
      rest.take (max chunkRows 1) := by
    rw [chunk, hcursor, if_pos hchunked]
  by_cases hshort : rest.length < max chunkRows 1
  · refine ⟨1, ?_⟩
    rw [load, hchunk, List.take_of_length_le hshort.le]
    simp [hshort]
  obtain ⟨init, last, htake⟩ : ∃ init last, rest.take (max chunkRows 1) = init ++ [last] := by
    refine (List.eq_nil_or_concat' _).resolve_left fun hnil => ?_
    have hlength := congrArg List.length hnil
    rw [List.length_take, List.length_nil] at hlength
    omega
  -- a full chunk ends with a row, and the next one begins behind it
  have hrows : front ++ rest = (front ++ init) ++ last :: rest.drop (max chunkRows 1) := by
    conv_lhs => rw [← List.take_append_drop (max chunkRows 1) rest, htake]
    simp
  rw [hrows] at htable hchunk ⊢
  obtain ⟨key, hkey⟩ := exists_keyLiterals (htable.keyed last (by simp))
  have hnext := filter_behind hdenotes htable hkey
  rw [List.append_cons] at htable hchunk hnext ⊢
  obtain ⟨turns, hturns⟩ := ih _ (by rw [← hlen, List.length_drop]; omega) _ rfl _ (some key) htable
    hnext
  refine ⟨turns + 1, ?_⟩
  have hfull : ¬(rest.take (max chunkRows 1)).length < max chunkRows 1 := by
    rw [List.length_take]
    omega
  have hlast : (rest.take (max chunkRows 1)).getLast?.bind schema.keyLiterals = some key := by
    rw [htake, List.getLast?_concat]
    exact hkey
  rw [load, hchunk]
  simp only [hchunked, Bool.not_true, Bool.false_or, decide_eq_true_eq, if_neg hfull, hlast, hturns,
    List.take_append_drop]

/-- **A table is read whole, each row once, and resumed where it was left**, whatever it holds and
however long the chunks are, just if no column of its key holds bits and the labels of each rise as
texts. -/
theorem loads_iff_suited (hchunked : schema.isChunked = true) :
    server.Loads schema ↔
      ∀ name ∈ schema.pkColumns, ∀ column, schema.column? name = some column →
        server.Suited column := by
  have hsafe : ∀ name ∈ schema.pkColumns, ∀ column, schema.column? name = some column →
      cursorSafe column.shape = true := by
    intro name hname column hcolumn
    have hall := List.all_eq_true.mp (Bool.and_eq_true_iff.mp hchunked).1 name hname
    rw [hcolumn] at hall
    exact hall
  have hdenotes : server.DenotesKey schema schema.pkColumns ↔
      ∀ name ∈ schema.pkColumns, ∀ column, schema.column? name = some column →
        server.Suited column :=
    forall₄_congr fun name hname column hcolumn =>
      denotes_iff_suited (hsafe name hname column hcolumn)
  rw [← hdenotes]
  refine ⟨Loads.denotes, fun h => ⟨h, fun chunkRows rows htable => ?_,
    fun chunkRows front row back htable key hkey => ?_⟩⟩
  · exact load_behind hchunked h chunkRows rows [] none htable (List.filter_eq_self.mpr fun _ _ => rfl)
  · have hback := filter_behind h htable hkey
    rw [List.append_cons] at htable hback ⊢
    exact load_behind hchunked h chunkRows back _ (some key) htable hback

/-- A server that orders texts by their characters, with a byte of bits in a column. -/
def plainServer : KeyServer (List ℕ) where
  weight _ s := s.map Char.toNat
  bitBytes _ := 1
  double q := q
  numeric s := if isNumeral s then numeral s else 0
  bitBytes_pos _ := Nat.one_pos
  double_pos _ h := Nat.cast_pos.mpr h
  numeric_control c text h := if_neg fun hnumeral => by
    rcases isNumeral_cons hnumeral with rfl | hdigit
    · exact absurd h (by decide)
    · have := toNat_of_isDigit hdigit
      omega

theorem loads_labels : plainServer.Loads ⟨[⟨"id", .enum ["high", "low"]⟩], ["id"]⟩ :=
  (loads_iff_suited rfl).mpr (by
    intro name hname column hcolumn
    cases List.mem_singleton.mp hname
    cases hcolumn
    refine ⟨by decide, ?_⟩
    rintro labels ⟨⟩
    decide)

end KeyServer

end MySql

end Pg2osync
