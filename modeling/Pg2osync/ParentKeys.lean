import Pg2osync.Children
import Pg2osync.Decimal
import Pg2osync.KeyedRead
import Pg2osync.TypeMap
import Mathlib.Data.List.DropRight

/-!
# The keys of PostgreSQL parents

A parent is named by a key from the replication log, which the type map decodes from the
text of its type. What the group's parents need is read back by queries that return their
keys through `to_jsonb`, and is matched by the text of the two JSON values.
-/

namespace Pg2osync

namespace ParentKeys

open Encoding KeyedRead

/-! ## Keys -/

/-- The integer types. -/
inductive IntType : Type where
  | int2 | int4 | int8
  deriving DecidableEq, Repr

def IntType.oid : IntType → ℕ
  | .int2 => TypeMap.INT2
  | .int4 => TypeMap.INT4
  | .int8 => TypeMap.INT8

/-- The bits of an integer, without its sign. -/
def IntType.bits : IntType → ℕ
  | .int2 => 15
  | .int4 => 31
  | .int8 => 63

/-- The types whose JSON form is their text, as a string. -/
inductive PlainType : Type where
  | text | varchar | uuid | date
  deriving DecidableEq, Repr

def PlainType.oid : PlainType → ℕ
  | .text => 25
  | .varchar => 1043
  | .uuid => 2950
  | .date => 1082

/-- The `numeric`s that are no numbers. -/
inductive Special : Type where
  | nan | infinity | negInfinity
  deriving DecidableEq, Repr

def Special.text : Special → String
  | .nan => "NaN"
  | .infinity => "Infinity"
  | .negInfinity => "-Infinity"

/-- A time zone's offset. -/
structure Offset : Type where
  east : Bool
  hours : ℕ
  minutes : ℕ
  seconds : ℕ
  deriving DecidableEq, Repr

/-- A number with zeros in front. -/
def padded (width n : ℕ) : List Char :=
  List.replicate (width - (Nat.toDigits 10 n).length) '0' ++ Nat.toDigits 10 n

/-- An offset as a type's text has it (minutes where there are some) or as JSON does. -/
def Offset.print (o : Offset) (iso : Bool) : List Char :=
  (if o.east then '+' else '-') :: padded 2 o.hours ++
    (if o.seconds ≠ 0 then ':' :: padded 2 o.minutes ++ ':' :: padded 2 o.seconds
    else if o.minutes ≠ 0 ∨ iso then ':' :: padded 2 o.minutes
    else [])

/-- A point in time; `clock` is its time of the day. -/
structure Moment : Type where
  year : ℕ
  month : ℕ
  day : ℕ
  clock : String
  bc : Bool
  deriving DecidableEq, Repr

/-- A point in time, with the character that stands before the clock. -/
def Moment.print (m : Moment) (separator : Char) (zone : List Char) : List Char :=
  padded 4 m.year ++ '-' :: padded 2 m.month ++ '-' :: padded 2 m.day ++
    separator :: m.clock.toList ++ zone ++ if m.bc then " BC".toList else []

/-- A key. Two keys of one column are the same when they are written the same: the column
declares a scale, and a session has one time zone. -/
inductive Key : Type where
  /-- an integer, within the bounds of its type -/
  | integer (type : IntType) (n : ℤ) (range : -2 ^ type.bits ≤ n ∧ n < 2 ^ type.bits) : Key
  /-- a text, a uuid or a date -/
  | plain (type : PlainType) (s : String) : Key
  /-- a `char(n)`, with the blanks that fill it -/
  | bpchar (s : String) : Key
  /-- a finite number -/
  | numeric (d : Decimal) : Key
  /-- another `numeric` -/
  | special (s : Special) : Key
  /-- a timestamp, with an offset when its type has a time zone -/
  | timestamp (m : Moment) (offset : Option Offset) : Key
  /-- a timestamp that is infinite -/
  | infinite (withTimeZone negative : Bool) : Key
  /-- bytes -/
  | bytea (bytes : List UInt8) : Key
  deriving DecidableEq

namespace Key

/-- The type of a key. -/
def oid : Key → ℕ
  | .integer type _ _ => type.oid
  | .plain type _ => type.oid
  | .bpchar _ => 1042
  | .numeric _ | .special _ => 1700
  | .timestamp _ offset => if offset.isSome then 1184 else 1114
  | .infinite withTimeZone _ => if withTimeZone then 1184 else 1114
  | .bytea _ => TypeMap.BYTEA

def infinity (negative : Bool) : String :=
  if negative then "-infinity" else "infinity"

/-- The text of a key: what its type's output function writes. -/
def text : Key → String
  | .integer _ n _ => toString n
  | .plain _ s => s
  | .bpchar s => s
  | .numeric d => String.ofList d.print
  | .special s => s.text
  | .timestamp m offset => String.ofList (m.print ' ' (offset.elim [] (Offset.print · false)))
  | .infinite _ negative => infinity negative
  | .bytea bytes => String.ofList ('\\' :: 'x' :: Encoding.hex bytes)

/-- `to_jsonb(key)`: a numeric is a number, bytes are their text, a timestamp has a `T`. -/
def toJsonb : Key → Json
  | .integer _ n _ => .int n
  | .numeric d => .float (String.ofList d.print)
  | .timestamp m offset =>
    .str (String.ofList (m.print 'T' (offset.elim [] (Offset.print · true))))
  | key => .str key.text

/-- `key::text`: the cast strips a `char(n)` of its blanks. -/
def castText : Key → String
  | .bpchar s => String.ofList (s.toList.rdropWhile (· = ' '))
  | key => key.text

/-- What the type map makes of a key of the log. -/
def decoded : Key → Json
  | .integer _ n _ => .int n
  | .bytea bytes => .str (String.ofList (Encoding.base64 bytes))
  | key => .str key.text

end Key

/-! ## Reading by keys -/

/-- `key_lookup`: how a key is matched. -/
def keyLookup (key : Json) : String :=
  key.render

/-- `Value::as_i64`. -/
def asI64 : Json → Option ℤ
  | .int n => if -2 ^ 63 ≤ n ∧ n < 2 ^ 63 then some n else none
  | _ => none

/-- The text a key is compared as. -/
def rawText : Json → String
  | .str s => s
  | other => other.render

/-- `any_predicate`: whether a row's key is one of some keys. They are compared as integers
when all are, as texts otherwise. -/
def anyPredicate (keys : List Json) (key : Key) : Bool :=
  match keys.mapM asI64 with
  | some ints =>
    match key with
    | .integer _ n _ => ints.contains n
    | _ => false
  | none => (keys.map rawText).contains key.castText

/-- How PostgreSQL's rows are read by their keys. -/
def reading : KeyedRead.Reading Key Json where
  name := Key.decoded
  text := keyLookup
  selects := anyPredicate
  -- `to_jsonb(key)::text`
  filed key := key.toJsonb.render

/-- A collection, with how its rows are embedded. -/
structure Collection extends ChildSpec where
  /-- the relation is one to one -/
  single : Bool
  /-- how many rows are embedded at most -/
  maxRows : Option ℕ

/-- `apply_collection`: the field of one collection, and two more when it is not all of it. -/
def applyCollection (doc : Json) (spec : Collection) (array : List Json) (total : ℕ) : Json :=
  match doc with
  | .obj map =>
    let map := Json.insertField spec.field
      (if spec.single then array.head?.getD .null else .arr array) map
    if spec.single = false ∧ array.length < total then
      .obj (Json.insertField (spec.field ++ "_total") (.int total)
        (Json.insertField (spec.field ++ "_truncated") (.bool true) map))
    else .obj map
  | other => other

/-- `apply_count`. -/
def applyCount (doc : Json) (spec : AggregateSpec) (count : ℕ) : Json :=
  match doc with
  | .obj map => .obj (Json.insertField spec.field (.int count) map)
  | other => other

/-- A group's rows, cut to the most that are embedded, and how many there are. -/
def capped (spec : Collection) (rows : List Json) : List Json × ℕ :=
  (spec.maxRows.elim rows rows.take, rows.length)

/-- `refetch_parents`: the document of a key, from the rows of the parents' table. -/
def refetchParents (parents : List (Key × Json)) (keys : List Json) (key : Json) : Option Json :=
  reading.found parents keys key

/-- `fetch_many`: the array of a key and its total, from the rows of a collection beside
the key each refers to, which a junction may hold. -/
def fetchMany (spec : Collection) (rows : List (Option Key × Json)) (keys : List Json)
    (key : Json) : Option (List Json × ℕ) :=
  (reading.found (KeyedRead.groups rows) keys key).map (capped spec)

/-- `fetch_counts`: the rows of an aggregate that refer to a key. -/
def fetchCounts (rows : List (Option Key × Unit)) (keys : List Json) (key : Json) : Option ℕ :=
  (reading.found (KeyedRead.groups rows) keys key).map List.length

/-- One collection of `attach_children_batch`. -/
def attachChildren (docs : List (Json × Json)) (c : Collection × List (Option Key × Json)) :
    List (Json × Json) :=
  docs.map fun doc =>
    let found := (fetchMany c.1 c.2 (docs.map Prod.fst) doc.1).getD ([], 0)
    (doc.1, applyCollection doc.2 c.1 found.1 found.2)

/-- `attach_children_batch`. -/
def attachChildrenBatch (docs : List (Json × Json))
    (children : List (Collection × List (Option Key × Json))) : List (Json × Json) :=
  children.foldl attachChildren docs

/-- One aggregate of `attach_aggregates_batch`. -/
def attachAggregates (docs : List (Json × Json)) (a : AggregateSpec × List (Option Key × Unit)) :
    List (Json × Json) :=
  docs.map fun doc =>
    (doc.1, applyCount doc.2 a.1 ((fetchCounts a.2 (docs.map Prod.fst) doc.1).getD 0))

/-- `attach_aggregates_batch`. -/
def attachAggregatesBatch (docs : List (Json × Json))
    (aggregates : List (AggregateSpec × List (Option Key × Unit))) : List (Json × Json) :=
  aggregates.foldl attachAggregates docs

/-- `keys_needing_refetch`: a key that a held row carries is not read again. -/
def keysNeedingRefetch (rows : List (Json × Json)) (named : List Json) : List Json :=
  named.filter fun k => !(rows.map fun row => keyLookup row.1).contains (keyLookup k)

/-- What the tables of one parent hold. -/
structure ParentTables : Type where
  /-- the parent's rows -/
  parents : List (Key × Json)
  /-- the rows of each collection -/
  children : List (Collection × List (Option Key × Json))
  /-- the rows each aggregate counts -/
  aggregates : List (AggregateSpec × List (Option Key × Unit))

/-- `flush_pending`, for one parent table: the documents it emits for the rows it held and
the keys that were named. -/
def flushPending (db : ParentTables) (rows : List (Json × Json)) (named : List Json) :
    List (Json × Json) :=
  let missing := keysNeedingRefetch rows named
  let found := missing.filterMap fun key =>
    (refetchParents db.parents missing key).map fun doc => (key, doc)
  attachAggregatesBatch (attachChildrenBatch (rows ++ found) db.children) db.aggregates

/-! ## What the type map decodes -/

theorem parseI64_toString {n : ℤ} (h : -2 ^ 63 ≤ n ∧ n < 2 ^ 63) :
    TypeMap.parseI64 (toString n) = some n := by
  rw [TypeMap.parseI64, toList_toString, readInt_printInt]
  exact Option.filter_eq_some_iff.mpr ⟨rfl, decide_eq_true h⟩

variable {type : IntType}

theorem IntType.in_i64 {n : ℤ} (h : -2 ^ type.bits ≤ n ∧ n < 2 ^ type.bits) :
    -2 ^ 63 ≤ n ∧ n < 2 ^ 63 := by
  cases type <;> simp only [IntType.bits] at h <;> omega

theorem convert_text (parsers : TypeMap.Parsers) (key : Key) :
    TypeMap.convert parsers key.oid (some key.text) = .ok key.decoded := by
  cases key with
  | integer type n range =>
    have hread : TypeMap.parseI64 (toString n) = some n := parseI64_toString (type.in_i64 range)
    cases type <;>
      · change (TypeMap.parseI64 (toString n)).elim _ _ = _
        rw [hread]
        rfl
  -- a type the map does not know stays its text
  | plain type s => cases type <;> rfl
  | bpchar s | numeric d | special s => rfl
  | timestamp m offset => cases offset <;> rfl
  | infinite withTimeZone negative => cases withTimeZone <;> rfl
  | bytea bytes =>
    change TypeMap.decodeBytea (Key.bytea bytes).text = _
    rw [TypeMap.decodeBytea, Key.text, String.toList_ofList]
    simp only [readHex_hex]
    rfl

/-! ## Keys that agree -/

/-- The keys that are matched: the others are numbers, bytes, times and texts that end in a
blank their cast strips. -/
def Key.agrees : Key → Bool
  | .integer .. | .plain .. | .special _ | .infinite .. => true
  | .bpchar s => s.toList.getLast? ≠ some ' '
  | .numeric _ | .timestamp .. | .bytea _ => false

theorem castText_bpchar (s : String) :
    (Key.bpchar s).castText = s ↔ s.toList.getLast? ≠ some ' ' := by
  rw [Key.castText, ← String.toList_inj, String.toList_ofList, List.rdropWhile_eq_self_iff]
  constructor
  · intro h hlast
    obtain ⟨init, hinit⟩ := List.getLast?_eq_some_iff.mp hlast
    have hne : s.toList ≠ [] := by simp [hinit]
    have hblank : s.toList.getLast hne = ' ' := by simp [hinit]
    exact h hne (decide_eq_true hblank)
  · intro h hne hblank
    refine h ?_
    rw [List.getLast?_eq_some_getLast hne, of_decide_eq_true hblank]

/-! ### Texts that differ -/

theorem head_toDigits (n : ℕ) : ∃ c rest, Nat.toDigits 10 n = c :: rest ∧ c.isDigit = true := by
  obtain ⟨hne, hall⟩ := toDigits_digits n
  obtain ⟨c, rest, h⟩ := List.exists_cons_of_ne_nil hne
  rw [h, List.all_cons, Bool.and_eq_true] at hall
  exact ⟨c, rest, h, hall.1⟩

/-- A number begins with a digit or a sign, a literal with a quotation mark. -/
theorem quote_ne_print (s : String) (d : Decimal) : Json.quote s ≠ String.ofList d.print := by
  intro h
  have hchars := congrArg String.toList h
  obtain ⟨c, rest, hprint, hdigit⟩ := Decimal.head_printNat d.mantissa.natAbs d.scale
  rw [Json.toList_quote, String.toList_ofList, Decimal.print, hprint] at hchars
  split at hchars
  · cases (List.cons.inj hchars).1
  · rw [← (List.cons.inj hchars).1] at hdigit
    cases hdigit

theorem toString_int_injective {m n : ℤ} (h : toString m = toString n) : m = n := by
  have hchars := congrArg (readInt ∘ String.toList) h
  simp only [Function.comp_apply, toList_toString, readInt_printInt] at hchars
  exact Option.some.inj hchars

/-- A moment's text begins with a digit. -/
theorem head_moment (m : Moment) (separator : Char) (zone : List Char) :
    ∃ c rest, m.print separator zone = c :: rest ∧ c.isDigit = true := by
  obtain ⟨c, rest, hdigits, hdigit⟩ := head_toDigits m.year
  rw [Moment.print, padded, hdigits]
  cases 4 - (c :: rest).length with
  | zero => exact ⟨c, _, rfl, hdigit⟩
  | succ n => exact ⟨'0', _, rfl, by decide⟩

theorem infinity_ne_moment (negative : Bool) (m : Moment) (separator : Char)
    (zone : List Char) : Key.infinity negative ≠ String.ofList (m.print separator zone) := by
  intro h
  obtain ⟨c, rest, hprint, hdigit⟩ := head_moment m separator zone
  have hchars := congrArg String.toList h
  rw [String.toList_ofList, hprint] at hchars
  cases negative <;>
    · have hc := (List.cons.inj hchars).1
      rw [← hc] at hdigit
      cases hdigit

theorem special_ne_print (s : Special) (d : Decimal) : s.text ≠ String.ofList d.print := by
  intro h
  have hread := congrArg (Decimal.read ∘ String.toList) h
  rw [Function.comp_apply, Function.comp_apply, String.toList_ofList, Decimal.read_print] at hread
  cases s <;> cases hread

theorem Special.text_injective {s t : Special} (h : s.text = t.text) : s = t := by
  cases s <;> cases t <;> first | rfl | exact absurd h (by decide)

theorem blank_ne_T (m : Moment) (zone zone' : List Char) :
    m.print ' ' zone ≠ m.print 'T' zone' := by
  intro h
  simp only [Moment.print, List.append_assoc, List.cons_append, List.append_cancel_left_eq,
    List.cons.injEq, true_and] at h
  exact absurd h.1 (by decide)

theorem base64_ne_hex (bytes : List UInt8) :
    base64 bytes ≠ '\\' :: 'x' :: hex bytes := by
  intro h
  have hmem : '\\' ∈ base64 bytes := h ▸ List.mem_cons_self
  exact absurd (base64_mem hmem) (by decide)

/-- The text a key was decoded to is the one it is filed under, unless it is a number, a
time or bytes. -/
theorem filed_eq_text (key : Key) :
    reading.filed key = reading.text (reading.name key) ↔
      (∀ d, key ≠ .numeric d) ∧ (∀ m o, key ≠ .timestamp m o) ∧ ∀ b, key ≠ .bytea b := by
  cases key with
  | integer type n range => exact ⟨fun _ => ⟨nofun, nofun, nofun⟩, fun _ => rfl⟩
  | plain type s => exact ⟨fun _ => ⟨nofun, nofun, nofun⟩, fun _ => rfl⟩
  | bpchar s => exact ⟨fun _ => ⟨nofun, nofun, nofun⟩, fun _ => rfl⟩
  | special s => exact ⟨fun _ => ⟨nofun, nofun, nofun⟩, fun _ => rfl⟩
  | infinite withTimeZone negative => exact ⟨fun _ => ⟨nofun, nofun, nofun⟩, fun _ => rfl⟩
  | numeric d =>
    refine ⟨fun h => ?_, fun h => absurd rfl (h.1 d)⟩
    exact absurd h.symm (quote_ne_print _ d)
  | timestamp m offset =>
    refine ⟨fun h => ?_, fun h => absurd rfl (h.2.1 m offset)⟩
    exact absurd (String.ofList_inj.mp (Json.quote_injective h)).symm (blank_ne_T m _ _)
  | bytea bytes =>
    refine ⟨fun h => ?_, fun h => absurd rfl (h.2.2 bytes)⟩
    exact absurd (String.ofList_inj.mp (Json.quote_injective h)).symm (base64_ne_hex bytes)

/-! ## Keys that select their row -/

theorem mem_of_mapM {α β : Type} {f : α → Option β} {list : List α} {results : List β}
    (h : list.mapM f = some results) {a : α} (ha : a ∈ list) : ∃ b ∈ results, f a = some b := by
  induction list generalizing results with
  | nil => cases ha
  | cons x rest ih =>
    rw [List.mapM_cons] at h
    obtain ⟨b, hb, h⟩ := Option.bind_eq_some_iff.mp h
    obtain ⟨bs, hbs, h⟩ := Option.bind_eq_some_iff.mp h
    obtain rfl := Option.some.inj h
    rcases List.mem_cons.mp ha with rfl | ha
    · exact ⟨b, List.mem_cons_self, hb⟩
    · obtain ⟨c, hc, hfc⟩ := ih hbs ha
      exact ⟨c, List.mem_cons_of_mem _ hc, hfc⟩

/-- A key that is no integer takes a whole group to text. -/
theorem anyPredicate_text {names : List Json} {name : Json} (h : name ∈ names)
    (hname : asI64 name = none) (key : Key) :
    anyPredicate names key = (names.map rawText).contains key.castText := by
  rw [anyPredicate]
  cases hints : names.mapM asI64 with
  | none => rfl
  | some ints =>
    obtain ⟨n, -, hn⟩ := mem_of_mapM hints h
    rw [hname] at hn
    cases hn

variable {key : Key}

theorem asI64_decoded (h : ∀ type n range, key ≠ .integer type n range) :
    asI64 key.decoded = none := by
  cases key with
  | integer type n range => exact absurd rfl (h type n range)
  | plain | bpchar | numeric | special | timestamp | infinite | bytea => rfl

theorem selects_integer {n : ℤ} {range : -2 ^ type.bits ≤ n ∧ n < 2 ^ type.bits} {names : List Json}
    (h : .int n ∈ names) : anyPredicate names (.integer type n range) = true := by
  rw [anyPredicate]
  split
  · next ints hints =>
    obtain ⟨m, hm, hread⟩ := mem_of_mapM hints h
    rw [asI64, if_pos (type.in_i64 range)] at hread
    obtain rfl := Option.some.inj hread
    exact List.contains_iff_mem.mpr hm
  · exact List.contains_iff_mem.mpr (List.mem_map_of_mem (f := rawText) h)

theorem selects_text (key : Key) (h : asI64 key.decoded = none) :
    anyPredicate [key.decoded] key = true ↔ key.castText = rawText key.decoded := by
  rw [anyPredicate_text List.mem_cons_self h, List.contains_iff_mem]
  exact List.mem_singleton

theorem reading_monotone (key : Key) : reading.Monotone key := by
  intro hselects names hmem
  by_cases hint : ∃ type n range, key = .integer type n range
  · obtain ⟨type, n, range, rfl⟩ := hint
    exact selects_integer hmem
  · have hnone : asI64 key.decoded = none :=
      asI64_decoded fun type n range h => hint ⟨type, n, range, h⟩
    have hcast := (selects_text key hnone).mp hselects
    change anyPredicate names key = true
    rw [anyPredicate_text hmem hnone, List.contains_iff_mem, hcast]
    exact List.mem_map_of_mem hmem

/-- A key's name selects it, unless the cast takes a blank away. -/
theorem selects_name (hbytea : ∀ b, key ≠ .bytea b) :
    reading.selects [reading.name key] key = true ↔
      ∀ s, key = .bpchar s → s.toList.getLast? ≠ some ' ' := by
  change anyPredicate [key.decoded] key = true ↔ _
  cases key with
  | integer type n range =>
    exact ⟨fun _ => nofun, fun _ => selects_integer List.mem_cons_self⟩
  | bpchar s =>
    refine (selects_text (.bpchar s) rfl).trans ((castText_bpchar s).trans ⟨?_, fun h => h s rfl⟩)
    rintro h _ ⟨⟩
    exact h
  | plain type s => exact ⟨fun _ => nofun, fun _ => (selects_text (.plain type s) rfl).mpr rfl⟩
  | numeric d => exact ⟨fun _ => nofun, fun _ => (selects_text (.numeric d) rfl).mpr rfl⟩
  | special s => exact ⟨fun _ => nofun, fun _ => (selects_text (.special s) rfl).mpr rfl⟩
  | timestamp m o =>
    refine ⟨fun _ => nofun, fun _ => (selects_text (.timestamp m o) rfl).mpr ?_⟩
    exact Eq.refl (Key.timestamp m o).text
  | infinite z neg => exact ⟨fun _ => nofun, fun _ => (selects_text (.infinite z neg) rfl).mpr rfl⟩
  | bytea b => exact absurd rfl (hbytea b)

/-- A key's row is selected and filed under its name exactly when the key agrees. -/
theorem agrees_iff (key : Key) :
    reading.selects [reading.name key] key = true ∧
      reading.filed key = reading.text (reading.name key) ↔ key.agrees = true := by
  rw [filed_eq_text]
  by_cases hbytea : ∃ b, key = .bytea b
  · obtain ⟨b, rfl⟩ := hbytea
    exact ⟨fun h => absurd rfl (h.2.2.2 b), nofun⟩
  · rw [selects_name fun b h => hbytea ⟨b, h⟩]
    cases key with
    | integer | plain | special | infinite =>
      exact ⟨fun _ => rfl, fun _ => ⟨nofun, nofun, nofun, nofun⟩⟩
    | bpchar s =>
      refine ⟨fun h => decide_eq_true (h.1 s rfl), fun h => ⟨?_, nofun, nofun, nofun⟩⟩
      rintro _ ⟨⟩
      exact of_decide_eq_true h
    | numeric d => exact ⟨fun h => absurd rfl (h.2.1 d), nofun⟩
    | timestamp m o => exact ⟨fun h => absurd rfl (h.2.2.1 m o), nofun⟩
    | bytea b => exact absurd ⟨b, rfl⟩ hbytea

/-! ## Keys of one column -/

variable {k : Key}

theorem integer_of_oid (h : k.oid = type.oid) : ∃ n range, k = .integer type n range := by
  cases k with
  | integer type' n range =>
    obtain rfl : type' = type := by cases type' <;> cases type <;> first | rfl | cases h
    exact ⟨n, range, rfl⟩
  | plain type' s => cases type' <;> cases type <;> cases h
  | timestamp m o => cases o <;> cases type <;> cases h
  | infinite withTimeZone negative => cases withTimeZone <;> cases type <;> cases h
  | bpchar | numeric | special | bytea => cases type <;> cases h

theorem plain_of_oid {type : PlainType} (h : k.oid = type.oid) : ∃ s, k = .plain type s := by
  cases k with
  | plain type' s =>
    obtain rfl : type' = type := by cases type' <;> cases type <;> first | rfl | cases h
    exact ⟨s, rfl⟩
  | integer type' n range => cases type' <;> cases type <;> cases h
  | timestamp m o => cases o <;> cases type <;> cases h
  | infinite withTimeZone negative => cases withTimeZone <;> cases type <;> cases h
  | bpchar | numeric | special | bytea => cases type <;> cases h

theorem bpchar_of_oid (h : k.oid = 1042) : ∃ s, k = .bpchar s := by
  cases k with
  | bpchar s => exact ⟨s, rfl⟩
  | plain type s => cases type <;> cases h
  | integer type n range => cases type <;> cases h
  | timestamp m o => cases o <;> cases h
  | infinite withTimeZone negative => cases withTimeZone <;> cases h
  | numeric | special | bytea => cases h

theorem numeric_of_oid (h : k.oid = 1700) : (∃ d, k = .numeric d) ∨ ∃ s, k = .special s := by
  cases k with
  | numeric d => exact .inl ⟨d, rfl⟩
  | special s => exact .inr ⟨s, rfl⟩
  | plain type s => cases type <;> cases h
  | integer type n range => cases type <;> cases h
  | timestamp m o => cases o <;> cases h
  | infinite withTimeZone negative => cases withTimeZone <;> cases h
  | bpchar | bytea => cases h

theorem time_of_oid {withTimeZone negative : Bool}
    (h : k.oid = (Key.infinite withTimeZone negative).oid) :
    (∃ m o, k = .timestamp m o) ∨ ∃ negative', k = .infinite withTimeZone negative' := by
  cases k with
  | timestamp m o => exact .inl ⟨m, o, rfl⟩
  | infinite withTimeZone' negative' =>
    obtain rfl : withTimeZone' = withTimeZone := by
      cases withTimeZone' <;> cases withTimeZone <;> first | rfl | cases h
    exact .inr ⟨negative', rfl⟩
  | plain type s => cases type <;> cases withTimeZone <;> cases h
  | integer type n range => cases type <;> cases withTimeZone <;> cases h
  | bpchar | numeric | special | bytea => cases withTimeZone <;> cases h

/-- No other key of the column has the text of a key that agrees, decoded or read back. -/
theorem eq_of_text {key k : Key} (hagrees : key.agrees = true) (hoid : k.oid = key.oid)
    (h : keyLookup k.decoded = keyLookup key.decoded ∨
      k.toJsonb.render = keyLookup key.decoded) : k = key := by
  cases key with
  | integer type n range =>
    obtain ⟨m, range', rfl⟩ := integer_of_oid hoid
    obtain rfl : m = n := toString_int_injective (h.elim id id)
    rfl
  | plain type s =>
    obtain ⟨t, rfl⟩ := plain_of_oid hoid
    obtain rfl : t = s := Json.quote_injective (h.elim id id)
    rfl
  | bpchar s =>
    obtain ⟨t, rfl⟩ := bpchar_of_oid hoid
    obtain rfl : t = s := Json.quote_injective (h.elim id id)
    rfl
  | special s =>
    rcases numeric_of_oid hoid with ⟨d, rfl⟩ | ⟨t, rfl⟩
    · rcases h with h | h
      · exact absurd (Json.quote_injective h).symm (special_ne_print s d)
      · exact absurd h.symm (quote_ne_print _ d)
    · obtain rfl : t = s := Special.text_injective (Json.quote_injective (h.elim id id))
      rfl
  | infinite withTimeZone negative =>
    rcases time_of_oid hoid with ⟨m, o, rfl⟩ | ⟨negative', rfl⟩
    · rcases h with h | h
      · exact absurd (Json.quote_injective h).symm (infinity_ne_moment negative m _ _)
      · exact absurd (Json.quote_injective h).symm (infinity_ne_moment negative m _ _)
    · have htext : Key.infinity negative' = Key.infinity negative :=
        Json.quote_injective (h.elim id id)
      obtain rfl : negative' = negative := by
        cases negative' <;> cases negative <;> first | rfl | exact absurd htext (by decide)
      rfl
  | numeric | timestamp | bytea => cases hagrees

theorem finds_of_agrees (h : key.agrees = true) : reading.Finds (fun k => k.oid = key.oid) key := by
  obtain ⟨hselects, hfiled⟩ := (agrees_iff key).mpr h
  refine .of_filed (reading_monotone key) hselects hfiled fun k hoid hsame => ?_
  exact eq_of_text h hoid (.inr (hsame.trans hfiled))

/-! ## What a flush emits -/

/-- A document with its own rows of a collection. -/
def embed (key : Key) (doc : Json) (c : Collection × List (Option Key × Json)) : Json :=
  let own := capped c.1 (KeyedRead.elements key c.2)
  applyCollection doc c.1 own.1 own.2

/-- A document with the number of its own rows. -/
def count (key : Key) (doc : Json) (a : AggregateSpec × List (Option Key × Unit)) : Json :=
  applyCount doc a.1 (KeyedRead.elements key a.2).length

/-- A document with all that is its own. -/
def complete (db : ParentTables) (key : Key) (doc : Json) : Json :=
  db.aggregates.foldl (count key) (db.children.foldl (embed key) doc)

/-- The keys of the rows, and those they refer to, have one type. -/
structure ParentTables.InColumn (db : ParentTables) (oid : ℕ) : Prop where
  parents : ∀ row ∈ db.parents, row.1.oid = oid
  children : ∀ c ∈ db.children, ∀ row ∈ c.2, ∀ k, row.1 = some k → k.oid = oid
  aggregates : ∀ a ∈ db.aggregates, ∀ row ∈ a.2, ∀ k, row.1 = some k → k.oid = oid

/-- A key is matched: what the log has of it and what is read back of it are looked up by
one text, and every flush that holds its row or whose rows name it emits its document,
complete. -/
structure Matched (key : Key) : Prop where
  same : ∀ parsers, (TypeMap.convert parsers key.oid (some key.text)).map keyLookup =
    .ok key.toJsonb.render
  emitted : ∀ (db : ParentTables) (held : List (Key × Json)) (named : List Key),
    db.InColumn key.oid → (∀ row ∈ held, row.1.oid = key.oid) → (∀ k ∈ named, k.oid = key.oid) →
    ∀ doc, (key, doc) ∈ held ∨
        key ∉ held.map Prod.fst ∧ key ∈ named ∧ KeyedRead.lookup key db.parents = some doc →
      (key.decoded, complete db key doc) ∈
        flushPending db (held.map fun row => (row.1.decoded, row.2)) (named.map Key.decoded)

theorem oid_of_groups {β : Type} {rows : List (Option Key × β)} {oid : ℕ}
    (h : ∀ row ∈ rows, ∀ k, row.1 = some k → k.oid = oid) :
    ∀ group ∈ groups rows, group.1.oid = oid := by
  intro group hgroup
  obtain ⟨k, hk, rfl⟩ := List.mem_map.mp hgroup
  obtain ⟨row, hrow, heq⟩ := List.mem_filterMap.mp (List.mem_dedup.mp hk)
  exact h row hrow k heq

section Attach

variable {key : Key} {keys : List Key}

/-- A collection's read finds a key's own rows. -/
theorem fetchMany_eq (hagrees : key.agrees = true) (hkeys : ∀ k ∈ keys, k.oid = key.oid)
    (hkey : key ∈ keys) (spec : Collection) {rows : List (Option Key × Json)}
    (hrows : ∀ row ∈ rows, ∀ k, row.1 = some k → k.oid = key.oid) :
    (fetchMany spec rows (keys.map Key.decoded) key.decoded).getD ([], 0) =
      capped spec (elements key rows) := by
  have hfound : reading.found (groups rows) (keys.map Key.decoded) key.decoded =
      lookup key (groups rows) :=
    finds_of_agrees hagrees _ keys (oid_of_groups hrows) hkeys hkey
  rw [fetchMany, hfound, ← lookup_groups key rows]
  cases lookup key (groups rows) with
  | some group => rfl
  | none =>
    -- a key that nothing refers to has an empty array
    rw [capped]
    cases spec.maxRows with
    | none => rfl
    | some n => exact congrArg (·, 0) List.take_nil.symm

theorem fetchCounts_eq (hagrees : key.agrees = true) (hkeys : ∀ k ∈ keys, k.oid = key.oid)
    (hkey : key ∈ keys) {rows : List (Option Key × Unit)}
    (hrows : ∀ row ∈ rows, ∀ k, row.1 = some k → k.oid = key.oid) :
    (fetchCounts rows (keys.map Key.decoded) key.decoded).getD 0 =
      (elements key rows).length := by
  have hfound : reading.found (groups rows) (keys.map Key.decoded) key.decoded =
      lookup key (groups rows) :=
    finds_of_agrees hagrees _ keys (oid_of_groups hrows) hkeys hkey
  rw [fetchCounts, hfound, ← lookup_groups key rows]
  cases lookup key (groups rows) <;> rfl

/-- What is attached to the documents of some keys leaves the keys as they are. -/
theorem mem_attach_children (hagrees : key.agrees = true) (hkeys : ∀ k ∈ keys, k.oid = key.oid)
    (hkey : key ∈ keys) {children : List (Collection × List (Option Key × Json))}
    (hchildren : ∀ c ∈ children, ∀ row ∈ c.2, ∀ k, row.1 = some k → k.oid = key.oid)
    {docs : List (Json × Json)} (hdocs : docs.map Prod.fst = keys.map Key.decoded) {doc : Json}
    (hmem : (key.decoded, doc) ∈ docs) :
    (attachChildrenBatch docs children).map Prod.fst = keys.map Key.decoded ∧
      (key.decoded, children.foldl (embed key) doc) ∈ attachChildrenBatch docs children := by
  induction children generalizing docs doc with
  | nil => exact ⟨hdocs, hmem⟩
  | cons c rest ih =>
    refine ih (fun c hc => hchildren c (List.mem_cons_of_mem _ hc)) ?_ ?_
    · rw [attachChildren, List.map_map]
      exact hdocs
    · rw [embed, ← fetchMany_eq hagrees hkeys hkey c.1 (hchildren c List.mem_cons_self), ← hdocs]
      exact List.mem_map.mpr ⟨_, hmem, rfl⟩

theorem mem_attach_aggregates (hagrees : key.agrees = true) (hkeys : ∀ k ∈ keys, k.oid = key.oid)
    (hkey : key ∈ keys) {aggregates : List (AggregateSpec × List (Option Key × Unit))}
    (haggregates : ∀ a ∈ aggregates, ∀ row ∈ a.2, ∀ k, row.1 = some k → k.oid = key.oid)
    {docs : List (Json × Json)} (hdocs : docs.map Prod.fst = keys.map Key.decoded) {doc : Json}
    (hmem : (key.decoded, doc) ∈ docs) :
    (key.decoded, aggregates.foldl (count key) doc) ∈ attachAggregatesBatch docs aggregates := by
  induction aggregates generalizing docs doc with
  | nil => exact hmem
  | cons a rest ih =>
    refine ih (fun a ha => haggregates a (List.mem_cons_of_mem _ ha)) ?_ ?_
    · rw [attachAggregates, List.map_map]
      exact hdocs
    · rw [count, ← fetchCounts_eq hagrees hkeys hkey (haggregates a List.mem_cons_self), ← hdocs]
      exact List.mem_map.mpr ⟨_, hmem, rfl⟩

end Attach

/-- The keys that are read again are those that were named and have no row that is held. -/
theorem keysNeedingRefetch_map (held : List (Key × Json)) (named : List Key) :
    ∃ missing : List Key, missing ⊆ named ∧
      keysNeedingRefetch (held.map fun row => (row.1.decoded, row.2)) (named.map Key.decoded) =
        missing.map Key.decoded ∧
      ∀ k ∈ named, k ∉ missing →
        ∃ row ∈ held, keyLookup row.1.decoded = keyLookup k.decoded := by
  refine ⟨named.filter fun k => !((held.map fun row => (row.1.decoded, row.2)).map
    fun row => keyLookup row.1).contains (keyLookup k.decoded), List.filter_subset_self _, ?_, ?_⟩
  · rw [keysNeedingRefetch, List.filter_map]
    rfl
  · intro k hk hnot
    rw [List.mem_filter, not_and, Bool.not_eq_true, Bool.not_eq_false', List.map_map,
      List.contains_iff_mem] at hnot
    obtain ⟨row, hrow, heq⟩ := List.mem_map.mp (hnot hk)
    exact ⟨row, hrow, heq⟩

theorem map_fst_filterMap (read : Json → Option Json) (keys : List Key) :
    ((keys.map Key.decoded).filterMap fun key => (read key).map fun doc => (key, doc)).map
        Prod.fst =
      (keys.filter fun k => (read k.decoded).isSome).map Key.decoded := by
  induction keys with
  | nil => rfl
  | cons k rest ih =>
    rw [List.map_cons, List.filterMap_cons, List.filter_cons]
    cases hread : read k.decoded with
    | none => exact ih
    | some doc => exact congrArg (k.decoded :: ·) ih

theorem flush_complete (hagrees : key.agrees = true) {db : ParentTables} (hdb : db.InColumn key.oid)
    {held : List (Key × Json)} {named : List Key} (hheld : ∀ row ∈ held, row.1.oid = key.oid)
    (hnamed : ∀ k ∈ named, k.oid = key.oid) {doc : Json} (h : (key, doc) ∈ held ∨
      key ∉ held.map Prod.fst ∧ key ∈ named ∧ lookup key db.parents = some doc) :
    (key.decoded, complete db key doc) ∈
      flushPending db (held.map fun row => (row.1.decoded, row.2)) (named.map Key.decoded) := by
  obtain ⟨missing, hsubset, hmissing, hcovered⟩ := keysNeedingRefetch_map held named
  rw [flushPending, hmissing]
  set read := refetchParents db.parents (missing.map Key.decoded) with hread
  set found := (missing.map Key.decoded).filterMap fun key =>
    (read key).map fun doc => (key, doc) with hfound
  set keys := held.map Prod.fst ++ missing.filter fun k => (read k.decoded).isSome with hkeysDef
  have hkeys : ∀ k ∈ keys, k.oid = key.oid := by
    intro k hk
    rcases List.mem_append.mp hk with hk | hk
    · obtain ⟨row, hrow, rfl⟩ := List.mem_map.mp hk
      exact hheld row hrow
    · exact hnamed k (hsubset (List.mem_of_mem_filter hk))
  have hdocs : ((held.map fun row => (row.1.decoded, row.2)) ++ found).map Prod.fst =
      keys.map Key.decoded := by
    rw [List.map_append, hfound, map_fst_filterMap, hkeysDef, List.map_append, List.map_map,
      List.map_map]
    rfl
  have hmem : key ∈ keys ∧
      (key.decoded, doc) ∈ (held.map fun row => (row.1.decoded, row.2)) ++ found := by
    rcases h with hrow | ⟨hnot, hname, hdoc⟩
    · exact ⟨List.mem_append_left _ (List.mem_map_of_mem (f := Prod.fst) hrow),
        List.mem_append_left _ (List.mem_map.mpr ⟨_, hrow, rfl⟩)⟩
    · have hkey : key ∈ missing := by
        by_contra hkey
        -- a held row with the key's text would be the key's own
        obtain ⟨row, hrow, htext⟩ := hcovered key hname hkey
        have heq := eq_of_text hagrees (hheld row hrow) (.inl htext)
        exact hnot (List.mem_map.mpr ⟨row, hrow, heq⟩)
      have hreads : read key.decoded = some doc := by
        have hfinds := finds_of_agrees hagrees db.parents missing hdb.parents
          (fun k hk => hnamed k (hsubset hk)) hkey
        exact hfinds.trans hdoc
      refine ⟨List.mem_append_right _ (List.mem_filter.mpr ⟨hkey, ?_⟩),
        List.mem_append_right _ (List.mem_filterMap.mpr
          ⟨key.decoded, List.mem_map_of_mem hkey, ?_⟩)⟩
      · rw [hreads]
        rfl
      · rw [hreads]
        rfl
  obtain ⟨hkeep, hattached⟩ :=
    mem_attach_children hagrees hkeys hmem.1 hdb.children hdocs hmem.2
  exact mem_attach_aggregates hagrees hkeys hmem.1 hdb.aggregates hkeep hattached

/-- A key that is named alone finds its row only if it agrees. -/
theorem agrees_of_matched (h : Matched key) : key.agrees = true := by
  rw [← agrees_iff]
  by_contra hnot
  have hone : ∀ k ∈ [key], k.oid = key.oid := fun k hk => by rw [List.mem_singleton.mp hk]
  have hdb : ParentTables.InColumn ⟨[(key, .null)], [], []⟩ key.oid :=
    ⟨fun row hrow => by rw [List.mem_singleton.mp hrow], nofun, nofun⟩
  have hlookup : lookup key [(key, Json.null)] = some .null := by
    rw [lookup_cons, if_pos rfl]
    rfl
  have hnone : ∀ row ∈ ([] : List (Key × Json)), row.1.oid = key.oid :=
    fun row hrow => absurd hrow List.not_mem_nil
  have hmem := h.emitted ⟨[(key, .null)], [], []⟩ [] [key] hdb hnone hone .null
    (.inr ⟨List.not_mem_nil, List.mem_cons_self, hlookup⟩)
  have hempty : refetchParents [(key, .null)] [key.decoded] key.decoded = none := by
    have hsingle := reading.found_single key Json.null
    rw [if_neg hnot] at hsingle
    exact hsingle
  have hflush : flushPending ⟨[(key, .null)], [], []⟩ [] [key.decoded] = [] := by
    change ([key.decoded].filterMap fun k =>
      (refetchParents [(key, .null)] [key.decoded] k).map fun doc => (k, doc)) = []
    rw [List.filterMap_cons, hempty]
    rfl
  rw [List.map_nil, List.map_singleton, hflush] at hmem
  cases hmem

/-- A key is matched whichever way it was read, except a finite number, a finite time,
bytes, and a `char(n)` with blanks that its cast strips. -/
theorem matched_iff (key : Key) : Matched key ↔ key.agrees = true := by
  refine ⟨agrees_of_matched, fun h => ⟨fun parsers => ?_, ?_⟩⟩
  · have hfiled : key.toJsonb.render = keyLookup key.decoded := ((agrees_iff key).mpr h).2
    rw [convert_text, hfiled]
    rfl
  · intro db held named hdb hheld hnamed doc hdoc
    exact flush_complete h hdb hheld hnamed hdoc

/-- The parent whose key is 12.50 is named by a string and filed under a number. -/
theorem twelve_fifty_strays : ¬Matched (.numeric ⟨1250, 2⟩) := by
  intro h
  have hsame := h.same ⟨fun _ => none, fun _ => none⟩
  rw [convert_text] at hsame
  exact quote_ne_print "12.50" ⟨1250, 2⟩ (Except.ok.inj hsame)

end ParentKeys

end Pg2osync
