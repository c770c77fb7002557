import Pg2osync.Evolution

/-!
# A table whose filter decides which rows are documents

The filter judges a row's new state, completed from the stored document where the
source left columns out. A row it turns down is a delete, whatever the source said:
of the row's old state where that arrives, and else of the new row under the old key.
-/

namespace Pg2osync

/-- What one transform makes of a value. -/
def Applied.over (value : Json) : Applied → Json
  | .converted new | .defaulted new => new
  | .alreadyShaped | .unconvertible => value
  | .refused => .str "***"

/-- What a section's transforms make of a column's value. -/
def TransformRules.value (rules : TransformRules) (column : String) (value : Json) : Json :=
  rules.foldl (fun value rule =>
    if rule.1 = column ∧ value ≠ .null then (rule.2 value).over value else value) value

namespace KeyedTable

variable (t : KeyedTable) (target : VersionedTarget)

/-- Whether a row is a document. -/
def matchesRow (row : Row) : Bool :=
  (t.rules.filters t.table).all fun filter => filter (.obj row)

/-- The document of a row. -/
def published (row : Row) : Option Json :=
  (t.keyOf row).toOption.bind fun key =>
    (placeOne t.rules t.table (.obj row) key.id (.obj row)).toOption.map fun placed =>
      (shapeDoc t.rules t.table [] placed).1

/-- The stored document that an event is completed from. -/
def readBack (docs : Documents) (kind : RowKind) : Option Json :=
  (completionKey kind t.rules ⟨[(t.table, t.target)]⟩ t.table).bind fun wanted =>
    docs ⟨wanted.1.1, wanted.1.2, wanted.2⟩

/-- The same table with its filter; an event is completed from the documents as they are
when it is materialised. -/
def filteredSystem : Transition.System Mirror (Change × Option ℕ) where
  initial s := s = ⟨[], .ok fun _ => none, []⟩
  step s action := (t.describe s.rows action.1).bind fun next =>
    if t.wellNamed next.1 && next.1.all fun row => decide (Json.Ordered row) then
      some (t.materialized target next.1 next.2
        (s.docs.toOption.bind fun docs => t.readBack docs next.2) action.2 s)
    else none

/-- **The documents show the rows that match**: each live row that satisfies the filter
has its own values at its own place, and nothing else is stored. -/
def ShowsMatching (s : Mirror) : Prop :=
  ∃ docs, s.docs = .ok docs ∧ ∀ key doc, docs key = some doc ↔
    ∃ row ∈ s.rows, t.matchesRow row ∧ t.keyOf row = .ok key ∧ t.published row = some doc

/-! ## What has to come back of a row -/

/-- What a stored document holds of a column. -/
def storedValue (stored : Option Json) (column : String) : Option Json :=
  stored.bind fun doc => doc.get (Rename.targetName (t.rules.renames t.table) column)

/-- A row with its left-out columns as the target holds them. -/
def restored (stored : Option Json) (leftOut : List String) (row : Row) : Row :=
  row.map fun f =>
    if leftOut.contains f.1 then (f.1, (t.storedValue stored f.1).getD .null) else f

/-- Every left-out column that the section keeps comes back as it is published. -/
def comesBack (stored : Option Json) (leftOut : List String) (row : Row) : Bool :=
  leftOut.all fun column => !(t.rules.projections t.table).all (·.keeps column) ||
    (Json.lookup column row).all fun value =>
      (t.storedValue stored column).getD .null =
        ((t.rules.transforms t.table).elim value fun rules => rules.value column value)

/-- Where a row that leaves the filter is taken to be, when its old state does not
arrive: where the new row would be, but under the old key if that is the id. -/
def leavingKey (old row : Row) : Option DocKey :=
  (t.keyOf row).toOption.bind fun key =>
    if (t.rules.idTemplates t.table).isSome then some key
    else (t.extractPk old).map fun pk => { key with id := pkToId pk }

/-- That is where the row was or, if it had no document, where no document is. -/
def leavesRightly (rows : List Row) (nth : ℕ) (old row : Row) : Bool :=
  t.full || (t.leavingKey old row).all fun key =>
    if t.matchesRow old then decide (t.keyOf old = .ok key)
    else !(t.places ((rows.eraseIdx nth).filter t.matchesRow)).contains key

/-- An update is judged, completed and named as the row is. -/
def filterTells (s : Mirror) (change : Change) : Bool :=
  match change with
  | .insert _ => true
  | .update nth row leftOut _ => s.rows[nth]?.all fun old =>
    (t.describe s.rows change).all fun next =>
      let stored := s.docs.toOption.bind fun docs => t.readBack docs next.2
      (t.matchesRow (t.restored stored leftOut row) = t.matchesRow row) &&
        if t.matchesRow row then t.comesBack stored leftOut row && t.keyTells s.rows change
        else t.leavesRightly s.rows nth old row
  | .delete _ => t.keyTells s.rows change

end KeyedTable

end Pg2osync
