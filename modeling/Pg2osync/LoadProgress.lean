import Pg2osync.Core

/-!
# How far a load got

An initial load reads each configured table once, beside the stream. What it has
durably written of a table is a small document in the target, `LoadProgress`, so
that a restart carries on instead of starting over. PostgreSQL's loader cuts the
key space into ranges in advance and counts the leading ones written; MySQL's
remembers the last key written.

A key value reaches a statement as a SQL literal, and only the server knows what a
literal means. That is a parameter here: a map from literals into an ordered type.
-/

namespace Pg2osync

open Json

/-- Which stream a checkpoint belongs to. -/
structure StreamId : Type where
  /-- `postgres` or `mysql` -/
  source : String
  /-- the slot's name, or the server id -/
  stream : String
  /-- the publication's name, or empty -/
  publication : String
  deriving DecidableEq, Repr

/-- How far streaming got, as the target keeps it. -/
structure Checkpoint : Type where
  /-- whose it is -/
  stream : StreamId
  /-- the position as a number -/
  token : ℕ
  /-- the position as the source writes it -/
  position : String
  deriving DecidableEq, Repr

/-- How a loader says where it got to. -/
inductive LoadCursor : Type where
  /-- boundaries cut in advance, and how many leading ranges are written -/
  | ranges (boundaries : List String) (done : ℕ) : LoadCursor
  /-- the last key written -/
  | after (key : List String) : LoadCursor
  deriving DecidableEq, Repr

/-- One table's load progress. -/
structure LoadProgress : Type where
  /-- where the loader is -/
  cursor : LoadCursor
  /-- set once the whole table is written -/
  finished : Bool
  deriving DecidableEq, Repr

namespace LoadProgress

/-! ## The stored document -/

/-- `LoadProgress::to_doc`. -/
def toDoc (progress : LoadProgress) : Json :=
  let doc := match progress.cursor with
    | .ranges boundaries done =>
      [("boundaries", .arr (boundaries.map .str)), ("done", .int done)]
    | .after key => [("after", .arr (key.map .str))]
  .obj (Json.insertField "finished" (.bool progress.finished) doc)

/-- `strings`: an array of strings. -/
def strings (src : Json) : Option (List String) :=
  src.asArray.bind fun items => items.mapM Json.asStr

/-- `LoadProgress::from_doc`. The field `after` tells the two shapes apart. -/
def fromDoc (src : Json) : Option LoadProgress :=
  (src.index "finished").asBool.bind fun finished =>
    match src.get "after" with
    | some after => (strings after).map fun key => ⟨.after key, finished⟩
    | none => (strings (src.index "boundaries")).bind fun boundaries =>
      (src.index "done").asU64.map fun done => ⟨.ranges boundaries done, finished⟩

theorem strings_arr (texts : List String) : strings (.arr (texts.map .str)) = some texts := by
  rw [strings, Json.asArray, Option.bind_some]
  induction texts with
  | nil => rfl
  | cons text rest ih => rw [List.map_cons, List.mapM_cons, ih]; rfl

/-- A cursor whose count fits the word it is read back as. -/
def Fits (progress : LoadProgress) : Prop :=
  match progress.cursor with
  | .ranges _ done => done < 2 ^ 64
  | .after _ => True

/-- **A stored document reads back as the progress it was written from.** -/
theorem fromDoc_toDoc {progress : LoadProgress} (hfits : progress.Fits) :
    fromDoc progress.toDoc = some progress := by
  obtain ⟨cursor, finished⟩ := progress
  cases cursor with
  | after key =>
    have hkey := strings_arr key
    have horder : keyBefore "finished" "after" = false := by decide
    simp [toDoc, fromDoc, insertField, horder, Json.index, Json.get, lookup, asBool,
      hkey]
  | ranges boundaries done =>
    have hdone : done < 2 ^ 64 := hfits
    have hbounds := strings_arr boundaries
    have hword : (Json.int done).asU64 = some done := by
      rw [Json.asU64, if_pos ⟨by omega, by exact_mod_cast hdone⟩, Int.toNat_natCast]
    have hfirst : keyBefore "finished" "boundaries" = false := by decide
    have hsecond : keyBefore "finished" "done" = false := by decide
    simp [toDoc, fromDoc, insertField, hfirst, hsecond, Json.index, Json.get, lookup,
      asBool, hbounds, hword]

/-- What a stored document reads back as, it was written from. -/
theorem eq_of_fromDoc_toDoc {progress read : LoadProgress}
    (h : fromDoc progress.toDoc = some read) : read = progress := by
  by_cases hfits : progress.Fits
  · rw [fromDoc_toDoc hfits] at h
    exact (Option.some.inj h).symm
  · -- a count that does not fit is not read back at all
    obtain ⟨cursor, finished⟩ := progress
    cases cursor with
    | after key => exact absurd trivial hfits
    | ranges boundaries done =>
      have hbounds := strings_arr boundaries
      have hlarge : ¬ done < 2 ^ 64 := hfits
      have hword : (Json.int done).asU64 = none := by
        rw [Json.asU64, if_neg]
        rintro ⟨-, hlt⟩
        exact hlarge (by exact_mod_cast hlt)
      have hfirst : keyBefore "finished" "boundaries" = false := by decide
      have hsecond : keyBefore "finished" "done" = false := by decide
      simp [toDoc, fromDoc, insertField, hfirst, hsecond, Json.index, Json.get, lookup,
        asBool, hbounds, hword] at h

end LoadProgress

/-! ## Where it is stored -/

/-- The part of a name that a state document's id keeps; `alphanumeric` is the
character table of `char::is_alphanumeric`. -/
def tame (alphanumeric : Char → Bool) (name : String) : String :=
  String.ofList (name.toList.map fun c =>
    if alphanumeric c || c = '-' || c = '_' then c else '_')

/-- `load_progress_key`: where one table's progress is stored, as a document id. -/
def loadProgressKey (alphanumeric : Char → Bool) (stream : StreamId) (qualifiedTable : String) :
    String :=
  "load-" ++ tame alphanumeric stream.source ++ "-" ++ tame alphanumeric stream.stream ++ "-" ++
    tame alphanumeric qualifiedTable

/-- Two tables of one database whose progress is one document. -/
example : loadProgressKey Char.isAlphanum ⟨"postgres", "s", "p"⟩ "a.b_c" =
    loadProgressKey Char.isAlphanum ⟨"postgres", "s", "p"⟩ "a_b.c" := by decide

/-! ## Ranges of keys -/

/-- One primary-key range to read; `none` on either side means it is open there. -/
structure KeyRange : Type where
  /-- where it begins -/
  lower : Option String
  /-- where it ends, itself left out -/
  upper : Option String
  deriving DecidableEq, Repr

/-- `ranges_from_bounds`: the ranges between interior boundaries. -/
def rangesFromBounds : List String → List KeyRange
  | [] => [⟨none, none⟩]
  | b :: bounds =>
    ⟨none, some b⟩ :: List.zipWith (fun lo hi => ⟨some lo, some hi⟩) (b :: bounds) bounds ++
      [⟨some ((b :: bounds).getLast (List.cons_ne_nil _ _)), none⟩]

section

variable {κ : Type} [LinearOrder κ]

/-- `KeyRange::predicate`, as the server evaluates it: `meaning` is the key a
literal denotes. -/
def KeyRange.holds (meaning : String → κ) (range : KeyRange) (key : κ) : Bool :=
  range.lower.all (fun lo => meaning lo ≤ key) && range.upper.all fun hi => key < meaning hi

variable (meaning : String → κ) (key : κ)

theorem exists_range_above (lo : String) (bounds : List String) (hlo : meaning lo ≤ key) :
    ∃ range ∈ List.zipWith (fun lo hi => KeyRange.mk (some lo) (some hi)) (lo :: bounds) bounds ++
      [⟨some ((lo :: bounds).getLast (List.cons_ne_nil _ _)), none⟩],
      range.holds meaning key = true := by
  induction bounds generalizing lo with
  | nil => exact ⟨⟨some lo, none⟩, by simp, by simp [KeyRange.holds, hlo]⟩
  | cons hi rest ih =>
    -- either the key ends before the next boundary, or it lies above that one too
    by_cases hhi : key < meaning hi
    · exact ⟨⟨some lo, some hi⟩, by simp, by simp [KeyRange.holds, hlo, hhi]⟩
    · obtain ⟨range, hmem, hholds⟩ := ih hi (not_lt.mp hhi)
      refine ⟨range, ?_, hholds⟩
      rw [List.zipWith_cons_cons, List.cons_append, List.getLast_cons_cons]
      exact List.mem_cons_of_mem _ hmem

/-- **The ranges leave no key out**, whatever boundaries were sampled and in
whatever order. -/
theorem exists_range (bounds : List String) :
    ∃ range ∈ rangesFromBounds bounds, range.holds meaning key = true := by
  cases bounds with
  | nil => exact ⟨⟨none, none⟩, by simp [rangesFromBounds], rfl⟩
  | cons b rest =>
    by_cases hb : key < meaning b
    · exact ⟨⟨none, some b⟩, by simp [rangesFromBounds], by simp [KeyRange.holds, hb]⟩
    · obtain ⟨range, hmem, hholds⟩ := exists_range_above meaning key b rest (not_lt.mp hb)
      exact ⟨range, List.mem_cons_of_mem _ hmem, hholds⟩

theorem length_rangesFromBounds (bounds : List String) :
    (rangesFromBounds bounds).length = bounds.length + 1 := by
  cases bounds with
  | nil => rfl
  | cons b rest => simp [rangesFromBounds]

end

end Pg2osync
