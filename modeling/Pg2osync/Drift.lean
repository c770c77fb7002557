import Mathlib.Data.List.Basic

/-!
# What changed between two shapes of a table

Both sources compare the columns that they knew of a table with those that they find, by
name: what is new, what is gone, and what has another type. The order of the columns is
no part of it, and neither is a name that another column had before.
-/

namespace Pg2osync

section

variable {τ : Type}

/-- The columns of one list that another one does not have. -/
def columnsMissing (columns others : List (String × τ)) : List String :=
  (columns.map Prod.fst).filter fun name => !(others.map Prod.fst).contains name

/-- The columns whose type is another one now. -/
def columnsRetyped [DecidableEq τ] (text : τ → String) (before after : List (String × τ)) :
    List String :=
  before.filterMap fun b =>
    match after.find? fun a => a.1 = b.1 with
    | none => none
    | some a =>
      if a.2 = b.2 then none else some (b.1 ++ " (" ++ text b.2 ++ " -> " ++ text a.2 ++ ")")

/-- A part of the report, if there is something to say. -/
def driftPart (what : String) (names : List String) : Option String :=
  if names.isEmpty then none else some (what ++ " " ++ String.intercalate ", " names)

/-- `column_drift`. -/
def columnDrift [DecidableEq τ] (text : τ → String) (before after : List (String × τ)) :
    Option String :=
  match [driftPart "added" (columnsMissing after before),
    driftPart "removed" (columnsMissing before after),
    driftPart "retyped" (columnsRetyped text before after)].filterMap id with
  | [] => none
  | parts => some (String.intercalate "; " parts)

end

end Pg2osync
