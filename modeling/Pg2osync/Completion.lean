import Pg2osync.Filtered

/-!
# What completion gives back

A completed row is the row with its left-out columns as the target holds them. Those
have been through the transforms already and do not go through them again, so the
completed row is shaped to the row's own document exactly if the target holds what the
transforms make of the row's values.

Fields are ordered throughout, so two lists of them are compared lookup by lookup.
-/

namespace Pg2osync

open Json

namespace Json

theorem Ordered.of_keys {a b : Row} (h : Ordered a) (hkeys : b.map Prod.fst = a.map Prod.fst) :
    Ordered b := by
  unfold Ordered
  rw [hkeys]
  exact h

/-- A map over the values is a map over what is looked up. -/
theorem lookup_map (g : String → Json → Json) (key : String) (fields : Row) :
    lookup key (fields.map fun f => (f.1, g f.1 f.2)) = (lookup key fields).map (g key) := by
  induction fields with
  | nil => rfl
  | cons f rest ih =>
    obtain ⟨k, v⟩ := f
    by_cases hk : k = key
    · subst hk
      simp [lookup]
    · simp [lookup, hk, ih]

end Json

namespace KeyedTable

variable {t : KeyedTable}

/-! ## The completed row -/

theorem leaveOut_eq (columns : List String) (row : Row) : leaveOut columns row =
    row.map fun f => (f.1, if columns.contains f.1 then .null else f.2) := by
  refine List.map_congr_left fun f _ => ?_
  split <;> rfl

theorem restored_eq (stored : Option Json) (leftOut : List String) (row : Row) :
    t.restored stored leftOut row = row.map fun f =>
      (f.1, if leftOut.contains f.1 then (t.storedValue stored f.1).getD .null else f.2) := by
  refine List.map_congr_left fun f _ => ?_
  split <;> rfl

theorem lookup_leftOut (columns : List String) (row : Row) (column : String) :
    lookup column (leaveOut columns row) = (lookup column row).map fun value =>
      if columns.contains column then .null else value := by
  rw [leaveOut_eq]
  exact lookup_map (fun name value => if columns.contains name then .null else value) column row

theorem lookup_restored (stored : Option Json) (leftOut : List String) (row : Row)
    (column : String) : lookup column (t.restored stored leftOut row) =
      (lookup column row).map fun value =>
        if leftOut.contains column then (t.storedValue stored column).getD .null else value := by
  rw [restored_eq]
  exact lookup_map (fun name value =>
    if leftOut.contains name then (t.storedValue stored name).getD .null else value) column row

/-- The columns a stored document has. -/
def completedColumns (t : KeyedTable) (stored : Option Json) (leftOut : List String) : List String :=
  leftOut.filter fun column => (t.storedValue stored column).isSome

theorem completeColumns_eq (rename : Option Rename) (stored : Row) (columns : List String)
    (acc : Row × List String) (hordered : Json.Ordered acc.1) :
    Json.Ordered (columns.foldl (completeColumn rename stored) acc).1 ∧
    (columns.foldl (completeColumn rename stored) acc).2 = acc.2 ++
      columns.filter (fun c => (lookup (Rename.targetName rename c) stored).isSome) ∧
    ∀ c, lookup c (columns.foldl (completeColumn rename stored) acc).1 =
      if c ∈ columns then (lookup (Rename.targetName rename c) stored).or (lookup c acc.1)
      else lookup c acc.1 := by
  induction columns generalizing acc with
  | nil => exact ⟨hordered, by simp, fun c => by simp⟩
  | cons column rest ih =>
    rw [List.foldl_cons]
    cases hvalue : lookup (Rename.targetName rename column) stored with
    | none =>
      have hstep : completeColumn rename stored acc column = acc := by
        simp only [completeColumn, hvalue]
      rw [hstep]
      obtain ⟨hord, hcolumns, hlookup⟩ := ih acc hordered
      refine ⟨hord, by simpa [hvalue] using hcolumns, fun c => ?_⟩
      rw [hlookup]
      by_cases hc : c = column
      · subst hc
        simp [hvalue]
      · simp [hc]
    | some value =>
      have hstep : completeColumn rename stored acc column =
          (insertField column value acc.1, acc.2 ++ [column]) := by
        simp only [completeColumn, hvalue]
      rw [hstep]
      have hinserted : Json.Ordered
          (insertField column value acc.1, acc.2 ++ [column]).1 := hordered.insertField column value
      obtain ⟨hord, hcolumns, hlookup⟩ := ih _ hinserted
      refine ⟨hord, by simpa [hvalue] using hcolumns, fun c => ?_⟩
      rw [hlookup]
      by_cases hc : c = column
      · subst hc
        simp [hvalue, lookup_insertField_self]
      · simp [hc, lookup_insertField_ne hc]

/-- **Completion is restoration**: the completed row is the row with its left-out columns
as the target holds them. -/
theorem completeToast_eq {row : Row} (hordered : Json.Ordered row) {leftOut : List String}
    (hpresent : ∀ column ∈ leftOut, (lookup column row).isSome) (stored : Option Json) :
    completeToast (.obj (leaveOut leftOut row)) leftOut stored t.rules t.table =
      (.obj (t.restored stored leftOut row), t.completedColumns stored leftOut) := by
  have hleft : Json.Ordered (leaveOut leftOut row) :=
    hordered.of_keys (by rw [leaveOut_eq]; simp)
  have hrestored : Json.Ordered (t.restored stored leftOut row) :=
    hordered.of_keys (by rw [restored_eq]; simp)
  have hnone : (∀ column, t.storedValue stored column = none) →
      (.obj (leaveOut leftOut row), []) =
        (obj (t.restored stored leftOut row), t.completedColumns stored leftOut) := by
    intro hempty
    rw [restored_eq, leaveOut_eq]
    simp [hempty, completedColumns]
  cases stored with
  | none => exact hnone fun _ => rfl
  | some doc =>
    cases doc with
    | null | bool | int | float | str | arr => exact hnone fun _ => rfl
    | obj fields =>
      obtain ⟨hord, hcolumns, hlookup⟩ :=
        completeColumns_eq (t.rules.renames t.table) fields leftOut (leaveOut leftOut row, []) hleft
      have hfields : (leftOut.foldl (completeColumn (t.rules.renames t.table) fields)
          (leaveOut leftOut row, [])).1 = t.restored (some (.obj fields)) leftOut row := by
        refine hord.ext hrestored fun c => ?_
        rw [hlookup, lookup_restored, lookup_leftOut]
        split
        · next hc =>
          obtain ⟨value, hvalue⟩ := Option.isSome_iff_exists.mp (hpresent c hc)
          have hstored : t.storedValue (some (.obj fields)) c =
            lookup (Rename.targetName (t.rules.renames t.table) c) fields := rfl
          rw [hvalue, hstored]
          cases lookup (Rename.targetName (t.rules.renames t.table) c) fields <;> simp [hc]
        · next hc => simp [hc]
      exact Prod.ext (congrArg obj hfields) (hcolumns.trans (List.nil_append _))

end KeyedTable

/-! ## What the transforms make of it -/

variable {fields : Row}

theorem applyTransform_eq (column : String) (op : Json → Applied) (hordered : Json.Ordered fields) :
    Json.Ordered (applyTransform column op fields).1 ∧
    ∀ c, lookup c (applyTransform column op fields).1 = (lookup c fields).map fun value =>
      if column = c ∧ value ≠ .null then (op value).over value else value := by
  have hsame : ∀ value, lookup column fields = some value → ∀ c,
      (value ≠ .null → (op value).over value = value) →
      lookup c fields = (lookup c fields).map fun value =>
        if column = c ∧ value ≠ .null then (op value).over value else value := by
    intro value hvalue c hover
    by_cases hc : column = c
    · subst hc
      by_cases hnull : value = .null
      · simp [hvalue, hnull]
      · simp [hvalue, hnull, hover hnull]
    · simp [hc]
  have hinsert : ∀ value new, lookup column fields = some value → value ≠ .null →
      (op value).over value = new → ∀ c,
      lookup c (insertField column new fields) = (lookup c fields).map fun value =>
        if column = c ∧ value ≠ .null then (op value).over value else value := by
    intro value new hvalue hnull hover c
    by_cases hc : column = c
    · subst hc
      simp [lookup_insertField_self, hvalue, hnull, hover]
    · simp [lookup_insertField_ne (Ne.symm hc), hc]
  unfold applyTransform
  split
  · next hvalue =>
    refine ⟨hordered, fun c => ?_⟩
    by_cases hc : column = c
    · subst hc
      simp [hvalue]
    · simp [hc]
  · next hvalue => exact ⟨hordered, fun c => hsame .null hvalue c fun h => absurd rfl h⟩
  · next value hnull hvalue =>
    have hne : value ≠ .null := hnull
    cases hop : op value with
    | converted new =>
      exact ⟨hordered.insertField column new,
        hinsert value new hvalue hne (by rw [hop]; rfl)⟩
    | alreadyShaped => exact ⟨hordered, fun c => hsame value hvalue c fun _ => by rw [hop]; rfl⟩
    | unconvertible => exact ⟨hordered, fun c => hsame value hvalue c fun _ => by rw [hop]; rfl⟩
    | defaulted new =>
      exact ⟨hordered.insertField column new,
        hinsert value new hvalue hne (by rw [hop]; rfl)⟩
    | refused =>
      exact ⟨hordered.insertField column (.str "***"),
        hinsert value (.str "***") hvalue hne (by rw [hop]; rfl)⟩

theorem TransformRules.value_null (rules : TransformRules) (column : String) :
    rules.value column .null = .null := by
  induction rules with
  | nil => rfl
  | cons rule rest ih =>
    rw [TransformRules.value, List.foldl_cons, if_neg fun h => h.2 rfl]
    exact ih

/-- What has been missed so far does not matter to the fields. -/
theorem foldl_applyTransform (rules : TransformRules) (shaped : List String) :
    ∀ (fields : Row) (left : List String), Json.Ordered fields →
      Json.Ordered (rules.foldl (fun (fields, left) (column, op) =>
        if shaped.contains column then (fields, left)
        else
          let (fields, missed) := applyTransform column op fields
          (fields, left ++ missed)) (fields, left)).1 ∧
      ∀ c, lookup c (rules.foldl (fun (fields, left) (column, op) =>
        if shaped.contains column then (fields, left)
        else
          let (fields, missed) := applyTransform column op fields
          (fields, left ++ missed)) (fields, left)).1 =
        (lookup c fields).map fun value =>
          if shaped.contains c then value else rules.value c value := by
  induction rules with
  | nil => exact fun fields left hordered => ⟨hordered, fun c => by simp [TransformRules.value]⟩
  | cons rule rest ih =>
    intro fields left hordered
    obtain ⟨column, op⟩ := rule
    simp only [List.foldl_cons]
    split
    · next hshaped =>
      obtain ⟨hord, hlookup⟩ := ih fields left hordered
      refine ⟨hord, fun c => ?_⟩
      rw [hlookup]
      refine congrArg (Option.map · _) (funext fun value => ?_)
      split
      · rfl
      · next hc =>
        have hne : column ≠ c := fun heq => hc (heq ▸ hshaped)
        simp [TransformRules.value, hne]
    · next hfresh =>
      obtain ⟨happlied, hvalues⟩ := applyTransform_eq column op hordered
      obtain ⟨hord, hlookup⟩ := ih (applyTransform column op fields).1
        (left ++ (applyTransform column op fields).2) happlied
      refine ⟨hord, fun c => ?_⟩
      rw [hlookup, hvalues, Option.map_map]
      refine congrArg (Option.map · _) (funext fun value => ?_)
      by_cases hc : column = c
      · subst hc
        have hnot : column ∉ shaped := by simpa using hfresh
        simp [TransformRules.value, hnot]
      · simp [TransformRules.value, hc]

/-- The fields that the transforms leave, column by column. -/
theorem TransformRules.applyExcept_eq (rules : TransformRules) (shaped : List String)
    (hordered : Json.Ordered fields) :
    ∃ done, (rules.applyExcept shaped (.obj fields)).1 = .obj done ∧ Json.Ordered done ∧
      ∀ c, lookup c done = (lookup c fields).map fun value =>
        if shaped.contains c then value else rules.value c value :=
  ⟨_, rfl, foldl_applyTransform rules shaped fields [] hordered⟩

namespace KeyedTable

variable {t : KeyedTable}

/-- The projection, on an object's fields. -/
theorem projection_eq (rule : Option Projection) (fields : Row) :
    ∃ kept, (rule.elim (obj fields) fun rule => rule.apply (.obj fields)) = .obj kept ∧
      (Json.Ordered fields → Json.Ordered kept) ∧
      ∀ c, lookup c kept = if rule.all (·.keeps c) then lookup c fields else none := by
  cases rule with
  | none => exact ⟨fields, rfl, id, fun c => by simp⟩
  | some rule =>
    exact ⟨_, rfl, fun hordered => hordered.filter _, fun c => by
      simpa using lookup_filter rule.keeps c fields⟩

/-- The transforms, on an object's fields. -/
theorem transforms_eq (rules : Option TransformRules) (shaped : List String)
    (hordered : Json.Ordered fields) :
    ∃ done, (rules.elim (obj fields, []) fun rules => rules.applyExcept shaped (.obj fields)).1 =
        .obj done ∧ Json.Ordered done ∧
      ∀ c, lookup c done = (lookup c fields).map fun value =>
        if shaped.contains c then value else rules.elim value fun rules => rules.value c value := by
  cases rules with
  | none => exact ⟨fields, rfl, hordered, fun c => by simp⟩
  | some rules => exact rules.applyExcept_eq shaped hordered

/-- What comes after the transforms depends on what they leave, and on the join. -/
theorem shapeDoc_congr {rules : Rules} {table : TableName} {shaped shaped' : List String}
    {p q : Placed} (hfiled : p.filed = q.filed)
    (h : ((rules.transforms table).elim
        ((rules.projections table).elim p.doc fun rule => rule.apply p.doc, []) fun transforms =>
          transforms.applyExcept shaped
            ((rules.projections table).elim p.doc fun rule => rule.apply p.doc)).1 =
      ((rules.transforms table).elim
        ((rules.projections table).elim q.doc fun rule => rule.apply q.doc, []) fun transforms =>
          transforms.applyExcept shaped'
            ((rules.projections table).elim q.doc fun rule => rule.apply q.doc)).1) :
    (shapeDoc rules table shaped p).1 = (shapeDoc rules table shaped' q).1 := by
  unfold shapeDoc
  dsimp only
  rw [h, hfiled]

/-- **What comes back as it is published is published again**: the completed row is
shaped to the document of the row. -/
theorem shapeDoc_restored {row : Row} (hordered : Json.Ordered row) {leftOut : List String}
    (hpresent : ∀ column ∈ leftOut, (lookup column row).isSome) {stored : Option Json}
    (hback : t.comesBack stored leftOut row = true) {placed restored : Placed}
    (hdoc : placed.doc = .obj row) (hrestored : restored.doc = .obj (t.restored stored leftOut row))
    (hfiled : restored.filed = placed.filed) :
    (shapeDoc t.rules t.table (t.completedColumns stored leftOut) restored).1 =
      (shapeDoc t.rules t.table [] placed).1 := by
  have hagain : Json.Ordered (t.restored stored leftOut row) :=
    hordered.of_keys (by rw [restored_eq]; simp)
  obtain ⟨kept, hkept, hkeptOrdered, hkeptLookup⟩ := projection_eq (t.rules.projections t.table) row
  obtain ⟨kept', hkept', hkeptOrdered', hkeptLookup'⟩ :=
    projection_eq (t.rules.projections t.table) (t.restored stored leftOut row)
  obtain ⟨done, hdone, hdoneOrdered, hdoneLookup⟩ :=
    transforms_eq (t.rules.transforms t.table) [] (hkeptOrdered hordered)
  obtain ⟨done', hdone', hdoneOrdered', hdoneLookup'⟩ := transforms_eq (t.rules.transforms t.table)
    (t.completedColumns stored leftOut) (hkeptOrdered' hagain)
  have hsame : done' = done := by
    refine hdoneOrdered'.ext hdoneOrdered fun c => ?_
    rw [hdoneLookup, hdoneLookup', hkeptLookup, hkeptLookup', lookup_restored]
    by_cases hkeeps : (t.rules.projections t.table).all (·.keeps c) = true
    · rw [if_pos hkeeps, if_pos hkeeps]
      by_cases hc : c ∈ leftOut
      · obtain ⟨value, hvalue⟩ := Option.isSome_iff_exists.mp (hpresent c hc)
        have hcontains : leftOut.contains c = true := by simpa using hc
        have hpublished := List.all_eq_true.mp hback c hc
        simp only [hkeeps, Bool.not_true, Bool.false_or, hvalue, Option.all_some,
          decide_eq_true_eq] at hpublished
        simp only [hvalue, Option.map_some, hcontains, if_true]
        cases hstored : t.storedValue stored c with
        | none =>
          -- what is not stored comes back as null, which no transform touches
          rw [hstored] at hpublished
          have hnull : ((t.rules.transforms t.table).elim null fun rules =>
              rules.value c .null) = .null := by
            cases t.rules.transforms t.table with
            | none => rfl
            | some rules => exact rules.value_null c
          have hmissing : (t.completedColumns stored leftOut).contains c = false := by
            simp [completedColumns, hstored]
          rw [hmissing]
          exact congrArg some (hnull.trans hpublished)
        | some back =>
          rw [hstored] at hpublished
          have hcompleted : (t.completedColumns stored leftOut).contains c = true := by
            simp [completedColumns, hstored, hc]
          rw [hcompleted]
          exact congrArg some hpublished
      · have hcontains : leftOut.contains c = false := by simpa using hc
        have hmissing : (t.completedColumns stored leftOut).contains c = false := by
          simp [completedColumns, hc]
        rw [hcontains, hmissing, Option.map_map]
        rfl
    · rw [if_neg hkeeps, if_neg hkeeps]
      rfl
  refine shapeDoc_congr hfiled ?_
  rw [hdoc, hrestored, hkept, hkept', hdone, hdone', hsame]

end KeyedTable

end Pg2osync
