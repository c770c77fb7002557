import Pg2osync.Completion
import Pg2osync.Mirror

/-!
# The documents show the rows that match

A row that the filter turns down is a delete of what the event tells of its old state:
the old row itself, or else the new row's names with the old key. Where that is where
the row's document was, and what is completed comes back as it was, the documents are
those of the matching rows.
-/

namespace Pg2osync

open KeyedTable

namespace KeyedTable

variable {t : KeyedTable}

/-! ## The events of rows that do not match -/

variable {key : DocKey} {previous : Option Json}

/-- What a change is materialised to once it has become a delete. -/
theorem materialize_turnedDown (hfan : t.rules.fanOuts t.table = none) {kind : RowKind} (pk : Json)
    (before : Option Json)
    (happend : t.rules.appendOnly t.table = false ∨ refusedOnAppendOnly kind = none)
    (hjudged : filterOut kind ((completion kind previous t.rules t.table).map Prod.fst)
      (t.rules.filters t.table) = .delete pk before)
    (hid : derivedId t.table pk none before t.rules = .ok key.id)
    (hindex : renderedIndex t.target t.table pk none before = .ok key.index)
    (hrouting : keyRouting t.rules t.table before pk = .ok key.routing) (version : Option ℕ) :
    materialize t.target t.table kind t.rules previous version =
      .ok (removalOf key version :: t.cascadeOf key version, []) := by
  have hops := materializeDelete_ok hfan version hid hindex hrouting
  unfold materialize
  split
  · next hkeyless what =>
    obtain happend | hnone := happend
    · rw [hkeyless] at happend
      cases happend
    · rw [hnone] at what
      cases what
  · simp only [hjudged, hops]
    rfl

/-- The insert of a row that does not match removes what is at its place. -/
theorem materialize_insert_turnedDown (hfan : t.rules.fanOuts t.table = none)
    (hdeclared : t.declared = true) {row : Row} (hmatches : t.matchesRow row = false)
    (hkey : t.keyOf row = .ok key) {pk : Json}
    (hpk : t.rules.appendOnly t.table = false → t.extractPk row = some pk) (previous : Option Json)
    (version : Option ℕ) :
    materialize t.target t.table (.insert pk (.obj row)) t.rules previous version =
      .ok (removalOf key version :: t.cascadeOf key version, []) := by
  obtain ⟨hindex, hid, hrouting⟩ := keyOf_eq_ok hkey
  refine materialize_turnedDown hfan pk (some (.obj row)) (.inr rfl) ?_ ?_
    (halt_ok hindex) (keyRouting_of_before hdeclared hrouting pk) version
  · unfold matchesRow at hmatches
    cases hfilter : t.rules.filters t.table with
    | none => rw [hfilter] at hmatches; cases hmatches
    | some filter =>
      rw [hfilter, Option.all_some] at hmatches
      simp [filterOut, hmatches]
  · unfold derivedId
    unfold idOf at hid
    cases htemplate : t.rules.idTemplates t.table with
    | some template =>
      simp only [htemplate] at hid ⊢
      exact halt_ok hid
    | none =>
      simp only [htemplate] at hid ⊢
      cases happend : t.rules.appendOnly t.table with
      | true => simpa [happend] using hid
      | false => simpa [happend, hpk happend] using hid

/-- What the event of a row that leaves the filter names: the old row's place where the
old row arrives, and else the place of `leavingKey`. -/
def Leaves (t : KeyedTable) (old row : Row) (key : DocKey) : Prop :=
  if t.full then t.keyOf old = .ok key else t.leavingKey old row = some key

/-- An update of a row that does not match removes what is there. -/
theorem materialize_update_turnedDown (hfan : t.rules.fanOuts t.table = none)
    (hdeclared : t.declared = true) (hcheck : t.startupCheck = true)
    (happend : t.rules.appendOnly t.table = false) {old row d : Row} {rowKey key : DocKey}
    (hrow : t.keyOf row = .ok rowKey) {oldPk pk : Json} (holdPk : t.extractPk old = some oldPk)
    {leftOut completed : List String} {keySent : Bool} (hsent : keySent = true ∨ oldPk = pk)
    (hleft : t.mayLeaveOut old row leftOut = true) (version : Option ℕ)
    (hcompleted : (completion (.update pk (if keySent then some oldPk else none)
        (.obj (leaveOut leftOut row)) leftOut (t.beforeOf old)) previous t.rules t.table).getD
          (.obj (leaveOut leftOut row), []) = (.obj d, completed))
    (hmatches : t.matchesRow d = false) (hleaves : t.Leaves old row key) :
    materialize t.target t.table (.update pk (if keySent then some oldPk else none)
        (.obj (leaveOut leftOut row)) leftOut (t.beforeOf old)) t.rules previous version =
      .ok (removalOf key version :: t.cascadeOf key version, []) := by
  have hgetD : (if keySent then some oldPk else none : Option Json).getD pk = oldPk := by
    cases keySent with
    | true => rfl
    | false => exact (hsent.resolve_left (by simp)).symm
  have hjudged : filterOut (.update pk (if keySent then some oldPk else none)
        (.obj (leaveOut leftOut row)) leftOut (t.beforeOf old))
      ((completion (.update pk (if keySent then some oldPk else none) (.obj (leaveOut leftOut row))
        leftOut (t.beforeOf old)) previous t.rules t.table).map Prod.fst)
      (t.rules.filters t.table) =
        .delete oldPk ((t.beforeOf old).or (some (.obj (leaveOut leftOut row)))) := by
    have hjudge : ((completion (.update pk (if keySent then some oldPk else none)
        (.obj (leaveOut leftOut row)) leftOut (t.beforeOf old)) previous t.rules t.table).map
          Prod.fst).getD (.obj (leaveOut leftOut row)) = .obj d :=
      (Option.getD_map Prod.fst (Json.obj (leaveOut leftOut row), []) _).trans
        (congrArg Prod.fst hcompleted)
    unfold matchesRow at hmatches
    cases hfilter : t.rules.filters t.table with
    | none => rw [hfilter] at hmatches; cases hmatches
    | some filter =>
      rw [hfilter, Option.all_some] at hmatches
      simp [filterOut, hjudge, hmatches, hgetD]
  cases hfull : t.full with
  | true =>
    have hold : t.keyOf old = .ok key := by simpa [Leaves, hfull] using hleaves
    have hbefore : (t.beforeOf old).or (some (.obj (leaveOut leftOut row))) = t.beforeOf old := by
      simp [beforeOf, hfull]
    rw [hbefore] at hjudged
    exact materialize_turnedDown hfan oldPk (t.beforeOf old) (.inl happend) hjudged
      (derivedId_gone hdeclared hcheck happend hold holdPk (.inl hfull))
      (renderedIndex_gone hdeclared hcheck happend hold holdPk (.inl hfull))
      (keyRouting_ok hdeclared holdPk (.inl hfull) (keyOf_eq_ok hold).2.2) version
  | false =>
    have hbefore : (t.beforeOf old).or (some (.obj (leaveOut leftOut row))) =
        some (.obj (leaveOut leftOut row)) := by simp [beforeOf, hfull]
    rw [hbefore] at hjudged
    obtain ⟨hindex, hid, hrouting⟩ := keyOf_eq_ok hrow
    -- the event's document is named as the row is
    have hagree : t.Agree (leaveOut leftOut row) row := fun column hcolumn =>
      lookup_leaveOut (not_mem_leftOut hcheck happend hleft hcolumn) row
    have hrouted : t.routingOf (leaveOut leftOut row) = .ok rowKey.routing := by
      rw [← hrouting]
      unfold routingOf
      cases hjoin : t.rules.joins t.table with
      | some join => simp only [hagree.join hjoin]
      | none =>
        cases hrule : t.rules.routings t.table with
        | some rule => simp only [hagree.routing hrule]
        | none => rfl
    have hkey : key.index = rowKey.index ∧ key.routing = rowKey.routing ∧
        derivedId t.table oldPk none (some (.obj (leaveOut leftOut row))) t.rules = .ok key.id := by
      have hnamed : t.leavingKey old row = some key := by simpa [Leaves, hfull] using hleaves
      simp only [leavingKey, hrow, Except.toOption, Option.bind_some, holdPk, Option.map_some]
        at hnamed
      unfold derivedId
      cases htemplate : t.rules.idTemplates t.table with
      | some template =>
        simp only [htemplate, Option.isSome_some, if_true, Option.some.injEq] at hnamed
        obtain rfl := hnamed
        simp only [idOf, htemplate] at hid
        exact ⟨rfl, rfl, halt_ok ((hagree.template htemplate).trans hid)⟩
      | none =>
        simp only [htemplate, Option.isSome_none, Bool.false_eq_true, if_false,
          Option.some.injEq] at hnamed
        obtain rfl := hnamed
        exact ⟨rfl, rfl, by simp [happend]⟩
    refine materialize_turnedDown hfan oldPk _ (.inl happend) hjudged hkey.2.2 ?_ ?_ version
    · rw [hkey.1]
      exact halt_ok (hagree.index.trans hindex)
    · rw [hkey.2.1]
      exact keyRouting_of_before hdeclared hrouted oldPk

/-! ## The documents of the matching rows -/

/-- Rows that agree on what names them are filed under the same parent. -/
theorem placeOne_agree {d row : Row} (hagree : t.Agree d row) {id : String} {placed own : Placed}
    (hplaced : placeOne t.rules t.table (.obj d) id (.obj d) = .ok placed)
    (hown : placeOne t.rules t.table (.obj row) id (.obj row) = .ok own) :
    placed.doc = .obj d ∧ placed.filed = own.filed := by
  unfold placeOne at hplaced hown
  cases hjoin : t.rules.joins t.table with
  | some join =>
    simp only [hjoin, hagree.join hjoin] at hplaced hown
    obtain ⟨filed, hfiled, rfl⟩ := Except.map_eq_ok hown
    rw [hfiled] at hplaced
    cases hplaced
    exact ⟨rfl, rfl⟩
  | none =>
    cases hrule : t.rules.routings t.table with
    | none =>
      simp only [hjoin, hrule] at hplaced hown
      cases hplaced
      cases hown
      exact ⟨rfl, rfl⟩
    | some rule =>
      simp only [hjoin, hrule, hagree.routing hrule] at hplaced hown
      obtain ⟨value, hvalue, rfl⟩ := Except.map_eq_ok hown
      rw [hvalue] at hplaced
      cases hplaced
      exact ⟨rfl, rfl⟩

/-- Some of the rows has a document under a key. -/
def Holds (t : KeyedTable) (rows : List Row) (key : DocKey) (doc : Json) : Prop :=
  ∃ row ∈ rows, t.matchesRow row = true ∧ t.keyOf row = .ok key ∧ t.published row = some doc

variable {rows : List Row} {doc : Json}

theorem Holds.childless (h : t.Holds rows key doc) : t.Childless doc := by
  obtain ⟨row, -, -, hkey, hpublished⟩ := h
  simp only [published, hkey, Except.toOption, Option.bind_some] at hpublished
  cases hplaced : placeOne t.rules t.table (.obj row) key.id (.obj row) with
  | error e => simp [hplaced] at hpublished
  | ok placed =>
    simp only [hplaced, Option.map_some, Option.some.injEq] at hpublished
    exact hpublished ▸ childless_shapeDoc hplaced []

theorem published_of_placed {row : Row} (hkey : t.keyOf row = .ok key) {placed : Placed}
    (hplaced : placeOne t.rules t.table (.obj row) key.id (.obj row) = .ok placed) :
    t.published row = some (shapeDoc t.rules t.table [] placed).1 := by
  simp [published, hkey, hplaced, Except.toOption]

theorem holds_cons {row : Row} :
    t.Holds (row :: rows) key doc ↔
      (t.matchesRow row = true ∧ t.keyOf row = .ok key ∧ t.published row = some doc) ∨
        t.Holds rows key doc := by
  simp [Holds]

variable {docs : Documents}

/-- A document is written that no other row has a place for. -/
theorem holds_write {others : List Row}
    (hdocs : ∀ k d, k ≠ key → (docs k = some d ↔ t.Holds others k d)) {row : Row}
    (hmatches : t.matchesRow row = true) (hkey : t.keyOf row = .ok key)
    (hpublished : t.published row = some doc) (hothers : ∀ other ∈ others, t.keyOf other ≠ .ok key)
    (k : DocKey) (d : Json) :
    Function.update docs key (some doc) k = some d ↔ t.Holds (row :: others) k d := by
  rw [holds_cons, Function.update_apply]
  by_cases hk : k = key
  · subst hk
    rw [if_pos rfl]
    constructor
    · intro heq
      obtain rfl := Option.some.inj heq
      exact .inl ⟨hmatches, hkey, hpublished⟩
    · rintro (⟨-, -, hd⟩ | ⟨other, hother, -, hsame, -⟩)
      · rw [← hd, hpublished]
      · exact absurd hsame (hothers other hother)
  · rw [if_neg hk, hdocs k d hk]
    constructor
    · exact .inr
    · rintro (⟨-, hsame, -⟩ | hothers)
      · exact absurd (Except.ok.inj (hkey.symm.trans hsame)).symm hk
      · exact hothers

/-- What is under a key is removed, and no other row has its document there. -/
theorem holds_remove {others : List Row}
    (hdocs : ∀ k d, k ≠ key → (docs k = some d ↔ t.Holds others k d))
    (hothers : ∀ other ∈ others, t.matchesRow other = true → t.keyOf other ≠ .ok key) (k : DocKey)
    (d : Json) : Function.update docs key none k = some d ↔ t.Holds others k d := by
  rw [Function.update_apply]
  by_cases hk : k = key
  · subst hk
    rw [if_pos rfl]
    constructor
    · intro heq
      cases heq
    · rintro ⟨other, hother, hmatches, hsame, -⟩
      exact absurd hsame (hothers other hother hmatches)
  · rw [if_neg hk, hdocs k d hk]

/-! ## A completed update -/

variable {leftOut : List String} {old row : Row}

theorem mayLeaveOut_present (hleft : t.mayLeaveOut old row leftOut = true) (column : String)
    (hcolumn : column ∈ leftOut) : (Json.lookup column row).isSome = true := by
  have hout := List.all_eq_true.mp hleft column hcolumn
  simp only [Bool.and_eq_true] at hout
  exact hout.1.2

/-- An update is completed to the restored row. -/
theorem completion_restored {row : Row} (hordered : Json.Ordered row)
    (hpresent : ∀ column ∈ leftOut, (Json.lookup column row).isSome = true) (pk : Json)
    (previousPk before stored : Option Json) :
    (completion (.update pk previousPk (.obj (leaveOut leftOut row)) leftOut before) stored t.rules
      t.table).getD (.obj (leaveOut leftOut row), []) =
        (.obj (t.restored stored leftOut row), t.completedColumns stored leftOut) := by
  unfold completion
  dsimp only
  split
  · next hempty =>
    obtain rfl := List.isEmpty_iff.mp hempty
    have hsame : leaveOut [] row = t.restored stored [] row := rfl
    rw [hsame]
    rfl
  · rw [completeToast_eq hordered hpresent]
    rfl

theorem agree_restored (hcheck : t.startupCheck = true)
    (happend : t.rules.appendOnly t.table = false) (hleft : t.mayLeaveOut old row leftOut = true)
    (stored : Option Json) : t.Agree (t.restored stored leftOut row) row := by
  intro column hcolumn
  have hout := not_mem_leftOut hcheck happend hleft hcolumn
  rw [lookup_restored]
  simp [hout]

/-! ## The invariant -/

/-- The documents are those of the matching rows. -/
structure FilteredInv (t : KeyedTable) (s : Mirror) : Prop where
  /-- every live row has a place of its own -/
  named : t.wellNamed s.rows = true
  /-- and is a map -/
  ordered : ∀ row ∈ s.rows, Json.Ordered row
  /-- what is stored -/
  kept : ∃ docs, s.docs = .ok docs ∧ ∀ key doc, docs key = some doc ↔ t.Holds s.rows key doc

variable {target : VersionedTarget} {s : Mirror}

/-- What is written of a restored row is the document of the row. -/
theorem published_restored {row : Row} (hkey : t.keyOf row = .ok key) {stored : Option Json}
    (hagree : t.Agree (t.restored stored leftOut row) row) (hordered : Json.Ordered row)
    (hpresent : ∀ column ∈ leftOut, (Json.lookup column row).isSome = true)
    (hback : t.comesBack stored leftOut row = true) {placed : Placed}
    (hplaced : placeOne t.rules t.table (.obj (t.restored stored leftOut row)) key.id
      (.obj (t.restored stored leftOut row)) = .ok placed) :
    t.published row =
      some (shapeDoc t.rules t.table (t.completedColumns stored leftOut) placed).1 := by
  obtain ⟨own, hown, -, -, hdoc, -⟩ :=
    placeOne_ok (fun _ _ => rfl : t.Agree row row) key.id (keyOf_eq_ok hkey).2.2
  rw [published_of_placed hkey hown]
  obtain ⟨hrestored, hfiled⟩ := placeOne_agree hagree hplaced hown
  rw [shapeDoc_restored hordered hpresent hback hdoc hrestored hfiled]

/-- An event whose operations do to the documents what it did to the matching rows. -/
theorem FilteredInv.materialized (h : t.FilteredInv s) (hnamed : t.wellNamed rows = true)
    (hordered : ∀ row ∈ rows, Json.Ordered row) {kind : RowKind} {version : Option ℕ}
    {ops : List DocumentOp} {left : List String}
    (hops : materialize t.target t.table kind t.rules previous version = .ok (ops, left))
    (heffect : ∀ docs, (∀ key doc, docs key = some doc ↔ t.Holds s.rows key doc) →
      ∀ key doc, (ops.foldl (applyOp target) docs) key = some doc ↔ t.Holds rows key doc) :
    t.FilteredInv (t.materialized target rows kind previous version s) := by
  obtain ⟨docs, hdocs, hkept⟩ := h.kept
  unfold KeyedTable.materialized
  rw [hdocs, hops]
  exact ⟨hnamed, hordered, _, rfl, heffect docs hkept⟩

/-- A removal and its cascade remove one document. -/
theorem foldl_removal (version : Option ℕ)
    (hdocs : ∀ k d, Function.update docs key none k = some d ↔ t.Holds rows k d) :
    (removalOf key version :: t.cascadeOf key version).foldl (applyOp target) docs =
      Function.update docs key none := by
  rw [List.foldl_cons, applyOp_removalOf]
  exact (applyOp_cascadeOf target [] (fun k d hd => ((hdocs k d).mp hd).childless) key version).1

theorem holds_congr {rows rows' : List Row} (h : ∀ row, row ∈ rows ↔ row ∈ rows') (key : DocKey)
    (doc : Json) : t.Holds rows key doc ↔ t.Holds rows' key doc := by
  simp only [Holds, h]

variable {nth : ℕ} {old : Row}

theorem mem_split (hnth : rows[nth]? = some old) :
    (∀ row, row ∈ rows ↔ row ∈ old :: rows.eraseIdx nth) ∧
      ∀ new row, row ∈ rows.set nth new ↔ row ∈ new :: rows.eraseIdx nth := by
  obtain ⟨hlt, hget⟩ := List.getElem?_eq_some_iff.mp hnth
  have hrows : rows = rows.take nth ++ old :: rows.drop (nth + 1) := by
    rw [← hget, List.getElem_cons_drop, List.take_append_drop]
  rw [List.eraseIdx_eq_take_drop_succ]
  refine ⟨fun row => ?_, fun new row => ?_⟩
  · conv_lhs => rw [hrows]
    simp only [List.mem_append, List.mem_cons]
    tauto
  · rw [List.set_eq_take_append_cons_drop, if_pos hlt]
    simp only [List.mem_append, List.mem_cons]
    tauto

/-- The other rows have other places. -/
theorem others_elsewhere (hnth : rows[nth]? = some old) (hold : t.keyOf old = .ok key)
    (hnamed : t.wellNamed rows = true) : ∀ other ∈ rows.eraseIdx nth, t.keyOf other ≠ .ok key := by
  intro other hother hsame
  obtain ⟨before, after, hplaces, herase, -⟩ := places_split hnth hold
  have hnodup := List.nodup_middle.mp (hplaces ▸ places_nodup hnamed)
  have hmem : key ∈ t.places (rows.eraseIdx nth) :=
    List.mem_filterMap.mpr ⟨other, hother, by rw [hsame]; rfl⟩
  rw [herase] at hmem
  exact (List.nodup_cons.mp hnodup).1 hmem

/-- What a row that leaves rightly removes: its own document or, if it had none, no other
row's. -/
theorem leaves_of_leavesRightly {oldKey key : DocKey} (hold : t.keyOf old = .ok oldKey)
    (hkey : t.keyOf row = .ok key) {oldPk : Json} (holdPk : t.extractPk old = some oldPk)
    (h : t.leavesRightly rows nth old row = true) :
    ∃ gone, t.Leaves old row gone ∧ (oldKey = gone ∨ t.matchesRow old = false ∧
      ∀ other ∈ rows.eraseIdx nth, t.matchesRow other = true → t.keyOf other ≠ .ok gone) := by
  cases hfull : t.full with
  | true => exact ⟨oldKey, by simp [Leaves, hfull, hold], .inl rfl⟩
  | false =>
    obtain ⟨gone, hgone⟩ : ∃ gone, t.leavingKey old row = some gone := by
      simp only [leavingKey, hkey, Except.toOption, Option.bind_some, holdPk, Option.map_some]
      split
      · exact ⟨_, rfl⟩
      · exact ⟨_, rfl⟩
    refine ⟨gone, by simp [Leaves, hfull, hgone], ?_⟩
    simp only [leavesRightly, hfull, Bool.false_or, hgone, Option.all_some] at h
    split at h
    · exact .inl (Except.ok.inj (hold.symm.trans (of_decide_eq_true h)))
    · next hmatches =>
      refine .inr ⟨Bool.not_eq_true _ |>.mp hmatches, fun other hmem hmatching hsame => ?_⟩
      have hlisted : gone ∈ t.places ((rows.eraseIdx nth).filter t.matchesRow) :=
        List.mem_filterMap.mpr ⟨other, List.mem_filter.mpr ⟨hmem, hmatching⟩, by rw [hsame]; rfl⟩
      simp [hlisted] at h

section

variable (hfan : t.rules.fanOuts t.table = none) (hdeclared : t.declared = true)
  (hcheck : t.startupCheck = true)

include hfan hdeclared in
theorem FilteredInv.insert (h : t.FilteredInv s) {row : Row} {pk : Json}
    (hpk : t.rules.appendOnly t.table = false → t.extractPk row = some pk)
    (hnamed : t.wellNamed (s.rows ++ [row]) = true)
    (hordered : ∀ r ∈ s.rows ++ [row], Json.Ordered r) (previous : Option Json)
    (version : Option ℕ) :
    t.FilteredInv
      (t.materialized target (s.rows ++ [row]) (.insert pk (.obj row)) previous version s) := by
  obtain ⟨key, hkey⟩ := keyOf_of_wellNamed hnamed (List.mem_append_right _ List.mem_cons_self)
  have hfresh : ∀ other ∈ s.rows, t.keyOf other ≠ .ok key := by
    intro other hother hsame
    have hnodup := places_nodup hnamed
    rw [places_append, places_cons_ok hkey] at hnodup
    exact (List.nodup_append.mp hnodup).2.2 key
      (List.mem_filterMap.mpr ⟨other, hother, by rw [hsame]; rfl⟩) key List.mem_cons_self rfl
  have hrows : ∀ r, r ∈ s.rows ++ [row] ↔ r ∈ row :: s.rows := fun r => by simp [or_comm]
  cases hmatches : t.matchesRow row with
  | true =>
    obtain ⟨placed, left, hplaced, hops⟩ := materialize_insert hfan hmatches hkey hpk previous version
    refine h.materialized hnamed hordered hops fun docs hdocs k d => ?_
    rw [List.foldl_cons, List.foldl_nil, applyOp_writeOf, holds_congr hrows]
    exact holds_write (fun k d _ => hdocs k d) hmatches hkey (published_of_placed hkey hplaced)
      hfresh k d
  | false =>
    have hops := materialize_insert_turnedDown hfan hdeclared hmatches hkey hpk previous version
    refine h.materialized hnamed hordered hops fun docs hdocs k d => ?_
    have hremoved : ∀ k d, Function.update docs key none k = some d ↔ t.Holds s.rows k d :=
      holds_remove (fun k d _ => hdocs k d) fun other hother _ => hfresh other hother
    rw [foldl_removal version hremoved, hremoved, holds_congr hrows, holds_cons]
    simp [hmatches]

include hfan hdeclared hcheck in
theorem FilteredInv.update (h : t.FilteredInv s) (happend : t.rules.appendOnly t.table = false)
    (hnth : s.rows[nth]? = some old) {oldPk pk : Json} (holdPk : t.extractPk old = some oldPk)
    (hpk : t.extractPk row = some pk) (hleft : t.mayLeaveOut old row leftOut = true)
    {keySent : Bool} (hsent : keySent = true ∨ oldPk = pk)
    (hnamed : t.wellNamed (s.rows.set nth row) = true)
    (hordered : ∀ r ∈ s.rows.set nth row, Json.Ordered r) {stored : Option Json}
    (hjudged : t.matchesRow (t.restored stored leftOut row) = t.matchesRow row)
    (hmatching : t.matchesRow row = true → t.comesBack stored leftOut row = true ∧
      t.tellsId old = true ∧ (keySent = true ∨ t.tellsId row = true) ∧
      (t.full = true ∨ t.tellsIndex old = true ∧ t.tellsRouting old = true))
    (hleaving : t.matchesRow row = false → t.leavesRightly s.rows nth old row = true)
    (version : Option ℕ) :
    t.FilteredInv (t.materialized target (s.rows.set nth row)
      (.update pk (if keySent then some oldPk else none) (.obj (leaveOut leftOut row)) leftOut
        (t.beforeOf old)) stored version s) := by
  obtain ⟨oldKey, hold⟩ := keyOf_of_wellNamed h.named (List.mem_of_getElem? hnth)
  have hmem : row ∈ s.rows.set nth row := List.mem_set (List.getElem?_eq_some_iff.mp hnth).1 row
  obtain ⟨key, hkey⟩ := keyOf_of_wellNamed hnamed hmem
  obtain ⟨hrows, hrows'⟩ := mem_split hnth
  have hcompleted := completion_restored (t := t) (hordered row hmem) (mayLeaveOut_present hleft) pk
    (if keySent then some oldPk else none) (t.beforeOf old) stored
  have hagree := agree_restored hcheck happend hleft stored
  have helsewhere := others_elsewhere hnth hold h.named
  -- the documents before are those of the other rows and, perhaps, the old one's
  have hbefore : ∀ docs : Documents, (∀ k d, docs k = some d ↔ t.Holds s.rows k d) → ∀ k d,
      docs k = some d ↔ t.Holds (old :: s.rows.eraseIdx nth) k d := fun docs hdocs k d =>
    (hdocs k d).trans (holds_congr hrows k d)
  cases hmatches : t.matchesRow row with
  | true =>
    obtain ⟨hback, hid, hidNew, hother⟩ := hmatching hmatches
    obtain ⟨placed, left, hplaced, hops⟩ := materialize_update hfan hdeclared hcheck happend hold hkey
      holdPk hpk hsent hid hidNew hother version hcompleted hagree (hjudged.trans hmatches)
    have hpublished := published_restored hkey hagree (hordered row hmem)
      (mayLeaveOut_present hleft) hback hplaced
    have hnamedSet : (s.rows.set nth row)[nth]? = some row := by
      simp [(List.getElem?_eq_some_iff.mp hnth).1]
    have helsewhere' : ∀ other ∈ s.rows.eraseIdx nth, t.keyOf other ≠ .ok key := by
      have := others_elsewhere hnamedSet hkey hnamed
      rwa [List.eraseIdx_set_eq] at this
    refine h.materialized hnamed hordered hops fun docs hdocs k d => ?_
    -- off the old place, the documents are those of the other rows
    have hoff : ∀ k d, k ≠ oldKey → (docs k = some d ↔ t.Holds (s.rows.eraseIdx nth) k d) :=
      fun k d hne => by
        rw [hbefore docs hdocs, holds_cons]
        refine or_iff_right fun hown => hne ?_
        exact (Except.ok.inj (hold.symm.trans hown.2.1)).symm
    rw [List.foldl_cons, applyOp_writeOf, holds_congr (hrows' row)]
    by_cases hmoved : oldKey = key
    · subst hmoved
      rw [if_neg (not_not.mpr rfl), List.foldl_nil]
      exact holds_write hoff hmatches hkey hpublished helsewhere' k d
    · rw [if_pos hmoved, List.foldl_cons, List.foldl_nil, applyOp_removalOf,
        Function.update_comm (Ne.symm hmoved)]
      have hremoved : ∀ k d, Function.update docs oldKey none k = some d ↔
          t.Holds (s.rows.eraseIdx nth) k d :=
        holds_remove hoff fun other hmem _ => helsewhere other hmem
      exact holds_write (fun k d _ => hremoved k d) hmatches hkey hpublished helsewhere' k d
  | false =>
    obtain ⟨gone, hleaves, hrightly⟩ := leaves_of_leavesRightly hold hkey holdPk (hleaving hmatches)
    have hops := materialize_update_turnedDown hfan hdeclared hcheck happend hkey holdPk hsent hleft
      version hcompleted (hjudged.trans hmatches) hleaves
    refine h.materialized hnamed hordered hops fun docs hdocs k d => ?_
    have hremoved : ∀ k d, Function.update docs gone none k = some d ↔
        t.Holds (s.rows.eraseIdx nth) k d := by
      refine holds_remove (fun k d hne => ?_) fun other hmem hmatching hsame => ?_
      · rw [hbefore docs hdocs, holds_cons]
        refine or_iff_right fun hown => ?_
        obtain rfl := hrightly.resolve_right fun h => by rw [hown.1] at h; cases h.1
        exact hne (Except.ok.inj (hold.symm.trans hown.2.1)).symm
      · obtain rfl | ⟨-, hfree⟩ := hrightly
        · exact helsewhere other hmem hsame
        · exact hfree other hmem hmatching hsame
    rw [foldl_removal version hremoved, hremoved, holds_congr (hrows' row), holds_cons]
    simp [hmatches]

include hfan hdeclared hcheck in
theorem FilteredInv.delete (h : t.FilteredInv s) (happend : t.rules.appendOnly t.table = false)
    (hnth : s.rows[nth]? = some old) {pk : Json} (hpk : t.extractPk old = some pk)
    (htells : t.full = true ∨ t.tellsId old = true ∧ t.tellsIndex old = true ∧
      t.tellsRouting old = true) (hnamed : t.wellNamed (s.rows.eraseIdx nth) = true)
    (hordered : ∀ r ∈ s.rows.eraseIdx nth, Json.Ordered r) (previous : Option Json)
    (version : Option ℕ) :
    t.FilteredInv (t.materialized target (s.rows.eraseIdx nth) (.delete pk (t.beforeOf old)) previous
      version s) := by
  obtain ⟨key, hold⟩ := keyOf_of_wellNamed h.named (List.mem_of_getElem? hnth)
  have hops := materialize_delete hfan hdeclared hcheck happend hold hpk htells previous version
  have helsewhere := others_elsewhere hnth hold h.named
  refine h.materialized hnamed hordered hops fun docs hdocs k d => ?_
  have hremoved : ∀ k d, Function.update docs key none k = some d ↔
      t.Holds (s.rows.eraseIdx nth) k d := by
    refine holds_remove (fun k d hne => ?_) fun other hmem _ => helsewhere other hmem
    rw [hdocs, holds_congr (mem_split hnth).1, holds_cons]
    refine or_iff_right fun hown => hne ?_
    exact (Except.ok.inj (hold.symm.trans hown.2.1)).symm
  rw [foldl_removal version hremoved, hremoved]

include hfan hdeclared hcheck in
/-- **One change keeps the documents those of the matching rows.** -/
theorem FilteredInv.step (h : t.FilteredInv s) {action : Change × Option ℕ} {s' : Mirror}
    (htells : t.filterTells s action.1 = true)
    (hstep : (t.filteredSystem target).step s action = some s') : t.FilteredInv s' := by
  obtain ⟨change, version⟩ := action
  obtain ⟨next, hdescribe, hstep⟩ := Option.bind_eq_some_iff.mp hstep
  obtain ⟨hfits, hstep⟩ := Option.ite_none_right_eq_some.mp hstep
  cases hstep
  simp only [Bool.and_eq_true, List.all_eq_true, decide_eq_true_eq] at hfits
  obtain ⟨hnamed, hordered⟩ := hfits
  cases described hdescribe with
  | insert hpk => exact h.insert hfan hdeclared hpk hnamed hordered _ version
  | update hnth holdPk hpk happend hleft hsent =>
    simp only [filterTells, hnth, Option.all_some, hdescribe, Bool.and_eq_true,
      decide_eq_true_eq] at htells
    obtain ⟨hjudged, hrest⟩ := htells
    refine h.update hfan hdeclared hcheck happend hnth holdPk hpk hleft hsent hnamed hordered
      hjudged (fun hmatches => ?_) (fun hmatches => ?_) version
    · rw [if_pos hmatches] at hrest
      simp only [keyTells, hnth, Option.all_some, Bool.and_eq_true, Bool.or_eq_true] at hrest
      obtain ⟨hback, ⟨hid, hidNew⟩, hother⟩ := hrest
      exact ⟨hback, hid, hidNew, hother⟩
    · rwa [if_neg (by simp [hmatches])] at hrest
  | delete hnth hpk happend =>
    simp only [filterTells, keyTells, hnth, Option.all_some, Bool.and_eq_true, Bool.or_eq_true,
      and_assoc] at htells
    exact h.delete hfan hdeclared hcheck happend hnth hpk htells hnamed hordered _ version

end

/-- **Where a change is judged, completed and named as the row is, the documents show the
rows that match**, after every run of its changes. -/
theorem shows_matching (hfan : t.rules.fanOuts t.table = none) (hdeclared : t.declared = true)
    (hcheck : t.startupCheck = true)
    (h : (t.filteredSystem target).ReachUnder (fun s action => t.filterTells s action.1 = true) s) :
    t.ShowsMatching s := by
  have hinv : t.FilteredInv s := by
    refine h.invariant (fun s hinitial => ?_) fun _ _ _ hinv htells hstep =>
      hinv.step hfan hdeclared hcheck htells hstep
    obtain rfl := hinitial
    refine ⟨rfl, fun row hrow => absurd hrow List.not_mem_nil, _, rfl, fun key doc => ?_⟩
    simp [Holds]
  exact hinv.kept

end KeyedTable

/-! ## Runs that the kernel follows -/

/-- Rows whose field `code` is `A`. -/
def codeIsA (doc : Json) : Bool :=
  doc.index "code" = .str "A"

/-- A table whose ids render from its key, of which some rows are documents. -/
def someUsers : KeyedTable :=
  { usersById with rules := { usersById.rules with filters := fun _ => some codeIsA } }

/-- A row with a large column. -/
def bigUser (code : String) (id : ℤ) : Row :=
  [("bio", .str "long"), ("code", .str code), ("id", .int id)]

/-- A row comes, is updated without its large column, moves, leaves and comes back. -/
def visitingUser : List (KeyedTable.Change × Option ℕ) :=
  [(.insert (bigUser "A" 1), some 1), (.update 0 (bigUser "A" 1) ["bio"] false, some 2),
    (.update 0 (bigUser "A" 2) ["bio"] true, some 3), (.update 0 (bigUser "B" 2) ["bio"] false, some 4),
    (.update 0 (bigUser "A" 2) [] false, some 5)]

/-- It is there with its values. -/
theorem visitingUser_shows : ∃ s,
    (someUsers.filteredSystem plainTarget).runUnder (fun s a => someUsers.filterTells s a.1)
      ⟨[], .ok fun _ => none, []⟩ visitingUser = some s ∧
    s.rows = [bigUser "A" 2] ∧ someUsers.ShowsMatching s := by
  have hrun : ((someUsers.filteredSystem plainTarget).runUnder
      (fun s a => someUsers.filterTells s a.1) ⟨[], .ok fun _ => none, []⟩ visitingUser).map
        (·.rows) = some [bigUser "A" 2] := by decide +kernel
  obtain ⟨s, hs, hrows⟩ := Option.map_eq_some_iff.mp hrun
  exact ⟨s, hs, hrows, KeyedTable.shows_matching rfl (by decide +kernel) (by decide +kernel)
    (.of_runUnder (.initial rfl) hs)⟩

/-- A row leaves the filter and moves to another id in one update. -/
def leavingUser : List (KeyedTable.Change × Option ℕ) :=
  [(.insert (user "A" 1), some 1), (.update 0 (user "B" 2) [] true, some 2)]

/-- A row enters the filter without its large column. -/
def enteringUser : List (KeyedTable.Change × Option ℕ) :=
  [(.insert (bigUser "B" 1), some 1), (.update 0 (bigUser "A" 1) ["bio"] false, some 2)]

/-- The document of the row that left stays under its old id, and the row that entered is
written without its large column. -/
theorem leavingUser_not_shows : someUsers.declared = true ∧ someUsers.startupCheck = true ∧
    (∃ s, (someUsers.filteredSystem plainTarget).Reachable s ∧ ¬ someUsers.ShowsMatching s ∧
      s.rows = [user "B" 2]) ∧
    ∃ s, (someUsers.filteredSystem plainTarget).Reachable s ∧ ¬ someUsers.ShowsMatching s ∧
      s.rows = [bigUser "A" 1] := by
  refine ⟨by decide +kernel, by decide +kernel, ?_, ?_⟩
  · have hrun : ((someUsers.filteredSystem plainTarget).run ⟨[], .ok fun _ => none, []⟩
        leavingUser).map (fun s => (s.rows, s.docs.toOption.bind fun docs =>
          docs ⟨"users", "u-1", none⟩)) = some ([user "B" 2], some (.obj (user "A" 1))) := by
      decide +kernel
    obtain ⟨s, hs, hend⟩ := Option.map_eq_some_iff.mp hrun
    obtain ⟨hrows, hstale⟩ := Prod.mk.inj hend
    refine ⟨s, Transition.System.reachable_of_run rfl hs, fun h => ?_, hrows⟩
    obtain ⟨docs, hdocs, hshows⟩ := h
    rw [hdocs] at hstale
    obtain ⟨row, hrow, hmatches, -⟩ := (hshows _ _).mp hstale
    rw [hrows, List.mem_singleton] at hrow
    subst hrow
    revert hmatches
    decide +kernel
  · have hrun : ((someUsers.filteredSystem plainTarget).run ⟨[], .ok fun _ => none, []⟩
        enteringUser).map (fun s => (s.rows, s.docs.toOption.bind fun docs =>
          docs ⟨"users", "u-1", none⟩)) = some ([bigUser "A" 1],
            some (.obj [("bio", .null), ("code", .str "A"), ("id", .int 1)])) := by
      decide +kernel
    obtain ⟨s, hs, hend⟩ := Option.map_eq_some_iff.mp hrun
    obtain ⟨hrows, hhole⟩ := Prod.mk.inj hend
    refine ⟨s, Transition.System.reachable_of_run rfl hs, fun h => ?_, hrows⟩
    obtain ⟨docs, hdocs, hshows⟩ := h
    rw [hdocs] at hhole
    obtain ⟨row, hrow, -, -, hpublished⟩ := (hshows _ _).mp hhole
    rw [hrows, List.mem_singleton] at hrow
    subst hrow
    revert hpublished
    decide +kernel

end Pg2osync
