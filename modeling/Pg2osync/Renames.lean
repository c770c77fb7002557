import Pg2osync.Mapping

/-!
# Renaming the fields of a document

A section's renames are a hash map from the columns of its table to the names they have in the
target, and one such map for each embedded child. All renamed fields leave the document before
any of them lands, so columns may trade names. What comes out is one document: it is known by
what each field holds, and the order in which the map is walked does not matter.
-/

namespace Pg2osync

open Json

/-- What a rename makes of the fields of an object. -/
structure Renamed (map : List (String × String)) (before after : List (String × Json)) : Prop where
  /-- the keys are in order, each once -/
  ordered : Json.Ordered after
  /-- the value of a renamed column that is present is under the column's new name -/
  moved : ∀ m ∈ map, ∀ value, Json.lookup m.1 before = some value →
    Json.lookup m.2 after = some value
  /-- a renamed column under whose name nothing was put is gone -/
  left : ∀ m ∈ map, (∀ n ∈ map, n.2 = m.1 → Json.lookup n.1 before = none) →
    Json.lookup m.1 after = none
  /-- what is no renamed column, and has nothing put in its place, is as it was -/
  kept : ∀ key, (∀ m ∈ map, m.1 ≠ key) → (∀ m ∈ map, m.2 = key → Json.lookup m.1 before = none) →
    Json.lookup key after = Json.lookup key before

/-- What a rename makes of one element of an embedded array: an object is renamed, anything else
stays. -/
inductive ElementRenamed (map : List (String × String)) : Json → Json → Prop where
  /-- an object -/
  | object {before after : List (String × Json)} : Renamed map before after →
      ElementRenamed map (.obj before) (.obj after)
  /-- anything else -/
  | other {value : Json} : value.asObject = none → ElementRenamed map value value

/-- What a rename makes of an embedded child: the same with every element of an array, and with
the element itself of a single one. -/
inductive ChildRenamed (map : List (String × String)) : Json → Json → Prop where
  /-- an array -/
  | array {rows rows' : List Json} : List.Forall₂ (ElementRenamed map) rows rows' →
      ChildRenamed map (.arr rows) (.arr rows')
  /-- no array -/
  | single {value value' : Json} : value.asArray = none → ElementRenamed map value value' →
      ChildRenamed map value value'

/-- The objects of a child, or of the elements of one, have their keys in order, each once. -/
def Json.ElementsOrdered : Json → Prop
  | .arr rows => ∀ fields, .obj fields ∈ rows → Ordered fields
  | .obj fields => Ordered fields
  | _ => True

/-! ## One object -/

/-- `rename_keys` up to its loop: each renamed key is taken out in turn, and what was taken out
is kept under the new names. -/
def takeOut (map : List (String × String)) (fields : List (String × Json)) :
    List (String × Json) × List (String × Json) :=
  map.foldl (fun (fields, moved) (source, target) =>
    match Json.lookup source fields with
    | some value => (Json.removeField source fields, moved ++ [(target, value)])
    | none => (fields, moved)) (fields, [])

section

variable {map : List (String × String)} {fields : List (String × Json)}

theorem lookup_removeField (key : String) (name : String) (fields : List (String × Json)) :
    lookup key (removeField name fields) =
      if key = name then none else lookup key fields := by
  have h := lookup_filter (fun k => decide (k ≠ name)) key fields
  by_cases hkey : key = name
  · rw [if_pos hkey]
    rwa [if_neg (by simp [hkey])] at h
  · rw [if_neg hkey]
    rwa [if_pos (by simp [hkey])] at h

theorem removeField_of_absent {name : String} (h : ∀ f ∈ fields, f.1 ≠ name) :
    removeField name fields = fields :=
  List.filter_eq_self.mpr fun f hf => by simp [h f hf]

theorem notMem_of_lookup {name : String} (h : lookup name fields = none) :
    ∀ f ∈ fields, f.1 ≠ name := by
  induction fields with
  | nil => exact fun f hf => absurd hf List.not_mem_nil
  | cons g rest ih =>
    obtain ⟨k, v⟩ := g
    rw [lookup] at h
    split at h
    · cases h
    · next hne =>
      intro f hf
      rcases List.mem_cons.mp hf with rfl | hf
      · exact hne
      · exact ih h f hf

/-- Taking the keys out one at a time is looking them all up first: a key is taken out once. -/
theorem renameKeys_eq_takeOut (hsources : (map.map Prod.fst).Nodup) :
    renameKeys map fields = extendFields (takeOut map fields).1 (takeOut map fields).2 := by
  have hloop : ∀ (map : List (String × String)) (rest moved : List (String × Json)),
      (map.map Prod.fst).Nodup →
      (∀ m ∈ map, lookup m.1 rest = lookup m.1 fields) →
      map.foldl (fun (fields, moved) (source, target) =>
        match lookup source fields with
        | some value => (removeField source fields, moved ++ [(target, value)])
        | none => (fields, moved)) (rest, moved) =
      (map.foldl (fun fields m => removeField m.1 fields) rest,
        moved ++ map.filterMap fun (source, target) =>
          (lookup source fields).map fun value => (target, value)) := by
    intro map
    induction map with
    | nil => intro rest moved _ _; simp
    | cons m map ih =>
      intro rest moved hnodup hsame
      obtain ⟨source, target⟩ := m
      obtain ⟨hnew, hnodup⟩ := List.nodup_cons.mp hnodup
      have hfirst := hsame (source, target) List.mem_cons_self
      -- the keys that are left are looked up as before, whatever is taken out now
      have hrest : ∀ n ∈ map, lookup n.1 (removeField source rest) =
          lookup n.1 fields := by
        intro n hn
        have hmem : n.1 ∈ map.map Prod.fst := List.mem_map_of_mem hn
        have hne : n.1 ≠ source := fun h => hnew (h ▸ hmem)
        rw [lookup_removeField, if_neg hne]
        exact hsame n (List.mem_cons_of_mem _ hn)
      simp only [List.foldl_cons, List.filterMap_cons, hfirst]
      cases hlook : lookup source fields with
      | none =>
        have habsent := removeField_of_absent (notMem_of_lookup (hfirst.trans hlook))
        rw [habsent] at hrest ⊢
        simpa using ih rest moved hnodup hrest
      | some value =>
        have := ih (removeField source rest) (moved ++ [(target, value)]) hnodup hrest
        simpa using this
  rw [takeOut, hloop map fields [] hsources fun _ _ => rfl, List.nil_append]
  rfl

/-- What is left when every renamed key is taken out. -/
theorem foldl_removeField (map : List (String × String)) (fields : List (String × Json)) :
    map.foldl (fun fields m => removeField m.1 fields) fields =
      fields.filter fun f => f.1 ∉ map.map Prod.fst := by
  induction map generalizing fields with
  | nil => simp
  | cons m map ih =>
    rw [List.foldl_cons, ih, removeField, List.filter_filter]
    refine List.filter_congr fun f _ => ?_
    rw [Bool.eq_iff_iff]
    simp only [Bool.and_eq_true, decide_eq_true_eq, List.map_cons, List.mem_cons, not_or, ne_eq,
      and_comm]

variable {value : Json}

theorem mem_moved {target : String} :
    (target, value) ∈ (map.filterMap fun (source, target) =>
      (lookup source fields).map fun value => (target, value)) ↔
      ∃ m ∈ map, m.2 = target ∧ lookup m.1 fields = some value := by
  simp only [List.mem_filterMap, Option.map_eq_some_iff, Prod.mk.injEq]
  constructor
  · rintro ⟨m, hm, v, hv, rfl, rfl⟩
    exact ⟨m, hm, rfl, hv⟩
  · rintro ⟨m, hm, rfl, hv⟩
    exact ⟨m, hm, value, hv, rfl, rfl⟩

theorem nodup_moved (htargets : (map.map Prod.snd).Nodup) :
    ((map.filterMap fun (source, target) =>
      (lookup source fields).map fun value => (target, value)).map Prod.fst).Nodup := by
  induction map with
  | nil => exact List.nodup_nil
  | cons m map ih =>
    obtain ⟨source, target⟩ := m
    obtain ⟨hnew, hrest⟩ := List.nodup_cons.mp htargets
    rw [List.filterMap_cons]
    cases hlook : lookup source fields with
    | none => simpa [hlook] using ih hrest
    | some value =>
      simp only [hlook, Option.map_some, List.map_cons, List.nodup_cons]
      refine ⟨fun hmem => ?_, ih hrest⟩
      obtain ⟨⟨t, v⟩, hmoved, rfl⟩ := List.mem_map.mp hmem
      obtain ⟨n, hn, htarget, -⟩ := mem_moved.mp hmoved
      have hmem : n.2 ∈ map.map Prod.snd := List.mem_map_of_mem hn
      exact hnew (htarget ▸ hmem)

/-- `rename_keys` renames at once. -/
theorem renamed_renameKeys (htargets : (map.map Prod.snd).Nodup) (hfields : Json.Ordered fields) :
    Renamed map fields (renameKeys map fields) := by
  have hleft : ∀ key, lookup key
      (map.foldl (fun fields m => removeField m.1 fields) fields) =
        if key ∉ map.map Prod.fst then lookup key fields else none := by
    intro key
    have h := lookup_filter (fun k => decide (k ∉ map.map Prod.fst)) key fields
    rw [foldl_removeField]
    simp only [decide_eq_true_eq] at h
    exact h
  -- a field that nothing is put in the place of is what was left of it
  have hstays : ∀ key, (∀ m ∈ map, m.2 = key → lookup m.1 fields = none) →
      lookup key (renameKeys map fields) =
        if key ∉ map.map Prod.fst then lookup key fields else none := by
    intro key hnone
    rw [← hleft]
    refine lookup_extendFields_of_notMem fun hmem => ?_
    obtain ⟨⟨target, value⟩, hmoved, rfl⟩ := List.mem_map.mp hmem
    obtain ⟨m, hm, htarget, hvalue⟩ := mem_moved.mp hmoved
    rw [hnone m hm htarget] at hvalue
    cases hvalue
  refine ⟨?_, fun m hm value hvalue => ?_, fun m hm hnone => ?_, fun key hsource hnone => ?_⟩
  · apply extendFields_ordered
    rw [foldl_removeField]
    exact hfields.filter _
  · exact lookup_extendFields_of_mem (nodup_moved htargets)
      (mem_moved.mpr ⟨m, hm, rfl, hvalue⟩)
  · rw [hstays m.1 hnone, if_neg (not_not.mpr (List.mem_map_of_mem hm))]
  · have hnot : key ∉ map.map Prod.fst := by
      intro hmem
      obtain ⟨m, hm, hkey⟩ := List.mem_map.mp hmem
      exact hsource m hm hkey
    rw [hstays key hnone, if_pos hnot]

/-- A rename leaves no choice: two results of it are one. -/
theorem Renamed.unique {before after after' : List (String × Json)} (h : Renamed map before after)
    (h' : Renamed map before after') : after = after' := by
  refine h.ordered.ext h'.ordered fun key => ?_
  by_cases hmoved : ∃ m ∈ map, m.2 = key ∧ lookup m.1 before ≠ none
  · obtain ⟨m, hm, rfl, hpresent⟩ := hmoved
    obtain ⟨value, hvalue⟩ := Option.ne_none_iff_exists'.mp hpresent
    rw [h.moved m hm value hvalue, h'.moved m hm value hvalue]
  · have hnone : ∀ m ∈ map, m.2 = key → lookup m.1 before = none := fun m hm hkey =>
      not_not.mp fun hpresent => hmoved ⟨m, hm, hkey, hpresent⟩
    by_cases hsource : ∃ m ∈ map, m.1 = key
    · obtain ⟨m, hm, rfl⟩ := hsource
      rw [h.left m hm hnone, h'.left m hm hnone]
    · have hother : ∀ m ∈ map, m.1 ≠ key := fun m hm hkey => hsource ⟨m, hm, hkey⟩
      rw [h.kept key hother hnone, h'.kept key hother hnone]

/-- Which entries a map has is all that counts. -/
theorem Renamed.perm {map' : List (String × String)} (hperm : map'.Perm map)
    {before after : List (String × Json)} (h : Renamed map before after) :
    Renamed map' before after where
  ordered := h.ordered
  moved m hm := h.moved m (hperm.mem_iff.mp hm)
  left m hm hnone := h.left m (hperm.mem_iff.mp hm) fun n hn => hnone n (hperm.mem_iff.mpr hn)
  kept key hother hnone := h.kept key (fun m hm => hother m (hperm.mem_iff.mpr hm))
    fun m hm => hnone m (hperm.mem_iff.mpr hm)

theorem renameKeys_perm {map' : List (String × String)} (hperm : map'.Perm map)
    (htargets : (map.map Prod.snd).Nodup) (hfields : Json.Ordered fields) :
    renameKeys map' fields = renameKeys map fields :=
  have htargets' : (map'.map Prod.snd).Nodup := (hperm.map Prod.snd).nodup_iff.mpr htargets
  ((renamed_renameKeys htargets' hfields).perm hperm.symm).unique
    (renamed_renameKeys htargets hfields)

/-! ## Embedded children -/

/-- One embedded child is renamed where it is. -/
def renameChild (fields : List (String × Json)) (child : String × List (String × String)) :
    List (String × Json) :=
  match Json.lookup child.1 fields with
  | some value => Json.insertField child.1 (renameNested child.2 value) fields
  | none => fields

theorem Rename.apply_obj (rule : Rename) (fields : List (String × Json)) :
    rule.apply (.obj fields) =
      .obj (rule.nested.foldl renameChild (renameKeys rule.columns fields)) := rfl

theorem lookup_renameChild (key : String) (child : String × List (String × String))
    (fields : List (String × Json)) :
    lookup key (renameChild fields child) =
      if key = child.1 then (lookup key fields).map (renameNested child.2)
      else lookup key fields := by
  rw [renameChild]
  cases hlook : lookup child.1 fields with
  | none =>
    by_cases hkey : key = child.1
    · subst hkey
      simp [hlook]
    · simp [hkey]
  | some value =>
    by_cases hkey : key = child.1
    · subst hkey
      simp [hlook, lookup_insertField_self]
    · simp [hkey, lookup_insertField_ne hkey]

theorem ordered_renameChild (hfields : Json.Ordered fields)
    (child : String × List (String × String)) : Json.Ordered (renameChild fields child) := by
  rw [renameChild]
  split
  · exact hfields.insertField _ _
  · exact hfields

theorem ordered_foldl_renameChild {children : List (String × List (String × String))}
    (hfields : Json.Ordered fields) : Json.Ordered (children.foldl renameChild fields) := by
  induction children generalizing fields with
  | nil => exact hfields
  | cons child rest ih => exact ih (ordered_renameChild hfields child)

theorem lookup_foldl_of_notMem {children : List (String × List (String × String))} {key : String}
    (h : key ∉ children.map Prod.fst) (fields : List (String × Json)) :
    lookup key (children.foldl renameChild fields) = lookup key fields := by
  induction children generalizing fields with
  | nil => rfl
  | cons child rest ih =>
    rw [List.map_cons, List.mem_cons, not_or] at h
    rw [List.foldl_cons, ih h.2, lookup_renameChild, if_neg h.1]

/-- A child is renamed once, by the entry of its field. -/
theorem lookup_foldl_of_mem {children : List (String × List (String × String))}
    (hnodup : (children.map Prod.fst).Nodup) {child : String × List (String × String)}
    (h : child ∈ children) (fields : List (String × Json)) :
    lookup child.1 (children.foldl renameChild fields) =
      (lookup child.1 fields).map (renameNested child.2) := by
  induction children generalizing fields with
  | nil => cases h
  | cons first rest ih =>
    obtain ⟨hfirst, hrest⟩ := List.nodup_cons.mp hnodup
    rw [List.foldl_cons]
    rcases List.mem_cons.mp h with rfl | hmem
    · rw [lookup_foldl_of_notMem hfirst, lookup_renameChild, if_pos rfl]
    · have hfield : child.1 ∈ rest.map Prod.fst := List.mem_map_of_mem hmem
      have hne : child.1 ≠ first.1 := fun heq => hfirst (heq ▸ hfield)
      rw [ih hrest hmem, lookup_renameChild, if_neg hne]

/-- One element of an embedded array, renamed. -/
def renameElement (map : List (String × String)) : Json → Json
  | .obj fields => .obj (renameKeys map fields)
  | other => other

theorem renameNested_arr (map : List (String × String)) (rows : List Json) :
    renameNested map (.arr rows) = .arr (rows.map (renameElement map)) := rfl

theorem elementRenamed (htargets : (map.map Prod.snd).Nodup)
    (hvalue : ∀ fields, value = .obj fields → Json.Ordered fields) :
    ElementRenamed map value (renameElement map value) := by
  cases value with
  | obj fields => exact .object (renamed_renameKeys htargets (hvalue fields rfl))
  | null | bool | int | float | str | arr => exact .other rfl

theorem childRenamed (htargets : (map.map Prod.snd).Nodup) (hvalue : value.ElementsOrdered) :
    ChildRenamed map value (renameNested map value) := by
  cases value with
  | arr rows =>
    rw [renameNested_arr]
    refine .array (List.forall₂_map_right_iff.mpr (List.forall₂_same.mpr fun row hrow => ?_))
    exact elementRenamed htargets fun fields hrow' => hvalue fields (hrow' ▸ hrow)
  | obj fields => exact .single rfl (.object (renamed_renameKeys htargets hvalue))
  | null | bool | int | float | str => exact .single rfl (.other rfl)

/-- What a document holds after a rename, it held before. -/
theorem Renamed.exists_lookup {before after : List (String × Json)} (h : Renamed map before after)
    {key : String} (hvalue : lookup key after = some value) :
    ∃ k, lookup k before = some value := by
  by_cases hmoved : ∃ m ∈ map, m.2 = key ∧ lookup m.1 before ≠ none
  · obtain ⟨m, hm, rfl, hpresent⟩ := hmoved
    obtain ⟨v, hv⟩ := Option.ne_none_iff_exists'.mp hpresent
    rw [h.moved m hm v hv] at hvalue
    exact ⟨m.1, hv.trans hvalue⟩
  · have hnone : ∀ m ∈ map, m.2 = key → lookup m.1 before = none := fun m hm hkey =>
      not_not.mp fun hpresent => hmoved ⟨m, hm, hkey, hpresent⟩
    by_cases hsource : ∃ m ∈ map, m.1 = key
    · obtain ⟨m, hm, rfl⟩ := hsource
      rw [h.left m hm hnone] at hvalue
      cases hvalue
    · rw [h.kept key (fun m hm hkey => hsource ⟨m, hm, hkey⟩) hnone] at hvalue
      exact ⟨key, hvalue⟩

end

/-! ## A section's renames -/

/-- What a section's renames are: hash maps, and the names in each are told apart. -/
structure Rename.Sound (rule : Rename) : Prop where
  /-- a column has one new name -/
  sources : (rule.columns.map Prod.fst).Nodup
  /-- a name is given to one column -/
  targets : (rule.columns.map Prod.snd).Nodup
  /-- a child has one map -/
  children : (rule.nested.map Prod.fst).Nodup
  /-- and so it is inside each child -/
  nested : ∀ child ∈ rule.nested, (child.2.map Prod.fst).Nodup ∧ (child.2.map Prod.snd).Nodup

/-- The same renames, the maps walked in another order. -/
structure Rename.Reordered (rule rule' : Rename) : Prop where
  /-- the columns in another order -/
  columns : rule'.columns.Perm rule.columns
  /-- the same children -/
  fields : (rule'.nested.map Prod.fst).Perm (rule.nested.map Prod.fst)
  /-- and the columns of each in another order -/
  nested : ∀ child' ∈ rule'.nested, ∃ child ∈ rule.nested,
    child'.1 = child.1 ∧ child'.2.Perm child.2

/-- What a section's renames make of the fields of a document. -/
structure Rename.Applied (rule : Rename) (fields after : List (String × Json)) : Prop where
  /-- the keys are in order, each once -/
  ordered : Json.Ordered after
  /-- each embedded child that is there is renamed inside -/
  children : ∀ child ∈ rule.nested, ∀ value,
    Json.lookup child.1 (renameKeys rule.columns fields) = some value →
    ∃ value', Json.lookup child.1 after = some value' ∧ ChildRenamed child.2 value value'
  /-- and nothing else is touched -/
  others : ∀ key, (∀ child ∈ rule.nested, child.1 = key →
      Json.lookup key (renameKeys rule.columns fields) = none) →
    Json.lookup key after = Json.lookup key (renameKeys rule.columns fields)

theorem ElementRenamed.unique {map : List (String × String)} {value a b : Json}
    (ha : ElementRenamed map value a) (hb : ElementRenamed map value b) : a = b := by
  cases ha with
  | object ha =>
    cases hb with
    | object hb => rw [ha.unique hb]
    | other hnone => cases hnone
  | other hnone =>
    cases hb with
    | object => cases hnone
    | other => rfl

theorem ChildRenamed.unique {map : List (String × String)} {value a b : Json}
    (ha : ChildRenamed map value a) (hb : ChildRenamed map value b) : a = b := by
  cases ha with
  | array ha =>
    cases hb with
    | array hb =>
      have honce : Relator.RightUnique (ElementRenamed map) := fun _ _ _ h h' =>
        ElementRenamed.unique h h'
      exact congrArg arr (List.right_unique_forall₂' honce ha hb)
    | single hnone => cases hnone
  | single hnone ha =>
    cases hb with
    | array => cases hnone
    | single _ hb => exact ha.unique hb

theorem ElementRenamed.perm {map map' : List (String × String)} (hperm : map'.Perm map)
    {a b : Json} (h : ElementRenamed map a b) : ElementRenamed map' a b := by
  cases h with
  | object h => exact .object (h.perm hperm)
  | other h => exact .other h

theorem ChildRenamed.perm {map map' : List (String × String)} (hperm : map'.Perm map)
    {a b : Json} (h : ChildRenamed map a b) : ChildRenamed map' a b := by
  cases h with
  | array h => exact .array (h.imp fun _ _ h => h.perm hperm)
  | single hnone h => exact .single hnone (h.perm hperm)

namespace Rename

variable {rule rule' : Rename} {fields after after' : List (String × Json)}

theorem Applied.unique (h : rule.Applied fields after) (h' : rule.Applied fields after') :
    after = after' := by
  refine h.ordered.ext h'.ordered fun key => ?_
  by_cases hchild : ∃ child ∈ rule.nested, child.1 = key ∧
      lookup key (renameKeys rule.columns fields) ≠ none
  · obtain ⟨child, hmem, rfl, hpresent⟩ := hchild
    obtain ⟨value, hvalue⟩ := Option.ne_none_iff_exists'.mp hpresent
    obtain ⟨a, ha, hrenamed⟩ := h.children child hmem value hvalue
    obtain ⟨b, hb, hrenamed'⟩ := h'.children child hmem value hvalue
    rw [ha, hb, hrenamed.unique hrenamed']
  · have hnone : ∀ child ∈ rule.nested, child.1 = key →
        lookup key (renameKeys rule.columns fields) = none := fun child hmem hkey =>
      not_not.mp fun hpresent => hchild ⟨child, hmem, hkey, hpresent⟩
    rw [h.others key hnone, h'.others key hnone]

theorem applied (hrule : rule.Sound) (hfields : Json.Ordered fields)
    (helements : ∀ key value, lookup key fields = some value → value.ElementsOrdered) :
    rule.Applied fields (rule.nested.foldl renameChild (renameKeys rule.columns fields)) := by
  have hrenamed := renamed_renameKeys hrule.targets hfields
  refine ⟨ordered_foldl_renameChild hrenamed.ordered, fun child hmem value hvalue => ?_,
    fun key hnone => ?_⟩
  · obtain ⟨k, hk⟩ := hrenamed.exists_lookup hvalue
    refine ⟨renameNested child.2 value, ?_, childRenamed (hrule.nested child hmem).2
      (helements k value hk)⟩
    rw [lookup_foldl_of_mem hrule.children hmem, hvalue]
    rfl
  · by_cases hkey : key ∈ rule.nested.map Prod.fst
    · obtain ⟨child, hmem, rfl⟩ := List.mem_map.mp hkey
      rw [lookup_foldl_of_mem hrule.children hmem, hnone child hmem rfl]
      rfl
    · exact lookup_foldl_of_notMem hkey _

theorem Reordered.sound (h : rule.Reordered rule') (hrule : rule.Sound) : rule'.Sound where
  sources := (h.columns.map Prod.fst).nodup_iff.mpr hrule.sources
  targets := (h.columns.map Prod.snd).nodup_iff.mpr hrule.targets
  children := h.fields.nodup_iff.mpr hrule.children
  nested child' hmem := by
    obtain ⟨child, hchild, -, hperm⟩ := h.nested child' hmem
    obtain ⟨hsources, htargets⟩ := hrule.nested child hchild
    exact ⟨(hperm.map Prod.fst).nodup_iff.mpr hsources,
      (hperm.map Prod.snd).nodup_iff.mpr htargets⟩

theorem Applied.reordered (h : rule.Reordered rule') (hrule : rule.Sound)
    (hfields : Json.Ordered fields) (happlied : rule.Applied fields after) :
    rule'.Applied fields after := by
  have hsame : renameKeys rule'.columns fields = renameKeys rule.columns fields :=
    renameKeys_perm h.columns hrule.targets hfields
  refine ⟨happlied.ordered, fun child' hmem value hvalue => ?_, fun key hnone => ?_⟩
  · obtain ⟨child, hchild, hkey, hperm⟩ := h.nested child' hmem
    rw [hsame, hkey] at hvalue
    obtain ⟨value', hlook, hrenamed⟩ := happlied.children child hchild value hvalue
    exact ⟨value', hkey ▸ hlook, hrenamed.perm hperm⟩
  · rw [hsame] at hnone ⊢
    refine happlied.others key fun child hchild hkey => ?_
    have hfield : key ∈ rule'.nested.map Prod.fst :=
      h.fields.mem_iff.mpr (hkey ▸ List.mem_map_of_mem hchild)
    obtain ⟨child', hmem, hkey'⟩ := List.mem_map.mp hfield
    exact hnone child' hmem hkey'

/-- **Renames happen at once.** The value of each renamed column that is present is under its
new name, what is neither renamed nor replaced is as it was, and nothing else could have come
out; the same goes for every element of each embedded child. In whatever order the maps are
walked, the document is the same one. -/
theorem renames_at_once (hrule : rule.Sound) (hfields : Json.Ordered fields)
    (helements : ∀ key value, Json.lookup key fields = some value → value.ElementsOrdered) :
    (Renamed rule.columns fields (renameKeys rule.columns fields) ∧
      ∀ other, Renamed rule.columns fields other → other = renameKeys rule.columns fields) ∧
    (∃ after, rule.apply (.obj fields) = .obj after ∧ rule.Applied fields after ∧
      ∀ other, rule.Applied fields other → other = after) ∧
    ∀ rule' : Rename, rule.Reordered rule' →
      renameKeys rule'.columns fields = renameKeys rule.columns fields ∧
        rule'.apply (.obj fields) = rule.apply (.obj fields) := by
  have hrenamed := renamed_renameKeys hrule.targets hfields
  have happlied := applied hrule hfields helements
  refine ⟨⟨hrenamed, fun other h => h.unique hrenamed⟩,
    ⟨_, apply_obj rule fields, happlied, fun other h => h.unique happlied⟩, fun rule' h => ?_⟩
  have happlied' := applied (h.sound hrule) hfields helements
  refine ⟨renameKeys_perm h.columns hrule.targets hfields, ?_⟩
  rw [apply_obj, apply_obj, happlied'.unique (happlied.reordered h hrule hfields)]

/-- A document with one embedded child. -/
def orderFields : List (String × Json) :=
  [("a", .int 1), ("b", .int 2), ("lines", .arr [.obj [("x", .int 3), ("y", .int 4)]])]

/-- Two columns trade names, and inside the child a field takes the name of another; the map is
walked either way. -/
theorem renames_at_once_trade :
    (Rename.mk [("b", "a"), ("a", "b")] [("lines", [("x", "y")])]).apply (.obj orderFields) =
      .obj [("a", .int 2), ("b", .int 1), ("lines", .arr [.obj [("y", .int 3)]])] := by
  have helements : ∀ key value, Json.lookup key orderFields = some value →
      value.ElementsOrdered := by
    intro key value h
    simp only [orderFields, Json.lookup] at h
    split at h
    · cases h
      trivial
    · split at h
      · cases h
        trivial
      · split at h
        · cases h
          intro fields hmem
          cases List.mem_singleton.mp hmem
          decide
        · cases h
  have h := @renames_at_once ⟨[("a", "b"), ("b", "a")], [("lines", [("x", "y")])]⟩ orderFields
    ⟨by decide, by decide, by decide, by decide⟩ (by decide) helements
  have hreordered : Reordered ⟨[("a", "b"), ("b", "a")], [("lines", [("x", "y")])]⟩
      ⟨[("b", "a"), ("a", "b")], [("lines", [("x", "y")])]⟩ :=
    ⟨.swap _ _ _, .refl _, fun child hmem => ⟨child, hmem, rfl, .refl _⟩⟩
  exact (h.2.2 _ hreordered).2.trans (by decide +kernel)

end Rename

end Pg2osync
