import Pg2osync.Config

/-!
# Who writes an index

Some questions are about a group of sections rather than any one of them: what a
template claims, and who else writes the index a section writes. They are asked of
the sections of one file and of those of a directory of files, so each section
comes with a label that tells it from the others.
-/

namespace Pg2osync

namespace Config

/-- A check of every element of a list, which stops at the first that fails. -/
def checkEach {α : Type} (check : α → Except String Unit) : List α → Except String Unit
  | [] => .ok ()
  | x :: rest => (check x).bind fun _ => checkEach check rest

theorem checkEach_ok {α : Type} {check : α → Except String Unit} {list : List α} :
    checkEach check list = .ok () ↔ ∀ x ∈ list, check x = .ok () := by
  induction list with
  | nil => simp [checkEach]
  | cons x rest ih =>
    rw [checkEach, List.forall_mem_cons, ← ih]
    rcases check x with e | ⟨⟩ <;> simp [Except.bind]

/-- Which section a message is about. -/
structure Label : Type where
  /-- the file, among the files of a directory -/
  file : Option String
  /-- the section -/
  key : String
  deriving DecidableEq

namespace Label

/-- `Label::section`. -/
def ofSection (key : String) : Label := ⟨none, key⟩

/-- `Label::in_file`. -/
def inFile (file key : String) : Label := ⟨some file, key⟩

/-- The label with a sub-table of the section. -/
def path (label : Label) (sub : String) : String :=
  let section_ := "[sync." ++ label.key ++ sub ++ "]"
  match label.file with
  | some file => file ++ " " ++ section_
  | none => section_

/-- `Display for Label`. -/
def text (label : Label) : String := label.path ""

/-- `Label::join`. -/
def join (label : Label) : String := label.path ".join"

end Label

/-- A section with its label. -/
abbrev Labelled := Label × TableSync

/-- `index_name`. -/
def Labelled.indexName (s : Labelled) : String := s.2.indexName s.1.key

/-! ## Sharing an index -/

/-- `check_plain_shared_index`: every section has an id of its own, and at most one
describes the index. -/
def checkPlainSharedIndex (index : String) (members : List Labelled) : Except String Unit :=
  match members.find? fun m => m.2.id.isNone with
  | some m => .error (m.1.text ++ " two tables map to the same index " ++ index.quote ++
      "; give each an explicit id template so their documents cannot collide, " ++
      "or declare a join pair")
  | none =>
    match members.filter fun m => m.2.mappingFile.isSome with
    | first :: second :: _ => .error (second.1.text ++ " index " ++ index.quote ++
        " is also described by " ++ first.1.text ++
        "; an index is created once, so at most one of the sections feeding it may set " ++
        "mapping_file")
    | _ => .ok ()

/-- The members of a group with their join fields, if each declares one. -/
def joinedMembers (index : String) (declaring : Label) (members : List Labelled) :
    Except String (List (Labelled × JoinSpec)) :=
  members.mapM fun m => match m.2.join with
    | some join => .ok (m, join)
    | none => .error (m.1.text ++ " writes index " ++ index.quote ++ " without join, but " ++
        declaring.text ++ " declares one; every section sharing a join field's index must be " ++
        "part of the pair")

/-- Each relation name belongs to one section. -/
def checkRelationNames (index : String) : List (Labelled × JoinSpec) → Except String Unit
  | [] => .ok ()
  | (a, join) :: rest =>
    match rest.find? fun b => b.2.name = join.name with
    | some (b, _) => .error (a.1.text ++ " and " ++ b.1.text ++ " both use the join name " ++
        join.name.quote ++ "; each section of index " ++ index.quote ++
        " needs its own relation name")
    | none => checkRelationNames index rest

/-- A parent's id names nothing but its key, from which its children render it. -/
def checkParentId (parent : Labelled) (joined : List (Labelled × JoinSpec)) :
    Except String Unit :=
  match parent.2.id with
  | none => .ok ()
  | some spec =>
    match IdTemplate.parse spec [parent.2.primaryKey.getD "id"] with
    | .error e => .error (parent.1.text ++ " id " ++ spec.quote ++ " is not a usable id: " ++ e)
    | .ok template =>
      match template.pkOnly, joined.findSome? fun m => m.2.parent with
      | false, some column => .error (parent.1.text ++ " id " ++ spec.quote ++
          " names a column outside the primary key, so a join child cannot compute the parent's " ++
          "document id from " ++ column ++
          " alone. Give the parent an id that names only its key")
      | _, _ => .ok ()

/-- The rules of a join pair. -/
def checkJoined (index : String) (joined : List (Labelled × JoinSpec)) : Except String Unit :=
  match joined with
  | [] => .ok ()
  | (firstSection, first) :: _ =>
    match joined.find? fun m => m.2.field ≠ first.field with
    | some (m, join) => .error (m.1.join ++ " field " ++ join.field.quote ++
        " disagrees with " ++ firstSection.1.join ++ " field " ++ first.field.quote ++
        "; every section writing to index " ++ index.quote ++ " must name the same join field")
    | none =>
      match joined.filter fun m => m.2.parent.isNone with
      | [] => .error ("index " ++ index.quote ++
          " has no join parent: every section writing to it names a parent column, so nothing " ++
          "writes the parent documents. Remove parent from the section that holds them")
      | a :: b :: _ => .error (a.1.1.text ++ " and " ++ b.1.1.text ++
          " are both the join parent of index " ++ index.quote ++
          "; exactly one section may omit parent")
      | [parent] => (checkRelationNames index joined).bind fun _ => checkParentId parent.1 joined

/-- `check_shared_index`. -/
def checkSharedIndex (index : String) (members : List Labelled) : Except String Unit :=
  match members.find? fun m => m.2.join.isSome with
  | none => checkPlainSharedIndex index members
  | some m => (joinedMembers index m.1 members).bind (checkJoined index)

/-- `check_index_group`: whether the sections that write one index may share it. -/
def checkIndexGroup (index : String) (members : List Labelled) : Except String Unit :=
  match members with
  | [single] =>
    match single.2.join.bind (·.parent) with
    | some column => .error (single.1.text ++ " join names a parent through " ++ column ++
        ", but no other [sync.*] section writes index " ++ index.quote ++ " as its parent")
    | none => .ok ()
  | _ => checkSharedIndex index members

/-! ## Templates -/

/-- A section's target, for the checks that span sections. -/
def resolveTarget (s : Labelled) : Except String (Labelled × IndexTarget) :=
  match s.2.indexTarget s.1.key [] with
  | .ok target => .ok (s, target)
  | .error e => .error (s.1.text ++ " " ++ e)

/-- The checks of one section against the others: what a template claims is a whole
namespace, which no other section may write into. -/
def checkTemplateClaim (targets : List (Labelled × IndexTarget)) (own : Labelled × IndexTarget) :
    Except String Unit :=
  let others := targets.filter fun t => t.1.1 ≠ own.1.1
  match own.2 with
  | .fixed _ => .ok ()
  | .template spec _ =>
    match others.find? fun t => t.1.indexName = spec with
    | some other => .error (own.1.1.text ++ " index " ++ spec.quote ++
        " is a template and is also fed by " ++ other.1.1.text ++
        "; a template claims every index it can render, which is not something two tables can share")
    | none =>
      match others.find? fun t => indexMatchesPattern own.2.pattern t.2.pattern with
      | some other => .error (own.1.1.text ++ " index " ++ spec.quote ++ " claims " ++
          own.2.pattern.quote ++ ", which also matches " ++ other.1.indexName.quote ++ " of " ++
          other.1.1.text ++ "; a TRUNCATE of " ++ own.1.2.table ++ " would clear that index too")
      | none => .ok ()

/-- `check_template_claims`. -/
def checkTemplateClaims (targets : List (Labelled × IndexTarget)) : Except String Unit :=
  checkEach (checkTemplateClaim targets) targets

/-- The sections that write each index. -/
def byIndex (sections : List Labelled) : Dictionary String (List Labelled) :=
  sections.foldl (fun groups s =>
    groups.insert s.indexName ((groups.get? s.indexName).getD [] ++ [s])) ∅

/-- `check_index_overlap`. -/
def checkIndexOverlap (sections : List Labelled) : Except String Unit :=
  (sections.mapM resolveTarget).bind fun targets =>
    (checkTemplateClaims targets).bind fun _ =>
      checkEach (fun group => checkIndexGroup group.1 group.2) (byIndex sections).entries

/-! ## What an accepted set of sections satisfies -/

variable {α β ε : Type}

theorem exists_of_mapM {f : α → Except ε β} {list : List α} {results : List β}
    (h : list.mapM f = .ok results) {x : α} (hx : x ∈ list) : ∃ y ∈ results, f x = .ok y := by
  induction list generalizing results with
  | nil => cases hx
  | cons first list ih =>
    rw [List.mapM_cons] at h
    obtain ⟨y, hfirst, h⟩ := Except.bind_eq_ok h
    obtain ⟨ys, hrest, h⟩ := Except.bind_eq_ok h
    cases h
    rcases List.mem_cons.mp hx with rfl | hx
    · exact ⟨y, List.mem_cons_self, hfirst⟩
    · obtain ⟨z, hz, hxz⟩ := ih hrest hx
      exact ⟨z, List.mem_cons_of_mem _ hz, hxz⟩

theorem exists_of_mem_mapM {f : α → Except ε β} {list : List α} {results : List β}
    (h : list.mapM f = .ok results) {y : β} (hy : y ∈ results) : ∃ x ∈ list, f x = .ok y := by
  induction list generalizing results with
  | nil => cases h; cases hy
  | cons first list ih =>
    rw [List.mapM_cons] at h
    obtain ⟨y', hfirst, h⟩ := Except.bind_eq_ok h
    obtain ⟨ys, hrest, h⟩ := Except.bind_eq_ok h
    cases h
    rcases List.mem_cons.mp hy with rfl | hy
    · exact ⟨first, List.mem_cons_self, hfirst⟩
    · obtain ⟨x, hx, hxy⟩ := ih hrest hy
      exact ⟨x, List.mem_cons_of_mem _ hx, hxy⟩

theorem mapM_of_forall {f : α → Except ε β} {list : List α} (h : ∀ x ∈ list, ∃ y, f x = .ok y) :
    ∃ results, list.mapM f = .ok results := by
  induction list with
  | nil => exact ⟨[], rfl⟩
  | cons x list ih =>
    obtain ⟨y, hy⟩ := h x List.mem_cons_self
    obtain ⟨results, hresults⟩ := ih fun x hx => h x (List.mem_cons_of_mem _ hx)
    exact ⟨y :: results, by rw [List.mapM_cons, hy, hresults]; rfl⟩

variable {s : Labelled}

theorem resolveTarget_ok {target : Labelled × IndexTarget} (h : resolveTarget s = .ok target) :
    target.1 = s ∧ s.2.indexTarget s.1.key [] = .ok target.2 := by
  rw [resolveTarget] at h
  split at h
  · next target' htarget =>
    cases h
    exact ⟨rfl, htarget⟩
  · cases h

/-- The sections of a group are those that write its index. -/
theorem get?_byIndex (sections : List Labelled) (index : String) :
    ((byIndex sections).get? index).getD [] = sections.filter fun s => s.indexName = index := by
  have hstep : ∀ (sections : List Labelled) (groups : Dictionary String (List Labelled)),
      ((sections.foldl (fun groups s =>
        groups.insert s.indexName ((groups.get? s.indexName).getD [] ++ [s])) groups).get?
          index).getD [] =
        (groups.get? index).getD [] ++ sections.filter fun s => s.indexName = index := by
    intro sections
    induction sections with
    | nil => simp
    | cons s rest ih =>
      intro groups
      rw [List.foldl_cons, ih, Dictionary.get?_insert, List.filter_cons]
      by_cases hs : s.indexName = index
      · simp [hs]
      · simp [hs]
  rw [byIndex, hstep]
  simp

variable {sections : List Labelled}

/-- An accepted set of sections resolves, and passes both of the checks. -/
theorem checkIndexOverlap_ok (h : checkIndexOverlap sections = .ok ()) :
    ∃ targets, sections.mapM resolveTarget = .ok targets ∧
      (∀ target ∈ targets, checkTemplateClaim targets target = .ok ()) ∧
      ∀ group ∈ (byIndex sections).entries, checkIndexGroup group.1 group.2 = .ok () := by
  rw [checkIndexOverlap] at h
  obtain ⟨targets, hm, h⟩ := Except.bind_eq_ok h
  obtain ⟨⟨⟩, hclaims, h⟩ := Except.bind_eq_ok h
  exact ⟨targets, hm, checkEach_ok.mp hclaims, checkEach_ok.mp h⟩

/-- The sharing rules hold of every index that a section writes. -/
theorem checkIndexOverlap_group (h : checkIndexOverlap sections = .ok ()) (hs : s ∈ sections) :
    checkIndexGroup s.indexName (sections.filter fun t => t.indexName = s.indexName) =
      .ok () := by
  obtain ⟨targets, -, -, hgroups⟩ := checkIndexOverlap_ok h
  have hgroup := get?_byIndex sections s.indexName
  rcases hget : (byIndex sections).get? s.indexName with _ | members
  · rw [hget] at hgroup
    have : s ∈ sections.filter fun t => t.indexName = s.indexName :=
      List.mem_filter.mpr ⟨hs, decide_eq_true rfl⟩
    rw [← hgroup] at this
    cases this
  · rw [hget] at hgroup
    rw [← hgroup]
    exact hgroups _ (Dictionary.mem_entries_iff.mpr hget)

theorem checkIndexOverlap_target (h : checkIndexOverlap sections = .ok ()) (hs : s ∈ sections) :
    ∃ target, s.2.indexTarget s.1.key [] = .ok target := by
  obtain ⟨targets, hm, -, -⟩ := checkIndexOverlap_ok h
  obtain ⟨target, -, htarget⟩ := exists_of_mapM hm hs
  exact ⟨target.2, (resolveTarget_ok htarget).2⟩

/-- No other section's pattern is a text that a template's pattern matches. -/
theorem checkIndexOverlap_pattern (h : checkIndexOverlap sections = .ok ()) {a b : Labelled}
    (ha : a ∈ sections) (hb : b ∈ sections) (hne : a.1 ≠ b.1) {spec : String}
    {template : IdTemplate} (htarget : a.2.indexTarget a.1.key [] = .ok (.template spec template))
    {other : IndexTarget} (hother : b.2.indexTarget b.1.key [] = .ok other) :
    indexMatchesPattern (IndexTarget.template spec template).pattern other.pattern = false := by
  obtain ⟨targets, hm, hclaims, -⟩ := checkIndexOverlap_ok h
  obtain ⟨⟨a', ta⟩, hta, hra⟩ := exists_of_mapM hm ha
  obtain ⟨⟨b', tb⟩, htb, hrb⟩ := exists_of_mapM hm hb
  obtain ⟨rfl, hta'⟩ := resolveTarget_ok hra
  obtain ⟨rfl, htb'⟩ := resolveTarget_ok hrb
  rw [htarget] at hta'
  rw [hother] at htb'
  cases hta'
  cases htb'
  have hclaim := hclaims _ hta
  simp only [checkTemplateClaim] at hclaim
  split at hclaim
  · cases hclaim
  split at hclaim
  · cases hclaim
  next hnone =>
  rw [List.find?_eq_none] at hnone
  exact Bool.eq_false_iff.mpr
    (hnone _ (List.mem_filter.mpr ⟨htb, decide_eq_true (Ne.symm hne)⟩))

end Config

end Pg2osync
