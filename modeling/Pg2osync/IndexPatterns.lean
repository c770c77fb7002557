import Pg2osync.IndexClaims
import Pg2osync.RuleSet
import Pg2osync.Superseded

/-!
# Index patterns

A table whose rows render their index is spoken of by a pattern: a TRUNCATE clears it, a clearing
is remembered by it, and an index that a row chooses is created if a pattern claims it.

A pattern matches exactly the names that fit it, and the names that a target's rows render fit the
target's. So whatever a run of the engine writes for a table is matched by the table's pattern.
-/

namespace Pg2osync

open Glob IdTemplate

/-! ## What a target renders -/

/-- Pieces that are not there are not seen in the pattern. -/
theorem pattern_filter {parts : List IdPart} (out : String) :
    (parts.filter (· ≠ .literal "")).foldl (fun out part => match part with
      | .literal text => out ++ text
      | .column _ => if out.toList.getLast? = some '*' then out else out ++ "*") out =
    parts.foldl (fun out part => match part with
      | .literal text => out ++ text
      | .column _ => if out.toList.getLast? = some '*' then out else out ++ "*") out := by
  induction parts generalizing out with
  | nil => rfl
  | cons part parts ih =>
    by_cases hpart : part = .literal ""
    · subst hpart
      rw [List.filter_cons_of_neg (by simp), List.foldl_cons, ih]
      simp only [String.append_empty]
    · rw [List.filter_cons_of_pos (by simpa using hpart), List.foldl_cons, List.foldl_cons, ih]

theorem spell_filter (value : String → List Char) (parts : List IdPart) :
    spell value (parts.filter (· ≠ .literal "")) = spell value parts := by
  induction parts with
  | nil => rfl
  | cons part parts ih =>
    by_cases hpart : part = .literal ""
    · subst hpart
      rw [List.filter_cons_of_neg (by simp), ih, spell_literal]
      rfl
    · rw [List.filter_cons_of_pos (by simpa using hpart), spell, spell, List.flatMap_cons,
        List.flatMap_cons]
      exact congrArg _ ih

variable {name : String} {template : IdTemplate}

/-- A name that is spelled without a star is matched. -/
theorem matches_of_spell {spec : String} {value : String → List Char}
    (hname : name.toList = spell value template.parts) (hstar : '*' ∉ name.toList) :
    indexMatchesPattern (IndexTarget.template spec template).pattern name = true := by
  let kept : IdTemplate := ⟨template.parts.filter (· ≠ .literal ""), template.pkOnly⟩
  have hspell : name.toList = spell value kept.parts := hname.trans (spell_filter _ _).symm
  have hpattern : (IndexTarget.template spec template).pattern =
      (IndexTarget.template spec kept).pattern := (pattern_filter "").symm
  have hlit : ∀ text, .literal text ∈ kept.parts → text.toList ≠ [] ∧ '*' ∉ text.toList := by
    intro text htext
    refine ⟨fun hempty => ?_, fun hmem => hstar ?_⟩
    · have hne := (List.mem_filter.mp htext).2
      rw [← String.toList_inj.mp (hempty.trans String.toList_empty.symm)] at hne
      simp at hne
    · rw [hspell]
      exact literal_subset_spell htext hmem
  rw [hpattern, indexMatchesPattern_iff, splitOn_pattern hlit, hspell]
  exact (spell_fits value kept.parts).1

theorem star_notMem (h : checkIndexName name = .ok ()) : '*' ∉ name.toList := by
  intro hstar
  have hchar := (checkIndexName_ok.mp h).2 _ hstar
  revert hchar
  decide

/-- **A target's pattern matches what a row renders.** -/
theorem IndexTarget.matches_of_render {target : IndexTarget} {doc : Json}
    (h : target.render doc = .ok name ∨ target.renderFromPk doc = .ok name) :
    indexMatchesPattern target.pattern name = true := by
  cases target with
  | fixed other =>
    have hname : other = name := by
      obtain h | h := h <;> exact Except.ok.inj h
    have hsame := fits_intercalate ['*'] (List.splitOn_ne_nil '*' name.toList)
    rw [List.intercalate_splitOn] at hsame
    rw [hname]
    exact indexMatchesPattern_iff.mpr hsame
  | template spec template =>
    obtain ⟨⟨value, hspell⟩, hcheck⟩ := spelled_of_render h
    exact matches_of_spell hspell (star_notMem hcheck)

/-! ## What a row writes -/

variable {index : String}

section

variable {rules : Rules} {table : TableName} {version : Option ℕ} {target : IndexTarget}

theorem halt_ok {α : Type} {result : Except String α} {a : α} (h : halt table result = .ok a) :
    result = .ok a := by
  cases result with
  | error e => cases h
  | ok b => exact congrArg Except.ok (Except.ok.inj h)

theorem renderedIndex_matches {pk : Json} {doc before : Option Json}
    (h : renderedIndex target table pk doc before = .ok index) :
    indexMatchesPattern target.pattern index = true := by
  rw [renderedIndex] at h
  unfold renderForRow at h
  split at h
  · exact IndexTarget.matches_of_render (.inl (halt_ok h))
  · exact IndexTarget.matches_of_render (.inl (halt_ok h))
  · split at h
    · exact IndexTarget.matches_of_render (.inr (halt_ok h))
    · cases halt_ok h

variable {op : DocumentOp}

theorem finishDocs_index {docs : List Placed} {shaped : List String}
    (hop : op ∈ (finishDocs rules table version index docs shaped).1) : op.index = index := by
  obtain ⟨placed, -, rfl⟩ := List.mem_map.mp hop
  rfl

variable {before : Option Json}

theorem oldIndex_matches {oldPk : Json} (h : indexMatchesPattern target.pattern index = true) :
    indexMatchesPattern target.pattern (oldIndex target oldPk before index) = true := by
  have hname : ∀ {result : Except String String}, (∀ name, result = .ok name →
      indexMatchesPattern target.pattern name = true) →
      indexMatchesPattern target.pattern (result.toOption.getD index) = true := by
    intro result hok
    cases result with
    | error e => exact h
    | ok name => exact hok name rfl
  unfold oldIndex
  split
  · exact hname fun name hok => IndexTarget.matches_of_render (.inl hok)
  · split
    · exact hname fun name hok => IndexTarget.matches_of_render (.inr hok)
    · exact h

variable {ops : List DocumentOp}

theorem fannedRemovals_matches {newDocs : List Placed} {oldPk : Json}
    (h : fannedRemovals rules table version target index newDocs oldPk before = .ok ops)
    (hop : op ∈ ops) : indexMatchesPattern target.pattern op.index = true := by
  cases before with
  | none =>
    cases h
    cases hop
  | some before =>
    obtain ⟨oldBase, -, h⟩ := Except.bind_eq_ok h
    obtain ⟨oldIndex, hold, h⟩ := Except.bind_eq_ok h
    obtain ⟨old, -, h⟩ := Except.bind_eq_ok h
    cases h
    obtain ⟨placed, -, rfl⟩ := List.mem_map.mp hop
    exact renderedIndex_matches hold

theorem materializeUpdate_matches {pk : Json} {previousPk : Option Json} {doc : Json}
    {completed : List String} {left : List String}
    (h : materializeUpdate rules table version target pk previousPk doc completed before =
      .ok (ops, left)) (hop : op ∈ ops) : indexMatchesPattern target.pattern op.index = true := by
  obtain ⟨base, -, h⟩ := Except.bind_eq_ok h
  obtain ⟨index, hindex, h⟩ := Except.bind_eq_ok h
  obtain ⟨newDocs, -, h⟩ := Except.bind_eq_ok h
  obtain ⟨removals, hremovals, h⟩ := Except.bind_eq_ok h
  cases h
  have hmatches := renderedIndex_matches hindex
  obtain hwrite | hremoval := List.mem_append.mp hop
  · rwa [finishDocs_index hwrite]
  · unfold updateRemovals at hremovals
    split at hremovals
    · exact fannedRemovals_matches hremovals hremoval
    · obtain ⟨oldRouting, -, hremovals⟩ := Except.bind_eq_ok hremovals
      cases hremovals
      split at hremoval
      · rw [List.mem_singleton.mp hremoval]
        exact oldIndex_matches hmatches
      · cases hremoval

theorem materializeDelete_matches {pk : Json}
    (h : materializeDelete rules table version target pk before = .ok ops) (hop : op ∈ ops) :
    indexMatchesPattern target.pattern op.index = true := by
  obtain ⟨base, -, h⟩ := Except.bind_eq_ok h
  obtain ⟨index, hindex, h⟩ := Except.bind_eq_ok h
  have hmatches := renderedIndex_matches hindex
  split at h
  · obtain ⟨routing, -, h⟩ := Except.bind_eq_ok h
    cases h
    obtain rfl | hcascade := List.mem_cons.mp hop
    · exact hmatches
    · split at hcascade
      · rw [List.mem_singleton.mp hcascade]
        exact hmatches
      · cases hcascade
  · split at h
    · cases h
    · obtain ⟨docs, -, h⟩ := Except.bind_eq_ok h
      cases h
      obtain ⟨placed, -, rfl⟩ := List.mem_map.mp hop
      exact hmatches

/-- **What a row writes goes where the table's pattern matches.** -/
theorem materialize_matches {kind : RowKind} {previous : Option Json} {left : List String}
    (h : materialize target table kind rules previous version = .ok (ops, left)) (hop : op ∈ ops) :
    indexMatchesPattern target.pattern op.index = true := by
  unfold materialize at h
  split at h
  · cases h
  · dsimp only at h
    split at h
    · obtain ⟨base, -, h⟩ := Except.bind_eq_ok h
      obtain ⟨index, hindex, h⟩ := Except.bind_eq_ok h
      obtain ⟨docs, -, h⟩ := Except.bind_eq_ok h
      have hwrites : (finishDocs rules table version index docs []).1 = ops :=
        congrArg Prod.fst (Except.ok.inj h)
      rw [finishDocs_index (hwrites ▸ hop)]
      exact renderedIndex_matches hindex
    · exact materializeUpdate_matches h hop
    · obtain ⟨removed, hdelete, h⟩ := Except.map_eq_ok h
      cases h
      exact materializeDelete_matches hdelete hop

end

/-! ## What a run writes -/

namespace Engine

open EngineState

/-- What a step of the engine writes for the row it deals with. -/
def rowWrites (engine : Engine) (s e : EngineState) (action : EngineAction) :
    List (TableName × DocumentOp) :=
  match action, s.phase, e.phase with
  | .write, .writing _ completions ((_, row) :: _), .writing _ _ _ =>
    ((engine.opsOf completions row).filter fun op => !s.dead op).map (row.table, ·)
  | _, _, _ => []

/-- What a run writes, with the table of each row, and where it leads. -/
def runWrites (engine : Engine) :
    EngineState → List EngineAction → Option (List (TableName × DocumentOp) × EngineState)
  | s, [] => some ([], s)
  | s, action :: rest =>
    (engine.step s action).bind fun e =>
      (engine.runWrites e rest).map fun result =>
        (engine.rowWrites s e action ++ result.1, result.2)

/-- The operations among what was put out. -/
def opsPut (log : List Emitted) : List DocumentOp :=
  log.filterMap fun
    | .op _ op => some op
    | .truncated .. => none

/-- An index belongs to a table in all that a pattern is for: the table's pattern matches it, a
TRUNCATE clears it, and what a TRUNCATE has cleared is remembered for it. -/
structure Covers (engine : Engine) (table : TableName) (index : String) : Prop where
  /-- the pattern of the table's target matches it -/
  pattern : ∃ target, engine.mapping.targetFor table = some target ∧
    indexMatchesPattern target.pattern index = true
  /-- what a TRUNCATE clears has it, if it clears anything -/
  truncate : ∀ scope, engine.truncateScope table = some scope →
    indexMatchesPattern scope.1 index = true
  /-- and while a load runs, no older row of the table is written behind it -/
  floor : ∀ (s : EngineState) scope version v id, engine.truncateScope table = some (scope, none) →
    s.loadRunning = true → v < version →
    (engine.truncate table (some version) s).remembers index id v = true

theorem mem_raiseCleared (pattern : String) (version : ℕ) (cleared : List (String × ℕ)) :
    ∃ at_, (pattern, at_) ∈ raiseCleared pattern version cleared ∧ version ≤ at_ := by
  induction cleared with
  | nil => exact ⟨version, List.mem_singleton.mpr rfl, le_rfl⟩
  | cons c rest ih =>
    obtain ⟨p, at_⟩ := c
    rw [raiseCleared]
    split
    · next heq => exact ⟨max at_ version, heq ▸ List.mem_cons_self, le_max_right _ _⟩
    · obtain ⟨at', hmem, hle⟩ := ih
      exact ⟨at', List.mem_cons_of_mem _ hmem, hle⟩

theorem Covers.of_matches {engine : Engine} {table : TableName} {target : IndexTarget}
    (htarget : engine.mapping.targetFor table = some target)
    (h : indexMatchesPattern target.pattern index = true) : engine.Covers table index := by
  have htruncate : ∀ scope, engine.truncateScope table = some scope →
      indexMatchesPattern scope.1 index = true := by
    intro scope hscope
    rw [truncateScope, htarget, Option.bind_some] at hscope
    dsimp only at hscope
    split at hscope
    · cases hscope
    · cases hscope
      exact h
  refine ⟨⟨target, htarget, h⟩, htruncate, fun s scope version v id hscope hload hlt => ?_⟩
  have hmatch := htruncate _ hscope
  have hrest : s.handOverRest.loadRunning = true := by
    rw [← hload, handOverRest]
    split <;> rfl
  have hcleared : (engine.truncate table (some version) s).cleared =
      raiseCleared scope version s.handOverRest.cleared := by
    simp only [Engine.truncate, hscope, Option.isSome_none, raiseFloors, hrest]
    rfl
  obtain ⟨at_, hmem, hle⟩ := mem_raiseCleared scope version s.handOverRest.cleared
  rw [remembers, Bool.or_eq_true, hcleared, List.any_eq_true]
  refine .inr ⟨_, hmem, ?_⟩
  rw [Bool.and_eq_true, decide_eq_true_eq]
  exact ⟨hlt.trans_le hle, hmatch⟩

variable {engine : Engine} {s e : EngineState}

/-- A step writes where the table's pattern matches. -/
theorem covers_of_rowWrites {action : EngineAction} {w : TableName × DocumentOp}
    (hw : w ∈ engine.rowWrites s e action) : engine.Covers w.1 w.2.index := by
  unfold rowWrites at hw
  split at hw
  · next completions origin row rest settings completions' rows hphase hphase' =>
    obtain ⟨op, hop, rfl⟩ := List.mem_map.mp hw
    have hmem := (List.mem_filter.mp hop).1
    unfold opsOf at hmem
    split at hmem
    · cases hmem
    · next target htarget =>
      split at hmem
      · next ops left hok => exact .of_matches htarget (materialize_matches hok hmem)
      · cases hmem
  · cases hw

theorem opsPut_append (log more : List Emitted) :
    opsPut (log ++ more) = opsPut log ++ opsPut more :=
  List.filterMap_append ..

theorem opsPut_ops (origin : Origin) (ops : List DocumentOp) : opsPut (ops.map (.op origin)) = ops := by
  rw [opsPut, List.filterMap_map]
  exact List.filterMap_some

/-- A turn of the loop writes nothing yet. -/
theorem opsPut_handle {settings : EngineSettings} {heldAgain overdue : Bool}
    (hdeferred : s.deferred = none) (next : Origin × ChangeEvent) :
    opsPut (engine.handle settings heldAgain overdue s next).log = opsPut s.log := by
  obtain ⟨origin, ev⟩ := next
  cases ev with
  | begin | row | loadStarted | schemaDrift | loadFinished => rfl
  | commit lsn => exact congrArg opsPut (SameWindow.commit lsn heldAgain overdue hdeferred).log
  | loadMark mark =>
    rw [handle, EngineState.mark]
    dsimp only
    split
    · rfl
    · split <;> rfl
  | tableTruncated table version =>
    rw [handle, Engine.truncate]
    split
    · rfl
    · next pattern only _ =>
      obtain ⟨cleared, heq, -⟩ := raiseFloors_eq s.handOverRest pattern version only.isSome
      have hlog := (sameWindow_handOverRest s).log
      simp only [heq, hlog, opsPut_append]
      exact List.append_nil _

/-- What a step writes is what it puts out. -/
theorem opsPut_step {action : EngineAction} (hstep : engine.step s action = some e) :
    opsPut e.log = opsPut s.log ++ (engine.rowWrites s e action).map Prod.snd := by
  have hquiet : e.log = s.log → engine.rowWrites s e action = [] →
      opsPut e.log = opsPut s.log ++ (engine.rowWrites s e action).map Prod.snd := by
    intro hlog hnone
    rw [hlog, hnone]
    exact (List.append_nil _).symm
  cases does hstep with
  | turned hidle htake =>
    obtain ⟨-, hdeferred, -, -, hlog, -⟩ := pending_of_takeEvent hidle htake
    rw [opsPut_handle hdeferred, hlog]
    exact (List.append_nil _).symm
  | gathered _ htry | putAside _ htry =>
    refine hquiet ?_ rfl
    obtain ⟨-, rest, -, rfl⟩ | ⟨-, rest, -, rfl⟩ := tryNext_cases htry <;> rfl
  | @wrote settings completions origin row rest after hphase hwrite =>
    have hrow : ∀ phase : EnginePhase, phase = .writing settings completions rest →
        engine.rowWrites s { after with phase := phase } .write =
          ((engine.opsOf completions row).filter fun op => !s.dead op).map (row.table, ·) := by
      rintro _ rfl
      simp only [rowWrites, hphase]
    rw [hrow _ rfl, List.map_map]
    change opsPut after.log = opsPut s.log ++ List.map (fun op => op) _
    rw [List.map_id']
    obtain ⟨hnone, rfl⟩ | ⟨target, ops, left, htarget, hops, rfl⟩ := writeRow_ok hwrite
    · simp only [opsOf, hnone]
      exact (List.append_nil _).symm
    · obtain ⟨-, hlog, -⟩ := bufferOps_frame settings origin
        (ops.filter fun op => !s.dead op) s .idle
      rw [hlog, opsPut_append, opsPut_ops]
      simp only [opsOf, htarget, hops]
  | unwritten hphase | written hphase =>
    refine hquiet rfl ?_
    simp only [rowWrites, hphase]
  | fed | fedCopy | grouped | fetched | unread | closedEvents | closedCopy | stopped | cutOff =>
    exact hquiet rfl rfl

/-- **Whatever a run writes for a table, the table's pattern matches**; and it writes all that it
puts out. -/
theorem runWrites_covers {actions : List EngineAction} {writes : List (TableName × DocumentOp)}
    (hrun : engine.runWrites s actions = some (writes, e)) :
    opsPut e.log = opsPut s.log ++ writes.map Prod.snd ∧
      ∀ w ∈ writes, engine.Covers w.1 w.2.index := by
  induction actions generalizing s writes with
  | nil =>
    cases hrun
    exact ⟨(List.append_nil _).symm, fun w hw => absurd hw List.not_mem_nil⟩
  | cons action rest ih =>
    obtain ⟨s', hstep, hrun⟩ := Option.bind_eq_some_iff.mp hrun
    obtain ⟨result, hrest, heq⟩ := Option.map_eq_some_iff.mp hrun
    cases heq
    obtain ⟨hlog, hcovers⟩ := ih hrest
    refine ⟨?_, fun w hw => ?_⟩
    · rw [hlog, opsPut_step hstep, List.map_append, List.append_assoc]
    · obtain hw | hw := List.mem_append.mp hw
      · exact covers_of_rowWrites hw
      · exact hcovers w hw

end Engine

/-! ## Indices that are created for a row -/

namespace Config

/-- What the target records of the sections before anything is written: the patterns, each with its
section's mapping. -/
def recorded (specs : List IndexSpec) : List (String × Option Json) :=
  (specs.filter IndexSpec.pattern).map fun spec => (spec.name, spec.mapping)

/-- The indices that a batch is about to write and that are created for it, each with its
mapping. -/
def created (known : String → Bool) (templates : List (String × Option Json))
    (batch : List LsnOp) : List (String × Option Json) :=
  batch.filterMap fun op =>
    match op.op with
    | .upsert index _ _ _ _ _ =>
      if known index then none else (claimingTemplate templates index).map (index, ·)
    | _ => none

/-- A spec is a pattern if its name has a star. -/
def Starred (specs : List IndexSpec) : Prop :=
  ∀ spec ∈ specs, spec.pattern = decide ('*' ∈ spec.name.toList)

variable {specs : List IndexSpec}

theorem addSpec_keeps {mapping : Option Json} {pattern : Bool} {kept : String}
    (h : ∃ spec ∈ specs, spec.name = kept) :
    ∃ spec ∈ addSpec name mapping pattern specs, spec.name = kept := by
  induction specs with
  | nil =>
    obtain ⟨spec, hspec, -⟩ := h
    cases hspec
  | cons first rest ih =>
    obtain ⟨spec, hspec, rfl⟩ := h
    rw [addSpec]
    split
    · obtain rfl | hspec := List.mem_cons.mp hspec
      · exact ⟨_, List.mem_cons_self, rfl⟩
      · exact ⟨spec, List.mem_cons_of_mem _ hspec, rfl⟩
    · obtain rfl | hspec := List.mem_cons.mp hspec
      · exact ⟨_, List.mem_cons_self, rfl⟩
      · obtain ⟨spec', hmem, hname⟩ := ih ⟨spec, hspec, rfl⟩
        exact ⟨spec', List.mem_cons_of_mem _ hmem, hname⟩

theorem addSpec_adds (name : String) (mapping : Option Json) (pattern : Bool)
    (specs : List IndexSpec) : ∃ spec ∈ addSpec name mapping pattern specs, spec.name = name := by
  induction specs with
  | nil => exact ⟨_, List.mem_singleton.mpr rfl, rfl⟩
  | cons first rest ih =>
    rw [addSpec]
    split
    · next hname => exact ⟨_, List.mem_cons_self, hname⟩
    · obtain ⟨spec, hmem, hname⟩ := ih
      exact ⟨spec, List.mem_cons_of_mem _ hmem, hname⟩

theorem Starred.addSpec (h : Starred specs) (mapping : Option Json) {pattern : Bool}
    (hstar : pattern = decide ('*' ∈ name.toList)) :
    Starred (addSpec name mapping pattern specs) := by
  induction specs with
  | nil =>
    rintro spec hspec
    cases List.mem_singleton.mp hspec
    exact hstar
  | cons first rest ih =>
    rw [Config.addSpec]
    have hfirst := h first List.mem_cons_self
    split
    · rintro spec hspec
      obtain rfl | hspec := List.mem_cons.mp hspec
      · exact hfirst
      · exact h spec (List.mem_cons_of_mem _ hspec)
    · rintro spec hspec
      obtain rfl | hspec := List.mem_cons.mp hspec
      · exact hfirst
      · exact ih (fun other hother => h other (List.mem_cons_of_mem _ hother)) spec hspec

/-- The pattern of a template has a star, and a fixed index has none. -/
theorem star_mem_pattern {tbl : TableSync} {key spec : String} {pkColumns : List String}
    (h : tbl.indexTarget key pkColumns = .ok (.template spec template)) :
    '*' ∈ (IndexTarget.template spec template).pattern.toList := by
  have husable := usable_of_indexTarget h
  obtain ⟨inner, hpieces⟩ := (pieces_split template.parts).1 husable.column
  have hsplit : (IndexTarget.template spec template).pattern.toList.splitOn '*' =
      pieces false template.parts := splitOn_pattern husable.star
  by_contra hstar
  rw [List.splitOn_eq_singleton hstar, hpieces] at hsplit
  have hlength := congrArg List.length hsplit
  simp at hlength

/-- What each step of a fold does for its own part, and keeps of the others, the fold does for
all. -/
theorem foldlM_map_all {α β σ : Type} (inv : σ → Prop) (has : α → σ → Prop)
    {f : α → Except String β} {g : σ → α → β → σ} {list : List α}
    (hstep : ∀ x ∈ list, ∀ acc y, f x = .ok y → inv acc → inv (g acc x y) ∧ has x (g acc x y) ∧
      ∀ x', has x' acc → has x' (g acc x y))
    {init result : σ} (hinit : inv init)
    (h : list.foldlM (fun acc x => (f x).map (g acc x)) init = .ok result) :
    inv result ∧ (∀ x, has x init → has x result) ∧ ∀ x ∈ list, has x result := by
  induction list generalizing init with
  | nil =>
    cases h
    exact ⟨hinit, fun _ hx => hx, fun x hx => absurd hx List.not_mem_nil⟩
  | cons x list ih =>
    rw [List.foldlM_cons] at h
    obtain ⟨acc, hacc, h⟩ := Except.bind_eq_ok h
    obtain ⟨y, hy, rfl⟩ := Except.map_eq_ok hacc
    obtain ⟨hinv, hhas, hkeep⟩ := hstep x List.mem_cons_self init y hy hinit
    obtain ⟨hresult, hinits, hlist⟩ := ih (fun x' hx' => hstep x' (List.mem_cons_of_mem _ hx')) hinv h
    refine ⟨hresult, fun x' hx' => hinits x' (hkeep x' hx'), fun x' hx' => ?_⟩
    obtain rfl | hx' := List.mem_cons.mp hx'
    · exact hinits x' hhas
    · exact hlist x' hx'

/-- The specs are patterns where they have a star, and the sections' targets are among them. -/
theorem indexSpecs_ok {sync : Dictionary String TableSync} (h : indexSpecs sync = .ok specs) :
    Starred specs ∧
      ∀ e ∈ sync.entries, ∀ target, TableSync.indexTarget e.2 e.1 (pkColumnsFor e.2) = .ok target →
        ∃ spec ∈ specs, spec.name = target.pattern := by
  rw [indexSpecs] at h
  have hall := foldlM_map_all Starred
    (fun e specs => ∀ target,
      TableSync.indexTarget e.2 e.1 (pkColumnsFor e.2) = .ok target →
        ∃ spec ∈ specs, spec.name = target.pattern) ?_ ?_ h
  · exact ⟨hall.1, hall.2.2⟩
  · rintro e - acc target hok hstarred
    have htarget := orBail_ok hok
    cases target with
    | fixed name =>
      have hstar : '*' ∉ name.toList := star_notMem (fixed_of_indexTarget htarget).1
      refine ⟨hstarred.addSpec _ (decide_eq_false hstar).symm, fun target htarget' => ?_,
        fun e' hhas target htarget' => addSpec_keeps (hhas target htarget')⟩
      cases htarget.symm.trans htarget'
      exact addSpec_adds _ _ _ _
    | template spec template =>
      have hstar := star_mem_pattern htarget
      refine ⟨hstarred.addSpec _ (decide_eq_true hstar).symm, fun target htarget' => ?_,
        fun e' hhas target htarget' => addSpec_keeps (hhas target htarget')⟩
      cases htarget.symm.trans htarget'
      exact addSpec_adds _ _ _ _
  · intro spec hspec
    cases hspec

/-- **An index that a row chooses is created for the first row in it.** -/
theorem created_of_render {sync : Dictionary String TableSync} (h : indexSpecs sync = .ok specs)
    {e : String × TableSync} (he : e ∈ sync.entries) {spec : String}
    (htarget : e.2.indexTarget e.1 (pkColumnsFor e.2) = .ok (.template spec template)) {doc : Json}
    (hrender : (IndexTarget.template spec template).render doc = .ok index ∨
      (IndexTarget.template spec template).renderFromPk doc = .ok index) {known : String → Bool}
    (hunknown : known index = false) {batch : List LsnOp} {op : LsnOp} (hop : op ∈ batch)
    (hupsert : op.op.isUpsert = true) (hindex : op.op.index = index) :
    ∃ mapping, (index, mapping) ∈ created known (recorded specs) batch := by
  obtain ⟨hstarred, hspecs⟩ := indexSpecs_ok h
  obtain ⟨found, hfound, hname⟩ := hspecs e he _ htarget
  have hpattern : found.pattern = true := by
    rw [hstarred found hfound, hname]
    exact decide_eq_true (star_mem_pattern htarget)
  have hmatch := IndexTarget.matches_of_render hrender
  obtain ⟨claim, hclaim⟩ : ∃ claim,
      (recorded specs).find? (fun t => indexMatchesPattern t.1 index) = some claim := by
    rw [← Option.isSome_iff_exists, List.find?_isSome]
    exact ⟨_, List.mem_map_of_mem (List.mem_filter.mpr ⟨hfound, hpattern⟩), hname ▸ hmatch⟩
  refine ⟨claim.2, List.mem_filterMap.mpr ⟨op, hop, ?_⟩⟩
  cases hkind : op.op with
  | delete | deleteChildren =>
    rw [hkind] at hupsert
    cases hupsert
  | upsert name id routing doc version pipeline =>
    rw [hkind] at hindex
    obtain rfl : name = index := hindex
    simp only [hunknown, claimingTemplate, hclaim]
    rfl

end Config

/-! ## Patterns -/

/-- **A pattern matches exactly the names that are its literal parts with some text for each
star**, the names that a target renders are matched by its own, what a run of the engine writes for
a table is matched by the table's in all that it is for, and an index that a row chooses is
created. -/
theorem index_patterns_exact :
    (∀ pattern name : String, indexMatchesPattern pattern name = true ↔
      ∃ gaps, gaps.length + 1 = (pattern.toList.splitOn '*').length ∧
        name.toList = spread (pattern.toList.splitOn '*') gaps) ∧
    (∀ (target : IndexTarget) (doc : Json) (name : String),
      target.render doc = .ok name ∨ target.renderFromPk doc = .ok name →
        indexMatchesPattern target.pattern name = true) ∧
    (∀ (engine : Engine) (s e : EngineState) (actions : List EngineAction)
      (writes : List (TableName × DocumentOp)), engine.runWrites s actions = some (writes, e) →
        Engine.opsPut e.log = Engine.opsPut s.log ++ writes.map Prod.snd ∧
          ∀ w ∈ writes, engine.Covers w.1 w.2.index) ∧
    (∀ (sync : Dictionary String Config.TableSync) (specs : List Config.IndexSpec),
      Config.indexSpecs sync = .ok specs → ∀ e ∈ sync.entries, ∀ spec template,
        e.2.indexTarget e.1 (Config.pkColumnsFor e.2) = .ok (.template spec template) →
          ∀ (doc : Json) (index : String), (IndexTarget.template spec template).render doc = .ok index ∨
            (IndexTarget.template spec template).renderFromPk doc = .ok index →
          ∀ (known : String → Bool) (batch : List LsnOp), known index = false →
            (∃ op ∈ batch, op.op.isUpsert = true ∧ op.op.index = index) →
              ∃ mapping, (index, mapping) ∈ Config.created known (Config.recorded specs) batch) := by
  refine ⟨fun pattern name => ?_, fun _ _ _ => IndexTarget.matches_of_render,
    fun _ _ _ _ _ => Engine.runWrites_covers, ?_⟩
  · rw [indexMatchesPattern_iff, fits_iff_spread (List.splitOn_ne_nil _ _)]
  · rintro sync specs hspecs e he spec template htarget doc index hrender known batch hunknown
      ⟨op, hop, hupsert, hindex⟩
    exact Config.created_of_render hspecs he htarget hrender hunknown hop hupsert hindex

end Pg2osync
