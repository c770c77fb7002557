import Pg2osync.LoadPipeSafety

/-!
# What of a copied row is dropped

The engine drops a write of a copied row for one reason: something it put out before has
removed the document at a higher position. It knows this from what it remembers, and
whatever it remembers is something it put out.
-/

namespace Pg2osync

/-- Something that was put out removes a document above a version. -/
def Emitted.outdates (e : Emitted) (index id : String) (version : ℕ) : Bool :=
  match e with
  | .op _ (.delete i d _ (some removed)) => i = index && d = id && version < removed
  | .truncated pattern (some removed) false =>
    version < removed && indexMatchesPattern pattern index
  | _ => false

/-- It removes the document that an operation would write, above the operation. -/
def Emitted.supersedes (e : Emitted) : DocumentOp → Bool
  | .upsert index id _ _ (some version) _ => e.outdates index id version
  | _ => false

/-! ## What is remembered was put out -/

theorem remember_eq_some {ops : List DocumentOp} {known : String × String → Option ℕ}
    {index id : String} {v : ℕ} (h : remember ops known (index, id) = some v) :
    known (index, id) = some v ∨ ∃ routing, .delete index id routing (some v) ∈ ops := by
  induction ops generalizing known with
  | nil => exact .inl h
  | cons op rest ih =>
    obtain hknown | ⟨routing, hmem⟩ := ih h
    · by_cases hsame : rememberOp known op (index, id) = known (index, id)
      · exact .inl (hsame ▸ hknown)
      · cases op with
        | delete i d routing version =>
          cases version with
          | none => exact absurd rfl hsame
          | some w =>
            by_cases hkey : (index, id) = (i, d)
            · cases hkey
              rw [rememberOp, Function.update_self, raiseFloor] at hknown
              have hmax : max ((known (index, id)).getD w) w = v := Option.some.inj hknown
              cases hbefore : known (index, id) with
              | none =>
                simp only [hbefore, Option.getD_none, max_self] at hmax
                exact .inr ⟨routing, hmax ▸ List.mem_cons_self⟩
              | some u =>
                -- the higher of the two is one of them
                simp only [hbefore, Option.getD_some] at hmax
                rcases max_choice u w with hu | hw
                · exact .inl (congrArg some (hu.symm.trans hmax))
                · exact .inr ⟨routing, (hw.symm.trans hmax) ▸ List.mem_cons_self⟩
            · exact absurd (Function.update_of_ne hkey _ _) hsame
        | upsert | deleteChildren => exact absurd rfl hsame
    · exact .inr ⟨routing, List.mem_cons_of_mem _ hmem⟩

theorem mem_raiseCleared {pattern : String} {version : ℕ} {cleared : List (String × ℕ)}
    {c : String × ℕ} (h : c ∈ raiseCleared pattern version cleared) :
    c ∈ cleared ∨ c = (pattern, version) := by
  induction cleared with
  | nil => exact .inr (List.mem_singleton.mp h)
  | cons first rest ih =>
    obtain ⟨p, at_⟩ := first
    rw [raiseCleared] at h
    split at h
    · next hp =>
      rcases List.mem_cons.mp h with rfl | h
      · rcases max_choice at_ version with hmax | hmax
        · rw [hmax]
          exact .inl List.mem_cons_self
        · rw [hmax, hp]
          exact .inr rfl
      · exact .inl (List.mem_cons_of_mem _ h)
    · rcases List.mem_cons.mp h with rfl | h
      · exact .inl List.mem_cons_self
      · exact (ih h).imp_left (List.mem_cons_of_mem _)

variable {op : DocumentOp}

namespace EngineState

variable {e e' e'' : EngineState}

/-- What a step adds to what is remembered, it puts out; it adds nothing while no load runs. -/
structure Recorded (e e' : EngineState) : Prop where
  /-- what is put out, and what of it is remembered -/
  news : ∃ news, e'.log = e.log ++ news ∧
    (∀ index id v, e'.superseded (index, id) = some v → e.superseded (index, id) = some v ∨
      ∃ origin routing, .op origin (.delete index id routing (some v)) ∈ news) ∧
    ∀ c ∈ e'.cleared, c ∈ e.cleared ∨ .truncated c.1 (some c.2) false ∈ news
  /-- no document is added while no load runs -/
  superseded : e.loadRunning = false → e'.superseded = e.superseded
  /-- and no pattern -/
  cleared : e.loadRunning = false → e'.cleared = e.cleared

theorem Recorded.of_eq (hlog : e'.log = e.log) (hsuperseded : e'.superseded = e.superseded)
    (hcleared : e'.cleared = e.cleared) : Recorded e e' where
  news := by
    refine ⟨[], by rw [hlog, List.append_nil], fun index id v h => ?_, fun c hc => ?_⟩
    · rw [hsuperseded] at h
      exact .inl h
    · rw [hcleared] at hc
      exact .inl hc
  superseded _ := hsuperseded
  cleared _ := hcleared

theorem SameWindow.recorded (h : e.SameWindow e') : Recorded e e' :=
  .of_eq h.log h.superseded h.cleared

/-- What is remembered later was remembered before, or has been put out. -/
structure Learns (e e' : EngineState) : Prop where
  /-- what was put out stays -/
  log : e.log <+: e'.log
  /-- and something is remembered only for a reason -/
  reason : ∀ index id v, e'.remembers index id v = true → e.remembers index id v = true ∨
    ∃ emitted ∈ e'.log, emitted.outdates index id v = true

theorem Learns.of_eq (hlog : e'.log = e.log) (hsuperseded : e'.superseded = e.superseded)
    (hcleared : e'.cleared = e.cleared) : Learns e e' where
  log := hlog ▸ List.prefix_refl _
  reason index id v h := by
    rw [remembers, hsuperseded, hcleared] at h
    exact .inl h

theorem Learns.refl (e : EngineState) : Learns e e :=
  .of_eq rfl rfl rfl

theorem Learns.trans (h : Learns e e') (h' : Learns e' e'') : Learns e e'' where
  log := h.log.trans h'.log
  reason index id v hknown := by
    obtain hbefore | hout := h'.reason index id v hknown
    · refine (h.reason index id v hbefore).imp_right ?_
      rintro ⟨emitted, hmem, houtdates⟩
      exact ⟨emitted, h'.log.subset hmem, houtdates⟩
    · exact .inr hout

theorem Recorded.learns (h : Recorded e e') : Learns e e' := by
  obtain ⟨news, hlog, hsuperseded, hcleared⟩ := h.news
  refine ⟨hlog ▸ List.prefix_append _ _, fun index id v hknown => ?_⟩
  rw [remembers, Bool.or_eq_true, Option.any_eq_true, List.any_eq_true] at hknown ⊢
  rw [hlog]
  obtain ⟨removed, hremoved, hlt⟩ | ⟨c, hc, hmatch⟩ := hknown
  · obtain hbefore | ⟨origin, routing, hnew⟩ := hsuperseded index id removed hremoved
    · exact .inl (.inl ⟨removed, hbefore, hlt⟩)
    · refine .inr ⟨_, List.mem_append_right _ hnew, ?_⟩
      simpa [Emitted.outdates] using hlt
  · obtain hbefore | hnew := hcleared c hc
    · exact .inl (.inr ⟨c, hbefore, hmatch⟩)
    · exact .inr ⟨_, List.mem_append_right _ hnew, hmatch⟩

theorem SameWindow.learns (h : e.SameWindow e') : Learns e e' :=
  .of_eq h.log h.superseded h.cleared

theorem Learns.wipe (e : EngineState) : Learns e e.wipe where
  log := List.prefix_refl _
  reason index id v h := by
    have hnothing : e.wipe.remembers index id v = false := rfl
    rw [hnothing] at h
    cases h

theorem Learns.tryNext {held : Bool} {next : Origin × ChangeEvent}
    (h : e.tryNext held = some (next, e')) : Learns e e' := by
  obtain ⟨origin, ev⟩ := next
  obtain ⟨-, rest, -, rfl⟩ | ⟨-, rest, -, rfl⟩ := tryNext_cases h
  · exact .of_eq rfl rfl rfl
  · exact .of_eq rfl rfl rfl

/-- What the engine remembers, it has put out. -/
def Recalls (e : EngineState) : Prop :=
  ∀ index id v, e.remembers index id v = true →
    ∃ emitted ∈ e.log, emitted.outdates index id v = true

theorem Learns.recalls (h : Learns e e') (hrecalls : e.Recalls) : e'.Recalls := by
  intro index id v hknown
  obtain hbefore | hout := h.reason index id v hknown
  · obtain ⟨emitted, hmem, houtdates⟩ := hrecalls index id v hbefore
    exact ⟨emitted, h.log.subset hmem, houtdates⟩
  · exact hout

/-- A write is dropped because of something that was put out. -/
theorem Recalls.of_dead (h : e.Recalls) (hdead : e.dead op = true) :
    ∃ emitted ∈ e.log, emitted.supersedes op = true := by
  cases op with
  | upsert index id routing doc version pipeline =>
    cases version with
    | none => cases hdead
    | some v => exact h index id v hdead
  | delete | deleteChildren => cases hdead

end EngineState

namespace Engine

open EngineState

variable {engine : Engine} {e e' : EngineState}

/-- A truncate is remembered only while a load runs. -/
theorem recorded_truncate (table : TableName) (version : Option ℕ) (e : EngineState) :
    Recorded e (engine.truncate table version e) := by
  rw [truncate]
  split
  · exact .of_eq rfl rfl rfl
  · next pattern only _ =>
    have hrest := sameWindow_handOverRest e
    have hload : e.handOverRest.loadRunning = e.loadRunning := (phase_handOverRest e).2.2
    obtain ⟨cleared, hraised, -⟩ := raiseFloors_eq e.handOverRest pattern version only.isSome
    refine ⟨⟨[.truncated pattern version only.isSome], ?_, ?_, ?_⟩, ?_, ?_⟩
    · rw [hraised]
      exact congrArg (· ++ _) hrest.log
    · intro index id v hknown
      rw [hraised] at hknown
      rw [← hrest.superseded]
      exact .inl hknown
    · intro c hc
      change c ∈ (raiseFloors pattern version only.isSome e.handOverRest).cleared at hc
      unfold raiseFloors at hc
      split at hc
      · next w _ honly =>
        rw [← hrest.cleared]
        refine (mem_raiseCleared hc).imp_right ?_
        rintro rfl
        rw [honly]
        exact List.mem_singleton.mpr rfl
      · rw [← hrest.cleared]
        exact .inl hc
    · intro _
      rw [hraised]
      exact hrest.superseded
    · intro hoff
      change (raiseFloors pattern version only.isSome e.handOverRest).cleared = e.cleared
      unfold raiseFloors
      split
      · next hon _ =>
        rw [hload, hoff] at hon
        cases hon
      · exact hrest.cleared

theorem recorded_bufferOps (settings : EngineSettings) (origin : Origin) (ops : List DocumentOp)
    (e : EngineState) : Recorded e (bufferOps settings origin ops e) := by
  obtain ⟨-, hlog, hsuperseded, hcleared, -⟩ := bufferOps_frame settings origin ops e .idle
  refine ⟨⟨ops.map (.op origin), hlog, fun index id v hknown => ?_, fun c hc => ?_⟩,
    fun hoff => ?_, fun _ => hcleared⟩
  · rw [hsuperseded] at hknown
    split at hknown
    · refine (remember_eq_some hknown).imp_right ?_
      rintro ⟨routing, hmem⟩
      exact ⟨origin, routing, List.mem_map_of_mem hmem⟩
    · exact .inl hknown
  · rw [hcleared] at hc
    exact .inl hc
  · rw [hsuperseded, hoff]
    rfl

theorem learns_handle {settings : EngineSettings} {heldAgain overdue : Bool}
    (hdeferred : e.deferred = none) (next : Origin × ChangeEvent) :
    Learns e (engine.handle settings heldAgain overdue e next) := by
  obtain ⟨origin, ev⟩ := next
  cases ev with
  | begin | row | loadStarted | schemaDrift => exact .of_eq rfl rfl rfl
  | commit lsn => exact (SameWindow.commit lsn heldAgain overdue hdeferred).learns
  | loadFinished => exact .wipe e
  | tableTruncated table version => exact (recorded_truncate table version e).learns
  | loadMark mark =>
    rw [handle, EngineState.mark]
    refine (Learns.wipe e).trans ?_
    dsimp only
    split
    · exact .of_eq rfl rfl rfl
    · split
      · exact .of_eq rfl rfl rfl
      · exact .of_eq rfl rfl rfl

/-- **The engine remembers only what it has put out.** -/
theorem learns {action : EngineAction} (hstep : engine.step e action = some e') : Learns e e' := by
  cases does hstep with
  | turned hidle htake =>
    obtain ⟨-, hdeferred, -, -, hlog, hsuperseded, hcleared, -⟩ := pending_of_takeEvent hidle htake
    exact (Learns.of_eq hlog hsuperseded hcleared).trans (learns_handle hdeferred _)
  | gathered _ htry | putAside _ htry => exact (Learns.tryNext htry).trans (.of_eq rfl rfl rfl)
  | wrote _ hwrite =>
    obtain ⟨-, rfl⟩ | ⟨target, ops, left, -, -, rfl⟩ := writeRow_ok hwrite
    · exact .of_eq rfl rfl rfl
    · exact (recorded_bufferOps _ _ _ e).learns.trans (.of_eq rfl rfl rfl)
  | closedCopy => exact (Learns.wipe e).trans (.of_eq rfl rfl rfl)
  | fed | fedCopy | grouped | fetched | unread | unwritten | written | closedEvents | stopped
    | cutOff => exact .of_eq rfl rfl rfl

end Engine

/-! ## The rows of a load -/

namespace PipeState

variable {τ : Type} {s s' : PipeState τ}

/-- An operation is dropped: what was put out before removes its document above it. -/
def Dropped (s : PipeState τ) (op : DocumentOp) : Prop :=
  ∃ emitted ∈ s.engine.log, emitted.supersedes op = true

/-- What is not put out for a row is dropped. -/
structure DropInv (s : PipeState τ) : Prop where
  /-- what is remembered was put out -/
  recalls : s.engine.Recalls
  /-- and what is left out of a row is superseded -/
  dropped : ∀ row ∈ s.written, ∀ op ∈ row.ops, op ∈ row.out ∨ s.Dropped op

theorem DropInv.start : (PipeState.start τ).DropInv where
  recalls _ _ _ h := nomatch h
  dropped _ h := absurd h List.not_mem_nil

theorem Dropped.mono (h : s.Dropped op) (hlog : s.engine.log <+: s'.engine.log) :
    s'.Dropped op := by
  obtain ⟨emitted, hmem, hsupersedes⟩ := h
  exact ⟨emitted, hlog.subset hmem, hsupersedes⟩

/-- The rows that are written are those that were. -/
theorem DropInv.still (h : s.DropInv) (hlearns : s.engine.Learns s'.engine)
    (hwritten : s'.written = s.written) : s'.DropInv where
  recalls := hlearns.recalls h.recalls
  dropped row hrow op hop := by
    rw [hwritten] at hrow
    exact (h.dropped row hrow op hop).imp_right fun hdropped => hdropped.mono hlearns.log

end PipeState

namespace Engine

/-- What is left out of a row that is written is dead. -/
theorem dead_of_writtenRow {engine : Engine} {e e' : EngineState} {action : EngineAction}
    {row : WrittenRow} (hrow : row ∈ engine.writtenRow e e' action) (hop : op ∈ row.ops) :
    op ∈ row.out ∨ e.dead op = true := by
  simp only [writtenRow] at hrow
  split at hrow
  · obtain rfl := List.mem_singleton.mp hrow
    cases hdead : e.dead op with
    | true => exact .inr rfl
    | false => exact .inl (List.mem_filter.mpr ⟨hop, by rw [hdead]; rfl⟩)
  · exact absurd hrow List.not_mem_nil

end Engine

namespace Pipeline

open PipeState

variable {p : Pipeline} {τ : Type} {s s' : PipeState τ}

theorem feedCopy_drop (h : s.DropInv) {ev : ChangeEvent} (hfeed : p.feedCopy s ev = some s') :
    s'.DropInv := by
  rw [feedCopy_eq hfeed]
  exact h.still (.of_eq rfl rfl rfl) rfl

theorem step_drop (h : s.DropInv) {action : PipeAction τ} (hstep : p.step s action = some s') :
    s'.DropInv := by
  cases action with
  | row tag change =>
    obtain ⟨t, ht, rfl⟩ := Option.map_eq_some_iff.mp hstep
    exact (feedCopy_drop h ht).still (.refl _) rfl
  | copy event =>
    simp only [step] at hstep
    split at hstep
    · exact feedCopy_drop h hstep
    · cases hstep
  | take =>
    cases hstep
    exact h.still (.refl _) rfl
  | mark mark =>
    simp only [step] at hstep
    split at hstep
    · obtain ⟨t, ht, rfl⟩ := Option.map_eq_some_iff.mp hstep
      exact (feedCopy_drop h ht).still (.refl _) rfl
    · cases hstep
  | engine action =>
    simp only [step] at hstep
    split at hstep
    · obtain ⟨e, he, rfl⟩ := Option.map_eq_some_iff.mp hstep
      have hlearns := Engine.learns he
      refine ⟨hlearns.recalls h.recalls, fun row hrow op hop => ?_⟩
      obtain hold | hnew := List.mem_append.mp hrow
      · exact (h.dropped row hold op hop).imp_right fun hdropped => hdropped.mono hlearns.log
      · refine (Engine.dead_of_writtenRow hnew hop).imp_right fun hdead => ?_
        have hdropped : s.Dropped op := h.recalls.of_dead hdead
        exact hdropped.mono hlearns.log
    · cases hstep
  | sink action =>
    simp only [step] at hstep
    split at hstep
    · obtain ⟨k, hk, rfl⟩ := Option.map_eq_some_iff.mp hstep
      exact h.still (.refl _) rfl
    · cases hstep

end Pipeline

end Pg2osync
