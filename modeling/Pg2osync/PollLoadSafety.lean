import Mathlib.Data.List.Perm.Basic
import Pg2osync.PollDocuments

/-!
# When the load and the poll agree

A row is due at its place: the poll has it still to read, or its change is the last one on
the way there, or nothing of the poll is on the way and the target shows the row or will be
given it by the load. Every step keeps this of every place, as long as nothing older
overtakes a newer state and no row slips past the watermark.
-/

namespace Pg2osync

open PollState EngineState

/-! ## An engine that drops nothing -/

/-- Nothing that was put out removes anything at a position, and no table is truncated. -/
structure EngineState.Calm (e : EngineState) : Prop where
  /-- it gathers with nothing put aside -/
  tidy : e.Tidy
  /-- what it remembers was put out -/
  recalls : e.Recalls
  /-- nothing is removed at a position -/
  removals : ∀ emitted ∈ e.log, ∀ index id v, emitted.outdates index id v = false
  /-- no table is truncated -/
  whole : ∀ origin, ∀ ev ∈ e.pending origin, ∀ table version, ev ≠ .tableTruncated table version

variable {ev : ChangeEvent} {action : EngineAction}

namespace EngineState.Calm

variable {engine : Engine} {e e' : EngineState}

theorem start : start.Calm where
  tidy := {
    gathers := fun _ _ h => by cases h
    stream := fun _ h => absurd h List.not_mem_nil }
  recalls _ _ _ h := nomatch h
  removals _ h := absurd h List.not_mem_nil
  whole origin _ h := by cases origin <;> exact absurd h List.not_mem_nil

/-- A calm engine drops nothing. -/
theorem outOf_eq (h : e.Calm) (completions : Completions) (row : RowChange) :
    engine.outOf e completions row = engine.opsOf completions row := by
  refine List.filter_eq_self.mpr fun op _ => ?_
  cases hdead : e.dead op with
  | false => rfl
  | true =>
    obtain ⟨emitted, hmem, hsupersedes⟩ := h.recalls.of_dead hdead
    cases op with
    | upsert index id routing doc version pipeline =>
      cases version with
      | none => cases hdead
      | some v =>
        have hnone := h.removals emitted hmem index id v
        rw [Emitted.supersedes, hnone] at hsupersedes
        cases hsupersedes
    | delete | deleteChildren => cases hdead

theorem feed (h : e.Calm) (hstream : ev.isStream = true)
    (hwhole : ∀ table version, ev ≠ .tableTruncated table version) :
    ({ e with events := e.events ++ [ev] } : EngineState).Calm where
  tidy := h.tidy.feed hstream
  recalls := h.recalls
  removals := h.removals
  whole origin other hother := by
    rw [Engine.pending_feed, List.mem_append] at hother
    obtain hold | hnew := hother
    · exact h.whole origin other hold
    · split at hnew
      · exact List.mem_singleton.mp hnew ▸ hwhole
      · exact absurd hnew List.not_mem_nil

theorem feedCopy (h : e.Calm) (hwhole : ∀ table version, ev ≠ .tableTruncated table version) :
    ({ e with copy := e.copy ++ [ev] } : EngineState).Calm where
  tidy := h.tidy.feedCopy
  recalls := h.recalls
  removals := h.removals
  whole origin other hother := by
    rw [Engine.pending_feedCopy, List.mem_append] at hother
    obtain hold | hnew := hother
    · exact h.whole origin other hold
    · split at hnew
      · exact List.mem_singleton.mp hnew ▸ hwhole
      · exact absurd hnew List.not_mem_nil

/-- What the engine does leaves it calm, if the row it materialises removes nothing at a
position. -/
theorem step (h : e.Calm) (hsent : ∀ ev, action ≠ .feed ev ∧ action ≠ .feedCopy ev)
    (hstep : engine.step e action = some e') (hrunning : ∀ result, e'.phase ≠ .ended result)
    (hrow : ∀ settings completions origin row rest,
      e.phase = .writing settings completions ((origin, row) :: rest) →
      ∀ op ∈ engine.opsOf completions row, ∀ index id v,
        (Emitted.op origin op).outdates index id v = false) : e'.Calm := by
  have hbeside : action.besideLoads = true := by
    cases action with
    | feed ev => exact absurd rfl (hsent ev).1
    | feedCopy ev => exact absurd rfl (hsent ev).2
    | _ => rfl
  have htidy := (Engine.copyStep h.tidy hbeside hstep hrunning).2
  have hrecalls := (Engine.learns hstep).recalls h.recalls
  obtain ⟨handled, hpending, -, hlog⟩ | ⟨settings, completions, origin, row, rest, -, hphase, hhead,
    hother, hlog, -⟩ := Engine.rowStep h.tidy.gathers hsent hstep hrunning
  · refine ⟨htidy, hrecalls, ?_, fun origin ev hev => h.whole origin ev ?_⟩
    · obtain hsame | ⟨origin, table, version, hmem⟩ := hlog
      · rw [hsame]
        exact h.removals
      · have hpresent : ChangeEvent.tableTruncated table version ∈ e.pending origin := by
          rw [hpending]
          exact List.mem_append_left _ hmem
        exact absurd rfl (h.whole origin _ hpresent table version)
    · rw [hpending]
      exact List.mem_append_right _ hev
  · refine ⟨htidy, hrecalls, fun emitted hmem => ?_, fun o ev hev => h.whole o ev ?_⟩
    · rw [hlog, List.mem_append, h.outOf_eq] at hmem
      obtain hold | hnew := hmem
      · exact h.removals emitted hold
      · obtain ⟨op, hop, rfl⟩ := List.mem_map.mp hnew
        exact hrow settings completions origin row rest hphase op hop
    · by_cases ho : o = origin
      · subst ho
        rw [hhead]
        exact List.mem_cons_of_mem _ hev
      · exact hother o ho ▸ hev

end EngineState.Calm

namespace PollMode

variable {ι κ ρ : Type} {m : PollMode ι κ ρ} {s s' : PollState ι ρ} {row : ρ} {key : DocKey}

/-! ## The invariant -/

/-- The last change of the poll on the way to a place. -/
def lastPoll (m : PollMode ι κ ρ) (s : PollState ι ρ) (key : DocKey) : Option RowChange :=
  (s.polls.filter fun change => m.engine.filedUnder change = some key).getLast?

theorem lastPoll_eq_none : m.lastPoll s key = none ↔
    ∀ change ∈ s.polls, m.engine.filedUnder change ≠ some key := by
  rw [lastPoll, List.getLast?_eq_none_iff, List.filter_eq_nil_iff]
  simp only [decide_eq_true_eq, ne_eq]

theorem quiet_iff : m.quiet s key = true ↔
    (∀ change ∈ s.polls, m.engine.filedUnder change ≠ some key) ∧
      ∀ copy ∈ s.copies, m.engine.filedUnder copy ≠ some key := by
  simp only [quiet, List.all_append, Bool.and_eq_true, List.all_eq_true, decide_eq_true_eq]

theorem shows_iff : m.shows s key row = true ↔ (m.slot s key).content ∈ m.shown row := by
  rw [shows, List.contains_iff_mem]

/-- Nothing shows a row that is not live. -/
theorem shows_of_gone (hempty : m.slot s key = none) (hgone : m.live row = false) :
    m.shows s key row = true := by
  rw [shows_iff, hempty, shown, hgone]
  exact List.mem_singleton.mpr rfl

variable [LinearOrder κ]

/-- Every row is in some range. -/
theorem exists_inRange (row : ρ) : ∃ n range, n < (rangesFromBounds
      (m.table (m.tableOf row)).boundaries).length ∧
    m.range (m.tableOf row) n = some range ∧ m.inRange row range = true := by
  obtain ⟨range, hmem, hholds⟩ := exists_range (m.table (m.tableOf row)).meaning
    ((m.table (m.tableOf row)).key row) (m.table (m.tableOf row)).boundaries
  obtain ⟨n, hn⟩ := List.getElem?_of_mem hmem
  refine ⟨n, range, (List.getElem?_eq_some_iff.mp hn).1, hn, ?_⟩
  simp only [inRange, hholds, Bool.or_true]

variable [DecidableEq ι]

/-- The load will give the target a row, under a document that was never written. -/
def Coming (m : PollMode ι κ ρ) (s : PollState ι ρ) (key : DocKey) (row : ρ) : Prop :=
  m.slot s key = none ∧ (m.unread s row = true ∨ ∃ lsn, m.copied lsn row ∈ s.copies)

/-- The target will show a row. -/
def Due (m : PollMode ι κ ρ) (s : PollState ι ρ) (key : DocKey) (row : ρ) : Prop :=
  m.selected s.watermarks row = true ∨ m.lastPoll s key = some (m.polled row) ∨
    m.lastPoll s key = none ∧ (m.shows s key row = true ∨ m.Coming s key row)

/-- What holds all the time. -/
structure PollBase (m : PollMode ι κ ρ) (s : PollState ι ρ) : Prop where
  /-- the engine drops nothing -/
  calm : s.engine.Calm
  /-- the load and the poll take every row alike -/
  alike : ∀ row, some row ∈ s.rows → m.alike row = true
  /-- no two of which have one document -/
  apart : (m.places s.rows).Nodup
  /-- what the load sends are rows -/
  copies : ∀ copy ∈ s.copies, ∃ lsn row, copy = m.copied lsn row ∧ m.alike row = true ∧
    m.live row = true
  /-- and what the poll sends -/
  polls : ∀ change ∈ s.polls, ∃ row, change = m.polled row ∧ m.alike row = true

/-- What holds before the poll begins. -/
structure Loading (m : PollMode ι κ ρ) (s : PollState ι ρ) : Prop where
  /-- it sends nothing -/
  noPolls : s.polls = []
  /-- what the load sends it has read -/
  copies : ∀ copy ∈ s.copies, ∃ read ∈ s.seen, ∃ lsn, copy = m.copied lsn read.2 ∧
    m.live read.2 = true
  /-- as rows -/
  alike : ∀ read ∈ s.seen, m.alike read.2 = true
  /-- of some place -/
  inside : ∀ read ∈ s.seen, read.1 < s.rows.length
  /-- what is held was read -/
  held : ∀ key, m.slot s key ≠ none → ∃ read ∈ s.seen, m.place read.2 = some key ∧
    (m.slot s key).content ∈ m.shown read.2
  /-- what was read is held, or on its way -/
  coming : ∀ read ∈ s.seen, m.live read.2 = true → ∀ key, m.place read.2 = some key →
    m.slot s key ≠ none ∨ ∃ lsn, m.copied lsn read.2 ∈ s.copies

/-- What holds once it has begun. -/
structure Polling (m : PollMode ι κ ρ) (s : PollState ι ρ) : Prop where
  /-- every row is due -/
  due : ∀ row, some row ∈ s.rows → ∀ key, m.place row = some key → m.Due s key row
  /-- where no row is, nothing is and nothing is on its way -/
  clean : ∀ key, (∀ row, some row ∈ s.rows → m.place row ≠ some key) →
    m.quiet s key = true ∧ (m.slot s key).content = none

/-- What holds while the pipeline is up. -/
structure PollInv (m : PollMode ι κ ρ) (s : PollState ι ρ) : Prop where
  /-- all the time -/
  base : m.PollBase s
  /-- at first -/
  loading : s.begun = false → m.Loading s
  /-- later -/
  polling : s.begun = true → m.Polling s

/-! ## What the invariant is about -/

theorem unread_eq_false : m.unread s row = false ↔ ∃ n range, (m.tableOf row, n) ∈ s.readRanges ∧
    m.range (m.tableOf row) n = some range ∧ m.inRange row range = true := by
  rw [unread, List.all_eq_false]
  constructor
  · rintro ⟨⟨i, n⟩, hmem, hread⟩
    simp only [ne_eq, decide_not, Bool.or_eq_true, Bool.not_eq_true', decide_eq_false_iff_not,
      not_or, not_not, Bool.not_eq_true] at hread
    obtain ⟨rfl, hrange⟩ := hread
    cases hsome : m.range (m.tableOf row) n with
    | none => rw [hsome] at hrange; cases hrange
    | some range =>
      rw [hsome, Option.all_some, Bool.not_eq_false'] at hrange
      exact ⟨n, range, hmem, hsome, hrange⟩
  · rintro ⟨n, range, hmem, hrange, hin⟩
    exact ⟨_, hmem, by simp [hrange, hin]⟩

/-- What is caught up is shown. -/
theorem Polling.agrees (hbase : m.PollBase s) (h : m.Polling s) (hdone : m.CaughtUp s) :
    m.Agrees s := by
  have hshown : ∀ row, some row ∈ s.rows → ∀ key, m.place row = some key →
      m.shows s key row = true := by
    intro row hrow key hkey
    obtain hselected | hlast | ⟨-, hshows | ⟨hnone, hunread | ⟨lsn, hcopy⟩⟩⟩ := h.due row hrow key hkey
    · rw [hdone.polled row hrow] at hselected
      cases hselected
    · rw [lastPoll, hdone.noPolls] at hlast
      cases hlast
    · exact hshows
    · -- the range that the row is in was read
      obtain ⟨n, range, hn, hrange, hin⟩ := exists_inRange (m := m) row
      have hread := unread_eq_false.mpr ⟨n, range, hdone.loaded _ n hn, hrange, hin⟩
      rw [hunread] at hread
      cases hread
    · rw [hdone.noCopies] at hcopy
      exact absurd hcopy List.not_mem_nil
  refine ⟨fun row hrow => ?_, fun key hcontent => ?_⟩
  · obtain ⟨key, d, -, hkey, -⟩ := alike_spec (hbase.alike row hrow)
    exact ⟨key, hkey, hshown row hrow key hkey⟩
  · by_cases hrow : ∃ row, some row ∈ s.rows ∧ m.place row = some key
    · obtain ⟨row, hmem, hkey⟩ := hrow
      refine ⟨row, hmem, hkey, ?_⟩
      by_contra hgone
      have hcontained := shows_iff.mp (hshown row hmem key hkey)
      rw [shown, if_neg hgone, List.mem_singleton] at hcontained
      exact hcontent hcontained
    · exact absurd (h.clean key fun row hmem hkey => hrow ⟨row, hmem, hkey⟩).2 hcontent

/-! ## Steps that nothing comes of -/

/-- Two states with the same rows, of which the same is on its way and held. -/
structure Still (m : PollMode ι κ ρ) (s s' : PollState ι ρ) : Prop where
  /-- the rows -/
  rows : s'.rows = s.rows
  /-- what was read -/
  readRanges : s'.readRanges = s.readRanges
  /-- and as what -/
  seen : s'.seen = s.seen
  /-- the watermarks -/
  watermarks : s'.watermarks = s.watermarks
  /-- whether the poll has begun -/
  begun : s'.begun = s.begun
  /-- what of it is on its way -/
  polls : s'.polls = s.polls
  /-- what of the load is -/
  copies : ∀ copy, copy ∈ s'.copies ↔ copy ∈ s.copies
  /-- what is held -/
  slot : ∀ key, m.slot s' key = m.slot s key

theorem Still.due (h : m.Still s s') (hdue : m.Due s key row) : m.Due s' key row := by
  have hlast : m.lastPoll s' key = m.lastPoll s key := by rw [lastPoll, lastPoll, h.polls]
  have hshows : m.shows s' key row = m.shows s key row := by rw [shows, shows, h.slot]
  have hunread : m.unread s' row = m.unread s row := by rw [unread, unread, h.readRanges]
  have hcoming : m.Coming s key row → m.Coming s' key row := by
    rintro ⟨hnone, hway⟩
    refine ⟨(h.slot key).trans hnone, hway.imp (fun hfresh => hunread.trans hfresh) ?_⟩
    rintro ⟨lsn, hcopy⟩
    exact ⟨lsn, (h.copies _).mpr hcopy⟩
  rw [Due, h.watermarks, hlast, hshows]
  exact hdue.imp_right (Or.imp_right (And.imp_right (Or.imp_right hcoming)))

omit [LinearOrder κ] [DecidableEq ι] in
theorem Still.quiet (h : m.Still s s') (hquiet : m.quiet s key = true) : m.quiet s' key = true := by
  rw [quiet_iff] at hquiet ⊢
  rw [h.polls]
  exact ⟨hquiet.1, fun copy hcopy => hquiet.2 copy ((h.copies copy).mp hcopy)⟩

theorem PollInv.still (h : m.PollInv s) (hcalm : s'.engine.Calm) (hstill : m.Still s s') :
    m.PollInv s' where
  base := {
    calm := hcalm
    alike := fun row hrow => h.base.alike row (hstill.rows ▸ hrow)
    apart := hstill.rows ▸ h.base.apart
    copies := fun copy hcopy => h.base.copies copy ((hstill.copies copy).mp hcopy)
    polls := hstill.polls ▸ h.base.polls }
  loading hbegun := by
    obtain ⟨hpolls, hcopies, halike, hinside, hheld, hcoming⟩ :=
      h.loading (hstill.begun ▸ hbegun)
    refine ⟨hstill.polls.trans hpolls, fun copy hcopy => ?_, ?_, ?_, fun key hkey => ?_,
      fun read hread hlive key hkey => ?_⟩
    · rw [hstill.seen]
      exact hcopies copy ((hstill.copies copy).mp hcopy)
    · rw [hstill.seen]
      exact halike
    · rw [hstill.seen, hstill.rows]
      exact hinside
    · rw [hstill.slot] at hkey ⊢
      rw [hstill.seen]
      exact hheld key hkey
    · rw [hstill.slot]
      refine (hcoming read (hstill.seen ▸ hread) hlive key hkey).imp_right ?_
      rintro ⟨lsn, hcopy⟩
      exact ⟨lsn, (hstill.copies _).mpr hcopy⟩
  polling hbegun := by
    obtain ⟨hdue, hclean⟩ := h.polling (hstill.begun ▸ hbegun)
    refine ⟨fun row hrow key hkey => hstill.due (hdue row (hstill.rows ▸ hrow) key hkey),
      fun key hnone => ?_⟩
    obtain ⟨hquiet, hcontent⟩ := hclean key (hstill.rows ▸ hnone)
    exact ⟨hstill.quiet hquiet, by rw [hstill.slot, hcontent]⟩

variable {e : EngineState}

/-- The load sends an event, and what is not sent yet is without its row. -/
theorem PollInv.fedCopy (h : m.PollInv s)
    (hwhole : ∀ table version, ev ≠ .tableTruncated table version)
    (hfeed : m.engine.step s.engine (.feedCopy ev) = some e) {unsent : List RowChange}
    (hunsent : ∀ copy, copy ∈ s.unsent ↔ copy ∈ ev.rowOf.toList ∨ copy ∈ unsent) :
    m.PollInv { s with engine := e, unsent := unsent } := by
  cases Engine.does hfeed with
  | fedCopy =>
    refine h.still (h.base.calm.feedCopy hwhole)
      ⟨rfl, rfl, rfl, rfl, rfl, ?_, fun copy => ?_, fun _ => rfl⟩
    · rw [polls, rowsOf_feedCopy, if_neg Origin.noConfusion, List.append_nil]
      rfl
    · simp only [copies, rowsOf_feedCopy, if_true, List.mem_append, hunsent,
        or_assoc]

/-- The poll sends an event, and its cycle goes on without its row. -/
theorem PollInv.fed (h : m.PollInv s) (hstream : ev.isStream = true)
    (hwhole : ∀ table version, ev ≠ .tableTruncated table version)
    (hfeed : m.engine.step s.engine (.feed ev) = some e) {page : List RowChange}
    (hpage : s.page = ev.rowOf.toList ++ page) :
    m.PollInv { s with engine := e, page := page } := by
  cases Engine.does hfeed with
  | fed =>
    refine h.still (h.base.calm.feed hstream hwhole)
      ⟨rfl, rfl, rfl, rfl, rfl, ?_, fun copy => ?_, fun _ => rfl⟩
    · rw [polls, polls, rowsOf_feed, if_pos rfl, hpage,
        List.append_assoc]
    · rw [copies, rowsOf_feed, if_neg Origin.noConfusion, List.append_nil]
      rfl

/-! ## The tables change -/

/-- A place of a table holds another row. -/
theorem PollInv.change (h : m.PollInv s) {rows : List (Option ρ)} (old : Option ρ) {new : Option ρ}
    (hnew : ∀ row, some row ∈ rows → new = some row ∨ some row ∈ s.rows)
    (hold : ∀ row, some row ∈ s.rows → some row ∈ rows ∨ old = some row)
    (hin : ∀ row, new = some row → some row ∈ rows) (hlength : s.rows.length ≤ rows.length)
    (hapart : (m.places rows).Nodup) (halike : ∀ row, new = some row → m.alike row = true)
    (hleaves : s.begun = true → ∀ row, old = some row → m.leavesRightly s row new = true)
    (harrives : s.begun = true → ∀ row, new = some row → m.arrivesRightly s row = true) :
    m.PollInv { s with rows := rows } where
  base := {
    calm := h.base.calm
    alike := fun row hrow => (hnew row hrow).elim (halike row) (h.base.alike row)
    apart := hapart
    copies := h.base.copies
    polls := h.base.polls }
  loading hbegun := by
    obtain ⟨hpolls, hcopies, hseen, hinside, hheld, hcoming⟩ := h.loading hbegun
    exact ⟨hpolls, hcopies, hseen, fun read hread => (hinside read hread).trans_le hlength, hheld,
      hcoming⟩
  polling hbegun := by
    obtain ⟨hdue, hclean⟩ := h.polling hbegun
    refine ⟨fun row hrow key hkey => ?_, fun key hnone => ?_⟩
    · obtain hchanged | hstays := hnew row hrow
      · have hrightly := harrives hbegun row hchanged
        simp only [arrivesRightly, hkey, Option.all_some, Bool.or_eq_true, Bool.and_eq_true,
          decide_eq_true_eq] at hrightly
        obtain hselected | ⟨hquiet, hshown⟩ := hrightly
        · exact .inl hselected
        · refine .inr (.inr ⟨lastPoll_eq_none.mpr (quiet_iff.mp hquiet).1, ?_⟩)
          obtain ⟨hunread, hempty⟩ | hshows := hshown
          · exact .inr ⟨hempty, .inl hunread⟩
          · exact .inl hshows
      · exact hdue row hstays key hkey
    · by_cases hrow : ∃ row, some row ∈ s.rows ∧ m.place row = some key
      · obtain ⟨row, hmem, hkey⟩ := hrow
        obtain hstays | hleft := hold row hmem
        · exact absurd hkey (hnone row hstays)
        · have hrightly := hleaves hbegun row hleft
          simp only [leavesRightly, hkey, Option.all_some, Bool.or_eq_true, Bool.and_eq_true,
            decide_eq_true_eq] at hrightly
          obtain hkept | hgone := hrightly
          · obtain ⟨next, hnext, hplace⟩ := Option.bind_eq_some_iff.mp hkept
            exact absurd hplace (hnone next (hin next hnext))
          · exact hgone
      · exact hclean key fun row hmem hkey => hrow ⟨row, hmem, hkey⟩

/-! ## The load reads -/

omit [LinearOrder κ] [DecidableEq ι] in
theorem mem_rowsWhere {test : ρ → Bool} {k : ℕ} :
    (k, row) ∈ s.rowsWhere test ↔ s.rows[k]? = some (some row) ∧ test row = true := by
  simp only [rowsWhere, List.mem_filterMap, Prod.exists, List.mk_mem_zipIdx_iff_getElem?]
  constructor
  · rintro ⟨slot, n, hslot, hrow⟩
    obtain ⟨other, rfl, hother⟩ := Option.bind_eq_some_iff.mp hrow
    split at hother
    · next htest =>
      cases hother
      exact ⟨hslot, htest⟩
    · cases hother
  · rintro ⟨hslot, htest⟩
    exact ⟨some row, k, hslot, by simp [htest]⟩

variable {copy : RowChange} {i : ι}

/-- What the load sends of a range that it reads. -/
theorem mem_read {range : KeyRange} {lsn : Lsn} :
    copy ∈ (m.load i).copied ⟨range, lsn, (s.rowsWhere fun row => m.tableOf row = i).map Prod.snd⟩ ↔
      ∃ (k : ℕ) (row : ρ), s.rows[k]? = some (some row) ∧ m.tableOf row = i ∧
        m.inRange row range = true ∧ (m.table i).selects row = true ∧ copy = m.copied lsn row := by
  simp only [LoadTable.copied, List.mem_map, List.mem_filter, Prod.exists, exists_eq_right,
    mem_rowsWhere, decide_eq_true_eq]
  constructor
  · rintro ⟨row, ⟨⟨k, hk, rfl⟩, hasked⟩, rfl⟩
    rw [Bool.and_eq_true] at hasked
    exact ⟨k, row, hk, rfl, hasked.1, hasked.2, rfl⟩
  · rintro ⟨k, row, hk, rfl, hin, hselects, rfl⟩
    exact ⟨row, ⟨⟨k, hk, rfl⟩, Bool.and_eq_true_iff.mpr ⟨hin, hselects⟩⟩, rfl⟩

/-- The load reads a range. -/
theorem PollInv.read (h : m.PollInv s) {n : ℕ} {range : KeyRange}
    (hrange : m.range i n = some range) (lsn : Lsn) :
    m.PollInv { s with
      readRanges := (i, n) :: s.readRanges
      unsent := s.unsent ++ (m.load i).copied
        ⟨range, lsn, (s.rowsWhere fun row => m.tableOf row = i).map Prod.snd⟩
      seen := s.seen ++ (s.rowsWhere fun row => m.tableOf row = i).filter
        fun row => m.inRange row.2 range } := by
  set news := (m.load i).copied
    ⟨range, lsn, (s.rowsWhere fun row => m.tableOf row = i).map Prod.snd⟩ with hnews
  have hcopies : ∀ copy, copy ∈ s.engine.rowsOf .copy ++ (s.unsent ++ news) ↔
      copy ∈ s.copies ∨ copy ∈ news := fun copy => by
    rw [← List.append_assoc, List.mem_append]
    rfl
  have hnew : ∀ copy ∈ news, ∃ (k : ℕ) (row : ρ), s.rows[k]? = some (some row) ∧ m.tableOf row = i ∧
      m.inRange row range = true ∧ copy = m.copied lsn row ∧ m.alike row = true ∧
        m.live row = true := by
    intro copy hcopy
    obtain ⟨k, row, hk, htable, hin, hselects, rfl⟩ := mem_read.mp hcopy
    have halike := h.base.alike row (List.mem_of_getElem? hk)
    obtain ⟨-, -, -, -, hagree, -⟩ := alike_spec halike
    rw [htable, hselects] at hagree
    exact ⟨k, row, hk, htable, hin, rfl, halike, hagree.symm⟩
  have hsent : ∀ (k : ℕ) (row : ρ), s.rows[k]? = some (some row) → m.tableOf row = i →
      m.inRange row range = true → m.live row = true → m.copied lsn row ∈ news := by
    intro k row hk htable hin hlive
    obtain ⟨-, -, -, -, hagree, -⟩ := alike_spec (h.base.alike row (List.mem_of_getElem? hk))
    rw [htable, hlive] at hagree
    exact mem_read.mpr ⟨k, row, hk, htable, hin, hagree, rfl⟩
  have hread : ∀ k row, (k, row) ∈ (s.rowsWhere fun row => m.tableOf row = i).filter
      (fun row => m.inRange row.2 range) ↔ s.rows[k]? = some (some row) ∧ m.tableOf row = i ∧
        m.inRange row range = true := by
    intro k row
    simp only [List.mem_filter, mem_rowsWhere, decide_eq_true_eq, and_assoc]
  refine ⟨⟨h.base.calm, h.base.alike, h.base.apart, fun copy hcopy => ?_, h.base.polls⟩,
    fun hbegun => ?_, fun hbegun => ?_⟩
  · obtain hold | hfresh := (hcopies copy).mp hcopy
    · exact h.base.copies copy hold
    · obtain ⟨k, row, -, -, -, hcopied, halike, hlive⟩ := hnew copy hfresh
      exact ⟨lsn, row, hcopied, halike, hlive⟩
  · obtain ⟨hpolls, hold, halike, hinside, hheld, hcoming⟩ := h.loading hbegun
    refine ⟨hpolls, fun copy hcopy => ?_, fun read hmem => ?_, fun read hmem => ?_,
      fun key hkey => ?_, fun read hmem hlive key hkey => ?_⟩
    · obtain hsame | hfresh := (hcopies copy).mp hcopy
      · obtain ⟨read, hmem, hcopied⟩ := hold copy hsame
        exact ⟨read, List.mem_append_left _ hmem, hcopied⟩
      · obtain ⟨k, row, hk, htable, hin, hcopied, -, hlive⟩ := hnew copy hfresh
        exact ⟨(k, row), List.mem_append_right _ ((hread k row).mpr ⟨hk, htable, hin⟩), lsn,
          hcopied, hlive⟩
    · obtain hsame | hfresh := List.mem_append.mp hmem
      · exact halike read hsame
      · exact h.base.alike read.2 (List.mem_of_getElem? ((hread read.1 read.2).mp hfresh).1)
    · obtain hsame | hfresh := List.mem_append.mp hmem
      · exact hinside read hsame
      · exact (List.getElem?_eq_some_iff.mp ((hread read.1 read.2).mp hfresh).1).1
    · obtain ⟨read, hmem, hshown⟩ := hheld key hkey
      exact ⟨read, List.mem_append_left _ hmem, hshown⟩
    · obtain hsame | hfresh := List.mem_append.mp hmem
      · refine (hcoming read hsame hlive key hkey).imp_right ?_
        rintro ⟨at_, hcopy⟩
        exact ⟨at_, (hcopies _).mpr (.inl hcopy)⟩
      · obtain ⟨hk, htable, hin⟩ := (hread read.1 read.2).mp hfresh
        exact .inr ⟨lsn, (hcopies _).mpr (.inr (hsent read.1 read.2 hk htable hin hlive))⟩
  · obtain ⟨hdue, hclean⟩ := h.polling hbegun
    refine ⟨fun row hrow key hkey => ?_, fun key hnone => ?_⟩
    · obtain hselected | hlast | ⟨hlast, hshows | ⟨hempty, hway⟩⟩ := hdue row hrow key hkey
      · exact .inl hselected
      · exact .inr (.inl hlast)
      · exact .inr (.inr ⟨hlast, .inl hshows⟩)
      · refine .inr (.inr ⟨hlast, ?_⟩)
        obtain hunread | ⟨at_, hcopy⟩ := hway
        · -- a row of this range is sent now; one that is not live is shown by nothing
          cases hfresh : m.unread { s with readRanges := (i, n) :: s.readRanges } row with
          | true => exact .inr ⟨hempty, .inl hfresh⟩
          | false =>
            obtain ⟨n', range', hmem, hrange', hin⟩ := unread_eq_false.mp hfresh
            obtain heq | hold := List.mem_cons.mp hmem
            · obtain ⟨htable, rfl⟩ := Prod.mk.inj heq
              rw [htable, hrange] at hrange'
              obtain rfl := Option.some.inj hrange'
              obtain ⟨k, hk⟩ := List.getElem?_of_mem hrow
              cases hlive : m.live row with
              | true => exact .inr ⟨hempty, .inr ⟨lsn,
                  (hcopies _).mpr (.inr (hsent k row hk htable hin hlive))⟩⟩
              | false => exact .inl (shows_of_gone hempty hlive)
            · have hread := unread_eq_false.mpr ⟨n', range', hold, hrange', hin⟩
              rw [hunread] at hread
              cases hread
        · exact .inr ⟨hempty, .inr ⟨at_, (hcopies _).mpr (.inl hcopy)⟩⟩
    · obtain ⟨hquiet, hcontent⟩ := hclean key hnone
      refine ⟨quiet_iff.mpr ⟨(quiet_iff.mp hquiet).1, fun copy hcopy => ?_⟩, hcontent⟩
      obtain hold | hfresh := (hcopies copy).mp hcopy
      · exact (quiet_iff.mp hquiet).2 copy hold
      · obtain ⟨k, row, hk, -, -, rfl, halike, hlive⟩ := hnew copy hfresh
        rw [filedUnder_copied halike hlive]
        exact hnone row (List.mem_of_getElem? hk)

/-! ## The poll begins -/

omit [LinearOrder κ] [DecidableEq ι] in
/-- No two rows have one place. -/
theorem place_unique (h : (m.places s.rows).Nodup) {k k' : ℕ} {row' : ρ}
    (hk : s.rows[k]? = some (some row)) (hk' : s.rows[k']? = some (some row'))
    (hplace : m.place row = some key) (hplace' : m.place row' = some key) : k = k' := by
  have hpair := List.pairwise_iff_getElem.mp (List.pairwise_filterMap.mp h)
  obtain ⟨hlt, hget⟩ := List.getElem?_eq_some_iff.mp hk
  obtain ⟨hlt', hget'⟩ := List.getElem?_eq_some_iff.mp hk'
  obtain hless | rfl | hless := Nat.lt_trichotomy k k'
  · exact absurd rfl (hpair k k' hlt hlt' hless key (by rw [hget]; exact hplace) key
      (by rw [hget']; exact hplace'))
  · rfl
  · exact absurd rfl (hpair k' k hlt' hlt hless key (by rw [hget']; exact hplace') key
      (by rw [hget]; exact hplace))

omit [LinearOrder κ] [DecidableEq ι] in
theorem mem_readings {k : ℕ} : row ∈ s.readings k ↔ (k, row) ∈ s.seen := by
  simp only [readings, List.mem_map, List.mem_filter, decide_eq_true_eq, Prod.exists,
    exists_eq_right]

/-- Every row is as it was read, or will be seen. -/
theorem PollInv.begin [DecidableEq ρ] (h : m.PollInv s) (hbegun : s.begun = false)
    (hrightly : m.beginsRightly s = true) : m.PollInv { s with begun := true } := by
  obtain ⟨hpolls, hcopies, halike, hinside, hheld, hcoming⟩ := h.loading hbegun
  refine ⟨⟨h.base.calm, h.base.alike, h.base.apart, h.base.copies, h.base.polls⟩, nofun, fun _ => ?_⟩
  have hslots : ∀ (k : ℕ) slot, s.rows[k]? = some slot → _ := fun k slot hk =>
    List.all_eq_true.mp hrightly (slot, k) (List.mk_mem_zipIdx_iff_getElem?.mpr hk)
  -- what was read under a place was read of the row that is there
  have howner : ∀ key, ∀ read ∈ s.seen, m.place read.2 = some key → ∃ row,
      s.rows[read.1]? = some (some row) ∧ m.place row = some key := by
    intro key read hmem hplace
    have hlt := hinside read hmem
    have hreading : read.2 ∈ s.readings read.1 := mem_readings.mpr hmem
    cases hrow : s.rows[read.1] with
    | none =>
      have hnone := hslots read.1 none (hrow ▸ List.getElem?_eq_getElem hlt)
      rw [List.isEmpty_iff] at hnone
      rw [hnone] at hreading
      exact absurd hreading List.not_mem_nil
    | some row =>
      have hk : s.rows[read.1]? = some (some row) := hrow ▸ List.getElem?_eq_getElem hlt
      have hkept := hslots read.1 (some row) hk
      rw [Bool.and_eq_true] at hkept
      have hsame := List.all_eq_true.mp hkept.1 read.2 hreading
      rw [decide_eq_true_eq] at hsame
      exact ⟨row, hk, hsame ▸ hplace⟩
  have hlast : ∀ key, m.lastPoll { s with begun := true } key = none := fun key =>
    lastPoll_eq_none.mpr fun change hchange => absurd (hpolls ▸ hchange) List.not_mem_nil
  refine ⟨fun row hrow key hkey => ?_, fun key hnone => ?_⟩
  · obtain ⟨k, hk⟩ := List.getElem?_of_mem hrow
    -- what is held under its place was read at its own
    have hown : ∀ read ∈ s.seen, m.place read.2 = some key → read.2 ∈ s.readings k := by
      intro read hmem hplace
      obtain ⟨other, hother, hotherPlace⟩ := howner key read hmem hplace
      have hsame := place_unique h.base.apart hk hother hkey hotherPlace
      exact mem_readings.mpr (hsame ▸ hmem)
    have hbegins := hslots k (some row) hk
    rw [Bool.and_eq_true, Bool.or_eq_true] at hbegins
    obtain ⟨-, hselected | hread⟩ := hbegins
    · exact .inl hselected
    · refine .inr (.inr ⟨hlast key, ?_⟩)
      by_cases hempty : m.slot s key = none
      · cases hreadings : s.readings k with
        | nil =>
          rw [hreadings, List.isEmpty_nil, if_pos rfl] at hread
          exact .inr ⟨hempty, .inl hread⟩
        | cons first rest =>
          rw [hreadings, List.isEmpty_cons, if_neg Bool.false_ne_true, List.all_cons,
            Bool.and_eq_true, decide_eq_true_eq] at hread
          obtain ⟨rfl, -⟩ := hread
          have hmem : (k, first) ∈ s.seen :=
            mem_readings.mp (hreadings ▸ List.mem_cons_self)
          cases hlive : m.live first with
          | true =>
            obtain hheld | hcopy := hcoming _ hmem hlive key hkey
            · exact absurd hempty hheld
            · exact .inr ⟨hempty, .inr hcopy⟩
          | false => exact .inl (shows_of_gone hempty hlive)
      · obtain ⟨read, hmem, hplace, hcontent⟩ := hheld key hempty
        have hreading := hown read hmem hplace
        cases hreadings : s.readings k with
        | nil =>
          rw [hreadings] at hreading
          exact absurd hreading List.not_mem_nil
        | cons first rest =>
          rw [hreadings, List.isEmpty_cons, if_neg Bool.false_ne_true, ← hreadings,
            List.all_eq_true] at hread
          have hsame := hread read.2 hreading
          rw [decide_eq_true_eq] at hsame
          exact .inl (shows_iff.mpr (hsame ▸ hcontent))
  · have hnever : ∀ read ∈ s.seen, m.place read.2 ≠ some key := by
      intro read hmem hplace
      obtain ⟨row, hk, hrow⟩ := howner key read hmem hplace
      exact hnone row (List.mem_of_getElem? hk) hrow
    refine ⟨quiet_iff.mpr ⟨fun change hchange => absurd (hpolls ▸ hchange) List.not_mem_nil,
      fun copy hcopy => ?_⟩, ?_⟩
    · obtain ⟨read, hmem, lsn, rfl, hlive⟩ := hcopies copy hcopy
      rw [filedUnder_copied (halike read hmem) hlive]
      exact hnever read hmem
    · by_contra hcontent
      have hempty : m.slot s key ≠ none := fun hempty => hcontent (by
        change (m.slot s key).content = none
        rw [hempty]
        rfl)
      obtain ⟨read, hmem, hplace, -⟩ := hheld key hempty
      exact hnever read hmem hplace

/-! ## A cycle -/

omit [LinearOrder κ] in
/-- The rows of a page are rows of the table, past its watermark. -/
theorem isPage_spec {page : List ℕ} (h : m.isPage s i page = true) {k : ℕ} (hk : k ∈ page) :
    ∃ row, s.rows[k]? = some (some row) ∧ m.tableOf row = i := by
  simp only [isPage, Bool.and_eq_true, decide_eq_true_eq] at h
  obtain ⟨⟨⟨⟨⟨-, hchosen⟩, -⟩, -⟩, -⟩, -⟩ := h
  obtain ⟨found, hfound⟩ := Option.isSome_iff_exists.mp
    (List.filterMap_length_eq_length.mp hchosen k hk)
  obtain ⟨k', row⟩ := found
  have hplace := List.find?_some hfound
  rw [decide_eq_true_eq] at hplace
  obtain ⟨hrow, htest⟩ := mem_rowsWhere.mp (List.mem_of_find?_eq_some hfound)
  rw [Bool.and_eq_true, decide_eq_true_eq] at htest
  exact ⟨row, hplace ▸ hrow, htest.1⟩

omit [LinearOrder κ] in
/-- What a cycle sends are its rows. -/
theorem mem_changes {page : List ℕ} (h : m.isPage s i page = true) {change : RowChange} :
    change ∈ ((m.table i).poll.planCycle (s.watermarks i)
        ((s.rowsAt page).map m.polledRow)).changes ↔
      ∃ k ∈ page, ∃ row, s.rows[k]? = some (some row) ∧ change = m.polled row := by
  simp only [PollTable.planCycle, rowsAt, List.mem_map, List.mem_filterMap]
  constructor
  · rintro ⟨_, ⟨row, ⟨k, hk, hjoined⟩, rfl⟩, rfl⟩
    obtain ⟨own, hown, htable⟩ := isPage_spec h hk
    rw [hown] at hjoined
    cases hjoined
    exact ⟨k, hk, row, hown, by rw [polled, htable]⟩
  · rintro ⟨k, hk, row, hrow, rfl⟩
    obtain ⟨own, hown, htable⟩ := isPage_spec h hk
    rw [hrow] at hown
    cases hown
    exact ⟨m.polledRow row, ⟨row, ⟨k, hk, by rw [hrow]; rfl⟩, rfl⟩, by rw [polled, htable]⟩

/-- A cycle leaves no row behind. -/
theorem PollInv.cycle (h : m.PollInv s) (hbegun : s.begun = true) (hpage : s.page = [])
    {page : List ℕ} (his : m.isPage s i page = true) {next : ι → Option String}
    (hnext : ∀ j, j ≠ i → next j = s.watermarks j)
    (hkeeps : ∀ k row, (k, row) ∈ (s.rowsWhere fun row =>
      m.tableOf row = i && m.selected s.watermarks row) →
        k ∈ page ∨ m.selected next row = true) :
    m.PollInv { s with
      page := ((m.table i).poll.planCycle (s.watermarks i)
        ((s.rowsAt page).map m.polledRow)).changes
      watermarks := next } := by
  set changes := ((m.table i).poll.planCycle (s.watermarks i)
    ((s.rowsAt page).map m.polledRow)).changes with hchanges
  have hpolls : s.engine.rowsOf .stream ++ changes = s.polls ++ changes := by
    rw [polls, hpage, List.append_nil]
  have hrow : ∀ change ∈ changes, ∃ k ∈ page, ∃ row, s.rows[k]? = some (some row) ∧
      change = m.polled row := fun change hchange => (mem_changes his).mp hchange
  refine ⟨⟨h.base.calm, h.base.alike, h.base.apart, h.base.copies, fun change hchange => ?_⟩,
    fun hnot => (nomatch hbegun.symm.trans hnot), fun _ => ?_⟩
  · rw [polls, hpolls, List.mem_append] at hchange
    obtain hold | hnew := hchange
    · exact h.base.polls change hold
    · obtain ⟨k, -, row, hk, rfl⟩ := hrow change hnew
      exact ⟨row, rfl, h.base.alike row (List.mem_of_getElem? hk)⟩
  obtain ⟨hdue, hclean⟩ := h.polling hbegun
  have hlast : ∀ key, m.lastPoll { s with page := changes, watermarks := next } key =
      ((changes.filter fun change => m.engine.filedUnder change = some key).getLast?).or
        (m.lastPoll s key) := fun key => by
    rw [lastPoll, polls, hpolls, List.filter_append, List.getLast?_append]
    rfl
  refine ⟨fun row hmem key hkey => ?_, fun key hnone => ?_⟩
  · obtain ⟨k, hk⟩ := List.getElem?_of_mem hmem
    -- whatever of the cycle goes to the row's place is the row's
    have honly : ∀ change ∈ changes, m.engine.filedUnder change = some key →
        k ∈ page ∧ change = m.polled row := by
      intro change hchange hfiled
      obtain ⟨k', hk', other, hother, rfl⟩ := hrow change hchange
      rw [filedUnder_polled] at hfiled
      obtain rfl := place_unique h.base.apart hk hother hkey hfiled
      rw [hk] at hother
      cases hother
      exact ⟨hk', rfl⟩
    by_cases hin : k ∈ page
    · have hpresent : m.polled row ∈ changes := (mem_changes his).mpr ⟨k, hin, row, hk, rfl⟩
      have hfiltered : m.polled row ∈
          changes.filter fun change => m.engine.filedUnder change = some key :=
        List.mem_filter.mpr ⟨hpresent, decide_eq_true ((filedUnder_polled row).trans hkey)⟩
      refine .inr (.inl ?_)
      rw [hlast]
      cases hends : (changes.filter fun change =>
          m.engine.filedUnder change = some key).getLast? with
      | none =>
        rw [List.getLast?_eq_none_iff] at hends
        rw [hends] at hfiltered
        exact absurd hfiltered List.not_mem_nil
      | some change =>
        obtain ⟨hchange, hfiled⟩ := List.mem_filter.mp (List.mem_of_getLast? hends)
        rw [decide_eq_true_eq] at hfiled
        rw [(honly change hchange hfiled).2]
        rfl
    · have hnothing : (changes.filter fun change => m.engine.filedUnder change = some key) = [] := by
        rw [List.filter_eq_nil_iff]
        intro change hchange hfiled
        exact hin (honly change hchange (of_decide_eq_true hfiled)).1
      have hsame : m.lastPoll { s with page := changes, watermarks := next } key =
          m.lastPoll s key := by
        rw [hlast, hnothing]
        rfl
      obtain hselected | hrest := hdue row hmem key hkey
      · by_cases htable : m.tableOf row = i
        · obtain hpaged | hstill := hkeeps k row (mem_rowsWhere.mpr
            ⟨hk, Bool.and_eq_true_iff.mpr ⟨decide_eq_true htable, hselected⟩⟩)
          · exact absurd hpaged hin
          · exact .inl hstill
        · rw [selected, ← hnext _ htable] at hselected
          exact .inl hselected
      · refine .inr ?_
        rw [hsame]
        exact hrest
  · obtain ⟨hquiet, hcontent⟩ := hclean key hnone
    refine ⟨quiet_iff.mpr ⟨fun change hchange => ?_, (quiet_iff.mp hquiet).2⟩, hcontent⟩
    rw [polls, hpolls, List.mem_append] at hchange
    obtain hold | hnew := hchange
    · exact (quiet_iff.mp hquiet).1 change hold
    · obtain ⟨k, -, row, hk, rfl⟩ := hrow change hnew
      rw [filedUnder_polled]
      exact hnone row (List.mem_of_getElem? hk)

/-! ## The engine goes on -/

omit [LinearOrder κ] [DecidableEq ι] in
/-- The rows the poll and the load send remove nothing at a position. -/
theorem PollBase.outdates (h : m.PollBase s) {origin : Origin} {row : RowChange}
    (hrow : row ∈ s.engine.rowsOf origin) {completions : Completions} {op : DocumentOp}
    (hop : op ∈ m.engine.opsOf completions row) (index id : String) (v : ℕ) :
    (Emitted.op origin op).outdates index id v = false := by
  cases origin with
  | stream =>
    obtain ⟨own, rfl, -⟩ := h.polls row (List.mem_append_left _ hrow)
    have hversion : op.version = none := by
      rw [Engine.opsOf] at hop
      split at hop
      · exact absurd hop List.not_mem_nil
      · split at hop
        · next hops => exact materialize_version hops hop
        · exact absurd hop List.not_mem_nil
    cases op with
    | delete i d routing version =>
      obtain rfl : version = none := hversion
      rfl
    | upsert | deleteChildren => rfl
  | copy =>
    obtain ⟨lsn, own, rfl, halike, hlive⟩ := h.copies row (List.mem_append_left _ hrow)
    obtain ⟨key, d, -, -, -, hcopied⟩ := alike_spec halike
    obtain ⟨d', hd', hkeeps⟩ := hcopied hlive
    have hops := Engine.opsOf_insert (m.plain (m.tableOf own)) hd' hkeeps completions (some lsn)
    have hown : op ∈ [DocumentOp.upsert key.index key.id key.routing d' (some lsn)
        (m.engine.rules.pipelines (m.name own))] := hops ▸ hop
    rw [List.mem_singleton.mp hown]
    rfl

/-- A polled row is materialised. -/
theorem PollInv.takePolled (h : m.PollInv s) (hcalm : e.Calm) {change : RowChange}
    (hpolls : s.polls = change :: (e.rowsOf .stream ++ s.page))
    (hcopies : e.rowsOf .copy = s.engine.rowsOf .copy) {completions : Completions}
    (hops : ∀ target, m.engine.mapping.targetFor change.table = some target →
      ∃ ops left, materialize target change.table change.kind m.engine.rules
        (m.engine.previousOf completions change) change.version = .ok (ops, left))
    (hstrikes : m.strikesNothing s completions change = true)
    (hlog : e.log = s.engine.log ++ (m.engine.opsOf completions change).map (.op .stream)) :
    m.PollInv { s with engine := e } := by
  have hsameCopies : (copies { s with engine := e }) = s.copies := by
    rw [copies, hcopies]
    rfl
  refine ⟨⟨hcalm, h.base.alike, h.base.apart, fun copy hcopy => h.base.copies copy
    (hsameCopies ▸ hcopy), fun other hother => h.base.polls other ?_⟩, fun hbegun => ?_,
    fun hbegun => ?_⟩
  · rw [hpolls]
    exact List.mem_cons_of_mem _ hother
  · rw [(h.loading hbegun).noPolls] at hpolls
    cases hpolls
  obtain ⟨hdue, hclean⟩ := h.polling hbegun
  obtain ⟨own, rfl, halike⟩ := h.base.polls change (hpolls ▸ List.mem_cons_self)
  obtain ⟨at_, d, -, hat, -, -⟩ := alike_spec halike
  obtain ⟨hshown, hother⟩ := slot_polled s { s with engine := e } halike hat hops
    hstrikes hlog
  -- at another place nothing moves
  have helse : ∀ key, key ≠ at_ → m.lastPoll { s with engine := e } key = m.lastPoll s key := by
    intro key hne
    rw [lastPoll, lastPoll, hpolls, List.filter_cons_of_neg]
    · rfl
    · rw [filedUnder_polled, hat]
      simpa using Ne.symm hne
  refine ⟨fun row hrow key hkey => ?_, fun key hnone => ?_⟩
  · by_cases hne : key = at_
    · subst hne
      have hlast : m.lastPoll s key =
          ((m.lastPoll { s with engine := e } key).or (some (m.polled own))) := by
        rw [lastPoll, lastPoll, hpolls, List.filter_cons_of_pos, List.getLast?_cons]
        · cases hends : (List.filter (fun change => decide (m.engine.filedUnder change = some key))
            (e.rowsOf .stream ++ s.page)).getLast? with
          | none => simp only [polls, hends, Option.getD_none, Option.none_or]
          | some last => simp only [polls, hends, Option.getD_some, Option.some_or]
        · rw [filedUnder_polled, hat]
          exact decide_eq_true rfl
      obtain hselected | hdueLast | ⟨hnothing, -⟩ := hdue row hrow key hkey
      · exact .inl hselected
      · rw [hlast] at hdueLast
        cases hrest : m.lastPoll { s with engine := e } key with
        | some last =>
          rw [hrest, Option.some_or] at hdueLast
          exact .inr (.inl (hrest.trans hdueLast))
        | none =>
          -- it was the last one, and it was the row's own
          rw [hrest, Option.none_or, Option.some.injEq] at hdueLast
          refine .inr (.inr ⟨hrest, .inl (shows_iff.mpr ?_)⟩)
          obtain ⟨hshownRow, -⟩ := slot_polled s { s with engine := e }
            (h.base.alike row hrow) hkey (hdueLast ▸ hops) (hdueLast ▸ hstrikes) (hdueLast ▸ hlog)
          exact hshownRow
      · rw [hlast] at hnothing
        cases hrest : m.lastPoll { s with engine := e } key <;> rw [hrest] at hnothing <;>
          cases hnothing
    · rw [Due, helse key hne, shows, Coming, hother key hne, hsameCopies]
      exact hdue row hrow key hkey
  · obtain ⟨hquiet, hcontent⟩ := hclean key hnone
    obtain ⟨hquietPolls, hquietCopies⟩ := quiet_iff.mp hquiet
    have hne : key ≠ at_ := by
      rintro rfl
      exact hquietPolls _ (hpolls ▸ List.mem_cons_self) ((filedUnder_polled own).trans hat)
    refine ⟨quiet_iff.mpr ⟨fun other hmem => hquietPolls other ?_, ?_⟩, by rw [hother key hne, hcontent]⟩
    · rw [hpolls]
      exact List.mem_cons_of_mem _ hmem
    · rw [hsameCopies]
      exact hquietCopies

omit [LinearOrder κ] [DecidableEq ι] in
/-- What is known of a copied row that overtakes nothing. -/
theorem overtakesNothing_spec [DecidableEq ρ] (h : m.overtakesNothing s copy = true)
    (hrow : some row ∈ s.rows) (hkey : m.place row = some key)
    (hfiled : m.engine.filedUnder copy = some key) :
    (m.live row = true ∧ copy = { m.copied 0 row with version := copy.version }) ∨
      m.selected s.watermarks row = true ∨ m.lastPoll s key ≠ none ∨
      ∃ held version, m.slot s key = some held ∧ externalVersion copy.version = some version ∧
        version < held.1 := by
  have hspec := List.all_eq_true.mp h (some row) hrow
  simp only [Option.all_some, hkey, hfiled, ne_eq, not_true_eq_false, decide_false, Bool.false_or,
    Bool.or_eq_true, Bool.and_eq_true, decide_eq_true_eq, Option.any_some] at hspec
  obtain ((hsame | hselected) | hpolled) | hrefused := hspec
  · exact .inl hsame
  · exact .inr (.inl hselected)
  · refine .inr (.inr (.inl fun hnone => ?_))
    obtain ⟨change, hmem, hfiled⟩ := List.any_eq_true.mp hpolled
    exact lastPoll_eq_none.mp hnone change hmem (of_decide_eq_true hfiled)
  · obtain ⟨held, hheld, hbelow⟩ := Option.any_eq_true _ _ |>.mp hrefused
    obtain ⟨version, hversion, hlt⟩ := Option.any_eq_true _ _ |>.mp hbelow
    exact .inr (.inr (.inr ⟨held, version, hheld, hversion, of_decide_eq_true hlt⟩))

/-- A copied row is materialised. -/
theorem PollInv.takeCopied [DecidableEq ρ] (h : m.PollInv s) (hcalm : e.Calm)
    (hcopies : s.copies = copy :: (e.rowsOf .copy ++ s.unsent))
    (hpolls : e.rowsOf .stream = s.engine.rowsOf .stream) {completions : Completions}
    (hovertakes : s.begun = true → m.overtakesNothing s copy = true)
    (hlog : e.log = s.engine.log ++ (m.engine.opsOf completions copy).map (.op .copy)) :
    m.PollInv { s with engine := e } := by
  have hsamePolls : (polls { s with engine := e }) = s.polls := by
    rw [polls, hpolls]
    rfl
  have hmem : ∀ other, other ∈ s.copies ↔ other = copy ∨
      other ∈ (copies { s with engine := e }) := fun other => by
    rw [hcopies, List.mem_cons]
    rfl
  obtain ⟨lsn, own, rfl, halike, hlive⟩ := h.base.copies copy ((hmem copy).mpr (.inl rfl))
  obtain ⟨at_, d, -, hat, -, -⟩ := alike_spec halike
  have hfiled := (filedUnder_copied halike hlive lsn).trans hat
  obtain ⟨content, hcontent, hwritten, hother⟩ := slot_copied s { s with engine := e } halike
    hlive hat lsn hlog
  refine ⟨⟨hcalm, h.base.alike, h.base.apart, fun other hcopy => h.base.copies other
    ((hmem other).mpr (.inr hcopy)), hsamePolls ▸ h.base.polls⟩, fun hbegun => ?_, fun hbegun => ?_⟩
  · obtain ⟨hnone, hold, hseenAlike, hinside, hheld, hcoming⟩ := h.loading hbegun
    refine ⟨hsamePolls ▸ hnone, fun other hcopy => hold other ((hmem other).mpr (.inr hcopy)),
      hseenAlike, hinside, fun key hkey => ?_, fun read hread hreadLive key hkey => ?_⟩
    · by_cases hne : key = at_
      · subst hne
        obtain ⟨read, hread, lsn', hsame, hreadLive⟩ := hold _ ((hmem _).mpr (.inl rfl))
        have hplace : m.place read.2 = some key := by
          rw [← filedUnder_copied (hseenAlike read hread) hreadLive lsn', ← hsame, hfiled]
        obtain ⟨content', hcontent', hwritten', -⟩ := slot_copied s
          { s with engine := e } (hseenAlike read hread) hreadLive hplace lsn' (hsame ▸ hlog)
        obtain htaken | ⟨hsome, hrefused⟩ := VersionedTarget.writeSlot_cases
          (externalVersion (some lsn')) content' (m.slot s key)
        · exact ⟨read, hread, hplace, by rw [hwritten', htaken]; exact hcontent'⟩
        · obtain ⟨before, hbefore, hbeforePlace, hshown⟩ := hheld key hsome
          exact ⟨before, hbefore, hbeforePlace, by rw [hwritten', hrefused]; exact hshown⟩
      · rw [hother key hne] at hkey ⊢
        exact hheld key hkey
    · by_cases hne : key = at_
      · subst hne
        rw [hwritten]
        exact .inl (VersionedTarget.writeSlot_ne_none _ _ _)
      · rw [hother key hne]
        refine (hcoming read hread hreadLive key hkey).imp_right ?_
        rintro ⟨lsn', hcopy⟩
        obtain hsame | hrest := (hmem _).mp hcopy
        · have hreadFiled := filedUnder_copied (hseenAlike read hread) hreadLive lsn'
          rw [hsame, hfiled, hkey] at hreadFiled
          exact absurd (Option.some.inj hreadFiled).symm hne
        · exact ⟨lsn', hrest⟩
  · obtain ⟨hdue, hclean⟩ := h.polling hbegun
    have hlast : ∀ key, m.lastPoll { s with engine := e } key = m.lastPoll s key := fun key => by
      rw [lastPoll, hsamePolls]
      rfl
    refine ⟨fun row hrow key hkey => ?_, fun key hnone => ?_⟩
    · rw [Due, hlast]
      by_cases hne : key = at_
      · subst hne
        obtain hselected | hpolled | ⟨hnothing, hrest⟩ := hdue row hrow key hkey
        · exact .inl hselected
        · exact .inr (.inl hpolled)
        · obtain ⟨hrowLive, hsame⟩ | hselected | hpolled | ⟨held, version, hheld, hversion, hlt⟩ :=
            overtakesNothing_spec (hovertakes hbegun) hrow hkey hfiled
          · -- the row is as it was read
            obtain ⟨content', hcontent', hwritten', -⟩ := slot_copied s
              { s with engine := e } (h.base.alike row hrow) hrowLive hkey lsn (hsame ▸ hlog)
            refine .inr (.inr ⟨hnothing, .inl (shows_iff.mpr ?_)⟩)
            obtain htaken | ⟨hsome, hrefused⟩ := VersionedTarget.writeSlot_cases
              (externalVersion (some lsn)) content' (m.slot s key)
            · rw [hwritten', htaken]
              exact hcontent'
            · obtain hshows | ⟨hnoSlot, -⟩ := hrest
              · rw [hwritten', hrefused]
                exact shows_iff.mp hshows
              · exact absurd hnoSlot hsome
          · exact .inl hselected
          · exact absurd hnothing hpolled
          · refine .inr (.inr ⟨hnothing, .inl (shows_iff.mpr ?_)⟩)
            obtain hshows | ⟨hnoSlot, -⟩ := hrest
            · have hrefused : m.slot { s with engine := e } key = m.slot s key := by
                have hown : externalVersion (some lsn) = some version := hversion
                rw [hwritten, hown, hheld, VersionedTarget.writeSlot_refused hlt]
              rw [hrefused]
              exact shows_iff.mp hshows
            · rw [hnoSlot] at hheld
              cases hheld
      · refine (hdue row hrow key hkey).imp_right (Or.imp_right (And.imp_right ?_))
        rintro (hshows | ⟨hempty, hway⟩)
        · rw [shows, ← hother key hne] at hshows
          exact .inl hshows
        · cases hrowLive : m.live row with
          | false => exact .inl (shows_of_gone ((hother key hne).trans hempty) hrowLive)
          | true =>
            refine .inr ⟨(hother key hne).trans hempty, hway.imp_right ?_⟩
            rintro ⟨lsn', hcopy⟩
            obtain hsame | hrest := (hmem _).mp hcopy
            · have hrowFiled := filedUnder_copied (h.base.alike row hrow) hrowLive lsn'
              rw [hsame, hfiled, hkey] at hrowFiled
              exact absurd (Option.some.inj hrowFiled).symm hne
            · exact ⟨lsn', hrest⟩
    · obtain ⟨hquiet, hnothing⟩ := hclean key hnone
      obtain ⟨hquietPolls, hquietCopies⟩ := quiet_iff.mp hquiet
      have hne : key ≠ at_ := by
        rintro rfl
        exact hquietCopies _ ((hmem _).mpr (.inl rfl)) hfiled
      refine ⟨quiet_iff.mpr ⟨hsamePolls ▸ hquietPolls, fun other hcopy =>
        hquietCopies other ((hmem other).mpr (.inr hcopy))⟩, by rw [hother key hne, hnothing]⟩

/-- The engine does something. -/
theorem PollInv.engine [DecidableEq ρ] (h : m.PollInv s)
    (hsent : ∀ ev, action ≠ .feed ev ∧ action ≠ .feedCopy ev)
    (hstep : m.engine.step s.engine action = some e) (hrunning : ∀ result, e.phase ≠ .ended result)
    (hkeeps : m.keepsStep s (.engine action) = true) : m.PollInv { s with engine := e } := by
  have hcalm : e.Calm := by
    refine h.base.calm.step hsent hstep hrunning ?_
    intro settings completions origin row rest hphase op hop
    refine h.base.outdates ?_ hop
    rw [rowsOf, (Engine.pending_writing hphase).1]
    exact List.mem_cons_self
  obtain ⟨handled, hpending, hhandled, hlog⟩ | ⟨settings, completions, origin, row, rest, rfl, hphase,
    hhead, hother, hlog, hops⟩ := Engine.rowStep h.base.calm.tidy.gathers hsent hstep hrunning
  · have hrows : ∀ origin, e.rowsOf origin = s.engine.rowsOf origin := fun origin =>
      rowsOf_quiet (hpending origin) (hhandled origin)
    have hsame : e.log = s.engine.log := by
      obtain hsame | ⟨origin, table, version, hmem⟩ := hlog
      · exact hsame
      · refine absurd rfl (h.base.calm.whole origin (.tableTruncated table version) ?_ table version)
        rw [hpending]
        exact List.mem_append_left _ hmem
    refine h.still hcalm ⟨rfl, rfl, rfl, rfl, rfl, ?_, fun copy => ?_, fun key => ?_⟩
    · rw [polls, hrows]
      rfl
    · rw [copies, hrows]
      rfl
    · rw [slot, hsame]
      rfl
  · simp only [keepsStep, hphase, Bool.and_eq_true, Bool.or_eq_true, decide_eq_true_eq,
      Bool.not_eq_true'] at hkeeps
    obtain ⟨hstrikes, hovertakes⟩ := hkeeps
    rw [h.base.calm.outOf_eq] at hlog
    have hrow : s.engine.rowsOf origin = row :: e.rowsOf origin := by
      rw [rowsOf, hhead]
      rfl
    have hrest : ∀ other, other ≠ origin → e.rowsOf other = s.engine.rowsOf other :=
      fun other hne => by rw [rowsOf, hother other hne, ← rowsOf]
    cases origin with
    | stream =>
      exact h.takePolled hcalm (by rw [polls, hrow]; rfl) (hrest .copy (fun h => by cases h)) hops hstrikes
        hlog
    | copy =>
      refine h.takeCopied hcalm (by rw [copies, hrow]; rfl) (hrest .stream (fun h => by cases h))
        (fun hbegun => ?_) hlog
      obtain (hstream | hnot) | hovertakes := hovertakes
      · cases hstream
      · rw [hbegun] at hnot
        cases hnot
      · exact hovertakes

/-! ## The theorem -/

/-- The engine is sent nothing by itself. -/
theorem step_engine (hstep : m.step s (.engine action) = some s') :
    (∀ ev, action ≠ .feed ev ∧ action ≠ .feedCopy ev) ∧
      ∃ e, m.engine.step s.engine action = some e ∧ s' = { s with engine := e } := by
  have hsent : ∀ ev, action ≠ .feed ev ∧ action ≠ .feedCopy ev := by
    intro ev
    constructor <;> rintro rfl <;> cases hstep
  have hdone : (m.engine.step s.engine action).map (fun e => { s with engine := e }) = some s' := by
    cases action with
    | feed ev => exact absurd rfl (hsent ev).1
    | feedCopy ev => exact absurd rfl (hsent ev).2
    | _ => exact hstep
  obtain ⟨e, he, rfl⟩ := Option.map_eq_some_iff.mp hdone
  exact ⟨hsent, e, he, rfl⟩

/-- **One step keeps the invariant**, if the pipeline stays up. -/
theorem PollInv.step [DecidableEq ρ] (h : m.PollInv s) {action : PollAction ι ρ}
    (hkeeps : m.keepsStep s action = true) (hstep : m.step s action = some s')
    (hrunning : ∀ result, s'.engine.phase ≠ .ended result) : m.PollInv s' := by
  cases action with
  | change k new =>
    simp only [keepsStep, Bool.and_eq_true, decide_eq_true_eq, Bool.or_eq_true,
      Bool.not_eq_true'] at hkeeps
    obtain ⟨⟨hapart, halike⟩, hrightly⟩ := hkeeps
    have hnew : ∀ row, new = some row → m.alike row = true := by
      rintro row rfl
      exact halike
    have hleaves : s.begun = true → ∀ row, s.rows[k]?.join = some row →
        m.leavesRightly s row new = true := by
      intro hbegun row hrow
      obtain hnot | hboth := hrightly
      · rw [hbegun] at hnot
        cases hnot
      · have hall := hboth.1
        rw [hrow] at hall
        exact hall
    have harrives : s.begun = true → ∀ row, new = some row → m.arrivesRightly s row = true := by
      rintro hbegun row rfl
      obtain hnot | hboth := hrightly
      · rw [hbegun] at hnot
        cases hnot
      · exact hboth.2
    simp only [PollMode.step] at hstep
    split at hstep
    · next hlt =>
      cases hstep
      rw [if_pos hlt] at hapart
      refine h.change s.rows[k]?.join (fun row hrow => ?_) (fun row hrow => ?_)
        (fun row hrow => ?_) (by rw [List.length_set]) hapart hnew hleaves harrives
      · exact (List.mem_or_eq_of_mem_set hrow).symm.imp_left Eq.symm
      · obtain ⟨j, hj⟩ := List.getElem?_of_mem hrow
        by_cases hjk : j = k
        · subst hjk
          rw [hj]
          exact .inr rfl
        · left
          rw [List.mem_iff_getElem?]
          exact ⟨j, by rw [List.getElem?_set_ne (Ne.symm hjk), hj]⟩
      · rw [← hrow]
        exact List.mem_set hlt new
    · next hge =>
      split at hstep
      · next hlast =>
        cases hstep
        rw [if_neg hge] at hapart
        refine h.change none (fun row hrow => ?_) (fun row hrow => .inl ?_)
          (fun row hrow => ?_) (by rw [List.length_append]; exact Nat.le_add_right _ _) hapart hnew
          nofun harrives
        · obtain hold | hnewest := List.mem_append.mp hrow
          · exact .inr hold
          · exact .inl (List.mem_singleton.mp hnewest).symm
        · exact List.mem_append_left _ hrow
        · rw [← hrow]
          exact List.mem_append_right _ (List.mem_singleton.mpr rfl)
      · cases hstep
  | read i n lsn =>
    simp only [PollMode.step] at hstep
    split at hstep
    · next range hrange =>
      split at hstep
      · cases hstep
      · cases hstep
        exact h.read hrange lsn
    · cases hstep
  | send place =>
    obtain ⟨row, hrow, hfed⟩ := Option.bind_eq_some_iff.mp hstep
    obtain ⟨e, he, rfl⟩ := Option.map_eq_some_iff.mp hfed
    refine h.fedCopy (fun _ _ h => ChangeEvent.noConfusion h) he fun copy => ?_
    -- what is sent is what is taken from the rows that were not sent
    obtain ⟨hlt, hget⟩ := List.getElem?_eq_some_iff.mp hrow
    have hperm : (row :: s.unsent.eraseIdx place).Perm s.unsent :=
      hget ▸ List.getElem_cons_eraseIdx_perm hlt
    rw [← hperm.mem_iff, List.mem_cons]
    exact or_congr_left List.mem_singleton.symm
  | copy event =>
    simp only [PollMode.step] at hstep
    split at hstep
    · next hbeside =>
      obtain ⟨e, he, rfl⟩ := Option.map_eq_some_iff.mp hstep
      have hnone : event.rowOf = none ∧ ∀ table version, event ≠ .tableTruncated table version := by
        cases event with
        | row | tableTruncated => exact absurd hbeside Bool.false_ne_true
        | _ => exact ⟨rfl, nofun⟩
      exact h.fedCopy hnone.2 he fun copy => by simp [hnone.1]
    · cases hstep
  | startup i =>
    simp only [PollMode.step] at hstep
    split at hstep
    · cases hstep
    · next hnot =>
      cases hstep
      refine ⟨⟨h.base.calm, h.base.alike, h.base.apart, h.base.copies, h.base.polls⟩,
        fun hbegun => ?_, fun hbegun => absurd hbegun hnot⟩
      obtain ⟨hpolls, hcopies, halike, hinside, hheld, hcoming⟩ := h.loading hbegun
      exact ⟨hpolls, hcopies, halike, hinside, hheld, hcoming⟩
  | begin =>
    simp only [PollMode.step] at hstep
    split at hstep
    · cases hstep
    · next hnot =>
      cases hstep
      exact h.begin (Bool.eq_false_iff.mpr hnot) hkeeps
  | cycle i page =>
    simp only [PollMode.step] at hstep
    split at hstep
    · next hcheck =>
      cases hstep
      rw [Bool.and_eq_true, Bool.and_eq_true, List.isEmpty_iff] at hcheck
      obtain ⟨⟨hbegun, hpage⟩, his⟩ := hcheck
      refine h.cycle hbegun hpage his (fun j hne => Function.update_of_ne hne _ _) ?_
      intro k row hmem
      have hrow := List.all_eq_true.mp hkeeps (k, row) hmem
      rw [Bool.or_eq_true, List.contains_iff_mem] at hrow
      exact hrow
    · cases hstep
  | sendPolled =>
    simp only [PollMode.step] at hstep
    split at hstep
    · next change rest hpage =>
      obtain ⟨e, he, rfl⟩ := Option.map_eq_some_iff.mp hstep
      exact h.fed rfl (fun _ _ h => ChangeEvent.noConfusion h) he hpage
    · cases hstep
  | commit =>
    obtain ⟨e, he, rfl⟩ := Option.map_eq_some_iff.mp hstep
    exact h.fed rfl (fun _ _ h => ChangeEvent.noConfusion h) he rfl
  | engine action =>
    obtain ⟨hsent, e, he, rfl⟩ := step_engine hstep
    exact h.engine hsent he hrunning hkeeps

/-- A pipeline that is up was up before. -/
theorem running_of_step {action : PollAction ι ρ} (hstep : m.step s action = some s')
    (hrunning : ∀ result, s'.engine.phase ≠ .ended result) (result : Except CoreError Unit) :
    s.engine.phase ≠ .ended result := by
  have hengine : s'.engine = s.engine ∨ ∃ act, m.engine.step s.engine act = some s'.engine := by
    cases action with
    | change | read | startup | begin | cycle =>
      left
      simp only [PollMode.step] at hstep
      repeat' split at hstep
      all_goals first | cases hstep; rfl | cases hstep
    | send place =>
      obtain ⟨row, -, hfed⟩ := Option.bind_eq_some_iff.mp hstep
      obtain ⟨e, he, rfl⟩ := Option.map_eq_some_iff.mp hfed
      exact .inr ⟨_, he⟩
    | commit =>
      obtain ⟨e, he, rfl⟩ := Option.map_eq_some_iff.mp hstep
      exact .inr ⟨_, he⟩
    | copy | sendPolled =>
      simp only [PollMode.step] at hstep
      split at hstep
      · obtain ⟨e, he, rfl⟩ := Option.map_eq_some_iff.mp hstep
        exact .inr ⟨_, he⟩
      · cases hstep
    | engine act =>
      obtain ⟨-, e, he, rfl⟩ := step_engine hstep
      exact .inr ⟨_, he⟩
  obtain hsame | ⟨act, hact⟩ := hengine
  · exact hsame ▸ hrunning result
  · exact Engine.running_of_step hact hrunning result

/-- Nothing was read, and nothing is held. -/
theorem PollInv.start : m.PollInv ⟨.start, [], [], [], false, fun _ => none, [], []⟩ where
  base := {
    calm := .start
    alike := fun _ h => absurd h List.not_mem_nil
    apart := List.nodup_nil
    copies := fun _ h => absurd h List.not_mem_nil
    polls := fun _ h => absurd h List.not_mem_nil }
  loading _ := {
    noPolls := rfl
    copies := fun _ h => absurd h List.not_mem_nil
    alike := fun _ h => absurd h List.not_mem_nil
    inside := fun _ h => absurd h List.not_mem_nil
    held := fun _ h => absurd rfl h
    coming := fun _ h => absurd h List.not_mem_nil }
  polling hbegun := nomatch hbegun

/-- A run whose steps meet the condition keeps the invariant, as long as it goes on. -/
theorem PollInv.of_reachUnder [DecidableEq ρ]
    (h : m.system.ReachUnder (fun s action => m.keepsStep s action = true) s)
    (hrunning : ∀ result, s.engine.phase ≠ .ended result) : m.PollInv s := by
  induction h with
  | initial hs =>
    cases hs
    exact .start
  | step _ hkeeps hstep ih =>
    have hbefore := ih (running_of_step hstep hrunning)
    exact hbefore.step hkeeps hstep hrunning

/-- **The load and the poll agree on the newest state** in every run in which the poll begins
before a row that was read has changed, every later change goes past the watermark and keeps
its document, no page leaves a row behind, and no copied row overtakes a newer state. -/
theorem load_and_poll_agree [DecidableEq ρ]
    (h : m.system.ReachUnder (fun s action => m.keepsStep s action = true) s)
    (hdone : m.CaughtUp s) : m.Agrees s := by
  have hinv := PollInv.of_reachUnder h hdone.running
  exact (hinv.polling hdone.begun).agrees hinv.base hdone

end PollMode

/-! ## Runs that the kernel follows -/

/-- A row of a polled table. -/
structure Account : Type where
  /-- its key -/
  id : ℕ
  /-- a column -/
  name : String
  /-- the poll column -/
  updatedAt : String
  /-- the soft-delete predicate -/
  deleted : Bool
  deriving DecidableEq

/-- A row as both read it. -/
def Account.doc (row : Account) : Json :=
  .obj [("id", .int row.id), ("name", .str row.name)]

/-- The table, read in one range. -/
def accounts : PolledTable ℕ Account where
  poll := ⟨"public.accounts", ["id"]⟩
  meaning _ := 0
  key := Account.id
  keyed := true
  boundaries := []
  selects row := !row.deleted
  copiedPk row := .int row.id
  copiedDoc := Account.doc
  doc := Account.doc
  watermark row := some row.updatedAt
  deleted row := some row.deleted
  before a b := Json.keyBefore a.updatedAt b.updatedAt
  latest rows := rows.foldl (fun last row =>
    if last.all fun m => Json.keyBefore m row.updatedAt then some row.updatedAt else last) none

/-- Its pipeline. -/
def accountsMode : PollMode Unit ℕ Account where
  engine := ⟨⟨[(("public", "accounts"), .fixed "accounts")]⟩, .bare⟩
  target := plainTarget
  table _ := accounts
  tableOf _ := ()
  pageSize := 2
  after a b := Json.keyBefore b a
  plain _ := rfl
  named _ _ _ h := nomatch h

/-- Nothing has happened. -/
def PollState.start : PollState Unit Account := ⟨.start, [], [], [], false, fun _ => none, [], []⟩

/-- The loop takes a row that waits alone, and writes it. -/
def materializeOne : List (PollAction Unit Account) := writeRowOnce.map .engine

/-- Two rows are read; one is soft-deleted before it is sent, the load's copy of it is written
and the poll's removal after it. -/
def deletedAccount : List (PollAction Unit Account) :=
  [.change 0 (some ⟨1, "ada", "2026-01-01", false⟩), .change 1 (some ⟨2, "bob", "2026-01-01", false⟩),
    .startup (), .begin, .read () 0 7, .change 0 (some ⟨1, "ada", "2026-01-02", true⟩), .send 0] ++
  materializeOne ++ [.cycle () [0], .send 0, .sendPolled, .commit] ++ materializeOne ++
  [.engine takeEventOnce] ++ materializeOne

/-- What there is to see of a state. -/
structure AccountsSeen : Type where
  /-- the pipeline is down -/
  ended : Bool
  /-- the poll has begun -/
  begun : Bool
  /-- the ranges that were read -/
  readRanges : List (Unit × ℕ)
  /-- the rows -/
  rows : List (Option Account)
  /-- whether each is past the watermark -/
  news : List Bool
  /-- the poll's changes on their way -/
  polls : List RowChange
  /-- the load's -/
  copies : List RowChange
  /-- what is held for the first row -/
  held : Option (ℕ × Option Json)
  deriving DecidableEq

/-- A state, evaluated. -/
def PollState.see (s : PollState Unit Account) : AccountsSeen where
  ended := match s.engine.phase with
    | .ended _ => true
    | _ => false
  begun := s.begun
  readRanges := s.readRanges
  rows := s.rows
  news := s.rows.map fun row => row.any (accountsMode.selected s.watermarks)
  polls := s.polls
  copies := s.copies
  held := accountsMode.slot s ⟨"accounts", "1", none⟩

theorem accounts_caughtUp {s : PollState Unit Account} {rows : List (Option Account)}
    {news : List Bool} {held : Option (ℕ × Option Json)}
    (h : s.see = ⟨false, true, [((), 0)], rows, news, [], [], held⟩)
    (hnews : ∀ new ∈ news, new = false) : accountsMode.CaughtUp s := by
  simp only [see, AccountsSeen.mk.injEq] at h
  obtain ⟨hphase, hbegun, hread, -, hnew, hpolls, hcopies, -⟩ := h
  refine ⟨fun result hended => ?_, hbegun, fun i n hn => ?_, fun row hrow => ?_, hpolls, hcopies⟩
  · rw [hended] at hphase
    cases hphase
  · obtain rfl : n = 0 := Nat.lt_one_iff.mp hn
    rw [hread]
    exact List.mem_singleton.mpr rfl
  · refine hnews _ (hnew ▸ ?_)
    exact List.mem_map.mpr ⟨some row, hrow, rfl⟩

/-- The deleted row stays deleted, and the other is shown. -/
theorem deletedAccount_agrees : ∃ s,
    accountsMode.system.runUnder accountsMode.keepsStep .start deletedAccount = some s ∧
      accountsMode.slot s ⟨"accounts", "1", none⟩ = some (8, none) ∧ accountsMode.Agrees s := by
  have hrun : (accountsMode.system.runUnder accountsMode.keepsStep .start deletedAccount).map
      PollState.see = some ⟨false, true, [((), 0)], [some ⟨1, "ada", "2026-01-02", true⟩,
        some ⟨2, "bob", "2026-01-01", false⟩], [false, false], [], [], some (8, none)⟩ := by
    decide +kernel
  obtain ⟨s, hs, hsee⟩ := Option.map_eq_some_iff.mp hrun
  exact ⟨s, hs, congrArg AccountsSeen.held hsee, PollMode.load_and_poll_agree
    (.of_runUnder (.initial rfl) hs) (accounts_caughtUp hsee (by decide))⟩

/-- A row is read and changes; the cycle reads it as it is now and its change is written
first, the load's copy after it. -/
def overtakingCopy : List (PollAction Unit Account) :=
  [.change 0 (some ⟨1, "ada", "2026-01-01", false⟩), .startup (), .begin, .read () 0 7,
    .change 0 (some ⟨1, "eve", "2026-01-02", false⟩), .cycle () [0], .sendPolled, .commit] ++
  materializeOne ++ [.engine takeEventOnce, .send 0] ++ materializeOne

/-- The poll's change left version one, so the older copy at seven is taken over it. -/
theorem overtakingCopy_disagrees : ∃ s, accountsMode.system.Reachable s ∧
    accountsMode.CaughtUp s ∧ ¬ accountsMode.Agrees s := by
  have hrun : (accountsMode.system.run .start overtakingCopy).map PollState.see =
      some ⟨false, true, [((), 0)], [some ⟨1, "eve", "2026-01-02", false⟩], [false], [], [],
        some (7, some (.obj [("id", .int 1), ("name", .str "ada")]))⟩ := by
    decide +kernel
  obtain ⟨s, hs, hsee⟩ := Option.map_eq_some_iff.mp hrun
  have hrows : s.rows = [some ⟨1, "eve", "2026-01-02", false⟩] := congrArg AccountsSeen.rows hsee
  have hslot : accountsMode.slot s ⟨"accounts", "1", none⟩ =
      some (7, some (.obj [("id", .int 1), ("name", .str "ada")])) := congrArg AccountsSeen.held hsee
  refine ⟨s, Transition.System.reachable_of_run rfl hs, accounts_caughtUp hsee (by decide),
    fun hagrees => ?_⟩
  obtain ⟨key, hkey, hshows⟩ := hagrees.rows ⟨1, "eve", "2026-01-02", false⟩
    (hrows ▸ List.mem_singleton.mpr rfl)
  have hplace : accountsMode.place ⟨1, "eve", "2026-01-02", false⟩ =
      some ⟨"accounts", "1", none⟩ := by decide +kernel
  obtain rfl := Option.some.inj (hkey.symm.trans hplace)
  rw [PollMode.shows, hslot] at hshows
  revert hshows
  decide +kernel

end Pg2osync
