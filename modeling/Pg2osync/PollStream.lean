import Pg2osync.PollLoad

/-!
# The rows that a poll emits

A cycle asks a table for the rows past the watermark it left last time, in the order of the poll
column and up to a limit, and the highest value of the page is the next watermark. A row that a
change leaves behind is past every watermark taken before it, so it is found, unless a page ends
between it and a row with the same value: the next page begins past that value.

The poll values are texts, and the comparison of the server, its `ORDER BY` and the plan of a
cycle have them in one order.
-/

namespace Pg2osync

open Json PollTable

/-! ## The tables and the poll -/

/-- What is polled. -/
structure PolledSource (ι ρ : Type) : Type where
  /-- the tables, as their sections describe them -/
  table : ι → PollTable
  /-- a row as the page query renders it -/
  doc : ρ → Json
  /-- the poll column of a row -/
  watermark : ρ → Option String
  /-- the soft-delete predicate of a row -/
  deleted : ρ → Option Bool
  /-- `poll_page_size` -/
  pageSize : ℤ

/-- The tables, and what was made of them. -/
structure PolledState (ι ρ : Type) : Type where
  /-- the rows of each table, each at a place of its own -/
  rows : ι → List (Option ρ)
  /-- the watermarks -/
  watermarks : ι → Option String
  /-- the changes that were sent, with the table and the place of their rows -/
  sent : List (ι × ℕ × RowChange)
  /-- ghost: the poll values that were ever committed -/
  committed : ι → List String
  /-- ghost: those that were when the latest page was asked for -/
  settled : ι → List String

/-- What happens next. -/
inductive PolledAction (ι ρ : Type) : Type where
  /-- a place of a table holds this row from now on, or none -/
  | change (table : ι) (place : ℕ) (row : Option ρ) : PolledAction ι ρ
  /-- the page query of a table returns these rows -/
  | cycle (table : ι) (page : List (ℕ × ρ)) : PolledAction ι ρ

/-- The rows of a table, with their places. -/
def placed {ρ : Type} (rows : List (Option ρ)) : List (ℕ × ρ) :=
  rows.zipIdx.filterMap fun slot => slot.1.map fun row => (slot.2, row)

namespace PolledSource

variable {ι ρ : Type} (src : PolledSource ι ρ)

/-- A row as the page query returns it. -/
def polledRow (row : ρ) : PolledRow :=
  ⟨src.doc row, src.watermark row, src.deleted row⟩

/-- A row as it is sent. -/
def polled (i : ι) (row : ρ) : RowChange :=
  (src.table i).change (src.polledRow row)

/-- The limit of a page. -/
def limit : ℕ :=
  (max src.pageSize 1).toNat

/-- The condition of the page query. -/
def selected (last : Option String) (row : ρ) : Bool :=
  match last with
  | none => true
  | some w => (src.watermark row).any fun own => Json.keyBefore w own

/-- The order of the poll column, in which what has no value comes last. -/
def before (a b : ρ) : Bool :=
  match src.watermark a, src.watermark b with
  | some v, some w => Json.keyBefore v w
  | some _, none => true
  | none, _ => false

/-- `watermark_query`: the highest value of a table. -/
def latest (rows : List (Option ρ)) : Option String :=
  PollTable.maxSeen none ((placed rows).map fun e => src.polledRow e.2)

/-- The poll values of a table. -/
def valuesOf (rows : List (Option ρ)) : List String :=
  rows.filterMap fun row => row.bind src.watermark

variable [DecidableEq ρ]

/-- `page_query`: a page is of rows that are selected, in the order of the poll column; where it
leaves any out it is full, and has none that comes behind them. -/
def IsPage (rows : List (Option ρ)) (last : Option String) (page : List (ℕ × ρ)) : Prop :=
  (page.map Prod.fst).Nodup ∧
    (∀ e ∈ page, e ∈ (placed rows).filter fun e => src.selected last e.2) ∧
    (page.Pairwise fun a b => src.before b.2 a.2 = false) ∧ page.length ≤ src.limit ∧
    ∀ e ∈ (placed rows).filter fun e => src.selected last e.2, e ∉ page →
      page.length = src.limit ∧ ∀ e' ∈ page, src.before e.2 e'.2 = false

instance (rows : List (Option ρ)) (last : Option String) (page : List (ℕ × ρ)) :
    Decidable (src.IsPage rows last page) :=
  inferInstanceAs (Decidable (_ ∧ _))

variable [DecidableEq ι]

/-- One step, where it can be taken. -/
def step (s : PolledState ι ρ) : PolledAction ι ρ → Option (PolledState ι ρ)
  | .change i place row =>
    if place ≤ (s.rows i).length then
      some { s with
        rows := Function.update s.rows i
          (if place < (s.rows i).length then (s.rows i).set place row else s.rows i ++ [row])
        committed := Function.update s.committed i
          (s.committed i ++ (row.bind src.watermark).toList) }
    else none
  | .cycle i page =>
    if src.IsPage (s.rows i) (s.watermarks i) page then
      let cycle := (src.table i).planCycle (s.watermarks i) (page.map fun e => src.polledRow e.2)
      some { s with
        watermarks := Function.update s.watermarks i (cycle.watermark.or (s.watermarks i))
        sent := s.sent ++ (page.zip cycle.changes).map fun e => (i, e.1.1, e.2)
        settled := Function.update s.settled i (s.committed i) }
    else none

/-- The tables at the startup queries, and nothing sent. -/
def start (rows : ι → List (Option ρ)) : PolledState ι ρ where
  rows := rows
  watermarks i := src.latest (rows i)
  sent := []
  committed i := src.valuesOf (rows i)
  settled _ := []

/-- A change sets the poll column to a value above those that were committed when the latest page
was asked for. -/
def Rises (s : PolledState ι ρ) : PolledAction ι ρ → Prop
  | .change i _ (some row) =>
    ∃ v, src.watermark row = some v ∧ ∀ u ∈ s.settled i, Json.keyBefore u v = true
  | _ => True

/-- A page leaves out no row that has the poll value of one in it. -/
def Untied (s : PolledState ι ρ) : PolledAction ι ρ → Prop
  | .cycle i page =>
    ∀ e ∈ (placed (s.rows i)).filter fun e => src.selected (s.watermarks i) e.2, e ∉ page →
      ∀ e' ∈ page, src.watermark e.2 = src.watermark e'.2 → src.watermark e.2 = none
  | _ => True

/-- An endless run: the states and the actions between them. -/
structure Run : Type where
  /-- the states -/
  state : ℕ → PolledState ι ρ
  /-- the actions -/
  action : ℕ → PolledAction ι ρ
  initial : ∃ rows, state 0 = src.start rows
  step : ∀ n, src.step (state n) (action n) = some (state (n + 1))
  /-- the tables are polled in turn, without an end -/
  polls : ∀ i n, ∃ m ≥ n, ∃ page, action m = .cycle i page
  /-- every change raises the poll column -/
  rises : ∀ n, src.Rises (state n) (action n)

end PolledSource

/-! ## The next watermark -/

section

variable {page : List PolledRow} {last : Option String} {u v w : String}

/-- What is not below a value is above what that is above. -/
theorem keyBefore_of_not_keyBefore (h : keyBefore w v = true)
    (hnot : keyBefore u v = false) : keyBefore w u = true := by
  by_cases heq : u = v
  · exact heq ▸ h
  · exact keyBefore_trans h (keyBefore_total heq hnot)

theorem not_keyBefore_trans (h : keyBefore v w = false) (h' : keyBefore u v = false) :
    keyBefore u w = false := by
  cases hbefore : keyBefore u w with
  | false => rfl
  | true => rw [keyBefore_of_not_keyBefore hbefore h] at h'; cases h'

theorem keyBefore_self (w : String) : keyBefore w w = false :=
  charsBefore_irrefl w.toList

/-- The highest value seen is the first one or that of a row. -/
theorem mem_of_maxSeen (h : maxSeen last page = some w) :
    last = some w ∨ ∃ row ∈ page, row.watermark = some w := by
  induction page generalizing last with
  | nil => exact .inl h
  | cons row page ih =>
    rcases ih h with hseen | ⟨other, hother, hw⟩
    · cases hown : row.watermark with
      | none =>
        simp only [hown] at hseen
        exact .inl hseen
      | some own =>
        simp only [hown] at hseen
        split at hseen
        · cases hseen
          exact .inr ⟨row, List.mem_cons_self, hown⟩
        · exact .inl hseen
    · exact .inr ⟨other, List.mem_cons_of_mem _ hother, hw⟩

/-- It is not below the first one. -/
theorem le_maxSeen_last (page : List PolledRow) (h : last = some v) :
    ∃ w, maxSeen last page = some w ∧ keyBefore w v = false := by
  induction page generalizing last v with
  | nil => exact ⟨v, h, keyBefore_self v⟩
  | cons row page ih =>
    subst h
    rw [maxSeen, List.foldl_cons]
    cases hown : row.watermark with
    | none => exact ih rfl
    | some own =>
      cases hbefore : keyBefore v own with
      | false =>
        simp only [Option.all_some, hbefore, Bool.false_eq_true, if_false]
        exact ih rfl
      | true =>
        simp only [Option.all_some, hbefore, if_true]
        obtain ⟨w, hw, hle⟩ := ih (show some own = some own from rfl)
        refine ⟨w, hw, not_keyBefore_trans ?_ hle⟩
        cases hback : keyBefore own v with
        | false => rfl
        | true =>
          have := keyBefore_trans hbefore hback
          rw [keyBefore_self] at this
          cases this

/-- It is not below the value of a row. -/
theorem le_maxSeen_row {row : PolledRow} (hrow : row ∈ page) (h : row.watermark = some v) :
    ∃ w, maxSeen last page = some w ∧ keyBefore w v = false := by
  induction page generalizing last with
  | nil => cases hrow
  | cons first page ih =>
    rcases List.mem_cons.mp hrow with rfl | hrow
    · rw [maxSeen, List.foldl_cons, h]
      cases last with
      | none => exact le_maxSeen_last page rfl
      | some m =>
        cases hbefore : keyBefore m v with
        | true =>
          simp only [Option.all_some, hbefore, if_true]
          exact le_maxSeen_last page rfl
        | false =>
          simp only [Option.all_some, hbefore, Bool.false_eq_true, if_false]
          obtain ⟨w, hw, hle⟩ := le_maxSeen_last page (show some m = some m from rfl)
          exact ⟨w, hw, not_keyBefore_trans hbefore hle⟩
    · exact ih hrow

/-- The watermark a cycle leaves is the highest value seen. -/
theorem planCycle_watermark (t : PollTable) (last : Option String) (page : List PolledRow) :
    (t.planCycle last page).watermark.or last = maxSeen last page := by
  rw [planCycle]
  cases hmax : maxSeen last page with
  | none =>
    cases last with
    | none => rfl
    | some w =>
      obtain ⟨m, hm, -⟩ := le_maxSeen_last page (show some w = some w from rfl)
      rw [hm] at hmax
      cases hmax
  | some m =>
    by_cases hsame : some m = last
    · rw [← hsame]
      simp [Option.filter]
    · simp [Option.filter, hsame]

end

namespace PolledSource

variable {ι ρ : Type} {src : PolledSource ι ρ} {s s' : PolledState ι ρ} {i : ι} {k : ℕ} {row : ρ}
variable {v w : String}

/-! ## What a step does -/

variable {rows : List (Option ρ)}

theorem mem_placed : (k, row) ∈ placed rows ↔ rows[k]? = some (some row) := by
  simp only [placed, List.mem_filterMap, Prod.exists, List.mk_mem_zipIdx_iff_getElem?,
    Option.map_eq_some_iff, Prod.mk.injEq]
  constructor
  · rintro ⟨slot, n, hslot, own, rfl, rfl, rfl⟩
    exact hslot
  · intro h
    exact ⟨some row, k, h, row, rfl, rfl, rfl⟩

variable [DecidableEq ρ] [DecidableEq ι] {new : Option ρ} {place : ℕ}

/-- What a change does. -/
theorem step_change (h : src.step s (.change i place new) = some s') :
    s'.watermarks = s.watermarks ∧
      s'.sent = s.sent ∧ s'.settled = s.settled ∧
      (∀ j, j ≠ i → s'.rows j = s.rows j ∧ s'.committed j = s.committed j) ∧
      (∀ k row, (s'.rows i)[k]? = some (some row) →
        (s.rows i)[k]? = some (some row) ∨ (k = place ∧ new = some row)) ∧
      s'.committed i = s.committed i ++ (new.bind src.watermark).toList := by
  rw [step] at h
  split at h
  · next hplace =>
    cases h
    refine ⟨rfl, rfl, rfl, fun j hj => ⟨Function.update_of_ne hj _ _,
      Function.update_of_ne hj _ _⟩, fun k row hrow => ?_, Function.update_self _ _ _⟩
    simp only [Function.update_self] at hrow
    split at hrow
    · rw [List.getElem?_set] at hrow
      split at hrow
      · next hk => exact .inr ⟨hk.symm, Option.some.inj hrow⟩
      · exact .inl hrow
    · rw [List.getElem?_append] at hrow
      split at hrow
      · exact .inl hrow
      · next hk =>
        rw [List.getElem?_singleton] at hrow
        split at hrow
        · cases hrow
          exact .inr ⟨by omega, rfl⟩
        · cases hrow
  · cases h

variable {page : List (ℕ × ρ)}

/-- What a cycle does. -/
theorem step_cycle (h : src.step s (.cycle i page) = some s') :
    src.IsPage (s.rows i) (s.watermarks i) page ∧ s'.rows = s.rows ∧ s'.committed = s.committed ∧
      (∀ j, j ≠ i → s'.watermarks j = s.watermarks j ∧ s'.settled j = s.settled j) ∧
      s'.settled i = s.committed i ∧
      s'.watermarks i = maxSeen (s.watermarks i) (page.map fun e => src.polledRow e.2) ∧
      s'.sent = s.sent ++ page.map fun e => (i, e.1, src.polled i e.2) := by
  rw [step] at h
  split at h
  · next hpage =>
    cases h
    refine ⟨hpage, rfl, rfl, fun j hj => ⟨Function.update_of_ne hj _ _,
      Function.update_of_ne hj _ _⟩, Function.update_self _ _ _, ?_, ?_⟩
    · simp only [Function.update_self]
      exact planCycle_watermark _ _ _
    · have hzip : page.zip (page.map fun e => src.polled i e.2) =
          page.map fun e => (e, src.polled i e.2) := by
        conv_lhs => rw [← List.map_id page, List.map_map, List.zip_map']
        rfl
      simp only [planCycle, List.map_map]
      refine congrArg (s.sent ++ ·) ((congrArg (List.map fun e => (i, e.1.1, e.2)) hzip).trans ?_)
      rw [List.map_map]
      rfl
  · cases h

/-! ## Nothing is passed over -/

/-- What holds of the rows, the watermarks and what was sent. -/
structure Passed (src : PolledSource ι ρ) (startup : ι → Option String) (s : PolledState ι ρ) :
    Prop where
  /-- the values of the rows were committed -/
  committed : ∀ (i : ι) (k : ℕ) (row : ρ) (v : String), (s.rows i)[k]? = some (some row) →
    src.watermark row = some v → v ∈ s.committed i
  /-- what was committed when a page was asked for still counts as committed -/
  settled : ∀ i, ∀ v ∈ s.settled i, v ∈ s.committed i
  /-- a watermark is the one of the startup, or was committed when a page was asked for -/
  mark : ∀ i w, s.watermarks i = some w → startup i = some w ∨ w ∈ s.settled i
  /-- a row up to the watermark was sent, unless it is not past the startup -/
  sent : ∀ (i : ι) (k : ℕ) (row : ρ) (v : String), (s.rows i)[k]? = some (some row) →
    src.watermark row = some v → (∀ w ∈ startup i, Json.keyBefore w v = true) →
    (∃ w, s.watermarks i = some w ∧ Json.keyBefore w v = false) →
    (i, k, src.polled i row) ∈ s.sent

variable {startup : ι → Option String}

omit [DecidableEq ρ] [DecidableEq ι] in
theorem Passed.of_start (rows : ι → List (Option ρ)) :
    Passed src (fun i => src.latest (rows i)) (src.start rows) where
  committed i k row v hrow hv := List.mem_filterMap.mpr
    ⟨some row, List.mem_of_getElem? hrow, hv⟩
  settled _ v hv := absurd hv List.not_mem_nil
  mark _ _ hw := .inl hw
  sent i k row v _ _ hpast hmark := by
    obtain ⟨w, hw, hnot⟩ := hmark
    rw [hpast w hw] at hnot
    cases hnot

/-- A change leaves a row that is past the watermark. -/
theorem Passed.change (h : Passed src startup s) (hrises : src.Rises s (.change i place new))
    (hstep : src.step s (.change i place new) = some s') : Passed src startup s' := by
  obtain ⟨hmarks, hsent, hsettled, hothers, hrows, hcommitted⟩ := step_change hstep
  have hold : ∀ j v, v ∈ s.committed j → v ∈ s'.committed j := by
    intro j v hv
    by_cases hj : j = i
    · subst hj
      rw [hcommitted]
      exact List.mem_append_left _ hv
    · rwa [(hothers j hj).2]
  have hrow : ∀ (j : ι) (k : ℕ) (row : ρ), (s'.rows j)[k]? = some (some row) →
      (s.rows j)[k]? = some (some row) ∨ (j = i ∧ new = some row) := by
    intro j k row hrow
    by_cases hj : j = i
    · subst hj
      exact (hrows k row hrow).imp_right fun h => ⟨rfl, h.2⟩
    · exact .inl ((hothers j hj).1 ▸ hrow)
  refine ⟨fun j k row v hr hv => ?_, fun j v hv => ?_, fun j w hw => ?_,
    fun j k row v hr hv hpast hmark => ?_⟩
  · rcases hrow j k row hr with hr | ⟨rfl, rfl⟩
    · exact hold j v (h.committed j k row v hr hv)
    · rw [hcommitted, Option.bind_some, hv]
      exact List.mem_append_right _ List.mem_cons_self
  · exact hold j v (h.settled j v (hsettled ▸ hv))
  · rw [hsettled]
    exact h.mark j w (hmarks ▸ hw)
  · rw [hsent]
    rw [hmarks] at hmark
    rcases hrow j k row hr with hr | ⟨rfl, rfl⟩
    · exact h.sent j k row v hr hv hpast hmark
    · -- the new value is above the watermark, wherever that came from
      obtain ⟨w, hw, hnot⟩ := hmark
      obtain ⟨v', hv', habove⟩ := hrises
      obtain rfl : v' = v := Option.some.inj (hv'.symm.trans hv)
      have hbefore : keyBefore w v' = true := (h.mark j w hw).elim (hpast w) (habove w)
      rw [hbefore] at hnot
      cases hnot

omit [DecidableEq ι] in
/-- A row that is selected, and is not past the next watermark, is in the page. -/
theorem mem_page {last : Option String} (hpage : src.IsPage rows last page)
    (hrow : rows[k]? = some (some row)) (hv : src.watermark row = some v)
    (hselected : src.selected last row = true)
    (huntied : ∀ e ∈ (placed rows).filter fun e => src.selected last e.2, e ∉ page →
      ∀ e' ∈ page, src.watermark e.2 = src.watermark e'.2 → src.watermark e.2 = none)
    (hmax : maxSeen last (page.map fun e => src.polledRow e.2) = some w)
    (hle : keyBefore w v = false) (hlast : ∀ u ∈ last, keyBefore u v = true) :
    (k, row) ∈ page := by
  by_contra hout
  obtain ⟨-, -, -, -, hrest⟩ := hpage
  have hwanted : (k, row) ∈ (placed rows).filter fun e => src.selected last e.2 :=
    List.mem_filter.mpr ⟨mem_placed.mpr hrow, hselected⟩
  rcases mem_of_maxSeen hmax with hw | ⟨polled, hpolled, hw⟩
  · rw [hlast w hw] at hle
    cases hle
  · obtain ⟨e, he, rfl⟩ := List.mem_map.mp hpolled
    have hvalue : src.watermark e.2 = some w := hw
    have hbefore := (hrest _ hwanted hout).2 e he
    simp only [before, hv, hvalue] at hbefore
    -- neither is before the other, so the row left out has the value of one in the page
    have hsame : v = w := by
      by_contra hne
      rw [keyBefore_total (Ne.symm hne) hle] at hbefore
      cases hbefore
    have := huntied _ hwanted hout e he (by rw [hv, hvalue, hsame])
    rw [hv] at this
    cases this

/-- A cycle emits what its watermark passes. -/
theorem Passed.cycle (h : Passed src startup s) (huntied : src.Untied s (.cycle i page))
    (hstep : src.step s (.cycle i page) = some s') : Passed src startup s' := by
  obtain ⟨hpage, hrows, hcommitted, hothers, hsettled, hmark, hsent⟩ := step_cycle hstep
  refine ⟨fun j k row v hr hv => ?_, fun j v hv => ?_, fun j w hw => ?_,
    fun j k row v hr hv hpast hmarked => ?_⟩
  · rw [hrows] at hr
    rw [hcommitted]
    exact h.committed j k row v hr hv
  · rw [hcommitted]
    by_cases hj : j = i
    · subst hj
      rwa [hsettled] at hv
    · rw [(hothers j hj).2] at hv
      exact h.settled j v hv
  · by_cases hj : j = i
    · subst hj
      rw [hmark] at hw
      rw [hsettled]
      rcases mem_of_maxSeen hw with hw | ⟨polled, hpolled, hw⟩
      · exact (h.mark j w hw).imp_right (h.settled j w)
      · obtain ⟨e, he, rfl⟩ := List.mem_map.mp hpolled
        have hplaced := (List.mem_filter.mp (hpage.2.1 e he)).1
        exact .inr (h.committed j e.1 e.2 w (mem_placed.mp hplaced) hw)
    · rw [(hothers j hj).1] at hw
      rw [(hothers j hj).2]
      exact h.mark j w hw
  · rw [hrows] at hr
    rw [hsent]
    by_cases hj : j = i
    · subst hj
      obtain ⟨w, hw, hle⟩ := hmarked
      rw [hmark] at hw
      by_cases hbelow : ∃ u, s.watermarks j = some u ∧ keyBefore u v = false
      · exact List.mem_append_left _ (h.sent j k row v hr hv hpast hbelow)
      · have hlast : ∀ u ∈ s.watermarks j, keyBefore u v = true := by
          intro u hu
          cases hbefore : keyBefore u v with
          | true => rfl
          | false => exact absurd ⟨u, hu, hbefore⟩ hbelow
        have hselected : src.selected (s.watermarks j) row = true := by
          cases hwas : s.watermarks j with
          | none => rfl
          | some u =>
            rw [selected, hv]
            exact hlast u hwas
        exact List.mem_append_right _ (List.mem_map.mpr
          ⟨(k, row), mem_page hpage hr hv hselected huntied hw hle hlast, rfl⟩)
    · rw [(hothers j hj).1] at hmarked
      exact List.mem_append_left _ (h.sent j k row v hr hv hpast hmarked)

/-! ## What stands is emitted -/

/-- How many rows are past the watermark and not past a value. -/
def ahead (src : PolledSource ι ρ) (rows : List (Option ρ)) (last : Option String) (v : String) : ℕ :=
  rows.countP fun slot => slot.any fun row =>
    src.selected last row && (src.watermark row).any fun u => !Json.keyBefore v u

omit [DecidableEq ρ] [DecidableEq ι] in
theorem countP_lt_countP {α : Type} {p q : α → Bool} {l : List α}
    (h : ∀ x ∈ l, p x = true → q x = true) {a : α} (ha : a ∈ l) (hq : q a = true)
    (hp : p a = false) : l.countP p < l.countP q := by
  obtain ⟨front, back, rfl⟩ := List.append_of_mem ha
  have hfront := List.countP_mono_left fun x hx => h x (List.mem_append_left _ hx)
  have hback := List.countP_mono_left fun x hx =>
    h x (List.mem_append_right _ (List.mem_cons_of_mem _ hx))
  rw [List.countP_append, List.countP_append, List.countP_cons_of_neg (by rw [hp]; decide),
    List.countP_cons_of_pos hq]
  omega

omit [DecidableEq ρ] [DecidableEq ι] in
/-- A row that a page leaves out is behind a row of that page that has a value. -/
theorem exists_ahead {last : Option String} (hpage : src.IsPage rows last page)
    (hrow : rows[k]? = some (some row)) (hv : src.watermark row = some v)
    (hselected : src.selected last row = true) (hout : (k, row) ∉ page) :
    ∃ e ∈ page, ∃ u, src.watermark e.2 = some u ∧ keyBefore v u = false := by
  obtain ⟨-, -, -, -, hrest⟩ := hpage
  obtain ⟨hfull, hbehind⟩ := hrest (k, row)
    (List.mem_filter.mpr ⟨mem_placed.mpr hrow, hselected⟩) hout
  have hlimit : 1 ≤ src.limit := by
    rw [limit]
    omega
  obtain ⟨e, he⟩ := List.exists_mem_of_length_pos (hfull ▸ hlimit)
  have hbefore := hbehind e he
  cases hu : src.watermark e.2 with
  | none =>
    simp only [before, hv, hu] at hbefore
    cases hbefore
  | some u =>
    simp only [before, hv, hu] at hbefore
    exact ⟨e, he, u, hu, hbefore⟩

omit [DecidableEq ι] in
/-- A page has a watermark if a row that has one is selected. -/
theorem exists_maxSeen {last : Option String} (hpage : src.IsPage rows last page)
    (hrow : rows[k]? = some (some row)) (hv : src.watermark row = some v)
    (hselected : src.selected last row = true) :
    ∃ w, maxSeen last (page.map fun e => src.polledRow e.2) = some w := by
  by_cases hin : (k, row) ∈ page
  · obtain ⟨w, hw, -⟩ := @le_maxSeen_row _ last _ (src.polledRow row)
      (List.mem_map_of_mem (f := fun e : ℕ × ρ => src.polledRow e.2) hin) hv
    exact ⟨w, hw⟩
  · obtain ⟨e, he, u, hu, -⟩ := exists_ahead hpage hrow hv hselected hin
    obtain ⟨w, hw, -⟩ := @le_maxSeen_row _ last _ (src.polledRow e.2)
      (List.mem_map_of_mem (f := fun e : ℕ × ρ => src.polledRow e.2) he) hu
    exact ⟨w, hw⟩

omit [DecidableEq ρ] [DecidableEq ι] in
/-- What is past a later watermark is past an earlier one. -/
theorem selected_of_maxSeen {page : List PolledRow} {last : Option String}
    (hw : maxSeen last page = some w) {other : ρ}
    (h : src.selected (some w) other = true) : src.selected last other = true := by
  cases last with
  | none => rfl
  | some old =>
    obtain ⟨w', hw', hle⟩ := le_maxSeen_last page (show some old = some old from rfl)
    obtain rfl : w' = w := Option.some.inj (hw'.symm.trans hw)
    rw [selected] at h ⊢
    cases hu : src.watermark other with
    | none =>
      rw [hu] at h
      cases h
    | some u =>
      rw [hu] at h
      rw [Option.any_some] at h ⊢
      cases hbefore : keyBefore old u with
      | true => rfl
      | false =>
        rw [not_keyBefore_trans hbefore hle] at h
        cases h

omit [DecidableEq ρ] [DecidableEq ι] in
/-- A cycle that does not reach a value leaves fewer rows ahead of it. -/
theorem ahead_lt {last : Option String} (hpage : src.IsPage rows last page)
    (hrow : rows[k]? = some (some row)) (hv : src.watermark row = some v)
    (hselected : src.selected last row = true)
    (hmax : maxSeen last (page.map fun e => src.polledRow e.2) = some w)
    (hless : keyBefore w v = true) : src.ahead rows (some w) v < src.ahead rows last v := by
  have hout : (k, row) ∉ page := by
    intro hin
    obtain ⟨w', hw', hle⟩ := @le_maxSeen_row _ last _ (src.polledRow row)
      (List.mem_map_of_mem (f := fun e : ℕ × ρ => src.polledRow e.2) hin) hv
    obtain rfl : w' = w := Option.some.inj (hw'.symm.trans hmax)
    rw [hless] at hle
    cases hle
  obtain ⟨e, he, u, hu, hbefore⟩ := exists_ahead hpage hrow hv hselected hout
  obtain ⟨hplaced, hwanted⟩ := List.mem_filter.mp (hpage.2.1 e he)
  refine countP_lt_countP (fun slot _ hslot => ?_) (List.mem_of_getElem? (mem_placed.mp hplaced))
    ?_ ?_
  · cases slot with
    | none => cases hslot
    | some other =>
      rw [Option.any_some, Bool.and_eq_true] at hslot ⊢
      exact ⟨selected_of_maxSeen hmax hslot.1, hslot.2⟩
  · rw [Option.any_some, hwanted, hu, Option.any_some, hbefore]
    rfl
  · obtain ⟨w', hw', hle⟩ := @le_maxSeen_row _ last _ (src.polledRow e.2)
      (List.mem_map_of_mem (f := fun e : ℕ × ρ => src.polledRow e.2) he) hu
    obtain rfl : w' = w := Option.some.inj (hw'.symm.trans hmax)
    rw [Option.any_some, selected, hu, Option.any_some, hle]
    rfl

/-- A change that is above a value leaves no more rows ahead of it. -/
theorem ahead_change_le (h : src.step s (.change i place new) = some s')
    (hrises : src.Rises s (.change i place new)) (hv : v ∈ s.settled i) (last : Option String) :
    src.ahead (s'.rows i) last v ≤ src.ahead (s.rows i) last v := by
  have hnew : (new.any fun row => src.selected last row &&
      (src.watermark row).any fun u => !keyBefore v u) = false := by
    cases new with
    | none => rfl
    | some row =>
      obtain ⟨u, hu, habove⟩ := hrises
      rw [Option.any_some, hu, Option.any_some, habove v hv, Bool.not_true, Bool.and_false]
  rw [step] at h
  split at h
  · cases h
    simp only [Function.update_self, ahead]
    split
    · next hplace =>
      rw [List.countP_set hplace, hnew]
      simp
    · rw [List.countP_append, List.countP_singleton, hnew]
      simp
  · cases h

/-! ## Endless runs -/

/-- A row is at its place from some time on, and its value is past the startup's watermark. -/
structure Stands (r : src.Run) (i : ι) (k : ℕ) (row : ρ) (v : String) (n : ℕ) : Prop where
  value : src.watermark row = some v
  past : ∀ w ∈ (r.state 0).watermarks i, Json.keyBefore w v = true
  stays : ∀ m ≥ n, ((r.state m).rows i)[k]? = some (some row)

/-- **No row is lost**: what a watermark has passed was sent, and what stands is sent in some
cycle. -/
structure LosesNothing (r : src.Run) : Prop where
  /-- a row up to the watermark was sent, if it is past the startup -/
  passed : ∀ (n : ℕ) (i : ι) (k : ℕ) (row : ρ) (v : String),
    ((r.state n).rows i)[k]? = some (some row) → src.watermark row = some v →
    (∀ w ∈ (r.state 0).watermarks i, Json.keyBefore w v = true) →
    (∃ w, (r.state n).watermarks i = some w ∧ Json.keyBefore w v = false) →
    (i, k, src.polled i row) ∈ (r.state n).sent
  /-- a row that stands is sent -/
  emitted : ∀ (i : ι) (k : ℕ) (row : ρ) (v : String) (n : ℕ), Stands r i k row v n →
    ∃ m, (i, k, src.polled i row) ∈ (r.state m).sent

variable {r : src.Run}

theorem passed_of_run (huntied : ∀ n, src.Untied (r.state n) (r.action n)) (n : ℕ) :
    Passed src (r.state 0).watermarks (r.state n) := by
  obtain ⟨rows, hrows⟩ := r.initial
  induction n with
  | zero =>
    rw [hrows]
    exact .of_start rows
  | succ n ih =>
    have hstep := r.step n
    have hrises := r.rises n
    have hpage := huntied n
    cases haction : r.action n with
    | change i place new =>
      rw [haction] at hstep hrises
      exact ih.change hrises hstep
    | cycle i page =>
      rw [haction] at hstep hpage
      exact ih.cycle hpage hstep

/-- What was committed when a page was asked for stays so, while its row stands. -/
theorem Stands.settled (h : Stands r i k row v n) (huntied : ∀ n, src.Untied (r.state n) (r.action n))
    {m : ℕ} (hm : n ≤ m) (hsettled : v ∈ (r.state m).settled i) :
    v ∈ (r.state (m + 1)).settled i := by
  have hcommitted := (passed_of_run huntied m).committed i k row v (h.stays m hm) h.value
  have hstep := r.step m
  cases haction : r.action m with
  | change j place new =>
    rw [haction] at hstep
    rw [(step_change hstep).2.2.1]
    exact hsettled
  | cycle j page =>
    rw [haction] at hstep
    obtain ⟨-, -, -, hothers, hnow, -, -⟩ := step_cycle hstep
    by_cases hj : i = j
    · subst hj
      rw [hnow]
      exact hcommitted
    · rw [(hothers i hj).2]
      exact hsettled

/-- While a row that stands is not passed, a step leaves no more rows ahead of it, and a cycle leaves
fewer. -/
theorem Stands.ahead_step (h : Stands r i k row v n) {m : ℕ} (hm : n ≤ m)
    (hsettled : v ∈ (r.state m).settled i)
    (hahead : ∀ m ≥ n, ∀ w ∈ (r.state m).watermarks i, keyBefore w v = true) :
    src.ahead ((r.state (m + 1)).rows i) ((r.state (m + 1)).watermarks i) v ≤
        src.ahead ((r.state m).rows i) ((r.state m).watermarks i) v ∧
      ((∃ page, r.action m = .cycle i page) →
        src.ahead ((r.state (m + 1)).rows i) ((r.state (m + 1)).watermarks i) v <
          src.ahead ((r.state m).rows i) ((r.state m).watermarks i) v) := by
  have hstep := r.step m
  have hrises := r.rises m
  cases haction : r.action m with
  | change j place new =>
    rw [haction] at hstep hrises
    refine ⟨?_, fun hcycle => by obtain ⟨page, hpage⟩ := hcycle; cases hpage⟩
    rw [(step_change hstep).1]
    by_cases hj : i = j
    · subst hj
      exact ahead_change_le hstep hrises hsettled _
    · rw [((step_change hstep).2.2.2.1 i hj).1]
  | cycle j page =>
    rw [haction] at hstep
    obtain ⟨hpage, hrows, -, hothers, -, hmark, -⟩ := step_cycle hstep
    rw [hrows]
    by_cases hj : i = j
    · subst hj
      have hselected : src.selected ((r.state m).watermarks i) row = true := by
        cases hwas : (r.state m).watermarks i with
        | none => rfl
        | some u =>
          rw [selected, h.value]
          exact hahead m hm u hwas
      obtain ⟨w, hw⟩ := exists_maxSeen hpage (h.stays m hm) h.value hselected
      rw [← hmark] at hw
      have hlt := ahead_lt hpage (h.stays m hm) h.value hselected (hmark.symm.trans hw)
        (hahead (m + 1) (by omega) w hw)
      rw [hw]
      exact ⟨hlt.le, fun _ => hlt⟩
    · rw [(hothers i hj).1]
      exact ⟨le_refl _, fun hcycle => by
        obtain ⟨page', hpage'⟩ := hcycle
        cases hpage'
        exact absurd rfl hj⟩

/-- **Without ties at the end of a page, no row is lost.** -/
theorem losesNothing (r : src.Run) (huntied : ∀ n, src.Untied (r.state n) (r.action n)) :
    LosesNothing r := by
  refine ⟨fun n i k row v hrow hv hpast hmark =>
    (passed_of_run huntied n).sent i k row v hrow hv hpast hmark, fun i k row v n h => ?_⟩
  by_contra hnever
  have hahead : ∀ m, n ≤ m → ∀ w ∈ (r.state m).watermarks i, Json.keyBefore w v = true := by
    intro m hm w hw
    cases hbefore : Json.keyBefore w v with
    | true => rfl
    | false =>
      exact absurd ⟨m, (passed_of_run huntied m).sent i k row v (h.stays m hm) h.value h.past
        ⟨w, hw, hbefore⟩⟩ hnever
  -- the first cycle from there on settles the value
  obtain ⟨first, hfirst, page, hpage⟩ := r.polls i n
  have hsettled : ∀ m, first + 1 ≤ m → v ∈ (r.state m).settled i := by
    intro m hm
    induction m, hm using Nat.le_induction with
    | base =>
      have hstep := r.step first
      rw [hpage] at hstep
      rw [(step_cycle hstep).2.2.2.2.1]
      exact (passed_of_run huntied first).committed i k row v (h.stays first hfirst) h.value
    | succ m hm ih => exact h.settled huntied (by omega) ih
  -- no step adds to the rows ahead, and every cycle takes some away
  have hnone : ∀ count m, first + 1 ≤ m →
      ¬src.ahead ((r.state m).rows i) ((r.state m).watermarks i) v < count := by
    intro count
    induction count with
    | zero => exact fun m _ hlt => absurd hlt (Nat.not_lt_zero _)
    | succ count ih =>
      intro m hm hlt
      obtain ⟨next, hnext, hcycle⟩ := r.polls i m
      have hkept : ∀ k ≥ m, src.ahead ((r.state k).rows i) ((r.state k).watermarks i) v ≤
          src.ahead ((r.state m).rows i) ((r.state m).watermarks i) v := by
        intro k hk
        induction k, hk using Nat.le_induction with
        | base => exact le_refl _
        | succ k hk ihk =>
          exact le_trans (h.ahead_step (by omega) (hsettled k (by omega)) hahead).1 ihk
      have hfewer := hkept next hnext
      have hless := (h.ahead_step (by omega) (hsettled next (by omega)) hahead).2 hcycle
      exact ih (next + 1) (by omega) (by omega)
  exact hnone _ (first + 1) (le_refl _) (Nat.lt_succ_self _)

/-! ## Two rows that share a value -/

/-- One table, whose rows are numbers with poll values. -/
def numbered (pageSize : ℤ) : PolledSource Unit (ℕ × String) where
  table _ := { qualified := "public.users", pkColumns := ["id"] }
  doc row := .obj [("id", .int row.1), ("updated_at", .str row.2)]
  watermark row := some row.2
  deleted _ := some false
  pageSize := pageSize

/-- Its rows, when two have been added after the startup. -/
def sharedRows : List (Option (ℕ × String)) :=
  [some (0, "1"), some (1, "2"), some (2, "2")]

/-- The state when a first page was sent of them. -/
def afterPage (pageSize : ℤ) (page : List (ℕ × ℕ × String)) :
    PolledState Unit (ℕ × String) where
  rows _ := sharedRows
  watermarks _ := some "2"
  sent := page.map fun e => ((), e.1, (numbered pageSize).polled () e.2)
  committed _ := ["1", "2", "2"]
  settled _ := ["1", "2", "2"]

/-- Nothing is past the value of both rows. -/
theorem afterPage_step (pageSize : ℤ) (page : List (ℕ × ℕ × String)) :
    (numbered pageSize).step (afterPage pageSize page) (.cycle () []) =
      some (afterPage pageSize page) := by
  have hnone : (placed sharedRows).filter
      (fun e => (numbered pageSize).selected (some "2") e.2) = [] := by
    rfl
  have hpage : (numbered pageSize).IsPage ((afterPage pageSize page).rows ())
      ((afterPage pageSize page).watermarks ()) [] := by
    refine ⟨List.nodup_nil, fun e he => absurd he List.not_mem_nil, .nil, Nat.zero_le _, ?_⟩
    intro e he
    exact absurd (hnone ▸ he : e ∈ []) List.not_mem_nil
  rw [step, if_pos hpage]
  simp only [List.zip_nil_left, List.map_nil, List.append_nil]
  rfl

/-- Two rows with one value are added after the startup, a page is sent of them, and those that
follow are empty. -/
def sharedRun (pageSize : ℤ) (page : List (ℕ × ℕ × String))
    (hpage : (numbered pageSize).step
      { (numbered pageSize).start fun _ => [some (0, "1")] with
        rows := fun _ => sharedRows, committed := fun _ => ["1", "2", "2"] }
      (.cycle () page) = some (afterPage pageSize page)) : (numbered pageSize).Run where
  state
    | 0 => (numbered pageSize).start fun _ => [some (0, "1")]
    | 1 => { (numbered pageSize).start fun _ => [some (0, "1")] with
        rows := fun _ => [some (0, "1"), some (1, "2")], committed := fun _ => ["1", "2"] }
    | 2 => { (numbered pageSize).start fun _ => [some (0, "1")] with
        rows := fun _ => sharedRows, committed := fun _ => ["1", "2", "2"] }
    | _ => afterPage pageSize page
  action
    | 0 => .change () 1 (some (1, "2"))
    | 1 => .change () 2 (some (2, "2"))
    | 2 => .cycle () page
    | _ => .cycle () []
  initial := ⟨_, rfl⟩
  step
    | 0 => rfl
    | 1 => rfl
    | 2 => hpage
    | n + 3 => afterPage_step pageSize page
  polls _ n := ⟨n + 3, by omega, [], rfl⟩
  rises
    | 0 => ⟨"2", rfl, fun u hu => absurd hu List.not_mem_nil⟩
    | 1 => ⟨"2", rfl, fun u hu => absurd hu List.not_mem_nil⟩
    | 2 => trivial
    | n + 3 => trivial

/-- The page that ends between the two rows. -/
def firstOfBoth : (numbered 1).Run :=
  sharedRun 1 [(1, 1, "2")] rfl

/-- The second row is never sent. -/
theorem tied_row_lost : ¬∀ (src : PolledSource Unit (ℕ × String)) (r : src.Run), LosesNothing r := by
  intro h
  obtain ⟨m, hm⟩ := (h (numbered 1) firstOfBoth).emitted () 2 (2, "2") "2" 2 ⟨rfl, by decide, by
    intro m hm
    obtain ⟨n, rfl⟩ := Nat.exists_eq_add_of_le' hm
    rcases n with _ | n
    · rfl
    · rfl⟩
  rcases m with _ | _ | _ | m
  · cases hm
  · cases hm
  · cases hm
  · have hplace := congrArg (fun e => e.2.1) (List.mem_singleton.mp hm)
    cases hplace

/-- A page that takes both loses none. -/
theorem losesNothing_both : ∃ r : (numbered 2).Run, LosesNothing r :=
  ⟨sharedRun 2 [(1, 1, "2"), (2, 2, "2")] rfl, losesNothing _ (by
    intro n
    rcases n with _ | _ | _ | n
    · trivial
    · trivial
    · show (numbered 2).Untied _ (.cycle () [(1, 1, "2"), (2, 2, "2")])
      intro e he hout
      exact absurd hout (by revert e; decide)
    · show (numbered 2).Untied _ (.cycle () [])
      exact fun e _ _ e' he' => absurd he' List.not_mem_nil)⟩

end PolledSource

end Pg2osync
