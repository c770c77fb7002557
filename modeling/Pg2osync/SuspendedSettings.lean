import Mathlib.Logic.Function.Basic
import Pg2osync.Shadowing

/-!
# Index settings that a load suspends

While an initial load runs, `refresh_interval` is -1 and `number_of_replicas` 0. What the
indices had is read first and put back at the end, all of it in the memory of one
attempt. Where the attempt is abandoned in between nothing is put back, and the next one
reads what was left: -1 is taken for no value, but 0 for the number of replicas that
someone chose. What an index had is also not read where its name is an alias, or where
the listing is an error's body, whose status nobody looks at.

`survives_iff` says exactly which settings come through a sequence of attempts.
-/

namespace Pg2osync

/-! ## One attempt -/

/-- What an index has of the two settings; none is the target's default. -/
structure IndexSettings : Type where
  refreshInterval : Option String
  numberOfReplicas : Option String
  deriving DecidableEq

/-- What an index has during a load. -/
def IndexSettings.suspended : IndexSettings := ⟨some "-1", some "0"⟩

/-- How a request to the target ends: with an error, or never where its future is
dropped, it may have been carried out all the same. -/
inductive Reply where
  | ok
  | failed (applied : Bool)
  | dropped (applied : Bool)
  deriving DecidableEq

/-- How the request for the settings ends. An error's body that is JSON is taken for a
listing in which no index occurs. -/
inductive Listing where
  | settings
  | other
  | failed
  | dropped
  deriving DecidableEq

/-- How a future ends. -/
inductive Ending where
  | done
  | failed
  | dropped
  deriving DecidableEq

/-- What happens to one load attempt. -/
structure Attempt : Type where
  listing : Listing
  /-- to the request that suspends an index -/
  suspends : String → Reply
  load : Ending
  /-- to the request that restores an index -/
  restores : String → Reply

/-- `BulkLoadSettings`: what was put aside. -/
abbrev BulkLoadSettings : Type := List (String × Option String × Option String)

section

variable (concrete : String → String)

/-- The target's listing has an index under its own name, not under an alias. -/
def listed (settings : String → IndexSettings) (name : String) : Option IndexSettings :=
  if concrete name = name then some (settings name) else none

/-- What `begin_bulk_load` puts aside of one index. -/
def putAside (body : String → Option IndexSettings) (index : String) :
    String × Option String × Option String :=
  (index, ((body index).bind IndexSettings.refreshInterval).filter fun v => v ≠ "-1",
    (body index).bind IndexSettings.numberOfReplicas)

/-- `put_settings`, of the index that a name stands for. -/
def putSettings (name : String) (value : IndexSettings) (settings : String → IndexSettings) :
    String → IndexSettings :=
  Function.update settings (concrete name) value

/-- `put_settings` for one index after the other, up to the first that does not return. -/
def putAll (replies : String → Reply) :
    List (String × IndexSettings) → (String → IndexSettings) → (String → IndexSettings) × Ending
  | [], settings => (settings, .done)
  | (name, value) :: rest, settings =>
    match replies name with
    | .ok => putAll replies rest (putSettings concrete name value settings)
    | .failed applied =>
      (if applied then putSettings concrete name value settings else settings, .failed)
    | .dropped applied =>
      (if applied then putSettings concrete name value settings else settings, .dropped)

/-- The settings put aside, and all indices suspended. -/
def suspend (indices : List String) (a : Attempt) (body : String → Option IndexSettings)
    (settings : String → IndexSettings) : (String → IndexSettings) × Ending × BulkLoadSettings :=
  let saved := indices.map (putAside body)
  let (settings, ending) :=
    putAll concrete a.suspends (saved.map fun e => (e.1, .suspended)) settings
  (settings, ending, saved)

/-- `begin_bulk_load`. -/
def beginBulkLoad (indices : List String) (a : Attempt) (settings : String → IndexSettings) :
    (String → IndexSettings) × Ending × BulkLoadSettings :=
  if indices = [] then (settings, .done, [])
  else
    match a.listing with
    | .settings => suspend concrete indices a (listed concrete settings) settings
    | .other => suspend concrete indices a (fun _ => none) settings
    | .failed => (settings, .failed, [])
    | .dropped => (settings, .dropped, [])

/-- `end_bulk_load`. -/
def endBulkLoad (saved : BulkLoadSettings) (a : Attempt) (settings : String → IndexSettings) :
    (String → IndexSettings) × Ending :=
  putAll concrete a.restores (saved.map fun e => (e.1, ⟨e.2.1, e.2.2⟩)) settings

/-- `with_bulk_load_settings`. What `end_bulk_load` could not restore is only logged. -/
def withBulkLoadSettings (indices : List String) (a : Attempt)
    (settings : String → IndexSettings) : (String → IndexSettings) × Ending :=
  match beginBulkLoad concrete indices a settings with
  | (settings, .done, saved) =>
    match a.load with
    | .dropped => (settings, .dropped)
    | result =>
      match endBulkLoad concrete saved a settings with
      | (settings, .dropped) => (settings, .dropped)
      | (settings, _) => (settings, result)
  | (settings, ending, _) => (settings, ending)

/-- What the target has after some attempts. -/
def afterAttempts (indices : List String) (attempts : List Attempt)
    (settings : String → IndexSettings) : String → IndexSettings :=
  attempts.foldl (fun settings a => (withBulkLoadSettings concrete indices a settings).1) settings

end

/-! ## What an attempt does to an index -/

/-- The names whose request is carried out. -/
def applied (replies : String → Reply) : List String → List String
  | [] => []
  | name :: rest =>
    match replies name with
    | .ok => name :: applied replies rest
    | .failed done | .dropped done => if done then [name] else []

section

variable (concrete : String → String) (indices : List String) (a : Attempt)

/-- An attempt suspends an index. -/
def Suspends (index : String) : Prop :=
  (a.listing = .settings ∨ a.listing = .other) ∧ index ∈ applied a.suspends indices

/-- An attempt gets as far as restoring an index, whatever to. -/
def Restores (index : String) : Prop :=
  (∀ other ∈ indices, a.suspends other = .ok) ∧ a.load ≠ .dropped ∧
    index ∈ applied a.restores indices

/-- An index that an attempt suspends, it restores to what was read. -/
def Keeps (index : String) : Prop :=
  Suspends indices a index →
    Restores indices a index ∧ a.listing = .settings ∧ concrete index = index

instance (index : String) : Decidable (Suspends indices a index) :=
  inferInstanceAs (Decidable (_ ∧ _))

instance (index : String) : Decidable (Restores indices a index) :=
  inferInstanceAs (Decidable (_ ∧ _))

instance (index : String) : Decidable (Keeps concrete indices a index) :=
  inferInstanceAs (Decidable (Suspends indices a index → _))

/-- An attempt runs to completion. -/
structure Completes : Prop where
  listing : a.listing = .settings ∨ a.listing = .other
  suspends : ∀ index ∈ indices, a.suspends index = .ok
  load : a.load = .done
  restores : ∀ index ∈ indices, a.restores index = .ok

end

variable {concrete : String → String} {indices : List String} {a : Attempt} {index : String}
  {settings : String → IndexSettings}

variable {replies : String → Reply}

theorem applied_of_ok (h : ∀ index ∈ indices, replies index = .ok) :
    applied replies indices = indices := by
  induction indices with
  | nil => rfl
  | cons name rest ih =>
    simp only [applied, h name List.mem_cons_self,
      ih fun index hindex => h index (List.mem_cons_of_mem _ hindex)]

theorem putSettings_self (name : String) (value : IndexSettings)
    (settings : String → IndexSettings) :
    putSettings concrete name value settings (concrete name) = value := by
  rw [putSettings, Function.update_self]

theorem putSettings_of_ne {name : String} (h : concrete index ≠ concrete name)
    (value : IndexSettings) (settings : String → IndexSettings) :
    putSettings concrete name value settings (concrete index) = settings (concrete index) := by
  rw [putSettings, Function.update_of_ne h]

theorem putAll_of_not_mem {entries : List (String × IndexSettings)}
    (h : ∀ e ∈ entries, concrete e.1 ≠ concrete index) :
    (putAll concrete replies entries settings).1 (concrete index) = settings (concrete index) := by
  induction entries generalizing settings with
  | nil => rfl
  | cons e rest ih =>
    have hself := putSettings_of_ne (Ne.symm (h e List.mem_cons_self)) e.2 settings
    rw [putAll]
    split
    · exact (ih fun e he => h e (List.mem_cons_of_mem _ he)).trans hself
    all_goals
      simp only
      split
      · exact hself
      · rfl

/-- Of indices that differ, each gets its own value where its request is carried out. -/
theorem putAll_at (value : String → IndexSettings) (hnodup : (indices.map concrete).Nodup)
    (hindex : index ∈ indices) :
    (putAll concrete replies (indices.map fun name => (name, value name)) settings).1
        (concrete index) =
      if index ∈ applied replies indices then value index else settings (concrete index) := by
  induction indices generalizing settings with
  | nil => cases hindex
  | cons name rest ih =>
    rw [List.map_cons, List.nodup_cons] at hnodup
    rw [List.map_cons, putAll, applied]
    rcases List.mem_cons.mp hindex with rfl | hrest
    · have hfresh : ∀ e ∈ rest.map fun name => (name, value name),
          concrete e.1 ≠ concrete index := by
        rintro e he heq
        obtain ⟨name, hname, rfl⟩ := List.mem_map.mp he
        exact hnodup.1 (List.mem_map.mpr ⟨name, hname, heq⟩)
      split
      · rw [putAll_of_not_mem hfresh, if_pos List.mem_cons_self]
        exact putSettings_self ..
      all_goals
        simp only
        split
        · rw [if_pos (List.mem_singleton_self _)]
          exact putSettings_self ..
        · rw [if_neg List.not_mem_nil]
    · have hne : concrete index ≠ concrete name := fun heq =>
        hnodup.1 (heq ▸ List.mem_map_of_mem hrest)
      have hself := putSettings_of_ne hne (value name) settings
      have hname : index ≠ name := fun heq => hne (congrArg concrete heq)
      split
      · rw [ih hnodup.2 hrest, hself]
        simp only [List.mem_cons, hname, false_or]
      all_goals
        simp only
        split
        · rw [if_neg (by simpa using hname)]
          exact hself
        · rw [if_neg List.not_mem_nil]

theorem putAll_done (value : String → IndexSettings) :
    (putAll concrete replies (indices.map fun name => (name, value name)) settings).2 = .done ↔
      ∀ name ∈ indices, replies name = .ok := by
  induction indices generalizing settings with
  | nil => simp [putAll]
  | cons name rest ih =>
    rw [List.map_cons, putAll]
    split
    · next hok => simp [ih, hok]
    · next hfailed => simp [hfailed]
    · next hdropped => simp [hdropped]

/-! ## One index over an attempt -/

/-- What an attempt puts aside of an index. -/
def asideOf (concrete : String → String) (a : Attempt) (settings : String → IndexSettings)
    (index : String) : IndexSettings :=
  let body := if a.listing = .settings then listed concrete settings else fun _ => none
  ⟨(putAside body index).2.1, (putAside body index).2.2⟩

theorem suspend_at (hnodup : (indices.map concrete).Nodup) (hindex : index ∈ indices)
    (a : Attempt) (body : String → Option IndexSettings) (settings : String → IndexSettings) :
    (suspend concrete indices a body settings).1 (concrete index) =
      if index ∈ applied a.suspends indices then .suspended else settings (concrete index) := by
  rw [suspend]
  simp only [List.map_map, Function.comp_def]
  exact putAll_at (fun _ => .suspended) hnodup hindex

theorem suspend_done (concrete : String → String) (indices : List String) (a : Attempt)
    (body : String → Option IndexSettings) (settings : String → IndexSettings) :
    (suspend concrete indices a body settings).2.1 = .done ↔
      ∀ name ∈ indices, a.suspends name = .ok := by
  rw [suspend]
  simp only [List.map_map, Function.comp_def]
  exact putAll_done fun _ => .suspended

theorem endBulkLoad_at (hnodup : (indices.map concrete).Nodup) (hindex : index ∈ indices)
    (a : Attempt) (body : String → Option IndexSettings) (settings : String → IndexSettings) :
    (endBulkLoad concrete (indices.map (putAside body)) a settings).1 (concrete index) =
      if index ∈ applied a.restores indices then
        ⟨(putAside body index).2.1, (putAside body index).2.2⟩
      else settings (concrete index) := by
  rw [endBulkLoad, List.map_map]
  exact putAll_at (fun name => ⟨(putAside body name).2.1, (putAside body name).2.2⟩) hnodup hindex

/-- Where the load returns, its attempt goes on to restore; else nothing is restored. -/
theorem withBulk_fst {middle : String → IndexSettings} {ending : Ending}
    {saved : BulkLoadSettings}
    (hbegin : beginBulkLoad concrete indices a settings = (middle, ending, saved)) :
    (withBulkLoadSettings concrete indices a settings).1 =
      if ending = .done ∧ a.load ≠ .dropped then (endBulkLoad concrete saved a middle).1
      else middle := by
  rw [withBulkLoadSettings, hbegin]
  rcases hend : endBulkLoad concrete saved a middle with ⟨last, ended⟩
  rcases ending with _ | _ | _
  · rcases hload : a.load with _ | _ | _
    · rcases ended with _ | _ | _
      all_goals simp [hend]
    · rcases ended with _ | _ | _
      all_goals simp [hend]
    · simp
  · simp
  · simp

/-- An attempt that has a listing leaves an index as it was, or suspended, or restored to
what was put aside. -/
theorem withBulk_of_suspend (hnodup : (indices.map concrete).Nodup) (hindex : index ∈ indices)
    {body : String → Option IndexSettings}
    (hbegin : beginBulkLoad concrete indices a settings =
      suspend concrete indices a body settings) :
    (index ∉ applied a.suspends indices →
      (withBulkLoadSettings concrete indices a settings).1 (concrete index) =
        settings (concrete index)) ∧
    (index ∈ applied a.suspends indices →
      (¬ Restores indices a index →
        (withBulkLoadSettings concrete indices a settings).1 (concrete index) = .suspended) ∧
      (Restores indices a index →
        (withBulkLoadSettings concrete indices a settings).1 (concrete index) =
          ⟨(putAside body index).2.1, (putAside body index).2.2⟩)) := by
  have hat := suspend_at hnodup hindex a body settings
  have hdone := suspend_done concrete indices a body settings
  have hend := endBulkLoad_at hnodup hindex a body (suspend concrete indices a body settings).1
  have hbegin : beginBulkLoad concrete indices a settings =
      ((suspend concrete indices a body settings).1, (suspend concrete indices a body settings).2.1,
        indices.map (putAside body)) := hbegin
  rw [withBulk_fst hbegin]
  by_cases hok : ∀ name ∈ indices, a.suspends name = .ok
  · have hin : index ∈ applied a.suspends indices := (applied_of_ok hok).symm ▸ hindex
    rw [if_pos hin] at hat
    refine ⟨fun h => absurd hin h, fun _ => ?_⟩
    by_cases hload : a.load = .dropped
    · rw [if_neg fun h => h.2 hload]
      exact ⟨fun _ => hat, fun h => absurd hload h.2.1⟩
    · rw [if_pos ⟨hdone.mpr hok, hload⟩, hend]
      constructor
      · intro hnot
        rw [if_neg fun h => hnot ⟨hok, hload, h⟩, hat]
      · intro hrestores
        rw [if_pos hrestores.2.2]
  · rw [if_neg fun h => hok (hdone.mp h.1), hat]
    refine ⟨fun h => if_neg h, fun h => ⟨fun _ => if_pos h, fun hrestores => ?_⟩⟩
    exact absurd hrestores.1 hok

/-- What an attempt makes of an index. -/
theorem withBulk_at (hnodup : (indices.map concrete).Nodup) (hindex : index ∈ indices)
    (a : Attempt) (settings : String → IndexSettings) :
    (¬ Suspends indices a index →
      (withBulkLoadSettings concrete indices a settings).1 (concrete index) =
        settings (concrete index)) ∧
    (Suspends indices a index → ¬ Restores indices a index →
      (withBulkLoadSettings concrete indices a settings).1 (concrete index) = .suspended) ∧
    (Suspends indices a index → Restores indices a index →
      (withBulkLoadSettings concrete indices a settings).1 (concrete index) =
        asideOf concrete a settings index) := by
  have hne : indices ≠ [] := List.ne_nil_of_mem hindex
  rcases hlisting : a.listing with _ | _ | _ | _
  · have hbegin : beginBulkLoad concrete indices a settings =
        suspend concrete indices a (listed concrete settings) settings := by
      rw [beginBulkLoad, if_neg hne, hlisting]
    obtain ⟨hkept, hsuspended⟩ := withBulk_of_suspend hnodup hindex hbegin
    refine ⟨fun h => hkept fun hin => h ⟨.inl hlisting, hin⟩, fun h => (hsuspended h.2).1,
      fun h hrestores => ?_⟩
    rw [(hsuspended h.2).2 hrestores, asideOf, hlisting]
    rfl
  · have hbegin : beginBulkLoad concrete indices a settings =
        suspend concrete indices a (fun _ => none) settings := by
      rw [beginBulkLoad, if_neg hne, hlisting]
    obtain ⟨hkept, hsuspended⟩ := withBulk_of_suspend hnodup hindex hbegin
    refine ⟨fun h => hkept fun hin => h ⟨.inr hlisting, hin⟩, fun h => (hsuspended h.2).1,
      fun h hrestores => ?_⟩
    rw [(hsuspended h.2).2 hrestores, asideOf, hlisting]
    rfl
  all_goals
    have hnot : ¬ Suspends indices a index := by
      rintro ⟨h | h, -⟩
      · cases hlisting.symm.trans h
      · cases hlisting.symm.trans h
    refine ⟨fun _ => ?_, fun h => absurd h hnot, fun h => absurd h hnot⟩
    rw [withBulkLoadSettings, beginBulkLoad, if_neg hne, hlisting]

/-! ## One index over several attempts -/

/-- No refresh interval is left to read. -/
def NoInterval (s : IndexSettings) : Prop :=
  s.refreshInterval = none ∨ s.refreshInterval = some "-1"

theorem asideOf_noInterval (h : NoInterval (settings (concrete index))) :
    (asideOf concrete a settings index).refreshInterval = none := by
  rw [asideOf]
  simp only [putAside]
  split
  · rw [listed]
    split
    · next hself =>
      rw [hself] at h
      rcases h with h | h
      · simp [h]
      · simp [h]
    · rfl
  · rfl

theorem asideOf_of_listed (hlisting : a.listing = .settings) (hself : concrete index = index) :
    asideOf concrete a settings index =
      ⟨(settings (concrete index)).refreshInterval.filter fun v => v ≠ "-1",
        (settings (concrete index)).numberOfReplicas⟩ := by
  rw [asideOf, if_pos hlisting, putAside, listed, if_pos hself, hself]
  rfl

theorem asideOf_of_unlisted (h : ¬ (a.listing = .settings ∧ concrete index = index)) :
    asideOf concrete a settings index = ⟨none, none⟩ := by
  rw [asideOf]
  split
  · next hlisting =>
    rw [putAside, listed, if_neg fun hself => h ⟨hlisting, hself⟩]
    rfl
  · rfl

/-- An index that an attempt keeps has what it had, but for an interval of -1. -/
theorem withBulk_of_keeps (hnodup : (indices.map concrete).Nodup) (hindex : index ∈ indices)
    (h : Keeps concrete indices a index) (settings : String → IndexSettings) :
    ((settings (concrete index)).refreshInterval ≠ some "-1" →
      ((withBulkLoadSettings concrete indices a settings).1 (concrete index)).refreshInterval =
        (settings (concrete index)).refreshInterval) ∧
    ((withBulkLoadSettings concrete indices a settings).1 (concrete index)).numberOfReplicas =
      (settings (concrete index)).numberOfReplicas := by
  obtain ⟨hkept, -, hrestored⟩ := withBulk_at hnodup hindex a settings
  by_cases hsuspends : Suspends indices a index
  · obtain ⟨hrestores, hlisting, hself⟩ := h hsuspends
    rw [hrestored hsuspends hrestores, asideOf_of_listed hlisting hself]
    refine ⟨fun hne => ?_, rfl⟩
    rcases hinterval : (settings (concrete index)).refreshInterval with _ | v
    · rfl
    · rw [hinterval] at hne
      have hv : Option.filter (fun v => decide (v ≠ "-1")) (some v) = some v :=
        Option.filter_some_pos (by simpa using hne)
      exact hv
  · rw [hkept hsuspends]
    exact ⟨fun _ => rfl, rfl⟩

/-- An index that an attempt does not keep is left suspended, or restored to the
target's defaults. -/
theorem withBulk_of_not_keeps (hnodup : (indices.map concrete).Nodup) (hindex : index ∈ indices)
    (h : ¬ Keeps concrete indices a index) (settings : String → IndexSettings) :
    (¬ Restores indices a index →
      (withBulkLoadSettings concrete indices a settings).1 (concrete index) = .suspended) ∧
    (Restores indices a index →
      (withBulkLoadSettings concrete indices a settings).1 (concrete index) = ⟨none, none⟩) := by
  obtain ⟨-, hsuspended, hrestored⟩ := withBulk_at hnodup hindex a settings
  rw [Keeps, Classical.not_imp] at h
  refine ⟨hsuspended h.1, fun hrestores => ?_⟩
  rw [hrestored h.1 hrestores]
  exact asideOf_of_unlisted fun hlisted => h.2 ⟨hrestores, hlisted⟩

theorem NoInterval.withBulk (hnodup : (indices.map concrete).Nodup) (hindex : index ∈ indices)
    (h : NoInterval (settings (concrete index))) :
    NoInterval ((withBulkLoadSettings concrete indices a settings).1 (concrete index)) := by
  obtain ⟨hkept, hsuspended, hrestored⟩ :=
    withBulk_at hnodup hindex a settings
  by_cases hsuspends : Suspends indices a index
  · by_cases hrestores : Restores indices a index
    · rw [hrestored hsuspends hrestores]
      exact .inl (asideOf_noInterval h)
    · rw [hsuspended hsuspends hrestores]
      exact .inr rfl
  · rw [hkept hsuspends]
    exact h

theorem afterAttempts_append (before after : List Attempt) :
    afterAttempts concrete indices (before ++ after) settings =
      afterAttempts concrete indices after (afterAttempts concrete indices before settings) :=
  List.foldl_append

variable {attempts : List Attempt}

/-- What every attempt keeps is there at the end. -/
theorem afterAttempts_of_keeps (hnodup : (indices.map concrete).Nodup) (hindex : index ∈ indices)
    (h : ∀ a ∈ attempts, Keeps concrete indices a index) (settings : String → IndexSettings) :
    ((settings (concrete index)).refreshInterval ≠ some "-1" →
      (afterAttempts concrete indices attempts settings (concrete index)).refreshInterval =
        (settings (concrete index)).refreshInterval) ∧
    (afterAttempts concrete indices attempts settings (concrete index)).numberOfReplicas =
      (settings (concrete index)).numberOfReplicas := by
  induction attempts generalizing settings with
  | nil => exact ⟨fun _ => rfl, rfl⟩
  | cons a attempts ih =>
    obtain ⟨hinterval, hreplicas⟩ :=
      withBulk_of_keeps hnodup hindex (h a List.mem_cons_self) settings
    obtain ⟨hintervals, hreplicass⟩ := ih (fun a ha => h a (List.mem_cons_of_mem _ ha))
      (withBulkLoadSettings concrete indices a settings).1
    refine ⟨fun hne => ?_, hreplicass.trans hreplicas⟩
    have hfirst := hinterval hne
    exact (hintervals (by rwa [hfirst])).trans hfirst

theorem NoInterval.afterAttempts (hnodup : (indices.map concrete).Nodup)
    (hindex : index ∈ indices) (h : NoInterval (settings (concrete index)))
    (attempts : List Attempt) :
    NoInterval (Pg2osync.afterAttempts concrete indices attempts settings (concrete index)) := by
  induction attempts generalizing settings with
  | nil => exact h
  | cons a attempts ih => exact ih (h.withBulk hnodup hindex)

/-- A run whose attempts do not all keep an index has a last one that does not. -/
theorem exists_last_loss {keeps : Attempt → Prop} (h : ¬ ∀ a ∈ attempts, keeps a) :
    ∃ before a after, attempts = before ++ a :: after ∧ ¬ keeps a ∧ ∀ b ∈ after, keeps b := by
  induction attempts with
  | nil => exact absurd (fun _ ha => absurd ha List.not_mem_nil) h
  | cons a attempts ih =>
    by_cases hrest : ∀ b ∈ attempts, keeps b
    · refine ⟨[], a, attempts, rfl, fun ha => h fun b hb => ?_, hrest⟩
      rcases List.mem_cons.mp hb with rfl | hb
      · exact ha
      · exact hrest b hb
    · obtain ⟨before, b, after, rfl, hlost, hafter⟩ := ih hrest
      exact ⟨a :: before, b, after, rfl, hlost, hafter⟩

/-! ## Which settings come through -/

/-- The two settings of an index with the target's defaults in place are the same. -/
def SameSettings (defaults : String × String) (s t : IndexSettings) : Prop :=
  s.refreshInterval.getD defaults.1 = t.refreshInterval.getD defaults.1 ∧
    s.numberOfReplicas.getD defaults.2 = t.numberOfReplicas.getD defaults.2

/-- An interval comes through where it is the target's default, or else is not -1 and
every attempt keeps the index. -/
def IntervalSurvives (concrete : String → String) (indices : List String) (default : String)
    (attempts : List Attempt) (s : IndexSettings) (index : String) : Prop :=
  s.refreshInterval.getD default = default ∨
    s.refreshInterval ≠ some "-1" ∧ ∀ a ∈ attempts, Keeps concrete indices a index

/-- A number of replicas comes through where the last attempt that does not keep the
index, if any, leaves the same number: 0, or the default where it restores. -/
def ReplicasSurvive (concrete : String → String) (indices : List String) (default : String)
    (attempts : List Attempt) (s : IndexSettings) (index : String) : Prop :=
  ∀ before a after, attempts = before ++ a :: after → ¬ Keeps concrete indices a index →
    (∀ b ∈ after, Keeps concrete indices b index) →
    (Restores indices a index → s.numberOfReplicas.getD default = default) ∧
    (¬ Restores indices a index → s.numberOfReplicas.getD default = "0")

theorem Completes.suspends_restores (h : Completes indices a) (hindex : index ∈ indices) :
    Suspends indices a index ∧ Restores indices a index := by
  refine ⟨⟨h.listing, ?_⟩, h.suspends, ?_, ?_⟩
  · rw [applied_of_ok h.suspends]
    exact hindex
  · rw [h.load]
    exact nofun
  · rw [applied_of_ok h.restores]
    exact hindex

/-- After a complete attempt, an interval that was lost on the way is the default. -/
theorem interval_lost (hnodup : (indices.map concrete).Nodup) (hindex : index ∈ indices)
    {last : Attempt} (hlast : Completes indices last) (h : NoInterval (settings (concrete index)) ∨
      ¬ ∀ a ∈ attempts ++ [last], Keeps concrete indices a index) :
    (afterAttempts concrete indices (attempts ++ [last]) settings
      (concrete index)).refreshInterval = none := by
  obtain ⟨hsuspends, hrestores⟩ := hlast.suspends_restores hindex
  by_cases hkeeps : Keeps concrete indices last index
  · -- it was lost before, and the last attempt reads no interval
    have hbefore : NoInterval (afterAttempts concrete indices attempts settings
        (concrete index)) := by
      rcases h with h | h
      · exact h.afterAttempts hnodup hindex attempts
      · obtain ⟨before, a, after, rfl, hlost, -⟩ := exists_last_loss fun hall =>
          h fun a ha => (List.mem_append.mp ha).elim (hall a) fun ha => by
            rw [List.mem_singleton.mp ha]
            exact hkeeps
        rw [afterAttempts_append]
        obtain ⟨hsuspended, hdefault⟩ := withBulk_of_not_keeps hnodup hindex hlost
          (afterAttempts concrete indices before settings)
        have hgone : NoInterval ((withBulkLoadSettings concrete indices a
            (afterAttempts concrete indices before settings)).1 (concrete index)) := by
          by_cases hrestores : Restores indices a index
          · rw [hdefault hrestores]
            exact .inl rfl
          · rw [hsuspended hrestores]
            exact .inr rfl
        exact hgone.afterAttempts hnodup hindex after
    rw [afterAttempts_append]
    have hat := (withBulk_at hnodup hindex last
      (afterAttempts concrete indices attempts settings)).2.2 hsuspends hrestores
    exact (congrArg IndexSettings.refreshInterval hat).trans (asideOf_noInterval hbefore)
  · rw [afterAttempts_append]
    exact congrArg IndexSettings.refreshInterval
      ((withBulk_of_not_keeps hnodup hindex hkeeps _).2 hrestores)

theorem interval_survives_iff (hnodup : (indices.map concrete).Nodup) (hindex : index ∈ indices)
    {last : Attempt} (hlast : Completes indices last) (default : String) :
    (afterAttempts concrete indices (attempts ++ [last]) settings
        (concrete index)).refreshInterval.getD default =
      (settings (concrete index)).refreshInterval.getD default ↔
    IntervalSurvives concrete indices default (attempts ++ [last]) (settings (concrete index))
      index := by
  have hlost : (NoInterval (settings (concrete index)) ∨
      ¬ ∀ a ∈ attempts ++ [last], Keeps concrete indices a index) → _ :=
    interval_lost hnodup hindex hlast
  rw [IntervalSurvives]
  by_cases hkeeps : ∀ a ∈ attempts ++ [last], Keeps concrete indices a index
  · by_cases hne : (settings (concrete index)).refreshInterval = some "-1"
    · rw [hlost (.inl (.inr hne)), hne]
      simp [eq_comm]
    · rw [(afterAttempts_of_keeps hnodup hindex hkeeps settings).1 hne]
      exact ⟨fun _ => .inr ⟨hne, hkeeps⟩, fun _ => rfl⟩
  · rw [hlost (.inr hkeeps), Option.getD_none]
    exact ⟨fun h => .inl h.symm, fun h => h.elim Eq.symm fun h => absurd h.2 hkeeps⟩

theorem replicas_survive_iff (hnodup : (indices.map concrete).Nodup) (hindex : index ∈ indices)
    (attempts : List Attempt) (default : String) :
    (afterAttempts concrete indices attempts settings
        (concrete index)).numberOfReplicas.getD default =
      (settings (concrete index)).numberOfReplicas.getD default ↔
    ReplicasSurvive concrete indices default attempts (settings (concrete index)) index := by
  have hlost : ∀ before a after, attempts = before ++ a :: after →
      ¬ Keeps concrete indices a index → (∀ b ∈ after, Keeps concrete indices b index) →
      (Restores indices a index → (afterAttempts concrete indices attempts settings
        (concrete index)).numberOfReplicas = none) ∧
      (¬ Restores indices a index → (afterAttempts concrete indices attempts settings
        (concrete index)).numberOfReplicas = some "0") := by
    rintro before a after rfl hnot hafter
    have hstep := withBulk_of_not_keeps hnodup hindex hnot
      (afterAttempts concrete indices before settings)
    rw [afterAttempts_append]
    have hrest := (afterAttempts_of_keeps hnodup hindex hafter
      (withBulkLoadSettings concrete indices a
        (afterAttempts concrete indices before settings)).1).2
    constructor
    · intro hrestores
      exact hrest.trans (congrArg IndexSettings.numberOfReplicas (hstep.2 hrestores))
    · intro hrestores
      exact hrest.trans (congrArg IndexSettings.numberOfReplicas (hstep.1 hrestores))
  constructor
  · intro h before a after heq hnot hafter
    obtain ⟨hnone, hzero⟩ := hlost before a after heq hnot hafter
    constructor
    · intro hrestores
      rw [← h, hnone hrestores, Option.getD_none]
    · intro hrestores
      rw [← h, hzero hrestores, Option.getD_some]
  · intro h
    by_cases hkeeps : ∀ a ∈ attempts, Keeps concrete indices a index
    · rw [(afterAttempts_of_keeps hnodup hindex hkeeps settings).2]
    · obtain ⟨before, a, after, heq, hnot, hafter⟩ := exists_last_loss hkeeps
      obtain ⟨hnone, hzero⟩ := hlost before a after heq hnot hafter
      obtain ⟨hdefault, hsame⟩ := h before a after heq hnot hafter
      by_cases hrestores : Restores indices a index
      · rw [hnone hrestores, hdefault hrestores, Option.getD_none]
      · rw [hzero hrestores, hsame hrestores, Option.getD_some]

/-- The settings of the indices come through a sequence of attempts that ends with a
complete one if and only if both settings of each do. -/
theorem survives_iff (hnodup : (indices.map concrete).Nodup) (attempts : List Attempt)
    {last : Attempt} (hlast : Completes indices last) (defaults : String × String)
    (settings : String → IndexSettings) :
    (∀ index ∈ indices, SameSettings defaults
      (afterAttempts concrete indices (attempts ++ [last]) settings (concrete index))
      (settings (concrete index))) ↔
    ∀ index ∈ indices,
      IntervalSurvives concrete indices defaults.1 (attempts ++ [last])
        (settings (concrete index)) index ∧
      ReplicasSurvive concrete indices defaults.2 (attempts ++ [last])
        (settings (concrete index)) index := by
  refine forall₂_congr fun index hindex => ?_
  exact and_congr (interval_survives_iff hnodup hindex hlast defaults.1)
    (replicas_survive_iff hnodup hindex (attempts ++ [last]) defaults.2)

/-! ## The indices of a configuration -/

theorem addSpec_names (name : String) (mapping : Option Json) (pattern : Bool)
    (specs : List Config.IndexSpec) :
    (Config.addSpec name mapping pattern specs).map Config.IndexSpec.name =
      if name ∈ specs.map Config.IndexSpec.name then specs.map Config.IndexSpec.name
      else specs.map Config.IndexSpec.name ++ [name] := by
  induction specs with
  | nil => rfl
  | cons spec rest ih =>
    rw [Config.addSpec]
    by_cases hname : spec.name = name
    · simp [hname]
    · rw [if_neg hname, List.map_cons, ih]
      simp only [List.map_cons, List.mem_cons, Ne.symm hname, false_or]
      split
      · rfl
      · rfl

theorem addSpec_nodup (name : String) (mapping : Option Json) (pattern : Bool)
    {specs : List Config.IndexSpec} (h : (specs.map Config.IndexSpec.name).Nodup) :
    ((Config.addSpec name mapping pattern specs).map Config.IndexSpec.name).Nodup := by
  rw [addSpec_names]
  split
  · exact h
  · next hnot =>
    rw [List.nodup_append]
    refine ⟨h, List.nodup_singleton name, fun a ha b hb heq => hnot ?_⟩
    rwa [← List.mem_singleton.mp hb, ← heq]

theorem foldlM_keeps {ε α σ : Type} {P : σ → Prop} {f : σ → α → Except ε σ} {list : List α}
    (hf : ∀ s x s', f s x = .ok s' → P s → P s') {init last : σ}
    (h : list.foldlM f init = .ok last) (hinit : P init) : P last := by
  induction list generalizing init with
  | nil =>
    cases h
    exact hinit
  | cons x list ih =>
    rw [List.foldlM_cons] at h
    obtain ⟨next, hnext, h⟩ := Except.bind_eq_ok h
    exact ih h (hf init x next hnext hinit)

/-- A configuration suspends each index once. -/
theorem fixedIndexNames_nodup {sync : Dictionary String Config.TableSync}
    {names : List String} (h : Config.fixedIndexNames sync = .ok names) : names.Nodup := by
  obtain ⟨specs, hspecs, rfl⟩ := Except.map_eq_ok h
  have hnodup : (specs.map Config.IndexSpec.name).Nodup := by
    rw [Config.indexSpecs] at hspecs
    refine foldlM_keeps (P := fun specs => (specs.map Config.IndexSpec.name).Nodup)
      (fun specs e specs' hstep hnodup => ?_) hspecs List.nodup_nil
    obtain ⟨target, -, rfl⟩ := Except.map_eq_ok hstep
    cases target with
    | fixed name => exact addSpec_nodup _ _ _ hnodup
    | template spec template => exact addSpec_nodup _ _ _ hnodup
  exact hnodup.sublist (List.filter_sublist.map _)

/-! ### A load that is abandoned -/

/-- Nothing goes wrong. -/
def completed : Attempt := ⟨.settings, fun _ => .ok, .done, fun _ => .ok⟩

/-- The target refuses to suspend an index. -/
def refused : Attempt := { completed with suspends := fun _ => .failed false }

/-- The stream fails while the load runs. -/
def abandoned : Attempt := { completed with load := .dropped }

/-- An index whose settings were chosen. -/
def chosen : String → IndexSettings := fun _ => ⟨some "5s", some "2"⟩

theorem completes_completed (indices : List String) : Completes indices completed :=
  ⟨.inl rfl, fun _ _ => rfl, rfl, fun _ _ => rfl⟩

theorem refused_survives :
    SameSettings ("1s", "1")
        (afterAttempts id ["orders", "users"] ([refused] ++ [completed]) chosen "orders")
        (chosen "orders") ∧
      SameSettings ("1s", "1")
        (afterAttempts id ["orders", "users"] ([refused] ++ [completed]) chosen "users")
        (chosen "users") := by
  have hindices : Config.fixedIndexNames (Config.syncing [("orders", "public.orders"),
      ("users", "public.users")]).sync = .ok ["orders", "users"] := by
    decide +kernel
  have hnodup : (["orders", "users"].map id).Nodup := by
    rw [List.map_id]
    exact fixedIndexNames_nodup hindices
  have hkeeps : ∀ index ∈ ["orders", "users"], ∀ a ∈ [refused] ++ [completed],
      Keeps id ["orders", "users"] a index := by
    decide
  have hsurvives := (survives_iff hnodup [refused] (completes_completed _) ("1s", "1") chosen).mpr ?_
  · exact ⟨hsurvives "orders" (by decide), hsurvives "users" (by decide)⟩
  intro index hindex
  have hinterval : (chosen index).refreshInterval ≠ some "-1" := by
    rw [chosen]
    decide
  refine ⟨.inr ⟨hinterval, hkeeps index hindex⟩, fun before a after heq hlost => ?_⟩
  refine absurd (hkeeps index hindex a ?_) hlost
  rw [heq]
  exact List.mem_append_right _ List.mem_cons_self

/-- One abandoned load, and the next one puts back neither the interval nor the
replicas. An alias loses its settings to a load that nothing disturbs. -/
theorem abandoned_lost :
    (∃ indices attempts last, Completes indices last ∧ (indices.map id).Nodup ∧
      ¬ ∀ index ∈ indices, SameSettings ("1s", "1")
        (afterAttempts id indices (attempts ++ [last]) chosen (id index)) (chosen (id index))) ∧
    ¬ SameSettings ("1s", "1")
      (afterAttempts (fun _ => "users_v1") ["users"] [completed] chosen "users_v1")
      (chosen "users_v1") := by
  refine ⟨⟨["users"], [abandoned], completed, completes_completed _, by decide, fun h => ?_⟩,
    fun h => ?_⟩
  · exact absurd (h "users" (List.mem_singleton_self _)).2 (by decide)
  · exact absurd h.2 (by decide)

end Pg2osync
