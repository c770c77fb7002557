import Mathlib.Data.List.Dedup
import Pg2osync.LoadAttempts

/-!
# No load is skipped, where an attempt stops safely

What is stored about a table is behind what has been read of it, and the tables an
attempt's load has passed have been read whole. The first makes a later attempt
carry on from the right place, the second makes the end of the loop mean something.
Both hold after every step of every attempt, wherever the earlier ones ended.

What can go wrong is the decision not to load. A checkpoint is persisted by the
stream beside the load, and the only trace of an unfinished load is an unfinished
document: between the checkpoint and the first document, and between two tables,
there is none.
-/

namespace Pg2osync

namespace LoadRun

variable {κ : Type} [LinearOrder κ] (run : LoadRun κ)

/-! ## What a progress record says -/

/-- What a progress record says of a table is so. -/
structure Sound (s : LoadState κ) (table : String) (p : LoadProgress) : Prop where
  /-- finished means read whole -/
  finished : p.finished = true → run.WholeRead s table
  /-- the leading ranges are read -/
  ranges : ∀ boundaries done, p.cursor = .ranges boundaries done →
    ∀ range ∈ (rangesFromBounds boundaries).take done, ∀ key ∈ run.rangeRows table range,
      (table, key) ∈ s.read
  /-- the rows up to the cursor are read -/
  after : ∀ literals, p.cursor = .after literals → run.chunked table = true →
    literals.length = run.keyColumns table →
    ∀ key ∈ run.rows table, key ≤ run.meaning table literals → (table, key) ∈ s.read

/-- The boundaries of a record are a vector's, and its count a machine word. -/
def Bounded (p : LoadProgress) : Prop :=
  ∀ boundaries done, p.cursor = .ranges boundaries done →
    boundaries.length < 2 ^ 63 ∧ done < 2 ^ 64

variable {run} {s s' : LoadState κ} {table : String}

theorem WholeRead.mono (h : run.WholeRead s table) (hread : s.read ⊆ s'.read) :
    run.WholeRead s' table :=
  fun key hkey => hread (h key hkey)

variable {p : LoadProgress}

theorem Sound.mono (h : run.Sound s table p) (hread : s.read ⊆ s'.read) : run.Sound s' table p where
  finished hp := (h.finished hp).mono hread
  ranges boundaries done hc range hr key hk := hread (h.ranges boundaries done hc range hr key hk)
  after literals hc hch hlen key hk hle := hread (h.after literals hc hch hlen key hk hle)

/-- Of a table that is read whole, everything is so. -/
theorem Sound.of_wholeRead (h : run.WholeRead s table) (p : LoadProgress) :
    run.Sound s table p where
  finished _ := h
  ranges _ _ _ _ _ key hk := h key (List.mem_of_mem_filter hk)
  after _ _ _ _ key hk _ := h key hk

/-- Of a table that has just been cut, nothing is said. -/
theorem Sound.of_cut (s : LoadState κ) (table : String) (boundaries : List String) :
    run.Sound s table ⟨.ranges boundaries 0, false⟩ where
  finished h := absurd h Bool.false_ne_true
  ranges := by
    rintro _ _ ⟨⟩ range hrange
    exact absurd hrange List.not_mem_nil
  after _ h := nomatch h

/-- When every range is counted, every row is read. -/
theorem Sound.wholeRead_of_ranges {boundaries : List String} {done : ℕ} {finished : Bool}
    (h : run.Sound s table ⟨.ranges boundaries done, finished⟩)
    (hdone : (rangesFromBounds boundaries).length ≤ done) : run.WholeRead s table := by
  intro key hkey
  obtain ⟨range, hmem, hholds⟩ :=
    exists_range (fun literal => run.meaning table [literal]) key boundaries
  have htaken : range ∈ (rangesFromBounds boundaries).take done := by
    rwa [List.take_of_length_le hdone]
  exact h.ranges boundaries done rfl range htaken key (List.mem_filter.mpr ⟨hkey, hholds⟩)

/-! ## Chunks -/

variable {cursor : Option (List String)}

theorem mem_present (others : List κ) {key : κ} (hkey : key ∈ run.rows table)
    (hpast : run.pastCursor table cursor key = true) :
    key ∈ (((run.rows table ++ others).filter (run.pastCursor table cursor)).dedup.insertionSort
      (· ≤ ·)) := by
  rw [List.mem_insertionSort, List.mem_dedup, List.mem_filter]
  exact ⟨List.mem_append_left _ hkey, hpast⟩

/-- Of a strictly sorted list, whatever is not above the last of its first members
is among them. -/
theorem mem_take_of_le_last {l : List κ} (hsorted : l.Pairwise (· < ·)) {n : ℕ} {last key : κ}
    (hlast : (l.take n).getLast? = some last) (hkey : key ∈ l) (hle : key ≤ last) :
    key ∈ l.take n := by
  rw [← List.take_append_drop n l] at hkey
  refine (List.mem_append.mp hkey).resolve_right fun hdrop => ?_
  have hsplit : ((l.take n) ++ (l.drop n)).Pairwise (· < ·) := by
    rwa [List.take_append_drop]
  have hlt := (List.pairwise_append.mp hsplit).2.2 last (List.mem_of_getLast? hlast) key hdrop
  exact absurd hle (not_le.mpr hlt)

theorem present_sorted (l : List κ) : (l.dedup.insertionSort (· ≤ ·)).Pairwise (· < ·) := by
  have hsorted := List.pairwise_insertionSort (fun a b : κ => a ≤ b) l.dedup
  have hnodup : (l.dedup.insertionSort (· ≤ ·)).Nodup :=
    (List.perm_insertionSort (· ≤ ·) _).nodup_iff.mpr l.nodup_dedup
  exact hsorted.imp₂ (fun a b hle hne => lt_of_le_of_ne hle hne) hnodup

variable {others : List κ}

/-- A chunk that is not full is the last one. -/
theorem mem_chunk_of_short {key : κ} (hkey : key ∈ run.rows table)
    (hpast : run.pastCursor table cursor key = true) (hshort : run.chunked table = true →
      (run.chunkRowsOf table cursor others).length < max run.chunkRows 1) :
    key ∈ run.chunkRowsOf table cursor others := by
  have hpresent := mem_present others hkey hpast
  cases hch : run.chunked table with
  | false => simpa only [chunkRowsOf, hch, Bool.false_eq_true, if_false] using hpresent
  | true =>
    have hlen := hshort hch
    simp only [chunkRowsOf, hch, if_true] at hlen ⊢
    rw [List.length_take] at hlen
    rw [List.take_of_length_le (by omega)]
    exact hpresent

/-- A chunk holds every row between the cursor and its last row. -/
theorem mem_chunk_of_le {key last : κ} (hchunked : run.chunked table = true)
    (hkey : key ∈ run.rows table) (hpast : run.pastCursor table cursor key = true)
    (hlast : (run.chunkRowsOf table cursor others).getLast? = some last) (hle : key ≤ last) :
    key ∈ run.chunkRowsOf table cursor others := by
  have hpresent := mem_present others hkey hpast
  simp only [chunkRowsOf, hchunked, if_true] at hlast ⊢
  exact mem_take_of_le_last (present_sorted _) hlast hpresent hle

/-- What a chunk that is not the last leaves recorded. -/
theorem Sound.chunk {literals : List String} {last : κ}
    (hread : ∀ key ∈ run.chunkRowsOf table cursor others, (table, key) ∈ s.read)
    (hbefore : ∀ old, cursor = some old → run.Sound s table ⟨.after old, false⟩)
    (hlast : (run.chunkRowsOf table cursor others).getLast? = some last)
    (hliterals : run.keyLiterals table last = some literals) :
    run.Sound s table ⟨.after literals, false⟩ where
  finished h := absurd h Bool.false_ne_true
  ranges _ _ h := nomatch h
  after := by
    rintro _ ⟨⟩ hchunked - key hkey hle
    rw [run.meaning_keyLiterals table last literals hliterals] at hle
    by_cases hpast : run.pastCursor table cursor key = true
    · exact hread key (mem_chunk_of_le hchunked hkey hpast hlast hle)
    · -- the chunk before got as far as the cursor
      obtain _ | old := cursor
      · exact absurd rfl hpast
      · simp only [pastCursor, ite_eq_right_iff, not_forall, decide_eq_true_eq] at hpast
        obtain ⟨hlen, hnot⟩ := hpast
        exact (hbefore old rfl).after old rfl hchunked hlen key hkey (not_lt.mp hnot)

/-- The last chunk leaves the table read whole. -/
theorem wholeRead_of_short_chunk
    (hread : ∀ key ∈ run.chunkRowsOf table cursor others, (table, key) ∈ s.read)
    (hbefore : ∀ old, cursor = some old →
      run.Sound s table ⟨.after old, false⟩ ∧ run.chunked table = true)
    (hshort : run.chunked table = true →
      (run.chunkRowsOf table cursor others).length < max run.chunkRows 1) :
    run.WholeRead s table := by
  intro key hkey
  by_cases hpast : run.pastCursor table cursor key = true
  · exact hread key (mem_chunk_of_short hkey hpast hshort)
  · obtain _ | old := cursor
    · exact absurd rfl hpast
    · obtain ⟨hold, hchunked⟩ := hbefore old rfl
      simp only [pastCursor, ite_eq_right_iff, not_forall, decide_eq_true_eq] at hpast
      obtain ⟨hlen, hnot⟩ := hpast
      exact hold.after old rfl hchunked hlen key hkey (not_lt.mp hnot)

/-! ## The invariant -/

variable (run)

/-- What the record an attempt is working on says is so, if the table is one of the
configured ones. -/
def PointSound (s : LoadState κ) : LoadPoint → Prop
  | .ranges table boundaries done _ | .waved table boundaries done _ =>
    (table ∈ run.tables → run.Sound s table ⟨.ranges boundaries done, false⟩) ∧
      Bounded ⟨.ranges boundaries done, false⟩
  | .chunks table cursor _ => ∀ old, cursor = some old →
    (table ∈ run.tables → run.Sound s table ⟨.after old, false⟩) ∧ run.chunked table = true
  | .chunked table cursor finished _ =>
    (table ∈ run.tables → run.Sound s table ⟨.after (cursor.getD []), finished⟩) ∧
      ∀ old, cursor = some old → run.chunked table = true
  | _ => True

/-- What holds of an attempt at a point of its load. -/
structure Stands (s : LoadState κ) (point : LoadPoint) : Prop where
  /-- the load goes through the tables in order -/
  suffix : run.ahead point <:+ run.admitted
  /-- what it has passed is read -/
  behind : ∀ table ∈ run.tables, table ∉ run.ahead point → run.WholeRead s table
  /-- its own record is so -/
  here : run.PointSound s point

/-- What is stored is so. -/
structure DocsSound (s : LoadState κ) : Prop where
  /-- about every configured table -/
  sound : ∀ table ∈ run.tables, ∀ p, run.stored s table = some p → run.Sound s table p
  /-- and is a record that was written -/
  bounded : ∀ table p, run.stored s table = some p → Bounded p

/-- What holds between any two steps. -/
structure LoadInv (s : LoadState κ) : Prop where
  /-- what is stored is so -/
  docs : run.DocsSound s
  /-- so is what the attempt knows -/
  point : ∀ point, s.attempt = some point → run.Stands s point
  /-- between attempts, a checkpoint without an unfinished record means that there is
  nothing left to load -/
  idle : s.attempt = none → run.resumable s = true → run.unfinished s = true ∨
    ∀ table ∈ run.tables, run.WholeRead s table

variable {run}

theorem DocsSound.mono (h : run.DocsSound s) (hprogress : s'.progress = s.progress)
    (hread : s.read ⊆ s'.read) : run.DocsSound s' := by
  have hstored : ∀ table, run.stored s' table = run.stored s table := fun table => by
    simp only [stored, hprogress]
  exact
    { sound := fun table ht p hp => (h.sound table ht p (hstored table ▸ hp)).mono hread
      bounded := fun table p hp => h.bounded table p (hstored table ▸ hp) }

theorem DocsSound.clearState (h : run.DocsSound s) (table : String) (cleared : Bool) :
    run.DocsSound (run.clearState s table cleared) := by
  cases cleared with
  | false => exact h
  | true =>
    have hstored : ∀ t p, run.stored (run.clearState s table true) t = some p →
        run.stored s t = some p := by
      intro t p hp
      simp only [stored, LoadRun.clearState, if_true, Function.update_apply] at hp ⊢
      split at hp
      · cases hp
      · exact hp
    exact
      { sound := fun t ht p hp => (h.sound t ht p (hstored t p hp)).mono (List.Subset.refl _)
        bounded := fun t p hp => h.bounded t p (hstored t p hp) }

theorem Bounded.fits (h : Bounded p) : p.Fits := by
  obtain ⟨cursor, finished⟩ := p
  cases cursor with
  | ranges boundaries done => exact (h boundaries done rfl).2
  | after key => trivial

theorem stored_write (hp : Bounded p) (t : String) :
    run.stored (run.write s table p) t =
      if run.progressKey t = run.progressKey table then some p else run.stored s t := by
  simp only [stored, write, Function.update_apply]
  split
  · exact LoadProgress.fromDoc_toDoc hp.fits
  · rfl

variable {point : LoadPoint} {rest : List String}

/-- Behind a table that is not configured, every configured one has been passed. -/
theorem Stands.wholeRead_of_watched (h : run.Stands s point)
    (hahead : run.ahead point = table :: rest) (htable : table ∉ run.tables) :
    ∀ t ∈ run.tables, run.WholeRead s t := by
  intro t ht
  refine h.behind t ht fun hmem => ?_
  rw [hahead] at hmem
  obtain ⟨front, hfront⟩ := h.suffix
  rw [hahead, admitted] at hfront
  cases hkind : run.kind with
  | postgres =>
    simp only [hkind] at hfront
    exact htable (hfront ▸ List.mem_append_right front List.mem_cons_self)
  | mysql =>
    simp only [hkind] at hfront
    obtain ⟨middle, hmiddle, hrest⟩ | ⟨middle, -, hwatched⟩ :=
      List.append_eq_append_iff.mp hfront
    · -- the configured tables reach past the front: the head would be one of them
      obtain _ | ⟨first, middle⟩ := middle
      · rw [List.nil_append] at hrest
        exact run.watched_fresh t (hrest ▸ hmem) ht
      · obtain ⟨rfl, -⟩ := List.cons.inj hrest
        exact htable (hmiddle ▸ List.mem_append_right front List.mem_cons_self)
    · exact run.watched_fresh t (hwatched ▸ List.mem_append_right middle hmem) ht

/-- Recording what is so of the table the load is at. -/
theorem DocsSound.write (hkeys : run.DistinctKeys) (h : run.DocsSound s)
    (hpoint : run.Stands s point) (hahead : run.ahead point = table :: rest)
    (hsound : table ∈ run.tables → run.Sound s table p) (hp : Bounded p) :
    run.DocsSound (run.write s table p) where
  sound t ht q hq := by
    rw [stored_write hp] at hq
    have hgoal : run.Sound s t q := by
      split at hq
      · next hkey =>
        by_cases htable : table ∈ run.tables
        · obtain rfl := hkeys t ht table htable hkey
          exact Option.some.inj hq ▸ hsound htable
        · exact .of_wholeRead (hpoint.wholeRead_of_watched hahead htable t ht) q
      · exact h.sound t ht q hq
    exact hgoal.mono (List.Subset.refl _)
  bounded t q hq := by
    rw [stored_write hp] at hq
    split at hq
    · exact Option.some.inj hq ▸ hp
    · exact h.bounded t q hq

theorem PointSound.mono (h : run.PointSound s point) (hread : s.read ⊆ s'.read) :
    run.PointSound s' point := by
  cases point with
  | ranges | waved => exact ⟨fun ht => (h.1 ht).mono hread, h.2⟩
  | chunks table cursor rest =>
    intro old hold
    obtain ⟨hsound, hchunked⟩ := h old hold
    exact ⟨fun ht => (hsound ht).mono hread, hchunked⟩
  | chunked table cursor finished rest => exact ⟨fun ht => (h.1 ht).mono hread, h.2⟩
  | _ => trivial

theorem Stands.mono (h : run.Stands s point) (hread : s.read ⊆ s'.read) : run.Stands s' point where
  suffix := h.suffix
  behind table ht hbehind := (h.behind table ht hbehind).mono hread
  here := h.here.mono hread

variable {point next : LoadPoint}

/-- The load moves to another point at the same table, or past it. -/
theorem Stands.move (h : run.Stands s point) (hread : s.read ⊆ s'.read)
    (hsuffix : run.ahead next <:+ run.ahead point)
    (hpassed : ∀ table ∈ run.tables, table ∈ run.ahead point → table ∉ run.ahead next →
      run.WholeRead s' table) (hhere : run.PointSound s' next) : run.Stands s' next where
  suffix := hsuffix.trans h.suffix
  behind table ht hbehind := by
    by_cases hahead : table ∈ run.ahead point
    · exact hpassed table ht hahead hbehind
    · exact (h.behind table ht hahead).mono hread
  here := hhere

/-- The load has not passed anything yet. -/
theorem Stands.of_all (hahead : run.ahead point = run.admitted) (hhere : run.PointSound s point) :
    run.Stands s point where
  suffix := hahead ▸ List.suffix_refl _
  behind table ht hbehind := by
    refine absurd ?_ (hahead ▸ hbehind)
    rw [admitted]
    split
    · exact ht
    · exact List.mem_append_left _ ht
  here := hhere

/-- Nothing is ahead because everything is read. -/
theorem Stands.of_none (hahead : run.ahead point = [])
    (hread : ∀ table ∈ run.tables, run.WholeRead s table) (hhere : run.PointSound s point) :
    run.Stands s point where
  suffix := hahead ▸ List.nil_suffix
  behind table ht _ := hread table ht
  here := hhere

/-! ## One step -/

theorem resumable_of_resume {slot : Option Lsn} {lsn : Lsn}
    (h : run.resume s slot = some lsn) : run.resumable s = true := by
  cases hkind : run.kind with
  | postgres =>
    cases hpolling : run.polling with
    | true => simp [resume, hkind, hpolling, resumePosition] at h
    | false =>
      cases husable : usableCheckpoint s.checkpoint run.stream with
      | none => simp [resume, hkind, hpolling, husable, resumePosition] at h
      | some c => simp [resumable, hkind, hpolling, husable]
  | mysql =>
    simp only [resume, hkind, Option.map_eq_some_iff] at h
    obtain ⟨place, hplace, -⟩ := h
    simp only [resumable, hkind, hplace, Option.isSome_some]

theorem LoadInv.begin_stands (h : run.LoadInv s) (hnone : s.attempt = none) (slot : Option Lsn) :
    run.Stands s (run.begin s slot) := by
  have hskipped : ∀ lsn, run.resume s slot = some lsn → run.unfinished s = false →
      run.Stands s .skipped := by
    intro lsn hresume hunfinished
    have hread := (h.idle hnone (resumable_of_resume hresume)).resolve_left
      (by rw [hunfinished]; exact Bool.false_ne_true)
    exact .of_none rfl hread trivial
  unfold begin
  split
  · exact .of_all rfl trivial
  · exact .of_all rfl trivial
  · next hresume hunfinished => exact hskipped _ hresume hunfinished
  · exact .of_all rfl trivial
  · next hresume hunfinished => exact hskipped _ hresume hunfinished
  · exact .of_all rfl trivial
  · exact .of_all rfl trivial

theorem LoadInv.visit_stands (h : run.LoadInv s)
    (hpoint : s.attempt = some (.visiting (table :: rest))) :
    run.Stands s (run.visit s table rest) := by
  have hstands := h.point _ hpoint
  have hhere : ∀ next, run.ahead next = table :: rest → run.PointSound s next →
      run.Stands s next := fun next hahead hsound =>
    hstands.move (List.Subset.refl _) (hahead ▸ List.suffix_refl _)
      (fun t _ hmem hnot => absurd (show t ∈ run.ahead next from hahead ▸ hmem) hnot) hsound
  unfold visit
  split
  · next cursor kind hstored =>
    -- recorded finished: the table is passed, and read
    refine hstands.move (List.Subset.refl _) (List.suffix_cons _ _) ?_ trivial
    rintro t ht hmem hnot
    obtain rfl := (List.mem_cons.mp hmem).resolve_right hnot
    exact (h.docs.sound t ht _ hstored).finished rfl
  · next boundaries done hstored _ =>
    exact hhere _ rfl ⟨fun ht => h.docs.sound table ht _ hstored, h.docs.bounded table _ hstored⟩
  · exact hhere _ rfl trivial
  · exact hhere _ rfl trivial
  · next key hstored _ =>
    refine hhere _ rfl fun old hold => ?_
    split at hold
    · next hcond =>
      obtain rfl := Option.some.inj hold
      rw [Bool.and_eq_true] at hcond
      exact ⟨fun ht => h.docs.sound table ht _ hstored, hcond.2⟩
    · cases hold
  · exact hhere _ rfl fun old hold => nomatch hold
  · exact hhere _ rfl fun old hold => nomatch hold

/-- The invariant of a state in which an attempt runs. -/
theorem LoadInv.of_point (hdocs : run.DocsSound s) (hpoint : s.attempt = some point)
    (hstands : run.Stands s point) : run.LoadInv s where
  docs := hdocs
  point := by
    rintro other hother
    obtain rfl := Option.some.inj (hpoint.symm.trans hother)
    exact hstands
  idle hnone := by rw [hpoint] at hnone; cases hnone

/-- A record is written of the table the load is at, and the load goes on. -/
theorem LoadInv.record (h : run.LoadInv s) (hkeys : run.DistinctKeys)
    (hpoint : s.attempt = some point) (hahead : run.ahead point = table :: rest)
    (hsound : table ∈ run.tables → run.Sound s table p) (hbounded : Bounded p)
    (hnext : run.ahead next = table :: rest ∨ run.ahead next = rest ∧ p.finished = true)
    (hhere : run.PointSound s next) :
    run.LoadInv { run.write s table p with attempt := some next } := by
  have hstands := h.point _ hpoint
  have hdocs := h.docs.write hkeys hstands hahead hsound hbounded
  refine .of_point (hdocs.mono rfl (List.Subset.refl _)) rfl ?_
  refine (hstands.mono (List.Subset.refl _)).move (List.Subset.refl _) ?_ ?_
    (hhere.mono (List.Subset.refl _))
  · obtain hsame | ⟨hnext, -⟩ := hnext
    · simp only [hahead, hsame, List.suffix_refl]
    · rw [hahead, hnext]
      exact List.suffix_cons _ _
  · rintro t ht hmem hnot
    obtain hsame | ⟨hnext, hfinished⟩ := hnext
    · exact absurd (hahead ▸ hmem) (hsame ▸ hnot)
    · rw [hahead] at hmem
      rw [hnext] at hnot
      obtain rfl := (List.mem_cons.mp hmem).resolve_right hnot
      exact (hsound ht).finished hfinished

/-- Rows are read and written, and the load stays at the table. -/
theorem LoadInv.reads (h : run.LoadInv s) {keys : List κ} (hpoint : s.attempt = some point)
    (hahead : run.ahead next = run.ahead point)
    (hhere : run.PointSound { s with read := s.read ++ keys.map (table, ·) } next) :
    run.LoadInv { s with attempt := some next, read := s.read ++ keys.map (table, ·) } := by
  have hsub : s.read ⊆ s.read ++ keys.map (table, ·) := List.subset_append_left _ _
  refine .of_point (h.docs.mono rfl hsub) rfl ?_
  exact (h.point _ hpoint).move hsub (hahead ▸ List.suffix_refl _)
    (fun t _ hmem hnot => absurd (hahead ▸ hmem) hnot) (hhere.mono (List.Subset.refl _))

theorem LoadInv.wave (h : run.LoadInv s) {boundaries : List String} {done : ℕ}
    {wave : List KeyRange} (hpoint : s.attempt = some (.ranges table boundaries done rest))
    (hwave : wave = ((rangesFromBounds boundaries).drop done).take run.readers)
    (hdone : done < (rangesFromBounds boundaries).length) :
    run.LoadInv { s with
      attempt := some (.waved table boundaries (done + wave.length) rest)
      read := s.read ++ (wave.flatMap (run.rangeRows table)).map (table, ·) } := by
  obtain ⟨hsound, hbounded⟩ := (h.point _ hpoint).here
  refine h.reads hpoint rfl ⟨fun ht => ?_, ?_⟩
  · refine ⟨fun hfalse => (Bool.false_ne_true hfalse).elim, ?_, nofun⟩
    rintro _ _ ⟨⟩ range hrange key hkey
    have htake : ((rangesFromBounds boundaries).drop done).take wave.length = wave := by
      rw [hwave, List.take_eq_take_iff, List.length_take]
      omega
    rw [List.take_add, htake] at hrange
    refine List.mem_append.mpr ((List.mem_append.mp hrange).imp ?_ ?_)
    · exact fun hold => (hsound ht).ranges boundaries done rfl range hold key hkey
    · exact fun hnew => List.mem_map_of_mem (List.mem_flatMap.mpr ⟨range, hnew, hkey⟩)
  · rintro _ _ ⟨⟩
    obtain ⟨hlong, -⟩ := hbounded boundaries done rfl
    refine ⟨hlong, ?_⟩
    have hlen : wave.length ≤ (rangesFromBounds boundaries).length - done := by
      rw [hwave, List.length_take, List.length_drop]
      exact min_le_right _ _
    rw [length_rangesFromBounds] at hlen hdone
    omega

theorem LoadInv.chunk (h : run.LoadInv s) {finished : Bool} {last : Option (List String)}
    (hpoint : s.attempt = some (.chunks table cursor rest))
    (hfinished : finished = (!run.chunked table ||
      (run.chunkRowsOf table cursor others).length < max run.chunkRows 1))
    (hlast : last = if run.chunked table then
      (run.chunkRowsOf table cursor others).getLast?.bind (run.keyLiterals table) else none) :
    run.LoadInv { s with
      attempt := some (if !finished && last.isNone then .failed table rest
        else .chunked table last finished rest)
      read := s.read ++ (run.chunkRowsOf table cursor others).map (table, ·) } := by
  have hhere := (h.point _ hpoint).here
  have hsub : s.read ⊆ s.read ++ (run.chunkRowsOf table cursor others).map (table, ·) :=
    List.subset_append_left _ _
  have hread : ∀ key ∈ run.chunkRowsOf table cursor others,
      (table, key) ∈ s.read ++ (run.chunkRowsOf table cursor others).map (table, ·) :=
    fun key hkey => List.mem_append_right _ (List.mem_map_of_mem hkey)
  refine h.reads hpoint (by split <;> rfl) ?_
  split
  · trivial
  · next hgoes =>
    refine ⟨fun ht => ?_, ?_⟩
    · have hbefore : ∀ old, cursor = some old → run.Sound _ table ⟨.after old, false⟩ ∧
          run.chunked table = true := fun old hold =>
        ⟨@Sound.mono _ _ run s { s with read := _ } table _ ((hhere old hold).1 ht) hsub,
          (hhere old hold).2⟩
      cases hfin : finished with
      | true =>
        refine .of_wholeRead (wholeRead_of_short_chunk hread hbefore fun hchunked => ?_) _
        rw [hfin, hchunked, Bool.not_true, Bool.false_or] at hfinished
        exact of_decide_eq_true hfinished.symm
      | false =>
        -- a full chunk has a key to continue from, which is its last row's
        obtain ⟨literals, rfl⟩ : ∃ literals, last = some literals := by
          rw [hfin] at hgoes
          exact Option.ne_none_iff_exists'.mp fun hnone => hgoes (by rw [hnone]; rfl)
        split at hlast
        · obtain ⟨key, hkey, hliterals⟩ := Option.bind_eq_some_iff.mp hlast.symm
          exact .chunk hread (fun old hold => (hbefore old hold).1) hkey hliterals
        · cases hlast
    · rintro old rfl
      split at hlast
      · assumption
      · cases hlast

/-- An attempt that stops safely leaves a trace of its load, or nothing to load. -/
theorem LoadInv.idle_of_stop (h : run.LoadInv s) (hpoint : s.attempt = some point)
    (hsafe : run.stopsSafely s .stop = true) (hresumable : run.resumable s = true) :
    run.unfinished s = true ∨ ∀ table ∈ run.tables, run.WholeRead s table := by
  rw [stopsSafely, hresumable, hpoint, Bool.not_true, Bool.false_or, Bool.or_eq_true,
    Option.all_some, List.all_eq_true] at hsafe
  refine hsafe.imp_right fun hahead table ht => ?_
  have hpassed := hahead table ht
  rw [Bool.or_eq_true, Bool.not_eq_true', List.contains_eq_mem, decide_eq_false_iff_not] at hpassed
  obtain hbehind | hrecorded := hpassed
  · exact (h.point point hpoint).behind table ht hbehind
  · obtain ⟨p, hp, hfinished⟩ := (Option.any_eq_true _ _).mp hrecorded
    exact (h.docs.sound table ht p hp).finished hfinished

/-- **One step keeps the invariant**, if an attempt that ends does so safely. -/
theorem LoadInv.step (h : run.LoadInv s) (hkeys : run.DistinctKeys) {a : LoadAction κ}
    (hsafe : run.stopsSafely s a = true) (hstep : run.step s a = some s') : run.LoadInv s' := by
  have hrefl := List.Subset.refl s.read
  cases a <;> simp only [LoadRun.step] at hstep
  case start slot =>
    split at hstep
    · next hnone =>
      obtain rfl := Option.some.inj hstep
      exact .of_point (h.docs.mono rfl hrefl) rfl ((h.begin_stands hnone slot).mono hrefl)
    · cases hstep
  case discard cleared =>
    split at hstep
    · obtain rfl := Option.some.inj hstep
      exact .of_point ((h.docs.clearState _ cleared).mono rfl (List.Subset.refl _)) rfl
        (.of_all rfl trivial)
    · obtain rfl := Option.some.inj hstep
      exact .of_point (h.docs.mono rfl hrefl) rfl (.of_all rfl trivial)
    · cases hstep
  case anchor token position =>
    split at hstep
    · obtain rfl := Option.some.inj hstep
      exact .of_point (h.docs.mono rfl hrefl) rfl (.of_all rfl trivial)
    · cases hstep
  case visit =>
    split at hstep
    · next hpoint =>
      obtain rfl := Option.some.inj hstep
      exact .of_point (h.docs.mono rfl hrefl) rfl ((h.visit_stands hpoint).mono hrefl)
    · next hpoint =>
      -- the loop has ended: nothing is ahead of it
      obtain rfl := Option.some.inj hstep
      refine .of_point (h.docs.mono rfl hrefl) rfl (.of_none rfl (fun t ht => ?_) trivial)
      exact (h.point _ hpoint).behind t ht List.not_mem_nil
    · cases hstep
  case cut boundaries =>
    split at hstep
    · next table rest hpoint =>
      split at hstep
      · next hlong =>
        obtain rfl := Option.some.inj hstep
        have hbounded : Bounded ⟨.ranges boundaries 0, false⟩ := by
          rintro _ _ ⟨⟩
          exact ⟨hlong, by decide⟩
        have hsound : run.Sound s table ⟨.ranges boundaries 0, false⟩ := .of_cut s table boundaries
        exact h.record hkeys hpoint rfl (fun _ => hsound) hbounded (.inl rfl)
          ⟨fun _ => hsound, hbounded⟩
      · cases hstep
    · cases hstep
  case wave =>
    split at hstep
    · next hpoint =>
      split at hstep
      · next hdone =>
        obtain rfl := Option.some.inj hstep
        exact h.wave hpoint rfl hdone
      · cases hstep
    · cases hstep
  case chunk others =>
    split at hstep
    · next hpoint =>
      obtain rfl := Option.some.inj hstep
      exact h.chunk hpoint rfl rfl
    · cases hstep
  case record =>
    split at hstep
    · next hpoint =>
      obtain rfl := Option.some.inj hstep
      obtain ⟨hsound, hbounded⟩ := (h.point _ hpoint).here
      exact h.record hkeys hpoint rfl hsound hbounded (.inl rfl) ⟨hsound, hbounded⟩
    · next hpoint =>
      split at hstep
      · next hdone =>
        obtain rfl := Option.some.inj hstep
        obtain ⟨hsound, hbounded⟩ := (h.point _ hpoint).here
        refine h.record hkeys hpoint rfl (fun ht => ?_) ?_ (.inr ⟨rfl, rfl⟩) trivial
        · exact .of_wholeRead ((hsound ht).wholeRead_of_ranges hdone) _
        · rintro _ _ ⟨⟩
          exact hbounded _ _ rfl
      · cases hstep
    · next cursor finished rest hpoint =>
      obtain rfl := Option.some.inj hstep
      obtain ⟨hsound, hchunked⟩ := (h.point _ hpoint).here
      refine h.record hkeys hpoint rfl hsound nofun ?_ ?_
      · cases finished with
        | true => exact .inr ⟨rfl, rfl⟩
        | false => exact .inl rfl
      · cases finished with
        | true => trivial
        | false => rintro old rfl; exact ⟨hsound, hchunked old rfl⟩
    · cases hstep
  case clear cleared =>
    split at hstep
    · next hpoint =>
      obtain rfl := Option.some.inj hstep
      have hread := fun t ht => (h.point _ hpoint).behind t ht List.not_mem_nil
      exact .of_point ((h.docs.clearState _ cleared).mono rfl (List.Subset.refl _)) rfl
        (.of_none rfl hread trivial)
    · next hpoint =>
      obtain rfl := Option.some.inj hstep
      have hread := fun t ht => (h.point _ hpoint).behind t ht List.not_mem_nil
      exact .of_point (h.docs.mono rfl hrefl) rfl (.of_none rfl hread trivial)
    · cases hstep
  case persist token position =>
    split at hstep
    · next hpoint =>
      split at hstep
      · obtain rfl := Option.some.inj hstep
        exact .of_point (h.docs.mono rfl hrefl) hpoint ((h.point _ hpoint).mono hrefl)
      · cases hstep
    · cases hstep
  case stop =>
    split at hstep
    · next point hpoint =>
      obtain rfl := Option.some.inj hstep
      exact
        { docs := h.docs.mono rfl hrefl
          point := nofun
          idle := fun _ hresumable => h.idle_of_stop hpoint hsafe hresumable }
    · cases hstep

theorem Fresh.inv (h : run.Fresh s) : run.LoadInv s := by
  obtain ⟨hcheckpoint, hprogress, hattempt, -⟩ := h
  have hstored : ∀ table p, run.stored s table ≠ some p := fun table p hp => by
    rw [stored, hprogress] at hp
    cases hp
  refine ⟨⟨fun t _ p hp => absurd hp (hstored t p), fun t p hp => absurd hp (hstored t p)⟩,
    fun point hpoint => ?_, fun _ hresumable => ?_⟩
  · rw [hattempt] at hpoint
    cases hpoint
  · rw [resumable, hcheckpoint] at hresumable
    split at hresumable
    · rw [Option.isSome_none, Bool.and_false] at hresumable
      cases hresumable
    · cases hresumable

theorem LoadInv.neverSkips (h : run.LoadInv s) : run.NeverSkips s where
  recorded table ht hrecorded := by
    obtain ⟨p, hp, hfinished⟩ := (Option.any_eq_true _ _).mp hrecorded
    exact (h.docs.sound table ht p hp).finished hfinished
  past hpast table ht := by
    obtain ⟨point, hpoint, hempty⟩ := (Option.any_eq_true _ _).mp hpast
    refine (h.point point hpoint).behind table ht ?_
    rw [List.isEmpty_iff.mp hempty]
    exact List.not_mem_nil

/-! ## Every run -/

/-- **An initial load is never skipped, in every run whose attempts stop safely**: if
no two configured tables share a progress document and no attempt ends, with a table
still ahead of its load and a checkpoint to resume from, while no unfinished progress
document is stored. -/
theorem load_never_skipped (hkeys : run.DistinctKeys)
    (h : run.system.ReachUnder (fun s a => run.stopsSafely s a = true) s) : run.NeverSkips s :=
  (h.invariant (fun _ hs => hs.inv) fun _ _ _ hs hsafe hstep =>
    hs.step hkeys hsafe hstep).neverSkips

end LoadRun

/-! ## Two tables -/

/-- Two tables with a row each, one range and one chunk long. -/
def twoTables (kind : SourceKind) : LoadRun ℕ where
  kind := kind
  stream := ⟨"postgres", "slot", "pub"⟩
  tables := ["public.a", "public.b"]
  watched := []
  polling := false
  readers := 1
  chunkRows := 10
  alphanumeric := Char.isAlphanum
  parseStoredPosition text := some (text, 4)
  rows _ := [1]
  meaning _ literals := literals.length
  keyLiterals _ key := some (List.replicate key "1")
  keyColumns _ := 1
  chunked _ := true
  meaning_keyLiterals := by
    rintro - key literals ⟨⟩
    exact List.length_replicate
  keyColumns_pos _ _ := Nat.one_pos
  watched_fresh _ h := absurd h List.not_mem_nil

/-- A target that holds nothing. -/
def emptyTarget : LoadState ℕ := ⟨none, fun _ => none, none, []⟩

theorem emptyTarget_fresh (run : LoadRun ℕ) : run.Fresh emptyTarget :=
  ⟨rfl, fun _ => rfl, rfl, rfl⟩

/-- An attempt that is cut short inside the first table and one that finishes. -/
def interruptedLoad : List (LoadAction ℕ) :=
  [.start none, .persist 5 "0/5", .visit, .cut ["'7'"], .wave, .record, .stop,
    .start (some 5), .visit, .wave, .record, .record, .visit, .cut [], .wave, .record, .record,
    .visit, .clear true, .clear true, .clear true]

/-- The second attempt has the whole of both tables when it is past its load. -/
theorem interruptedLoad_neverSkips : ∃ s,
    (twoTables .postgres).system.runUnder (twoTables .postgres).stopsSafely emptyTarget
      interruptedLoad = some s ∧
    s.attempt = some .over ∧ (twoTables .postgres).NeverSkips s := by
  have hrun : ((twoTables .postgres).system.runUnder (twoTables .postgres).stopsSafely emptyTarget
      interruptedLoad).map (·.attempt) = some (some .over) := by decide
  obtain ⟨s, hs, hover⟩ := Option.map_eq_some_iff.mp hrun
  exact ⟨s, hs, hover, LoadRun.load_never_skipped (by unfold LoadRun.DistinctKeys; decide)
    (.of_runUnder (.initial (emptyTarget_fresh _)) hs)⟩

/-- An attempt ends after the first table is recorded finished and before the second
table's first document, with a checkpoint persisted beside it. -/
def betweenTables : List (LoadAction ℕ) :=
  [.start none, .visit, .cut [], .wave, .record, .record, .persist 5 "0/5", .stop,
    .start (some 5)]

/-- An attempt ends after the starting position is persisted and before any chunk. -/
def afterAnchor : List (LoadAction ℕ) :=
  [.start none, .anchor 5 "binlog:5", .stop, .start none]

/-- **Loads are skipped**, on PostgreSQL between two tables and on MySQL before the
first chunk: the next attempt resumes and the table's row is never read. -/
theorem betweenTables_skips :
    (∃ s, (twoTables .postgres).system.Reachable s ∧ ¬ (twoTables .postgres).NeverSkips s) ∧
    (∃ s, (twoTables .mysql).system.Reachable s ∧ ¬ (twoTables .mysql).NeverSkips s) := by
  have hpostgres : ((twoTables .postgres).system.run emptyTarget betweenTables).map
      (fun s => (s.attempt, s.read)) = some (some .skipped, [("public.a", 1)]) := by decide
  have hmysql : ((twoTables .mysql).system.run emptyTarget afterAnchor).map
      (fun s => (s.attempt, s.read)) = some (some .skipped, []) := by decide
  obtain ⟨s, hs, hend⟩ := Option.map_eq_some_iff.mp hpostgres
  obtain ⟨t, ht, hend'⟩ := Option.map_eq_some_iff.mp hmysql
  obtain ⟨hskipped, hread⟩ := Prod.mk.inj hend
  obtain ⟨hskipped', hread'⟩ := Prod.mk.inj hend'
  refine ⟨⟨s, Transition.System.reachable_of_run (emptyTarget_fresh _) hs, fun h => ?_⟩,
    ⟨t, Transition.System.reachable_of_run (emptyTarget_fresh _) ht, fun h => ?_⟩⟩
  · have hpast : (twoTables .postgres).pastLoad s = true := by
      rw [LoadRun.pastLoad, hskipped]
      rfl
    have hb := h.past hpast "public.b" (by decide) 1 (by decide)
    rw [hread] at hb
    revert hb
    decide
  · have hpast : (twoTables .mysql).pastLoad t = true := by
      rw [LoadRun.pastLoad, hskipped']
      rfl
    have hb := h.past hpast "public.b" (by decide) 1 (by decide)
    rw [hread'] at hb
    exact List.not_mem_nil hb

end Pg2osync
