import Pg2osync.Workspace

/-!
# Which names share a document

What a pipeline keeps in the target beside the documents it syncs is filed under names put
together with dashes, in which every character that is no letter or digit, dash or underscore
became an underscore. So two names share a document when they are alike in this sense, whatever
the parts were that they were put together from.
-/

namespace Pg2osync

section

variable (alphanumeric : Char → Bool)

/-- A character that stands as an underscore in a document's id. -/
def Blank (c : Char) : Prop :=
  c = '_' ∨ (alphanumeric c = false ∧ c ≠ '-')

/-- Two texts that are as long as each other and, where they differ, both have a character that
stands as an underscore. -/
def Alike (a b : String) : Prop :=
  List.Forall₂ (fun c d => c = d ∨ Blank alphanumeric c ∧ Blank alphanumeric d) a.toList b.toList

variable {alphanumeric}

/-- What one character stands as. -/
def tameChar (alphanumeric : Char → Bool) (c : Char) : Char :=
  if alphanumeric c || c = '-' || c = '_' then c else '_'

theorem tameChar_of_blank {c : Char} (h : Blank alphanumeric c) : tameChar alphanumeric c = '_' := by
  rcases h with rfl | ⟨hletter, hdash⟩
  · exact if_pos (by simp)
  · by_cases hline : c = '_'
    · rw [tameChar, if_pos (by simp [hline])]
      exact hline
    · exact if_neg (by simp [hletter, hdash, hline])

theorem tameChar_of_not_blank {c : Char} (h : ¬Blank alphanumeric c) :
    tameChar alphanumeric c = c := by
  refine if_pos ?_
  obtain ⟨hline, hkept⟩ := not_or.mp h
  cases hletter : alphanumeric c with
  | true => simp
  | false => simp [not_not.mp fun hdash => hkept ⟨hletter, hdash⟩]

/-- Two characters stand as one exactly when they are one, or both stand as an underscore. -/
theorem tameChar_eq_iff {c d : Char} : tameChar alphanumeric c = tameChar alphanumeric d ↔
    c = d ∨ Blank alphanumeric c ∧ Blank alphanumeric d := by
  by_cases hc : Blank alphanumeric c
  · by_cases hd : Blank alphanumeric d
    · rw [tameChar_of_blank hc, tameChar_of_blank hd]
      exact iff_of_true rfl (Or.inr ⟨hc, hd⟩)
    · -- a character that stands for itself is no underscore
      rw [tameChar_of_blank hc, tameChar_of_not_blank hd]
      refine iff_of_false (fun h => hd (Or.inl h.symm)) ?_
      rintro (rfl | ⟨-, hblank⟩)
      · exact hd hc
      · exact hd hblank
  · rw [tameChar_of_not_blank hc]
    by_cases hd : Blank alphanumeric d
    · rw [tameChar_of_blank hd]
      refine iff_of_false (fun h => hc (Or.inl h)) ?_
      rintro (rfl | ⟨hblank, -⟩)
      · exact hc hd
      · exact hc hblank
    · rw [tameChar_of_not_blank hd]
      exact ⟨Or.inl, fun h => h.resolve_right fun hblank => hc hblank.1⟩

theorem toList_tame (name : String) :
    (tame alphanumeric name).toList = name.toList.map (tameChar alphanumeric) :=
  String.toList_ofList

/-- Names become one exactly when they are alike. -/
theorem tame_eq_iff {a b : String} :
    tame alphanumeric a = tame alphanumeric b ↔ Alike alphanumeric a b := by
  rw [← String.toList_inj, toList_tame, toList_tame, ← List.forall₂_eq_eq_eq,
    List.forall₂_map_left_iff, List.forall₂_map_right_iff, Alike]
  constructor
  · exact fun h => h.imp fun _ _ => tameChar_eq_iff.mp
  · exact fun h => h.imp fun _ _ => tameChar_eq_iff.mpr

theorem tame_append (a b : String) :
    tame alphanumeric (a ++ b) = tame alphanumeric a ++ tame alphanumeric b := by
  rw [← String.toList_inj, toList_tame, String.toList_append, String.toList_append, toList_tame,
    toList_tame, List.map_append]

theorem tame_dash : tame alphanumeric "-" = "-" := by
  have hdash : tameChar alphanumeric '-' = '-' := if_pos (by simp)
  rw [← String.toList_inj, toList_tame]
  exact congrArg (· :: []) hdash

end

/-! ## The documents of a pipeline's state -/

/-- The parts a table's progress is filed under, put together. -/
def progressName (stream : StreamId) (table : String) : String :=
  stream.source ++ "-" ++ stream.stream ++ "-" ++ table

/-- The parts a checkpoint is filed under, put together. -/
def checkpointName (stream : StreamId) : String :=
  stream.source ++ "-" ++ stream.stream

theorem loadProgressKey_eq (alphanumeric : Char → Bool) (stream : StreamId) (table : String) :
    loadProgressKey alphanumeric stream table =
      "load-" ++ tame alphanumeric (progressName stream table) := by
  simp only [loadProgressKey, progressName, tame_append, tame_dash, String.append_assoc]

/-- What is filed for a table of a stream is taken for no other's: neither how far its load got,
nor how far the stream itself did. -/
structure KeptApart (alphanumeric : Char → Bool) (s : StreamId) (t : String) (s' : StreamId)
    (t' : String) : Prop where
  /-- the progress of two tables is two documents -/
  progress : (s.source, s.stream, t) ≠ (s'.source, s'.stream, t') →
    loadProgressKey alphanumeric s t ≠ loadProgressKey alphanumeric s' t'
  /-- the checkpoints of two streams are two documents -/
  checkpoint : (s.source, s.stream) ≠ (s'.source, s'.stream) →
    Config.checkpointDocId alphanumeric s ≠ Config.checkpointDocId alphanumeric s'

/-- The documents of two tables, and of two streams, are kept apart unless their names are alike
once they are put together. -/
theorem keptApart_iff (alphanumeric : Char → Bool) (s : StreamId) (t : String) (s' : StreamId)
    (t' : String) : KeptApart alphanumeric s t s' t' ↔
      ¬((s.source, s.stream, t) ≠ (s'.source, s'.stream, t') ∧
        Alike alphanumeric (progressName s t) (progressName s' t')) ∧
      ¬((s.source, s.stream) ≠ (s'.source, s'.stream) ∧
        Alike alphanumeric (checkpointName s) (checkpointName s')) := by
  have hprogress : loadProgressKey alphanumeric s t = loadProgressKey alphanumeric s' t' ↔
      Alike alphanumeric (progressName s t) (progressName s' t') := by
    rw [loadProgressKey_eq, loadProgressKey_eq, String.append_right_inj, tame_eq_iff]
  have hcheckpoint : Config.checkpointDocId alphanumeric s = Config.checkpointDocId alphanumeric s' ↔
      Alike alphanumeric (checkpointName s) (checkpointName s') := tame_eq_iff
  constructor
  · rintro ⟨hload, hstream⟩
    exact ⟨fun h => hload h.1 (hprogress.mpr h.2), fun h => hstream h.1 (hcheckpoint.mpr h.2)⟩
  · rintro ⟨hload, hstream⟩
    exact ⟨fun hne heq => hload ⟨hne, hprogress.mp heq⟩,
      fun hne heq => hstream ⟨hne, hcheckpoint.mp heq⟩⟩

/-- A dot becomes an underscore: two tables of one database share their progress. So do the tables
of two streams when a dash may belong to either name, and the checkpoints of two streams. -/
theorem not_keptApart :
    ¬KeptApart Char.isAlphanum ⟨"postgres", "main", "p"⟩ "a.b_c" ⟨"postgres", "main", "p"⟩ "a_b.c" ∧
    ¬KeptApart Char.isAlphanum ⟨"postgres", "main", "p"⟩ "x-a.t" ⟨"postgres", "main-x", "p"⟩ "a.t" ∧
    ¬KeptApart Char.isAlphanum ⟨"postgres", "a.b", "p"⟩ "s.t" ⟨"postgres", "a_b", "p"⟩ "s.u" := by
  refine ⟨fun h => ?_, fun h => ?_, fun h => ?_⟩
  · exact h.progress (by decide) (by decide)
  · exact h.progress (by decide) (by decide)
  · exact h.checkpoint (by decide) (by decide)

end Pg2osync
