import Pg2osync.IndexOverlap

/-!
# The checks that span sections, two sections at a time

`check_index_overlap` reads a whole set of sections, group by group. What it accepts can
be said of two sections at a time: whether a template of one claims what the other
writes, and whether the two may write one index. Beside that every child of a join needs
a parent among the sections. A set that is accepted so stays accepted without some of
its sections, unless a parent goes and a child stays.
-/

namespace Pg2osync

namespace Config

/-! ## Lists -/

/-- Two elements pass a filter if and only if it has two. -/
theorem filter_two {α β : Type} {f : α → β} {p : α → Bool} {list : List α}
    (hnodup : (list.map f).Nodup) : (∃ x y rest, list.filter p = x :: y :: rest) ↔
      ∃ a ∈ list, ∃ b ∈ list, f a ≠ f b ∧ p a = true ∧ p b = true := by
  constructor
  · rintro ⟨x, y, rest, hfilter⟩
    have hx : x ∈ list.filter p := hfilter ▸ List.mem_cons_self
    have hy : y ∈ list.filter p := hfilter ▸ List.mem_cons_of_mem _ List.mem_cons_self
    have hnodup' : ((list.filter p).map f).Nodup :=
      hnodup.sublist (List.filter_sublist.map f)
    rw [hfilter, List.map_cons, List.map_cons, List.nodup_cons] at hnodup'
    refine ⟨x, (List.mem_filter.mp hx).1, y, (List.mem_filter.mp hy).1, ?_,
      (List.mem_filter.mp hx).2, (List.mem_filter.mp hy).2⟩
    exact fun heq => hnodup'.1 (heq ▸ List.mem_cons_self)
  · rintro ⟨a, ha, b, hb, hne, hpa, hpb⟩
    have ha' : a ∈ list.filter p := List.mem_filter.mpr ⟨ha, hpa⟩
    have hb' : b ∈ list.filter p := List.mem_filter.mpr ⟨hb, hpb⟩
    rcases hfilter : list.filter p with _ | ⟨x, _ | ⟨y, rest⟩⟩
    · rw [hfilter] at ha'
      cases ha'
    · rw [hfilter, List.mem_singleton] at ha' hb'
      exact absurd (by rw [ha', hb']) hne
    · exact ⟨x, y, rest, rfl⟩

/-- In a list of two or more, every element has another beside it. -/
theorem exists_other {α β : Type} {f : α → β} {x y : α} {rest : List α}
    (hnodup : ((x :: y :: rest).map f).Nodup) (a : α) :
    ∃ b ∈ x :: y :: rest, f a ≠ f b := by
  by_cases hx : f a = f x
  · refine ⟨y, List.mem_cons_of_mem _ List.mem_cons_self, fun hy => ?_⟩
    rw [List.map_cons, List.map_cons, List.nodup_cons] at hnodup
    exact hnodup.1 (hx.symm.trans hy ▸ List.mem_cons_self)
  · exact ⟨x, List.mem_cons_self, hx⟩

/-! ## Two sections -/

/-- A join parent's id is one that its children can compute. -/
def ParentId (s : TableSync) : Prop :=
  ∀ spec, s.id = some spec → ∃ template,
    IdTemplate.parse spec [s.primaryKey.getD "id"] = .ok template ∧ template.pkOnly = true

/-- Two sections may write one index: each with ids of its own, or as parts of one join
field. -/
def Shares (a b : TableSync) : Prop :=
  match a.join, b.join with
  | none, none => a.id.isSome ∧ b.id.isSome ∧ ¬ (a.mappingFile.isSome ∧ b.mappingFile.isSome)
  | some ja, some jb => ja.field = jb.field ∧ ja.name ≠ jb.name ∧
      ¬ (ja.parent = none ∧ jb.parent = none) ∧
      (ja.parent = none → ParentId a) ∧ (jb.parent = none → ParentId b)
  | _, _ => False

/-- No template of the first section claims what the second writes. -/
def LeavesAlone (a b : Labelled) : Prop :=
  ∀ spec template, a.2.indexTarget a.1.key [] = .ok (.template spec template) →
    b.indexName ≠ spec ∧ ∀ other, b.2.indexTarget b.1.key [] = .ok other →
      indexMatchesPattern (IndexTarget.template spec template).pattern other.pattern = false

/-- Every child of a join has a parent among the sections. -/
def HasParents (sections : List Labelled) : Prop :=
  ∀ s ∈ sections, ∀ join column, s.2.join = some join → join.parent = some column →
    ∃ p ∈ sections, p.indexName = s.indexName ∧
      ∃ other, p.2.join = some other ∧ other.parent = none

/-! ## The sections of one index -/

variable {members : List Labelled} {index : String}

theorem checkPlainSharedIndex_iff (hnodup : (members.map Prod.fst).Nodup) :
    checkPlainSharedIndex index members = .ok () ↔ (∀ m ∈ members, m.2.id.isSome) ∧
      ∀ a ∈ members, ∀ b ∈ members, a.1 ≠ b.1 →
        ¬ (a.2.mappingFile.isSome ∧ b.2.mappingFile.isSome) := by
  rw [checkPlainSharedIndex]
  split
  · next m hfind =>
    refine ⟨fun h => (by cases h), fun h => ?_⟩
    have hnone := List.find?_some hfind
    rw [Option.isNone_iff_eq_none] at hnone
    have hm := h.1 m (List.mem_of_find?_eq_some hfind)
    rw [hnone] at hm
    cases hm
  · next hfind =>
    have hid : ∀ m ∈ members, m.2.id.isSome := by
      intro m hm
      simpa [Option.isSome_iff_ne_none] using List.find?_eq_none.mp hfind m hm
    have htwo := filter_two (p := fun m => m.2.mappingFile.isSome) hnodup
    split
    · next x y rest hfilter =>
      obtain ⟨a, ha, b, hb, hne, hpa, hpb⟩ := htwo.mp ⟨x, y, rest, hfilter⟩
      exact ⟨fun h => (by cases h), fun h => absurd ⟨hpa, hpb⟩ (h.2 a ha b hb hne)⟩
    · next hfew =>
      refine ⟨fun _ => ⟨hid, fun a ha b hb hne hab => ?_⟩, fun _ => rfl⟩
      obtain ⟨x, y, rest, hfilter⟩ := htwo.mpr ⟨a, ha, b, hb, hne, hab.1, hab.2⟩
      exact hfew x y rest hfilter

variable {joined : List (Labelled × JoinSpec)}

theorem checkRelationNames_iff (index : String) (hnodup : (joined.map fun m => m.1.1).Nodup) :
    checkRelationNames index joined = .ok () ↔
      ∀ a ∈ joined, ∀ b ∈ joined, a.1.1 ≠ b.1.1 → a.2.name ≠ b.2.name := by
  induction joined with
  | nil => simp [checkRelationNames]
  | cons m rest ih =>
    obtain ⟨section_, join⟩ := m
    rw [List.map_cons, List.nodup_cons] at hnodup
    have hlabel : ∀ b ∈ rest, b.1.1 ≠ section_.1 := fun b hb heq =>
      hnodup.1 (heq ▸ List.mem_map.mpr ⟨b, hb, rfl⟩)
    rw [checkRelationNames]
    split
    · next b other hfind =>
      refine ⟨fun h => (by cases h), fun h => ?_⟩
      have hb := List.mem_of_find?_eq_some hfind
      have hname : other.name = join.name := by simpa using List.find?_some hfind
      exact absurd hname (h _ (List.mem_cons_of_mem _ hb) _ List.mem_cons_self (hlabel _ hb))
    · next hfind =>
      have hne : ∀ b ∈ rest, b.2.name ≠ join.name := by
        intro b hb
        simpa using List.find?_eq_none.mp hfind b hb
      rw [ih hnodup.2]
      constructor
      · intro h a ha b hb hab
        rcases List.mem_cons.mp ha with rfl | ha
        · rcases List.mem_cons.mp hb with rfl | hb
          · exact absurd rfl hab
          · exact (hne b hb).symm
        · rcases List.mem_cons.mp hb with rfl | hb
          · exact hne a ha
          · exact h a ha b hb hab
      · intro h a ha b hb
        exact h a (List.mem_cons_of_mem _ ha) b (List.mem_cons_of_mem _ hb)

theorem checkParentId_iff {parent : Labelled} (hchild : ∃ m ∈ joined, m.2.parent.isSome) :
    checkParentId parent joined = .ok () ↔ ParentId parent.2 := by
  have hcolumn : ∃ column, (joined.findSome? fun m => m.2.parent) = some column := by
    obtain ⟨m, hm, hsome⟩ := hchild
    exact Option.isSome_iff_exists.mp (List.findSome?_isSome_iff.mpr ⟨m, hm, hsome⟩)
  obtain ⟨column, hcolumn⟩ := hcolumn
  rw [checkParentId]
  split
  · next hid => exact ⟨fun _ spec hspec => (by rw [hid] at hspec; cases hspec), fun _ => rfl⟩
  · next spec hid =>
    split
    · next e hparse =>
      refine ⟨fun h => (by cases h), fun h => ?_⟩
      obtain ⟨template, htemplate, -⟩ := h spec hid
      rw [hparse] at htemplate
      cases htemplate
    · next template hparse =>
      rw [hcolumn]
      rcases hpk : template.pkOnly with _ | _
      · refine ⟨fun h => (by cases h), fun h => ?_⟩
        obtain ⟨other, hother, htrue⟩ := h spec hid
        obtain rfl := Except.ok.inj (hparse.symm.trans hother)
        rw [hpk] at htrue
        cases htrue
      · refine ⟨fun _ other hother => ?_, fun _ => rfl⟩
        obtain rfl := Option.some.inj (hid.symm.trans hother)
        exact ⟨template, hparse, hpk⟩

/-- Two parts of one join field. -/
def Joins (a b : Labelled × JoinSpec) : Prop :=
  a.2.field = b.2.field ∧ a.2.name ≠ b.2.name ∧ ¬ (a.2.parent = none ∧ b.2.parent = none) ∧
    (a.2.parent = none → ParentId a.1.2) ∧ (b.2.parent = none → ParentId b.1.2)

theorem checkJoined_ok {x y : Labelled × JoinSpec} {rest : List (Labelled × JoinSpec)}
    (hnodup : ((x :: y :: rest).map fun m => m.1.1).Nodup)
    (h : checkJoined index (x :: y :: rest) = .ok ()) :
    (∀ a ∈ x :: y :: rest, ∀ b ∈ x :: y :: rest, a.1.1 ≠ b.1.1 → Joins a b) ∧
      ∃ p ∈ x :: y :: rest, p.2.parent = none := by
  rw [checkJoined] at h
  split at h
  · cases h
  next hfind =>
  have hfield : ∀ m ∈ x :: y :: rest, m.2.field = x.2.field := by
    intro m hm
    simpa using List.find?_eq_none.mp hfind m hm
  split at h
  · cases h
  · cases h
  next parent hfilter =>
  obtain ⟨⟨⟩, hnames, hid⟩ := Except.bind_eq_ok h
  have hparent : parent ∈ (x :: y :: rest).filter fun m => m.2.parent.isNone := by
    rw [hfilter]
    exact List.mem_singleton_self _
  obtain ⟨hmem, hnone⟩ := List.mem_filter.mp hparent
  have hone : ∀ a ∈ x :: y :: rest, ∀ b ∈ x :: y :: rest, a.1.1 ≠ b.1.1 →
      ¬ (a.2.parent = none ∧ b.2.parent = none) := by
    rintro a ha b hb hne ⟨hpa, hpb⟩
    obtain ⟨c, d, more, htwo⟩ := (filter_two (p := fun m => m.2.parent.isNone) hnodup).mpr
      ⟨a, ha, b, hb, hne, by simp [hpa], by simp [hpb]⟩
    rw [hfilter] at htwo
    cases htwo
  have hparentId : ParentId parent.1.2 := by
    obtain ⟨b, hb, hne⟩ := exists_other hnodup parent
    refine (checkParentId_iff ⟨b, hb, ?_⟩).mp hid
    rw [Option.isSome_iff_ne_none]
    exact fun hnull => hone parent hmem b hb hne ⟨by simpa using hnone, hnull⟩
  have hown : ∀ a ∈ x :: y :: rest, a.2.parent = none → ParentId a.1.2 := by
    intro a ha hnull
    have ha' : a ∈ (x :: y :: rest).filter fun m => m.2.parent.isNone :=
      List.mem_filter.mpr ⟨ha, by simp [hnull]⟩
    rw [hfilter, List.mem_singleton] at ha'
    rw [ha']
    exact hparentId
  refine ⟨fun a ha b hb hne => ?_, parent, hmem, by simpa using hnone⟩
  exact ⟨(hfield a ha).trans (hfield b hb).symm,
    (checkRelationNames_iff index hnodup).mp hnames a ha b hb hne, hone a ha b hb hne,
    hown a ha, hown b hb⟩

theorem checkJoined_of {x y : Labelled × JoinSpec} {rest : List (Labelled × JoinSpec)}
    (hnodup : ((x :: y :: rest).map fun m => m.1.1).Nodup)
    (hpairs : ∀ a ∈ x :: y :: rest, ∀ b ∈ x :: y :: rest, a.1.1 ≠ b.1.1 → Joins a b)
    (hparent : ∃ p ∈ x :: y :: rest, p.2.parent = none) :
    checkJoined index (x :: y :: rest) = .ok () := by
  rw [checkJoined]
  split
  · next m join hfind =>
    have hm := List.mem_of_find?_eq_some hfind
    have hfield : join.field ≠ x.2.field := by simpa using List.find?_some hfind
    by_cases hlabel : x.1.1 = m.1
    · have hsame := List.inj_on_of_nodup_map hnodup List.mem_cons_self hm hlabel
      rw [hsame] at hfield
      exact absurd rfl hfield
    · exact absurd (hpairs x List.mem_cons_self _ hm hlabel).1.symm hfield
  · split
    · next hfilter =>
      obtain ⟨p, hp, hnone⟩ := hparent
      have hp' : p ∈ (x :: y :: rest).filter fun m => m.2.parent.isNone :=
        List.mem_filter.mpr ⟨hp, by simp [hnone]⟩
      rw [hfilter] at hp'
      cases hp'
    · next c d more hfilter =>
      obtain ⟨a, ha, b, hb, hne, hpa, hpb⟩ :=
        (filter_two (p := fun m => m.2.parent.isNone) hnodup).mp ⟨c, d, more, hfilter⟩
      exact absurd ⟨by simpa using hpa, by simpa using hpb⟩ (hpairs a ha b hb hne).2.2.1
    · next parent hfilter =>
      have hparent : parent ∈ (x :: y :: rest).filter fun m => m.2.parent.isNone := by
        rw [hfilter]
        exact List.mem_singleton_self _
      obtain ⟨hmem, hnone⟩ := List.mem_filter.mp hparent
      have hnull : parent.2.parent = none := by simpa using hnone
      obtain ⟨b, hb, hne⟩ := exists_other hnodup parent
      have hjoins := hpairs parent hmem b hb hne
      have hchild : b.2.parent.isSome := by
        rw [Option.isSome_iff_ne_none]
        exact fun hb' => hjoins.2.2.1 ⟨hnull, hb'⟩
      have hnames := (checkRelationNames_iff index hnodup).mpr
        fun a ha b hb hne => (hpairs a ha b hb hne).2.1
      rw [hnames]
      exact (checkParentId_iff ⟨b, hb, hchild⟩).mpr (hjoins.2.2.2.1 hnull)

theorem joinedMembers_ok {declaring : Label}
    (h : joinedMembers index declaring members = .ok joined) :
    joined.map Prod.fst = members ∧ ∀ m ∈ joined, m.1.2.join = some m.2 := by
  rw [joinedMembers] at h
  induction members generalizing joined with
  | nil =>
    cases h
    exact ⟨rfl, fun m hm => absurd hm List.not_mem_nil⟩
  | cons m members ih =>
    rw [List.mapM_cons] at h
    obtain ⟨first, hfirst, h⟩ := Except.bind_eq_ok h
    obtain ⟨others, hothers, h⟩ := Except.bind_eq_ok h
    cases h
    obtain ⟨hmap, hjoin⟩ := ih hothers
    split at hfirst
    · next join hjoined =>
      cases hfirst
      refine ⟨by rw [List.map_cons, hmap], fun m' hm' => ?_⟩
      rcases List.mem_cons.mp hm' with rfl | hm'
      · exact hjoined
      · exact hjoin m' hm'
    · cases hfirst

theorem joinedMembers_of (index : String) (declaring : Label) (h : ∀ m ∈ members, m.2.join.isSome) :
    ∃ joined, joinedMembers index declaring members = .ok joined := by
  apply mapM_of_forall
  intro m hm
  obtain ⟨join, hjoin⟩ := Option.isSome_iff_exists.mp (h m hm)
  exact ⟨(m, join), by rw [hjoin]⟩

theorem shares_of_joins {a b : Labelled × JoinSpec} (ha : a.1.2.join = some a.2)
    (hb : b.1.2.join = some b.2) : Joins a b ↔ Shares a.1.2 b.1.2 := by
  rw [Shares, ha, hb]
  rfl

/-- The sections of one index are accepted if and only if any two may share it, and a
child has a parent among them. -/
theorem checkIndexGroup_iff (hnodup : (members.map Prod.fst).Nodup) (hne : members ≠ []) :
    checkIndexGroup index members = .ok () ↔
      (∀ a ∈ members, ∀ b ∈ members, a.1 ≠ b.1 → Shares a.2 b.2) ∧
      ∀ s ∈ members, ∀ join column, s.2.join = some join → join.parent = some column →
        ∃ p ∈ members, ∃ other, p.2.join = some other ∧ other.parent = none := by
  rcases members with _ | ⟨x, _ | ⟨y, rest⟩⟩
  · exact absurd rfl hne
  · -- one section alone: a child has no parent
    rw [checkIndexGroup]
    rcases hparent : x.2.join.bind (·.parent) with _ | column
    · refine ⟨fun _ => ⟨?_, ?_⟩, fun _ => rfl⟩
      · intro a ha b hb hab
        rw [List.mem_singleton.mp ha, List.mem_singleton.mp hb] at hab
        exact absurd rfl hab
      · intro s hs join column hjoin hcolumn
        rw [List.mem_singleton.mp hs] at hjoin
        rw [hjoin, Option.bind_some, hcolumn] at hparent
        cases hparent
    · refine ⟨fun h => (by cases h), fun h => ?_⟩
      obtain ⟨join, hjoin, hcolumn⟩ := Option.bind_eq_some_iff.mp hparent
      obtain ⟨p, hp, other, hother, hnone⟩ := h.2 x List.mem_cons_self join column hjoin hcolumn
      rw [List.mem_singleton.mp hp, hjoin] at hother
      obtain rfl := Option.some.inj hother
      rw [hcolumn] at hnone
      cases hnone
  · rw [checkIndexGroup.eq_2 _ _ (by simp), checkSharedIndex]
    split
    · next hfind =>
      have hplain : ∀ m ∈ x :: y :: rest, m.2.join = none := by
        intro m hm
        simpa using List.find?_eq_none.mp hfind m hm
      rw [checkPlainSharedIndex_iff hnodup]
      constructor
      · intro h
        refine ⟨fun a ha b hb hab => ?_, fun s hs join column hjoin => ?_⟩
        · rw [Shares, hplain a ha, hplain b hb]
          exact ⟨h.1 a ha, h.1 b hb, h.2 a ha b hb hab⟩
        · rw [hplain s hs] at hjoin
          cases hjoin
      · intro h
        have hshares : ∀ a ∈ x :: y :: rest, ∀ b ∈ x :: y :: rest, a.1 ≠ b.1 →
            a.2.id.isSome ∧ b.2.id.isSome ∧
              ¬ (a.2.mappingFile.isSome ∧ b.2.mappingFile.isSome) := by
          intro a ha b hb hab
          have hboth := h.1 a ha b hb hab
          rw [Shares, hplain a ha, hplain b hb] at hboth
          exact hboth
        refine ⟨fun m hm => ?_, fun a ha b hb hab => (hshares a ha b hb hab).2.2⟩
        obtain ⟨b, hb, hmb⟩ := exists_other hnodup m
        exact (hshares m hm b hb hmb).1
    · next m hfind =>
      have hm := List.mem_of_find?_eq_some hfind
      have hmjoin : m.2.join.isSome := by simpa using List.find?_some hfind
      have hshape : ∀ joined : List (Labelled × JoinSpec), joined.map Prod.fst = x :: y :: rest →
          ∃ jx jy more, joined = jx :: jy :: more ∧
            ((jx :: jy :: more).map fun m => m.1.1).Nodup := by
        intro joined hmap
        rcases joined with _ | ⟨jx, _ | ⟨jy, more⟩⟩
        · cases hmap
        · cases hmap
        · refine ⟨jx, jy, more, rfl, ?_⟩
          rw [← hmap, List.map_map] at hnodup
          exact hnodup
      constructor
      · intro h
        obtain ⟨joined, hjoined, hcheck⟩ := Except.bind_eq_ok h
        obtain ⟨hmap, hspec⟩ := joinedMembers_ok hjoined
        obtain ⟨jx, jy, more, rfl, hnodup'⟩ := hshape joined hmap
        obtain ⟨hpairs, p, hp, hnone⟩ := checkJoined_ok hnodup' hcheck
        rw [← hmap]
        constructor
        · intro a ha b hb hab
          obtain ⟨ja, hja, rfl⟩ := List.mem_map.mp ha
          obtain ⟨jb, hjb, rfl⟩ := List.mem_map.mp hb
          exact (shares_of_joins (hspec ja hja) (hspec jb hjb)).mp (hpairs ja hja jb hjb hab)
        · intro s _ join column _ _
          exact ⟨p.1, List.mem_map_of_mem hp, p.2, hspec p hp, hnone⟩
      · intro h
        have hall : ∀ s ∈ x :: y :: rest, s.2.join.isSome := by
          intro s hs
          by_cases hlabel : m.1 = s.1
          · rw [← List.inj_on_of_nodup_map hnodup hm hs hlabel]
            exact hmjoin
          · have hshares := h.1 m hm s hs hlabel
            rw [Shares] at hshares
            obtain ⟨join, hjoin⟩ := Option.isSome_iff_exists.mp hmjoin
            rcases hs' : s.2.join with _ | other
            · rw [hjoin, hs'] at hshares
              exact hshares.elim
            · rfl
        obtain ⟨joined, hjoined⟩ := joinedMembers_of index m.1 hall
        obtain ⟨hmap, hspec⟩ := joinedMembers_ok hjoined
        obtain ⟨jx, jy, more, rfl, hnodup'⟩ := hshape joined hmap
        rw [hjoined]
        refine checkJoined_of hnodup' ?_ ?_
        · intro a ha b hb hab
          refine (shares_of_joins (hspec a ha) (hspec b hb)).mpr (h.1 a.1 ?_ b.1 ?_ hab)
          · rw [← hmap]
            exact List.mem_map_of_mem ha
          · rw [← hmap]
            exact List.mem_map_of_mem hb
        · -- the first section is a parent, or a child of one
          have hjx : jx.1 ∈ x :: y :: rest := hmap ▸ List.mem_map_of_mem List.mem_cons_self
          rcases hcolumn : jx.2.parent with _ | column
          · exact ⟨jx, List.mem_cons_self, hcolumn⟩
          · obtain ⟨p, hp, other, hother, hnone⟩ :=
              h.2 jx.1 hjx jx.2 column (hspec jx List.mem_cons_self) hcolumn
            rw [← hmap] at hp
            obtain ⟨jp, hjp, rfl⟩ := List.mem_map.mp hp
            obtain rfl := Option.some.inj ((hspec jp hjp).symm.trans hother)
            exact ⟨jp, hjp, hnone⟩

/-! ## The whole check -/

theorem checkTemplateClaim_iff {targets : List (Labelled × IndexTarget)}
    {own : Labelled × IndexTarget} : checkTemplateClaim targets own = .ok () ↔
      ∀ spec template, own.2 = .template spec template →
        ∀ other ∈ targets, other.1.1 ≠ own.1.1 → other.1.indexName ≠ spec ∧
          indexMatchesPattern own.2.pattern other.2.pattern = false := by
  have hmem : ∀ {other : Labelled × IndexTarget}, other ∈ targets → other.1.1 ≠ own.1.1 →
      other ∈ targets.filter fun t => t.1.1 ≠ own.1.1 := fun hother hne =>
    List.mem_filter.mpr ⟨hother, by simpa using hne⟩
  simp only [checkTemplateClaim]
  split
  · next name htarget =>
    refine ⟨fun _ spec template h => ?_, fun _ => rfl⟩
    cases htarget.symm.trans h
  next spec template htarget =>
  split
  · next other hfind =>
    refine ⟨fun h => (by cases h), fun h => ?_⟩
    obtain ⟨hother, hne⟩ := List.mem_filter.mp (List.mem_of_find?_eq_some hfind)
    have hname : other.1.indexName = spec := by simpa using List.find?_some hfind
    exact absurd hname (h spec template htarget other hother (by simpa using hne)).1
  next hname =>
  split
  · next other hfind =>
    refine ⟨fun h => (by cases h), fun h => ?_⟩
    obtain ⟨hother, hne⟩ := List.mem_filter.mp (List.mem_of_find?_eq_some hfind)
    have hfound := List.find?_some hfind
    rw [(h spec template htarget other hother (by simpa using hne)).2] at hfound
    cases hfound
  · next hpattern =>
    refine ⟨fun _ spec' template' h other hother hne => ?_, fun _ => rfl⟩
    cases htarget.symm.trans h
    refine ⟨?_, ?_⟩
    · simpa using List.find?_eq_none.mp hname other (hmem hother hne)
    · simpa using List.find?_eq_none.mp hpattern other (hmem hother hne)

/-- A set of sections is accepted if and only if each has a target, any two leave each
other alone and may share what index they share, and every child has a parent. -/
theorem checkIndexOverlap_iff {sections : List Labelled} (hnodup : (sections.map Prod.fst).Nodup) :
    checkIndexOverlap sections = .ok () ↔
      (∀ s ∈ sections, ∃ target, s.2.indexTarget s.1.key [] = .ok target) ∧
      (∀ a ∈ sections, ∀ b ∈ sections, a.1 ≠ b.1 →
        LeavesAlone a b ∧ (a.indexName = b.indexName → Shares a.2 b.2)) ∧
      HasParents sections := by
  have hgroup : ∀ s ∈ sections,
      checkIndexGroup s.indexName (sections.filter fun t => t.indexName = s.indexName) = .ok () ↔
        (∀ a ∈ sections.filter fun t => t.indexName = s.indexName,
          ∀ b ∈ sections.filter fun t => t.indexName = s.indexName, a.1 ≠ b.1 → Shares a.2 b.2) ∧
        ∀ t ∈ sections.filter fun t => t.indexName = s.indexName, ∀ join column,
          t.2.join = some join → join.parent = some column →
          ∃ p ∈ sections.filter fun t => t.indexName = s.indexName,
            ∃ other, p.2.join = some other ∧ other.parent = none := by
    intro s hs
    apply checkIndexGroup_iff (hnodup.sublist (List.filter_sublist.map _))
    exact List.ne_nil_of_mem (List.mem_filter.mpr ⟨hs, decide_eq_true rfl⟩)
  have hin : ∀ {s t : Labelled}, t ∈ sections → t.indexName = s.indexName →
      t ∈ sections.filter fun t => t.indexName = s.indexName := fun ht hname =>
    List.mem_filter.mpr ⟨ht, decide_eq_true hname⟩
  constructor
  · intro h
    refine ⟨fun s hs => checkIndexOverlap_target h hs, ?_, ?_⟩
    · intro a ha b hb hne
      constructor
      · intro spec template htarget
        obtain ⟨targets, hm, hclaims, -⟩ := checkIndexOverlap_ok h
        obtain ⟨⟨a', ta⟩, hta, hra⟩ := exists_of_mapM hm ha
        obtain ⟨⟨b', tb⟩, htb, hrb⟩ := exists_of_mapM hm hb
        obtain ⟨rfl, hta'⟩ := resolveTarget_ok hra
        obtain ⟨rfl, htb'⟩ := resolveTarget_ok hrb
        cases htarget.symm.trans hta'
        refine ⟨(checkTemplateClaim_iff.mp (hclaims _ hta) spec template rfl _ htb
          (Ne.symm hne)).1, fun other hother => ?_⟩
        exact checkIndexOverlap_pattern h ha hb hne htarget hother
      · intro hname
        have hshares := ((hgroup a ha).mp (checkIndexOverlap_group h ha)).1
        exact hshares a (hin ha rfl) b (hin hb hname.symm) hne
    · intro s hs join column hjoin hcolumn
      obtain ⟨p, hp, hparent⟩ := ((hgroup s hs).mp (checkIndexOverlap_group h hs)).2 s
        (hin hs rfl) join column hjoin hcolumn
      obtain ⟨hmem, hname⟩ := List.mem_filter.mp hp
      exact ⟨p, hmem, by simpa using hname, hparent⟩
  · rintro ⟨htargets, hpairs, hparents⟩
    have hresolve : ∃ targets, sections.mapM resolveTarget = .ok targets := by
      apply mapM_of_forall
      intro s hs
      obtain ⟨target, htarget⟩ := htargets s hs
      exact ⟨(s, target), by rw [resolveTarget, htarget]⟩
    obtain ⟨targets, hm⟩ := hresolve
    have hfrom : ∀ t ∈ targets, t.1 ∈ sections ∧ t.1.2.indexTarget t.1.1.key [] = .ok t.2 := by
      intro t ht
      obtain ⟨s, hs, hresolve⟩ := exists_of_mem_mapM hm ht
      obtain ⟨rfl, htarget⟩ := resolveTarget_ok hresolve
      exact ⟨hs, htarget⟩
    have hclaims : checkTemplateClaims targets = .ok () := by
      refine checkEach_ok.mpr fun own hown => checkTemplateClaim_iff.mpr ?_
      intro spec template htarget other hother hne
      obtain ⟨hownIn, hownTarget⟩ := hfrom own hown
      obtain ⟨hotherIn, hotherTarget⟩ := hfrom other hother
      rw [htarget] at hownTarget ⊢
      obtain ⟨hname, hpattern⟩ :=
        (hpairs own.1 hownIn other.1 hotherIn (Ne.symm hne)).1 spec template hownTarget
      exact ⟨hname, hpattern other.2 hotherTarget⟩
    rw [checkIndexOverlap, hm]
    simp only [Except.bind, hclaims]
    refine checkEach_ok.mpr fun group hmem => ?_
    have hget := get?_byIndex sections group.1
    rw [Dictionary.mem_entries_iff.mp hmem, Option.getD_some] at hget
    rcases hmembers : group.2 with _ | ⟨s, rest⟩
    · rfl
    · have hs : s ∈ sections.filter fun t => t.indexName = group.1 :=
        hget ▸ hmembers ▸ List.mem_cons_self
      obtain ⟨hsIn, hname⟩ := List.mem_filter.mp hs
      have hname : s.indexName = group.1 := by simpa using hname
      rw [← hmembers, hget, ← hname]
      refine (hgroup s hsIn).mpr ⟨fun a ha b hb hne => ?_, fun t ht join column hjoin hcolumn => ?_⟩
      · obtain ⟨haIn, haName⟩ := List.mem_filter.mp ha
        obtain ⟨hbIn, hbName⟩ := List.mem_filter.mp hb
        refine (hpairs a haIn b hbIn hne).2 ?_
        rw [of_decide_eq_true haName, of_decide_eq_true hbName]
      · obtain ⟨htIn, htName⟩ := List.mem_filter.mp ht
        obtain ⟨p, hp, hpName, hparent⟩ := hparents t htIn join column hjoin hcolumn
        exact ⟨p, hin hp (hpName.trans (of_decide_eq_true htName)), hparent⟩

end Config

end Pg2osync
