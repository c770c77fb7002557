import Pg2osync.Concurrency
import Pg2osync.Interleave

/-!
# Operations whose order matters

Two operations on one document *conflict* when the target does not end up the
same in either order. With versions to go by that leaves few of them: two writes
of one version that leave different documents, and a cascade beside a write that
does not outrank it.

The order is compared on *views*: the slot itself where the document's operations
are versioned, and the slot without the target's own count where none of them is.
-/

namespace Pg2osync

open Register VersionedTarget

namespace Workload

open Register.Write

variable (w : Workload) (key : DocKey)

/-- Every document that is or may be stored under a key. -/
def contents : List Json :=
  (Slot.content (w.target.initial key)).toList ++
    w.ops.filterMap fun op => if op.key = some key then w.target.leaves op else none

/-- Whether an operation is about the document under a key, at some time. -/
def about (op : DocumentOp) : Bool :=
  match op.key with
  | some own => own = key
  | none => (w.contents key).any (w.target.isChild op key)

/-- Whether every operation about a document has a version. -/
def versioned : Bool :=
  w.ops.all fun op => !w.about key op || op.rank.isSome

/-- Whether no operation about a document has a version. -/
def unversioned : Bool :=
  w.ops.all fun op => !w.about key op || op.rank.isNone

/-- On each document either all operations have a version or none has. -/
def Uniform : Prop :=
  ∀ key, w.versioned key = true ∨ w.unversioned key = true

/-- Whether a cascade conflicts with a write. -/
def cascadeConflict (cascade op : DocumentOp) : Bool :=
  w.about key cascade && (outranked op.rank cascade.rank ||
    (op.rank = cascade.rank && (w.target.leaves op).isSome))

/-- Whether two operations conflict on a document they are about. -/
def conflict (a b : DocumentOp) : Bool :=
  match a.key, b.key with
  | some _, some _ => a.rank = b.rank && w.target.leaves a ≠ w.target.leaves b
  | some _, none => w.cascadeConflict key b a
  | none, some _ => w.cascadeConflict key a b
  | none, none => a.rank ≠ b.rank &&
      (w.contents key).any fun doc => w.target.isChild a key doc && w.target.isChild b key doc

/-- What is compared of a slot. -/
def view (s : Slot) : Slot :=
  if w.versioned key then s else s.map fun held => (0, held.2)

/-- What an operation does to a view. -/
def act (op : DocumentOp) (s : Slot) : Slot :=
  w.view key (w.target.actOn op key s)

/-- A view of a slot whose document is one that may be stored there. -/
structure Good (s : Slot) : Prop where
  /-- it is a view -/
  view : w.view key s = s
  /-- of a document that may be there -/
  content : ∀ doc, Slot.content s = some doc → doc ∈ w.contents key

variable {w key} {a b : DocumentOp}

theorem conflict_symm : w.conflict key a b = w.conflict key b a := by
  unfold conflict
  cases a.key <;> cases b.key <;> simp only [Bool.and_comm, ne_comm, eq_comm]

/-! ## Views -/

@[simp] theorem content_view (s : Slot) : Slot.content (w.view key s) = Slot.content s := by
  rw [view]
  split
  · rfl
  · cases s <;> rfl

@[simp] theorem view_view (s : Slot) : w.view key (w.view key s) = w.view key s := by
  unfold view
  split
  · rfl
  · cases s <;> rfl

variable {op : DocumentOp} {s t : Slot}

/-- Whether an operation reaches a document shows in the view. -/
theorem reaches_congr (h : Slot.content s = Slot.content t) :
    w.target.reaches op key s = w.target.reaches op key t := by
  unfold reaches
  rw [h]

/-- What an operation reaches it is about. -/
theorem about_of_reaches {s : Slot} (hs : ∀ doc, Slot.content s = some doc → doc ∈ w.contents key)
    (h : w.target.reaches op key s = true) : w.about key op = true := by
  unfold reaches at h
  unfold about
  cases hkey : op.key with
  | some own => simpa [hkey] using h
  | none =>
    rw [hkey] at h
    obtain ⟨doc, hdoc, hchild⟩ := (Option.any_eq_true _ _).mp h
    exact List.any_eq_true.mpr ⟨doc, hs doc hdoc, hchild⟩

/-- What a write of an operation about a document makes of a view. -/
def mark (rank : Option ℕ) (content : Option Json) (s : Slot) : Slot :=
  match rank with
  | some v => Register.writeMarked s (.of v content)
  | none => some (0, content)

/-- The ranks of the operations about a document are all positions or none is. -/
theorem rank_of_about (huniform : w.Uniform) (hop : op ∈ w.ops) (h : w.about key op = true) :
    op.rank.isSome = w.versioned key := by
  cases hv : w.versioned key with
  | true => simpa [h] using List.all_eq_true.mp hv op hop
  | false =>
    rcases huniform key with hv' | hu
    · rw [hv] at hv'
      cases hv'
    · simpa [h] using List.all_eq_true.mp hu op hop

theorem view_writeSlot {rank : Option ℕ} (h : rank.isSome = w.versioned key)
    (content : Option Json) (s : Slot) :
    w.view key (writeSlot rank content s) = mark rank content (w.view key s) := by
  cases rank with
  | some v =>
    have hv : w.versioned key = true := h.symm
    simp only [view, hv, if_true, writeSlot, mark]
  | none =>
    have hv : w.versioned key = false := h.symm
    simp [view, hv, writeSlot, mark]

theorem act_eq (huniform : w.Uniform) (hop : op ∈ w.ops) {s : Slot} (hs : w.Good key s) :
    w.act key op s =
      if w.target.reaches op key s then mark op.rank (w.target.leaves op) s else s := by
  unfold act actOn
  split
  · next h =>
    rw [view_writeSlot (rank_of_about huniform hop (about_of_reaches hs.content h)), hs.view]
  · exact hs.view

/-- What an operation does to a slot, on its view. -/
theorem view_actOn (huniform : w.Uniform) (hop : op ∈ w.ops) {s : Slot}
    (hs : w.Good key (w.view key s)) :
    w.view key (w.target.actOn op key s) = w.act key op (w.view key s) := by
  rw [act_eq huniform hop hs, reaches_congr (content_view s)]
  unfold actOn
  split
  · next h =>
    have h' := about_of_reaches (fun doc hdoc => hs.content doc (by rwa [content_view])) h
    rw [view_writeSlot (rank_of_about huniform hop h')]
  · rfl

theorem content_mark {rank : Option ℕ} {content : Option Json} {s : Slot} :
    Slot.content (mark rank content s) = content ∨
      Slot.content (mark rank content s) = Slot.content s := by
  cases rank with
  | none => exact Or.inl rfl
  | some v =>
    rcases s with _ | ⟨u, c⟩
    · exact Or.inl (by simp [mark, writeMarked, Slot.content])
    · unfold mark writeMarked
      simp only [version_of, content_of]
      split
      · exact Or.inl rfl
      · exact Or.inr rfl

/-- What an operation leaves under a key may be there. -/
theorem leaves_mem_contents (hop : op ∈ w.ops) {doc : Json} {s : Slot}
    (hreaches : w.target.reaches op key s = true) (h : w.target.leaves op = some doc) :
    doc ∈ w.contents key := by
  unfold reaches at hreaches
  split at hreaches
  · next own hown =>
    have hkey : op.key = some key := by rw [hown, of_decide_eq_true hreaches]
    exact List.mem_append_right _ (List.mem_filterMap.mpr ⟨op, hop, by rw [if_pos hkey, h]⟩)
  · next hnone =>
    cases op with
    | deleteChildren => cases h
    | upsert => cases hnone
    | delete => cases hnone

theorem good_act (huniform : w.Uniform) (hop : op ∈ w.ops) {s : Slot} (hs : w.Good key s) :
    w.Good key (w.act key op s) := by
  refine ⟨view_view _, fun doc hdoc => ?_⟩
  rw [act_eq huniform hop hs] at hdoc
  split at hdoc
  · next hreaches =>
    rcases @content_mark op.rank (w.target.leaves op) s with h | h
    · exact leaves_mem_contents hop hreaches (h ▸ hdoc)
    · exact hs.content doc (h ▸ hdoc)
  · exact hs.content doc hdoc

/-! ## Marks

`child` stands for the query of a cascade: it never holds of a removed document. -/

theorem mark_self (rank : Option ℕ) (content : Option Json) (s : Slot) :
    mark rank content (mark rank content s) = mark rank content s := by
  cases rank with
  | none => rfl
  | some v => exact writeMarked_self _ s

variable {rank rank' : Option ℕ}

theorem mark_absorb {content : Option Json} (hkind : rank.isSome = rank'.isSome)
    (h : mark rank content s = mark rank content t) (content' : Option Json) :
    mark rank content (mark rank' content' s) = mark rank content (mark rank' content' t) := by
  cases rank with
  | none => rfl
  | some v =>
    cases rank' with
    | none => cases hkind
    | some v' => exact writeMarked_absorb h _

theorem mark_comm {content content' : Option Json} (hkind : rank.isSome = rank'.isSome)
    (h : rank = rank' → content = content') (s : Slot) :
    mark rank content (mark rank' content' s) = mark rank' content' (mark rank content s) := by
  cases rank with
  | none =>
    cases rank' with
    | none => rw [h rfl]
    | some v' => cases hkind
  | some v =>
    cases rank' with
    | none => cases hkind
    | some v' =>
      refine writeMarked_comm ?_ s
      rcases Decidable.em (v' = v) with rfl | hne
      · exact Or.inr (by simp [h rfl])
      · exact Or.inl (by simpa using hne)

/-- What a cascade makes of a view. -/
def sweep (rank : Option ℕ) (child : Option Json → Bool) (s : Slot) : Slot :=
  if child (Slot.content s) then mark rank none s else s

variable {child child' : Option Json → Bool}

theorem sweep_self (hchild : child none = false) (rank : Option ℕ) (s : Slot) :
    sweep rank child (sweep rank child s) = sweep rank child s := by
  cases rank <;> rcases s with _ | ⟨u, c⟩ <;>
    grind [sweep, mark, writeMarked, Slot.content, version_of,
      content_of]

/-- A cascade that is outranked by a write, or of its rank beside a removal,
leaves the same before it and after it. -/
theorem sweep_mark_comm (hchild : child none = false) {content : Option Json}
    (hkind : rank.isSome = rank'.isSome) (hrank : outranked rank' rank = false)
    (hsame : rank' = rank → content = none) (s : Slot) :
    sweep rank child (mark rank' content s) = mark rank' content (sweep rank child s) := by
  cases rank <;> cases rank' <;> rcases s with _ | ⟨u, c⟩ <;>
    grind [sweep, mark, writeMarked, Slot.content, version_of,
      content_of, outranked]

theorem sweep_comm (hchild : child none = false) (hchild' : child' none = false)
    (hkind : rank.isSome = rank'.isSome) {s : Slot}
    (h : rank = rank' ∨ ¬ (child (Slot.content s) = true ∧ child' (Slot.content s) = true)) :
    sweep rank child (sweep rank' child' s) = sweep rank' child' (sweep rank child s) := by
  cases rank <;> cases rank' <;> rcases s with _ | ⟨u, c⟩ <;>
    grind [sweep, mark, writeMarked, Slot.content, version_of,
      content_of]

/-- A document that a cascade found is still removed by its delete as it would
be by the cascade itself, or no longer removed by either, when a write that does
not conflict comes in between. -/
theorem strike_mark (hchild : child none = false) {content : Option Json}
    (hkind : rank.isSome = rank'.isSome) (hrank : outranked rank' rank = false)
    (hsame : rank' = rank → content = none) {s : Slot} (h : mark rank none s = sweep rank child s) :
    mark rank none (mark rank' content s) = sweep rank child (mark rank' content s) := by
  cases rank <;> cases rank' <;> rcases s with _ | ⟨u, c⟩ <;>
    grind [sweep, mark, writeMarked, Slot.content, version_of,
      content_of, outranked]

/-- The same when another cascade comes in between. -/
theorem strike_sweep (hchild : child none = false) (hchild' : child' none = false)
    (hkind : rank.isSome = rank'.isSome) {s : Slot}
    (hboth : rank = rank' ∨ ¬ (child (Slot.content s) = true ∧ child' (Slot.content s) = true))
    (h : mark rank none s = sweep rank child s) :
    mark rank none (sweep rank' child' s) = sweep rank child (sweep rank' child' s) := by
  cases rank <;> cases rank' <;> rcases s with _ | ⟨u, c⟩ <;>
    grind [sweep, mark, writeMarked, Slot.content, version_of,
      content_of]

/-! ## Operations on views -/

/-- The query of a cascade, of a slot's document. -/
def childOf (w : Workload) (key : DocKey) (op : DocumentOp) (content : Option Json) : Bool :=
  content.any (w.target.isChild op key)

@[simp] theorem childOf_none (op : DocumentOp) : w.childOf key op none = false := rfl

theorem key_eq_none_iff : op.key = none ↔ op.isCascade = true := by
  cases op <;> simp [DocumentOp.key, DocumentOp.isCascade]

theorem leaves_of_cascade (h : op.key = none) : w.target.leaves op = none := by
  cases op with
  | upsert => cases h
  | delete => cases h
  | deleteChildren => rfl

theorem about_write (h : op.key = some key) : w.about key op = true := by
  simp [about, h]

/-- Cascades that do not conflict are of one rank or have no child in common. -/
theorem cascades_apart (hakey : a.key = none) (hbkey : b.key = none)
    (h : w.conflict key a b = false) {s : Slot} (hs : w.Good key s) :
    a.rank = b.rank ∨
      ¬ (w.childOf key a (Slot.content s) = true ∧ w.childOf key b (Slot.content s) = true) := by
  rcases Decidable.em (a.rank = b.rank) with heq | hne
  · exact Or.inl heq
  · refine Or.inr fun ⟨hca, hcb⟩ => ?_
    obtain ⟨doc, hdoc, hchild⟩ := (Option.any_eq_true _ _).mp hca
    have hboth : w.target.isChild b key doc = true := by simpa [childOf, hdoc] using hcb
    simp only [conflict, hakey, hbkey, hne, ne_eq, not_false_eq_true, decide_true,
      Bool.true_and] at h
    have := List.any_eq_false.mp h doc (hs.content doc hdoc)
    simp [hchild, hboth] at this

section

variable (huniform : w.Uniform)

include huniform

theorem act_write (hop : op ∈ w.ops) (hkey : op.key = some key) {s : Slot} (hs : w.Good key s) :
    w.act key op s = mark op.rank (w.target.leaves op) s := by
  rw [act_eq huniform hop hs, if_pos (by simp [reaches, hkey])]

theorem act_cascade (hop : op ∈ w.ops) (hkey : op.key = none) {s : Slot} (hs : w.Good key s) :
    w.act key op s = sweep op.rank (w.childOf key op) s := by
  have hreaches : w.target.reaches op key s = w.childOf key op (Slot.content s) := by
    unfold reaches
    rw [hkey]
    rfl
  rw [act_eq huniform hop hs, leaves_of_cascade hkey, hreaches]
  rfl

/-- An operation that is not about a document leaves it alone. -/
theorem act_of_not_about (hop : op ∈ w.ops) (h : w.about key op = false) {s : Slot}
    (hs : w.Good key s) : w.act key op s = s := by
  rw [act_eq huniform hop hs, if_neg]
  intro hreaches
  rw [about_of_reaches hs.content hreaches] at h
  cases h

theorem act_self (hop : op ∈ w.ops) {s : Slot} (hs : w.Good key s) :
    w.act key op (w.act key op s) = w.act key op s := by
  have hs' := good_act huniform hop hs
  cases hkey : op.key with
  | none =>
    rw [act_cascade huniform hop hkey hs', act_cascade huniform hop hkey hs]
    exact sweep_self rfl _ _
  | some own =>
    rcases Decidable.em (own = key) with rfl | hne
    · rw [act_write huniform hop hkey hs', act_write huniform hop hkey hs]
      exact mark_self _ _ _
    · have habout : w.about key op = false := by simp [about, hkey, hne]
      rw [act_of_not_about huniform hop habout hs']

/-- Two operations about one document have both a version or neither. -/
theorem same_kind (ha : a ∈ w.ops) (hb : b ∈ w.ops) (habout : w.about key a = true)
    (hbabout : w.about key b = true) : a.rank.isSome = b.rank.isSome := by
  rw [rank_of_about huniform ha habout, rank_of_about huniform hb hbabout]

/-- The cascade half of `act_comm`. -/
theorem act_comm_cascade {c op : DocumentOp} (hc : c ∈ w.ops) (hop : op ∈ w.ops)
    (hckey : c.key = none) (hkey : op.key = some key)
    (h : w.cascadeConflict key c op = false) {s : Slot} (hs : w.Good key s) :
    w.act key c (w.act key op s) = w.act key op (w.act key c s) := by
  have hops := good_act huniform hop hs
  have hcs := good_act huniform hc hs
  cases habout : w.about key c with
  | false =>
    rw [act_of_not_about huniform hc habout hs, act_of_not_about huniform hc habout hops]
  | true =>
    have hkind := same_kind huniform hc hop habout (about_write hkey)
    simp only [cascadeConflict, habout, Bool.true_and, Bool.or_eq_false_iff] at h
    rw [act_cascade huniform hc hckey hops, act_write huniform hop hkey hcs,
      act_write huniform hop hkey hs, act_cascade huniform hc hckey hs]
    exact sweep_mark_comm rfl hkind h.1 (fun hsame => by simpa [hsame] using h.2) s

/-- **Operations that do not conflict commute.** -/
theorem act_comm (ha : a ∈ w.ops) (hb : b ∈ w.ops) (hakey : a.key = none ∨ a.key = some key)
    (hbkey : b.key = none ∨ b.key = some key) (h : w.conflict key a b = false) {s : Slot}
    (hs : w.Good key s) : w.act key a (w.act key b s) = w.act key b (w.act key a s) := by
  have has := good_act huniform ha hs
  have hbs := good_act huniform hb hs
  rcases hakey with hakey | hakey <;> rcases hbkey with hbkey | hbkey
  · -- two cascades
    cases haa : w.about key a with
    | false => rw [act_of_not_about huniform ha haa hs, act_of_not_about huniform ha haa hbs]
    | true =>
      cases hbb : w.about key b with
      | false => rw [act_of_not_about huniform hb hbb hs, act_of_not_about huniform hb hbb has]
      | true =>
        have hkind := same_kind huniform ha hb haa hbb
        rw [act_cascade huniform ha hakey hbs, act_cascade huniform hb hbkey hs,
          act_cascade huniform hb hbkey has, act_cascade huniform ha hakey hs]
        exact sweep_comm rfl rfl hkind (cascades_apart hakey hbkey h hs)
  · simp only [conflict, hakey, hbkey] at h
    exact act_comm_cascade huniform ha hb hakey hbkey h hs
  · simp only [conflict, hakey, hbkey] at h
    exact (act_comm_cascade huniform hb ha hbkey hakey h hs).symm
  · simp only [conflict, hakey, hbkey] at h
    have hkind := same_kind huniform ha hb (about_write hakey) (about_write hbkey)
    rw [act_write huniform ha hakey hbs, act_write huniform hb hbkey hs,
      act_write huniform hb hbkey has, act_write huniform ha hakey hs]
    refine mark_comm hkind (fun hrank => ?_) s
    simpa [hrank] using h

/-- A write of a document covers every other write of it. -/
theorem act_absorb (ha : a ∈ w.ops) (hb : b ∈ w.ops) (hakey : a.key = some key)
    (hbkey : b.key = some key) (hs : w.Good key s) (ht : w.Good key t)
    (h : w.act key a s = w.act key a t) :
    w.act key a (w.act key b s) = w.act key a (w.act key b t) := by
  have hkind := same_kind huniform ha hb (about_write hakey) (about_write hbkey)
  rw [act_write huniform ha hakey hs, act_write huniform ha hakey ht] at h
  rw [act_write huniform ha hakey (good_act huniform hb hs),
    act_write huniform ha hakey (good_act huniform hb ht), act_write huniform hb hbkey hs,
    act_write huniform hb hbkey ht]
  exact mark_absorb hkind h _

/-- What removing a document a cascade found makes of its view is still what the
cascade itself would, after an operation that does not conflict. -/
theorem strike_act {c op : DocumentOp} (hc : c ∈ w.ops) (hop : op ∈ w.ops) (hckey : c.key = none)
    (habout : w.about key c = true) (hkey : op.key = none ∨ op.key = some key)
    (h : w.conflict key c op = false) {s : Slot} (hs : w.Good key s)
    (hstrike : mark c.rank none s = w.act key c s) :
    mark c.rank none (w.act key op s) = w.act key c (w.act key op s) := by
  have hops := good_act huniform hop hs
  rw [act_cascade huniform hc hckey hs] at hstrike
  rw [act_cascade huniform hc hckey hops]
  cases hopabout : w.about key op with
  | false => rwa [act_of_not_about huniform hop hopabout hs]
  | true =>
    have hkind := same_kind huniform hc hop habout hopabout
    rcases hkey with hkey | hkey
    · rw [act_cascade huniform hop hkey hs]
      exact strike_sweep rfl rfl hkind (cascades_apart hckey hkey h hs) hstrike
    · simp only [conflict, hckey, hkey, cascadeConflict, habout, Bool.true_and,
        Bool.or_eq_false_iff] at h
      rw [act_write huniform hop hkey hs]
      exact strike_mark rfl hkind h.1 (fun hsame => by simpa [hsame] using h.2) hstrike

end

end Workload

end Pg2osync
