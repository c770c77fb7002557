import Mathlib.Data.List.Nodup
import Pg2osync.Quarantine

/-!
# Replaying what was refused

A stored rejection should take effect only if nothing newer was written to its
document since, and be cleared only if it took effect or was superseded. The
replay leaves both to the target: `replays_faithfully_iff` says when the target
can.
-/

namespace Pg2osync

namespace QuarantineTarget

open QuarantineState

variable {target : QuarantineTarget} {source : ℕ → LsnOp} {s s' : QuarantineState}

/-- One operation of the source is newer than another: of a higher version, or of
no lower one and later in the source's order. -/
def newer (source : ℕ → LsnOp) (place other : ℕ) : Bool :=
  outranked (source place).op.version (source other).op.version ||
    (!outranked (source other).op.version (source place).op.version && place < other)

/-- The document a filed rejection is about. -/
def keyOf (target : QuarantineTarget) (r : Filed) : Option DocKey :=
  target.key r.stored.rejection.op

/-- Whether the target was given something newer for the document of a rejection. -/
def superseded (target : QuarantineTarget) (source : ℕ → LsnOp) (s : QuarantineState)
    (filed : Filed) : Bool :=
  s.written.any fun n => target.key (source n).op = target.keyOf filed &&
    newer source filed.place n

/-- Whether offering an operation leaves a document as it is: the target holds
something of a higher version there, or already holds what the operation leaves. -/
def keeps (target : QuarantineTarget) (op : DocumentOp) (held : Held) : Bool :=
  target.declines op held || held.content = target.leaves op

/-- What the stream delivers: upserts and deletes of documents, whose positions
fit an external version, on each document all with one or all without. -/
structure Positioned (target : QuarantineTarget) (source : ℕ → LsnOp) : Prop where
  /-- a cascade is never filed -/
  single : ∀ n, (source n).op.isCascade = false
  /-- a position is one that a document can be versioned by -/
  range : ∀ n v, (source n).op.version = some v → 0 < v ∧ v ≤ i64Max
  /-- the operations on a document have all a position or none -/
  uniform : ∀ m n, target.key (source m).op = target.key (source n).op →
    (source m).op.version.isSome = (source n).op.version.isSome

/-- A replay brings nothing older back, from the state `s` to the state `s'`. -/
structure ReplaysFaithfully (target : QuarantineTarget) (source : ℕ → LsnOp)
    (listed : List Filed) (s s' : QuarantineState) : Prop where
  /-- a document with nothing listed stays as it is -/
  others : ∀ key, (∀ r ∈ listed, target.keyOf r ≠ some key) →
    (s'.held key).content = (s.held key).content
  /-- and so does one that was superseded -/
  superseded : ∀ r ∈ listed, target.superseded source s r = true →
    ∀ key, target.keyOf r = some key →
      (s'.held key).content = (s.held key).content
  /-- one that was not becomes what its rejection makes it, or the rejection did
  not get to it -/
  effect : ∀ r ∈ listed, target.superseded source s r = false →
    ∀ key, target.keyOf r = some key →
      (s'.held key).content = target.leaves r.stored.rejection.op ∨
        (s'.held key).content = (s.held key).content
  /-- a rejection is cleared only if it took effect or was superseded -/
  cleared : ∀ r ∈ s.store, r ∉ s'.store → target.superseded source s r = true ∨
    ∀ key, target.keyOf r = some key →
      (s'.held key).content = target.leaves r.stored.rejection.op

/-! ## One document -/

theorem content_settle (op : DocumentOp) (held : Held) :
    (target.settle op held).content = target.leaves op := by
  unfold settle
  split
  · split <;> rfl
  · split <;> rfl
  · cases target.leaves op <;> rfl
  · cases target.leaves op <;> rfl

theorem content_take (op : DocumentOp) (held : Held) :
    (target.take op held).content =
      if target.declines op held then held.content else target.leaves op := by
  unfold take
  split
  · rfl
  · exact content_settle op held

variable {op : DocumentOp} {held : Held}

/-- Offering an operation leaves a document as it is exactly when it keeps it. -/
theorem content_take_eq_iff :
    (target.take op held).content = held.content ↔ target.keeps op held = true := by
  rw [content_take, keeps, Bool.or_eq_true, decide_eq_true_eq]
  split
  · next h => exact ⟨fun _ => .inl h, fun _ => rfl⟩
  · next h => exact ⟨fun heq => .inr heq.symm, fun hkeeps => (hkeeps.resolve_left h).symm⟩

/-- A position in range is its own external version. -/
theorem externalVersion_of_range {v : ℕ} (h : 0 < v ∧ v ≤ i64Max) :
    externalVersion (some v) = some v := by
  have hfilter : (some v).filter (0 < ·) = some v := by simp [h.1]
  rw [externalVersion, hfilter]
  exact i64TryFrom_of_le h.2

/-- What is declined, something of a higher version is held against. -/
theorem lt_of_declines (h : target.declines op held = true) :
    ∃ v u c, op.version = some v ∧ held = some (some u, c) ∧ v < u := by
  have hexternal : ∀ v, externalVersion op.version = some v → op.version = some v := by
    intro v hv
    obtain ⟨w, hw, hv⟩ := Option.bind_eq_some_iff.mp hv
    obtain ⟨hw, -⟩ := Option.filter_eq_some_iff.mp hw
    rw [hw, (i64TryFrom_eq_some hv).1]
  unfold declines at h
  split at h
  · split at h
    · next v u c hv => exact ⟨v, u, c, hexternal v hv, rfl, of_decide_eq_true h⟩
    · cases h
  · split at h
    · next v u c hv => exact ⟨v, u, c, hexternal v hv, rfl, of_decide_eq_true h⟩
    · cases h
  · rcases held with _ | ⟨row, c⟩
    · cases h
    · have h : notNewer row (op.version.bind i64TryFrom) = false := by simpa using h
      unfold notNewer at h
      split at h
      · next u v hv _ =>
        obtain ⟨w, hw, hv⟩ := Option.bind_eq_some_iff.mp hv
        obtain ⟨rfl, -⟩ := i64TryFrom_eq_some hv
        exact ⟨v, u, c, hw, rfl, Nat.lt_of_not_le (of_decide_eq_false h)⟩
      · cases h
  · cases h

/-- A version that is held after an operation with a position was held before, or
is the operation's. -/
theorem version_take {v : ℕ} (hversion : op.version = some v) (hrange : 0 < v ∧ v ≤ i64Max) {u : ℕ}
    {c : Option Json} (h : target.take op held = some (some u, c)) :
    held = some (some u, c) ∨ u = v := by
  have hexternal : externalVersion op.version = some v := by
    rw [hversion, externalVersion_of_range hrange]
  have hfits : op.version.bind i64TryFrom = some v := by
    rw [hversion]
    exact i64TryFrom_of_le hrange.2
  unfold take at h
  split at h
  · exact .inl h
  · refine .inr ?_
    unfold settle at h
    rw [hexternal, hfits, hversion] at h
    split at h
    · injection h with h
      exact (Option.some.inj (Prod.mk.inj h).1).symm
    · injection h with h
      exact (Option.some.inj (Prod.mk.inj h).1).symm
    · obtain ⟨row, -, heq⟩ := Option.map_eq_some_iff.mp h
      exact (Option.some.inj (Prod.mk.inj heq).1).symm
    · obtain ⟨row, -, heq⟩ := Option.map_eq_some_iff.mp h
      exact (Option.some.inj (Prod.mk.inj heq).1).symm

/-! ## The invariant -/

/-- What the target and its quarantine keep. -/
structure QuarantineInv (target : QuarantineTarget) (source : ℕ → LsnOp)
    (s : QuarantineState) : Prop where
  /-- what is filed is an operation of the source -/
  filed : ∀ r ∈ s.store, ∃ reason atEpoch,
    r = target.filed (source r.place) r.place reason atEpoch
  /-- under an id of its own -/
  ids : s.store.Pairwise fun a b => a.stored.id ≠ b.stored.id
  /-- a version that is held of a document with positions was written to it -/
  versions : ∀ m key, target.key (source m).op = some key →
    (source m).op.version.isSome = true → ∀ u c, s.held key = some (some u, c) →
      ∃ n ∈ s.written, target.key (source n).op = some key ∧ (source n).op.version = some u

variable {key : DocKey} {place : ℕ}

theorem held_reach :
    (s.reach target op place).held key =
      if target.key op = some key then target.take op (s.held key) else s.held key := by
  unfold reach
  split
  · next own hown =>
    rcases Decidable.em (own = key) with rfl | hne
    · rw [if_pos hown]
      exact Function.update_self ..
    · rw [if_neg fun h => hne (Option.some.inj (hown.symm.trans h))]
      exact Function.update_of_ne (Ne.symm hne) ..
  · next hnone =>
    rw [if_neg]
    rw [hnone]
    exact fun h => by cases h

theorem store_reach : (s.reach target op place).store = s.store := by
  unfold reach
  split <;> rfl

theorem written_reach (hkey : target.key op = some key) :
    (s.reach target op place).written = place :: s.written := by
  unfold reach
  rw [hkey]

theorem mem_written_reach {place n : ℕ} (h : n ∈ s.written) :
    n ∈ (s.reach target op place).written := by
  unfold reach
  split
  · exact List.mem_cons_of_mem _ h
  · exact h

variable {listed : List Filed} {r : Filed}

section

variable (hsource : Positioned target source)

include hsource

theorem QuarantineInv.reach (hinv : QuarantineInv target source s) (place : ℕ) :
    QuarantineInv target source (s.reach target (source place).op place) := by
  refine ⟨?_, ?_, fun m key hm hpos u c h => ?_⟩
  · rw [store_reach]
    exact hinv.filed
  · rw [store_reach]
    exact hinv.ids
  have hold : s.held key = some (some u, c) →
      ∃ n ∈ (s.reach target (source place).op place).written,
        target.key (source n).op = some key ∧ (source n).op.version = some u := fun hheld => by
    obtain ⟨n, hn, hnkey, hversion⟩ := hinv.versions m key hm hpos u c hheld
    exact ⟨n, mem_written_reach hn, hnkey, hversion⟩
  rw [held_reach] at h
  split at h
  · next hkey =>
    have hsome : (source place).op.version.isSome = true := by
      rw [hsource.uniform place m (hkey.trans hm.symm)]
      exact hpos
    obtain ⟨v, hv⟩ := Option.isSome_iff_exists.mp hsome
    rcases version_take hv (hsource.range place v hv) h with hheld | rfl
    · exact hold hheld
    · refine ⟨place, ?_, hkey, hv⟩
      rw [written_reach hkey]
      exact List.mem_cons_self
  · exact hold h

omit hsource in
theorem QuarantineInv.filter (hinv : QuarantineInv target source s) (id : String) :
    QuarantineInv target source (s.clearReject id) :=
  ⟨fun r hr => hinv.filed r (List.mem_of_mem_filter hr), hinv.ids.filter _, hinv.versions⟩

omit hsource in
theorem QuarantineInv.quarantine (hinv : QuarantineInv target source s) (place : ℕ)
    (reason : String) (atEpoch : ℕ) :
    QuarantineInv target source
      (s.quarantine (target.filed (source place) place reason atEpoch)) := by
  refine ⟨fun r hr => ?_, ?_, hinv.versions⟩
  · rcases List.mem_cons.mp hr with rfl | hr
    · exact ⟨reason, atEpoch, rfl⟩
    · exact hinv.filed r (List.mem_of_mem_filter hr)
  · refine List.pairwise_cons.mpr ⟨fun other hother => ?_, hinv.ids.filter _⟩
    have := (List.mem_filter.mp hother).2
    exact fun heq => (of_decide_eq_true this) heq.symm

omit hsource in
theorem QuarantineInv.forget (hinv : QuarantineInv target source s) (key : DocKey) :
    QuarantineInv target source
      { s with held := Function.update s.held key (target.forget (s.held key)) } := by
  refine ⟨hinv.filed, hinv.ids, fun m other hm hpos u c h => ?_⟩
  have h : Function.update s.held key (target.forget (s.held key)) other = some (some u, c) := h
  rcases Decidable.em (other = key) with rfl | hne
  · rw [Function.update_self] at h
    refine hinv.versions m other hm hpos u c ?_
    unfold QuarantineTarget.forget at h
    split at h
    · cases h
    · cases h
    · exact h
  · rw [Function.update_of_ne hne] at h
    exact hinv.versions m other hm hpos u c h

/-- What is filed is offered as the operation it is. -/
theorem QuarantineInv.loop (hinv : QuarantineInv target source s)
    (answer : StoredReject → ReplayAnswer)
    (hlisted : ∀ r ∈ listed, r.stored.rejection.op = (source r.place).op) :
    QuarantineInv target source (s.rejectsLoop target answer listed) := by
  induction listed generalizing s with
  | nil => exact hinv
  | cons r rest ih =>
    have hrest : ∀ r ∈ rest, r.stored.rejection.op = (source r.place).op :=
      fun r' hr' => hlisted r' (List.mem_cons_of_mem r hr')
    have hreach := hinv.reach hsource r.place
    rw [← hlisted r List.mem_cons_self] at hreach
    unfold rejectsLoop
    split
    · exact ih (hreach.filter _) hrest
    · exact hreach
    · exact ih hinv hrest
    · exact hreach
    · exact hinv

omit hsource in
theorem mem_store_of_listed {limit : ℕ} (h : r ∈ s.listRejects limit) : r ∈ s.store :=
  (List.mem_insertionSort _).mp (List.mem_of_mem_take h)

/-- **The step lemma.** -/
theorem QuarantineInv.step (hinv : QuarantineInv target source s) {action : QuarantineAction}
    (hstep : target.step source s action = some s') : QuarantineInv target source s' := by
  cases action with
  | write place refused atEpoch =>
    cases refused with
    | none =>
      injection hstep with hstep
      exact hstep ▸ hinv.reach hsource place
    | some reason =>
      injection hstep with hstep
      exact hstep ▸ hinv.quarantine place reason atEpoch
  | forget key =>
    injection hstep with hstep
    exact hstep ▸ hinv.forget key
  | replay limit answer =>
    injection hstep with hstep
    rw [← hstep]
    refine hinv.loop hsource answer fun r hr => ?_
    obtain ⟨reason, atEpoch, heq⟩ := hinv.filed r (mem_store_of_listed hr)
    rw [heq]
    rfl

/-- **The run lemma.** -/
theorem quarantineInv_of_reachable (h : (target.system source).Reachable s) :
    QuarantineInv target source s := by
  refine h.invariant (fun s hs => ?_) fun _ _ _ hinv hstep => hinv.step hsource hstep
  rw [hs]
  refine ⟨fun r hr => ?_, List.Pairwise.nil, fun m key _ _ u c h => ?_⟩
  · cases hr
  · cases h

end

/-! ## The replay -/

theorem eq_of_apart {β : Type} {f : Filed → β} (h : listed.Pairwise fun a b => f a ≠ f b)
    {a b : Filed} (ha : a ∈ listed) (hb : b ∈ listed) (heq : f a = f b) : a = b :=
  List.inj_on_of_nodup_map (List.pairwise_map.mpr h) ha hb heq

/-- A rejection that is offered and not refused. -/
theorem held_offer (h : target.keyOf r = some key) :
    (s.reach target r.stored.rejection.op r.place).held key =
      target.take r.stored.rejection.op (s.held key) := by
  have h : target.key r.stored.rejection.op = some key := h
  rw [held_reach, if_pos h]

theorem held_offer_ne (h : target.keyOf r ≠ some key) :
    (s.reach target r.stored.rejection.op r.place).held key = s.held key := by
  have h : target.key r.stored.rejection.op ≠ some key := h
  rw [held_reach, if_neg h]

/-- What is listed of different documents. -/
def Apart (target : QuarantineTarget) (listed : List Filed) : Prop :=
  listed.Pairwise fun a b => target.keyOf a ≠ target.keyOf b

/-- **A replay offers each document at most once.** -/
theorem held_loop (answer : StoredReject → ReplayAnswer) (hapart : Apart target listed)
    (s : QuarantineState) (key : DocKey) :
    (s.rejectsLoop target answer listed).held key = s.held key ∨
      ∃ r ∈ listed, target.keyOf r = some key ∧
        (s.rejectsLoop target answer listed).held key =
          target.take r.stored.rejection.op (s.held key) := by
  induction listed generalizing s with
  | nil => exact .inl rfl
  | cons r rest ih =>
    obtain ⟨hfirst, hrest⟩ := List.pairwise_cons.mp hapart
    have hreach : (s.reach target r.stored.rejection.op r.place).held key = s.held key ∨
        ∃ r' ∈ r :: rest, target.keyOf r' = some key ∧
          (s.reach target r.stored.rejection.op r.place).held key =
            target.take r'.stored.rejection.op (s.held key) := by
      rcases Decidable.em (target.keyOf r = some key) with hkey | hkey
      · exact .inr ⟨r, List.mem_cons_self, hkey, held_offer hkey⟩
      · exact .inl (held_offer_ne hkey)
    unfold rejectsLoop
    split
    · rcases ih hrest ((s.reach target r.stored.rejection.op r.place).clearReject r.stored.id) with
        h | ⟨r', hr', hkey, h⟩
      · rw [h]
        exact hreach
      · -- the later one is about another document than the first
        have hne : target.keyOf r ≠ some key := fun heq =>
          hfirst r' hr' (heq.trans hkey.symm)
        refine .inr ⟨r', List.mem_cons_of_mem r hr', hkey, ?_⟩
        rw [h]
        exact congrArg _ (held_offer_ne hne)
    · exact hreach
    · rcases ih hrest s with h | ⟨r', hr', hkey, h⟩
      · exact .inl h
      · exact .inr ⟨r', List.mem_cons_of_mem r hr', hkey, h⟩
    · exact hreach
    · exact .inl rfl

/-- What a replay clears it has offered to the target. -/
theorem cleared_loop (answer : StoredReject → ReplayAnswer) (hapart : Apart target listed)
    (s : QuarantineState) (hr : r ∈ s.store)
    (hcleared : r ∉ (s.rejectsLoop target answer listed).store) :
    ∃ r' ∈ listed, r'.stored.id = r.stored.id ∧ ∀ key, target.keyOf r' = some key →
      (s.rejectsLoop target answer listed).held key =
        target.take r'.stored.rejection.op (s.held key) := by
  induction listed generalizing s with
  | nil => exact absurd hr hcleared
  | cons first rest ih =>
    obtain ⟨hfirst, hrest⟩ := List.pairwise_cons.mp hapart
    unfold rejectsLoop at hcleared ⊢
    split
    · next hanswer =>
      simp only [hanswer] at hcleared
      rcases Decidable.em (first.stored.id = r.stored.id) with hid | hid
      · refine ⟨first, List.mem_cons_self, hid, fun key hkey => ?_⟩
        have hheld : ((s.reach target first.stored.rejection.op first.place).clearReject
            first.stored.id).held key =
              target.take first.stored.rejection.op (s.held key) :=
          held_offer hkey
        rcases held_loop answer hrest ((s.reach target first.stored.rejection.op
          first.place).clearReject first.stored.id) key with h | ⟨r', hr', hkey', -⟩
        · rw [h, hheld]
        · exact absurd (hkey.trans hkey'.symm) (hfirst r' hr')
      · have hstays : r ∈ ((s.reach target first.stored.rejection.op first.place).clearReject
            first.stored.id).store := by
          refine List.mem_filter.mpr ⟨?_, decide_eq_true (Ne.symm hid)⟩
          rw [store_reach]
          exact hr
        obtain ⟨r', hr', hid', h⟩ := ih hrest _ hstays hcleared
        refine ⟨r', List.mem_cons_of_mem first hr', hid', fun key hkey => ?_⟩
        have hne : target.keyOf first ≠ some key := fun heq =>
          hfirst r' hr' (heq.trans hkey.symm)
        rw [h key hkey]
        exact congrArg _ (held_offer_ne hne)
    · next hanswer =>
      simp only [hanswer, store_reach] at hcleared
      exact absurd hr hcleared
    · next hanswer =>
      simp only [hanswer] at hcleared
      obtain ⟨r', hr', hid', h⟩ := ih hrest s hr hcleared
      exact ⟨r', List.mem_cons_of_mem first hr', hid', h⟩
    · next hanswer =>
      simp only [hanswer, store_reach] at hcleared
      exact absurd hr hcleared
    · next hanswer =>
      simp only [hanswer] at hcleared
      exact absurd hr hcleared

/-- When nothing is refused any more, every rejection that is listed is offered. -/
theorem held_loop_all (hapart : Apart target listed) (s : QuarantineState) (hr : r ∈ listed)
    (hkey : target.keyOf r = some key) :
    (s.rejectsLoop target (fun _ => .accepted true) listed).held key =
      target.take r.stored.rejection.op (s.held key) := by
  induction listed generalizing s with
  | nil => cases hr
  | cons first rest ih =>
    obtain ⟨hfirst, hrest⟩ := List.pairwise_cons.mp hapart
    rw [rejectsLoop]
    rcases List.mem_cons.mp hr with rfl | hr
    · rcases held_loop (fun _ => .accepted true) hrest
        ((s.reach target r.stored.rejection.op r.place).clearReject r.stored.id) key with
        h | ⟨r', hr', hkey', -⟩
      · rw [h]
        exact held_offer hkey
      · exact absurd (hkey.trans hkey'.symm) (hfirst r' hr')
    · have hne : target.keyOf first ≠ some key := fun heq =>
        hfirst r hr (heq.trans hkey.symm)
      rw [ih hrest _ hr]
      exact congrArg _ (held_offer_ne hne)

section

variable (hsource : Positioned target source) (hinv : QuarantineInv target source s)

include hinv

/-- Rejections filed apart are about different documents. -/
theorem apart_store {a b : Filed} (ha : a ∈ s.store) (hb : b ∈ s.store)
    (hsome : ∃ key, target.keyOf a = some key) (hkey : target.keyOf a = target.keyOf b) :
    a.stored.id = b.stored.id := by
  obtain ⟨reason, atEpoch, ha⟩ := hinv.filed a ha
  obtain ⟨reason', atEpoch', hb⟩ := hinv.filed b hb
  have hnames : ∀ op key, target.key op = some key → key.index = op.index ∧ key.id = op.id := by
    intro op key h
    have hkey : ∃ own, op.key = some own ∧ own.index = key.index ∧ own.id = key.id := by
      unfold QuarantineTarget.key at h
      split at h
      · exact ⟨key, h, rfl, rfl⟩
      · exact ⟨key, h, rfl, rfl⟩
      · obtain ⟨own, hown, rfl⟩ := Option.map_eq_some_iff.mp h
        exact ⟨own, hown, rfl, rfl⟩
      · obtain ⟨own, hown, rfl⟩ := Option.map_eq_some_iff.mp h
        exact ⟨own, hown, rfl, rfl⟩
    obtain ⟨own, hown, hindex, hid⟩ := hkey
    rw [← hindex, ← hid]
    cases op with
    | upsert =>
      injection hown with hown
      exact hown ▸ ⟨rfl, rfl⟩
    | delete =>
      injection hown with hown
      exact hown ▸ ⟨rfl, rfl⟩
    | deleteChildren => cases hown
  obtain ⟨key, hsome⟩ := hsome
  obtain ⟨hindex, hid⟩ := hnames _ key hsome
  obtain ⟨hindex', hid'⟩ := hnames _ key (hkey ▸ hsome)
  rw [ha] at hindex hid
  rw [hb] at hindex' hid'
  have hi : (source a.place).op.index = (source b.place).op.index := hindex.symm.trans hindex'
  have hd : (source a.place).op.id = (source b.place).op.id := hid.symm.trans hid'
  rw [ha, hb]
  change rejectDocId target.alphanumeric (source a.place).op.index (source a.place).op.id =
    rejectDocId target.alphanumeric (source b.place).op.index (source b.place).op.id
  rw [hi, hd]

/-- What is not superseded is not declined. -/
theorem not_declines (hr : r ∈ s.store) (h : target.superseded source s r = false)
    (hkey : target.keyOf r = some key) :
    target.declines r.stored.rejection.op (s.held key) = false := by
  obtain ⟨reason, atEpoch, heq⟩ := hinv.filed r hr
  have hop : r.stored.rejection.op = (source r.place).op := by
    rw [heq]
    rfl
  rw [hop]
  cases hd : target.declines (source r.place).op (s.held key) with
  | false => rfl
  | true =>
    obtain ⟨v, u, c, hversion, hheld, hlt⟩ := lt_of_declines hd
    have hkey' : target.key (source r.place).op = some key := by
      rw [← hop]
      exact hkey
    obtain ⟨n, hn, hnkey, hnversion⟩ :=
      hinv.versions r.place key hkey' (by rw [hversion]; rfl) u c hheld
    have hnewer : newer source r.place n = true := by
      simp [newer, hversion, hnversion, outranked, hlt]
    have hsuperseded : target.superseded source s r = true := by
      refine List.any_eq_true.mpr ⟨n, hn, ?_⟩
      rw [hkey, hnkey, hnewer]
      simp
    rw [h] at hsuperseded
    cases hsuperseded

include hsource

theorem keyOf_isSome (hr : r ∈ s.store) : ∃ key, target.keyOf r = some key := by
  obtain ⟨reason, atEpoch, heq⟩ := hinv.filed r hr
  have hsingle := hsource.single r.place
  have hkey : target.keyOf r = target.key (source r.place).op := by
    rw [keyOf, heq]
    rfl
  rw [hkey, QuarantineTarget.key]
  cases hop : (source r.place).op with
  | deleteChildren =>
    rw [hop] at hsingle
    cases hsingle
  | upsert => cases target.kind <;> exact ⟨_, rfl⟩
  | delete => cases target.kind <;> exact ⟨_, rfl⟩

theorem apart_listed (limit : ℕ) : Apart target (s.listRejects limit) := by
  have hids : (s.listRejects limit).Pairwise fun a b => a.stored.id ≠ b.stored.id :=
    (hinv.ids.perm (List.perm_insertionSort _ _).symm fun h => h.symm).sublist
      (List.take_sublist _ _)
  refine hids.imp_of_mem fun {a b} ha hb hid hkey => hid ?_
  have ha := mem_store_of_listed ha
  exact apart_store hinv ha (mem_store_of_listed hb) (keyOf_isSome hsource hinv ha) hkey

/-- **When a replay brings nothing older back.** Whatever the target answers, it
does not exactly when the target keeps every document whose listed rejection was
superseded: it holds something of a version above the rejection's there, or
already what the rejection would leave. -/
theorem replays_faithfully_of_inv (limit : ℕ) :
    (∀ answer, ReplaysFaithfully target source (s.listRejects limit) s
        (s.rejectsCmd target limit answer)) ↔
      ∀ r ∈ s.listRejects limit, target.superseded source s r = true →
        ∀ key, target.keyOf r = some key →
          target.keeps r.stored.rejection.op (s.held key) = true := by
  have hapart := apart_listed hsource hinv limit
  constructor
  · intro h r hr hsuperseded key hkey
    have hcontent := (h fun _ => .accepted true).superseded r hr hsuperseded key hkey
    rw [rejectsCmd, held_loop_all hapart s hr hkey] at hcontent
    exact content_take_eq_iff.mp hcontent
  · intro h answer
    refine ⟨fun key hkey => ?_, fun r hr hsuperseded key hkey => ?_,
      fun r hr hsuperseded key hkey => ?_, fun r hr hcleared => ?_⟩
    · rcases held_loop answer hapart s key with hheld | ⟨r, hr, hrkey, -⟩
      · exact congrArg _ hheld
      · exact absurd hrkey (hkey r hr)
    · rcases held_loop answer hapart s key with hheld | ⟨r', hr', hkey', hheld⟩
      · exact congrArg _ hheld
      · rw [eq_of_apart hapart hr' hr (hkey'.trans hkey.symm)] at hheld
        rw [rejectsCmd, hheld]
        exact content_take_eq_iff.mpr (h r hr hsuperseded key hkey)
    · rcases held_loop answer hapart s key with hheld | ⟨r', hr', hkey', hheld⟩
      · exact .inr (congrArg _ hheld)
      · rw [eq_of_apart hapart hr' hr (hkey'.trans hkey.symm)] at hheld
        rw [rejectsCmd, hheld, content_take,
          not_declines hinv (mem_store_of_listed hr) hsuperseded hkey]
        exact .inl rfl
    · cases hsuperseded : target.superseded source s r with
      | true => exact .inl rfl
      | false =>
        refine .inr fun key hkey => ?_
        obtain ⟨r', hr', hid, hheld⟩ := cleared_loop answer hapart s hr hcleared
        rw [eq_of_apart hinv.ids (mem_store_of_listed hr') hr hid] at hheld
        rw [rejectsCmd, hheld key hkey, content_take,
          not_declines hinv hr hsuperseded hkey]
        rfl

end

/-- A target of a kind, with the documents stored as they are sent. -/
def plain (kind : TargetKind) : QuarantineTarget where
  kind := kind
  stores
    | .upsert _ _ _ doc _ _ => doc
    | _ => .null
  alphanumeric := fun c => c.isAlphanum

/-- One document: stored at position 5, and afterwards stored again at position 6
or removed there. -/
def changed (removed : Bool) (place : ℕ) : LsnOp :=
  if place = 0 then ⟨5, .upsert "t" "1" none (.str "old") (some 5) none⟩
  else if removed then ⟨6, .delete "t" "1" none (some 6)⟩
  else ⟨6, .upsert "t" "1" none (.str "new") (some 6) none⟩

theorem changed_positioned (kind : TargetKind) (removed : Bool) :
    Positioned (plain kind) (changed removed) := by
  have hversion : ∀ n, (changed removed n).op.version = some 5 ∨
      (changed removed n).op.version = some 6 := by
    intro n
    unfold changed
    split
    · exact .inl rfl
    · split
      · exact .inr rfl
      · exact .inr rfl
  refine ⟨fun n => ?_, fun n v hv => ?_, fun m n _ => ?_⟩
  · unfold changed
    split
    · rfl
    · split
      · rfl
      · rfl
  · rcases hversion n with h | h
    · rw [h] at hv
      exact Option.some.inj hv ▸ by decide
    · rw [h] at hv
      exact Option.some.inj hv ▸ by decide
  · rcases hversion m with hm | hm
    · rcases hversion n with hn | hn
      · rw [hm, hn]
      · rw [hm, hn]
        rfl
    · rcases hversion n with hn | hn
      · rw [hm, hn]
        rfl
      · rw [hm, hn]

/-- The first operation is refused, the second one is not, and time passes. -/
def refusedThenChanged : List QuarantineAction :=
  [.write 0 (some "mapper_parsing_exception") 100, .write 1 none 200,
    .forget ⟨"t", "1", none⟩]

/-- A document that was removed since, and whose removal has been forgotten, is back after
a replay. -/
def ComesBack (kind : TargetKind) : Prop :=
  ∃ s, ((plain kind).system (changed true)).run ⟨fun _ => none, [], []⟩
      (refusedThenChanged ++ [.replay 10 fun _ => .accepted true]) = some s ∧
    (plain kind).superseded (changed true) s
      ((plain kind).filed (changed true 0) 0 "mapper_parsing_exception" 100) = true ∧
    (s.held ⟨"t", "1", none⟩).content = some (.str "old")

end QuarantineTarget

end Pg2osync
