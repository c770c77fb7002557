import Pg2osync.GtidForms

/-!
# What was consumed, as of a checkpoint

A checkpoint may claim only what is durably written, and its token lags the stream. The tracker
therefore holds each transaction with the token of its commit, and adds it to the position when
a checkpoint asks for that token or a later one. Whatever the order is in which transactions are
recorded and positions asked for, the answer is that of all transactions up to the token asked
for.
-/

namespace Pg2osync

namespace MySql

/-! ## Positions of MariaDB -/

instance : KeyOrder ℕ where
  before a b := decide (a < b)
  irrefl k := decide_eq_false (Nat.lt_irrefl k)
  trans hab hbc := decide_eq_true (Nat.lt_trans (of_decide_eq_true hab) (of_decide_eq_true hbc))
  total hne hnot := decide_eq_true
    (Nat.lt_of_le_of_ne (Nat.le_of_not_lt (of_decide_eq_false hnot)) (Ne.symm hne))

/-- `MariaGtidPos`. -/
structure MariaGtidPos : Type where
  /-- the server and the newest number of each domain -/
  domains : Dictionary ℕ (ℕ × ℕ)
  deriving DecidableEq

namespace MariaGtidPos

/-- The position with nothing in it. -/
def empty : MariaGtidPos := ⟨∅⟩

/-- `is_empty`. -/
def isEmpty (pos : MariaGtidPos) : Bool :=
  pos.domains.isEmpty

/-- `add`. -/
def add (pos : MariaGtidPos) (domain serverId seqNo : ℕ) : MariaGtidPos :=
  let entry := (pos.domains.get? domain).getD (serverId, seqNo)
  ⟨pos.domains.insert domain (if entry.2 ≤ seqNo then (serverId, seqNo) else entry)⟩

/-- A domain with its server and number. -/
def entryText (e : ℕ × ℕ × ℕ) : List Char :=
  Nat.toDigits 10 e.1 ++ '-' :: (Nat.toDigits 10 e.2.1 ++ '-' :: Nat.toDigits 10 e.2.2)

/-- `to_text`. -/
def toText (pos : MariaGtidPos) : List Char :=
  [','].intercalate (pos.domains.entries.map entryText)

/-- One domain, as text has it. -/
def readEntry (pos : MariaGtidPos) (entry : List Char) : Option MariaGtidPos :=
  match entry.splitOn '-' with
  | [domain, serverId, seqNo] =>
    (parseUnsigned 32 (trim domain)).bind fun domain =>
      (parseUnsigned 32 (trim serverId)).bind fun serverId =>
        (parseUnsigned 64 (trim seqNo)).map fun seqNo =>
          ⟨pos.domains.insert domain (serverId, seqNo)⟩
  | _ => none

/-- `parse`. -/
def parse (text : List Char) : Option MariaGtidPos :=
  ((((text.splitOn ',').map trim).filter fun entry => entry ≠ []).foldlM readEntry empty).filter
    fun pos => !pos.isEmpty

end MariaGtidPos

/-! ## Positions of either server -/

/-- `GtidPosition`. -/
inductive ConsumedPosition : Type where
  /-- every transaction, of MySQL -/
  | mySql (set : MySqlGtidSet) : ConsumedPosition
  /-- the newest of each domain, of MariaDB -/
  | mariaDb (pos : MariaGtidPos) : ConsumedPosition
  deriving DecidableEq

/-- One consumed transaction. -/
inductive Consumed : Type where
  | mySql (uuid : String) (gno : ℕ) : Consumed
  | mariaDb (domain serverId seqNo : ℕ) : Consumed
  deriving DecidableEq, Repr

namespace ConsumedPosition

/-- `to_text`. -/
def toText : ConsumedPosition → List Char
  | .mySql set => set.toText
  | .mariaDb pos => pos.toText

/-- `is_empty`. -/
def isEmpty : ConsumedPosition → Bool
  | .mySql set => set.isEmpty
  | .mariaDb pos => pos.isEmpty

/-- `parse`: a colon is in the text of MySQL alone. -/
def parse (text : List Char) : Option ConsumedPosition :=
  if trim text = [] then none
  else if ':' ∈ trim text then (MySqlGtidSet.parse (trim text)).map .mySql
  else (MariaGtidPos.parse (trim text)).map .mariaDb

/-- The position with nothing in it, of the same server. -/
def cleared : ConsumedPosition → ConsumedPosition
  | .mySql _ => .mySql .empty
  | .mariaDb _ => .mariaDb .empty

/-- A transaction is in the form of a position's server. -/
def Speaks : ConsumedPosition → Consumed → Prop
  | .mySql _, .mySql .. => True
  | .mariaDb _, .mariaDb .. => True
  | _, _ => False

instance (position : ConsumedPosition) (c : Consumed) : Decidable (position.Speaks c) := by
  cases position <;> cases c <;> unfold Speaks <;> infer_instance

end ConsumedPosition

/-! ## The tracker -/

/-- `GtidTracker`. -/
structure GtidTracker : Type where
  /-- what checkpoints covered so far -/
  position : ConsumedPosition
  /-- what they did not, oldest first, with the tokens -/
  pending : List (ℕ × Consumed)
  /-- why no position can be given -/
  incomplete : Option String
  deriving DecidableEq

namespace GtidTracker

/-- The position a tracker starts at. -/
def startOf (mariadb : Bool) (resumeFrom : Option ConsumedPosition) : ConsumedPosition :=
  resumeFrom.getD (if mariadb then .mariaDb .empty else .mySql .empty)

/-- `new`. -/
def new (mariadb : Bool) (resumeFrom : Option ConsumedPosition) : GtidTracker :=
  { position := startOf mariadb resumeFrom, pending := [], incomplete := none }

/-- `record_mysql`. -/
def recordMysql (tracker : GtidTracker) (token : ℕ) (uuid : String) (gno : ℕ) : GtidTracker :=
  { tracker with pending := tracker.pending ++ [(token, .mySql uuid gno)] }

/-- `record_mariadb`. -/
def recordMariadb (tracker : GtidTracker) (token domain serverId seqNo : ℕ) : GtidTracker :=
  { tracker with pending := tracker.pending ++ [(token, .mariaDb domain serverId seqNo)] }

/-- `mark_incomplete`. -/
def markIncomplete (tracker : GtidTracker) (why : String) : GtidTracker :=
  if tracker.incomplete.isNone then { tracker with incomplete := some why } else tracker

/-- The transactions that a question covers, added one after the other; a transaction in the other
server's form leaves the cleared position. -/
def foldIn (position : ConsumedPosition) :
    List (ℕ × Consumed) → Except ConsumedPosition ConsumedPosition
  | [] => .ok position
  | (_, consumed) :: rest =>
    match position, consumed with
    | .mySql set, .mySql uuid gno => foldIn (.mySql (set.add uuid gno)) rest
    | .mariaDb pos, .mariaDb domain serverId seqNo =>
      foldIn (.mariaDb (pos.add domain serverId seqNo)) rest
    | position, _ => .error position.cleared

/-- `position_at`, with the tracker that is left. -/
def positionAt (tracker : GtidTracker) (token : ℕ) : Option (List Char) × GtidTracker :=
  let covered := tracker.pending.takeWhile fun p => decide (p.1 ≤ token)
  let pending := tracker.pending.dropWhile fun p => decide (p.1 ≤ token)
  match foldIn tracker.position covered with
  | .error position =>
    (none, { position, pending, incomplete := some "a GTID arrived in the other server's form" })
  | .ok position =>
    (if tracker.incomplete.isSome || position.isEmpty then none else some position.toText,
      { tracker with position, pending })

/-- What is asked of a tracker. -/
inductive Call : Type where
  | recordMysql (token : ℕ) (uuid : String) (gno : ℕ) : Call
  | recordMariadb (token domain serverId seqNo : ℕ) : Call
  | markIncomplete (why : String) : Call
  | positionAt (token : ℕ) : Call
  deriving DecidableEq, Repr

/-- One call. -/
def call (tracker : GtidTracker) : Call → GtidTracker
  | .recordMysql token uuid gno => tracker.recordMysql token uuid gno
  | .recordMariadb token domain serverId seqNo =>
    tracker.recordMariadb token domain serverId seqNo
  | .markIncomplete why => tracker.markIncomplete why
  | .positionAt token => (tracker.positionAt token).2

/-- Calls, one after the other. -/
def run (tracker : GtidTracker) (calls : List Call) : GtidTracker :=
  calls.foldl call tracker

end GtidTracker

/-! ## A position united with transactions -/

/-- The last of the entries with the highest number. -/
def IsNewest (entries : List (ℕ × ℕ)) (e : ℕ × ℕ) : Prop :=
  ∃ front back, entries = front ++ e :: back ∧ (∀ a ∈ front, a.2 ≤ e.2) ∧ ∀ b ∈ back, b.2 < e.2

/-- The newest of two entries, the later one of equals. -/
def newer (best : Option (ℕ × ℕ)) (e : ℕ × ℕ) : Option (ℕ × ℕ) :=
  match best with
  | some b => if b.2 ≤ e.2 then some e else some b
  | none => some e

theorem newer_ne_none (best : Option (ℕ × ℕ)) (e : ℕ × ℕ) : newer best e ≠ none := by
  cases best with
  | none => exact Option.some_ne_none e
  | some b =>
    rw [newer]
    split
    · exact Option.some_ne_none e
    · exact Option.some_ne_none b

variable {e : ℕ × ℕ}

theorem foldl_newer_of_lt {back : List (ℕ × ℕ)} (h : ∀ b ∈ back, b.2 < e.2) :
    back.foldl newer (some e) = some e := by
  induction back with
  | nil => rfl
  | cons b back ih =>
    obtain ⟨hb, hback⟩ := List.forall_mem_cons.mp h
    have hkept : newer (some e) b = some e := if_neg (not_le.mpr hb)
    rw [List.foldl_cons, hkept, ih hback]

/-- Behind entries that are not above it, an entry is the newest. -/
theorem newer_foldl_of_le {front : List (ℕ × ℕ)} {best : Option (ℕ × ℕ)}
    (hbest : ∀ b ∈ best, b.2 ≤ e.2) (h : ∀ a ∈ front, a.2 ≤ e.2) :
    newer (front.foldl newer best) e = some e := by
  induction front generalizing best with
  | nil =>
    cases best with
    | none => rfl
    | some b => exact if_pos (hbest b rfl)
  | cons a front ih =>
    obtain ⟨ha, hfront⟩ := List.forall_mem_cons.mp h
    refine ih (fun b hb => ?_) hfront
    cases best with
    | none =>
      cases hb
      exact ha
    | some c =>
      rw [newer] at hb
      split at hb
      · cases hb
        exact ha
      · cases hb
        exact hbest _ rfl

/-- An entry is the newest if a search from the left ends with it. -/
theorem foldl_newer_iff {entries : List (ℕ × ℕ)} :
    entries.foldl newer none = some e ↔ IsNewest entries e := by
  constructor
  · intro h
    induction entries using List.reverseRecOn generalizing e with
    | nil => cases h
    | append_singleton entries last ih =>
      rw [List.foldl_concat] at h
      cases hbest : entries.foldl newer none with
      | none =>
        rw [hbest] at h
        cases h
        have hnil : entries = [] := by
          rcases List.eq_nil_or_concat' entries with hnil | ⟨front, f, rfl⟩
          · exact hnil
          · rw [List.foldl_concat] at hbest
            exact absurd hbest (newer_ne_none _ _)
        rw [hnil]
        exact ⟨[], [], rfl, fun a ha => absurd ha List.not_mem_nil,
          fun b hb => absurd hb List.not_mem_nil⟩
      | some b =>
        rw [hbest, newer] at h
        obtain ⟨front, back, rfl, hfront, hback⟩ := ih hbest
        split at h
        · next hle =>
          cases h
          refine ⟨front ++ b :: back, [], rfl, fun a ha => ?_,
            fun b hb => absurd hb List.not_mem_nil⟩
          rcases List.mem_append.mp ha with ha | ha
          · exact le_trans (hfront a ha) hle
          · rcases List.mem_cons.mp ha with rfl | ha
            · exact hle
            · exact le_trans (hback a ha).le hle
        · next hlt =>
          cases h
          refine ⟨front, back ++ [last], by rw [List.append_assoc, List.cons_append], hfront,
            fun a ha => ?_⟩
          rcases List.mem_append.mp ha with ha | ha
          · exact hback a ha
          · rw [List.mem_singleton.mp ha]
            exact not_le.mp hlt
  · rintro ⟨front, back, rfl, hfront, hback⟩
    rw [List.foldl_append, List.foldl_cons,
      newer_foldl_of_le (fun b hb => by cases hb) hfront, foldl_newer_of_lt hback]

namespace ConsumedPosition

/-- A position with one transaction more, if that is of its server. -/
def addOne : ConsumedPosition → Consumed → ConsumedPosition
  | .mySql set, .mySql uuid gno => .mySql (set.add uuid gno)
  | .mariaDb pos, .mariaDb domain serverId seqNo => .mariaDb (pos.add domain serverId seqNo)
  | position, _ => position

/-- A position united with some transactions, in the order they came in. -/
def unite (position : ConsumedPosition) (transactions : List Consumed) : ConsumedPosition :=
  transactions.foldl addOne position

/-- The server and number of a transaction of a domain. -/
def inDomain (domain : ℕ) : Consumed → Option (ℕ × ℕ)
  | .mariaDb d serverId seqNo => if d = domain then some (serverId, seqNo) else none
  | .mySql .. => none

/-- A number that MySQL gives to transactions. -/
def Given : Consumed → Prop
  | .mySql _ gno => gno < 2 ^ 63
  | .mariaDb .. => True

/-- A position that its server gives. -/
def Proper : ConsumedPosition → Prop
  | .mySql set => set.Proper
  | .mariaDb _ => True

/-- A position has what another one had and some transactions: of MySQL all of them, of MariaDB the
newest of each domain. -/
def Unites (start : ConsumedPosition) (transactions : List Consumed) : ConsumedPosition → Prop
  | .mySql set => ∃ before, start = .mySql before ∧ set.Proper ∧
      ∀ uuid gno, set.Has uuid gno ↔ before.Has uuid gno ∨ Consumed.mySql uuid gno ∈ transactions
  | .mariaDb pos => ∃ before, start = .mariaDb before ∧ ∀ domain e,
      pos.domains.get? domain = some e ↔
        IsNewest ((before.domains.get? domain).toList ++ transactions.filterMap (inDomain domain)) e

theorem unites_mySql {set : MySqlGtidSet} (h : set.Proper) {transactions : List Consumed}
    (hgiven : ∀ c ∈ transactions, Given c) :
    Unites (.mySql set) transactions (unite (.mySql set) transactions) := by
  suffices ∃ out, unite (.mySql set) transactions = .mySql out ∧ out.Proper ∧
      ∀ uuid gno, out.Has uuid gno ↔ set.Has uuid gno ∨ Consumed.mySql uuid gno ∈ transactions by
    obtain ⟨out, hunite, hproper, hhas⟩ := this
    rw [hunite]
    exact ⟨set, rfl, hproper, hhas⟩
  induction transactions generalizing set with
  | nil => exact ⟨set, rfl, h, fun uuid gno => (or_iff_left List.not_mem_nil).symm⟩
  | cons c transactions ih =>
    obtain ⟨hc, hrest⟩ := List.forall_mem_cons.mp hgiven
    cases c with
    | mariaDb domain serverId seqNo =>
      obtain ⟨out, hunite, hproper, hhas⟩ := ih h hrest
      refine ⟨out, hunite, hproper, fun uuid gno => ?_⟩
      simp only [hhas, List.mem_cons, reduceCtorEq, false_or]
    | mySql uuid gno =>
      obtain ⟨hadded, hone⟩ := h.add uuid hc
      obtain ⟨out, hunite, hproper, hhas⟩ := ih hadded hrest
      refine ⟨out, hunite, hproper, fun other n => ?_⟩
      simp only [hhas, hone, List.mem_cons, Consumed.mySql.injEq, or_assoc]

/-- What a domain has after one transaction of MariaDB. -/
theorem get?_add (pos : MariaGtidPos) (d serverId seqNo domain : ℕ) :
    (pos.add d serverId seqNo).domains.get? domain =
      if d = domain then newer (pos.domains.get? d) (serverId, seqNo)
      else pos.domains.get? domain := by
  rw [MariaGtidPos.add, Dictionary.get?_insert]
  split
  · cases hget : pos.domains.get? d with
    | none =>
      rw [Option.getD_none, if_pos (le_refl _)]
      rfl
    | some b =>
      rw [Option.getD_some, newer]
      split
      · rfl
      · rfl
  · rfl

/-- What a domain has after some transactions is what a search from what it had ends with. -/
theorem unite_mariaDb (pos : MariaGtidPos) (transactions : List Consumed) :
    ∃ out, unite (.mariaDb pos) transactions = .mariaDb out ∧ ∀ domain,
      out.domains.get? domain =
        (transactions.filterMap (inDomain domain)).foldl newer (pos.domains.get? domain) := by
  induction transactions generalizing pos with
  | nil => exact ⟨pos, rfl, fun domain => rfl⟩
  | cons c transactions ih =>
    cases c with
    | mySql uuid gno => exact ih pos
    | mariaDb d serverId seqNo =>
      obtain ⟨out, hunite, hget⟩ := ih (pos.add d serverId seqNo)
      refine ⟨out, hunite, fun domain => ?_⟩
      rw [hget, get?_add, List.filterMap_cons, inDomain]
      by_cases hd : d = domain
      · rw [if_pos hd, if_pos hd, List.foldl_cons, hd]
      · rw [if_neg hd, if_neg hd]

theorem unites_mariaDb (pos : MariaGtidPos) (transactions : List Consumed) :
    Unites (.mariaDb pos) transactions (unite (.mariaDb pos) transactions) := by
  obtain ⟨out, hunite, hget⟩ := unite_mariaDb pos transactions
  rw [hunite]
  refine ⟨pos, rfl, fun domain e => ?_⟩
  have hstart : pos.domains.get? domain =
      (pos.domains.get? domain).toList.foldl newer none := by
    cases pos.domains.get? domain with
    | none => rfl
    | some b => rfl
  rw [hget, hstart, ← List.foldl_append, foldl_newer_iff]
  cases pos.domains.get? domain with
  | none => rfl
  | some b => rfl

/-- **A run of additions unites**: nothing is lost and nothing else gets in. -/
theorem unites_unite {start : ConsumedPosition} (h : start.Proper) {transactions : List Consumed}
    (hgiven : ∀ c ∈ transactions, Given c) :
    Unites start transactions (start.unite transactions) := by
  cases start with
  | mySql set => exact unites_mySql h hgiven
  | mariaDb pos => exact unites_mariaDb pos transactions

end ConsumedPosition

/-! ## Schedules of calls -/

namespace GtidTracker

open ConsumedPosition

/-- What a call records. -/
def Call.recorded : Call → Option (ℕ × Consumed)
  | .recordMysql token uuid gno => some (token, .mySql uuid gno)
  | .recordMariadb token domain serverId seqNo => some (token, .mariaDb domain serverId seqNo)
  | _ => none

/-- The token that a call asks for. -/
def Call.asked : Call → Option ℕ
  | .positionAt token => some token
  | _ => none

/-- What was recorded, with the tokens. -/
def recorded (calls : List Call) : List (ℕ × Consumed) :=
  calls.filterMap Call.recorded

/-- The transactions that were recorded at tokens up to one. -/
def upTo (token : ℕ) (calls : List Call) : List Consumed :=
  ((recorded calls).filter fun p => decide (p.1 ≤ token)).map Prod.snd

/-- Transactions are recorded, and positions asked for, at tokens that do not decrease. -/
structure Scheduled (calls : List Call) : Prop where
  recorded : (recorded calls).Pairwise fun a b => a.1 ≤ b.1
  asked : (calls.filterMap Call.asked).Pairwise (· ≤ ·)

/-- No position is given: the stream was marked incomplete, by a call or by a transaction in the
other server's form, or nothing is known. -/
def Withheld (start : ConsumedPosition) (token : ℕ) (calls : List Call) : Prop :=
  (∃ why, Call.markIncomplete why ∈ calls) ∨ (∃ c ∈ upTo token calls, ¬start.Speaks c) ∨
    (start.unite (upTo token calls)).isEmpty = true

/-! ## What one question does -/

variable {position start : ConsumedPosition} {tracker : GtidTracker} {calls : List Call}

theorem speaks_addOne (position : ConsumedPosition) (c other : Consumed) :
    (position.addOne c).Speaks other ↔ position.Speaks other := by
  cases position <;> cases c <;> cases other <;> exact Iff.rfl

theorem speaks_unite (position : ConsumedPosition) (l : List Consumed) (other : Consumed) :
    (position.unite l).Speaks other ↔ position.Speaks other := by
  induction l generalizing position with
  | nil => exact Iff.rfl
  | cons c l ih => exact (ih (position.addOne c)).trans (speaks_addOne position c other)

theorem speaks_cleared (position : ConsumedPosition) (other : Consumed) :
    position.cleared.Speaks other ↔ position.Speaks other := by
  cases position <;> cases other <;> exact Iff.rfl

variable {l : List (ℕ × Consumed)}

theorem foldIn_of_speaks (h : ∀ p ∈ l, position.Speaks p.2) :
    foldIn position l = .ok (position.unite (l.map Prod.snd)) := by
  induction l generalizing position with
  | nil => rfl
  | cons p l ih =>
    obtain ⟨token, c⟩ := p
    obtain ⟨hc, hl⟩ := List.forall_mem_cons.mp h
    have hrest := ih fun p hp => (speaks_addOne position c p.2).mpr (hl p hp)
    cases position <;> cases c
    · exact hrest
    · cases hc
    · cases hc
    · exact hrest

theorem foldIn_of_foreign (h : ∃ p ∈ l, ¬position.Speaks p.2) :
    ∃ out, foldIn position l = .error out ∧ ∀ c, out.Speaks c ↔ position.Speaks c := by
  induction l generalizing position with
  | nil =>
    obtain ⟨p, hp, -⟩ := h
    cases hp
  | cons p l ih =>
    obtain ⟨token, c⟩ := p
    by_cases hc : position.Speaks c
    · have hrest : ∃ p ∈ l, ¬(position.addOne c).Speaks p.2 := by
        obtain ⟨p, hp, hforeign⟩ := h
        rcases List.mem_cons.mp hp with rfl | hp
        · exact absurd hc hforeign
        · exact ⟨p, hp, mt (speaks_addOne position c p.2).mp hforeign⟩
      obtain ⟨out, hfold, hout⟩ := ih hrest
      refine ⟨out, ?_, fun c' => (hout c').trans (speaks_addOne position c c')⟩
      cases position <;> cases c
      · exact hfold
      · cases hc
      · cases hc
      · exact hfold
    · refine ⟨position.cleared, ?_, speaks_cleared position⟩
      cases position <;> cases c
      · exact absurd trivial hc
      · rfl
      · rfl
      · exact absurd trivial hc

/-- What a run of calls leaves in a tracker: some of what was recorded is added to the position, and
the rest is pending. -/
structure Tracked (start : ConsumedPosition) (calls : List Call) (done : List (ℕ × Consumed))
    (tracker : GtidTracker) : Prop where
  /-- nothing that was recorded is forgotten -/
  recorded : recorded calls = done ++ tracker.pending
  /-- nothing is added ahead of a question that covers it -/
  covered : ∀ p ∈ done, ∃ token ∈ calls.filterMap Call.asked, p.1 ≤ token
  /-- why the stream is incomplete -/
  incomplete : tracker.incomplete.isSome = true ↔
    (∃ why, Call.markIncomplete why ∈ calls) ∨ ∃ p ∈ done, ¬start.Speaks p.2
  /-- the position is the start with what was added -/
  position : (∀ p ∈ done, start.Speaks p.2) →
    tracker.position = start.unite (done.map Prod.snd)
  /-- the server never changes -/
  speaks : ∀ c, tracker.position.Speaks c ↔ start.Speaks c

variable {done : List (ℕ × Consumed)}

theorem unite_append (start : ConsumedPosition) (l l' : List Consumed) :
    start.unite (l ++ l') = (start.unite l).unite l' :=
  List.foldl_append

/-- A call that records. -/
theorem Tracked.record (h : Tracked start calls done tracker) {c : Call} {p : ℕ × Consumed}
    (hc : c.recorded = some p) : Tracked start (calls ++ [c]) done
      { tracker with pending := tracker.pending ++ [p] } := by
  have hasked : c.asked = none := by
    cases c with
    | recordMysql token uuid gno => rfl
    | recordMariadb token domain serverId seqNo => rfl
    | markIncomplete why => cases hc
    | positionAt token => cases hc
  have hmark : ∀ why, c ≠ .markIncomplete why := by
    rintro why rfl
    cases hc
  refine ⟨?_, ?_, ?_, h.position, h.speaks⟩
  · rw [GtidTracker.recorded, List.filterMap_append, List.filterMap_cons_some hc, List.filterMap_nil]
    exact (congrArg (· ++ [p]) h.recorded).trans (List.append_assoc _ _ _)
  · rw [List.filterMap_append, List.filterMap_cons_none hasked, List.filterMap_nil, List.append_nil]
    exact h.covered
  · refine h.incomplete.trans (or_congr_left (exists_congr fun why => ?_))
    rw [List.mem_append, List.mem_singleton]
    exact (or_iff_left (hmark why).symm).symm

/-- A call that marks the stream incomplete. -/
theorem Tracked.markIncomplete (h : Tracked start calls done tracker) (why : String) :
    Tracked start (calls ++ [.markIncomplete why]) done (tracker.markIncomplete why) := by
  have hkept : (tracker.markIncomplete why).position = tracker.position ∧
      (tracker.markIncomplete why).pending = tracker.pending ∧
      (tracker.markIncomplete why).incomplete.isSome = true := by
    rw [GtidTracker.markIncomplete]
    cases hincomplete : tracker.incomplete with
    | none => exact ⟨rfl, rfl, rfl⟩
    | some reason => exact ⟨rfl, rfl, congrArg Option.isSome hincomplete⟩
  obtain ⟨hposition, hpending, hsome⟩ := hkept
  refine ⟨?_, ?_, ?_, fun hspeaks => hposition.trans (h.position hspeaks), fun c => ?_⟩
  · rw [hpending, ← h.recorded, GtidTracker.recorded, List.filterMap_append,
      List.filterMap_cons_none rfl, List.filterMap_nil, List.append_nil]
    rfl
  · rw [List.filterMap_append, List.filterMap_cons_none rfl, List.filterMap_nil, List.append_nil]
    exact h.covered
  · exact iff_of_true hsome (.inl ⟨why, List.mem_append_right _ List.mem_cons_self⟩)
  · rw [hposition]
    exact h.speaks c

theorem recorded_positionAt (calls : List Call) (token : ℕ) :
    recorded (calls ++ [.positionAt token]) = recorded calls := by
  rw [recorded, List.filterMap_append, List.filterMap_cons_none rfl, List.filterMap_nil,
    List.append_nil]
  rfl

theorem asked_positionAt (calls : List Call) (token : ℕ) :
    (calls ++ [Call.positionAt token]).filterMap Call.asked =
      calls.filterMap Call.asked ++ [token] := by
  rw [List.filterMap_append]
  rfl

/-- A question adds what it covers. -/
theorem Tracked.positionAt (h : Tracked start calls done tracker) (token : ℕ) :
    Tracked start (calls ++ [.positionAt token])
      (done ++ tracker.pending.takeWhile fun p => decide (p.1 ≤ token))
      (tracker.positionAt token).2 := by
  have hrecorded : GtidTracker.recorded (calls ++ [.positionAt token]) =
      (done ++ tracker.pending.takeWhile fun p => decide (p.1 ≤ token)) ++
        tracker.pending.dropWhile fun p => decide (p.1 ≤ token) := by
    rw [recorded_positionAt, h.recorded, List.append_assoc, List.takeWhile_append_dropWhile]
  have hcovered : ∀ p ∈ done ++ tracker.pending.takeWhile (fun p => decide (p.1 ≤ token)),
      ∃ asked ∈ (calls ++ [Call.positionAt token]).filterMap Call.asked, p.1 ≤ asked := by
    intro p hp
    rw [asked_positionAt]
    rcases List.mem_append.mp hp with hp | hp
    · obtain ⟨asked, hasked, hle⟩ := h.covered p hp
      exact ⟨asked, List.mem_append_left _ hasked, hle⟩
    · exact ⟨token, List.mem_append_right _ List.mem_cons_self,
        of_decide_eq_true (List.mem_takeWhile_imp hp :)⟩
  have hmarks : (∃ why, Call.markIncomplete why ∈ calls ++ [.positionAt token]) ↔
      ∃ why, Call.markIncomplete why ∈ calls := exists_congr fun why => by
    rw [List.mem_append, List.mem_singleton]
    exact or_iff_left (by simp)
  by_cases hforeign : ∃ p ∈ tracker.pending.takeWhile (fun p => decide (p.1 ≤ token)),
      ¬tracker.position.Speaks p.2
  · -- the first one in the other form ends the fold, and the stream is incomplete
    obtain ⟨out, hfold, hout⟩ := foldIn_of_foreign hforeign
    obtain ⟨p, hp, hnot⟩ := hforeign
    have hwrong : ¬start.Speaks p.2 := mt (h.speaks p.2).mpr hnot
    simp only [GtidTracker.positionAt, hfold]
    refine ⟨hrecorded, hcovered, ?_, fun hall => ?_, fun c => (hout c).trans (h.speaks c)⟩
    · exact iff_of_true rfl (.inr ⟨p, List.mem_append_right _ hp, hwrong⟩)
    · exact absurd (hall p (List.mem_append_right _ hp)) hwrong
  · have hspeaks : ∀ p ∈ tracker.pending.takeWhile (fun p => decide (p.1 ≤ token)),
        tracker.position.Speaks p.2 := by
      intro p hp
      by_contra hnot
      exact hforeign ⟨p, hp, hnot⟩
    simp only [GtidTracker.positionAt, foldIn_of_speaks hspeaks]
    refine ⟨hrecorded, hcovered, ?_, fun hall => ?_, fun c => ?_⟩
    · rw [hmarks]
      refine h.incomplete.trans (or_congr_right ⟨?_, ?_⟩)
      · rintro ⟨p, hp, hnot⟩
        exact ⟨p, List.mem_append_left _ hp, hnot⟩
      · rintro ⟨p, hp, hnot⟩
        rcases List.mem_append.mp hp with hp | hp
        · exact ⟨p, hp, hnot⟩
        · exact absurd ((h.speaks p.2).mp (hspeaks p hp)) hnot
    · rw [List.map_append, unite_append,
        ← h.position fun p hp => hall p (List.mem_append_left _ hp)]
    · exact (speaks_unite _ _ c).trans (h.speaks c)

/-- The answer to a question is told by the tracker that it leaves. -/
theorem positionAt_eq (tracker : GtidTracker) (token : ℕ) : (tracker.positionAt token).1 =
    if (tracker.positionAt token).2.incomplete.isSome = true ∨
      (tracker.positionAt token).2.position.isEmpty = true then none
    else some (tracker.positionAt token).2.position.toText := by
  rw [positionAt]
  cases foldIn tracker.position (tracker.pending.takeWhile fun p => decide (p.1 ≤ token)) with
  | error out => rfl
  | ok out => simp only [Bool.or_eq_true]

/-- **A run of calls.** -/
theorem exists_tracked (mariadb : Bool) (resumeFrom : Option ConsumedPosition)
    (calls : List Call) : ∃ done, Tracked (startOf mariadb resumeFrom) calls done
      ((new mariadb resumeFrom).run calls) := by
  induction calls using List.reverseRecOn with
  | nil =>
    refine ⟨[], rfl, fun p hp => absurd hp List.not_mem_nil, ?_, fun _ => rfl, fun _ => Iff.rfl⟩
    exact iff_of_false Bool.false_ne_true (by simp)
  | append_singleton calls c ih =>
    obtain ⟨done, hdone⟩ := ih
    rw [run, List.foldl_concat]
    cases c with
    | recordMysql token uuid gno => exact ⟨done, hdone.record rfl⟩
    | recordMariadb token domain serverId seqNo => exact ⟨done, hdone.record rfl⟩
    | markIncomplete why => exact ⟨done, hdone.markIncomplete why⟩
    | positionAt token => exact ⟨_, hdone.positionAt token⟩

/-! ## The answer to every question -/

theorem filter_eq_takeWhile (h : l.Pairwise fun a b => a.1 ≤ b.1) (token : ℕ) :
    l.filter (fun p => decide (p.1 ≤ token)) =
      l.takeWhile fun p => decide (p.1 ≤ token) := by
  induction l with
  | nil => rfl
  | cons p l ih =>
    obtain ⟨hfirst, hrest⟩ := List.pairwise_cons.mp h
    by_cases hp : p.1 ≤ token
    · rw [List.filter_cons_of_pos (by simpa using hp), List.takeWhile_cons_of_pos (by simpa using hp),
        ih hrest]
    · rw [List.filter_cons_of_neg (by simpa using hp), List.takeWhile_cons_of_neg (by simpa using hp)]
      refine List.filter_eq_nil_iff.mpr fun q hq => ?_
      have := hfirst q hq
      simp only [decide_eq_true_eq]
      omega

/-- Under a schedule, what a question adds to and what it adds are all that was recorded up to its
token. -/
theorem Tracked.upTo (h : Tracked start calls done tracker) {token : ℕ}
    (hscheduled : Scheduled (calls ++ [.positionAt token])) :
    GtidTracker.upTo token calls =
      (done ++ tracker.pending.takeWhile fun p => decide (p.1 ≤ token)).map Prod.snd := by
  have hsorted := hscheduled.recorded
  rw [recorded_positionAt, h.recorded] at hsorted
  have hasked := hscheduled.asked
  rw [asked_positionAt] at hasked
  have hdone : done.filter (fun p => decide (p.1 ≤ token)) = done := by
    refine List.filter_eq_self.mpr fun p hp => decide_eq_true ?_
    obtain ⟨asked, hmem, hle⟩ := h.covered p hp
    exact le_trans hle ((List.pairwise_append.mp hasked).2.2 asked hmem token List.mem_cons_self)
  rw [GtidTracker.upTo, h.recorded, List.filter_append, hdone,
    filter_eq_takeWhile (List.pairwise_append.mp hsorted).2.1]

/-- **Every answer is exact**: whatever was called before, a question is answered with the text of
the start united with what was recorded up to its token, unless that has to be withheld. -/
theorem positionAt_exact (mariadb : Bool) (resumeFrom : Option ConsumedPosition)
    (calls : List Call) (token : ℕ) (h : Scheduled (calls ++ [.positionAt token])) :
    let start := startOf mariadb resumeFrom
    let united := start.unite (upTo token calls)
    let answer := (((new mariadb resumeFrom).run calls).positionAt token).1
    (Withheld start token calls → answer = none) ∧
      (¬Withheld start token calls → answer = some united.toText) ∧
      (start.Proper → (∀ c ∈ upTo token calls, Given c) →
        start.Unites (upTo token calls) united) := by
  intro start united answer
  obtain ⟨done, hdone⟩ := exists_tracked mariadb resumeFrom calls
  have hasked := hdone.positionAt token
  have hupTo := hdone.upTo h
  have hincomplete : (((new mariadb resumeFrom).run calls).positionAt token).2.incomplete.isSome =
      true ↔ (∃ why, Call.markIncomplete why ∈ calls) ∨
        ∃ c ∈ GtidTracker.upTo token calls, ¬start.Speaks c := by
    refine hasked.incomplete.trans (or_congr (exists_congr fun why => ?_) ?_)
    · rw [List.mem_append, List.mem_singleton]
      exact or_iff_left (by simp)
    · rw [hupTo]
      simp only [List.mem_map, exists_exists_and_eq_and]
      rfl
  have hposition : ¬(∃ c ∈ GtidTracker.upTo token calls, ¬start.Speaks c) →
      (((new mariadb resumeFrom).run calls).positionAt token).2.position = united := by
    intro hnone
    rw [hasked.position fun p hp => ?_, ← hupTo]
    by_contra hnot
    exact hnone ⟨p.2, hupTo ▸ List.mem_map_of_mem hp, hnot⟩
  refine ⟨fun hwithheld => ?_, fun hgiven => ?_,
    fun hproper hnumbers => unites_unite hproper hnumbers⟩
  · refine (positionAt_eq _ token).trans (if_pos ?_)
    by_cases hmarked : (((new mariadb resumeFrom).run calls).positionAt token).2.incomplete.isSome =
        true
    · exact .inl hmarked
    · obtain ⟨hmark, hforeign⟩ := not_or.mp (mt hincomplete.mpr hmarked)
      rw [hposition hforeign]
      rcases hwithheld with hwhy | hwhy | hwhy
      · exact absurd hwhy hmark
      · exact absurd hwhy hforeign
      · exact .inr hwhy
  · obtain ⟨hmark, hrest⟩ := not_or.mp hgiven
    obtain ⟨hforeign, hnonempty⟩ := not_or.mp hrest
    refine (positionAt_eq _ token).trans ((if_neg ?_).trans ?_)
    · rw [hposition hforeign, hincomplete]
      exact not_or.mpr ⟨not_or.mpr ⟨hmark, hforeign⟩, hnonempty⟩
    · rw [hposition hforeign]

/-- A transaction of a later token is left out. -/
theorem positionAt_exact_lagging : (((new false none).run
    [.recordMysql 5 "3e11fa47-71ca-11e1-9e33-c80aa9429562" 1,
      .recordMysql 9 "3e11fa47-71ca-11e1-9e33-c80aa9429562" 2]).positionAt 7).1 =
    some "3e11fa47-71ca-11e1-9e33-c80aa9429562:1".toList := by
  refine ((positionAt_exact false none _ 7 ⟨by decide, by decide⟩).2.1 ?_).trans (by decide)
  rintro (⟨why, hwhy⟩ | hforeign | hempty)
  · simp at hwhy
  · exact absurd hforeign (by decide)
  · exact absurd hempty (by decide)

end GtidTracker

end MySql

end Pg2osync
