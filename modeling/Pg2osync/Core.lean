import Pg2osync.Json

/-!
# The vocabulary between the engine and a sink

What the engine hands a sink is a batch of `LsnOp`s, and what it gets back is a
`SinkAck` or a `CoreError`. A position is a `u64` in the source and a natural
number here: nothing below adds to one, it is only compared, and the one place
where its width matters is `i64TryFrom`.
-/

namespace Pg2osync

/-- A source position. -/
abbrev Lsn := ℕ

/-- A bind that succeeds, as its two steps. -/
theorem Except.bind_eq_ok {ε α β : Type} {x : Except ε α} {f : α → Except ε β} {b : β}
    (h : (x >>= f) = .ok b) : ∃ a, x = .ok a ∧ f a = .ok b := by
  cases x with
  | error e => cases h
  | ok a => exact ⟨a, rfl, h⟩

theorem Except.map_eq_ok {ε α β : Type} {x : Except ε α} {f : α → β} {b : β}
    (h : x.map f = .ok b) : ∃ a, x = .ok a ∧ f a = b := by
  cases x with
  | error e => cases h
  | ok a => exact ⟨a, rfl, Except.ok.inj h⟩

/-- The largest `i64`. -/
def i64Max : ℕ := 2 ^ 63 - 1

/-- `i64::try_from` on a `u64`. -/
def i64TryFrom (v : ℕ) : Option ℕ :=
  if v ≤ i64Max then some v else none

theorem i64TryFrom_of_le {v : ℕ} (h : v ≤ i64Max) : i64TryFrom v = some v :=
  if_pos h

theorem i64TryFrom_eq_some {v w : ℕ} (h : i64TryFrom v = some w) : w = v ∧ v ≤ i64Max := by
  rw [i64TryFrom] at h
  split at h
  · next hle => exact ⟨(Option.some.inj h).symm, hle⟩
  · cases h

/-- One version is below another. Nothing is below or above what has none. -/
def outranked : Option ℕ → Option ℕ → Bool
  | some v, some w => v < w
  | _, _ => false

/-- Shared error taxonomy. -/
inductive CoreError : Type where
  /-- the source failed -/
  | source (message : String) : CoreError
  /-- the target failed, and a retry would fail the same way -/
  | sink (message : String) : CoreError
  /-- the target failed in a way that is expected to pass on a later attempt -/
  | sinkTransient (message : String) : CoreError
  /-- text that is not a position -/
  | invalidLsn (text : String) : CoreError
  /-- anything else -/
  | other (message : String) : CoreError
  deriving DecidableEq, Repr

/-- An error as it is printed. -/
def CoreError.display : CoreError → String
  | .source message => "source error: " ++ message
  | .sink message => "sink error: " ++ message
  | .sinkTransient message => "transient sink error: " ++ message
  | .invalidLsn text => "invalid LSN string: " ++ text.quote
  | .other message => message

/-- What a sink is asked to do to the target's documents. -/
inductive DocumentOp : Type where
  /-- store a document under an id; `version` is the source position this
  version of the row became visible at -/
  | upsert (index id : String) (routing : Option String) (doc : Json) (version : Option ℕ)
      (pipeline : Option String) : DocumentOp
  /-- remove the document under an id -/
  | delete (index id : String) (routing : Option String) (version : Option ℕ) : DocumentOp
  /-- remove every child document of one parent, at the parent's own position -/
  | deleteChildren (index field parentName parentId : String) (version : Option ℕ) : DocumentOp
  deriving DecidableEq, Repr

namespace DocumentOp

/-- The index an operation is sent to. -/
def index : DocumentOp → String
  | .upsert index _ _ _ _ _ => index
  | .delete index _ _ _ => index
  | .deleteChildren index _ _ _ _ => index

/-- The id an operation is filed under; for a cascade, the parent's. -/
def id : DocumentOp → String
  | .upsert _ id _ _ _ _ => id
  | .delete _ id _ _ => id
  | .deleteChildren _ _ _ parentId _ => parentId

/-- The position an operation is versioned by. -/
def version : DocumentOp → Option ℕ
  | .upsert _ _ _ _ version _ => version
  | .delete _ _ _ version => version
  | .deleteChildren _ _ _ _ version => version

/-- Whether an operation stores a document. -/
def isUpsert : DocumentOp → Bool
  | .upsert .. => true
  | _ => false

/-- Whether an operation removes one document. -/
def isDelete : DocumentOp → Bool
  | .delete .. => true
  | _ => false

/-- Whether an operation is a cascade. -/
def isCascade : DocumentOp → Bool
  | .deleteChildren .. => true
  | _ => false

end DocumentOp

/-- A document operation paired with the source position it came from: the
position that may be acknowledged, which is not the version. -/
structure LsnOp : Type where
  /-- the position -/
  lsn : Lsn
  /-- the operation -/
  op : DocumentOp
  deriving DecidableEq, Repr

/-- One document the target refused permanently, with everything needed to
record it and to submit it again later. -/
structure Rejection : Type where
  /-- the index the document was meant for -/
  index : String
  /-- the id it was meant to be filed under -/
  docId : String
  /-- why the target refused it -/
  reason : String
  /-- where in the source it came from -/
  lsn : Lsn
  /-- the operation itself, which is what makes a replay possible -/
  op : DocumentOp
  deriving DecidableEq, Repr

/-- What came back from a `write`: how far it got, and what the target refused. -/
structure SinkAck : Type where
  /-- the highest position known to be durably written -/
  maxLsn : Lsn
  /-- the documents the target will never accept -/
  rejected : List Rejection
  deriving DecidableEq, Repr

/-- The ordinary outcome: everything in the batch was accepted. -/
def SinkAck.written (maxLsn : Lsn) : SinkAck :=
  ⟨maxLsn, []⟩

/-- A rejection read back out of the target's store, with the id it is filed
under so it can be cleared once replayed. -/
structure StoredReject : Type where
  /-- the id it is filed under -/
  id : String
  /-- what was refused -/
  rejection : Rejection
  /-- when it was quarantined, epoch seconds -/
  atEpoch : ℕ
  deriving DecidableEq, Repr

end Pg2osync
