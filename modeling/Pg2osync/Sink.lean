import Pg2osync.Core

/-!
# What the sinks share

The retry loop around one request, the pairing of a refused item with the
operation that produced it, and the translation of a source position into a
document version.
-/

namespace Pg2osync

/-- Backoff is capped at thirty seconds, in milliseconds. -/
def maxBackoff : ℕ := 30000

/-- Retry policy for transient failures. -/
structure RetryPolicy : Type where
  /-- how many failures end the retrying -/
  maxAttempts : ℕ
  /-- the wait after the first failure, doubled after each further one -/
  baseBackoffMs : ℕ
  /-- ceiling on the time spent retrying one request, from its first failure -/
  maxElapsedMs : Option ℕ

/-- Which limit ended the retrying. -/
inductive RetryLimit : Type where
  /-- the attempt count -/
  | attempts : RetryLimit
  /-- the elapsed ceiling -/
  | elapsed : RetryLimit
  deriving DecidableEq, Repr

/-- How long to wait after this many failures, or which limit ends the retrying
instead. -/
def RetryPolicy.backoffAfter (policy : RetryPolicy) (failures elapsed : ℕ) :
    Except RetryLimit ℕ :=
  if policy.maxAttempts ≤ failures then .error .attempts
  else
    let doubled := policy.baseBackoffMs * 2 ^ min (failures - 1) 16
    let backoff := min doubled maxBackoff
    match policy.maxElapsedMs with
    | none => .ok backoff
    | some ceiling =>
      if ceiling ≤ elapsed then .error .elapsed
      else .ok (min backoff (ceiling - elapsed))

/-- `is_retryable`: only a transient sink error is. -/
def isRetryable : CoreError → Bool
  | .sinkTransient _ => true
  | _ => false

/-- Milliseconds as seconds with one decimal. -/
def seconds (ms : ℕ) : String :=
  let tenths := (ms + 50) / 100
  toString (tenths / 10) ++ "." ++ toString (tenths % 10)

/-- The error that ends the pipeline: which limit ended the retrying and how
long it went on, with the classification of the last failure kept. -/
def gaveUp (error : CoreError) (limit : RetryLimit) (attempts elapsed : ℕ) : CoreError :=
  let reason := match limit with
    | .attempts => "the attempt limit [engine] retry_max"
    | .elapsed => "the elapsed ceiling [engine] retry_max_elapsed_ms"
  let message := "bulk gave up after " ++ toString attempts ++ " attempts over " ++
    seconds elapsed ++ "s, ended by " ++ reason ++ " (" ++ error.display ++ ")"
  match error with
  | .sinkTransient _ => .sinkTransient message
  | _ => .sink message

/-- Run one request until it succeeds, fails permanently, or hits a limit.

`attempt n` is the answer to the request after `n` failures and `elapsed n` the
time since the first failure when the `n`-th is in. `left` counts down from the
attempt limit, which `backoffAfter` enforces, so the loop ends. -/
def retryLoop {α : Type} (policy : RetryPolicy) (elapsed : ℕ → ℕ)
    (attempt : ℕ → Except CoreError α) : (left failures : ℕ) → Except CoreError α
  | left, failures =>
    match attempt failures with
    | .ok done => .ok done
    | .error e =>
      if isRetryable e then
        match policy.backoffAfter (failures + 1) (elapsed (failures + 1)), left with
        | .ok _, left + 1 => retryLoop policy elapsed attempt left (failures + 1)
        | .ok _, 0 => .error (gaveUp e .attempts (failures + 1) (elapsed (failures + 1)))
        | .error limit, _ => .error (gaveUp e limit (failures + 1) (elapsed (failures + 1)))
      else .error e

/-- `retry_transient`. -/
def retryTransient {α : Type} (policy : RetryPolicy) (elapsed : ℕ → ℕ)
    (attempt : ℕ → Except CoreError α) : Except CoreError α :=
  retryLoop policy elapsed attempt policy.maxAttempts 0

theorem retryLoop_eq_ok {α : Type} {policy : RetryPolicy} {elapsed : ℕ → ℕ}
    {attempt : ℕ → Except CoreError α} {left failures : ℕ} {done : α}
    (h : retryLoop policy elapsed attempt left failures = .ok done) :
    ∃ n, attempt n = .ok done := by
  induction left generalizing failures with
  | zero =>
    unfold retryLoop at h
    split at h
    · next heq => exact ⟨failures, by rw [heq, ← h]⟩
    · split at h
      · split at h <;> first | cases h | contradiction
      · cases h
  | succ left ih =>
    unfold retryLoop at h
    split at h
    · next heq => exact ⟨failures, by rw [heq, ← h]⟩
    · split at h
      · split at h
        · next hl =>
          cases hl
          exact ih h
        · contradiction
        · cases h
      · cases h

/-- What the retry loop returns as done, one attempt returned as done. -/
theorem retryTransient_eq_ok {α : Type} {policy : RetryPolicy} {elapsed : ℕ → ℕ}
    {attempt : ℕ → Except CoreError α} {done : α}
    (h : retryTransient policy elapsed attempt = .ok done) : ∃ n, attempt n = .ok done :=
  retryLoop_eq_ok h

/-! ## Rejections -/

/-- One refused item as the rejection of the operation at its place. -/
def rejection (batch : List LsnOp) (nth : ℕ) (reason : String) : Except CoreError Rejection :=
  match batch[nth]? with
  | none => .error (.sink ("bulk response has " ++ toString (nth + 1) ++ " items for a batch of "
      ++ toString batch.length))
  | some op => .ok ⟨op.op.index, op.op.id, reason, op.lsn, op.op⟩

/-- Pair each refused item with the operation that produced it; an item with no
operation behind it is an error rather than a guess. -/
def rejections (batch : List LsnOp) : List (ℕ × String) → Except CoreError (List Rejection)
  | [] => .ok []
  | (nth, reason) :: rest => do
    let first ← rejection batch nth reason
    let others ← rejections batch rest
    return first :: others

/-- A source position as the target's external document version: `none` for
position zero and for one past `i64::MAX`, which goes unversioned. -/
def externalVersion (position : Option ℕ) : Option ℕ :=
  (position.filter (0 < ·)).bind i64TryFrom

end Pg2osync
