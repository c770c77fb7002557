import Mathlib.Data.List.Sort
import Pg2osync.CatchUp
import Pg2osync.Config
import Pg2osync.Intervals

/-!
# Sets of transactions

MySQL names a transaction by the server it came from and a number. What was consumed is kept as
the intervals of these numbers, for each server, and has three forms: in memory and as text the
intervals are closed, and on the wire they end ahead of a number. A set is one list of
intervals whatever the order was in which its numbers came.
-/

namespace Pg2osync

namespace MySql

/-! ## Numbers in text -/

/-- `str::parse`, for an unsigned integer. -/
def parseUnsigned (bits : ℕ) (text : List Char) : Option ℕ :=
  match text with
  | '-' :: _ => none
  | _ => ((Encoding.readInt text).filter fun n => n < 2 ^ bits).map Int.toNat

theorem parseUnsigned_of_digits {bits : ℕ} {text : List Char} {n : ℕ}
    (hread : Encoding.readInt text = some (n : ℤ)) (hsign : '-' ∉ text) (h : n < 2 ^ bits) :
    parseUnsigned bits text = some n := by
  rw [parseUnsigned]
  · have hfits : decide ((n : ℤ) < 2 ^ bits) = true := decide_eq_true (by exact_mod_cast h)
    rw [hread]
    simp only [Option.filter_some, hfits, if_true, Option.map_some, Int.toNat_natCast]
  · rintro rest rfl
    exact hsign List.mem_cons_self

theorem parseUnsigned_toDigits {bits n : ℕ} (h : n < 2 ^ bits) :
    parseUnsigned bits (Nat.toDigits 10 n) = some n := by
  refine parseUnsigned_of_digits ?_ (notMem_toDigits (by decide)) h
  rw [Encoding.readInt_digits Nat.toDigits_ne_nil
    (List.all_eq_true.mpr fun _ => isDigit_toDigits), Nat.ofDigitChars_ten_toDigits]

/-- `str::split_once`. -/
def splitOnce {α : Type} [DecidableEq α] (sep : α) : List α → Option (List α × List α)
  | [] => none
  | x :: xs => if x = sep then some ([], xs) else (splitOnce sep xs).map fun (front, back) =>
      (x :: front, back)

theorem splitOnce_of_notMem {α : Type} [DecidableEq α] {sep : α} {xs : List α} (h : sep ∉ xs) :
    splitOnce sep xs = none := by
  induction xs with
  | nil => rfl
  | cons x xs ih =>
    obtain ⟨hne, hrest⟩ := not_or.mp (List.mem_cons.not.mp h)
    rw [splitOnce, if_neg (Ne.symm hne), ih hrest]
    rfl

theorem splitOnce_append {α : Type} [DecidableEq α] {sep : α} {front : List α} (h : sep ∉ front)
    (back : List α) : splitOnce sep (front ++ sep :: back) = some (front, back) := by
  induction front with
  | nil => exact if_pos rfl
  | cons x front ih =>
    obtain ⟨hne, hrest⟩ := not_or.mp (List.mem_cons.not.mp h)
    rw [List.cons_append, splitOnce, if_neg (Ne.symm hne), ih hrest]
    rfl

theorem splitOnce_eq_some {α : Type} [DecidableEq α] {sep : α} {xs front back : List α}
    (h : splitOnce sep xs = some (front, back)) : xs = front ++ sep :: back ∧ sep ∉ front := by
  induction xs generalizing front with
  | nil => cases h
  | cons x xs ih =>
    rw [splitOnce] at h
    split at h
    · next hx =>
      cases h
      exact ⟨hx ▸ rfl, List.not_mem_nil⟩
    · next hx =>
      obtain ⟨parts, hparts, heq⟩ := Option.map_eq_some_iff.mp h
      cases heq
      obtain ⟨hxs, hnot⟩ := ih hparts
      refine ⟨by rw [hxs, List.cons_append], fun hmem => ?_⟩
      rcases List.mem_cons.mp hmem with hsep | hrest
      · exact hx hsep.symm
      · exact hnot hrest

/-- What has no white space is not trimmed. -/
theorem trim_eq_self {text : List Char} (h : ∀ c ∈ text, isWhitespace c = false) :
    trim text = text := by
  have hkept : ∀ {t : List Char}, (∀ c ∈ t, isWhitespace c = false) →
      t.dropWhile isWhitespace = t := by
    intro t ht
    cases t with
    | nil => rfl
    | cons c t => exact List.dropWhile_cons_of_neg (by rw [ht c List.mem_cons_self]; decide)
  rw [trim, hkept h, hkept fun c hc => h c (List.mem_reverse.mp hc), List.reverse_reverse]

theorem isWhitespace_of_isDigit {c : Char} (h : c.isDigit = true) : isWhitespace c = false := by
  obtain ⟨hlow, hhigh⟩ := Encoding.toNat_of_isDigit h
  simp only [isWhitespace, Bool.or_eq_false_iff, Bool.and_eq_false_iff, decide_eq_false_iff_not]
  omega

/-! ## The set -/

/-- `MySqlGtidSet`. -/
structure MySqlGtidSet : Type where
  /-- the intervals of each server -/
  uuids : Dictionary String (List (ℕ × ℕ))
  deriving DecidableEq

/-- The number after another, in 64 bits. -/
def nextGno (gno : ℕ) : ℕ :=
  (gno + 1) % 2 ^ 64

/-- The interval that was merged last takes in the next one, if it reaches it. -/
def joinLast (merged : List (ℕ × ℕ)) (r : ℕ × ℕ) : List (ℕ × ℕ) :=
  match merged.getLast? with
  | some prev =>
    if r.1 ≤ nextGno prev.2 then merged.dropLast ++ [(prev.1, max prev.2 r.2)] else merged ++ [r]
  | none => merged ++ [r]

/-- `coalesce`. -/
def coalesce (intervals : List (ℕ × ℕ)) : List (ℕ × ℕ) :=
  intervals.foldl joinLast []

/-- A number that no interval to its left has or reaches. -/
def addRight (left right : List (ℕ × ℕ)) (gno : ℕ) : List (ℕ × ℕ) :=
  match right with
  | (start, last) :: rest =>
    if nextGno gno = start then coalesce (left ++ (gno, last) :: rest)
    else left ++ (gno, gno) :: right
  | [] => left ++ [(gno, gno)]

/-- A number between the intervals that begin up to it and those that begin above it. -/
def addBetween (left right : List (ℕ × ℕ)) (gno : ℕ) : List (ℕ × ℕ) :=
  match left.getLast? with
  | some (start, last) =>
    if start ≤ gno ∧ gno ≤ last then left ++ right
    else if gno = nextGno last then coalesce (left.dropLast ++ (start, gno) :: right)
    else addRight left right gno
  | none => addRight left right gno

/-- The intervals of one server with one number more. -/
def addNumber (intervals : List (ℕ × ℕ)) (gno : ℕ) : List (ℕ × ℕ) :=
  let begun := fun (r : ℕ × ℕ) => decide (r.1 ≤ gno)
  match intervals.getLast? with
  | some (start, last) =>
    if gno = nextGno last then intervals.dropLast ++ [(start, gno)]
    else addBetween (intervals.takeWhile begun) (intervals.dropWhile begun) gno
  | none => addBetween (intervals.takeWhile begun) (intervals.dropWhile begun) gno

namespace MySqlGtidSet

/-- The set with nothing in it. -/
def empty : MySqlGtidSet := ⟨∅⟩

/-- `is_empty`. -/
def isEmpty (set : MySqlGtidSet) : Bool :=
  set.uuids.isEmpty

/-- The intervals of a server. -/
def intervals (set : MySqlGtidSet) (uuid : String) : List (ℕ × ℕ) :=
  (set.uuids.get? uuid).getD []

/-- `add`. -/
def add (set : MySqlGtidSet) (uuid : String) (gno : ℕ) : MySqlGtidSet :=
  ⟨set.uuids.insert uuid (addNumber (set.intervals uuid) gno)⟩

/-- Some transactions, added one after the other. -/
def addAll (set : MySqlGtidSet) (transactions : List (String × ℕ)) : MySqlGtidSet :=
  transactions.foldl (fun set t => set.add t.1 t.2) set

/-- A transaction is in a set. -/
def Has (set : MySqlGtidSet) (uuid : String) (gno : ℕ) : Prop :=
  Intervals.Covers (set.intervals uuid) gno

/-! ## As text -/

/-- A server with its intervals. -/
def entryText (e : String × List (ℕ × ℕ)) : List Char :=
  e.1.toList ++ e.2.flatMap fun r => ':' :: rangeText r

/-- `to_text`. -/
def toText (set : MySqlGtidSet) : List Char :=
  [','].intercalate (set.uuids.entries.map entryText)

/-- One interval, as text has it. -/
def readRange (range : List Char) : Option (ℕ × ℕ) :=
  let read := match splitOnce '-' range with
    | some (start, last) => (parseUnsigned 64 (trim start)).bind fun start =>
        (parseUnsigned 64 (trim last)).map fun last => (start, last)
    | none => (parseUnsigned 64 (trim range)).map fun one => (one, one)
  read.filter fun r => r.1 ≤ r.2

/-- The order of pairs. -/
def pairLe (a b : ℕ × ℕ) : Prop :=
  a.1 < b.1 ∨ a.1 = b.1 ∧ a.2 ≤ b.2

instance : DecidableRel pairLe := fun _ _ => inferInstanceAs (Decidable (_ ∨ _))

/-- One server with its intervals, as text has them. -/
def readEntry (set : MySqlGtidSet) (entry : List Char) : Option MySqlGtidSet :=
  match entry.splitOn ':' with
  | [] => none
  | uuid :: ranges =>
    if trim uuid = [] then none
    else (ranges.mapM readRange).bind fun ranges =>
      let all := set.intervals (String.ofList (trim uuid)) ++ ranges
      if all = [] then none
      else some ⟨set.uuids.insert (String.ofList (trim uuid)) (coalesce (all.insertionSort pairLe))⟩

/-- `parse`. -/
def parse (text : List Char) : Option MySqlGtidSet :=
  ((((text.splitOn ',').map trim).filter fun entry => entry ≠ []).foldlM readEntry empty).filter
    fun set => !set.isEmpty

/-! ## On the wire -/

/-- `u8::from_str_radix`, of two characters. -/
def hexByte (a b : Char) : Option UInt8 :=
  if a = '+' then (Encoding.hexValue b).map UInt8.ofNat
  else (Encoding.hexValue a).bind fun high => (Encoding.hexValue b).map fun low =>
    UInt8.ofNat (high * 16 + low)

/-- The bytes of pairs of characters. -/
def hexPairs : List Char → Option (List UInt8)
  | a :: b :: rest => (hexByte a b).bind fun byte => (hexPairs rest).map (byte :: ·)
  | [] => some []
  | [_] => none

/-- `parse_uuid`. -/
def parseUuid (text : String) : Option (List UInt8) :=
  let hex := text.toList.filter fun c => c ≠ '-'
  if (hex.map Char.utf8Size).sum = 32 then hexPairs hex else none

/-- A server's bytes, with its intervals. -/
def entryBytes (raw : List UInt8) (intervals : List (ℕ × ℕ)) : List UInt8 :=
  raw ++ (Encoding.toLittleEndian 8 intervals.length ++ intervals.flatMap fun r =>
    Encoding.toLittleEndian 8 r.1 ++ Encoding.toLittleEndian 8 (nextGno r.2))

/-- What is sent of a server. -/
def encodeEntry (e : String × List (ℕ × ℕ)) : Option (List UInt8) :=
  (parseUuid e.1).map fun raw => entryBytes raw e.2

/-- `encode`. -/
def encode (set : MySqlGtidSet) : Option (List UInt8) :=
  (set.uuids.entries.mapM encodeEntry).map fun blocks =>
    Encoding.toLittleEndian 8 set.uuids.entries.length ++ blocks.flatten

end MySqlGtidSet

/-! ## What merging keeps -/

/-- Intervals of numbers that a server gives. -/
def Numbers (l : List (ℕ × ℕ)) : Prop :=
  ∀ r ∈ l, r.2 < 2 ^ 63

variable {l left right front : List (ℕ × ℕ)} {prev r : ℕ × ℕ} {gno n : ℕ}

theorem nextGno_of_lt (h : gno < 2 ^ 63) : nextGno gno = gno + 1 := by
  rw [nextGno, Nat.mod_eq_of_lt (by omega)]

theorem Numbers.append_left (h : Numbers (left ++ right)) : Numbers left :=
  fun r hr => h r (List.mem_append_left _ hr)

theorem Numbers.append_right (h : Numbers (left ++ right)) : Numbers right :=
  fun r hr => h r (List.mem_append_right _ hr)

theorem numbers_append : Numbers (left ++ right) ↔ Numbers left ∧ Numbers right :=
  List.forall_mem_append

theorem numbers_cons : Numbers (r :: l) ↔ r.2 < 2 ^ 63 ∧ Numbers l :=
  List.forall_mem_cons

theorem joinLast_append (front : List (ℕ × ℕ)) (h : prev.2 < 2 ^ 63) (r : ℕ × ℕ) :
    joinLast (front ++ [prev]) r =
      if r.1 ≤ prev.2 + 1 then front ++ [(prev.1, max prev.2 r.2)] else front ++ [prev] ++ [r] := by
  rw [joinLast, List.getLast?_append, List.getLast?_singleton, List.dropLast_concat]
  simp only [Option.some_or, nextGno_of_lt h]

open Intervals in
/-- Joining one interval behind others in order leaves them in order. -/
theorem joinLast_spec (hfront : Canonical (front ++ [prev])) (hnumbers : Numbers (front ++ [prev]))
    (hprev : prev.1 ≤ r.1) (hr : r.1 ≤ r.2) (hmax : r.2 < 2 ^ 63) :
    ∃ front' prev', joinLast (front ++ [prev]) r = front' ++ [prev'] ∧
      Canonical (front' ++ [prev']) ∧ Numbers (front' ++ [prev']) ∧ prev'.1 ≤ r.1 ∧
      ∀ n, Covers (front' ++ [prev']) n ↔ Covers (front ++ [prev]) n ∨ (r.1 ≤ n ∧ n ≤ r.2) := by
  obtain ⟨hbefore, hsingle, hacross⟩ := canonical_append.mp hfront
  have hvalid : prev.1 ≤ prev.2 := hsingle.nonempty prev List.mem_cons_self
  have hprevmax : prev.2 < 2 ^ 63 := hnumbers prev (List.mem_append_right _ List.mem_cons_self)
  rw [joinLast_append front hprevmax]
  by_cases hreach : r.1 ≤ prev.2 + 1
  · refine ⟨front, (prev.1, max prev.2 r.2), if_pos hreach, canonical_append.mpr ⟨hbefore,
      canonical_cons.mpr ⟨?_, fun b hb => absurd hb List.not_mem_nil, .nil⟩, ?_⟩, ?_, hprev, ?_⟩
    · exact le_trans hvalid (le_max_left _ _)
    · rintro a ha b hb
      rw [List.mem_singleton.mp hb]
      exact hacross a ha prev List.mem_cons_self
    · refine numbers_append.mpr ⟨hnumbers.append_left, numbers_cons.mpr ⟨?_, ?_⟩⟩
      · exact max_lt hprevmax hmax
      · exact fun b hb => absurd hb List.not_mem_nil
    · intro n
      rw [covers_append, covers_append, covers_singleton, covers_singleton]
      have : prev.1 ≤ n ∧ n ≤ max prev.2 r.2 ↔
          (prev.1 ≤ n ∧ n ≤ prev.2) ∨ (r.1 ≤ n ∧ n ≤ r.2) := by omega
      rw [this, or_assoc]
  · refine ⟨front ++ [prev], r, if_neg hreach, canonical_append.mpr ⟨hfront,
      canonical_cons.mpr ⟨hr, fun b hb => absurd hb List.not_mem_nil, .nil⟩, ?_⟩, ?_, le_refl _, ?_⟩
    · intro a ha b hb
      rw [List.mem_singleton.mp hb]
      exact hfront.lt_of_last (by omega) a ha
    · exact numbers_append.mpr ⟨hnumbers,
        numbers_cons.mpr ⟨hmax, fun b hb => absurd hb List.not_mem_nil⟩⟩
    · intro n
      rw [covers_append, covers_singleton]

open Intervals in
/-- A run of `joinLast`, from intervals in order. -/
theorem foldl_joinLast (hfront : Canonical (front ++ [prev]))
    (hnumbers : Numbers (front ++ [prev])) (hsorted : l.Pairwise fun a b => a.1 ≤ b.1)
    (hprev : ∀ r ∈ l, prev.1 ≤ r.1) (hvalid : ∀ r ∈ l, r.1 ≤ r.2) (hmax : Numbers l) :
    Canonical (l.foldl joinLast (front ++ [prev])) ∧ Numbers (l.foldl joinLast (front ++ [prev])) ∧
      ∀ n, Covers (l.foldl joinLast (front ++ [prev])) n ↔
        Covers (front ++ [prev]) n ∨ Covers l n := by
  induction l generalizing front prev with
  | nil => exact ⟨hfront, hnumbers, fun n => (or_iff_left not_covers_nil).symm⟩
  | cons r l ih =>
    obtain ⟨hfirst, hsorted⟩ := List.pairwise_cons.mp hsorted
    obtain ⟨hr, hvalid⟩ := List.forall_mem_cons.mp hvalid
    obtain ⟨hrmax, hmax⟩ := numbers_cons.mp hmax
    obtain ⟨front', prev', hjoin, hcanonical, hnumbers', hprev', hcovers⟩ :=
      joinLast_spec hfront hnumbers (hprev r List.mem_cons_self) hr hrmax
    rw [List.foldl_cons, hjoin]
    obtain ⟨hout, houtmax, hcovered⟩ := ih hcanonical hnumbers' hsorted
      (fun b hb => le_trans hprev' (hfirst b hb)) hvalid hmax
    refine ⟨hout, houtmax, fun n => ?_⟩
    rw [hcovered, hcovers, covers_cons, or_assoc]

open Intervals in
/-- **What `coalesce` makes of intervals in the order of their first numbers.** -/
theorem coalesce_spec (hsorted : l.Pairwise fun a b => a.1 ≤ b.1) (hvalid : ∀ r ∈ l, r.1 ≤ r.2)
    (hmax : Numbers l) :
    Canonical (coalesce l) ∧ Numbers (coalesce l) ∧ ∀ n, Covers (coalesce l) n ↔ Covers l n := by
  cases l with
  | nil => exact ⟨.nil, hmax, fun n => Iff.rfl⟩
  | cons r l =>
    obtain ⟨hfirst, hsorted⟩ := List.pairwise_cons.mp hsorted
    obtain ⟨hr, hvalid⟩ := List.forall_mem_cons.mp hvalid
    obtain ⟨hrmax, hmax⟩ := numbers_cons.mp hmax
    have hfront : Canonical ([] ++ [r]) :=
      canonical_cons.mpr ⟨hr, fun b hb => absurd hb List.not_mem_nil, .nil⟩
    obtain ⟨hout, houtmax, hcovers⟩ := foldl_joinLast hfront
      (numbers_cons.mpr ⟨hrmax, fun b hb => absurd hb List.not_mem_nil⟩)
      hsorted hfirst hvalid hmax
    refine ⟨hout, houtmax, fun n => ?_⟩
    rw [coalesce, List.foldl_cons]
    refine (hcovers n).trans ?_
    rw [List.nil_append, covers_singleton, covers_cons]

/-- A list in order is left as it is. -/
theorem coalesce_of_canonical (h : Intervals.Canonical l) (hmax : Numbers l) : coalesce l = l := by
  obtain ⟨hout, -, hcovers⟩ := coalesce_spec h.sorted h.nonempty hmax
  exact hout.ext h hcovers

/-! ## One number more -/

/-- What a server's intervals are after one of its transactions was added. -/
structure Added (l : List (ℕ × ℕ)) (gno : ℕ) (out : List (ℕ × ℕ)) : Prop where
  canonical : Intervals.Canonical out
  numbers : Numbers out
  covers : ∀ n, Intervals.Covers out n ↔ Intervals.Covers l n ∨ n = gno

open Intervals in
theorem Added.of_coalesce {out : List (ℕ × ℕ)} (hsorted : out.Pairwise fun a b => a.1 ≤ b.1)
    (hvalid : ∀ r ∈ out, r.1 ≤ r.2) (hmax : Numbers out)
    (hcovers : ∀ n, Covers out n ↔ Covers l n ∨ n = gno) : Added l gno (coalesce out) := by
  obtain ⟨hcanonical, hnumbers, hsame⟩ := coalesce_spec hsorted hvalid hmax
  exact ⟨hcanonical, hnumbers, fun n => (hsame n).trans (hcovers n)⟩

open Intervals in
theorem addRight_spec (h : Canonical (left ++ right)) (hnumbers : Numbers (left ++ right))
    (hgno : gno < 2 ^ 63) (hleft : ∀ a ∈ left, a.2 + 1 < gno) (hright : ∀ b ∈ right, gno < b.1) :
    Added (left ++ right) gno (addRight left right gno) := by
  obtain ⟨hcl, hcr, hacross⟩ := canonical_append.mp h
  have hone : Canonical [(gno, gno)] :=
    canonical_cons.mpr ⟨le_refl _, fun b hb => absurd hb List.not_mem_nil, .nil⟩
  cases right with
  | nil =>
    refine ⟨canonical_append.mpr ⟨hcl, hone, fun a ha b hb => ?_⟩, numbers_append.mpr
      ⟨hnumbers.append_left, numbers_cons.mpr ⟨hgno, hnumbers.append_right⟩⟩, fun n => ?_⟩
    · rw [List.mem_singleton.mp hb]
      exact hleft a ha
    · rw [addRight, covers_append, covers_singleton, List.append_nil]
      exact or_congr_right ⟨fun h => le_antisymm h.2 h.1, fun h => ⟨h.ge, h.le⟩⟩
  | cons next rest =>
    obtain ⟨start, last⟩ := next
    obtain ⟨hvalid, hfirst, hrest⟩ := canonical_cons.mp hcr
    have hstart : gno < start := hright _ List.mem_cons_self
    rw [addRight, nextGno_of_lt hgno]
    split
    · next hmeets =>
      have hjoined : Canonical (left ++ (gno, last) :: rest) := by
        refine canonical_append.mpr ⟨hcl, canonical_cons.mpr ⟨by omega, hfirst, hrest⟩, ?_⟩
        rintro a ha b hb
        rcases List.mem_cons.mp hb with rfl | hb
        · exact hleft a ha
        · exact hacross a ha b (List.mem_cons_of_mem _ hb)
      obtain ⟨hlastmax, hrestmax⟩ := numbers_cons.mp hnumbers.append_right
      refine .of_coalesce hjoined.sorted hjoined.nonempty
        (numbers_append.mpr ⟨hnumbers.append_left, numbers_cons.mpr ⟨hlastmax, hrestmax⟩⟩)
        fun n => ?_
      rw [covers_append, covers_append, covers_cons, covers_cons]
      have : gno ≤ n ∧ n ≤ last ↔ (start ≤ n ∧ n ≤ last) ∨ n = gno := by omega
      rw [this]
      tauto
    · next hmisses =>
      refine ⟨canonical_append.mpr ⟨hcl, canonical_cons.mpr ⟨le_refl _, ?_, hcr⟩, ?_⟩, ?_,
        fun n => ?_⟩
      · exact hcr.lt_of_first (by simp only; omega)
      · intro a ha b hb
        rcases List.mem_cons.mp hb with rfl | hb
        · exact hleft a ha
        · exact hacross a ha b hb
      · exact numbers_append.mpr ⟨hnumbers.append_left,
          numbers_cons.mpr ⟨hgno, hnumbers.append_right⟩⟩
      · rw [covers_append, covers_append, covers_cons]
        have : gno ≤ n ∧ n ≤ gno ↔ n = gno := by omega
        simp only [this]
        tauto

open Intervals in
theorem addBetween_spec (h : Canonical (left ++ right)) (hnumbers : Numbers (left ++ right))
    (hgno : gno < 2 ^ 63) (hleft : ∀ a ∈ left, a.1 ≤ gno) (hright : ∀ b ∈ right, gno < b.1) :
    Added (left ++ right) gno (addBetween left right gno) := by
  rcases List.eq_nil_or_concat' left with rfl | ⟨front, ⟨start, last⟩, rfl⟩
  · exact addRight_spec h hnumbers hgno (fun a ha => absurd ha List.not_mem_nil) hright
  · obtain ⟨hcl, hcr, hacross⟩ := canonical_append.mp h
    obtain ⟨hcf, hsingle, hfront⟩ := canonical_append.mp hcl
    have hvalid : start ≤ last := hsingle.nonempty _ List.mem_cons_self
    have hbegun : start ≤ gno := hleft (start, last) (List.mem_append_right _ List.mem_cons_self)
    have hlastmax : last < 2 ^ 63 :=
      hnumbers.append_left (start, last) (List.mem_append_right _ List.mem_cons_self)
    rw [addBetween, List.getLast?_append, List.getLast?_singleton]
    simp only [Option.some_or, nextGno_of_lt hlastmax, List.dropLast_concat]
    split
    · next hin =>
      refine ⟨h, hnumbers, fun n => (or_iff_left_of_imp ?_).symm⟩
      rintro rfl
      exact covers_append.mpr (.inl (covers_append.mpr (.inr (covers_singleton.mpr hin))))
    · next hout =>
      split
      · next hmeets =>
        refine .of_coalesce ?_ ?_ ?_ fun n => ?_
        · refine List.pairwise_append.mpr ⟨hcf.sorted, List.pairwise_cons.mpr ⟨?_, hcr.sorted⟩, ?_⟩
          · exact fun b hb => by
              have := hright b hb
              simp only
              omega
          · intro a ha b hb
            rcases List.mem_cons.mp hb with rfl | hb
            · have := hfront a ha (start, last) List.mem_cons_self
              have := hcf.nonempty a ha
              simp only at *
              omega
            · have := hleft a (List.mem_append_left _ ha)
              have := hright b hb
              omega
        · refine List.forall_mem_append.mpr ⟨hcf.nonempty, List.forall_mem_cons.mpr
            ⟨hbegun, hcr.nonempty⟩⟩
        · exact numbers_append.mpr ⟨hnumbers.append_left.append_left,
            numbers_cons.mpr ⟨hgno, hnumbers.append_right⟩⟩
        · rw [covers_append, covers_cons, covers_append, covers_append, covers_singleton]
          have : start ≤ n ∧ n ≤ gno ↔ (start ≤ n ∧ n ≤ last) ∨ n = gno := by omega
          rw [this]
          tauto
      · next hmisses =>
        refine addRight_spec h hnumbers hgno (hcl.lt_of_last ?_) hright
        simp only
        omega

open Intervals in
/-- **One number more**: the intervals are in order as before, and have the number beside what
they had. -/
theorem addNumber_spec (h : Canonical l) (hnumbers : Numbers l) (hgno : gno < 2 ^ 63) :
    Added l gno (addNumber l gno) := by
  have hsplit : Added l gno (addBetween (l.takeWhile fun r => decide (r.1 ≤ gno))
      (l.dropWhile fun r => decide (r.1 ≤ gno)) gno) := by
    have happend := List.takeWhile_append_dropWhile (p := fun r => decide (r.1 ≤ gno)) (l := l)
    have hcanonical : Canonical ((l.takeWhile fun r => decide (r.1 ≤ gno)) ++
        l.dropWhile fun r => decide (r.1 ≤ gno)) := happend.symm ▸ h
    have := addBetween_spec hcanonical (happend.symm ▸ hnumbers) hgno
      (fun a ha => of_decide_eq_true (List.mem_takeWhile_imp ha :))
      (fun b hb => h.lt_of_mem_dropWhile hb)
    rwa [happend] at this
  rcases List.eq_nil_or_concat' l with rfl | ⟨front, ⟨start, last⟩, rfl⟩
  · exact hsplit
  · obtain ⟨hfront, hsingle, hacross⟩ := canonical_append.mp h
    have hvalid : start ≤ last := hsingle.nonempty _ List.mem_cons_self
    have hlastmax : last < 2 ^ 63 :=
      hnumbers (start, last) (List.mem_append_right _ List.mem_cons_self)
    rw [addNumber, List.getLast?_append, List.getLast?_singleton]
    simp only [Option.some_or, nextGno_of_lt hlastmax, List.dropLast_concat]
    split
    · next hmeets =>
      refine ⟨canonical_append.mpr ⟨hfront, canonical_cons.mpr ⟨by omega, fun b hb => absurd hb
        List.not_mem_nil, .nil⟩, ?_⟩, numbers_append.mpr ⟨hnumbers.append_left,
        numbers_cons.mpr ⟨hgno, fun b hb => absurd hb List.not_mem_nil⟩⟩, fun n => ?_⟩
      · intro a ha b hb
        rw [List.mem_singleton.mp hb]
        exact hacross a ha (start, last) List.mem_cons_self
      · rw [covers_append, covers_append, covers_singleton, covers_singleton, or_assoc]
        have : start ≤ n ∧ n ≤ gno ↔ (start ≤ n ∧ n ≤ last) ∨ n = gno := by omega
        rw [this]
    · exact hsplit

/-! ## Sets made by additions -/

namespace MySqlGtidSet

/-- What every set is that additions made. -/
structure Proper (set : MySqlGtidSet) : Prop where
  /-- every server's intervals are in order -/
  canonical : ∀ uuid, Intervals.Canonical (set.intervals uuid)
  /-- they are of numbers that a server gives -/
  numbers : ∀ uuid, Numbers (set.intervals uuid)
  /-- a server that has an entry has an interval -/
  nonempty : ∀ uuid, set.uuids.get? uuid ≠ some []

variable {set set' : MySqlGtidSet} {uuid : String}

theorem Proper.of_empty : Proper empty where
  canonical _ := .nil
  numbers _ _ hr := absurd hr List.not_mem_nil
  nonempty _ h := by cases h

theorem intervals_add (set : MySqlGtidSet) (uuid : String) (gno : ℕ) (other : String) :
    (set.add uuid gno).intervals other =
      if uuid = other then addNumber (set.intervals uuid) gno else set.intervals other := by
  rw [intervals, add, Dictionary.get?_insert]
  split
  · rfl
  · rfl

/-- One addition: the set stays in order, and has one transaction more. -/
theorem Proper.add (h : set.Proper) (uuid : String) (hgno : gno < 2 ^ 63) :
    (set.add uuid gno).Proper ∧ ∀ other n, (set.add uuid gno).Has other n ↔
      set.Has other n ∨ (other = uuid ∧ n = gno) := by
  have hadded := addNumber_spec (h.canonical uuid) (h.numbers uuid) hgno
  have hcovers := hadded.covers gno
  refine ⟨⟨fun other => ?_, fun other => ?_, fun other => ?_⟩, fun other n => ?_⟩
  · rw [intervals_add]
    split
    · exact hadded.canonical
    · exact h.canonical other
  · rw [intervals_add]
    split
    · exact hadded.numbers
    · exact h.numbers other
  · rw [MySqlGtidSet.add, Dictionary.get?_insert]
    split
    · intro hnil
      rw [Option.some.inj hnil] at hcovers
      exact absurd (hcovers.mpr (.inr rfl)) Intervals.not_covers_nil
    · exact h.nonempty other
  · rw [Has, intervals_add]
    split
    · next hsame =>
      subst hsame
      rw [hadded.covers]
      simp only [Has, true_and]
    · next hother =>
      exact (or_iff_left fun hboth => hother hboth.1.symm).symm

/-- **A run of additions.** -/
theorem Proper.addAll (h : set.Proper) {transactions : List (String × ℕ)}
    (hgnos : ∀ t ∈ transactions, t.2 < 2 ^ 63) : (set.addAll transactions).Proper ∧
      ∀ uuid n, (set.addAll transactions).Has uuid n ↔
        set.Has uuid n ∨ (uuid, n) ∈ transactions := by
  induction transactions generalizing set with
  | nil => exact ⟨h, fun uuid n => (or_iff_left List.not_mem_nil).symm⟩
  | cons t transactions ih =>
    obtain ⟨hgno, hgnos⟩ := List.forall_mem_cons.mp hgnos
    obtain ⟨hproper, hhas⟩ := h.add t.1 hgno
    obtain ⟨hout, hmembers⟩ := ih hproper hgnos
    refine ⟨hout, fun uuid n => ?_⟩
    refine (hmembers uuid n).trans ?_
    rw [hhas, List.mem_cons, or_assoc, Prod.ext_iff]

theorem Proper.intervals_eq_nil (h : set.Proper) :
    set.intervals uuid = [] ↔ set.uuids.get? uuid = none := by
  rw [intervals]
  constructor
  · intro hnil
    cases hget : set.uuids.get? uuid with
    | none => rfl
    | some l =>
      rw [hget] at hnil
      exact absurd (hget.trans (congrArg some hnil)) (h.nonempty uuid)
  · intro hnone
    rw [hnone]
    rfl

/-- **There is one set of the same transactions.** -/
theorem Proper.ext (h : set.Proper) (h' : set'.Proper)
    (hsame : ∀ uuid n, set.Has uuid n ↔ set'.Has uuid n) : set = set' := by
  have hintervals : ∀ uuid, set.intervals uuid = set'.intervals uuid := fun uuid =>
    (h.canonical uuid).ext (h'.canonical uuid) (hsame uuid)
  have huuids : set.uuids = set'.uuids := Dictionary.ext_get? fun uuid => by
    have hboth := hintervals uuid
    cases hget : set.uuids.get? uuid with
    | none =>
      rw [h.intervals_eq_nil.mpr hget] at hboth
      exact (h'.intervals_eq_nil.mp hboth.symm).symm
    | some l =>
      cases hget' : set'.uuids.get? uuid with
      | none =>
        rw [h'.intervals_eq_nil.mpr hget'] at hboth
        exact absurd (h.intervals_eq_nil.mp hboth) (hget ▸ Option.some_ne_none l)
      | some l' =>
        rw [intervals, intervals, hget, hget'] at hboth
        exact congrArg some hboth
  cases set
  cases set'
  exact congrArg MySqlGtidSet.mk huuids

end MySqlGtidSet

end MySql

end Pg2osync
