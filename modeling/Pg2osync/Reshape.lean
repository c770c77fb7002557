import Pg2osync.Completion
import Pg2osync.NumberText
import Pg2osync.TypeMap

/-!
# Values that are reshaped

A `json` rule puts the document that a text holds in its place, a `split` rule the pieces of a
delimited text, a `number` rule the number that a text denotes. A value that already has the shape
is left alone, so a document that is reshaped again should stay as it is.

A number that is no integer of 64 bits is kept as the nearest double, whatever its digits: it is
the number of the text only if that is the shortest decimal of the double. And a text may hold a
document that is a text itself, which the rule takes for one that holds a document.
-/

namespace Pg2osync

open Json Double

/-! ## The pieces of a text -/

theorem splitText_ne_nil (separator : List Char) (fuel : ℕ) (piece rest : List Char) :
    splitText separator fuel piece rest ≠ [] := by
  induction fuel generalizing piece rest with
  | zero => exact List.cons_ne_nil _ _
  | succ fuel ih =>
    cases rest with
    | nil => exact List.cons_ne_nil _ _
    | cons c rest =>
      rw [splitText]
      split
      · exact List.cons_ne_nil _ _
      · exact ih _ _

/-- The pieces with the separator between them are the text. -/
theorem intercalate_splitText (separator : List Char) (fuel : ℕ) (piece rest : List Char) :
    separator.intercalate (splitText separator fuel piece rest) = piece ++ rest := by
  induction fuel generalizing piece rest with
  | zero => simp [splitText, List.intercalate]
  | succ fuel ih =>
    cases rest with
    | nil => simp [splitText, List.intercalate]
    | cons c rest =>
      rw [splitText]
      split
      · next hpre =>
        obtain ⟨tail, htail⟩ := List.isPrefixOf_iff_prefix.mp hpre
        have hnext := ih [] ((c :: rest).drop separator.length)
        cases hpieces : splitText separator fuel [] ((c :: rest).drop separator.length) with
        | nil => exact absurd hpieces (splitText_ne_nil _ _ _ _)
        | cons next more =>
          have hdrop : (c :: rest).drop separator.length = tail := by
            rw [← htail, List.drop_left]
          rw [hpieces, hdrop, List.nil_append] at hnext
          rw [List.intercalate_cons_cons, hnext, List.append_assoc, htail]
      · rw [ih]
        simp

/-- No piece has the separator in it. -/
theorem not_infix_of_mem_splitText {separator : List Char} (hne : separator ≠ []) {fuel : ℕ}
    {piece rest : List Char} (hfuel : rest.length ≤ fuel)
    (hpiece : ∀ u, u <:+ piece → u ≠ [] → ¬separator <+: u ++ rest) :
    ∀ part ∈ splitText separator fuel piece rest, ¬separator <:+: part := by
  have hclosed : ∀ {piece rest : List Char},
      (∀ u, u <:+ piece → u ≠ [] → ¬separator <+: u ++ rest) → ¬separator <:+: piece := by
    rintro piece rest h ⟨before, after, rfl⟩
    refine h (separator ++ after) ⟨before, by simp⟩ (by simp [hne]) ⟨after ++ rest, by simp⟩
  induction fuel generalizing piece rest with
  | zero =>
    obtain rfl := List.eq_nil_of_length_eq_zero (Nat.le_zero.mp hfuel)
    intro part hpart
    rw [splitText, List.append_nil, List.mem_singleton] at hpart
    exact hpart ▸ hclosed hpiece
  | succ fuel ih =>
    cases rest with
    | nil =>
      intro part hpart
      rw [splitText, List.mem_singleton] at hpart
      exact hpart ▸ hclosed hpiece
    | cons c rest =>
      rw [List.length_cons] at hfuel
      rw [splitText]
      split
      · intro part hpart
        obtain rfl | hpart := List.mem_cons.mp hpart
        · exact hclosed hpiece
        · refine ih ?_ ?_ part hpart
          · have := List.length_pos_of_ne_nil hne
            rw [List.length_drop, List.length_cons]
            omega
          · intro u hu hu'
            exact absurd (List.suffix_nil.mp hu) hu'
      · next hpre =>
        refine ih (by omega) ?_
        intro u hu hu' hsep
        -- a separator that begins in the piece is where the scan has been
        obtain rfl | ⟨u', rfl, hu''⟩ : u = [] ∨ ∃ u', u = u' ++ [c] ∧ u' <:+ piece := by
          obtain ⟨front, hfront⟩ := hu
          cases u using List.reverseRecOn with
          | nil => exact .inl rfl
          | append_singleton u' d =>
            rw [← List.append_assoc] at hfront
            obtain ⟨hbefore, hd⟩ := List.append_inj' hfront rfl
            obtain rfl := List.singleton_inj.mp hd
            exact .inr ⟨u', rfl, front, hbefore⟩
        · exact hu' rfl
        · rw [List.append_assoc, List.singleton_append] at hsep
          by_cases hnil : u' = []
          · subst hnil
            exact hpre (List.isPrefixOf_iff_prefix.mpr hsep)
          · exact hpiece u' hu'' hnil hsep

/-! ## Documents that are read -/

/-- What reads and prints JSON. -/
structure SerdeJson : Type where
  /-- the document that a text encodes, with its numbers as they are written -/
  document : String → Option Json
  /-- the double that the text of a number is read as -/
  float : String → Option ℤ
  /-- the text of a double -/
  print : ℤ → String
  /-- a text in quotes is shorter than its quotes -/
  quoted : ∀ s t, document s = some (.str t) → t.length < s.length
  /-- zero is read as it is -/
  zero : ∀ text units, float text = some units → Double.textValue text.toList = some 0 → units = 0
  /-- a double is printed as its shortest decimal -/
  printed : ∀ units, Double.textValue (print units).toList =
    some (Double.toDecimal (.finite units)).value

/-- The number that a value is. -/
def Json.number : Json → Option ℚ
  | .int n => some n
  | .float text => Double.textValue text.toList
  | _ => none

namespace SerdeJson

variable (serde : SerdeJson)

/-- A number as it is held: in 64 bits, or as a double. -/
def heldInt (n : ℤ) : Option Json :=
  if -2 ^ 63 ≤ n ∧ n < 2 ^ 64 then some (.int n)
  else (serde.float (toString n)).map fun units => .float (serde.print units)

mutual

/-- A document with its numbers as they are held. -/
def held : Json → Option Json
  | .null => some .null
  | .bool b => some (.bool b)
  | .int n => serde.heldInt n
  | .float text => (serde.float text).map fun units => .float (serde.print units)
  | .str s => some (.str s)
  | .arr items => (heldItems items).map .arr
  | .obj fields => (heldFields fields).map .obj

def heldItems : List Json → Option (List Json)
  | [] => some []
  | x :: rest => (held x).bind fun x => (heldItems rest).map (x :: ·)

def heldFields : List (String × Json) → Option (List (String × Json))
  | [] => some []
  | (key, x) :: rest => (held x).bind fun x => (heldFields rest).map ((key, x) :: ·)

end

/-- `serde_json::from_str`. -/
def fromStr (s : String) : Option Json :=
  (serde.document s).bind serde.held

/-- A number is held without loss. -/
def KeepsFloat (text : String) : Prop :=
  ∃ units q, serde.float text = some units ∧ Double.textValue text.toList = some q ∧
    Double.IsShortest units q

mutual

/-- Every number of a document is held without loss. -/
def Keeps : Json → Prop
  | .int n => (-2 ^ 63 ≤ n ∧ n < 2 ^ 64) ∨ serde.KeepsFloat (toString n)
  | .float text => serde.KeepsFloat text
  | .arr items => KeepsItems items
  | .obj fields => KeepsFields fields
  | .null | .bool _ | .str _ => True

def KeepsItems : List Json → Prop
  | [] => True
  | x :: rest => Keeps x ∧ KeepsItems rest

def KeepsFields : List (String × Json) → Prop
  | [] => True
  | (_, x) :: rest => Keeps x ∧ KeepsFields rest

end

end SerdeJson

mutual

/-- Two documents have the same data: their numbers are equal, however they are written. -/
def Json.Same : Json → Json → Prop
  | .null, .null => True
  | .bool a, .bool b => a = b
  | .str a, .str b => a = b
  | .arr xs, .arr ys => Json.SameItems xs ys
  | .obj xs, .obj ys => Json.SameFields xs ys
  | a, b => a.number.isSome ∧ a.number = b.number

def Json.SameItems : List Json → List Json → Prop
  | [], [] => True
  | x :: xs, y :: ys => Json.Same x y ∧ Json.SameItems xs ys
  | _, _ => False

def Json.SameFields : List (String × Json) → List (String × Json) → Prop
  | [], [] => True
  | (k, x) :: xs, (l, y) :: ys => k = l ∧ Json.Same x y ∧ Json.SameFields xs ys
  | _, _ => False

end

namespace SerdeJson

variable (serde : SerdeJson)

/-! ### What is held has the same data -/

/-- A number that is read as a double is held without loss if it is its shortest decimal. -/
theorem number_print_iff {text : String} {units : ℤ} (h : serde.float text = some units) :
    ((textValue text.toList).isSome ∧
      textValue text.toList = textValue (serde.print units).toList) ↔
    serde.KeepsFloat text := by
  rw [serde.printed]
  constructor
  · rintro ⟨-, hvalue⟩
    have hzero : (toDecimal (.finite units)).value = 0 → units = 0 := fun h0 =>
      serde.zero text units h (h0 ▸ hvalue)
    exact ⟨units, _, h, hvalue, (value_toDecimal_iff hzero).mp rfl⟩
  · rintro ⟨units', q, hread, hvalue, hshortest⟩
    obtain rfl := Option.some.inj (h.symm.trans hread)
    have hzero : q = 0 → units = 0 := fun h0 => serde.zero text units h (h0 ▸ hvalue)
    rw [hvalue, (value_toDecimal_iff hzero).mpr hshortest]
    exact ⟨rfl, rfl⟩

mutual

/-- **What is held has the same data** if every number is held without loss. -/
theorem same_held_iff (doc : Json) {held : Json} (h : serde.held doc = some held) :
    doc.Same held ↔ serde.Keeps doc := by
  match doc with
  | .null | .bool _ | .str _ =>
    rw [SerdeJson.held] at h
    cases h
    simp [Json.Same, SerdeJson.Keeps]
  | .int n =>
    rw [SerdeJson.held, heldInt] at h
    rw [SerdeJson.Keeps]
    split at h
    · next hrange =>
      cases h
      exact iff_of_true ⟨rfl, rfl⟩ (.inl hrange)
    · next hrange =>
      obtain ⟨units, hunits, rfl⟩ := Option.map_eq_some_iff.mp h
      rw [or_iff_right hrange, ← serde.number_print_iff hunits]
      have hvalue : textValue (toString n).toList = some (n : ℚ) := by
        rw [Encoding.toList_toString]
        exact textValue_of_readInt (Encoding.readInt_printInt n)
      rw [hvalue]
      exact Iff.rfl
  | .float text =>
    rw [SerdeJson.held] at h
    obtain ⟨units, hunits, rfl⟩ := Option.map_eq_some_iff.mp h
    rw [SerdeJson.Keeps, ← serde.number_print_iff hunits]
    exact Iff.rfl
  | .arr items =>
    rw [SerdeJson.held] at h
    obtain ⟨items', hitems, rfl⟩ := Option.map_eq_some_iff.mp h
    rw [Json.Same, SerdeJson.Keeps]
    exact same_heldItems_iff items hitems
  | .obj fields =>
    rw [SerdeJson.held] at h
    obtain ⟨fields', hfields, rfl⟩ := Option.map_eq_some_iff.mp h
    rw [Json.Same, SerdeJson.Keeps]
    exact same_heldFields_iff fields hfields

theorem same_heldItems_iff (items : List Json) {held : List Json}
    (h : serde.heldItems items = some held) : Json.SameItems items held ↔ serde.KeepsItems items := by
  match items with
  | [] =>
    cases h
    exact Iff.rfl
  | x :: rest =>
    rw [SerdeJson.heldItems] at h
    obtain ⟨x', hx, h⟩ := Option.bind_eq_some_iff.mp h
    obtain ⟨rest', hrest, rfl⟩ := Option.map_eq_some_iff.mp h
    rw [Json.SameItems, SerdeJson.KeepsItems, same_held_iff x hx, same_heldItems_iff rest hrest]

theorem same_heldFields_iff (fields : List (String × Json)) {held : List (String × Json)}
    (h : serde.heldFields fields = some held) :
    Json.SameFields fields held ↔ serde.KeepsFields fields := by
  match fields with
  | [] =>
    cases h
    exact Iff.rfl
  | (key, x) :: rest =>
    rw [SerdeJson.heldFields] at h
    obtain ⟨x', hx, h⟩ := Option.bind_eq_some_iff.mp h
    obtain ⟨rest', hrest, rfl⟩ := Option.map_eq_some_iff.mp h
    rw [Json.SameFields, SerdeJson.KeepsFields, same_held_iff x hx, same_heldFields_iff rest hrest]
    exact and_iff_right rfl

end

/-- A text in quotes is not held as itself. -/
theorem fromStr_ne_self (s : String) : serde.fromStr s ≠ some (.str s) := by
  intro h
  obtain ⟨doc, hdoc, hheld⟩ := Option.bind_eq_some_iff.mp h
  cases doc with
  | null | bool b =>
    rw [SerdeJson.held] at hheld
    cases hheld
  | str t =>
    rw [SerdeJson.held] at hheld
    cases hheld
    exact absurd (serde.quoted s s hdoc) (Nat.lt_irrefl _)
  | int n =>
    rw [SerdeJson.held, heldInt] at hheld
    split at hheld
    · cases hheld
    · obtain ⟨_, -, h⟩ := Option.map_eq_some_iff.mp hheld
      cases h
  | float text | arr items | obj fields =>
    rw [SerdeJson.held] at hheld
    obtain ⟨_, -, h⟩ := Option.map_eq_some_iff.mp hheld
    cases h

end SerdeJson

/-! ## Rules -/

/-- A rule that reshapes a value. -/
inductive Reshape : Type where
  /-- a text that holds a document -/
  | json : Reshape
  /-- a delimited text -/
  | split (by_ : String) (nonempty : by_ ≠ "") : Reshape
  /-- a text that holds a number -/
  | number : Reshape
  deriving DecidableEq

namespace Reshape

variable (serde : SerdeJson)

/-- The number that a text is converted to: an integer first, else a double that is finite. -/
def readNumber (text : String) : Option Json :=
  match TypeMap.parseI64 text with
  | some i => some (.int i)
  | none =>
    match Double.read text.toList with
    | some (.finite units) => some (.float (serde.print units))
    | _ => none

/-- `apply_op`, of a rule that reshapes. -/
def applyOp : Reshape → Json → Applied
  | .json, .str s => (serde.fromStr s).elim .unconvertible .converted
  | .json, _ => .alreadyShaped
  | .split by_ _, .str s => .converted (.arr (delimited by_ s))
  | .split _ _, .arr _ => .alreadyShaped
  | .split _ _, _ => .unconvertible
  | .number, .str s =>
    (readNumber serde (String.ofList (trim s.toList))).elim .unconvertible .converted
  | .number, .int _ | .number, .float _ => .alreadyShaped
  | .number, _ => .unconvertible

/-- What stands for a value in a rule's shape has its data: the number of the text, the document
that it encodes, its pieces without the blanks around them. What has the shape stands for
itself. -/
def Denotes : Reshape → Json → Json → Prop
  | .json, .str s, new => ∃ doc, serde.document s = some doc ∧ doc.Same new
  | .json, v, new => new = v
  | .split by_ _, .str s, new => ∃ parts : List (List Char),
      by_.toList.intercalate parts = s.toList ∧ (∀ part ∈ parts, ¬by_.toList <:+: part) ∧
      new = .arr (((parts.map trim).filter (· ≠ [])).map fun part => .str (String.ofList part))
  | .split _ _, .arr items, new => new = .arr items
  | .split _ _, _, _ => False
  | .number, .str s, new => ∃ q, Double.textValue (trim s.toList) = some q ∧ new.number = some q
  | .number, .int n, new => new = .int n
  | .number, .float text, new => new = .float text
  | .number, _, _ => False

/-- A value that a rule converts without loss, or not at all: a number that is an integer of 64
bits or the shortest decimal of its double; a document whose numbers are, and which is no text
itself. -/
def Exact : Reshape → Json → Prop
  | .json, .str s => ∀ doc, serde.document s = some doc → (serde.held doc).isSome →
      serde.Keeps doc ∧ doc.asStr = none
  | .number, .str s => (TypeMap.parseI64 (String.ofList (trim s.toList))).isSome ∨
      ∀ units q, Double.read (trim s.toList) = some (.finite units) →
        Double.textValue (trim s.toList) = some q → Double.IsShortest units q
  | _, _ => True

end Reshape

/-- The rules of a table that reshape: at most one for a column. -/
def ReshapeRules : Type :=
  { rules : List (String × Reshape) // (rules.map Prod.fst).Nodup }

namespace ReshapeRules

variable (serde : SerdeJson)

/-- The rules as transforms. -/
def transforms (rules : ReshapeRules) : TransformRules :=
  rules.1.map fun rule => (rule.1, rule.2.applyOp serde)

/-- `Transforms::apply_except`, with no column left alone. -/
def apply (rules : ReshapeRules) (doc : Json) : Json × List String :=
  (rules.transforms serde).applyExcept [] doc

/-- **A document survives its reshaping**: what is not left as it was and reported has its data,
nothing else changes, and the document stays as it is when it is reshaped again, with nothing new
to report. -/
structure Survives (rules : ReshapeRules) (doc : Json) : Prop where
  /-- a value that is not reported has its data -/
  faithful : ∀ rule ∈ rules.1, ∀ v, doc.get rule.1 = some v → v ≠ .null →
    ∃ new, (rules.apply serde doc).1.get rule.1 = some new ∧
      (rule.2.Denotes serde v new ∨ new = v ∧ rule.1 ∈ (rules.apply serde doc).2)
  /-- what no rule is about stays as it is, and what is null -/
  untouched : ∀ column, (column ∈ rules.1.map Prod.fst → doc.get column = some .null) →
    (rules.apply serde doc).1.get column = doc.get column
  /-- a document that is reshaped again is the same -/
  again : (rules.apply serde (rules.apply serde doc).1).1 = (rules.apply serde doc).1
  /-- and reports nothing new -/
  quiet : (rules.apply serde (rules.apply serde doc).1).2 ⊆ (rules.apply serde doc).2

end ReshapeRules

/-! ## One value -/

/-- Whether a transform's column is reported. -/
def Applied.reported : Applied → Bool
  | .unconvertible | .defaulted _ | .refused => true
  | .converted _ | .alreadyShaped => false

/-- What one transform does to a value: what stands in its place, and whether it is reported. -/
def stepOf (op : Json → Applied) (v : Json) : Json × Bool :=
  if v = .null then (v, false) else ((op v).over v, (op v).reported)

namespace Reshape

variable (serde : SerdeJson)

/-- A value survives a rule, and survives it again. -/
def Keeps (rule : Reshape) (v : Json) : Prop :=
  let once := stepOf (rule.applyOp serde) v
  let twice := stepOf (rule.applyOp serde) once.1
  (rule.Denotes serde v once.1 ∨ once.1 = v ∧ once.2 = true) ∧ twice.1 = once.1 ∧
    (twice.2 = true → once.2 = true)

variable {serde} {rule : Reshape} {v : Json}

/-- A value that is left and reported survives. -/
theorem keeps_of_unconvertible (hne : v ≠ .null) (h : rule.applyOp serde v = .unconvertible) :
    rule.Keeps serde v := by
  have hstep : stepOf (rule.applyOp serde) v = (v, true) := by
    rw [stepOf, if_neg hne, h]
    rfl
  simp only [Keeps, hstep]
  exact ⟨.inr ⟨trivial, trivial⟩, trivial, id⟩

/-- A value that has the shape survives, if it stands for itself. -/
theorem keeps_of_alreadyShaped (hne : v ≠ .null) (h : rule.applyOp serde v = .alreadyShaped)
    (hdenotes : rule.Denotes serde v v) : rule.Keeps serde v := by
  have hstep : stepOf (rule.applyOp serde) v = (v, false) := by
    rw [stepOf, if_neg hne, h]
    rfl
  simp only [Keeps, hstep]
  exact ⟨.inl hdenotes, trivial, id⟩

/-- A value that is converted to one that has the shape survives if that has its data. -/
theorem keeps_converted_iff {v new : Json} (hne : v ≠ .null)
    (h : rule.applyOp serde v = .converted new)
    (hshaped : new ≠ .null → rule.applyOp serde new = .alreadyShaped) (hother : new ≠ v) :
    rule.Keeps serde v ↔ rule.Denotes serde v new := by
  have hstep : stepOf (rule.applyOp serde) v = (new, false) := by
    rw [stepOf, if_neg hne, h]
    rfl
  have hnext : stepOf (rule.applyOp serde) new = (new, false) := by
    rw [stepOf]
    split
    · rfl
    · next hnull =>
      rw [hshaped hnull]
      rfl
  simp only [Keeps, hstep, hnext]
  constructor
  · rintro ⟨h | ⟨h, -⟩, -, -⟩
    · exact h
    · exact absurd h hother
  · exact fun h => ⟨.inl h, trivial, id⟩

/-- A document that is held is a text only if it is one. -/
theorem held_str_iff {doc new : Json} (h : serde.held doc = some new) : new.asStr = doc.asStr := by
  cases doc with
  | null | bool b | str s =>
    rw [SerdeJson.held] at h
    cases h
    rfl
  | int n =>
    rw [SerdeJson.held, SerdeJson.heldInt] at h
    split at h
    · cases h
      rfl
    · obtain ⟨_, -, rfl⟩ := Option.map_eq_some_iff.mp h
      rfl
  | float text | arr items | obj fields =>
    rw [SerdeJson.held] at h
    obtain ⟨_, -, rfl⟩ := Option.map_eq_some_iff.mp h
    rfl

/-- A text survives a `json` rule if the document that it encodes is held without loss and is no
text. -/
theorem keeps_json_iff (s : String) : Keeps serde .json (.str s) ↔ Exact serde .json (.str s) := by
  have hne : str s ≠ .null := Json.noConfusion
  have hop : applyOp serde .json (.str s) = (serde.fromStr s).elim .unconvertible .converted := rfl
  rw [Exact]
  cases hdoc : serde.document s with
  | none =>
    have hfrom : serde.fromStr s = none := by rw [SerdeJson.fromStr, hdoc, Option.bind_none]
    refine iff_of_true (keeps_of_unconvertible hne ?_) fun doc h => by cases h
    rw [hop, hfrom]
    rfl
  | some doc =>
    have hfrom : serde.fromStr s = serde.held doc := by
      rw [SerdeJson.fromStr, hdoc, Option.bind_some]
    cases hheld : serde.held doc with
    | none =>
      refine iff_of_true (keeps_of_unconvertible hne ?_) fun doc' h hsome => ?_
      · rw [hop, hfrom, hheld]
        rfl
      · cases h
        rw [hheld] at hsome
        cases hsome
    | some new =>
      have hconverted : applyOp serde .json (.str s) = .converted new := by
        rw [hop, hfrom, hheld]
        rfl
      have hstr := held_str_iff hheld
      have hdenotes : Denotes serde .json (.str s) new ↔ serde.Keeps doc := by
        rw [← serde.same_held_iff doc hheld, Denotes]
        refine ⟨?_, fun hsame => ⟨doc, hdoc, hsame⟩⟩
        rintro ⟨doc', h, hsame⟩
        exact Option.some.inj (hdoc.symm.trans h) ▸ hsame
      have hexact : (∀ doc', some doc = some doc' → (serde.held doc').isSome = true →
          serde.Keeps doc' ∧ doc'.asStr = none) ↔ serde.Keeps doc ∧ doc.asStr = none := by
        constructor
        · exact fun h => h doc rfl (by rw [hheld]; rfl)
        · rintro h _ ⟨⟩ -
          exact h
      rw [hexact, ← hdenotes, ← hstr]
      cases new with
      | str t =>
        refine iff_of_false ?_ fun h => by cases h.2
        -- the text in quotes is taken for a document again, or reported
        have hstep : stepOf (applyOp serde .json) (.str s) = (.str t, false) := by
          rw [stepOf, if_neg hne, hconverted]
          rfl
        have hnull : str t ≠ .null := Json.noConfusion
        rintro ⟨-, htwice, hquiet⟩
        rw [hstep] at htwice hquiet
        have hop' : applyOp serde .json (.str t) =
          (serde.fromStr t).elim .unconvertible .converted := rfl
        rw [stepOf, if_neg hnull, hop'] at htwice hquiet
        cases hagain : serde.fromStr t with
        | none =>
          rw [hagain] at hquiet
          exact Bool.noConfusion (hquiet rfl)
        | some next =>
          rw [hagain] at htwice
          exact serde.fromStr_ne_self t (hagain.trans (congrArg some htwice))
      | null | bool b | int n | float text | arr items | obj fields =>
        rw [keeps_converted_iff hne hconverted (fun _ => rfl) Json.noConfusion]
        exact (and_iff_left rfl).symm

/-- A text survives a `number` rule if it is an integer of 64 bits or the shortest decimal of its
double. -/
theorem keeps_number_iff (s : String) :
    Keeps serde .number (.str s) ↔ Exact serde .number (.str s) := by
  have hne : str s ≠ .null := Json.noConfusion
  have hop : applyOp serde .number (.str s) =
    (readNumber serde (String.ofList (trim s.toList))).elim .unconvertible .converted := rfl
  rw [Exact]
  cases hint : TypeMap.parseI64 (String.ofList (trim s.toList)) with
  | some i =>
    refine iff_of_true ?_ (.inl rfl)
    have hconverted : applyOp serde .number (.str s) = .converted (.int i) := by
      rw [hop, readNumber, hint]
      rfl
    rw [keeps_converted_iff hne hconverted (fun _ => rfl) Json.noConfusion]
    have hread : Encoding.readInt (trim s.toList) = some i := by
      have := (Option.filter_eq_some_iff.mp hint).1
      rwa [String.toList_ofList] at this
    exact ⟨i, textValue_of_readInt hread, rfl⟩
  | none =>
    have hreads : readNumber serde (String.ofList (trim s.toList)) =
        match read (trim s.toList) with
        | some (.finite units) => some (.float (serde.print units))
        | _ => none := by
      rw [readNumber, hint, String.toList_ofList]
    rw [or_iff_right (by simp)]
    have hunread : (∀ units, read (trim s.toList) ≠ some (.finite units)) →
        readNumber serde (String.ofList (trim s.toList)) = none := by
      intro h
      rw [hreads]
      split
      · next units hread => exact absurd hread (h units)
      · rfl
    by_cases hfinite : ∃ units, read (trim s.toList) = some (.finite units)
    · obtain ⟨units, hread⟩ := hfinite
      obtain ⟨q, hvalue, hzero⟩ := textValue_of_read hread
      have hconverted : applyOp serde .number (.str s) = .converted (.float (serde.print units)) := by
        rw [hop, hreads, hread]
        rfl
      rw [keeps_converted_iff hne hconverted (fun _ => rfl) Json.noConfusion, Denotes]
      have hnumber : (float (serde.print units)).number =
        some (toDecimal (.finite units)).value := serde.printed units
      rw [hnumber, hread, hvalue]
      constructor
      · rintro ⟨_, ⟨⟩, hsame⟩ _ _ ⟨⟩ ⟨⟩
        exact (value_toDecimal_iff hzero).mp (Option.some.inj hsame)
      · intro h
        exact ⟨q, rfl, congrArg some ((value_toDecimal_iff hzero).mpr (h units q rfl rfl))⟩
    · refine iff_of_true (keeps_of_unconvertible hne ?_) fun units q hread =>
        absurd ⟨units, hread⟩ hfinite
      rw [hop, hunread fun units hread => hfinite ⟨units, hread⟩]
      rfl

/-- A delimited text survives a `split` rule. -/
theorem keeps_split (by_ : String) (hby : by_ ≠ "") (s : String) :
    Keeps serde (.split by_ hby) (.str s) := by
  rw [keeps_converted_iff Json.noConfusion rfl (fun _ => rfl) Json.noConfusion]
  have hne : by_.toList ≠ [] := fun h => hby (String.toList_eq_nil_iff.mp h)
  refine ⟨splitText by_.toList s.toList.length [] s.toList, intercalate_splitText _ _ _ _,
    not_infix_of_mem_splitText hne le_rfl fun u hu hu' => absurd (List.suffix_nil.mp hu) hu', rfl⟩

/-- **A value survives a rule** exactly if the rule converts it without loss, or not at all. -/
theorem keeps_iff (rule : Reshape) (hne : v ≠ .null) : rule.Keeps serde v ↔ rule.Exact serde v := by
  cases rule with
  | json =>
    cases v with
    | str s => exact keeps_json_iff s
    | null => exact absurd rfl hne
    | bool b | int n | float text | arr items | obj fields =>
      exact iff_of_true (keeps_of_alreadyShaped hne rfl rfl) trivial
  | split by_ hby =>
    cases v with
    | str s => exact iff_of_true (keeps_split by_ hby s) trivial
    | null => exact absurd rfl hne
    | arr items => exact iff_of_true (keeps_of_alreadyShaped hne rfl rfl) trivial
    | bool b | int n | float text | obj fields =>
      exact iff_of_true (keeps_of_unconvertible hne rfl) trivial
  | number =>
    cases v with
    | str s => exact keeps_number_iff s
    | null => exact absurd rfl hne
    | int n | float text => exact iff_of_true (keeps_of_alreadyShaped hne rfl rfl) trivial
    | bool b | arr items | obj fields =>
      exact iff_of_true (keeps_of_unconvertible hne rfl) trivial

end Reshape

/-! ## A whole document -/

theorem applyTransform_reported (column : String) (op : Json → Applied) (fields : Row) :
    (applyTransform column op fields).2 =
      if ∃ v, lookup column fields = some v ∧ (stepOf op v).2 = true then [column] else [] := by
  cases hvalue : lookup column fields with
  | none => simp [applyTransform, hvalue]
  | some v =>
    by_cases hnull : v = .null
    · subst hnull
      simp [applyTransform, hvalue, stepOf]
    · have hstep : (∃ w, some v = some w ∧ (stepOf op w).2 = true) ↔ (op v).reported = true := by
        constructor
        · rintro ⟨_, ⟨⟩, h⟩
          rwa [stepOf, if_neg hnull] at h
        · exact fun h => ⟨v, rfl, by rwa [stepOf, if_neg hnull]⟩
      simp only [hstep]
      cases hop : op v <;> simp [applyTransform, hvalue, hop, Applied.reported]

namespace TransformRules

variable {rules : TransformRules}

/-- Rules that name a column at most once leave what one step leaves. -/
theorem value_of_mem (hnodup : (rules.map Prod.fst).Nodup) {column : String} {op : Json → Applied}
    (h : (column, op) ∈ rules) (v : Json) : rules.value column v = (stepOf op v).1 := by
  have hstep : ∀ v, (if v ≠ .null then (op v).over v else v) = (stepOf op v).1 := by
    intro v
    by_cases hnull : v = .null
    · rw [stepOf, if_pos hnull, if_neg (not_not.mpr hnull)]
    · rw [stepOf, if_neg hnull, if_pos hnull]
  induction rules generalizing v with
  | nil => cases h
  | cons rule rest ih =>
    rw [List.map_cons, List.nodup_cons] at hnodup
    rw [value, List.foldl_cons]
    obtain rfl | h := List.mem_cons.mp h
    · have hrest : ∀ v, TransformRules.value rest column v = v := by
        intro v
        have hnot := hnodup.1
        clear ih hnodup h
        induction rest generalizing v with
        | nil => rfl
        | cons rule rest ih =>
          rw [List.map_cons, List.mem_cons, not_or] at hnot
          rw [value, List.foldl_cons, if_neg fun h => hnot.1 h.1.symm]
          exact ih v hnot.2
      simp only [true_and]
      rw [hstep]
      exact hrest _
    · have hne : rule.1 ≠ column := by
        rintro rfl
        exact hnodup.1 (List.mem_map.mpr ⟨_, h, rfl⟩)
      rw [if_neg fun h => hne h.1]
      exact ih hnodup.2 h v

/-- A column that no rule names keeps its value. -/
theorem value_of_notMem {column : String} (h : column ∉ rules.map Prod.fst) (v : Json) :
    rules.value column v = v := by
  induction rules generalizing v with
  | nil => rfl
  | cons rule rest ih =>
    rw [List.map_cons, List.mem_cons, not_or] at h
    rw [value, List.foldl_cons, if_neg fun h' => h.1 h'.1.symm]
    exact ih h.2 v

/-- What is reported so far, and the columns whose own value is. -/
theorem mem_foldl_reported (hnodup : (rules.map Prod.fst).Nodup) {fields : Row}
    (hordered : Json.Ordered fields) (left : List String) (column : String) :
    column ∈ (rules.foldl (fun (fields, left) (column, op) =>
      if ([] : List String).contains column then (fields, left)
      else
        let (fields, missed) := applyTransform column op fields
        (fields, left ++ missed)) (fields, left)).2 ↔
    column ∈ left ∨ ∃ op, (column, op) ∈ rules ∧
      ∃ v, lookup column fields = some v ∧ (stepOf op v).2 = true := by
  induction rules generalizing fields left with
  | nil => simp
  | cons rule rest ih =>
    obtain ⟨first, op⟩ := rule
    rw [List.map_cons, List.nodup_cons] at hnodup
    obtain ⟨happlied, hvalues⟩ := applyTransform_eq first op hordered
    have hother : ∀ op', (column, op') ∈ rest →
        lookup column (applyTransform first op fields).1 = lookup column fields := by
      intro op' hmem
      have hne : first ≠ column := by
        rintro rfl
        exact hnodup.1 (List.mem_map.mpr ⟨_, hmem, rfl⟩)
      rw [hvalues]
      simp [hne]
    have hnext : (∃ op', (column, op') ∈ rest ∧ ∃ v,
          lookup column (applyTransform first op fields).1 = some v ∧ (stepOf op' v).2 = true) ↔
        ∃ op', (column, op') ∈ rest ∧ ∃ v,
          lookup column fields = some v ∧ (stepOf op' v).2 = true := by
      refine exists_congr fun op' => and_congr_right fun hmem => ?_
      rw [hother op' hmem]
    have hrest := ih hnodup.2 happlied (left ++ (applyTransform first op fields).2)
    rw [hnext, List.mem_append, or_assoc] at hrest
    refine hrest.trans ?_
    rw [applyTransform_reported]
    refine or_congr_right ?_
    constructor
    · rintro (h | ⟨op', hmem, h⟩)
      · split at h
        · next hreported =>
          obtain rfl := List.mem_singleton.mp h
          exact ⟨op, List.mem_cons_self, hreported⟩
        · cases h
      · exact ⟨op', List.mem_cons_of_mem _ hmem, h⟩
    · rintro ⟨op', hmem, h⟩
      obtain heq | hmem := List.mem_cons.mp hmem
      · cases heq
        exact .inl (by rw [if_pos h]; exact List.mem_singleton_self _)
      · exact .inr ⟨op', hmem, h⟩

end TransformRules

namespace ReshapeRules

variable {serde : SerdeJson}

theorem map_fst_transforms (rules : ReshapeRules) :
    (rules.transforms serde).map Prod.fst = rules.1.map Prod.fst := by
  rw [transforms, List.map_map]
  rfl

theorem nodup_transforms (rules : ReshapeRules) :
    ((rules.transforms serde).map Prod.fst).Nodup :=
  rules.map_fst_transforms ▸ rules.2

/-- What the rules leave of an object, and what they report. -/
theorem apply_obj (rules : ReshapeRules) {fields : Row} (hordered : Json.Ordered fields) :
    ∃ done, (rules.apply serde (.obj fields)).1 = .obj done ∧ Json.Ordered done ∧
      (∀ rule ∈ rules.1, lookup rule.1 done = (lookup rule.1 fields).map fun v =>
        (stepOf (rule.2.applyOp serde) v).1) ∧
      (∀ column ∉ rules.1.map Prod.fst, lookup column done = lookup column fields) ∧
      ∀ column, column ∈ (rules.apply serde (.obj fields)).2 ↔ ∃ rule ∈ rules.1, rule.1 = column ∧
        ∃ v, lookup column fields = some v ∧ (stepOf (rule.2.applyOp serde) v).2 = true := by
  obtain ⟨done, hdone, hdoneOrdered, hlookup⟩ :=
    (rules.transforms serde).applyExcept_eq [] hordered
  refine ⟨done, hdone, hdoneOrdered, fun rule hrule => ?_, fun column hcolumn => ?_,
    fun column => ?_⟩
  · have hmem : (rule.1, rule.2.applyOp serde) ∈ rules.transforms serde :=
      List.mem_map_of_mem (f := fun rule => (rule.1, rule.2.applyOp serde)) hrule
    rw [hlookup]
    refine congrArg (Option.map · _) (funext fun v => ?_)
    exact (if_neg (by simp)).trans (TransformRules.value_of_mem rules.nodup_transforms hmem v)
  · rw [hlookup]
    have hkept : (fun v => if ([] : List String).contains column = true then v
        else (rules.transforms serde).value column v) = id := by
      funext v
      exact (if_neg (by simp)).trans
        (TransformRules.value_of_notMem (rules.map_fst_transforms ▸ hcolumn) v)
    rw [hkept, Option.map_id, id]
  · have hmem := TransformRules.mem_foldl_reported (@nodup_transforms serde rules)
      hordered [] column
    refine hmem.trans ?_
    rw [or_iff_right List.not_mem_nil]
    constructor
    · rintro ⟨op, hop, h⟩
      obtain ⟨rule, hrule, heq⟩ := List.mem_map.mp hop
      cases heq
      exact ⟨rule, hrule, rfl, h⟩
    · rintro ⟨rule, hrule, rfl, h⟩
      exact ⟨_, List.mem_map_of_mem (f := fun rule => (rule.1, rule.2.applyOp serde)) hrule, h⟩

/-- A column has at most one rule. -/
theorem eq_of_fst_eq (rules : ReshapeRules) {a b : String × Reshape} (ha : a ∈ rules.1)
    (hb : b ∈ rules.1) (h : a.1 = b.1) : a = b :=
  List.inj_on_of_nodup_map rules.2 ha hb h

/-- A document survives if each value that a rule is about does. -/
theorem row_survives_iff (rules : ReshapeRules) {fields : Row} (hordered : Json.Ordered fields) :
    rules.Survives serde (.obj fields) ↔ ∀ rule ∈ rules.1, ∀ v,
      lookup rule.1 fields = some v → v ≠ .null → rule.2.Keeps serde v := by
  obtain ⟨done, hdone, hdoneOrdered, hrules, hothers, hreported⟩ :=
    @apply_obj serde rules _ hordered
  obtain ⟨twice, htwice, htwiceOrdered, hrules', hothers', hreported'⟩ :=
    @apply_obj serde rules _ hdoneOrdered
  have hreports : ∀ rule ∈ rules.1, ∀ v, lookup rule.1 fields = some v →
      (rule.1 ∈ (rules.apply serde (.obj fields)).2 ↔
        (stepOf (rule.2.applyOp serde) v).2 = true) := by
    intro rule hrule v hv
    rw [hreported]
    constructor
    · rintro ⟨rule', hrule', heq, v', hv', h⟩
      cases rules.eq_of_fst_eq hrule' hrule heq
      cases hv.symm.trans hv'
      exact h
    · exact fun h => ⟨rule, hrule, rfl, v, hv, h⟩
  have hfirst : ∀ rule ∈ rules.1, ∀ v, lookup rule.1 fields = some v →
      lookup rule.1 done = some (stepOf (rule.2.applyOp serde) v).1 := by
    intro rule hrule v hv
    rw [hrules rule hrule, hv, Option.map_some]
  constructor
  · intro h rule hrule v hv hne
    have hnext := hfirst rule hrule v hv
    refine ⟨?_, ?_, fun hagain => ?_⟩
    · obtain ⟨new, hnew, hfaithful⟩ := h.faithful rule hrule v hv hne
      rw [hdone] at hnew
      cases hnext.symm.trans hnew
      rwa [hreports rule hrule v hv] at hfaithful
    · have hsame := h.again
      rw [hdone, htwice] at hsame
      have hlookup := hrules' rule hrule
      rw [obj.inj hsame, hnext, Option.map_some] at hlookup
      exact (Option.some.inj hlookup).symm
    · rw [← hreports rule hrule v hv]
      refine h.quiet ?_
      rw [hdone]
      exact (hreported' _).mpr ⟨rule, hrule, rfl, _, hnext, hagain⟩
  · intro h
    refine ⟨fun rule hrule v hv hne => ?_, fun column hcolumn => ?_, ?_, fun column hcolumn => ?_⟩
    · obtain ⟨hfaithful, -, -⟩ := h rule hrule v hv hne
      rw [← hreports rule hrule v hv] at hfaithful
      refine ⟨_, ?_, hfaithful⟩
      rw [hdone]
      exact hfirst rule hrule v hv
    · rw [hdone]
      by_cases hmem : column ∈ rules.1.map Prod.fst
      · obtain ⟨rule, hrule, rfl⟩ := List.mem_map.mp hmem
        have hnull : lookup rule.1 fields = some .null := hcolumn hmem
        exact (hfirst rule hrule _ hnull).trans (hnull.symm ▸ rfl)
      · exact hothers column hmem
    · rw [hdone, htwice]
      refine congrArg obj (htwiceOrdered.ext hdoneOrdered fun column => ?_)
      by_cases hmem : column ∈ rules.1.map Prod.fst
      · obtain ⟨rule, hrule, rfl⟩ := List.mem_map.mp hmem
        rw [hrules' rule hrule, hrules rule hrule]
        cases hv : lookup rule.1 fields with
        | none => rfl
        | some v =>
          by_cases hnull : v = .null
          · subst hnull
            rfl
          · exact congrArg some (h rule hrule v hv hnull).2.1
      · exact hothers' column hmem
    · rw [hdone] at hcolumn
      obtain ⟨rule, hrule, rfl, v', hv', hagain⟩ := (hreported' _).mp hcolumn
      rw [hrules rule hrule] at hv'
      obtain ⟨v, hv, rfl⟩ := Option.map_eq_some_iff.mp hv'
      rw [hreports rule hrule v hv]
      by_cases hnull : v = .null
      · subst hnull
        exact hagain
      · exact (h rule hrule v hv hnull).2.2 hagain

/-- **A document survives its reshaping** exactly if each value that a rule is about is converted
without loss, or not at all. -/
theorem reshaped_exactly_iff (rules : ReshapeRules) {doc : Json}
    (hordered : ∀ fields, doc = .obj fields → Json.Ordered fields) :
    rules.Survives serde doc ↔
      ∀ rule ∈ rules.1, ∀ v, doc.get rule.1 = some v → rule.2.Exact serde v := by
  cases doc with
  | obj fields =>
    rw [rules.row_survives_iff (hordered fields rfl)]
    refine forall_congr' fun rule => forall_congr' fun _ => forall_congr' fun v =>
      forall_congr' fun _ => ?_
    by_cases hnull : v = .null
    · subst hnull
      refine iff_of_true (fun h => absurd rfl h) ?_
      cases rule.2 <;> trivial
    · rw [imp_iff_right hnull, Reshape.keeps_iff rule.2 hnull]
  | null | bool b | int n | float text | str s | arr items =>
    refine iff_of_true ⟨fun rule _ v h => (by cases h), fun _ _ => rfl, rfl, fun _ h => h⟩ ?_
    exact fun rule _ v h => by cases h

end ReshapeRules

/-- A reader of integers and of plain texts in quotes. -/
def SerdeJson.scalars : SerdeJson where
  document s :=
    match s.toList with
    | '"' :: rest => if rest.getLast? = some '"' ∧ rest.dropLast.all (fun c => c ≠ '"' ∧ c ≠ '\\') then
        some (.str (String.ofList rest.dropLast)) else none
    | text => (Encoding.readInt text).map .int
  float text :=
    match Double.read text.toList with
    | some (.finite units) => some units
    | _ => none
  print units := String.ofList (Double.toDecimal (.finite units)).print
  quoted s t h := by
    split at h
    · next rest hrest =>
      split at h
      · cases h
        rw [String.length_ofList, List.length_dropLast, ← String.length_toList, hrest,
          List.length_cons]
        omega
      · cases h
    · obtain ⟨_, -, h⟩ := Option.map_eq_some_iff.mp h
      cases h
  zero text units h hzero := by
    split at h
    · next hread =>
      cases h
      obtain ⟨q, hq, hunits⟩ := Double.textValue_of_read hread
      cases hzero.symm.trans hq
      exact hunits rfl
    · cases h
  printed units := by
    rw [String.toList_ofList]
    exact Double.textValue_print _

namespace ReshapeRules

/-- The rules of a payment: what was paid, and a note. -/
def payment : ReshapeRules :=
  ⟨[("amount", .number), ("note", .json)], by decide⟩

/-- An amount behind a blank and a note that is an integer survive. -/
theorem reshaped_exactly_payment :
    Json.Ordered [("amount", .str " 9007199254740993"), ("note", .str "12")] ∧
    payment.Survives .scalars (.obj [("amount", .str " 9007199254740993"), ("note", .str "12")]) :=
  have hordered : Json.Ordered [("amount", .str " 9007199254740993"), ("note", .str "12")] := by
    decide
  ⟨hordered, (reshaped_exactly_iff payment fun _ h => Json.obj.inj h ▸ hordered).mpr
    fun rule hrule v hv => by
      have hrules : payment.1 = [("amount", .number), ("note", .json)] := rfl
      rw [hrules, List.mem_cons, List.mem_singleton] at hrule
      obtain rfl | rfl := hrule
      · cases hv
        exact .inl (by decide +kernel)
      · cases hv
        rintro doc hdoc -
        obtain rfl : doc = .int 12 := (Option.some.inj hdoc).symm
        exact ⟨.inl ⟨by decide, by decide⟩, rfl⟩⟩

/-- An amount of twenty digits is rounded, and a note in quotes becomes a number when it is
reshaped again. -/
theorem rounded_and_reread :
    ¬payment.Survives .scalars (.obj [("amount", .str "12345678901234567890")]) ∧
    ¬payment.Survives .scalars (.obj [("note", .str "\"12\"")]) := by
  constructor
  · intro h
    obtain ⟨new, hnew, hfaithful⟩ := h.faithful ("amount", .number) List.mem_cons_self _ rfl
      Json.noConfusion
    have hnot : "amount" ∉ (payment.apply .scalars
        (.obj [("amount", .str "12345678901234567890")])).2 := by
      decide +kernel
    obtain ⟨q, hq, hnumber⟩ | ⟨-, hreported⟩ := hfaithful
    · have hrounded : ((payment.apply .scalars
          (.obj [("amount", .str "12345678901234567890")])).1.get "amount").bind Json.number ≠
          Double.textValue (trim "12345678901234567890".toList) := by
        decide +kernel
      rw [hnew, hq] at hrounded
      exact hrounded hnumber
    · exact hnot hreported
  · intro h
    exact absurd h.again (by decide +kernel)

end ReshapeRules

end Pg2osync
