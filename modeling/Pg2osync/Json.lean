import Mathlib.Data.List.Basic
import Mathlib.Order.Basic
import Mathlib.Tactic.IntervalCases

/-!
# JSON values

Documents, keys and target responses are all `serde_json::Value`s. An object is
the association list a `serde_json::Map` iterates over: the map is ordered by
key (the crate is built without `preserve_order`), so `insert` files a field in
its sorted place and replaces the value of a key already there.

A number is an integer or a float kept as the text it is written with; no
arithmetic is ever done on one here, only comparison and printing.
-/

namespace Pg2osync

/-- A JSON value. -/
inductive Json : Type where
  /-- `null` -/
  | null : Json
  /-- `true` or `false` -/
  | bool (b : Bool) : Json
  /-- an integer number -/
  | int (n : Int) : Json
  /-- a number with a fraction or an exponent, as its text -/
  | float (text : String) : Json
  /-- a string -/
  | str (s : String) : Json
  /-- an array -/
  | arr (items : List Json) : Json
  /-- an object, as its fields in key order -/
  | obj (fields : List (String × Json)) : Json
  deriving Repr, Inhabited

namespace Json

/-! ## Decidable equality

The type nests through lists, so the comparison is three functions, one for
each list shape a value can contain. -/

mutual

/-- Comparison of two values. -/
def beq : Json → Json → Bool
  | .null, .null => true
  | .bool a, .bool b => a == b
  | .int a, .int b => a == b
  | .float a, .float b => a == b
  | .str a, .str b => a == b
  | .arr a, .arr b => beqItems a b
  | .obj a, .obj b => beqFields a b
  | _, _ => false

/-- Comparison of two array contents. -/
def beqItems : List Json → List Json → Bool
  | [], [] => true
  | x :: xs, y :: ys => beq x y && beqItems xs ys
  | _, _ => false

/-- Comparison of two lists of fields. -/
def beqFields : List (String × Json) → List (String × Json) → Bool
  | [], [] => true
  | (k, x) :: xs, (l, y) :: ys => k == l && beq x y && beqFields xs ys
  | _, _ => false

end

mutual

theorem beq_iff (a b : Json) : beq a b = true ↔ a = b := by
  match a with
  | .arr xs => cases b <;> simp [beq, beqItems_iff xs]
  | .obj xs => cases b <;> simp [beq, beqFields_iff xs]
  | .null | .bool _ | .int _ | .float _ | .str _ => cases b <;> simp [beq]

theorem beqItems_iff (xs ys : List Json) : beqItems xs ys = true ↔ xs = ys := by
  match xs, ys with
  | [], [] | [], _ :: _ | _ :: _, [] => simp [beqItems]
  | x :: xs, y :: ys => simp [beqItems, beq_iff x y, beqItems_iff xs ys]

theorem beqFields_iff (xs ys : List (String × Json)) : beqFields xs ys = true ↔ xs = ys := by
  match xs, ys with
  | [], [] | [], _ :: _ | _ :: _, [] => simp [beqFields]
  | (k, x) :: xs, (l, y) :: ys => simp [beqFields, beq_iff x y, beqFields_iff xs ys]

end

instance : DecidableEq Json := fun a b => decidable_of_iff _ (beq_iff a b)

/-! ## Objects -/

/-- `Map::get` on a field list. -/
def lookup (key : String) : List (String × Json) → Option Json
  | [] => none
  | (k, v) :: rest => if k = key then some v else lookup key rest

/-- Texts are ordered by their characters' code points. -/
def charsBefore : List Char → List Char → Bool
  | _, [] => false
  | [], _ :: _ => true
  | a :: as, b :: bs => a.toNat < b.toNat || a.toNat = b.toNat && charsBefore as bs

/-- The order of a map's keys. -/
def keyBefore (a b : String) : Bool :=
  charsBefore a.toList b.toList

/-- `Map::insert` on a field list: a key already there has its value replaced,
a new one is filed before the first greater key. -/
def insertField (key : String) (value : Json) : List (String × Json) → List (String × Json)
  | [] => [(key, value)]
  | (k, v) :: rest =>
    if k = key then (key, value) :: rest
    else if keyBefore key k then (key, value) :: (k, v) :: rest
    else (k, v) :: insertField key value rest

/-- `Value::get` with a string key: `none` on anything but an object. -/
def get (key : String) : Json → Option Json
  | .obj fields => lookup key fields
  | _ => none

/-- `value[key]`: `null` where there is no such field. -/
def index (value : Json) (key : String) : Json :=
  (value.get key).getD .null

/-- `Value::as_object`. -/
def asObject : Json → Option (List (String × Json))
  | .obj fields => some fields
  | _ => none

/-- `Value::as_array`. -/
def asArray : Json → Option (List Json)
  | .arr items => some items
  | _ => none

/-- `Value::as_str`. -/
def asStr : Json → Option String
  | .str s => some s
  | _ => none

/-- `Value::as_bool`. -/
def asBool : Json → Option Bool
  | .bool b => some b
  | _ => none

/-- `Value::as_u64`. -/
def asU64 : Json → Option Nat
  | .int n => if 0 ≤ n ∧ n < 2 ^ 64 then some n.toNat else none
  | _ => none

/-! ## Text

`Value::to_string`: the compact form, without blanks. -/

/-- One character of a string literal. -/
def escapeChar (c : Char) : String :=
  if c = '"' then "\\\""
  else if c = '\\' then "\\\\"
  else if c = '\n' then "\\n"
  else if c = '\r' then "\\r"
  else if c = '\t' then "\\t"
  else if c.toNat = 8 then "\\b"
  else if c.toNat = 12 then "\\f"
  else if c.toNat < 32 then
    "\\u00" ++ (if c.toNat < 16 then "0" else "1") ++ String.singleton (Nat.digitChar (c.toNat % 16))
  else String.singleton c

/-- A string as a JSON string literal. -/
def quote (s : String) : String :=
  "\"" ++ String.join (s.toList.map escapeChar) ++ "\""

mutual

/-- The compact text of a value. -/
def render : Json → String
  | .null => "null"
  | .bool b => if b then "true" else "false"
  | .int n => toString n
  | .float text => text
  | .str s => quote s
  | .arr items => "[" ++ renderItems items ++ "]"
  | .obj fields => "\x7b" ++ renderFields fields ++ "\x7d"

/-- The text of an array's items, separated by commas. -/
def renderItems : List Json → String
  | [] => ""
  | [x] => render x
  | x :: y :: rest => render x ++ "," ++ renderItems (y :: rest)

/-- The text of an object's fields, separated by commas. -/
def renderFields : List (String × Json) → String
  | [] => ""
  | [(k, x)] => quote k ++ ":" ++ render x
  | (k, x) :: y :: rest => quote k ++ ":" ++ render x ++ "," ++ renderFields (y :: rest)

end

example : (Json.obj [("a", .str "x\n"), ("b", .arr [.int 1, .null])]).render =
    "\x7b\"a\":\"x\\n\",\"b\":[1,null]\x7d" := by decide

/-! ## Reading a literal back -/

/-- One character of a string literal, and what follows it. -/
def unescape : List Char → Option (Char × List Char)
  | '\\' :: 'n' :: rest => some ('\n', rest)
  | '\\' :: 'r' :: rest => some ('\r', rest)
  | '\\' :: 't' :: rest => some ('\t', rest)
  | '\\' :: 'b' :: rest => some (Char.ofNat 8, rest)
  | '\\' :: 'f' :: rest => some (Char.ofNat 12, rest)
  | '\\' :: 'u' :: '0' :: '0' :: '0' :: d :: rest =>
    some (Char.ofNat (if d.isDigit then d.toNat - 48 else d.toNat - 87), rest)
  | '\\' :: 'u' :: '0' :: '0' :: '1' :: d :: rest =>
    some (Char.ofNat (if d.isDigit then d.toNat - 32 else d.toNat - 71), rest)
  | '\\' :: c :: rest => some (c, rest)
  | c :: rest => some (c, rest)
  | [] => none

theorem unescape_escapeChar (c : Char) (rest : List Char) :
    unescape ((escapeChar c).toList ++ rest) = some (c, rest) := by
  by_cases hlow : c.toNat < 32
  · obtain ⟨n, hn, rfl⟩ : ∃ n < 32, c = Char.ofNat n := ⟨c.toNat, hlow, (Char.ofNat_toNat c).symm⟩
    clear hlow
    interval_cases n <;> rfl
  · by_cases hquote : c = '"'
    · subst hquote
      rfl
    by_cases hslash : c = '\\'
    · subst hslash
      rfl
    have hplain : (escapeChar c).toList = [c] := by
      have hne : ∀ d : Char, d.toNat < 32 → c ≠ d := fun d hd h => hlow (h ▸ hd)
      rw [escapeChar, if_neg hquote, if_neg hslash, if_neg (hne '\n' (by decide)),
        if_neg (hne '\r' (by decide)), if_neg (hne '\t' (by decide)), if_neg (by omega),
        if_neg (by omega), if_neg hlow]
      exact String.toList_singleton c
    rw [hplain, List.singleton_append, unescape]
    all_goals (intros; simp_all)

theorem toList_quote (s : String) :
    (quote s).toList = '"' :: (s.toList.flatMap fun c => (escapeChar c).toList) ++ ['"'] := by
  have hjoin : ∀ l : List String, (String.join l).toList = l.flatMap String.toList := by
    intro l
    induction l with
    | nil => rfl
    | cons s l ih =>
      rw [String.join_cons, String.toList_append, ih, List.flatMap_cons]
  rw [quote, String.toList_append, String.toList_append, hjoin, List.flatMap_map]
  rfl

/-- Two literals are the same only for the same text. -/
theorem quote_injective {s t : String} (h : quote s = quote t) : s = t := by
  have hlists := congrArg String.toList h
  rw [toList_quote, toList_quote] at hlists
  have hcodes := List.append_cancel_right (List.cons.inj hlists).2
  apply String.toList_inj.mp
  generalize s.toList = cs at hcodes
  generalize t.toList = ds at hcodes
  induction cs generalizing ds with
  | nil =>
    cases ds with
    | nil => rfl
    | cons d ds =>
      have hd := unescape_escapeChar d (ds.flatMap fun c => (escapeChar c).toList)
      rw [List.flatMap_nil, List.flatMap_cons] at hcodes
      rw [← hcodes] at hd
      cases hd
  | cons c cs ih =>
    have hc := unescape_escapeChar c (cs.flatMap fun c => (escapeChar c).toList)
    rw [List.flatMap_cons] at hcodes
    rw [hcodes] at hc
    cases ds with
    | nil => cases hc
    | cons d ds =>
      rw [List.flatMap_cons, unescape_escapeChar] at hc
      obtain ⟨hd, hrest⟩ := Prod.mk.inj (Option.some.inj hc)
      rw [hd, ih ds hrest.symm]

/-! ## Lookups after an insert -/

theorem lookup_insertField_self (key : String) (value : Json) (fields : List (String × Json)) :
    lookup key (insertField key value fields) = some value := by
  induction fields with
  | nil => simp [insertField, lookup]
  | cons head rest ih =>
    obtain ⟨k, v⟩ := head
    rw [insertField]
    split
    · simp [lookup]
    · next hne =>
      split
      · simp [lookup]
      · rw [lookup, if_neg hne, ih]

theorem lookup_insertField_ne {key other : String} (hne : other ≠ key) (value : Json)
    (fields : List (String × Json)) :
    lookup other (insertField key value fields) = lookup other fields := by
  induction fields with
  | nil => simp [insertField, lookup, Ne.symm hne]
  | cons head rest ih =>
    obtain ⟨k, v⟩ := head
    rw [insertField]
    split
    · next heq => simp [lookup, heq, Ne.symm hne]
    · split
      · simp [lookup, Ne.symm hne]
      · rw [lookup, lookup, ih]

/-! ## Ordered fields

A map has each key once, in order; such a list of fields is known by its lookups. -/

theorem charsBefore_trans {a b c : List Char} (hab : charsBefore a b = true)
    (hbc : charsBefore b c = true) : charsBefore a c = true := by
  induction c generalizing a b with
  | nil =>
    rw [charsBefore] at hbc
    cases hbc
  | cons z c ih =>
    cases b with
    | nil =>
      rw [charsBefore] at hab
      cases hab
    | cons y b =>
      cases a with
      | nil => rfl
      | cons x a =>
        simp only [charsBefore, Bool.or_eq_true, Bool.and_eq_true, decide_eq_true_eq] at hab hbc ⊢
        obtain hxy | ⟨hxy, hab⟩ := hab
        · obtain hyz | ⟨hyz, -⟩ := hbc
          · exact .inl (Nat.lt_trans hxy hyz)
          · exact .inl (hyz ▸ hxy)
        · obtain hyz | ⟨hyz, hbc⟩ := hbc
          · exact .inl (hxy ▸ hyz)
          · exact .inr ⟨hxy.trans hyz, ih hab hbc⟩

theorem charsBefore_irrefl (a : List Char) : charsBefore a a = false := by
  induction a with
  | nil => rfl
  | cons x a ih => simp [charsBefore, ih]

theorem charsBefore_total {a b : List Char} (hne : a ≠ b) (h : charsBefore a b = false) :
    charsBefore b a = true := by
  induction a generalizing b with
  | nil =>
    cases b with
    | nil => exact absurd rfl hne
    | cons y b => cases h
  | cons x a ih =>
    cases b with
    | nil => rfl
    | cons y b =>
      simp only [charsBefore, Bool.or_eq_false_iff, decide_eq_false_iff_not,
        Bool.and_eq_false_iff] at h
      simp only [charsBefore, Bool.or_eq_true, Bool.and_eq_true, decide_eq_true_eq]
      obtain ⟨hle, hrest⟩ := h
      by_cases heq : x.toNat = y.toNat
      · refine .inr ⟨heq.symm, ih (fun hab => hne ?_) (hrest.resolve_left (not_not.mpr heq))⟩
        rw [hab, Char.toNat_inj.mp heq]
      · exact .inl (Nat.lt_of_le_of_ne (Nat.not_lt.mp hle) (Ne.symm heq))

theorem keyBefore_trans {a b c : String} (hab : keyBefore a b = true) (hbc : keyBefore b c = true) :
    keyBefore a c = true :=
  charsBefore_trans hab hbc

theorem ne_of_keyBefore {a b : String} (h : keyBefore a b = true) : a ≠ b := by
  rintro rfl
  rw [keyBefore, charsBefore_irrefl] at h
  cases h

theorem keyBefore_total {a b : String} (hne : a ≠ b) (h : keyBefore a b = false) :
    keyBefore b a = true :=
  charsBefore_total (fun heq => hne (String.toList_inj.mp heq)) h

/-- The fields of a map. -/
def Ordered (fields : List (String × Json)) : Prop :=
  (fields.map Prod.fst).Pairwise fun a b => keyBefore a b = true

instance (fields : List (String × Json)) : Decidable (Ordered fields) :=
  inferInstanceAs (Decidable (List.Pairwise _ _))

theorem ordered_cons {k : String} {v : Json} {rest : List (String × Json)} :
    Ordered ((k, v) :: rest) ↔ (∀ f ∈ rest, keyBefore k f.1 = true) ∧ Ordered rest := by
  simp [Ordered, List.pairwise_cons]

variable {fields : List (String × Json)}

theorem lookup_of_notMem {key : String} (h : ∀ f ∈ fields, f.1 ≠ key) :
    lookup key fields = none := by
  induction fields with
  | nil => rfl
  | cons f rest ih =>
    obtain ⟨k, v⟩ := f
    rw [lookup, if_neg (h (k, v) List.mem_cons_self)]
    exact ih fun g hg => h g (List.mem_cons_of_mem _ hg)

theorem Ordered.insertField (h : Ordered fields) (key : String) (value : Json) :
    Ordered (insertField key value fields) := by
  induction fields with
  | nil => simp [Json.insertField, Ordered]
  | cons f rest ih =>
    obtain ⟨k, v⟩ := f
    obtain ⟨hhead, hrest⟩ := ordered_cons.mp h
    rw [Json.insertField]
    split
    · next heq =>
      subst heq
      exact ordered_cons.mpr ⟨hhead, hrest⟩
    · next hne =>
      split
      · next hlt =>
        refine ordered_cons.mpr ⟨fun g hg => ?_, h⟩
        obtain rfl | hmem := List.mem_cons.mp hg
        · exact hlt
        · exact keyBefore_trans hlt (hhead g hmem)
      · next hnlt =>
        refine ordered_cons.mpr ⟨fun g hg => ?_, ih hrest⟩
        have hlt := keyBefore_total (Ne.symm hne) (Bool.not_eq_true _ |>.mp hnlt)
        obtain hold | hnew := mem_insertField hg
        · exact hhead g hold
        · exact hnew ▸ hlt
where
  mem_insertField {key : String} {value : Json} {fields : List (String × Json)}
      {g : String × Json} (hg : g ∈ Json.insertField key value fields) : g ∈ fields ∨ g.1 = key := by
    induction fields with
    | nil => exact .inr (by rw [List.mem_singleton.mp hg])
    | cons f rest ih =>
      obtain ⟨k, v⟩ := f
      rw [Json.insertField] at hg
      split at hg
      · obtain rfl | hmem := List.mem_cons.mp hg
        · exact .inr rfl
        · exact .inl (List.mem_cons_of_mem _ hmem)
      · split at hg
        · obtain rfl | hmem := List.mem_cons.mp hg
          · exact .inr rfl
          · exact .inl hmem
        · obtain rfl | hmem := List.mem_cons.mp hg
          · exact .inl List.mem_cons_self
          · exact (ih hmem).imp_left (List.mem_cons_of_mem _)

theorem Ordered.filter (h : Ordered fields) (p : String × Json → Bool) :
    Ordered (fields.filter p) :=
  List.Pairwise.sublist (List.filter_sublist.map _) h

/-- Ordered fields with the same lookups are the same fields. -/
theorem Ordered.ext {a b : List (String × Json)} (ha : Ordered a) (hb : Ordered b)
    (h : ∀ key, lookup key a = lookup key b) : a = b := by
  induction a generalizing b with
  | nil =>
    cases b with
    | nil => rfl
    | cons g rest =>
      obtain ⟨k, v⟩ := g
      have hk := h k
      simp [lookup] at hk
  | cons f rest ih =>
    obtain ⟨k, v⟩ := f
    obtain ⟨hhead, hrest⟩ := ordered_cons.mp ha
    cases b with
    | nil =>
      have hk := h k
      simp [lookup] at hk
    | cons g rest' =>
      obtain ⟨k', v'⟩ := g
      obtain ⟨hhead', hrest'⟩ := ordered_cons.mp hb
      -- the first keys are the least ones, so each is found in the other list
      have hkey : k = k' := by
        by_contra hne
        cases hlt : keyBefore k k' with
        | true =>
          have hk := h k
          rw [lookup, if_pos rfl, lookup, if_neg (Ne.symm hne), lookup_of_notMem fun f hf =>
            (ne_of_keyBefore (keyBefore_trans hlt (hhead' f hf))).symm] at hk
          cases hk
        | false =>
          have hgt := keyBefore_total hne hlt
          have hk := h k'
          rw [lookup, if_neg hne, lookup_of_notMem fun f hf =>
            (ne_of_keyBefore (keyBefore_trans hgt (hhead f hf))).symm, lookup, if_pos rfl] at hk
          cases hk
      subst hkey
      have hvalue := h k
      rw [lookup, if_pos rfl, lookup, if_pos rfl] at hvalue
      obtain rfl := Option.some.inj hvalue
      rw [ih hrest hrest' fun key => ?_]
      by_cases hkey : key = k
      · subst hkey
        rw [lookup_of_notMem fun f hf => (ne_of_keyBefore (hhead f hf)).symm,
          lookup_of_notMem fun f hf => (ne_of_keyBefore (hhead' f hf)).symm]
      · have hother := h key
        rwa [lookup, if_neg (Ne.symm hkey), lookup, if_neg (Ne.symm hkey)] at hother

end Json

end Pg2osync
