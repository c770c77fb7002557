import Mathlib.Algebra.Order.BigOperators.Group.List
import Mathlib.Logic.Equiv.Basic
import Pg2osync.LabelledText
import Pg2osync.Mapping

/-!
# The ids of a table's rows

The key of a row names its document: a key of one column as its text, a longer one as the sorted
list of its columns and their texts. Nothing is quoted, and a text that holds a comma and the
name of another column reads as that column.

Ids tell the keys of a table apart only if no more than one key column holds text, and that one
nothing else. They do tell them apart where, besides, no column's name begins with another's and
the mark behind it.
-/

namespace Pg2osync

open Encoding Json Labelled

/-! ## The order of texts -/

namespace Json

variable {a b : List Char}

/-- Texts that go apart are ordered where they do. -/
theorem charsBefore_append (hab : ¬ a <+: b) (hba : ¬ b <+: a) (x y : List Char) :
    charsBefore (a ++ x) (b ++ y) = charsBefore a b := by
  induction a generalizing b with
  | nil => exact absurd List.nil_prefix hab
  | cons c a ih =>
    cases b with
    | nil => exact absurd List.nil_prefix hba
    | cons d b =>
      rw [List.cons_append, List.cons_append, charsBefore, charsBefore]
      by_cases heq : c = d
      · subst heq
        rw [List.prefix_cons_inj] at hab hba
        rw [ih hab hba]
      · simp [Char.toNat_inj, heq]

/-- What follows a longer text does not change its order among shorter ones. -/
theorem charsBefore_append_long (h : b.length < a.length) (x : List Char) :
    charsBefore (a ++ x) b = charsBefore a b ∧ charsBefore b (a ++ x) = charsBefore b a := by
  induction a generalizing b with
  | nil => cases h
  | cons c a ih =>
    cases b with
    | nil => exact ⟨by rw [charsBefore, charsBefore], rfl⟩
    | cons d b =>
      obtain ⟨hab, hba⟩ := ih (Nat.lt_of_succ_lt_succ h)
      rw [List.cons_append]
      exact ⟨by rw [charsBefore, charsBefore, hab], by rw [charsBefore, charsBefore, hba]⟩

theorem charsBefore_asymm (h : charsBefore a b = true) : charsBefore b a = false := by
  by_contra hba
  have hself := charsBefore_trans h (Bool.not_eq_false _ ▸ hba)
  rw [charsBefore_irrefl] at hself
  cases hself

/-- A text is not behind another, as `sort` compares them. -/
abbrev NotBehind (a b : String) : Prop :=
  (!keyBefore b a) = true

instance : Std.Total NotBehind where
  total a b := by
    rw [NotBehind, NotBehind, Bool.not_eq_true', Bool.not_eq_true', or_iff_not_imp_left]
    intro hba
    exact charsBefore_asymm (Bool.not_eq_false _ ▸ hba)

instance : IsTrans String NotBehind where
  trans a b c hab hbc := by
    rw [NotBehind, Bool.not_eq_true'] at hab hbc ⊢
    by_contra hca
    rw [Bool.not_eq_false] at hca
    by_cases heq : b = c
    · rw [heq, hca] at hab
      cases hab
    · rw [keyBefore_trans (keyBefore_total (Ne.symm heq) hbc) hca] at hab
      cases hab

instance : Std.Antisymm NotBehind where
  antisymm a b hab hba := by
    rw [NotBehind, Bool.not_eq_true'] at hab hba
    by_contra hne
    rw [keyBefore_total hne hba] at hab
    cases hab

end Json

/-! ## Keys -/

/-- What a column holds a value of. -/
inductive KeyKind : Type where
  | text : KeyKind
  | number : KeyKind
  | boolean : KeyKind
  | null : KeyKind
  deriving DecidableEq

/-- A character of a number's text. -/
def isNumeral (c : Char) : Bool :=
  c.isDigit || ['-', '+', '.', 'e', 'E'].contains c

/-- The text of a number with a fraction or an exponent. -/
def isFraction (text : String) : Bool :=
  text.toList.all isNumeral && text.toList.any fun c => ['.', 'e', 'E'].contains c

/-- A value is of a kind. -/
def KeyKind.admits : KeyKind → Json → Bool
  | .text, .str _ => true
  | .number, .int _ => true
  | .number, .float digits => isFraction digits
  | .boolean, .bool _ => true
  | .null, .null => true
  | _, _ => false

/-- A value of a kind. -/
def KeyKind.sample : KeyKind → Json
  | .text => .str ""
  | .number => .int 0
  | .boolean => .bool false
  | .null => .null

theorem KeyKind.admits_sample (kind : KeyKind) : kind.admits kind.sample = true := by
  cases kind <;> rfl

/-- A key column: its name, and the kinds of values it holds. -/
structure KeyColumn : Type where
  /-- the name -/
  name : String
  /-- the kinds -/
  kinds : List KeyKind
  /-- the column holds something -/
  holds : kinds ≠ []

/-- A value the column may hold. -/
def KeyColumn.admits (column : KeyColumn) (value : Json) : Bool :=
  column.kinds.any fun kind => kind.admits value

/-- The key columns of a table, in the order a map has them. -/
structure TableKey : Type where
  /-- the columns -/
  columns : List KeyColumn
  /-- each is there once -/
  ordered : (columns.map KeyColumn.name).Pairwise fun a b => Json.keyBefore a b = true

variable {column : KeyColumn}

namespace TableKey

variable (key : TableKey)

/-- The names of the columns. -/
def names : List String :=
  key.columns.map KeyColumn.name

/-- `extract_pk`: the key of a row. -/
def extractPk (row : String → Json) : Json :=
  match key.names with
  | [] => .null
  | [one] => row one
  | many => .obj (many.map fun name => (name, row name))

/-- A row of the table, as far as its key goes. -/
def Fits (row : String → Json) : Prop :=
  ∀ column ∈ key.columns, column.admits (row column.name) = true

/-- Rows with the same id have the same key. -/
def Identifies : Prop :=
  ∀ row row', key.Fits row → key.Fits row' →
    pkToId (key.extractPk row) = pkToId (key.extractPk row') →
      key.extractPk row = key.extractPk row'

/-- At most one key column holds text, and that one nothing else. -/
structure OneText : Prop where
  /-- no two hold text -/
  one : ∀ column ∈ key.columns, ∀ other ∈ key.columns,
    .text ∈ column.kinds → .text ∈ other.kinds → column = other
  /-- what holds text holds nothing else -/
  only : ∀ column ∈ key.columns, .text ∈ column.kinds → ∀ kind ∈ column.kinds, kind = .text

/-- No column's name begins with another's and the mark behind it. -/
def NamesApart : Prop :=
  ∀ name ∈ key.names, ∀ other ∈ key.names, ¬ name.toList ++ ['='] <+: other.toList

variable {key} {row row' : String → Json}

theorem nodup_names : key.names.Nodup :=
  key.ordered.imp ne_of_keyBefore

theorem column_ext {column other : KeyColumn} (h : column ∈ key.columns) (h' : other ∈ key.columns)
    (hname : column.name = other.name) : column = other :=
  List.inj_on_of_nodup_map nodup_names h h' hname

theorem extractPk_inj : key.extractPk row = key.extractPk row' ↔
    ∀ name ∈ key.names, row name = row' name := by
  rw [extractPk, extractPk]
  split
  · next hnil => simp [hnil]
  · next one hone => simp [hone]
  · simp [List.map_inj_left]

/-- Some row fits. -/
theorem exists_fits (key : TableKey) : ∃ row, key.Fits row := by
  obtain ⟨columns, hordered⟩ := key
  have hnodup : (columns.map KeyColumn.name).Nodup := hordered.imp ne_of_keyBefore
  suffices ∃ row : String → Json, ∀ column ∈ columns, column.admits (row column.name) = true from
    this
  clear hordered
  induction columns with
  | nil => exact ⟨fun _ => .null, fun _ h => by cases h⟩
  | cons column columns ih =>
    obtain ⟨hnot, hnodup⟩ := List.nodup_cons.mp hnodup
    obtain ⟨row, hrow⟩ := ih hnodup
    obtain ⟨kind, hkind⟩ := List.exists_mem_of_ne_nil _ column.holds
    refine ⟨Function.update row column.name kind.sample, fun other hother => ?_⟩
    rcases List.mem_cons.mp hother with rfl | hother
    · rw [Function.update_self, KeyColumn.admits]
      exact List.any_eq_true.mpr ⟨kind, hkind, kind.admits_sample⟩
    · have hne : other.name ≠ column.name := fun heq =>
        hnot (heq ▸ List.mem_map_of_mem hother)
      rw [Function.update_of_ne hne]
      exact hrow other hother

/-- A row with another value in a key column. -/
theorem Fits.update (h : key.Fits row) (hcolumn : column ∈ key.columns) {value : Json}
    (hvalue : column.admits value = true) : key.Fits (Function.update row column.name value) := by
  intro other hother
  by_cases heq : other.name = column.name
  · rw [column_ext hother hcolumn heq, Function.update_self]
    exact hvalue
  · rw [Function.update_of_ne heq]
    exact h other hother

end TableKey

/-! ## The texts of values -/

theorem isNumeral_printInt {n : ℤ} {c : Char} (h : c ∈ printInt n) :
    isNumeral c = true ∧ ['.', 'e', 'E'].contains c = false := by
  have hdigit : ∀ {c : Char}, c ∈ Nat.toDigits 10 n.natAbs →
      isNumeral c = true ∧ ['.', 'e', 'E'].contains c = false := by
    intro c hc
    have hdigit : c.isDigit = true := List.all_eq_true.mp (toDigits_digits _).2 c hc
    refine ⟨by rw [isNumeral, hdigit, Bool.true_or], Bool.eq_false_iff.mpr fun hmem => ?_⟩
    rw [List.contains_iff_mem] at hmem
    simp only [List.mem_cons, List.not_mem_nil, or_false] at hmem
    rcases hmem with rfl | rfl | rfl <;> cases hdigit
  rw [printInt] at h
  split at h
  · rcases List.mem_cons.mp h with rfl | h
    · exact ⟨rfl, rfl⟩
    · exact hdigit h
  · exact hdigit h

/-- A number. -/
def IsNumber (value : Json) : Prop :=
  (∃ n, value = .int n) ∨ ∃ digits, value = .float digits ∧ isFraction digits = true

variable {kind : KeyKind}

theorem eq_of_admits {value : Json} (hkind : kind ≠ .text) (h : kind.admits value = true) :
    value = .null ∨ (∃ b, value = .bool b) ∨ IsNumber value := by
  cases value with
  | null => exact .inl rfl
  | bool b => exact .inr (.inl ⟨b, rfl⟩)
  | int n => exact .inr (.inr (.inl ⟨n, rfl⟩))
  | float digits =>
    cases kind with
    | number => exact .inr (.inr (.inr ⟨digits, rfl, h⟩))
    | text | boolean | null => cases h
  | str s =>
    cases kind with
    | text => exact absurd rfl hkind
    | number | boolean | null => cases h
  | arr items => cases kind <;> cases h
  | obj fields => cases kind <;> cases h

theorem isNumeral_render {value : Json} {c : Char} (h : IsNumber value)
    (hc : c ∈ value.render.toList) : isNumeral c = true := by
  rcases h with ⟨n, rfl⟩ | ⟨digits, rfl, hdigits⟩
  · rw [render, toList_toString] at hc
    exact (isNumeral_printInt hc).1
  · rw [render] at hc
    rw [isFraction, Bool.and_eq_true] at hdigits
    exact List.all_eq_true.mp hdigits.1 c hc

theorem int_render_ne {n : ℤ} {digits : String} (h : isFraction digits = true) :
    (int n).render ≠ (float digits).render := by
  intro heq
  rw [isFraction, Bool.and_eq_true] at h
  obtain ⟨c, hc, hmark⟩ := List.any_eq_true.mp h.2
  have hmem : c ∈ printInt n := by
    rw [← toList_toString]
    exact (congrArg String.toList heq).symm ▸ hc
  rw [(isNumeral_printInt hmem).2] at hmark
  cases hmark

variable {value value' : Json}

/-- Numbers are told apart by their texts. -/
theorem IsNumber.render_inj (h : IsNumber value) (h' : IsNumber value')
    (heq : value.render = value'.render) : value = value' := by
  rcases h with ⟨n, rfl⟩ | ⟨digits, rfl, hdigits⟩ <;>
    rcases h' with ⟨n', rfl⟩ | ⟨digits', rfl, hdigits'⟩
  · have hchars := congrArg (readInt ∘ String.toList) heq
    simp only [Function.comp_apply, render, toList_toString,
      readInt_printInt] at hchars
    rw [Option.some.inj hchars]
  · exact absurd heq (int_render_ne hdigits')
  · exact absurd heq.symm (int_render_ne hdigits)
  · exact congrArg float heq

/-- The text of a value that is no text, `null` as it is written. -/
def shown (written : String) : Json → String
  | .null => written
  | other => other.scalarDisplay

/-- Values that are no texts are told apart by their texts, where `null` is not written as another
of them is. -/
theorem shown_inj {written : String} (hwritten : written.toList.all isNumeral = false)
    (htrue : written ≠ "true") (hfalse : written ≠ "false") {kind kind' : KeyKind}
    (hkind : kind ≠ .text) (hkind' : kind' ≠ .text) (h : kind.admits value = true)
    (h' : kind'.admits value' = true) (hshown : shown written value = shown written value') :
    value = value' := by
  have hshows : ∀ {value : Json}, IsNumber value → shown written value = value.render := by
    rintro value (⟨n, rfl⟩ | ⟨digits, rfl, -⟩) <;> rfl
  have hnumber : ∀ {value : Json} {text : String}, text.toList.all isNumeral = false →
      IsNumber value → text ≠ shown written value := by
    rintro value text htext hvalue rfl
    rw [hshows hvalue] at htext
    exact Bool.eq_false_iff.mp htext
      (List.all_eq_true.mpr fun c hc => isNumeral_render hvalue hc)
  have hbool : ∀ b, (bool b).render.toList.all isNumeral = false := by
    intro b
    cases b <;> decide
  have hnull : ∀ b, written ≠ (bool b).render := by
    intro b
    cases b with
    | true => exact htrue
    | false => exact hfalse
  rcases eq_of_admits hkind h with rfl | ⟨b, rfl⟩ | hvalue <;>
    rcases eq_of_admits hkind' h' with rfl | ⟨b', rfl⟩ | hvalue'
  · rfl
  · exact absurd hshown (hnull b')
  · exact absurd hshown (hnumber hwritten hvalue')
  · exact absurd hshown.symm (hnull b)
  · have hboth : ∀ b b', (bool b).render = (bool b').render → b = b' := by decide
    rw [hboth b b' hshown]
  · exact absurd hshown (hnumber (hbool b) hvalue')
  · exact absurd hshown.symm (hnumber hwritten hvalue)
  · exact absurd hshown.symm (hnumber (hbool b') hvalue)
  · rw [hshows hvalue, hshows hvalue'] at hshown
    exact hvalue.render_inj hvalue' hshown

/-- A value that is no text has neither a comma nor the mark. -/
theorem notMem_scalarDisplay {value : Json} (hkind : kind ≠ .text) (h : kind.admits value = true) :
    ',' ∉ value.scalarDisplay.toList ∧ '=' ∉ value.scalarDisplay.toList := by
  rcases eq_of_admits hkind h with rfl | ⟨b, rfl⟩ | hvalue
  · decide
  · cases b <;> decide
  · have hdisplay : value.scalarDisplay = value.render := by
      rcases hvalue with ⟨n, rfl⟩ | ⟨digits, rfl, -⟩ <;> rfl
    rw [hdisplay]
    exact ⟨fun hc => absurd (isNumeral_render hvalue hc) (by decide),
      fun hc => absurd (isNumeral_render hvalue hc) (by decide)⟩

/-! ## The sorted list -/

namespace TableKey

variable {key : TableKey} {row row' : String → Json}

/-- A column of a longer key, with its text. -/
def part (row : String → Json) (name : String) : String :=
  name ++ "=" ++ (row name).scalarDisplay

/-- The text of a column. -/
def texts (row : String → Json) (name : String) : List Char :=
  (row name).scalarDisplay.toList

/-- The columns in the order of their parts. -/
def sorted (row : String → Json) (names : List String) : List String :=
  names.insertionSort fun a b => Json.NotBehind (part row a) (part row b)

/-- The parts of two rows have one order. -/
def SameOrder (row row' : String → Json) (names : List String) : Prop :=
  ∀ a ∈ names, ∀ b ∈ names,
    Json.keyBefore (part row a) (part row b) = Json.keyBefore (part row' a) (part row' b)

theorem toList_part (row : String → Json) (name : String) :
    (part row name).toList = piece '=' String.toList (texts row) name := by
  simp [part, piece, texts]

theorem perm_sorted (row : String → Json) (names : List String) :
    (sorted row names).Perm names :=
  List.perm_insertionSort _ _

theorem extractPk_many (hmany : 2 ≤ key.names.length) :
    key.extractPk row = .obj (key.names.map fun name => (name, row name)) := by
  rw [extractPk]
  split
  · next hnil => rw [hnil] at hmany; cases hmany
  · next one hone => rw [hone] at hmany; exact absurd hmany (by simp)
  · rfl

theorem pkToId_many (hmany : 2 ≤ key.names.length) :
    pkToId (key.extractPk row) = String.intercalate "," ((key.names.map (part row)).insertionSort
      Json.NotBehind) := by
  rw [extractPk_many hmany, pkToId, List.map_map]
  rfl

/-- The id of a longer key, in the order of a row whose parts are ordered alike. -/
theorem led_pkToId (hmany : 2 ≤ key.names.length) (hsame : SameOrder row row' key.names) :
    ',' :: (pkToId (key.extractPk row')).toList =
      led ',' '=' String.toList (texts row') (sorted row key.names) := by
  have hne : sorted row key.names ≠ [] := by
    intro hnil
    have hlength := (perm_sorted row key.names).length_eq
    rw [hnil] at hlength
    rw [← hlength] at hmany
    cases hmany
  have hsorted : (key.names.map (part row')).insertionSort Json.NotBehind =
      (sorted row key.names).map (part row') := by
    symm
    apply List.map_insertionSort
    intro a ha b hb
    rw [Json.NotBehind, Json.NotBehind, hsame b hb a ha]
  rw [pkToId_many hmany, hsorted, String.toList_intercalate, ← cons_intercalate hne,
    List.map_map]
  congr 2
  exact List.map_congr_left fun name _ => toList_part row' name

/-! ## Keys that are told apart -/

theorem not_prefix_mark {a b : String} (hne : a ≠ b) (h : ¬ a.toList ++ ['='] <+: b.toList) :
    ¬ a.toList ++ ['='] <+: b.toList ++ ['='] := by
  intro hbegins
  rcases List.prefix_concat_iff.mp hbegins with hwhole | hbegins
  · exact hne (String.toList_inj.mp (List.append_cancel_right hwhole))
  · exact h hbegins

/-- Where no name begins with another and the mark, the names alone decide the order. -/
theorem NamesApart.sameOrder (h : key.NamesApart) : SameOrder row row' key.names := by
  intro a ha b hb
  by_cases heq : a = b
  · subst heq
    rw [keyBefore, keyBefore, charsBefore_irrefl, charsBefore_irrefl]
  · have hnames : ∀ row : String → Json, keyBefore (part row a) (part row b) =
        charsBefore (a.toList ++ ['=']) (b.toList ++ ['=']) := by
      intro row
      have hsplit : ∀ name, (part row name).toList = name.toList ++ ['='] ++ texts row name := by
        intro name
        simp [part, texts]
      rw [keyBefore, hsplit, hsplit]
      exact charsBefore_append (not_prefix_mark heq (h a ha b hb))
        (not_prefix_mark (Ne.symm heq) (h b hb a ha)) _ _
    rw [hnames, hnames]

/-- A column of texts only is known by its text. -/
theorem eq_of_texts (htext : .text ∈ column.kinds → ∀ kind ∈ column.kinds, kind = .text)
    (h : column.admits value = true) (h' : column.admits value' = true)
    (hvalues : value.scalarDisplay = value'.scalarDisplay ∨ pkToId value = pkToId value') :
    value = value' := by
  obtain ⟨kind, hkind, hadmits⟩ := List.any_eq_true.mp h
  obtain ⟨kind', hkind', hadmits'⟩ := List.any_eq_true.mp h'
  by_cases hmem : KeyKind.text ∈ column.kinds
  · rw [htext hmem kind hkind] at hadmits
    rw [htext hmem kind' hkind'] at hadmits'
    cases value with
    | str s =>
      cases value' with
      | str s' => exact congrArg str (hvalues.elim id id)
      | null | bool | int | float | arr | obj => cases hadmits'
    | null | bool | int | float | arr | obj => cases hadmits
  · have hne : ∀ {kind}, kind ∈ column.kinds → kind ≠ KeyKind.text := fun hkind heq =>
      hmem (heq ▸ hkind)
    have hnamed : ∀ {kind : KeyKind} {value : Json}, kind ≠ .text → kind.admits value = true →
        value.scalarDisplay = shown "null" value ∧ pkToId value = shown "__null__" value := by
      intro kind value hkind h
      rcases eq_of_admits hkind h with rfl | ⟨b, rfl⟩ | ⟨n, rfl⟩ | ⟨digits, rfl, -⟩ <;>
        exact ⟨rfl, rfl⟩
    obtain ⟨hdisplay, hid⟩ := hnamed (hne hkind) hadmits
    obtain ⟨hdisplay', hid'⟩ := hnamed (hne hkind') hadmits'
    rw [hdisplay, hdisplay', hid, hid'] at hvalues
    obtain hvalues | hvalues := hvalues
    all_goals
      exact shown_inj (by decide) (by decide) (by decide) (hne hkind) (hne hkind') hadmits hadmits'
        hvalues

/-- One column of texts at most, and names that keep apart: the id has the whole key. -/
theorem OneText.identifies (h : key.OneText) (hapart : key.NamesApart) : key.Identifies := by
  intro row row' hrow hrow' hid
  rw [extractPk_inj]
  rcases Nat.lt_or_ge key.names.length 2 with hfew | hmany
  · rcases hnames : key.names with - | ⟨one, - | ⟨other, rest⟩⟩
    · intro name hname
      cases hname
    · intro name hname
      obtain rfl := List.mem_singleton.mp hname
      obtain ⟨column, hcolumn, rfl⟩ : ∃ column ∈ key.columns, column.name = name :=
        List.mem_map.mp (hnames ▸ List.mem_singleton_self name : name ∈ key.names)
      simp only [extractPk, hnames] at hid
      exact eq_of_texts (h.only column hcolumn) (hrow column hcolumn) (hrow' column hcolumn)
        (.inr hid)
    · rw [hnames] at hfew
      exact absurd hfew (by simp)
  · have hsame : ∀ row', SameOrder row row' key.names := fun row' => hapart.sameOrder
    have hled : led ',' '=' String.toList (texts row) (sorted row key.names) =
        led ',' '=' String.toList (texts row') (sorted row key.names) := by
      rw [← led_pkToId hmany (hsame row), ← led_pkToId hmany (hsame row'), hid]
    obtain ⟨t, ht⟩ : ∃ t : String, ∀ column ∈ key.columns, column.name ≠ t →
        ∀ kind ∈ column.kinds, kind ≠ .text := by
      by_cases hsome : ∃ column ∈ key.columns, KeyKind.text ∈ column.kinds
      · obtain ⟨one, hone, htext⟩ := hsome
        refine ⟨one.name, fun column hcolumn hne kind hkind heq => hne ?_⟩
        rw [h.one column hcolumn one hone (heq ▸ hkind) htext]
      · exact ⟨"", fun column hcolumn _ kind hkind heq =>
          hsome ⟨column, hcolumn, heq ▸ hkind⟩⟩
    have hcolumn : ∀ name ∈ key.names, ∃ column ∈ key.columns, column.name = name :=
      fun name hname => List.mem_map.mp hname
    have hplain : ∀ {row : String → Json}, key.Fits row → ∀ name ∈ key.names, name ≠ t →
        ',' ∉ texts row name ∧ '=' ∉ texts row name := by
      intro row hrow name hname hne
      obtain ⟨column, hmem, rfl⟩ := hcolumn name hname
      obtain ⟨kind, hkind, hadmits⟩ := List.any_eq_true.mp (hrow column hmem)
      exact notMem_scalarDisplay (ht column hmem hne kind hkind) hadmits
    have hperm := perm_sorted row key.names
    have htexts := led_inj (hperm.nodup_iff.mpr nodup_names)
      (fun name hname hne => ⟨hplain hrow name (hperm.mem_iff.mp hname) hne,
        hplain hrow' name (hperm.mem_iff.mp hname) hne⟩) hled
    intro name hname
    obtain ⟨column, hmem, rfl⟩ := hcolumn name hname
    exact eq_of_texts (h.only column hmem) (hrow column hmem) (hrow' column hmem)
      (.inl (String.toList_inj.mp (htexts column.name (hperm.mem_iff.mpr hname))))

/-! ## Keys that are not -/

/-- A text beside the text of another value has its id. -/
theorem Identifies.only (h : key.Identifies) (hcolumn : column ∈ key.columns)
    (htext : .text ∈ column.kinds) (hkind : kind ∈ column.kinds) : kind = .text := by
  by_contra hne
  obtain ⟨row, hrow⟩ := key.exists_fits
  have hname : column.name ∈ key.names := List.mem_map_of_mem hcolumn
  have hsample : column.admits kind.sample = true :=
    List.any_eq_true.mpr ⟨kind, hkind, kind.admits_sample⟩
  have hstr : ∀ s, column.admits (.str s) = true := fun s =>
    List.any_eq_true.mpr ⟨.text, htext, rfl⟩
  have hdiffer : ∀ s, kind.sample ≠ .str s := by
    intro s
    cases kind with
    | text => exact absurd rfl hne
    | number | boolean | null =>
      intro heq
      cases heq
  have hcollide : ∃ s, pkToId (key.extractPk (Function.update row column.name kind.sample)) =
      pkToId (key.extractPk (Function.update row column.name (.str s))) := by
    rcases Nat.lt_or_ge key.names.length 2 with hfew | hmany
    · refine ⟨pkToId kind.sample, ?_⟩
      rcases hnames : key.names with - | ⟨one, - | ⟨other, rest⟩⟩
      · rw [hnames] at hname
        cases hname
      · rw [hnames] at hname
        obtain rfl := List.mem_singleton.mp hname
        simp only [extractPk, hnames, Function.update_self]
        rfl
      · rw [hnames] at hfew
        exact absurd hfew (by simp)
    · refine ⟨kind.sample.scalarDisplay, ?_⟩
      rw [pkToId_many hmany, pkToId_many hmany]
      congr 2
      refine List.map_congr_left fun name _ => ?_
      rw [part, part]
      by_cases heq : name = column.name
      · rw [heq, Function.update_self, Function.update_self]
        rfl
      · rw [Function.update_of_ne heq, Function.update_of_ne heq]
  obtain ⟨s, hid⟩ := hcollide
  have hpk := h _ _ (hrow.update hcolumn hsample) (hrow.update hcolumn (hstr s)) hid
  have hvalue := extractPk_inj.mp hpk column.name hname
  rw [Function.update_self, Function.update_self] at hvalue
  exact hdiffer s hvalue

/-- The id does not depend on the order of the columns. -/
theorem pkToId_of_perm (hmany : 2 ≤ key.names.length)
    (hperm : (key.names.map (part row)).Perm (key.names.map (part row'))) :
    pkToId (key.extractPk row) = pkToId (key.extractPk row') := by
  rw [pkToId_many hmany, pkToId_many hmany]
  congr 1
  exact ((List.perm_insertionSort _ _).trans (hperm.trans (List.perm_insertionSort _ _).symm)
    ).eq_of_pairwise' (List.pairwise_insertionSort Json.NotBehind _)
      (List.pairwise_insertionSort Json.NotBehind _)

variable {i j : KeyColumn}

/-- A column of texts and one whose name begins with its name and the mark. -/
theorem collide_of_prefix (hmany : 2 ≤ key.names.length) (hrow : key.Fits row)
    (hi : i ∈ key.columns) (hj : j ∈ key.columns) (hne : i.name ≠ j.name) (hti : .text ∈ i.kinds)
    (htj : .text ∈ j.kinds) (hbegins : i.name.toList ++ ['='] <+: j.name.toList) :
    ¬ key.Identifies := by
  obtain ⟨rest, hrest⟩ := hbegins
  let swapped (x y : String) : String → Json :=
    Function.update (Function.update row i.name (.str (String.ofList rest ++ "=" ++ x))) j.name
      (.str y)
  have hfits : ∀ x y, key.Fits (swapped x y) := fun x y =>
    (hrow.update hi (List.any_eq_true.mpr ⟨.text, hti, rfl⟩)).update hj
      (List.any_eq_true.mpr ⟨.text, htj, rfl⟩)
  have hpi : ∀ x y, part (swapped x y) i.name = j.name ++ "=" ++ x := by
    intro x y
    simp only [part, swapped, Function.update_of_ne hne, Function.update_self]
    rw [← String.toList_inj, scalarDisplay]
    simp [← hrest]
  have hpj : ∀ x y, part (swapped x y) j.name = j.name ++ "=" ++ y := by
    intro x y
    simp only [part, swapped, Function.update_self]
    rfl
  have hother : ∀ x y name, name ≠ i.name → name ≠ j.name →
      part (swapped x y) name = part row name := by
    intro x y name hni hnj
    simp only [part, swapped, Function.update_of_ne hni, Function.update_of_ne hnj]
  have hperm : (key.names.map (part (swapped "1" "2"))).Perm
      (key.names.map (part (swapped "2" "1"))) := by
    have hswap : key.names.map (part (swapped "1" "2")) =
        (key.names.map (Equiv.swap i.name j.name)).map (part (swapped "2" "1")) := by
      rw [List.map_map]
      refine List.map_congr_left fun name _ => ?_
      rw [Function.comp_apply]
      by_cases hni : name = i.name
      · rw [hni, Equiv.swap_apply_left, hpi, hpj]
      · by_cases hnj : name = j.name
        · rw [hnj, Equiv.swap_apply_right, hpi, hpj]
        · rw [Equiv.swap_apply_of_ne_of_ne hni hnj, hother _ _ _ hni hnj, hother _ _ _ hni hnj]
    rw [hswap]
    have hmem : ∀ name ∈ key.names, Equiv.swap i.name j.name name ∈ key.names := by
      intro name hname
      by_cases hni : name = i.name
      · rw [hni, Equiv.swap_apply_left]
        exact List.mem_map_of_mem hj
      · by_cases hnj : name = j.name
        · rw [hnj, Equiv.swap_apply_right]
          exact List.mem_map_of_mem hi
        · rwa [Equiv.swap_apply_of_ne_of_ne hni hnj]
    refine List.Perm.map _ ((List.perm_ext_iff_of_nodup
      (nodup_names.map (Equiv.swap i.name j.name).injective) nodup_names).mpr fun name => ?_)
    rw [List.mem_map]
    constructor
    · rintro ⟨name, hname, rfl⟩
      exact hmem name hname
    · intro hname
      exact ⟨_, hmem name hname, Equiv.swap_apply_self ..⟩
  intro h
  have hpk := h _ _ (hfits "1" "2") (hfits "2" "1") (pkToId_of_perm hmany hperm)
  have hvalue := extractPk_inj.mp hpk j.name (List.mem_map_of_mem hj)
  simp only [swapped, Function.update_self] at hvalue
  exact absurd hvalue (by decide)

/-- Two columns of texts whose names keep apart. -/
theorem collide_of_apart (hmany : 2 ≤ key.names.length) (hrow : key.Fits row) (hi : i ∈ key.columns)
    (hj : j ∈ key.columns) (hne : i.name ≠ j.name) (hti : .text ∈ i.kinds) (htj : .text ∈ j.kinds)
    (hij : ¬ i.name.toList ++ ['='] <+: j.name.toList)
    (hji : ¬ j.name.toList ++ ['='] <+: i.name.toList) : ¬ key.Identifies := by
  -- a text so long that no other part has to do with what comes behind it
  let long : List Char :=
    List.replicate ((key.names.map fun name => (part row name).toList.length).sum + 1) 'x'
  have hlong : ∀ name ∈ key.names, (part row name).toList.length < long.length := by
    intro name hname
    rw [List.length_replicate]
    exact Nat.lt_succ_of_le (List.le_sum_of_mem (List.mem_map_of_mem hname))
  let texted (x y : List Char) : String → Json :=
    Function.update (Function.update row i.name (.str (String.ofList (long ++ x)))) j.name
      (.str (String.ofList (long ++ y)))
  have hfits : ∀ x y, key.Fits (texted x y) := fun x y =>
    (hrow.update hi (List.any_eq_true.mpr ⟨.text, hti, rfl⟩)).update hj
      (List.any_eq_true.mpr ⟨.text, htj, rfl⟩)
  have hpi : ∀ x y, (part (texted x y) i.name).toList = i.name.toList ++ ['='] ++ long ++ x := by
    intro x y
    simp [part, texted, Function.update_of_ne hne, scalarDisplay]
  have hpj : ∀ x y, (part (texted x y) j.name).toList = j.name.toList ++ ['='] ++ long ++ y := by
    intro x y
    simp [part, texted, scalarDisplay]
  have hother : ∀ x y name, name ≠ i.name → name ≠ j.name →
      part (texted x y) name = part row name := by
    intro x y name hni hnj
    simp only [part, texted, Function.update_of_ne hni, Function.update_of_ne hnj]
  have hends : ∀ name, name = i.name ∨ name = j.name → ∀ o : String,
      o.toList.length < long.length → ∀ x y,
        keyBefore (part (texted [] []) name) o = keyBefore (part (texted x y) name) o ∧
          keyBefore o (part (texted [] []) name) =
            keyBefore o (part (texted x y) name) := by
    intro name hname o ho x y
    obtain ⟨front, hfront⟩ : ∃ front : List Char, ∀ x y, ∃ z,
        (part (texted x y) name).toList = front ++ long ++ z := by
      rcases hname with rfl | rfl
      · exact ⟨_, fun x y => ⟨x, hpi x y⟩⟩
      · exact ⟨_, fun x y => ⟨y, hpj x y⟩⟩
    have hlt : o.toList.length < (front ++ long).length := by
      rw [List.length_append]
      exact Nat.lt_add_left _ ho
    obtain ⟨z, hz⟩ := hfront x y
    obtain ⟨z', hz'⟩ := hfront [] []
    simp only [keyBefore, hz, hz', charsBefore_append_long hlt, and_self]
  have hbefore : ∀ x y, keyBefore (part (texted x y) i.name) (part (texted x y) j.name) =
      charsBefore (i.name.toList ++ ['=']) (j.name.toList ++ ['=']) ∧
        keyBefore (part (texted x y) j.name) (part (texted x y) i.name) =
          charsBefore (j.name.toList ++ ['=']) (i.name.toList ++ ['=']) := by
    intro x y
    simp only [keyBefore, hpi, hpj, List.append_assoc _ long]
    have hij' := not_prefix_mark hne hij
    have hji' := not_prefix_mark (Ne.symm hne) hji
    exact ⟨charsBefore_append hij' hji' _ _, charsBefore_append hji' hij' _ _⟩
  have hsame : ∀ x y, SameOrder (texted [] []) (texted x y) key.names := by
    intro x y a ha b hb
    by_cases hab : a = b
    · subst hab
      rw [keyBefore, keyBefore, charsBefore_irrefl, charsBefore_irrefl]
    by_cases hea : a = i.name ∨ a = j.name
    · by_cases heb : b = i.name ∨ b = j.name
      · rcases hea with rfl | rfl <;> rcases heb with rfl | rfl
        · exact absurd rfl hab
        · rw [(hbefore x y).1, (hbefore [] []).1]
        · rw [(hbefore x y).2, (hbefore [] []).2]
        · exact absurd rfl hab
      · rw [not_or] at heb
        rw [hother x y b heb.1 heb.2, hother [] [] b heb.1 heb.2]
        exact (hends a hea _ (hlong b hb) x y).1
    · rw [not_or] at hea
      rw [hother x y a hea.1 hea.2, hother [] [] a hea.1 hea.2]
      by_cases heb : b = i.name ∨ b = j.name
      · exact (hends b heb _ (hlong a ha) x y).2
      · rw [not_or] at heb
        rw [hother x y b heb.1 heb.2, hother [] [] b heb.1 heb.2]
  have htexts : ∀ x y, texts (texted x y) =
      Function.update (Function.update (texts row) i.name (long ++ x)) j.name (long ++ y) := by
    intro x y
    funext name
    by_cases hnj : name = j.name
    · subst hnj
      simp [texts, texted, scalarDisplay]
    · by_cases hni : name = i.name
      · subst hni
        simp [texts, texted, scalarDisplay, hnj]
      · simp [texts, texted, hni, hnj]
  -- whichever of the two comes first can have what is between them, or leave it to the other
  have hmoved : ∃ x y x' y', x ≠ x' ∧
      led ',' '=' String.toList (texts (texted x y)) (sorted (texted [] []) key.names) =
        led ',' '=' String.toList (texts (texted x' y'))
          (sorted (texted [] []) key.names) := by
    have hperm := perm_sorted (texted [] []) key.names
    have hnodup := hperm.nodup_iff.mpr nodup_names
    have hjmem := hperm.mem_iff.mpr (List.mem_map_of_mem hj)
    obtain ⟨front, back, hsplit⟩ := List.append_of_mem
      (hperm.mem_iff.mpr (List.mem_map_of_mem hi))
    rw [hsplit] at hnodup hjmem ⊢
    rcases List.mem_append.mp hjmem with hjmem | hjmem
    · obtain ⟨front, between, rfl⟩ := List.append_of_mem hjmem
      rw [List.append_assoc, List.cons_append] at hnodup ⊢
      obtain ⟨moved, hne', hmoved⟩ := led_moved hnodup long
      refine ⟨[], moved, moved, [], Ne.symm hne', ?_⟩
      rw [htexts, htexts, Function.update_comm hne, Function.update_comm hne, List.append_nil]
      exact hmoved
    · obtain ⟨between, back, rfl⟩ := List.append_of_mem
        ((List.mem_cons.mp hjmem).resolve_left (Ne.symm hne))
      obtain ⟨moved, hne', hmoved⟩ := led_moved hnodup long
      refine ⟨moved, [], [], moved, hne', ?_⟩
      rw [htexts, htexts, List.append_nil]
      exact hmoved
  intro h
  obtain ⟨x, y, x', y', hx, hled⟩ := hmoved
  rw [← led_pkToId hmany (hsame x y), ← led_pkToId hmany (hsame x' y'), List.cons_inj_right,
    String.toList_inj] at hled
  have hvalue := extractPk_inj.mp (h _ _ (hfits x y) (hfits x' y') hled) i.name
    (List.mem_map_of_mem hi)
  simp only [texted, Function.update_of_ne hne, Function.update_self] at hvalue
  exact hx (List.append_cancel_left (String.ofList_injective (str.inj hvalue)))

/-- Two columns that hold texts can exchange a part of them. -/
theorem Identifies.one (h : key.Identifies) (hi : i ∈ key.columns) (hj : j ∈ key.columns)
    (hti : .text ∈ i.kinds) (htj : .text ∈ j.kinds) : i = j := by
  by_contra hij
  have hne : i.name ≠ j.name := fun heq => hij (column_ext hi hj heq)
  have hmany : 2 ≤ key.names.length := by
    have hpair : [i.name, j.name].Subperm key.names :=
      List.subperm_of_subset (by simp [hne]) (by
        simp only [List.cons_subset, List.nil_subset, and_true]
        exact ⟨List.mem_map_of_mem hi, List.mem_map_of_mem hj⟩)
    exact hpair.length_le
  obtain ⟨row, hrow⟩ := key.exists_fits
  by_cases hbegins : i.name.toList ++ ['='] <+: j.name.toList
  · exact collide_of_prefix hmany hrow hi hj hne hti htj hbegins h
  · by_cases hbegins' : j.name.toList ++ ['='] <+: i.name.toList
    · exact collide_of_prefix hmany hrow hj hi (Ne.symm hne) htj hti hbegins' h
    · exact collide_of_apart hmany hrow hi hj hne hti htj hbegins hbegins' h

/-- **Ids tell the keys of a table apart only if one of its key columns at most holds text, and
that one nothing else; and then they do, where the names of the columns keep apart.** -/
theorem identifies_oneText (key : TableKey) :
    (key.Identifies → key.OneText) ∧ (key.OneText → key.NamesApart → key.Identifies) :=
  ⟨fun h => ⟨fun _ hi _ hj hti htj => h.one hi hj hti htj, fun _ hcolumn htext _ hkind =>
    h.only hcolumn htext hkind⟩, OneText.identifies⟩

/-- Names that do not keep apart are enough for numbers to have one id. -/
example : pkToId (.obj [("a", .int 2), ("a=1,a", .int 1)]) =
    pkToId (.obj [("a", .int 1), ("a=1,a", .int 2)]) := by decide +kernel

/-! ### Two columns of texts -/

/-- A key of two texts. -/
def twoTexts : TableKey :=
  ⟨[⟨"a", [.text], by decide⟩, ⟨"b", [.text], by decide⟩], by decide⟩

/-- A row of the two. -/
def twoTextsRow (a b : String) (name : String) : Json :=
  .str (if name = "a" then a else b)

/-- The comma and the name of the second column stand in the first, or in the second. -/
theorem twoTexts_collide :
    pkToId (twoTexts.extractPk (twoTextsRow "1,b=2" "3")) =
      pkToId (twoTexts.extractPk (twoTextsRow "1" "2,b=3")) ∧
    twoTexts.extractPk (twoTextsRow "1,b=2" "3") ≠ twoTexts.extractPk (twoTextsRow "1" "2,b=3") ∧
    ¬ twoTexts.Identifies := by
  have hfits : ∀ a b, twoTexts.Fits (twoTextsRow a b) := by
    intro a b column hcolumn
    simp only [twoTexts, List.mem_cons, List.not_mem_nil, or_false] at hcolumn
    rcases hcolumn with rfl | rfl <;> rfl
  have hid : pkToId (twoTexts.extractPk (twoTextsRow "1,b=2" "3")) =
      pkToId (twoTexts.extractPk (twoTextsRow "1" "2,b=3")) := by decide +kernel
  have hpk : twoTexts.extractPk (twoTextsRow "1,b=2" "3") ≠
      twoTexts.extractPk (twoTextsRow "1" "2,b=3") := by decide +kernel
  exact ⟨hid, hpk, fun h => hpk (h _ _ (hfits _ _) (hfits _ _) hid)⟩

end TableKey

end Pg2osync
