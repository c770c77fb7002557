import Pg2osync.Mapping

/-!
# The grammar of templates

A template is written as text with `{column}` placeholders. What the parser accepts
has no empty literal, and every brace of the text belongs to a placeholder.
-/

namespace Pg2osync

namespace IdTemplate

/-- The literal read so far, if there is one. -/
def flush (literal : List Char) : List IdPart :=
  if literal = [] then [] else [.literal (String.ofList literal)]

/-- A placeholder, if its name is one a column may have. -/
def placeholder (name : List Char) : Except String IdPart :=
  if name = [] then .error "empty placeholder \x7b\x7d in id template"
  else if name.head?.any (fun c => c.isAlpha || c = '_') &&
      name.all (fun c => c.isAlphanum || c = '_') then .ok (.column (String.ofList name))
  else .error ("placeholder '\x7b" ++ String.ofList name ++
    "\x7d' must name a column: [A-Za-z_][A-Za-z0-9_]*")

/-- The parser's loop: the name of the placeholder it is inside, the literal read
before it, and what is left of the text. -/
def scan : Option (List Char) → List Char → List Char → Except String (List IdPart)
  | none, literal, [] => .ok (flush literal)
  | none, literal, c :: rest =>
    if c = '{' then scan (some []) literal rest
    else if c = '}' then .error "unbalanced '\x7d' in id template"
    else scan none (literal ++ [c]) rest
  | some _, _, [] => .error "unbalanced '\x7b' in id template"
  | some name, literal, c :: rest =>
    if c = '}' then
      (placeholder name).bind fun part =>
        (scan none [] rest).map fun parts => flush literal ++ part :: parts
    else if c = '{' then .error "nested '\x7b' in id template"
    else scan (some (name ++ [c])) literal rest

/-- `IdTemplate::parse`. -/
def parse (spec : String) (pkColumns : List String) : Except String IdTemplate :=
  (scan none [] spec.toList).bind fun parts =>
    if parts = [] then .error "id template is empty"
    else
      let template : IdTemplate := ⟨parts, false⟩
      .ok ⟨parts, template.columns.all pkColumns.contains⟩

variable {name : String}

theorem mem_columns {template : IdTemplate} :
    name ∈ template.columns ↔ IdPart.column name ∈ template.parts := by
  simp only [columns, List.mem_eraseDups, List.mem_filterMap]
  constructor
  · rintro ⟨part, hpart, hname⟩
    cases part with
    | literal text => cases hname
    | column other =>
      obtain rfl := Option.some.inj hname
      exact hpart
  · exact fun hpart => ⟨_, hpart, rfl⟩

/-- `IdTemplate::literals`. -/
def literals (template : IdTemplate) : List String :=
  template.parts.filterMap fun part => match part with
    | .literal text => some text
    | .column _ => none

/-! ## What the parser accepts -/

theorem mem_flush {literal : List Char} {part : IdPart} (h : part ∈ flush literal) :
    literal ≠ [] ∧ part = .literal (String.ofList literal) := by
  rw [flush] at h
  split at h
  · cases h
  · next hne => exact ⟨hne, List.mem_singleton.mp h⟩

theorem placeholder_ok {name : List Char} {part : IdPart} (h : placeholder name = .ok part) :
    part = .column (String.ofList name) := by
  simp only [placeholder] at h
  split at h
  · cases h
  · split at h
    · cases h
      rfl
    · cases h

variable {parts : List IdPart}

/-- No literal of the parts is empty. -/
theorem scan_literal {inside : Option (List Char)} {literal rest : List Char}
    (h : scan inside literal rest = .ok parts) {text : String} (hmem : .literal text ∈ parts) :
    text.toList ≠ [] := by
  have hflush : ∀ {literal : List Char}, IdPart.literal text ∈ flush literal →
      text.toList ≠ [] := by
    intro literal hmem
    obtain ⟨hne, heq⟩ := mem_flush hmem
    cases heq
    rwa [String.toList_ofList]
  induction rest generalizing inside literal parts with
  | nil =>
    cases inside with
    | none =>
      rw [scan] at h
      cases h
      exact hflush hmem
    | some name => rw [scan] at h; cases h
  | cons c rest ih =>
    cases inside with
    | none =>
      rw [scan] at h
      split at h
      · exact ih h hmem
      · split at h
        · cases h
        · exact ih h hmem
    | some name =>
      rw [scan] at h
      split at h
      · obtain ⟨part, hp, h⟩ := Except.bind_eq_ok h
        obtain ⟨after, hs, rfl⟩ := Except.map_eq_ok h
        rcases List.mem_append.mp hmem with hmem | hmem
        · exact hflush hmem
        · rcases List.mem_cons.mp hmem with hmem | hmem
          · rw [placeholder_ok hp] at hmem; cases hmem
          · exact ih hs hmem
      · split at h
        · cases h
        · exact ih h hmem

/-- A text with an opening brace has a placeholder. -/
theorem scan_column {inside : Option (List Char)} {literal rest : List Char}
    (h : scan inside literal rest = .ok parts)
    (hbrace : inside.isSome ∨ '{' ∈ rest) : ∃ name, IdPart.column name ∈ parts := by 
  induction rest generalizing inside literal parts with
  | nil =>
    cases inside with
    | none => simp at hbrace
    | some name => rw [scan] at h; cases h
  | cons c rest ih =>
    cases inside with
    | none =>
      rw [scan] at h
      split at h
      · exact ih h (.inl rfl)
      · next hc =>
        split at h
        · cases h
        · refine ih h (.inr ?_)
          rcases hbrace with hbrace | hbrace
          · cases hbrace
          · exact (List.mem_cons.mp hbrace).resolve_left (fun heq => hc heq.symm)
    | some name =>
      rw [scan] at h
      split at h
      · obtain ⟨part, hp, h⟩ := Except.bind_eq_ok h
        obtain ⟨after, hs, rfl⟩ := Except.map_eq_ok h
        rw [placeholder_ok hp]
        exact ⟨_, List.mem_append_right _ List.mem_cons_self⟩
      · split at h
        · cases h
        · exact ih h (.inl rfl)

theorem parse_ok {spec : String} {pkColumns : List String} {template : IdTemplate}
    (h : parse spec pkColumns = .ok template) :
    scan none [] spec.toList = .ok template.parts := by
  rw [parse] at h
  obtain ⟨parts, hs, h⟩ := Except.bind_eq_ok h
  split at h
  · cases h
  · cases h
    exact hs

/-! ## What a template renders -/

/-- The text of some pieces, given the text of each column. -/
def spell (value : String → List Char) (parts : List IdPart) : List Char :=
  parts.flatMap fun part => match part with
    | .literal text => text.toList
    | .column name => value name

@[simp] theorem spell_nil (value : String → List Char) : spell value [] = [] :=
  rfl

@[simp] theorem spell_literal (value : String → List Char) (text : String) (parts : List IdPart) :
    spell value (.literal text :: parts) = text.toList ++ spell value parts :=
  rfl

@[simp] theorem spell_column (value : String → List Char) (name : String) (parts : List IdPart) :
    spell value (.column name :: parts) = value name ++ spell value parts :=
  rfl

theorem literal_subset_spell {value : String → List Char} {text : String}
    (h : .literal text ∈ parts) : text.toList ⊆ spell value parts :=
  fun _ hc => List.mem_flatMap.mpr ⟨_, h, hc⟩

/-- The text that a row gives for a column. -/
def columnText (fields : List (String × Json)) (name : String) : List Char :=
  (((Json.lookup name fields).map Json.scalarDisplay).getD "").toList

theorem mapM_renderPart_ok {fields : List (String × Json)} {texts : List String}
    (h : parts.mapM (renderPart fields) = .ok texts) :
    texts.flatMap String.toList = spell (columnText fields) parts := by
  induction parts generalizing texts with
  | nil =>
    rw [List.mapM_nil] at h
    cases h
    rfl
  | cons part parts ih =>
    rw [List.mapM_cons] at h
    obtain ⟨text, hpart, h⟩ := Except.bind_eq_ok h
    obtain ⟨rest, hrest, h⟩ := Except.bind_eq_ok h
    cases h
    rw [List.flatMap_cons, ih hrest]
    cases part with
    | literal t =>
      cases hpart
      rfl
    | column name =>
      rw [renderPart] at hpart
      split at hpart
      · cases hpart
      · cases hpart
      · next value hvalue =>
        cases hpart
        rw [spell_column, columnText, hvalue]
        rfl

/-- A rendered name is spelled by the texts of the columns. -/
theorem render_ok {template : IdTemplate} {doc : Json} (h : template.render doc = .ok name) :
    ∃ value, name.toList = spell value template.parts := by
  cases doc with
  | obj fields =>
    obtain ⟨texts, hparts, rfl⟩ := Except.map_eq_ok h
    exact ⟨_, by rw [String.toList_join, mapM_renderPart_ok hparts]⟩
  | _ => cases h

theorem renderFromPk_ok {template : IdTemplate} {pk : Json}
    (h : template.renderFromPk pk = .ok name) :
    ∃ value, name.toList = spell value template.parts := by
  cases pk with
  | obj fields =>
    rw [renderFromPk] at h
    exact render_ok h
  | null => cases h
  | _ =>
    simp only [renderFromPk] at h
    split at h
    · split at h
      · exact render_ok h
      · cases h
    · cases h

/-- A row in which each column that a template names holds one text. -/
def filled (template : IdTemplate) (text : String) : Json :=
  .obj (template.columns.foldl (fun fields col => Json.insertField col (.str text) fields) [])

theorem lookup_filled {names : List String} (text : String) {fields : List (String × Json)}
    (h : name ∈ names ∨ Json.lookup name fields = some (.str text)) :
    Json.lookup name (names.foldl (fun fields col => Json.insertField col (.str text) fields)
      fields) = some (.str text) := by
  induction names generalizing fields with
  | nil => exact h.resolve_left List.not_mem_nil
  | cons first names ih =>
    rw [List.foldl_cons]
    apply ih
    by_cases hname : name = first
    · exact .inr (hname ▸ Json.lookup_insertField_self _ _ _)
    · refine h.imp (fun hmem => ?_) (fun hlook => ?_)
      · exact (List.mem_cons.mp hmem).resolve_left hname
      · rw [Json.lookup_insertField_ne hname, hlook]

/-- A template renders from a row that has each of its columns. -/
theorem render_filled (template : IdTemplate) (text : String) :
    ∃ name, template.render (template.filled text) = .ok name ∧
      name.toList = spell (fun _ => text.toList) template.parts := by
  have hparts : ∀ parts : List IdPart, (∀ part ∈ parts, part ∈ template.parts) →
      ∀ fields, template.filled text = .obj fields →
        ∃ texts, parts.mapM (renderPart fields) = .ok texts ∧
          texts.flatMap String.toList = spell (fun _ => text.toList) parts := by
    intro parts hmem fields hfields
    induction parts with
    | nil => exact ⟨[], rfl, rfl⟩
    | cons part parts ih =>
      obtain ⟨texts, hrest, hspell⟩ := ih fun p hp => hmem p (List.mem_cons_of_mem _ hp)
      cases part with
      | literal t =>
        refine ⟨t :: texts, ?_, ?_⟩
        · rw [List.mapM_cons, hrest]
          rfl
        · rw [List.flatMap_cons, hspell]
          rfl
      | column name =>
        have hname : name ∈ template.columns :=
          mem_columns.mpr (hmem _ List.mem_cons_self)
        have hlook : Json.lookup name fields = some (.str text) := by
          rw [filled] at hfields
          cases hfields
          exact lookup_filled text (.inl hname)
        refine ⟨text :: texts, ?_, ?_⟩
        · rw [List.mapM_cons, hrest, renderPart, hlook]
          rfl
        · rw [List.flatMap_cons, hspell]
          rfl
  obtain ⟨texts, htexts, hspell⟩ := hparts template.parts (fun _ h => h) _ rfl
  exact ⟨String.join texts, by rw [filled, render, htexts]; rfl, by
    rw [String.toList_join, hspell]⟩

end IdTemplate

end Pg2osync
