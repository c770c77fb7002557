import Pg2osync.Glob
import Pg2osync.IndexOverlap

/-!
# Index claims

A section claims the indices it writes, and a templated one also the whole glob that
its TRUNCATE clears. The pattern check compares one template's pattern with the text
of the other's, where a star is a letter like any other; what decides whether two
globs share a name is their ends. Two templates whose first literals agree as far as
both reach, and whose last ones do, render a common name from some rows, whatever
stands between.
-/

namespace Pg2osync

open Glob

/-! ## The greedy match -/

theorem afterFirst_some {literal word rest : List Char} (h : afterFirst literal word = some rest) :
    ∃ gap, word = gap ++ (literal ++ rest) := by
  induction word with
  | nil =>
    rw [afterFirst] at h
    split at h
    · next hpre =>
      cases h
      rw [List.isPrefixOf_iff_prefix, List.prefix_nil] at hpre
      exact ⟨[], by rw [hpre]; rfl⟩
    · cases h
  | cons c word ih =>
    rw [afterFirst] at h
    split at h
    · next hpre =>
      obtain ⟨tail, htail⟩ := List.isPrefixOf_iff_prefix.mp hpre
      cases h
      exact ⟨[], by rw [← htail, List.drop_left]; rfl⟩
    · obtain ⟨gap, hgap⟩ := ih h
      exact ⟨c :: gap, by rw [hgap]; rfl⟩

/-- The leftmost occurrence leaves at least what any other one does. -/
theorem afterFirst_leftmost (literal gap rest : List Char) :
    ∃ more, afterFirst literal (gap ++ (literal ++ rest)) = some (more ++ rest) := by
  induction gap with
  | nil =>
    refine ⟨[], ?_⟩
    have hpre : literal.isPrefixOf (literal ++ rest) = true :=
      List.isPrefixOf_iff_prefix.mpr (List.prefix_append _ _)
    rw [List.nil_append, List.nil_append]
    cases hword : literal ++ rest with
    | nil =>
      obtain ⟨rfl, rfl⟩ := List.append_eq_nil_iff.mp hword
      rfl
    | cons c word =>
      rw [hword] at hpre
      rw [afterFirst, if_pos hpre, ← hword, List.drop_left]
  | cons c gap ih =>
    rw [List.cons_append, afterFirst]
    split
    · next hpre =>
      obtain ⟨tail, htail⟩ := List.isPrefixOf_iff_prefix.mp hpre
      have hsuffix : rest <:+ tail := by
        have hrest : rest <:+ literal ++ tail := by
          rw [htail]
          exact (List.suffix_append _ _).trans (List.suffix_append (c :: gap) _)
        refine List.suffix_of_suffix_length_le hrest (List.suffix_append _ _) ?_
        have := congrArg List.length htail
        simp only [List.length_append, List.length_cons] at this
        omega
      obtain ⟨more, hmore⟩ := hsuffix
      exact ⟨more, by rw [← htail, List.drop_left, hmore]⟩
    · exact ih

/-- Matching each literal at its leftmost occurrence loses nothing. -/
theorem matchLiterals_iff {literals : List (List Char)} (hne : literals ≠ []) {word : List Char} :
    matchLiterals literals word = true ↔ ∃ gap rest, word = gap ++ rest ∧ Fits literals rest := by
  induction literals generalizing word with
  | nil => exact absurd rfl hne
  | cons literal literals ih =>
    cases literals with
    | nil =>
      rw [matchLiterals, List.isSuffixOf_iff_suffix]
      constructor
      · rintro ⟨gap, hgap⟩
        exact ⟨gap, literal, hgap.symm, rfl⟩
      · rintro ⟨gap, rest, rfl, hrest⟩
        rw [Fits] at hrest
        exact hrest ▸ List.suffix_append _ _
    | cons next more =>
      have ih := fun {word} => @ih (by simp) word
      rw [matchLiterals]
      constructor
      · intro h
        split at h
        · next rest hafter =>
          obtain ⟨gap, hgap⟩ := afterFirst_some hafter
          obtain ⟨gap', rest', hrest, hfits⟩ := ih.mp h
          exact ⟨gap, literal ++ rest, hgap, gap', rest', by rw [hrest], hfits⟩
        · cases h
      · rintro ⟨gap, _, rfl, gap', rest, rfl, hfits⟩
        obtain ⟨before, hafter⟩ := afterFirst_leftmost literal gap (gap' ++ rest)
        rw [hafter]
        exact ih.mpr ⟨before ++ gap', rest, by rw [List.append_assoc], hfits⟩

/-- A pattern matches the names that fit its pieces. -/
theorem indexMatchesPattern_iff {pattern name : String} :
    indexMatchesPattern pattern name = true ↔
      Fits (pattern.toList.splitOn '*') name.toList := by
  rw [indexMatchesPattern]
  have hjoin : ['*'].intercalate (pattern.toList.splitOn '*') = pattern.toList :=
    List.intercalate_splitOn '*'
  rcases hpieces : pattern.toList.splitOn '*' with _ | ⟨first, _ | ⟨next, more⟩⟩
  · exact absurd hpieces (List.splitOn_ne_nil _ _)
  · rw [hpieces] at hjoin
    simp only [Fits, decide_eq_true_eq]
    have hfirst : first = pattern.toList := by simpa using hjoin
    rw [hfirst, ← String.toList_inj]
    exact eq_comm
  · simp only [Bool.and_eq_true, List.isPrefixOf_iff_prefix,
      matchLiterals_iff (List.cons_ne_nil next more)]
    constructor
    · rintro ⟨⟨tail, htail⟩, gap, rest, hrest, hfits⟩
      rw [← htail, List.drop_left] at hrest
      exact ⟨gap, rest, by rw [← htail, hrest], hfits⟩
    · rintro ⟨gap, rest, heq, hfits⟩
      exact ⟨⟨_, heq.symm⟩, gap, rest, by rw [heq, List.drop_left], hfits⟩

/-! ## The pieces of a template's glob -/

variable {parts : List IdPart} {template : IdTemplate} {a b : List IdPart}

namespace IdTemplate

/-- The pieces of the glob of some parts; the flag says whether a star stands in front
of them, which absorbs a placeholder. -/
def pieces : Bool → List IdPart → List (List Char)
  | _, [] => [[]]
  | _, .literal text :: parts => (pieces false parts).modifyHead (text.toList ++ ·)
  | true, .column _ :: parts => pieces true parts
  | false, .column _ :: parts => [] :: pieces true parts

/-- The text before the first placeholder. -/
def leading : List IdPart → List Char
  | .literal text :: parts => text.toList ++ leading parts
  | _ => []

/-- Whether there is a placeholder. -/
def hasColumn (parts : List IdPart) : Bool :=
  parts.any fun part => match part with
    | .literal _ => false
    | .column _ => true

/-- The text after the last placeholder. -/
def trailing : List IdPart → List Char
  | [] => []
  | .literal text :: parts =>
    if hasColumn parts then trailing parts else text.toList ++ trailing parts
  | .column _ :: parts => trailing parts

theorem pieces_ne_nil (star : Bool) (parts : List IdPart) : pieces star parts ≠ [] := by
  induction parts generalizing star with
  | nil => cases star <;> simp [pieces]
  | cons part parts ih =>
    cases part with
    | literal text =>
      have hrest := ih false
      cases star <;> simpa [pieces] using hrest
    | column name =>
      cases star with
      | true => exact ih true
      | false => simp [pieces]

variable {c : Char}

/-- The letters of the pieces are those of the literals. -/
theorem mem_pieces {star : Bool} {piece : List Char} (hpiece : piece ∈ pieces star parts)
    (hc : c ∈ piece) : ∃ text, .literal text ∈ parts ∧ c ∈ text.toList := by
  induction parts generalizing star piece with
  | nil =>
    rw [pieces] at hpiece
    cases List.mem_singleton.mp hpiece
    cases hc
  | cons part parts ih =>
    have hlift : (∃ text, .literal text ∈ parts ∧ c ∈ text.toList) →
        ∃ text, .literal text ∈ part :: parts ∧ c ∈ text.toList :=
      fun ⟨text, h, hc⟩ => ⟨text, List.mem_cons_of_mem _ h, hc⟩
    cases part with
    | literal text =>
      rw [pieces] at hpiece
      cases hlist : pieces false parts with
      | nil => exact absurd hlist (pieces_ne_nil _ _)
      | cons first rest =>
        rw [hlist, List.modifyHead_cons] at hpiece
        rcases List.mem_cons.mp hpiece with rfl | hpiece
        · rcases List.mem_append.mp hc with hc | hc
          · exact ⟨text, List.mem_cons_self, hc⟩
          · exact hlift (@ih false _ (hlist ▸ List.mem_cons_self) hc)
        · exact hlift (@ih false _ (hlist ▸ List.mem_cons_of_mem _ hpiece) hc)
    | column name =>
      cases star with
      | true => exact hlift (ih hpiece hc)
      | false =>
        rcases List.mem_cons.mp hpiece with rfl | hpiece
        · cases hc
        · exact hlift (ih hpiece hc)

theorem head_pieces (parts : List IdPart) :
    ∃ rest, pieces false parts = leading parts :: rest := by
  induction parts with
  | nil => exact ⟨[], rfl⟩
  | cons part parts ih =>
    cases part with
    | literal text =>
      obtain ⟨rest, hrest⟩ := ih
      exact ⟨rest, by rw [pieces, hrest, leading]; rfl⟩
    | column name => exact ⟨_, rfl⟩

/-- Without a placeholder there is one piece, all of the text. -/
theorem pieces_of_literals (h : hasColumn parts = false) (star : Bool) :
    pieces star parts = [trailing parts] := by
  induction parts generalizing star with
  | nil => cases star <;> rfl
  | cons part parts ih =>
    cases part with
    | literal text =>
      have hrest : hasColumn parts = false := by simpa [hasColumn] using h
      have htrail : trailing (.literal text :: parts) = text.toList ++ trailing parts := by
        rw [trailing, if_neg (by rw [hrest]; decide)]
      rw [htrail]
      cases star <;> rw [pieces, ih hrest] <;> rfl
    | column name => simp [hasColumn] at h

/-- With one, the text before the first is a piece of its own, and so is the text after
the last. -/
theorem pieces_split (parts : List IdPart) :
    (hasColumn parts = true →
      ∃ inner, pieces false parts = leading parts :: (inner ++ [trailing parts])) ∧
    ∃ front, pieces true parts = front ++ [trailing parts] := by
  induction parts with
  | nil => exact ⟨nofun, [], rfl⟩
  | cons part parts ih =>
    obtain ⟨ihfalse, front, hfront⟩ := ih
    cases part with
    | literal text =>
      by_cases hrest : hasColumn parts = true
      · obtain ⟨inner, hinner⟩ := ihfalse hrest
        have htrail : trailing (.literal text :: parts) = trailing parts := by
          rw [trailing, if_pos hrest]
        rw [htrail, pieces, pieces, hinner, leading]
        exact ⟨fun _ => ⟨inner, rfl⟩, (text.toList ++ leading parts) :: inner, rfl⟩
      · have hnone : hasColumn (.literal text :: parts) = false := by
          simpa [hasColumn] using hrest
        refine ⟨fun h => ?_, [], pieces_of_literals hnone true⟩
        rw [hnone] at h
        cases h
    | column name =>
      rw [pieces, pieces, hfront]
      exact ⟨fun _ => ⟨front, rfl⟩, front, rfl⟩

/-! ## The pattern and the names fit the pieces -/

/-- A name that a template spells fits its pieces. -/
theorem spell_fits (value : String → List Char) (parts : List IdPart) :
    Fits (pieces false parts) (spell value parts) ∧
    ∃ gap rest, spell value parts = gap ++ rest ∧ Fits (pieces true parts) rest := by
  induction parts with
  | nil => exact ⟨rfl, [], [], rfl, rfl⟩
  | cons part parts ih =>
    obtain ⟨ihfalse, gap, rest, hspell, hrest⟩ := ih
    cases part with
    | literal text =>
      have hfits : Fits ((pieces false parts).modifyHead (text.toList ++ ·))
          (text.toList ++ spell value parts) := ihfalse.modifyHead _ (pieces_ne_nil _ _)
      rw [spell_literal, pieces, pieces]
      exact ⟨hfits, [], _, rfl, hfits⟩
    | column name =>
      rw [spell_column, pieces, pieces, hspell, fits_cons (pieces_ne_nil _ _),
        ← List.append_assoc]
      exact ⟨⟨_, rest, rfl, hrest⟩, _, rest, rfl, hrest⟩

theorem intercalate_modifyHead (front : List Char) {list : List (List Char)} (hne : list ≠ []) :
    ['*'].intercalate (list.modifyHead (front ++ ·)) = front ++ ['*'].intercalate list := by
  match list, hne with
  | [piece], _ => simp
  | piece :: next :: more, _ => simp [List.append_assoc]

/-- The text of the pattern, as it is built: the flag says whether it ends with a star. -/
theorem foldl_pattern (hlit : ∀ text, .literal text ∈ parts → text.toList ≠ [] ∧ '*' ∉ text.toList)
    (out : String) :
    (parts.foldl (fun out part => match part with
      | .literal text => out ++ text
      | .column _ => if out.toList.getLast? = some '*' then out else out ++ "*") out).toList =
      out.toList ++ ['*'].intercalate (pieces (out.toList.getLast? = some '*') parts) := by
  induction parts generalizing out with
  | nil => simp [pieces]
  | cons part parts ih =>
    have ih := ih fun text h => hlit text (List.mem_cons_of_mem _ h)
    rw [List.foldl_cons, ih]
    cases part with
    | literal text =>
      obtain ⟨hne, hstar⟩ := hlit text List.mem_cons_self
      have hlast : (out ++ text).toList.getLast? ≠ some '*' := by
        rw [String.toList_append, List.getLast?_append_of_ne_nil _ hne]
        exact fun h => hstar (List.mem_of_getLast? h)
      rw [pieces, intercalate_modifyHead _ (pieces_ne_nil _ _), decide_eq_false hlast,
        String.toList_append, List.append_assoc]
    | column name =>
      by_cases hlast : out.toList.getLast? = some '*'
      · simp only [hlast, if_true, decide_true, pieces]
      · have hnew : (out ++ "*").toList.getLast? = some '*' := by simp
        have hjoin : ['*'].intercalate ([] :: pieces true parts) =
            '*' :: ['*'].intercalate (pieces true parts) := by
          cases h : pieces true parts with
          | nil => exact absurd h (pieces_ne_nil _ _)
          | cons piece rest => simp
        simp only [hlast, if_false, decide_false, pieces, hnew, decide_true, hjoin]
        simp

/-- The pieces of a template's pattern, where no literal has a star of its own. -/
theorem splitOn_pattern {spec : String}
    (hlit : ∀ text, .literal text ∈ template.parts → text.toList ≠ [] ∧ '*' ∉ text.toList) :
    (IndexTarget.template spec template).pattern.toList.splitOn '*' =
      pieces false template.parts := by
  have htext : (IndexTarget.template spec template).pattern.toList =
      ['*'].intercalate (pieces false template.parts) := foldl_pattern hlit ""
  rw [htext]
  exact List.splitOn_intercalate '*' (fun piece hpiece hstar => by
    obtain ⟨text, htext, hmem⟩ := mem_pieces hpiece hstar
    exact (hlit text htext).2 hmem) (pieces_ne_nil _ _)

/-! ## A name that two templates share -/

theorem spell_of_literals (h : hasColumn parts = false) (value : String → List Char) :
    spell value parts = trailing parts := by
  induction parts with
  | nil => rfl
  | cons part parts ih =>
    cases part with
    | literal text =>
      have hrest : hasColumn parts = false := by simpa [hasColumn] using h
      rw [spell_literal, ih hrest, trailing, if_neg (by rw [hrest]; decide)]
    | column name => simp [hasColumn] at h

/-- A name in which every column has one text begins and ends with it, inside the
outer literals. -/
theorem spell_const (h : hasColumn parts = true) (w : List Char) :
    spell (fun _ => w) parts = leading parts ++ (w ++ trailing parts) ∨
    ∃ v, spell (fun _ => w) parts = leading parts ++ (w ++ (v ++ (w ++ trailing parts))) := by
  induction parts with
  | nil => cases h
  | cons part parts ih =>
    cases part with
    | literal text =>
      have hrest : hasColumn parts = true := by simpa [hasColumn] using h
      rw [spell_literal, leading, trailing, if_pos hrest]
      refine (ih hrest).imp (fun heq => ?_) (fun ⟨v, heq⟩ => ⟨v, ?_⟩)
      · rw [heq, List.append_assoc]
      · rw [heq, List.append_assoc]
    | column name =>
      have hlead : leading (.column name :: parts) = [] := rfl
      rw [spell_column, hlead, trailing, List.nil_append]
      by_cases hrest : hasColumn parts = true
      · right
        rcases ih hrest with heq | ⟨v, heq⟩
        · exact ⟨leading parts, by rw [heq]; rfl⟩
        · refine ⟨leading parts ++ (w ++ v), ?_⟩
          rw [heq]
          simp only [List.nil_append, List.append_assoc]
      · exact .inl (by rw [spell_of_literals (Bool.eq_false_iff.mpr hrest)])

theorem mem_leading (h : c ∈ leading parts) : ∃ text, .literal text ∈ parts ∧ c ∈ text.toList :=
  let ⟨_, hhead⟩ := head_pieces parts
  mem_pieces (hhead ▸ List.mem_cons_self) h

theorem mem_trailing (h : c ∈ trailing parts) : ∃ text, .literal text ∈ parts ∧ c ∈ text.toList :=
  let ⟨_, hfront⟩ := (pieces_split parts).2
  mem_pieces (hfront ▸ List.mem_append_right _ List.mem_cons_self) h

/-- Two templates whose first literals meet, and whose last ones do, share a name: some
row of the second renders what fits the glob of the first. Each column of that row has
what the second template's beginning lacks of the first's, an `x`, the first template's
inner literals, and what the second's end lacks of the first's. -/
theorem exists_shared (ha : hasColumn a = true) (hb : hasColumn b = true)
    (hheads : HeadsMeet (leading a) (leading b)) (htails : TailsMeet (trailing a) (trailing b)) :
    ∃ lacking rest inner, leading b ++ lacking = leading a ++ rest ∧ lacking <:+ leading a ∧
      (∀ c ∈ inner, ∃ text, .literal text ∈ a ∧ c ∈ text.toList) ∧
      Fits (pieces false a) (spell (fun _ => lacking ++ 'x' :: inner) b) := by
  obtain ⟨mids, hpieces⟩ := (pieces_split a).1 ha
  obtain ⟨lacking, rest, hhead, hlacking⟩ := hheads.complete
  obtain ⟨lacking', rest', htail, hlacking'⟩ := htails.complete
  refine ⟨lacking, rest, mids.flatten ++ lacking', hhead, hlacking, fun c hc => ?_, ?_⟩
  · rcases List.mem_append.mp hc with hc | hc
    · obtain ⟨piece, hpiece, hc⟩ := List.mem_flatten.mp hc
      exact mem_pieces (hpieces ▸ List.mem_cons_of_mem _ (List.mem_append_left _ hpiece)) hc
    · exact mem_trailing (hlacking'.subset hc)
  · rw [hpieces]
    -- the first column completes the beginning and holds the inner literals, the last
    -- one completes the end
    rcases spell_const hb (lacking ++ 'x' :: (mids.flatten ++ lacking')) with heq | ⟨v, heq⟩
    · have hword : spell (fun _ => lacking ++ 'x' :: (mids.flatten ++ lacking')) b =
          leading a ++ ((rest ++ ['x']) ++ (mids.flatten ++ (rest' ++ trailing a))) := by
        calc spell (fun _ => lacking ++ 'x' :: (mids.flatten ++ lacking')) b
            = (leading b ++ lacking) ++ ('x' :: mids.flatten) ++ (lacking' ++ trailing b) := by
              rw [heq]; simp
          _ = _ := by rw [hhead, htail]; simp
      rw [hword]
      exact fits_spread _ _ _ _ _
    · have hword : spell (fun _ => lacking ++ 'x' :: (mids.flatten ++ lacking')) b =
          leading a ++ ((rest ++ ['x']) ++ (mids.flatten ++
            ((lacking' ++ (v ++ (lacking ++ 'x' :: (mids.flatten ++ rest')))) ++ trailing a))) := by
        calc spell (fun _ => lacking ++ 'x' :: (mids.flatten ++ lacking')) b
            = (leading b ++ lacking) ++ ('x' :: (mids.flatten ++
                (lacking' ++ (v ++ (lacking ++ 'x' :: mids.flatten))))) ++
                (lacking' ++ trailing b) := by
              rw [heq]; simp
          _ = _ := by rw [hhead, htail]; simp
      rw [hword]
      exact fits_spread _ _ _ _ _

end IdTemplate

/-! ## Names an index may have -/

/-- A letter of an index name. -/
def indexChar (c : Char) : Bool :=
  asciiLower c || c.isDigit || c = '_' || c = '-'

theorem checkIndexName_ok {name : String} :
    checkIndexName name = .ok () ↔
      name.toList.head?.any asciiLower = true ∧ ∀ c ∈ name.toList, indexChar c = true := by
  have hall : (name.toList.all fun c => asciiLower c || c.isDigit || c = '_' || c = '-') = true ↔
      ∀ c ∈ name.toList, indexChar c = true := List.all_eq_true
  rw [← hall, checkIndexName]
  constructor
  · intro h
    split at h
    · cases h
    · split at h
      · cases h
      · next hhead hchars =>
        rw [Bool.not_eq_true, Bool.not_eq_false'] at hhead hchars
        exact ⟨hhead, hchars⟩
  · rintro ⟨hhead, hchars⟩
    rw [if_neg (by rw [hhead]; decide), if_neg (by rw [hchars]; decide)]

namespace IdTemplate

/-- A template whose sample is the name of an index: it has a placeholder, and the
letters of its literals are those of index names. -/
structure Usable (parts : List IdPart) : Prop where
  column : hasColumn parts = true
  literal : ∀ text, .literal text ∈ parts →
    text.toList ≠ [] ∧ ∀ c ∈ text.toList, indexChar c = true
  first : ∀ c rest, leading parts = c :: rest → asciiLower c = true

theorem hasColumn_iff : hasColumn parts = true ↔ ∃ name, IdPart.column name ∈ parts := by
  rw [hasColumn, List.any_eq_true]
  constructor
  · rintro ⟨part, hpart, h⟩
    cases part with
    | literal text => cases h
    | column name => exact ⟨name, hpart⟩
  · rintro ⟨name, h⟩
    exact ⟨_, h, rfl⟩

theorem leading_prefix_spell (value : String → List Char) (parts : List IdPart) :
    leading parts <+: spell value parts := by
  obtain ⟨rest, hrest⟩ := head_pieces parts
  have hfits := (spell_fits value parts).1
  rw [hrest] at hfits
  exact hfits.prefix

theorem Usable.star (h : Usable parts) (text : String) (hmem : .literal text ∈ parts) :
    text.toList ≠ [] ∧ '*' ∉ text.toList :=
  ⟨(h.literal text hmem).1, fun hstar => by
    have := (h.literal text hmem).2 _ hstar
    revert this
    decide⟩

/-- What a template renders is spelled out by its parts, and is a name that can be used. -/
theorem spelled_of_render {spec index : String} {doc : Json}
    (h : (IndexTarget.template spec template).render doc = .ok index ∨
      (IndexTarget.template spec template).renderFromPk doc = .ok index) :
    (∃ value, index.toList = spell value template.parts) ∧ checkIndexName index = .ok () := by
  have husable : ∀ {name}, IndexTarget.usable spec template name = .ok index →
      name = index ∧ checkIndexName name = .ok () := by
    intro name h
    rw [IndexTarget.usable] at h
    split at h
    · next hcheck =>
      cases h
      exact ⟨rfl, hcheck⟩
    · cases h
  rcases h with h | h <;> obtain ⟨name, hname, h⟩ := Except.bind_eq_ok h <;>
    obtain ⟨rfl, hcheck⟩ := husable h
  · exact ⟨render_ok hname, hcheck⟩
  · exact ⟨renderFromPk_ok hname, hcheck⟩

end IdTemplate

namespace Config

open IdTemplate

variable {pkColumns : List String} {tbl : TableSync}

theorem usable_of_indexTarget {key spec : String}
    (h : tbl.indexTarget key pkColumns = .ok (.template spec template)) :
    Usable template.parts := by
  simp only [TableSync.indexTarget] at h
  split at h
  · split at h <;> cases h
  next hbrace =>
  split at h
  · cases h
  next parsed hparse =>
  split at h
  · cases h
  split at h
  · cases h
  next sample hsample =>
  split at h
  · cases h
  next hname =>
  cases h
  obtain ⟨value, hvalue⟩ := render_ok hsample
  obtain ⟨hhead, hchars⟩ := checkIndexName_ok.mp hname
  rw [hvalue] at hhead hchars
  have hscan := parse_ok hparse
  refine ⟨?_, fun text hmem => ⟨scan_literal hscan hmem, fun c hc => ?_⟩, fun c rest hlead => ?_⟩
  · apply hasColumn_iff.mpr
    apply scan_column hscan
    right
    rw [Bool.not_eq_true, Bool.not_eq_false', TableSync.isTemplated] at hbrace
    rw [TableSync.indexName]
    rcases hindex : tbl.index with _ | index
    · rw [hindex] at hbrace; cases hbrace
    · rw [hindex] at hbrace
      exact List.contains_iff_mem.mp hbrace
  · exact hchars c (literal_subset_spell hmem hc)
  · obtain ⟨tail, htail⟩ := leading_prefix_spell value template.parts
    rw [← htail, hlead] at hhead
    exact hhead

/-! ## What the sections claim -/

/-- A section writes an index when some row or key renders it. -/
def Writes (s : Labelled) (index : String) : Prop :=
  ∃ pkColumns target doc, s.2.indexTarget s.1.key pkColumns = .ok target ∧
    (target.render doc = .ok index ∨ target.renderFromPk doc = .ok index)

/-- A TRUNCATE of the section's table clears an index. -/
def Clears (s : Labelled) (index : String) : Prop :=
  ∃ pkColumns target, s.2.indexTarget s.1.key pkColumns = .ok target ∧
    indexMatchesPattern target.pattern index = true

/-- Both sections name one fixed index, and may share it. -/
def SharesFixed (sections : List Labelled) (a b : Labelled) (index : String) : Prop :=
  a.2.indexTarget a.1.key [] = .ok (.fixed index) ∧
    b.2.indexTarget b.1.key [] = .ok (.fixed index) ∧
    checkIndexGroup index (sections.filter fun s => s.indexName = index) = .ok ()

/-- `claiming_template`: the mapping of the first recorded glob that claims a name. -/
def claimingTemplate (templates : List (String × Option Json)) (name : String) :
    Option (Option Json) :=
  (templates.find? fun t => indexMatchesPattern t.1 name).map Prod.snd

/-- What the target has recorded are globs of the sections, each with its section's
mapping. -/
def RecordedFrom (sections : List Labelled) (templates : List (String × Option Json)) : Prop :=
  ∀ t ∈ templates, ∃ s ∈ sections, ∃ pkColumns spec template,
    s.2.indexTarget s.1.key pkColumns = .ok (.template spec template) ∧
      t = ((IndexTarget.template spec template).pattern, s.2.mapping)

/-- No two sections claim one index, a shared one apart. -/
structure Disjoint (sections : List Labelled) : Prop where
  /-- no name is rendered by two sections -/
  names : ∀ a ∈ sections, ∀ b ∈ sections, a.1 ≠ b.1 → ∀ index, Writes a index → Writes b index →
    SharesFixed sections a b index
  /-- no TRUNCATE reaches another section's documents -/
  truncate : ∀ a ∈ sections, ∀ b ∈ sections, a.1 ≠ b.1 → ∀ index, Clears a index →
    Writes b index → SharesFixed sections a b index
  /-- an index created on demand has the mapping of the section that writes it -/
  mapping : ∀ a ∈ sections, ∀ templates, RecordedFrom sections templates → ∀ index,
    Writes a index → ∀ mapping, claimingTemplate templates index = some mapping →
      a.2.isTemplated = true ∧ a.2.mapping = mapping

/-- Whether the globs of two templates have a name in common: their first literals
agree as far as both reach, and so do their last ones. -/
def overlaps : IndexTarget → IndexTarget → Bool
  | .template _ a, .template _ b =>
    decide (HeadsMeet (leading a.parts) (leading b.parts)) &&
      decide (TailsMeet (trailing a.parts) (trailing b.parts))
  | _, _ => false

/-- The names a target reaches. -/
def Reaches (target : IndexTarget) (index : String) : Prop :=
  match target with
  | .fixed name => index = name
  | .template _ template => Fits (pieces false template.parts) index.toList

theorem parse_pk {spec : String} (h : IdTemplate.parse spec pkColumns = .ok template)
    (others : List String) :
    ∃ pkOnly, IdTemplate.parse spec others = .ok ⟨template.parts, pkOnly⟩ := by
  have hscan := parse_ok h
  simp only [IdTemplate.parse, hscan, Except.bind] at h ⊢
  split at h
  · cases h
  · next hne => exact ⟨_, if_neg hne⟩

/-- A section's target, whatever its key columns. -/
theorem indexTarget_pk {key : String} {target : IndexTarget}
    (h : tbl.indexTarget key pkColumns = .ok target) :
    ∃ base, tbl.indexTarget key [] = .ok base ∧
      ∀ index, Reaches target index ↔ Reaches base index := by
  simp only [TableSync.indexTarget] at h ⊢
  split at h
  · next htempl =>
    split at h
    · cases h
    next hname =>
    cases h
    exact ⟨_, by rw [if_pos htempl], fun _ => Iff.rfl⟩
  next htempl =>
  split at h
  · cases h
  next template hparse =>
  split at h
  · cases h
  next hlit =>
  split at h
  · cases h
  next sample hsample =>
  split at h
  · cases h
  next hname =>
  cases h
  obtain ⟨pkOnly, hbase⟩ := parse_pk hparse []
  refine ⟨.template (tbl.indexName key) ⟨template.parts, pkOnly⟩, ?_, fun _ => Iff.rfl⟩
  have hlit' : (⟨template.parts, pkOnly⟩ : IdTemplate).literals ≠ [] := hlit
  have hsample' : (⟨template.parts, pkOnly⟩ : IdTemplate).render
      ((⟨template.parts, pkOnly⟩ : IdTemplate).filled "x") = .ok sample := hsample
  simp only [htempl, hbase, hlit', hsample', hname, if_false]
  rfl

theorem isTemplated_of_template {key spec : String}
    (h : tbl.indexTarget key pkColumns = .ok (.template spec template)) :
    tbl.isTemplated = true := by
  simp only [TableSync.indexTarget] at h
  split at h
  · split at h <;> cases h
  · next htempl => simpa using htempl

theorem fixed_of_indexTarget {key name : String}
    (h : tbl.indexTarget key pkColumns = .ok (.fixed name)) :
    checkIndexName name = .ok () ∧ tbl.indexName key = name ∧ tbl.isTemplated = false := by
  simp only [TableSync.indexTarget] at h
  split at h
  · next htempl =>
    split at h
    · cases h
    · next hname =>
      cases h
      exact ⟨hname, rfl, by simpa using htempl⟩
  · repeat' split at h
    all_goals cases h

/-- A pattern matches the names its target reaches. -/
theorem matches_iff_reaches {key : String} {target : IndexTarget}
    (h : tbl.indexTarget key pkColumns = .ok target) (index : String) :
    indexMatchesPattern target.pattern index = true ↔ Reaches target index := by
  rw [indexMatchesPattern_iff]
  cases target with
  | fixed name =>
    have hstar : '*' ∉ name.toList := fun hmem => by
      have := (checkIndexName_ok.mp (fixed_of_indexTarget h).1).2 _ hmem
      revert this
      decide
    rw [IndexTarget.pattern, List.splitOn_eq_singleton hstar, Fits, String.toList_inj]
    rfl
  | template spec template =>
    rw [splitOn_pattern (usable_of_indexTarget h).star]
    rfl

variable {index : String}

/-- A section reaches what it writes. -/
theorem Writes.reaches {s : Labelled} (h : Writes s index) {base : IndexTarget}
    (hbase : s.2.indexTarget s.1.key [] = .ok base) : Reaches base index := by
  obtain ⟨pkColumns, target, doc, htarget, hrender⟩ := h
  obtain ⟨base', hbase', hsame⟩ := indexTarget_pk htarget
  rw [hbase] at hbase'
  cases hbase'
  rw [← hsame]
  cases target with
  | fixed name =>
    rcases hrender with hrender | hrender <;> cases hrender <;> rfl
  | template spec template =>
    obtain ⟨⟨value, hvalue⟩, -⟩ := spelled_of_render hrender
    rw [Reaches, hvalue]
    exact (spell_fits value template.parts).1

theorem Clears.reaches {s : Labelled} (h : Clears s index) {base : IndexTarget}
    (hbase : s.2.indexTarget s.1.key [] = .ok base) : Reaches base index := by
  obtain ⟨pkColumns, target, htarget, hmatch⟩ := h
  obtain ⟨base', hbase', hsame⟩ := indexTarget_pk htarget
  rw [hbase] at hbase'
  cases hbase'
  exact (hsame index).mp ((matches_iff_reaches htarget index).mp hmatch)

/-! ## When the claims are disjoint -/

/-- Where no two templates overlap, a name that two sections reach is a fixed index that
they may share. -/
theorem sharesFixed_of_reaches {sections : List Labelled} (h : checkIndexOverlap sections = .ok ())
    {a b : Labelled} (ha : a ∈ sections) (hb : b ∈ sections) (hne : a.1 ≠ b.1) {ta tb : IndexTarget}
    (hta : a.2.indexTarget a.1.key [] = .ok ta) (htb : b.2.indexTarget b.1.key [] = .ok tb)
    (hover : overlaps ta tb = false) (hra : Reaches ta index) (hrb : Reaches tb index) :
    SharesFixed sections a b index := by
  cases ta with
  | fixed name =>
    cases tb with
    | fixed other =>
      obtain rfl : index = name := hra
      obtain rfl : index = other := hrb
      have hgroup := checkIndexOverlap_group h ha
      have hindex : a.indexName = index := (fixed_of_indexTarget hta).2.1
      rw [hindex] at hgroup
      exact ⟨hta, htb, hgroup⟩
    | template spec template =>
      obtain rfl : index = name := hra
      have hclash := checkIndexOverlap_pattern h hb ha (Ne.symm hne) htb hta
      rw [IndexTarget.pattern, (matches_iff_reaches htb _).mpr hrb] at hclash
      cases hclash
  | template spec template =>
    cases tb with
    | fixed other =>
      obtain rfl : index = other := hrb
      have hclash := checkIndexOverlap_pattern h ha hb hne hta htb
      rw [IndexTarget.pattern, (matches_iff_reaches hta _).mpr hra] at hclash
      cases hclash
    | template spec' template' =>
      have hheads : HeadsMeet (leading template.parts) (leading template'.parts) := by
        obtain ⟨rest, hrest⟩ := head_pieces template.parts
        obtain ⟨rest', hrest'⟩ := head_pieces template'.parts
        rw [Reaches, hrest] at hra
        rw [Reaches, hrest'] at hrb
        exact headsMeet_of_fits hra hrb
      have htails : TailsMeet (trailing template.parts) (trailing template'.parts) := by
        obtain ⟨inner, hinner⟩ := (pieces_split _).1 (usable_of_indexTarget hta).column
        obtain ⟨inner', hinner'⟩ := (pieces_split _).1 (usable_of_indexTarget htb).column
        rw [Reaches, hinner, ← List.cons_append] at hra
        rw [Reaches, hinner', ← List.cons_append] at hrb
        exact tailsMeet_of_fits hra hrb
      simp [overlaps, hheads, htails] at hover

/-- The letters of a shared name are those of the two templates' literals, and `x`. -/
theorem indexChar_shared (ha : Usable a) (hb : Usable b) {lacking inner : List Char}
    (hlacking : lacking <:+ leading a)
    (hinner : ∀ c ∈ inner, ∃ text, .literal text ∈ a ∧ c ∈ text.toList) :
    ∀ c ∈ spell (fun _ => lacking ++ 'x' :: inner) b, indexChar c = true := by
  have hliteral : ∀ c, (∃ text, .literal text ∈ a ∧ c ∈ text.toList) → indexChar c = true :=
    fun c ⟨text, hmem, hc⟩ => (ha.literal text hmem).2 c hc
  intro c hc
  obtain ⟨part, hpart, hc⟩ := List.mem_flatMap.mp hc
  cases part with
  | literal text => exact (hb.literal text hpart).2 c hc
  | column name =>
    rcases List.mem_append.mp hc with hc | hc
    · exact hliteral c (mem_leading (hlacking.subset hc))
    · rcases List.mem_cons.mp hc with rfl | hc
      · decide
      · exact hliteral c (hinner c hc)

/-- A shared name begins as an index name has to. -/
theorem head_shared (ha : Usable a) (hb : Usable b) {lacking rest inner : List Char}
    (hhead : leading b ++ lacking = leading a ++ rest) (hlacking : lacking <:+ leading a) :
    (spell (fun _ => lacking ++ 'x' :: inner) b).head?.any asciiLower = true := by
  have hbegin : ∃ tail, spell (fun _ => lacking ++ 'x' :: inner) b =
      leading b ++ (lacking ++ 'x' :: tail) := by
    rcases spell_const hb.column (lacking ++ 'x' :: inner) with heq | ⟨v, heq⟩
    · exact ⟨_, by rw [heq, List.append_assoc, List.cons_append]⟩
    · exact ⟨_, by rw [heq, List.append_assoc, List.cons_append]⟩
  obtain ⟨tail, htail⟩ := hbegin
  rw [htail]
  cases hlead : leading b with
  | cons c more =>
    have := hb.first c more hlead
    simpa using this
  | nil =>
    cases hlack : lacking with
    | nil =>
      rfl
    | cons c more =>
      -- all of the first template's beginning is lacking, so its first letter comes first
      rw [hlead, List.nil_append] at hhead
      have hlength := congrArg List.length hhead
      have hshort := hlacking.length_le
      rw [List.length_append] at hlength
      have hnil : rest = [] := List.eq_nil_of_length_eq_zero (by omega)
      rw [hnil, List.append_nil] at hhead
      have := ha.first c more (hhead.symm.trans hlack)
      simpa using this

/-- Some row of one of two overlapping templates renders a name that the other's glob
matches. -/
theorem exists_clash {a b : Labelled} {ta tb : IndexTarget}
    (hta : a.2.indexTarget a.1.key [] = .ok ta) (htb : b.2.indexTarget b.1.key [] = .ok tb)
    (hover : overlaps ta tb = true) : ∃ index, Clears a index ∧ Writes b index := by
  cases ta with
  | fixed name => cases hover
  | template spec template =>
    cases tb with
    | fixed other => cases hover
    | template spec' template' =>
      rw [overlaps, Bool.and_eq_true, decide_eq_true_eq, decide_eq_true_eq] at hover
      have hua := usable_of_indexTarget hta
      have hub := usable_of_indexTarget htb
      obtain ⟨lacking, rest, inner, hhead, hlacking, hinner, hfits⟩ :=
        exists_shared hua.column hub.column hover.1 hover.2
      obtain ⟨name, hrender, hname⟩ :=
        render_filled template' (String.ofList (lacking ++ 'x' :: inner))
      rw [String.toList_ofList] at hname
      have hlegal : checkIndexName name = .ok () := by
        apply checkIndexName_ok.mpr
        rw [hname]
        exact ⟨head_shared hua hub hhead hlacking, indexChar_shared hua hub hlacking hinner⟩
      refine ⟨name, ⟨[], _, hta, (matches_iff_reaches hta name).mpr ?_⟩,
        ⟨[], _, template'.filled (String.ofList (lacking ++ 'x' :: inner)), htb, .inl ?_⟩⟩
      · rw [Reaches, hname]
        exact hfits
      · rw [IndexTarget.render, hrender, Except.bind, IndexTarget.usable, hlegal]

/-- **Index claims**: the sections that the check accepts claim disjoint indices exactly
when no two of their templates overlap. -/
theorem disjoint_iff {sections : List Labelled} (hlabels : (sections.map Prod.fst).Nodup)
    (h : checkIndexOverlap sections = .ok ()) :
    Disjoint sections ↔
      ∀ a ∈ sections, ∀ b ∈ sections, a.1 ≠ b.1 → ∀ ta tb,
        a.2.indexTarget a.1.key [] = .ok ta → b.2.indexTarget b.1.key [] = .ok tb →
          overlaps ta tb = false := by
  constructor
  · intro hdisjoint a ha b hb hne ta tb hta htb
    rw [← Bool.not_eq_true]
    intro hover
    obtain ⟨index, hclears, hwrites⟩ := exists_clash hta htb hover
    obtain ⟨hfixed, -, -⟩ := hdisjoint.truncate a ha b hb hne index hclears hwrites
    rw [hta] at hfixed
    cases hfixed
    cases hover
  · intro hover
    have hshared : ∀ a ∈ sections, ∀ b ∈ sections, a.1 ≠ b.1 → ∀ index,
        (Clears a index ∨ Writes a index) → Writes b index → SharesFixed sections a b index := by
      intro a ha b hb hne index hleft hright
      obtain ⟨ta, hta⟩ := checkIndexOverlap_target h ha
      obtain ⟨tb, htb⟩ := checkIndexOverlap_target h hb
      exact sharesFixed_of_reaches h ha hb hne hta htb (hover a ha b hb hne ta tb hta htb)
        (hleft.elim (·.reaches hta) (·.reaches hta)) (hright.reaches htb)
    refine ⟨fun a ha b hb hne index hwa => hshared a ha b hb hne index (.inr hwa),
      fun a ha b hb hne index hca => hshared a ha b hb hne index (.inl hca), ?_⟩
    intro a ha templates hrecorded index hwrites mapping hclaim
    rw [claimingTemplate, Option.map_eq_some_iff] at hclaim
    obtain ⟨t, hfind, rfl⟩ := hclaim
    obtain ⟨s, hs, pkColumns, spec, template, htarget, rfl⟩ :=
      hrecorded t (List.mem_of_find?_eq_some hfind)
    have hclears : Clears s index := by
      have hmatch := List.find?_some hfind
      exact ⟨pkColumns, _, htarget, hmatch⟩
    by_cases hsame : s.1 = a.1
    · obtain rfl : s = a := List.inj_on_of_nodup_map hlabels hs ha hsame
      exact ⟨isTemplated_of_template htarget, rfl⟩
    · obtain ⟨hfixed, -, -⟩ := hshared s hs a ha hsame index (.inl hclears) hwrites
      have htempl := isTemplated_of_template htarget
      rw [(fixed_of_indexTarget hfixed).2.2] at htempl
      cases htempl

/-! ### Two sections -/

/-- A section of one file that writes the indices of a template. -/
def templated (key table index : String) : Labelled :=
  (.ofSection key, { table := table, index := some index })

/-- A template and a fixed index apart from it. -/
def apart : List Labelled :=
  [templated "events" "public.a" "events-{tenant}", templated "orders" "public.b" "orders"]

theorem apart_disjoint : Disjoint apart := by
  refine (disjoint_iff (by decide) (by rfl)).mpr ?_
  intro a ha b hb hne ta tb hta htb
  have hevents : (templated "events" "public.a" "events-{tenant}").2.indexTarget "events" [] =
      .ok (.template "events-{tenant}" ⟨[.literal "events-", .column "tenant"], false⟩) := by rfl
  have horders : (templated "orders" "public.b" "orders").2.indexTarget "orders" [] =
      .ok (.fixed "orders") := by rfl
  rcases List.mem_cons.mp ha with rfl | ha
  · rcases List.mem_cons.mp hb with rfl | hb
    · exact absurd rfl hne
    · obtain rfl := List.mem_singleton.mp hb
      cases hevents.symm.trans hta
      cases horders.symm.trans htb
      rfl
  · obtain rfl := List.mem_singleton.mp ha
    cases horders.symm.trans hta
    rfl

/-- Two templates that the check lets pass. Neither pattern matches the text of the
other, and both render `events-prod-eu`. -/
def meeting : List Labelled :=
  [templated "by_tenant" "public.a" "events-{tenant}-eu",
    templated "by_region" "public.b" "events-prod-{region}"]

theorem meeting_clash : checkIndexOverlap meeting = .ok () ∧
    Writes (templated "by_tenant" "public.a" "events-{tenant}-eu") "events-prod-eu" ∧
    Writes (templated "by_region" "public.b" "events-prod-{region}") "events-prod-eu" ∧
    ¬ Disjoint meeting := by
  have hfirst : Writes (templated "by_tenant" "public.a" "events-{tenant}-eu")
      "events-prod-eu" :=
    ⟨[], .template "events-{tenant}-eu"
      ⟨[.literal "events-", .column "tenant", .literal "-eu"], false⟩,
      .obj [("tenant", .str "prod")], by rfl, .inl (by rfl)⟩
  have hsecond : Writes (templated "by_region" "public.b" "events-prod-{region}")
      "events-prod-eu" :=
    ⟨[], .template "events-prod-{region}"
      ⟨[.literal "events-prod-", .column "region"], false⟩,
      .obj [("region", .str "eu")], by rfl, .inl (by rfl)⟩
  refine ⟨by rfl, hfirst, hsecond, fun h => ?_⟩
  obtain ⟨hfixed, -, -⟩ := h.names _ List.mem_cons_self _
    (List.mem_cons_of_mem _ List.mem_cons_self) (by decide) _ hfirst hsecond
  exact absurd (fixed_of_indexTarget hfixed).2.2 (by decide)

end Config

end Pg2osync
