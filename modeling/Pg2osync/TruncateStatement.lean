import Pg2osync.Statement

/-!
# TRUNCATE statements

What a server takes for one: the word, and behind it a name, of one part or of two with a point
between them, each bare or in backquotes. Between the words there are blanks and comments, which
quotes and a point make unnecessary. What follows the name does not matter.

The code splits the text at white space, and reads the name from one of the pieces.
-/

namespace Pg2osync

/-! ## Characters -/

/-- A table of `char::is_alphanumeric`. -/
structure Alphabet : Type where
  /-- `char::is_alphanumeric` -/
  isAlphanumeric : Char → Bool
  /-- in ASCII it is the letters and the digits -/
  ascii : ∀ c : Char, c.toNat < 128 → isAlphanumeric c = c.isAlphanum
  /-- nothing is white space as well -/
  blank : ∀ c, isWhitespace c = true → isAlphanumeric c = false

/-- The characters that the code reads a bare identifier over. -/
def Alphabet.isBare (a : Alphabet) (c : Char) : Bool :=
  a.isAlphanumeric c || c = '_' || c = '$'

/-- The characters that the server reads one over. -/
def isNameChar (c : Char) : Bool :=
  c.isAlphanum || c = '_' || c = '$' || 128 ≤ c.toNat && c.toNat ≤ 0xFFFF

/-- The characters that words are made of. -/
def isInk (c : Char) : Bool :=
  !isWhitespace c

/-! ## The grammar -/

/-- What words may have between them. -/
inductive GapPiece : Type where
  /-- a blank -/
  | blank (c : Char) (h : c ∈ [' ', '\t', '\n', '\x0b', '\x0c', '\r']) : GapPiece
  /-- a comment in its own signs, of which the server runs nothing -/
  | block (body : List Char) (ends : ¬['*', '/'] <:+: body) (skipped : ¬['!'] <+: body)
    (skipped' : ¬['M', '!'] <+: body) : GapPiece
  /-- a comment up to the end of its line -/
  | hash (body : List Char) (h : '\n' ∉ body) : GapPiece
  /-- the same, behind dashes and a blank -/
  | dashes (body : List Char) (h : '\n' ∉ body) (apart : ∀ c ∈ body.head?, c = ' ' ∨ c = '\t') :
    GapPiece

def GapPiece.text : GapPiece → List Char
  | .blank c _ => [c]
  | .block body _ _ _ => '/' :: '*' :: (body ++ ['*', '/'])
  | .hash body _ => '#' :: (body ++ ['\n'])
  | .dashes body _ _ => '-' :: '-' :: (body ++ ['\n'])

def GapPiece.isBlank : GapPiece → Bool
  | .blank _ _ => true
  | _ => false

/-- Blanks and comments. -/
abbrev Gap : Type := List GapPiece

def Gap.text (g : Gap) : List Char :=
  g.flatMap GapPiece.text

/-- Whether there is no comment. -/
def Gap.isBlank (g : Gap) : Bool :=
  g.all GapPiece.isBlank

/-- Whether a blank comes first. -/
def Gap.beginsBlank (g : Gap) : Bool :=
  g.head?.any GapPiece.isBlank

/-- A name of a schema or a table, and how it is written. -/
structure Identifier : Type where
  name : List Char
  quoted : Bool
  ne : name ≠ []
  bare : quoted = false → ∀ c ∈ name, isNameChar c = true

/-- A backquote in a quoted name is doubled. -/
def Identifier.escaped (name : List Char) : List Char :=
  name.flatMap fun c => if c = '`' then ['`', '`'] else [c]

/-- A name as it is written. -/
def Identifier.written (quoted : Bool) (name : List Char) : List Char :=
  if quoted then '`' :: (Identifier.escaped name ++ ['`']) else name

def Identifier.text (i : Identifier) : List Char :=
  Identifier.written i.quoted i.name

/-- `TRUNCATE [TABLE] [db.]name`, where a default database is set if there is no other. -/
structure TruncateStatement : Type where
  /-- what is ahead of the first word -/
  lead : Gap
  /-- the first word, as it is written -/
  truncate : List Char
  /-- what is behind it -/
  gap : Gap
  /-- the second word, if it is there, and what is behind it -/
  table : Option (List Char × Gap)
  /-- the first part of the name -/
  first : Identifier
  /-- what is on both sides of the point, and the second part -/
  second : Option (Gap × Gap × Identifier)
  /-- what follows the name -/
  tail : List Char
  /-- the default database -/
  defaultDb : String
  truncate_word : isKeywordOf "TRUNCATE" truncate = true
  table_word : ∀ word ∈ table, isKeywordOf "TABLE" word.1 = true
  /-- a word of the grammar is no bare name -/
  first_word : first.quoted = false → isKeywordOf "TABLE" first.name = false
  gap_ne : first.quoted = false ∨ table.isSome = true → gap ≠ []
  table_gap_ne : ∀ word ∈ table, first.quoted = false → word.2 ≠ []
  /-- what follows the name does not go on with it -/
  tail_ends : ∀ c ∈ tail.head?, c.toNat < 128 ∧ isNameChar c = false ∧ c ≠ '.' ∧ c ≠ '`'
  tail_unqualified : second = none → ∀ (g : Gap) (rest : List Char), tail ≠ g.text ++ '.' :: rest
  default_ne : second = none → defaultDb ≠ ""

namespace TruncateStatement

variable (s : TruncateStatement)

/-- The text behind the first part of the name. -/
def more : List Char :=
  (match s.second with
    | none => []
    | some (before, behind, i) => before.text ++ '.' :: (behind.text ++ i.text)) ++ s.tail

/-- The text from the name on. -/
def nameText : List Char :=
  s.first.text ++ s.more

def text : List Char :=
  s.lead.text ++ (s.truncate ++ (s.gap.text ++ match s.table with
    | none => s.nameText
    | some (word, gap) => word ++ (gap.text ++ s.nameText)))

/-- The schema and the table that it empties. -/
def names : TableName :=
  match s.second with
  | none => (s.defaultDb, String.ofList s.first.name)
  | some (_, _, i) => (String.ofList s.first.name, String.ofList i.name)

end TruncateStatement

/-- A statement that begins with another word, or with none. -/
structure OtherStatement : Type where
  lead : Gap
  word : List Char
  rest : List Char
  word_chars : ∀ c ∈ word, c.toNat < 128 ∧ isNameChar c = true
  other : isKeywordOf "TRUNCATE" word = false
  rest_ends : ∀ c ∈ rest.head?, isNameChar c = false
  begins : word = [] → ∀ c ∈ rest.head?, isWhitespace c = false ∧ c ∉ ['/', '#', '-']

def OtherStatement.text (s : OtherStatement) : List Char :=
  s.lead.text ++ (s.word ++ s.rest)

/-! ## Which of them the code reads -/

/-- How far the code reads a name. -/
def Alphabet.reads (a : Alphabet) (quoted : Bool) (c : Char) : Bool :=
  if quoted then c ≠ '`' else a.isBare c

/-- A name that the code reads to its end: no doubled backquotes in a quoted one, in a bare one
nothing but letters, digits, `_` and `$`, and no white space. -/
def Identifier.Plain (a : Alphabet) (i : Identifier) : Prop :=
  ∀ c ∈ i.name, a.reads i.quoted c = true ∧ isInk c = true

namespace TruncateStatement

variable (a : Alphabet) (s : TruncateStatement)

/-- Blanks where the code splits the text. -/
def Spaced : Prop :=
  s.lead.isBlank = true ∧ s.gap.isBlank = true ∧ s.gap ≠ []

/-- The statement is as the code expects it: blanks between the words and no comments, none about
the point, and names without white space, doubled backquotes or characters that are no letters. -/
def Plain : Prop :=
  s.Spaced ∧ (∀ word ∈ s.table, word.2.isBlank = true ∧ word.2 ≠ []) ∧ s.first.Plain a ∧
    match s.second with
    | none => trim s.defaultDb.toList = s.defaultDb.toList
    | some (before, behind, i) => before = [] ∧ behind = [] ∧ i.Plain a

/-- The second word has no blank behind it, and is the name of the table by chance. -/
def HitsKeyword : Prop :=
  s.Spaced ∧ ∃ word ∈ s.table, word.2.beginsBlank = false ∧
    trim s.defaultDb.toList = s.names.1.toList ∧ s.names.2 = String.ofList word.1

/-- From where the code reads the first part of the name: if that is bare and begins with the word
TABLE and white space, this is taken for the word. -/
def readFrom : List Char :=
  if s.table.isNone && !s.first.quoted && isKeywordOf "TABLE" (s.first.name.takeWhile isInk) then
    (s.first.name.dropWhile isInk).dropWhile isWhitespace
  else s.first.name

/-- What the code reads of it. -/
def firstRead : List Char :=
  s.readFrom.takeWhile (a.reads s.first.quoted)

/-- And what it leaves. -/
def firstLeft : List Char :=
  s.readFrom.dropWhile (a.reads s.first.quoted)

/-- The first part of the name is the default database, and what the code reads of it, and takes for
the table's name, is the second part by chance. -/
def HitsDefault : Prop :=
  s.Spaced ∧ (∀ word ∈ s.table, word.2.isBlank = true ∧ word.2 ≠ []) ∧
    ∃ part ∈ s.second, trim s.defaultDb.toList = s.first.name ∧ s.firstRead a = part.2.2.name ∧
      (∀ c ∈ s.firstRead a, isInk c = true) ∧ (s.firstLeft a ≠ [] ∨ part.1 ≠ [])

end TruncateStatement

end Pg2osync
