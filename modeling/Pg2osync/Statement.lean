import Pg2osync.Filter

/-!
# Statements of the binlog

What is no row event is a statement, and what the stream does about one it reads from the
statement's text: which table a TRUNCATE empties, which one a DROP removes, and whether
columns may have changed. Only the first words are looked at.
-/

namespace Pg2osync

/-- `str::split_whitespace`; `piece` is what has been read of the current word. -/
def splitWhitespace : List Char → List Char → List (List Char)
  | [], [] => []
  | piece, [] => [piece]
  | piece, c :: rest =>
    if isWhitespace c then
      if piece.isEmpty then splitWhitespace [] rest else piece :: splitWhitespace [] rest
    else splitWhitespace (piece ++ [c]) rest

/-- `read_identifier`: an identifier, in backquotes or bare, and what follows it;
`alphanumeric` is `char::is_alphanumeric`. -/
def readIdentifier (alphanumeric : Char → Bool) : List Char → Option (List Char × List Char)
  | '`' :: quoted =>
    match quoted.dropWhile (· ≠ '`') with
    | [] => none
    | _ :: rest => some (quoted.takeWhile (· ≠ '`'), rest)
  | raw =>
    let bare := fun c => alphanumeric c || c = '_' || c = '$'
    if (raw.takeWhile bare).isEmpty then none else some (raw.takeWhile bare, raw.dropWhile bare)

/-- `split_qualified_name`. -/
def splitQualifiedName (alphanumeric : Char → Bool) (raw : List Char) (defaultDb : String) :
    Option TableName :=
  match readIdentifier alphanumeric raw with
  | none => none
  | some (first, '.' :: afterDot) =>
    match readIdentifier alphanumeric afterDot with
    | none => none
    | some (table, _) =>
      if first.isEmpty || table.isEmpty then none
      else some (String.ofList first, String.ofList table)
  | some (first, _) =>
    let schema := trim defaultDb.toList
    if schema.isEmpty || first.isEmpty then none
    else some (String.ofList schema, String.ofList first)

/-- Whether a word is a keyword. -/
def isKeywordOf (keyword : String) (word : List Char) : Bool :=
  Filter.Token.sameWord (String.ofList word) keyword

/-- `truncated_table`. -/
def truncatedTable (alphanumeric : Char → Bool) (sql defaultDb : String) : Option TableName :=
  match splitWhitespace [] sql.toList with
  | first :: name :: rest =>
    if isKeywordOf "TRUNCATE" first then
      if isKeywordOf "TABLE" name then
        rest.head?.bind fun name => splitQualifiedName alphanumeric name defaultDb
      else splitQualifiedName alphanumeric name defaultDb
    else none
  | _ => none

/-- The first of some words that is none of the optional ones before it. -/
def skipOptional : List String → List (List Char) → Option (List Char)
  | _, [] => none
  | [], name :: _ => some name
  | keyword :: keywords, name :: rest =>
    if isKeywordOf keyword name then skipOptional keywords rest
    else skipOptional keywords (name :: rest)

/-- `dropped_table`. -/
def droppedTable (alphanumeric : Char → Bool) (sql defaultDb : String) : Option TableName :=
  match splitWhitespace [] sql.toList with
  | first :: second :: rest =>
    if isKeywordOf "DROP" first && isKeywordOf "TABLE" second then
      (skipOptional ["IF", "EXISTS"] rest).bind fun name =>
        splitQualifiedName alphanumeric name defaultDb
    else none
  | _ => none

/-- Whether a statement is taken for one that changes columns. -/
def changesColumns (sql : String) : Bool :=
  let text := (sql.toList.dropWhile isWhitespace).map Char.toUpper
  "ALTER".toList.isPrefixOf text || "RENAME".toList.isPrefixOf text

end Pg2osync
