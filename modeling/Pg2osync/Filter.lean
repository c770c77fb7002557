import Mathlib.Data.List.Dedup
import Pg2osync.Decimal
import Pg2osync.Mapping

/-!
# Row filters

A restricted predicate over one row's own columns: a column against a literal, null
tests, lists and the three connectives. The loader hands it to the database, and the
engine evaluates it again on every streamed row's document, where the column types
are gone.
-/

namespace Pg2osync

namespace Filter

/-- A literal of the predicate. -/
inductive Literal : Type where
  | str (s : String) : Literal
  | int (n : ℤ) : Literal
  | float (f : Double) : Literal
  | bool (b : Bool) : Literal
  deriving DecidableEq, Repr

/-- A comparison operator. -/
inductive CmpOp : Type where
  | eq : CmpOp
  | ne : CmpOp
  | lt : CmpOp
  | le : CmpOp
  | gt : CmpOp
  | ge : CmpOp
  deriving DecidableEq, Repr

/-- `CmpOp::holds`. -/
def CmpOp.holds : CmpOp → Ordering → Bool
  | .eq, ordering => ordering = .eq
  | .ne, ordering => ordering ≠ .eq
  | .lt, ordering => ordering = .lt
  | .le, ordering => ordering ≠ .gt
  | .gt, ordering => ordering = .gt
  | .ge, ordering => ordering ≠ .lt

/-- A predicate. -/
inductive Expr : Type where
  /-- a column against a literal -/
  | cmp (column : String) (op : CmpOp) (literal : Literal) : Expr
  /-- `IS NULL` and `IS NOT NULL` -/
  | isNull (column : String) (negated : Bool) : Expr
  /-- `IN` and `NOT IN` -/
  | isIn (column : String) (list : List Literal) (negated : Bool) : Expr
  | and (a b : Expr) : Expr
  | or (a b : Expr) : Expr
  | not (a : Expr) : Expr
  deriving DecidableEq, Repr

/-! ## Evaluation -/

/-- A number as either side of a comparison sees it. -/
inductive Num : Type where
  | int (n : ℤ) : Num
  | float (f : Double) : Num

namespace Num

/-- `Num::from_json`. -/
def fromJson : Json → Option Num
  | .int n => some (if -2 ^ 63 ≤ n ∧ n < 2 ^ 64 then .int n else .float (Double.ofInt n))
  | .float text => (Double.read text.toList).map .float
  | _ => none

/-- `str::parse::<i128>`. -/
def parseInt (s : String) : Option ℤ :=
  let (negative, digits) := Double.splitSign s.toList
  if digits ≠ [] ∧ digits.all Char.isDigit then
    let n : ℤ := Nat.ofDigitChars 10 digits 0
    let n := if negative then -n else n
    if -2 ^ 127 ≤ n ∧ n < 2 ^ 127 then some n else none
  else none

/-- `Num::from_str`. -/
def fromStr (s : String) : Option Num :=
  match parseInt s with
  | some n => some (.int n)
  | none => (Double.read s.toList).map .float

/-- `Num::from_literal`. -/
def fromLiteral : Literal → Option Num
  | .int n => some (.int n)
  | .float f => some (.float f)
  | .str _ | .bool _ => none

/-- `Num::as_f64`. -/
def asDouble : Num → Double
  | .int n => Double.ofInt n
  | .float f => f

/-- `Num::cmp`: two integers are compared exactly, anything else as doubles. -/
def cmp : Num → Num → Option Ordering
  | .int a, .int b => some (Ord.compare a b)
  | a, b => a.asDouble.cmp b.asDouble

end Num

/-- Comparison of two texts, byte by byte. -/
def compareText (a b : String) : Ordering :=
  if Json.keyBefore a b then .lt else if Json.keyBefore b a then .gt else .eq

/-- Comparison of two booleans. -/
def compareBool (a b : Bool) : Ordering :=
  Ord.compare a.toNat b.toNat

/-- `compare`: the order of a document's value and a literal, or nothing where SQL would
have said UNKNOWN. -/
def compare : Option Json → Literal → Option Ordering
  | some (.str s), .str l => some (compareText s l)
  | some (.str s), literal =>
    (Num.fromStr s).bind fun a => (Num.fromLiteral literal).bind a.cmp
  | some (.bool b), .bool l => some (compareBool b l)
  | some value, literal =>
    (Num.fromJson value).bind fun a => (Num.fromLiteral literal).bind a.cmp
  | none, _ => none

/-- SQL's three-valued conjunction. -/
def and3 : Option Bool → Option Bool → Option Bool
  | some false, _ | _, some false => some false
  | none, _ | _, none => none
  | _, _ => some true

/-- SQL's three-valued disjunction. -/
def or3 : Option Bool → Option Bool → Option Bool
  | some true, _ | _, some true => some true
  | none, _ | _, none => none
  | _, _ => some false

/-- The loop of `IN`: a literal that is equal decides, one that cannot be compared leaves
the answer unknown. -/
def evalIn (value : Option Json) (negated : Bool) : List Literal → Bool → Option Bool
  | [], unknown => if unknown then none else some negated
  | literal :: rest, unknown =>
    match compare value literal with
    | some .eq => some !negated
    | none => evalIn value negated rest true
    | some _ => evalIn value negated rest unknown

/-- `eval`: SQL truth, nothing being UNKNOWN. -/
def eval (doc : List (String × Json)) : Expr → Option Bool
  | .cmp column op literal => (compare (Json.lookup column doc) literal).map op.holds
  | .isNull column negated =>
    let isNull := match Json.lookup column doc with
      | none | some .null => true
      | some _ => false
    some (isNull != negated)
  | .isIn column list negated => evalIn (Json.lookup column doc) negated list false
  | .and a b => and3 (eval doc a) (eval doc b)
  | .or a b => or3 (eval doc a) (eval doc b)
  | .not a => (eval doc a).map not

/-! ## Rendering -/

/-- How a source spells identifiers and string literals. -/
structure SqlDialect : Type where
  quoteIdent : List Char → List Char
  quoteStr : List Char → List Char

/-- `CmpOp::sql`. -/
def CmpOp.sql : CmpOp → List Char
  | .eq => ['=']
  | .ne => ['<', '>']
  | .lt => ['<']
  | .le => ['<', '=']
  | .gt => ['>']
  | .ge => ['>', '=']

/-- `render_literal`. -/
def renderLiteral (dialect : SqlDialect) : Literal → List Char
  | .str s => dialect.quoteStr s.toList
  | .int n => (Decimal.ofInt n).print
  | .float f => f.toDecimal.print
  | .bool true => "TRUE".toList
  | .bool false => "FALSE".toList

/-- `render`: every connective is parenthesised. -/
def render (dialect : SqlDialect) : Expr → List Char
  | .cmp column op literal =>
    dialect.quoteIdent column.toList ++ ' ' :: (op.sql ++ ' ' :: renderLiteral dialect literal)
  | .isNull column negated =>
    dialect.quoteIdent column.toList ++ " IS ".toList ++
      (if negated then "NOT ".toList else []) ++ "NULL".toList
  | .isIn column list negated =>
    dialect.quoteIdent column.toList ++ ' ' :: (if negated then "NOT ".toList else []) ++
      "IN (".toList ++ List.intercalate ", ".toList (list.map (renderLiteral dialect)) ++ [')']
  | .and a b => '(' :: (render dialect a ++ " AND ".toList ++ render dialect b ++ [')'])
  | .or a b => '(' :: (render dialect a ++ " OR ".toList ++ render dialect b ++ [')'])
  | .not a => "(NOT ".toList ++ render dialect a ++ [')']

/-! ## Tokens -/

/-- What a token is. -/
inductive Tok : Type where
  | ident (word : String) : Tok
  | str (s : String) : Tok
  | int (n : ℤ) : Tok
  | float (f : Double) : Tok
  | op (op : CmpOp) : Tok
  | lparen : Tok
  | rparen : Tok
  | comma : Tok
  deriving DecidableEq, Repr

/-- A token, where it starts and how it is written. -/
structure Token : Type where
  tok : Tok
  offset : ℕ
  text : String
  deriving DecidableEq, Repr

namespace Token

/-- `Token::describe`. -/
def describe (t : Token) : String :=
  match t.tok with
  | .str _ | .int _ | .float _ => t.text
  | _ => t.text.quote

/-- `str::eq_ignore_ascii_case`. -/
def sameWord (a b : String) : Bool :=
  a.toList.map Char.toLower = b.toList.map Char.toLower

/-- `Token::is_keyword`. -/
def isKeyword (t : Token) (keyword : String) : Bool :=
  match t.tok with
  | .ident word => sameWord word keyword
  | _ => false

/-- `Token::is_word_operator`. -/
def isWordOperator (t : Token) : Bool :=
  ["LIKE", "ILIKE", "BETWEEN", "SIMILAR", "ANY", "ALL", "EXISTS"].any t.isKeyword

end Token

/-- `is_keyword`, of a word. -/
def isReserved (word : String) : Bool :=
  ["AND", "OR", "NOT", "IS", "NULL", "IN", "TRUE", "FALSE"].any (Token.sameWord word)

/-- How many bytes a text takes. -/
def byteLength (text : List Char) : ℕ :=
  (text.map fun c => c.utf8Size).sum

/-- What stands in a string literal, from behind its opening quote: the value, the text
with the closing quote, and the rest. -/
def scanString : List Char → Option (List Char × List Char × List Char)
  | [] => none
  | '\'' :: '\'' :: rest => (scanString rest).map fun (value, text, rest) =>
    ('\'' :: value, '\'' :: '\'' :: text, rest)
  | '\'' :: rest => some ([], ['\''], rest)
  | c :: rest => (scanString rest).map fun (value, text, rest) => (c :: value, c :: text, rest)

/-- The digits of a number, and a fraction if digits follow the point. -/
def spanNumber (text : List Char) : List Char × List Char × List Char :=
  let whole := text.takeWhile Char.isDigit
  match text.dropWhile Char.isDigit with
  | '.' :: d :: rest =>
    if d.isDigit then
      (whole, (d :: rest).takeWhile Char.isDigit, (d :: rest).dropWhile Char.isDigit)
    else (whole, [], '.' :: d :: rest)
  | rest => (whole, [], rest)

/-- `scan_number`: the token and the rest. -/
def scanNumber (offset : ℕ) (negative : Bool) (digits : List Char) :
    Except String (Token × List Char) :=
  let (whole, fraction, rest) := spanNumber digits
  let sign := if negative then ['-'] else []
  let text := String.ofList
    (sign ++ whole ++ if fraction = [] then [] else '.' :: fraction)
  let n : ℤ := Nat.ofDigitChars 10 (whole ++ fraction) 0
  let n := if negative then -n else n
  let outOfRange := "the number " ++ text.quote ++ " at offset " ++ toString offset ++
    " is out of range"
  if fraction = [] then
    if -2 ^ 63 ≤ n ∧ n < 2 ^ 63 then .ok (⟨.int n, offset, text⟩, rest) else .error outOfRange
  else
    match Double.ofDecimal ⟨n, fraction.length⟩ with
    | .finite units => .ok (⟨.float (.finite units), offset, text⟩, rest)
    | _ => .error outOfRange

/-- A character of a word, after its first. -/
def isWordChar (c : Char) : Bool :=
  c.isAlphanum || c = '_' || c = '$'

/-- An operator at the head of a text. -/
def scanOp : List Char → Option (CmpOp × List Char × List Char)
  | '<' :: '>' :: rest => some (.ne, ['<', '>'], rest)
  | '!' :: '=' :: rest => some (.ne, ['!', '='], rest)
  | '<' :: '=' :: rest => some (.le, ['<', '='], rest)
  | '>' :: '=' :: rest => some (.ge, ['>', '='], rest)
  | '<' :: rest => some (.lt, ['<'], rest)
  | '>' :: rest => some (.gt, ['>'], rest)
  | '=' :: rest => some (.eq, ['='], rest)
  | _ => none

/-- One token at the head of a text that does not begin with a blank. -/
def scanToken (offset : ℕ) (c : Char) (rest : List Char) : Except String (Token × List Char) :=
  let unexpected := "unexpected character " ++ c.quote ++ " at offset " ++ toString offset
  if c = '(' then .ok (⟨.lparen, offset, "("⟩, rest)
  else if c = ')' then .ok (⟨.rparen, offset, ")"⟩, rest)
  else if c = ',' then .ok (⟨.comma, offset, ","⟩, rest)
  else if c = '\'' then
    match scanString rest with
    | none => .error ("unterminated string literal starting at offset " ++ toString offset)
    | some (value, text, rest) =>
      .ok (⟨.str (String.ofList value), offset, String.ofList ('\'' :: text)⟩, rest)
  else if c = '-' ∧ rest.head?.any Char.isDigit then scanNumber offset true rest
  else if c.isDigit then scanNumber offset false (c :: rest)
  else if c.isAlpha || c = '_' then
    let word := String.ofList (c :: rest.takeWhile isWordChar)
    .ok (⟨.ident word, offset, word⟩, rest.dropWhile isWordChar)
  else if ['~', '|', '&', '%', '*', '+', '/'].contains c then
    .error ("unsupported operator " ++ c.toString.quote ++ " at offset " ++ toString offset)
  else
    match scanOp (c :: rest) with
    | some (op, text, rest) => .ok (⟨.op op, offset, String.ofList text⟩, rest)
    | none => .error unexpected

/-- `tokenize`, whose every turn takes a character at least: the fuel is the text's
length. -/
def tokenizeFrom : ℕ → ℕ → List Char → Except String (List Token)
  | 0, _, _ => .ok []
  | _ + 1, _, [] => .ok []
  | fuel + 1, offset, c :: rest =>
    if c = ' ' ∨ c = '\t' ∨ c = '\r' ∨ c = '\n' then tokenizeFrom fuel (offset + 1) rest
    else
      (scanToken offset c rest).bind fun (token, rest) =>
        (tokenizeFrom fuel (offset + byteLength token.text.toList) rest).map fun tokens =>
          token :: tokens

/-- `tokenize`. -/
def tokenize (src : String) : Except String (List Token) :=
  tokenizeFrom src.toList.length 0 src.toList

/-! ## The parser -/

/-- The parser's state: the tokens left, the columns named so far, and the length of the
text. -/
structure Parser : Type where
  tokens : List Token
  columns : List String
  length : ℕ

namespace Parser

/-- `peek`. -/
def peek (p : Parser) : Option Token := p.tokens.head?

/-- The state behind the next token. -/
def skip (p : Parser) : Parser := { p with tokens := p.tokens.tail }

/-- Whether the next token is a keyword. -/
def atKeyword (p : Parser) (keyword : String) : Bool := p.peek.any (·.isKeyword keyword)

/-- Whether the next token is this one. -/
def at_ (p : Parser) (tok : Tok) : Bool := p.peek.any (·.tok = tok)

/-- `offset`: where the next token starts, or the end. -/
def offset (p : Parser) : ℕ := (p.peek.map Token.offset).getD p.length

/-- `found`: how an error names the next token. -/
def found (p : Parser) : String := (p.peek.map Token.describe).getD "the end of the predicate"

end Parser

/-- `literal_of`. -/
def literalOf (t : Token) : Option Literal :=
  match t.tok with
  | .str s => some (.str s)
  | .int n => some (.int n)
  | .float f => some (.float f)
  | .ident _ =>
    if t.isKeyword "TRUE" then some (.bool true)
    else if t.isKeyword "FALSE" then some (.bool false)
    else none
  | _ => none

/-- What a rule of the grammar answers: an expression and the state behind it. -/
abbrev Parsed (α : Type) := Except String (α × Parser)

/-- `expect_rparen`. -/
def expectRparen (p : Parser) : Parsed Unit :=
  match p.peek with
  | some t =>
    if t.tok = .rparen then .ok ((), p.skip)
    else .error ("expected ')' at offset " ++ toString t.offset)
  | none => .error "expected ')' before the end of the predicate"

/-- `comparison_rhs`. -/
def comparisonRhs (column : String) (op : CmpOp) (operator : Token) (p : Parser) : Parsed Expr :=
  if (op = .eq ∨ op = .ne) ∧ p.atKeyword "NULL" then
    .error (operator.text ++ " NULL is always unknown; write IS NULL or IS NOT NULL (offset " ++
      toString operator.offset ++ ")")
  else
    match p.peek.bind literalOf with
    | some literal => .ok (.cmp column op literal, p.skip)
    | none => .error ("expected a literal after " ++ operator.text ++ " at offset " ++
        toString p.offset ++ ", found " ++ p.found ++ "; a comparison is written column " ++
        operator.text ++ " literal")

/-- The items of `in_list`, from behind its parenthesis; the fuel is the number of tokens. -/
def inItems : ℕ → Parser → Parsed (List Literal)
  | 0, _ => .error "expected ')' before the end of the predicate"
  | fuel + 1, p =>
    match p.peek with
    | none => .error "expected ')' before the end of the predicate"
    | some t =>
      match literalOf t with
      | none => .error ("IN (...) takes literals only, at offset " ++ toString t.offset)
      | some literal =>
        if p.skip.at_ .comma then
          (inItems fuel p.skip.skip).map fun (list, p) => (literal :: list, p)
        else (expectRparen p.skip).map fun (_, p) => ([literal], p)

/-- `in_list`. -/
def inList (column : String) (negated : Bool) (p : Parser) : Parsed Expr :=
  if !p.at_ .lparen then .error ("IN must be followed by a parenthesised list, at offset " ++
    toString p.offset)
  else if p.skip.at_ .rparen then .error ("IN (...) needs at least one value, at offset " ++
    toString p.skip.offset)
  else (inItems p.tokens.length p.skip).map fun (list, p) => (.isIn column list negated, p)

/-- What follows a column. -/
def comparisonTail (column : String) (p : Parser) : Parsed Expr :=
  let expected := "expected an operator after column " ++ column.quote ++ " at offset "
  match p.peek with
  | none => .error (expected ++ toString p.length ++ ", found the end of the predicate")
  | some operator =>
    let p := p.skip
    match operator.tok with
    | .op op => comparisonRhs column op operator p
    | .ident _ =>
      if operator.isKeyword "IS" then
        let negated := p.atKeyword "NOT"
        let p := if negated then p.skip else p
        if p.atKeyword "NULL" then .ok (.isNull column negated, p.skip)
        else .error ("IS must be followed by NULL or NOT NULL, at offset " ++ toString p.offset)
      else if operator.isKeyword "IN" then inList column false p
      else if operator.isKeyword "NOT" then
        if p.atKeyword "IN" then inList column true p.skip
        else
          match p.peek with
          | some t =>
            if t.isWordOperator then .error ("unsupported operator \"NOT " ++ t.text ++
              "\" at offset " ++ toString operator.offset)
            else .error ("expected IN after NOT at offset " ++ toString p.offset ++ ", found " ++
              p.found)
          | none => .error ("expected IN after NOT at offset " ++ toString p.offset ++
              ", found " ++ p.found)
      else if operator.isWordOperator then .error ("unsupported operator " ++
        operator.describe ++ " at offset " ++ toString operator.offset)
      else .error (expected ++ toString operator.offset ++ ", found " ++ operator.describe)
    | _ => .error (expected ++ toString operator.offset ++ ", found " ++ operator.describe)

/-- `comparison`. -/
def comparison (p : Parser) : Parsed Expr :=
  match p.peek with
  | none => .error ("expected a column name at offset " ++ toString p.length ++
      ", found the end of the predicate")
  | some t =>
    let other := "expected a column name at offset " ++ toString t.offset ++ ", found " ++
      t.describe
    match t.tok with
    | .ident name =>
      if isReserved name then .error other
      else if p.skip.at_ .lparen then .error ("function calls are not supported: " ++ name ++
        "(...) at offset " ++ toString t.offset)
      else comparisonTail name { p.skip with columns := p.columns ++ [name] }
    | _ => .error other

/-- What a rule answers when its fuel is spent, which four steps for each token prevent. -/
def spent {α : Type} : Parsed α := .error "the predicate is nested too deeply"

mutual

/-- `or_expr`. -/
def orExpr : ℕ → Parser → Parsed Expr
  | 0, _ => spent
  | fuel + 1, p => (andExpr fuel p).bind fun (left, p) => orLoop fuel left p

/-- The loop of `or_expr`. -/
def orLoop : ℕ → Expr → Parser → Parsed Expr
  | 0, _, _ => spent
  | fuel + 1, left, p =>
    if p.atKeyword "OR" then
      (andExpr fuel p.skip).bind fun (right, p) => orLoop fuel (.or left right) p
    else .ok (left, p)

/-- `and_expr`. -/
def andExpr : ℕ → Parser → Parsed Expr
  | 0, _ => spent
  | fuel + 1, p => (notExpr fuel p).bind fun (left, p) => andLoop fuel left p

/-- The loop of `and_expr`. -/
def andLoop : ℕ → Expr → Parser → Parsed Expr
  | 0, _, _ => spent
  | fuel + 1, left, p =>
    if p.atKeyword "AND" then
      (notExpr fuel p.skip).bind fun (right, p) => andLoop fuel (.and left right) p
    else .ok (left, p)

/-- `not_expr`. -/
def notExpr : ℕ → Parser → Parsed Expr
  | 0, _ => spent
  | fuel + 1, p =>
    if p.atKeyword "NOT" then (notExpr fuel p.skip).map fun (a, p) => (.not a, p)
    else primary fuel p

/-- `primary`. -/
def primary : ℕ → Parser → Parsed Expr
  | 0, _ => spent
  | fuel + 1, p =>
    if p.at_ .lparen then
      (orExpr fuel p.skip).bind fun (inner, p) => (expectRparen p).map fun (_, p) => (inner, p)
    else comparison p

end

end Filter

/-- What a refusal of a predicate ends with. -/
def Filter.supported : String :=
  "supported: column = <> != < <= > >= literal, column IS [NOT] NULL, column [NOT] IN " ++
  "(literal, ...), AND, OR, NOT, parentheses; literals are 'text' (with '' for a quote), " ++
  "12, 3.5, true, false"

/-- A parsed predicate and the columns it names. -/
structure Filter : Type where
  expr : Filter.Expr
  columns : List String

namespace Filter

/-- `Filter::parse`. -/
def parse (src : String) : Except String Filter :=
  if src.toList.all isWhitespace then
    .error "the predicate is empty"
  else
    (tokenize src).bind fun tokens =>
      (orExpr (6 * (tokens.length + 1)) ⟨tokens, [], byteLength src.toList⟩).bind fun (expr, p) =>
        match p.peek with
        | some extra => .error ("unexpected " ++ extra.describe ++ " at offset " ++
            toString extra.offset ++ " after the end of the predicate")
        | none => .ok ⟨expr, (p.columns.insertionSort fun a b => !Json.keyBefore b a).dedup⟩

/-- `Filter::matches`: only TRUE keeps a row. -/
def isMatch (filter : Filter) : Json → Bool
  | .obj fields => eval fields filter.expr = some true
  | _ => false

/-- `Filter::to_sql`. -/
def toSql (filter : Filter) (dialect : SqlDialect) : List Char :=
  render dialect filter.expr

example : (parse "status = 'active' AND n IN (1, 2.50)").map (·.expr) =
    .ok (.and (.cmp "status" .eq (.str "active"))
      (.isIn "n" [.int 1, .float (Double.ofDecimal ⟨25, 1⟩)] false)) := by
  decide +kernel

end Filter

end Pg2osync
