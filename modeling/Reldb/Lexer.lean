import Reldb.Basic

/-!
# Reldb — tokens and the lexer (`token.h`, `lexer.h`)

`Tokenize` turns a statement's bytes into tokens. The character classes are those of the C locale.
Every loop of the lexer reads at least one byte a round, so its fuel is the length of the source
and one.
-/

namespace Reldb

/-! ## Tokens -/

inductive TokenType where
  | create
  | table
  | insert
  | into
  | values
  | select
  | «from»
  | «where»
  | join
  | on
  | as
  | and
  | or
  | primary
  | key
  | integerType
  | textType
  | identifier
  | integerLiteral
  | stringLiteral
  | star
  | comma
  | dot
  | semicolon
  | lparen
  | rparen
  | eq
  | neq
  | lt
  | lte
  | gt
  | gte
  | endOfInput
  deriving DecidableEq, Repr

/-- `TokenTypeName`. -/
def TokenType.typeName : TokenType → String
  | .create => "CREATE"
  | .table => "TABLE"
  | .insert => "INSERT"
  | .into => "INTO"
  | .values => "VALUES"
  | .select => "SELECT"
  | .from => "FROM"
  | .where => "WHERE"
  | .join => "JOIN"
  | .on => "ON"
  | .as => "AS"
  | .and => "AND"
  | .or => "OR"
  | .primary => "PRIMARY"
  | .key => "KEY"
  | .integerType => "INTEGER"
  | .textType => "TEXT"
  | .identifier => "identifier"
  | .integerLiteral => "integer literal"
  | .stringLiteral => "string literal"
  | .star => "'*'"
  | .comma => "','"
  | .dot => "'.'"
  | .semicolon => "';'"
  | .lparen => "'('"
  | .rparen => "')'"
  | .eq => "'='"
  | .neq => "'!='"
  | .lt => "'<'"
  | .lte => "'<='"
  | .gt => "'>'"
  | .gte => "'>='"
  | .endOfInput => "end of input"

structure Token where
  type : TokenType
  text : Bytes
  intValue : Int64
  stringValue : Bytes
  line : Nat
  column : Nat
  deriving DecidableEq, Repr

/-! ## Characters -/

/-- The byte of an ASCII character. -/
def byte (c : Char) : UInt8 := c.toNat.toUInt8

/-- `std::isspace`. -/
def isSpace (c : UInt8) : Bool := c == 32 || (9 ≤ c && c ≤ 13)

/-- `std::isdigit`. -/
def isDigit (c : UInt8) : Bool := 48 ≤ c && c ≤ 57

/-- `std::isalpha`. -/
def isAlpha (c : UInt8) : Bool := (65 ≤ c && c ≤ 90) || (97 ≤ c && c ≤ 122)

/-- `std::isalnum`. -/
def isAlnum (c : UInt8) : Bool := isAlpha c || isDigit c

/-- `ToUpper`. -/
def toUpper (s : Bytes) : Bytes := s.map fun c => if 97 ≤ c ∧ c ≤ 122 then c - 32 else c

/-- `KeywordTable()`. -/
def keywordTable : List (Bytes × TokenType) :=
  [(text "CREATE", .create), (text "TABLE", .table), (text "INSERT", .insert),
    (text "INTO", .into), (text "VALUES", .values), (text "SELECT", .select),
    (text "FROM", .from), (text "WHERE", .where), (text "JOIN", .join), (text "ON", .on),
    (text "AS", .as), (text "AND", .and), (text "OR", .or), (text "PRIMARY", .primary),
    (text "KEY", .key), (text "INTEGER", .integerType), (text "TEXT", .textType)]

/-- The number a run of digits spells. -/
def digitsValue (digits : Bytes) : Nat := digits.foldl (fun n c => 10 * n + (c.toNat - 48)) 0

/-- A `LexError`: the message, and where the fault is. -/
def Exn.lexErrorAt (msg : Bytes) (line column : Nat) : Exn :=
  .lexError (msg ++ text " at line " ++ decimal line ++ text ", column " ++ decimal column) line
    column

/-! ## The lexer -/

structure Lexer where
  source : Bytes
  pos : Nat
  line : Nat
  column : Nat
  deriving DecidableEq, Repr

namespace Lexer

def new (source : Bytes) : Lexer := ⟨source, 0, 1, 1⟩

def isAtEnd : Prog Lexer Bool := do
  let l ← get
  return l.source.length ≤ l.pos

/-- `Peek()`; every call of the source leaves its offset at 0. -/
def peek : Prog Lexer UInt8 := do
  let l ← get
  return l.source[l.pos]?.getD 0

def advance : Prog Lexer UInt8 := do
  let l ← get
  let c := l.source[l.pos]?.getD 0
  if c = byte '\n' then
    set { l with pos := l.pos + 1, line := l.line + 1, column := 1 }
  else
    set { l with pos := l.pos + 1, column := l.column + 1 }
  return c

/-- `while (!IsAtEnd() && test(Peek())) text.push_back(Advance());`. -/
def takeWhile (test : UInt8 → Bool) : Prog Lexer Bytes := do
  let fuel := (← get).source.length + 1
  Prog.whileM (do return !(← isAtEnd) && test (← peek))
    (fun text => do return text ++ [← advance]) fuel []

def skipWhitespace : Prog Lexer Unit := do
  let _ ← takeWhile isSpace

/-- `MakeToken`, called after the token's text was read. -/
def makeToken (type : TokenType) (text : Bytes) : Prog Lexer Token := do
  let l ← get
  return ⟨type, text, 0, [], l.line, l.column - text.length⟩

def lexIdentifierOrKeyword : Prog Lexer Token := do
  let start ← get
  let text ← takeWhile fun c => isAlnum c || c == byte '_'
  let type := (keywordTable.lookup (toUpper text)).getD .identifier
  return ⟨type, text, 0, [], start.line, start.column⟩

def lexNumber : Prog Lexer Token := do
  let start ← get
  let digits ← takeWhile isDigit
  -- `std::stoll` throws what no caller up to `ExecuteSQL` catches.
  if 2 ^ 63 ≤ digitsValue digits then
    throw (.outOfRange (text "stoll"))
  return ⟨.integerLiteral, digits, Int64.ofNat (digitsValue digits), [], start.line, start.column⟩

/-- The loop of `LexString`, from `value` on. -/
def lexStringFrom (startLine startColumn : Nat) : Nat → Bytes → Prog Lexer Bytes
  | 0, _ => throw .divergence
  | fuel + 1, value => do
    if ← isAtEnd then
      throw (.lexErrorAt (text "unterminated string literal") startLine startColumn)
    else if (← peek) = byte '\'' then
      let _ ← advance
      -- A doubled quote stands for one quote, and the literal goes on.
      if (← peek) = byte '\'' then
        let _ ← advance
        lexStringFrom startLine startColumn fuel (value ++ [byte '\''])
      else
        return value
    else
      lexStringFrom startLine startColumn fuel (value ++ [← advance])

def lexString : Prog Lexer Token := do
  let start ← get
  let _ ← advance
  let value ← lexStringFrom start.line start.column (start.source.length + 1) []
  return ⟨.stringLiteral, value, 0, value, start.line, start.column⟩

/-- A token of one character. -/
def lexSymbol (type : TokenType) (symbol : String) : Prog Lexer Token := do
  let _ ← advance
  makeToken type (text symbol)

/-- The `switch` of `Tokenize`: operators and punctuation. -/
def lexOperator (c : UInt8) : Prog Lexer Token := do
  let start ← get
  if c = byte '*' then lexSymbol .star "*"
  else if c = byte ',' then lexSymbol .comma ","
  else if c = byte '.' then lexSymbol .dot "."
  else if c = byte ';' then lexSymbol .semicolon ";"
  else if c = byte '(' then lexSymbol .lparen "("
  else if c = byte ')' then lexSymbol .rparen ")"
  else if c = byte '=' then lexSymbol .eq "="
  else if c = byte '<' then
    let _ ← advance
    if (← peek) = byte '=' then lexSymbol .lte "<=" else makeToken .lt (text "<")
  else if c = byte '>' then
    let _ ← advance
    if (← peek) = byte '=' then lexSymbol .gte ">=" else makeToken .gt (text ">")
  else if c = byte '!' then
    let _ ← advance
    if (← peek) = byte '=' then lexSymbol .neq "!="
    else throw (.lexErrorAt (text "unexpected character '!' (did you mean '!='?)") start.line
      start.column)
  else throw (.lexErrorAt (text "unexpected character '" ++ [c] ++ text "'") start.line
    start.column)

/-- One round of the loop of `Tokenize`, past the white space and the test for the end. -/
def nextToken : Prog Lexer Token := do
  let c ← peek
  if isAlpha c || c == byte '_' then lexIdentifierOrKeyword
  else if isDigit c then lexNumber
  else if c = byte '\'' then lexString
  else lexOperator c

/-- The loop of `Tokenize`. -/
def tokensFrom : Nat → List Token → Prog Lexer (List Token)
  | 0, _ => throw .divergence
  | fuel + 1, tokens => do
    skipWhitespace
    if ← isAtEnd then return tokens
    tokensFrom fuel (tokens ++ [← nextToken])

def tokenize : Prog Lexer (List Token) := do
  let fuel := (← get).source.length + 1
  let tokens ← tokensFrom fuel []
  let l ← get
  return tokens ++ [⟨.endOfInput, [], 0, [], l.line, l.column⟩]

end Lexer

end Reldb
