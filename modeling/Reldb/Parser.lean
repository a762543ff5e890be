import Reldb.Ast
import Reldb.Lexer

/-!
# Reldb — the parser (`parser.h`)

A recursive-descent parser with one token of lookahead. `ParseExpr` calls itself through
parentheses only, so its fuel counts open parentheses; every loop reads at least one token a round.
Both take the number of tokens and one for their fuel. The call stack of the C++ parser is not
modelled.
-/

namespace Reldb

/-- A `ParseError`: the message, and where the offending token is. -/
def Exn.parseErrorAt (msg : Bytes) (line column : Nat) : Exn :=
  .parseError (msg ++ text " at line " ++ decimal line ++ text ", column " ++ decimal column) line
    column

structure Parser where
  tokens : List Token
  pos : Nat
  deriving DecidableEq, Repr

namespace Parser

def new (tokens : List Token) : Parser := ⟨tokens, 0⟩

/-- `Peek()`; every call of the source leaves its offset at 0. `tokens_.back()` of an empty list has
no meaning. -/
def peek : Prog Parser Token := do
  let p ← get
  match p.tokens[p.pos]? with
  | some t => return t
  | none =>
    match p.tokens.getLast? with
    | some t => return t
    | none => throw .undefinedBehaviour

/-- The last token, the end of the input, is never passed. -/
def advance : Prog Parser Token := do
  let t ← peek
  modify fun p => if p.pos < p.tokens.length - 1 then { p with pos := p.pos + 1 } else p
  return t

def check (type : TokenType) : Prog Parser Bool := do
  return (← peek).type = type

def match' (type : TokenType) : Prog Parser Bool := do
  if !(← check type) then return false
  let _ ← advance
  return true

def error {α : Type} (what : Bytes) : Prog Parser α := do
  let t ← peek
  throw (.parseErrorAt what t.line t.column)

def expect (type : TokenType) (what : String) : Prog Parser Token := do
  if !(← check type) then
    let t ← peek
    error (text ("expected " ++ what ++ " but found " ++ t.type.typeName) ++
      if t.text.isEmpty then [] else text " ('" ++ t.text ++ text "')")
  advance

/-- The fuel of a loop over the tokens. -/
def fuel : Prog Parser Nat := do
  return (← get).tokens.length + 1

/-- `while (Match(separator)) items.push_back(item());`. -/
def collect {α : Type} (separator : TokenType) (item : Prog Parser α) (items : List α) :
    Prog Parser (List α) := do
  Prog.whileM (match' separator) (fun items => do return items ++ [← item]) (← fuel) items

def parseIdent : Prog Parser Bytes := do
  return (← expect .identifier "an identifier").text

/-! ## CREATE TABLE -/

def parseTypeName : Prog Parser ColumnType := do
  if ← match' .integerType then return .integer
  if ← match' .textType then return .text
  error (text "expected a column type (INTEGER or TEXT)")

def parseColumnDef : Prog Parser ColumnDef := do
  let name ← parseIdent
  let type ← parseTypeName
  if ← match' .primary then
    let _ ← expect .key "KEY after PRIMARY"
    return ⟨name, type, true⟩
  return ⟨name, type, false⟩

def parseCreateTable : Prog Parser Statement := do
  let _ ← expect .create "CREATE"
  let _ ← expect .table "TABLE"
  let tableName ← parseIdent
  let _ ← expect .lparen "'(' to start the column list"
  let first ← parseColumnDef
  let columns ← collect .comma parseColumnDef [first]
  let _ ← expect .rparen "')' to close the column list"
  return .createTable ⟨tableName, columns⟩

/-! ## INSERT -/

def parseLiteral : Prog Parser Literal := do
  if ← check .integerLiteral then
    return .integer (← advance).intValue
  if ← check .stringLiteral then
    return .text (← advance).stringValue
  error (text "expected a literal value (an integer or a quoted string)")

/-- The parenthesised column names of an `INSERT`, if there are any. -/
def parseColumnNames : Prog Parser (List Bytes) := do
  if ← match' .lparen then
    let first ← parseIdent
    let columns ← collect .comma parseIdent [first]
    let _ ← expect .rparen "')' to close the column list"
    return columns
  return []

def parseInsert : Prog Parser Statement := do
  let _ ← expect .insert "INSERT"
  let _ ← expect .into "INTO"
  let tableName ← parseIdent
  let columns ← parseColumnNames
  let _ ← expect .values "VALUES"
  let _ ← expect .lparen "'(' to start the value list"
  let first ← parseLiteral
  let values ← collect .comma parseLiteral [first]
  let _ ← expect .rparen "')' to close the value list"
  return .insert ⟨tableName, columns, values⟩

/-! ## Expressions -/

/-- `ParseValue` for a column: `[ident .] ident`. -/
def parseColumnRef : Prog Parser (Option Bytes × Bytes) := do
  let first ← parseIdent
  if ← match' .dot then
    return (some first, ← parseIdent)
  return (none, first)

def parseValue : Prog Parser Expr := do
  if ← check .identifier then
    let (table, column) ← parseColumnRef
    return .columnRef table column
  if (← check .integerLiteral) || (← check .stringLiteral) then
    return .literal (← parseLiteral)
  error (text "expected a column reference or a literal value")

/-- The operator a token stands for. -/
def comparisonOp : TokenType → Option ComparisonOp
  | .eq => some .eq
  | .neq => some .neq
  | .lt => some .lt
  | .lte => some .lte
  | .gt => some .gt
  | .gte => some .gte
  | _ => none

def parseComparisonOp : Prog Parser ComparisonOp := do
  match comparisonOp (← peek).type with
  | some op =>
    let _ ← advance
    return op
  | none => error (text "expected a comparison operator (=, !=, <, <=, >, or >=)")

def parseComparison : Prog Parser Expr := do
  let left ← parseValue
  let op ← parseComparisonOp
  let right ← parseValue
  return .comparison op left right

/-- `ParsePrimaryExpr`, which calls `parseExpr` inside parentheses. -/
def parsePrimaryExpr (parseExpr : Prog Parser Expr) : Prog Parser Expr := do
  if ← match' .lparen then
    let inner ← parseExpr
    let _ ← expect .rparen "')' to close the parenthesized expression"
    return inner
  parseComparison

def parseAndExpr (parseExpr : Prog Parser Expr) : Prog Parser Expr := do
  let left ← parsePrimaryExpr parseExpr
  Prog.whileM (match' .and) (fun left => do return .and left (← parsePrimaryExpr parseExpr))
    (← fuel) left

/-- `ParseExpr`, with at most so many parentheses open. -/
def parseExprWithin : Nat → Prog Parser Expr
  | 0 => throw .divergence
  | depth + 1 => do
    let left ← parseAndExpr (parseExprWithin depth)
    Prog.whileM (match' .or)
      (fun left => do return .or left (← parseAndExpr (parseExprWithin depth))) (← fuel) left

def parseExpr : Prog Parser Expr := do
  parseExprWithin (← fuel)

/-! ## SELECT -/

/-- `AS ident`, if it is there. -/
def parseAlias : Prog Parser (Option Bytes) := do
  if ← match' .as then
    return some (← parseIdent)
  return none

def parseSelectItem : Prog Parser SelectItem := do
  let (table, column) ← parseColumnRef
  return ⟨table, column, ← parseAlias⟩

def parseTableRef : Prog Parser TableRef := do
  let table ← parseIdent
  return ⟨table, ← parseAlias⟩

def parseJoinClause : Prog Parser JoinClause := do
  let _ ← expect .join "JOIN"
  let table ← parseTableRef
  let _ ← expect .on "ON"
  return ⟨table, ← parseExpr⟩

/-- `while (Check(JOIN)) joins.push_back(ParseJoinClause());`. -/
def parseJoins : Prog Parser (List JoinClause) := do
  Prog.whileM (check .join) (fun joins => do return joins ++ [← parseJoinClause]) (← fuel) []

/-- The select list: whether it is `*`, and its items. -/
def parseSelectList : Prog Parser (Bool × List SelectItem) := do
  if ← match' .star then return (true, [])
  let first ← parseSelectItem
  return (false, ← collect .comma parseSelectItem [first])

/-- `WHERE expr`, if it is there. -/
def parseWhere : Prog Parser (Option Expr) := do
  if ← match' .where then
    return some (← parseExpr)
  return none

def parseSelect : Prog Parser Statement := do
  let _ ← expect .select "SELECT"
  let (isStar, selectItems) ← parseSelectList
  let _ ← expect .from "FROM"
  let table ← parseTableRef
  let joins ← parseJoins
  return .select ⟨isStar, selectItems, table, joins, ← parseWhere⟩

/-! ## Statements -/

/-- The `switch` of `ParseStatement`. -/
def parseBody : Prog Parser Statement := do
  match (← peek).type with
  | .create => parseCreateTable
  | .insert => parseInsert
  | .select => parseSelect
  | type =>
    error (text ("expected a statement starting with CREATE, INSERT, or SELECT, found " ++
      type.typeName))

def parseStatement : Prog Parser Statement := do
  let stmt ← parseBody
  let _ ← match' .semicolon
  let _ ← expect .endOfInput "end of statement (only one statement is supported per parse call)"
  return stmt

end Parser

/-- `ParseSQL`. -/
def parseSQL (sql : Bytes) : Except Exn Statement :=
  match Lexer.tokenize (.new sql) with
  | .error e _ => .error e
  | .ok tokens _ =>
    match Parser.parseStatement (.new tokens) with
    | .error e _ => .error e
    | .ok stmt _ => .ok stmt

end Reldb
