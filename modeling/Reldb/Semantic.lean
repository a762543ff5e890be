import Reldb.Catalog
import Reldb.ExecRow

/-!
# Reldb — semantic validation (`semantic.h`, `semantic.cpp`)

What `ValidateStatement` checks of a parsed statement against the catalog before anything is planned.
-/

namespace Reldb

/-- The aliases of a query and their schemas. No alias is in the map twice. -/
abbrev AliasMap := List (Bytes × TableSchema)

namespace AliasMap

def find (aliases : AliasMap) (name : Bytes) : Option TableSchema :=
  (aliases.find? (·.1 == name)).map (·.2)

/-- The number of tables that have a column of this name. -/
def countMatches (aliases : AliasMap) (column : Bytes) : Nat :=
  aliases.countP fun entry => (entry.2.columnIndex column).isSome

end AliasMap

/-- The checks of one column reference: `place` ends the text about an unknown table, and `ambiguous` is
the text about a name more than one table has. -/
def validateColumnRef (aliases : AliasMap) (place ambiguous : Bytes) (ref : ColumnRef) :
    Except Exn Unit :=
  match ref.table with
  | some table =>
    match aliases.find table with
    | none =>
      .error (.semanticError (text "unknown table or alias '" ++ table ++ text "'" ++ place))
    | some schema =>
      if (schema.columnIndex ref.column).isNone then
        .error (.semanticError (text "no column '" ++ ref.column ++ text "' in table '" ++ table ++
          text "'"))
      else .ok ()
  | none =>
    let found := aliases.countMatches ref.column
    if found = 0 then
      .error (.semanticError (text "no column '" ++ ref.column ++
        text "' in any table referenced by this query"))
    else if 1 < found then .error (.semanticError ambiguous)
    else .ok ()

def validateColumnRefsIn (aliases : AliasMap) : Expr → Except Exn Unit
  | .columnRef table column =>
    validateColumnRef aliases [] (text "column '" ++ column ++
      text ("' is ambiguous — it exists in more than one joined table; " ++
        "qualify it (e.g. table.") ++ column ++ text ")") ⟨table, column⟩
  | .literal _ => .ok ()
  | .comparison _ left right | .and left right | .or left right => do
    validateColumnRefsIn aliases left
    validateColumnRefsIn aliases right

/-- The checks `ValidateSelect` makes of one item of the select list. -/
def validateSelectItem (aliases : AliasMap) (item : SelectItem) : Except Exn Unit :=
  validateColumnRef aliases (text " in SELECT list")
    (text "column '" ++ item.column ++ text "' in SELECT list is ambiguous — qualify it")
    ⟨item.table, item.column⟩

/-- The name a table goes by in the query. -/
def TableRef.name (ref : TableRef) : Bytes := ref.aliasName.getD ref.table

/-- The lambda `add_table`. -/
def addTable (cat : Catalog) (aliases : AliasMap) (ref : TableRef) : Except Exn AliasMap := do
  if !cat.tableExists ref.table then
    throw (.semanticError (text "no such table '" ++ ref.table ++ text "'"))
  if (aliases.find ref.name).isSome then
    throw (.semanticError (text "duplicate table name or alias '" ++ ref.name ++
      text "' in FROM/JOIN — every table reference needs a unique name"))
  return aliases ++ [(ref.name, ← cat.getSchema ref.table)]

/-- The loop over the `JOIN` clauses: a condition sees the tables up to its own. -/
def validateJoins (cat : Catalog) : AliasMap → List JoinClause → Except Exn AliasMap
  | aliases, [] => .ok aliases
  | aliases, join :: joins => do
    let aliases ← addTable cat aliases join.table
    validateColumnRefsIn aliases join.onCondition
    validateJoins cat aliases joins

def validateSelect (cat : Catalog) (stmt : SelectStmt) : Except Exn Unit := do
  let aliases ← addTable cat [] stmt.from
  let aliases ← validateJoins cat aliases stmt.joins
  if !stmt.isStar then
    stmt.selectItems.forM (validateSelectItem aliases)
  match stmt.where with
  | some predicate => validateColumnRefsIn aliases predicate
  | none => return

/-- The loop over an explicit column list; `seen` are the names before this one. -/
def validateColumnList (schema : TableSchema) (tableName : Bytes) :
    List Bytes → List Bytes → Except Exn Unit
  | _, [] => .ok ()
  | seen, name :: names =>
    if (schema.columnIndex name).isNone then
      .error (.semanticError (text "no column '" ++ name ++ text "' in table '" ++ tableName ++
        text "'"))
    else if name ∈ seen then
      .error (.semanticError (text "column '" ++ name ++
        text "' is specified more than once in this INSERT's column list"))
    else validateColumnList schema tableName (name :: seen) names

def validateInsert (cat : Catalog) (stmt : InsertStmt) : Except Exn Unit := do
  if !cat.tableExists stmt.tableName then
    throw (.semanticError (text "no such table '" ++ stmt.tableName ++ text "'"))
  let schema ← cat.getSchema stmt.tableName
  if stmt.columns = [] then
    if stmt.values.length ≠ schema.columns.length then
      throw (.semanticError (text "INSERT into '" ++ stmt.tableName ++ text "' expects " ++
        decimal schema.columns.length ++ text " values (in schema column order), got " ++
        decimal stmt.values.length))
  else
    if stmt.columns.length ≠ schema.columns.length then
      throw (.semanticError (text "INSERT into '" ++ stmt.tableName ++ text "' must name all " ++
        decimal schema.columns.length ++ text " columns — partial inserts aren't supported"))
    if stmt.columns.length ≠ stmt.values.length then
      throw (.semanticError (text "INSERT into '" ++ stmt.tableName ++
        text "': column list and VALUES list have different lengths"))
    validateColumnList schema stmt.tableName [] stmt.columns

/-- `CREATE TABLE` is checked by `Catalog::CreateTable`. -/
def validateStatement (cat : Catalog) : Statement → Except Exn Unit
  | .createTable _ => .ok ()
  | .insert stmt => validateInsert cat stmt
  | .select stmt => validateSelect cat stmt

end Reldb
