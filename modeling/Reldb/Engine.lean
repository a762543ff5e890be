import Reldb.Parser
import Reldb.PhysicalPlan
import Reldb.Semantic

/-!
# Reldb — the engine (`engine.h`, `engine.cpp`)

`ExecuteSQL` parses, validates, plans and runs one statement. The engine's files, pool and catalog are one
`Catalog` here, since a catalog holds its pool and the pool its files.
-/

namespace Reldb

/-- `column_names` are the names in the first row, so they are empty when there is no row. -/
structure QueryResult where
  columnNames : List Bytes
  rows : List (List Value)
  deriving DecidableEq, Repr

def QueryResult.empty : QueryResult := ⟨[], []⟩

/-- What plans ask of the catalog. The stored count is a `uint64_t`. -/
def Catalog.reads : CatalogReads (Prog Catalog) UInt64 where
  getSchema name := do ofExcept ((← get).getSchema name)
  scanTable := Catalog.scanTable
  estimatedRowCount name := UInt64.ofNat <$> Catalog.estimatedRowCount name

namespace Engine

def executeCreateTable (stmt : CreateTableStmt) : Prog Catalog Unit :=
  Catalog.createTable stmt.tableName stmt.columns

/-- The loop over the explicit columns. -/
def fillColumns (schema : TableSchema) : List Bytes → List Literal → List Value →
    Except Exn (List Value)
  | [], _, values => .ok values
  | _ :: _, [], _ => .error .undefinedBehaviour
  | name :: names, literal :: literals, values =>
    match schema.columnIndex name with
    | none => .error .undefinedBehaviour
    | some idx => fillColumns schema names literals (values.set idx (literalToValue literal))

/-- The loop over the schema's columns. -/
def fillInOrder : List ColumnDef → List Literal → Except Exn (List Value)
  | [], _ => .ok []
  | _ :: _, [] => .error .undefinedBehaviour
  | _ :: cols, literal :: literals =>
    (fillInOrder cols literals).map (literalToValue literal :: ·)

/-- The vector of values of an `INSERT`. Its elements start out as the integer 0. -/
def insertValues (schema : TableSchema) (stmt : InsertStmt) : Except Exn (List Value) :=
  if stmt.columns = [] then fillInOrder schema.columns stmt.values
  else
    fillColumns schema stmt.columns stmt.values (List.replicate schema.columns.length (.int 0))

def executeInsert (stmt : InsertStmt) : Prog Catalog Unit := do
  let schema ← ofExcept ((← get).getSchema stmt.tableName)
  let values ← ofExcept (insertValues schema stmt)
  Catalog.insertRow stmt.tableName values

/-- The result `ExecuteSelect` collects from the rows of its plan. -/
def collectResult (rows : List ExecRow) : QueryResult where
  columnNames := (rows.headD []).map (·.column)
  rows := rows.map (·.map (·.value))

section

variable {m : Type → Type} [Monad m] [MonadExcept Exn m] {N : Type} [Add N] [Mul N] [LE N] [LT N]
  [DecidableLE N] [DecidableLT N]

def executeSelect (cat : CatalogReads m N) (fuel : Nat) (stmt : SelectStmt) : m QueryResult := do
  let physical ← buildPhysicalPlan cat (buildLogicalPlan stmt)
  let (rows, _) ← physical.run cat fuel
  return collectResult rows

end

/-- The `switch` of `ExecuteSQL`. -/
def executeStatement (fuel : Nat) : Statement → Prog Catalog QueryResult
  | .createTable stmt => do executeCreateTable stmt; return .empty
  | .insert stmt => do executeInsert stmt; return .empty
  | .select stmt => executeSelect Catalog.reads fuel stmt

def executeSQL (fuel : Nat) (sql : Bytes) : Prog Catalog QueryResult := do
  let stmt ← ofExcept (parseSQL sql)
  ofExcept (validateStatement (← get) stmt)
  executeStatement fuel stmt

end Engine

end Reldb
