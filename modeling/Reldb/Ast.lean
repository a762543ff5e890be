import Reldb.Basic

/-!
# Reldb — statements and schemas (`ast.h`, `schema.h`, `value.h`)

The statements the parser builds, the schema a table keeps, and the values rows hold. A literal and
a value are a kind and the one member that kind selects.
-/

namespace Reldb

/-! ## Values -/

inductive ColumnType where
  | integer
  | text
  deriving DecidableEq, Repr

inductive Literal where
  | integer (value : Int64)
  | text (value : Bytes)
  deriving DecidableEq, Repr

inductive Value where
  | int (value : Int64)
  | text (value : Bytes)
  deriving DecidableEq, Repr

/-! ## Expressions -/

inductive ComparisonOp where
  | eq
  | neq
  | lt
  | lte
  | gt
  | gte
  deriving DecidableEq, Repr

inductive Expr where
  | columnRef (table : Option Bytes) (column : Bytes)
  | literal (value : Literal)
  | comparison (op : ComparisonOp) (left right : Expr)
  | and (left right : Expr)
  | or (left right : Expr)
  deriving DecidableEq, Repr

/-! ## Statements -/

structure ColumnDef where
  name : Bytes
  type : ColumnType
  isPrimaryKey : Bool
  deriving DecidableEq, Repr

structure TableRef where
  table : Bytes
  aliasName : Option Bytes
  deriving DecidableEq, Repr

structure JoinClause where
  table : TableRef
  onCondition : Expr
  deriving DecidableEq, Repr

structure SelectItem where
  table : Option Bytes
  column : Bytes
  aliasName : Option Bytes
  deriving DecidableEq, Repr

structure CreateTableStmt where
  tableName : Bytes
  columns : List ColumnDef
  deriving DecidableEq, Repr

/-- `columns` is empty when the statement names none. -/
structure InsertStmt where
  tableName : Bytes
  columns : List Bytes
  values : List Literal
  deriving DecidableEq, Repr

structure SelectStmt where
  isStar : Bool
  selectItems : List SelectItem
  «from» : TableRef
  joins : List JoinClause
  «where» : Option Expr
  deriving DecidableEq, Repr

inductive Statement where
  | createTable (stmt : CreateTableStmt)
  | insert (stmt : InsertStmt)
  | select (stmt : SelectStmt)
  deriving DecidableEq, Repr

/-! ## Schemas -/

structure TableSchema where
  tableName : Bytes
  columns : List ColumnDef
  deriving DecidableEq, Repr

namespace TableSchema

/-- The index of the first primary key column; the source's -1 is `none`. -/
def primaryKeyIndex (s : TableSchema) : Option Nat := s.columns.findIdx? (·.isPrimaryKey)

def columnIndex (s : TableSchema) (name : Bytes) : Option Nat :=
  s.columns.findIdx? (·.name == name)

end TableSchema

end Reldb
