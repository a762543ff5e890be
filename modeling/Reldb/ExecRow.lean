import Reldb.Ast

/-!
# Reldb — rows and expressions (`exec_row.h`, `exec_row.cpp`, `expr_eval.h`, `expr_eval.cpp`)

A row that flows through a plan carries, with every value, the table (or alias) and the column it came
from. Expressions name columns, and are evaluated against one row.
-/

namespace Reldb

/-- A column reference: the qualifier is there or not. -/
structure ColumnRef where
  table : Option Bytes
  column : Bytes
  deriving DecidableEq, Repr

structure Field where
  table : Bytes
  column : Bytes
  value : Value
  deriving DecidableEq, Repr

/-- `ExecRow::fields`, the one member of an `ExecRow`. -/
abbrev ExecRow := List Field

namespace ExecRow

/-- The loop of `Find` over the fields when there is no qualifier; `found` is the match so far. -/
def findUnqualified (column : Bytes) : Option Value → ExecRow → Except Exn Value
  | some value, [] => .ok value
  | none, [] =>
    .error (.columnResolutionError (text "no column '" ++ column ++ text "' in this row"))
  | found, f :: fields =>
    if f.column = column then
      match found with
      | some _ =>
        .error (.columnResolutionError (text "column '" ++ column ++
          text ("' is ambiguous — it exists in more than one joined table; " ++
            "qualify it (e.g. table.") ++ column ++ text ")"))
      | none => findUnqualified column (some f.value) fields
    else findUnqualified column found fields

/-- A qualified reference is the first field that matches, an unqualified one the only one. -/
def find (row : ExecRow) (ref : ColumnRef) : Except Exn Value :=
  match ref.table with
  | some table =>
    match row.find? fun f => f.table == table && f.column == ref.column with
    | some f => .ok f.value
    | none =>
      .error (.columnResolutionError (text "no column '" ++ table ++ text "." ++ ref.column ++
        text "' in this row"))
  | none => findUnqualified ref.column none row

end ExecRow

/-! ## Evaluation -/

def literalToValue : Literal → Value
  | .integer value => .int value
  | .text value => .text value

/-- The three-way comparison; the bytes of a text compare as `unsigned char`. -/
def compareValues : Value → Value → Except Exn Ordering
  | .int a, .int b => .ok (if a < b then .lt else if b < a then .gt else .eq)
  | .text a, .text b => .ok (if a < b then .lt else if b < a then .gt else .eq)
  | _, _ =>
    .error (.evalError (text ("cannot compare an INTEGER value with a TEXT value — this " ++
      "engine doesn't implicitly convert between column types")))

/-- The check an operator makes of the result of `CompareValues`. -/
def ComparisonOp.holds : ComparisonOp → Ordering → Bool
  | .eq, c => c == .eq
  | .neq, c => c != .eq
  | .lt, c => c == .lt
  | .lte, c => c != .gt
  | .gt, c => c == .gt
  | .gte, c => c != .lt

def evalValue (row : ExecRow) : Expr → Except Exn Value
  | .columnRef table column => row.find ⟨table, column⟩
  | .literal value => .ok (literalToValue value)
  | .comparison _ _ _ | .and _ _ | .or _ _ =>
    .error (.evalError (text ("EvalValue: expected a value expression (column reference or " ++
      "literal), got a boolean expression")))

/-- `AND` and `OR` do not evaluate a right side that cannot matter. -/
def evalBool (row : ExecRow) : Expr → Except Exn Bool
  | .comparison op left right => do
    let left ← evalValue row left
    let right ← evalValue row right
    return op.holds (← compareValues left right)
  | .and left right => do
    if ← evalBool row left then evalBool row right else return false
  | .or left right => do
    if ← evalBool row left then return true else evalBool row right
  | .columnRef _ _ | .literal _ =>
    .error (.evalError (text ("EvalBool: expected a boolean expression (comparison, AND, or " ++
      "OR), got a bare value expression")))

end Reldb
