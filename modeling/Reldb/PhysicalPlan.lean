import Reldb.ExecRow

/-!
# Reldb — query plans (`logical_plan.h`, `logical_plan.cpp`, `physical_plan.h`, `physical_plan.cpp`)

A logical plan is the shape of the query. A physical plan is a tree of pull iterators; a constructor
holds what the C++ object holds, its cursors included, and `open`, `next` and `close` return the tree as
the call leaves it. An exception drops the tree: no caller catches one and goes on.

`Catalog*` is what plans ask of it, `CatalogReads`, in the monad the catalog's methods run in; `N` is the
type of row estimates, `uint64_t` in the source.
-/

namespace Reldb

/-! ## Logical plans -/

inductive LogicalNode where
  | scan (table aliasName : Bytes)
  | filter (input : LogicalNode) (predicate : Expr)
  | join (left right : LogicalNode) (condition : Expr)
  | project (input : LogicalNode) (isStar : Bool) (items : List SelectItem)
  deriving DecidableEq, Repr

def makeScan (ref : TableRef) : LogicalNode := .scan ref.table (ref.aliasName.getD ref.table)

def buildLogicalPlan (stmt : SelectStmt) : LogicalNode :=
  let joined := stmt.joins.foldl (fun plan join => .join plan (makeScan join.table) join.onCondition)
    (makeScan stmt.from)
  let filtered := match stmt.where with
    | some predicate => .filter joined predicate
    | none => joined
  .project filtered stmt.isStar stmt.selectItems

/-! ## Physical plans -/

/-- The rows `Open` read and the place in them. -/
structure ScanCursor where
  rows : List (List Value)
  cursor : Nat
  deriving DecidableEq, Repr

structure NestedLoopCursor where
  currentLeft : Option ExecRow
  rightRows : List ExecRow
  rightCursor : Nat
  deriving DecidableEq, Repr

/-- `build_table_rows_` is a multimap; the order C++ leaves open inside one key is that of insertion. -/
structure HashCursor where
  buildTableRows : List (Value × ExecRow)
  currentProbe : Option ExecRow
  matchesForCurrentProbe : List ExecRow
  matchCursor : Nat
  deriving DecidableEq, Repr

inductive PhysicalPlan where
  | scan (table aliasName : Bytes) (cursor : ScanCursor)
  | filter (input : PhysicalPlan) (predicate : Expr)
  | nestedLoopJoin (left right : PhysicalPlan) (condition : Expr) (cursor : NestedLoopCursor)
  | hashJoin (buildSide probeSide : PhysicalPlan) (buildColumn probeColumn : ColumnRef)
      (cursor : HashCursor)
  | project (input : PhysicalPlan) (isStar : Bool) (items : List SelectItem)
  deriving DecidableEq, Repr

structure CatalogReads (m : Type → Type) (N : Type) where
  getSchema : Bytes → m TableSchema
  scanTable : Bytes → m (List (List Value))
  estimatedRowCount : Bytes → m N

namespace PhysicalPlan

/-! ## Constructors -/

def newScan (table aliasName : Bytes) : PhysicalPlan := .scan table aliasName ⟨[], 0⟩

def newNestedLoopJoin (left right : PhysicalPlan) (condition : Expr) : PhysicalPlan :=
  .nestedLoopJoin left right condition ⟨none, [], 0⟩

def newHashJoin (buildSide probeSide : PhysicalPlan) (buildColumn probeColumn : ColumnRef) :
    PhysicalPlan :=
  .hashJoin buildSide probeSide buildColumn probeColumn ⟨[], none, [], 0⟩

/-! ## Rows -/

/-- The loop that tags the values of a stored row. -/
def tagFields (aliasName : Bytes) : List ColumnDef → List Value → Except Exn ExecRow
  | [], _ => .ok []
  | _ :: _, [] => .error .undefinedBehaviour
  | col :: cols, value :: values =>
    (tagFields aliasName cols values).map (⟨aliasName, col.name, value⟩ :: ·)

/-- The loop over the select list. -/
def projectFields (row : ExecRow) : List SelectItem → Except Exn ExecRow
  | [] => .ok []
  | item :: items =>
    match row.find ⟨item.table, item.column⟩ with
    | .error e => .error e
    | .ok value =>
      (projectFields row items).map
        (⟨item.table.getD [], item.aliasName.getD item.column, value⟩ :: ·)

/-- `equal_range`. -/
def equalRange (key : Value) (rows : List (Value × ExecRow)) : List ExecRow :=
  (rows.filter (·.1 == key)).map (·.2)

section

variable {m : Type → Type} [Monad m] [MonadExcept Exn m] {N : Type} (cat : CatalogReads m N)

/-! ## Iteration -/

/-- `Close`. -/
def close : PhysicalPlan → PhysicalPlan
  | .scan table aliasName _ => .scan table aliasName ⟨[], 0⟩
  | .filter input predicate => .filter input.close predicate
  | .nestedLoopJoin left right condition c => .nestedLoopJoin left.close right condition c
  | .hashJoin buildSide probeSide buildColumn probeColumn c =>
    .hashJoin buildSide probeSide.close buildColumn probeColumn c
  | .project input isStar items => .project input.close isStar items

/-- `Next`. Every pass of a loop and every call of an input's `Next` takes one of the `fuel`. -/
def next : Nat → PhysicalPlan → m (Option ExecRow × PhysicalPlan)
  | 0, _ => throw .divergence
  | _ + 1, .scan table aliasName c =>
    match c.rows[c.cursor]? with
    | none => return (none, .scan table aliasName c)
    | some values => do
      let schema ← cat.getSchema table
      let row ← ofExcept (tagFields aliasName schema.columns values)
      return (some row, .scan table aliasName { c with cursor := c.cursor + 1 })
  | fuel + 1, .filter input predicate => do
    let (row, input) ← next fuel input
    match row with
    | none => return (none, .filter input predicate)
    | some row =>
      if ← ofExcept (evalBool row predicate) then return (some row, .filter input predicate)
      else next fuel (.filter input predicate)
  | fuel + 1, .nestedLoopJoin left right condition c =>
    match c.currentLeft with
    | none => return (none, .nestedLoopJoin left right condition c)
    | some currentLeft =>
      match c.rightRows[c.rightCursor]? with
      | some r => do
        let candidate := currentLeft ++ r
        let c := { c with rightCursor := c.rightCursor + 1 }
        if ← ofExcept (evalBool candidate condition) then
          return (some candidate, .nestedLoopJoin left right condition c)
        else next fuel (.nestedLoopJoin left right condition c)
      | none => do
        let (row, left) ← next fuel left
        next fuel (.nestedLoopJoin left right condition { c with currentLeft := row, rightCursor := 0 })
  | fuel + 1, .hashJoin buildSide probeSide buildColumn probeColumn c =>
    match c.currentProbe with
    | none => return (none, .hashJoin buildSide probeSide buildColumn probeColumn c)
    | some currentProbe => do
      -- an empty list at cursor 0 is one not computed yet, or one computed and found empty
      let found ←
        if c.matchCursor = 0 ∧ c.matchesForCurrentProbe = [] then do
          let key ← ofExcept (currentProbe.find probeColumn)
          pure (equalRange key c.buildTableRows)
        else pure c.matchesForCurrentProbe
      match found[c.matchCursor]? with
      | some buildRow =>
        return (some (currentProbe ++ buildRow), .hashJoin buildSide probeSide buildColumn probeColumn
          { c with matchesForCurrentProbe := found, matchCursor := c.matchCursor + 1 })
      | none => do
        let (row, probeSide) ← next fuel probeSide
        next fuel (.hashJoin buildSide probeSide buildColumn probeColumn
          { c with currentProbe := row, matchesForCurrentProbe := [], matchCursor := 0 })
  | fuel + 1, .project input isStar items => do
    let (row, input) ← next fuel input
    match row with
    | none => return (none, .project input isStar items)
    | some row =>
      if isStar then return (some row, .project input isStar items)
      else return (some (← ofExcept (projectFields row items)), .project input isStar items)

/-- `while ((r = plan->Next()).has_value())`, with what the loop keeps of each row. -/
def drain {α : Type} (keep : ExecRow → Except Exn α) : Nat → PhysicalPlan → m (List α × PhysicalPlan)
  | 0, _ => throw .divergence
  | fuel + 1, plan => do
    let (row, plan) ← next cat fuel plan
    match row with
    | none => return ([], plan)
    | some row =>
      let kept ← ofExcept (keep row)
      let (rest, plan) ← drain keep fuel plan
      return (kept :: rest, plan)

/-- `Open`. -/
def «open» (fuel : Nat) : PhysicalPlan → m PhysicalPlan
  | .scan table aliasName _ => return .scan table aliasName ⟨← cat.scanTable table, 0⟩
  | .filter input predicate => return .filter (← «open» fuel input) predicate
  | .nestedLoopJoin left right condition _ => do
    let left ← «open» fuel left
    let right ← «open» fuel right
    let (rightRows, right) ← drain cat .ok fuel right
    let (row, left) ← next cat fuel left
    return .nestedLoopJoin left right.close condition ⟨row, rightRows, 0⟩
  | .hashJoin buildSide probeSide buildColumn probeColumn _ => do
    let buildSide ← «open» fuel buildSide
    let (rows, buildSide) ← drain cat (fun r => (r.find buildColumn).map (·, r)) fuel buildSide
    let probeSide ← «open» fuel probeSide
    let (row, probeSide) ← next cat fuel probeSide
    return .hashJoin buildSide.close probeSide buildColumn probeColumn ⟨rows, row, [], 0⟩
  | .project input isStar items => return .project (← «open» fuel input) isStar items

/-- A plan's rows from `Open` to exhaustion, closed after. -/
def run (fuel : Nat) (plan : PhysicalPlan) : m (List ExecRow × PhysicalPlan) := do
  let plan ← «open» cat fuel plan
  let (rows, plan) ← drain cat .ok fuel plan
  return (rows, plan.close)

/-! ## Estimates -/

variable [Add N] [Mul N]

def estimatedRows : PhysicalPlan → m N
  | .scan table _ _ => cat.estimatedRowCount table
  | .filter input _ => estimatedRows input
  | .nestedLoopJoin left right _ _ => return (← estimatedRows left) * (← estimatedRows right)
  | .hashJoin buildSide probeSide _ _ _ =>
    return (← estimatedRows buildSide) + (← estimatedRows probeSide)
  | .project input _ _ => estimatedRows input

end

end PhysicalPlan

/-! ## Planning -/

/-- `joinCondition` is `none` for the table of the `FROM` clause only. -/
structure TableNode where
  table : Bytes
  aliasName : Bytes
  joinCondition : Option Expr
  deriving DecidableEq, Repr

/-- The qualifiers of an expression's column references. -/
def collectReferencedTables : Expr → List Bytes
  | .columnRef table _ => table.toList
  | .literal _ => []
  | .comparison _ left right | .and left right | .or left right =>
    collectReferencedTables left ++ collectReferencedTables right

/-- The two columns of a condition that is one `column = column` comparison. -/
def extractEquiJoin : Expr → Option (ColumnRef × ColumnRef)
  | .comparison .eq (.columnRef table column) (.columnRef table' column') =>
    some (⟨table, column⟩, ⟨table', column'⟩)
  | _ => none

/-- A join whose right side is not a scan is cast to one all the same; that is given no meaning. -/
def flattenJoins : LogicalNode → Except Exn (List TableNode)
  | .scan table aliasName => .ok [⟨table, aliasName, none⟩]
  | .join left (.scan table aliasName) condition =>
    (flattenJoins left).map (· ++ [⟨table, aliasName, some condition⟩])
  | .join left _ _ => (flattenJoins left).bind fun _ => .error .undefinedBehaviour
  | .filter _ _ | .project _ _ _ =>
    .error (.logicError (text ("FlattenJoins: expected only Scan/Join nodes below Filter/Project — " ++
      "logical plan shape drifted from what BuildLogicalPlan produces")))

/-- Which of the two columns is the new table's, and which the accumulated plan's. -/
def equiSides (aliasName : Bytes) (a b : ColumnRef) : Option (ColumnRef × ColumnRef) :=
  if a.table = some aliasName then some (a, b)
  else if b.table = some aliasName then some (b, a)
  else none

/-- What the greedy loop works on: the plan so far, the aliases it joins, and the nodes it consumed. -/
structure JoinState where
  accumulated : PhysicalPlan
  joinedAliases : List Bytes
  consumed : List Bool
  deriving DecidableEq, Repr

section

variable {N : Type} [Add N] [Mul N] [LE N] [LT N] [DecidableLE N] [DecidableLT N]

/-- The join of the accumulated plan with the next table. The cost a hash join gets where there is no
equi-join, the largest `uint64_t`, is compared with nothing. -/
def joinNext (leftRows rightRows : N) (accumulated : PhysicalPlan) (next : TableNode)
    (condition : Expr) : PhysicalPlan :=
  let rightScan := PhysicalPlan.newScan next.table next.aliasName
  let nested := PhysicalPlan.newNestedLoopJoin accumulated rightScan condition
  match extractEquiJoin condition with
  | none => nested
  | some (a, b) =>
    if leftRows + rightRows ≤ leftRows * rightRows then
      match equiSides next.aliasName a b with
      | none => nested
      | some (nextRef, accRef) =>
        if leftRows ≤ rightRows then .newHashJoin accumulated rightScan accRef nextRef
        else .newHashJoin rightScan accumulated nextRef accRef
    else nested

variable {m : Type → Type} [Monad m] [MonadExcept Exn m] (cat : CatalogReads m N)

/-- Every alias the condition mentions, but the node's own, is in the accumulated plan. -/
def TableNode.connected (node : TableNode) (condition : Expr) (joinedAliases : List Bytes) : Bool :=
  ((collectReferencedTables condition).filter (· ≠ node.aliasName)).all (· ∈ joinedAliases)

/-- The loop over the nodes from index `i` on; `best` is `best_idx` with `best_rows`. -/
def pickConnected (joinedAliases : List Bytes) :
    Nat → List (TableNode × Bool) → Option (Nat × N) → m (Option (Nat × N))
  | _, [], best => return best
  | i, (_, true) :: nodes, best => pickConnected joinedAliases (i + 1) nodes best
  | i, (node, false) :: nodes, best =>
    match node.joinCondition with
    | none => throw .undefinedBehaviour
    | some condition =>
      if node.connected condition joinedAliases then do
        let rows ← cat.estimatedRowCount node.table
        if best.all fun (_, bestRows) => rows < bestRows then
          pickConnected joinedAliases (i + 1) nodes (some (i, rows))
        else pickConnected joinedAliases (i + 1) nodes best
      else pickConnected joinedAliases (i + 1) nodes best

/-- The fallback: the first node not consumed. -/
def firstUnconsumed (consumed : List Bool) : Option Nat :=
  ((consumed.drop 1).findIdx? (!·)).map (· + 1)

/-- One pass of the loop. An index of -1, which no node has, is given no meaning. -/
def joinStep (nodes : List TableNode) (s : JoinState) : m JoinState := do
  let best ← pickConnected cat s.joinedAliases 1 ((nodes.zip s.consumed).drop 1) none
  let some idx := (best.map (·.1)).or (firstUnconsumed s.consumed) | throw .undefinedBehaviour
  let some next := nodes[idx]? | throw .undefinedBehaviour
  let some condition := next.joinCondition | throw .undefinedBehaviour
  let rightRows ← cat.estimatedRowCount next.table
  let leftRows ← s.accumulated.estimatedRows cat
  return {
    accumulated := joinNext leftRows rightRows s.accumulated next condition
    joinedAliases := next.aliasName :: s.joinedAliases
    consumed := s.consumed.set idx true }

/-- `while (remaining > 0)`. -/
def joinLoop (nodes : List TableNode) : Nat → JoinState → m JoinState
  | 0, s => return s
  | remaining + 1, s => do joinLoop nodes remaining (← joinStep cat nodes s)

/-- The state before the loop: the table of the `FROM` clause. -/
def JoinState.init (first : TableNode) (nodes : List TableNode) : JoinState where
  accumulated := .newScan first.table first.aliasName
  joinedAliases := [first.aliasName]
  consumed := true :: nodes.map fun _ => false

def buildPhysicalPlan : LogicalNode → m PhysicalPlan
  | .project input isStar items => do
    let (joinTreeRoot, predicate) := match input with
      | .filter input predicate => (input, some predicate)
      | input => (input, none)
    match ← ofExcept (flattenJoins joinTreeRoot) with
    | [] => throw .undefinedBehaviour
    | first :: nodes =>
      let s ← joinLoop cat (first :: nodes) nodes.length (.init first nodes)
      let plan := match predicate with
        | some predicate => .filter s.accumulated predicate
        | none => s.accumulated
      return .project plan isStar items
  | _ =>
    throw (.logicError (text "BuildPhysicalPlan: expected a Project node at the plan root"))

end

end Reldb
