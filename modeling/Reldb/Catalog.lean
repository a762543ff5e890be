import Reldb.BTree
import Reldb.RowCodec

/-!
# Reldb — the catalog (`catalog.h`, `catalog.cpp`)

One catalog page, page 0, names every table: its schema, the root of its B+tree and its row count.
In memory a table is a `TableHandle`; its `BTree` is built when the table is first used, over the
pool they all share, with a callback that stores a new root in the table's catalog entry.

`row_count` is modelled as `Nat`: a table of `2 ^ 64` rows is out of the model, as are that many
pages.
-/

namespace Reldb

open BufferPool

/-! ## Entries of the catalog page -/

/-- The text in a `char` array: up to the first zero byte (`strnlen`). -/
def stringOfChars (chars : Bytes) : Bytes := chars.takeWhile (· ≠ 0)

def columnDefFromEntry (entry : CatalogColumnEntry) : ColumnDef :=
  ⟨stringOfChars entry.name, if entry.type = 0 then .integer else .text, entry.isPrimaryKey ≠ 0⟩

def fillColumnEntry (col : ColumnDef) : CatalogColumnEntry :=
  ⟨col.name, match col.type with | .integer => 0 | .text => 1, if col.isPrimaryKey then 1 else 0⟩

/-- The schema the constructor reads off an entry. -/
def CatalogTableEntry.schema (entry : CatalogTableEntry) : TableSchema :=
  ⟨stringOfChars entry.tableName, (entry.columns.take entry.numColumns).map columnDefFromEntry⟩

/-- The entry `CreateTable` writes. -/
def TableSchema.entry (schema : TableSchema) (rootId : PageId) : CatalogTableEntry :=
  ⟨schema.tableName, schema.columns.length, true, schema.columns.map fillColumnEntry, rootId, 0⟩

/-! ## The class -/

/-- `tree` is the root of the table's `BTree`, `none` before the first use of the table. The codec
is a function of the schema. -/
structure TableHandle where
  inUse : Bool
  schema : TableSchema
  tree : Option PageId
  deriving DecidableEq, Repr

def TableHandle.empty : TableHandle := ⟨false, ⟨[], []⟩, none⟩

structure Catalog where
  bufferPool : BufferPool
  catalogPageId : PageId
  tables : List TableHandle

/-- The handle the constructor makes of an entry. -/
def CatalogTableEntry.handle (entry : CatalogTableEntry) : TableHandle :=
  if entry.inUse then ⟨true, entry.schema, none⟩ else .empty

/-- Add one to, or put a new root in, the table entry at `slot`. -/
def updateEntry (catalogPageId : PageId) (slot : Nat)
    (f : CatalogTableEntry → CatalogTableEntry) : Prog BufferPool Unit := do
  let some guard ← fetchPage catalogPageId | throw .undefinedBehaviour
  guard.withGuard do
    let .catalog body ← guard.page | throw .undefinedBehaviour
    guard.write (.catalog { body with tables := body.tables.modify slot f })
    guard.markDirty

/-- Persists a table's root: the callback of every catalog-managed tree. -/
def writeRootPageId (catalogPageId : PageId) (slot : Nat) (newRoot : PageId) :
    Prog BufferPool Unit :=
  updateEntry catalogPageId slot fun entry => { entry with rootPageId := newRoot }

def bumpRowCount (catalogPageId : PageId) (slot : Nat) : Prog BufferPool Unit :=
  updateEntry catalogPageId slot fun entry => { entry with rowCount := entry.rowCount + 1 }

/-- The entry at `slot` of the catalog page. -/
def readEntry (catalogPageId : PageId) (slot : Nat) : Prog BufferPool CatalogTableEntry := do
  let some guard ← fetchPage catalogPageId | throw .undefinedBehaviour
  guard.withGuard do
    let .catalog body ← guard.page | throw .undefinedBehaviour
    let some entry := body.tables[slot]? | throw .undefinedBehaviour
    return entry

namespace Catalog

/-- The constructor: returns `catalog_page_id_` and `tables_`. -/
def construct : Prog BufferPool (PageId × List TableHandle) := do
  let bp ← get
  if bp.diskPageCount = 0 then
    let some guard ← newPage
      | throw (.catalogError (text "Catalog: buffer pool exhausted creating the catalog page"))
    guard.withGuard do
      if guard.pageId ≠ 0 then
        throw (.logicError (text ("Catalog: must be the first thing constructed against a fresh " ++
          "database — expected catalog page at page_id 0, got ") ++ decimal guard.pageId))
      guard.write (.catalog .zero)
      guard.markDirty
      return (guard.pageId, List.replicate maxCatalogTables .empty)
  else
    let some guard ← fetchPage 0
      | throw (.catalogError (text "Catalog: could not read the catalog page"))
    guard.withGuard do
      let .catalog body ← guard.page | throw .undefinedBehaviour
      return (0, body.tables.map CatalogTableEntry.handle)

/-- `Catalog(BufferPool*)`. -/
def new (bp : BufferPool) : EStateM.Result Exn BufferPool Catalog :=
  match construct bp with
  | .ok (catalogPageId, tables) bp => .ok ⟨bp, catalogPageId, tables⟩ bp
  | .error e bp => .error e bp

/-- Run a program on the catalog's buffer pool. -/
def onPool {α : Type} (p : Prog BufferPool α) : Prog Catalog α := fun cat =>
  match p cat.bufferPool with
  | .ok a bp => .ok a { cat with bufferPool := bp }
  | .error e bp => .error e { cat with bufferPool := bp }

/-! ## Lookup -/

def findTableIndex (cat : Catalog) (tableName : Bytes) : Option Nat :=
  cat.tables.findIdx? fun handle => handle.inUse && handle.schema.tableName == tableName

def tableExists (cat : Catalog) (tableName : Bytes) : Bool :=
  (cat.findTableIndex tableName).isSome

/-- The handle of a table, by the slot `FindTableIndex` returned; `caller` names the method in the
error's text. -/
def handleOf (cat : Catalog) (caller tableName : Bytes) : Except Exn (Nat × TableHandle) :=
  match cat.findTableIndex tableName with
  | none => .error (.catalogError (caller ++ text ": no such table '" ++ tableName ++ text "'"))
  | some slot =>
    match cat.tables[slot]? with
    | some handle => .ok (slot, handle)
    | none => .error .undefinedBehaviour

def getSchema (cat : Catalog) (tableName : Bytes) : Except Exn TableSchema :=
  (cat.handleOf (text "Catalog") tableName).map (·.2.schema)

def tableNames (cat : Catalog) : List Bytes :=
  (cat.tables.filter (·.inUse)).map (·.schema.tableName)

/-! ## CREATE TABLE -/

/-- The loop over the column names. -/
def checkColumnNames : List ColumnDef → Except Exn Unit
  | [] => .ok ()
  | col :: cols =>
    if col.name = [] ∨ catalogColumnNameLen ≤ col.name.length then
      .error (.catalogError (text "Catalog::CreateTable: column name '" ++ col.name ++
        text "' is empty or too long (max " ++ decimal (catalogColumnNameLen - 1) ++
        text " bytes)"))
    else checkColumnNames cols

/-- `pk_index`: the last primary key column the loop saw. -/
def lastPrimaryKey (columns : List ColumnDef) : Option ColumnDef :=
  (columns.filter (·.isPrimaryKey)).getLast?

/-- Everything `CreateTable` checks before it picks a slot. -/
def checkCreateTable (cat : Catalog) (tableName : Bytes) (columns : List ColumnDef) :
    Except Exn Unit := do
  if tableName = [] ∨ catalogTableNameLen ≤ tableName.length then
    throw (.catalogError (text "Catalog::CreateTable: table name '" ++ tableName ++
      text "' is empty or too long (max " ++ decimal (catalogTableNameLen - 1) ++
      text " bytes)"))
  if cat.tableExists tableName then
    throw (.catalogError (text "Catalog::CreateTable: table '" ++ tableName ++
      text "' already exists"))
  if columns = [] ∨ maxCatalogColumns < columns.length then
    throw (.catalogError (text "Catalog::CreateTable: table '" ++ tableName ++
      text "' must have between 1 and " ++ decimal maxCatalogColumns ++ text " columns"))
  checkColumnNames columns
  let pkCount := columns.countP (·.isPrimaryKey)
  if pkCount ≠ 1 then
    throw (.catalogError (text "Catalog::CreateTable: table '" ++ tableName ++
      text "' must have exactly one PRIMARY KEY column, found " ++ decimal pkCount))
  let some pk := lastPrimaryKey columns | throw .undefinedBehaviour
  if pk.type ≠ .integer then
    throw (.catalogError (text "Catalog::CreateTable: primary key column '" ++ pk.name ++
      text ("' must be INTEGER — this engine's storage layer keys rows by a 64-bit integer, " ++
        "so a TEXT primary key can't be stored")))
  let size := RowCodec.encodedSize ⟨tableName, columns⟩
  if valueSize < size then
    throw (.catalogError (text "Catalog::CreateTable: table '" ++ tableName ++
      text "' row encodes to " ++ decimal size ++
      text " bytes, exceeding this engine's fixed VALUE_SIZE (" ++ decimal valueSize ++
      text ") — fewer or narrower non-primary-key columns are needed"))

/-- The page writes of `CreateTable`: the empty root leaf, released before the catalog page that
refers to it is fetched. -/
def allocateTable (catalogPageId : PageId) (slot : Nat) (schema : TableSchema) :
    Prog BufferPool Unit := do
  let some rootGuard ← newPage
    | throw (.catalogError (text
        "Catalog::CreateTable: buffer pool exhausted allocating table root page"))
  let rootId ← rootGuard.withGuard do
    rootGuard.write (.leaf none [])
    rootGuard.markDirty
    return rootGuard.pageId
  let some catGuard ← fetchPage catalogPageId | throw .undefinedBehaviour
  catGuard.withGuard do
    let .catalog body ← catGuard.page | throw .undefinedBehaviour
    catGuard.write (.catalog
      { numTables := body.numTables + 1, tables := body.tables.set slot (schema.entry rootId) })
    catGuard.markDirty

def createTable (tableName : Bytes) (columns : List ColumnDef) : Prog Catalog Unit := do
  let cat ← get
  match cat.checkCreateTable tableName columns with
  | .error e => throw e
  | .ok () =>
    let some slot := cat.tables.findIdx? (fun handle => !handle.inUse)
      | throw (.catalogError (text "Catalog::CreateTable: catalog is full (max " ++
          decimal maxCatalogTables ++ text " tables)"))
    onPool (allocateTable cat.catalogPageId slot ⟨tableName, columns⟩)
    modify fun cat =>
      { cat with tables := cat.tables.set slot ⟨true, ⟨tableName, columns⟩, none⟩ }

/-! ## Rows -/

/-- `GetTable`: the slot of the table, with its tree built. -/
def getTable (tableName : Bytes) : Prog Catalog Nat := do
  let cat ← get
  match cat.handleOf (text "Catalog::GetTable") tableName with
  | .error e => throw e
  | .ok (slot, handle) =>
    if handle.tree.isNone then
      let entry ← onPool (readEntry cat.catalogPageId slot)
      modify fun cat =>
        { cat with tables := cat.tables.set slot { handle with tree := some entry.rootPageId } }
    return slot

/-- Call a method of the tree of the table at `slot`. -/
def onTree {α : Type} (slot : Nat) (p : Prog BTree α) : Prog Catalog α := fun cat =>
  match cat.tables[slot]? with
  | some ⟨inUse, schema, some root⟩ =>
    let store (t : BTree) : Catalog :=
      { cat with
        bufferPool := t.bufferPool
        tables := cat.tables.set slot ⟨inUse, schema, some t.rootPageId⟩ }
    match p ⟨cat.bufferPool, 0, some (writeRootPageId cat.catalogPageId slot), root⟩ with
    | .ok a t => .ok a (store t)
    | .error e t => .error e (store t)
  | _ => .error .undefinedBehaviour cat

/-- The key `InsertRow` stores the values under, and the bytes it stores. -/
def rowOf (schema : TableSchema) (values : List Value) : Except Exn (Int64 × Bytes) := do
  if values.length ≠ schema.columns.length then
    throw (.catalogError (text "Catalog::InsertRow: table '" ++ schema.tableName ++
      text "' expects " ++ decimal schema.columns.length ++ text " values, got " ++
      decimal values.length))
  let some pkValue := schema.primaryKeyIndex.bind (values[·]?) | throw .undefinedBehaviour
  let .int key := pkValue
    | throw (.catalogError (text "Catalog::InsertRow: primary key value for table '" ++
        schema.tableName ++ text "' must be an integer"))
  let blob ← RowCodec.encode schema values
  return (key, blob)

def insertRow (tableName : Bytes) (values : List Value) : Prog Catalog Unit := do
  let cat ← get
  match cat.handleOf (text "Catalog::InsertRow") tableName with
  | .error e => throw e
  | .ok (slot, handle) =>
    match rowOf handle.schema values with
    | .error e => throw e
    | .ok (key, blob) =>
      let treeSlot ← getTable tableName
      onTree treeSlot (BTree.insert key blob)
      onPool (bumpRowCount cat.catalogPageId slot)

/-- The loop that decodes the pairs of a scan. -/
def decodeRows (schema : TableSchema) : List (Int64 × Bytes) → Except Exn (List (List Value))
  | [] => .ok []
  | (key, blob) :: pairs =>
    match RowCodec.decode schema key blob with
    | .error e => .error e
    | .ok row => (decodeRows schema pairs).map (row :: ·)

def scanTable (tableName : Bytes) : Prog Catalog (List (List Value)) := do
  let cat ← get
  match cat.handleOf (text "Catalog::ScanTable") tableName with
  | .error e => throw e
  | .ok (_, handle) =>
    let slot ← getTable tableName
    let pairs ← onTree slot (BTree.rangeScan ⊥ ⊤)
    match decodeRows handle.schema pairs with
    | .error e => throw e
    | .ok rows => return rows

def estimatedRowCount (tableName : Bytes) : Prog Catalog Nat := do
  let cat ← get
  match cat.handleOf (text "Catalog::EstimatedRowCount") tableName with
  | .error e => throw e
  | .ok (slot, _) =>
    let entry ← onPool (readEntry cat.catalogPageId slot)
    return entry.rowCount

end Catalog

end Reldb
