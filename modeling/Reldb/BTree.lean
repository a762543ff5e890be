import Reldb.BufferPool

/-!
# Reldb — the B+tree (`btree.h`, `btree.cpp`)

The tree's methods as programs over the buffer pool, with the pool state they share held in the
`BTree` object (`buffer_pool_` is a pointer in the source).

The source's unbounded walks (the descent of `Insert` and of `FindLeafPageId`, the leaf chain of
`RangeScan`) take fuel: one more than the number of pages ever allocated, so that a walk that
runs out has visited a page twice and would never end (`Exn.divergence`).
-/

namespace Reldb

open BufferPool

/-- `SplitResult`. -/
structure SplitResult where
  promotedKey : Int64
  newRightPageId : PageId
  deriving DecidableEq, Repr

/-! ## Positions inside a node -/

/-- `while (idx < num && cells[idx].key < key) idx++`. -/
def leafIndex (cells : List LeafCell) (key : Int64) : Nat :=
  (cells.takeWhile (·.key < key)).length

/-- `while (idx < num && key >= cells[idx].key) idx++`. -/
def childIndex (cells : List InternalCell) (key : Int64) : Nat :=
  (cells.takeWhile (·.key ≤ key)).length

/-- `(idx == 0) ? extra->leftmost_child : cells[idx - 1].child`. -/
def childAt (leftmostChild : PageId) (cells : List InternalCell) (idx : Nat) : PageId :=
  match idx with
  | 0 => leftmostChild
  | i + 1 => (cells[i]?.map (·.child)).getD leftmostChild

/-- Shift the cells from `idx` on right by one and put `c` in the gap. -/
def insertCell {α : Type} (cells : List α) (idx : Nat) (c : α) : List α :=
  cells.take idx ++ c :: cells.drop idx

/-! ## Insert -/

/-- `SplitLeafIfNeeded`: the upper half moves to a new right sibling, linked in after `guard`'s
page. The sibling's guard goes out of scope here, before the caller's. -/
def splitLeafIfNeeded (guard : PageGuard) : Prog BufferPool (Option SplitResult) := do
  let .leaf next cells ← guard.page | throw .undefinedBehaviour
  if cells.length ≤ leafMaxKeys then
    return none
  let some rightGuard ← newPage
    | throw (.runtimeError (text "BTree: buffer pool exhausted during split"))
  rightGuard.withGuard do
    let splitPoint := cells.length / 2
    rightGuard.write (.leaf next (cells.drop splitPoint))
    guard.write (.leaf (some rightGuard.pageId) (cells.take splitPoint))
    guard.markDirty
    rightGuard.markDirty
    let some first := (cells.drop splitPoint).head? | throw .undefinedBehaviour
    return some ⟨first.key, rightGuard.pageId⟩

/-- `SplitInternalIfNeeded`: the middle cell's key moves up, its child becomes the new right
sibling's leftmost child. -/
def splitInternalIfNeeded (guard : PageGuard) : Prog BufferPool (Option SplitResult) := do
  let .internal leftmostChild cells ← guard.page | throw .undefinedBehaviour
  if cells.length ≤ internalMaxKeys then
    return none
  let some rightGuard ← newPage
    | throw (.runtimeError (text "BTree: buffer pool exhausted during split"))
  rightGuard.withGuard do
    let splitPoint := cells.length / 2
    let some middle := cells[splitPoint]? | throw .undefinedBehaviour
    rightGuard.write (.internal middle.child (cells.drop (splitPoint + 1)))
    guard.write (.internal leftmostChild (cells.take splitPoint))
    guard.markDirty
    rightGuard.markDirty
    return some ⟨middle.key, rightGuard.pageId⟩

/-- The leaf case of `InsertRecursive`: overwrite the key's cell, or shift one in and split. -/
def insertIntoLeaf (guard : PageGuard) (next : Option PageId) (cells : List LeafCell)
    (key : Int64) (value : Bytes) : Prog BufferPool (Option SplitResult) := do
  let idx := leafIndex cells key
  if cells[idx]?.map (·.key) = some key then
    guard.write (.leaf next (cells.set idx ⟨key, value⟩))
    guard.markDirty
    return none
  -- the shift would write cell `num` past the end of the page
  if leafCapacity ≤ cells.length then
    throw .undefinedBehaviour
  guard.write (.leaf next (insertCell cells idx ⟨key, value⟩))
  guard.markDirty
  splitLeafIfNeeded guard

/-- After a child split: its separator and new right sibling go in at the position descended
through, re-reading the node's cells. -/
def insertSeparator (guard : PageGuard) (idx : Nat) (split : SplitResult) :
    Prog BufferPool (Option SplitResult) := do
  let .internal leftmostChild cells ← guard.page | throw .undefinedBehaviour
  if internalCapacity ≤ cells.length then
    throw .undefinedBehaviour
  guard.write (.internal leftmostChild
    (insertCell cells idx ⟨split.promotedKey, split.newRightPageId⟩))
  guard.markDirty
  splitInternalIfNeeded guard

def insertRecursive : Nat → PageId → Int64 → Bytes → Prog BufferPool (Option SplitResult)
  | 0, _, _, _ => throw .divergence
  | fuel + 1, nodeId, key, value => do
    let some guard ← fetchPage nodeId
      | throw (.runtimeError (text "BTree::Insert: buffer pool exhausted"))
    guard.withGuard do
      match ← guard.page with
      | .leaf next cells => insertIntoLeaf guard next cells key value
      | .internal leftmostChild cells =>
        let idx := childIndex cells key
        match ← insertRecursive fuel (childAt leftmostChild cells idx) key value with
        | none => return none
        | some split => insertSeparator guard idx split
      | _ => throw .undefinedBehaviour

/-! ## Descent and scan -/

def findLeafPageId : Nat → PageId → Int64 → Prog BufferPool PageId
  | 0, _, _ => throw .divergence
  | fuel + 1, cur, key => do
    let some guard ← fetchPage cur
      | throw (.runtimeError (text "BTree: buffer pool exhausted during lookup"))
    let body ← guard.withGuard guard.page
    match body with
    | .leaf .. => return cur
    | .internal leftmostChild cells =>
      findLeafPageId fuel (childAt leftmostChild cells (childIndex cells key)) key
    | _ => throw .undefinedBehaviour

/-- The loop over one leaf's cells in `RangeScan`: the hits, and whether a key past `high` ended
it (`past_high`). -/
def scanCells (low high : Int64) : List LeafCell → List (Int64 × Bytes) × Bool
  | [] => ([], false)
  | c :: cs =>
    if c.key < low then scanCells low high cs
    else if high < c.key then ([], true)
    else
      let (hits, pastHigh) := scanCells low high cs
      ((c.key, c.value) :: hits, pastHigh)

/-- The loop of `RangeScan` along the leaf chain. -/
def scanLeaves : Nat → Option PageId → Int64 → Int64 → Prog BufferPool (List (Int64 × Bytes))
  | _, none, _, _ => return []
  | 0, some _, _, _ => throw .divergence
  | fuel + 1, some leafId, low, high => do
    let some guard ← fetchPage leafId | throw .undefinedBehaviour
    let .leaf next cells ← guard.withGuard guard.page | throw .undefinedBehaviour
    let (hits, pastHigh) := scanCells low high cells
    let rest ← scanLeaves fuel (if pastHigh then none else next) low high
    return hits ++ rest

/-! ## The class -/

structure BTree where
  bufferPool : BufferPool
  metadataPageId : PageId
  /-- `on_root_changed_`, set exactly in catalog-managed mode. -/
  onRootChanged : Option (PageId → Prog BufferPool Unit)
  rootPageId : PageId

namespace BTree

/-- Run a program on the tree's buffer pool. -/
def onPool {α : Type} (p : Prog BufferPool α) : Prog BTree α := fun t =>
  match p t.bufferPool with
  | .ok a bp => .ok a { t with bufferPool := bp }
  | .error e bp => .error e { t with bufferPool := bp }

/-- The single-table constructor: returns `metadata_page_id_` and `root_page_id_`. On a fresh
file the root leaf's guard, declared last, is destroyed before the metadata page's. -/
def construct : Prog BufferPool (PageId × PageId) := do
  let bp ← get
  if bp.diskPageCount = 0 then
    let some metaGuard ← newPage | throw .undefinedBehaviour
    metaGuard.withGuard do
      metaGuard.write (.metadata 0)
      let some rootGuard ← newPage | throw .undefinedBehaviour
      rootGuard.withGuard do
        rootGuard.write (.leaf none [])
        rootGuard.markDirty
        metaGuard.write (.metadata rootGuard.pageId)
        metaGuard.markDirty
        return (metaGuard.pageId, rootGuard.pageId)
  else
    let some metaGuard ← fetchPage 0
      | throw (.runtimeError (text "BTree: could not read metadata page"))
    metaGuard.withGuard do
      let .metadata rootPageId ← metaGuard.page | throw .undefinedBehaviour
      return (0, rootPageId)

/-- `BTree(BufferPool*)`. -/
def new (bp : BufferPool) : EStateM.Result Exn BufferPool BTree :=
  match construct bp with
  | .ok (metadataPageId, rootPageId) bp => .ok ⟨bp, metadataPageId, none, rootPageId⟩ bp
  | .error e bp => .error e bp

/-- The root split of `Insert`: a new internal root over the old one and its new sibling. -/
def newRoot (oldRoot : PageId) (split : SplitResult) : Prog BufferPool PageId := do
  let some guard ← newPage
    | throw (.runtimeError (text "BTree::Insert: buffer pool exhausted"))
  guard.withGuard do
    guard.write (.internal oldRoot [⟨split.promotedKey, split.newRightPageId⟩])
    guard.markDirty
    return guard.pageId

/-- Single-table mode: the new root goes into the metadata page. -/
def writeMetadata (metadataPageId newRoot : PageId) : Prog BufferPool Unit := do
  let some guard ← fetchPage metadataPageId | throw .undefinedBehaviour
  guard.withGuard do
    let .metadata _ ← guard.page | throw .undefinedBehaviour
    guard.write (.metadata newRoot)
    guard.markDirty

def insert (key : Int64) (value : Bytes) : Prog BTree Unit := do
  if valueSize < value.length then
    throw (.invalidArgument (text "BTree::Insert: value exceeds VALUE_SIZE"))
  let t ← get
  let fuel := t.bufferPool.diskPageCount + 1
  match ← onPool (insertRecursive fuel t.rootPageId key value) with
  | none => return ()
  | some split =>
    let newRootId ← onPool (newRoot t.rootPageId split)
    modify fun t => { t with rootPageId := newRootId }
    match t.onRootChanged with
    | some callback => onPool (callback newRootId)
    | none => onPool (writeMetadata t.metadataPageId newRootId)

def findLeaf (key : Int64) : Prog BTree PageId := do
  let t ← get
  onPool (findLeafPageId (t.bufferPool.diskPageCount + 1) t.rootPageId key)

def get (key : Int64) : Prog BTree (Option Bytes) := do
  let leafId ← findLeaf key
  onPool do
    let some guard ← fetchPage leafId | throw .undefinedBehaviour
    guard.withGuard do
      let .leaf _ cells ← guard.page | throw .undefinedBehaviour
      return (cells.find? (·.key == key)).map (·.value)

def delete (key : Int64) : Prog BTree Bool := do
  let leafId ← findLeaf key
  onPool do
    let some guard ← fetchPage leafId | throw .undefinedBehaviour
    guard.withGuard do
      let .leaf next cells ← guard.page | throw .undefinedBehaviour
      match cells.findIdx? (·.key == key) with
      | none => return false
      | some i =>
        guard.write (.leaf next (cells.eraseIdx i))
        guard.markDirty
        return true

def rangeScan (low high : Int64) : Prog BTree (List (Int64 × Bytes)) := do
  if high < low then
    return []
  let leafId ← findLeaf low
  let t ← MonadState.get
  onPool (scanLeaves (t.bufferPool.diskPageCount + 1) (some leafId) low high)

end BTree

end Reldb
