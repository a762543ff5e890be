import Reldb.Tables.Codec
import Reldb.Tables.Logs
import Reldb.Tree.Call

/-!
# Reldb — the methods of a `Catalog` between calls

`Catalog.Ready` is what a catalog satisfies between two calls: a pool between calls, a catalog page
on page 0, and handles that mirror its entries. Each method, called on a ready catalog, either
leaves everything as it was or does what its store version says.
-/

namespace Reldb

open WriteLog BufferPool

/-- What `CreateTable` makes sure of. -/
structure TableSchema.Valid (schema : TableSchema) : Prop where
  key : schema.primaryKeyIndex.isSome = true
  size_le : RowCodec.encodedSize schema ≤ valueSize

/-- The texts of a schema fit their fields of a catalog entry, a zero byte after each. -/
structure TableSchema.Fits (schema : TableSchema) : Prop where
  tableName_lt : schema.tableName.length < catalogTableNameLen
  columnName_lt : ∀ col ∈ schema.columns, col.name.length < catalogColumnNameLen
  columns_le : schema.columns.length ≤ maxCatalogColumns

/-- A handle and the entry of its slot. -/
structure TableHandle.Mirrors (handle : TableHandle) (entry : CatalogTableEntry) : Prop where
  inUse_eq : handle.inUse = entry.inUse
  valid : handle.inUse = true → handle.schema.Valid
  tree : ∀ root, handle.tree = some root → root = entry.rootPageId

namespace Catalog

/-- A catalog object between two calls. -/
structure Ready (base : Files) (cat : Catalog) (body : CatalogBody) : Prop extends
    PoolReady base cat.bufferPool where
  page_eq : cat.catalogPageId = 0
  page : cat.bufferPool.view 0 = some (.catalog body)
  mirrors : List.Forall₂ TableHandle.Mirrors cat.tables body.tables

/-- The handles without their trees: all that lookups by name see. -/
def heads (cat : Catalog) : List TableHandle :=
  cat.tables.map fun handle => { handle with tree := none }

/-- A call that at most built trees and moved pages through the pool. -/
structure Touched (base : Files) (body : CatalogBody) (cat cat' : Catalog) : Prop where
  ready : Ready base cat' body
  quiet : Quiet cat.bufferPool cat'.bufferPool
  heads_eq : cat'.heads = cat.heads

section

variable {base : Files} {cat cat' : Catalog} {body : CatalogBody} {slot : Nat}
  {handle : TableHandle} {entry : CatalogTableEntry} {name : Bytes}

theorem Touched.refl (h : Ready base cat body) : Touched base body cat cat := ⟨h, .refl _, rfl⟩

theorem Touched.trans {cat'' : Catalog} (h : Touched base body cat cat')
    (h' : Touched base body cat' cat'') : Touched base body cat cat'' :=
  ⟨h'.ready, h.quiet.trans h'.quiet, h'.heads_eq.trans h.heads_eq⟩

/-! ## Lookup by name -/

theorem findTableIndex_heads (cat : Catalog) (name : Bytes) : cat.findTableIndex name
    = cat.heads.findIdx? fun handle => handle.inUse && handle.schema.tableName == name := by
  rw [heads, List.findIdx?_map]
  rfl

theorem findTableIndex_congr (h : cat'.heads = cat.heads) (name : Bytes) :
    cat'.findTableIndex name = cat.findTableIndex name := by
  rw [findTableIndex_heads, findTableIndex_heads, h]

/-- What `FindTableIndex` found. -/
structure Finds (cat : Catalog) (name : Bytes) (slot : Nat) (handle : TableHandle) : Prop where
  index : cat.findTableIndex name = some slot
  get : cat.tables[slot]? = some handle
  inUse : handle.inUse = true
  name_eq : handle.schema.tableName = name

theorem handleOf_cases (cat : Catalog) (caller name : Bytes) :
    (cat.findTableIndex name = none ∧ ∃ what, cat.handleOf caller name = .error (.catalogError what)) ∨
      ∃ slot handle, cat.Finds name slot handle ∧ cat.handleOf caller name = .ok (slot, handle) := by
  unfold handleOf
  cases hfind : cat.findTableIndex name with
  | none => exact .inl ⟨rfl, _, rfl⟩
  | some slot =>
    obtain ⟨hlt, hp, -⟩ := List.findIdx?_eq_some_iff_getElem.mp hfind
    simp only [Bool.and_eq_true, beq_iff_eq] at hp
    have hget : cat.tables[slot]? = some cat.tables[slot] := List.getElem?_eq_getElem hlt
    exact .inr ⟨slot, _, ⟨hfind, hget, hp.1, hp.2⟩, by simp only [hget]⟩

theorem Finds.handleOf (h : cat.Finds name slot handle) (caller : Bytes) :
    cat.handleOf caller name = .ok (slot, handle) := by
  simp only [Catalog.handleOf, h.index, h.get]

theorem Finds.unique {slot' : Nat} {handle' : TableHandle} (h : cat.Finds name slot handle)
    (h' : cat.Finds name slot' handle') : slot = slot' ∧ handle = handle' := by
  obtain rfl := Option.some.inj (h.index.symm.trans h'.index)
  exact ⟨rfl, Option.some.inj (h.get.symm.trans h'.get)⟩

/-! ## Slots -/

theorem Ready.exists_entry (h : Ready base cat body) (hget : cat.tables[slot]? = some handle) :
    ∃ entry, body.tables[slot]? = some entry ∧ handle.Mirrors entry := by
  obtain ⟨hlt, rfl⟩ := List.getElem?_eq_some_iff.mp hget
  have hlt' : slot < body.tables.length := h.mirrors.length_eq ▸ hlt
  exact ⟨_, List.getElem?_eq_getElem hlt', List.Forall₂.get h.mirrors hlt hlt'⟩

theorem Ready.valid (h : Ready base cat body) (hfind : cat.Finds name slot handle) :
    handle.schema.Valid := by
  obtain ⟨entry, -, hm⟩ := h.exists_entry hfind.get
  exact hm.valid hfind.inUse

/-- The root of a table in use is one. -/
theorem Ready.root (h : Ready base cat body) (hentry : body.tables[slot]? = some entry)
    (huse : entry.inUse = true) : ∃ d, HasLevel cat.bufferPool.view d entry.rootPageId :=
  h.sound.roots h.page _ (CatalogBody.mem_roots.mpr ⟨slot, entry, hentry, huse, rfl⟩)

/-- Handles that mirror entries still do when one slot of each is replaced. -/
theorem mirrors_set {handles : List TableHandle} {entries : List CatalogTableEntry}
    (h : List.Forall₂ TableHandle.Mirrors handles entries) (hm : handle.Mirrors entry) (slot : Nat) :
    List.Forall₂ TableHandle.Mirrors (handles.set slot handle) (entries.set slot entry) := by
  induction h generalizing slot with
  | nil => exact .nil
  | cons head tail ih =>
    cases slot with
    | zero => exact .cons hm tail
    | succ slot => exact .cons head (ih slot)

theorem set_of_getElem? {α : Type} {l : List α} {i : Nat} {a : α} (h : l[i]? = some a) :
    l.set i a = l := by
  obtain ⟨hlt, rfl⟩ := List.getElem?_eq_some_iff.mp h
  exact List.set_getElem_self hlt

/-! ## The table's tree -/

/-- The `BTree` object of the table at `slot`. -/
def tree (cat : Catalog) (slot : Nat) (root : PageId) : BTree :=
  ⟨cat.bufferPool, 0, some (writeRootPageId cat.catalogPageId slot), root⟩

/-- The catalog after a call of a method of the tree of the table at `slot`. -/
def withTree (cat : Catalog) (slot : Nat) (handle : TableHandle) (t : BTree) : Catalog :=
  { cat with
    bufferPool := t.bufferPool
    tables := cat.tables.set slot { handle with tree := some t.rootPageId } }

theorem onTree_ok {α : Type} {p : Prog BTree α} {a : α} {t : BTree} {root : PageId}
    (hget : cat.tables[slot]? = some handle) (htree : handle.tree = some root)
    (hrun : p (cat.tree slot root) = .ok a t) :
    onTree slot p cat = .ok a (cat.withTree slot handle t) := by
  obtain ⟨inUse, schema, tree⟩ := handle
  obtain rfl : tree = some root := htree
  have hrun : p ⟨cat.bufferPool, 0, some (writeRootPageId cat.catalogPageId slot), root⟩ = .ok a t :=
    hrun
  simp only [onTree, hget, hrun]
  rfl

theorem onTree_error {α : Type} {p : Prog BTree α} {e : Exn} {t : BTree} {root : PageId}
    (hget : cat.tables[slot]? = some handle) (htree : handle.tree = some root)
    (hrun : p (cat.tree slot root) = .error e t) :
    onTree slot p cat = .error e (cat.withTree slot handle t) := by
  obtain ⟨inUse, schema, tree⟩ := handle
  obtain rfl : tree = some root := htree
  have hrun : p ⟨cat.bufferPool, 0, some (writeRootPageId cat.catalogPageId slot), root⟩
      = .error e t := hrun
  simp only [onTree, hget, hrun]
  rfl

theorem Ready.tree (h : Ready base cat body) (hentry : body.tables[slot]? = some entry)
    (huse : entry.inUse = true) : BTree.Ready base (cat.tree slot entry.rootPageId) :=
  ⟨h.toPoolReady, h.root hentry huse⟩

theorem onPool_ok {α : Type} {p : Prog BufferPool α} {a : α} {bp : BufferPool}
    (h : p cat.bufferPool = .ok a bp) : onPool p cat = .ok a { cat with bufferPool := bp } := by
  simp only [onPool, h]

/-! ## Building a tree -/

/-- The catalog with the tree of `slot` built and its pool moved on quietly. -/
theorem Ready.touch (h : Ready base cat body) (hget : cat.tables[slot]? = some handle)
    (hentry : body.tables[slot]? = some entry) {bp : BufferPool} (hgood : Good base bp [] [])
    (hquiet : Quiet cat.bufferPool bp) :
    Touched base body cat { cat with
      bufferPool := bp
      tables := cat.tables.set slot { handle with tree := some entry.rootPageId } } := by
  obtain ⟨entry', hentry', hm⟩ := h.exists_entry hget
  obtain rfl := Option.some.inj (hentry.symm.trans hentry')
  refine ⟨⟨h.toPoolReady.of_quiet hgood hquiet, h.page_eq, ?_, ?_⟩, hquiet, ?_⟩
  · show bp.view 0 = _
    rw [hquiet.view_eq]
    exact h.page
  · have hmirrors : TableHandle.Mirrors { handle with tree := some entry.rootPageId } entry :=
      ⟨hm.inUse_eq, hm.valid, fun root hroot => (Option.some.inj hroot).symm⟩
    have := mirrors_set h.mirrors hmirrors slot
    rwa [set_of_getElem? hentry] at this
  · simp only [heads, List.map_set]
    exact set_of_getElem? (by rw [List.getElem?_map, hget]; rfl)

/-- **`GetTable`** builds the tree, at the root the catalog page says. -/
theorem Ready.getTable (h : Ready base cat body) (hfind : cat.Finds name slot handle)
    (hentry : body.tables[slot]? = some entry) : ∃ bp,
    getTable name cat = .ok slot { cat with
        bufferPool := bp
        tables := cat.tables.set slot { handle with tree := some entry.rootPageId } } ∧
      Good base bp [] [] ∧ Quiet cat.bufferPool bp := by
  obtain ⟨entry', hentry', hm⟩ := h.exists_entry hfind.get
  obtain rfl := Option.some.inj (hentry.symm.trans hentry')
  have hget : (MonadState.get : Prog Catalog Catalog) cat = .ok cat cat := rfl
  unfold Catalog.getTable
  rw [Prog.bind_ok hget]
  simp only [hfind.handleOf]
  cases htree : handle.tree with
  | some root =>
    refine ⟨cat.bufferPool, ?_, h.good, .refl _⟩
    have hsame : ({ handle with tree := some entry.rootPageId } : TableHandle) = handle := by
      rw [← hm.tree root htree, ← htree]
    rw [hsame, set_of_getElem? hfind.get]
    rfl
  | none =>
    obtain ⟨bp, hrun, hgood, hquiet⟩ :=
      h.page_eq.symm ▸ readEntry_reads h.good h.pool_pos h.page hentry
    refine ⟨bp, ?_, hgood, hquiet⟩
    exact Prog.bind_ok (onPool_ok hrun)

/-! ## Scans and counts -/

/-- A full scan on the store reports the leaf chain. -/
theorem rangeScan_all {t : BTree} (h : BTree.Ready base t) {ls : List Leaf}
    (hls : Scans t.bufferPool.view t.rootPageId ls) :
    OnStore.rangeScan t.bufferPool.view t.bufferPool.next t.rootPageId ⊥ ⊤
      = .ok ((cellsOf ls).map LeafCell.pair) := by
  have hfull := h.fullScan_eq hls
  obtain ⟨bp, hrun, -, -⟩ := BTree.rangeScan_answers h ⊥ ⊤
  rw [BTree.fullScan, hrun] at hfull
  generalize OnStore.rangeScan t.bufferPool.view t.bufferPool.next t.rootPageId ⊥ ⊤ = res at *
  cases res with
  | ok rows => exact hfull
  | error e => exact hfull

/-- What a method returned or threw, as a run of it left the catalog. -/
def Answers {α : Type} (base : Files) (body : CatalogBody) (p : Prog Catalog α) (cat : Catalog)
    (res : Except Exn α) : Prop :=
  ∃ cat', outcomeOf (p cat) = (res, cat') ∧ Touched base body cat cat'

/-- **`ScanTable`** decodes the pairs on the table's leaf chain. -/
theorem Ready.scanTable (h : Ready base cat body) (hfind : cat.Finds name slot handle)
    (hentry : body.tables[slot]? = some entry) {ls : List Leaf}
    (hls : Scans cat.bufferPool.view entry.rootPageId ls) :
    Answers base body (scanTable name) cat
      (decodeRows handle.schema ((cellsOf ls).map LeafCell.pair)) := by
  obtain ⟨entry', hentry', hm⟩ := h.exists_entry hfind.get
  obtain rfl := Option.some.inj (hentry.symm.trans hentry')
  obtain ⟨bp, hrun, hgood, hquiet⟩ := h.getTable hfind hentry
  have htouch := h.touch hfind.get hentry hgood hquiet
  set cat₁ : Catalog := { cat with
    bufferPool := bp
    tables := cat.tables.set slot { handle with tree := some entry.rootPageId } } with hcat₁
  have hlt := (List.getElem?_eq_some_iff.mp hfind.get).1
  have hget₁ : cat₁.tables[slot]? = some { handle with tree := some entry.rootPageId } :=
    List.getElem?_set_self hlt
  have hready := htouch.ready.tree hentry (hm.inUse_eq ▸ hfind.inUse)
  have hview : cat₁.bufferPool.view = cat.bufferPool.view := hquiet.view_eq
  obtain ⟨bp₂, hscan, hgood₂, hquiet₂⟩ := BTree.rangeScan_answers hready ⊥ ⊤
  rw [rangeScan_all hready (show Scans _ _ ls by rw [← hview] at hls; exact hls)] at hscan
  have htouch₂ := htouch.ready.touch hget₁ hentry hgood₂ hquiet₂
  have honTree := onTree_ok hget₁ rfl hscan
  have hget : (MonadState.get : Prog Catalog Catalog) cat = .ok cat cat := rfl
  refine ⟨_, ?_, htouch.trans htouch₂⟩
  unfold Catalog.scanTable
  rw [Prog.bind_ok hget]
  simp only [hfind.handleOf, Prog.bind_ok hrun, Prog.bind_ok honTree]
  cases decodeRows handle.schema ((cellsOf ls).map LeafCell.pair) with
  | ok rows => rfl
  | error e => rfl

/-- **`EstimatedRowCount`** reads the table's count. -/
theorem Ready.estimatedRowCount (h : Ready base cat body) (hfind : cat.Finds name slot handle)
    (hentry : body.tables[slot]? = some entry) :
    Answers base body (estimatedRowCount name) cat (.ok entry.rowCount) := by
  obtain ⟨bp, hrun, hgood, hquiet⟩ :=
    h.page_eq.symm ▸ readEntry_reads h.good h.pool_pos h.page hentry
  have hget : (MonadState.get : Prog Catalog Catalog) cat = .ok cat cat := rfl
  refine ⟨{ cat with bufferPool := bp }, ?_,
    ⟨⟨h.toPoolReady.of_quiet hgood hquiet, h.page_eq, ?_, h.mirrors⟩, hquiet, rfl⟩⟩
  · unfold Catalog.estimatedRowCount
    rw [Prog.bind_ok hget]
    simp only [hfind.handleOf, Prog.bind_ok (onPool_ok hrun)]
    rfl
  · show bp.view 0 = _
    rw [hquiet.view_eq]
    exact h.page

end

end Catalog

end Reldb
