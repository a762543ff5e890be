import Reldb.Tables.Ready

/-!
# Reldb — `CreateTable` and `InsertRow`

A call of either fails its checks and changes nothing, or does what its store version says and
leaves a ready catalog.
-/

namespace Reldb

open WriteLog BufferPool

namespace Catalog

/-- The exceptions of a call that fails its checks. -/
def Rejects (e : Exn) : Prop :=
  (∃ what, e = .catalogError what) ∨ ∃ what, e = .rowEncodingError what

/-! ## Checks -/

theorem checkColumnNames_error {cols : List ColumnDef} {e : Exn}
    (h : checkColumnNames cols = .error e) : ∃ what, e = .catalogError what := by
  induction cols with
  | nil => cases h
  | cons col cols ih =>
    rw [checkColumnNames] at h
    split at h
    · exact ⟨_, (Except.error.inj h).symm⟩
    · exact ih h

/-- **The checks of `CreateTable`** throw a `CatalogError`, or the name is new and the schema one a
row of which can be stored. -/
theorem checkCreateTable_cases (cat : Catalog) (name : Bytes) (cols : List ColumnDef) :
    (∃ what, cat.checkCreateTable name cols = .error (.catalogError what)) ∨
      (cat.checkCreateTable name cols = .ok () ∧ cat.findTableIndex name = none ∧
        (⟨name, cols⟩ : TableSchema).Valid) := by
  unfold checkCreateTable
  simp only [bind, Except.bind, pure, Except.pure, throw, throwThe, MonadExceptOf.throw]
  split
  · exact .inl ⟨_, rfl⟩
  split
  · exact .inl ⟨_, rfl⟩
  next hexists =>
  split
  · exact .inl ⟨_, rfl⟩
  cases hnames : checkColumnNames cols with
  | error e =>
    obtain ⟨what, rfl⟩ := checkColumnNames_error hnames
    exact .inl ⟨_, rfl⟩
  | ok u =>
    simp only
    split
    · exact .inl ⟨_, rfl⟩
    next hcount =>
    have hone : cols.countP (·.isPrimaryKey) = 1 := not_not.mp hcount
    obtain ⟨pk, hpk⟩ : ∃ pk, cols.filter (·.isPrimaryKey) = [pk] :=
      List.length_eq_one_iff.mp (List.countP_eq_length_filter ▸ hone)
    have hlast : lastPrimaryKey cols = some pk := by rw [lastPrimaryKey, hpk]; rfl
    simp only [hlast]
    split
    · exact .inl ⟨_, rfl⟩
    split
    · exact .inl ⟨_, rfl⟩
    next hsize =>
    refine .inr ⟨rfl, ?_, ?_, Nat.not_lt.mp hsize⟩
    · simpa [tableExists] using hexists
    · obtain ⟨hmem, hkey⟩ : pk ∈ cols ∧ pk.isPrimaryKey = true :=
        List.mem_filter.mp (hpk ▸ List.mem_singleton_self pk)
      rw [TableSchema.primaryKeyIndex, List.findIdx?_isSome]
      exact List.any_eq_true.mpr ⟨pk, hmem, hkey⟩

theorem checkColumnNames_ok {cols : List ColumnDef} (h : checkColumnNames cols = .ok ()) :
    ∀ col ∈ cols, col.name.length < catalogColumnNameLen := by
  induction cols with
  | nil => exact fun col hcol => by cases hcol
  | cons col cols ih =>
    rw [checkColumnNames] at h
    split at h
    · cases h
    · next hname =>
      rw [not_or] at hname
      intro col' hcol'
      rcases List.mem_cons.mp hcol' with rfl | hcol'
      · exact Nat.not_le.mp hname.2
      · exact ih h col' hcol'

theorem checkCreateTable_fits {cat : Catalog} {name : Bytes} {cols : List ColumnDef}
    (h : cat.checkCreateTable name cols = .ok ()) : (⟨name, cols⟩ : TableSchema).Fits := by
  unfold checkCreateTable at h
  simp only [bind, Except.bind, throw, throwThe, MonadExceptOf.throw] at h
  split at h
  · cases h
  next hname =>
  split at h
  · cases h
  split at h
  · cases h
  next hcols =>
  cases hnames : checkColumnNames cols with
  | error e =>
    rw [hnames] at h
    cases h
  | ok u =>
    rw [not_or] at hname hcols
    exact ⟨Nat.not_le.mp hname.2, checkColumnNames_ok hnames, Nat.not_lt.mp hcols.2⟩

theorem rowOf_error {schema : TableSchema} {values : List Value} {e : Exn} (hv : schema.Valid)
    (h : rowOf schema values = .error e) : Rejects e := by
  unfold rowOf at h
  simp only [bind, Except.bind, pure, Except.pure, throw, throwThe, MonadExceptOf.throw] at h
  split at h
  · exact .inl ⟨_, (Except.error.inj h).symm⟩
  next hlen =>
  split at h
  · split at h
    · split at h
      · next e' hencode =>
        obtain rfl := Except.error.inj h
        exact .inr (RowCodec.encode_error hencode)
      · cases h
    · exact .inl ⟨_, (Except.error.inj h).symm⟩
  · next hnone =>
    -- the primary key's index is one of the values
    obtain ⟨pk, hpk⟩ := Option.isSome_iff_exists.mp hv.key
    obtain ⟨hlt, -⟩ := List.findIdx?_eq_some_iff_getElem.mp hpk
    have hlt : pk < values.length := (not_not.mp hlen).symm ▸ hlt
    refine absurd ?_ (hnone values[pk])
    rw [hpk, Option.bind_some, List.getElem?_eq_getElem hlt]

section

variable {base : Files} {cat : Catalog} {body : CatalogBody} {name : Bytes}

/-! ## CREATE TABLE -/

/-- The catalog after a `CreateTable` that put the table at `slot`. -/
def withTable (cat : Catalog) (slot : Nat) (schema : TableSchema) (bp : BufferPool) : Catalog :=
  { cat with bufferPool := bp, tables := cat.tables.set slot ⟨true, schema, none⟩ }

/-- What a successful `CreateTable` did. -/
structure Created (base : Files) (cat : Catalog) (body : CatalogBody) (schema : TableSchema)
    (slot : Nat) (bp : BufferPool) : Prop where
  settled : Settled base [] cat.bufferPool
    (OnStore.allocateTable slot schema body cat.bufferPool.next) bp
  free : ∃ handle, cat.tables[slot]? = some handle ∧ handle.inUse = false
  new : cat.findTableIndex schema.tableName = none
  valid : schema.Valid
  fits : schema.Fits

/-- **`CreateTable`** throws a `CatalogError` and changes nothing, or makes the table. -/
theorem Ready.createTable (h : Ready base cat body) (name : Bytes) (cols : List ColumnDef) :
    (∃ what, createTable name cols cat = .error (.catalogError what) cat) ∨
      ∃ slot bp, createTable name cols cat = .ok () (cat.withTable slot ⟨name, cols⟩ bp) ∧
        Created base cat body ⟨name, cols⟩ slot bp := by
  have hget : (MonadState.get : Prog Catalog Catalog) cat = .ok cat cat := rfl
  unfold Catalog.createTable
  rw [Prog.bind_ok hget]
  rcases cat.checkCreateTable_cases name cols with ⟨what, hcheck⟩ | ⟨hcheck, hnew, hvalid⟩
  · simp only [hcheck]
    exact .inl ⟨what, rfl⟩
  · simp only [hcheck]
    cases hslot : cat.tables.findIdx? (fun handle => !handle.inUse) with
    | none => exact .inl ⟨_, rfl⟩
    | some slot =>
      obtain ⟨hlt, hfree, -⟩ := List.findIdx?_eq_some_iff_getElem.mp hslot
      obtain ⟨bp, hrun, hs⟩ := allocateTable_refines h.good h.pool_pos h.page slot ⟨name, cols⟩
      have hrun : allocateTable cat.catalogPageId slot ⟨name, cols⟩ cat.bufferPool = .ok () bp :=
        h.page_eq.symm ▸ hrun
      refine .inr ⟨slot, bp, Prog.bind_ok (onPool_ok hrun), hs, ?_, hnew, hvalid,
        checkCreateTable_fits hcheck⟩
      exact ⟨_, List.getElem?_eq_getElem hlt, by simpa using hfree⟩

theorem Created.ready {schema : TableSchema} {slot : Nat} {bp : BufferPool}
    (h : Ready base cat body) (hc : Created base cat body schema slot bp) :
    Ready base (cat.withTable slot schema bp) (body.addTable slot schema cat.bufferPool.next) := by
  have hlog := allocateTable_log h.sound h.fresh h.page slot schema
  refine ⟨h.toPoolReady.of_settled hc.settled (hlog.oneCommit.sound h.sound), h.page_eq, ?_, ?_⟩
  · show bp.view 0 = _
    rw [hc.settled.view_eq]
    exact hlog.page
  · exact mirrors_set h.mirrors ⟨rfl, fun _ => hc.valid, fun _ hroot => by cases hroot⟩ slot

/-! ## INSERT -/

/-- What an `InsertRow` that passed its checks does: the row `blob` goes in under `key`, into the
table at `slot`. -/
structure Stores (cat : Catalog) (body : CatalogBody) (name : Bytes) (values : List Value)
    (slot : Nat) (handle : TableHandle) (entry : CatalogTableEntry) (key : Int64) (blob : Bytes) :
    Prop where
  finds : cat.Finds name slot handle
  entry_eq : body.tables[slot]? = some entry
  mirrors : handle.Mirrors entry
  row : rowOf handle.schema values = .ok (key, blob)

/-- The store version of the insertion into the tree. -/
def insertRun (cat : Catalog) (slot : Nat) (root : PageId) (key : Int64) (blob : Bytes) :
    Run PageId :=
  OnStore.insert cat.bufferPool.poolSize (OnStore.writeRootPageId slot) cat.bufferPool.view
    cat.bufferPool.next root key blob

/-- The store version of the whole call. -/
def insertRowRun (cat : Catalog) (slot : Nat) (root : PageId) (key : Int64) (blob : Bytes) :
    Run Unit :=
  OnStore.insertRow cat.bufferPool.poolSize slot cat.bufferPool.view cat.bufferPool.next root key
    blob

/-- The catalog after an insertion into the table at `slot`. -/
def afterInsert (cat : Catalog) (slot : Nat) (handle : TableHandle) (root : PageId)
    (bp : BufferPool) : Catalog :=
  { cat with bufferPool := bp, tables := cat.tables.set slot { handle with tree := some root } }

section

variable {values : List Value} {slot : Nat} {handle : TableHandle} {entry : CatalogTableEntry}
  {key : Int64} {blob : Bytes}

theorem Stores.inUse (hst : Stores cat body name values slot handle entry key blob) :
    entry.inUse = true := hst.mirrors.inUse_eq ▸ hst.finds.inUse

theorem Stores.root (h : Ready base cat body)
    (hst : Stores cat body name values slot handle entry key blob) :
    ∃ d, HasLevel cat.bufferPool.view d entry.rootPageId := h.root hst.entry_eq hst.inUse

theorem Stores.blob_le (hst : Stores cat body name values slot handle entry key blob) :
    blob.length ≤ valueSize := by
  rw [RowCodec.encode_length (rowOf_ok hst.row).2]
  exact (hst.mirrors.valid hst.finds.inUse).size_le

/-- The insertion into the table's tree, once that has been built. -/
theorem Stores.insert (h : Ready base cat body)
    (hst : Stores cat body name values slot handle entry key blob)
    (htree : handle.tree = some entry.rootPageId) : ∃ bp,
    onTree slot (BTree.insert key blob) cat
        = (match (cat.insertRun slot entry.rootPageId key blob).result with
          | .ok root => .ok () (cat.afterInsert slot handle root bp)
          | .error e => .error e (cat.afterInsert slot handle entry.rootPageId bp)) ∧
      Settled base [] cat.bufferPool (cat.insertRun slot entry.rootPageId key blob) bp := by
  have hready := h.tree hst.entry_eq hst.inUse
  obtain ⟨bp, hrun, hs⟩ := BTree.insert_run hready key hst.blob_le
    (OnStore.writeRootPageId slot) fun root' W bp hsplit hbp _ hview => by
      have hpage : bp.view 0 = some (.catalog body) := by
        rw [hview]
        exact (replay_of_notMem (hsplit.nodes_only h.page id)).trans h.page
      refine ⟨?_, by rw [OnStore.writeRootPageId, OnStore.updateEntry_eq hpage]⟩
      show Refines base [] (writeRootPageId cat.catalogPageId slot root') bp _
      rw [h.page_eq]
      exact updateEntry_refines hbp.good hbp.pool_pos hpage slot _
  have hrun : BTree.insert key blob (cat.tree slot entry.rootPageId)
      = (cat.tree slot entry.rootPageId).afterInsert
        (cat.insertRun slot entry.rootPageId key blob) bp := hrun
  refine ⟨bp, ?_, hs⟩
  unfold BTree.afterInsert at hrun
  cases hres : (cat.insertRun slot entry.rootPageId key blob).result with
  | ok root =>
    rw [hres] at hrun
    exact onTree_ok hst.finds.get htree hrun
  | error e =>
    rw [hres] at hrun
    exact onTree_error hst.finds.get htree hrun

/-- **`InsertRow`, its checks passed**, does what its store version says, and leaves the table's
tree built. -/
theorem Stores.insertRow (h : Ready base cat body)
    (hst : Stores cat body name values slot handle entry key blob) : ∃ bp,
    insertRow name values cat = (cat.insertRowRun slot entry.rootPageId key blob).outcome
        (cat.afterInsert slot handle
          (rootAfter entry.rootPageId (cat.insertRun slot entry.rootPageId key blob)) bp) ∧
      Settled base [] cat.bufferPool (cat.insertRowRun slot entry.rootPageId key blob) bp := by
  obtain ⟨bp₁, htable, hgood₁, hquiet₁⟩ := h.getTable hst.finds hst.entry_eq
  have htouch := h.touch hst.finds.get hst.entry_eq hgood₁ hquiet₁
  set cat₁ : Catalog := { cat with
    bufferPool := bp₁
    tables := cat.tables.set slot { handle with tree := some entry.rootPageId } } with hcat₁
  set handle₁ : TableHandle := { handle with tree := some entry.rootPageId } with hhandle₁
  have hlt := (List.getElem?_eq_some_iff.mp hst.finds.get).1
  have hget₁ : cat₁.tables[slot]? = some handle₁ := List.getElem?_set_self hlt
  have hst₁ : Stores cat₁ body name values slot handle₁ entry key blob :=
    ⟨⟨(findTableIndex_congr htouch.heads_eq name).trans hst.finds.index, hget₁, hst.finds.inUse,
      hst.finds.name_eq⟩, hst.entry_eq, ⟨hst.mirrors.inUse_eq, hst.mirrors.valid,
        fun _ hroot => (Option.some.inj hroot).symm⟩, hst.row⟩
  have hsame : cat₁.insertRun slot entry.rootPageId key blob
      = cat.insertRun slot entry.rootPageId key blob := by
    show OnStore.insert bp₁.poolSize _ bp₁.view bp₁.next _ _ _ = _
    rw [hquiet₁.poolSize_eq, hquiet₁.view_eq, hquiet₁.next_eq]
    rfl
  have hsame' : cat₁.insertRowRun slot entry.rootPageId key blob
      = cat.insertRowRun slot entry.rootPageId key blob := by
    show OnStore.insertRow bp₁.poolSize _ bp₁.view bp₁.next _ _ _ = _
    rw [hquiet₁.poolSize_eq, hquiet₁.view_eq, hquiet₁.next_eq]
    rfl
  obtain ⟨bp₂, hrun, hs⟩ := hst₁.insert htouch.ready rfl
  obtain ⟨d, hd⟩ := htouch.ready.root hst.entry_eq hst.inUse
  have heq := insertRow_eq htouch.ready.sound hd htouch.ready.pool_pos htouch.ready.fresh
    htouch.ready.page hst.entry_eq
    (show OnStore.insert cat₁.bufferPool.poolSize (OnStore.writeRootPageId slot)
      cat₁.bufferPool.view cat₁.bufferPool.next entry.rootPageId key blob
      = cat₁.insertRun slot entry.rootPageId key blob from rfl)
  have hreg := insert_catalog htouch.ready.sound hd htouch.ready.pool_pos htouch.ready.fresh
    htouch.ready.page hst.entry_eq key blob
  change cat₁.insertRowRun slot entry.rootPageId key blob = _ at heq
  change RootLog cat₁.bufferPool.view cat₁.bufferPool.next 0 _ entry.rootPageId
    (cat₁.insertRun slot entry.rootPageId key blob)
    (rootAfter entry.rootPageId (cat₁.insertRun slot entry.rootPageId key blob)) at hreg
  rw [hsame] at hrun hs hreg heq
  rw [hsame'] at heq
  have hget : (MonadState.get : Prog Catalog Catalog) cat = .ok cat cat := rfl
  have hset : ∀ root, (cat₁.afterInsert slot handle₁ root bp₂).tables
      = cat.tables.set slot { handle with tree := some root } := fun root => by
    simp only [afterInsert, hcat₁, hhandle₁, List.set_set]
  have hstart : Catalog.insertRow name values cat
      = (onTree slot (BTree.insert key blob) >>= fun _ =>
          onPool (bumpRowCount cat.catalogPageId slot)) cat₁ := by
    unfold Catalog.insertRow
    rw [Prog.bind_ok hget]
    simp only [hst.finds.handleOf, hst.row, Prog.bind_ok htable]
  rw [hstart]
  cases hres : (cat.insertRun slot entry.rootPageId key blob).result with
  | error e =>
    rw [hres] at hrun heq
    simp only at heq
    refine ⟨bp₂, ?_, ?_⟩
    rotate_left
    · rw [heq]
      exact Settled.of_quiet hquiet₁ ⟨hs.good, hs.effect, hs.view_eq, hs.next_eq⟩
    rw [Prog.bind_error hrun, heq, rootAfter_error hres]
    simp only [afterInsert, hcat₁, hhandle₁, List.set_set]
    rfl
  | ok root =>
    rw [hres] at hrun heq
    simp only at heq
    have hpage : bp₂.view 0 = some (.catalog (body.setRoot slot root)) := by
      have hroot := hreg.registered
      rw [rootAfter_ok hres] at hroot
      rw [hs.view_eq]
      exact hroot
    have hpool₂ : 0 < bp₂.poolSize := by
      rw [hs.effect.poolSize_eq]
      exact htouch.ready.pool_pos
    obtain ⟨bp₃, hbump, hs₃⟩ := updateEntry_refines hs.good hpool₂ hpage slot
      fun entry => { entry with rowCount := entry.rowCount + 1 }
    rw [OnStore.updateEntry_eq hpage] at hbump hs₃
    have hbump : bumpRowCount cat.catalogPageId slot
        (cat₁.afterInsert slot handle₁ root bp₂).bufferPool = .ok () bp₃ := by
      rw [h.page_eq]
      exact hbump
    have hbody : bodyAfter body slot (cat.insertRun slot entry.rootPageId key blob)
        = (body.setRoot slot root).bump slot := by
      rw [bodyAfter, hres]
    refine ⟨bp₃, ?_, ?_⟩
    · rw [Prog.bind_ok hrun, onPool_ok hbump, heq, rootAfter_ok hres]
      simp only [afterInsert, hcat₁, hhandle₁, List.set_set]
      rfl
    · rw [heq]
      refine Settled.of_quiet hquiet₁ ⟨hs₃.good, ?_, ?_, hs₃.next_eq.trans hs.next_eq⟩
      · rw [hbody]
        exact hs.effect.trans hs₃.effect
      · rw [hs₃.view_eq, hs.view_eq, Run.store, Run.store, Run.store, replay_append, hbody]
        rfl

/-- **`InsertRow`** fails its checks and changes nothing, or stores the row. -/
theorem Ready.insertRow (h : Ready base cat body) (name : Bytes) (values : List Value) :
    (∃ e, insertRow name values cat = .error e cat ∧ Rejects e) ∨
      ∃ slot handle entry key blob, Stores cat body name values slot handle entry key blob := by
  have hget : (MonadState.get : Prog Catalog Catalog) cat = .ok cat cat := rfl
  unfold Catalog.insertRow
  rw [Prog.bind_ok hget]
  rcases cat.handleOf_cases (text "Catalog::InsertRow") name with
    ⟨-, what, hnone⟩ | ⟨slot, handle, hfind, hok⟩
  · simp only [hnone]
    exact .inl ⟨_, rfl, .inl ⟨what, rfl⟩⟩
  · simp only [hok]
    cases hrow : rowOf handle.schema values with
    | error e => exact .inl ⟨e, rfl, rowOf_error (h.valid hfind) hrow⟩
    | ok row =>
      obtain ⟨entry, hentry, hm⟩ := h.exists_entry hfind.get
      exact .inr ⟨slot, handle, entry, row.1, row.2, hfind, hentry, hm, hrow⟩

/-- The entry after an insertion. -/
theorem bodyAfter_tables (hentry : body.tables[slot]? = some entry) (r : Run PageId) :
    ∃ count, (bodyAfter body slot r).tables
      = body.tables.set slot
        { entry with rootPageId := rootAfter entry.rootPageId r, rowCount := count } ∧
      count = match r.result with | .ok _ => entry.rowCount + 1 | .error _ => entry.rowCount := by
  unfold bodyAfter
  cases hres : r.result with
  | error e =>
    refine ⟨entry.rowCount, ?_, rfl⟩
    rw [rootAfter_error hres]
    exact (set_of_getElem? hentry).symm
  | ok root =>
    refine ⟨entry.rowCount + 1, ?_, rfl⟩
    rw [rootAfter_ok hres]
    obtain ⟨hlt, hget⟩ := List.getElem?_eq_some_iff.mp hentry
    refine List.ext_getElem? fun i => ?_
    simp only [CatalogBody.setRoot, CatalogBody.bump, List.getElem?_modify, List.getElem?_set]
    by_cases hi : slot = i
    · subst hi
      simp [hlt, hget]
    · simp [hi]

theorem Stores.ready (h : Ready base cat body)
    (hst : Stores cat body name values slot handle entry key blob) {bp : BufferPool}
    (hs : Settled base [] cat.bufferPool (cat.insertRowRun slot entry.rootPageId key blob) bp) :
    Ready base (cat.afterInsert slot handle
        (rootAfter entry.rootPageId (cat.insertRun slot entry.rootPageId key blob)) bp)
      (bodyAfter body slot (cat.insertRun slot entry.rootPageId key blob)) := by
  obtain ⟨d, hd⟩ := hst.root h
  have hlog := insertRow_log h.sound hd h.pool_pos h.fresh h.page hst.entry_eq
    (show OnStore.insert _ _ _ _ _ key blob = cat.insertRun slot entry.rootPageId key blob from rfl)
  obtain ⟨count, htables, -⟩ := bodyAfter_tables hst.entry_eq
    (cat.insertRun slot entry.rootPageId key blob)
  refine ⟨h.toPoolReady.of_settled hs (hlog.oneCommit.sound h.sound), h.page_eq, ?_, ?_⟩
  · show bp.view 0 = _
    rw [hs.view_eq]
    exact hlog.page
  · rw [htables]
    refine mirrors_set h.mirrors ?_ slot
    exact ⟨hst.mirrors.inUse_eq, hst.mirrors.valid, fun _ hroot => (Option.some.inj hroot).symm⟩

end

end

end Catalog

end Reldb
