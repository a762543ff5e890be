import Reldb.Tables.Map
import Reldb.Crash.Database

/-!
# Reldb — the catalog page mirrors the handles

Three writers patch the catalog page: `CreateTable` a whole entry, an insertion the root and the count of
one. The handles the constructor would read off the page stay the catalog's own, as long as no name holds
a zero byte, where a `char` array ends. A catalog constructed on the same pages therefore answers the
same.
-/

namespace Reldb

open WriteLog BufferPool

/-! ## Entries as they lie on the page -/

/-- The column entry with its `char` array filled up. -/
def CatalogColumnEntry.padded (entry : CatalogColumnEntry) : CatalogColumnEntry :=
  { entry with name := fixedWidth catalogColumnNameLen entry.name }

/-- The table entry with its `char` arrays filled up. -/
def CatalogTableEntry.padded (entry : CatalogTableEntry) : CatalogTableEntry :=
  { entry with
    tableName := fixedWidth catalogTableNameLen entry.tableName
    columns := entry.columns.map CatalogColumnEntry.padded }

/-- A text that a `char` array can hold and give back. -/
def NulFree (s : Bytes) : Prop := ∀ b ∈ s, b ≠ 0

instance (s : Bytes) : Decidable (NulFree s) := inferInstanceAs (Decidable (∀ b ∈ s, b ≠ 0))

section

variable {schema : TableSchema} {root : PageId} {entry : CatalogTableEntry}

theorem stringOfChars_of_nulFree {s : Bytes} (h : NulFree s) : stringOfChars s = s :=
  List.takeWhile_eq_self_iff.mpr fun b hb => decide_eq_true (h b hb)

/-- What fills an array up is not read. -/
theorem stringOfChars_fixedWidth (n : Nat) (s : Bytes) :
    stringOfChars (fixedWidth n s) = stringOfChars s := by
  have hpad : (List.replicate (n - s.length) (0 : UInt8)).takeWhile (fun b => decide (b ≠ 0)) = [] := by
    cases n - s.length <;> rfl
  rw [stringOfChars, stringOfChars, fixedWidth, List.takeWhile_append, hpad, List.append_nil]
  split
  · next hall => exact (List.takeWhile_prefix _).eq_of_length hall |>.symm
  · rfl

theorem length_fixedWidth {s : Bytes} {n : Nat} (h : s.length ≤ n) : (fixedWidth n s).length = n := by
  rw [fixedWidth, List.length_append, List.length_replicate]
  omega

theorem CatalogTableEntry.schema_padded (entry : CatalogTableEntry) :
    entry.padded.schema = entry.schema := by
  simp only [schema, padded, stringOfChars_fixedWidth, ← List.map_take, List.map_map]
  congr 1
  refine List.map_congr_left fun col _ => ?_
  simp only [Function.comp, columnDefFromEntry, CatalogColumnEntry.padded, stringOfChars_fixedWidth]
  rfl

theorem CatalogTableEntry.handle_padded (entry : CatalogTableEntry) :
    entry.padded.handle = entry.handle := by
  have huse : entry.padded.inUse = entry.inUse := rfl
  rw [handle, handle, schema_padded, huse]

/-- A column read back off the page. -/
theorem columnDefFromEntry_fill {col : ColumnDef} (h : NulFree col.name) :
    columnDefFromEntry (fillColumnEntry col) = col := by
  obtain ⟨name, type, key⟩ := col
  simp only [columnDefFromEntry, fillColumnEntry, stringOfChars_of_nulFree h]
  cases type <;> cases key <;> rfl

/-- A schema read back off the page. -/
theorem TableSchema.schema_entry (hname : NulFree schema.tableName)
    (hcols : ∀ col ∈ schema.columns, NulFree col.name) (root : PageId) :
    (schema.entry root).schema = schema := by
  have hmap : (schema.columns.map fillColumnEntry).map columnDefFromEntry = schema.columns := by
    rw [List.map_map]
    exact (List.map_congr_left fun col hcol => columnDefFromEntry_fill (hcols col hcol)).trans
      (List.map_id _)
  rw [CatalogTableEntry.schema, TableSchema.entry, stringOfChars_of_nulFree hname,
    List.take_of_length_le (by rw [List.length_map]), hmap]

end

/-- The texts of an entry leave room for a zero byte in their arrays. -/
structure CatalogTableEntry.Fits (entry : CatalogTableEntry) : Prop where
  tableName_lt : entry.tableName.length < catalogTableNameLen
  columnName_lt : ∀ col ∈ entry.columns, col.name.length < catalogColumnNameLen
  columns_le : entry.columns.length ≤ maxCatalogColumns

theorem TableSchema.Fits.entry {schema : TableSchema} (h : schema.Fits) (root : PageId) :
    (schema.entry root).Fits where
  tableName_lt := h.tableName_lt
  columnName_lt col hcol := by
    obtain ⟨def', hdef, rfl⟩ := List.mem_map.mp hcol
    exact h.columnName_lt def' hdef
  columns_le := (List.length_map _).trans_le h.columns_le

/-! ## The mirror -/

namespace Catalog

/-- The names a `CREATE TABLE` gives hold no zero byte. -/
def Named : CatalogOp → Prop
  | .createTable name columns => NulFree name ∧ ∀ col ∈ columns, NulFree col.name
  | _ => True

instance : DecidablePred Named
  | .createTable name columns =>
    inferInstanceAs (Decidable (NulFree name ∧ ∀ col ∈ columns, NulFree col.name))
  | .insertRow _ _ => inferInstanceAs (Decidable True)
  | .scanTable _ => inferInstanceAs (Decidable True)
  | .estimatedRowCount _ => inferInstanceAs (Decidable True)

/-- The page says what the handles say. -/
structure Mirrored (cat : Catalog) (body : CatalogBody) : Prop where
  decoded : body.tables.map CatalogTableEntry.handle = cat.heads
  numTables_eq : body.numTables = cat.heads.countP (·.inUse)
  distinct : cat.heads.Pairwise fun a b =>
    a.inUse = true → b.inUse = true → a.schema.tableName ≠ b.schema.tableName
  fits : ∀ entry ∈ body.tables, entry.inUse = true → entry.Fits

section

variable {base : Files} {cat cat' : Catalog} {body body' : CatalogBody} {trees trees' : Nat → AnyTree}
  {op : CatalogOp} {res : Except Exn CatalogAnswer} {slot : Nat} {schema : TableSchema}
  {bp : BufferPool} {entry : CatalogTableEntry}

theorem Mirrored.touched (h : Mirrored cat body) (hheads : cat'.heads = cat.heads) :
    Mirrored cat' body where
  decoded := hheads ▸ h.decoded
  numTables_eq := hheads ▸ h.numTables_eq
  distinct := hheads ▸ h.distinct
  fits := h.fits

/-- A patched root and count show in no handle. -/
theorem map_handle_set {tables : List CatalogTableEntry} (hentry : tables[slot]? = some entry)
    (root : PageId) (count : Nat) :
    (tables.set slot { entry with rootPageId := root, rowCount := count }).map
        CatalogTableEntry.handle = tables.map CatalogTableEntry.handle := by
  rw [List.map_set]
  exact set_of_getElem? (by rw [List.getElem?_map, hentry]; rfl)

theorem withTable_heads (cat : Catalog) (slot : Nat) (schema : TableSchema) (bp : BufferPool) :
    (cat.withTable slot schema bp).heads = cat.heads.set slot ⟨true, schema, none⟩ := by
  simp only [heads, withTable, List.map_set]

/-- One more element that passes, for one that did not. -/
theorem countP_set {α : Type} {l : List α} {p : α → Bool} {i : Nat} {a b : α} (hget : l[i]? = some b)
    (hb : p b = false) (ha : p a = true) : (l.set i a).countP p = l.countP p + 1 := by
  induction l generalizing i with
  | nil => cases hget
  | cons c l ih =>
    cases i with
    | zero =>
      obtain rfl := Option.some.inj hget
      simp [ha, hb]
    | succ i =>
      rw [List.set_cons_succ, List.countP_cons, List.countP_cons, ih hget]
      omega

/-- A symmetric relation between any two elements, one of them replaced. -/
theorem pairwise_set {α : Type} {l : List α} {R : α → α → Prop} {i : Nat} {a : α}
    (h : l.Pairwise R) (ha : ∀ b ∈ l, R a b ∧ R b a) : (l.set i a).Pairwise R := by
  induction l generalizing i with
  | nil => exact .nil
  | cons c l ih =>
    obtain ⟨hc, hl⟩ := List.pairwise_cons.mp h
    cases i with
    | zero => exact List.pairwise_cons.mpr ⟨fun b hb => (ha b (List.mem_cons_of_mem _ hb)).1, hl⟩
    | succ i =>
      refine List.pairwise_cons.mpr ⟨fun b hb => ?_, ih hl fun b hb => ha b (List.mem_cons_of_mem _ hb)⟩
      rcases List.mem_or_eq_of_mem_set hb with hb | rfl
      · exact hc b hb
      · exact (ha c List.mem_cons_self).2

/-- **`CreateTable`** adds a handle and its entry. -/
theorem Mirrored.created (h : Mirrored cat body) (hc : Created base cat body schema slot bp)
    (hname : NulFree schema.tableName) (hcols : ∀ col ∈ schema.columns, NulFree col.name) :
    Mirrored (cat.withTable slot schema bp) (body.addTable slot schema cat.bufferPool.next) := by
  obtain ⟨handle, hget, hfree⟩ := hc.free
  have hhead : cat.heads[slot]? = some { handle with tree := none } := by
    rw [heads, List.getElem?_map, hget]
    rfl
  -- the name was free
  have hnew : ∀ b ∈ cat.heads, b.inUse = true → b.schema.tableName ≠ schema.tableName := by
    intro b hb huse heq
    have hnone := hc.new
    rw [findTableIndex_heads, List.findIdx?_eq_none_iff] at hnone
    have := hnone b hb
    simp [huse, heq] at this
  have hheads := withTable_heads cat slot schema bp
  refine ⟨?_, ?_, ?_, fun entry hmem huse => ?_⟩
  · rw [hheads]
    have hentry : (schema.entry cat.bufferPool.next).handle = ⟨true, schema, none⟩ := by
      rw [CatalogTableEntry.handle, schema.schema_entry hname hcols]
      rfl
    rw [CatalogBody.addTable, List.map_set, hentry, h.decoded]
  · rw [hheads, CatalogBody.addTable, h.numTables_eq, countP_set hhead hfree rfl]
  · rw [hheads]
    exact pairwise_set h.distinct fun b hb =>
      ⟨fun _ huse => (hnew b hb huse).symm, fun huse _ => hnew b hb huse⟩
  · rcases List.mem_or_eq_of_mem_set hmem with hmem | rfl
    · exact h.fits entry hmem huse
    · exact hc.fits.entry _

/-- A patched root and count leave the mirror. -/
theorem Mirrored.patched (h : Mirrored cat body) (hheads : cat'.heads = cat.heads)
    (hentry : body.tables[slot]? = some entry) {root : PageId} {count : Nat}
    (htables : body'.tables
      = body.tables.set slot { entry with rootPageId := root, rowCount := count })
    (hnum : body'.numTables = body.numTables) : Mirrored cat' body' where
  decoded := by rw [htables, map_handle_set hentry, hheads, h.decoded]
  numTables_eq := by rw [hnum, hheads, h.numTables_eq]
  distinct := hheads ▸ h.distinct
  fits entry' hmem huse := by
    rw [htables] at hmem
    rcases List.mem_or_eq_of_mem_set hmem with hmem | rfl
    · exact h.fits entry' hmem huse
    · obtain ⟨hname, hcols, hlength⟩ := h.fits entry (List.mem_of_getElem? hentry) huse
      exact ⟨hname, hcols, hlength⟩

/-- **Step.** -/
theorem Mirrored.moved (h : Mirrored cat body) (hm : Moved base cat body trees op res cat' body' trees')
    (hop : Named op) : Mirrored cat' body' := by
  cases hm with
  | kept touched => exact h.touched touched.heads_eq
  | created created => exact h.created created hop.1 hop.2
  | @inserted name values slot handle entry key blob tree' bp stores =>
    obtain ⟨count, htables, -⟩ := bodyAfter_tables stores.entry_eq
      (cat.insertRun slot entry.rootPageId key blob)
    refine h.patched (stores.heads_eq _ bp) stores.entry_eq htables ?_
    unfold bodyAfter
    split <;> rfl

/-- **Run.** -/
theorem Mirrored.run (h : Mirrored cat body) (hready : Ready base cat body)
    (hforest : Forest cat.bufferPool.view body.tables trees) {ops : List CatalogOp}
    (hops : ∀ op ∈ ops, Named op) : ∃ body' trees', Mirrored (cat.afterAll ops) body' ∧
      Ready base (cat.afterAll ops) body' ∧
      Forest (cat.afterAll ops).bufferPool.view body'.tables trees' := by
  induction ops generalizing cat body trees with
  | nil => exact ⟨body, trees, h, hready, hforest⟩
  | cons op ops ih =>
    obtain ⟨body', trees', hm⟩ := hready.moved hforest op
    exact ih (h.moved hm (hops op List.mem_cons_self)) (hm.ready hready)
      (hm.forest hready hforest) fun op' hop' => hops op' (List.mem_cons_of_mem _ hop')

/-! ## Catalogs with one page -/

/-- Two catalogs answer alike. -/
structure Agree (cat cat' : Catalog) : Prop where
  tableNames_eq : cat'.tableNames = cat.tableNames
  getSchema_eq : ∀ name, cat'.getSchema name = cat.getSchema name
  scanTable_eq : ∀ name, CatalogOp.result cat' (.scanTable name) = CatalogOp.result cat (.scanTable name)
  estimatedRowCount_eq : ∀ name, CatalogOp.result cat' (.estimatedRowCount name)
    = CatalogOp.result cat (.estimatedRowCount name)

theorem tableNames_heads (cat : Catalog) :
    cat.tableNames = (cat.heads.filter (·.inUse)).map (·.schema.tableName) := by
  rw [tableNames, heads, List.filter_map, List.map_map]
  rfl

/-- What `handleOf` finds, but for the tree. -/
theorem handleOf_heads (hheads : cat'.heads = cat.heads) (caller name : Bytes) :
    (∃ e, cat.handleOf caller name = .error e ∧ cat'.handleOf caller name = .error e) ∨
      ∃ slot handle handle', cat.Finds name slot handle ∧ cat'.Finds name slot handle' ∧
        handle.schema = handle'.schema ∧ cat.handleOf caller name = .ok (slot, handle) ∧
        cat'.handleOf caller name = .ok (slot, handle') := by
  have hindex := findTableIndex_congr hheads name
  rcases cat'.handleOf_cases caller name with ⟨hnone, what, herr⟩ | ⟨slot, handle', hfind', hok'⟩
  · have hnone₀ : cat.findTableIndex name = none := hindex ▸ hnone
    exact .inl ⟨.catalogError (caller ++ text ": no such table '" ++ name ++ text "'"),
      by simp only [handleOf, hnone₀], by simp only [handleOf, hnone]⟩
  · obtain ⟨handle, hfind, hschema⟩ := hfind'.of_heads hheads
    exact .inr ⟨slot, handle, handle', hfind, hfind', hschema, hfind.handleOf caller, hok'⟩

/-- **Catalogs with the same handles on the same pages answer alike.** -/
theorem Ready.agree {base' : Files} (h : Ready base cat body)
    (hf : Forest cat.bufferPool.view body.tables trees) (h' : Ready base' cat' body)
    (hview : cat'.bufferPool.view = cat.bufferPool.view) (hheads : cat'.heads = cat.heads) :
    Agree cat cat' := by
  have hf' : Forest cat'.bufferPool.view body.tables trees := hview ▸ hf
  refine ⟨?_, fun name => ?_, fun name => ?_, fun name => ?_⟩
  · rw [tableNames_heads, tableNames_heads, hheads]
  · rcases handleOf_heads hheads (text "Catalog") name with
      ⟨e, herr, herr'⟩ | ⟨slot, handle, handle', -, -, hschema, hok, hok'⟩
    · rw [getSchema, getSchema, herr, herr']
    · rw [getSchema, getSchema, hok, hok']
      exact congrArg Except.ok hschema.symm
  · rcases h.scan_result hf name with ⟨hnone, hres⟩ | ⟨slot, handle, hfind, hres⟩ <;>
      rcases h'.scan_result hf' name with ⟨hnone', hres'⟩ | ⟨slot', handle', hfind', hres'⟩
    · rw [hres, hres']
    · rw [← findTableIndex_congr hheads, hfind'.index] at hnone
      cases hnone
    · rw [findTableIndex_congr hheads, hfind.index] at hnone'
      cases hnone'
    · obtain ⟨handle₀, hfind₀, hschema⟩ := hfind'.of_heads hheads
      obtain ⟨rfl, rfl⟩ := hfind.unique hfind₀
      rw [hres, hres', hschema]
  · rcases h.estimate_result name with ⟨hnone, hres⟩ | ⟨slot, handle, entry, hfind, hentry, -, hres⟩ <;>
      rcases h'.estimate_result name with
        ⟨hnone', hres'⟩ | ⟨slot', handle', entry', hfind', hentry', -, hres'⟩
    · rw [hres, hres']
    · rw [← findTableIndex_congr hheads, hfind'.index] at hnone
      cases hnone
    · rw [findTableIndex_congr hheads, hfind.index] at hnone'
      cases hnone'
    · obtain ⟨handle₀, hfind₀, -⟩ := hfind'.of_heads hheads
      obtain ⟨rfl, rfl⟩ := hfind.unique hfind₀
      obtain rfl := Option.some.inj (hentry.symm.trans hentry')
      rw [hres, hres']

/-! ## Constructing another -/

theorem Mirrored.valid (h : Mirrored cat body) (hready : Ready base cat body) :
    ∀ entry ∈ body.tables, entry.inUse = true → entry.schema.Valid := by
  intro entry hmem huse
  have hhead : entry.handle ∈ cat.heads := h.decoded ▸ List.mem_map_of_mem hmem
  obtain ⟨handle, hhandle, heq⟩ := List.mem_map.mp hhead
  rw [CatalogTableEntry.handle, if_pos huse, TableHandle.mk.injEq] at heq
  obtain ⟨slot, hget⟩ := List.mem_iff_getElem?.mp hhandle
  obtain ⟨entry', -, hm⟩ := hready.exists_entry hget
  exact heq.2.1 ▸ hm.valid heq.1

/-- A catalog constructed on any pool that shows the same pages. -/
theorem Mirrored.construct {base' : Files} (h : Mirrored cat body) (hready : Ready base cat body)
    (hforest : Forest cat.bufferPool.view body.tables trees) (hpool : PoolReady base' bp)
    (hview : bp.view = cat.bufferPool.view) :
    ∃ cat' bp', Catalog.new bp = .ok cat' bp' ∧ Agree cat cat' := by
  obtain ⟨bp', hnew, hquiet, hready'⟩ :=
    new_existing hpool (hview.symm ▸ hready.page) (h.valid hready)
  refine ⟨_, bp', hnew, hready.agree hforest hready' (hquiet.view_eq.trans hview) ?_⟩
  rw [← h.decoded, heads, List.map_map]
  refine List.map_congr_left fun entry _ => ?_
  simp only [Function.comp, CatalogTableEntry.handle]
  split <;> rfl

end

/-- What the catalog page says of the catalog. -/
structure MirrorsPage (cat : Catalog) (body : CatalogBody) : Prop where
  page : cat.bufferPool.view cat.catalogPageId = some (.catalog body)
  /-- The handles the constructor would make are the catalog's, slot by slot. -/
  decoded : body.tables.map (·.padded.handle) = cat.heads
  widths : ∀ entry ∈ body.tables, entry.inUse = true →
    entry.padded.tableName.length = catalogTableNameLen ∧
      (∀ col ∈ entry.padded.columns, col.name.length = catalogColumnNameLen) ∧
      entry.columns.length ≤ maxCatalogColumns
  numTables_eq : body.numTables = cat.tables.countP (·.inUse)
  distinct : cat.tableNames.Nodup
  /-- A tree that has been built is at the root the page says. -/
  roots : ∀ (slot : Nat) (handle : TableHandle) (entry : CatalogTableEntry) (root : PageId),
    cat.tables[slot]? = some handle → body.tables[slot]? = some entry →
    handle.tree = some root → entry.rootPageId = root

section

variable {base : Files} {cat : Catalog} {body : CatalogBody}

theorem Mirrored.mirrorsPage (h : Mirrored cat body) (hready : Ready base cat body) :
    cat.MirrorsPage body where
  page := hready.page_eq.symm ▸ hready.page
  decoded := by simp only [CatalogTableEntry.handle_padded, h.decoded]
  widths entry hmem huse := by
    obtain ⟨hname, hcols, hlength⟩ := h.fits entry hmem huse
    refine ⟨length_fixedWidth hname.le, fun col hcol => ?_, hlength⟩
    obtain ⟨col', hcol', rfl⟩ := List.mem_map.mp hcol
    exact length_fixedWidth (hcols col' hcol').le
  numTables_eq := by
    rw [h.numTables_eq, heads, List.countP_map]
    rfl
  distinct := by
    rw [tableNames_heads, List.Nodup, List.pairwise_map, List.pairwise_filter]
    exact h.distinct.imp fun hne ha hb => hne ha hb
  roots slot handle entry root hget hentry htree := by
    obtain ⟨entry', hentry', hm⟩ := hready.exists_entry hget
    obtain rfl := Option.some.inj (hentry.symm.trans hentry')
    exact (hm.tree root htree).symm

/-- The files of a catalog between calls open to a pool that shows its pages. -/
theorem Ready.reopened (h : Ready base cat body) (hwal : cat.bufferPool.wal.isSome) {q : Nat}
    (hq : 0 < q) : PoolReady (openPool q cat.bufferPool.files).files
        (openPool q cat.bufferPool.files) ∧
      (openPool q cat.bufferPool.files).view = cat.bufferPool.view := by
  obtain ⟨hfile, -, hintact, hsorted⟩ := h.good.wal_file hwal
  obtain ⟨w, hw⟩ := Option.isSome_iff_exists.mp hwal
  have hj := h.good.journaled w hw
  have hahead := hj.ahead cat.bufferPool.io.length
  rw [List.take_length, hj.files_eq] at hahead
  have hopen := openPool_opened (f := cat.bufferPool.files)
    ⟨hahead, hintact, hfile.symm ▸ hsorted⟩ q
  have hview : (openPool q cat.bufferPool.files).view = cat.bufferPool.view := by
    rw [hopen.view_eq, hfile, h.good.view_eq_logged hwal]
  exact ⟨⟨hopen.good, hq, hview.symm ▸ h.sound⟩, hview⟩

end

end Catalog

/-- A fresh catalog mirrors its page. -/
theorem Catalog.Mirrored.fresh (bp : BufferPool) :
    Catalog.Mirrored ⟨bp, 0, List.replicate maxCatalogTables .empty⟩ .zero where
  decoded := by
    simp only [Catalog.heads, CatalogBody.zero, List.map_replicate]
    rfl
  numTables_eq := by
    simp only [Catalog.heads, List.map_replicate, List.countP_replicate]
    rfl
  distinct := by
    simp only [Catalog.heads, List.map_replicate]
    exact List.pairwise_replicate.mpr (.inr fun h => by cases h)
  fits entry hmem huse := by
    rw [List.eq_of_mem_replicate hmem] at huse
    cases huse

/-- **The catalog page mirrors the catalog** after every run of calls on a fresh one, and a catalog
constructed on the same pages, through the same pool or a new one over the files, answers the same. -/
theorem catalog_mirrors_page {poolSize : Nat} {wal : Option WalManager}
    (hwal : wal = none ∨ wal = some (WalManager.new WalFile.empty)) {cat : Catalog} {bp : BufferPool}
    (hnew : Catalog.new (BufferPool.new poolSize (DiskManager.new DataFile.empty) wal) = .ok cat bp)
    {ops : List CatalogOp} (hops : ∀ op ∈ ops, Catalog.Named op) :
    (∃ body, (cat.afterAll ops).MirrorsPage body) ∧
      (∃ cat' bp', Catalog.new (cat.afterAll ops).bufferPool = .ok cat' bp' ∧
        Catalog.Agree (cat.afterAll ops) cat') ∧
      ((cat.afterAll ops).bufferPool.wal.isSome → ∀ q, 0 < q → ∃ cat' bp',
        Catalog.new (openPool q (cat.afterAll ops).bufferPool.files) = .ok cat' bp' ∧
          Catalog.Agree (cat.afterAll ops) cat') := by
  obtain ⟨hgood, -⟩ := fresh_good poolSize hwal
  obtain ⟨bp', hnew', -, -, -, hready⟩ := Catalog.new_fresh hgood (Catalog.pool_pos hgood rfl hnew) rfl
  rw [hnew'] at hnew
  obtain ⟨rfl, -⟩ := EStateM.Result.ok.inj hnew
  obtain ⟨body, trees, h, hready, hforest⟩ := (Catalog.Mirrored.fresh bp').run hready
    (Catalog.forest_fresh bp'.view fun _ => ⟨0, .leaf ⟨0, []⟩⟩) hops
  refine ⟨⟨body, h.mirrorsPage hready⟩, h.construct hready hforest hready.toPoolReady rfl,
    fun hsome q hq => ?_⟩
  obtain ⟨hpool, hview⟩ := hready.reopened hsome hq
  exact h.construct hready hforest hpool hview

theorem catalog_mirrors_page_upsert : ∃ cat bp,
    Catalog.new (BufferPool.new 2 (DiskManager.new DataFile.empty) none) = .ok cat bp ∧
      (∃ body, (cat.afterAll upsertOps).MirrorsPage body) ∧
      ∃ cat' bp', Catalog.new (cat.afterAll upsertOps).bufferPool = .ok cat' bp' ∧
        Catalog.Agree (cat.afterAll upsertOps) cat' := by
  obtain ⟨hgood, -⟩ := @fresh_good 2 none (.inl rfl)
  obtain ⟨bp, hnew, -⟩ := Catalog.new_fresh hgood (Nat.succ_pos 1) rfl
  have hnamed : ∀ op ∈ upsertOps, Catalog.Named op := by decide +kernel
  obtain ⟨hmirror, hagree, -⟩ := catalog_mirrors_page (.inl rfl) hnew hnamed
  exact ⟨_, bp, hnew, hmirror, hagree⟩

end Reldb
