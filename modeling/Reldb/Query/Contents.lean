import Reldb.Query.Reads
import Reldb.Query.Rows
import Reldb.Tables.Map

/-!
# Reldb — what a catalog shows a query

The abstract side of a query is `Contents`: the schema, rows and stored count of every table. A catalog
shows one after every sequence of calls, whichever of them threw, and on such a catalog plans run as they
do over the contents.
-/

namespace Reldb

open WriteLog BufferPool

/-! ## Contents -/

/-- A table as a query sees it. Its rows are rows `InsertRow` takes. -/
structure TableContents where
  schema : TableSchema
  rows : List (List Value)
  count : UInt64
  valid : schema.Valid
  stored : ∀ values ∈ rows, ∃ pair, Catalog.rowOf schema values = .ok pair

theorem TableContents.stored_of_all {schema : TableSchema} {rows : List (List Value)}
    (h : rows.all fun values => (Catalog.rowOf schema values).toOption.isSome) :
    ∀ values ∈ rows, ∃ pair, Catalog.rowOf schema values = .ok pair := by
  intro values hv
  have hsome := List.all_eq_true.mp h values hv
  cases hrow : Catalog.rowOf schema values with
  | error e =>
    rw [hrow] at hsome
    cases hsome
  | ok pair => exact ⟨pair, rfl⟩

/-- The tables, by name. -/
abbrev Contents := Bytes → Option TableContents

namespace Contents

/-- The table of a name, or the exception its caller throws. -/
def table (db : Contents) (caller name : Bytes) : Except Exn TableContents :=
  match db name with
  | some t => .ok t
  | none => .error (.catalogError (caller ++ text ": no such table '" ++ name ++ text "'"))

/-- The contents with these tables. -/
def ofTables (ts : List TableContents) : Contents := fun name =>
  ts.find? (·.schema.tableName == name)

/-- The answers a query gets; `cast` is what a row count becomes. -/
def reads {N : Type} (cast : UInt64 → N) (db : Contents) : CatalogReads (Except Exn) N where
  getSchema name := (db.table (text "Catalog") name).map (·.schema)
  scanTable name := (db.table (text "Catalog::ScanTable") name).map (·.rows)
  estimatedRowCount name :=
    (db.table (text "Catalog::EstimatedRowCount") name).map fun t => cast t.count

end Contents

namespace Catalog

section

variable {base : Files} {cat cat' : Catalog} {body body' : CatalogBody} {trees trees' : Nat → AnyTree}
  {db : Contents} {name : Bytes} {op : CatalogOp} {res : Except Exn CatalogAnswer}

/-! ## What a catalog shows -/

/-- Every cell of a table's tree is the encoding of a row. -/
def Coded (cat : Catalog) (trees : Nat → AnyTree) : Prop :=
  ∀ name slot handle, cat.Finds name slot handle → ∀ c ∈ (trees slot).2.cells,
    ∃ values, rowOf handle.schema values = .ok (c.key, c.value)

/-- What is known of the table of a name. -/
def ShowsTable (cat : Catalog) (body : CatalogBody) (trees : Nat → AnyTree) (name : Bytes) :
    Option TableContents → Prop
  | none => cat.findTableIndex name = none
  | some t => ∃ slot handle entry, cat.Finds name slot handle ∧ body.tables[slot]? = some entry ∧
      t.schema = handle.schema ∧ decodeRows handle.schema (pairsOf trees slot) = .ok t.rows ∧
      t.count = UInt64.ofNat entry.rowCount

/-- The contents a catalog shows. -/
def Shows (cat : Catalog) (db : Contents) : Prop :=
  ∃ base body trees, Ready base cat body ∧ Forest cat.bufferPool.view body.tables trees ∧
    ∀ name, cat.ShowsTable body trees name (db name)

theorem Coded.exists_shows (hcoded : cat.Coded trees) (h : Ready base cat body)
    (hf : Forest cat.bufferPool.view body.tables trees) : ∃ db, cat.Shows db := by
  have htable : ∀ name, ∃ t, cat.ShowsTable body trees name t := by
    intro name
    rcases cat.handleOf_cases [] name with ⟨hnone, -⟩ | ⟨slot, handle, hfind, -⟩
    · exact ⟨none, hnone⟩
    · obtain ⟨entry, hentry, hm⟩ := h.exists_entry hfind.get
      have hintact := hf.intact hentry (hm.inUse_eq ▸ hfind.inUse)
      have hcells : ∀ p ∈ pairsOf trees slot, ∃ values, rowOf handle.schema values = .ok p := by
        intro p hp
        obtain ⟨c, hc, rfl⟩ := List.mem_map.mp hp
        exact hcoded name slot handle hfind c hc
      have hsorted : (pairsOf trees slot).Pairwise fun p q => p.1 < q.1 :=
        List.pairwise_map.mpr hintact.holds.sorted
      obtain ⟨rows, hrows, -, hmem, -⟩ := decodeRows_ok hsorted hcells
      exact ⟨some ⟨handle.schema, rows, .ofNat entry.rowCount, h.valid hfind, fun values hv =>
        ((hmem values).mp hv).imp fun p hp => hp.2⟩, slot, handle, entry, hfind, hentry, rfl, hrows,
        rfl⟩
  choose db hdb using htable
  exact ⟨db, base, body, trees, h, hf, hdb⟩

/-- **Step.** -/
theorem Coded.moved (hcoded : cat.Coded trees)
    (hm : Moved base cat body trees op res cat' body' trees') : cat'.Coded trees' := by
  intro name' slot' handle' hfind
  cases hm with
  | kept touched =>
    obtain ⟨handle, hfind, hschema⟩ := hfind.of_heads touched.heads_eq
    exact hschema ▸ hcoded name' slot' handle hfind
  | created created =>
    rcases created.finds hfind with ⟨-, rfl, -⟩ | ⟨-, hslot, hfind⟩
    · rw [Function.update_self]
      nofun
    · rw [Function.update_of_ne hslot]
      exact hcoded name' slot' handle' hfind
  | @inserted name values slot handle entry key blob tree' bp stores grew =>
    obtain ⟨handle₀, hfind₀, hschema⟩ := hfind.of_heads (stores.heads_eq _ _)
    rw [← hschema]
    by_cases hname : name' = name
    · subst hname
      obtain ⟨rfl, rfl⟩ := hfind₀.unique stores.finds
      rw [Function.update_self]
      intro c hc
      rcases (grew.mem c).mp hc with rfl | ⟨hc, -⟩
      · exact ⟨values, stores.row⟩
      · exact hcoded _ _ _ hfind₀ c hc
    · rw [Function.update_of_ne (hfind₀.slot_ne stores.finds hname)]
      exact hcoded name' slot' handle₀ hfind₀

/-- **Run.** Every sequence of calls leaves a catalog that shows contents. -/
theorem Coded.run (hcoded : cat.Coded trees) (h : Ready base cat body)
    (hf : Forest cat.bufferPool.view body.tables trees) (ops : List CatalogOp) :
    ∃ body' trees', Ready base (cat.afterAll ops) body' ∧
      Forest (cat.afterAll ops).bufferPool.view body'.tables trees' ∧
      (cat.afterAll ops).Coded trees' := by
  induction ops generalizing cat body trees with
  | nil => exact ⟨body, trees, h, hf, hcoded⟩
  | cons op ops ih =>
    obtain ⟨body', trees', hm⟩ := h.moved hf op
    exact ih (hcoded.moved hm) (hm.ready h) (hm.forest h hf)

theorem Coded.fresh {bp : BufferPool} {tables : List TableHandle}
    (h : Ready base ⟨bp, 0, tables⟩ .zero) (trees : Nat → AnyTree) :
    Coded ⟨bp, 0, tables⟩ trees := by
  intro name slot handle hfind
  obtain ⟨entry, hentry, hm⟩ := h.exists_entry hfind.get
  have huse := hm.inUse_eq ▸ hfind.inUse
  rw [CatalogBody.zero_tables hentry] at huse
  cases huse

/-! ## The answers -/

theorem Shows.touched {trees : Nat → AnyTree} (hf : Forest cat.bufferPool.view body.tables trees)
    (hdb : ∀ name, cat.ShowsTable body trees name (db name)) (ht : Touched base body cat cat') :
    cat'.Shows db := by
  refine ⟨base, body, trees, ht.ready, ht.quiet.view_eq ▸ hf, fun name => ?_⟩
  have hshows := hdb name
  cases hname : db name with
  | none =>
    rw [hname] at hshows
    exact (findTableIndex_congr ht.heads_eq name).trans hshows
  | some t =>
    rw [hname] at hshows
    obtain ⟨slot, handle, entry, hfind, hentry, hschema, hrows, hcount⟩ := hshows
    rcases cat'.handleOf_cases [] name with ⟨hnone, -⟩ | ⟨slot', handle', hfind', -⟩
    · rw [findTableIndex_congr ht.heads_eq, hfind.index] at hnone
      cases hnone
    · obtain ⟨handle₀, hfind₀, hsame⟩ := hfind'.of_heads ht.heads_eq
      obtain ⟨rfl, rfl⟩ := hfind₀.unique hfind
      exact ⟨slot', handle', entry, hfind', hentry, hschema.trans hsame, hsame ▸ hrows, hcount⟩

theorem Shows.tableExists (h : cat.Shows db) (name : Bytes) :
    cat.tableExists name = (db name).isSome := by
  obtain ⟨base, body, trees, -, -, hdb⟩ := h
  have hshows := hdb name
  cases hname : db name with
  | none =>
    rw [hname] at hshows
    rw [Catalog.tableExists, show cat.findTableIndex name = none from hshows]
    rfl
  | some t =>
    rw [hname] at hshows
    obtain ⟨slot, handle, entry, hfind, -⟩ := hshows
    rw [Catalog.tableExists, hfind.index]
    rfl

theorem eq_ok_of_outcomeOf {σ α : Type} {r : EStateM.Result Exn σ α} {a : α} {s : σ}
    (h : outcomeOf r = (.ok a, s)) : r = .ok a s := by
  cases r with
  | error e s' => cases h
  | ok a' s' =>
    cases h
    rfl

theorem handleOf_none (caller : Bytes) (h : cat.findTableIndex name = none) :
    cat.handleOf caller name
      = .error (.catalogError (caller ++ text ": no such table '" ++ name ++ text "'")) := by
  simp only [handleOf, h]

theorem Shows.getSchema (h : cat.Shows db) (name : Bytes) :
    cat.getSchema name = (db.table (text "Catalog") name).map (·.schema) := by
  obtain ⟨base, body, trees, -, -, hdb⟩ := h
  have hshows := hdb name
  cases hname : db name with
  | none =>
    rw [hname] at hshows
    simp only [Catalog.getSchema, handleOf_none _ hshows, Contents.table, hname]
    rfl
  | some t =>
    rw [hname] at hshows
    obtain ⟨slot, handle, entry, hfind, -, hschema, -⟩ := hshows
    simp only [Catalog.getSchema, hfind.handleOf, Contents.table, hname, Except.map, hschema]

theorem Shows.scanTable (h : cat.Shows db) (name : Bytes) : ∃ cat', cat'.Shows db ∧
    Catalog.scanTable name cat
      = resultIn cat' ((db.table (text "Catalog::ScanTable") name).map (·.rows)) := by
  obtain ⟨base, body, trees, hready, hf, hdb⟩ := h
  have hshows := hdb name
  have hget : (MonadState.get : Prog Catalog Catalog) cat = .ok cat cat := rfl
  cases hname : db name with
  | none =>
    rw [hname] at hshows
    refine ⟨cat, ⟨base, body, trees, hready, hf, hdb⟩, ?_⟩
    unfold Catalog.scanTable
    rw [Prog.bind_ok hget]
    simp only [handleOf_none _ hshows, Contents.table, hname]
    rfl
  | some t =>
    rw [hname] at hshows
    obtain ⟨slot, handle, entry, hfind, hentry, -, hrows, -⟩ := hshows
    obtain ⟨entry', hentry', hm⟩ := hready.exists_entry hfind.get
    obtain rfl := Option.some.inj (hentry.symm.trans hentry')
    have hintact := hf.intact hentry (hm.inUse_eq ▸ hfind.inUse)
    obtain ⟨cat', hrun, htouch⟩ := hready.scanTable hfind hentry hintact.scans
    refine ⟨cat', .touched hf hdb htouch, ?_⟩
    have hrows : decodeRows handle.schema ((cellsOf (trees slot).2.leaves).map LeafCell.pair)
        = .ok t.rows := hrows
    rw [hrows] at hrun
    simp only [Contents.table, hname, Except.map, resultIn]
    exact eq_ok_of_outcomeOf hrun

theorem Shows.estimatedRowCount (h : cat.Shows db) (name : Bytes) : ∃ cat' x, cat'.Shows db ∧
    Catalog.estimatedRowCount name cat = resultIn cat' x ∧
      x.map UInt64.ofNat = (db.table (text "Catalog::EstimatedRowCount") name).map (·.count) := by
  obtain ⟨base, body, trees, hready, hf, hdb⟩ := h
  have hshows := hdb name
  have hget : (MonadState.get : Prog Catalog Catalog) cat = .ok cat cat := rfl
  cases hname : db name with
  | none =>
    rw [hname] at hshows
    have hrun : Catalog.estimatedRowCount name cat = .error (.catalogError
        (text "Catalog::EstimatedRowCount" ++ text ": no such table '" ++ name ++ text "'")) cat := by
      unfold Catalog.estimatedRowCount
      rw [Prog.bind_ok hget]
      simp only [handleOf_none _ hshows]
      rfl
    refine ⟨cat, .error _, ⟨base, body, trees, hready, hf, hdb⟩, hrun, ?_⟩
    simp only [Contents.table, hname]
    rfl
  | some t =>
    rw [hname] at hshows
    obtain ⟨slot, handle, entry, hfind, hentry, -, -, hcount⟩ := hshows
    obtain ⟨cat', hrun, htouch⟩ := hready.estimatedRowCount hfind hentry
    refine ⟨cat', .ok entry.rowCount, .touched hf hdb htouch, eq_ok_of_outcomeOf hrun, ?_⟩
    simp only [Contents.table, hname, Except.map, hcount]

end

theorem length_decodeRows {schema : TableSchema} {pairs : List (Int64 × Bytes)}
    {rows : List (List Value)} (h : decodeRows schema pairs = .ok rows) :
    rows.length = pairs.length := by
  induction pairs generalizing rows with
  | nil =>
    cases h
    rfl
  | cons pair pairs ih =>
    rw [decodeRows] at h
    split at h
    · cases h
    · cases hrest : decodeRows schema pairs with
      | error e =>
        rw [hrest] at h
        cases h
      | ok rest =>
        rw [hrest] at h
        cases h
        rw [List.length_cons, List.length_cons, ih hrest]

/-- **A catalog answers queries as the contents it shows do.** -/
theorem reads_agree (db : Contents) : reads.Agree (·.Shows db) (db.reads id) where
  getSchema name cat h := by
    refine ⟨cat, h, ?_⟩
    have hget : (MonadState.get : Prog Catalog Catalog) cat = .ok cat cat := rfl
    show (do ofExcept ((← MonadState.get).getSchema name) : Prog Catalog TableSchema) cat = _
    rw [Prog.bind_ok hget, h.getSchema]
    show (ofExcept _ : Prog Catalog TableSchema) cat = resultIn cat ((db.table (text "Catalog") name).map (·.schema))
    cases (db.table (text "Catalog") name).map (·.schema) <;> rfl
  scanTable name cat h := h.scanTable name
  estimatedRowCount name cat h := by
    obtain ⟨cat', x, h', hrun, hcount⟩ := h.estimatedRowCount name
    refine ⟨cat', h', ?_⟩
    simp only [Catalog.reads, Functor.map, EStateM.map, hrun, Contents.reads, id]
    rw [← hcount]
    cases x <;> rfl

/-! ## Reached catalogs -/

/-- The catalogs sequences of calls reach, on a catalog constructed on an empty file. -/
inductive Reached : Catalog → Prop where
  | run {poolSize : Nat} {wal : Option WalManager} {cat : Catalog} {bp : BufferPool}
      (logged : wal = none ∨ wal = some (WalManager.new WalFile.empty))
      (new : Catalog.new (BufferPool.new poolSize (DiskManager.new DataFile.empty) wal) = .ok cat bp)
      (ops : List CatalogOp) : Reached (cat.afterAll ops)

theorem Reached.shows {cat : Catalog} (h : cat.Reached) : ∃ db, cat.Shows db := by
  obtain ⟨hwal, hnew, ops⟩ := h
  obtain ⟨hgood, -⟩ := fresh_good _ hwal
  obtain ⟨bp', hnew', -, -, -, hready⟩ := Catalog.new_fresh hgood (Catalog.pool_pos hgood rfl hnew) rfl
  rw [hnew'] at hnew
  obtain ⟨rfl, -⟩ := EStateM.Result.ok.inj hnew
  obtain ⟨body, trees, hready, hf, hcoded⟩ :=
    (Coded.fresh hready fun _ => ⟨0, .leaf ⟨0, []⟩⟩).run hready (forest_fresh _ _) ops
  exact hcoded.exists_shows hready hf

/-- What queries get of one table. -/
def Has (cat : Catalog) (name : Bytes) (schema : TableSchema) (rows : List (List Value))
    (count : Nat) : Prop :=
  cat.getSchema name = .ok schema ∧ CatalogOp.result cat (.scanTable name) = .ok (.rows rows) ∧
    CatalogOp.result cat (.estimatedRowCount name) = .ok (.count count)

instance (cat : Catalog) (name : Bytes) (schema : TableSchema) (rows : List (List Value))
    (count : Nat) : Decidable (cat.Has name schema rows count) :=
  inferInstanceAs (Decidable (_ ∧ _ ∧ _))

theorem Shows.has {cat : Catalog} {db : Contents} {name : Bytes} {schema : TableSchema}
    {rows : List (List Value)} {count : Nat} (h : cat.Shows db)
    (hhas : cat.Has name schema rows count) :
    ∃ t, db name = some t ∧ t.schema = schema ∧ t.rows = rows ∧ t.count = .ofNat count := by
  obtain ⟨hschema, hrows, hcount⟩ := hhas
  rw [h.getSchema] at hschema
  obtain ⟨cat', -, hscan⟩ := h.scanTable name
  obtain ⟨cat'', x, -, hestimate, hx⟩ := h.estimatedRowCount name
  rw [CatalogOp.result, CatalogOp.call, outcomeOf_map, hscan] at hrows
  rw [CatalogOp.result, CatalogOp.call, outcomeOf_map, hestimate] at hcount
  simp only [Contents.table] at hschema hrows hx
  cases hname : db name with
  | none =>
    rw [hname] at hschema
    cases hschema
  | some t =>
    simp only [hname, Except.map, resultIn, outcomeOf] at hschema hrows hx
    refine ⟨t, rfl, Except.ok.inj hschema, CatalogAnswer.rows.inj (Except.ok.inj hrows), ?_⟩
    cases x with
    | error e => cases hx
    | ok n =>
      obtain rfl := CatalogAnswer.count.inj (Except.ok.inj hcount)
      exact (Except.ok.inj hx).symm

/-- The tables of a catalog, all of them, with what queries get of them. -/
def HasTables (cat : Catalog) (ts : List TableContents) : Prop :=
  (cat.tables.filter (·.inUse)).map (·.schema.tableName) = ts.map (·.schema.tableName) ∧
    ∀ t ∈ ts, cat.Has t.schema.tableName t.schema t.rows t.count.toNat

instance (cat : Catalog) (ts : List TableContents) : Decidable (cat.HasTables ts) :=
  inferInstanceAs (Decidable (_ ∧ _))

theorem Shows.eq_ofTables {cat : Catalog} {db : Contents} {ts : List TableContents} (h : cat.Shows db)
    (hhas : cat.HasTables ts) : db = Contents.ofTables ts := by
  obtain ⟨hnames, hhas⟩ := hhas
  funext name
  rw [Contents.ofTables]
  cases hfind : ts.find? (·.schema.tableName == name) with
  | none =>
    have hexists := h.tableExists name
    rcases cat.handleOf_cases [] name with ⟨hnone, -⟩ | ⟨slot, handle, hslot, -⟩
    · rw [Catalog.tableExists, hnone] at hexists
      exact Option.isNone_iff_eq_none.mp (by rw [← Option.not_isSome, ← hexists]; rfl)
    · have hmem : name ∈ ts.map (·.schema.tableName) := by
        rw [← hnames, List.mem_map]
        exact ⟨handle, List.mem_filter.mpr ⟨List.mem_of_getElem? hslot.get, hslot.inUse⟩,
          hslot.name_eq⟩
      obtain ⟨t, ht, htname⟩ := List.mem_map.mp hmem
      exact absurd (beq_iff_eq.mpr htname) (List.find?_eq_none.mp hfind t ht)
  | some t =>
    obtain ⟨schema, rows, count, hvalid, hstored⟩ := t
    have hname := List.find?_some hfind
    obtain rfl := beq_iff_eq.mp hname
    obtain ⟨t', ht', hschema, hrows, hcount⟩ := h.has (hhas _ (List.mem_of_find?_eq_some hfind))
    obtain ⟨schema', rows', count', hvalid', hstored'⟩ := t'
    rw [UInt64.ofNat_toNat] at hcount
    simp only at hschema hrows hcount
    subst hschema hrows hcount
    exact ht'

/-- The catalog a sequence of calls leaves, and a fact about it that an evaluation settles. -/
theorem exists_reached (poolSize : Nat) (ops : List CatalogOp) {P : Catalog → Prop}
    [DecidablePred P]
    (h : Prog.Returns (fun cat _ => decide (P (cat.afterAll ops)))
      (Catalog.new (BufferPool.new poolSize (DiskManager.new DataFile.empty) none)) = true) :
    ∃ cat : Catalog, cat.Reached ∧ P cat := by
  obtain ⟨cat, bp, hnew, hP⟩ := Prog.Returns.ok h
  exact ⟨_, .run (.inl rfl) hnew ops, of_decide_eq_true hP⟩

end Catalog

end Reldb
