import Reldb.Query.Validate
import Reldb.Tables.Failures

/-!
# Reldb — the two forms of `INSERT`

An `INSERT` with a column list and one without are the same call of `InsertRow` when the list is a
permutation of the table's columns. `CREATE TABLE` does not keep two columns of one name apart, and such
a table has no column list `ValidateInsert` accepts.
-/

namespace Reldb

open WriteLog BufferPool

/-! ## Columns by name -/

section

variable {schema : TableSchema} {name tableName : Bytes} {names seen : List Bytes} {idx : Nat}

/-- The names of the columns, in schema order. -/
def TableSchema.columnNames (schema : TableSchema) : List Bytes := schema.columns.map (·.name)

theorem TableSchema.columnIndex_some (h : schema.columnIndex name = some idx) :
    schema.columnNames[idx]? = some name := by
  obtain ⟨hlt, hname, -⟩ := List.findIdx?_eq_some_iff_getElem.mp h
  rw [columnNames, List.getElem?_map, List.getElem?_eq_getElem hlt, Option.map_some,
    beq_iff_eq.mp hname]

theorem TableSchema.columnIndex_of_nodup (hnodup : schema.columnNames.Nodup)
    (h : schema.columnNames[idx]? = some name) : schema.columnIndex name = some idx := by
  cases hfound : schema.columnIndex name with
  | none =>
    obtain ⟨col, hcol, rfl⟩ := List.mem_map.mp (List.mem_of_getElem? h)
    have := List.findIdx?_eq_none_iff.mp hfound col hcol
    simp at this
  | some idx' =>
    have h' := columnIndex_some hfound
    obtain ⟨hlt, -⟩ := List.getElem?_eq_some_iff.mp h
    exact congrArg some ((List.getElem?_inj hlt hnodup).mp (h.trans h'.symm)).symm

/-- **What the loop over a column list checks.** -/
theorem validateColumnList_eq_ok : validateColumnList schema tableName seen names = .ok () ↔
    (∀ name ∈ names, (schema.columnIndex name).isSome) ∧ names.Nodup ∧
      ∀ name ∈ names, name ∉ seen := by
  induction names generalizing seen with
  | nil => simp [validateColumnList]
  | cons name names ih =>
    rw [validateColumnList]
    split
    · next hnone =>
      refine iff_of_false nofun fun h => ?_
      have hsome := h.1 name List.mem_cons_self
      rw [← Option.not_isSome, hsome] at hnone
      cases hnone
    split
    · next hseen => exact iff_of_false nofun fun h => h.2.2 name List.mem_cons_self hseen
    · next hsome hseen =>
      have hsome : (schema.columnIndex name).isSome := by
        rwa [← Option.not_isSome, Bool.not_eq_true', Bool.not_eq_false] at hsome
      rw [ih]
      simp only [List.forall_mem_cons, List.nodup_cons]
      constructor
      · rintro ⟨hknown, hnodup, hnew⟩
        exact ⟨⟨hsome, hknown⟩, ⟨fun hmem => hnew name hmem List.mem_cons_self, hnodup⟩, hseen,
          fun other hmem hother => hnew other hmem (List.mem_cons_of_mem _ hother)⟩
      · rintro ⟨⟨-, hknown⟩, ⟨hmem, hnodup⟩, -, hnew⟩
        refine ⟨hknown, hnodup, fun other hother hcons => ?_⟩
        rcases List.mem_cons.mp hcons with rfl | hcons
        exacts [hmem hother, hnew other hother hcons]

theorem validateColumnList_error {e : Exn}
    (h : validateColumnList schema tableName seen names = .error e) :
    ∃ what, e = .semanticError what := by
  induction names generalizing seen with
  | nil => cases h
  | cons name names ih =>
    rw [validateColumnList] at h
    split at h
    · exact ⟨_, (Except.error.inj h).symm⟩
    split at h
    · exact ⟨_, (Except.error.inj h).symm⟩
    · exact ih h

/-- **Counting.** As many different names as there are columns, each a column's, are every column once. -/
theorem TableSchema.perm_columnIndex (hlen : names.length = schema.columns.length)
    (hknown : ∀ name ∈ names, (schema.columnIndex name).isSome) (hnodup : names.Nodup) :
    (names.map schema.columnIndex).Perm ((List.range schema.columns.length).map some) := by
  have hinj : (names.map schema.columnIndex).Nodup := by
    refine hnodup.map_on fun name hname name' hname' heq => ?_
    obtain ⟨idx, hidx⟩ := Option.isSome_iff_exists.mp (hknown name hname)
    have h := columnIndex_some hidx
    have h' := columnIndex_some (heq ▸ hidx)
    exact Option.some.inj (h.symm.trans h')
  have hsub : names.map schema.columnIndex ⊆ (List.range schema.columns.length).map some := by
    intro found hfound
    obtain ⟨name, hname, rfl⟩ := List.mem_map.mp hfound
    obtain ⟨idx, hidx⟩ := Option.isSome_iff_exists.mp (hknown name hname)
    obtain ⟨hlt, -⟩ := List.findIdx?_eq_some_iff_getElem.mp hidx
    exact List.mem_map.mpr ⟨idx, List.mem_range.mpr hlt, hidx.symm⟩
  apply (hinj.subperm hsub).perm_of_length_le
  rw [List.length_map, List.length_map, List.length_range, hlen]

end

/-! ## The vector of values -/

section

variable {schema : TableSchema} {names : List Bytes} {literals values : List Literal}
  {start : List Value} {name : Bytes} {idx : Nat}

theorem Engine.fillInOrder_eq {cols : List ColumnDef} (hlen : literals.length = cols.length) :
    fillInOrder cols literals = .ok (literals.map literalToValue) := by
  induction cols generalizing literals with
  | nil =>
    obtain rfl := List.length_eq_zero_iff.mp hlen
    rfl
  | cons col cols ih =>
    cases literals with
    | nil => cases hlen
    | cons literal literals =>
      rw [fillInOrder, ih (Nat.succ.inj hlen)]
      rfl

/-- The loop over a column list of different columns puts each literal in its column's place and
leaves the other places. -/
theorem Engine.fillColumns_spec (hlen : names.length = literals.length)
    (hknown : ∀ name ∈ names, ∃ idx < start.length, schema.columnIndex name = some idx)
    (hnodup : names.Nodup) : ∃ filled, fillColumns schema names literals start = .ok filled ∧
      filled.length = start.length ∧
      (∀ name literal idx, (name, literal) ∈ names.zip literals →
        schema.columnIndex name = some idx → filled[idx]? = some (literalToValue literal)) ∧
      ∀ idx, (∀ name ∈ names, schema.columnIndex name ≠ some idx) → filled[idx]? = start[idx]? := by
  induction names generalizing literals start with
  | nil => exact ⟨start, rfl, rfl, nofun, fun _ _ => rfl⟩
  | cons name names ih =>
    cases literals with
    | nil => cases hlen
    | cons literal literals =>
      obtain ⟨hmem, hnodup⟩ := List.nodup_cons.mp hnodup
      obtain ⟨idx, hlt, hidx⟩ := hknown name List.mem_cons_self
      have hlength : (start.set idx (literalToValue literal)).length = start.length :=
        List.length_set
      obtain ⟨filled, hrun, hfilled, hput, hleft⟩ :=
        @ih literals (start.set idx (literalToValue literal)) (Nat.succ.inj hlen)
          (fun other hother => hlength ▸ hknown other (List.mem_cons_of_mem _ hother)) hnodup
      -- the names after this one are of other columns
      have hother : ∀ other ∈ names, schema.columnIndex other ≠ some idx := by
        intro other hother heq
        have h := TableSchema.columnIndex_some hidx
        have h' := TableSchema.columnIndex_some heq
        exact hmem (Option.some.inj (h.symm.trans h') ▸ hother)
      refine ⟨filled, ?_, hfilled.trans hlength, ?_, ?_⟩
      · rw [fillColumns, hidx]
        exact hrun
      · intro other lit idx' hzip hidx'
        rcases List.mem_cons.mp hzip with heq | hzip
        · obtain ⟨rfl, rfl⟩ := Prod.mk.inj heq
          obtain rfl := Option.some.inj (hidx.symm.trans hidx')
          rw [hleft idx hother, List.getElem?_set_self hlt]
        · exact hput other lit idx' hzip hidx'
      · intro idx' hnone
        have hne : idx ≠ idx' := by
          rintro rfl
          exact hnone name List.mem_cons_self hidx
        rw [hleft idx' fun other hother => hnone other (List.mem_cons_of_mem _ hother),
          List.getElem?_set_ne hne]

/-- A column list with its values is a permutation of the schema's columns with theirs. -/
structure Rearranges (schema : TableSchema) (literals : List Literal) (names : List Bytes)
    (values : List Literal) : Prop where
  length_eq : names.length = values.length
  perm : (names.zip values).Perm (schema.columnNames.zip literals)

theorem Rearranges.refl (hwidth : literals.length = schema.columns.length) :
    Rearranges schema literals schema.columnNames literals :=
  ⟨by rw [TableSchema.columnNames, List.length_map, hwidth], .refl _⟩

section

variable (h : Rearranges schema literals names values)
  (hwidth : literals.length = schema.columns.length)

include h hwidth

theorem Rearranges.names_perm : names.Perm schema.columnNames := by
  have hperm := h.perm.map Prod.fst
  rwa [List.map_fst_zip (by rw [h.length_eq]), List.map_fst_zip (by
    rw [TableSchema.columnNames, List.length_map, hwidth])] at hperm

theorem Rearranges.names_length : names.length = schema.columns.length := by
  rw [(h.names_perm hwidth).length_eq, TableSchema.columnNames, List.length_map]

/-- **The two loops of `ExecuteInsert` fill the same vector.** -/
theorem Rearranges.fillColumns_eq (hnodup : schema.columnNames.Nodup) :
    Engine.fillColumns schema names values (List.replicate schema.columns.length (.int 0))
      = .ok (literals.map literalToValue) := by
  have hnames := h.names_perm hwidth
  have hknown : ∀ name ∈ names,
      ∃ idx < (List.replicate schema.columns.length (Value.int 0)).length,
        schema.columnIndex name = some idx := by
    intro name hname
    obtain ⟨idx, hidx⟩ := List.getElem?_of_mem (hnames.mem_iff.mp hname)
    obtain ⟨hlt, -⟩ := List.getElem?_eq_some_iff.mp hidx
    rw [TableSchema.columnNames, List.length_map] at hlt
    exact ⟨idx, by rwa [List.length_replicate], TableSchema.columnIndex_of_nodup hnodup hidx⟩
  obtain ⟨filled, hrun, hlength, hput, -⟩ := Engine.fillColumns_spec h.length_eq hknown
    (hnames.nodup_iff.mpr hnodup)
  rw [hrun]
  rw [List.length_replicate] at hlength
  refine congrArg Except.ok (List.ext_getElem? fun idx => ?_)
  by_cases hlt : idx < schema.columns.length
  · -- the pair of the column at this place is one of the list's
    have hcol : idx < schema.columnNames.length := by rwa [TableSchema.columnNames, List.length_map]
    have hlit : idx < literals.length := hwidth ▸ hlt
    have hpair : (schema.columnNames[idx], literals[idx]) ∈ schema.columnNames.zip literals := by
      rw [← List.getElem_zip (h := by rw [List.length_zip]; omega)]
      exact List.getElem_mem _
    rw [hput _ _ idx (h.perm.mem_iff.mpr hpair)
      (TableSchema.columnIndex_of_nodup hnodup (List.getElem?_eq_getElem hcol)), List.getElem?_map,
      List.getElem?_eq_getElem hlit]
    rfl
  · rw [List.getElem?_eq_none (by omega), List.getElem?_eq_none (by rw [List.length_map]; omega)]

end

end

/-! ## One statement -/

/-- `ExecuteSQL` on an `INSERT` that parsed. -/
def Engine.runInsert (stmt : InsertStmt) : Prog Catalog Unit := do
  ofExcept (validateStatement (← get) (.insert stmt))
  executeInsert stmt

theorem Engine.executeSQL_insert {fuel : Nat} {sql : Bytes} {stmt : InsertStmt}
    (h : parseSQL sql = .ok (.insert stmt)) :
    executeSQL fuel sql = (do runInsert stmt; return .empty) := by
  rw [executeSQL, h, runInsert]
  simp only [bind_assoc]
  rfl

section

variable {cat : Catalog} {schema : TableSchema} {name : Bytes} {names : List Bytes}
  {literals values : List Literal}

theorem Catalog.tableExists_of_getSchema (h : cat.getSchema name = .ok schema) :
    cat.tableExists name = true := by
  rcases cat.handleOf_cases (text "Catalog") name with ⟨-, what, hnone⟩ | ⟨slot, handle, hfind, -⟩
  · rw [getSchema, hnone] at h
    cases h
  · rw [tableExists, hfind.index]
    rfl

theorem validateInsert_inOrder (hschema : cat.getSchema name = .ok schema)
    (hwidth : literals.length = schema.columns.length) :
    validateInsert cat ⟨name, [], literals⟩ = .ok () := by
  simp only [validateInsert, Catalog.tableExists_of_getSchema hschema, hschema, bind, Except.bind,
    Bool.not_true, Bool.false_eq_true, if_false, if_true, if_neg (not_not.mpr hwidth)]
  rfl

theorem validateInsert_explicit (hschema : cat.getSchema name = .ok schema) (hne : names ≠ [])
    (hlen : names.length = schema.columns.length) (hvalues : names.length = values.length) :
    validateInsert cat ⟨name, names, values⟩ = validateColumnList schema name [] names := by
  simp only [validateInsert, Catalog.tableExists_of_getSchema hschema, hschema, bind, Except.bind,
    Bool.not_true, Bool.false_eq_true, if_false, if_neg hne, if_neg (not_not.mpr hlen),
    if_neg (not_not.mpr hvalues)]

/-! ### Running it -/

theorem Engine.runInsert_invalid {stmt : InsertStmt} {e : Exn} (h : validateInsert cat stmt = .error e) :
    runInsert stmt cat = .error e cat := by
  have hget : (MonadState.get : Prog Catalog Catalog) cat = .ok cat cat := rfl
  unfold runInsert
  rw [Prog.bind_ok hget]
  simp only [validateStatement, h]
  rfl

theorem Engine.runInsert_valid {stmt : InsertStmt} {row : List Value}
    (h : validateInsert cat stmt = .ok ()) (hschema : cat.getSchema stmt.tableName = .ok schema)
    (hrow : insertValues schema stmt = .ok row) :
    runInsert stmt cat = Catalog.insertRow stmt.tableName row cat := by
  have hget : (MonadState.get : Prog Catalog Catalog) cat = .ok cat cat := rfl
  unfold runInsert
  rw [Prog.bind_ok hget]
  simp only [validateStatement, h]
  unfold executeInsert
  have hvalid : (ofExcept (Except.ok ()) : Prog Catalog Unit) cat = .ok () cat := rfl
  have hread : (ofExcept (Except.ok schema) : Prog Catalog TableSchema) cat = .ok schema cat := rfl
  have hvalues : (ofExcept (Except.ok row) : Prog Catalog (List Value)) cat = .ok row cat := rfl
  rw [Prog.bind_ok hvalid, Prog.bind_ok hget]
  simp only [hschema]
  rw [Prog.bind_ok hread]
  simp only [hrow]
  rw [Prog.bind_ok hvalues]

/-- Without a column list the literals are the row. -/
theorem Engine.runInsert_inOrder (hschema : cat.getSchema name = .ok schema)
    (hwidth : literals.length = schema.columns.length) :
    runInsert ⟨name, [], literals⟩ cat
      = Catalog.insertRow name (literals.map literalToValue) cat := by
  apply runInsert_valid (validateInsert_inOrder hschema hwidth) hschema
  exact fillInOrder_eq hwidth

/-- With one that rearranges the columns of a table that keeps them apart they are too. -/
theorem Engine.runInsert_explicit (hschema : cat.getSchema name = .ok schema)
    (hwidth : literals.length = schema.columns.length) (hne : names ≠ [])
    (h : Rearranges schema literals names values) (hnodup : schema.columnNames.Nodup) :
    runInsert ⟨name, names, values⟩ cat
      = Catalog.insertRow name (literals.map literalToValue) cat := by
  have hnames := h.names_perm hwidth
  have hvalid : validateInsert cat ⟨name, names, values⟩ = .ok () := by
    rw [validateInsert_explicit hschema hne (h.names_length hwidth) h.length_eq,
      validateColumnList_eq_ok]
    refine ⟨fun other hother => ?_, hnames.nodup_iff.mpr hnodup, fun _ _ => by simp⟩
    obtain ⟨idx, hidx⟩ := List.getElem?_of_mem (hnames.mem_iff.mp hother)
    rw [TableSchema.columnIndex_of_nodup hnodup hidx]
    rfl
  apply runInsert_valid hvalid hschema
  rw [insertValues, if_neg hne]
  exact h.fillColumns_eq hwidth hnodup

/-- **A table with two columns of one name takes no column list.** -/
theorem Engine.runInsert_repeated (hschema : cat.getSchema name = .ok schema)
    (hwidth : literals.length = schema.columns.length) (hne : names ≠ [])
    (h : Rearranges schema literals names values) (hdup : ¬ schema.columnNames.Nodup) :
    ∃ what, runInsert ⟨name, names, values⟩ cat = .error (.semanticError what) cat := by
  have hlist := validateInsert_explicit hschema hne (h.names_length hwidth) h.length_eq
  cases hvalid : validateColumnList schema name [] names with
  | ok u =>
    have hnames := (validateColumnList_eq_ok.mp hvalid).2.1
    exact absurd ((h.names_perm hwidth).nodup_iff.mp hnames) hdup
  | error e =>
    obtain ⟨what, rfl⟩ := validateColumnList_error hvalid
    exact ⟨what, runInsert_invalid (hlist.trans hvalid)⟩

end

/-! ## Both forms -/

/-- What the source throws, and not what stands for a program that has no meaning. -/
def Exn.Thrown (e : Exn) : Prop := e ≠ .undefinedBehaviour ∧ e ≠ .divergence

namespace Catalog

/-- Two statements run on catalogs that show `db` both returned and left the same contents, or both threw
and left `db`. -/
inductive SameEffect (db : Contents) :
    Except Exn Unit × Catalog → Except Exn Unit × Catalog → Prop where
  | returned {cat₁ cat₂ : Catalog} {db' : Contents} (shows₁ : cat₁.Shows db')
      (shows₂ : cat₂.Shows db') : SameEffect db (.ok (), cat₁) (.ok (), cat₂)
  | threw {cat₁ cat₂ : Catalog} {e₁ e₂ : Exn} (thrown₁ : e₁.Thrown) (thrown₂ : e₂.Thrown)
      (shows₁ : cat₁.Shows db) (shows₂ : cat₂.Shows db) :
      SameEffect db (.error e₁, cat₁) (.error e₂, cat₂)

/-- The two forms of an `INSERT` of these literals, and every column list that rearranges the columns. -/
structure FormsAgree (cat : Catalog) (name : Bytes) (schema : TableSchema)
    (literals : List Literal) : Prop where
  effect : ∀ db names values, cat.Shows db → Rearranges schema literals names values →
    SameEffect db (outcomeOf (Engine.runInsert ⟨name, names, values⟩ cat))
      (outcomeOf (Engine.runInsert ⟨name, [], literals⟩ cat))
  assigned : ∀ names values, Rearranges schema literals names values →
    validateInsert cat ⟨name, names, values⟩ = .ok () →
      (names.map schema.columnIndex).Perm ((List.range schema.columns.length).map some)

section

variable {base : Files} {cat cat' : Catalog} {body : CatalogBody} {trees : Nat → AnyTree}
  {slot : Nat} {handle : TableHandle} {db : Contents} {name : Bytes} {schema : TableSchema}
  {values : List Value}

theorem Rejects.thrown {e : Exn} (h : Rejects e) : e.Thrown := by
  rcases h with ⟨what, rfl⟩ | ⟨what, rfl⟩ <;> exact ⟨nofun, nofun⟩

theorem Reached.step (h : cat.Reached) (op : CatalogOp) : (op.after cat).Reached := by
  obtain ⟨hwal, hnew, ops⟩ := h
  have happend : ∀ (cat : Catalog) (ops : List CatalogOp),
      cat.afterAll (ops ++ [op]) = op.after (cat.afterAll ops) := by
    intro cat ops
    induction ops generalizing cat with
    | nil => rfl
    | cons op' ops ih => exact ih _
  rw [← happend]
  exact .run hwal hnew _

theorem Shows.columns_ne_nil (h : cat.Shows db) (hschema : cat.getSchema name = .ok schema) :
    schema.columns ≠ [] := by
  rw [h.getSchema, Contents.table] at hschema
  cases hname : db name with
  | none =>
    rw [hname] at hschema
    cases hschema
  | some t =>
    rw [hname] at hschema
    obtain rfl := Except.ok.inj hschema
    intro hnil
    have hkey := t.valid.key
    rw [TableSchema.primaryKeyIndex, hnil] at hkey
    cases hkey

/-- The rows shown of a table are as many as its tree has cells. -/
theorem Shows.rows_length (hshows : cat.Shows db) (h : Ready base cat body)
    (hf : Forest cat.bufferPool.view body.tables trees) (hfind : cat.Finds name slot handle) :
    ∃ t, db name = some t ∧ t.rows.length = (trees slot).2.cells.length := by
  obtain ⟨cat', -, hscan⟩ := hshows.scanTable name
  rcases h.scan_result hf name with ⟨hnone, -⟩ | ⟨slot', handle', hfind', hres⟩
  · rw [hfind.index] at hnone
    cases hnone
  obtain ⟨rfl, rfl⟩ := hfind.unique hfind'
  rw [CatalogOp.result, CatalogOp.call, outcomeOf_map, hscan] at hres
  cases hrows : decodeRows handle.schema (pairsOf trees slot) with
  | error e =>
    rw [hrows, Contents.table] at hres
    cases hname : db name with
    | none =>
      have hexists := hshows.tableExists name
      rw [hname, Catalog.tableExists, hfind.index] at hexists
      cases hexists
    | some t =>
      rw [hname] at hres
      cases hres
  | ok rows =>
    rw [hrows, Contents.table] at hres
    cases hname : db name with
    | none =>
      rw [hname] at hres
      cases hres
    | some t =>
      rw [hname] at hres
      obtain rfl : t.rows = rows := CatalogAnswer.rows.inj (Except.ok.inj hres)
      exact ⟨t, rfl, by rw [length_decodeRows hrows, pairsOf, List.length_map]⟩

/-- **An `InsertRow` that finds what it needs** throws and changes nothing exactly when it is refused. -/
theorem Ready.insertRow_fate (h : Ready base cat body)
    (hf : Forest cat.bufferPool.view body.tables trees)
    (hroom : ¬ (CatalogOp.insertRow name values).Overruns cat)
    (hfinish : (CatalogOp.insertRow name values).Finishes cat) :
    ((CatalogOp.insertRow name values).Refused cat ∧ ∃ e cat',
        outcomeOf (Catalog.insertRow name values cat) = (.error e, cat') ∧ e.Thrown ∧
          Touched base body cat cat') ∨
      (¬ (CatalogOp.insertRow name values).Refused cat ∧ ∃ cat',
        outcomeOf (Catalog.insertRow name values cat) = (.ok (), cat')) := by
  -- the catalog page is the one the catalog is ready with
  have hbody : ∀ {body'}, cat.bufferPool.view 0 = some (.catalog body') → body' = body := by
    intro body' hpage
    rw [h.page] at hpage
    injection Option.some.inj hpage with heq
    exact heq.symm
  by_cases hex : ∃ slot handle entry key blob, Stores cat body name values slot handle entry key blob
  · obtain ⟨slot, handle, entry, key, blob, hst⟩ := hex
    have hd := (hf.intact hst.entry_eq hst.inUse).hasLevel
    by_cases hpool : cat.bufferPool.poolSize ≤ (trees slot).1
    · left
      refine ⟨?_, ?_⟩
      · intro body' slot' handle' entry' key' blob' d' hpage hst' hd'
        obtain rfl := hbody hpage
        obtain ⟨-, rfl, -⟩ := hst.unique hst'
        exact hd'.unique hd ▸ hpool
      · obtain ⟨cat', hrun, htouch⟩ := hst.exhausted h hd hpool
        exact ⟨_, cat', hrun, ⟨nofun, nofun⟩, htouch⟩
    · right
      have hlt := Nat.not_le.mp hpool
      refine ⟨fun hrefused => hpool (hrefused body slot handle entry key blob _ h.page hst hd), ?_⟩
      apply hst.returns h hf hd hlt
      · intro hfull
        exact hroom ⟨body, slot, handle, entry, key, blob, _, h.page, hst, hd, hlt, hfull⟩
      · exact hfinish body slot handle entry key blob h.page hst
  · left
    rcases h.insertRow name values with ⟨e, hrun, he⟩ | hst
    · refine ⟨?_, e, cat, by rw [hrun]; rfl, he.thrown, .refl h⟩
      intro body' slot' handle' entry' key' blob' d' hpage hst'
      obtain rfl := hbody hpage
      exact absurd ⟨_, _, _, _, _, hst'⟩ hex
    · exact absurd hst hex

theorem SameEffect.right_error {p : Except Exn Unit × Catalog} {e : Exn}
    (h : SameEffect db p (.error e, cat')) : e.Thrown ∧ cat'.Shows db := by
  cases h with
  | threw _ thrown₂ _ shows₂ => exact ⟨thrown₂, shows₂⟩

theorem SameEffect.not_left_error {e : Exn} : ¬ SameEffect db (.error e, cat) (.ok (), cat') := nofun

section

variable {literals : List Literal}

/-- An insertion that the forms agree on does not overrun, and finds a frame for its split. -/
theorem FormsAgree.finishes (hagree : cat.FormsAgree name schema literals) (hshows : cat.Shows db)
    (hschema : cat.getSchema name = .ok schema) (hwidth : literals.length = schema.columns.length) :
    ¬ (CatalogOp.insertRow name (literals.map literalToValue)).Overruns cat ∧
      (CatalogOp.insertRow name (literals.map literalToValue)).Finishes cat := by
  have heffect := hagree.effect db _ _ hshows (.refl hwidth)
  rw [Engine.runInsert_inOrder hschema hwidth] at heffect
  obtain ⟨base, body, trees, hready, hf, hdb⟩ := hshows
  constructor
  · rintro ⟨body', slot, handle, entry, key, blob, d, hpage, hst, hd, hpool, hfull⟩
    obtain rfl : body = body' := by injection Option.some.inj (hready.page.symm.trans hpage)
    obtain ⟨cat', hrun⟩ := hst.overruns hready hd hpool hfull
    rw [hrun] at heffect
    exact heffect.right_error.1.1 rfl
  · intro body' slot handle entry key blob hpage hst hstarves
    obtain rfl : body = body' := by injection Option.some.inj (hready.page.symm.trans hpage)
    obtain ⟨e, cat', hrun, hgrown⟩ := hst.starved hready hf hstarves
    rw [hrun] at heffect
    obtain ⟨hthrown, hkept⟩ := heffect.right_error
    rcases hgrown with rfl | ⟨body', trees', hready', hf', hheads, hlength⟩
    · exact hthrown.1 rfl
    · -- the table shows one row more than before
      obtain ⟨t, ht, hrows⟩ := Shows.rows_length ⟨base, body, trees, hready, hf, hdb⟩ hready hf
        hst.finds
      rcases cat'.handleOf_cases [] name with ⟨hnone, -⟩ | ⟨slot', handle', hfind', -⟩
      · rw [findTableIndex_congr hheads, hst.finds.index] at hnone
        cases hnone
      · obtain ⟨handle₀, hfind₀, -⟩ := hfind'.of_heads hheads
        obtain ⟨rfl, rfl⟩ := hfind₀.unique hst.finds
        obtain ⟨t', ht', hrows'⟩ := hkept.rows_length hready' hf' hfind'
        obtain rfl := Option.some.inj (ht.symm.trans ht')
        omega

/-- **Both forms of `INSERT` agree**, for literals of a reached table's width, exactly when the insertion
without a column list neither writes past its leaf nor misses a frame for its split, and the table's
columns have different names or that insertion is refused too. -/
theorem Reached.formsAgree_iff (hreach : cat.Reached) (hschema : cat.getSchema name = .ok schema)
    (hwidth : literals.length = schema.columns.length) :
    cat.FormsAgree name schema literals ↔
      ¬ (CatalogOp.insertRow name (literals.map literalToValue)).Overruns cat ∧
      (CatalogOp.insertRow name (literals.map literalToValue)).Finishes cat ∧
      (schema.columnNames.Nodup ∨
        (CatalogOp.insertRow name (literals.map literalToValue)).Refused cat) := by
  obtain ⟨db, hdb⟩ := hreach.shows
  have hne : schema.columnNames ≠ [] := by
    rw [TableSchema.columnNames, ne_eq, List.map_eq_nil_iff]
    exact hdb.columns_ne_nil hschema
  have hnames : ∀ {names values}, Rearranges schema literals names values → names ≠ [] := by
    rintro names values h rfl
    exact hne (List.perm_nil.mp (h.names_perm hwidth).symm)
  have hinOrder := Engine.runInsert_inOrder hschema hwidth
  constructor
  · intro hagree
    obtain ⟨hroom, hfinish⟩ := hagree.finishes hdb hschema hwidth
    refine ⟨hroom, hfinish, or_iff_not_imp_left.mpr fun hdup => ?_⟩
    obtain ⟨what, hrun⟩ := Engine.runInsert_repeated hschema hwidth hne (.refl hwidth) hdup
    have heffect := hagree.effect db _ _ hdb (.refl hwidth)
    obtain ⟨base, body, trees, hready, hf, -⟩ := hdb
    rcases hready.insertRow_fate hf hroom hfinish with ⟨hrefused, -⟩ | ⟨-, cat', hok⟩
    · exact hrefused
    · rw [hrun, hinOrder, hok] at heffect
      exact absurd heffect SameEffect.not_left_error
  · rintro ⟨hroom, hfinish, hcols⟩
    refine ⟨fun db names values hdb h => ?_, fun names values h hvalid => ?_⟩
    · have hdb' := hdb
      obtain ⟨base, body, trees, hready, hf, hshows⟩ := hdb'
      rw [hinOrder]
      rcases hready.insertRow_fate hf hroom hfinish with
        ⟨-, e, cat', hrun, hthrown, htouch⟩ | ⟨hstored, cat', hrun⟩
      · have hshows' : cat'.Shows db := .touched hf hshows htouch
        by_cases hdup : schema.columnNames.Nodup
        · rw [Engine.runInsert_explicit hschema hwidth (hnames h) h hdup, hrun]
          exact .threw hthrown hthrown hshows' hshows'
        · obtain ⟨what, hrun'⟩ := Engine.runInsert_repeated hschema hwidth (hnames h) h hdup
          rw [hrun', hrun]
          exact .threw ⟨nofun, nofun⟩ hthrown hdb hshows'
      · rw [Engine.runInsert_explicit hschema hwidth (hnames h) h (hcols.resolve_right hstored), hrun]
        have hafter : CatalogOp.after cat (.insertRow name (literals.map literalToValue)) = cat' := by
          rw [CatalogOp.after, CatalogOp.call, outcomeOf_map, hrun]
        obtain ⟨db', hdb'⟩ := (hafter ▸ hreach.step _ : cat'.Reached).shows
        exact .returned hdb' hdb'
    · rw [validateInsert_explicit hschema (hnames h) (h.names_length hwidth) h.length_eq,
        validateColumnList_eq_ok] at hvalid
      exact TableSchema.perm_columnIndex (h.names_length hwidth) hvalid.1 hvalid.2.1

end

end

end Catalog

/-- A table of three columns, two of them of one name. -/
def repeatedColumns : List ColumnDef :=
  [⟨text "id", .integer, true⟩, ⟨text "a", .integer, false⟩, ⟨text "a", .integer, false⟩]

/-- A table of two columns. -/
def pairColumns : List ColumnDef := [⟨text "id", .integer, true⟩, ⟨text "v", .text, false⟩]

theorem formsAgree_iff_pair : ∃ cat : Catalog, cat.Reached ∧
    (cat.FormsAgree (text "t") ⟨text "t", pairColumns⟩ [.integer 1, .text (text "a")] ↔
      ¬ (CatalogOp.insertRow (text "t") [.int 1, .text (text "a")]).Overruns cat ∧
      (CatalogOp.insertRow (text "t") [.int 1, .text (text "a")]).Finishes cat ∧
      ((⟨text "t", pairColumns⟩ : TableSchema).columnNames.Nodup ∨
        (CatalogOp.insertRow (text "t") [.int 1, .text (text "a")]).Refused cat)) := by
  obtain ⟨cat, hreach, hschema⟩ := Catalog.exists_reached 2 [.createTable (text "t") pairColumns]
    (P := fun cat => cat.getSchema (text "t") = .ok ⟨text "t", pairColumns⟩) (by decide +kernel)
  exact ⟨cat, hreach, hreach.formsAgree_iff hschema rfl⟩

/-- The table of repeated columns takes a row without a column list and none with one. -/
theorem not_formsAgree_repeated : ¬ ∀ (cat : Catalog) (name : Bytes) (schema : TableSchema)
    (literals : List Literal), cat.Reached → cat.getSchema name = .ok schema →
      literals.length = schema.columns.length → cat.FormsAgree name schema literals := by
  intro hall
  obtain ⟨cat, hreach, hschema, hrun⟩ := Catalog.exists_reached 2
    [.createTable (text "t") repeatedColumns]
    (P := fun cat => cat.getSchema (text "t") = .ok ⟨text "t", repeatedColumns⟩ ∧
      ((outcomeOf (Engine.runInsert ⟨text "t", [], [.integer 1, .integer 2, .integer 3]⟩ cat)).1.toOption
        = some ())) (by decide +kernel)
  have hagree := hall cat _ _ [.integer 1, .integer 2, .integer 3] hreach hschema rfl
  obtain ⟨db, hdb⟩ := hreach.shows
  have hsame : Rearranges ⟨text "t", repeatedColumns⟩ [.integer 1, .integer 2, .integer 3] _ _ :=
    .refl rfl
  have heffect := hagree.effect db _ _ hdb hsame
  obtain ⟨what, hrun'⟩ := Engine.runInsert_repeated hschema rfl (by decide) hsame (by decide)
  rw [hrun'] at heffect
  cases hout : outcomeOf (Engine.runInsert ⟨text "t", [], [.integer 1, .integer 2, .integer 3]⟩ cat) with
  | mk res cat' =>
    rw [hout] at hrun heffect
    cases res with
    | error e => cases hrun
    | ok u => exact Catalog.SameEffect.not_left_error heffect

end Reldb
