import Reldb.Tables.Calls

/-!
# Reldb — a catalog is a map from names to tables

The abstract side is a map from names to schemas and rows by primary key, `TableMap`, and what each call
does to it. `Catalog.Holds` ties the two: the handles name the map's tables, and each table's tree holds
the encodings of its rows. Every call that finds a frame keeps it.
-/

namespace Reldb

open WriteLog BufferPool

/-! ## The map -/

/-- The primary key of a row. -/
def TableSchema.keyOf (schema : TableSchema) (values : List Value) : Option Int64 :=
  match schema.primaryKeyIndex.bind (values[·]?) with
  | some (.int key) => some key
  | _ => none

/-- A table: its schema and its rows by primary key. -/
structure TableData where
  schema : TableSchema
  rows : Int64 → Option (List Value)

abbrev TableMap := Bytes → Option TableData

namespace TableMap

def empty : TableMap := fun _ => none

/-- What a call that returned did to the map. -/
def apply (m : TableMap) : CatalogOp → TableMap
  | .createTable name columns => Function.update m name (some ⟨⟨name, columns⟩, fun _ => none⟩)
  | .insertRow name values =>
    match m name with
    | none => m
    | some data =>
      match data.schema.keyOf values with
      | none => m
      | some key =>
        Function.update m name (some { data with rows := Function.update data.rows key values })
  | .scanTable _ => m
  | .estimatedRowCount _ => m

/-- What a call did to the map; one that threw did nothing. -/
def settle (m : TableMap) (op : CatalogOp) : Except Exn CatalogAnswer → TableMap
  | .ok _ => m.apply op
  | .error _ => m

/-- The map after a run of calls. -/
def replay (m : TableMap) (history : List (CatalogOp × Except Exn CatalogAnswer)) : TableMap :=
  history.foldl (fun m call => m.settle call.1 call.2) m

end TableMap

/-- The rows of a table, each once, in strictly increasing primary key order. -/
structure TableData.IsScan (data : TableData) (rows : List (List Value)) : Prop where
  sorted : rows.Pairwise fun a b =>
    ∃ k k', data.schema.keyOf a = some k ∧ data.schema.keyOf b = some k' ∧ k < k'
  mem : ∀ values, values ∈ rows ↔
    ∃ key, data.schema.keyOf values = some key ∧ data.rows key = some values

/-- What `ScanTable` answers on the map. -/
def TableMap.ScanAnswers (m : TableMap) (name : Bytes) (res : Except Exn CatalogAnswer) : Prop :=
  match m name with
  | some data => ∃ rows, res = .ok (.rows rows) ∧ data.IsScan rows
  | none => ∃ what, res = .error (.catalogError what)

/-! ## Runs -/

namespace Catalog

/-- A sequence of calls, with what each returned or threw; an exception ends its call only. -/
def history : Catalog → List CatalogOp → List (CatalogOp × Except Exn CatalogAnswer)
  | _, [] => []
  | cat, op :: ops => (op, op.result cat) :: (op.after cat).history ops

/-- The catalog a sequence of calls left. -/
def afterAll : Catalog → List CatalogOp → Catalog
  | cat, [] => cat
  | cat, op :: ops => (op.after cat).afterAll ops

/-- A sequence of calls on a catalog constructed on `bp`. -/
def runNew (bp : BufferPool) (ops : List CatalogOp) : List (CatalogOp × Except Exn CatalogAnswer) :=
  match Catalog.new bp with
  | .ok cat _ => cat.history ops
  | .error _ _ => []

theorem runNew_ok {bp bp' : BufferPool} {cat : Catalog} (h : Catalog.new bp = .ok cat bp')
    (ops : List CatalogOp) : runNew bp ops = cat.history ops := by
  rw [runNew, h]

theorem history_append (cat : Catalog) (ops ops' : List CatalogOp) :
    cat.history (ops ++ ops') = cat.history ops ++ (cat.afterAll ops).history ops' := by
  induction ops generalizing cat with
  | nil => rfl
  | cons op ops ih => exact congrArg _ (ih _)

/-- No call of a run threw for buffer-pool exhaustion. -/
def NoExhaustion (history : List (CatalogOp × Except Exn CatalogAnswer)) : Prop :=
  ∀ op e, (op, .error e) ∈ history → ¬ e.IsExhaustion

end Catalog

/-! ## The refinement -/

/-- The cells of a tree are the encodings of a table's rows. -/
structure TableData.Stored (data : TableData) (schema : TableSchema) (cells : List LeafCell) :
    Prop where
  schema_eq : data.schema = schema
  mem : ∀ key blob, ⟨key, blob⟩ ∈ cells ↔
    ∃ values, data.rows key = some values ∧ Catalog.rowOf schema values = .ok (key, blob)
  row : ∀ key values, data.rows key = some values →
    ∃ blob, Catalog.rowOf schema values = .ok (key, blob)

/-- The catalog holds exactly the map's tables. -/
structure Catalog.Holds (base : Files) (cat : Catalog) (body : CatalogBody) (trees : Nat → AnyTree)
    (m : TableMap) : Prop extends Catalog.Ready base cat body where
  forest : Forest cat.bufferPool.view body.tables trees
  small : SmallTrees body.tables trees
  unlisted : ∀ name, cat.findTableIndex name = none → m name = none
  stored : ∀ {name slot handle}, cat.Finds name slot handle →
    ∃ data, m name = some data ∧ data.Stored handle.schema (trees slot).2.cells

/-! ## Rows -/

section

variable {schema : TableSchema} {data : TableData} {values : List Value} {key : Int64}
  {blob : Bytes} {cells cells' : List LeafCell}

theorem Catalog.keyOf_rowOf (h : Catalog.rowOf schema values = .ok (key, blob)) :
    schema.keyOf values = some key := by
  rw [TableSchema.keyOf, (Catalog.rowOf_ok h).1]

/-- A table with no row, in a tree with no cell. -/
theorem TableData.Stored.nil (schema : TableSchema) :
    (⟨schema, fun _ => none⟩ : TableData).Stored schema [] where
  schema_eq := rfl
  mem key blob := by simp
  row key values h := by cases h

/-- A row put in a table, and its cell in the table's tree. -/
theorem TableData.Stored.upsert (h : data.Stored schema cells)
    (hrow : Catalog.rowOf schema values = .ok (key, blob))
    (hmem : ∀ c, c ∈ cells' ↔ c = ⟨key, blob⟩ ∨ (c ∈ cells ∧ c.key ≠ key)) :
    (⟨data.schema, Function.update data.rows key values⟩ : TableData).Stored schema cells' where
  schema_eq := h.schema_eq
  mem k b := by
    rw [hmem]
    by_cases hk : k = key
    · subst hk
      simp only [LeafCell.mk.injEq, true_and, ne_eq, not_true_eq_false, and_false, or_false,
        Function.update_self, Option.some.injEq]
      constructor
      · rintro rfl
        exact ⟨values, rfl, hrow⟩
      · rintro ⟨_, rfl, hrow'⟩
        rw [hrow] at hrow'
        exact (Prod.mk.inj (Except.ok.inj hrow')).2.symm
    · simp only [LeafCell.mk.injEq, hk, false_and, ne_eq, not_false_eq_true, and_true, false_or,
        Function.update_of_ne hk, h.mem]
  row k vs hrows := by
    have hrows : Function.update data.rows key (some values) k = some vs := hrows
    by_cases hk : k = key
    · subst hk
      rw [Function.update_self] at hrows
      exact ⟨blob, Option.some.inj hrows ▸ hrow⟩
    · rw [Function.update_of_ne hk] at hrows
      exact h.row k vs hrows

theorem Catalog.rowOf_inj {values' : List Value} {p : Int64 × Bytes}
    (h : Catalog.rowOf schema values = .ok p) (h' : Catalog.rowOf schema values' = .ok p) :
    values = values' := by
  obtain ⟨key, blob⟩ := p
  have hdecode := Catalog.decode_rowOf h
  rw [Catalog.decode_rowOf h'] at hdecode
  exact (Except.ok.inj hdecode).symm

/-- Pairs that all encode rows decode to them, in their order. -/
theorem Catalog.decodeRows_ok {pairs : List (Int64 × Bytes)}
    (hsorted : pairs.Pairwise fun p q => p.1 < q.1)
    (h : ∀ p ∈ pairs, ∃ values, Catalog.rowOf schema values = .ok p) :
    ∃ rows, Catalog.decodeRows schema pairs = .ok rows ∧ rows.length = pairs.length ∧
      (∀ values, values ∈ rows ↔ ∃ p ∈ pairs, Catalog.rowOf schema values = .ok p) ∧
      rows.Pairwise fun a b =>
        ∃ k k', schema.keyOf a = some k ∧ schema.keyOf b = some k' ∧ k < k' := by
  induction pairs with
  | nil => exact ⟨[], rfl, rfl, by simp, .nil⟩
  | cons p pairs ih =>
    obtain ⟨hlt, hsorted⟩ := List.pairwise_cons.mp hsorted
    obtain ⟨values, hrow⟩ := h p List.mem_cons_self
    obtain ⟨rows, hrows, hlength, hmem, hpairwise⟩ :=
      ih hsorted fun q hq => h q (List.mem_cons_of_mem _ hq)
    refine ⟨values :: rows, ?_, congrArg Nat.succ hlength, fun values' => ?_,
      List.pairwise_cons.mpr ⟨fun values' hv => ?_, hpairwise⟩⟩
    · obtain ⟨key, blob⟩ := p
      rw [Catalog.decodeRows, Catalog.decode_rowOf hrow, hrows]
      rfl
    · rw [List.mem_cons, hmem]
      constructor
      · rintro (rfl | ⟨q, hq, hrow'⟩)
        · exact ⟨p, List.mem_cons_self, hrow⟩
        · exact ⟨q, List.mem_cons_of_mem _ hq, hrow'⟩
      · rintro ⟨q, hq, hrow'⟩
        rcases List.mem_cons.mp hq with rfl | hq
        · exact .inl (Catalog.rowOf_inj hrow' hrow)
        · exact .inr ⟨q, hq, hrow'⟩
    · obtain ⟨q, hq, hrow'⟩ := (hmem values').mp hv
      have hrow : Catalog.rowOf schema values = .ok (p.1, p.2) := hrow
      have hrow' : Catalog.rowOf schema values' = .ok (q.1, q.2) := hrow'
      exact ⟨p.1, q.1, Catalog.keyOf_rowOf hrow, Catalog.keyOf_rowOf hrow', hlt q hq⟩

/-- The rows decoded from a table's cells are the table's. -/
theorem TableData.Stored.scan (h : data.Stored schema cells)
    (hsorted : cells.Pairwise fun a b => a.key < b.key) :
    ∃ rows, Catalog.decodeRows schema (cells.map LeafCell.pair) = .ok rows ∧ data.IsScan rows ∧
      rows.length = cells.length := by
  have hcell : ∀ p ∈ cells.map LeafCell.pair, ∃ values, Catalog.rowOf schema values = .ok p := by
    intro p hp
    obtain ⟨c, hc, rfl⟩ := List.mem_map.mp hp
    obtain ⟨values, -, hrow⟩ := (h.mem c.key c.value).mp hc
    exact ⟨values, hrow⟩
  have hpairs : (cells.map LeafCell.pair).Pairwise fun p q => p.1 < q.1 :=
    List.pairwise_map.mpr hsorted
  obtain ⟨rows, hrows, hlength, hmem, hpairwise⟩ := Catalog.decodeRows_ok hpairs hcell
  rw [List.length_map] at hlength
  refine ⟨rows, hrows, ⟨h.schema_eq ▸ hpairwise, fun values => ?_⟩, hlength⟩
  rw [hmem, h.schema_eq]
  constructor
  · rintro ⟨p, hp, hrow⟩
    obtain ⟨c, hc, rfl⟩ := List.mem_map.mp hp
    obtain ⟨values', hrows', hrow'⟩ := (h.mem c.key c.value).mp hc
    have hrow : Catalog.rowOf schema values = .ok (c.key, c.value) := hrow
    have hsame : values = values' := Catalog.rowOf_inj hrow hrow'
    exact ⟨c.key, Catalog.keyOf_rowOf hrow, hsame ▸ hrows'⟩
  · rintro ⟨key, -, hrows'⟩
    obtain ⟨blob, hrow⟩ := h.row key values hrows'
    exact ⟨(key, blob), List.mem_map.mpr ⟨⟨key, blob⟩, (h.mem key blob).mpr ⟨values, hrows', hrow⟩,
      rfl⟩, hrow⟩

end

/-! ## Names -/

section

variable {α : Type} {l : List α} {p : α → Bool} {i : Nat} {a b : α}

/-- An element replaced by another the search passes over too. -/
theorem findIdx?_set_of_not (hget : l[i]? = some b) (hb : p b = false) (ha : p a = false) :
    (l.set i a).findIdx? p = l.findIdx? p := by
  induction l generalizing i with
  | nil => rfl
  | cons c l ih =>
    cases i with
    | zero =>
      obtain rfl := Option.some.inj hget
      simp only [List.set_cons_zero, List.findIdx?_cons, ha, hb]
    | succ i =>
      simp only [List.set_cons_succ, List.findIdx?_cons, ih hget]

/-- An element put where the search, which had found none, finds it. -/
theorem findIdx?_set_of_none (hi : i < l.length) (hnone : l.findIdx? p = none) (ha : p a = true) :
    (l.set i a).findIdx? p = some i := by
  rw [List.findIdx?_eq_none_iff] at hnone
  rw [List.findIdx?_eq_some_iff_getElem]
  refine ⟨by rwa [List.length_set], by rw [List.getElem_set_self]; exact ha, fun j hj => ?_⟩
  rw [List.getElem_set_ne (Nat.ne_of_gt hj)]
  simp only [hnone _ (List.getElem_mem _), Bool.false_eq_true, not_false_eq_true]

end

namespace Catalog

section

variable {base : Files} {cat cat' : Catalog} {body : CatalogBody} {trees : Nat → AnyTree}
  {m : TableMap} {slot slot' : Nat} {handle handle' : TableHandle} {entry : CatalogTableEntry}
  {name name' : Bytes} {values : List Value} {key : Int64} {blob : Bytes} {schema : TableSchema}
  {bp : BufferPool}

/-- Tables of different names are in different slots. -/
theorem Finds.slot_ne (h : cat.Finds name slot handle) (h' : cat.Finds name' slot' handle')
    (hne : name ≠ name') : slot ≠ slot' := by
  rintro rfl
  obtain rfl := Option.some.inj (h.get.symm.trans h'.get)
  exact hne (h.name_eq.symm.trans h'.name_eq)

/-- A table found after its handle, and others', had their trees built. -/
theorem Finds.of_heads (hheads : cat'.heads = cat.heads) (h : cat'.Finds name slot handle') :
    ∃ handle, cat.Finds name slot handle ∧ handle.schema = handle'.schema := by
  have hindex := (findTableIndex_congr hheads name).symm.trans h.index
  have hhead : cat.heads[slot]? = some { handle' with tree := none } := by
    rw [← hheads, heads, List.getElem?_map, h.get]
    rfl
  rw [heads, List.getElem?_map, Option.map_eq_some_iff] at hhead
  obtain ⟨handle, hget, heq⟩ := hhead
  rw [TableHandle.mk.injEq] at heq
  exact ⟨handle, ⟨hindex, hget, heq.1.trans h.inUse, heq.2.1 ▸ h.name_eq⟩, heq.2.1⟩

theorem Created.slot_lt (hc : Created base cat body schema slot bp) : slot < cat.tables.length := by
  obtain ⟨_, hget, -⟩ := hc.free
  exact (List.getElem?_eq_some_iff.mp hget).1

theorem Created.findTableIndex_self (hc : Created base cat body schema slot bp) :
    (cat.withTable slot schema bp).findTableIndex schema.tableName = some slot :=
  findIdx?_set_of_none hc.slot_lt hc.new (by simp)

theorem Created.findTableIndex_other (hc : Created base cat body schema slot bp)
    (hne : name ≠ schema.tableName) :
    (cat.withTable slot schema bp).findTableIndex name = cat.findTableIndex name := by
  obtain ⟨handle, hget, hfree⟩ := hc.free
  exact findIdx?_set_of_not hget (by simp [hfree]) (by simp [Ne.symm hne])

theorem Created.finds (hc : Created base cat body schema slot bp)
    (h : (cat.withTable slot schema bp).Finds name slot' handle') :
    (name = schema.tableName ∧ slot' = slot ∧ handle' = ⟨true, schema, none⟩) ∨
      (name ≠ schema.tableName ∧ slot' ≠ slot ∧ cat.Finds name slot' handle') := by
  by_cases hname : name = schema.tableName
  · subst hname
    obtain rfl := Option.some.inj (h.index.symm.trans hc.findTableIndex_self)
    have hself : (cat.withTable slot' schema bp).tables[slot']? = some ⟨true, schema, none⟩ :=
      List.getElem?_set_self hc.slot_lt
    exact .inl ⟨rfl, rfl, Option.some.inj (h.get.symm.trans hself)⟩
  · have hindex := (hc.findTableIndex_other hname).symm.trans h.index
    have hslot : slot' ≠ slot := by
      rintro rfl
      have hself : (cat.withTable slot' schema bp).tables[slot']? = some ⟨true, schema, none⟩ :=
        List.getElem?_set_self hc.slot_lt
      obtain rfl := Option.some.inj (h.get.symm.trans hself)
      exact hname h.name_eq.symm
    have hget : cat.tables[slot']? = some handle' := by
      have := h.get
      rwa [withTable, List.getElem?_set_ne (Ne.symm hslot)] at this
    exact .inr ⟨hname, hslot, hindex, hget, h.inUse, h.name_eq⟩

/-- Names are looked up after an insertion as before it. -/
theorem Stores.heads_eq (hst : Stores cat body name values slot handle entry key blob)
    (root : PageId) (bp : BufferPool) : (cat.afterInsert slot handle root bp).heads = cat.heads := by
  simp only [heads, afterInsert, List.map_set]
  exact set_of_getElem? (by rw [List.getElem?_map, hst.finds.get]; rfl)

/-! ## Steps -/

section

variable {op : CatalogOp} {res : Except Exn CatalogAnswer} {body' : CatalogBody}
  {trees' : Nat → AnyTree} {tree' : AnyTree}

theorem KeptResult.settle_eq (h : KeptResult cat body trees op res) (m : TableMap) :
    m.settle op res = m := by
  cases res with
  | error e => rfl
  | ok a =>
    cases op with
    | createTable name columns =>
      obtain ⟨what, h⟩ := h
      cases h
    | insertRow name values =>
      obtain ⟨e, h, -⟩ := h
      cases h
    | scanTable name => rfl
    | estimatedRowCount name => rfl

theorem Holds.touched (h : Holds base cat body trees m) (ht : Touched base body cat cat') :
    Holds base cat' body trees m where
  toReady := ht.ready
  forest := ht.quiet.view_eq ▸ h.forest
  small := h.small
  unlisted name hnone := h.unlisted name (findTableIndex_congr ht.heads_eq name ▸ hnone)
  stored hfind := by
    obtain ⟨handle, hfind, hschema⟩ := hfind.of_heads ht.heads_eq
    exact hschema ▸ h.stored hfind

theorem Holds.created (h : Holds base cat body trees m) (hc : Created base cat body schema slot bp)
    (hforest : Forest bp.view (body.addTable slot schema cat.bufferPool.next).tables
      (Function.update trees slot ⟨0, .leaf ⟨cat.bufferPool.next, []⟩⟩)) :
    Holds base (cat.withTable slot schema bp) (body.addTable slot schema cat.bufferPool.next)
      (Function.update trees slot ⟨0, .leaf ⟨cat.bufferPool.next, []⟩⟩)
      (Function.update m schema.tableName (some ⟨schema, fun _ => none⟩)) where
  toReady := hc.ready h.toReady
  forest := hforest
  small := h.small.set fun l hl => by
    rw [List.mem_singleton.mp hl]
    exact Nat.zero_le _
  unlisted name hnone := by
    by_cases hname : name = schema.tableName
    · rw [hname, hc.findTableIndex_self] at hnone
      cases hnone
    · rw [Function.update_of_ne hname]
      exact h.unlisted name (hc.findTableIndex_other hname ▸ hnone)
  stored hfind := by
    rcases hc.finds hfind with ⟨rfl, rfl, rfl⟩ | ⟨hname, hslot, hfind⟩
    · rw [Function.update_self, Function.update_self]
      exact ⟨_, rfl, .nil schema⟩
    · rw [Function.update_of_ne hname, Function.update_of_ne hslot]
      exact h.stored hfind

/-- What an insertion that returned does to the map. -/
theorem Holds.apply_insert (h : Holds base cat body trees m)
    (hst : Stores cat body name values slot handle entry key blob) : ∃ data,
    m name = some data ∧ data.Stored handle.schema (trees slot).2.cells ∧
      m.apply (.insertRow name values) = Function.update m name
        (some { data with rows := Function.update data.rows key values }) := by
  obtain ⟨data, hdata, hstored⟩ := h.stored hst.finds
  refine ⟨data, hdata, hstored, ?_⟩
  simp only [TableMap.apply, hdata, hstored.schema_eq, keyOf_rowOf hst.row]

theorem Holds.inserted (h : Holds base cat body trees m)
    (hst : Stores cat body name values slot handle entry key blob)
    (hgrew : Grew cat slot entry key blob (trees slot) tree')
    (hready : Ready base (cat.afterInsert slot handle
        (rootAfter entry.rootPageId (cat.insertRun slot entry.rootPageId key blob)) bp)
      (bodyAfter body slot (cat.insertRun slot entry.rootPageId key blob)))
    (hforest : Forest bp.view
      (bodyAfter body slot (cat.insertRun slot entry.rootPageId key blob)).tables
      (Function.update trees slot tree'))
    (hok : ∃ root, (cat.insertRun slot entry.rootPageId key blob).result = .ok root) :
    Holds base (cat.afterInsert slot handle
        (rootAfter entry.rootPageId (cat.insertRun slot entry.rootPageId key blob)) bp)
      (bodyAfter body slot (cat.insertRun slot entry.rootPageId key blob))
      (Function.update trees slot tree') (m.apply (.insertRow name values)) where
  toReady := hready
  forest := hforest
  small := by
    obtain ⟨count, htables, -⟩ := bodyAfter_tables hst.entry_eq
      (cat.insertRun slot entry.rootPageId key blob)
    rw [htables]
    exact h.small.set (hgrew.small hok (h.small slot entry hst.entry_eq hst.inUse))
  unlisted name' hnone := by
    rw [findTableIndex_congr (hst.heads_eq _ bp)] at hnone
    obtain ⟨data, -, -, happly⟩ := h.apply_insert hst
    have hne : name' ≠ name := by
      rintro rfl
      rw [hst.finds.index] at hnone
      cases hnone
    rw [happly, Function.update_of_ne hne]
    exact h.unlisted name' hnone
  stored {name' slot' handle'} hfind := by
    obtain ⟨handle₀, hfind, hschema⟩ := hfind.of_heads (hst.heads_eq _ bp)
    rw [← hschema]
    obtain ⟨data, -, hstored, happly⟩ := h.apply_insert hst
    rw [happly]
    by_cases hne : name' = name
    · subst hne
      obtain ⟨rfl, rfl⟩ := hfind.unique hst.finds
      rw [Function.update_self, Function.update_self]
      exact ⟨_, rfl, hstored.upsert hst.row hgrew.mem⟩
    · rw [Function.update_of_ne hne, Function.update_of_ne (hfind.slot_ne hst.finds hne)]
      exact h.stored hfind

/-- **Step.** A call that found a frame for its split leaves a catalog that holds the map it settled. -/
theorem Holds.moved (h : Holds base cat body trees m)
    (hm : Moved base cat body trees op res cat' body' trees') (hsplit : res ≠ .error .exhaustedSplit) :
    Holds base cat' body' trees' (m.settle op res) := by
  have hready := hm.ready h.toReady
  have hforest := hm.forest h.toReady h.forest
  cases hm with
  | kept touched result =>
    rw [result.settle_eq]
    exact h.touched touched
  | created created => exact h.created created hforest
  | @inserted name values slot handle entry key blob tree' bp stores grew _ _ =>
    have hok : ∃ root, (cat.insertRun slot entry.rootPageId key blob).result = .ok root := by
      rcases grew.result with hok | ⟨herr, -⟩
      · exact hok
      · exact absurd (by rw [herr]; rfl) hsplit
    have hsettle : m.settle (.insertRow name values)
        ((cat.insertRun slot entry.rootPageId key blob).result.map fun _ => .done)
          = m.apply (.insertRow name values) := by
      obtain ⟨root, hok⟩ := hok
      rw [hok]
      rfl
    rw [hsettle]
    exact h.inserted stores grew hready hforest hok

/-- **Run.** -/
theorem Holds.run (h : Holds base cat body trees m) {ops : List CatalogOp}
    (hframes : NoExhaustion (cat.history ops)) :
    ∃ body' trees', Holds base (cat.afterAll ops) body' trees' (m.replay (cat.history ops)) := by
  induction ops generalizing cat body trees m with
  | nil => exact ⟨body, trees, h⟩
  | cons op ops ih =>
    obtain ⟨body', trees', hm⟩ := h.toReady.moved h.forest op
    have hsplit : op.result cat ≠ .error .exhaustedSplit := fun he =>
      hframes op _ (by rw [history, he]; exact List.mem_cons_self) (.inr rfl)
    exact ih (h.moved hm hsplit) fun op' e he => hframes op' e (List.mem_cons_of_mem _ he)

end

/-! ## Answers -/

theorem handleOf_error {caller : Bytes} {e : Exn} (h : cat.handleOf caller name = .error e) :
    cat.findTableIndex name = none ∧
      e = .catalogError (caller ++ text ": no such table '" ++ name ++ text "'") := by
  unfold handleOf at h
  cases hfind : cat.findTableIndex name with
  | none =>
    rw [hfind] at h
    exact ⟨rfl, (Except.error.inj h).symm⟩
  | some slot =>
    obtain ⟨hlt, -⟩ := List.findIdx?_eq_some_iff_getElem.mp hfind
    simp only [hfind, List.getElem?_eq_getElem hlt] at h
    cases h

/-- What `ScanTable` answers when the tables' trees are intact. -/
theorem Ready.scan_result (h : Ready base cat body)
    (hf : Forest cat.bufferPool.view body.tables trees) (name : Bytes) :
    (cat.findTableIndex name = none ∧ CatalogOp.result cat (.scanTable name) = .error (.catalogError
        (text "Catalog::ScanTable" ++ text ": no such table '" ++ name ++ text "'"))) ∨
      ∃ slot handle, cat.Finds name slot handle ∧ CatalogOp.result cat (.scanTable name)
        = (decodeRows handle.schema (pairsOf trees slot)).map .rows := by
  cases h.scanTable_moved hf name with
  | kept _ result =>
    rcases result with ⟨e, hnone, hres⟩ | hfound
    · obtain ⟨hnone', rfl⟩ := handleOf_error hnone
      exact .inl ⟨hnone', hres⟩
    · exact .inr hfound

/-- What `EstimatedRowCount` answers. -/
theorem Ready.estimate_result (h : Ready base cat body) (name : Bytes) :
    (cat.findTableIndex name = none ∧ CatalogOp.result cat (.estimatedRowCount name)
      = .error (.catalogError
        (text "Catalog::EstimatedRowCount" ++ text ": no such table '" ++ name ++ text "'"))) ∨
      ∃ slot handle entry, cat.Finds name slot handle ∧ body.tables[slot]? = some entry ∧
        handle.Mirrors entry ∧
        CatalogOp.result cat (.estimatedRowCount name) = .ok (.count entry.rowCount) := by
  have hmoved : Moved base cat body (fun _ => ⟨0, .leaf ⟨0, []⟩⟩) _ _ _ body _ :=
    h.estimatedRowCount_moved name
  cases hmoved with
  | kept _ result =>
    rcases result with ⟨e, hnone, hres⟩ | ⟨slot, handle, entry, hfind, hentry, hres⟩
    · obtain ⟨hnone', rfl⟩ := handleOf_error hnone
      exact .inl ⟨hnone', hres⟩
    · obtain ⟨entry', hentry', hm⟩ := h.exists_entry hfind.get
      obtain rfl := Option.some.inj (hentry.symm.trans hentry')
      exact .inr ⟨slot, handle, entry, hfind, hentry, hm, hres⟩

/-- The cells of a table decode to its rows. -/
theorem Holds.rows (h : Holds base cat body trees m) (hfind : cat.Finds name slot handle) :
    ∃ data rows, m name = some data ∧ decodeRows handle.schema (pairsOf trees slot) = .ok rows ∧
      data.IsScan rows ∧ rows.length = (trees slot).2.cells.length := by
  obtain ⟨data, hdata, hstored⟩ := h.stored hfind
  obtain ⟨entry, hentry, hm⟩ := h.exists_entry hfind.get
  have hintact := h.forest.intact hentry (hm.inUse_eq ▸ hfind.inUse)
  obtain ⟨rows, hrows, hscan, hlength⟩ := hstored.scan hintact.holds.sorted
  exact ⟨data, rows, hdata, hrows, hscan, hlength⟩

/-- **`ScanTable` answers as the map does.** -/
theorem Holds.scanAnswers (h : Holds base cat body trees m) (name : Bytes) :
    m.ScanAnswers name (CatalogOp.result cat (.scanTable name)) := by
  rcases h.toReady.scan_result h.forest name with ⟨hnone, hres⟩ | ⟨slot, handle, hfind, hres⟩
  · simp only [TableMap.ScanAnswers, h.unlisted name hnone]
    exact ⟨_, hres⟩
  · obtain ⟨data, rows, hdata, hrows, hscan, -⟩ := h.rows hfind
    simp only [TableMap.ScanAnswers, hdata]
    exact ⟨rows, by rw [hres, hrows]; rfl, hscan⟩

/-- **A call on one table leaves the scans of the others.** -/
theorem Moved.scan_other {op : CatalogOp} {res : Except Exn CatalogAnswer} {body' : CatalogBody}
    {trees' : Nat → AnyTree} (h : Ready base cat body)
    (hf : Forest cat.bufferPool.view body.tables trees)
    (hm : Moved base cat body trees op res cat' body' trees') (hne : op.table ≠ name) :
    CatalogOp.result cat' (.scanTable name) = CatalogOp.result cat (.scanTable name) := by
  have hready := hm.ready h
  have hforest := hm.forest h hf
  -- the table is found where it was, with the tree it had
  have hsame : cat'.findTableIndex name = cat.findTableIndex name ∧
      ∀ {slot handle'}, cat'.Finds name slot handle' → ∃ handle, cat.Finds name slot handle ∧
        handle.schema = handle'.schema ∧ trees' slot = trees slot := by
    cases hm with
    | kept touched =>
      refine ⟨findTableIndex_congr touched.heads_eq name, fun hfind => ?_⟩
      obtain ⟨handle, hfind, hschema⟩ := hfind.of_heads touched.heads_eq
      exact ⟨handle, hfind, hschema, rfl⟩
    | created created =>
      refine ⟨created.findTableIndex_other (Ne.symm hne), fun hfind => ?_⟩
      rcases created.finds hfind with ⟨rfl, -⟩ | ⟨-, hslot, hfind⟩
      · exact absurd rfl hne
      · exact ⟨_, hfind, rfl, Function.update_of_ne hslot _ _⟩
    | inserted stores =>
      refine ⟨findTableIndex_congr (stores.heads_eq _ _) name, fun hfind => ?_⟩
      obtain ⟨handle, hfind, hschema⟩ := hfind.of_heads (stores.heads_eq _ _)
      exact ⟨handle, hfind, hschema,
        Function.update_of_ne (hfind.slot_ne stores.finds (Ne.symm hne)) _ _⟩
  rcases hready.scan_result hforest name with ⟨hnone', hres'⟩ | ⟨slot, handle', hfind', hres'⟩ <;>
    rcases h.scan_result hf name with ⟨hnone, hres⟩ | ⟨slot₀, handle, hfind, hres⟩
  · rw [hres', hres]
  · rw [hsame.1, hfind.index] at hnone'
    cases hnone'
  · rw [← hsame.1, hfind'.index] at hnone
    cases hnone
  · obtain ⟨handle₀, hfind₀, hschema, htree⟩ := hsame.2 hfind'
    obtain ⟨rfl, rfl⟩ := hfind₀.unique hfind
    rw [hres', hres, pairsOf, pairsOf, htree, hschema]

end

end Catalog

/-- A fresh catalog holds the empty map. -/
theorem Catalog.Holds.fresh {base : Files} {bp : BufferPool} {tables : List TableHandle}
    (h : Catalog.Ready base ⟨bp, 0, tables⟩ .zero) (trees : Nat → AnyTree) :
    Catalog.Holds base ⟨bp, 0, tables⟩ .zero trees .empty where
  toReady := h
  forest := Catalog.forest_fresh bp.view trees
  small i entry hi huse := by
    rw [CatalogBody.zero_tables hi] at huse
    cases huse
  unlisted name _ := rfl
  stored hfind := by
    obtain ⟨entry, hentry, hm⟩ := h.exists_entry hfind.get
    have huse := hm.inUse_eq ▸ hfind.inUse
    rw [CatalogBody.zero_tables hentry] at huse
    cases huse

/-- **A catalog refines a map from names to tables**: after every run of calls on a catalog freshly
constructed on a pool of one frame or more, with a log or without one, in which every call found its
frames, `ScanTable` of any name answers as the map does, and a further call changes the scans of its own
table only. -/
theorem catalog_refines_map {poolSize : Nat} {wal : Option WalManager}
    (hwal : wal = none ∨ wal = some (WalManager.new WalFile.empty)) {cat : Catalog} {bp : BufferPool}
    (hnew : Catalog.new (BufferPool.new poolSize (DiskManager.new DataFile.empty) wal) = .ok cat bp)
    {ops : List CatalogOp} (hframes : Catalog.NoExhaustion (cat.history ops)) :
    (∀ name, (TableMap.empty.replay (cat.history ops)).ScanAnswers name
        (CatalogOp.result (cat.afterAll ops) (.scanTable name))) ∧
      ∀ (op : CatalogOp) name, op.table ≠ name →
        CatalogOp.result (op.after (cat.afterAll ops)) (.scanTable name)
          = CatalogOp.result (cat.afterAll ops) (.scanTable name) := by
  obtain ⟨hgood, -⟩ := fresh_good poolSize hwal
  obtain ⟨bp', hnew', -, -, -, hready⟩ := Catalog.new_fresh hgood (Catalog.pool_pos hgood rfl hnew) rfl
  rw [hnew'] at hnew
  obtain ⟨rfl, -⟩ := EStateM.Result.ok.inj hnew
  have hfresh := Catalog.Holds.fresh hready fun _ => ⟨0, .leaf ⟨0, []⟩⟩
  obtain ⟨body, trees, h⟩ := hfresh.run hframes
  refine ⟨h.scanAnswers, fun op name hne => ?_⟩
  obtain ⟨body', trees', hm⟩ := h.toReady.moved h.forest op
  exact hm.scan_other h.toReady h.forest hne

/-- A table of one key and one text, its key 1 inserted twice. -/
def upsertOps : List CatalogOp :=
  [.createTable (text "t") [⟨text "id", .integer, true⟩, ⟨text "v", .text, false⟩],
    .insertRow (text "t") [.int 1, .text (text "a")], .insertRow (text "t") [.int 1, .text (text "b")]]

theorem catalog_refines_map_upsert : ∃ cat bp,
    Catalog.new (BufferPool.new 2 (DiskManager.new DataFile.empty) none) = .ok cat bp ∧
      cat.history upsertOps = upsertOps.map (·, .ok .done) ∧
      ∀ name, (TableMap.empty.replay (cat.history upsertOps)).ScanAnswers name
        (CatalogOp.result (cat.afterAll upsertOps) (.scanTable name)) := by
  have hrun : Catalog.runNew (BufferPool.new 2 (DiskManager.new DataFile.empty) none) upsertOps
      = upsertOps.map (·, .ok .done) := by decide +kernel
  cases hnew : Catalog.new (BufferPool.new 2 (DiskManager.new DataFile.empty) none) with
  | error e bp =>
    rw [Catalog.runNew, hnew] at hrun
    cases hrun
  | ok cat bp =>
    rw [Catalog.runNew_ok hnew] at hrun
    refine ⟨cat, bp, rfl, hrun, (catalog_refines_map (.inl rfl) hnew fun op e he => ?_).1⟩
    rw [hrun] at he
    obtain ⟨_, -, heq⟩ := List.mem_map.mp he
    cases heq

end Reldb
