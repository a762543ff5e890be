import Reldb.Query.Meaning

/-!
# Reldb — well-typed queries return

A plan throws at the first row that an expression cannot be evaluated on. The values of a table are of the
types its schema gives their columns, so whether that can happen is seen in the query: `WellTyped`. A
well-typed `SELECT` returns, whatever order and operators it is planned with.
-/

namespace Reldb

/-! ## Types -/

/-- A field without its value. -/
structure FieldType where
  table : Bytes
  column : Bytes
  type : ColumnType
  deriving DecidableEq, Repr

def Field.fieldType (f : Field) : FieldType := ⟨f.table, f.column, f.value.kind⟩

/-- The types of the values stored for the columns from index `i` on; a primary key is a tree key. -/
def storedTypesFrom (pkIndex : Option Nat) : Nat → List ColumnDef → List ColumnType
  | _, [] => []
  | i, col :: cols =>
    (if pkIndex = some i then .integer else col.type) :: storedTypesFrom pkIndex (i + 1) cols

/-- The fields of a table's rows. -/
def Contents.fieldTypes (db : Contents) (ref : TableRef) : List FieldType :=
  let schema := db.schemaOf ref.table
  List.zipWith (fun col type => ⟨ref.name, col.name, type⟩) schema.columns
    (storedTypesFrom schema.primaryKeyIndex 0 schema.columns)

/-- The type of what a reference finds, if it finds anything. -/
def typeOf (types : List FieldType) (ref : ColumnRef) : Option ColumnType :=
  match ref.table with
  | some t => (types.find? fun f => f.table == t && f.column == ref.column).map (·.type)
  | none =>
    match types.filter (·.column == ref.column) with
    | [f] => some f.type
    | _ => none

namespace Expr

def valueType (types : List FieldType) : Expr → Option ColumnType
  | .columnRef table column => typeOf types ⟨table, column⟩
  | .literal (.integer _) => some .integer
  | .literal (.text _) => some .text
  | .comparison _ _ _ | .and _ _ | .or _ _ => none

/-- A condition whose comparisons are of values of one type. -/
def WellTyped (types : List FieldType) : Expr → Prop
  | .comparison _ left right =>
    ∃ type, left.valueType types = some type ∧ right.valueType types = some type
  | .and left right | .or left right => left.WellTyped types ∧ right.WellTyped types
  | .columnRef _ _ | .literal _ => False

end Expr

/-- A `SELECT` that throws at no row: conditions and items are of fields that there are, comparisons of
values of one type. The columns of a join's equality are not both the new table's. -/
structure Contents.WellTyped (db : Contents) (stmt : SelectStmt) : Prop where
  qualified : ∀ join ∈ stmt.joins, join.onCondition.Qualified
  conditions : ∀ join ∈ stmt.joins,
    join.onCondition.WellTyped (stmt.tables.flatMap db.fieldTypes)
  sides : ∀ join ∈ stmt.joins, ∀ nextRef accRef, join.refs = some (nextRef, accRef) →
    accRef.table ≠ some join.table.name
  predicate : ∀ p, stmt.where = some p → p.WellTyped (stmt.tables.flatMap db.fieldTypes)
  items : stmt.isStar = false → ∀ item ∈ stmt.selectItems,
    (typeOf (stmt.tables.flatMap db.fieldTypes) ⟨item.table, item.column⟩).isSome = true

/-! ## Evaluation -/

section

variable {row : ExecRow} {types : List FieldType} {e : Expr} {ref : ColumnRef} {type : ColumnType}

/-- Every reference that has a type finds a value of it. -/
def Finds (row : ExecRow) (types : List FieldType) (ref : ColumnRef) : Prop :=
  ∀ type, typeOf types ref = some type → ∃ v, row.find ref = .ok v ∧ v.kind = type

theorem findUnqualified_singleton {f : Field} {column : Bytes} (h : f.column = column) :
    ExecRow.findUnqualified column none [f] = .ok f.value := by
  simp only [ExecRow.findUnqualified, h, if_true]

/-- A row has what the types of its fields promise. -/
theorem finds_fieldTypes (row : ExecRow) (ref : ColumnRef) :
    Finds row (row.map Field.fieldType) ref := by
  intro type htype
  obtain ⟨table, column⟩ := ref
  cases table with
  | some t =>
    simp only [typeOf, List.find?_map, Option.map_map, Option.map_eq_some_iff] at htype
    obtain ⟨f, hf, rfl⟩ := htype
    refine ⟨f.value, ?_, rfl⟩
    have hf : List.find? (fun f => f.table == t && f.column == column) row = some f := hf
    rw [ExecRow.find_qualified, hf]
  | none =>
    simp only [typeOf, List.filter_map] at htype
    have hfilter : row.filter ((fun f : FieldType => f.column == column) ∘ Field.fieldType)
        = row.filter (·.column == column) := rfl
    rw [hfilter] at htype
    have hmem : ∀ f ∈ row.filter (·.column == column), f.column = column :=
      fun f hf => beq_iff_eq.mp (List.mem_filter.mp hf).2
    show ∃ v, ExecRow.findUnqualified column none row = .ok v ∧ v.kind = type
    rw [ExecRow.findUnqualified_eq]
    generalize row.filter (·.column == column) = fs at htype hmem
    rcases fs with _ | ⟨f, _ | ⟨g, fs⟩⟩
    · cases htype
    · obtain rfl := Option.some.inj htype
      exact ⟨f.value, findUnqualified_singleton (hmem f (List.mem_singleton_self f)), rfl⟩
    · cases htype

theorem evalValue_of_type (h : ∀ ref ∈ e.refs, Finds row types ref)
    (htype : e.valueType types = some type) : ∃ v, evalValue row e = .ok v ∧ v.kind = type := by
  cases e with
  | columnRef table column => exact h _ (List.mem_singleton_self _) type htype
  | literal value =>
    cases value with
    | integer value =>
      obtain rfl := Option.some.inj htype
      exact ⟨_, rfl, rfl⟩
    | text value =>
      obtain rfl := Option.some.inj htype
      exact ⟨_, rfl, rfl⟩
  | comparison op left right => cases htype
  | and left right => cases htype
  | or left right => cases htype

/-- **A well-typed condition can be evaluated.** -/
theorem evalBool_of_wellTyped (h : ∀ ref ∈ e.refs, Finds row types ref)
    (htyped : e.WellTyped types) : ∃ b, evalBool row e = .ok b := by
  induction e with
  | columnRef table column => exact htyped.elim
  | literal value => exact htyped.elim
  | comparison op left right =>
    obtain ⟨hl, hr⟩ := List.forall_mem_append.mp h
    obtain ⟨type, hleft, hright⟩ := htyped
    obtain ⟨u, hu, hukind⟩ := evalValue_of_type hl hleft
    obtain ⟨v, hv, hvkind⟩ := evalValue_of_type hr hright
    obtain ⟨o, ho, -⟩ := compareValues_of_kind_eq (hukind.trans hvkind.symm)
    refine ⟨op.holds o, ?_⟩
    rw [evalBool, hu, hv]
    show (compareValues u v >>= fun c => pure (op.holds c)) = _
    rw [ho]
    rfl
  | and left right ihl ihr =>
    obtain ⟨hl, hr⟩ := List.forall_mem_append.mp h
    obtain ⟨b, hb⟩ := ihl hl htyped.1
    obtain ⟨c, hc⟩ := ihr hr htyped.2
    rw [evalBool, hb, hc]
    cases b
    · exact ⟨false, rfl⟩
    · exact ⟨c, rfl⟩
  | or left right ihl ihr =>
    obtain ⟨hl, hr⟩ := List.forall_mem_append.mp h
    obtain ⟨b, hb⟩ := ihl hl htyped.1
    obtain ⟨c, hc⟩ := ihr hr htyped.2
    rw [evalBool, hb, hc]
    cases b
    · exact ⟨c, rfl⟩
    · exact ⟨true, rfl⟩

theorem projectFields_of_finds {items : List SelectItem}
    (h : ∀ item ∈ items, Finds row types ⟨item.table, item.column⟩ ∧
      (typeOf types ⟨item.table, item.column⟩).isSome = true) :
    ∃ row', PhysicalPlan.projectFields row items = .ok row' := by
  induction items with
  | nil => exact ⟨[], rfl⟩
  | cons item items ih =>
    obtain ⟨⟨hfinds, hsome⟩, h⟩ := List.forall_mem_cons.mp h
    obtain ⟨row', hrow'⟩ := ih h
    obtain ⟨type, htype⟩ := Option.isSome_iff_exists.mp hsome
    obtain ⟨v, hv, -⟩ := hfinds type htype
    rw [PhysicalPlan.projectFields, hv, hrow']
    exact ⟨_, rfl⟩

end

/-! ## The rows of a table -/

section

variable {db : Contents} {ref : TableRef} {refs refs' : List TableRef} {row : ExecRow} {t c : Bytes}
  {type : ColumnType}

theorem kinds_of_encodeFrom {pkIndex : Option Nat} {i : Nat} {cols : List ColumnDef}
    {vals : List Value} {bytes : Bytes} (h : RowCodec.encodeFrom pkIndex i cols vals = .ok bytes)
    (hlen : vals.length = cols.length)
    (hkey : ∀ j v, pkIndex = some (i + j) → vals[j]? = some v → v.kind = .integer) :
    vals.map Value.kind = storedTypesFrom pkIndex i cols := by
  induction cols generalizing i vals bytes with
  | nil =>
    rw [List.length_eq_zero_iff.mp hlen]
    rfl
  | cons col cols ih =>
    cases vals with
    | nil => cases hlen
    | cons val vals =>
      have hrest : ∀ {bytes}, RowCodec.encodeFrom pkIndex (i + 1) cols vals = .ok bytes →
          vals.map Value.kind = storedTypesFrom pkIndex (i + 1) cols := by
        intro bytes h
        refine ih h (Nat.succ.inj hlen) fun j v hpk hv => hkey (j + 1) v ?_ ?_
        · rw [hpk]
          exact congrArg some (by omega)
        · exact hv
      rw [RowCodec.encodeFrom] at h
      rw [List.map_cons, storedTypesFrom]
      by_cases hpk : pkIndex = some i
      · rw [if_pos hpk] at h
        rw [if_pos hpk, hkey 0 val hpk rfl, hrest h]
      · rw [if_neg hpk] at h
        rw [if_neg hpk]
        cases hcol : RowCodec.encodeColumn col val with
        | error e =>
          rw [hcol] at h
          cases h
        | ok bytes =>
          rw [hcol] at h
          cases henc : RowCodec.encodeFrom pkIndex (i + 1) cols vals with
          | error e =>
            rw [henc] at h
            cases h
          | ok bytes' =>
            rw [hrest henc]
            congr 1
            unfold RowCodec.encodeColumn at hcol
            split at hcol
            · next htype => exact htype.symm
            · cases hcol
            · next htype => exact htype.symm
            · cases hcol

/-- The values of a row are of the types its schema says. -/
theorem kinds_of_rowOf {schema : TableSchema} {values : List Value} {pair : Int64 × Bytes}
    (h : Catalog.rowOf schema values = .ok pair) :
    values.map Value.kind = storedTypesFrom schema.primaryKeyIndex 0 schema.columns := by
  obtain ⟨hkey, henc⟩ := Catalog.rowOf_ok h
  obtain ⟨hlen, henc⟩ := RowCodec.encode_ok henc
  refine kinds_of_encodeFrom henc hlen fun j v hpk hv => ?_
  rw [Nat.zero_add] at hpk
  rw [hpk, Option.bind_some, hv] at hkey
  obtain rfl := Option.some.inj hkey
  rfl

theorem fieldTypes_of_mem_tagged (h : row ∈ db.tagged ref) :
    row.map Field.fieldType = db.fieldTypes ref := by
  rw [Contents.tagged] at h
  rw [Contents.fieldTypes, Contents.schemaOf]
  cases hdb : db ref.table with
  | none =>
    rw [hdb] at h
    cases h
  | some t =>
    rw [hdb] at h
    obtain ⟨values, hvalues, rfl⟩ := List.mem_map.mp h
    obtain ⟨pair, hpair⟩ := t.stored values hvalues
    simp only [← kinds_of_rowOf hpair, fieldsOf, List.map_zipWith, List.zipWith_map_right]
    rfl

theorem table_of_mem_fieldTypes {f : FieldType} (h : f ∈ db.fieldTypes ref) : f.table = ref.name := by
  obtain ⟨i, hi, rfl⟩ := List.getElem_of_mem h
  simp only [Contents.fieldTypes, List.getElem_zipWith]

/-! ## Rows put together -/

/-- A row made of a row of each table. -/
structure Assembled (db : Contents) (refs : List TableRef) (row : ExecRow) : Prop where
  tables : ∀ ref ∈ refs, row.blocks ref.name ∈ db.tagged ref
  rest : ∀ t ∉ refs.map TableRef.name, row.blocks t = []

theorem Assembled.perm (h : Assembled db refs row) (hperm : refs.Perm refs') :
    Assembled db refs' row :=
  ⟨fun ref href => h.tables ref (hperm.mem_iff.mpr href),
    fun t ht => h.rest t (mt (hperm.map TableRef.name).mem_iff.mp ht)⟩

theorem blocks_blocks (row : ExecRow) (a t : Bytes) :
    (row.blocks a).blocks t = if a = t then row.blocks t else [] := by
  by_cases hat : a = t
  · subst hat
    rw [if_pos rfl, ExecRow.blocks, ExecRow.blocks, List.filter_filter]
    simp only [Bool.and_self]
  · rw [if_neg hat]
    apply ExecRow.blocks_eq_nil_iff.mpr
    intro f hf heq
    exact hat ((beq_iff_eq.mp (List.mem_filter.mp hf).2).symm.trans heq)

theorem blocks_flatMap (hnodup : (refs.map TableRef.name).Nodup) (row : ExecRow) (t : Bytes) :
    ExecRow.blocks (refs.flatMap fun ref => row.blocks ref.name) t
      = if t ∈ refs.map TableRef.name then row.blocks t else [] := by
  induction refs with
  | nil => rfl
  | cons ref refs ih =>
    obtain ⟨hnew, hnodup⟩ := List.nodup_cons.mp hnodup
    rw [List.flatMap_cons, ExecRow.blocks_append, ih hnodup, blocks_blocks, List.map_cons]
    simp only [List.mem_cons]
    by_cases heq : ref.name = t
    · subst heq
      rw [if_pos rfl, if_neg hnew, if_pos (.inl rfl), List.append_nil]
    · rw [if_neg heq, List.nil_append]
      simp only [Ne.symm heq, false_or]

/-- A row is one row of each table, one after the other, but for the order of the tables. -/
theorem Assembled.blocks_eq (h : Assembled db refs row) (hnodup : (refs.map TableRef.name).Nodup) :
    row.blocks = ExecRow.blocks (refs.flatMap fun ref => row.blocks ref.name) := by
  funext t
  rw [blocks_flatMap hnodup]
  split
  · rfl
  · next hnot => exact h.rest t hnot

/-- **A row put together has what the types of its tables promise.** -/
theorem Assembled.finds (h : Assembled db refs row) (hnodup : (refs.map TableRef.name).Nodup)
    (ref : ColumnRef) : Finds row (refs.flatMap db.fieldTypes) ref := by
  have htypes : (refs.flatMap fun ref => row.blocks ref.name).map Field.fieldType
      = refs.flatMap db.fieldTypes := by
    rw [List.map_flatMap]
    exact List.flatMap_congr fun ref href => fieldTypes_of_mem_tagged (h.tables ref href)
  intro type htype
  rw [← htypes] at htype
  rw [ExecRow.find_of_blocks (h.blocks_eq hnodup)]
  exact finds_fieldTypes _ ref type htype

/-- A reference to a table has the type that the table alone gives it. -/
theorem typeOf_flatMap (hnodup : (refs.map TableRef.name).Nodup) (href : ref ∈ refs) (c : Bytes) :
    typeOf (refs.flatMap db.fieldTypes) ⟨some ref.name, c⟩
      = typeOf (db.fieldTypes ref) ⟨some ref.name, c⟩ := by
  induction refs with
  | nil => cases href
  | cons first refs ih =>
    obtain ⟨hnew, hnodup⟩ := List.nodup_cons.mp hnodup
    simp only [typeOf, List.flatMap_cons, List.find?_append]
    have hnone : ∀ {types : List FieldType} {a : Bytes}, (∀ f ∈ types, f.table ≠ a) →
        types.find? (fun f => f.table == a && f.column == c) = none := by
      intro types a hne
      rw [List.find?_eq_none]
      intro f hf hmatch
      exact hne f hf (beq_iff_eq.mp (Bool.and_eq_true_iff.mp hmatch).1)
    by_cases heq : ref = first
    · subst heq
      have hrest : (refs.flatMap db.fieldTypes).find?
          (fun f => f.table == ref.name && f.column == c) = none := by
        apply hnone
        intro f hf htable
        obtain ⟨ref', href', hf⟩ := List.mem_flatMap.mp hf
        have hname := (table_of_mem_fieldTypes hf).symm.trans htable
        exact hnew (List.mem_map.mpr ⟨ref', href', hname⟩)
      rw [hrest, Option.or_none]
    · have href := (List.mem_cons.mp href).resolve_left heq
      have hfirst : (db.fieldTypes first).find?
          (fun f => f.table == ref.name && f.column == c) = none := by
        apply hnone
        intro f hf htable
        have hname := (table_of_mem_fieldTypes hf).symm.trans htable
        exact hnew (List.mem_map.mpr ⟨ref, href, hname.symm⟩)
      rw [hfirst, Option.none_or]
      exact ih hnodup href

/-- What holds of all the tables of a query holds of those joined so far. -/
theorem Assembled.finds_of_subset (h : Assembled db refs row)
    (hnodup : (refs'.map TableRef.name).Nodup) (hrefs : (refs.map TableRef.name).Nodup)
    (hsub : refs ⊆ refs') (ht : t ∈ refs.map TableRef.name) (c : Bytes) :
    Finds row (refs'.flatMap db.fieldTypes) ⟨some t, c⟩ := by
  obtain ⟨ref, href, rfl⟩ := List.mem_map.mp ht
  intro type htype
  rw [typeOf_flatMap hnodup (hsub href), ← typeOf_flatMap hrefs href] at htype
  exact h.finds hrefs _ type htype

end

/-! ## Joins return -/

section

variable {db : Contents} {plan : PhysicalPlan} {join : JoinClause} {done all : List TableRef}
  {ls out : List ExecRow} {l r : ExecRow}

theorem assembled_of_mem_tagged {ref : TableRef} (h : r ∈ db.tagged ref) : Assembled db [ref] r := by
  have hblocks := ExecRow.blocks_of_forall (table_of_mem_tagged h)
  constructor
  · intro ref' href'
    obtain rfl := List.mem_singleton.mp href'
    rwa [hblocks, Function.update_self]
  · intro t ht
    rw [hblocks, Function.update_of_ne (fun heq => ht (List.mem_singleton.mpr heq))]
    rfl

/-- A row put together with one of a new table. -/
theorem Assembled.cons {ref : TableRef} {row : ExecRow} (h : Assembled db done l)
    (hr : r ∈ db.tagged ref) (hnew : ref.name ∉ done.map TableRef.name)
    (hrow : row.blocks = Function.update l.blocks ref.name r) : Assembled db (ref :: done) row := by
  constructor
  · intro ref' href'
    rcases List.mem_cons.mp href' with rfl | href'
    · rwa [hrow, Function.update_self]
    · have hne : ref'.name ≠ ref.name :=
        fun heq => hnew (heq ▸ List.mem_map.mpr ⟨ref', href', rfl⟩)
      rw [hrow, Function.update_of_ne hne]
      exact h.tables ref' href'
  · intro t ht
    rw [List.map_cons, List.mem_cons, not_or] at ht
    rw [hrow, Function.update_of_ne ht.1]
    exact h.rest t ht.2

/-- What is known of a clause when its turn comes: the tables joined so far are some of all, its own is a
new one, and its condition is about these. -/
structure InTurn (db : Contents) (all done : List TableRef) (join : JoinClause) : Prop where
  distinct : (all.map TableRef.name).Nodup
  subset : join.table :: done ⊆ all
  nodup : ((join.table :: done).map TableRef.name).Nodup
  known : ∃ t, db join.table.table = some t
  connected : join.connected (done.map TableRef.name) = true
  qualified : join.onCondition.Qualified
  typed : join.onCondition.WellTyped (all.flatMap db.fieldTypes)
  sides : ∀ nextRef accRef, join.refs = some (nextRef, accRef) →
    accRef.table ≠ some join.table.name

theorem InTurn.new (h : InTurn db all done join) : join.table.name ∉ done.map TableRef.name :=
  (List.nodup_cons.mp h.nodup).1

/-- The tables the condition mentions are the new one and those joined. -/
theorem InTurn.mem_names (h : InTurn db all done join) {t c : Bytes}
    (href : (⟨some t, c⟩ : ColumnRef) ∈ join.onCondition.refs) :
    t ∈ (join.table :: done).map TableRef.name := by
  have hmem := Expr.mem_collectReferencedTables href
  have hconn := h.connected
  rw [JoinClause.connected, TableNode.connected, List.all_eq_true] at hconn
  by_cases hown : t = join.table.name
  · exact hown ▸ List.mem_cons_self
  · refine List.mem_cons_of_mem _ ?_
    exact of_decide_eq_true (hconn t (List.mem_filter.mpr ⟨hmem, decide_eq_true hown⟩))

/-- A nested loop's condition can be evaluated on every pair. -/
theorem InTurn.evalBool_pair (h : InTurn db all done join) (hl : Assembled db done l)
    (hr : r ∈ db.tagged join.table) : ∃ b, evalBool (l ++ r) join.onCondition = .ok b := by
  have hpair := ExecRow.blocks_pair (hl.rest _ h.new) (table_of_mem_tagged hr)
  have hrow := hl.cons hr h.new hpair.1
  refine evalBool_of_wellTyped (fun ref href => ?_) h.typed
  obtain ⟨table, column⟩ := ref
  obtain ⟨t, rfl⟩ := Option.isSome_iff_exists.mp (h.qualified _ href)
  exact hrow.finds_of_subset h.distinct h.nodup h.subset (h.mem_names href) column

/-- A hash join finds its columns, each on its side. -/
theorem InTurn.find_sides (h : InTurn db all done join) {nextRef accRef : ColumnRef}
    (hrefs : join.refs = some (nextRef, accRef)) :
    (∀ l, Assembled db done l → l.find accRef = .ok (l.valueAt accRef)) ∧
      ∀ r ∈ db.tagged join.table, r.find nextRef = .ok (r.valueAt nextRef) := by
  obtain ⟨hown, hcond⟩ := onCondition_of_refs hrefs
  -- both columns are references of the condition, and have types
  have hmem : nextRef ∈ join.onCondition.refs ∧ accRef ∈ join.onCondition.refs := by
    rcases hcond with heq | heq
    · rw [heq]
      exact ⟨List.mem_cons_self, List.mem_cons_of_mem _ (List.mem_singleton_self _)⟩
    · rw [heq]
      exact ⟨List.mem_cons_of_mem _ (List.mem_singleton_self _), List.mem_cons_self⟩
  have htypes : (∃ type, typeOf (all.flatMap db.fieldTypes) nextRef = some type) ∧
      ∃ type, typeOf (all.flatMap db.fieldTypes) accRef = some type := by
    have htyped := h.typed
    rcases hcond with heq | heq
    · rw [heq] at htyped
      obtain ⟨type, hleft, hright⟩ := htyped
      exact ⟨⟨type, hleft⟩, type, hright⟩
    · rw [heq] at htyped
      obtain ⟨type, hleft, hright⟩ := htyped
      exact ⟨⟨type, hright⟩, type, hleft⟩
  obtain ⟨⟨nextType, hnextType⟩, accType, haccType⟩ := htypes
  obtain ⟨hdone, hnodup⟩ : done ⊆ all ∧ (done.map TableRef.name).Nodup :=
    ⟨fun ref href => h.subset (List.mem_cons_of_mem _ href), (List.nodup_cons.mp h.nodup).2⟩
  constructor
  · intro l hl
    apply ExecRow.find_valueAt
    obtain ⟨table, column⟩ := accRef
    obtain ⟨t, rfl⟩ := Option.isSome_iff_exists.mp (h.qualified _ hmem.2)
    have hne : t ≠ join.table.name := fun heq => h.sides _ _ hrefs (congrArg some heq)
    have hin := (List.mem_cons.mp (h.mem_names hmem.2)).resolve_left hne
    obtain ⟨v, hv, -⟩ := hl.finds_of_subset h.distinct hnodup hdone hin column accType haccType
    exact ⟨v, hv⟩
  · intro r hr
    apply ExecRow.find_valueAt
    obtain ⟨table, column⟩ := nextRef
    obtain rfl : table = some join.table.name := hown
    have hsub : [join.table] ⊆ all := fun ref href =>
      h.subset (List.mem_singleton.mp href ▸ List.mem_cons_self)
    obtain ⟨v, hv, -⟩ := (assembled_of_mem_tagged hr).finds_of_subset h.distinct
      (List.nodup_singleton _) hsub (List.mem_singleton_self _) column nextType hnextType
    exact ⟨v, hv⟩

theorem rowsOf_newNestedLoopJoin {left right : PhysicalPlan} {condition : Expr} {rs : List ExecRow}
    (hls : db.rowsOf left = some ls) (hrs : db.rowsOf right = some rs)
    (h : ∀ l ∈ ls, ∀ r ∈ rs, ∃ b, evalBool (l ++ r) condition = .ok b) :
    ∃ out, db.rowsOf (.newNestedLoopJoin left right condition) = some out := by
  rw [Contents.rowsOf, PhysicalPlan.newNestedLoopJoin, PhysicalPlan.rows,
    show left.rows _ = some ls from hls, show right.rows _ = some rs from hrs, Option.bind_some,
    Option.bind_some, ← Option.isSome_iff_exists, collect_isSome]
  intro l hl
  rw [collect_isSome]
  intro r hr
  obtain ⟨b, hb⟩ := h l hl r hr
  rw [PhysicalPlan.keep, hb]
  rfl

/-- **Step.** Whatever join the costs pick, it returns, and its rows are put together of one table more. -/
theorem InTurn.returns (h : InTurn db all done join) (hls : db.rowsOf plan = some ls)
    (hdone : ∀ l ∈ ls, Assembled db done l) : ∃ out,
      db.rowsOf (db.joinClause id plan join) = some out ∧
        ∀ row ∈ out, Assembled db (join.table :: done) row := by
  have hscan : db.rowsOf join.scan = some (db.tagged join.table) := rowsOf_newScan h.known
  have hnested : ∃ out, db.rowsOf (.newNestedLoopJoin plan join.scan join.onCondition) = some out :=
    rowsOf_newNestedLoopJoin hls hscan fun l hl r hr => h.evalBool_pair (hdone l hl) hr
  have hsome : ∃ out, db.rowsOf (db.joinClause id plan join) = some out := by
    cases hrefs : join.refs with
    | none =>
      rw [joinClause_of_none hrefs]
      exact hnested
    | some refs =>
      obtain ⟨nextRef, accRef⟩ := refs
      obtain ⟨hacc, hnext⟩ := h.find_sides hrefs
      rw [joinClause_of_some hrefs]
      split
      · split
        · exact ⟨_, rowsOf_hashJoin _ hls hscan (fun l hl => hacc l (hdone l hl)) hnext⟩
        · exact ⟨_, rowsOf_hashJoin _ hscan hls hnext fun l hl => hacc l (hdone l hl)⟩
      · exact hnested
  obtain ⟨out, hout⟩ := hsome
  refine ⟨out, hout, fun row hrow => ?_⟩
  have hnew : ∀ ls', db.rowsOf plan = some ls' → ∀ l ∈ ls', l.blocks join.table.name = [] := by
    intro ls' hls' l hl
    obtain rfl := Option.some.inj (hls.symm.trans hls')
    exact (hdone l hl).rest _ h.new
  obtain ⟨ls', hls', hblocks⟩ := blocksOf_joinClause h.known h.qualified hnew hout
  obtain rfl := Option.some.inj (hls.symm.trans hls')
  have hmem : row.blocks ∈ blocksOf out := mem_blocksOf.mpr ⟨row, hrow, rfl⟩
  rw [hblocks] at hmem
  obtain ⟨⟨r, hr, _, henv, heq⟩, -⟩ := Joins.Step.mem_join.mp hmem
  obtain ⟨l, hl, rfl⟩ := mem_blocksOf.mp henv
  exact (hdone l hl).cons hr h.new heq.symm

/-- **Run.** The joins of a well-typed query return, in every order in which they are connected. -/
theorem joins_return {order : List JoinClause} (hdistinct : (all.map TableRef.name).Nodup)
    (hsub : order.map (·.table) ++ done ⊆ all)
    (hnodup : ((order.map (·.table) ++ done).map TableRef.name).Nodup)
    (hknown : ∀ join ∈ order, ∃ t, db join.table.table = some t)
    (hconn : ConnectedInOrder (done.map TableRef.name) order)
    (hq : ∀ join ∈ order, join.onCondition.Qualified)
    (htyped : ∀ join ∈ order, join.onCondition.WellTyped (all.flatMap db.fieldTypes))
    (hsides : ∀ join ∈ order, ∀ nextRef accRef, join.refs = some (nextRef, accRef) →
      accRef.table ≠ some join.table.name)
    (hls : db.rowsOf plan = some ls) (hdone : ∀ l ∈ ls, Assembled db done l) :
    ∃ out, db.rowsOf (order.foldl (db.joinClause id) plan) = some out ∧
      ∀ row ∈ out, Assembled db (order.map (·.table) ++ done) row := by
  induction order generalizing plan ls done with
  | nil => exact ⟨ls, hls, hdone⟩
  | cons join order ih =>
    have hmid : (order.map (·.table) ++ join.table :: done).Perm
        ((join :: order).map (·.table) ++ done) := List.perm_middle
    have hnodup' := (hmid.map TableRef.name).nodup_iff.mpr hnodup
    obtain ⟨hjoinknown, hknown⟩ := List.forall_mem_cons.mp hknown
    obtain ⟨hjoinq, hq⟩ := List.forall_mem_cons.mp hq
    obtain ⟨hjointyped, htyped⟩ := List.forall_mem_cons.mp htyped
    obtain ⟨hjoinsides, hsides⟩ := List.forall_mem_cons.mp hsides
    have hsub' : order.map (·.table) ++ join.table :: done ⊆ all := fun ref href =>
      hsub (hmid.mem_iff.mp href)
    have hjoin : InTurn db all done join :=
      { distinct := hdistinct
        subset := fun ref href => hsub' (List.mem_append_right _ href)
        nodup := by
          rw [List.map_append] at hnodup'
          exact hnodup'.of_append_right
        known := hjoinknown
        connected := hconn.1
        qualified := hjoinq
        typed := hjointyped
        sides := hjoinsides }
    obtain ⟨out, hout, hassembled⟩ := hjoin.returns hls hdone
    obtain ⟨out', hout', hassembled'⟩ :=
      ih hsub' hnodup' hknown hconn.2 hq htyped hsides hout hassembled
    exact ⟨out', hout', fun row hrow => (hassembled' row hrow).perm hmid⟩

end

/-! ## The result -/

section

variable {cat : Catalog} {db : Contents} {stmt : SelectStmt}

theorem rowsOf_filter_of_typed {input : PhysicalPlan} {p : Expr} {rs : List ExecRow}
    (hrs : db.rowsOf input = some rs) (h : ∀ row ∈ rs, ∃ b, evalBool row p = .ok b) :
    db.rowsOf (.filter input p) = some (rs.filter (·.satisfies p)) := by
  have hsome : ∃ out, db.rowsOf (.filter input p) = some out := by
    rw [Contents.rowsOf, PhysicalPlan.rows, show input.rows _ = some rs from hrs, Option.bind_some,
      ← Option.isSome_iff_exists, collect_isSome]
    intro row hrow
    obtain ⟨b, hb⟩ := h row hrow
    rw [PhysicalPlan.keep, hb]
    rfl
  obtain ⟨out, hout⟩ := hsome
  obtain ⟨rs', hrs', rfl⟩ := rowsOf_filter hout
  obtain rfl := Option.some.inj (hrs.symm.trans hrs')
  exact hout

/-- **A well-typed `SELECT` returns**: on no row does an expression throw, in whatever order and with
whatever operators the joins are planned. -/
theorem select_returns (h : cat.Shows db) (hvalid : validateStatement cat (.select stmt) = .ok ())
    (htyped : db.WellTyped stmt) : ∃ rows, cat.Selects stmt rows := by
  have haccepts := h.accepts hvalid
  have hperm := joinOrder_perm db [stmt.from.name] stmt.joins
  have htables : (((db.joinOrder stmt.joins.length [stmt.from.name] stmt.joins).map (·.table))
      ++ [stmt.from]).Perm stmt.tables :=
    (List.perm_append_singleton _ _).trans ((hperm.map _).cons _)
  have hfrom : ∃ t, db stmt.from.table = some t := haccepts.known _ List.mem_cons_self
  have hknown : ∀ join ∈ stmt.joins, ∃ t, db join.table.table = some t := fun join hjoin =>
    haccepts.known _ (List.mem_cons_of_mem _ (List.mem_map.mpr ⟨join, hjoin, rfl⟩))
  obtain ⟨rs, hrs, hassembled⟩ := joins_return haccepts.distinct htables.subset
    ((htables.map TableRef.name).nodup_iff.mpr haccepts.distinct)
    (fun join hjoin => hknown join (hperm.mem_iff.mp hjoin))
    (haccepts.connectedInOrder.joinOrder db)
    (fun join hjoin => htyped.qualified join (hperm.mem_iff.mp hjoin))
    (fun join hjoin => htyped.conditions join (hperm.mem_iff.mp hjoin))
    (fun join hjoin => htyped.sides join (hperm.mem_iff.mp hjoin))
    (rowsOf_newScan hfrom) fun l hl => assembled_of_mem_tagged hl
  have hrs : db.rowsOf (db.joinPlan id stmt) = some rs := hrs
  have hfinds : ∀ row ∈ rs, ∀ ref, Finds row (stmt.tables.flatMap db.fieldTypes) ref :=
    fun row hrow => ((hassembled row hrow).perm htables).finds haccepts.distinct
  -- what is projected are some of the rows of the joins
  have hproject : ∀ {input kept}, db.rowsOf input = some kept → kept ⊆ rs →
      ∃ out, db.rowsOf (.project input stmt.isStar stmt.selectItems) = some out := by
    intro input kept hkept hsub
    rw [Contents.rowsOf, PhysicalPlan.rows, show input.rows _ = some kept from hkept,
      Option.bind_some, ← collect_singleton, ← Option.isSome_iff_exists, collect_isSome]
    intro row hrow
    rw [PhysicalPlan.projectRow]
    cases hstar : stmt.isStar with
    | true => rfl
    | false =>
      obtain ⟨row', hrow'⟩ := projectFields_of_finds fun item hitem =>
        ⟨hfinds row (hsub hrow) ⟨item.table, item.column⟩, htyped.items hstar item hitem⟩
      rw [if_neg Bool.false_ne_true, hrow']
      rfl
  have hrows : ∃ rows, db.rowsOf (db.selectPlan id stmt) = some rows := by
    rw [Contents.selectPlan]
    cases hwhere : stmt.where with
    | none => exact hproject hrs (List.Subset.refl rs)
    | some predicate =>
      have hkept := rowsOf_filter_of_typed hrs fun row hrow =>
        evalBool_of_wellTyped (fun ref _ => hfinds row hrow ref) (htyped.predicate _ hwhere)
      exact hproject hkept fun row hrow => List.mem_of_mem_filter hrow
  obtain ⟨rows, hrows⟩ := hrows
  exact ⟨rows, (h.selects_iff hvalid).mpr hrows⟩

end

/-- An equality of two numbers. -/
theorem wellTyped_leftJoinRight :
    (Contents.ofTables [leftTable, rightTable]).WellTyped (leftJoinRight .eq) where
  qualified := by decide
  conditions join hjoin := by
    obtain rfl := List.mem_singleton.mp hjoin
    exact ⟨.integer, by decide +kernel, by decide +kernel⟩
  sides join hjoin nextRef accRef hrefs := by
    obtain rfl := List.mem_singleton.mp hjoin
    have hsides := Option.some.inj (hrefs.symm.trans
      (show _ = some ((⟨some (text "b"), text "id"⟩ : ColumnRef),
        (⟨some (text "a"), text "id"⟩ : ColumnRef)) by decide +kernel))
    obtain ⟨rfl, rfl⟩ := Prod.mk.inj hsides
    decide +kernel
  predicate p hp := by cases hp
  items hstar := by cases hstar

theorem select_returns_equality : ∃ (cat : Catalog) (db : Contents) (rows : List ExecRow),
    cat.Reached ∧ cat.Shows db ∧ db.WellTyped (leftJoinRight .eq) ∧
      cat.Selects (leftJoinRight .eq) rows := by
  obtain ⟨cat, hreached, htables, hvalid, -⟩ := exists_hasLeftRight
  obtain ⟨db, h⟩ := hreached.shows
  obtain rfl := h.eq_ofTables htables
  obtain ⟨rows, hrows⟩ := select_returns h hvalid wellTyped_leftJoinRight
  exact ⟨cat, _, rows, hreached, h, wellTyped_leftJoinRight, hrows⟩

end Reldb
