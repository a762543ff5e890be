import Mathlib.Data.Multiset.Bind
import Reldb.Query.Contents

/-!
# Reldb — the fields of a plan's rows

Every row of a plan has the fields of the plan's header, table by table and column by column. Rows are
compared as bags of bags of fields: neither their order nor that of their fields matters.
-/

namespace Reldb

open Multiset

/-! ## Finding a field -/

namespace ExecRow

/-- The tables and columns of a row's fields. -/
def names (row : ExecRow) : List (Bytes × Bytes) := row.map fun f => (f.table, f.column)

section

variable {row row' : ExecRow} {t c : Bytes}

theorem names_append (row row' : ExecRow) : names (row ++ row') = names row ++ names row' :=
  List.map_append

theorem find_qualified (row : ExecRow) (t c : Bytes) : row.find ⟨some t, c⟩ =
    match List.find? (fun f => f.table == t && f.column == c) row with
    | some f => .ok f.value
    | none => .error (.columnResolutionError (text "no column '" ++ t ++ text "." ++ c ++
        text "' in this row")) := rfl

theorem find?_of_mem_names (h : (t, c) ∈ row.names) :
    ∃ f, List.find? (fun f : Field => f.table == t && f.column == c) row = some f := by
  rw [← Option.isSome_iff_exists, List.find?_isSome]
  obtain ⟨f, hf, heq⟩ := List.mem_map.mp h
  obtain ⟨rfl, rfl⟩ := Prod.mk.inj heq
  exact ⟨f, hf, by simp⟩

theorem find_of_mem_names (h : (t, c) ∈ row.names) : ∃ v, row.find ⟨some t, c⟩ = .ok v := by
  obtain ⟨f, hf⟩ := find?_of_mem_names h
  exact ⟨f.value, by rw [find_qualified, hf]⟩

/-- A qualified reference to a column of the first part. -/
theorem find_append_left (h : (t, c) ∈ row.names) :
    (row ++ row' : ExecRow).find ⟨some t, c⟩ = row.find ⟨some t, c⟩ := by
  obtain ⟨f, hf⟩ := find?_of_mem_names h
  rw [find_qualified, find_qualified, List.find?_append, hf]
  rfl

/-- A qualified reference to a table that the first part has no field of. -/
theorem find_append_right (h : ∀ n ∈ row.names, n.1 ≠ t) :
    (row ++ row' : ExecRow).find ⟨some t, c⟩ = row'.find ⟨some t, c⟩ := by
  have hnone : List.find? (fun f : Field => f.table == t && f.column == c) row = none := by
    rw [List.find?_eq_none]
    intro f hf
    have hne := h _ (List.mem_map.mpr ⟨f, hf, rfl⟩)
    simp [hne]
  rw [find_qualified, find_qualified, List.find?_append, hnone]
  rfl

end

end ExecRow

/-! ## Headers -/

namespace PhysicalPlan

/-- The tables and columns of the fields of a plan's rows. -/
def header (db : Contents) : PhysicalPlan → List (Bytes × Bytes)
  | .scan table aliasName _ =>
    match db table with
    | some t => t.schema.columns.map fun col => (aliasName, col.name)
    | none => []
  | .filter input _ => input.header db
  | .nestedLoopJoin left right _ _ => left.header db ++ right.header db
  | .hashJoin buildSide probeSide _ _ _ => probeSide.header db ++ buildSide.header db
  | .project input isStar items =>
    if isStar then input.header db
    else items.map fun item => (item.table.getD [], item.aliasName.getD item.column)

end PhysicalPlan

/-- The rows of a plan over the contents. -/
def Contents.rowsOf (db : Contents) (plan : PhysicalPlan) : Option (List ExecRow) :=
  plan.rows (db.reads id)

section

variable {db : Contents} {rows : List ExecRow} {row : ExecRow}

theorem names_tagFields {aliasName : Bytes} {cols : List ColumnDef} {values : List Value}
    (h : PhysicalPlan.tagFields aliasName cols values = .ok row) :
    row.names = cols.map fun col => (aliasName, col.name) := by
  induction cols generalizing values row with
  | nil =>
    cases h
    rfl
  | cons col cols ih =>
    cases values with
    | nil => cases h
    | cons value values =>
      rw [PhysicalPlan.tagFields] at h
      cases hrest : PhysicalPlan.tagFields aliasName cols values with
      | error e =>
        rw [hrest] at h
        cases h
      | ok rest =>
        rw [hrest] at h
        cases h
        exact congrArg _ (ih hrest)

/-- The fields a scan makes of a stored row. -/
def fieldsOf (aliasName : Bytes) (cols : List ColumnDef) (values : List Value) : ExecRow :=
  List.zipWith (fun col value => ⟨aliasName, col.name, value⟩) cols values

theorem tagFields_eq (aliasName : Bytes) {cols : List ColumnDef} {values : List Value}
    (h : values.length = cols.length) :
    PhysicalPlan.tagFields aliasName cols values = .ok (fieldsOf aliasName cols values) := by
  induction cols generalizing values with
  | nil => rfl
  | cons col cols ih =>
    cases values with
    | nil => cases h
    | cons value values =>
      rw [PhysicalPlan.tagFields, ih (Nat.succ.inj h)]
      rfl

/-- The rows of a scan are the table's. -/
theorem rowsOf_scan {table aliasName : Bytes} {c : ScanCursor} {t : TableContents}
    (h : db table = some t) : db.rowsOf (.scan table aliasName c)
      = some (t.rows.map (fieldsOf aliasName t.schema.columns)) := by
  rw [Contents.rowsOf, PhysicalPlan.rows]
  simp only [Contents.reads, Contents.table, h, Except.map, Except.toOption, Option.bind_some]
  refine mapM_of_some fun values hvalues => ?_
  obtain ⟨pair, hpair⟩ := t.stored values hvalues
  have hfields := tagFields_eq aliasName (Catalog.length_of_rowOf hpair)
  simp only [PhysicalPlan.tagRow, h, Except.bind, hfields]

theorem names_projectFields {row' : ExecRow} {items : List SelectItem}
    (h : PhysicalPlan.projectFields row items = .ok row') :
    row'.names = items.map fun item => (item.table.getD [], item.aliasName.getD item.column) := by
  induction items generalizing row' with
  | nil =>
    cases h
    rfl
  | cons item items ih =>
    rw [PhysicalPlan.projectFields] at h
    cases hfind : row.find ⟨item.table, item.column⟩ with
    | error e =>
      rw [hfind] at h
      cases h
    | ok value =>
      cases hrest : PhysicalPlan.projectFields row items with
      | error e =>
        simp only [hfind, hrest] at h
        cases h
      | ok rest =>
        simp only [hfind, hrest] at h
        cases h
        exact congrArg _ (ih hrest)

theorem exists_of_mem_mapM {α β : Type} {f : α → Option β} {as : List α} {bs : List β} {b : β}
    (h : as.mapM f = some bs) (hb : b ∈ bs) : ∃ a ∈ as, f a = some b := by
  induction as generalizing bs with
  | nil =>
    cases h
    cases hb
  | cons a as ih =>
    rw [mapM_cons_option, Option.bind_eq_some_iff] at h
    obtain ⟨b', hb', hrest⟩ := h
    obtain ⟨bs', hbs', rfl⟩ := Option.map_eq_some_iff.mp hrest
    rcases List.mem_cons.mp hb with rfl | hb
    · exact ⟨a, List.mem_cons_self, hb'⟩
    · obtain ⟨a', ha', hf⟩ := ih hbs' hb
      exact ⟨a', List.mem_cons_of_mem a ha', hf⟩

theorem exists_of_mem_collect {α β : Type} {f : α → Option (List β)} {as : List α} {bs : List β}
    {b : β} (h : collect f as = some bs) (hb : b ∈ bs) : ∃ a ∈ as, ∃ l, f a = some l ∧ b ∈ l := by
  obtain ⟨hsome, rfl⟩ := collect_eq_some.mp h
  obtain ⟨a, ha, hb⟩ := List.mem_flatMap.mp hb
  obtain ⟨l, hl⟩ := Option.isSome_iff_exists.mp (hsome a ha)
  rw [hl] at hb
  exact ⟨a, ha, l, hl, hb⟩

/-- A row kept is the row. -/
theorem eq_of_mem_keep {condition : Expr} {row' : ExecRow} {l : List ExecRow}
    (h : (PhysicalPlan.keep condition row).toOption.map Option.toList = some l) (hmem : row' ∈ l) :
    row' = row := by
  rw [PhysicalPlan.keep] at h
  cases hb : evalBool row condition with
  | error e =>
    rw [hb] at h
    cases h
  | ok b =>
    rw [hb] at h
    obtain rfl := Option.some.inj h
    cases b with
    | false => cases hmem
    | true => exact List.mem_singleton.mp hmem

/-- **Every row of a plan has the fields of its header.** -/
theorem names_of_mem_rowsOf {plan : PhysicalPlan} (h : db.rowsOf plan = some rows)
    (hrow : row ∈ rows) : row.names = plan.header db := by
  induction plan generalizing rows row with
  | scan table aliasName c =>
    rw [Contents.rowsOf, PhysicalPlan.rows, Option.bind_eq_some_iff] at h
    obtain ⟨stored, -, h⟩ := h
    obtain ⟨values, -, htag⟩ := exists_of_mem_mapM h hrow
    rw [PhysicalPlan.tagRow] at htag
    simp only [Contents.reads, Contents.table] at htag
    rw [PhysicalPlan.header]
    cases hdb : db table with
    | none =>
      rw [hdb] at htag
      cases htag
    | some t =>
      simp only [hdb, Except.map, Except.bind] at htag
      cases hfields : PhysicalPlan.tagFields aliasName t.schema.columns values with
      | error e =>
        rw [hfields] at htag
        cases htag
      | ok row' =>
        rw [hfields] at htag
        cases htag
        exact names_tagFields hfields
  | filter input predicate ih =>
    rw [Contents.rowsOf, PhysicalPlan.rows, Option.bind_eq_some_iff] at h
    obtain ⟨ins, hins, h⟩ := h
    obtain ⟨row', hmem, l, hl, hin⟩ := exists_of_mem_collect h hrow
    rw [eq_of_mem_keep hl hin]
    exact ih hins hmem
  | nestedLoopJoin left right condition c ihl ihr =>
    rw [Contents.rowsOf, PhysicalPlan.rows, Option.bind_eq_some_iff] at h
    obtain ⟨ls, hls, h⟩ := h
    obtain ⟨rs, hrs, h⟩ := Option.bind_eq_some_iff.mp h
    obtain ⟨l, hl, rows', hrows', hrow⟩ := exists_of_mem_collect h hrow
    obtain ⟨r, hr, rows'', hrows'', hrow⟩ := exists_of_mem_collect hrows' hrow
    rw [eq_of_mem_keep hrows'' hrow, ExecRow.names_append, ihl hls hl, ihr hrs hr]
    rfl
  | hashJoin buildSide probeSide buildColumn probeColumn c ihb ihp =>
    rw [Contents.rowsOf, PhysicalPlan.rows, Option.bind_eq_some_iff] at h
    obtain ⟨bs, hbs, h⟩ := h
    obtain ⟨table, htable, h⟩ := Option.bind_eq_some_iff.mp h
    obtain ⟨ps, hps, h⟩ := Option.bind_eq_some_iff.mp h
    obtain ⟨p, hp, l, hl, hrow⟩ := exists_of_mem_collect h hrow
    obtain ⟨key, -, rfl⟩ := Option.map_eq_some_iff.mp hl
    obtain ⟨b, hb, rfl⟩ := List.mem_map.mp hrow
    obtain ⟨⟨key', b'⟩, hmem, rfl⟩ := List.mem_map.mp hb
    obtain ⟨b₀, hb₀, heq⟩ := exists_of_mem_mapM htable (List.mem_of_mem_filter hmem)
    obtain ⟨key₀, -, heq⟩ := Option.map_eq_some_iff.mp heq
    obtain ⟨rfl, rfl⟩ := Prod.mk.inj heq
    rw [ExecRow.names_append, ihp hps hp, ihb hbs hb₀]
    rfl
  | project input isStar items ih =>
    rw [Contents.rowsOf, PhysicalPlan.rows, Option.bind_eq_some_iff] at h
    obtain ⟨ins, hins, h⟩ := h
    obtain ⟨row', hmem, hproj⟩ := exists_of_mem_mapM h hrow
    cases isStar with
    | true =>
      obtain rfl := Option.some.inj hproj
      exact ih hins hmem
    | false =>
      rw [PhysicalPlan.projectRow, if_neg Bool.false_ne_true] at hproj
      cases hfields : PhysicalPlan.projectFields row' items with
      | error e =>
        rw [hfields] at hproj
        cases hproj
      | ok row'' =>
        rw [hfields] at hproj
        cases hproj
        exact names_projectFields hfields

end

/-! ## Bags of rows -/

/-- Rows up to their order and that of their fields. -/
def bag (rows : List ExecRow) : Multiset (Multiset Field) :=
  ofList (rows.map fun row => ofList row)

theorem bag_flatMap {α : Type} (as : List α) (f : α → List ExecRow) :
    bag (as.flatMap f) = (as : Multiset α).bind fun a => bag (f a) := by
  rw [bag, List.map_flatMap]
  exact (coe_bind as fun a => (f a).map fun row => ofList row).symm

/-- Two runs both throw, or return the same rows. -/
def SameRows (x y : Option (List ExecRow)) : Prop := x.map bag = y.map bag

namespace Catalog

variable {cat : Catalog} {db : Contents} {p q : PhysicalPlan}

/-- Two plans, each run from `cat` with enough fuel, both throw, or return the same rows. -/
def PlansAgree (cat : Catalog) (p q : PhysicalPlan) : Prop :=
  ∃ n, ∀ fuel, n ≤ fuel → match p.run reads fuel cat, q.run reads fuel cat with
    | .ok (rows, _) _, .ok (rows', _) _ => bag rows = bag rows'
    | .error _ _, .error _ _ => True
    | _, _ => False

/-- A plan run on a catalog does what it does on the contents. -/
theorem Shows.run (h : cat.Shows db) (plan : PhysicalPlan) : ∃ x n,
    x.toOption.map Prod.fst = db.rowsOf plan ∧ ∀ fuel, n ≤ fuel → ∃ cat', cat'.Shows db ∧
      plan.run reads fuel cat = resultIn cat' x := by
  obtain ⟨x, ⟨n, hx⟩, hrows⟩ := PhysicalPlan.run_settles (db.reads id) plan
  refine ⟨x, n, hrows, fun fuel hfuel => ?_⟩
  obtain ⟨cat', h', hrun⟩ := plan.run_agrees (reads_agree db) fuel cat h
  exact ⟨cat', h', hrun.trans (congrArg _ (hx fuel hfuel))⟩

/-- With enough fuel a plan gives these rows from `Open` to exhaustion. -/
def Produces (cat : Catalog) (plan : PhysicalPlan) (rows : List ExecRow) : Prop :=
  ∃ n, ∀ fuel, n ≤ fuel → ∃ plan' cat', plan.run reads fuel cat = .ok (rows, plan') cat'

theorem Shows.produces_iff {rows : List ExecRow} (h : cat.Shows db) :
    cat.Produces p rows ↔ db.rowsOf p = some rows := by
  obtain ⟨x, n, hx, hrun⟩ := h.run p
  rw [← hx]
  constructor
  · rintro ⟨m, hm⟩
    obtain ⟨plan', _, hrows⟩ := hm (max n m) (le_max_right n m)
    obtain ⟨_, -, hsame⟩ := hrun (max n m) (le_max_left n m)
    rw [hsame] at hrows
    cases x with
    | error e => cases hrows
    | ok out =>
      obtain ⟨rfl, -⟩ := EStateM.Result.ok.inj hrows
      rfl
  · intro hrows
    cases x with
    | error e => cases hrows
    | ok out =>
      obtain ⟨rows', plan'⟩ := out
      obtain rfl := Option.some.inj hrows
      refine ⟨n, fun fuel hfuel => ?_⟩
      obtain ⟨cat', -, hsame⟩ := hrun fuel hfuel
      exact ⟨plan', cat', hsame⟩

/-- Plans are compared by their rows over the contents. -/
theorem Shows.plansAgree_iff (h : cat.Shows db) :
    cat.PlansAgree p q ↔ SameRows (db.rowsOf p) (db.rowsOf q) := by
  obtain ⟨x, n, hx, hrun⟩ := h.run p
  obtain ⟨y, n', hy, hrun'⟩ := h.run q
  rw [SameRows, ← hx, ← hy]
  have hboth : ∀ fuel, max n n' ≤ fuel → ((match p.run reads fuel cat, q.run reads fuel cat with
      | .ok (rows, _) _, .ok (rows', _) _ => bag rows = bag rows'
      | .error _ _, .error _ _ => True
      | _, _ => False) ↔ (x.toOption.map Prod.fst).map bag = (y.toOption.map Prod.fst).map bag) := by
    intro fuel hfuel
    obtain ⟨_, -, hp⟩ := hrun fuel (le_trans (le_max_left n n') hfuel)
    obtain ⟨_, -, hq⟩ := hrun' fuel (le_trans (le_max_right n n') hfuel)
    rw [hp, hq]
    cases x <;> cases y <;> simp [resultIn, Except.toOption]
  constructor
  · rintro ⟨m, hm⟩
    exact (hboth _ (le_max_left _ m)).mp (hm _ (le_max_right _ m))
  · exact fun hsame => ⟨max n n', fun fuel hfuel => (hboth fuel hfuel).mpr hsame⟩

end Catalog

end Reldb
