import Reldb.Query.Header
import Reldb.Query.JoinLoop

/-!
# Reldb — the columns of `SELECT *`

A row of `SELECT *` lists whole tables, each in schema order, in the order the plan's joins put them: a hash
join built on the plan so far puts the new table before it, every other join puts it behind.
-/

namespace Reldb

namespace Contents

variable (db : Contents)

end Contents

namespace SelectStmt

/-- The tables of a `SELECT`, in textual order, with the names they go by. -/
def scans (stmt : SelectStmt) : List (Bytes × Bytes) :=
  stmt.tables.map fun ref => (ref.table, ref.name)

end SelectStmt

/-! ## The clauses in textual order -/

section

variable {db : Contents} {joined : List Bytes} {joins order : List JoinClause} {join : JoinClause}
  {plan : PhysicalPlan} {refs : List TableRef}

/-- The tables a valid expression mentions are among those in sight. -/
theorem mem_of_validateColumnRefsIn {e : Expr}
    (h : validateColumnRefsIn (db.aliasMap refs) e = .ok ()) :
    ∀ t ∈ collectReferencedTables e, t ∈ refs.map TableRef.name := by
  intro t ht
  have hmem := mem_of_valid_refs h t ht
  rwa [Contents.aliasMap, List.map_map] at hmem

/-- Every clause is connected to the tables before it. -/
def ConnectedInOrder : List Bytes → List JoinClause → Prop
  | _, [] => True
  | joined, join :: joins =>
    join.connected joined = true ∧ ConnectedInOrder (join.table.name :: joined) joins

theorem connected_of_mem (h : ∀ t ∈ collectReferencedTables join.onCondition,
    t = join.table.name ∨ t ∈ joined) : join.connected joined = true := by
  rw [JoinClause.connected, TableNode.connected, List.all_eq_true]
  intro t ht
  obtain ⟨ht, hne⟩ := List.mem_filter.mp ht
  rcases h t ht with rfl | hmem
  · exact absurd rfl (of_decide_eq_true hne)
  · exact decide_eq_true hmem

theorem connectedInOrder (refs : List TableRef) (hjoined : ∀ t ∈ refs.map TableRef.name, t ∈ joined)
    (h : ∀ before join after, joins = before ++ join :: after → validateColumnRefsIn
      (db.aliasMap (refs ++ before.map (·.table) ++ [join.table])) join.onCondition = .ok ()) :
    ConnectedInOrder joined joins := by
  induction joins generalizing refs joined with
  | nil => trivial
  | cons join joins ih =>
    have hfirst := h [] join joins rfl
    rw [List.map_nil, List.append_nil] at hfirst
    refine ⟨connected_of_mem fun t ht => ?_, ih (refs ++ [join.table]) ?_ ?_⟩
    · have hmem := mem_of_validateColumnRefsIn hfirst t ht
      rw [List.map_append, List.mem_append] at hmem
      rcases hmem with hmem | hmem
      · exact .inr (hjoined t hmem)
      · exact .inl (List.mem_singleton.mp hmem)
    · intro t ht
      rw [List.map_append, List.mem_append] at ht
      rcases ht with ht | ht
      · exact List.mem_cons_of_mem _ (hjoined t ht)
      · exact List.mem_singleton.mp ht ▸ List.mem_cons_self
    · intro before join' after hsplit
      have := h (join :: before) join' after (congrArg (join :: ·) hsplit)
      rwa [List.map_cons, List.append_cons refs] at this

theorem Contents.Accepts.connectedInOrder {stmt : SelectStmt} (h : db.Accepts stmt) :
    ConnectedInOrder [stmt.from.name] stmt.joins :=
  Reldb.connectedInOrder [stmt.from] (fun _ ht => ht) h.conditions

end

/-! ## Where a join puts its table -/

/-- The table of a clause, with the name it goes by. -/
def JoinClause.pair (join : JoinClause) : Bytes × Bytes := (join.table.table, join.table.name)

section

variable {db : Contents} {joins order : List JoinClause} {join : JoinClause} {plan : PhysicalPlan}
  {stmt : SelectStmt}

end

/-! ## The result -/

/-- With enough fuel the plan of a `SELECT` gives these rows, and its result is made of them. -/
def Catalog.Selects (cat : Catalog) (stmt : SelectStmt) (rows : List ExecRow) : Prop :=
  ∃ n, ∀ fuel, n ≤ fuel → ∃ plan plan' cat₁ cat₂,
    buildPhysicalPlan reads (buildLogicalPlan stmt) cat = .ok plan cat₁ ∧
      plan.run reads fuel cat₁ = .ok (rows, plan') cat₂ ∧
      Engine.executeSelect reads fuel stmt cat = .ok (Engine.collectResult rows) cat₂

section

variable {cat : Catalog} {db : Contents} {stmt : SelectStmt} {rows : List ExecRow}
  {ss : List (Bytes × Bytes)}

theorem Catalog.Shows.selects_iff (h : cat.Shows db)
    (hvalid : validateStatement cat (.select stmt) = .ok ()) :
    cat.Selects stmt rows ↔ db.rowsOf (db.selectPlan id stmt) = some rows := by
  obtain ⟨cat₁, h₁, hbuild⟩ := h.buildPhysicalPlan (Catalog.reads_agree db)
    (fun a b => UInt64.lt_iff_toNat_lt) hvalid
  rw [← h₁.produces_iff]
  refine exists_congr fun n => forall₂_congr fun fuel hfuel => ?_
  constructor
  · rintro ⟨plan, plan', _, cat₂, hplan, hrows, -⟩
    rw [hbuild] at hplan
    obtain ⟨rfl, rfl⟩ := EStateM.Result.ok.inj hplan
    exact ⟨plan', cat₂, hrows⟩
  · rintro ⟨plan', cat₂, hrows⟩
    refine ⟨_, plan', cat₁, cat₂, hbuild, hrows, ?_⟩
    rw [Engine.executeSelect, Prog.bind_ok hbuild, Prog.bind_ok hrows]
    rfl

end

/-- A table of two rows, to be joined with the next. -/
def leftTable : TableContents where
  schema := ⟨text "a", [⟨text "id", .integer, true⟩, ⟨text "x", .integer, false⟩]⟩
  rows := [[.int 1, .int 10], [.int 2, .int 20]]
  count := 2
  valid := ⟨rfl, by decide⟩
  stored := TableContents.stored_of_all (by decide +kernel)

def rightTable : TableContents where
  schema := ⟨text "b", [⟨text "id", .integer, true⟩, ⟨text "y", .integer, false⟩]⟩
  rows := [[.int 1, .int 30], [.int 2, .int 40]]
  count := 2
  valid := ⟨rfl, by decide⟩
  stored := TableContents.stored_of_all (by decide +kernel)

/-- The calls that make the two tables. -/
def leftRightOps : List CatalogOp :=
  [.createTable (text "a") leftTable.schema.columns, .createTable (text "b") rightTable.schema.columns,
    .insertRow (text "a") [.int 1, .int 10], .insertRow (text "a") [.int 2, .int 20],
    .insertRow (text "b") [.int 1, .int 30], .insertRow (text "b") [.int 2, .int 40]]

/-- `SELECT * FROM a JOIN b ON a.id op b.id`. -/
def leftJoinRight (op : ComparisonOp) : SelectStmt where
  isStar := true
  selectItems := []
  «from» := ⟨text "a", none⟩
  joins := [⟨⟨text "b", none⟩, .comparison op (.columnRef (some (text "a")) (text "id"))
    (.columnRef (some (text "b")) (text "id"))⟩]
  «where» := none

def HasLeftRight (cat : Catalog) : Prop :=
  cat.HasTables [leftTable, rightTable] ∧
    validateStatement cat (.select (leftJoinRight .eq)) = .ok () ∧
    validateStatement cat (.select (leftJoinRight .lt)) = .ok ()

instance : DecidablePred HasLeftRight := fun _ => inferInstanceAs (Decidable (_ ∧ _ ∧ _))

theorem exists_hasLeftRight : ∃ cat : Catalog, cat.Reached ∧ HasLeftRight cat :=
  Catalog.exists_reached 4 leftRightOps (by decide +kernel)

end Reldb
