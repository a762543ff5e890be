import Reldb.Query.Contents

/-!
# Reldb — what validation makes sure of

A `SELECT` that `ValidateStatement` accepts names tables that exist under names that differ, and each of
its column references is one of the tables up to its clause.
-/

namespace Reldb

namespace SelectStmt

/-- The tables of the `FROM` and `JOIN` clauses, in textual order. -/
def tables (stmt : SelectStmt) : List TableRef := stmt.from :: stmt.joins.map (·.table)

end SelectStmt

namespace Contents

/-- The schema of a table. -/
def schemaOf (db : Contents) (name : Bytes) : TableSchema :=
  match db name with
  | some t => t.schema
  | none => ⟨name, []⟩

/-- The names tables go by, with their schemas. -/
def aliasMap (db : Contents) (refs : List TableRef) : AliasMap :=
  refs.map fun ref => (ref.name, db.schemaOf ref.table)

/-- What is known of a `SELECT` that passed: its tables exist, their names differ, and the references of
each clause resolve among the tables it sees. -/
structure Accepts (db : Contents) (stmt : SelectStmt) : Prop where
  known : ∀ ref ∈ stmt.tables, ∃ t, db ref.table = some t
  distinct : (stmt.tables.map TableRef.name).Nodup
  conditions : ∀ (before : List JoinClause) (join : JoinClause) (after : List JoinClause),
    stmt.joins = before ++ join :: after → validateColumnRefsIn
      (db.aliasMap (stmt.from :: before.map (·.table) ++ [join.table])) join.onCondition = .ok ()
  items : stmt.isStar = false → ∀ item ∈ stmt.selectItems,
    validateSelectItem (db.aliasMap stmt.tables) item = .ok ()
  predicate : ∀ p, stmt.where = some p →
    validateColumnRefsIn (db.aliasMap stmt.tables) p = .ok ()

end Contents

section

variable {cat : Catalog} {db : Contents} {aliases aliases' : AliasMap} {ref : TableRef}
  {refs : List TableRef}

theorem Except.bind_eq_ok {ε α β : Type} {x : Except ε α} {f : α → Except ε β} {b : β} :
    (x >>= f) = .ok b ↔ ∃ a, x = .ok a ∧ f a = .ok b := by
  cases x with
  | error e => exact ⟨nofun, fun ⟨a, h, _⟩ => by cases h⟩
  | ok a => exact ⟨fun h => ⟨a, rfl, h⟩, fun ⟨a', h, h'⟩ => by cases h; exact h'⟩

theorem find_aliasMap_eq_none {name : Bytes} (h : ((db.aliasMap refs).find name).isSome = false) :
    name ∉ refs.map TableRef.name := by
  intro hmem
  obtain ⟨ref, href, rfl⟩ := List.mem_map.mp hmem
  have hsome : ((db.aliasMap refs).find ref.name).isSome = true := by
    rw [AliasMap.find, Option.isSome_map, List.find?_isSome]
    exact ⟨_, List.mem_map.mpr ⟨ref, href, rfl⟩, beq_self_eq_true _⟩
  rw [hsome] at h
  cases h

theorem Catalog.Shows.addTable_ok (h : cat.Shows db) (hnodup : (refs.map TableRef.name).Nodup)
    (hadd : addTable cat (db.aliasMap refs) ref = .ok aliases') :
    (∃ t, db ref.table = some t) ∧ ((refs ++ [ref]).map TableRef.name).Nodup ∧
      aliases' = db.aliasMap (refs ++ [ref]) := by
  rw [addTable, h.tableExists, h.getSchema] at hadd
  cases htable : db ref.table with
  | none =>
    rw [htable] at hadd
    cases hadd
  | some t =>
    simp only [htable, Contents.table, Option.isSome_some, Bool.not_true, Bool.false_eq_true,
      if_false] at hadd
    cases hfind : ((db.aliasMap refs).find ref.name).isSome with
    | true =>
      simp only [hfind, if_true] at hadd
      cases hadd
    | false =>
      simp only [hfind, Bool.false_eq_true, if_false] at hadd
      refine ⟨⟨t, rfl⟩, ?_, ?_⟩
      · rw [List.map_append]
        exact hnodup.append (List.nodup_singleton _) fun name hname hmem =>
          find_aliasMap_eq_none hfind (List.mem_singleton.mp hmem ▸ hname)
      · rw [Contents.aliasMap, List.map_append]
        obtain rfl := Except.ok.inj hadd
        simp only [Contents.aliasMap, List.map_cons, List.map_nil, Contents.schemaOf, htable]

/-- The loop over the `JOIN` clauses. -/
theorem Catalog.Shows.validateJoins_ok (h : cat.Shows db) {joins : List JoinClause}
    (hnodup : (refs.map TableRef.name).Nodup)
    (hjoins : validateJoins cat (db.aliasMap refs) joins = .ok aliases') :
    (∀ join ∈ joins, ∃ t, db join.table.table = some t) ∧
      ((refs ++ joins.map (·.table)).map TableRef.name).Nodup ∧
      (∀ before join after, joins = before ++ join :: after → validateColumnRefsIn
        (db.aliasMap (refs ++ before.map (·.table) ++ [join.table])) join.onCondition = .ok ()) ∧
      aliases' = db.aliasMap (refs ++ joins.map (·.table)) := by
  induction joins generalizing refs with
  | nil =>
    cases hjoins
    rw [List.map_nil, List.append_nil]
    refine ⟨nofun, hnodup, fun before join after hsplit => ?_, rfl⟩
    cases (List.append_eq_nil_iff.mp hsplit.symm).2
  | cons join joins ih =>
    rw [validateJoins] at hjoins
    obtain ⟨aliases₁, hadd, hjoins⟩ := Except.bind_eq_ok.mp hjoins
    obtain ⟨⟨⟩, hcond, hjoins⟩ := Except.bind_eq_ok.mp hjoins
    obtain ⟨hknown, hnodup₁, rfl⟩ := h.addTable_ok hnodup hadd
    obtain ⟨hknowns, hnodup₂, hconds, heq⟩ := ih hnodup₁ hjoins
    rw [List.append_assoc] at hnodup₂ heq
    refine ⟨List.forall_mem_cons.mpr ⟨hknown, hknowns⟩, hnodup₂, ?_, heq⟩
    intro before join' after hsplit
    cases before with
    | nil =>
      obtain ⟨rfl, -⟩ := List.cons.inj hsplit
      rw [List.map_nil, List.append_nil]
      exact hcond
    | cons join₁ before =>
      obtain ⟨rfl, htail⟩ := List.cons.inj hsplit
      have := hconds before join' after htail
      rwa [List.append_assoc refs, List.singleton_append] at this

theorem forM_ok {α : Type} {f : α → Except Exn Unit} {as : List α} (h : as.forM f = .ok ()) :
    ∀ a ∈ as, f a = .ok () := by
  induction as with
  | nil => nofun
  | cons a as ih =>
    obtain ⟨⟨⟩, ha, hrest⟩ := Except.bind_eq_ok.mp h
    exact List.forall_mem_cons.mpr ⟨ha, ih hrest⟩

/-- **What `ValidateStatement` makes sure of.** -/
theorem Catalog.Shows.accepts (h : cat.Shows db) {stmt : SelectStmt}
    (hvalid : validateStatement cat (.select stmt) = .ok ()) : db.Accepts stmt := by
  have hvalid : validateSelect cat stmt = .ok () := hvalid
  rw [validateSelect] at hvalid
  obtain ⟨aliases₁, hadd, hvalid⟩ := Except.bind_eq_ok.mp hvalid
  obtain ⟨aliases₂, hjoins, hvalid⟩ := Except.bind_eq_ok.mp hvalid
  have hadd : addTable cat (db.aliasMap []) stmt.from = .ok aliases₁ := hadd
  have hnil : (([] : List TableRef).map TableRef.name).Nodup := .nil
  obtain ⟨hknown, hnodup, rfl⟩ := h.addTable_ok hnil hadd
  obtain ⟨hknowns, hnodup, hconds, rfl⟩ := h.validateJoins_ok hnodup hjoins
  have hrest : (stmt.isStar = false →
      stmt.selectItems.forM (validateSelectItem (db.aliasMap stmt.tables)) = .ok ()) ∧
      ∀ p, stmt.where = some p → validateColumnRefsIn (db.aliasMap stmt.tables) p = .ok () := by
    have haliases : stmt.tables = [] ++ [stmt.from] ++ stmt.joins.map (·.table) := rfl
    rw [← haliases] at hvalid
    cases hstar : stmt.isStar with
    | true =>
      simp only [hstar, Bool.not_true, Bool.false_eq_true, if_false] at hvalid
      refine ⟨nofun, fun p hp => ?_⟩
      rw [hp] at hvalid
      exact hvalid
    | false =>
      simp only [hstar, Bool.not_false, if_true] at hvalid
      obtain ⟨⟨⟩, hitems, hvalid⟩ := Except.bind_eq_ok.mp hvalid
      refine ⟨fun _ => hitems, fun p hp => ?_⟩
      rw [hp] at hvalid
      exact hvalid
  refine ⟨?_, hnodup, hconds, fun hstar => forM_ok (hrest.1 hstar), hrest.2⟩
  intro ref href
  rcases List.mem_cons.mp href with rfl | href
  · exact hknown
  · obtain ⟨join, hjoin, rfl⟩ := List.mem_map.mp href
    exact hknowns join hjoin

end

end Reldb
