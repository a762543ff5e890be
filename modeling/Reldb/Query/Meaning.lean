import Reldb.Lib.Joins
import Reldb.Query.Blocks
import Reldb.Query.Columns

/-!
# Reldb — planning keeps the meaning

`LogicalNode.rows` says what a logical plan means: combinations of rows, kept where the conditions evaluate
to true. Planning reorders the joins, turns equalities into hash joins and picks their sides. Seen as blocks,
each of the joins is a `Joins.Step`, whichever operator runs it, so the rows that come out are the same.
-/

namespace Reldb

open Joins

/-! ## The meaning of a logical plan -/

namespace LogicalNode

/-- The rows a plan stands for; none where a table does not exist or an item cannot be projected. -/
def rows (db : Contents) : LogicalNode → Option (List ExecRow)
  | .scan table aliasName =>
    (db table).map fun t => t.rows.map (fieldsOf aliasName t.schema.columns)
  | .filter input predicate => (rows db input).map (List.filter (·.satisfies predicate))
  | .join left right condition => do
    let ls ← rows db left
    let rs ← rows db right
    return (ls.flatMap fun l => rs.map (l ++ ·)).filter (·.satisfies condition)
  | .project input isStar items => do
    let rs ← rows db input
    rs.mapM fun row => (PhysicalPlan.projectRow isStar items row).toOption

end LogicalNode

/-! ## Rows as blocks -/

/-- The blocks of every row. -/
def blocksOf (rows : List ExecRow) : Multiset (Bytes → ExecRow) := (rows.map ExecRow.blocks : List _)

/-- The rows of a table, tagged with the name it goes by. -/
def Contents.tagged (db : Contents) (ref : TableRef) : List ExecRow :=
  match db ref.table with
  | some t => t.rows.map (fieldsOf ref.name t.schema.columns)
  | none => []

/-- A clause as a step. -/
def JoinClause.step (db : Contents) (join : JoinClause) : Step Bytes ExecRow where
  name := join.table.name
  values := (db.tagged join.table : List ExecRow)
  holds := holdsIn join.onCondition

section

variable {db : Contents} {join : JoinClause} {ls rs out : List ExecRow} {a : Bytes}

theorem table_of_mem_fieldsOf {aliasName : Bytes} {cols : List ColumnDef} {values : List Value}
    {f : Field} (h : f ∈ fieldsOf aliasName cols values) : f.table = aliasName := by
  obtain ⟨i, hi, rfl⟩ := List.getElem_of_mem h
  simp only [fieldsOf, List.getElem_zipWith]

theorem table_of_mem_tagged {ref : TableRef} {row : ExecRow} (h : row ∈ db.tagged ref) :
    ∀ f ∈ row, f.table = ref.name := by
  rw [Contents.tagged] at h
  cases hdb : db ref.table with
  | none =>
    rw [hdb] at h
    cases h
  | some t =>
    rw [hdb] at h
    obtain ⟨values, -, rfl⟩ := List.mem_map.mp h
    exact fun f hf => table_of_mem_fieldsOf hf

theorem rowsOf_newScan {ref : TableRef} (h : ∃ t, db ref.table = some t) :
    db.rowsOf (.newScan ref.table ref.name) = some (db.tagged ref) := by
  obtain ⟨t, ht⟩ := h
  rw [PhysicalPlan.newScan, rowsOf_scan ht, Contents.tagged, ht]

theorem mem_blocksOf {blocks : Bytes → ExecRow} :
    blocks ∈ blocksOf ls ↔ ∃ row ∈ ls, row.blocks = blocks := by
  rw [blocksOf, Multiset.mem_coe, List.mem_map]

/-- **The pairs a join keeps are the rows of its step**, on whichever side it has the new table and
whichever of its inputs it runs through first. -/
theorem blocksOf_pairs {q : ExecRow → ExecRow → Bool} {g : ExecRow → ExecRow → ExecRow}
    (hg : ∀ l ∈ ls, ∀ r ∈ db.tagged join.table,
      (g l r).blocks = Function.update l.blocks join.table.name r ∧
        q l r = holdsIn join.onCondition (g l r).blocks) :
    blocksOf (ls.flatMap fun l => ((db.tagged join.table).filter (q l)).map (g l))
        = Step.join (blocksOf ls) (join.step db) ∧
      blocksOf ((db.tagged join.table).flatMap fun r => (ls.filter (q · r)).map (g · r))
        = Step.join (blocksOf ls) (join.step db) := by
  have hright : blocksOf ((db.tagged join.table).flatMap fun r => (ls.filter (q · r)).map (g · r))
      = Step.join (blocksOf ls) (join.step db) := by
    rw [blocksOf, List.map_flatMap, Step.join, Step.cross, Joins.extend, Multiset.filter_bind,
      ← Multiset.coe_bind]
    apply Multiset.bind_congr
    intro r hr
    rw [blocksOf, Multiset.map_coe, Multiset.filter_coe, List.map_map, List.filter_map, List.filter_map,
      List.map_map]
    congr 1
    have hfilter : ls.filter (q · r) = ls.filter
        (((fun blocks => decide ((join.step db).holds blocks = true)) ∘
          fun env => Function.update env (join.step db).name r) ∘ ExecRow.blocks) := by
      apply List.filter_congr
      intro l hl
      obtain ⟨hblocks, hq⟩ := hg l hl r hr
      rw [hq, hblocks]
      exact Bool.decide_eq_true.symm
    rw [← hfilter]
    apply List.map_congr_left
    intro l hl
    exact (hg l (List.mem_of_mem_filter hl) r hr).1
  refine ⟨Eq.trans ?_ hright, hright⟩
  -- the two loops the other way round
  have hbind : ∀ (as bs : List ExecRow) (p : ExecRow → ExecRow → Bool)
      (f : ExecRow → ExecRow → ExecRow), blocksOf (as.flatMap fun a => (bs.filter (p a)).map (f a))
        = (as : Multiset ExecRow).bind fun a => (bs : Multiset ExecRow).bind fun b =>
          if p a b then {(f a b).blocks} else 0 := by
    intro as bs p f
    rw [blocksOf, List.map_flatMap, ← Multiset.coe_bind]
    apply Multiset.bind_congr
    intro a _
    rw [← Multiset.bind_filter, Multiset.bind_singleton, Multiset.filter_coe, Multiset.map_coe,
      List.map_map]
    simp only [Bool.decide_eq_true]
    rfl
  rw [hbind, hbind ((db.tagged join.table)) ls (fun r l => q l r) fun r l => g l r, Multiset.bind_bind]

/-! ## What the operators keep -/

/-- The rows a filter keeps, of rows made in some way. -/
theorem collect_keep {condition : Expr} {g : ExecRow → ExecRow}
    (h : collect (fun r => (PhysicalPlan.keep condition (g r)).toOption.map Option.toList) rs
      = some out) : out = (rs.filter fun r => (g r).satisfies condition).map g := by
  induction rs generalizing out with
  | nil =>
    cases h
    rfl
  | cons r rs ih =>
    rw [collect_cons, Option.bind_eq_some_iff] at h
    obtain ⟨kept, hkept, hrest⟩ := h
    obtain ⟨out', hout', rfl⟩ := Option.map_eq_some_iff.mp hrest
    rw [ih hout', List.filter_cons, ExecRow.satisfies]
    rw [PhysicalPlan.keep] at hkept
    cases hb : evalBool (g r) condition with
    | error e =>
      rw [hb] at hkept
      cases hkept
    | ok b =>
      rw [hb] at hkept
      obtain rfl := Option.some.inj hkept
      cases b <;> rfl

theorem isSome_of_mapM {α β : Type} {f : α → Option β} {as : List α} {bs : List β}
    (h : as.mapM f = some bs) : ∀ a ∈ as, (f a).isSome = true := by
  rw [← collect_singleton] at h
  intro a ha
  have hsome := (collect_eq_some.mp h).1 a ha
  rwa [Option.isSome_map] at hsome

/-- A nested loop keeps the pairs that satisfy its condition. -/
theorem rowsOf_nestedLoopJoin {left right : PhysicalPlan} {condition : Expr}
    (h : db.rowsOf (.newNestedLoopJoin left right condition) = some out) :
    ∃ ls rs, db.rowsOf left = some ls ∧ db.rowsOf right = some rs ∧
      out = ls.flatMap fun l => (rs.filter fun r => (l ++ r : ExecRow).satisfies condition).map
        (l ++ ·) := by
  rw [Contents.rowsOf, PhysicalPlan.newNestedLoopJoin, PhysicalPlan.rows,
    Option.bind_eq_some_iff] at h
  obtain ⟨ls, hls, h⟩ := h
  obtain ⟨rs, hrs, h⟩ := Option.bind_eq_some_iff.mp h
  obtain ⟨hsome, rfl⟩ := collect_eq_some.mp h
  refine ⟨ls, rs, hls, hrs, ?_⟩
  apply List.flatMap_congr
  intro l hl
  obtain ⟨kept, hkept⟩ := Option.isSome_iff_exists.mp (hsome l hl)
  rw [hkept]
  exact collect_keep hkept

/-- A hash join looks both columns up in every row, and keeps the pairs with equal values. -/
theorem rowsOf_newHashJoin {buildSide probeSide : PhysicalPlan} {bref pref : ColumnRef}
    (h : db.rowsOf (.newHashJoin buildSide probeSide bref pref) = some out) :
    ∃ bs ps, db.rowsOf buildSide = some bs ∧ db.rowsOf probeSide = some ps ∧
      (∀ b ∈ bs, b.find bref = .ok (b.valueAt bref)) ∧
      (∀ p ∈ ps, p.find pref = .ok (p.valueAt pref)) ∧
      out = ps.flatMap fun p => (bs.filter fun b => b.valueAt bref == p.valueAt pref).map
        (p ++ ·) := by
  have hrows := h
  rw [Contents.rowsOf, PhysicalPlan.newHashJoin, PhysicalPlan.rows, Option.bind_eq_some_iff] at h
  obtain ⟨bs, hbs, h⟩ := h
  obtain ⟨table, htable, h⟩ := Option.bind_eq_some_iff.mp h
  obtain ⟨ps, hps, h⟩ := Option.bind_eq_some_iff.mp h
  have hfind : ∀ {row : ExecRow} {ref : ColumnRef}, (row.find ref).toOption.isSome = true →
      row.find ref = .ok (row.valueAt ref) := by
    intro row ref hsome
    apply ExecRow.find_valueAt
    cases hrow : row.find ref with
    | error e =>
      rw [hrow] at hsome
      cases hsome
    | ok v => exact ⟨v, rfl⟩
  have hb : ∀ b ∈ bs, b.find bref = .ok (b.valueAt bref) := by
    intro b hmem
    have hsome := isSome_of_mapM htable b hmem
    rw [Option.isSome_map] at hsome
    exact hfind hsome
  have hp : ∀ p ∈ ps, p.find pref = .ok (p.valueAt pref) := by
    intro p hmem
    have hsome := (collect_eq_some.mp h).1 p hmem
    rw [Option.isSome_map] at hsome
    exact hfind hsome
  refine ⟨bs, ps, hbs, hps, hb, hp, ?_⟩
  rw [PhysicalPlan.newHashJoin, rowsOf_hashJoin _ hbs hps hb hp] at hrows
  rw [← Option.some.inj hrows]
  apply List.flatMap_congr
  intro p _
  rw [PhysicalPlan.equalRange, List.filter_map, List.map_map, List.map_map]
  rfl

/-- An equality of columns is satisfied where the values are equal. -/
theorem satisfies_equality {row : ExecRow} {left right : ColumnRef} {u v : Value}
    (hleft : row.find left = .ok u) (hright : row.find right = .ok v) :
    row.satisfies (.comparison .eq (.columnRef left.table left.column)
      (.columnRef right.table right.column)) = (u == v) := by
  simp only [ExecRow.satisfies, evalBool, evalValue, hleft, hright, Bind.bind, Except.bind]
  by_cases hkind : u.kind = v.kind
  · obtain ⟨o, ho, heq⟩ := compareValues_of_kind_eq hkind
    rw [ho]
    exact heq
  · obtain ⟨e, he⟩ := compareValues_of_kind_ne hkind
    rw [he]
    have hne : u ≠ v := fun h => hkind (h ▸ rfl)
    exact (beq_false_of_ne hne).symm

/-- The columns of a hash join are those of the condition, one of them the new table's. -/
theorem onCondition_of_refs {nextRef accRef : ColumnRef} (h : join.refs = some (nextRef, accRef)) :
    nextRef.table = some join.table.name ∧
      (join.onCondition = .comparison .eq (.columnRef nextRef.table nextRef.column)
          (.columnRef accRef.table accRef.column) ∨
        join.onCondition = .comparison .eq (.columnRef accRef.table accRef.column)
          (.columnRef nextRef.table nextRef.column)) := by
  rw [JoinClause.refs, Option.bind_eq_some_iff] at h
  obtain ⟨⟨left, right⟩, hextract, hsides⟩ := h
  have hcond : join.onCondition = .comparison .eq (.columnRef left.table left.column)
      (.columnRef right.table right.column) := by
    unfold extractEquiJoin at hextract
    split at hextract
    · next heq =>
      obtain ⟨rfl, rfl⟩ := Prod.mk.inj (Option.some.inj hextract)
      exact heq
    · cases hextract
  rw [equiSides] at hsides
  split at hsides
  · next htable =>
    obtain ⟨rfl, rfl⟩ := Prod.mk.inj (Option.some.inj hsides)
    exact ⟨htable, .inl hcond⟩
  · split at hsides
    · next htable =>
      obtain ⟨rfl, rfl⟩ := Prod.mk.inj (Option.some.inj hsides)
      exact ⟨htable, .inr hcond⟩
    · cases hsides

/-- What a hash join compares is what the condition says of the pair. -/
theorem satisfies_pair {row l r : ExecRow} {nextRef accRef : ColumnRef} {u v : Value}
    (hrefs : join.refs = some (nextRef, accRef)) (hq : join.onCondition.Qualified)
    (hl : l.blocks join.table.name = [])
    (hrow : row.blocks = Function.update l.blocks join.table.name r)
    (hacc : l.find accRef = .ok u) (hnext : r.find nextRef = .ok v) :
    row.satisfies join.onCondition = (v == u) := by
  obtain ⟨hown, hcond⟩ := onCondition_of_refs hrefs
  obtain ⟨nextTable, nextColumn⟩ := nextRef
  obtain ⟨accTable, accColumn⟩ := accRef
  obtain rfl : nextTable = some join.table.name := hown
  have haccq : accTable.isSome = true := by
    have hmem : (⟨accTable, accColumn⟩ : ColumnRef) ∈ join.onCondition.refs := by
      rcases hcond with h | h
      · rw [h]
        exact List.mem_cons_of_mem _ (List.mem_singleton_self _)
      · rw [h]
        exact List.mem_cons_self
    exact hq _ hmem
  obtain ⟨t, rfl⟩ := Option.isSome_iff_exists.mp haccq
  have hne : t ≠ join.table.name := by
    rintro rfl
    rw [← ExecRow.find_blocks, hl] at hacc
    cases hacc
  have hrowAcc : row.find ⟨some t, accColumn⟩ = .ok u := by
    rw [← ExecRow.find_blocks, hrow, Function.update_of_ne hne, ExecRow.find_blocks]
    exact hacc
  have hrowNext : row.find ⟨some join.table.name, nextColumn⟩ = .ok v := by
    rw [← ExecRow.find_blocks, hrow, Function.update_self]
    exact hnext
  rcases hcond with h | h
  · rw [h]
    exact satisfies_equality hrowNext hrowAcc
  · rw [h, Bool.beq_comm]
    exact satisfies_equality hrowAcc hrowNext

/-- **Step of the planner.** Whatever join the costs pick, its rows are those of the clause's step. -/
theorem blocksOf_joinClause {plan : PhysicalPlan} (hknown : ∃ t, db join.table.table = some t)
    (hq : join.onCondition.Qualified)
    (hnew : ∀ ls, db.rowsOf plan = some ls → ∀ l ∈ ls, l.blocks join.table.name = [])
    (h : db.rowsOf (db.joinClause id plan join) = some out) :
    ∃ ls, db.rowsOf plan = some ls ∧ blocksOf out = Step.join (blocksOf ls) (join.step db) := by
  have hscan : db.rowsOf join.scan = some (db.tagged join.table) := rowsOf_newScan hknown
  have hnested : ∀ {out}, db.rowsOf (.newNestedLoopJoin plan join.scan join.onCondition) = some out →
      ∃ ls, db.rowsOf plan = some ls ∧
        blocksOf out = Step.join (blocksOf ls) (join.step db) := by
    intro out h
    obtain ⟨ls, rs, hls, hrs, rfl⟩ := rowsOf_nestedLoopJoin h
    obtain rfl := Option.some.inj (hscan.symm.trans hrs)
    refine ⟨ls, hls, (blocksOf_pairs fun l hl r hr => ?_).1⟩
    have hblocks := ExecRow.blocks_pair (hnew ls hls l hl) (table_of_mem_tagged hr)
    exact ⟨hblocks.1, (holdsIn_blocks hq _).symm⟩
  cases hrefs : join.refs with
  | none =>
    rw [joinClause_of_none hrefs] at h
    exact hnested h
  | some refs =>
    obtain ⟨nextRef, accRef⟩ := refs
    rw [joinClause_of_some hrefs] at h
    split at h
    · split at h
      · -- built on the plan so far
        obtain ⟨ls, rs, hls, hrs, hacc, hnext, rfl⟩ := rowsOf_newHashJoin h
        obtain rfl := Option.some.inj (hscan.symm.trans hrs)
        refine ⟨ls, hls, (blocksOf_pairs fun l hl r hr => ?_).2⟩
        have htable := table_of_mem_tagged hr
        have hblocks := (ExecRow.blocks_pair (hnew ls hls l hl) htable).2
        refine ⟨hblocks, ?_⟩
        rw [holdsIn_blocks hq, satisfies_pair hrefs hq (hnew ls hls l hl) hblocks (hacc l hl)
          (hnext r hr), Bool.beq_comm]
      · -- built on the new table
        obtain ⟨rs, ls, hrs, hls, hnext, hacc, rfl⟩ := rowsOf_newHashJoin h
        obtain rfl := Option.some.inj (hscan.symm.trans hrs)
        refine ⟨ls, hls, (blocksOf_pairs fun l hl r hr => ?_).1⟩
        have htable := table_of_mem_tagged hr
        have hblocks := (ExecRow.blocks_pair (hnew ls hls l hl) htable).1
        refine ⟨hblocks, ?_⟩
        rw [holdsIn_blocks hq, satisfies_pair hrefs hq (hnew ls hls l hl) hblocks (hacc l hl)
          (hnext r hr)]
    · exact hnested h

/-! ## Runs of joins -/

theorem blocks_eq_nil_of_within {names : Set Bytes} (hw : Step.Within noBlocks names (blocksOf ls))
    (ha : a ∉ names) : ∀ l ∈ ls, l.blocks a = [] :=
  fun l hl => hw l.blocks (mem_blocksOf.mpr ⟨l, hl, rfl⟩) a ha

/-- **Run of the planner.** The rows of the joins in some order are those of their steps. -/
theorem blocksOf_foldl_joinClause {order : List JoinClause} {plan : PhysicalPlan} {names : Set Bytes}
    (hknown : ∀ join ∈ order, ∃ t, db join.table.table = some t)
    (hq : ∀ join ∈ order, join.onCondition.Qualified)
    (hnodup : (order.map (·.table.name)).Nodup) (hfresh : ∀ join ∈ order, join.table.name ∉ names)
    (hw : ∀ ls, db.rowsOf plan = some ls → Step.Within noBlocks names (blocksOf ls))
    (h : db.rowsOf (order.foldl (db.joinClause id) plan) = some out) :
    ∃ ls, db.rowsOf plan = some ls ∧
      blocksOf out = (order.map (JoinClause.step db)).foldl Step.join (blocksOf ls) := by
  induction order generalizing plan names with
  | nil => exact ⟨out, h, rfl⟩
  | cons join order ih =>
    obtain ⟨hjoin, hknown⟩ := List.forall_mem_cons.mp hknown
    obtain ⟨hjoinq, hq⟩ := List.forall_mem_cons.mp hq
    obtain ⟨hnew, hnodup⟩ := List.nodup_cons.mp hnodup
    obtain ⟨hjoinfresh, hfresh⟩ := List.forall_mem_cons.mp hfresh
    have hstep : ∀ {out}, db.rowsOf (db.joinClause id plan join) = some out → ∃ ls,
        db.rowsOf plan = some ls ∧ blocksOf out = Step.join (blocksOf ls) (join.step db) :=
      blocksOf_joinClause hjoin hjoinq fun ls hls => blocks_eq_nil_of_within (hw ls hls) hjoinfresh
    have hfresh' : ∀ join' ∈ order, join'.table.name ∉ insert join.table.name names := by
      intro join' hmem hin
      rcases Set.mem_insert_iff.mp hin with heq | hin
      · exact hnew (List.mem_map.mpr ⟨join', hmem, heq⟩)
      · exact hfresh join' hmem hin
    obtain ⟨out', hout', hrest⟩ := ih hknown hq hnodup hfresh' (fun ls' hls' => by
      obtain ⟨ls, hls, heq⟩ := hstep hls'
      rw [heq]
      exact (hw ls hls).join) h
    obtain ⟨ls, hls, heq⟩ := hstep hout'
    exact ⟨ls, hls, by rw [hrest, heq]; rfl⟩

/-- The meaning of the joins in textual order. -/
theorem rows_foldl_join {joins : List JoinClause} {plan : LogicalNode} {names : Set Bytes}
    (hknown : ∀ join ∈ joins, ∃ t, db join.table.table = some t)
    (hq : ∀ join ∈ joins, join.onCondition.Qualified)
    (hnodup : (joins.map (·.table.name)).Nodup) (hfresh : ∀ join ∈ joins, join.table.name ∉ names)
    (hls : plan.rows db = some ls) (hw : Step.Within noBlocks names (blocksOf ls)) :
    ∃ out, (joins.foldl (fun plan join => .join plan (makeScan join.table) join.onCondition)
        plan).rows db = some out ∧
      blocksOf out = (joins.map (JoinClause.step db)).foldl Step.join (blocksOf ls) := by
  induction joins generalizing plan ls names with
  | nil => exact ⟨ls, hls, rfl⟩
  | cons join joins ih =>
    obtain ⟨hjoin, hknown⟩ := List.forall_mem_cons.mp hknown
    obtain ⟨hjoinq, hq⟩ := List.forall_mem_cons.mp hq
    obtain ⟨hnew, hnodup⟩ := List.nodup_cons.mp hnodup
    obtain ⟨hjoinfresh, hfresh⟩ := List.forall_mem_cons.mp hfresh
    have hfresh' : ∀ join' ∈ joins, join'.table.name ∉ insert join.table.name names := by
      intro join' hmem hin
      rcases Set.mem_insert_iff.mp hin with heq | hin
      · exact hnew (List.mem_map.mpr ⟨join', hmem, heq⟩)
      · exact hfresh join' hmem hin
    have hscan : (makeScan join.table).rows db = some (db.tagged join.table) := by
      obtain ⟨t, ht⟩ := hjoin
      simp only [makeScan, LogicalNode.rows, Contents.tagged, ht]
      rfl
    have hrows : (LogicalNode.join plan (makeScan join.table) join.onCondition).rows db
        = some (ls.flatMap fun l => ((db.tagged join.table).filter fun r =>
          (l ++ r : ExecRow).satisfies join.onCondition).map (l ++ ·)) := by
      simp only [LogicalNode.rows, hls, hscan, List.filter_flatMap, List.filter_map]
      rfl
    have hblocks : blocksOf (ls.flatMap fun l => ((db.tagged join.table).filter fun r =>
        (l ++ r : ExecRow).satisfies join.onCondition).map (l ++ ·))
          = Step.join (blocksOf ls) (join.step db) := by
      refine (blocksOf_pairs fun l hl r hr => ?_).1
      have hnil := blocks_eq_nil_of_within hw hjoinfresh l hl
      exact ⟨(ExecRow.blocks_pair hnil (table_of_mem_tagged hr)).1, (holdsIn_blocks hjoinq _).symm⟩
    obtain ⟨out, hout, heq⟩ := ih hknown hq hnodup hfresh' hrows (hblocks ▸ hw.join)
    exact ⟨out, hout, by rw [heq, hblocks]; rfl⟩

end

/-! ## The order of the joins -/

section

variable {db : Contents} {joined joined' : List Bytes} {joins pending : List JoinClause}
  {join : JoinClause}

theorem connected_mono (h : join.connected joined = true) (hsub : joined ⊆ joined') :
    join.connected joined' = true := by
  rw [JoinClause.connected, TableNode.connected, List.all_eq_true] at h ⊢
  exact fun t ht => decide_eq_true (hsub (of_decide_eq_true (h t ht)))

theorem ConnectedInOrder.mono (h : ConnectedInOrder joined joins) (hsub : joined ⊆ joined') :
    ConnectedInOrder joined' joins := by
  induction joins generalizing joined joined' with
  | nil => trivial
  | cons join joins ih => exact ⟨connected_mono h.1 hsub, ih h.2 (List.cons_subset_cons _ hsub)⟩

/-- What is left when a clause is joined early. -/
theorem ConnectedInOrder.erase (h : ConnectedInOrder joined pending) (hmem : join ∈ pending) :
    ConnectedInOrder (join.table.name :: joined) (pending.erase join) := by
  induction pending generalizing joined with
  | nil => cases hmem
  | cons first pending ih =>
    by_cases heq : first = join
    · subst heq
      rw [List.erase_cons_head]
      exact h.2
    · rw [List.erase_cons_tail (by simpa using heq)]
      have hrest := ih h.2 ((List.mem_cons.mp hmem).resolve_left (Ne.symm heq))
      refine ⟨connected_mono h.1 (List.subset_cons_self _ _), hrest.mono ?_⟩
      intro t ht
      simp only [List.mem_cons] at ht ⊢
      tauto

/-- The first clause pending is connected, so the loop never takes one that is not. -/
theorem connected_of_nextJoin (h : ConnectedInOrder joined pending)
    (hnext : db.nextJoin joined pending = some join) : join.connected joined = true := by
  rcases Option.or_eq_some_iff.mp hnext with hmin | ⟨hnone, hhead⟩
  · exact (List.mem_filter.mp (List.argmin_mem hmin)).2
  · cases pending with
    | nil => cases hhead
    | cons first pending =>
      have hnil := List.argmin_eq_none.mp hnone
      rw [List.filter_cons, if_pos h.1] at hnil
      cases hnil

theorem ConnectedInOrder.joinOrder (db : Contents) (h : ConnectedInOrder joined pending) :
    ConnectedInOrder joined (db.joinOrder pending.length joined pending) := by
  generalize hn : pending.length = n
  induction n generalizing joined pending with
  | zero => trivial
  | succ n ih =>
    obtain ⟨join, hnext⟩ := nextJoin_isSome db joined (List.ne_nil_of_length_eq_add_one hn)
    have hmem := mem_of_nextJoin hnext
    have hlen : (pending.erase join).length = n := by rw [List.length_erase_of_mem hmem, hn]; rfl
    rw [Contents.joinOrder, hnext]
    exact ⟨connected_of_nextJoin h hnext, ih (h.erase hmem) hlen⟩

/-- Connected clauses are steps whose conditions look at no table that is still to come. -/
theorem ConnectedInOrder.scoped (h : ConnectedInOrder joined joins) :
    Step.Scoped {t | t ∈ joined} (joins.map (JoinClause.step db)) := by
  induction joins generalizing joined with
  | nil => trivial
  | cons join joins ih =>
    obtain ⟨hconn, hrest⟩ := h
    have hnames : (insert join.table.name {t | t ∈ joined} : Set Bytes)
        = {t | t ∈ join.table.name :: joined} := by
      ext t
      exact List.mem_cons.symm
    refine ⟨?_, ?_⟩
    · show DependsOn (holdsIn join.onCondition) (insert join.table.name {t | t ∈ joined})
      intro blocks blocks' heq
      apply holdsIn_dependsOn
      intro t ht
      apply heq
      by_cases hown : t = join.table.name
      · exact .inl hown
      · rw [JoinClause.connected, TableNode.connected, List.all_eq_true] at hconn
        exact .inr (of_decide_eq_true (hconn t (List.mem_filter.mpr ⟨ht, decide_eq_true hown⟩)))
    · show Step.Scoped (insert join.table.name {t | t ∈ joined}) _
      rw [hnames]
      exact ih hrest

end

/-! ## Filters and projections -/

section

variable {rs rs' out : List ExecRow}

theorem satisfies_factors (p : Expr) :
    Function.FactorsThrough (fun row : ExecRow => row.satisfies p) ExecRow.blocks :=
  fun _ _ h => ExecRow.satisfies_congr fun ref _ => ExecRow.find_of_blocks h ref

theorem blocksOf_filter (h : blocksOf rs = blocksOf rs') (p : Expr) :
    blocksOf (rs.filter (·.satisfies p)) = blocksOf (rs'.filter (·.satisfies p)) := by
  obtain ⟨holds, hholds⟩ := (Function.factorsThrough_iff _).mp (satisfies_factors p)
  have hfilter : ∀ rs : List ExecRow, blocksOf (rs.filter (·.satisfies p))
      = (blocksOf rs).filter fun blocks => holds blocks = true := by
    intro rs
    rw [blocksOf, blocksOf, Multiset.filter_coe, List.filter_map, hholds]
    simp only [Function.comp_def, Bool.decide_eq_true]
  rw [hfilter, hfilter, h]

/-- The fields of a projected row, in any order. -/
def projected (isStar : Bool) (items : List SelectItem) (row : ExecRow) : Option (Multiset Field) :=
  (PhysicalPlan.projectRow isStar items row).toOption.map fun row => Multiset.ofList row

theorem projected_factors (isStar : Bool) (items : List SelectItem) :
    Function.FactorsThrough (projected isStar items) ExecRow.blocks := by
  intro row row' h
  rw [projected, projected, PhysicalPlan.projectRow, PhysicalPlan.projectRow]
  cases isStar with
  | true =>
    exact congrArg some (Multiset.coe_eq_coe.mpr (ExecRow.perm_of_blocks h))
  | false =>
    rw [if_neg Bool.false_ne_true, if_neg Bool.false_ne_true,
      projectFields_congr (ExecRow.find_of_blocks h)]

theorem map_projected {isStar : Bool} {items : List SelectItem}
    (h : (rs.mapM fun row => (PhysicalPlan.projectRow isStar items row).toOption) = some out) :
    rs.map (projected isStar items) = out.map fun row => some (Multiset.ofList row) := by
  induction rs generalizing out with
  | nil =>
    cases h
    rfl
  | cons row rs ih =>
    rw [mapM_cons_option, Option.bind_eq_some_iff] at h
    obtain ⟨row', hrow', hrest⟩ := h
    obtain ⟨out', hout', rfl⟩ := Option.map_eq_some_iff.mp hrest
    rw [List.map_cons, List.map_cons, ih hout', projected, hrow']
    rfl

/-- **Rows with the same blocks are projected to the same rows.** -/
theorem bag_project {isStar : Bool} {items : List SelectItem} (h : blocksOf rs = blocksOf rs')
    (hout : (rs.mapM fun row => (PhysicalPlan.projectRow isStar items row).toOption) = some out) :
    ∃ out', (rs'.mapM fun row => (PhysicalPlan.projectRow isStar items row).toOption) = some out' ∧
      bag out = bag out' := by
  obtain ⟨f, hf⟩ := (Function.factorsThrough_iff _).mp (projected_factors isStar items)
  have hmap : ∀ rs : List ExecRow,
      (rs.map (projected isStar items) : Multiset _) = (blocksOf rs).map f := by
    intro rs
    rw [blocksOf, Multiset.map_coe, List.map_map, ← hf]
  have hsame : Multiset.ofList (rs.map (projected isStar items))
      = Multiset.ofList (rs'.map (projected isStar items)) := by rw [hmap, hmap, h]
  have hsome : ∀ row ∈ rs', (PhysicalPlan.projectRow isStar items row).toOption.isSome = true := by
    intro row hrow
    have hmem : projected isStar items row ∈ (rs.map (projected isStar items) : Multiset _) := by
      rw [hsame]
      exact List.mem_map.mpr ⟨row, hrow, rfl⟩
    rw [map_projected hout] at hmem
    obtain ⟨row', -, heq⟩ := List.mem_map.mp hmem
    obtain ⟨row'', hrow'', -⟩ := Option.map_eq_some_iff.mp heq.symm
    exact Option.isSome_iff_exists.mpr ⟨row'', hrow''⟩
  choose! g hg using fun row (hrow : row ∈ rs') => Option.isSome_iff_exists.mp (hsome row hrow)
  refine ⟨rs'.map g, mapM_of_some hg, ?_⟩
  have hout' := map_projected (mapM_of_some hg)
  rw [map_projected hout, hout'] at hsame
  have hbags : ∀ out : List ExecRow, (out.map fun row => some (Multiset.ofList row) : Multiset _)
      = (bag out).map some := by
    intro out
    rw [bag, Multiset.map_coe, List.map_map]
    rfl
  rw [hbags, hbags] at hsame
  exact Multiset.map_injective (Option.some_injective _) hsame

end

/-! ## The result -/

section

variable {cat : Catalog} {db : Contents} {stmt : SelectStmt} {rows : List ExecRow}

theorem within_tagged (db : Contents) (ref : TableRef) :
    Step.Within noBlocks {t | t ∈ [ref.name]} (blocksOf (db.tagged ref)) := by
  intro blocks hblocks t ht
  obtain ⟨row, hrow, rfl⟩ := mem_blocksOf.mp hblocks
  apply ExecRow.blocks_eq_nil_iff.mpr
  intro f hf heq
  exact ht (List.mem_singleton.mpr (heq.symm.trans (table_of_mem_tagged hrow f hf)))

/-- **The joins in the planner's order have the rows of the joins in textual order.** -/
theorem blocksOf_joinPlan (h : db.Accepts stmt)
    (hq : ∀ join ∈ stmt.joins, join.onCondition.Qualified)
    (hrows : db.rowsOf (db.joinPlan id stmt) = some rows) :
    ∃ rows', (stmt.joins.foldl (fun plan join => .join plan (makeScan join.table) join.onCondition)
        (makeScan stmt.from)).rows db = some rows' ∧ blocksOf rows = blocksOf rows' := by
  have hperm := joinOrder_perm db [stmt.from.name] stmt.joins
  have hknown : ∀ join ∈ stmt.joins, ∃ t, db join.table.table = some t := fun join hjoin =>
    h.known _ (List.mem_cons_of_mem _ (List.mem_map.mpr ⟨join, hjoin, rfl⟩))
  have hfrom : ∃ t, db stmt.from.table = some t := h.known _ List.mem_cons_self
  have hnames : (stmt.from.name :: stmt.joins.map (·.table.name)).Nodup := by
    have hdistinct := h.distinct
    rwa [SelectStmt.tables, List.map_cons, List.map_map] at hdistinct
  obtain ⟨hnew, hnodup⟩ := List.nodup_cons.mp hnames
  have hfresh : ∀ join ∈ stmt.joins, join.table.name ∉ {t | t ∈ [stmt.from.name]} := by
    intro join hjoin hin
    exact hnew (List.mem_map.mpr ⟨join, hjoin, List.mem_singleton.mp hin⟩)
  have hwithin := within_tagged db stmt.from
  have hscan : (makeScan stmt.from).rows db = some (db.tagged stmt.from) := by
    obtain ⟨t, ht⟩ := hfrom
    simp only [makeScan, LogicalNode.rows, Contents.tagged, ht]
    rfl
  have hsteps : (stmt.joins.map (JoinClause.step db)).map Step.name
      = stmt.joins.map (·.table.name) := List.map_map
  -- both orders start from the rows of the first table
  obtain ⟨ls, hls, hplanned⟩ := blocksOf_foldl_joinClause
    (fun join hjoin => hknown join (hperm.mem_iff.mp hjoin))
    (fun join hjoin => hq join (hperm.mem_iff.mp hjoin))
    ((hperm.map _).nodup_iff.mpr hnodup) (fun join hjoin => hfresh join (hperm.mem_iff.mp hjoin))
    (fun ls hls => by
      obtain rfl := Option.some.inj ((rowsOf_newScan hfrom).symm.trans hls)
      exact hwithin) hrows
  obtain rfl := Option.some.inj ((rowsOf_newScan hfrom).symm.trans hls)
  obtain ⟨rows', hrows', htextual⟩ := rows_foldl_join hknown hq hnodup hfresh hscan hwithin
  refine ⟨rows', hrows', ?_⟩
  rw [hplanned, htextual]
  refine Step.foldl_perm (hperm.map _) ?_ ?_ (h.connectedInOrder.joinOrder db).scoped
    h.connectedInOrder.scoped
  · exact ((hperm.map (JoinClause.step db)).map Step.name).nodup_iff.mpr (hsteps ▸ hnodup)
  · intro s hs
    obtain ⟨join, hjoin, rfl⟩ := List.mem_map.mp hs
    exact hfresh join (hperm.mem_iff.mp hjoin)

theorem rowsOf_filter {input : PhysicalPlan} {p : Expr}
    (hrows : db.rowsOf (.filter input p) = some rows) :
    ∃ rs, db.rowsOf input = some rs ∧ rows = rs.filter (·.satisfies p) := by
  rw [Contents.rowsOf, PhysicalPlan.rows, Option.bind_eq_some_iff] at hrows
  obtain ⟨rs, hrs, hkept⟩ := hrows
  refine ⟨rs, hrs, (collect_keep hkept).trans ?_⟩
  exact List.map_id _

/-- **A `SELECT` returns what it means.** When the run of an accepted `SELECT` with qualified join
conditions returns, the rows are those of the logical plan: whatever order, operators and sides the row
counts made the planner choose. -/
theorem select_means (h : cat.Shows db) (hvalid : validateStatement cat (.select stmt) = .ok ())
    (hq : ∀ join ∈ stmt.joins, join.onCondition.Qualified) (hrun : cat.Selects stmt rows) :
    ∃ rows', (buildLogicalPlan stmt).rows db = some rows' ∧ bag rows = bag rows' := by
  have hrows := (h.selects_iff hvalid).mp hrun
  rw [Contents.selectPlan, Contents.rowsOf, PhysicalPlan.rows, Option.bind_eq_some_iff] at hrows
  obtain ⟨rs, hrs, hout⟩ := hrows
  rw [buildLogicalPlan]
  cases hwhere : stmt.where with
  | none =>
    rw [hwhere] at hrs
    obtain ⟨rs', hrs', hblocks⟩ := blocksOf_joinPlan (h.accepts hvalid) hq hrs
    obtain ⟨out', hout', hbag⟩ := bag_project hblocks hout
    refine ⟨out', ?_, hbag⟩
    simp only [LogicalNode.rows, hrs']
    exact hout'
  | some predicate =>
    rw [hwhere] at hrs
    obtain ⟨js, hjs, rfl⟩ := rowsOf_filter hrs
    obtain ⟨js', hjs', hblocks⟩ := blocksOf_joinPlan (h.accepts hvalid) hq hjs
    obtain ⟨out', hout', hbag⟩ := bag_project (blocksOf_filter hblocks predicate) hout
    refine ⟨out', ?_, hbag⟩
    simp only [LogicalNode.rows, hjs', Option.map_some]
    exact hout'

end

/-- An equality of two tables, joined by a hash join built on the first of them. -/
theorem select_means_equality : ∃ (cat : Catalog) (db : Contents) (rows rows' : List ExecRow),
    cat.Reached ∧ cat.Shows db ∧ cat.Selects (leftJoinRight .eq) rows ∧ rows ≠ [] ∧
      (buildLogicalPlan (leftJoinRight .eq)).rows db = some rows' ∧ bag rows = bag rows' := by
  obtain ⟨cat, hreached, htables, hvalid, -⟩ := exists_hasLeftRight
  obtain ⟨db, h⟩ := hreached.shows
  obtain rfl := h.eq_ofTables htables
  let rowOf (k x y : Int64) : ExecRow := [⟨text "b", text "id", .int k⟩,
    ⟨text "b", text "y", .int y⟩, ⟨text "a", text "id", .int k⟩, ⟨text "a", text "x", .int x⟩]
  have hrun : cat.Selects (leftJoinRight .eq) [rowOf 1 10 30, rowOf 2 20 40] :=
    (h.selects_iff hvalid).mpr (by decide +kernel)
  obtain ⟨rows', hrows', hbag⟩ := select_means h hvalid (by decide) hrun
  exact ⟨cat, _, _, rows', hreached, h, hrun, List.cons_ne_nil _ _, hrows', hbag⟩

end Reldb
