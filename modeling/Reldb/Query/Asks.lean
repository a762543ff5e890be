import Reldb.Lib.Obeys
import Reldb.Query.Planner

/-!
# Reldb — what a `SELECT` asks of the catalog

Planning and running a `SELECT` scan the tables it names, and ask for their row counts if it has a join. So
they keep whatever these scans and counts keep (`Engine.executeSelect_obeys`).
-/

namespace Reldb

/-- The tables a `SELECT` names. -/
def SelectStmt.asked (stmt : SelectStmt) : List Bytes :=
  stmt.from.table :: stmt.joins.map (·.table.table)

section

variable {σ N : Type} {I : σ → Prop} {real : CatalogReads (Prog σ) N} {T : List Bytes}

/-- The catalog answers questions on the tables `T` inside `I`, and knows all schemas. -/
structure CatalogReads.Obey (I : σ → Prop) (real : CatalogReads (Prog σ) N) (T : List Bytes)
    (counted : Prop) : Prop where
  getSchema : ∀ name, Obeys I (real.getSchema name) fun _ => True
  scanTable : ∀ name ∈ T, Obeys I (real.scanTable name) fun _ => True
  estimatedRowCount : counted → ∀ name ∈ T, Obeys I (real.estimatedRowCount name) fun _ => True

variable {counted : Prop}

namespace PhysicalPlan

/-- The tables a plan scans. -/
def tables (plan : PhysicalPlan) : List Bytes := plan.scans.map Prod.fst

theorem next_obeys (h : real.Obey I T counted) (fuel : Nat) (plan : PhysicalPlan) :
    Obeys I (plan.next real fuel) fun _ => True := by
  induction fuel generalizing plan with
  | zero => exact .throw _
  | succ fuel ih =>
    cases plan with
    | scan table aliasName c =>
      simp only [next]
      cases c.rows[c.cursor]? with
      | none => exact .pure trivial
      | some values =>
        exact (h.getSchema table).bind fun schema _ =>
          .bind (.ofExcept fun _ _ => trivial) fun row _ => .pure trivial
    | filter input predicate =>
      refine (ih input).bind fun pulled _ => ?_
      obtain ⟨row, input⟩ := pulled
      cases row with
      | none => exact .pure trivial
      | some row =>
        refine .bind (.ofExcept fun _ _ => trivial) fun b _ => ?_
        cases b with
        | false => exact ih _
        | true => exact .pure trivial
    | nestedLoopJoin left right condition c =>
      simp only [next]
      cases c.currentLeft with
      | none => exact .pure trivial
      | some l =>
        cases c.rightRows[c.rightCursor]? with
        | none => exact (ih left).bind fun _ _ => ih _
        | some r =>
          refine .bind (.ofExcept fun _ _ => trivial) fun b _ => ?_
          cases b with
          | false => exact ih _
          | true => exact .pure trivial
    | hashJoin buildSide probeSide buildColumn probeColumn c =>
      simp only [next]
      cases c.currentProbe with
      | none => exact .pure trivial
      | some p =>
        refine .ite (.bind (.ofExcept (P := fun _ => True) fun _ _ => trivial) fun key _ =>
          .bind (.pure (P := fun _ => True) trivial) fun found _ => ?_)
          (.bind (.pure (P := fun _ => True) trivial) fun found _ => ?_)
        all_goals
          cases found[c.matchCursor]? with
          | none => exact (ih probeSide).bind fun _ _ => ih _
          | some b => exact .pure trivial
    | project input isStar items =>
      refine (ih input).bind fun pulled _ => ?_
      obtain ⟨row, input⟩ := pulled
      cases row with
      | none => exact .pure trivial
      | some row =>
        exact .ite (.pure trivial) (.bind (.ofExcept fun _ _ => trivial) fun row _ => .pure trivial)

theorem drain_obeys (h : real.Obey I T counted) {α : Type} (f : ExecRow → Except Exn α) (fuel : Nat)
    (plan : PhysicalPlan) : Obeys I (drain real f fuel plan) fun _ => True := by
  induction fuel generalizing plan with
  | zero => exact .throw _
  | succ fuel ih =>
    refine (next_obeys h fuel plan).bind fun pulled _ => ?_
    obtain ⟨row, plan⟩ := pulled
    cases row with
    | none => exact .pure trivial
    | some row =>
      exact .bind (.ofExcept fun _ _ => trivial) fun kept _ =>
        (ih plan).bind fun _ _ => .pure trivial

/-- Opening a plan scans its tables. -/
theorem open_obeys (h : real.Obey I T counted) (fuel : Nat) (plan : PhysicalPlan) (hT : plan.tables ⊆ T) :
    Obeys I (plan.open real fuel) fun _ => True := by
  induction plan with
  | scan table aliasName c =>
    exact (h.scanTable table (hT List.mem_cons_self)).bind fun rows _ => .pure trivial
  | filter input predicate ih => exact (ih hT).bind fun input _ => .pure trivial
  | nestedLoopJoin left right condition c ihl ihr =>
    rw [tables, scans, List.map_append] at hT
    exact (ihl (List.append_subset.mp hT).1).bind fun left _ =>
      (ihr (List.append_subset.mp hT).2).bind fun right _ =>
        (drain_obeys h _ fuel right).bind fun drained _ =>
          (next_obeys h fuel left).bind fun _ _ => .pure trivial
  | hashJoin buildSide probeSide buildColumn probeColumn c ihb ihp =>
    rw [tables, scans, List.map_append] at hT
    exact (ihb (List.append_subset.mp hT).2).bind fun build _ =>
      (drain_obeys h _ fuel build).bind fun drained _ =>
        (ihp (List.append_subset.mp hT).1).bind fun probe _ =>
          (next_obeys h fuel probe).bind fun _ _ => .pure trivial
  | project input isStar items ih => exact (ih hT).bind fun input _ => .pure trivial

theorem run_obeys (h : real.Obey I T counted) (fuel : Nat) (plan : PhysicalPlan) (hT : plan.tables ⊆ T) :
    Obeys I (plan.run real fuel) fun _ => True :=
  (open_obeys h fuel plan hT).bind fun plan _ =>
    (drain_obeys h _ fuel plan).bind fun _ _ => .pure trivial

variable [Add N] [Mul N]

/-- Estimating a plan counts its tables. -/
theorem estimatedRows_obeys (h : real.Obey I T counted) (hc : counted) (plan : PhysicalPlan)
    (hT : plan.tables ⊆ T) : Obeys I (plan.estimatedRows real) fun _ => True := by
  induction plan with
  | scan table aliasName c => exact h.estimatedRowCount hc table (hT List.mem_cons_self)
  | filter input predicate ih => exact ih hT
  | nestedLoopJoin left right condition c ihl ihr =>
    rw [tables, scans, List.map_append] at hT
    exact (ihl (List.append_subset.mp hT).1).bind fun l _ =>
      (ihr (List.append_subset.mp hT).2).bind fun r _ => .pure trivial
  | hashJoin buildSide probeSide buildColumn probeColumn c ihb ihp =>
    rw [tables, scans, List.map_append] at hT
    exact (ihb (List.append_subset.mp hT).2).bind fun b _ =>
      (ihp (List.append_subset.mp hT).1).bind fun p _ => .pure trivial
  | project input isStar items ih => exact ih hT

end PhysicalPlan

/-! ## Planning -/

theorem pickConnected_obeys [LT N] [DecidableLT N] (h : real.Obey I T counted) (hc : counted)
    (joinedAliases : List Bytes) (i : Nat) (nodes : List (TableNode × Bool)) (best : Option (Nat × N))
    (hT : ∀ p ∈ nodes, p.1.table ∈ T) :
    Obeys I (pickConnected real joinedAliases i nodes best) fun _ => True := by
  induction nodes generalizing i best with
  | nil => exact .pure trivial
  | cons entry nodes ih =>
    obtain ⟨node, consumed⟩ := entry
    have hnodes : ∀ p ∈ nodes, p.1.table ∈ T := fun p hp => hT p (List.mem_cons_of_mem _ hp)
    cases consumed with
    | true => exact ih _ _ hnodes
    | false =>
      simp only [pickConnected]
      cases node.joinCondition with
      | none => exact .throw _
      | some condition =>
        exact .ite ((h.estimatedRowCount hc node.table (hT _ List.mem_cons_self)).bind fun rows _ =>
          .ite (ih _ _ hnodes) (ih _ _ hnodes)) (ih _ _ hnodes)

section

variable [Add N] [Mul N] [LE N] [DecidableLE N]

/-- A join scans the tables of the plan and the next one. -/
theorem tables_joinNext (leftRows rightRows : N) (accumulated : PhysicalPlan) (next : TableNode)
    (condition : Expr) (hacc : accumulated.tables ⊆ T) (hnext : next.table ∈ T) :
    (joinNext leftRows rightRows accumulated next condition).tables ⊆ T := by
  intro name hname
  have hperm := (scans_joinNext leftRows rightRows accumulated next condition).map Prod.fst
  rcases List.mem_cons.mp (hperm.mem_iff.mp hname) with rfl | hname
  · exact hnext
  · exact hacc hname

variable [LT N] [DecidableLT N]

/-- **Step.** The plan of the joined tables scans tables of `T`. -/
theorem joinStep_obeys (h : real.Obey I T counted) (hc : counted) {nodes : List TableNode} {s : JoinState}
    (hT : ∀ node ∈ nodes, node.table ∈ T) (hs : s.accumulated.tables ⊆ T) :
    Obeys I (joinStep real nodes s) fun s' => s'.accumulated.tables ⊆ T := by
  have hpick := pickConnected_obeys (N := N) h hc s.joinedAliases 1 ((nodes.zip s.consumed).drop 1) none
    fun p hp => hT _ (List.of_mem_zip (List.mem_of_mem_drop hp)).1
  refine hpick.bind fun best _ => ?_
  cases (best.map (·.1)).or (firstUnconsumed s.consumed) with
  | none => exact .throw _
  | some idx =>
    simp only
    cases hnode : nodes[idx]? with
    | none => exact .throw _
    | some next =>
      simp only
      have hnext := hT next (List.mem_of_getElem? hnode)
      cases next.joinCondition with
      | none => exact .throw _
      | some condition =>
        exact (h.estimatedRowCount hc next.table hnext).bind fun rightRows _ =>
          (s.accumulated.estimatedRows_obeys h hc hs).bind fun leftRows _ =>
            .pure (tables_joinNext leftRows rightRows s.accumulated next condition hs hnext)

/-- **Run.** -/
theorem joinLoop_obeys (h : real.Obey I T counted) {nodes : List TableNode} (remaining : Nat)
    {s : JoinState} (hc : remaining ≠ 0 → counted) (hT : ∀ node ∈ nodes, node.table ∈ T)
    (hs : s.accumulated.tables ⊆ T) :
    Obeys I (joinLoop real nodes remaining s) fun s' => s'.accumulated.tables ⊆ T := by
  induction remaining generalizing s with
  | zero => exact .pure hs
  | succ remaining ih =>
    have hcounted := hc (Nat.succ_ne_zero remaining)
    exact (joinStep_obeys h hcounted hT hs).bind fun s' hs' => ih (fun _ => hcounted) hs'

theorem buildPhysicalPlan_obeys {stmt : SelectStmt} (h : real.Obey I stmt.asked (stmt.joins ≠ [])) :
    Obeys I (buildPhysicalPlan real (buildLogicalPlan stmt)) fun plan => plan.tables ⊆ stmt.asked := by
  have hflatten := flattenJoins_foldl [⟨stmt.from.table, stmt.from.name, none⟩] stmt.joins
    (makeScan stmt.from) rfl
  have hT : ∀ node ∈ (⟨stmt.from.table, stmt.from.name, none⟩ :: stmt.joins.map JoinClause.node :
      List TableNode), node.table ∈ stmt.asked := by
    intro node hnode
    rcases List.mem_cons.mp hnode with rfl | hnode
    · exact List.mem_cons_self
    · obtain ⟨join, hjoin, rfl⟩ := List.mem_map.mp hnode
      exact List.mem_cons_of_mem _ (List.mem_map.mpr ⟨join, hjoin, rfl⟩)
  have hinit : (PhysicalPlan.newScan stmt.from.table stmt.from.name).tables ⊆ stmt.asked := by
    intro name hname
    exact List.mem_singleton.mp hname ▸ List.mem_cons_self
  have hloop := joinLoop_obeys h (stmt.joins.map JoinClause.node).length (s := .init
    ⟨stmt.from.table, stmt.from.name, none⟩ (stmt.joins.map JoinClause.node))
    (fun hne hnil => hne (by rw [hnil]; rfl)) hT hinit
  rw [buildLogicalPlan]
  generalize stmt.joins.foldl (fun plan join => .join plan (makeScan join.table) join.onCondition)
    (makeScan stmt.from) = tree at hflatten ⊢
  cases hfilter : stmt.where with
  | some predicate =>
    simp only [buildPhysicalPlan, hflatten, ofExcept]
    exact hloop.bind fun s hs => .pure hs
  | none =>
    -- what flattens is no filter itself
    cases tree with
    | filter input predicate => cases hflatten
    | project input isStar items => cases hflatten
    | _ =>
      simp only [buildPhysicalPlan, hflatten, ofExcept]
      exact hloop.bind fun s hs => .pure hs

/-- **A `SELECT` keeps what its scans and counts keep.** -/
theorem Engine.executeSelect_obeys {stmt : SelectStmt} (h : real.Obey I stmt.asked (stmt.joins ≠ []))
    (fuel : Nat) : Obeys I (executeSelect real fuel stmt) fun _ => True :=
  (buildPhysicalPlan_obeys h).bind fun plan hplan =>
    (plan.run_obeys h fuel hplan).bind fun _ _ => .pure trivial

end

end

end Reldb
