import Reldb.Engine
import Reldb.Lib.Agrees

/-!
# Reldb — plans only ask

Planning and running a `SELECT` ask the catalog for schemas, rows and counts, and do nothing else to it. So
they do what they do over any pure `CatalogReads` with the same answers.
-/

namespace Reldb

variable {σ N : Type}

/-- The answers of one are those of the other, in every state in `I`. -/
structure CatalogReads.Agree (I : σ → Prop) (real : CatalogReads (Prog σ) N)
    (ideal : CatalogReads (Except Exn) N) : Prop where
  getSchema : ∀ name, Agrees I (real.getSchema name) (ideal.getSchema name)
  scanTable : ∀ name, Agrees I (real.scanTable name) (ideal.scanTable name)
  estimatedRowCount : ∀ name, Agrees I (real.estimatedRowCount name) (ideal.estimatedRowCount name)

variable {I : σ → Prop} {real : CatalogReads (Prog σ) N} {ideal : CatalogReads (Except Exn) N}

namespace PhysicalPlan

theorem next_agrees (h : real.Agree I ideal) (fuel : Nat) (plan : PhysicalPlan) :
    Agrees I (plan.next real fuel) (plan.next ideal fuel) := by
  induction fuel generalizing plan with
  | zero => exact .throw _
  | succ fuel ih =>
    cases plan with
    | scan table aliasName c =>
      simp only [next]
      cases c.rows[c.cursor]? with
      | none => exact .pure _
      | some values =>
        exact .bind (h.getSchema table) fun schema => .bind (.ofExcept _) fun row => .pure _
    | filter input predicate =>
      refine .bind (ih input) fun (row, input) => ?_
      cases row with
      | none => exact .pure _
      | some row =>
        refine .bind (.ofExcept _) fun b => ?_
        cases b with
        | false => exact ih _
        | true => exact .pure _
    | nestedLoopJoin left right condition c =>
      simp only [next]
      cases c.currentLeft with
      | none => exact .pure _
      | some l =>
        cases c.rightRows[c.rightCursor]? with
        | none => exact .bind (ih left) fun (row, left) => ih _
        | some r =>
          refine .bind (.ofExcept _) fun b => ?_
          cases b with
          | false => exact ih _
          | true => exact .pure _
    | hashJoin buildSide probeSide buildColumn probeColumn c =>
      simp only [next]
      cases c.currentProbe with
      | none => exact .pure _
      | some p =>
        -- the lists cached or computed just now are used alike
        refine .ite (.bind (.ofExcept _) fun key => .bind (.pure _) fun found => ?_)
          (.bind (.pure _) fun found => ?_)
        all_goals
          cases found[c.matchCursor]? with
          | none => exact .bind (ih probeSide) fun (row, probeSide) => ih _
          | some b => exact .pure _
    | project input isStar items =>
      refine .bind (ih input) fun (row, input) => ?_
      cases row with
      | none => exact .pure _
      | some row => exact .ite (.pure _) (.bind (.ofExcept _) fun row => .pure _)

theorem drain_agrees (h : real.Agree I ideal) {α : Type} (f : ExecRow → Except Exn α) (fuel : Nat)
    (plan : PhysicalPlan) : Agrees I (drain real f fuel plan) (drain ideal f fuel plan) := by
  induction fuel generalizing plan with
  | zero => exact .throw _
  | succ fuel ih =>
    refine .bind (next_agrees h fuel plan) fun (row, plan) => ?_
    cases row with
    | none => exact .pure _
    | some row =>
      exact .bind (.ofExcept _) fun kept => .bind (ih plan) fun (rest, plan) => .pure _

theorem open_agrees (h : real.Agree I ideal) (fuel : Nat) (plan : PhysicalPlan) :
    Agrees I (plan.open real fuel) (plan.open ideal fuel) := by
  induction plan with
  | scan table aliasName c => exact .bind (h.scanTable table) fun rows => .pure _
  | filter input predicate ih => exact .bind ih fun input => .pure _
  | nestedLoopJoin left right condition c ihl ihr =>
    exact .bind ihl fun left => .bind ihr fun right =>
      .bind (drain_agrees h _ fuel right) fun (rows, right) =>
        .bind (next_agrees h fuel left) fun (row, left) => .pure _
  | hashJoin buildSide probeSide buildColumn probeColumn c ihb ihp =>
    exact .bind ihb fun build => .bind (drain_agrees h _ fuel build) fun (rows, build) =>
      .bind ihp fun probe => .bind (next_agrees h fuel probe) fun (row, probe) => .pure _
  | project input isStar items ih => exact .bind ih fun input => .pure _

theorem run_agrees (h : real.Agree I ideal) (fuel : Nat) (plan : PhysicalPlan) :
    Agrees I (plan.run real fuel) (plan.run ideal fuel) :=
  .bind (open_agrees h fuel plan) fun plan =>
    .bind (drain_agrees h _ fuel plan) fun _ => .pure _

variable [Add N] [Mul N]

theorem estimatedRows_agrees (h : real.Agree I ideal) (plan : PhysicalPlan) :
    Agrees I (plan.estimatedRows real) (plan.estimatedRows ideal) := by
  induction plan with
  | scan table aliasName c => exact h.estimatedRowCount table
  | filter input predicate ih => exact ih
  | nestedLoopJoin left right condition c ihl ihr =>
    exact .bind ihl fun l => .bind ihr fun r => .pure _
  | hashJoin buildSide probeSide buildColumn probeColumn c ihb ihp =>
    exact .bind ihb fun b => .bind ihp fun p => .pure _
  | project input isStar items ih => exact ih

end PhysicalPlan

theorem pickConnected_agrees [LT N] [DecidableLT N] (h : real.Agree I ideal) (joinedAliases : List Bytes) (i : Nat)
    (nodes : List (TableNode × Bool)) (best : Option (Nat × N)) :
    Agrees I (pickConnected real joinedAliases i nodes best)
      (pickConnected ideal joinedAliases i nodes best) := by
  induction nodes generalizing i best with
  | nil => exact .pure _
  | cons entry nodes ih =>
    obtain ⟨node, consumed⟩ := entry
    cases consumed with
    | true => exact ih _ _
    | false =>
      simp only [pickConnected]
      cases node.joinCondition with
      | none => exact .throw _
      | some condition =>
        exact .ite (.bind (h.estimatedRowCount node.table) fun rows => .ite (ih _ _) (ih _ _))
          (ih _ _)

variable [Add N] [Mul N] [LE N] [LT N] [DecidableLE N] [DecidableLT N]

theorem joinStep_agrees (h : real.Agree I ideal) (nodes : List TableNode) (s : JoinState) :
    Agrees I (joinStep real nodes s) (joinStep ideal nodes s) := by
  refine .bind (pickConnected_agrees h _ _ _ _) fun best => ?_
  cases (best.map (·.1)).or (firstUnconsumed s.consumed) with
  | none => exact .throw _
  | some idx =>
    simp only
    cases nodes[idx]? with
    | none => exact .throw _
    | some next =>
      simp only
      cases next.joinCondition with
      | none => exact .throw _
      | some condition =>
        exact .bind (h.estimatedRowCount next.table) fun rightRows =>
          .bind (s.accumulated.estimatedRows_agrees h) fun leftRows => .pure _

theorem joinLoop_agrees (h : real.Agree I ideal) (nodes : List TableNode) (remaining : Nat)
    (s : JoinState) :
    Agrees I (joinLoop real nodes remaining s) (joinLoop ideal nodes remaining s) := by
  induction remaining generalizing s with
  | zero => exact .pure _
  | succ remaining ih => exact .bind (joinStep_agrees h nodes s) fun s => ih s

theorem buildPhysicalPlan_agrees (h : real.Agree I ideal) (plan : LogicalNode) :
    Agrees I (buildPhysicalPlan real plan) (buildPhysicalPlan ideal plan) := by
  cases plan with
  | project input isStar items =>
    refine .bind (.ofExcept _) fun nodes => ?_
    cases nodes with
    | nil => exact .throw _
    | cons first nodes => exact .bind (joinLoop_agrees h _ _ _) fun s => .pure _
  | scan table aliasName => exact .throw _
  | filter input predicate => exact .throw _
  | join left right condition => exact .throw _

namespace Engine

theorem executeSelect_agrees (h : real.Agree I ideal) (fuel : Nat) (stmt : SelectStmt) :
    Agrees I (executeSelect real fuel stmt) (executeSelect ideal fuel stmt) :=
  .bind (buildPhysicalPlan_agrees h _) fun physical =>
    .bind (physical.run_agrees h fuel) fun _ => .pure _

end Engine

end Reldb
