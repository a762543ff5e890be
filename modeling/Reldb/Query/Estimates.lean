import Reldb.Query.Joins
import Reldb.Query.Planner
import Reldb.Tables.Counts

/-!
# Reldb — estimates and rows

`EstimatedRows` multiplies the inputs of a nested loop and adds those of a hash join. As long as the counts
of the tables cover their rows and nothing overflows, the product bounds what a nested loop returns. The
sum bounds what a hash join returns where no more pairs than that match.
-/

namespace Reldb

open BufferPool

/-- A property of every node of a plan. -/
def PhysicalPlan.Each (P : PhysicalPlan → Prop) : PhysicalPlan → Prop
  | .scan table aliasName c => P (.scan table aliasName c)
  | .filter input predicate => P (.filter input predicate) ∧ input.Each P
  | .nestedLoopJoin left right condition c =>
    P (.nestedLoopJoin left right condition c) ∧ left.Each P ∧ right.Each P
  | .hashJoin buildSide probeSide buildColumn probeColumn c =>
    P (.hashJoin buildSide probeSide buildColumn probeColumn c) ∧ buildSide.Each P ∧ probeSide.Each P
  | .project input isStar items => P (.project input isStar items) ∧ input.Each P

namespace Contents

variable (db : Contents)

/-- The estimate of a join does not overflow. -/
def Fits : PhysicalPlan → Prop
  | .nestedLoopJoin left right _ _ =>
    db.estimate UInt64.toNat left * db.estimate UInt64.toNat right < 2 ^ 64
  | .hashJoin buildSide probeSide _ _ _ =>
    db.estimate UInt64.toNat buildSide + db.estimate UInt64.toNat probeSide < 2 ^ 64
  | _ => True

end Contents

/-! ## One node -/

section

variable {db : Contents} {plan input left right buildSide probeSide : PhysicalPlan}
  {P Q : PhysicalPlan → Prop} {rows : List ExecRow}

theorem PhysicalPlan.Each.self (h : plan.Each P) : P plan := by
  cases plan with
  | scan table aliasName c => exact h
  | filter input predicate => exact h.1
  | nestedLoopJoin left right condition c => exact h.1
  | hashJoin buildSide probeSide bref pref c => exact h.1
  | project input isStar items => exact h.1

end

/-! ## Runs -/

namespace Catalog

section

variable {base : Files} {cat : Catalog} {body : CatalogBody} {trees : Nat → AnyTree} {db : Contents}
  {n : Nat} {stmt : SelectStmt}

/-- **Run.** As long as no split starves, counts cover rows. -/
theorem Covered.run (hcover : Covered n body.tables trees) (h : Ready base cat body)
    (hf : Forest cat.bufferPool.view body.tables trees) {ops : List CatalogOp}
    (hops : cat.Finishing ops) : ∃ body' trees', Ready base (cat.afterAll ops) body' ∧
      Forest (cat.afterAll ops).bufferPool.view body'.tables trees' ∧
      Covered (n + ops.length) body'.tables trees' := by
  induction ops generalizing cat body trees n with
  | nil => exact ⟨body, trees, h, hf, hcover⟩
  | cons op ops ih =>
    obtain ⟨hop, hops⟩ := hops
    obtain ⟨body', trees', hm⟩ := h.moved hf op
    have hrest := ih (hcover.moved h hf hm hop) (hm.ready h) (hm.forest h hf) hops
    rwa [Nat.add_assoc, Nat.add_comm 1] at hrest

end

end Catalog

section

variable {cat : Catalog} {db : Contents} {stmt : SelectStmt} {plan : PhysicalPlan}
  {P Q : PhysicalPlan → Prop}

theorem PhysicalPlan.Each.congr (hknown : plan.Known db)
    (h : ∀ node : PhysicalPlan, node.Known db → (P node ↔ Q node)) : plan.Each P ↔ plan.Each Q := by
  induction plan with
  | scan table aliasName c => exact h _ hknown
  | filter input predicate ih => exact and_congr (h _ hknown) (ih hknown)
  | nestedLoopJoin left right condition c ihl ihr =>
    exact and_congr (h _ hknown) (and_congr (ihl fun p hp => hknown p (List.mem_append_left _ hp))
      (ihr fun p hp => hknown p (List.mem_append_right _ hp)))
  | hashJoin buildSide probeSide bref pref c ihb ihp =>
    exact and_congr (h _ hknown) (and_congr (ihb fun p hp => hknown p (List.mem_append_right _ hp))
      (ihp fun p hp => hknown p (List.mem_append_left _ hp)))
  | project input isStar items ih => exact and_congr (h _ hknown) (ih hknown)

end

end Reldb
