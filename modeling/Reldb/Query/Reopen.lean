import Reldb.Query.Costs
import Reldb.Query.Header

/-!
# Reldb — plans opened again

`Open` looks at no cursor: it reads the operators of a plan and their parameters, which no call changes
(`PhysicalPlan.reset`). So it does on a plan in any state what it does on a fresh one. An iterator whose `Next`
returned no row is exhausted, and stays so until it is opened.
-/

namespace Reldb

namespace PhysicalPlan

/-- The plan as constructed: every cursor at its start. -/
def reset : PhysicalPlan → PhysicalPlan
  | .scan table aliasName _ => newScan table aliasName
  | .filter input predicate => .filter input.reset predicate
  | .nestedLoopJoin left right condition _ => newNestedLoopJoin left.reset right.reset condition
  | .hashJoin buildSide probeSide buildColumn probeColumn _ =>
    newHashJoin buildSide.reset probeSide.reset buildColumn probeColumn
  | .project input isStar items => .project input.reset isStar items

/-- Its next `Next` returns no row. -/
def Exhausted : PhysicalPlan → Prop
  | .scan _ _ c => c.rows[c.cursor]? = none
  | .filter input _ => input.Exhausted
  | .nestedLoopJoin _ _ _ c => c.currentLeft = none
  | .hashJoin _ _ _ _ c => c.currentProbe = none
  | .project input _ _ => input.Exhausted

/-- The operators between the root and the one that decides whether the plan is exhausted. -/
def spine : PhysicalPlan → Nat
  | .filter input _ | .project input _ _ => input.spine + 1
  | _ => 0

theorem reset_close (plan : PhysicalPlan) : plan.close.reset = plan.reset := by
  induction plan with
  | scan table aliasName c => rfl
  | filter input predicate ih => rw [close, reset, ih, reset]
  | nestedLoopJoin left right condition c ihl ihr => rw [close, reset, ihl, reset]
  | hashJoin buildSide probeSide buildColumn probeColumn c ihb ihp => rw [close, reset, ihp, reset]
  | project input isStar items ih => rw [close, reset, ih, reset]

theorem Exhausted.close {plan : PhysicalPlan} (h : plan.Exhausted) : plan.close.Exhausted := by
  induction plan with
  | scan table aliasName c => rfl
  | filter input predicate ih => exact ih h
  | nestedLoopJoin left right condition c ihl ihr => exact h
  | hashJoin buildSide probeSide buildColumn probeColumn c ihb ihp => exact h
  | project input isStar items ih => exact ih h

/-- `Open` starts from the plan as constructed. -/
theorem open_reset {m : Type → Type} [Monad m] [MonadExcept Exn m] {N : Type} (cat : CatalogReads m N)
    (fuel : Nat) (plan : PhysicalPlan) : plan.reset.open cat fuel = plan.open cat fuel := by
  induction plan with
  | scan table aliasName c => rfl
  | filter input predicate ih => rw [reset, «open», ih, «open»]
  | nestedLoopJoin left right condition c ihl ihr =>
    rw [reset, newNestedLoopJoin, «open», ihl, ihr, «open»]
  | hashJoin buildSide probeSide buildColumn probeColumn c ihb ihp =>
    rw [reset, newHashJoin, «open», ihb, ihp, «open»]
  | project input isStar items ih => rw [reset, «open», ih, «open»]

section

variable {N : Type} {cat : CatalogReads (Except Exn) N} {plan plan' : PhysicalPlan}
  {row : Option ExecRow} {fuel : Nat}

theorem bind_eq_ok {α β : Type} {x : Except Exn α} {f : α → Except Exn β} {b : β}
    (h : (x >>= f) = .ok b) : ∃ a, x = .ok a ∧ f a = .ok b := by
  cases x with
  | error e => cases h
  | ok a => exact ⟨a, rfl, h⟩

/-- **Step.** `Next` leaves the plan the same but for its cursors, and exhausted if it returned no row. -/
theorem next_leaves (h : plan.next cat fuel = .ok (row, plan')) :
    plan'.reset = plan.reset ∧ (row = none → plan'.Exhausted) := by
  induction fuel generalizing plan plan' row with
  | zero => cases h
  | succ fuel ih =>
    cases plan with
    | scan table aliasName c =>
      rw [next] at h
      cases hrow : c.rows[c.cursor]? with
      | none =>
        rw [hrow] at h
        obtain ⟨rfl, rfl⟩ := Prod.mk.inj (Except.ok.inj h)
        exact ⟨rfl, fun _ => hrow⟩
      | some values =>
        simp only [hrow] at h
        obtain ⟨schema, -, h⟩ := bind_eq_ok h
        obtain ⟨fields, -, h⟩ := bind_eq_ok h
        obtain ⟨rfl, rfl⟩ := Prod.mk.inj (Except.ok.inj h)
        exact ⟨rfl, fun hnone => by cases hnone⟩
    | filter input predicate =>
      rw [next] at h
      obtain ⟨⟨row₁, input₁⟩, hinput, h⟩ := bind_eq_ok h
      obtain ⟨hreset, hend⟩ := ih hinput
      cases row₁ with
      | none =>
        obtain ⟨rfl, rfl⟩ := Prod.mk.inj (Except.ok.inj h)
        exact ⟨congrArg (PhysicalPlan.filter · predicate) hreset, hend⟩
      | some r =>
        obtain ⟨b, -, h⟩ := bind_eq_ok h
        cases b with
        | false =>
          obtain ⟨hreset', hend'⟩ := ih h
          exact ⟨hreset'.trans (congrArg (PhysicalPlan.filter · predicate) hreset), hend'⟩
        | true =>
          obtain ⟨rfl, rfl⟩ := Prod.mk.inj (Except.ok.inj h)
          exact ⟨congrArg (PhysicalPlan.filter · predicate) hreset, fun hnone => by cases hnone⟩
    | nestedLoopJoin left right condition c =>
      rw [next] at h
      cases hleft : c.currentLeft with
      | none =>
        rw [hleft] at h
        obtain ⟨rfl, rfl⟩ := Prod.mk.inj (Except.ok.inj h)
        exact ⟨rfl, fun _ => hleft⟩
      | some l =>
        cases hright : c.rightRows[c.rightCursor]? with
        | some r =>
          simp only [hleft, hright] at h
          obtain ⟨b, -, h⟩ := bind_eq_ok h
          cases b with
          | false =>
            rw [if_neg (by decide)] at h
            obtain ⟨hreset, hend⟩ := ih h
            exact ⟨hreset, hend⟩
          | true =>
            obtain ⟨rfl, rfl⟩ := Prod.mk.inj (Except.ok.inj h)
            exact ⟨rfl, fun hnone => by cases hnone⟩
        | none =>
          simp only [hleft, hright] at h
          obtain ⟨⟨row₁, left₁⟩, hnext, h⟩ := bind_eq_ok h
          obtain ⟨hreset, hend⟩ := ih h
          refine ⟨hreset.trans ?_, hend⟩
          exact congrArg (newNestedLoopJoin · right.reset condition) (ih hnext).1
    | hashJoin buildSide probeSide buildColumn probeColumn c =>
      rw [next] at h
      cases hprobe : c.currentProbe with
      | none =>
        rw [hprobe] at h
        obtain ⟨rfl, rfl⟩ := Prod.mk.inj (Except.ok.inj h)
        exact ⟨rfl, fun _ => hprobe⟩
      | some p =>
        simp only [hprobe] at h
        -- whether the matches were computed just now or before, the pass goes on with them
        split at h
        on_goal 1 => obtain ⟨key, -, h⟩ := bind_eq_ok h
        all_goals
          obtain ⟨found, -, h⟩ := bind_eq_ok h
          cases hmatch : found[c.matchCursor]? with
          | some b =>
            rw [hmatch] at h
            obtain ⟨rfl, rfl⟩ := Prod.mk.inj (Except.ok.inj h)
            exact ⟨rfl, fun hnone => by cases hnone⟩
          | none =>
            rw [hmatch] at h
            obtain ⟨⟨row₁, probe₁⟩, hnext, h⟩ := bind_eq_ok h
            obtain ⟨hreset, hend⟩ := ih h
            refine ⟨hreset.trans ?_, hend⟩
            exact congrArg (newHashJoin buildSide.reset · buildColumn probeColumn) (ih hnext).1
    | project input isStar items =>
      rw [next] at h
      obtain ⟨⟨row₁, input₁⟩, hinput, h⟩ := bind_eq_ok h
      obtain ⟨hreset, hend⟩ := ih hinput
      have hsame : (PhysicalPlan.project input₁ isStar items).reset
          = (PhysicalPlan.project input isStar items).reset :=
        congrArg (PhysicalPlan.project · isStar items) hreset
      cases row₁ with
      | none =>
        obtain ⟨rfl, rfl⟩ := Prod.mk.inj (Except.ok.inj h)
        exact ⟨hsame, hend⟩
      | some r =>
        cases isStar with
        | true =>
          obtain ⟨rfl, rfl⟩ := Prod.mk.inj (Except.ok.inj h)
          exact ⟨hsame, fun hnone => by cases hnone⟩
        | false =>
          obtain ⟨fields, -, h⟩ := bind_eq_ok h
          obtain ⟨rfl, rfl⟩ := Prod.mk.inj (Except.ok.inj h)
          exact ⟨hsame, fun hnone => by cases hnone⟩

/-- An exhausted plan returns no row, and stays as it is. -/
theorem Exhausted.next (h : plan.Exhausted) (hfuel : plan.spine < fuel) :
    plan.next cat fuel = .ok (none, plan) := by
  induction plan generalizing fuel with
  | scan table aliasName c =>
    obtain ⟨fuel, rfl⟩ := Nat.exists_eq_add_of_lt hfuel
    rw [PhysicalPlan.next, show c.rows[c.cursor]? = none from h]
    rfl
  | filter input predicate ih =>
    obtain ⟨fuel, rfl⟩ := Nat.exists_eq_succ_of_ne_zero (Nat.ne_zero_of_lt hfuel)
    rw [PhysicalPlan.next, ih h (Nat.lt_of_succ_lt_succ hfuel)]
    rfl
  | nestedLoopJoin left right condition c ihl ihr =>
    obtain ⟨fuel, rfl⟩ := Nat.exists_eq_succ_of_ne_zero (Nat.ne_zero_of_lt hfuel)
    rw [PhysicalPlan.next, show c.currentLeft = none from h]
    rfl
  | hashJoin buildSide probeSide buildColumn probeColumn c ihb ihp =>
    obtain ⟨fuel, rfl⟩ := Nat.exists_eq_succ_of_ne_zero (Nat.ne_zero_of_lt hfuel)
    rw [PhysicalPlan.next, show c.currentProbe = none from h]
    rfl
  | project input isStar items ih =>
    obtain ⟨fuel, rfl⟩ := Nat.exists_eq_succ_of_ne_zero (Nat.ne_zero_of_lt hfuel)
    rw [PhysicalPlan.next, ih h (Nat.lt_of_succ_lt_succ hfuel)]
    rfl

theorem Exhausted.next_none (h : plan.Exhausted) (hrun : plan.next cat fuel = .ok (row, plan')) :
    row = none := by
  induction plan generalizing fuel row plan' with
  | scan table aliasName c =>
    cases fuel with
    | zero => cases hrun
    | succ fuel =>
      rw [PhysicalPlan.next, show c.rows[c.cursor]? = none from h] at hrun
      exact (Prod.mk.inj (Except.ok.inj hrun)).1.symm
  | filter input predicate ih =>
    cases fuel with
    | zero => cases hrun
    | succ fuel =>
      obtain ⟨⟨row₁, input₁⟩, hinput, hrun⟩ := bind_eq_ok hrun
      obtain rfl := ih h hinput
      exact (Prod.mk.inj (Except.ok.inj hrun)).1.symm
  | nestedLoopJoin left right condition c ihl ihr =>
    cases fuel with
    | zero => cases hrun
    | succ fuel =>
      rw [PhysicalPlan.next, show c.currentLeft = none from h] at hrun
      exact (Prod.mk.inj (Except.ok.inj hrun)).1.symm
  | hashJoin buildSide probeSide buildColumn probeColumn c ihb ihp =>
    cases fuel with
    | zero => cases hrun
    | succ fuel =>
      rw [PhysicalPlan.next, show c.currentProbe = none from h] at hrun
      exact (Prod.mk.inj (Except.ok.inj hrun)).1.symm
  | project input isStar items ih =>
    cases fuel with
    | zero => cases hrun
    | succ fuel =>
      obtain ⟨⟨row₁, input₁⟩, hinput, hrun⟩ := bind_eq_ok hrun
      obtain rfl := ih h hinput
      exact (Prod.mk.inj (Except.ok.inj hrun)).1.symm

theorem drain_leaves {α : Type} {keep : ExecRow → Except Exn α} {kept : List α}
    (h : drain cat keep fuel plan = .ok (kept, plan')) : plan'.reset = plan.reset := by
  induction fuel generalizing plan plan' kept with
  | zero => cases h
  | succ fuel ih =>
    obtain ⟨⟨row, plan₁⟩, hnext, h⟩ := bind_eq_ok h
    have hreset := (next_leaves hnext).1
    cases row with
    | none =>
      obtain ⟨-, rfl⟩ := Prod.mk.inj (Except.ok.inj h)
      exact hreset
    | some r =>
      obtain ⟨_, -, h⟩ := bind_eq_ok h
      obtain ⟨⟨rest, plan₂⟩, hrest, h⟩ := bind_eq_ok h
      obtain ⟨-, rfl⟩ := Prod.mk.inj (Except.ok.inj h)
      exact (ih hrest).trans hreset

theorem open_leaves (h : plan.open cat fuel = .ok plan') : plan'.reset = plan.reset := by
  induction plan generalizing plan' with
  | scan table aliasName c =>
    obtain ⟨rows, -, h⟩ := bind_eq_ok h
    obtain rfl := Except.ok.inj h
    rfl
  | filter input predicate ih =>
    obtain ⟨input₁, hinput, h⟩ := bind_eq_ok h
    obtain rfl := Except.ok.inj h
    exact congrArg (PhysicalPlan.filter · predicate) (ih hinput)
  | nestedLoopJoin left right condition c ihl ihr =>
    obtain ⟨left₁, hleft, h⟩ := bind_eq_ok h
    obtain ⟨right₁, hright, h⟩ := bind_eq_ok h
    obtain ⟨⟨rows, right₂⟩, hdrain, h⟩ := bind_eq_ok h
    obtain ⟨⟨row, left₂⟩, hnext, h⟩ := bind_eq_ok h
    obtain rfl := Except.ok.inj h
    rw [reset, reset, reset_close, (next_leaves hnext).1, ihl hleft, drain_leaves hdrain, ihr hright]
  | hashJoin buildSide probeSide buildColumn probeColumn c ihb ihp =>
    obtain ⟨build₁, hbuild, h⟩ := bind_eq_ok h
    obtain ⟨⟨rows, build₂⟩, hdrain, h⟩ := bind_eq_ok h
    obtain ⟨probe₁, hprobe, h⟩ := bind_eq_ok h
    obtain ⟨⟨row, probe₂⟩, hnext, h⟩ := bind_eq_ok h
    obtain rfl := Except.ok.inj h
    rw [reset, reset, reset_close, (next_leaves hnext).1, ihp hprobe, drain_leaves hdrain, ihb hbuild]
  | project input isStar items ih =>
    obtain ⟨input₁, hinput, h⟩ := bind_eq_ok h
    obtain rfl := Except.ok.inj h
    exact congrArg (PhysicalPlan.project · isStar items) (ih hinput)

end

end PhysicalPlan

namespace Catalog

/-- What calls of `Open`, `Next` and `Close` that return make of a plan and the catalog it reads. -/
inductive Iterates (cat : Catalog) (p : PhysicalPlan) : Catalog → PhysicalPlan → Prop where
  | start : Iterates cat p cat p
  | «open» {cat' cat₁ : Catalog} {q q₁ : PhysicalPlan} {fuel : Nat} (before : Iterates cat p cat' q)
      (call : q.open reads fuel cat' = .ok q₁ cat₁) : Iterates cat p cat₁ q₁
  | next {cat' cat₁ : Catalog} {q q₁ : PhysicalPlan} {fuel : Nat} {row : Option ExecRow}
      (before : Iterates cat p cat' q) (call : q.next reads fuel cat' = .ok (row, q₁) cat₁) :
      Iterates cat p cat₁ q₁
  | close {cat' : Catalog} {q : PhysicalPlan} (before : Iterates cat p cat' q) :
      Iterates cat p cat' q.close

/-- The same with no `Open` among the calls. -/
inductive Idles (cat : Catalog) (p : PhysicalPlan) : Catalog → PhysicalPlan → Prop where
  | start : Idles cat p cat p
  | next {cat' cat₁ : Catalog} {q q₁ : PhysicalPlan} {fuel : Nat} {row : Option ExecRow}
      (before : Idles cat p cat' q) (call : q.next reads fuel cat' = .ok (row, q₁) cat₁) :
      Idles cat p cat₁ q₁
  | close {cat' : Catalog} {q : PhysicalPlan} (before : Idles cat p cat' q) : Idles cat p cat' q.close

variable {cat cat' cat₁ : Catalog} {db : Contents} {p q q₁ : PhysicalPlan}

theorem resultIn_ok {σ α : Type} {s s' : σ} {x : Except Exn α} {a : α} (h : resultIn s x = .ok a s') :
    x = .ok a ∧ s = s' := by
  cases x with
  | error e => cases h
  | ok b =>
    obtain ⟨rfl, rfl⟩ := EStateM.Result.ok.inj h
    exact ⟨rfl, rfl⟩

theorem Shows.next {fuel : Nat} {row : Option ExecRow} (h : cat.Shows db)
    (hrun : q.next reads fuel cat = .ok (row, q₁) cat₁) :
    cat₁.Shows db ∧ q.next (db.reads id) fuel = .ok (row, q₁) := by
  obtain ⟨cat₂, h₂, hsame⟩ := q.next_agrees (reads_agree db) fuel cat h
  obtain ⟨hpure, rfl⟩ := resultIn_ok (hsame.symm.trans hrun)
  exact ⟨h₂, hpure⟩

theorem Iterates.shows (h : Iterates cat p cat' q) (hdb : cat.Shows db) :
    cat'.Shows db ∧ q.reset = p.reset := by
  induction h with
  | start => exact ⟨hdb, rfl⟩
  | @«open» cat' cat₁ q q₁ fuel before call ih =>
    obtain ⟨hdb', hreset⟩ := ih
    obtain ⟨cat₂, h₂, hsame⟩ := q.open_agrees (reads_agree db) fuel cat' hdb'
    obtain ⟨hpure, rfl⟩ := resultIn_ok (hsame.symm.trans call)
    exact ⟨h₂, (PhysicalPlan.open_leaves hpure).trans hreset⟩
  | next before call ih =>
    obtain ⟨hdb', hreset⟩ := ih
    obtain ⟨h₁, hpure⟩ := hdb'.next call
    exact ⟨h₁, (PhysicalPlan.next_leaves hpure).1.trans hreset⟩
  | close before ih =>
    obtain ⟨hdb', hreset⟩ := ih
    exact ⟨hdb', (PhysicalPlan.reset_close _).trans hreset⟩

/-- **Run.** Once exhausted, always exhausted. -/
theorem Idles.exhausted (h : Idles cat p cat' q) (hdb : cat.Shows db) (hp : p.Exhausted) :
    cat'.Shows db ∧ q.Exhausted := by
  induction h with
  | start => exact ⟨hdb, hp⟩
  | next before call ih =>
    obtain ⟨hdb', hq⟩ := ih
    obtain ⟨h₁, hpure⟩ := hdb'.next call
    exact ⟨h₁, (PhysicalPlan.next_leaves hpure).2 (hq.next_none hpure)⟩
  | close before ih =>
    obtain ⟨hdb', hq⟩ := ih
    exact ⟨hdb', hq.close⟩

/-- Plans of one shape have the same rows, whatever their cursors. -/
theorem rowsOf_reset (db : Contents) (p : PhysicalPlan) : db.rowsOf p.reset = db.rowsOf p := by
  obtain ⟨x, hx, hrows⟩ := PhysicalPlan.run_settles (db.reads id) p
  obtain ⟨y, hy, hrows'⟩ := PhysicalPlan.run_settles (db.reads id) p.reset
  have hrun : ∀ fuel, p.reset.run (db.reads id) fuel = p.run (db.reads id) fuel := fun fuel => by
    rw [PhysicalPlan.run, PhysicalPlan.run, PhysicalPlan.open_reset]
  obtain rfl := hy.unique (hx.congr hrun)
  exact hrows'.symm.trans hrows

/-- **A plan can be opened again.** Where no evaluation throws, a plan has rows to give, and gives the
same ones from `Open` to exhaustion whatever calls came before; and after a `Next` that returned no row
each further one, until the next `Open`, returns no row too. -/
theorem plan_reopens (h : cat.Shows db) (p : PhysicalPlan) (hrows : db.rowsOf p ≠ none) :
    ∃ rows, cat.Produces p rows ∧ ∀ cat' q, Iterates cat p cat' q →
      (∃ rows', cat'.Produces q rows' ∧ rows'.Perm rows) ∧
      ∀ fuel q₁ cat₁, q.next reads fuel cat' = .ok (none, q₁) cat₁ →
        ∀ cat₂ q₂, Idles cat₁ q₁ cat₂ q₂ →
          (∃ n, ∀ fuel, n ≤ fuel → ∃ cat₃, q₂.next reads fuel cat₂ = .ok (none, q₂) cat₃) ∧
          ∀ fuel row q₃ cat₃, q₂.next reads fuel cat₂ = .ok (row, q₃) cat₃ → row = none := by
  obtain ⟨rows, hrows⟩ := Option.ne_none_iff_exists'.mp hrows
  refine ⟨rows, h.produces_iff.mpr hrows, fun cat' q hiter => ?_⟩
  obtain ⟨h', hreset⟩ := hiter.shows h
  refine ⟨⟨rows, h'.produces_iff.mpr ?_, .refl rows⟩, fun fuel q₁ cat₁ hnext cat₂ q₂ hidle => ?_⟩
  · rw [← rowsOf_reset, hreset, rowsOf_reset]
    exact hrows
  obtain ⟨h₁, hpure⟩ := h'.next hnext
  obtain ⟨h₂, hexhausted⟩ := hidle.exhausted h₁ ((PhysicalPlan.next_leaves hpure).2 rfl)
  refine ⟨⟨q₂.spine + 1, fun fuel hfuel => ?_⟩, fun fuel row q₃ cat₃ hrun => ?_⟩
  · obtain ⟨cat₃, -, hsame⟩ := q₂.next_agrees (reads_agree db) fuel cat₂ h₂
    rw [hexhausted.next hfuel] at hsame
    exact ⟨cat₃, hsame⟩
  · exact hexhausted.next_none (h₂.next hrun).2

end Catalog

/-- The table of two rows hash-joined with itself under a projection. -/
def twoRowsJoined : PhysicalPlan :=
  .project (.newHashJoin (.newScan (text "t") (text "t")) (.newScan (text "t") (text "u"))
    ⟨some (text "t"), text "id"⟩ ⟨some (text "u"), text "id"⟩) true []

theorem plan_reopens_joined : ∃ (cat : Catalog) (rows : List ExecRow), cat.Reached ∧
    rows.length = 2 ∧ cat.Produces twoRowsJoined rows ∧
    ∀ cat' q, Catalog.Iterates cat twoRowsJoined cat' q → ∃ rows', cat'.Produces q rows' ∧ rows'.Perm rows := by
  obtain ⟨cat, hreached, htables, -⟩ := exists_hasTwoRows
  obtain ⟨db, h⟩ := hreached.shows
  obtain rfl := h.eq_ofTables htables
  have hlength : ((Contents.ofTables [twoRows]).rowsOf twoRowsJoined).map List.length = some 2 := by
    decide +kernel
  have hrows : (Contents.ofTables [twoRows]).rowsOf twoRowsJoined ≠ none := by
    intro hnone
    rw [hnone] at hlength
    cases hlength
  obtain ⟨rows, hproduces, hagain⟩ := Catalog.plan_reopens h twoRowsJoined hrows
  rw [h.produces_iff.mp hproduces] at hlength
  exact ⟨cat, rows, hreached, Option.some.inj hlength, hproduces, fun cat' q hiter =>
    (hagain cat' q hiter).1⟩

end Reldb
