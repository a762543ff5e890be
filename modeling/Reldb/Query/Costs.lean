import Reldb.Query.Planner

/-!
# Reldb — costs in 64 bits

The join loop compares a sum with a product, and two sides, in `uint64_t`. Over unbounded numbers it would
plan alike as long as no remainder compares otherwise than its number.
-/

namespace Reldb

/-- The comparisons of a join step come out as over unbounded numbers. -/
def Unwrapped (l : Nat) (r : UInt64) : Prop :=
  ((l + r.toNat) % 2 ^ 64 ≤ (l * r.toNat) % 2 ^ 64 ↔ l + r.toNat ≤ l * r.toNat) ∧
    (l + r.toNat ≤ l * r.toNat → (l % 2 ^ 64 ≤ r.toNat ↔ l ≤ r.toNat))

instance (l : Nat) (r : UInt64) : Decidable (Unwrapped l r) := inferInstanceAs (Decidable (_ ∧ _))

namespace Contents

variable (db : Contents)

/-- At every step of the unbounded plan that has an equality to use, the comparisons do not wrap. -/
def CostsUnwrapped (stmt : SelectStmt) : Prop :=
  db.Along UInt64.toNat
    (fun plan join => join.refs.isSome = true →
      Unwrapped (db.estimate UInt64.toNat plan) (db.countOf join.table.table))
    (.newScan stmt.from.table stmt.from.name)
    (db.joinOrder stmt.joins.length [stmt.from.name] stmt.joins)

end Contents

/-- The plan of a `SELECT`, and the one over unbounded numbers, are the same. -/
def Catalog.PlansUnbounded (cat : Catalog) (stmt : SelectStmt) : Prop :=
  ∃ plan cat₁ cat₂, buildPhysicalPlan reads (buildLogicalPlan stmt) cat = .ok plan cat₁ ∧
    buildPhysicalPlan (readsAs UInt64.toNat) (buildLogicalPlan stmt) cat = .ok plan cat₂

/-! ## One step -/

section

variable {db : Contents} {plan plan' : PhysicalPlan} {join : JoinClause} {l : Nat} {r : UInt64}

/-- Where neither the sum nor the product overflows, nothing wraps. -/
theorem Unwrapped.of_lt (hsum : l + r.toNat < 2 ^ 64) (hprod : l * r.toNat < 2 ^ 64) :
    Unwrapped l r := by
  have hl : l < 2 ^ 64 := by omega
  rw [Unwrapped, Nat.mod_eq_of_lt hsum, Nat.mod_eq_of_lt hprod, Nat.mod_eq_of_lt hl]
  exact ⟨.rfl, fun _ => .rfl⟩

theorem cost_le_iff (l : Nat) (r : UInt64) : UInt64.ofNat l + r ≤ UInt64.ofNat l * r
    ↔ (l + r.toNat) % 2 ^ 64 ≤ (l * r.toNat) % 2 ^ 64 := by
  rw [UInt64.le_iff_toNat_le, UInt64.toNat_add, UInt64.toNat_mul, UInt64.toNat_ofNat',
    Nat.mod_add_mod, Nat.mod_mul_mod]

theorem side_le_iff (l : Nat) (r : UInt64) : UInt64.ofNat l ≤ r ↔ l % 2 ^ 64 ≤ r.toNat := by
  rw [UInt64.le_iff_toNat_le, UInt64.toNat_ofNat']

/-- A plan that does not scan the alias of a clause is not its scan. -/
theorem ne_scan (hnew : join.table.name ∉ plan.scans.map Prod.snd) : plan ≠ join.scan := by
  rintro rfl
  exact hnew List.mem_cons_self

/-- **Step.** The same join is made exactly where nothing that is compared wraps. -/
theorem joinClause_eq_iff (db : Contents) (hnew : join.table.name ∉ plan.scans.map Prod.snd) :
    db.joinClause id plan join = db.joinClause UInt64.toNat plan join
      ↔ (join.refs.isSome = true →
        Unwrapped (db.estimate UInt64.toNat plan) (db.countOf join.table.table)) := by
  cases hrefs : join.refs with
  | none =>
    rw [joinClause_of_none hrefs, joinClause_of_none hrefs]
    exact ⟨fun _ => nofun, fun _ => rfl⟩
  | some refs =>
    obtain ⟨nextRef, accRef⟩ := refs
    rw [joinClause_of_some hrefs, joinClause_of_some hrefs, Unwrapped, estimate_ofNat]
    simp only [id, cost_le_iff, side_le_iff, Option.isSome_some, true_implies]
    generalize db.estimate UInt64.toNat plan = l
    generalize db.countOf join.table.table = r
    have hne := ne_scan hnew
    -- the choices in 64 bits against the choices over the numbers
    by_cases hcost : (l + r.toNat) % 2 ^ 64 ≤ (l * r.toNat) % 2 ^ 64 <;>
      by_cases hcost' : l + r.toNat ≤ l * r.toNat
    · simp only [hcost, hcost', if_true, true_and, true_implies]
      by_cases hside : l % 2 ^ 64 ≤ r.toNat <;> by_cases hside' : l ≤ r.toNat <;>
        simp [hside', PhysicalPlan.newHashJoin, hne, hne.symm]
    · rw [if_pos hcost, if_neg hcost']
      refine ⟨fun h => ?_, fun h => absurd (h.1.mp hcost) hcost'⟩
      split at h <;> cases h
    · rw [if_neg hcost, if_pos hcost']
      refine ⟨fun h => ?_, fun h => absurd (h.1.mpr hcost') hcost⟩
      split at h <;> cases h
    · simp only [hcost, hcost', if_false, false_implies, and_true]

/-- A join tells its plan. -/
theorem joinClause_injective (h : db.joinClause id plan join = db.joinClause UInt64.toNat plan' join) :
    plan = plan' := by
  rcases joinClause_cases id db plan join with hl | ⟨_, _, hl | hl⟩ <;>
    rcases joinClause_cases UInt64.toNat db plan' join with hr | ⟨_, _, hr | hr⟩ <;>
    rw [hl, hr] at h <;> cases h <;> rfl

end

/-! ## The whole plan -/

section

variable {cat : Catalog} {db : Contents} {stmt : SelectStmt} {order : List JoinClause}
  {plan plan' : PhysicalPlan}

theorem eq_of_foldl_eq (h : order.foldl (db.joinClause id) plan
    = order.foldl (db.joinClause UInt64.toNat) plan') : plan = plan' := by
  induction order generalizing plan plan' with
  | nil => exact h
  | cons join order ih => exact joinClause_injective (ih h)

/-- **Run.** The same plan is built exactly where no step wraps. -/
theorem foldl_eq_iff (plan : PhysicalPlan)
    (hdistinct : (order.map (·.table.name) ++ plan.scans.map Prod.snd).Nodup) :
    order.foldl (db.joinClause id) plan = order.foldl (db.joinClause UInt64.toNat) plan
      ↔ db.Along UInt64.toNat (fun plan join => join.refs.isSome = true →
        Unwrapped (db.estimate UInt64.toNat plan) (db.countOf join.table.table)) plan order := by
  induction order generalizing plan with
  | nil => exact ⟨fun _ => trivial, fun _ => rfl⟩
  | cons join order ih =>
    rw [List.map_cons, List.cons_append] at hdistinct
    obtain ⟨hnew, -⟩ := List.nodup_cons.mp hdistinct
    have hnew : join.table.name ∉ plan.scans.map Prod.snd :=
      fun hmem => hnew (List.mem_append_right _ hmem)
    have hstep := joinClause_eq_iff db hnew
    have hperm := ((scans_joinClause UInt64.toNat db plan join).map Prod.snd).symm
    have hrest := ih (db.joinClause UInt64.toNat plan join)
      ((List.perm_middle.symm.trans (hperm.append_left _)).nodup_iff.mp hdistinct)
    rw [List.foldl_cons, List.foldl_cons, Contents.Along]
    constructor
    · intro h
      have heq := eq_of_foldl_eq h
      rw [heq] at h
      exact ⟨hstep.mp heq, hrest.mp h⟩
    · rintro ⟨hjoin, horder⟩
      rw [hstep.mpr hjoin]
      exact hrest.mpr horder

theorem selectPlan_eq_iff (h : db.Accepts stmt) :
    db.selectPlan id stmt = db.selectPlan UInt64.toNat stmt ↔ db.CostsUnwrapped stmt := by
  have hperm := (joinOrder_perm db [stmt.from.name] stmt.joins).map (·.table.name)
  have hdistinct : ((db.joinOrder stmt.joins.length [stmt.from.name] stmt.joins).map (·.table.name)
      ++ (PhysicalPlan.newScan stmt.from.table stmt.from.name).scans.map Prod.snd).Nodup := by
    refine ((List.perm_append_singleton _ _).trans (hperm.cons _)).nodup_iff.mpr ?_
    have := h.distinct
    rwa [SelectStmt.tables, List.map_cons, List.map_map] at this
  rw [Contents.CostsUnwrapped, ← foldl_eq_iff _ hdistinct, Contents.selectPlan, Contents.selectPlan,
    Contents.joinPlan, Contents.joinPlan]
  cases stmt.where with
  | none => simp only [PhysicalPlan.project.injEq, and_true]
  | some predicate => simp only [PhysicalPlan.project.injEq, PhysicalPlan.filter.injEq, and_true]

/-- The plans on a catalog are the plans over the contents. -/
theorem Catalog.Shows.plansUnbounded_iff_eq (h : cat.Shows db)
    (hvalid : validateStatement cat (.select stmt) = .ok ()) :
    cat.PlansUnbounded stmt ↔ db.selectPlan id stmt = db.selectPlan UInt64.toNat stmt := by
  obtain ⟨cat₁, -, hrun⟩ := h.buildPhysicalPlan (Catalog.reads_agree db)
    (fun a b => UInt64.lt_iff_toNat_lt) hvalid
  obtain ⟨cat₂, -, hrun'⟩ := h.buildPhysicalPlan (Catalog.readsAs_agree UInt64.toNat db)
    (fun a b => .rfl) hvalid
  rw [Catalog.PlansUnbounded, hrun, hrun']
  constructor
  · rintro ⟨plan, _, _, heq, heq'⟩
    obtain ⟨rfl, -⟩ := EStateM.Result.ok.inj heq
    exact (EStateM.Result.ok.inj heq').1.symm
  · exact fun heq => ⟨_, cat₁, cat₂, rfl, by rw [heq]⟩

/-- **The plan of an accepted `SELECT` is the one over unbounded numbers exactly when no comparison of it
wraps.** -/
theorem plansUnbounded_iff (h : cat.Shows db)
    (hvalid : validateStatement cat (.select stmt) = .ok ()) :
    cat.PlansUnbounded stmt ↔ db.CostsUnwrapped stmt := by
  rw [h.plansUnbounded_iff_eq hvalid, selectPlan_eq_iff (h.accepts hvalid)]

end

/-- A table of two rows. -/
def twoRows : TableContents where
  schema := ⟨text "t", [⟨text "id", .integer, true⟩]⟩
  rows := [[.int 1], [.int 2]]
  count := 2
  valid := ⟨rfl, by decide⟩
  stored := TableContents.stored_of_all (by decide +kernel)

/-- The calls that make the table. -/
def twoRowsOps : List CatalogOp :=
  [.createTable (text "t") [⟨text "id", .integer, true⟩], .insertRow (text "t") [.int 1],
    .insertRow (text "t") [.int 2]]

/-- `SELECT * FROM t JOIN t AS u ON t.id = u.id`. -/
def selfJoin : SelectStmt where
  isStar := true
  selectItems := []
  «from» := ⟨text "t", none⟩
  joins := [⟨⟨text "t", some (text "u")⟩, .comparison .eq (.columnRef (some (text "t")) (text "id"))
    (.columnRef (some (text "u")) (text "id"))⟩]
  «where» := none

/-- `SELECT * FROM t JOIN t AS x0 ON 1 = 1 ... JOIN t AS x62 ON 1 = 1 JOIN t AS u ON t.id = u.id`. -/
def longJoin : SelectStmt :=
  { selfJoin with
    joins := (List.range 63).map (fun i => ⟨⟨text "t", some (text "x" ++ text (Nat.repr i))⟩,
      .comparison .eq (.literal (.integer 1)) (.literal (.integer 1))⟩) ++ selfJoin.joins }

/-- The table, with the two statements accepted. -/
def HasTwoRows (cat : Catalog) : Prop :=
  cat.HasTables [twoRows] ∧ validateStatement cat (.select selfJoin) = .ok () ∧
    validateStatement cat (.select longJoin) = .ok ()

instance : DecidablePred HasTwoRows := fun _ => inferInstanceAs (Decidable (_ ∧ _ ∧ _))

theorem exists_hasTwoRows : ∃ cat : Catalog, cat.Reached ∧ HasTwoRows cat :=
  Catalog.exists_reached 4 twoRowsOps (by decide +kernel)

/-- Two rows joined with two: a sum of 4 against a product of 4. -/
theorem plansUnbounded_iff_selfJoin :
    ∃ cat : Catalog, cat.Reached ∧ cat.PlansUnbounded selfJoin := by
  obtain ⟨cat, hreached, htables, hvalid, -⟩ := exists_hasTwoRows
  obtain ⟨db, h⟩ := hreached.shows
  obtain rfl := h.eq_ofTables htables
  refine ⟨cat, hreached, (plansUnbounded_iff h hvalid).mpr ⟨fun _ => ?_, trivial⟩⟩
  exact Unwrapped.of_lt (by decide +kernel) (by decide +kernel)

/-- 64 tables of two rows multiply to an estimate of 0. -/
theorem not_plansUnbounded_longJoin : ¬ ∀ (cat : Catalog) (db : Contents) (stmt : SelectStmt),
    cat.Shows db → validateStatement cat (.select stmt) = .ok () → cat.PlansUnbounded stmt := by
  intro hall
  obtain ⟨cat, hreached, htables, -, hvalid⟩ := exists_hasTwoRows
  obtain ⟨db, h⟩ := hreached.shows
  obtain rfl := h.eq_ofTables htables
  have hne : (Contents.ofTables [twoRows]).selectPlan id longJoin
      ≠ (Contents.ofTables [twoRows]).selectPlan UInt64.toNat longJoin := by decide +kernel
  exact hne ((h.plansUnbounded_iff_eq hvalid).mp (hall cat _ longJoin h hvalid))

end Reldb
