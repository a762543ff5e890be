import Mathlib.Data.List.MinMax
import Reldb.Query.Validate

/-!
# Reldb — the join order

`BuildPhysicalPlan` flags the nodes it consumed and looks for the next one by index. Over the contents of
the tables it joins the clauses one after the other in an order, `joinOrder`, that their row counts decide
and no estimate: the connected one with the fewest rows, the first of them in the text.
-/

namespace Reldb

/-- The node of a `JOIN` clause. -/
def JoinClause.node (join : JoinClause) : TableNode :=
  ⟨join.table.table, join.table.name, some join.onCondition⟩

/-- Every alias the condition of a clause mentions, but its own, is joined. -/
def JoinClause.connected (join : JoinClause) (joined : List Bytes) : Bool :=
  join.node.connected join.onCondition joined

/-- The columns of a condition that is an equality with a column of the new table: that column, and the
one of the plan so far. -/
def JoinClause.refs (join : JoinClause) : Option (ColumnRef × ColumnRef) :=
  (extractEquiJoin join.onCondition).bind fun columns =>
    equiSides join.table.name columns.1 columns.2

namespace Contents

/-- The stored count of a table. -/
def countOf (db : Contents) (name : Bytes) : UInt64 :=
  match db name with
  | some t => t.count
  | none => 0

/-- The clause joined next. -/
def nextJoin (db : Contents) (joined : List Bytes) (pending : List JoinClause) : Option JoinClause :=
  ((pending.filter (·.connected joined)).argmin fun join => (db.countOf join.table.table).toNat).or
    pending.head?

/-- The order the greedy loop joins `n` more clauses in. -/
def joinOrder (db : Contents) : Nat → List Bytes → List JoinClause → List JoinClause
  | 0, _, _ => []
  | n + 1, joined, pending =>
    match db.nextJoin joined pending with
    | none => []
    | some join => join :: joinOrder db n (join.table.name :: joined) (pending.erase join)

section

variable {N : Type} [Add N] [Mul N] (cast : UInt64 → N) (db : Contents)

/-- `EstimatedRows` over the contents. -/
def estimate : PhysicalPlan → N
  | .scan table _ _ => cast (db.countOf table)
  | .filter input _ => estimate input
  | .nestedLoopJoin left right _ _ => estimate left * estimate right
  | .hashJoin buildSide probeSide _ _ _ => estimate buildSide + estimate probeSide
  | .project input _ _ => estimate input

variable [LE N] [LT N] [DecidableLE N] [DecidableLT N]

/-- A plan joined with one more table. -/
def joinClause (plan : PhysicalPlan) (join : JoinClause) : PhysicalPlan :=
  joinNext (db.estimate cast plan) (cast (db.countOf join.table.table)) plan join.node join.onCondition

/-- The plan of the `FROM` and `JOIN` clauses. -/
def joinPlan (stmt : SelectStmt) : PhysicalPlan :=
  (db.joinOrder stmt.joins.length [stmt.from.name] stmt.joins).foldl (db.joinClause cast)
    (.newScan stmt.from.table stmt.from.name)

/-- The plan of a `SELECT`. -/
def selectPlan (stmt : SelectStmt) : PhysicalPlan :=
  let plan := match stmt.where with
    | some predicate => .filter (db.joinPlan cast stmt) predicate
    | none => db.joinPlan cast stmt
  .project plan stmt.isStar stmt.selectItems

end

end Contents

/-- Sums and products in 64 bits are those of the numbers, reduced. -/
theorem estimate_ofNat (db : Contents) (plan : PhysicalPlan) :
    db.estimate id plan = UInt64.ofNat (db.estimate UInt64.toNat plan) := by
  induction plan with
  | scan table aliasName c => exact UInt64.ofNat_toNat.symm
  | filter input predicate ih => exact ih
  | nestedLoopJoin left right condition c ihl ihr =>
    rw [Contents.estimate, Contents.estimate, ihl, ihr, UInt64.ofNat_mul]
  | hashJoin buildSide probeSide bref pref c ihb ihp =>
    rw [Contents.estimate, Contents.estimate, ihb, ihp, UInt64.ofNat_add]
  | project input isStar items ih => exact ih

/-! ## Flags and pending clauses -/

/-- The clauses whose flags are down, with their indices. -/
def pendingAt : Nat → List JoinClause → List Bool → List (Nat × JoinClause)
  | i, join :: joins, false :: flags => (i, join) :: pendingAt (i + 1) joins flags
  | i, _ :: joins, true :: flags => pendingAt (i + 1) joins flags
  | _, _, _ => []

section

variable {joins : List JoinClause} {flags : List Bool} {join : JoinClause} {i k : Nat}

theorem pendingAt_of_false (joins : List JoinClause) (i : Nat) :
    (pendingAt i joins (joins.map fun _ => false)).map Prod.snd = joins := by
  induction joins generalizing i with
  | nil => rfl
  | cons join joins ih => exact congrArg (join :: ·) (ih (i + 1))

theorem mem_pendingAt (h : (k, join) ∈ pendingAt i joins flags) :
    ∃ j, k = i + j ∧ joins[j]? = some join := by
  induction joins generalizing i flags with
  | nil => cases h
  | cons join' joins ih =>
    cases flags with
    | nil => cases h
    | cons flag flags =>
      have hrest : (k, join) ∈ pendingAt (i + 1) joins flags →
          ∃ j, k = i + j ∧ (join' :: joins)[j]? = some join := by
        intro h
        obtain ⟨j, rfl, hj⟩ := ih h
        exact ⟨j + 1, by omega, hj⟩
      cases flag with
      | true => exact hrest h
      | false =>
        rcases List.mem_cons.mp h with heq | h
        · obtain ⟨rfl, rfl⟩ := Prod.mk.inj heq
          exact ⟨0, rfl, rfl⟩
        · exact hrest h

theorem pendingAt_subset (i : Nat) (joins : List JoinClause) (flags : List Bool) :
    (pendingAt i joins flags).map Prod.snd ⊆ joins := by
  intro join h
  obtain ⟨⟨k, join⟩, hmem, rfl⟩ := List.mem_map.mp h
  obtain ⟨j, -, hj⟩ := mem_pendingAt hmem
  exact List.mem_of_getElem? hj

/-- A clause consumed is pending no more. -/
theorem pendingAt_set (hnodup : joins.Nodup) (hlen : flags.length = joins.length)
    (hget : joins[k]? = some join) :
    (pendingAt i joins (flags.set k true)).map Prod.snd
      = ((pendingAt i joins flags).map Prod.snd).erase join := by
  induction joins generalizing i k flags with
  | nil => cases hget
  | cons join' joins ih =>
    cases flags with
    | nil => cases hlen
    | cons flag flags =>
      obtain ⟨hnotin, hnodup⟩ := List.nodup_cons.mp hnodup
      have hlen := Nat.succ.inj hlen
      cases k with
      | zero =>
        obtain rfl := Option.some.inj hget
        cases flag with
        | false => exact (List.erase_cons_head join' _).symm
        | true =>
          exact (List.erase_of_not_mem fun h => hnotin (pendingAt_subset _ _ _ h)).symm
      | succ k =>
        have hne : join' ≠ join := fun heq => hnotin (heq ▸ List.mem_of_getElem? hget)
        have hrest := ih (i := i + 1) hnodup hlen hget
        cases flag with
        | false =>
          show join' :: _ = (join' :: _).erase join
          rw [List.erase_cons_tail (by simpa using hne), hrest]
        | true => exact hrest

/-- The fallback is the first clause pending. -/
theorem firstUnconsumed_eq (i : Nat) (hlen : flags.length = joins.length) :
    (flags.findIdx? (!·)).map (· + i) = (pendingAt i joins flags).head?.map Prod.fst := by
  induction joins generalizing i flags with
  | nil =>
    cases flags with
    | nil => rfl
    | cons flag flags => cases hlen
  | cons join joins ih =>
    cases flags with
    | nil => cases hlen
    | cons flag flags =>
      rw [List.findIdx?_cons]
      cases flag with
      | false => exact congrArg some (Nat.zero_add i)
      | true =>
        rw [pendingAt, ← ih (i + 1) (Nat.succ.inj hlen)]
        cases flags.findIdx? (!·) with
        | none => rfl
        | some j =>
          show some (j + 1 + i) = some (j + (i + 1))
          rw [Nat.add_right_comm, Nat.add_assoc]

end

/-! ## The pick -/

/-- The least of the images is the image of the least. -/
theorem argmin_map {α β : Type} (f : α → β) (g : β → Nat) (as : List α) :
    (as.map f).argmin g = (as.argmin (g ∘ f)).map f := by
  have hfold : ∀ best : Option α,
      (as.map f).foldl (List.argAux fun b c => g b < g c) (best.map f)
        = (as.foldl (List.argAux fun b c => (g ∘ f) b < (g ∘ f) c) best).map f := by
    induction as with
    | nil => exact fun _ => rfl
    | cons a as ih =>
      intro best
      have hstep : List.argAux (fun b c => g b < g c) (best.map f) (f a)
          = (List.argAux (fun b c => (g ∘ f) b < (g ∘ f) c) best a).map f := by
        cases best with
        | none => rfl
        | some b =>
          simp only [List.argAux, Option.map_some, Function.comp]
          split <;> rfl
      rw [List.map_cons, List.foldl_cons, List.foldl_cons, hstep, ih]
  exact hfold none

section

variable {N : Type} {cast : UInt64 → N} {db : Contents} {joined : List Bytes}
  {joins : List JoinClause}

/-- What `best_idx` and `best_rows` hold of a clause. -/
def bestOf (cast : UInt64 → N) (db : Contents) (p : Nat × JoinClause) : Nat × N :=
  (p.1, cast (db.countOf p.2.table.table))

theorem estimatedRowCount_eq {name : Bytes} (h : ∃ t, db name = some t) :
    (db.reads cast).estimatedRowCount name = .ok (cast (db.countOf name)) := by
  obtain ⟨t, ht⟩ := h
  simp only [Contents.reads, Contents.table, Contents.countOf, ht, Except.map]

variable [LT N] [DecidableLT N]

/-- The scan for the next node keeps the least of the connected ones. -/
theorem pickConnected_eq (joined : List Bytes)
    (hcast : ∀ a b, cast a < cast b ↔ a.toNat < b.toNat)
    (hknown : ∀ join ∈ joins, ∃ t, db join.table.table = some t) (i : Nat) (flags : List Bool)
    (best : Option (Nat × JoinClause)) :
    pickConnected (db.reads cast) joined i ((joins.map JoinClause.node).zip flags)
        (best.map (bestOf cast db))
      = .ok ((((pendingAt i joins flags).filter (·.2.connected joined)).foldl
          (List.argAux fun b c => (db.countOf b.2.table.table).toNat
            < (db.countOf c.2.table.table).toNat) best).map (bestOf cast db)) := by
  induction joins generalizing i flags best with
  | nil => rfl
  | cons join joins ih =>
    obtain ⟨hjoin, hknown⟩ := List.forall_mem_cons.mp hknown
    cases flags with
    | nil => rfl
    | cons flag flags =>
      cases flag with
      | true => exact ih hknown (i + 1) flags best
      | false =>
        rw [pendingAt, List.filter_cons, List.map_cons, List.zip_cons_cons, pickConnected]
        show (if join.connected joined then _ else _) = _
        by_cases hconn : join.connected joined = true
        · have hrows : (db.reads cast).estimatedRowCount join.node.table
              = .ok (cast (db.countOf join.table.table)) := estimatedRowCount_eq hjoin
          rw [if_pos hconn, if_pos hconn, hrows, List.foldl_cons]
          cases best with
          | none => exact ih hknown (i + 1) flags (some (i, join))
          | some b =>
            show (if (some (bestOf cast db b)).all _ then _ else _) = _
            simp only [Option.all_some, bestOf, decide_eq_true_eq, hcast, List.argAux]
            split
            · exact ih hknown (i + 1) flags (some (i, join))
            · exact ih hknown (i + 1) flags (some b)
        · rw [if_neg hconn, if_neg hconn]
          exact ih hknown (i + 1) flags best

/-- One pick: the clause of the index it ends with. -/
theorem nextJoin_eq (db : Contents) (joins : List JoinClause) (joined : List Bytes)
    (flags : List Bool) (i : Nat) :
    db.nextJoin joined ((pendingAt i joins flags).map Prod.snd)
      = ((((pendingAt i joins flags).filter (·.2.connected joined)).argmin
          fun p => (db.countOf p.2.table.table).toNat).or (pendingAt i joins flags).head?).map
        Prod.snd := by
  rw [Contents.nextJoin, List.filter_map, argmin_map, List.head?_map, Option.map_or]
  rfl

end

/-! ## The tables of a plan -/

/-- The tables a plan scans, with their aliases, in the order of its rows' fields. -/
def PhysicalPlan.scans : PhysicalPlan → List (Bytes × Bytes)
  | .scan table aliasName _ => [(table, aliasName)]
  | .filter input _ => input.scans
  | .nestedLoopJoin left right _ _ => left.scans ++ right.scans
  | .hashJoin buildSide probeSide _ _ _ => probeSide.scans ++ buildSide.scans
  | .project input _ _ => input.scans

/-- The tables of a plan exist. -/
def PhysicalPlan.Known (db : Contents) (plan : PhysicalPlan) : Prop :=
  ∀ p ∈ plan.scans, ∃ t, db p.1 = some t

section

variable {N : Type} {cast : UInt64 → N} {db : Contents} {plan : PhysicalPlan}
  {joins : List JoinClause} {join : JoinClause}

section

variable [Add N] [Mul N]

theorem estimatedRows_eq (h : plan.Known db) :
    plan.estimatedRows (db.reads cast) = .ok (db.estimate cast plan) := by
  induction plan with
  | scan table aliasName c => exact estimatedRowCount_eq (h _ List.mem_cons_self)
  | filter input predicate ih => exact ih h
  | nestedLoopJoin left right condition c ihl ihr =>
    rw [PhysicalPlan.estimatedRows, ihl fun p hp => h p (List.mem_append_left _ hp),
      ihr fun p hp => h p (List.mem_append_right _ hp)]
    rfl
  | hashJoin buildSide probeSide bref pref c ihb ihp =>
    rw [PhysicalPlan.estimatedRows, ihb fun p hp => h p (List.mem_append_right _ hp),
      ihp fun p hp => h p (List.mem_append_left _ hp)]
    rfl
  | project input isStar items ih => exact ih h

end

variable [Add N] [Mul N] [LE N] [DecidableLE N]

/-- The scan of a clause's table. -/
def JoinClause.scan (join : JoinClause) : PhysicalPlan :=
  .newScan join.table.table join.table.name

/-- A join without an equality to use is a nested loop. -/
theorem joinClause_of_none (h : join.refs = none) :
    db.joinClause cast plan join = .newNestedLoopJoin plan join.scan join.onCondition := by
  rw [Contents.joinClause, joinNext]
  rw [JoinClause.refs] at h
  cases hextract : extractEquiJoin join.onCondition with
  | none => rfl
  | some columns =>
    rw [hextract] at h
    have h : equiSides join.node.aliasName columns.1 columns.2 = none := h
    simp only [h, ite_self]
    rfl

/-- A join with one is what the two costs, and then the two sides, say. -/
theorem joinClause_of_some {nextRef accRef : ColumnRef} (h : join.refs = some (nextRef, accRef)) :
    db.joinClause cast plan join =
      if db.estimate cast plan + cast (db.countOf join.table.table)
          ≤ db.estimate cast plan * cast (db.countOf join.table.table) then
        if db.estimate cast plan ≤ cast (db.countOf join.table.table) then
          .newHashJoin plan join.scan accRef nextRef
        else .newHashJoin join.scan plan nextRef accRef
      else .newNestedLoopJoin plan join.scan join.onCondition := by
  rw [Contents.joinClause, joinNext]
  rw [JoinClause.refs] at h
  cases hextract : extractEquiJoin join.onCondition with
  | none =>
    rw [hextract] at h
    cases h
  | some columns =>
    rw [hextract] at h
    have h : equiSides join.node.aliasName columns.1 columns.2 = some (nextRef, accRef) := h
    simp only [h]
    rfl

/-- A join is one of three. -/
theorem joinClause_cases (cast : UInt64 → N) (db : Contents) (plan : PhysicalPlan)
    (join : JoinClause) :
    db.joinClause cast plan join = .newNestedLoopJoin plan join.scan join.onCondition ∨
      ∃ nextRef accRef, db.joinClause cast plan join = .newHashJoin plan join.scan accRef nextRef ∨
        db.joinClause cast plan join = .newHashJoin join.scan plan nextRef accRef := by
  cases hrefs : join.refs with
  | none => exact .inl (joinClause_of_none hrefs)
  | some refs =>
    rw [joinClause_of_some (show join.refs = some (refs.1, refs.2) from hrefs)]
    split
    · split
      · exact .inr ⟨refs.1, refs.2, .inl rfl⟩
      · exact .inr ⟨refs.1, refs.2, .inr rfl⟩
    · exact .inl rfl

/-- Whichever join it is, it scans the tables of the plan and the next one. -/
theorem scans_joinNext (leftRows rightRows : N) (plan : PhysicalPlan) (node : TableNode)
    (condition : Expr) : (joinNext leftRows rightRows plan node condition).scans.Perm
      ((node.table, node.aliasName) :: plan.scans) := by
  unfold joinNext
  split
  · exact List.perm_append_singleton _ _
  · split
    · split
      · exact List.perm_append_singleton _ _
      · split
        · exact .refl _
        · exact List.perm_append_singleton _ _
    · exact List.perm_append_singleton _ _

theorem scans_joinClause (cast : UInt64 → N) (db : Contents) (plan : PhysicalPlan)
    (join : JoinClause) : (db.joinClause cast plan join).scans.Perm
      ((join.table.table, join.table.name) :: plan.scans) :=
  scans_joinNext _ _ plan join.node join.onCondition

theorem PhysicalPlan.Known.joinClause (cast : UInt64 → N) (h : plan.Known db)
    (hjoin : ∃ t, db join.table.table = some t) : (db.joinClause cast plan join).Known db := by
  intro p hp
  rcases List.mem_cons.mp ((scans_joinClause _ _ _ _).mem_iff.mp hp) with rfl | hp
  · exact hjoin
  · exact h p hp

variable [LT N] [DecidableLT N]

variable (first : TableNode) (joined : List Bytes) (flags : List Bool)

/-- **Step.** One pass of the loop joins the clause picked and raises its flag. -/
theorem joinStep_eq (hcast : ∀ a b, cast a < cast b ↔ a.toNat < b.toNat)
    (hknown : ∀ join ∈ joins, ∃ t, db join.table.table = some t) (hnodup : joins.Nodup)
    (hlen : flags.length = joins.length) (hplan : plan.Known db)
    (hpending : (pendingAt 1 joins flags).map Prod.snd ≠ []) :
    ∃ join flags', db.nextJoin joined ((pendingAt 1 joins flags).map Prod.snd) = some join ∧
      join ∈ joins ∧ flags'.length = joins.length ∧
      (pendingAt 1 joins flags').map Prod.snd
        = ((pendingAt 1 joins flags).map Prod.snd).erase join ∧
      joinStep (db.reads cast) (first :: joins.map JoinClause.node) ⟨plan, joined, true :: flags⟩
        = .ok ⟨db.joinClause cast plan join, join.table.name :: joined, true :: flags'⟩ := by
  have hpick := pickConnected_eq joined hcast hknown 1 flags none
  rw [Option.map_none] at hpick
  generalize hbest : ((pendingAt 1 joins flags).filter (·.2.connected joined)).argmin
    (fun p => (db.countOf p.2.table.table).toNat) = best
  rw [show List.foldl _ none _ = best from hbest] at hpick
  have hnext := nextJoin_eq db joins joined flags 1
  rw [hbest] at hnext
  -- the index the pass ends with, and its clause
  obtain ⟨⟨k, join⟩, hk⟩ : ∃ p, best.or (pendingAt 1 joins flags).head? = some p := by
    rw [← Option.isSome_iff_exists, Option.isSome_or, Bool.or_eq_true, List.isSome_head?]
    exact .inr fun hnil => hpending (by rw [hnil]; rfl)
  have hmem : (k, join) ∈ pendingAt 1 joins flags := by
    rcases Option.or_eq_some_iff.mp hk with h | ⟨-, h⟩
    · exact List.mem_of_mem_filter (List.argmin_mem (hbest.trans h))
    · exact List.mem_of_head? h
  obtain ⟨j, hkj, hj⟩ := mem_pendingAt hmem
  obtain rfl : k = j + 1 := by omega
  have hidx : (best.map fun p => p.1).or (firstUnconsumed (true :: flags)) = some (j + 1) := by
    have hfirst : firstUnconsumed (true :: flags)
        = (pendingAt 1 joins flags).head?.map Prod.fst := firstUnconsumed_eq 1 hlen
    rw [hfirst, show (best.map fun p => p.1) = best.map Prod.fst from rfl, ← Option.map_or, hk]
    rfl
  refine ⟨join, flags.set j true, by rw [hnext, hk]; rfl, List.mem_of_getElem? hj,
    by rw [List.length_set, hlen], pendingAt_set hnodup hlen hj, ?_⟩
  have hnode : (first :: joins.map JoinClause.node)[j + 1]? = some join.node := by
    rw [List.getElem?_cons_succ, List.getElem?_map, hj]
    rfl
  have hrows : (db.reads cast).estimatedRowCount join.node.table
      = .ok (cast (db.countOf join.table.table)) :=
    estimatedRowCount_eq (hknown join (List.mem_of_getElem? hj))
  rw [joinStep]
  simp only [List.zip_cons_cons, List.drop_succ_cons, List.drop_zero, hpick, Bind.bind, Except.bind,
    Option.map_map]
  rw [show (best.map ((fun x : Nat × N => x.1) ∘ bestOf cast db)) = best.map fun p => p.1 from rfl, hidx]
  simp only [hnode, show join.node.joinCondition = some join.onCondition from rfl, hrows,
    estimatedRows_eq hplan]
  rfl

/-- **Run.** The loop joins the clauses in `joinOrder`. -/
theorem joinLoop_eq (hcast : ∀ a b, cast a < cast b ↔ a.toNat < b.toNat)
    (hknown : ∀ join ∈ joins, ∃ t, db join.table.table = some t) (hnodup : joins.Nodup)
    (hlen : flags.length = joins.length) (hplan : plan.Known db) {n : Nat}
    (hn : n ≤ (pendingAt 1 joins flags).length) :
    (joinLoop (db.reads cast) (first :: joins.map JoinClause.node) n ⟨plan, joined, true :: flags⟩).map
        (·.accumulated)
      = .ok ((db.joinOrder n joined ((pendingAt 1 joins flags).map Prod.snd)).foldl
          (db.joinClause cast) plan) := by
  induction n generalizing plan joined flags with
  | zero => rfl
  | succ n ih =>
    have hpending : (pendingAt 1 joins flags).map Prod.snd ≠ [] := by
      intro hnil
      rw [List.map_eq_nil_iff.mp hnil, List.length_nil] at hn
      omega
    obtain ⟨join, flags', hnext, hmem, hlen', hpending', hstep⟩ :=
      joinStep_eq first joined flags hcast hknown hnodup hlen hplan hpending
    have hn' : n ≤ (pendingAt 1 joins flags').length := by
      have hlength := congrArg List.length hpending'
      have herase := (List.le_length_erase (a := join)
        (l := (pendingAt 1 joins flags).map Prod.snd))
      rw [List.length_map] at hlength
      rw [List.length_map] at herase
      omega
    have hrest := ih (join.table.name :: joined) flags' hlen'
      (hplan.joinClause cast (hknown join hmem)) hn'
    rw [hpending'] at hrest
    rw [Contents.joinOrder, hnext, joinLoop, hstep]
    exact hrest

/-- A plan of scans joined from the left flattens to its tables. -/
theorem flattenJoins_foldl (tables : List TableNode) (joins : List JoinClause) (plan : LogicalNode)
    (h : flattenJoins plan = .ok tables) :
    flattenJoins (joins.foldl (fun plan join => .join plan (makeScan join.table) join.onCondition)
      plan) = .ok (tables ++ joins.map JoinClause.node) := by
  induction joins generalizing tables plan with
  | nil => rw [List.foldl_nil, h, List.map_nil, List.append_nil]
  | cons join joins ih =>
    rw [List.foldl_cons, List.map_cons, ih (tables ++ [join.node])]
    · rw [List.append_assoc, List.singleton_append]
    · rw [makeScan, flattenJoins, h]
      rfl

theorem buildPhysicalPlan_project {reads : CatalogReads (Except Exn) N} {tree : LogicalNode}
    {first : TableNode} {nodes : List TableNode} {s : JoinState} (hflatten : flattenJoins tree = .ok (first :: nodes))
    (hloop : joinLoop (reads) (first :: nodes) nodes.length (.init first nodes) = .ok s)
    (filter : Option Expr) (isStar : Bool) (items : List SelectItem) :
    buildPhysicalPlan (reads) (.project (match filter with
        | some predicate => .filter tree predicate
        | none => tree) isStar items)
      = .ok (.project (match filter with
        | some predicate => .filter s.accumulated predicate
        | none => s.accumulated) isStar items) := by
  cases filter with
  | some predicate =>
    simp only [buildPhysicalPlan, hflatten, ofExcept, Bind.bind, Except.bind, hloop, Pure.pure,
      Except.pure]
  | none =>
    -- what flattens is no filter itself
    cases tree with
    | filter input predicate => cases hflatten
    | project input isStar items => cases hflatten
    | scan table aliasName =>
      simp only [buildPhysicalPlan, hflatten, ofExcept, Bind.bind, Except.bind, hloop, Pure.pure,
        Except.pure]
    | join left right condition =>
      simp only [buildPhysicalPlan, hflatten, ofExcept, Bind.bind, Except.bind, hloop, Pure.pure,
        Except.pure]

/-- **Over the contents, an accepted `SELECT` is planned as `selectPlan` says.** -/
theorem buildPhysicalPlan_eq (hcast : ∀ a b, cast a < cast b ↔ a.toNat < b.toNat)
    {stmt : SelectStmt} (h : db.Accepts stmt) :
    buildPhysicalPlan (db.reads cast) (buildLogicalPlan stmt) = .ok (db.selectPlan cast stmt) := by
  have hfrom : PhysicalPlan.Known db (.newScan stmt.from.table stmt.from.name) := by
    intro p hp
    obtain rfl := List.mem_singleton.mp hp
    exact h.known _ List.mem_cons_self
  have hknown : ∀ join ∈ stmt.joins, ∃ t, db join.table.table = some t := fun join hjoin =>
    h.known _ (List.mem_cons_of_mem _ (List.mem_map.mpr ⟨join, hjoin, rfl⟩))
  have hnodup : stmt.joins.Nodup := by
    have hdistinct := (List.nodup_cons.mp h.distinct).2
    rw [List.map_map] at hdistinct
    exact hdistinct.of_map _
  have hpending := pendingAt_of_false stmt.joins 1
  have hlen : stmt.joins.length
      ≤ (pendingAt 1 stmt.joins (stmt.joins.map fun _ => false)).length := by
    rw [← List.length_map (f := Prod.snd), hpending]
  have hloop := joinLoop_eq ⟨stmt.from.table, stmt.from.name, none⟩ [stmt.from.name]
    (stmt.joins.map fun _ => false) hcast hknown hnodup (List.length_map _) hfrom hlen
  rw [hpending] at hloop
  have hflatten := flattenJoins_foldl [⟨stmt.from.table, stmt.from.name, none⟩] stmt.joins
    (makeScan stmt.from) rfl
  cases hs : joinLoop (db.reads cast) (⟨stmt.from.table, stmt.from.name, none⟩ ::
      stmt.joins.map JoinClause.node) stmt.joins.length
      ⟨.newScan stmt.from.table stmt.from.name, [stmt.from.name],
        true :: stmt.joins.map fun _ => false⟩ with
  | error e =>
    rw [hs] at hloop
    cases hloop
  | ok s =>
    rw [hs] at hloop
    have hplan : s.accumulated = db.joinPlan cast stmt := Except.ok.inj hloop
    have hinit : joinLoop (db.reads cast) (⟨stmt.from.table, stmt.from.name, none⟩ ::
        stmt.joins.map JoinClause.node) (stmt.joins.map JoinClause.node).length
        (.init ⟨stmt.from.table, stmt.from.name, none⟩ (stmt.joins.map JoinClause.node)) = .ok s := by
      rw [JoinState.init, List.length_map, List.map_map]
      exact hs
    have hbuild := buildPhysicalPlan_project hflatten hinit stmt.where stmt.isStar stmt.selectItems
    rw [hplan] at hbuild
    exact hbuild

end

/-! ## The order -/

section

variable {db : Contents} {joined : List Bytes} {pending : List JoinClause} {join : JoinClause}

theorem mem_of_nextJoin (h : db.nextJoin joined pending = some join) : join ∈ pending := by
  rcases Option.or_eq_some_iff.mp h with h | ⟨-, h⟩
  · exact List.mem_of_mem_filter (List.argmin_mem h)
  · exact List.mem_of_head? h

theorem nextJoin_isSome (db : Contents) (joined : List Bytes) (h : pending ≠ []) :
    ∃ join, db.nextJoin joined pending = some join := by
  rw [← Option.isSome_iff_exists, Contents.nextJoin, Option.isSome_or, Bool.or_eq_true,
    List.isSome_head?]
  exact .inr h

/-- Every clause is joined once. -/
theorem joinOrder_perm (db : Contents) (joined : List Bytes) (pending : List JoinClause) :
    (db.joinOrder pending.length joined pending).Perm pending := by
  generalize hn : pending.length = n
  induction n generalizing joined pending with
  | zero =>
    obtain rfl := List.length_eq_zero_iff.mp hn
    exact .refl []
  | succ n ih =>
    obtain ⟨join, hnext⟩ := nextJoin_isSome db joined
      (List.ne_nil_of_length_eq_add_one hn)
    have hmem := mem_of_nextJoin hnext
    have hlen : (pending.erase join).length = n := by rw [List.length_erase_of_mem hmem, hn]; rfl
    rw [Contents.joinOrder, hnext]
    exact ((ih (join.table.name :: joined) (pending.erase join) hlen).cons join).trans (List.perm_cons_erase hmem).symm

end

section

variable {N : Type} [Add N] [Mul N] [LE N] [DecidableLE N] {db : Contents}

theorem PhysicalPlan.Known.foldl (cast : UInt64 → N) {order : List JoinClause} {plan : PhysicalPlan}
    (h : plan.Known db) (horder : ∀ join ∈ order, ∃ t, db join.table.table = some t) :
    (order.foldl (db.joinClause cast) plan).Known db := by
  induction order generalizing plan with
  | nil => exact h
  | cons join order ih =>
    obtain ⟨hjoin, horder⟩ := List.forall_mem_cons.mp horder
    exact ih (h.joinClause cast hjoin) horder

end

/-! ## Along the order -/

section

variable {N : Type} [Add N] [Mul N] [LE N] [DecidableLE N] (cast : UInt64 → N) (db : Contents)

/-- What holds of every plan and the clause joined to it. -/
def Contents.Along (P : PhysicalPlan → JoinClause → Prop) : PhysicalPlan → List JoinClause → Prop
  | _, [] => True
  | plan, join :: order => P plan join ∧ Along P (db.joinClause cast plan join) order

end

/-! ## Planning on a catalog -/

namespace Catalog

/-- The answers with row counts cast. -/
def readsAs {N : Type} (cast : UInt64 → N) : CatalogReads (Prog Catalog) N :=
  { reads with estimatedRowCount := fun name => cast <$> reads.estimatedRowCount name }

section

variable {N : Type} {cast : UInt64 → N} {cat : Catalog} {db : Contents}

theorem readsAs_agree (cast : UInt64 → N) (db : Contents) :
    (readsAs cast).Agree (·.Shows db) (db.reads cast) where
  getSchema := (reads_agree db).getSchema
  scanTable := (reads_agree db).scanTable
  estimatedRowCount name := by
    have h := ((reads_agree db).estimatedRowCount name).map cast
    have heq : ((db.reads id).estimatedRowCount name).map cast
        = (db.reads cast).estimatedRowCount name := by
      simp only [Contents.reads, Contents.table]
      cases db name <;> rfl
    rwa [heq] at h

variable [Add N] [Mul N] [LE N] [LT N] [DecidableLE N] [DecidableLT N]

/-- **An accepted `SELECT` is planned as over the contents.** -/
theorem Shows.buildPhysicalPlan {real : CatalogReads (Prog Catalog) N}
    (hreal : real.Agree (·.Shows db) (db.reads cast))
    (hcast : ∀ a b, cast a < cast b ↔ a.toNat < b.toNat) (h : cat.Shows db) {stmt : SelectStmt}
    (hvalid : validateStatement cat (.select stmt) = .ok ()) : ∃ cat', cat'.Shows db ∧
      Reldb.buildPhysicalPlan real (buildLogicalPlan stmt) cat
        = .ok (db.selectPlan cast stmt) cat' := by
  obtain ⟨cat', h', hrun⟩ := buildPhysicalPlan_agrees hreal (buildLogicalPlan stmt) cat h
  rw [buildPhysicalPlan_eq hcast (h.accepts hvalid)] at hrun
  exact ⟨cat', h', hrun⟩

end

end Catalog

end Reldb
