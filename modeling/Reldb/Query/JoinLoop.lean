import Reldb.Query.Planner

/-!
# Reldb — the greedy loop over the joins

Of the clauses of an accepted `SELECT`, the first one not joined yet mentions only tables before it, so it
is connected: whatever the row counts, each pass of the loop of `BuildPhysicalPlan` finds a connected
clause, joins it, and leaves one fewer.
-/

namespace Reldb

/-! ## What validation says of the conditions -/

section

variable {cat : Catalog} {aliases aliases' : AliasMap}

/-- The tables a valid expression mentions are among those in sight. -/
theorem mem_of_valid_refs {e : Expr} (h : validateColumnRefsIn aliases e = .ok ()) :
    ∀ t ∈ collectReferencedTables e, t ∈ aliases.map Prod.fst := by
  induction e with
  | columnRef table column =>
    intro t ht
    obtain rfl := Option.mem_toList.mp ht
    by_contra hnot
    have hnone : aliases.find t = none := by
      rw [AliasMap.find, Option.map_eq_none_iff, List.find?_eq_none]
      intro p hp
      rw [beq_iff_eq]
      exact fun heq => hnot (List.mem_map.mpr ⟨p, hp, heq⟩)
    rw [validateColumnRefsIn, validateColumnRef] at h
    simp only [hnone] at h
    cases h
  | literal value =>
    intro t ht
    cases ht
  | comparison op left right ihl ihr =>
    obtain ⟨⟨⟩, hleft, hright⟩ := Except.bind_eq_ok.mp h
    intro t ht
    rcases List.mem_append.mp ht with ht | ht
    · exact ihl hleft t ht
    · exact ihr hright t ht
  | and left right ihl ihr =>
    obtain ⟨⟨⟩, hleft, hright⟩ := Except.bind_eq_ok.mp h
    intro t ht
    rcases List.mem_append.mp ht with ht | ht
    · exact ihl hleft t ht
    · exact ihr hright t ht
  | or left right ihl ihr =>
    obtain ⟨⟨⟩, hleft, hright⟩ := Except.bind_eq_ok.mp h
    intro t ht
    rcases List.mem_append.mp ht with ht | ht
    · exact ihl hleft t ht
    · exact ihr hright t ht

theorem addTable_names {ref : TableRef} (h : addTable cat aliases ref = .ok aliases') :
    aliases'.map Prod.fst = aliases.map Prod.fst ++ [ref.name] := by
  rw [addTable] at h
  split at h
  · cases h
  split at h
  · cases h
  obtain ⟨schema, -, h⟩ := Except.bind_eq_ok.mp h
  obtain rfl := Except.ok.inj h
  rw [List.map_append]
  rfl

/-- A condition mentions its own table and those before it. -/
theorem validateJoins_refs {joins : List JoinClause} (h : validateJoins cat aliases joins = .ok aliases') :
    ∀ (before : List JoinClause) (join : JoinClause) (after : List JoinClause),
      joins = before ++ join :: after → ∀ t ∈ collectReferencedTables join.onCondition,
        t = join.table.name ∨ t ∈ aliases.map Prod.fst ∨ ∃ join' ∈ before, t = join'.table.name := by
  induction joins generalizing aliases with
  | nil =>
    intro before join after hsplit
    cases (List.append_eq_nil_iff.mp hsplit.symm).2
  | cons join₁ joins ih =>
    rw [validateJoins] at h
    obtain ⟨aliases₁, hadd, h⟩ := Except.bind_eq_ok.mp h
    obtain ⟨⟨⟩, hcond, h⟩ := Except.bind_eq_ok.mp h
    have hnames := addTable_names hadd
    intro before join after hsplit t ht
    cases before with
    | nil =>
      obtain ⟨rfl, -⟩ := List.cons.inj hsplit
      have hmem := mem_of_valid_refs hcond t ht
      rw [hnames, List.mem_append, List.mem_singleton] at hmem
      exact hmem.symm.imp_right .inl
    | cons join₂ before =>
      obtain ⟨rfl, htail⟩ := List.cons.inj hsplit
      rcases ih h before join after htail t ht with hown | hmem | ⟨join', hjoin', heq⟩
      · exact .inl hown
      · rw [hnames, List.mem_append, List.mem_singleton] at hmem
        refine .inr (hmem.imp_right fun heq => ⟨join₁, List.mem_cons_self, heq⟩)
      · exact .inr (.inr ⟨join', List.mem_cons_of_mem _ hjoin', heq⟩)

/-- Every clause mentions by qualifier only its own table and those before it in the text. -/
def RefersBack (stmt : SelectStmt) : Prop :=
  ∀ (before : List JoinClause) (join : JoinClause) (after : List JoinClause),
    stmt.joins = before ++ join :: after → ∀ t ∈ collectReferencedTables join.onCondition,
      t = join.table.name ∨ t = stmt.from.name ∨ ∃ join' ∈ before, t = join'.table.name

theorem refersBack_of_valid {stmt : SelectStmt} (h : validateStatement cat (.select stmt) = .ok ()) :
    RefersBack stmt := by
  have h : validateSelect cat stmt = .ok () := h
  rw [validateSelect] at h
  obtain ⟨aliases₁, hadd, h⟩ := Except.bind_eq_ok.mp h
  obtain ⟨aliases₂, hjoins, -⟩ := Except.bind_eq_ok.mp h
  intro before join after hsplit t ht
  have hmem := validateJoins_refs hjoins before join after hsplit t ht
  rwa [addTable_names hadd, List.map_nil, List.nil_append, List.mem_singleton] at hmem

end

/-! ## The clauses taken -/

/-- The clauses whose flag is up. -/
def taken : List JoinClause → List Bool → List JoinClause
  | join :: joins, true :: flags => join :: taken joins flags
  | _ :: joins, false :: flags => taken joins flags
  | _, _ => []

section

variable {joins : List JoinClause} {flags : List Bool} {join : JoinClause} {k : Nat}

theorem mem_taken (hjoin : joins[k]? = some join) (hflag : flags[k]? = some true) :
    join ∈ taken joins flags := by
  induction joins generalizing flags k with
  | nil => cases hjoin
  | cons join₁ joins ih =>
    cases flags with
    | nil => cases hflag
    | cons b flags =>
      cases k with
      | zero =>
        obtain rfl := Option.some.inj hjoin
        obtain rfl := Option.some.inj hflag
        exact List.mem_cons_self
      | succ k =>
        have hmem := ih (k := k) hjoin hflag
        cases b with
        | true => exact List.mem_cons_of_mem _ hmem
        | false => exact hmem

/-- Raising a flag takes one more clause. -/
theorem taken_set (hjoin : joins[k]? = some join) (hflag : flags[k]? = some false) :
    (taken joins (flags.set k true)).Perm (join :: taken joins flags) := by
  induction joins generalizing flags k with
  | nil => cases hjoin
  | cons join₁ joins ih =>
    cases flags with
    | nil => cases hflag
    | cons b flags =>
      cases k with
      | zero =>
        obtain rfl := Option.some.inj hjoin
        obtain rfl := Option.some.inj hflag
        exact .refl _
      | succ k =>
        have hperm := ih (k := k) hjoin hflag
        cases b with
        | true => exact (hperm.cons join₁).trans (.swap join join₁ _)
        | false => exact hperm

theorem taken_nil (joins : List JoinClause) : taken joins (joins.map fun _ => false) = [] := by
  induction joins with
  | nil => rfl
  | cons join joins ih => exact ih

theorem taken_all (hlen : flags.length = joins.length) (hall : flags.count false = 0) :
    taken joins flags = joins := by
  induction joins generalizing flags with
  | nil => cases flags <;> rfl
  | cons join joins ih =>
    cases flags with
    | nil => cases hlen
    | cons b flags =>
      cases b with
      | true =>
        rw [List.count_cons_of_ne (by decide)] at hall
        exact congrArg (join :: ·) (ih (Nat.succ.inj hlen) hall)
      | false =>
        rw [List.count_cons_self] at hall
        omega

/-- The first flag that is down. -/
theorem exists_first_false (h : flags.count false ≠ 0) :
    ∃ k : Nat, flags[k]? = some false ∧ ∀ i < k, flags[i]? = some true := by
  induction flags with
  | nil => exact absurd rfl h
  | cons b flags ih =>
    cases b with
    | false => exact ⟨0, rfl, fun i hi => absurd hi (Nat.not_lt_zero i)⟩
    | true =>
      rw [List.count_cons_of_ne (by decide)] at h
      obtain ⟨k, hk, hbefore⟩ := ih h
      refine ⟨k + 1, hk, fun i hi => ?_⟩
      cases i with
      | zero => rfl
      | succ i => exact hbefore i (Nat.lt_of_succ_lt_succ hi)

theorem count_false_set (h : flags[k]? = some false) :
    (flags.set k true).count false + 1 = flags.count false := by
  induction flags generalizing k with
  | nil => cases h
  | cons b flags ih =>
    cases k with
    | zero =>
      obtain rfl := Option.some.inj h
      rw [List.set_cons_zero, List.count_cons_self, List.count_cons_of_ne (by decide)]
    | succ k =>
      have hset := ih (k := k) h
      rw [List.set_cons_succ, List.count_cons, List.count_cons]
      omega

end

/-! ## One pass -/

section

variable {reads : CatalogReads (Except Exn) UInt64} {counts : Bytes → UInt64}
  {nodes : List TableNode} {s s' : JoinState}

/-- What one pass does: it picks a connected table not joined yet, and joins it. -/
structure Picks (reads : CatalogReads (Except Exn) UInt64) (nodes : List TableNode)
    (s s' : JoinState) (idx : Nat) (node : TableNode) (condition : Expr) : Prop where
  step : joinStep reads nodes s = .ok s'
  /-- The fallback in textual order is not taken. -/
  picked : ∃ rows, pickConnected reads s.joinedAliases 1 ((nodes.zip s.consumed).drop 1) none
    = .ok (some (idx, rows))
  node_eq : nodes[idx]? = some node
  condition_eq : node.joinCondition = some condition
  new : s.consumed[idx]? = some false
  consumed_eq : s'.consumed = s.consumed.set idx true
  scans_perm : s'.accumulated.scans.Perm ((node.table, node.aliasName) :: s.accumulated.scans)
  /-- The condition mentions by qualifier the table itself and tables of the plan so far. -/
  refers : ∀ t ∈ collectReferencedTables condition,
    t = node.aliasName ∨ t ∈ s.accumulated.scans.map Prod.snd

/-- With every count known, a plan has an estimate. -/
theorem exists_estimatedRows (hcount : ∀ name, reads.estimatedRowCount name = .ok (counts name))
    (plan : PhysicalPlan) : ∃ rows, plan.estimatedRows reads = .ok rows := by
  induction plan with
  | scan table aliasName c => exact ⟨_, hcount table⟩
  | filter input predicate ih => exact ih
  | nestedLoopJoin left right condition c ihl ihr =>
    obtain ⟨l, hl⟩ := ihl
    obtain ⟨r, hr⟩ := ihr
    refine ⟨l * r, ?_⟩
    rw [PhysicalPlan.estimatedRows, hl, hr]
    rfl
  | hashJoin buildSide probeSide buildColumn probeColumn c ihb ihp =>
    obtain ⟨b, hb⟩ := ihb
    obtain ⟨p, hp⟩ := ihp
    refine ⟨b + p, ?_⟩
    rw [PhysicalPlan.estimatedRows, hb, hp]
    rfl
  | project input isStar items ih => exact ih

/-- The loop over the clauses from index `i` on ends with a connected one, unless there is none and it
began with none. -/
theorem pickConnected_some (hcount : ∀ name, reads.estimatedRowCount name = .ok (counts name))
    (joined : List Bytes) (joins : List JoinClause) (flags : List Bool) (i : Nat)
    (best : Option (Nat × UInt64)) (hlen : flags.length = joins.length) :
    ∃ best', pickConnected reads joined i ((joins.map JoinClause.node).zip flags) best = .ok best' ∧
      (best' = best ∨ ∃ k join rows, best' = some (i + k, rows) ∧ joins[k]? = some join ∧
        flags[k]? = some false ∧ join.connected joined = true) ∧
      (best.isSome ∨ (∃ (k : Nat) (join : JoinClause), joins[k]? = some join ∧
        flags[k]? = some false ∧ join.connected joined = true) → best'.isSome) := by
  induction joins generalizing flags i best with
  | nil =>
    refine ⟨best, rfl, .inl rfl, fun h => h.resolve_right ?_⟩
    rintro ⟨k, join, hk, -⟩
    cases hk
  | cons join joins ih =>
    cases flags with
    | nil => cases hlen
    | cons b flags =>
      have hlen := Nat.succ.inj hlen
      -- what the rest of the loop does from index `i + 1` on
      have hrest : ∀ best₁ : Option (Nat × UInt64), (best₁ = best ∨ ∃ rows, best₁ = some (i, rows) ∧
          b = false ∧ join.connected joined = true) →
          (best.isSome → best₁.isSome) → (b = false → join.connected joined = true → best₁.isSome) →
          ∃ best', pickConnected reads joined (i + 1) ((joins.map JoinClause.node).zip flags) best₁
              = .ok best' ∧
            (best' = best ∨ ∃ k join' rows, best' = some (i + k, rows) ∧
              (join :: joins)[k]? = some join' ∧ (b :: flags)[k]? = some false ∧
              join'.connected joined = true) ∧
            (best.isSome ∨ (∃ (k : Nat) (join' : JoinClause), (join :: joins)[k]? = some join' ∧
              (b :: flags)[k]? = some false ∧ join'.connected joined = true) → best'.isSome) := by
        intro best₁ hbest₁ hsome hself
        obtain ⟨best', hpick, hfrom, hto⟩ := ih flags (i + 1) best₁ hlen
        refine ⟨best', hpick, ?_, fun h => hto ?_⟩
        · rcases hfrom with rfl | ⟨k, join', rows, hbest', hjoin', hflag, hconn⟩
          · refine hbest₁.imp_right ?_
            rintro ⟨rows, hbest', hflag, hconn⟩
            exact ⟨0, join, rows, hbest', rfl, congrArg some hflag, hconn⟩
          · refine .inr ⟨k + 1, join', rows, ?_, hjoin', hflag, hconn⟩
            rw [hbest', Nat.add_right_comm, Nat.add_assoc]
        · rcases h with h | ⟨k, join', hjoin', hflag, hconn⟩
          · exact .inl (hsome h)
          · cases k with
            | zero =>
              obtain rfl := Option.some.inj hjoin'
              exact .inl (hself (Option.some.inj hflag) hconn)
            | succ k => exact .inr ⟨k, join', hjoin', hflag, hconn⟩
      cases b with
      | true => exact hrest best (.inl rfl) id fun hfalse => by cases hfalse
      | false =>
        cases hconn : join.connected joined with
        | false =>
          have hskip : pickConnected reads joined i
              (((join :: joins).map JoinClause.node).zip (false :: flags)) best
              = pickConnected reads joined (i + 1) ((joins.map JoinClause.node).zip flags) best := by
            show (if join.connected joined = true then _ else _) = _
            rw [hconn]
            rfl
          rw [hskip]
          exact hrest best (.inl rfl) id fun _ htrue => by rw [hconn] at htrue; cases htrue
        | true =>
          have hstep : pickConnected reads joined i
              (((join :: joins).map JoinClause.node).zip (false :: flags)) best
              = if best.all fun (_, bestRows) => counts join.table.table < bestRows then
                  pickConnected reads joined (i + 1) ((joins.map JoinClause.node).zip flags)
                    (some (i, counts join.table.table))
                else pickConnected reads joined (i + 1) ((joins.map JoinClause.node).zip flags) best := by
            show (if join.connected joined = true then
              (reads.estimatedRowCount join.table.table >>= fun rows => _) else _) = _
            rw [hconn, hcount]
            rfl
          rw [hstep]
          split
          · exact hrest _ (.inr ⟨_, rfl, rfl, hconn⟩) (fun _ => rfl) fun _ _ => rfl
          · rename_i hworse
            refine hrest best (.inl rfl) id fun _ _ => ?_
            cases best with
            | none => exact absurd rfl hworse
            | some p => rfl

/-! ## The loop -/

/-- The states the loop is in after `n` passes. -/
inductive LoopState (reads : CatalogReads (Except Exn) UInt64) (first : TableNode) (nodes : List TableNode) :
    Nat → JoinState → Prop where
  | init : LoopState reads first nodes 0 (.init first nodes)
  | pass {n : Nat} {s s' : JoinState} (before : LoopState reads first nodes n s)
      (step : joinStep reads (first :: nodes) s = .ok s') : LoopState reads first nodes (n + 1) s'

/-- The node of the `FROM` clause. -/
def SelectStmt.firstNode (stmt : SelectStmt) : TableNode := ⟨stmt.from.table, stmt.from.name, none⟩

/-- The nodes of the `JOIN` clauses. -/
def SelectStmt.joinNodes (stmt : SelectStmt) : List TableNode := stmt.joins.map JoinClause.node

/-- What holds of the loop after `n` passes: as many flags are up, and the plan joins their clauses. -/
structure LoopInv (stmt : SelectStmt) (n : Nat) (s : JoinState) (flags : List Bool) : Prop where
  consumed_eq : s.consumed = true :: flags
  length_eq : flags.length = stmt.joins.length
  left : flags.count false + n = stmt.joins.length
  aliases : s.joinedAliases.Perm (s.accumulated.scans.map Prod.snd)
  scans : s.accumulated.scans.Perm ((stmt.from.table, stmt.from.name) ::
    (taken stmt.joins flags).map fun join => (join.table.table, join.table.name))

variable {stmt : SelectStmt} {flags : List Bool} {n : Nat}

theorem LoopInv.init (stmt : SelectStmt) : LoopInv stmt 0 (.init stmt.firstNode stmt.joinNodes)
    (stmt.joins.map fun _ => false) where
  consumed_eq := by
    rw [JoinState.init, SelectStmt.joinNodes, List.map_map]
    rfl
  length_eq := List.length_map _
  left := by
    rw [List.map_const', List.count_replicate_self]
    rfl
  aliases := .refl _
  scans := by
    rw [taken_nil]
    exact .refl _

/-- A table whose flag is up is joined. -/
theorem LoopInv.mem_aliases (h : LoopInv stmt n s flags) {t : Bytes} (ht : t = stmt.from.name ∨
    ∃ join ∈ taken stmt.joins flags, t = join.table.name) : t ∈ s.joinedAliases := by
  rw [h.aliases.mem_iff, (h.scans.map Prod.snd).mem_iff]
  rcases ht with rfl | ⟨join, hjoin, rfl⟩
  · exact List.mem_cons_self
  · exact List.mem_cons_of_mem _ (List.mem_map.mpr ⟨_, List.mem_map.mpr ⟨join, hjoin, rfl⟩, rfl⟩)

/-- **Progress.** The first clause not joined is connected. -/
theorem LoopInv.exists_connected (h : LoopInv stmt n s flags) (hrefers : RefersBack stmt)
    (hn : n < stmt.joins.length) : ∃ (k : Nat) (join : JoinClause), stmt.joins[k]? = some join ∧
      flags[k]? = some false ∧ join.connected s.joinedAliases = true := by
  have hleft := h.left
  obtain ⟨k, hk, hbefore⟩ := @exists_first_false flags (by omega)
  have hlt : k < stmt.joins.length := by
    rw [← h.length_eq]
    exact (List.getElem?_eq_some_iff.mp hk).1
  refine ⟨k, stmt.joins[k], List.getElem?_eq_getElem hlt, hk, ?_⟩
  have hsplit : stmt.joins = stmt.joins.take k ++ stmt.joins[k] :: stmt.joins.drop (k + 1) := by
    rw [List.getElem_cons_drop, List.take_append_drop]
  rw [JoinClause.connected, TableNode.connected, List.all_eq_true]
  intro t ht
  obtain ⟨ht, hne⟩ := List.mem_filter.mp ht
  refine decide_eq_true (h.mem_aliases ?_)
  rcases hrefers _ _ _ hsplit t ht with hown | hfrom | ⟨join, hjoin, heq⟩
  · exact absurd hown (of_decide_eq_true hne)
  · exact .inl hfrom
  · obtain ⟨i, hi, rfl⟩ := List.mem_take_iff_getElem.mp hjoin
    have hik : i < k := by omega
    exact .inr ⟨_, mem_taken (List.getElem?_eq_getElem (by omega)) (hbefore i hik), heq⟩

/-- **Step.** A pass that begins with a clause left picks one, and there is one fewer after it. -/
theorem LoopInv.pass (h : LoopInv stmt n s flags)
    (hcount : ∀ name, reads.estimatedRowCount name = .ok (counts name)) (hrefers : RefersBack stmt)
    (hn : n < stmt.joins.length) :
    ∃ s' flags' idx node condition, Picks reads (stmt.firstNode :: stmt.joinNodes) s s' idx node condition ∧
      node ∈ stmt.joinNodes ∧ LoopInv stmt (n + 1) s' flags' := by
  obtain ⟨best, hpick, hfrom, hsome⟩ :=
    pickConnected_some hcount s.joinedAliases stmt.joins flags 1 none h.length_eq
  have hbest := hsome (.inr (h.exists_connected hrefers hn))
  obtain ⟨k, join, rows, rfl, hjoin, hflag, hconn⟩ : ∃ k join rows, best = some (1 + k, rows) ∧
      stmt.joins[k]? = some join ∧ flags[k]? = some false ∧ join.connected s.joinedAliases = true := by
    refine hfrom.resolve_left ?_
    rintro rfl
    cases hbest
  have hpicked : pickConnected reads s.joinedAliases 1
      (((stmt.firstNode :: stmt.joinNodes).zip s.consumed).drop 1) none = .ok (some (1 + k, rows)) := by
    rw [h.consumed_eq]
    exact hpick
  have hnode : (stmt.firstNode :: stmt.joinNodes)[1 + k]? = some join.node := by
    rw [Nat.add_comm, List.getElem?_cons_succ, SelectStmt.joinNodes, List.getElem?_map, hjoin]
    rfl
  obtain ⟨leftRows, hleft⟩ := exists_estimatedRows hcount s.accumulated
  have hscans := scans_joinNext leftRows (counts join.table.table) s.accumulated join.node join.onCondition
  have hstep : joinStep reads (stmt.firstNode :: stmt.joinNodes) s = .ok
      { accumulated := joinNext leftRows (counts join.table.table) s.accumulated join.node join.onCondition
        joinedAliases := join.table.name :: s.joinedAliases
        consumed := s.consumed.set (1 + k) true } := by
    rw [joinStep, hpicked]
    have hrows : reads.estimatedRowCount join.node.table = .ok (counts join.table.table) := hcount _
    simp only [Bind.bind, Except.bind, Option.map_some, Option.some_or, hnode,
      show join.node.joinCondition = some join.onCondition from rfl, hrows, hleft]
    rfl
  have hconsumed : s.consumed[1 + k]? = some false := by
    rw [h.consumed_eq, Nat.add_comm, List.getElem?_cons_succ]
    exact hflag
  refine ⟨_, flags.set k true, 1 + k, join.node, join.onCondition,
    ⟨hstep, ⟨rows, hpicked⟩, hnode, rfl, hconsumed, rfl, hscans, fun t ht => ?_⟩,
    List.mem_map.mpr ⟨join, List.mem_of_getElem? hjoin, rfl⟩, ?_⟩
  · by_cases hown : t = join.node.aliasName
    · exact .inl hown
    · rw [JoinClause.connected, TableNode.connected, List.all_eq_true] at hconn
      have hmem := of_decide_eq_true (hconn t (List.mem_filter.mpr ⟨ht, decide_eq_true hown⟩))
      exact .inr (h.aliases.mem_iff.mp hmem)
  · have hcountSet := count_false_set hflag
    refine ⟨?_, by rw [List.length_set, h.length_eq], by have := h.left; omega, ?_, ?_⟩
    · show s.consumed.set (1 + k) true = _
      rw [h.consumed_eq, Nat.add_comm, List.set_cons_succ]
    · exact (h.aliases.cons join.table.name).trans (hscans.map Prod.snd).symm
    · have htaken := (taken_set hjoin hflag).map fun join => (join.table.table, join.table.name)
      exact hscans.trans ((h.scans.cons _).trans ((List.Perm.swap _ _ _).trans (htaken.symm.cons _)))

/-- With no clause left, there is no further pass. -/
theorem LoopInv.step_error (h : LoopInv stmt n s flags)
    (hcount : ∀ name, reads.estimatedRowCount name = .ok (counts name)) (hn : stmt.joins.length ≤ n) :
    joinStep reads (stmt.firstNode :: stmt.joinNodes) s = .error .undefinedBehaviour := by
  have hleft := h.left
  have hup : false ∉ flags := List.count_eq_zero.mp (by omega)
  obtain ⟨best, hpick, hfrom, -⟩ :=
    pickConnected_some hcount s.joinedAliases stmt.joins flags 1 none h.length_eq
  obtain rfl : best = none := by
    refine hfrom.resolve_right ?_
    rintro ⟨k, join, rows, -, -, hflag, -⟩
    exact hup (List.mem_of_getElem? hflag)
  have hpicked : pickConnected reads s.joinedAliases 1
      (((stmt.firstNode :: stmt.joinNodes).zip s.consumed).drop 1) none = .ok none := by
    rw [h.consumed_eq]
    exact hpick
  have hnone : firstUnconsumed s.consumed = none := by
    rw [firstUnconsumed, h.consumed_eq, List.drop_succ_cons, List.drop_zero, Option.map_eq_none_iff,
      List.findIdx?_eq_none_iff]
    intro b hb
    cases b with
    | true => rfl
    | false => exact absurd hb hup
  rw [joinStep, hpicked]
  simp only [Bind.bind, Except.bind, Option.map_none, Option.none_or, hnone]
  rfl

/-- **Run.** -/
theorem LoopState.inv (hcount : ∀ name, reads.estimatedRowCount name = .ok (counts name))
    (hrefers : RefersBack stmt) (h : LoopState reads stmt.firstNode stmt.joinNodes n s) :
    ∃ flags, LoopInv stmt n s flags := by
  induction h with
  | init => exact ⟨_, .init stmt⟩
  | @pass n s s' before step ih =>
    obtain ⟨flags, h⟩ := ih
    rcases Nat.lt_or_ge n stmt.joins.length with hn | hn
    · obtain ⟨s₁, flags', idx, node, condition, hpicks, -, h'⟩ := h.pass hcount hrefers hn
      obtain rfl := Except.ok.inj (hpicks.step.symm.trans step)
      exact ⟨flags', h'⟩
    · rw [h.step_error hcount hn] at step
      cases step

/-- A run of passes ends with every clause joined. -/
theorem LoopInv.loop (hcount : ∀ name, reads.estimatedRowCount name = .ok (counts name))
    (hrefers : RefersBack stmt) (m : Nat) (h : LoopInv stmt n s flags) (hm : n + m = stmt.joins.length)
    (hstate : LoopState reads stmt.firstNode stmt.joinNodes n s) :
    ∃ s' flags', joinLoop reads (stmt.firstNode :: stmt.joinNodes) m s = .ok s' ∧
      LoopState reads stmt.firstNode stmt.joinNodes (n + m) s' ∧ LoopInv stmt (n + m) s' flags' := by
  induction m generalizing n s flags with
  | zero => exact ⟨s, flags, rfl, hstate, h⟩
  | succ m ih =>
    obtain ⟨s₁, flags₁, idx, node, condition, hpicks, -, h₁⟩ := h.pass hcount hrefers (by omega)
    obtain ⟨s', flags', hloop, hstate', h'⟩ := ih h₁ (by omega) (hstate.pass hpicks.step)
    rw [Nat.add_right_comm, Nat.add_assoc] at hstate' h'
    refine ⟨s', flags', ?_, hstate', h'⟩
    rw [joinLoop, hpicks.step]
    exact hloop

/-- **The loop is well founded.** For an accepted `SELECT` and any row counts, in every state the loop is in
some clause is left or all are joined; a pass that begins with one left picks a connected one by its row
count, never by the fallback, and joins it; and the loop ends with each table joined exactly once. -/
theorem joinLoop_wellFounded {cat : Catalog} (hvalid : validateStatement cat (.select stmt) = .ok ())
    (hcount : ∀ name, reads.estimatedRowCount name = .ok (counts name)) :
    (∀ n s, LoopState reads stmt.firstNode stmt.joinNodes n s →
      n ≤ stmt.joins.length ∧ s.consumed.count false = stmt.joins.length - n ∧
      (n < stmt.joins.length → ∃ s' idx node condition, node ∈ stmt.joinNodes ∧
        Picks reads (stmt.firstNode :: stmt.joinNodes) s s' idx node condition)) ∧
    ∃ s, LoopState reads stmt.firstNode stmt.joinNodes stmt.joins.length s ∧
      joinLoop reads (stmt.firstNode :: stmt.joinNodes) stmt.joinNodes.length
        (.init stmt.firstNode stmt.joinNodes) = .ok s ∧
      false ∉ s.consumed ∧
      s.accumulated.scans.Perm (stmt.tables.map fun ref => (ref.table, ref.name)) ∧
      buildPhysicalPlan reads (buildLogicalPlan stmt) = .ok (.project (match stmt.where with
        | some predicate => .filter s.accumulated predicate
        | none => s.accumulated) stmt.isStar stmt.selectItems) := by
  have hrefers := refersBack_of_valid hvalid
  refine ⟨fun n s hstate => ?_, ?_⟩
  · obtain ⟨flags, h⟩ := hstate.inv hcount hrefers
    have hleft := h.left
    refine ⟨by omega, ?_, fun hn => ?_⟩
    · rw [h.consumed_eq, List.count_cons_of_ne (by decide)]
      omega
    · obtain ⟨s', flags', idx, node, condition, hpicks, hnode, -⟩ := h.pass hcount hrefers hn
      exact ⟨s', idx, node, condition, hnode, hpicks⟩
  · obtain ⟨s, flags, hloop, hstate, h⟩ :=
      (LoopInv.init stmt).loop hcount hrefers stmt.joins.length (Nat.zero_add _) .init
    rw [Nat.zero_add] at hstate h
    have hleft := h.left
    have hup : flags.count false = 0 := by omega
    have hlength : stmt.joinNodes.length = stmt.joins.length := List.length_map _
    refine ⟨s, hstate, hlength ▸ hloop, ?_, ?_, ?_⟩
    · rw [h.consumed_eq, List.mem_cons, not_or]
      exact ⟨by decide, List.count_eq_zero.mp hup⟩
    · rw [SelectStmt.tables, List.map_cons, List.map_map]
      have hscans := h.scans
      rw [taken_all h.length_eq hup] at hscans
      exact hscans
    · have hflatten := flattenJoins_foldl [⟨stmt.from.table, stmt.from.name, none⟩] stmt.joins
        (makeScan stmt.from) rfl
      exact buildPhysicalPlan_project hflatten (hlength.symm ▸ hloop) stmt.where stmt.isStar stmt.selectItems

end

/-- A catalog with one table, of one column. -/
def oneTable : Catalog where
  bufferPool := BufferPool.new 1 (DiskManager.new DataFile.empty) none
  catalogPageId := 0
  tables := [⟨true, ⟨text "t", [⟨text "id", .integer, true⟩]⟩, none⟩]

/-- `SELECT * FROM t JOIN t AS u ON t.id = u.id JOIN t AS v ON u.id = v.id`. -/
def threeWayJoin : SelectStmt where
  isStar := true
  selectItems := []
  «from» := ⟨text "t", none⟩
  joins := [⟨⟨text "t", some (text "u")⟩, .comparison .eq (.columnRef (some (text "t")) (text "id"))
      (.columnRef (some (text "u")) (text "id"))⟩,
    ⟨⟨text "t", some (text "v")⟩, .comparison .eq (.columnRef (some (text "u")) (text "id"))
      (.columnRef (some (text "v")) (text "id"))⟩]
  «where» := none

theorem joinLoop_wellFounded_threeWay : ∃ (reads : CatalogReads (Except Exn) UInt64) (s : JoinState),
    LoopState reads threeWayJoin.firstNode threeWayJoin.joinNodes 2 s ∧ false ∉ s.consumed ∧
      s.accumulated.scans.length = 3 := by
  obtain ⟨-, s, hstate, -, hconsumed, hscans, -⟩ := @joinLoop_wellFounded
    ⟨fun _ => .error .undefinedBehaviour, fun _ => .ok [], fun _ => .ok 5⟩ (fun _ => 5) threeWayJoin
    oneTable (by decide +kernel) (fun _ => rfl)
  exact ⟨_, s, hstate, hconsumed, hscans.length_eq⟩

end Reldb
