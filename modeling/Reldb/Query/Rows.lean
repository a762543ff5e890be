import Reldb.Lib.Pulls
import Reldb.PhysicalPlan

/-!
# Reldb — the rows of a plan

`PhysicalPlan.rows` says which rows a plan has: lists of combinations that pass their conditions, with no
cursor, cache or loop. `run_settles` connects it to the iterators: opened and pulled to the end, from
whatever state and with enough fuel, a plan gives these rows, and it throws exactly when one of the
evaluations they rest on does.
-/

namespace Reldb

open Pulls

namespace PhysicalPlan

/-! ## What the operators make of their inputs -/

/-- A row that passes a condition. -/
def keep (condition : Expr) (row : ExecRow) : Except Exn (Option ExecRow) :=
  (evalBool row condition).map fun b => if b then some row else none

/-- What a projection makes of a row. -/
def projectRow (isStar : Bool) (items : List SelectItem) (row : ExecRow) : Except Exn ExecRow :=
  if isStar then .ok row else projectFields row items

section

variable {N : Type} (cat : CatalogReads (Except Exn) N)

/-- What a scan makes of a stored row. -/
def tagRow (table aliasName : Bytes) (values : List Value) : Except Exn ExecRow :=
  (cat.getSchema table).bind fun schema => tagFields aliasName schema.columns values

/-- The rows of a plan, or `none` if an evaluation on the way throws. -/
def rows : PhysicalPlan → Option (List ExecRow)
  | .scan table aliasName _ =>
    (cat.scanTable table).toOption.bind fun stored =>
      stored.mapM fun values => (tagRow cat table aliasName values).toOption
  | .filter input predicate =>
    input.rows.bind (collect fun row => (keep predicate row).toOption.map Option.toList)
  | .nestedLoopJoin left right condition _ =>
    left.rows.bind fun ls => right.rows.bind fun rs =>
      collect (fun l => collect (fun r => (keep condition (l ++ r)).toOption.map Option.toList) rs) ls
  | .hashJoin buildSide probeSide buildColumn probeColumn _ =>
    buildSide.rows.bind fun bs =>
      (bs.mapM fun (b : ExecRow) => (b.find buildColumn).toOption.map (·, b)).bind fun table =>
        probeSide.rows.bind
          (collect fun (p : ExecRow) => (p.find probeColumn).toOption.map fun key =>
            (equalRange key table).map (p ++ ·))
  | .project input isStar items =>
    input.rows.bind fun rs => rs.mapM fun row => (projectRow isStar items row).toOption

/-! ## What an open operator has left -/

section Gives

variable {cat} {table aliasName : Bytes} {input left probeSide : PhysicalPlan} {predicate : Expr}
  {isStar : Bool} {items : List SelectItem} {t : Pulls Exn ExecRow}

theorem ofExcept_eq {ε α : Type} (x : Except ε α) : (ofExcept x : Except ε α) = x := by
  cases x <;> rfl

/-- The pairs of a left row and the right rows, as far as they pass the condition. -/
def pairs (condition : Expr) (rightRows : List ExecRow) (l : ExecRow) : Pulls Exn ExecRow :=
  (ofList rightRows).flatMap fun r => .ofExcept (keep condition (l ++ r))

/-- The matches of a probe row. -/
def probes (probeColumn : ColumnRef) (table : List (Value × ExecRow)) (p : ExecRow) :
    Pulls Exn ExecRow :=
  match p.find probeColumn with
  | .error e => .fail e
  | .ok key => ofList ((equalRange key table).map (p ++ ·))

theorem gives_scan (stored : List (List Value)) (cursor : Nat) :
    Gives (next cat) (.scan table aliasName ⟨stored, cursor⟩)
      ((ofList (stored.drop cursor)).flatMap fun values =>
        .ofExcept ((tagRow cat table aliasName values).map some)) := by
  generalize hleft : stored.drop cursor = left
  induction left generalizing cursor with
  | nil =>
    have hget : stored[cursor]? = none := by
      rw [List.getElem?_eq_none_iff]
      exact List.drop_eq_nil_iff.mp hleft
    have hend : Settles (next cat · (.scan table aliasName ⟨stored, cursor⟩))
        (.ok (none, .scan table aliasName ⟨stored, cursor⟩)) := by
      refine .succ ?_
      simp only [next, hget]
      exact .const _
    exact ⟨_, hend, hend⟩
  | cons values left ih =>
    have hget : stored[cursor]? = some values := by
      rw [← List.head?_drop, hleft]
      rfl
    have hnext := ih (cursor + 1) (by rw [← List.tail_drop, hleft]; rfl)
    have hcall : ∀ fuel, next cat (fuel + 1) (.scan table aliasName ⟨stored, cursor⟩)
        = (tagRow cat table aliasName values).map fun row =>
          (some row, .scan table aliasName ⟨stored, cursor + 1⟩) := by
      intro fuel
      simp only [next, hget, tagRow, ofExcept_eq]
      cases cat.getSchema table with
      | error e => rfl
      | ok schema => cases tagFields aliasName schema.columns values <;> rfl
    rw [ofList, flatMap]
    cases hrow : tagRow cat table aliasName values with
    | error e =>
      refine .succ ((Settles.const _).congr fun fuel => ?_)
      rw [hcall, hrow]
      rfl
    | ok row =>
      refine ⟨_, .succ ((Settles.const _).congr fun fuel => ?_), hnext⟩
      rw [hcall, hrow]
      rfl

theorem gives_filter (h : Gives (next cat) input t) :
    Gives (next cat) (.filter input predicate)
      (t.flatMap fun row => .ofExcept (keep predicate row)) := by
  induction t generalizing input with
  | done =>
    obtain ⟨input', hend, hstays⟩ := h
    exact ⟨.filter input' predicate, .succ (.bind hend (.const _)), .succ (.bind hstays (.const _))⟩
  | fail e => exact .succ (.bind_error h)
  | more row rest ih =>
    obtain ⟨input', hrow, hrest⟩ := h
    rw [flatMap, keep]
    cases hkeep : evalBool row predicate with
    | error e =>
      refine .succ (.bind hrow ((Settles.const _).congr fun fuel => ?_))
      simp only [hkeep]
      rfl
    | ok b =>
      cases b with
      | false =>
        refine (ih hrest).of_settles fun x hx => .succ (.bind hrow (hx.congr fun fuel => ?_))
        simp only [hkeep]
        rfl
      | true =>
        refine ⟨.filter input' predicate, .succ (.bind hrow ((Settles.const _).congr fun fuel => ?_)),
          ih hrest⟩
        simp only [hkeep]
        rfl

theorem gives_project (h : Gives (next cat) input t) :
    Gives (next cat) (.project input isStar items)
      (t.flatMap fun row => .ofExcept ((projectRow isStar items row).map some)) := by
  induction t generalizing input with
  | done =>
    obtain ⟨input', hend, hstays⟩ := h
    exact ⟨.project input' isStar items, .succ (.bind hend (.const _)),
      .succ (.bind hstays (.const _))⟩
  | fail e => exact .succ (.bind_error h)
  | more row rest ih =>
    obtain ⟨input', hrow, hrest⟩ := h
    have hcall : ∀ x, projectRow isStar items row = x →
        Settles (next cat · (.project input isStar items))
          (x.map fun row => (some row, .project input' isStar items)) := by
      rintro x rfl
      refine .succ (.bind hrow ((Settles.const _).congr fun fuel => ?_))
      cases isStar with
      | true => rfl
      | false =>
        simp only [projectRow, ofExcept_eq, Bool.false_eq_true, if_false]
        cases projectFields row items <;> rfl
    rw [flatMap]
    cases hproj : projectRow isStar items row with
    | error e => exact hcall _ hproj
    | ok row' => exact ⟨_, hcall _ hproj, ih hrest⟩

/-- What a join does when it is done with a row of the input it pulls: it takes the next one. -/
def takeNext (cat : CatalogReads (Except Exn) N) (input : PhysicalPlan)
    (join : Option ExecRow → PhysicalPlan → PhysicalPlan) (fuel : Nat) :
    Except Exn (Option ExecRow × PhysicalPlan) := do
  let (row, input) ← next cat fuel input
  next cat fuel (join row input)

/-- An input whose first row was taken, and the join over what the call came to. -/
def Taken (cat : CatalogReads (Except Exn) N) (join : Option ExecRow → PhysicalPlan → PhysicalPlan)
    (t u : Pulls Exn ExecRow) : Except Exn (Option ExecRow × PhysicalPlan) → Prop
  | .ok (row, input) => Gives (next cat) (join row input) u
  | .error e => t = .fail e ∧ u = .fail e

theorem Taken.gives {join : Option ExecRow → PhysicalPlan → PhysicalPlan} {u : Pulls Exn ExecRow}
    {x : Except Exn (Option ExecRow × PhysicalPlan)} (hx : Settles (next cat · input) x)
    (h : Taken cat join t u x) {s : PhysicalPlan}
    (hs : ∀ fuel, next cat (fuel + 1) s = takeNext cat input join fuel) : Gives (next cat) s u := by
  cases x with
  | error e =>
    obtain ⟨-, rfl⟩ := h
    exact .succ ((Settles.bind_error hx).congr hs)
  | ok taken => exact Gives.of_settles h fun y hy => .succ ((Settles.bind hx hy).congr hs)

theorem gives_nestedLoopJoin (right : PhysicalPlan) (condition : Expr) (rightRows : List ExecRow)
    (h : Gives (next cat) left t) :
    ∃ x, Settles (next cat · left) x ∧
      Taken cat (fun row left => .nestedLoopJoin left right condition ⟨row, rightRows, 0⟩) t
        (t.flatMap (pairs condition rightRows)) x := by
  induction t generalizing left with
  | done =>
    obtain ⟨left', hend, -⟩ := h
    have hstays : Settles (next cat · (.nestedLoopJoin left' right condition ⟨none, rightRows, 0⟩))
        (.ok (none, .nestedLoopJoin left' right condition ⟨none, rightRows, 0⟩)) :=
      .succ (.const _)
    exact ⟨_, hend, _, hstays, hstays⟩
  | fail e => exact ⟨_, h, rfl, rfl⟩
  | more l rest ih =>
    obtain ⟨left', hrow, hrest⟩ := h
    obtain ⟨x, hx, htaken⟩ := ih hrest
    have hpairs : ∀ cursor, Gives (next cat)
        (.nestedLoopJoin left' right condition ⟨some l, rightRows, cursor⟩)
        ((pairs condition (rightRows.drop cursor) l).append
          (rest.flatMap (pairs condition rightRows))) := by
      intro cursor
      -- on the right rows that are left
      generalize hdrop : rightRows.drop cursor = rs
      induction rs generalizing cursor with
      | nil =>
        refine htaken.gives hx fun fuel => ?_
        have hget : rightRows[cursor]? = none := by
          rw [List.getElem?_eq_none_iff]
          exact List.drop_eq_nil_iff.mp hdrop
        simp only [next, hget]
        rfl
      | cons r rs ihr =>
        have hget : rightRows[cursor]? = some r := by
          rw [← List.head?_drop, hdrop]
          rfl
        have hnext := ihr (cursor + 1) (by rw [← List.tail_drop, hdrop]; rfl)
        have hcall : ∀ fuel, next cat (fuel + 1)
            (.nestedLoopJoin left' right condition ⟨some l, rightRows, cursor⟩)
              = (evalBool (l ++ r) condition).bind fun b =>
                if b then .ok (some (l ++ r),
                  .nestedLoopJoin left' right condition ⟨some l, rightRows, cursor + 1⟩)
                else next cat fuel
                  (.nestedLoopJoin left' right condition ⟨some l, rightRows, cursor + 1⟩) := by
          intro fuel
          simp only [next, hget, ofExcept_eq]
          rfl
        rw [pairs, ofList, flatMap, keep]
        cases hkeep : evalBool (l ++ r) condition with
        | error e =>
          refine .succ ((Settles.const _).congr fun fuel => ?_)
          rw [hcall, hkeep]
          rfl
        | ok b =>
          cases b with
          | false =>
            refine hnext.of_settles fun y hy => .succ (hy.congr fun fuel => ?_)
            rw [hcall, hkeep]
            rfl
          | true =>
            refine ⟨_, .succ ((Settles.const _).congr fun fuel => ?_), hnext⟩
            rw [hcall, hkeep]
            rfl
    exact ⟨_, hrow, hpairs 0⟩

theorem gives_hashJoin (buildSide : PhysicalPlan) (buildColumn probeColumn : ColumnRef)
    (table : List (Value × ExecRow)) (h : Gives (next cat) probeSide t) :
    ∃ x, Settles (next cat · probeSide) x ∧
      Taken cat (fun row probeSide =>
        .hashJoin buildSide probeSide buildColumn probeColumn ⟨table, row, [], 0⟩) t
        (t.flatMap (probes probeColumn table)) x := by
  induction t generalizing probeSide with
  | done =>
    obtain ⟨probe', hend, -⟩ := h
    have hstays : Settles
        (next cat · (.hashJoin buildSide probe' buildColumn probeColumn ⟨table, none, [], 0⟩))
        (.ok (none, .hashJoin buildSide probe' buildColumn probeColumn ⟨table, none, [], 0⟩)) :=
      .succ (.const _)
    exact ⟨_, hend, _, hstays, hstays⟩
  | fail e => exact ⟨_, h, rfl, rfl⟩
  | more p rest ih =>
    obtain ⟨probe', hrow, hrest⟩ := h
    obtain ⟨x, hx, htaken⟩ := ih hrest
    have hcached : ∀ found cursor, cursor ≠ 0 → Gives (next cat)
        (.hashJoin buildSide probe' buildColumn probeColumn ⟨table, some p, found, cursor⟩)
        ((ofList ((found.drop cursor).map (p ++ ·))).append
          (rest.flatMap (probes probeColumn table))) := by
      intro found cursor hcursor
      -- on the matches that are left
      generalize hdrop : found.drop cursor = ms
      induction ms generalizing cursor with
      | nil =>
        refine htaken.gives hx fun fuel => ?_
        have hget : found[cursor]? = none := by
          rw [List.getElem?_eq_none_iff]
          exact List.drop_eq_nil_iff.mp hdrop
        simp only [next, hcursor, false_and, if_false, pure_bind, hget]
        rfl
      | cons b ms ihm =>
        have hget : found[cursor]? = some b := by
          rw [← List.head?_drop, hdrop]
          rfl
        refine ⟨_, .succ ((Settles.const _).congr fun fuel => ?_),
          ihm (cursor + 1) (Nat.succ_ne_zero cursor) (by rw [← List.tail_drop, hdrop]; rfl)⟩
        simp only [next, hcursor, false_and, if_false, pure_bind, hget]
        rfl
    have hcall : ∀ fuel, next cat (fuel + 1)
        (.hashJoin buildSide probe' buildColumn probeColumn ⟨table, some p, [], 0⟩)
          = (p.find probeColumn).bind fun key =>
            match equalRange key table with
            | [] => takeNext cat probe' (fun row probeSide =>
              .hashJoin buildSide probeSide buildColumn probeColumn ⟨table, row, [], 0⟩) fuel
            | b :: bs => .ok (some (p ++ b),
              .hashJoin buildSide probe' buildColumn probeColumn ⟨table, some p, b :: bs, 1⟩) := by
      intro fuel
      simp only [next, ofExcept_eq, and_self, if_true]
      cases p.find probeColumn with
      | error e => rfl
      | ok key =>
        simp only [bind, Except.bind]
        cases equalRange key table <;> rfl
    refine ⟨_, hrow, ?_⟩
    show Gives _ _ ((probes probeColumn table p).append _)
    rw [probes]
    cases hkey : p.find probeColumn with
    | error e =>
      refine .succ ((Settles.const _).congr fun fuel => ?_)
      rw [hcall, hkey]
      rfl
    | ok key =>
      show Gives _ _ ((ofList ((equalRange key table).map (p ++ ·))).append _)
      cases hfound : equalRange key table with
      | nil =>
        refine htaken.gives hx fun fuel => ?_
        rw [hcall, hkey]
        simp only [Except.bind, hfound]
      | cons b bs =>
        refine ⟨_, .succ ((Settles.const _).congr fun fuel => ?_),
          hcached (b :: bs) 1 Nat.one_ne_zero⟩
        rw [hcall, hkey]
        simp only [Except.bind, hfound]

end Gives

/-! ## Runs -/

section Run

variable {cat} {plan input left right buildSide probeSide : PhysicalPlan} {t : Pulls Exn ExecRow}

/-- Pulled to the end, an iterator gives its elements. -/
theorem drain_settles {α : Type} {f : ExecRow → Except Exn α} (h : Gives (next cat) plan t) :
    ∃ x, Settles (drain cat f · plan) x ∧
      x.toOption.map Prod.fst = t.elements.bind (List.mapM fun row => (f row).toOption) := by
  induction t generalizing plan with
  | done =>
    obtain ⟨plan', hend, -⟩ := h
    exact ⟨.ok ([], plan'), .succ (.bind hend (.const _)), rfl⟩
  | fail e => exact ⟨.error e, .succ (.bind_error h), rfl⟩
  | more row rest ih =>
    obtain ⟨plan', hrow, hrest⟩ := h
    obtain ⟨x, hx, hrows⟩ := ih hrest
    cases hf : f row with
    | error e =>
      refine ⟨.error e, .succ (.bind hrow ((Settles.const _).congr fun fuel => ?_)), ?_⟩
      · simp only [ofExcept_eq, hf]
        rfl
      · rw [elements_more]
        cases rest.elements with
        | none => rfl
        | some as =>
          show none = List.mapM _ (row :: as)
          rw [mapM_cons_option, hf]
          rfl
    | ok kept =>
      refine ⟨x.map fun p => (kept :: p.1, p.2),
        .succ (.bind hrow ((hx.map _).congr fun fuel => ?_)), ?_⟩
      · simp only [ofExcept_eq, hf]
        cases drain cat f fuel plan' <;> rfl
      · have hx' : (x.map fun (p : List α × PhysicalPlan) => (kept :: p.1, p.2)).toOption.map Prod.fst
            = (x.toOption.map Prod.fst).map (kept :: ·) := by
          cases x <;> rfl
        rw [hx', hrows, elements_more]
        cases rest.elements with
        | none => rfl
        | some as =>
          show _ = List.mapM _ (row :: as)
          rw [mapM_cons_option, hf]
          rfl

theorem drain_all (h : Gives (next cat) plan t) :
    ∃ x, Settles (drain cat .ok · plan) x ∧ x.toOption.map Prod.fst = t.elements := by
  obtain ⟨x, hx, hrows⟩ := drain_settles (f := Except.ok) h
  refine ⟨x, hx, hrows.trans ?_⟩
  have hmap : List.mapM (fun row : ExecRow => (Except.ok (ε := Exn) row).toOption) = some := by
    funext rs
    exact (List.mapM_pure (m := Option) (f := id)).trans (congrArg some (List.map_id rs))
  rw [hmap]
  cases t.elements <;> rfl

/-- What `Open` came to: an iterator over the given rows, or an exception where there are none. -/
def Opened (cat : CatalogReads (Except Exn) N) (x : Except Exn PhysicalPlan)
    (rows : Option (List ExecRow)) : Prop :=
  match x with
  | .ok plan => ∃ t, Gives (next cat) plan t ∧ t.elements = rows
  | .error _ => rows = none

/-- `Open` comes to an iterator over the plan's rows. -/
def Opens (cat : CatalogReads (Except Exn) N) (plan : PhysicalPlan) : Prop :=
  ∃ x, Settles (plan.open cat ·) x ∧ Opened cat x (plan.rows cat)

theorem opens_scan (table aliasName : Bytes) (c : ScanCursor) :
    Opens cat (.scan table aliasName c) := by
  cases hscan : cat.scanTable table with
  | error e =>
    refine ⟨.error e, (Settles.const _).congr fun fuel => ?_, ?_⟩
    · rw [«open», hscan]
      rfl
    · rw [rows, hscan]
      rfl
  | ok stored =>
    refine ⟨.ok (.scan table aliasName ⟨stored, 0⟩), (Settles.const _).congr fun fuel => ?_,
      _, gives_scan stored 0, ?_⟩
    · rw [«open», hscan]
      rfl
    · rw [rows, hscan, elements_flatMap, List.drop_zero, elements_ofList]
      refine Eq.trans (congrArg (collect · stored) (funext fun values => ?_))
        (collect_singleton _ stored)
      rw [elements_ofExcept]
      cases tagRow cat table aliasName values <;> rfl

theorem opens_filter (h : Opens cat input) (predicate : Expr) :
    Opens cat (.filter input predicate) := by
  obtain ⟨x, hx, hopened⟩ := h
  cases x with
  | error e => exact ⟨.error e, .bind_error hx, by rw [rows, hopened]; rfl⟩
  | ok input' =>
    obtain ⟨t, hgives, hrows⟩ := hopened
    refine ⟨_, .bind hx (.const _), _, gives_filter hgives, ?_⟩
    rw [elements_flatMap, hrows, rows]
    simp only [elements_ofExcept]

theorem opens_project (h : Opens cat input) (isStar : Bool) (items : List SelectItem) :
    Opens cat (.project input isStar items) := by
  obtain ⟨x, hx, hopened⟩ := h
  cases x with
  | error e => exact ⟨.error e, .bind_error hx, by rw [rows, hopened]; rfl⟩
  | ok input' =>
    obtain ⟨t, hgives, hrows⟩ := hopened
    refine ⟨_, .bind hx (.const _), _, gives_project hgives, ?_⟩
    rw [elements_flatMap, hrows, rows]
    refine congrArg _ (funext fun rs => (congrArg (collect · rs) (funext fun row => ?_)).trans
      (collect_singleton _ rs))
    rw [elements_ofExcept]
    cases projectRow isStar items row <;> rfl

theorem opens_nestedLoopJoin (hl : Opens cat left) (hr : Opens cat right) (condition : Expr)
    (c : NestedLoopCursor) : Opens cat (.nestedLoopJoin left right condition c) := by
  obtain ⟨x, hx, hleft⟩ := hl
  cases x with
  | error e => exact ⟨.error e, .bind_error hx, by rw [rows, hleft]; rfl⟩
  | ok left' =>
    obtain ⟨t, hgives, hleft⟩ := hleft
    obtain ⟨y, hy, hright⟩ := hr
    cases y with
    | error e =>
      refine ⟨.error e, .bind hx (.bind_error hy), ?_⟩
      rw [rows, hright]
      cases left.rows cat <;> rfl
    | ok right' =>
      obtain ⟨u, hgives', hright⟩ := hright
      obtain ⟨z, hz, hdrained⟩ := drain_all hgives'
      rw [hright] at hdrained
      cases z with
      | error e =>
        refine ⟨.error e, .bind hx (.bind hy (.bind_error hz)), ?_⟩
        rw [rows, ← hdrained]
        cases left.rows cat <;> rfl
      | ok drained =>
        obtain ⟨rs, right''⟩ := drained
        obtain ⟨w, hw, htaken⟩ :=
          gives_nestedLoopJoin right''.close condition rs hgives
        cases w with
        | error e =>
          obtain ⟨rfl, -⟩ := htaken
          refine ⟨.error e, .bind hx (.bind hy (.bind hz (.bind_error hw))), ?_⟩
          rw [rows, ← hleft]
          rfl
        | ok taken =>
          refine ⟨_, .bind hx (.bind hy (.bind hz (.bind hw (.const _)))), _, htaken, ?_⟩
          rw [elements_flatMap, hleft, rows, ← hdrained]
          simp only [pairs, elements_flatMap, elements_ofList, elements_ofExcept]
          rfl

theorem opens_hashJoin (hb : Opens cat buildSide) (hp : Opens cat probeSide)
    (buildColumn probeColumn : ColumnRef) (c : HashCursor) :
    Opens cat (.hashJoin buildSide probeSide buildColumn probeColumn c) := by
  obtain ⟨x, hx, hbuild⟩ := hb
  cases x with
  | error e => exact ⟨.error e, .bind_error hx, by rw [rows, hbuild]; rfl⟩
  | ok build' =>
    obtain ⟨t, hgives, hbuild⟩ := hbuild
    obtain ⟨y, hy, hdrained⟩ :=
      drain_settles (f := fun r => (r.find buildColumn).map (·, r)) hgives
    rw [hbuild] at hdrained
    have htable : (buildSide.rows cat).bind (fun bs =>
        bs.mapM fun (b : ExecRow) => (b.find buildColumn).toOption.map (·, b))
          = y.toOption.map Prod.fst := by
      rw [hdrained]
      congr 1
      funext bs
      congr 1
      funext b
      cases b.find buildColumn <;> rfl
    cases y with
    | error e =>
      refine ⟨.error e, .bind hx (.bind_error hy), ?_⟩
      rw [rows, ← Option.bind_assoc, htable]
      rfl
    | ok drained =>
      obtain ⟨table, build''⟩ := drained
      have hrows : (PhysicalPlan.hashJoin buildSide probeSide buildColumn probeColumn c).rows cat
          = (probeSide.rows cat).bind (collect fun (p : ExecRow) =>
            (p.find probeColumn).toOption.map fun key => (equalRange key table).map (p ++ ·)) := by
        rw [rows, ← Option.bind_assoc, htable]
        rfl
      rw [Opens, hrows]
      obtain ⟨z, hz, hprobe⟩ := hp
      cases z with
      | error e => exact ⟨.error e, .bind hx (.bind hy (.bind_error hz)), by rw [hprobe]; rfl⟩
      | ok probe' =>
        obtain ⟨u, hgives', hprobe⟩ := hprobe
        obtain ⟨w, hw, htaken⟩ :=
          gives_hashJoin build''.close buildColumn probeColumn table hgives'
        cases w with
        | error e =>
          obtain ⟨rfl, -⟩ := htaken
          refine ⟨.error e, .bind hx (.bind hy (.bind hz (.bind_error hw))), ?_⟩
          rw [← hprobe]
          rfl
        | ok taken =>
          refine ⟨_, .bind hx (.bind hy (.bind hz (.bind hw (.const _)))), _, htaken, ?_⟩
          rw [elements_flatMap, hprobe]
          congr 1
          funext ps
          refine congrArg (collect · ps) (funext fun p => ?_)
          rw [probes]
          cases p.find probeColumn with
          | error e => rfl
          | ok key => exact elements_ofList _

theorem opens (cat : CatalogReads (Except Exn) N) (plan : PhysicalPlan) : Opens cat plan := by
  induction plan with
  | scan table aliasName c => exact opens_scan table aliasName c
  | filter input predicate ih => exact opens_filter ih predicate
  | nestedLoopJoin left right condition c ihl ihr => exact opens_nestedLoopJoin ihl ihr condition c
  | hashJoin buildSide probeSide buildColumn probeColumn c ihb ihp =>
    exact opens_hashJoin ihb ihp buildColumn probeColumn c
  | project input isStar items ih => exact opens_project ih isStar items

/-- **A plan opened and pulled to the end gives its rows**, and throws when it has none. -/
theorem run_settles (cat : CatalogReads (Except Exn) N) (plan : PhysicalPlan) :
    ∃ x, Settles (plan.run cat ·) x ∧ x.toOption.map Prod.fst = plan.rows cat := by
  obtain ⟨x, hx, hopened⟩ := opens cat plan
  cases x with
  | error e => exact ⟨.error e, .bind_error hx, hopened.symm⟩
  | ok plan' =>
    obtain ⟨t, hgives, hrows⟩ := hopened
    obtain ⟨y, hy, hdrained⟩ := drain_all hgives
    rw [hrows] at hdrained
    cases y with
    | error e => exact ⟨.error e, .bind hx (.bind_error hy), hdrained⟩
    | ok drained => exact ⟨_, .bind hx (.bind hy (.const _)), hdrained⟩

end Run

end

end PhysicalPlan

end Reldb
