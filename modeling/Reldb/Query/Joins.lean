import Reldb.Query.Header

/-!
# Reldb — hash joins and nested loops

On an equality of a column of each side, a nested loop compares every pair with `CompareValues`, and a hash
join looks every probe row's value up with `Value::operator==`. The two agree on values of one type. On
values of different types the nested loop throws at the first pair, and the hash join finds nothing.
-/

namespace Reldb

open Multiset

/-- `ValueKind`. -/
def Value.kind : Value → ColumnType
  | .int _ => .integer
  | .text _ => .text

/-- `l.c = r.d`. -/
def columnEquality (l c r d : Bytes) : Expr :=
  .comparison .eq (.columnRef (some l) c) (.columnRef (some r) d)

/-! ## Comparing values -/

section

variable {u v : Value}

theorem compareValues_of_kind_ne (h : u.kind ≠ v.kind) : ∃ e, compareValues u v = .error e := by
  cases u <;> cases v
  · exact absurd rfl h
  · exact ⟨_, rfl⟩
  · exact ⟨_, rfl⟩
  · exact absurd rfl h

/-- A three-way comparison that decides equality. -/
theorem threeWay_eq {α : Type} [LT α] [DecidableLT α] [DecidableEq α] {a b : α}
    (hirrefl : ¬ a < a) (hanti : ¬ a < b → ¬ b < a → a = b) :
    ((if a < b then Ordering.lt else if b < a then .gt else .eq) == .eq) = decide (a = b) := by
  by_cases hab : a = b
  · subst hab
    rw [if_neg hirrefl, if_neg hirrefl, decide_eq_true rfl]
    rfl
  · rw [decide_eq_false hab]
    by_cases hlt : a < b
    · rw [if_pos hlt]
      rfl
    · rw [if_neg hlt, if_pos (Classical.byContradiction fun hgt => hab (hanti hlt hgt))]
      rfl

theorem compareValues_of_kind_eq (h : u.kind = v.kind) :
    ∃ o, compareValues u v = .ok o ∧ (o == .eq) = decide (u = v) := by
  cases u with
  | int a =>
    cases v with
    | int b =>
      refine ⟨_, rfl, ?_⟩
      rw [threeWay_eq (lt_irrefl a) fun hab hba => le_antisymm (not_lt.mp hba) (not_lt.mp hab)]
      simp only [Value.int.injEq]
    | text b => cases h
  | text a =>
    cases v with
    | int b => cases h
    | text b =>
      refine ⟨_, rfl, ?_⟩
      rw [threeWay_eq (List.lt_irrefl a) fun hab hba =>
        List.le_antisymm (List.not_lt.mp hba) (List.not_lt.mp hab)]
      simp only [Value.text.injEq]

end

/-! ## The two joins on lists -/

/-- The pairs of rows with equal keys, as bags. -/
def matchingPairs (u v : ExecRow → Value) (ls rs : List ExecRow) : Multiset (Multiset Field) :=
  (ls : Multiset ExecRow).bind fun a => (rs : Multiset ExecRow).bind fun b =>
    if u a = v b then {ofList (a ++ b)} else 0

theorem matchingPairs_swap (u v : ExecRow → Value) (ls rs : List ExecRow) :
    matchingPairs u v ls rs = matchingPairs v u rs ls := by
  rw [matchingPairs, bind_bind, matchingPairs]
  refine bind_congr fun b _ => bind_congr fun a _ => ?_
  simp only [eq_comm (a := u a), ← coe_add, add_comm]

theorem bag_matches (u v : ExecRow → Value) (ls rs : List ExecRow) :
    bag (ls.flatMap fun a => (PhysicalPlan.equalRange (u a) (rs.map fun b => (v b, b))).map (a ++ ·))
      = matchingPairs u v ls rs := by
  rw [bag_flatMap]
  refine bind_congr fun a _ => ?_
  induction rs with
  | nil => rfl
  | cons b rs ih =>
    rw [← cons_coe, cons_bind, ← ih, List.map_cons, PhysicalPlan.equalRange, List.filter_cons]
    by_cases hkey : v b = u a
    · rw [if_pos (beq_iff_eq.mpr hkey), if_pos hkey.symm]
      rfl
    · rw [if_neg (mt beq_iff_eq.mp hkey), if_neg (Ne.symm hkey), zero_add]
      rfl

theorem bag_nestedLoop (u v : ExecRow → Value) (ls rs : List ExecRow) :
    bag (ls.flatMap fun a => rs.flatMap fun b => if u a = v b then [a ++ b] else [])
      = matchingPairs u v ls rs := by
  rw [bag_flatMap]
  refine bind_congr fun a _ => ?_
  rw [bag_flatMap]
  refine bind_congr fun b _ => ?_
  split <;> rfl

/-! ## The two joins -/

/-- What the two inputs of a join on `l.c = r.d` are: `l.c` is a column of the first and `r.d` one of the
second, and no table is in both. -/
structure Joinable (db : Contents) (left right : PhysicalPlan) (l c r d : Bytes) : Prop where
  disjoint : ∀ n ∈ left.header db, ∀ n' ∈ right.header db, n.1 ≠ n'.1
  left_mem : (l, c) ∈ left.header db
  right_mem : (r, d) ∈ right.header db

/-- Every value of the one column is of the type of every value of the other. -/
def Comparable (db : Contents) (left right : PhysicalPlan) (l c r d : Bytes) : Prop :=
  ∀ ls rs, db.rowsOf left = some ls → db.rowsOf right = some rs → ∀ a ∈ ls, ∀ b ∈ rs, ∀ x y,
    a.find ⟨some l, c⟩ = .ok x → b.find ⟨some r, d⟩ = .ok y → x.kind = y.kind

/-- A row's value of a column it has. -/
def ExecRow.valueAt (ref : ColumnRef) (row : ExecRow) : Value :=
  match row.find ref with
  | .ok v => v
  | .error _ => .int 0

section

variable {db : Contents} {left right : PhysicalPlan} {l c r d : Bytes} {ls rs : List ExecRow}
  {a b : ExecRow} {ref : ColumnRef}

theorem ExecRow.find_valueAt (h : ∃ v, a.find ref = .ok v) : a.find ref = .ok (a.valueAt ref) := by
  obtain ⟨v, hv⟩ := h
  rw [valueAt, hv]

theorem Joinable.find_left (hj : Joinable db left right l c r d) (hls : db.rowsOf left = some ls)
    (ha : a ∈ ls) : a.find ⟨some l, c⟩ = .ok (a.valueAt ⟨some l, c⟩) :=
  ExecRow.find_valueAt (ExecRow.find_of_mem_names (names_of_mem_rowsOf hls ha ▸ hj.left_mem))

theorem Joinable.find_right (hj : Joinable db left right l c r d) (hrs : db.rowsOf right = some rs)
    (hb : b ∈ rs) : b.find ⟨some r, d⟩ = .ok (b.valueAt ⟨some r, d⟩) :=
  ExecRow.find_valueAt (ExecRow.find_of_mem_names (names_of_mem_rowsOf hrs hb ▸ hj.right_mem))

/-- A nested loop compares the values of the two columns. -/
theorem Joinable.evalBool_pair (hj : Joinable db left right l c r d)
    (hls : db.rowsOf left = some ls) (hrs : db.rowsOf right = some rs) (ha : a ∈ ls) (hb : b ∈ rs) :
    evalBool (a ++ b) (columnEquality l c r d)
      = (compareValues (a.valueAt ⟨some l, c⟩) (b.valueAt ⟨some r, d⟩)).map (· == .eq) := by
  have hleft : (a ++ b : ExecRow).find ⟨some l, c⟩ = .ok (a.valueAt ⟨some l, c⟩) := by
    rw [ExecRow.find_append_left (names_of_mem_rowsOf hls ha ▸ hj.left_mem), hj.find_left hls ha]
  have hright : (a ++ b : ExecRow).find ⟨some r, d⟩ = .ok (b.valueAt ⟨some r, d⟩) := by
    rw [ExecRow.find_append_right, hj.find_right hrs hb]
    intro n hn
    rw [names_of_mem_rowsOf hls ha] at hn
    exact hj.disjoint n hn _ hj.right_mem
  simp only [columnEquality, evalBool, evalValue, hleft, hright, Bind.bind, Except.bind]
  cases compareValues (a.valueAt ⟨some l, c⟩) (b.valueAt ⟨some r, d⟩) <;> rfl

/-- The pairs a nested loop keeps where all the values are of one type. -/
theorem Joinable.rows_nestedLoopJoin (hj : Joinable db left right l c r d)
    (hls : db.rowsOf left = some ls) (hrs : db.rowsOf right = some rs)
    (hkind : ∀ a ∈ ls, ∀ b ∈ rs,
      (a.valueAt ⟨some l, c⟩).kind = (b.valueAt ⟨some r, d⟩).kind) :
    (db.rowsOf (.newNestedLoopJoin left right (columnEquality l c r d))).map bag
      = some (matchingPairs (ExecRow.valueAt ⟨some l, c⟩) (ExecRow.valueAt ⟨some r, d⟩) ls rs) := by
  have hrows : db.rowsOf (.newNestedLoopJoin left right (columnEquality l c r d))
      = some (ls.flatMap fun a => rs.flatMap fun b =>
        if a.valueAt ⟨some l, c⟩ = b.valueAt ⟨some r, d⟩ then [a ++ b] else []) := by
    rw [Contents.rowsOf, PhysicalPlan.newNestedLoopJoin, PhysicalPlan.rows,
      show left.rows _ = some ls from hls, show right.rows _ = some rs from hrs]
    refine collect_of_some fun a ha => collect_of_some fun b hb => ?_
    obtain ⟨o, ho, heq⟩ := compareValues_of_kind_eq (hkind a ha b hb)
    rw [PhysicalPlan.keep, hj.evalBool_pair hls hrs ha hb, ho]
    simp only [Except.map, Except.toOption, Option.map_some, heq, decide_eq_true_eq]
    split <;> rfl
  rw [hrows, Option.map_some, bag_nestedLoop]

/-- A nested loop over a pair of values of different types throws. -/
theorem Joinable.rows_nestedLoopJoin_none (hj : Joinable db left right l c r d)
    (hls : db.rowsOf left = some ls) (hrs : db.rowsOf right = some rs) (ha : a ∈ ls) (hb : b ∈ rs)
    (hkind : (a.valueAt ⟨some l, c⟩).kind ≠ (b.valueAt ⟨some r, d⟩).kind) :
    db.rowsOf (.newNestedLoopJoin left right (columnEquality l c r d)) = none := by
  rw [Contents.rowsOf, PhysicalPlan.newNestedLoopJoin, PhysicalPlan.rows,
    show left.rows _ = some ls from hls, show right.rows _ = some rs from hrs, Option.bind_some,
    Option.bind_some, ← Option.not_isSome_iff_eq_none, collect_isSome]
  intro hall
  have hpair := collect_isSome.mp (hall a ha) b hb
  obtain ⟨e, he⟩ := compareValues_of_kind_ne hkind
  rw [PhysicalPlan.keep, hj.evalBool_pair hls hrs ha hb, he] at hpair
  cases hpair

/-- A hash join pairs each probe row with the build rows of its value. -/
theorem rowsOf_hashJoin {buildSide probeSide : PhysicalPlan} {bref pref : ColumnRef}
    {bs ps : List ExecRow} (c : HashCursor) (hbs : db.rowsOf buildSide = some bs)
    (hps : db.rowsOf probeSide = some ps) (hb : ∀ b ∈ bs, b.find bref = .ok (b.valueAt bref))
    (hp : ∀ p ∈ ps, p.find pref = .ok (p.valueAt pref)) :
    db.rowsOf (.hashJoin buildSide probeSide bref pref c)
      = some (ps.flatMap fun p => (PhysicalPlan.equalRange (p.valueAt pref)
        (bs.map fun b => (b.valueAt bref, b))).map (p ++ ·)) := by
  have htable : (bs.mapM fun (b : ExecRow) => (b.find bref).toOption.map (·, b))
      = some (bs.map fun b => (b.valueAt bref, b)) :=
    mapM_of_some fun b hmem => by rw [hb b hmem]; rfl
  rw [Contents.rowsOf, PhysicalPlan.rows, show buildSide.rows _ = some bs from hbs, Option.bind_some,
    htable, Option.bind_some, show probeSide.rows _ = some ps from hps, Option.bind_some]
  exact collect_of_some fun p hmem => by rw [hp p hmem]; rfl

/-- A hash join pairs the rows with equal values, whichever side it builds on. -/
theorem rows_hashJoin {buildSide probeSide : PhysicalPlan} {bref pref : ColumnRef}
    {bs ps : List ExecRow} (hbs : db.rowsOf buildSide = some bs) (hps : db.rowsOf probeSide = some ps)
    (hb : ∀ b ∈ bs, b.find bref = .ok (b.valueAt bref))
    (hp : ∀ p ∈ ps, p.find pref = .ok (p.valueAt pref)) :
    (db.rowsOf (.newHashJoin buildSide probeSide bref pref)).map bag
      = some (matchingPairs (ExecRow.valueAt pref) (ExecRow.valueAt bref) ps bs) := by
  rw [PhysicalPlan.newHashJoin, rowsOf_hashJoin _ hbs hps hb hp, Option.map_some, bag_matches]

/-- A join whose input throws does. -/
theorem rows_joins_of_none (left right : PhysicalPlan)
    (h : db.rowsOf left = none ∨ db.rowsOf right = none) (condition : Expr) (lref rref : ColumnRef) :
    db.rowsOf (.newNestedLoopJoin left right condition) = none ∧
      db.rowsOf (.newHashJoin left right lref rref) = none := by
  simp only [Contents.rowsOf, PhysicalPlan.newNestedLoopJoin, PhysicalPlan.newHashJoin,
    PhysicalPlan.rows, Option.bind_eq_none_iff]
  rcases h with h | h
  · have h : left.rows (db.reads id) = none := h
    rw [h]
    constructor <;> intro _ hrows <;> cases hrows
  · have h : right.rows (db.reads id) = none := h
    rw [h]
    constructor
    · intro _ _ _ hrows
      cases hrows
    · intro _ _ _ _ _ hrows
      cases hrows

end

namespace Catalog

/-- A hash join on either side agrees with the nested loop. -/
def JoinsAgree (cat : Catalog) (left right : PhysicalPlan) (l c r d : Bytes) : Prop :=
  cat.PlansAgree (.newHashJoin left right ⟨some l, c⟩ ⟨some r, d⟩)
      (.newNestedLoopJoin left right (columnEquality l c r d)) ∧
    cat.PlansAgree (.newHashJoin right left ⟨some r, d⟩ ⟨some l, c⟩)
      (.newNestedLoopJoin left right (columnEquality l c r d))

end Catalog

/-- **A hash join on either side agrees with the nested loop** on `l.c = r.d` exactly when every value of
`l.c` is of the type of every value of `r.d`; where an input throws, or has no row, there are none. -/
theorem hashJoin_agrees_iff {cat : Catalog} {db : Contents} (h : cat.Shows db)
    {left right : PhysicalPlan} {l c r d : Bytes} (hj : Joinable db left right l c r d) :
    cat.JoinsAgree left right l c r d ↔ Comparable db left right l c r d := by
  rw [Catalog.JoinsAgree, h.plansAgree_iff, h.plansAgree_iff]
  cases hls : db.rowsOf left with
  | none =>
    obtain ⟨hnl, hhash⟩ := rows_joins_of_none left right (.inl hls) (columnEquality l c r d)
      ⟨some l, c⟩ ⟨some r, d⟩
    obtain ⟨-, hhash'⟩ := rows_joins_of_none right left (.inr hls) (columnEquality l c r d)
      ⟨some r, d⟩ ⟨some l, c⟩
    rw [hnl, hhash, hhash']
    exact ⟨fun _ ls rs h => absurd (hls.symm.trans h) nofun, fun _ => ⟨rfl, rfl⟩⟩
  | some ls =>
    cases hrs : db.rowsOf right with
    | none =>
      obtain ⟨hnl, hhash⟩ := rows_joins_of_none left right (.inr hrs) (columnEquality l c r d)
        ⟨some l, c⟩ ⟨some r, d⟩
      obtain ⟨-, hhash'⟩ := rows_joins_of_none right left (.inl hrs) (columnEquality l c r d)
        ⟨some r, d⟩ ⟨some l, c⟩
      rw [hnl, hhash, hhash']
      exact ⟨fun _ ls rs _ h => absurd (hrs.symm.trans h) nofun, fun _ => ⟨rfl, rfl⟩⟩
    | some rs =>
      have hl := fun a (ha : a ∈ ls) => hj.find_left hls ha
      have hr := fun b (hb : b ∈ rs) => hj.find_right hrs hb
      simp only [SameRows, rows_hashJoin hls hrs hl hr, rows_hashJoin hrs hls hr hl,
        matchingPairs_swap _ _ ls rs, and_self]
      constructor
      · intro hsame ls' rs' hls' hrs' a ha b hb x y hx hy
        obtain rfl := Option.some.inj (hls.symm.trans hls')
        obtain rfl := Option.some.inj (hrs.symm.trans hrs')
        obtain rfl := Except.ok.inj ((hl a ha).symm.trans hx)
        obtain rfl := Except.ok.inj ((hr b hb).symm.trans hy)
        by_contra hkind
        rw [hj.rows_nestedLoopJoin_none hls hrs ha hb hkind] at hsame
        cases hsame
      · intro hcomp
        rw [hj.rows_nestedLoopJoin hls hrs fun a ha b hb =>
          hcomp ls rs hls hrs a ha b hb _ _ (hl a ha) (hr b hb), matchingPairs_swap]

/-- A text and a number to join on, one row each. -/
def mixedOps : List CatalogOp :=
  [.createTable (text "a") [⟨text "id", .integer, true⟩, ⟨text "v", .text, false⟩],
    .createTable (text "b") [⟨text "id", .integer, true⟩, ⟨text "w", .integer, false⟩],
    .insertRow (text "a") [.int 1, .text (text "x")], .insertRow (text "b") [.int 1, .int 7]]

/-- The two tables after `mixedOps`. -/
def HasMixed (cat : Catalog) : Prop :=
  cat.Has (text "a") ⟨text "a", [⟨text "id", .integer, true⟩, ⟨text "v", .text, false⟩]⟩
      [[.int 1, .text (text "x")]] 1 ∧
    cat.Has (text "b") ⟨text "b", [⟨text "id", .integer, true⟩, ⟨text "w", .integer, false⟩]⟩
      [[.int 1, .int 7]] 1

instance : DecidablePred HasMixed := fun _ => inferInstanceAs (Decidable (_ ∧ _))

theorem exists_hasMixed : ∃ cat : Catalog, cat.Reached ∧ HasMixed cat :=
  Catalog.exists_reached 4 mixedOps (by decide +kernel)

/-- The rows and headers of scans of the two tables. -/
theorem HasMixed.scans {cat : Catalog} {db : Contents} (hmixed : HasMixed cat) (h : cat.Shows db) :
    db.rowsOf (.newScan (text "a") (text "a"))
        = some [[⟨text "a", text "id", .int 1⟩, ⟨text "a", text "v", .text (text "x")⟩]] ∧
      db.rowsOf (.newScan (text "b") (text "b"))
        = some [[⟨text "b", text "id", .int 1⟩, ⟨text "b", text "w", .int 7⟩]] ∧
      (PhysicalPlan.newScan (text "a") (text "a")).header db
        = [(text "a", text "id"), (text "a", text "v")] ∧
      (PhysicalPlan.newScan (text "b") (text "b")).header db
        = [(text "b", text "id"), (text "b", text "w")] := by
  obtain ⟨t, ht, hschema, hrows, -⟩ := h.has hmixed.1
  obtain ⟨t', ht', hschema', hrows', -⟩ := h.has hmixed.2
  refine ⟨?_, ?_, ?_, ?_⟩
  · rw [PhysicalPlan.newScan, rowsOf_scan ht, hschema, hrows]
    rfl
  · rw [PhysicalPlan.newScan, rowsOf_scan ht', hschema', hrows']
    rfl
  · simp only [PhysicalPlan.newScan, PhysicalPlan.header, ht, hschema]
    rfl
  · simp only [PhysicalPlan.newScan, PhysicalPlan.header, ht', hschema']
    rfl

theorem HasMixed.joinable {cat : Catalog} {db : Contents} (hmixed : HasMixed cat) (h : cat.Shows db)
    {c d : Bytes} (hc : c = text "id" ∨ c = text "v") (hd : d = text "id" ∨ d = text "w") :
    Joinable db (.newScan (text "a") (text "a")) (.newScan (text "b") (text "b"))
      (text "a") c (text "b") d := by
  obtain ⟨-, -, hleft, hright⟩ := hmixed.scans h
  refine ⟨?_, ?_, ?_⟩
  · rw [hleft, hright]
    decide +kernel
  · rw [hleft]
    rcases hc with rfl | rfl <;> simp
  · rw [hright]
    rcases hd with rfl | rfl <;> simp

/-- Joined on two numbers, the tables make no difference between the joins. -/
theorem hashJoin_agrees_iff_numbers : ∃ cat : Catalog, cat.Reached ∧
    cat.JoinsAgree (.newScan (text "a") (text "a")) (.newScan (text "b") (text "b"))
      (text "a") (text "id") (text "b") (text "w") := by
  obtain ⟨cat, hreached, hmixed⟩ := exists_hasMixed
  obtain ⟨db, h⟩ := hreached.shows
  obtain ⟨hleft, hright, -⟩ := hmixed.scans h
  refine ⟨cat, hreached, (hashJoin_agrees_iff h (hmixed.joinable h (.inl rfl) (.inr rfl))).mpr ?_⟩
  intro ls rs hls hrs a ha b hb x y hx hy
  obtain rfl := Option.some.inj (hleft.symm.trans hls)
  obtain rfl := Option.some.inj (hright.symm.trans hrs)
  obtain rfl := List.mem_singleton.mp ha
  obtain rfl := List.mem_singleton.mp hb
  obtain rfl := Except.ok.inj hx
  obtain rfl := Except.ok.inj hy
  rfl

/-- Joined on a text and a number, the nested loop throws and the hash join does not. -/
theorem hashJoin_not_agrees_mixed : ¬ ∀ (cat : Catalog) (db : Contents), cat.Shows db →
    ∀ (left right : PhysicalPlan) (l c r d : Bytes), Joinable db left right l c r d →
      cat.JoinsAgree left right l c r d := by
  intro hall
  obtain ⟨cat, hreached, hmixed⟩ := exists_hasMixed
  obtain ⟨db, h⟩ := hreached.shows
  obtain ⟨hleft, hright, -⟩ := hmixed.scans h
  have hj := hmixed.joinable h (.inr rfl) (.inr rfl)
  have hsame := h.plansAgree_iff.mp (hall cat db h _ _ _ _ _ _ hj).1
  have hhash := rows_hashJoin hleft hright (fun a ha => hj.find_left hleft ha)
    fun b hb => hj.find_right hright hb
  rw [SameRows, hhash, hj.rows_nestedLoopJoin_none hleft hright List.mem_cons_self
    List.mem_cons_self (by decide +kernel)] at hsame
  cases hsame

end Reldb
