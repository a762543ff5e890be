import Mathlib.Logic.Function.DependsOn
import Reldb.Query.Joins

/-!
# Reldb — rows, table by table

The order joins run in decides the order of the fields of a row, but not the fields of each table among
themselves: `blocks`. Expressions are evaluated by looking references up, and a lookup sees no more than the
blocks, so rows with the same blocks pass the same conditions and are projected alike.
-/

namespace Reldb

/-! ## The references of an expression -/

namespace Expr

def refs : Expr → List ColumnRef
  | .columnRef table column => [⟨table, column⟩]
  | .literal _ => []
  | .comparison _ left right | .and left right | .or left right => left.refs ++ right.refs

/-- Every column reference names its table. -/
def Qualified (e : Expr) : Prop := ∀ ref ∈ e.refs, ref.table.isSome = true

instance : DecidablePred Qualified := fun _ => inferInstanceAs (Decidable (∀ _ ∈ _, _))

theorem mem_collectReferencedTables {e : Expr} {t c : Bytes} (h : (⟨some t, c⟩ : ColumnRef) ∈ e.refs) :
    t ∈ collectReferencedTables e := by
  induction e with
  | columnRef table column =>
    cases List.mem_singleton.mp h
    exact List.mem_singleton_self t
  | literal value => cases h
  | comparison op left right ihl ihr =>
    rcases List.mem_append.mp h with h | h
    · exact List.mem_append_left _ (ihl h)
    · exact List.mem_append_right _ (ihr h)
  | and left right ihl ihr =>
    rcases List.mem_append.mp h with h | h
    · exact List.mem_append_left _ (ihl h)
    · exact List.mem_append_right _ (ihr h)
  | or left right ihl ihr =>
    rcases List.mem_append.mp h with h | h
    · exact List.mem_append_left _ (ihl h)
    · exact List.mem_append_right _ (ihr h)

end Expr

/-! ## Evaluation looks references up -/

section

variable {row row' : ExecRow} {e : Expr}

theorem evalValue_congr (h : ∀ ref ∈ e.refs, row.find ref = row'.find ref) :
    evalValue row e = evalValue row' e := by
  cases e with
  | columnRef table column => exact h _ (List.mem_singleton_self _)
  | literal value => rfl
  | comparison op left right => rfl
  | and left right => rfl
  | or left right => rfl

/-- **Rows in which the references of an expression have the same values evaluate it alike**, exceptions
included. -/
theorem evalBool_congr (h : ∀ ref ∈ e.refs, row.find ref = row'.find ref) :
    evalBool row e = evalBool row' e := by
  induction e with
  | columnRef table column => rfl
  | literal value => rfl
  | comparison op left right =>
    obtain ⟨hl, hr⟩ := List.forall_mem_append.mp h
    rw [evalBool, evalBool, evalValue_congr hl, evalValue_congr hr]
  | and left right ihl ihr =>
    obtain ⟨hl, hr⟩ := List.forall_mem_append.mp h
    rw [evalBool, evalBool, ihl hl, ihr hr]
  | or left right ihl ihr =>
    obtain ⟨hl, hr⟩ := List.forall_mem_append.mp h
    rw [evalBool, evalBool, ihl hl, ihr hr]

theorem projectFields_congr (h : ∀ ref, row.find ref = row'.find ref) (items : List SelectItem) :
    PhysicalPlan.projectFields row items = PhysicalPlan.projectFields row' items := by
  induction items with
  | nil => rfl
  | cons item items ih => rw [PhysicalPlan.projectFields, PhysicalPlan.projectFields, h, ih]

end

/-! ## Blocks -/

/-- The fields of each table, in their order. -/
def ExecRow.blocks (row : ExecRow) (table : Bytes) : ExecRow := row.filter (·.table == table)

/-- No table has fields. -/
def noBlocks : Bytes → ExecRow := fun _ => []

namespace ExecRow

variable {row row' l r : ExecRow} {a t c : Bytes}

theorem blocks_append (l r : ExecRow) (t : Bytes) :
    blocks (l ++ r) t = l.blocks t ++ r.blocks t := List.filter_append l r

theorem blocks_eq_nil_iff : row.blocks t = [] ↔ ∀ f ∈ row, f.table ≠ t := by
  simp only [blocks, List.filter_eq_nil_iff, beq_iff_eq, ne_eq]

/-- A row of one table. -/
theorem blocks_of_forall (h : ∀ f ∈ row, f.table = a) :
    row.blocks = Function.update noBlocks a row := by
  funext t
  by_cases hta : t = a
  · subst hta
    rw [Function.update_self, blocks, List.filter_eq_self]
    exact fun f hf => beq_iff_eq.mpr (h f hf)
  · rw [Function.update_of_ne hta]
    exact blocks_eq_nil_iff.mpr fun f hf heq => hta (heq.symm.trans (h f hf))

/-- A row joined with the row of a new table, on either side of it. -/
theorem blocks_pair (hl : l.blocks a = []) (hr : ∀ f ∈ r, f.table = a) :
    blocks (l ++ r) = Function.update l.blocks a r ∧ blocks (r ++ l) = Function.update l.blocks a r := by
  have hblocks := blocks_of_forall hr
  constructor
  · funext t
    rw [blocks_append, hblocks]
    by_cases hta : t = a
    · subst hta
      rw [Function.update_self, Function.update_self, hl, List.nil_append]
    · rw [Function.update_of_ne hta, Function.update_of_ne hta]
      exact List.append_nil _
  · funext t
    rw [blocks_append, hblocks]
    by_cases hta : t = a
    · subst hta
      rw [Function.update_self, Function.update_self, hl, List.append_nil]
    · rw [Function.update_of_ne hta, Function.update_of_ne hta]
      exact List.nil_append _

/-! ## Lookups see no more than the blocks -/

/-- A lookup with a table looks at the table's block. -/
theorem find_blocks (row : ExecRow) (t c : Bytes) :
    (row.blocks t).find ⟨some t, c⟩ = row.find ⟨some t, c⟩ := by
  rw [find_qualified, find_qualified, blocks, List.find?_filter]
  have hsame : (fun f : Field => decide ((f.table == t) = true ∧ (f.table == t && f.column == c) = true))
      = fun f => f.table == t && f.column == c := by
    funext f
    cases f.table == t <;> cases f.column == c <;> rfl
  rw [hsame]

/-- Rows with the same blocks have the same fields. -/
theorem perm_of_blocks (h : row.blocks = row'.blocks) : row.Perm row' := by
  rw [List.perm_iff_count]
  intro f
  have hcount : ∀ row : ExecRow, (row.blocks f.table).count f = row.count f :=
    fun row => List.count_filter (beq_self_eq_true _)
  rw [← hcount row, ← hcount row', h]

/-- A lookup without a table depends on the fields of the column alone. -/
theorem findUnqualified_eq (column : Bytes) (found : Option Value) (row : ExecRow) :
    findUnqualified column found row
      = findUnqualified column found (row.filter (·.column == column)) := by
  induction row generalizing found with
  | nil => rfl
  | cons f row ih =>
    rw [List.filter_cons]
    by_cases hf : f.column = column
    · rw [if_pos (beq_iff_eq.mpr hf)]
      cases found with
      | none =>
        simp only [findUnqualified, if_pos hf]
        exact ih _
      | some value => simp only [findUnqualified, if_pos hf]
    · rw [if_neg (mt beq_iff_eq.mp hf), ← ih found]
      cases found <;> simp only [findUnqualified, if_neg hf]

/-- Two fields of the column are one too many, whatever they hold. -/
theorem findUnqualified_two {column : Bytes} {f g f' g' : Field} {fs fs' : ExecRow}
    (hf : f.column = column) (hg : g.column = column) (hf' : f'.column = column)
    (hg' : g'.column = column) : findUnqualified column none (f :: g :: fs)
      = findUnqualified column none (f' :: g' :: fs') := by
  simp only [findUnqualified, hf, hg, hf', hg', if_true]

theorem findUnqualified_perm (h : row.Perm row') (column : Bytes) :
    findUnqualified column none row = findUnqualified column none row' := by
  rw [findUnqualified_eq column none row, findUnqualified_eq column none row']
  have hmem : ∀ row : ExecRow, ∀ f ∈ row.filter (·.column == column), f.column = column :=
    fun row f hf => beq_iff_eq.mp (List.mem_filter.mp hf).2
  have hfs := hmem row
  have hfs' := hmem row'
  have hperm := h.filter (·.column == column)
  generalize row.filter (·.column == column) = fs at hfs hperm ⊢
  generalize row'.filter (·.column == column) = fs' at hfs' hperm ⊢
  rcases fs with _ | ⟨f, _ | ⟨g, fs⟩⟩
  · rw [List.nil_perm.mp hperm]
  · rw [List.singleton_perm.mp hperm]
  · rcases fs' with _ | ⟨f', _ | ⟨g', fs'⟩⟩
    · exact absurd hperm.length_eq (Nat.succ_ne_zero _)
    · exact absurd (Nat.succ.inj hperm.length_eq) (Nat.succ_ne_zero _)
    · simp only [List.mem_cons, forall_eq_or_imp] at hfs hfs'
      exact findUnqualified_two hfs.1 hfs.2.1 hfs'.1 hfs'.2.1

/-- **Rows with the same blocks give every reference the same value.** -/
theorem find_of_blocks (h : row.blocks = row'.blocks) (ref : ColumnRef) :
    row.find ref = row'.find ref := by
  obtain ⟨table, column⟩ := ref
  cases table with
  | some t => rw [← find_blocks row, ← find_blocks row', h]
  | none => exact findUnqualified_perm (perm_of_blocks h) column

/-! ## Conditions over blocks -/

/-- The condition evaluates to true. -/
def satisfies (row : ExecRow) (condition : Expr) : Bool :=
  match evalBool row condition with
  | .ok b => b
  | .error _ => false

theorem satisfies_congr {e : Expr} (h : ∀ ref ∈ e.refs, row.find ref = row'.find ref) :
    row.satisfies e = row'.satisfies e := by rw [satisfies, satisfies, evalBool_congr h]

end ExecRow

/-- A condition over blocks: the ones of the tables it mentions are enough of a row. -/
def holdsIn (condition : Expr) (blocks : Bytes → ExecRow) : Bool :=
  ExecRow.satisfies ((collectReferencedTables condition).flatMap blocks) condition

theorem holdsIn_dependsOn (condition : Expr) :
    DependsOn (holdsIn condition) {t | t ∈ collectReferencedTables condition} := by
  intro blocks blocks' h
  have hrow : (collectReferencedTables condition).flatMap blocks
      = (collectReferencedTables condition).flatMap blocks' := List.flatMap_congr h
  rw [holdsIn, holdsIn, hrow]

/-- A table's fields are found among the blocks of tables it is one of. -/
theorem find_flatMap_blocks (row : ExecRow) {ts : List Bytes} {t : Bytes} (h : t ∈ ts) (c : Bytes) :
    ExecRow.find (ts.flatMap row.blocks) ⟨some t, c⟩ = row.find ⟨some t, c⟩ := by
  induction ts with
  | nil => cases h
  | cons a ts ih =>
    rw [List.flatMap_cons, ExecRow.find_qualified, List.find?_append]
    by_cases hta : t = a
    · subst hta
      rw [← ExecRow.find_blocks row t c, ExecRow.find_qualified]
      cases hfind : List.find? (fun f => f.table == t && f.column == c) (row.blocks t) with
      | some f => rfl
      | none =>
        -- no other block has fields of the table either
        have hnone : List.find? (fun f => f.table == t && f.column == c)
            (ts.flatMap row.blocks) = none := by
          rw [List.find?_eq_none] at hfind ⊢
          intro f hf hmatch
          obtain ⟨b, -, hf⟩ := List.mem_flatMap.mp hf
          have htable := beq_iff_eq.mp (Bool.and_eq_true_iff.mp hmatch).1
          refine hfind f ?_ hmatch
          exact List.mem_filter.mpr ⟨List.mem_of_mem_filter hf, beq_iff_eq.mpr htable⟩
        rw [hnone]
        rfl
    · have hnone : List.find? (fun f => f.table == t && f.column == c) (row.blocks a) = none := by
        rw [List.find?_eq_none]
        intro f hf hmatch
        have htable := beq_iff_eq.mp (Bool.and_eq_true_iff.mp hmatch).1
        exact hta (htable.symm.trans (beq_iff_eq.mp (List.mem_filter.mp hf).2))
      rw [hnone, ← ih ((List.mem_cons.mp h).resolve_left hta)]
      rfl

/-- **A qualified condition sees a row's blocks and nothing else.** -/
theorem holdsIn_blocks {condition : Expr} (hq : condition.Qualified) (row : ExecRow) :
    holdsIn condition row.blocks = row.satisfies condition := by
  apply ExecRow.satisfies_congr
  intro ref href
  obtain ⟨table, column⟩ := ref
  obtain ⟨t, rfl⟩ := Option.isSome_iff_exists.mp (hq _ href)
  exact find_flatMap_blocks row (Expr.mem_collectReferencedTables href) column

end Reldb
