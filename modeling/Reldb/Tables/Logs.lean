import Reldb.Tables.Page

/-!
# Reldb — the logs of the catalog's operations

`CREATE TABLE` logs the new root before the catalog page that refers to it; an insertion logs its
tree's writes, a new root's registration included, and the row count last. Both are shadow writes
around at most one commit, so every prefix leaves a sound store.
-/

namespace Reldb

open WriteLog

/-! ## The catalog page's body -/

namespace CatalogBody

variable {body : CatalogBody} {slot : Nat} {root : PageId}

def setRoot (body : CatalogBody) (slot : Nat) (root : PageId) : CatalogBody :=
  { body with tables := body.tables.modify slot fun entry => { entry with rootPageId := root } }

def bump (body : CatalogBody) (slot : Nat) : CatalogBody :=
  { body with
    tables := body.tables.modify slot fun entry => { entry with rowCount := entry.rowCount + 1 } }

def addTable (body : CatalogBody) (slot : Nat) (schema : TableSchema) (root : PageId) :
    CatalogBody :=
  { numTables := body.numTables + 1, tables := body.tables.set slot (schema.entry root) }

theorem mem_roots {q : PageId} : q ∈ (PageBody.catalog body).roots ↔
    ∃ (i : Nat) (entry : CatalogTableEntry), body.tables[i]? = some entry ∧ entry.inUse = true ∧
      entry.rootPageId = q := by
  simp only [PageBody.roots, List.mem_map, List.mem_filter]
  constructor
  · rintro ⟨entry, ⟨hmem, huse⟩, rfl⟩
    obtain ⟨i, hi⟩ := List.mem_iff_getElem?.mp hmem
    exact ⟨i, entry, hi, huse, rfl⟩
  · rintro ⟨i, entry, hi, huse, rfl⟩
    exact ⟨entry, ⟨List.mem_of_getElem? hi, huse⟩, rfl⟩

/-- Registering the root an entry has changes nothing. -/
theorem setRoot_same {entry : CatalogTableEntry} (h : body.tables[slot]? = some entry) :
    body.setRoot slot entry.rootPageId = body := by
  have htables : body.tables.modify slot (fun e => { e with rootPageId := entry.rootPageId })
      = body.tables := by
    refine List.ext_getElem? fun i => ?_
    rw [List.getElem?_modify]
    by_cases hi : slot = i
    · subst hi
      rw [h]
      simp
    · simp [hi]
  rw [setRoot, htables]

theorem mem_roots_setRoot {q : PageId} (h : q ∈ (PageBody.catalog (body.setRoot slot root)).roots) :
    q = root ∨ q ∈ (PageBody.catalog body).roots := by
  obtain ⟨i, entry, hi, huse, rfl⟩ := mem_roots.mp h
  rw [setRoot, List.getElem?_modify] at hi
  obtain ⟨entry₀, hi₀, rfl⟩ := Option.map_eq_some_iff.mp hi
  by_cases hslot : slot = i
  · left
    simp [hslot]
  · right
    simp only [hslot, if_false] at huse ⊢
    exact mem_roots.mpr ⟨i, entry₀, hi₀, huse, rfl⟩

theorem mem_roots_bump {q : PageId} (h : q ∈ (PageBody.catalog (body.bump slot)).roots) :
    q ∈ (PageBody.catalog body).roots := by
  obtain ⟨i, entry, hi, huse, rfl⟩ := mem_roots.mp h
  rw [bump, List.getElem?_modify] at hi
  obtain ⟨entry₀, hi₀, rfl⟩ := Option.map_eq_some_iff.mp hi
  refine mem_roots.mpr ⟨i, entry₀, hi₀, ?_, ?_⟩
  · by_cases hslot : slot = i
    · simpa [hslot] using huse
    · simpa [hslot] using huse
  · by_cases hslot : slot = i
    · simp [hslot]
    · simp [hslot]

theorem mem_roots_addTable {schema : TableSchema} {q : PageId}
    (h : q ∈ (PageBody.catalog (body.addTable slot schema root)).roots) :
    q = root ∨ q ∈ (PageBody.catalog body).roots := by
  obtain ⟨i, entry, hi, huse, rfl⟩ := mem_roots.mp h
  simp only [addTable, List.getElem?_set] at hi
  by_cases hslot : slot = i
  · left
    simp only [hslot, if_true] at hi
    split at hi
    · obtain rfl := Option.some.inj hi
      rfl
    · cases hi
  · right
    simp only [hslot, if_false] at hi
    exact mem_roots.mpr ⟨i, entry, hi, huse, rfl⟩

end CatalogBody

/-! ## Logs -/

/-- What an operation that leaves `body'` on the catalog page logs. -/
structure CatalogLog (σ : PageStore) (next : PageId) (r : Run Unit) (body' : CatalogBody) :
    Prop where
  oneCommit : OneCommit σ r.writes
  next_le : next ≤ r.next
  fresh : ∀ p, r.next ≤ p → r.store σ p = none
  page : r.store σ 0 = some (.catalog body')

section

variable {σ : PageStore} {next root : PageId} {poolSize slot d : Nat} {body : CatalogBody}
  {entry : CatalogTableEntry} {key : Int64} {blob : Bytes}

/-- A catalog page over another, with roots that are roots already. -/
theorem catalog_shadow {body' : CatalogBody} (hb : σ 0 = some (.catalog body))
    (hroots : ∀ q ∈ (PageBody.catalog body').roots, ∃ d, HasLevel σ d q) :
    Shadow σ (0, .catalog body') := by
  refine .register (fun b hb' => ?_) id hroots
  rw [hb] at hb'
  obtain rfl := Option.some.inj hb'
  exact id

/-- **The log of `CREATE TABLE`.** -/
theorem allocateTable_log (hs : Sound σ) (hnext : ∀ p, next ≤ p → σ p = none)
    (hb : σ 0 = some (.catalog body)) (slot : Nat) (schema : TableSchema) :
    CatalogLog σ next (OnStore.allocateTable slot schema body next)
      (body.addTable slot schema next) := by
  have hfresh : σ next = none := hnext next le_rfl
  have hzero : 0 < next := lt_of_some hnext hb
  have hleaf : Shadow σ (next, .leaf none []) := .newLeaf hfresh (show Linked σ none none [] from rfl) .nil
  have hcat : Shadow (write σ (next, .leaf none []))
      (0, .catalog (body.addTable slot schema next)) := by
    refine catalog_shadow (by rw [write_of_ne _ _ hzero.ne, hb]) fun q hq => ?_
    rcases CatalogBody.mem_roots_addTable hq with rfl | hq
    · exact ⟨0, none, [], write_self _ _⟩
    · obtain ⟨d, hd⟩ := hs.roots hb q hq
      exact ⟨d, (Extends.of_shadow hleaf).hasLevel hd⟩
  refine ⟨.shadows (.cons hleaf (.cons hcat (.nil _))), Nat.le_succ _, fun p hp => ?_,
    write_self (write σ (next, .leaf none [])) (0, .catalog (body.addTable slot schema next))⟩
  have hp₀ : p ≠ 0 := (Nat.lt_of_lt_of_le (Nat.succ_pos _) hp).ne'
  have hp₁ : p ≠ next := (Nat.lt_of_lt_of_le (Nat.lt_succ_self _) hp).ne'
  show write (write σ (next, .leaf none [])) (0, _) p = none
  rw [write_of_ne _ _ hp₀, write_of_ne _ _ hp₁]
  exact hnext p ((Nat.le_succ _).trans hp)

/-- **The log of an insertion into a table's tree.** -/
theorem insert_catalog (hs : Sound σ) (hroot : HasLevel σ d entry.rootPageId)
    (hpool : 0 < poolSize) (hnext : ∀ p, next ≤ p → σ p = none)
    (hb : σ 0 = some (.catalog body)) (hentry : body.tables[slot]? = some entry) (key : Int64)
    (blob : Bytes) :
    RootLog σ next 0 (fun r => .catalog (body.setRoot slot r)) entry.rootPageId
      (OnStore.insert poolSize (OnStore.writeRootPageId slot) σ next entry.rootPageId key blob)
      (rootAfter entry.rootPageId
        (OnStore.insert poolSize (OnStore.writeRootPageId slot) σ next entry.rootPageId key
          blob)) := by
  have hreg : σ 0 = some (.catalog (body.setRoot slot entry.rootPageId)) := by
    rw [CatalogBody.setRoot_same hentry, hb]
  refine insert_rootLog (fun r => .catalog (body.setRoot slot r)) hs hroot hpool hnext hreg
    (fun _ => id) (fun r q hq => ?_) (fun root' τ n hτ => ?_) key blob
  · show q = r ∨ q ∈ (PageBody.catalog (body.setRoot slot entry.rootPageId)).roots
    rw [CatalogBody.setRoot_same hentry]
    exact CatalogBody.mem_roots_setRoot hq
  · simp only [CatalogBody.setRoot_same hentry] at hτ
    exact OnStore.updateEntry_eq hτ slot _ n

/-- The catalog page after an insertion into the table at `slot`. -/
def bodyAfter (body : CatalogBody) (slot : Nat) (r : Run PageId) : CatalogBody :=
  match r.result with
  | .ok root => (body.setRoot slot root).bump slot
  | .error _ => body

/-- The run of an insertion, its tree's part and its count. -/
theorem insertRow_eq (hs : Sound σ) (hroot : HasLevel σ d entry.rootPageId) (hpool : 0 < poolSize)
    (hnext : ∀ p, next ≤ p → σ p = none) (hb : σ 0 = some (.catalog body))
    (hentry : body.tables[slot]? = some entry) {r : Run PageId}
    (hr : OnStore.insert poolSize (OnStore.writeRootPageId slot) σ next entry.rootPageId key blob
      = r) :
    OnStore.insertRow poolSize slot σ next entry.rootPageId key blob =
      match r.result with
      | .ok _ => ⟨.ok (), r.writes ++ [(0, .catalog (bodyAfter body slot r))], r.next⟩
      | .error e => ⟨.error e, r.writes, r.next⟩ := by
  have hlog := insert_catalog hs hroot hpool hnext hb hentry key blob
  rw [hr] at hlog
  rw [OnStore.insertRow, hr]
  cases hres : r.result with
  | error e => rw [Run.andThen_error hres]
  | ok root' =>
    have hpage := hlog.registered
    rw [rootAfter_ok hres] at hpage
    simp only [Run.andThen_ok hres, OnStore.bumpRowCount, OnStore.updateEntry_eq hpage, bodyAfter,
      hres]
    rfl

/-- **The log of an insertion.** -/
theorem insertRow_log (hs : Sound σ) (hroot : HasLevel σ d entry.rootPageId) (hpool : 0 < poolSize)
    (hnext : ∀ p, next ≤ p → σ p = none) (hb : σ 0 = some (.catalog body))
    (hentry : body.tables[slot]? = some entry) {r : Run PageId}
    (hr : OnStore.insert poolSize (OnStore.writeRootPageId slot) σ next entry.rootPageId key blob
      = r) :
    CatalogLog σ next (OnStore.insertRow poolSize slot σ next entry.rootPageId key blob)
      (bodyAfter body slot r) := by
  have hlog := insert_catalog hs hroot hpool hnext hb hentry key blob
  rw [hr] at hlog
  rw [insertRow_eq hs hroot hpool hnext hb hentry hr]
  cases hres : r.result with
  | error e =>
    have hpage := hlog.registered
    rw [rootAfter_error hres] at hpage
    refine ⟨hlog.oneCommit, hlog.next_le, hlog.fresh, ?_⟩
    show r.store σ 0 = _
    rw [hpage, bodyAfter, hres]
    exact congrArg (fun b => some (PageBody.catalog b)) (CatalogBody.setRoot_same hentry)
  | ok root' =>
    have hpage := hlog.registered
    rw [rootAfter_ok hres] at hpage
    have hafter : bodyAfter body slot r = (body.setRoot slot root').bump slot := by
      rw [bodyAfter, hres]
    have hshadow : Shadow (r.store σ) (0, .catalog (bodyAfter body slot r)) := by
      refine catalog_shadow hpage fun q hq => ?_
      rw [hafter] at hq
      exact (hlog.oneCommit.sound hs).roots hpage q (CatalogBody.mem_roots_bump hq)
    refine ⟨hlog.oneCommit.append (.cons hshadow (.nil _)), hlog.next_le, fun p hp => ?_, ?_⟩
    · rw [Run.store, replay_append]
      exact write_fresh hlog.fresh (lt_of_some hlog.fresh hpage) p hp
    · rw [Run.store, replay_append]
      exact write_self (r.store σ) (0, .catalog (bodyAfter body slot r))

end

end Reldb
