import Reldb.Catalog
import Reldb.Tree.Construct

/-!
# Reldb — the catalog's page accesses over a store of pages

What the methods of `Reldb.Catalog` read and write: entries of the catalog page, the empty root of a
new table, and, through the table's tree, its rows. As in `Reldb.Tree.OnStore`, a method comes to a
`Run`: a result, the page writes in the order they reach the log, and the next free page id.
-/

namespace Reldb

open WriteLog BufferPool

namespace OnStore

/-- The entry at `slot` of the catalog page, rewritten. -/
def updateEntry (slot : Nat) (f : CatalogTableEntry → CatalogTableEntry) (σ : PageStore)
    (next : PageId) : Run Unit :=
  match σ 0 with
  | some (.catalog body) =>
    ⟨.ok (), [(0, .catalog { body with tables := body.tables.modify slot f })], next⟩
  | _ => .fail next .undefinedBehaviour

/-- How a table's tree registers a new root. -/
def writeRootPageId (slot : Nat) (newRoot : PageId) (σ : PageStore) (next : PageId) : Run Unit :=
  updateEntry slot (fun entry => { entry with rootPageId := newRoot }) σ next

def bumpRowCount (slot : Nat) (σ : PageStore) (next : PageId) : Run Unit :=
  updateEntry slot (fun entry => { entry with rowCount := entry.rowCount + 1 }) σ next

def allocateTable (slot : Nat) (schema : TableSchema) (body : CatalogBody) (next : PageId) :
    Run Unit :=
  ⟨.ok (), [(next, .leaf none []), (0, .catalog
    { numTables := body.numTables + 1, tables := body.tables.set slot (schema.entry next) })],
    next + 1⟩

/-- The insertion of a row, its checks passed: into the tree, and then into the count. -/
def insertRow (poolSize slot : Nat) (σ : PageStore) (next root : PageId) (key : Int64)
    (blob : Bytes) : Run Unit :=
  (insert poolSize (writeRootPageId slot) σ next root key blob).andThen σ
    fun _ σ next => bumpRowCount slot σ next

theorem updateEntry_eq {σ : PageStore} {body : CatalogBody} (hb : σ 0 = some (.catalog body))
    (slot : Nat) (f : CatalogTableEntry → CatalogTableEntry) (next : PageId) :
    updateEntry slot f σ next
      = ⟨.ok (), [(0, .catalog { body with tables := body.tables.modify slot f })], next⟩ := by
  simp only [updateEntry, hb]

end OnStore

section

variable {base : Files} {bp : BufferPool} {body : CatalogBody} {slot : Nat}

theorem updateEntry_refines (h : Good base bp [] []) (hpool : 0 < bp.poolSize)
    (hb : bp.view 0 = some (.catalog body)) (slot : Nat)
    (f : CatalogTableEntry → CatalogTableEntry) :
    Refines base [] (updateEntry 0 slot f) bp (OnStore.updateEntry slot f bp.view bp.next) := by
  rw [OnStore.updateEntry_eq hb]
  obtain ⟨g, bp₁, hfetch, h₁, hquiet⟩ := h.fetchPage hb List.not_mem_nil hpool
  refine Refines.of_quiet hquiet ?_ (Prog.bind_ok hfetch)
  refine UnderGuard.withGuard ?_
  unfold UnderGuard
  rw [Prog.bind_ok (h₁.page List.mem_cons_self (hquiet.view_eq ▸ hb))]
  obtain ⟨bp₂, bp₃, hwrite, hdirty, h₃, e₃, v₃, n₃⟩ := h₁.writeDirty List.mem_cons_self
    (.catalog { body with tables := body.tables.modify slot f })
  refine ⟨bp₃, ?_, .inr ⟨h₃, ⟨[], _, rfl, e₃⟩, v₃, n₃.trans hquiet.next_eq⟩⟩
  exact (Prog.bind_ok hwrite).trans hdirty

theorem readEntry_reads {entry : CatalogTableEntry} (h : Good base bp [] [])
    (hpool : 0 < bp.poolSize) (hb : bp.view 0 = some (.catalog body))
    (hentry : body.tables[slot]? = some entry) : Reads base (readEntry 0 slot) bp (.ok entry) := by
  obtain ⟨g, bp₁, hfetch, h₁, hquiet⟩ := h.fetchPage hb List.not_mem_nil hpool
  obtain ⟨hgood, hrelease⟩ := h₁.release List.not_mem_nil
  refine ⟨_, ?_, hgood, hquiet.trans hrelease⟩
  unfold readEntry
  rw [Prog.bind_ok hfetch]
  simp only [PageGuard.withGuard,
    Prog.bind_ok (h₁.page List.mem_cons_self (hquiet.view_eq ▸ hb)), hentry, Prog.pure_run]
  rfl

/-- What `AllocateTable` writes once the table has its root page. -/
def addEntry (catalogPageId : PageId) (slot : Nat) (entry : CatalogTableEntry) : Prog BufferPool Unit := do
  let some catGuard ← fetchPage catalogPageId | throw .undefinedBehaviour
  catGuard.withGuard do
    let .catalog body ← catGuard.page | throw .undefinedBehaviour
    catGuard.write (.catalog
      { numTables := body.numTables + 1, tables := body.tables.set slot entry })
    catGuard.markDirty

theorem allocateTable_refines (h : Good base bp [] []) (hpool : 0 < bp.poolSize)
    (hb : bp.view 0 = some (.catalog body)) (slot : Nat) (schema : TableSchema) :
    Refines base [] (Catalog.allocateTable 0 slot schema) bp
      (OnStore.allocateTable slot schema body bp.next) := by
  obtain ⟨g, bp₁, hnew, h₁, e₁, v₁, n₁⟩ := h.newPage hpool
  obtain ⟨bp₂, hwrite, h₂, e₂, v₂, n₂⟩ :=
    h₁.write List.mem_cons_self List.mem_cons_self (.leaf none [])
  have hdirty := h₂.markDirty List.mem_cons_self List.mem_cons_self
  obtain ⟨h₃, e₃, v₃, n₃⟩ := h₂.release_unlogged List.not_mem_nil (by rw [v₂, write_self])
  have hview : (PageGuard.release ⟨bp.next, g⟩ bp₂).view = write bp.view (bp.next, .leaf none []) := by
    rw [v₃, v₂, v₁, write_write]
  have heffect := e₁.trans (e₂.trans e₃)
  have hnext : (PageGuard.release ⟨bp.next, g⟩ bp₂).next = bp.next + 1 := by rw [n₃, n₂, n₁]
  set bp₃ := PageGuard.release ⟨bp.next, g⟩ bp₂ with hbp₃
  have hleaf : (⟨bp.next, g⟩ : PageGuard).withGuard (do
      (⟨bp.next, g⟩ : PageGuard).write (.leaf none [])
      (⟨bp.next, g⟩ : PageGuard).markDirty
      return bp.next) bp₁ = .ok bp.next bp₃ := by
    simp only [PageGuard.withGuard, Prog.bind_ok hwrite, Prog.bind_ok hdirty, Prog.pure_run, hbp₃]
  have hb₃ : bp₃.view 0 = some (.catalog body) := by
    rw [hview, write_of_ne _ _ (h.lt_next hb).ne, hb]
  obtain ⟨g', bp₄, hfetch, h₄, hquiet⟩ :=
    h₃.fetchPage hb₃ List.not_mem_nil (by rw [heffect.poolSize_eq]; exact hpool)
  set body' : CatalogBody :=
    { numTables := body.numTables + 1, tables := body.tables.set slot (schema.entry bp.next) }
  have hcat : Refines base [] (addEntry 0 slot (schema.entry bp.next)) bp₃ ⟨.ok (), [(0, .catalog body')], bp₃.next⟩ := by
    refine Refines.of_quiet hquiet ?_ (Prog.bind_ok hfetch)
    refine UnderGuard.withGuard ?_
    unfold UnderGuard
    rw [Prog.bind_ok (h₄.page List.mem_cons_self (hquiet.view_eq ▸ hb₃))]
    obtain ⟨bp₅, bp₆, hwrite₅, hdirty₅, h₆, e₆, v₆, n₆⟩ :=
      h₄.writeDirty List.mem_cons_self (.catalog body')
    refine ⟨bp₆, ?_, .inr ⟨h₆, ⟨[], _, rfl, e₆⟩, v₆, n₆.trans hquiet.next_eq⟩⟩
    exact (Prog.bind_ok hwrite₅).trans hdirty₅
  obtain ⟨bp₇, hrun, hs⟩ := hcat
  refine ⟨bp₇, ?_, hs.good, heffect.trans hs.effect, ?_, hs.next_eq.trans hnext⟩
  · unfold Catalog.allocateTable
    exact (Prog.bind_ok hnew).trans ((Prog.bind_ok hleaf).trans hrun)
  · rw [hs.view_eq, hview]
    rfl

end

end Reldb
