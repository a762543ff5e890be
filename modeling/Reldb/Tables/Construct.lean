import Reldb.Tables.Forest

/-!
# Reldb — constructing a catalog

`Catalog(BufferPool*)` on a fresh file allocates the catalog page, page 0; on an existing one it
reads the handles off it.
-/

namespace Reldb

open WriteLog BufferPool

/-- The page of a fresh catalog. -/
def emptyCatalogWrites : List PageWrite := [(0, .catalog .zero)]

def emptyCatalogRun : Run (PageId × List TableHandle) :=
  ⟨.ok (0, List.replicate maxCatalogTables .empty), emptyCatalogWrites, 1⟩

/-- The store of a fresh catalog. -/
def emptyCatalogStore : PageStore := replay WriteLog.empty emptyCatalogWrites

/-- No entry of a fresh catalog is in use. -/
theorem CatalogBody.zero_tables {i : Nat} {entry : CatalogTableEntry}
    (h : CatalogBody.zero.tables[i]? = some entry) : entry = .zero := by
  rw [CatalogBody.zero, List.getElem?_replicate] at h
  split at h
  · exact (Option.some.inj h).symm
  · cases h

theorem emptyCatalog_shadow : Shadow WriteLog.empty (0, .catalog .zero) := by
  refine .register (fun b hb => by cases hb) id fun q hq => ?_
  obtain ⟨i, entry, hi, huse, -⟩ := CatalogBody.mem_roots.mp hq
  rw [CatalogBody.zero_tables hi] at huse
  cases huse

theorem emptyCatalog_log : OneCommit WriteLog.empty emptyCatalogWrites :=
  .shadows (.cons emptyCatalog_shadow (.nil _))

namespace Catalog

section

variable {base : Files} {bp : BufferPool}

/-- Construction on a fresh file. Starting from an empty log it logs exactly its page. -/
theorem construct_fresh (h : Good base bp [] []) (hpool : 0 < bp.poolSize) (hnext : bp.next = 0) :
    ∃ bp', construct bp = emptyCatalogRun.outcome bp' ∧ Settled base [] bp emptyCatalogRun bp' ∧
      (bp.wal.isSome → bp.records = [] → bp'.log = emptyCatalogWrites) := by
  have hcount : bp.diskPageCount = 0 := hnext
  obtain ⟨f, bp₁, hnew, h₁, e₁, v₁, n₁⟩ := h.newPage hpool
  rw [hnext] at hnew h₁ v₁ n₁
  obtain ⟨bp₂, hwrite, h₂, e₂, v₂, n₂⟩ :=
    h₁.write List.mem_cons_self List.mem_cons_self (.catalog .zero)
  have hdirty := h₂.markDirty List.mem_cons_self List.mem_cons_self
  obtain ⟨h₃, e₃, v₃, n₃⟩ := h₂.release_unlogged List.not_mem_nil (by rw [v₂, write_self])
  have hget : (MonadState.get : Prog BufferPool BufferPool) bp = .ok bp bp := rfl
  have heffect : Effect bp _ emptyCatalogWrites := e₁.trans (e₂.trans e₃)
  refine ⟨_, ?_, ⟨h₃, heffect, ?_, ?_⟩, fun hwal hempty => ?_⟩
  · unfold construct
    rw [Prog.bind_ok hget, if_pos hcount, Prog.bind_ok hnew]
    have hzero : ¬ ((⟨0, f⟩ : PageGuard).pageId ≠ 0) := fun hne => hne rfl
    simp only [PageGuard.withGuard, if_neg hzero, Prog.bind_ok hwrite, Prog.bind_ok hdirty]
    rfl
  · rw [v₃, v₂, v₁, write_write]
    rfl
  · rw [n₃, n₂, n₁]
    rfl
  · -- nothing was logged before the release
    obtain ⟨R₂, hR₂, hstut₂⟩ := (e₁.trans e₂).records
    obtain ⟨R, hR, hstut⟩ := heffect.records
    rw [hempty] at hR₂ hR hstut₂ hstut
    have hnil : R₂ = [] := List.map_eq_nil_iff.mp (hstut₂ hwal).eq_nil_of_empty
    have hlen₂ : bp₂.records.length = 0 := by rw [hR₂, hnil]; rfl
    have hlen₃ := release_records_length ⟨0, f⟩ bp₂
    have hR' := congrArg List.length hR
    rw [List.nil_append] at hR'
    have hlen : (writesOf R).length ≤ emptyCatalogWrites.length := by
      rw [writesOf, List.length_map, ← hR']
      simp only [emptyCatalogWrites, List.length_cons, List.length_nil]
      omega
    rw [BufferPool.log, hR]
    exact (hstut hwal).eq_of_length_le hlen

/-- The catalog page needs a frame. -/
theorem pool_pos {cat : Catalog} {bp' : BufferPool} (h : Good base bp [] []) (hnext : bp.next = 0)
    (hnew : Catalog.new bp = .ok cat bp') : 0 < bp.poolSize := by
  refine Nat.pos_of_ne_zero fun hzero => ?_
  have hcount : bp.diskPageCount = 0 := hnext
  have hget : (MonadState.get : Prog BufferPool BufferPool) bp = .ok bp bp := rfl
  unfold Catalog.new construct at hnew
  rw [Prog.bind_ok hget, if_pos hcount, Prog.bind_ok (h.newPage_full hzero.le)] at hnew
  cases hnew

/-- **A fresh catalog**: ready, with no table. -/
theorem new_fresh (h : Good base bp [] []) (hpool : 0 < bp.poolSize) (hnext : bp.next = 0) :
    ∃ bp', Catalog.new bp = .ok ⟨bp', 0, List.replicate maxCatalogTables .empty⟩ bp' ∧
      Settled base [] bp emptyCatalogRun bp' ∧
      (bp.wal.isSome → bp.records = [] → bp'.log = emptyCatalogWrites) ∧
      bp'.view = emptyCatalogStore ∧
      Ready base ⟨bp', 0, List.replicate maxCatalogTables .empty⟩ .zero := by
  obtain ⟨bp', hrun, hs, hlog⟩ := construct_fresh h hpool hnext
  have hempty : bp.view = WriteLog.empty := by
    funext p
    exact h.view_next (hnext ▸ Nat.zero_le p)
  have hview : bp'.view = emptyCatalogStore := by rw [hs.view_eq, hempty]; rfl
  have hmirrors : TableHandle.empty.Mirrors .zero :=
    ⟨rfl, fun huse => (by cases huse), fun _ hroot => (by cases hroot)⟩
  refine ⟨bp', ?_, hs, hlog, hview, ⟨⟨hs.good, ?_, ?_⟩, rfl, ?_, ?_⟩⟩
  · unfold Catalog.new
    rw [hrun]
    rfl
  · rw [hs.effect.poolSize_eq]
    exact hpool
  · rw [hview]
    exact emptyCatalog_log.sound empty_sound
  · show bp'.view 0 = _
    rw [hview]
    rfl
  · show List.Forall₂ TableHandle.Mirrors (List.replicate maxCatalogTables .empty)
      (List.replicate maxCatalogTables .zero)
    induction maxCatalogTables with
    | zero => exact .nil
    | succ n ih => exact .cons hmirrors ih

/-- The trees of a catalog with no table: none that matters. -/
theorem forest_fresh (σ : PageStore) (trees : Nat → AnyTree) :
    Forest σ CatalogBody.zero.tables trees where
  intact hi huse := by
    rw [CatalogBody.zero_tables hi] at huse
    cases huse
  disjoint hi huse := by
    rw [CatalogBody.zero_tables hi] at huse
    cases huse

theorem smallTrees_fresh (trees : Nat → AnyTree) :
    SmallTrees CatalogBody.zero.tables trees := by
  intro i entry hi huse
  rw [CatalogBody.zero_tables hi] at huse
  cases huse

theorem mirrors_handle {entry : CatalogTableEntry}
    (hv : entry.inUse = true → entry.schema.Valid) : entry.handle.Mirrors entry := by
  unfold CatalogTableEntry.handle
  by_cases huse : entry.inUse = true
  · rw [if_pos huse]
    exact ⟨huse.symm, fun _ => hv huse, fun _ hroot => (by cases hroot)⟩
  · rw [if_neg huse]
    exact ⟨(Bool.eq_false_iff.mpr huse).symm, fun h => (by cases h), fun _ hroot => (by cases hroot)⟩

/-- **A catalog over an existing file**: ready, with the handles its page says. -/
theorem new_existing {body : CatalogBody} (h : PoolReady base bp)
    (hpage : bp.view 0 = some (.catalog body))
    (hvalid : ∀ entry ∈ body.tables, entry.inUse = true → entry.schema.Valid) :
    ∃ bp', Catalog.new bp = .ok ⟨bp', 0, body.tables.map CatalogTableEntry.handle⟩ bp' ∧
      Quiet bp bp' ∧ Ready base ⟨bp', 0, body.tables.map CatalogTableEntry.handle⟩ body := by
  have hcount : bp.diskPageCount ≠ 0 := (Nat.zero_lt_of_lt (h.good.lt_next hpage)).ne'
  obtain ⟨f, bp₁, hfetch, h₁, hquiet⟩ := h.good.fetchPage hpage List.not_mem_nil h.pool_pos
  obtain ⟨hgood, hrelease⟩ := h₁.release List.not_mem_nil
  have hget : (MonadState.get : Prog BufferPool BufferPool) bp = .ok bp bp := rfl
  have hall := hquiet.trans hrelease
  refine ⟨_, ?_, hall, ⟨h.of_quiet hgood hall, rfl, ?_, ?_⟩⟩
  · unfold Catalog.new construct
    rw [Prog.bind_ok hget, if_neg hcount, Prog.bind_ok hfetch]
    simp only [PageGuard.withGuard,
      Prog.bind_ok (h₁.page List.mem_cons_self (hquiet.view_eq ▸ hpage)), Prog.pure_run]
  · show (PageGuard.release ⟨0, f⟩ bp₁).view 0 = _
    rw [hall.view_eq]
    exact hpage
  · refine List.forall₂_map_left_iff.mpr (List.forall₂_same.mpr fun entry hmem => ?_)
    exact mirrors_handle (hvalid entry hmem)

end

end Catalog

end Reldb
