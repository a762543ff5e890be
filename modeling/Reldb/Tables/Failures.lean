import Reldb.Tables.Counts
import Reldb.Tree.Failures

/-!
# Reldb — what becomes of an `InsertRow`

A row that passes the checks is refused before anything is written when the pool has fewer frames than
the table's tree has levels. With frames enough for the way down it is stored, unless its leaf is full:
then the split may find no frame, or the leaf may end at its page's end.
-/

namespace Reldb

open WriteLog BufferPool

/-- An `InsertRow` that writes past its leaf. -/
def CatalogOp.Overruns (cat : Catalog) : CatalogOp → Prop
  | .insertRow name values => ∃ body slot handle entry key blob d,
      cat.bufferPool.view 0 = some (.catalog body) ∧
      Catalog.Stores cat body name values slot handle entry key blob ∧
      HasLevel cat.bufferPool.view d entry.rootPageId ∧ d < cat.bufferPool.poolSize ∧
      OnStore.NoRoom cat.bufferPool.view (cat.bufferPool.next + 1) entry.rootPageId key
  | _ => False

/-- An `InsertRow` that fails its checks, or finds no frame for every page of its way down. -/
def CatalogOp.Refused (cat : Catalog) : CatalogOp → Prop
  | .insertRow name values => ∀ body slot handle entry key blob d,
      cat.bufferPool.view 0 = some (.catalog body) →
      Catalog.Stores cat body name values slot handle entry key blob →
      HasLevel cat.bufferPool.view d entry.rootPageId → cat.bufferPool.poolSize ≤ d
  | _ => False

namespace Catalog

section

variable {base : Files} {cat : Catalog} {body : CatalogBody} {trees : Nat → AnyTree} {slot d : Nat}
  {handle : TableHandle} {entry : CatalogTableEntry} {name : Bytes} {values : List Value}
  {key : Int64} {blob : Bytes}

theorem Stores.unique {slot' : Nat} {handle' : TableHandle} {entry' : CatalogTableEntry}
    {key' : Int64} {blob' : Bytes} (hst : Stores cat body name values slot handle entry key blob)
    (hst' : Stores cat body name values slot' handle' entry' key' blob') :
    slot = slot' ∧ entry = entry' ∧ key = key' := by
  obtain ⟨rfl, rfl⟩ := hst.finds.unique hst'.finds
  have hrow := hst.row.symm.trans hst'.row
  exact ⟨rfl, Option.some.inj (hst.entry_eq.symm.trans hst'.entry_eq),
    (Prod.mk.inj (Except.ok.inj hrow)).1⟩

theorem Stores.exhausted (h : Ready base cat body)
    (hst : Stores cat body name values slot handle entry key blob)
    (hd : HasLevel cat.bufferPool.view d entry.rootPageId) (hpool : cat.bufferPool.poolSize ≤ d) :
    ∃ cat', outcomeOf (Catalog.insertRow name values cat) = (.error .exhaustedInsert, cat') ∧
      Touched base body cat cat' := by
  have hlt := Nat.lt_succ_of_lt (h.toPoolReady.level_lt hd)
  exact hst.kept h (OnStore.insert_exhausted hd hlt hpool key blob)

theorem Stores.overruns (h : Ready base cat body)
    (hst : Stores cat body name values slot handle entry key blob)
    (hd : HasLevel cat.bufferPool.view d entry.rootPageId) (hpool : d < cat.bufferPool.poolSize)
    (hroom : OnStore.NoRoom cat.bufferPool.view (cat.bufferPool.next + 1) entry.rootPageId key) :
    ∃ cat', outcomeOf (Catalog.insertRow name values cat) = (.error .undefinedBehaviour, cat') := by
  have hlt := Nat.lt_succ_of_lt (h.toPoolReady.level_lt hd)
  obtain ⟨cat', hrun, -⟩ :=
    hst.kept h ((OnStore.insert_overruns_iff h.sound hd hlt key blob).mpr ⟨hpool, hroom⟩)
  exact ⟨cat', hrun⟩

/-- **An insertion that finds no frame for its split** throws with its row in the leaf. -/
theorem Stores.starved (h : Ready base cat body) (hf : Forest cat.bufferPool.view body.tables trees)
    (hst : Stores cat body name values slot handle entry key blob)
    (hstarves : cat.Starves entry.rootPageId key) :
    ∃ e cat', outcomeOf (Catalog.insertRow name values cat) = (.error e, cat') ∧
      (e = .undefinedBehaviour ∨ ∃ body' trees', Ready base cat' body' ∧
        Forest cat'.bufferPool.view body'.tables trees' ∧ cat'.heads = cat.heads ∧
        (trees' slot).2.cells.length = (trees slot).2.cells.length + 1) := by
  obtain ⟨d, hd, hpool, hfull⟩ := hstarves
  have hintact := hf.intact hst.entry_eq hst.inUse
  obtain rfl := hd.unique hintact.hasLevel
  have hlt := Nat.lt_succ_of_lt (h.toPoolReady.level_lt hd)
  rcases hst.moved h hf with ⟨e, cat', hrun, -, ⟨-, hlow⟩ | ⟨rfl, -⟩⟩ |
    ⟨tree', bp, hgrew, hs, hforest, hrun⟩
  · omega
  · exact ⟨_, cat', hrun, .inl rfl⟩
  · obtain ⟨e, he⟩ := @OnStore.insert_starves _ _ cat.bufferPool.next _ _
      (OnStore.writeRootPageId slot) h.sound hd hlt hfull blob
    rw [← hpool] at he
    have he : (cat.insertRun slot entry.rootPageId key blob).result = .error e := he
    obtain ⟨count, htables, -⟩ := bodyAfter_tables hst.entry_eq
      (cat.insertRun slot entry.rootPageId key blob)
    refine ⟨e, _, by rw [hrun, he]; rfl, .inr ⟨_, Function.update trees slot tree', hst.ready h hs, ?_,
      hst.heads_eq _ bp, ?_⟩⟩
    · simp only [afterInsert, hs.view_eq]
      exact hforest
    · rw [Function.update_self]
      rw [htables] at hforest
      have hslot := (List.getElem?_eq_some_iff.mp hst.entry_eq).1
      have hintact' := hforest.intact (List.getElem?_set_self hslot) hst.inUse
      rw [Function.update_self] at hintact'
      exact length_upsert hintact.holds.sorted hintact'.holds.sorted hgrew.mem
        (hintact.lacks_of_fullLeaf h.fresh hfull)

/-- **An insertion that finds its frames and room** returns. -/
theorem Stores.returns (h : Ready base cat body) (hf : Forest cat.bufferPool.view body.tables trees)
    (hst : Stores cat body name values slot handle entry key blob)
    (hd : HasLevel cat.bufferPool.view d entry.rootPageId) (hpool : d < cat.bufferPool.poolSize)
    (hroom : ¬ OnStore.NoRoom cat.bufferPool.view (cat.bufferPool.next + 1) entry.rootPageId key)
    (hstarves : ¬ cat.Starves entry.rootPageId key) :
    ∃ cat', outcomeOf (Catalog.insertRow name values cat) = (.ok (), cat') := by
  have hintact := hf.intact hst.entry_eq hst.inUse
  obtain rfl := hd.unique hintact.hasLevel
  have hlt := Nat.lt_succ_of_lt (h.toPoolReady.level_lt hd)
  rcases hst.forest h hf with ⟨e, hfail, ⟨-, hlow⟩ | ⟨rfl, -⟩⟩ | ⟨tree', hgrew, -⟩
  · omega
  · exact absurd ((OnStore.insert_overruns_iff h.sound hd hlt key blob).mp hfail).2 hroom
  · obtain ⟨bp, hrun, -⟩ := hst.insertRow h
    rcases hgrew.result with ⟨root, hok⟩ | ⟨-, hframes, hfull⟩
    · have heq : cat.insertRowRun slot entry.rootPageId key blob = _ :=
        insertRow_eq h.sound hd h.pool_pos h.fresh h.page hst.entry_eq
          (show OnStore.insert _ _ _ _ _ key blob = cat.insertRun slot entry.rootPageId key blob
            from rfl)
      rw [hrun, heq]
      simp only [hok]
      exact ⟨_, rfl⟩
    · exact absurd ⟨_, hd, hframes, hfull⟩ hstarves

end

end Catalog

end Reldb
