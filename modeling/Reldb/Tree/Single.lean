import Reldb.Tree.Root

/-!
# Reldb — the single-table tree

A `BTree` in single-table mode keeps its root in a metadata page. `Standalone` is such a tree
between calls; `SingleLog` is what one of its operations logs, the registration of a new root
included: sound throughout, and showing every scan the old contents or the new ones.
-/

namespace Reldb

open WriteLog BufferPool

/-- `on_root_changed_` unset: a new root goes into the metadata page. -/
def registerMetadata (metadataPageId : PageId) : PageId → PageStore → PageId → Run Unit :=
  fun root _ next => OnStore.writeMetadata metadataPageId root next

/-- What an operation on the tree registered in the metadata page logs. -/
abbrev SingleLog {α : Type} (σ : PageStore) (next metadataPageId root : PageId) (r : Run α)
    (root' : PageId) : Prop :=
  RootLog σ next metadataPageId PageBody.metadata root r root'

section

variable {α : Type} {σ : PageStore} {next metadataPageId root root' : PageId} {r : Run α}
  {W : List PageWrite} {n : PageId}

/-- An operation that leaves the root where it is. -/
theorem RootSplit.single (hs : Sound σ) (h : RootSplit σ next root root r.writes r.next)
    (hreg : σ metadataPageId = some (.metadata root)) :
    SingleLog σ next metadataPageId root r root :=
  h.keep PageBody.metadata hs hreg id

/-- **The log of `Insert` in single-table mode.** -/
theorem insert_single {poolSize d : Nat} (hs : Sound σ) (hroot : HasLevel σ d root)
    (hpool : 0 < poolSize) (hnext : ∀ p, next ≤ p → σ p = none)
    (hreg : σ metadataPageId = some (.metadata root)) (key : Int64) (value : Bytes) :
    SingleLog σ next metadataPageId root
      (OnStore.insert poolSize (registerMetadata metadataPageId) σ next root key value)
      (rootAfter root
        (OnStore.insert poolSize (registerMetadata metadataPageId) σ next root key value)) := by
  refine insert_rootLog PageBody.metadata hs hroot hpool hnext hreg (fun _ => id)
    (fun r q hq => .inl (List.mem_singleton.mp hq)) (fun _ _ _ _ => rfl) key value

/-- **`Insert` on an intact tree in single-table mode.** -/
theorem Intact.insert_single {poolSize h : Nat} {t : Tree h} (hs : Sound σ) (ht : Intact σ root t)
    (hpool : 0 < poolSize) (hnext : ∀ p, next ≤ p → σ p = none)
    (hreg : σ metadataPageId = some (.metadata root)) (key : Int64) (value : Bytes) :
    (∃ e, OnStore.insert poolSize (registerMetadata metadataPageId) σ next root key value
          = .fail next e ∧
        ((e = .exhaustedInsert ∧ poolSize ≤ h) ∨
          (e = .undefinedBehaviour ∧ ∃ l ∈ t.leaves, leafCapacity ≤ l.cells.length))) ∨
      ∃ (h' : Nat) (t' : Tree h'), Inserted σ next root metadataPageId poolSize t key value
        (OnStore.insert poolSize (registerMetadata metadataPageId) σ next root key value) t' :=
  ht.insert_registered _ _ hs hpool hnext hreg id (fun root' _ _ _ => ⟨.metadata root', rfl⟩) key value

/-- The log of `Delete`. -/
theorem delete_single {d : Nat} (hs : Sound σ) (hroot : HasLevel σ d root)
    (hnext : ∀ p, next ≤ p → σ p = none) (hreg : σ metadataPageId = some (.metadata root))
    (key : Int64) :
    SingleLog σ next metadataPageId root (OnStore.delete σ next root key) root := by
  refine RootSplit.single hs ?_ hreg
  have hbound : d < next + 1 := Nat.lt_succ_of_lt (hroot.lt_of_bounded fun q hq => by
    obtain ⟨b, hb⟩ := Option.isSome_iff_exists.mp hq
    exact lt_of_some hnext hb)
  obtain ⟨p, chain, cells, hfind, hleaf⟩ := OnStore.findLeafPageId_ok hroot hbound key
  simp only [OnStore.delete, hfind, hleaf]
  cases cells.findIdx? (·.key == key) with
  | none =>
    exact .refl hroot hnext
  | some i =>
    have hcommit : Commit σ (p, .leaf chain (cells.eraseIdx i)) :=
      .cells hleaf ((hs.sorted hleaf).sublist (List.eraseIdx_sublist _ i))
    refine ⟨.commit hcommit (.nil _), le_rfl, write_fresh hnext (lt_of_some hnext hleaf), ?_,
      ⟨d, (Extends.of_commit hcommit).hasLevel hroot⟩, fun _ => Iff.rfl, .inr le_rfl⟩
    intro q b hq hb hmem
    obtain rfl : q = p := by simpa using hmem
    rw [hleaf] at hq
    obtain rfl := Option.some.inj hq
    exact hb trivial

end

/-! ## The tree object -/

namespace BTree

variable {base : Files} {t : BTree}

/-- A single-table tree between calls. -/
structure Standalone (base : Files) (t : BTree) : Prop extends Ready base t where
  callback : t.onRootChanged = none
  registered : t.bufferPool.view t.metadataPageId = some (.metadata t.rootPageId)

/-- The tree after an operation of which the log is known. -/
theorem Standalone.after {α : Type} {r : Run α} {bp : BufferPool} {root' : PageId}
    (h : Standalone base t) (hs : Settled base [] t.bufferPool r bp)
    (hlog : SingleLog t.bufferPool.view t.bufferPool.next t.metadataPageId t.rootPageId r root') :
    Standalone base { t with bufferPool := bp, rootPageId := root' } where
  toPoolReady := h.toPoolReady.of_settled hs (hlog.oneCommit.sound h.sound)
  root := by
    obtain ⟨d, hd⟩ := hlog.level
    exact ⟨d, show HasLevel bp.view d root' from hs.view_eq ▸ hd⟩
  callback := h.callback
  registered := by
    show bp.view t.metadataPageId = _
    rw [hs.view_eq]
    exact hlog.registered

/-- The store version of `Insert` on this tree. -/
def insertRun (t : BTree) (key : Int64) (value : Bytes) : Run PageId :=
  OnStore.insert t.bufferPool.poolSize (registerMetadata t.metadataPageId) t.bufferPool.view
    t.bufferPool.next t.rootPageId key value

/-- The store version of `Delete` on this tree. -/
def deleteRun (t : BTree) (key : Int64) : Run Bool :=
  OnStore.delete t.bufferPool.view t.bufferPool.next t.rootPageId key

theorem Standalone.insert_log (h : Standalone base t) (key : Int64) (value : Bytes) :
    SingleLog t.bufferPool.view t.bufferPool.next t.metadataPageId t.rootPageId
      (t.insertRun key value) (rootAfter t.rootPageId (t.insertRun key value)) := by
  obtain ⟨d, hd⟩ := h.root
  exact insert_single h.sound hd h.pool_pos h.fresh h.registered key value

theorem Standalone.delete_log (h : Standalone base t) (key : Int64) :
    SingleLog t.bufferPool.view t.bufferPool.next t.metadataPageId t.rootPageId
      (t.deleteRun key) t.rootPageId := by
  obtain ⟨d, hd⟩ := h.root
  exact delete_single h.sound hd h.fresh h.registered key

/-- **`Insert` on a single-table tree.** -/
theorem Standalone.insert (h : Standalone base t) (key : Int64) {value : Bytes}
    (hvalue : value.length ≤ valueSize) : ∃ bp,
    BTree.insert key value t = t.afterInsert (t.insertRun key value) bp ∧
      Settled base [] t.bufferPool (t.insertRun key value) bp := by
  refine insert_run h.toReady key hvalue _ fun root' W bp hsplit hready _ hview => ?_
  have hmeta : bp.view t.metadataPageId = some (.metadata t.rootPageId) := by
    rw [hview, replay_of_notMem (hsplit.nodes_only h.registered id), h.registered]
  refine ⟨?_, rfl⟩
  unfold registerRoot
  rw [h.callback]
  exact writeMetadata_refines hready.good hready.pool_pos hmeta root'

end BTree

end Reldb
