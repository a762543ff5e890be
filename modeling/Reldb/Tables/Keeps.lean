import Reldb.Tables.Calls
import Reldb.Tree.Keeps

/-!
# Reldb — the catalog's methods as users of the pool
-/

namespace Reldb

namespace BufferPool

variable {live : List PageGuard}

theorem Keeps.readEntry (catalogPageId : PageId) (slot : Nat) :
    Keeps live (readEntry catalogPageId slot) := by
  refine .fetchPage (.throw _) fun g bp h => ?_
  apply After.withGuard
  refine (Keeps.page g).bind (fun body => ?_) bp h
  cases body with
  | catalog body =>
    simp only
    cases body.tables[slot]? with
    | none => exact .throw _
    | some entry => exact .pure _
  | _ => exact .throw _

theorem Keeps.updateEntry (catalogPageId : PageId) (slot : Nat)
    (f : CatalogTableEntry → CatalogTableEntry) : Keeps live (updateEntry catalogPageId slot f) := by
  refine .fetchPage (.throw _) fun g bp h => ?_
  apply After.withGuard
  refine (Keeps.page g).bind (fun body => ?_) bp h
  cases body with
  | catalog body => exact .write List.mem_cons_self _
  | _ => exact .throw _

theorem Keeps.allocateTable (catalogPageId : PageId) (slot : Nat) (schema : TableSchema) :
    Keeps live (Catalog.allocateTable catalogPageId slot schema) := by
  refine .newPage (.throw _) fun r bp h _ => ?_
  have hroot := After.withGuard
    ((Keeps.write_then List.mem_cons_self (.leaf none []) (.pure r.pageId)) bp h)
  refine hroot.bind (fun _ h' => h') fun rootId bp' _ h' => ?_
  refine Keeps.fetchPage (.throw _) (fun g bp h => ?_) bp' h'
  apply After.withGuard
  refine (Keeps.page g).bind (fun body => ?_) bp h
  cases body with
  | catalog body => exact .write List.mem_cons_self _
  | _ => exact .throw _

theorem Keeps.constructCatalog : Keeps live Catalog.construct := by
  intro bp h
  have hget : (MonadState.get : Prog BufferPool BufferPool) bp = .ok bp bp := rfl
  unfold Catalog.construct
  rw [Prog.After, Prog.bind_ok hget]
  by_cases hcount : bp.diskPageCount = 0
  · rw [if_pos hcount]
    refine Keeps.newPage (.throw _) (fun g bp h _ => ?_) bp h
    apply After.withGuard
    by_cases hzero : g.pageId ≠ 0
    · rw [if_pos hzero]
      exact h
    · rw [if_neg hzero]
      exact Keeps.write_then List.mem_cons_self _ (.pure _) bp h
  · rw [if_neg hcount]
    refine Keeps.fetchPage (.throw _) (fun g bp h => ?_) bp h
    apply After.withGuard
    refine (Keeps.page g).bind (fun body => ?_) bp h
    cases body with
    | catalog body => exact .pure _
    | _ => exact .throw _

end BufferPool

open BufferPool

namespace Catalog

section

variable {α β : Type} {live : List PageGuard} {cat : Catalog} {p : Prog Catalog α}
  {f : α → Prog Catalog β}

/-- The program leaves a catalog beside the same guards. -/
def Keeps (live : List PageGuard) (p : Prog Catalog α) : Prop :=
  ∀ cat : Catalog, Cached cat.bufferPool live → p.After cat fun cat' => Cached cat'.bufferPool live

theorem Keeps.pure (a : α) : Keeps live (Pure.pure a : Prog Catalog α) := fun _ h => h

theorem Keeps.throw (e : Exn) : Keeps live (MonadExcept.throw e : Prog Catalog α) := fun _ h => h

theorem Keeps.bind (hp : Keeps live p) (hf : ∀ a, Keeps live (f a)) : Keeps live (p >>= f) :=
  fun cat h => (hp cat h).bind (fun _ h' => h') fun a cat' _ h' => hf a cat' h'

theorem Keeps.map (hp : Keeps live p) (f : α → β) : Keeps live (f <$> p) := by
  rw [← bind_pure_comp]
  exact hp.bind fun a => .pure _

theorem Keeps.get {k : Catalog → Prog Catalog α} (hk : ∀ cat, Keeps live (k cat)) :
    Keeps live (MonadState.get >>= k) := fun cat h => hk cat cat h

theorem Keeps.onPool {p : Prog BufferPool α} (hp : BufferPool.Keeps live p) :
    Keeps live (onPool p) := by
  intro cat h
  have hpool := hp cat.bufferPool h
  unfold Prog.After Catalog.onPool at *
  cases hrun : p cat.bufferPool with
  | ok a bp =>
    rw [hrun] at hpool
    exact hpool
  | error e bp =>
    rw [hrun] at hpool
    exact hpool

theorem Keeps.onTree {p : Prog BTree α} (hp : BTree.Keeps live p) (slot : Nat) :
    Keeps live (onTree slot p) := by
  intro cat h
  unfold Catalog.onTree
  cases hslot : cat.tables[slot]? with
  | none => exact .of_error (by simp only [hslot]; rfl) h
  | some handle =>
    obtain ⟨inUse, schema, tree⟩ := handle
    cases tree with
    | none => exact .of_error (by simp only [hslot]; rfl) h
    | some root =>
      have htree := hp ⟨cat.bufferPool, 0, some (writeRootPageId cat.catalogPageId slot), root⟩ ⟨h, by
        rintro callback heq root'
        obtain rfl := Option.some.inj heq
        exact .updateEntry _ _ _⟩
      unfold Prog.After at *
      simp only [hslot]
      cases hrun : p ⟨cat.bufferPool, 0, some (writeRootPageId cat.catalogPageId slot), root⟩ with
      | ok a t =>
        rw [hrun] at htree
        exact htree.cached
      | error e t =>
        rw [hrun] at htree
        exact htree.cached

theorem Keeps.createTable (name : Bytes) (columns : List ColumnDef) :
    Keeps live (createTable name columns) := by
  refine .get fun cat => ?_
  cases cat.checkCreateTable name columns with
  | error e => exact .throw _
  | ok u =>
    simp only
    cases cat.tables.findIdx? (fun handle => !handle.inUse) with
    | none => exact .throw _
    | some slot => exact (Keeps.onPool (.allocateTable _ _ _)).bind fun _ => fun _ h => h

theorem Keeps.getTable (name : Bytes) : Keeps live (getTable name) := by
  refine .get fun cat => ?_
  cases cat.handleOf (text "Catalog::GetTable") name with
  | error e => exact .throw _
  | ok found =>
    simp only
    by_cases htree : found.2.tree.isNone
    · rw [if_pos htree]
      exact (Keeps.onPool (.readEntry _ _)).bind fun entry => fun _ h => h
    · rw [if_neg htree]
      exact .pure _

theorem Keeps.insertRow (name : Bytes) (values : List Value) : Keeps live (insertRow name values) := by
  refine .get fun cat => ?_
  cases cat.handleOf (text "Catalog::InsertRow") name with
  | error e => exact .throw _
  | ok found =>
    simp only
    cases rowOf found.2.schema values with
    | error e => exact .throw _
    | ok row =>
      exact (Keeps.getTable name).bind fun slot => (Keeps.onTree (.insert _ _) slot).bind fun _ =>
        .onPool (.updateEntry _ _ _)

theorem Keeps.scanTable (name : Bytes) : Keeps live (scanTable name) := by
  refine .get fun cat => ?_
  cases cat.handleOf (text "Catalog::ScanTable") name with
  | error e => exact .throw _
  | ok found =>
    refine (Keeps.getTable name).bind fun slot => (Keeps.onTree (.rangeScan _ _) slot).bind fun pairs => ?_
    cases decodeRows found.2.schema pairs with
    | error e => exact .throw _
    | ok rows => exact .pure _

theorem Keeps.estimatedRowCount (name : Bytes) : Keeps live (estimatedRowCount name) := by
  refine .get fun cat => ?_
  cases cat.handleOf (text "Catalog::EstimatedRowCount") name with
  | error e => exact .throw _
  | ok found => exact (Keeps.onPool (.readEntry _ _)).bind fun entry => .pure _

/-- **Every call gives back the pins it took.** -/
theorem Keeps.call (op : CatalogOp) : Keeps live op.call := by
  cases op with
  | createTable name columns => exact (Keeps.createTable name columns).map _
  | insertRow name values => exact (Keeps.insertRow name values).map _
  | scanTable name => exact (Keeps.scanTable name).map _
  | estimatedRowCount name => exact (Keeps.estimatedRowCount name).map _

theorem cached_after (h : Cached cat.bufferPool live) (op : CatalogOp) :
    Cached (op.after cat).bufferPool live := by
  have hcall := Keeps.call op cat h
  rw [Prog.After] at hcall
  rw [CatalogOp.after]
  cases hrun : op.call cat with
  | ok a cat' =>
    rw [hrun] at hcall
    exact hcall
  | error e cat' =>
    rw [hrun] at hcall
    exact hcall

end

end Catalog

end Reldb
