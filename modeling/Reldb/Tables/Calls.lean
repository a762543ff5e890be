import Reldb.Tables.Construct
import Reldb.Tree.Map

/-!
# Reldb — one call of a catalog's methods

`CatalogOp.moved` says once what a call can do to a catalog whose tables have intact trees: nothing but
build a tree object and move pages through the pool, or create a table, or put a row in a table's tree.
Every invariant of a catalog is derived from that.
-/

namespace Reldb

open WriteLog BufferPool

inductive CatalogOp where
  | createTable (name : Bytes) (columns : List ColumnDef)
  | insertRow (name : Bytes) (values : List Value)
  | scanTable (name : Bytes)
  | estimatedRowCount (name : Bytes)
  deriving DecidableEq, Repr

inductive CatalogAnswer where
  | done
  | rows (rows : List (List Value))
  | count (n : Nat)
  deriving DecidableEq, Repr

namespace CatalogOp

/-- One method call. -/
def call : CatalogOp → Prog Catalog CatalogAnswer
  | .createTable name columns => (fun _ => .done) <$> Catalog.createTable name columns
  | .insertRow name values => (fun _ => .done) <$> Catalog.insertRow name values
  | .scanTable name => .rows <$> Catalog.scanTable name
  | .estimatedRowCount name => .count <$> Catalog.estimatedRowCount name

/-- What a call returned or threw. -/
def result (cat : Catalog) (op : CatalogOp) : Except Exn CatalogAnswer :=
  (outcomeOf (op.call cat)).1

/-- The catalog a call left. -/
def after (cat : Catalog) (op : CatalogOp) : Catalog := (outcomeOf (op.call cat)).2

/-- The table a call is on. -/
def table : CatalogOp → Bytes
  | .createTable name _ => name
  | .insertRow name _ => name
  | .scanTable name => name
  | .estimatedRowCount name => name

end CatalogOp

theorem outcomeOf_map {σ α β : Type} (f : α → β) (p : Prog σ α) (s : σ) :
    outcomeOf ((f <$> p) s) = ((outcomeOf (p s)).1.map f, (outcomeOf (p s)).2) := by
  simp only [Functor.map, EStateM.map]
  cases p s <;> rfl

/-- A run that wrote nothing. -/
theorem Settled.quiet {α : Type} {base : Files} {bp bp' : BufferPool} {r : Run α} (h : Settled base [] bp r bp')
    (hwrites : r.writes = []) (hnext : r.next = bp.next) : Quiet bp bp' where
  toEffect := hwrites ▸ h.effect
  view_eq := by rw [h.view_eq, Run.store, hwrites]; rfl
  next_eq := h.next_eq.trans hnext

namespace Catalog

section

variable {base : Files} {cat cat' : Catalog} {body : CatalogBody} {trees : Nat → AnyTree}
  {slot : Nat} {handle : TableHandle} {entry : CatalogTableEntry} {name : Bytes}
  {values : List Value} {key : Int64} {blob : Bytes}

/-- The pairs stored in the tree at `slot`, in key order. -/
def pairsOf (trees : Nat → AnyTree) (slot : Nat) : List (Int64 × Bytes) :=
  (trees slot).2.cells.map LeafCell.pair

/-- What a call that changed no table returned or threw. -/
def KeptResult (cat : Catalog) (body : CatalogBody) (trees : Nat → AnyTree) :
    CatalogOp → Except Exn CatalogAnswer → Prop
  | .createTable _ _, res => ∃ what, res = .error (.catalogError what)
  | .insertRow name values, res => ∃ e, res = .error e ∧ (Rejects e ∨
      ∃ slot handle entry key blob, Stores cat body name values slot handle entry key blob ∧
        ((e = .exhaustedInsert ∧ cat.bufferPool.poolSize ≤ (trees slot).1) ∨
          (e = .undefinedBehaviour ∧ ∃ l ∈ (trees slot).2.leaves, leafCapacity ≤ l.cells.length)))
  | .scanTable name, res =>
      (∃ e, cat.handleOf (text "Catalog::ScanTable") name = .error e ∧ res = .error e) ∨
        ∃ slot handle, cat.Finds name slot handle ∧
          res = (decodeRows handle.schema (pairsOf trees slot)).map .rows
  | .estimatedRowCount name, res =>
      (∃ e, cat.handleOf (text "Catalog::EstimatedRowCount") name = .error e ∧ res = .error e) ∨
        ∃ slot handle entry, cat.Finds name slot handle ∧ body.tables[slot]? = some entry ∧
          res = .ok (.count entry.rowCount)

/-- What a call returned or threw, and what it made of the catalog, its page and its tables' trees. -/
inductive Moved (base : Files) (cat : Catalog) (body : CatalogBody) (trees : Nat → AnyTree) :
    CatalogOp → Except Exn CatalogAnswer → Catalog → CatalogBody → (Nat → AnyTree) → Prop where
  | kept {op : CatalogOp} {res : Except Exn CatalogAnswer} {cat' : Catalog}
      (touched : Touched base body cat cat') (result : KeptResult cat body trees op res) :
      Moved base cat body trees op res cat' body trees
  | created {name : Bytes} {cols : List ColumnDef} {slot : Nat} {bp : BufferPool}
      (created : Created base cat body ⟨name, cols⟩ slot bp) :
      Moved base cat body trees (.createTable name cols) (.ok .done)
        (cat.withTable slot ⟨name, cols⟩ bp) (body.addTable slot ⟨name, cols⟩ cat.bufferPool.next)
        (Function.update trees slot ⟨0, .leaf ⟨cat.bufferPool.next, []⟩⟩)
  | inserted {name : Bytes} {values : List Value} {slot : Nat} {handle : TableHandle}
      {entry : CatalogTableEntry} {key : Int64} {blob : Bytes} {tree' : AnyTree} {bp : BufferPool}
      (stores : Stores cat body name values slot handle entry key blob)
      (grew : Grew cat slot entry key blob (trees slot) tree')
      (settled : Settled base [] cat.bufferPool
        (cat.insertRowRun slot entry.rootPageId key blob) bp)
      (forest : Forest ((cat.insertRowRun slot entry.rootPageId key blob).store cat.bufferPool.view)
        (bodyAfter body slot (cat.insertRun slot entry.rootPageId key blob)).tables
        (Function.update trees slot tree')) :
      Moved base cat body trees (.insertRow name values)
        ((cat.insertRun slot entry.rootPageId key blob).result.map fun _ => .done)
        (cat.afterInsert slot handle
          (rootAfter entry.rootPageId (cat.insertRun slot entry.rootPageId key blob)) bp)
        (bodyAfter body slot (cat.insertRun slot entry.rootPageId key blob))
        (Function.update trees slot tree')

/-- An insertion that failed before it wrote. -/
theorem Stores.kept (h : Ready base cat body)
    (hst : Stores cat body name values slot handle entry key blob) {e : Exn}
    (hfail : cat.insertRun slot entry.rootPageId key blob = .fail cat.bufferPool.next e) :
    ∃ cat', outcomeOf (Catalog.insertRow name values cat) = (.error e, cat') ∧
      Touched base body cat cat' := by
  obtain ⟨bp, hrun, hs⟩ := hst.insertRow h
  obtain ⟨d, hd⟩ := hst.root h
  have heq : cat.insertRowRun slot entry.rootPageId key blob = .fail cat.bufferPool.next e := by
    have := insertRow_eq h.sound hd h.pool_pos h.fresh h.page hst.entry_eq
      (show OnStore.insert _ _ _ _ _ key blob = cat.insertRun slot entry.rootPageId key blob from rfl)
    rw [hfail] at this
    exact this
  rw [heq, hfail] at hrun
  rw [heq] at hs
  exact ⟨_, by rw [hrun]; rfl, h.touch hst.finds.get hst.entry_eq hs.good (hs.quiet rfl rfl)⟩

theorem Stores.moved (h : Ready base cat body) (hf : Forest cat.bufferPool.view body.tables trees)
    (hst : Stores cat body name values slot handle entry key blob) :
    (∃ e cat', outcomeOf (Catalog.insertRow name values cat) = (.error e, cat') ∧
        Touched base body cat cat' ∧
        ((e = .exhaustedInsert ∧ cat.bufferPool.poolSize ≤ (trees slot).1) ∨
          (e = .undefinedBehaviour ∧ ∃ l ∈ (trees slot).2.leaves, leafCapacity ≤ l.cells.length))) ∨
      ∃ tree' bp, Grew cat slot entry key blob (trees slot) tree' ∧
        Settled base [] cat.bufferPool (cat.insertRowRun slot entry.rootPageId key blob) bp ∧
        Forest ((cat.insertRowRun slot entry.rootPageId key blob).store cat.bufferPool.view)
          (bodyAfter body slot (cat.insertRun slot entry.rootPageId key blob)).tables
          (Function.update trees slot tree') ∧
        outcomeOf (Catalog.insertRow name values cat)
          = ((cat.insertRun slot entry.rootPageId key blob).result.map fun _ => (),
            cat.afterInsert slot handle
              (rootAfter entry.rootPageId (cat.insertRun slot entry.rootPageId key blob)) bp) := by
  rcases hst.forest h hf with ⟨e, hfail, he⟩ | ⟨tree', hgrew, hforest⟩
  · obtain ⟨cat', hrun, htouch⟩ := hst.kept h hfail
    exact .inl ⟨e, cat', hrun, htouch, he⟩
  · obtain ⟨bp, hrun, hs⟩ := hst.insertRow h
    obtain ⟨d, hd⟩ := hst.root h
    have heq : cat.insertRowRun slot entry.rootPageId key blob = _ :=
      insertRow_eq h.sound hd h.pool_pos h.fresh h.page hst.entry_eq
        (show OnStore.insert _ _ _ _ _ key blob = cat.insertRun slot entry.rootPageId key blob
          from rfl)
    refine .inr ⟨tree', bp, hgrew, hs, hforest, ?_⟩
    rw [hrun, heq]
    cases (cat.insertRun slot entry.rootPageId key blob).result <;> rfl


/-! ## The four calls -/

theorem Ready.createTable_moved (h : Ready base cat body) (name : Bytes) (cols : List ColumnDef) :
    ∃ body' trees', Moved base cat body trees (.createTable name cols)
      (CatalogOp.result cat (.createTable name cols)) (CatalogOp.after cat (.createTable name cols))
      body' trees' := by
  rw [CatalogOp.result, CatalogOp.after, CatalogOp.call, outcomeOf_map]
  rcases h.createTable name cols with ⟨what, hrun⟩ | ⟨slot, bp, hrun, hc⟩
  · rw [hrun]
    exact ⟨_, _, .kept (.refl h) ⟨what, rfl⟩⟩
  · rw [hrun]
    exact ⟨_, _, .created hc⟩

theorem Ready.insertRow_moved (h : Ready base cat body)
    (hf : Forest cat.bufferPool.view body.tables trees) (name : Bytes) (values : List Value) :
    ∃ body' trees', Moved base cat body trees (.insertRow name values)
      (CatalogOp.result cat (.insertRow name values)) (CatalogOp.after cat (.insertRow name values))
      body' trees' := by
  rw [CatalogOp.result, CatalogOp.after, CatalogOp.call, outcomeOf_map]
  rcases h.insertRow name values with ⟨e, hrun, he⟩ | ⟨slot, handle, entry, key, blob, hst⟩
  · rw [hrun]
    exact ⟨_, _, .kept (.refl h) ⟨e, rfl, .inl he⟩⟩
  · rcases hst.moved h hf with ⟨e, cat', hrun, htouch, he⟩ | ⟨tree', bp, hgrew, hs, hforest, hrun⟩
    · rw [hrun]
      exact ⟨_, _, .kept htouch ⟨e, rfl, .inr ⟨slot, handle, entry, key, blob, hst, he⟩⟩⟩
    · rw [hrun]
      have hmoved := Moved.inserted hst hgrew hs hforest
      cases hres : (cat.insertRun slot entry.rootPageId key blob).result with
      | ok root =>
        rw [hres] at hmoved
        exact ⟨_, _, hmoved⟩
      | error e =>
        rw [hres] at hmoved
        exact ⟨_, _, hmoved⟩

theorem Ready.scanTable_moved (h : Ready base cat body)
    (hf : Forest cat.bufferPool.view body.tables trees) (name : Bytes) :
    Moved base cat body trees (.scanTable name) (CatalogOp.result cat (.scanTable name))
      (CatalogOp.after cat (.scanTable name)) body trees := by
  rw [CatalogOp.result, CatalogOp.after, CatalogOp.call, outcomeOf_map]
  rcases cat.handleOf_cases (text "Catalog::ScanTable") name with
    ⟨-, what, herr⟩ | ⟨slot, handle, hfind, -⟩
  · have hrun : Catalog.scanTable name cat = .error (.catalogError what) cat := by
      have hget : (MonadState.get : Prog Catalog Catalog) cat = .ok cat cat := rfl
      unfold Catalog.scanTable
      rw [Prog.bind_ok hget]
      simp only [herr]
      rfl
    rw [hrun]
    exact .kept (.refl h) (.inl ⟨_, herr, rfl⟩)
  · obtain ⟨entry, hentry, hm⟩ := h.exists_entry hfind.get
    have hintact := hf.intact hentry (hm.inUse_eq ▸ hfind.inUse)
    obtain ⟨cat', hrun, htouch⟩ := h.scanTable hfind hentry hintact.scans
    rw [hrun]
    exact .kept htouch (.inr ⟨slot, handle, hfind, rfl⟩)

theorem Ready.estimatedRowCount_moved (h : Ready base cat body) (name : Bytes) :
    Moved base cat body trees (.estimatedRowCount name)
      (CatalogOp.result cat (.estimatedRowCount name))
      (CatalogOp.after cat (.estimatedRowCount name)) body trees := by
  rw [CatalogOp.result, CatalogOp.after, CatalogOp.call, outcomeOf_map]
  rcases cat.handleOf_cases (text "Catalog::EstimatedRowCount") name with
    ⟨-, what, herr⟩ | ⟨slot, handle, hfind, -⟩
  · have hrun : Catalog.estimatedRowCount name cat = .error (.catalogError what) cat := by
      have hget : (MonadState.get : Prog Catalog Catalog) cat = .ok cat cat := rfl
      unfold Catalog.estimatedRowCount
      rw [Prog.bind_ok hget]
      simp only [herr]
      rfl
    rw [hrun]
    exact .kept (.refl h) (.inl ⟨_, herr, rfl⟩)
  · obtain ⟨entry, hentry, -⟩ := h.exists_entry hfind.get
    obtain ⟨cat', hrun, htouch⟩ := h.estimatedRowCount hfind hentry
    rw [hrun]
    exact .kept htouch (.inr ⟨slot, handle, entry, hfind, hentry, rfl⟩)

/-- **What a call can do.** -/
theorem Ready.moved (h : Ready base cat body) (hf : Forest cat.bufferPool.view body.tables trees)
    (op : CatalogOp) : ∃ body' trees', Moved base cat body trees op (op.result cat) (op.after cat)
      body' trees' := by
  cases op with
  | createTable name cols => exact h.createTable_moved name cols
  | insertRow name values => exact h.insertRow_moved hf name values
  | scanTable name => exact ⟨_, _, h.scanTable_moved hf name⟩
  | estimatedRowCount name => exact ⟨_, _, h.estimatedRowCount_moved name⟩

/-! ## What every call keeps -/

section

variable {op : CatalogOp} {res : Except Exn CatalogAnswer} {body' : CatalogBody}
  {trees' : Nat → AnyTree}

theorem Moved.ready (h : Ready base cat body) (hm : Moved base cat body trees op res cat' body' trees') :
    Ready base cat' body' := by
  cases hm with
  | kept touched => exact touched.ready
  | created created => exact created.ready h
  | inserted stores _ settled _ => exact stores.ready h settled

theorem Moved.forest (h : Ready base cat body) (hf : Forest cat.bufferPool.view body.tables trees)
    (hm : Moved base cat body trees op res cat' body' trees') :
    Forest cat'.bufferPool.view body'.tables trees' := by
  cases hm with
  | kept touched =>
    rw [touched.quiet.view_eq]
    exact hf
  | created created => exact created.forest h hf
  | inserted _ _ settled forest =>
    simp only [afterInsert, settled.view_eq]
    exact forest

end

end

end Catalog

end Reldb
