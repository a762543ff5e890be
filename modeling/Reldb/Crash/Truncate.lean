import Reldb.Crash.Database

/-!
# Reldb — databases reopened on a truncated log

A fresh database runs some operations; its log is cut to `T` bytes and reopened over an empty data
file. The cut falls inside the log of one operation, and what is reopened shows the scan before that
operation or the scan after it.
-/

namespace Reldb

open WriteLog BufferPool

/-! ## Runs -/

/-- The tree after a sequence of calls. -/
def afterOps (t : BTree) (ops : List TreeOp) : BTree := ops.foldl TreeOp.after t

/-- The map after a sequence of calls that came to what they did. -/
def mapAfter (t : BTree) (m : KeyMap) : List TreeOp → KeyMap
  | [] => m
  | op :: ops => mapAfter (op.after t) (op.settle m (op.result t)) ops

/-- When no call threw, that is the map the calls describe. -/
theorem mapAfter_of_ok {t : BTree} {m : KeyMap} {ops : List TreeOp}
    (h : ∀ r ∈ runTree t ops, ∃ a, r = .ok a) :
    mapAfter t m ops = ops.foldl (fun m op => op.apply m) m := by
  induction ops generalizing t m with
  | nil => rfl
  | cons op ops ih =>
    obtain ⟨a, ha⟩ := h _ List.mem_cons_self
    rw [mapAfter, ha, List.foldl_cons]
    exact ih fun r hr => h r (List.mem_cons_of_mem _ hr)

/-- A database's tree between calls. -/
structure Running (base : Files) (t : BTree) : Prop extends t.Standalone base where
  metadata_eq : t.metadataPageId = 0
  wal_isSome : t.bufferPool.wal.isSome = true

section

variable {base : Files} {t t' : BTree} {m : KeyMap} {ops : List TreeOp}

theorem Running.call (h : Running base t) (op : TreeOp) :
    ∃ W next, Call base t (op.after t) W next ∧ Running base (op.after t) := by
  obtain ⟨W, next, hc⟩ := h.toStandalone.call op
  refine ⟨W, next, hc, hc.standalone h.toStandalone, ?_, ?_⟩
  · rw [hc.object]
    exact h.metadata_eq
  · rw [hc.settled.effect.wal_isSome]
    exact h.wal_isSome

theorem Running.after (h : Running base t) (ops : List TreeOp) : Running base (afterOps t ops) := by
  induction ops generalizing t with
  | nil => exact h
  | cons op ops ih =>
    obtain ⟨W, next, -, hrun⟩ := h.call op
    exact ih hrun

theorem Abstracts.after (h : Abstracts base t m) (ops : List TreeOp) :
    Abstracts base (afterOps t ops) (mapAfter t m ops) := by
  induction ops generalizing t m with
  | nil => exact h
  | cons op ops ih => exact ih (h.step op).abstracts

theorem mapAfter_append (ops ops' : List TreeOp) :
    mapAfter t m (ops ++ ops') = mapAfter (afterOps t ops) (mapAfter t m ops) ops' := by
  induction ops generalizing t m with
  | nil => rfl
  | cons op ops ih => exact ih

/-! ## Truncation -/

theorem WalFile.size_eq {f : WalFile} (h : f.tail = 0) :
    f.size = f.records.length * walRecordSize := by
  simp only [size, h, records, List.length_map, Nat.add_zero]

/-- Reopening a log that shows one of two scans. -/
theorem Midway.reopen {f : Files} {q : Nat} {root : PageId} {ls ls' : List Leaf}
    (h : Midway (logged f.wal.records) root ls ls') (hf : f.Restorable) (hq : 0 < q) :
    ∃ db bp, Database.new q f = .ok db bp ∧ db.tree.Standalone db.base ∧
      (db.tree.fullScan = .ok ((cellsOf ls).map LeafCell.pair) ∨
        db.tree.fullScan = .ok ((cellsOf ls').map LeafCell.pair)) := by
  obtain ⟨bp, hnew, hst, hview, -⟩ := Database.new_existing hf hq h.sound h.registered
  refine ⟨_, bp, hnew, hst, ?_⟩
  rw [← hview] at h
  exact h.scans.imp hst.fullScan_eq hst.fullScan_eq

end

end Reldb
