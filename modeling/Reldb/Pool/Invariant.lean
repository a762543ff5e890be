import Reldb.BufferPool
import Reldb.Lib.WriteLog

/-!
# Reldb — what the buffer pool maintains

Over the frames, the page table, the two lists, the two files and the counters of a
`BufferPool` there is one abstract picture: a store of page bodies (`BufferPool.view`), the next
free page id, and the log of page bodies written so far (`BufferPool.log`). This module states
the invariant `BufferPool.Good` that ties the two together; `Reldb.Pool.Spec` says what each
operation does to the picture.

`Good base live unlogged` is relative to

* `base` — the files the pool was opened on;
* `live` — the guards currently alive;
* `unlogged` — the pinned pages whose current body has not been logged yet.
-/

namespace Reldb

open WriteLog

/-- A store of page bodies. -/
abbrev PageStore := Store PageId PageBody

/-- The write of a page body. -/
abbrev PageWrite := Write PageId PageBody

instance (f : DataFile) (pageId : PageId) : Decidable (f.Readable pageId) :=
  inferInstanceAs (Decidable (_ ∧ _))

/-- The page bodies a data file holds: those `ReadPage` accepts. -/
def DataFile.view (f : DataFile) : PageStore := fun pageId =>
  if f.Readable pageId then some (f.page pageId).body else none

/-- The page write a record stands for. -/
def RecoveredPage.write (r : RecoveredPage) : PageWrite := (r.pageId, r.page.body)

/-- The writes of a list of records, oldest first. -/
def writesOf (records : List RecoveredPage) : List PageWrite := records.map RecoveredPage.write

/-- The page bodies a log amounts to: the latest image of each page. -/
def logged (records : List RecoveredPage) : PageStore := replay WriteLog.empty (writesOf records)

namespace BufferPool

/-- The body of every page as the next guard on it would show it. -/
def view (bp : BufferPool) : PageStore := fun pageId =>
  match bp.pageTable pageId with
  | some f => some (bp.frames f).page.body
  | none => bp.disk.file.view pageId

/-- The records logged so far (none for a pool without a log). -/
def records (bp : BufferPool) : List RecoveredPage :=
  match bp.wal with
  | some w => w.validRecords
  | none => []

/-- The page bodies logged so far, oldest first. -/
def log (bp : BufferPool) : List PageWrite := writesOf bp.records

def next (bp : BufferPool) : PageId := bp.disk.nextPageId

end BufferPool

/-! ## The log manager's own invariant -/

/-- The live record list is what a fresh open of the file would find, and LSNs only grow. -/
structure WalManager.Good (w : WalManager) : Prop where
  records_eq : w.validRecords = w.file.slots.map WalRecord.recovered
  intact : ∀ r ∈ w.file.slots, r.intact = true
  lsn_lt : ∀ r ∈ w.validRecords, r.lsn < w.nextLsn
  lsn_sorted : w.validRecords.Pairwise fun r r' => r.lsn < r'.lsn
  tail_eq : w.file.tail = 0
  offset_eq : w.nextOffset = w.file.slots.length * walRecordSize

/-- **Write-ahead**, as a property of the two files: the data file reaches no further than the
logged pages, and holds no page that has no record. -/
structure Files.WriteAhead (f : Files) : Prop where
  size_le : ∀ n < f.data.size, ∃ r ∈ f.wal.slots, n ≤ r.pageId
  page_logged : ∀ pageId, f.data.page pageId ≠ Page.zero → ∃ r ∈ f.wal.slots, r.pageId = pageId

/-- Frames that differ at most in the stamps (LSN, checksum) of their page's header. -/
structure Frame.Alike (a b : Frame) : Prop where
  pageId_eq : a.pageId = b.pageId
  pinCount_eq : a.pinCount = b.pinCount
  dirty_eq : a.dirty = b.dirty
  body_eq : a.page.body = b.page.body

theorem Frame.Alike.refl (a : Frame) : a.Alike a := ⟨rfl, rfl, rfl, rfl⟩

/-! ## The pool's invariant -/

namespace BufferPool

/-- The part of the invariant about the log: the files are `base` after the recorded writes, of
checksummed pages, every prefix of which kept the log ahead of the data, and the logged bodies are the
current ones outside `unlogged`. -/
structure Journaled (base : Files) (bp : BufferPool) (unlogged : List PageId) (w : WalManager) :
    Prop where
  wal_good : w.Good
  files_eq : base.replay bp.io = bp.files
  summed : ∀ pageId page, IoEvent.writePage pageId page ∈ bp.io →
    page.checksum = computeChecksum page
  ahead : ∀ k, (base.replay (bp.io.take k)).WriteAhead
  synced : ∀ pageId, pageId ∉ unlogged → logged w.validRecords pageId = bp.view pageId

/-- Everything the invariant says except that no frame is lost. -/
structure Core (base : Files) (bp : BufferPool) (live : List PageGuard)
    (unlogged : List PageId) : Prop where
  table_lt : ∀ {pageId f}, bp.pageTable pageId = some f → f < bp.poolSize
  table_frame : ∀ {pageId f}, bp.pageTable pageId = some f → (bp.frames f).pageId = some pageId
  lru_iff : ∀ {f}, f ∈ bp.lruList ↔ ∃ pageId, bp.pageTable pageId = some f
  lru_nodup : bp.lruList.Nodup
  free_nodup : bp.freeList.Nodup
  free_lt : ∀ f ∈ bp.freeList, f < bp.poolSize
  free_notMem : ∀ f ∈ bp.freeList, f ∉ bp.lruList
  pins : ∀ f ∈ bp.lruList, (bp.frames f).pinCount = (live.map PageGuard.frame).count f
  live_table : ∀ g ∈ live, bp.pageTable g.pageId = some g.frame
  live_nodup : (live.map PageGuard.pageId).Nodup
  clean : ∀ {pageId f}, bp.pageTable pageId = some f → (bp.frames f).dirty = false →
    bp.disk.file.view pageId = some (bp.frames f).page.body
  table_next : ∀ {pageId f}, bp.pageTable pageId = some f → pageId < bp.next
  file_next : bp.disk.file.size ≤ bp.next
  unlogged_live : ∀ pageId ∈ unlogged, ∃ g ∈ live, g.pageId = pageId ∧
    (bp.frames g.frame).dirty = true
  journaled : ∀ w, bp.wal = some w → Journaled base bp unlogged w

/-- The invariant: besides `Core`, every frame is on the free list or on the LRU list. -/
structure Good (base : Files) (bp : BufferPool) (live : List PageGuard)
    (unlogged : List PageId) : Prop extends Core base bp live unlogged where
  cover : ∀ f < bp.poolSize, f ∈ bp.freeList ∨ f ∈ bp.lruList

/-- Frame `f` has been taken for a page and is on neither list; every other frame is on one. -/
structure Vacant (bp : BufferPool) (f : FrameId) : Prop where
  lt : f < bp.poolSize
  notMem_free : f ∉ bp.freeList
  notMem_lru : f ∉ bp.lruList
  cover : ∀ f' < bp.poolSize, f' ≠ f → f' ∈ bp.freeList ∨ f' ∈ bp.lruList

end BufferPool

/-! ## What an operation did -/

namespace BufferPool

/-- The log grew by records that are, up to repetitions of images already logged, the writes
`W`. -/
structure Effect (bp bp' : BufferPool) (W : List PageWrite) : Prop where
  poolSize_eq : bp'.poolSize = bp.poolSize
  wal_isSome : bp'.wal.isSome = bp.wal.isSome
  io_prefix : bp.io <+: bp'.io
  records : ∃ R, bp'.records = bp.records ++ R ∧
    (bp.wal.isSome → Stutters (logged bp.records) (writesOf R) W)

/-- Nothing was written: the picture is what it was. -/
structure Quiet (bp bp' : BufferPool) : Prop extends Effect bp bp' [] where
  view_eq : bp'.view = bp.view
  next_eq : bp'.next = bp.next

end BufferPool

/-! ## Reading the picture off the parts -/

namespace DataFile

theorem view_of_readable {f : DataFile} {pageId : PageId} (h : f.Readable pageId) :
    f.view pageId = some (f.page pageId).body := if_pos h

theorem readable_of_view {f : DataFile} {pageId : PageId} {b : PageBody}
    (h : f.view pageId = some b) : f.Readable pageId ∧ (f.page pageId).body = b := by
  unfold view at h
  split at h
  · exact ⟨‹_›, Option.some.inj h⟩
  · cases h

theorem view_eq_none_of_size_le {f : DataFile} {pageId : PageId} (h : f.size ≤ pageId) :
    f.view pageId = none :=
  if_neg fun hr => absurd hr.1 (Nat.not_lt.mpr h)

/-- Writing a page through `WritePage` updates the file's view at that page. -/
theorem view_write (f : DataFile) (pageId : PageId) (p : Page) :
    (f.write pageId (DiskManager.checksummed p)).view
      = Function.update f.view pageId (some p.body) := by
  funext q
  by_cases hq : q = pageId
  · subst hq
    rw [view_of_readable (f.readable_write_self q p), Function.update_self]
    simp [write, DiskManager.checksummed]
  · rw [Function.update_of_ne hq]
    have hpage : (f.write pageId (DiskManager.checksummed p)).page q = f.page q := by
      simp [write, Function.update_of_ne hq]
    by_cases hr : f.Readable q
    · rw [view_of_readable ((readable_write_of_ne _ hq).mpr hr), view_of_readable hr, hpage]
    · rw [view, view, if_neg hr, if_neg (mt (readable_write_of_ne _ hq).mp hr)]

end DataFile

end Reldb
