import Reldb.BTree

/-!
# Reldb — recovery and the database (`recovery.h`, `recovery.cpp`, `database.h`, `database.cpp`)

Opening runs the constructors in the order of `Database`'s and `Engine`'s members: the data file,
the log (which cuts its own torn tail), recovery of the one from the other, and only then a buffer
pool.

A process can end at any point, and then only its two files are left. `Files.afterCrash` are the
files after the first writes it made, with part of one more record at the end of the log.
-/

namespace Reldb

/-! ## Recovery -/

/-- One step of the loop that keeps the latest record of each page. The source's map has no order
of its own; here a page keeps the place of its first record. -/
def supersede (latest : List RecoveredPage) (record : RecoveredPage) : List RecoveredPage :=
  match latest with
  | [] => [record]
  | r :: rest =>
    if r.pageId = record.pageId then (if r.lsn < record.lsn then record else r) :: rest
    else r :: supersede rest record

/-- The record with the highest LSN of every page in the log. -/
def latestRecords (records : List RecoveredPage) : List RecoveredPage :=
  records.foldl supersede []

/-- The loop that writes them to the data file. -/
def writeRecords (disk : DiskManager) (latest : List RecoveredPage) : DiskManager :=
  latest.foldl (fun d r => d.writePage r.pageId r.page) disk

def runRecovery (disk : DiskManager) (wal : WalManager) : DiskManager :=
  (writeRecords disk (latestRecords wal.validRecords)).refreshNextPageIdAfterRecovery

/-! ## Opening -/

/-- The buffer pool `Database` and `Engine` are built on: over the recovered data file, with the
log. -/
def openPool (poolSize : Nat) (files : Files) : BufferPool :=
  let wal := WalManager.new files.wal
  .new poolSize (runRecovery (.new files.data) wal) (some wal)

/-- `Database`: the single-table tree, and the files it started from once recovery was done. -/
structure Database where
  base : Files
  tree : BTree

/-- The constructor. When the tree's constructor throws, the pool it leaves says what the files
are. -/
def Database.new (poolSize : Nat) (files : Files) : EStateM.Result Exn BufferPool Database :=
  match BTree.new (openPool poolSize files) with
  | .ok tree bp => .ok ⟨(openPool poolSize files).files, tree⟩ bp
  | .error e bp => .error e bp

/-! ## Crashes -/

/-- The files after the first `n` writes of `io`, part of one more record having reached
the log. -/
def Files.afterCrash (base : Files) (io : List IoEvent) (n torn : Nat) : Files :=
  let f := base.replay (io.take n)
  { f with wal := { f.wal with tail := torn % walRecordSize } }

end Reldb
