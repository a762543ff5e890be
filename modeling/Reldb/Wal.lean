import Reldb.DiskManager

/-!
# Reldb — the write-ahead log (`wal.h`, `wal.cpp`)

A log file is a sequence of record-sized slots followed by fewer bytes than a record. A slot
keeps the header fields the opening scan checks, so a torn or foreign slot can be told from a
record. `pwrite` at `next_offset_` appends, since the constructor cuts the file to the records
it accepted.
-/

namespace Reldb

def walMagic : UInt32 := 0x57414C31

/-- `sizeof(WALRecordHeader) + PAGE_SIZE`. -/
def walRecordSize : Nat := 20 + pageSize

/-- One record-sized slot of the log: the header and the page image after it. -/
structure WalRecord where
  magic : UInt32
  lsn : Nat
  pageId : PageId
  checksum : UInt32
  page : Page
  deriving DecidableEq, Repr

/-- What `WALManager` keeps of a record it accepted. -/
structure RecoveredPage where
  pageId : PageId
  lsn : Nat
  page : Page
  deriving DecidableEq, Repr

/-- `ComputeRecordChecksum`: the header fields before `checksum`, then the payload, hashed
piecewise. -/
def computeRecordChecksum (magic : UInt32) (lsn : Nat) (pageId : PageId) (page : Page) : UInt32 :=
  let hash := fnv1a (le 4 magic.toNat)
  let h2 := fnv1a (le 8 lsn ++ le 4 pageId)
  let hash := hash * fnvPrime ^^^ h2
  let h3 := fnv1a page.bytes
  hash * fnvPrime ^^^ h3

namespace WalRecord

/-- The two checks of the opening scan. -/
def intact (r : WalRecord) : Bool :=
  r.magic == walMagic && computeRecordChecksum r.magic r.lsn r.pageId r.page == r.checksum

def recovered (r : WalRecord) : RecoveredPage := ⟨r.pageId, r.lsn, r.page⟩

/-- The record `AppendRecord` writes for a page image. -/
def of (lsn : Nat) (pageId : PageId) (page : Page) : WalRecord :=
  ⟨walMagic, lsn, pageId, computeRecordChecksum walMagic lsn pageId page, page⟩

@[simp] theorem intact_of (lsn : Nat) (pageId : PageId) (page : Page) :
    (of lsn pageId page).intact = true := by
  simp [intact, of]

end WalRecord

/-- The log file: whole record slots, then `tail` more bytes, fewer than a record. -/
structure WalFile where
  slots : List WalRecord
  tail : Nat

namespace WalFile

def empty : WalFile := ⟨[], 0⟩

/-- The file's length in bytes. -/
def size (f : WalFile) : Nat := f.slots.length * walRecordSize + f.tail

end WalFile

structure WalManager where
  file : WalFile
  nextOffset : Nat
  nextLsn : Nat
  validRecords : List RecoveredPage

namespace WalManager

/-- The constructor: scan whole slots from the start while they are intact, then cut the file
after the last one accepted. -/
def new (file : WalFile) : WalManager :=
  let valid := file.slots.takeWhile WalRecord.intact
  { file := ⟨valid, 0⟩
    nextOffset := valid.length * walRecordSize
    nextLsn := valid.foldl (fun next r => max next (r.lsn + 1)) 0
    validRecords := valid.map WalRecord.recovered }

/-- The page as `AppendRecord` leaves it in memory and logs it: the record's LSN stamped into
its 32-bit header field. -/
def stamped (w : WalManager) (page : Page) : Page := { page with lsn := w.nextLsn % 2 ^ 32 }

/-- The record the next `AppendRecord` writes. -/
def nextRecord (w : WalManager) (pageId : PageId) (page : Page) : WalRecord :=
  WalRecord.of w.nextLsn pageId (w.stamped page)

def appendRecord (w : WalManager) (pageId : PageId) (page : Page) : WalManager :=
  { file := { w.file with slots := w.file.slots ++ [w.nextRecord pageId page] }
    nextOffset := w.nextOffset + walRecordSize
    nextLsn := w.nextLsn + 1
    validRecords := w.validRecords ++ [(w.nextRecord pageId page).recovered] }

end WalManager

/-! ## Both files, and the writes made to them

A process changes its two files only by whole-page writes and record appends. `IoEvent` lists
them in order, so that the files a crash leaves behind are those after some prefix. -/

structure Files where
  data : DataFile
  wal : WalFile

inductive IoEvent where
  | writePage (pageId : PageId) (page : Page)
  | appendRecord (record : WalRecord)

namespace Files

def empty : Files := ⟨DataFile.empty, WalFile.empty⟩

def apply (f : Files) : IoEvent → Files
  | .writePage pageId page => { f with data := f.data.write pageId page }
  | .appendRecord r => { f with wal := { f.wal with slots := f.wal.slots ++ [r] } }

/-- The files after a sequence of writes. -/
def replay (f : Files) (io : List IoEvent) : Files := io.foldl apply f

end Files

end Reldb
