import Reldb.Wal
import Reldb.RowCodec

/-!
# Reldb — the write-ahead log, byte for byte (`wal.h`, `wal.cpp`)

`Reldb.Wal` keeps the log as record slots. Here the log is the bytes of its file, the numbers are as
wide as the source's, and a page is its 4096 bytes: what a crash cuts off, and what stands at the end
of the file instead, is any sequence of bytes. `Reldb.Log.Reopen` is about this model;
`Reldb.Log.Refine` says that the other one is its view by slots.

A file offset is a signed 64-bit number, and a write past the last one fails.
-/

namespace Reldb

/-- `Page`: the `PAGE_SIZE` bytes of `data_`. -/
structure RawPage where
  bytes : Bytes
  length_eq : bytes.length = pageSize
  deriving DecidableEq

/-- `WALRecordHeader`. -/
structure WalRecordHeader where
  magic : UInt32
  lsn : UInt64
  pageId : UInt32
  checksum : UInt32
  deriving DecidableEq, Repr

/-- `sizeof(WALRecordHeader)`. -/
def walRecordHeaderSize : Nat := 20

namespace WalRecordHeader

/-- The packed struct in memory. -/
def bytes (h : WalRecordHeader) : Bytes :=
  le 4 h.magic.toNat ++ le 8 h.lsn.toNat ++ le 4 h.pageId.toNat ++ le 4 h.checksum.toNat

/-- `memcpy` of the packed struct out of a buffer. -/
def ofBytes (raw : Bytes) : WalRecordHeader where
  magic := .ofNat (unle (raw.take 4))
  lsn := .ofNat (unle ((raw.drop 4).take 8))
  pageId := .ofNat (unle ((raw.drop 12).take 4))
  checksum := .ofNat (unle ((raw.drop 16).take 4))

/-- `ComputeRecordChecksum`: the fields before `checksum`, then the payload, hashed piecewise. -/
def computeRecordChecksum (h : WalRecordHeader) (page : RawPage) : UInt32 :=
  let hash := fnv1a (le 4 h.magic.toNat)
  let h2 := fnv1a (le 8 h.lsn.toNat ++ le 4 h.pageId.toNat)
  let hash := hash * fnvPrime ^^^ h2
  let h3 := fnv1a page.bytes
  hash * fnvPrime ^^^ h3

end WalRecordHeader

/-- `WALManager::RecoveredPage`. -/
structure RawRecoveredPage where
  pageId : UInt32
  lsn : UInt64
  page : RawPage
  deriving DecidableEq

structure RawWalManager where
  file : Bytes
  nextOffset : Nat
  nextLsn : UInt64
  validRecords : List RawRecoveredPage

/-- `pwrite`: the bytes at `offset` overwritten, the file extended as far as needed. -/
def pwrite (file : Bytes) (offset : Nat) (raw : Bytes) : Bytes :=
  fixedWidth offset (file.take offset) ++ raw ++ file.drop (offset + raw.length)

/-- The largest file offset. -/
def maxFileOffset : Nat := 2 ^ 63 - 1

/-- `offsetof(PageHeader, lsn)`. -/
def lsnOffset : Nat := 9

/-- `page->header()->lsn = lsn`. -/
def RawPage.stamp (page : RawPage) (lsn : UInt32) : RawPage where
  bytes := page.bytes.take lsnOffset ++ le 4 lsn.toNat ++ page.bytes.drop (lsnOffset + 4)
  length_eq := by
    have h := page.length_eq
    simp only [List.length_append, List.length_take, List.length_drop, h, length_le]
    decide

namespace RawWalManager

/-- The scan of the constructor, `nextOffset` standing for its `offset`. The loop ends because the
offset grows by a record each time; `fuel` is more than the number of records the file can hold. -/
def scan (file : Bytes) : Nat → RawWalManager → RawWalManager
  | 0, w => w
  | fuel + 1, w =>
    if hfits : w.nextOffset + walRecordSize ≤ file.length then
      let raw := (file.drop w.nextOffset).take walRecordSize
      let header := WalRecordHeader.ofBytes raw
      let page : RawPage := ⟨raw.drop walRecordHeaderSize, by
        simp only [raw, List.length_drop, List.length_take, walRecordHeaderSize]
        have : walRecordSize = 20 + pageSize := rfl
        omega⟩
      if header.magic ≠ walMagic then w
      else if header.computeRecordChecksum page ≠ header.checksum then w
      else
        scan file fuel { w with
          validRecords := w.validRecords ++ [⟨header.pageId, header.lsn, page⟩]
          nextLsn := max w.nextLsn (header.lsn + 1)
          nextOffset := w.nextOffset + walRecordSize }
    else w

/-- The constructor: the file is cut after the last record the scan accepted. -/
def new (file : Bytes) : RawWalManager :=
  let w := scan file (file.length / walRecordSize + 1) ⟨file, 0, 0, []⟩
  { w with file := file.take w.nextOffset }

/-- The header `AppendRecord` builds. -/
def header (lsn : UInt64) (pageId : UInt32) (page : RawPage) : WalRecordHeader :=
  let header : WalRecordHeader := ⟨walMagic, lsn, pageId, 0⟩
  { header with checksum := header.computeRecordChecksum page }

/-- Returns the LSN, and the page as it is left in memory. A write that fails has used up the LSN. -/
def appendRecord (pageId : UInt32) (page : RawPage) : Prog RawWalManager (UInt64 × RawPage) :=
  fun w =>
    let lsn := w.nextLsn
    let page := page.stamp lsn.toUInt32
    let raw := (header lsn pageId page).bytes ++ page.bytes
    let w := { w with nextLsn := lsn + 1 }
    if w.nextOffset + walRecordSize ≤ maxFileOffset then
      .ok (lsn, page) { w with
        file := pwrite w.file w.nextOffset raw
        nextOffset := w.nextOffset + walRecordSize
        validRecords := w.validRecords ++ [⟨pageId, lsn, page⟩] }
    else .error (.runtimeError (text "WALManager: short write appending WAL record")) w

end RawWalManager

end Reldb
