import Reldb.RawWal

/-!
# Reldb — the data file, byte for byte (`disk_manager.h`, `disk_manager.cpp`, `checksum.h`)

`Reldb.DiskManager` keeps the data file as pages. Here it is the bytes of the file, so that any one of them
can be changed from outside; `Reldb.Log.Data` says that the other one is its view by pages.
-/

namespace Reldb

namespace RawPage

/-- `header()->checksum`. -/
def checksum (page : RawPage) : UInt32 := .ofNat (unle ((page.bytes.drop checksumOffset).take 4))

/-- `ComputeChecksum`: FNV-1a over the page's bytes, skipping the four of the checksum field. -/
def computeChecksum (page : RawPage) : UInt32 :=
  fnv1a (page.bytes.take checksumOffset ++ page.bytes.drop (checksumOffset + 4))

/-- `header()->checksum = sum`. -/
def setChecksum (page : RawPage) (sum : UInt32) : RawPage where
  bytes := page.bytes.take checksumOffset ++ le 4 sum.toNat ++ page.bytes.drop (checksumOffset + 4)
  length_eq := by
    have h := page.length_eq
    simp only [List.length_append, List.length_take, List.length_drop, h, length_le]
    decide

end RawPage

/-- The file behind `fd_`. -/
structure RawDiskManager where
  file : Bytes

namespace RawDiskManager

/-- `static_cast<off_t>(page_id) * PAGE_SIZE`. -/
def offset (pageId : UInt32) : Nat := pageId.toNat * pageSize

/-- Reads one page and verifies its stored checksum. -/
def readPage (d : RawDiskManager) (pageId : UInt32) : Except Exn RawPage :=
  let raw := (d.file.drop (offset pageId)).take pageSize
  if hread : raw.length = pageSize then
    let page : RawPage := ⟨raw, hread⟩
    if page.checksum = page.computeChecksum then .ok page
    else .error (.runtimeError (text "DiskManager: checksum mismatch on page "
      ++ decimal pageId.toNat ++ text " — page is corrupted or was torn during a write"))
  else .error (.runtimeError (text "DiskManager: short read on page " ++ decimal pageId.toNat
    ++ text " (got " ++ decimal raw.length ++ text " bytes) — file truncated?"))

/-- The page as `WritePage` leaves it in memory and writes it: its checksum stored. -/
def checksummed (page : RawPage) : RawPage := page.setChecksum page.computeChecksum

def writePage (d : RawDiskManager) (pageId : UInt32) (page : RawPage) : RawDiskManager :=
  ⟨pwrite d.file (offset pageId) (checksummed page).bytes⟩

/-- The file after a sequence of page writes. -/
def writeAll (d : RawDiskManager) (writes : List (UInt32 × RawPage)) : RawDiskManager :=
  writes.foldl (fun d w => d.writePage w.1 w.2) d

end RawDiskManager

end Reldb
