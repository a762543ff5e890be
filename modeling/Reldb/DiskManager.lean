import Reldb.Page

/-!
# Reldb — the data file (`disk_manager.h`, `disk_manager.cpp`)

The file is the sequence of its whole pages. Writing a page past the end extends the file, and
the pages skipped over are holes, which read as zero pages.
-/

namespace Reldb

/-- The data file: `size` whole pages, and nothing past them. -/
structure DataFile where
  page : PageId → Page
  size : Nat
  past_end : ∀ n, size ≤ n → page n = Page.zero

namespace DataFile

def empty : DataFile := ⟨fun _ => Page.zero, 0, fun _ _ => rfl⟩

/-- `pwrite` of one page at `pageId * PAGE_SIZE`. -/
def write (f : DataFile) (pageId : PageId) (p : Page) : DataFile where
  page := Function.update f.page pageId p
  size := max f.size (pageId + 1)
  past_end n hn := by
    have hne : n ≠ pageId := by have := le_trans (le_max_right f.size _) hn; omega
    rw [Function.update_of_ne hne]
    exact f.past_end n (le_trans (le_max_left _ _) hn)

end DataFile

structure DiskManager where
  file : DataFile
  nextPageId : Nat

namespace DiskManager

/-- The constructor: the page counter continues after the pages already in the file. -/
def new (file : DataFile) : DiskManager := ⟨file, file.size⟩

/-- Reads one page and verifies its stored checksum. -/
def readPage (d : DiskManager) (pageId : PageId) : Except Exn Page :=
  if pageId < d.file.size then
    let page := d.file.page pageId
    if page.checksum = computeChecksum page then .ok page
    else .error (.runtimeError (text "DiskManager: checksum mismatch on page " ++ decimal pageId
      ++ text " — page is corrupted or was torn during a write"))
  else .error (.runtimeError (text "DiskManager: short read on page " ++ decimal pageId
    ++ text " (got 0 bytes) — file truncated?"))

/-- The page as `WritePage` leaves it in memory and writes it: its checksum stored. -/
def checksummed (p : Page) : Page := { p with checksum := computeChecksum p }

def writePage (d : DiskManager) (pageId : PageId) (p : Page) : DiskManager :=
  { d with file := d.file.write pageId (checksummed p) }

/-- The id the next `AllocatePage` returns is `nextPageId`; the file itself does not grow. -/
def allocatePage (d : DiskManager) : PageId × DiskManager :=
  (d.nextPageId, { d with nextPageId := d.nextPageId + 1 })

def numPages (d : DiskManager) : Nat := d.nextPageId

def refreshNextPageIdAfterRecovery (d : DiskManager) : DiskManager :=
  { d with nextPageId := d.file.size }

end DiskManager

/-! ## What a read returns -/

/-- A page `ReadPage` accepts: inside the file, its checksum matching. -/
def DataFile.Readable (f : DataFile) (pageId : PageId) : Prop :=
  pageId < f.size ∧ (f.page pageId).checksum = computeChecksum (f.page pageId)

theorem DiskManager.readPage_of_readable {d : DiskManager} {pageId : PageId}
    (h : d.file.Readable pageId) : d.readPage pageId = .ok (d.file.page pageId) := by
  unfold DiskManager.readPage
  rw [if_pos h.1]
  exact if_pos h.2

theorem DataFile.not_readable_hole {f : DataFile} {pageId : PageId}
    (h : f.page pageId = Page.zero) : ¬ f.Readable pageId := by
  intro hr
  have hsum := hr.2
  rw [h] at hsum
  exact computeChecksum_zero_ne hsum.symm

/-- Outside the page written, a write changes no page's readability. -/
theorem DataFile.readable_write_of_ne {f : DataFile} {pageId q : PageId} (p : Page)
    (hne : q ≠ pageId) : (f.write pageId p).Readable q ↔ f.Readable q := by
  have hpage : (f.write pageId p).page q = f.page q := Function.update_of_ne hne _ _
  constructor
  · intro h
    refine ⟨?_, by simpa only [hpage] using h.2⟩
    by_contra hlt
    exact not_readable_hole (hpage.trans (f.past_end q (Nat.not_lt.mp hlt))) h
  · intro h
    exact ⟨lt_of_lt_of_le h.1 (le_max_left _ _), by simpa only [hpage] using h.2⟩

theorem DiskManager.checksum_checksummed (p : Page) :
    (checksummed p).checksum = computeChecksum (checksummed p) := by
  simp [checksummed]

theorem DataFile.readable_write_self (f : DataFile) (pageId : PageId) (p : Page) :
    (f.write pageId (DiskManager.checksummed p)).Readable pageId := by
  constructor
  · exact lt_of_lt_of_le (Nat.lt_succ_self pageId) (le_max_right _ _)
  · simp [DataFile.write, DiskManager.checksummed]

end Reldb
