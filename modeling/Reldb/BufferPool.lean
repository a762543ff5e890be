import Reldb.Wal

/-!
# Reldb — the buffer pool (`buffer_pool.h`, `buffer_pool.cpp`)

A pool of `poolSize` frames over one `DiskManager` and, when given one, a `WALManager`. The
frame array and the page table are functions; the free list and the LRU list keep the source's
order (the free list's back is its head here). `io` is not a field of the class: it records the
file writes made through the pool, so that the files surviving a crash can be named.

A `PageGuard` is the pair of page id and frame it holds; an invalid guard is `none`. A guard's
lifetime is a scope (`PageGuard.withGuard`): the release at its end runs whether the scope
returned or threw.
-/

namespace Reldb

abbrev FrameId := Nat

structure Frame where
  page : Page
  pageId : Option PageId
  pinCount : Nat
  dirty : Bool

def Frame.empty : Frame := ⟨Page.zero, none, 0, false⟩

structure BufferPool where
  poolSize : Nat
  frames : FrameId → Frame
  pageTable : PageId → Option FrameId
  freeList : List FrameId
  lruList : List FrameId
  disk : DiskManager
  wal : Option WalManager
  io : List IoEvent

structure PageGuard where
  pageId : PageId
  frame : FrameId
  deriving DecidableEq, Repr

namespace BufferPool

def new (poolSize : Nat) (disk : DiskManager) (wal : Option WalManager) : BufferPool :=
  { poolSize, disk, wal
    frames := fun _ => Frame.empty
    pageTable := fun _ => none
    freeList := (List.range poolSize).reverse
    lruList := []
    io := [] }

/-- The two files as they stand. -/
def files (bp : BufferPool) : Files :=
  ⟨bp.disk.file, match bp.wal with | some w => w.file | none => WalFile.empty⟩

def setFrame (bp : BufferPool) (f : FrameId) (frame : Frame) : BufferPool :=
  { bp with frames := Function.update bp.frames f frame }

/-- Move to the front of the LRU list (most recent). -/
def touchLRU (bp : BufferPool) (f : FrameId) : BufferPool :=
  { bp with lruList := f :: bp.lruList.erase f }

def removeFromLRU (bp : BufferPool) (f : FrameId) : BufferPool :=
  { bp with lruList := bp.lruList.erase f }

/-- `disk_manager_->WritePage` on a frame's page: the checksum is stored in the frame too. -/
def writeFrame (bp : BufferPool) (pageId : PageId) (f : FrameId) : BufferPool :=
  let page := (bp.frames f).page
  { bp.setFrame f { bp.frames f with page := DiskManager.checksummed page } with
    disk := bp.disk.writePage pageId page
    io := bp.io ++ [.writePage pageId (DiskManager.checksummed page)] }

/-- Evict the page held by an unpinned frame: off the LRU list, written back when dirty, out of
the page table. -/
def evict (bp : BufferPool) (f : FrameId) : BufferPool :=
  let bp := bp.removeFromLRU f
  match (bp.frames f).pageId with
  | none => bp
  | some pageId =>
    let bp := if (bp.frames f).dirty then bp.writeFrame pageId f else bp
    { bp with pageTable := Function.update bp.pageTable pageId none }

/-- The last unpinned frame of the LRU list (least recently used first). -/
def lruVictim (bp : BufferPool) : Option FrameId :=
  bp.lruList.reverse.find? fun f => (bp.frames f).pinCount == 0

/-- A frame to use for a page: the free list first, else the least recently used unpinned frame,
evicted; `none` if every frame is pinned. -/
def findVictimFrame (bp : BufferPool) : Option FrameId × BufferPool :=
  match bp.freeList with
  | f :: rest => (some f, { bp with freeList := rest })
  | [] =>
    match bp.lruVictim with
    | some f => (some f, bp.evict f)
    | none => (none, bp)

/-- Install a page in a frame and enter it in the page table. -/
def install (bp : BufferPool) (pageId : PageId) (f : FrameId) (frame : Frame) : BufferPool :=
  ({ bp.setFrame f frame with
     pageTable := Function.update bp.pageTable pageId (some f) } : BufferPool).touchLRU f

/-- Loads a page, or finds it cached, and pins it. The frame taken for a page whose read throws
stays out of the free list and the LRU list, as in the source. -/
def fetchPage (pageId : PageId) : Prog BufferPool (Option PageGuard) := fun bp =>
  match bp.pageTable pageId with
  | some f =>
    let frame := bp.frames f
    .ok (some ⟨pageId, f⟩)
      ((bp.setFrame f { frame with pinCount := frame.pinCount + 1 }).touchLRU f)
  | none =>
    match bp.findVictimFrame with
    | (none, bp) => .ok none bp
    | (some f, bp) =>
      match bp.disk.readPage pageId with
      | .error e => .error e bp
      | .ok page =>
        .ok (some ⟨pageId, f⟩)
          (bp.install pageId f { page, pageId := some pageId, pinCount := 1, dirty := false })

/-- Allocates a page id and pins a zeroed page for it, marked dirty from the start. -/
def newPage : Prog BufferPool (Option PageGuard) := fun bp =>
  match bp.findVictimFrame with
  | (none, bp) => .ok none bp
  | (some f, bp) =>
    let (newId, disk) := bp.disk.allocatePage
    .ok (some ⟨newId, f⟩)
      ({ bp with disk }.install newId f
        { page := { Page.zero with pageId := newId }
          pageId := some newId, pinCount := 1, dirty := true })

/-- Append the frame's page to the log, when the pool has one. -/
def logFrame (bp : BufferPool) (pageId : PageId) (f : FrameId) : BufferPool :=
  match bp.wal with
  | none => bp
  | some w =>
    let page := (bp.frames f).page
    { bp.setFrame f { bp.frames f with page := w.stamped page } with
      wal := some (w.appendRecord pageId page)
      io := bp.io ++ [.appendRecord (w.nextRecord pageId page)] }

def unpinPage (bp : BufferPool) (pageId : PageId) (isDirty : Bool) : BufferPool :=
  match bp.pageTable pageId with
  | none => bp
  | some f =>
    let bp :=
      if isDirty then
        (bp.setFrame f { bp.frames f with dirty := true }).logFrame pageId f
      else bp
    bp.setFrame f { bp.frames f with pinCount := (bp.frames f).pinCount - 1 }

/-- Write a cached page to the file now; its frame is clean after that. -/
def flushFrame (bp : BufferPool) (pageId : PageId) (f : FrameId) : BufferPool :=
  let bp := bp.writeFrame pageId f
  bp.setFrame f { bp.frames f with dirty := false }

/-- `FlushPage`: whether the page is cached; if so it is written, dirty or not. -/
def flushPage (pageId : PageId) : Prog BufferPool Bool := fun bp =>
  match bp.pageTable pageId with
  | none => .ok false bp
  | some f => .ok true (bp.flushFrame pageId f)

/-- One step of the loop of `FlushAll`, at the page table's entry for frame `f` if it has one. -/
def flushEntry (bp : BufferPool) (f : FrameId) : BufferPool :=
  match (bp.frames f).pageId with
  | none => bp
  | some pageId =>
    if bp.pageTable pageId = some f ∧ (bp.frames f).dirty then bp.flushFrame pageId f else bp

/-- `FlushAll`: every dirty cached page is written. The order in which the source's hash map lists
its entries is not specified; here it is that of their frames. -/
def flushAll : Prog BufferPool Unit := fun bp =>
  .ok () ((List.range bp.poolSize).foldl flushEntry bp)

def diskPageCount (bp : BufferPool) : Nat := bp.disk.numPages

end BufferPool

/-! ## Page guards -/

namespace PageGuard

/-- The body of the page the guard pins. -/
def page (g : PageGuard) : Prog BufferPool PageBody := fun bp =>
  .ok (bp.frames g.frame).page.body bp

/-- Overwrite the body of the page the guard pins. -/
def write (g : PageGuard) (body : PageBody) : Prog BufferPool Unit := fun bp =>
  let frame := bp.frames g.frame
  .ok () (bp.setFrame g.frame { frame with page := { frame.page with body } })

def markDirty (g : PageGuard) : Prog BufferPool Unit := fun bp =>
  .ok () (bp.setFrame g.frame { bp.frames g.frame with dirty := true })

/-- `Release`: unpin, passing on the frame's dirty flag. -/
def release (g : PageGuard) (bp : BufferPool) : BufferPool :=
  bp.unpinPage g.pageId (bp.frames g.frame).dirty

/-- Run `body` while the guard is alive; its destructor releases it on the way out, also when
`body` throws. -/
def withGuard {α : Type} (g : PageGuard) (body : Prog BufferPool α) : Prog BufferPool α := fun bp =>
  match body bp with
  | .ok a bp => .ok a (g.release bp)
  | .error e bp => .error e (g.release bp)

end PageGuard

end Reldb
