import Reldb.Pool.Spec

/-!
# Reldb — the buffer pool as a cache, under any set of guards

`Reldb.Pool.Spec` follows the pool through the tree and catalog methods, which hold at most one
guard on a page. A client of the pool is not bound to that: it may hold several guards on one page,
and drop them in any order. This module states what the pool maintains for *every* client
(`BufferPool.Cached`), and what each operation does to the bytes of the pages
(`BufferPool.current`), stamps included.
-/

namespace Reldb

/-- The page without what the pool stamps into its header on the way to the log and the file. -/
def Page.unstamped (p : Page) : Page := { p with lsn := 0, checksum := 0 }

/-- The page without its checksum field. -/
def Page.unsummed (p : Page) : Page := { p with checksum := 0 }

@[simp] theorem Page.unsummed_checksummed (p : Page) :
    (DiskManager.checksummed p).unsummed = p.unsummed := rfl

@[simp] theorem Page.unstamped_unsummed (p : Page) : p.unsummed.unstamped = p.unstamped := rfl

@[simp] theorem Page.unstamped_stamped (w : WalManager) (p : Page) :
    (w.stamped p).unstamped = p.unstamped := rfl

/-- Pages that agree up to the checksum agree up to the stamps. -/
theorem Page.unstamped_congr {p q : Page} (h : p.unsummed = q.unsummed) :
    p.unstamped = q.unstamped := by
  rw [← p.unstamped_unsummed, h, q.unstamped_unsummed]

/-- The page `ReadPage` returns, if it returns. -/
def DataFile.read (f : DataFile) (pageId : PageId) : Option Page :=
  if f.Readable pageId then some (f.page pageId) else none

theorem DataFile.read_of_readable {f : DataFile} {pageId : PageId} (h : f.Readable pageId) :
    f.read pageId = some (f.page pageId) := if_pos h

theorem DiskManager.readPage_iff {d : DiskManager} {pageId : PageId} {page : Page} :
    d.readPage pageId = .ok page ↔ d.file.read pageId = some page := by
  by_cases h : d.file.Readable pageId
  · rw [readPage_of_readable h, DataFile.read_of_readable h, Except.ok.injEq, Option.some.injEq]
  · rw [DataFile.read, if_neg h]
    constructor
    · intro hok
      simp only [DiskManager.readPage] at hok
      split at hok
      · rename_i hlt
        split at hok
        · exact absurd ⟨hlt, ‹_›⟩ h
        · cases hok
      · cases hok
    · intro hno; cases hno

/-- A page write is read back, and changes what no other page reads as. -/
theorem DataFile.read_write (f : DataFile) (pageId : PageId) (p : Page) :
    (f.write pageId (DiskManager.checksummed p)).read
      = Function.update f.read pageId (some (DiskManager.checksummed p)) := by
  funext q
  by_cases hq : q = pageId
  · subst hq
    rw [read_of_readable (f.readable_write_self q p), Function.update_self]
    exact congrArg some (Function.update_self _ _ _)
  · have hpage : (f.write pageId (DiskManager.checksummed p)).page q = f.page q :=
      Function.update_of_ne hq _ _
    rw [Function.update_of_ne hq]
    by_cases hr : f.Readable q
    · rw [read_of_readable ((readable_write_of_ne _ hq).mpr hr), read_of_readable hr, hpage]
    · rw [read, read, if_neg hr, if_neg (mt (readable_write_of_ne _ hq).mp hr)]

theorem DataFile.read_eq_none_of_size_le {f : DataFile} {pageId : PageId} (h : f.size ≤ pageId) :
    f.read pageId = none :=
  if_neg fun hr => absurd hr.1 (Nat.not_lt.mpr h)

namespace BufferPool

/-- The page a guard on `pageId` shows: the cached one, else the one the file holds. -/
def current (bp : BufferPool) (pageId : PageId) : Option Page :=
  match bp.pageTable pageId with
  | some f => some (bp.frames f).page
  | none => bp.disk.file.read pageId

/-- Its bytes, the checksum field aside. -/
def bytes (bp : BufferPool) (pageId : PageId) : Option Page :=
  (bp.current pageId).map Page.unsummed

/-- The frame of each live guard, in a list. -/
abbrev pinned (live : List PageGuard) : List FrameId := live.map PageGuard.frame

/-- What holds of a pool whose live guards are `live`, in any order and with any number of guards on
one page. -/
structure Cached (bp : BufferPool) (live : List PageGuard) : Prop where
  table_lt : ∀ {pageId f}, bp.pageTable pageId = some f → f < bp.poolSize
  table_frame : ∀ {pageId f}, bp.pageTable pageId = some f → (bp.frames f).pageId = some pageId
  lru_iff : ∀ {f}, f ∈ bp.lruList ↔ ∃ pageId, bp.pageTable pageId = some f
  lru_nodup : bp.lruList.Nodup
  free_nodup : bp.freeList.Nodup
  free_lt : ∀ f ∈ bp.freeList, f < bp.poolSize
  free_notMem : ∀ f ∈ bp.freeList, f ∉ bp.lruList
  pins : ∀ f, (bp.frames f).pinCount = (pinned live).count f
  live_table : ∀ g ∈ live, bp.pageTable g.pageId = some g.frame
  clean : ∀ {pageId f}, bp.pageTable pageId = some f → (bp.frames f).dirty = false →
    bp.disk.file.read pageId = some (bp.frames f).page
  table_next : ∀ {pageId f}, bp.pageTable pageId = some f → pageId < bp.next
  file_next : bp.disk.file.size ≤ bp.next

/-- No frame has been lost: each is on the free list or on the LRU list. A fetch whose read throws
loses the frame it took. -/
def Covered (bp : BufferPool) : Prop := ∀ f < bp.poolSize, f ∈ bp.freeList ∨ f ∈ bp.lruList

variable {bp : BufferPool} {live live' : List PageGuard} {pageId : PageId} {f : FrameId}

theorem current_of_table (h : bp.pageTable pageId = some f) :
    bp.current pageId = some (bp.frames f).page := by
  simp only [current, h]

theorem current_of_notCached (h : bp.pageTable pageId = none) :
    bp.current pageId = bp.disk.file.read pageId := by
  simp only [current, h]

theorem setFrame_frames (bp : BufferPool) (f : FrameId) (frame : Frame) :
    (bp.setFrame f frame).frames = Function.update bp.frames f frame := rfl

/-! ## Consequences -/

/-- Two pages never share a frame. -/
theorem Cached.table_inj (h : Cached bp live) {q : PageId}
    (hp : bp.pageTable pageId = some f) (hq : bp.pageTable q = some f) : pageId = q :=
  Option.some.inj ((h.table_frame hp).symm.trans (h.table_frame hq))

/-- The order in which the guards are listed does not matter. -/
theorem Cached.perm (h : Cached bp live) (hperm : live.Perm live') : Cached bp live' :=
  { h with
    pins := fun f => (h.pins f).trans ((hperm.map PageGuard.frame).count_eq f)
    live_table := fun g hg => h.live_table g (hperm.mem_iff.mpr hg) }

/-- Two live guards are on the same frame exactly when they are for the same page. -/
theorem Cached.same_frame_iff (h : Cached bp live) {g g' : PageGuard} (hg : g ∈ live)
    (hg' : g' ∈ live) : g.frame = g'.frame ↔ g.pageId = g'.pageId := by
  constructor
  · intro heq
    exact h.table_inj (h.live_table g hg) (heq ▸ h.live_table g' hg')
  · intro heq
    exact Option.some.inj ((h.live_table g hg).symm.trans (heq ▸ h.live_table g' hg'))

/-- A live guard shows its page. -/
theorem Cached.current_live (h : Cached bp live) {g : PageGuard} (hg : g ∈ live) :
    bp.current g.pageId = some (bp.frames g.frame).page :=
  current_of_table (h.live_table g hg)

/-- No page at or past the allocation counter exists yet. -/
theorem Cached.current_next (h : Cached bp live) (hle : bp.next ≤ pageId) :
    bp.pageTable pageId = none ∧ bp.current pageId = none := by
  have htable : bp.pageTable pageId = none := by
    cases ht : bp.pageTable pageId with
    | none => rfl
    | some f => exact absurd (h.table_next ht) (Nat.not_lt.mpr hle)
  rw [current_of_notCached htable]
  exact ⟨htable, DataFile.read_eq_none_of_size_le (le_trans h.file_next hle)⟩

/-- A frame of the LRU list with no pin has no live guard. -/
theorem Cached.notMem_pinned (h : Cached bp live) (hpin : (bp.frames f).pinCount = 0) :
    f ∉ pinned live := by
  rw [h.pins f] at hpin
  exact List.count_eq_zero.mp hpin

/-! ## One cached frame replaced

Every operation on a page that stays cached replaces its frame, and may write the page's own place
in the file, append to the log or change the guards on that frame. -/

/-- The pool with one frame, the files and the history replaced. -/
def replaced (bp : BufferPool) (f : FrameId) (frame : Frame) (disk : DiskManager)
    (wal : Option WalManager) (io : List IoEvent) : BufferPool :=
  { bp with frames := Function.update bp.frames f frame, disk, wal, io }

/-- **Replacing the frame of a cached page** keeps the invariant and changes that page only. -/
theorem Cached.update (h : Cached bp live) (ht : bp.pageTable pageId = some f) (frame : Frame)
    (disk : DiskManager) (wal : Option WalManager) (io : List IoEvent) (live' : List PageGuard)
    (hpage : frame.pageId = some pageId)
    (hpin : frame.pinCount = (pinned live').count f)
    (hothers : ∀ f' ≠ f, (pinned live').count f' = (pinned live).count f')
    (hlive : ∀ g ∈ live', bp.pageTable g.pageId = some g.frame)
    (hnext : disk.nextPageId = bp.next) (hsize : disk.file.size ≤ bp.next)
    (hread : ∀ q ≠ pageId, disk.file.read q = bp.disk.file.read q)
    (hclean : frame.dirty = false → disk.file.read pageId = some frame.page) :
    Cached (bp.replaced f frame disk wal io) live' ∧
      (bp.replaced f frame disk wal io).current
        = Function.update bp.current pageId (some frame.page) := by
  have hself : (bp.replaced f frame disk wal io).frames f = frame := Function.update_self _ _ _
  have hframe : ∀ f' ≠ f, (bp.replaced f frame disk wal io).frames f' = bp.frames f' :=
    fun f' hf' => Function.update_of_ne hf' _ _
  -- a page cached in another frame is another page
  have hne : ∀ {q f'}, bp.pageTable q = some f' → q ≠ pageId → f' ≠ f := by
    rintro q f' hq hqp rfl
    exact hqp (h.table_inj hq ht)
  refine ⟨?_, ?_⟩
  · exact
      { table_lt := h.table_lt
        table_frame := by
          intro q f' hq
          by_cases hqp : q = pageId
          · subst hqp
            obtain rfl := Option.some.inj (ht.symm.trans hq)
            rw [hself, hpage]
          · rw [hframe f' (hne hq hqp)]
            exact h.table_frame hq
        lru_iff := h.lru_iff
        lru_nodup := h.lru_nodup
        free_nodup := h.free_nodup
        free_lt := h.free_lt
        free_notMem := h.free_notMem
        pins := by
          intro f'
          by_cases hf' : f' = f
          · subst hf'; rw [hself, hpin]
          · rw [hframe f' hf', h.pins f', hothers f' hf']
        live_table := hlive
        clean := by
          intro q f' hq hd
          by_cases hqp : q = pageId
          · subst hqp
            obtain rfl := Option.some.inj (ht.symm.trans hq)
            rw [hself] at hd ⊢
            exact hclean hd
          · rw [hframe f' (hne hq hqp)] at hd ⊢
            exact (hread q hqp).trans (h.clean hq hd)
        table_next := fun hq => lt_of_lt_of_eq (h.table_next hq) hnext.symm
        file_next := le_of_le_of_eq hsize hnext.symm }
  · funext q
    by_cases hqp : q = pageId
    · subst hqp
      have ht' : (bp.replaced f frame disk wal io).pageTable q = some f := ht
      rw [Function.update_self, current_of_table ht', hself]
    · have htable : (bp.replaced f frame disk wal io).pageTable q = bp.pageTable q := rfl
      rw [Function.update_of_ne hqp]
      cases hq : bp.pageTable q with
      | none =>
        rw [current_of_notCached hq, current_of_notCached (htable.trans hq)]
        exact hread q hqp
      | some f' =>
        rw [current_of_table hq, current_of_table (htable.trans hq), hframe f' (hne hq hqp)]

/-- The update of a cached page's frame when neither the guards nor the files change. -/
theorem Cached.setFrame (h : Cached bp live) (ht : bp.pageTable pageId = some f) (frame : Frame)
    (hpage : frame.pageId = some pageId) (hpin : frame.pinCount = (bp.frames f).pinCount)
    (hclean : frame.dirty = false → bp.disk.file.read pageId = some frame.page) :
    Cached (bp.setFrame f frame) live ∧
      (bp.setFrame f frame).current = Function.update bp.current pageId (some frame.page) :=
  h.update ht frame bp.disk bp.wal bp.io live hpage (hpin.trans (h.pins f)) (fun _ _ => rfl)
    h.live_table rfl h.file_next (fun _ _ => rfl) hclean

/-- Moving a cached page's frame to the front of the LRU list. -/
theorem Cached.touchLRU (h : Cached bp live) (ht : bp.pageTable pageId = some f) :
    Cached (bp.touchLRU f) live ∧ (bp.touchLRU f).current = bp.current := by
  have hf : f ∈ bp.lruList := h.lru_iff.mpr ⟨pageId, ht⟩
  have hmem : ∀ f', f' ∈ f :: bp.lruList.erase f ↔ f' ∈ bp.lruList := by
    intro f'
    exact (List.perm_cons_erase hf).symm.mem_iff
  refine ⟨?_, rfl⟩
  exact
    { h with
      lru_iff := (hmem _).trans h.lru_iff
      lru_nodup := (List.perm_cons_erase hf).nodup_iff.mp h.lru_nodup
      free_notMem := fun f' hf' hin => h.free_notMem f' hf' ((hmem f').mp hin) }

/-! ### Pinning and unpinning -/

/-- One more guard on a cached page. -/
theorem Cached.pin (h : Cached bp live) (ht : bp.pageTable pageId = some f) :
    Cached (bp.setFrame f { bp.frames f with pinCount := (bp.frames f).pinCount + 1 })
      (⟨pageId, f⟩ :: live) ∧
    (bp.setFrame f { bp.frames f with pinCount := (bp.frames f).pinCount + 1 }).current
      = bp.current := by
  have hup := h.update ht { bp.frames f with pinCount := (bp.frames f).pinCount + 1 }
    bp.disk bp.wal bp.io (⟨pageId, f⟩ :: live) (h.table_frame ht)
    (by rw [pinned, List.map_cons, List.count_cons_self, h.pins f])
    (fun f' hf' => by rw [pinned, List.map_cons, List.count_cons_of_ne (Ne.symm hf')])
    (fun g hg => by
      rcases List.mem_cons.mp hg with rfl | hg
      · exact ht
      · exact h.live_table g hg)
    rfl h.file_next (fun _ _ => rfl) (h.clean ht)
  refine ⟨hup.1, hup.2.trans ?_⟩
  rw [← current_of_table ht, Function.update_eq_self]

/-- Dropping the pin of one guard. -/
theorem Cached.unpin {g : PageGuard} (h : Cached bp (g :: live)) :
    Cached (bp.setFrame g.frame
      { bp.frames g.frame with pinCount := (bp.frames g.frame).pinCount - 1 }) live ∧
    (bp.setFrame g.frame
      { bp.frames g.frame with pinCount := (bp.frames g.frame).pinCount - 1 }).current
      = bp.current := by
  have ht := h.live_table g List.mem_cons_self
  have hup := h.update ht
    { bp.frames g.frame with pinCount := (bp.frames g.frame).pinCount - 1 }
    bp.disk bp.wal bp.io live (h.table_frame ht)
    (by rw [h.pins g.frame, pinned, pinned, List.map_cons, List.count_cons_self,
      Nat.add_sub_cancel])
    (fun f' hf' => by rw [pinned, pinned, List.map_cons, List.count_cons_of_ne (Ne.symm hf')])
    (fun g' hg' => h.live_table g' (List.mem_cons_of_mem _ hg'))
    rfl h.file_next (fun _ _ => rfl) (h.clean ht)
  refine ⟨hup.1, hup.2.trans ?_⟩
  rw [← current_of_table ht, Function.update_eq_self]

/-! ### Writing back and logging -/

/-- Writing a cached page back restamps its checksum, in the frame and in the file alike. -/
theorem Cached.writeFrame (h : Cached bp live) (ht : bp.pageTable pageId = some f) :
    Cached (bp.writeFrame pageId f) live ∧
      (bp.writeFrame pageId f).current = Function.update bp.current pageId
        (some (DiskManager.checksummed (bp.frames f).page)) := by
  refine h.update ht { bp.frames f with page := DiskManager.checksummed (bp.frames f).page }
    (bp.disk.writePage pageId (bp.frames f).page) bp.wal _ live
    (h.table_frame ht) (h.pins f) (fun _ _ => rfl) h.live_table rfl
    (max_le h.file_next (h.table_next ht)) (fun q hq => ?_) (fun _ => ?_)
  · exact (congrFun (DataFile.read_write _ _ _) q).trans (Function.update_of_ne hq _ _)
  · exact (congrFun (DataFile.read_write _ _ _) pageId).trans (Function.update_self _ _ _)

/-- A flush leaves the frame clean. -/
theorem Cached.flushFrame (h : Cached bp live) (ht : bp.pageTable pageId = some f) :
    Cached (bp.flushFrame pageId f) live ∧
      (bp.flushFrame pageId f).current = Function.update bp.current pageId
        (some (DiskManager.checksummed (bp.frames f).page)) := by
  obtain ⟨hw, hcur⟩ := h.writeFrame ht
  have hpage : ((bp.writeFrame pageId f).frames f).page
      = DiskManager.checksummed (bp.frames f).page := by
    simp only [BufferPool.writeFrame, BufferPool.setFrame, Function.update_self]
  have ht' : (bp.writeFrame pageId f).pageTable pageId = some f := ht
  have hset := hw.setFrame ht' { (bp.writeFrame pageId f).frames f with dirty := false }
    (hw.table_frame ht') rfl (fun _ => by
      rw [hpage]
      exact (congrFun (DataFile.read_write _ _ _) pageId).trans (Function.update_self _ _ _))
  refine ⟨hset.1, hset.2.trans ?_⟩
  rw [hcur, Function.update_idem, hpage]

/-- The log record of a dirty frame stamps an LSN into its page, when there is a log. -/
theorem Cached.logFrame (h : Cached bp live) (ht : bp.pageTable pageId = some f)
    (hd : (bp.frames f).dirty = true) :
    Cached (bp.logFrame pageId f) live ∧
      (bp.logFrame pageId f).current = Function.update bp.current pageId
        (some (match bp.wal with
          | some w => w.stamped (bp.frames f).page
          | none => (bp.frames f).page)) := by
  cases hw : bp.wal with
  | none =>
    simp only [BufferPool.logFrame, hw]
    exact ⟨h, by rw [← current_of_table ht, Function.update_eq_self]⟩
  | some w =>
    simp only [BufferPool.logFrame, hw]
    refine h.update ht { bp.frames f with page := w.stamped (bp.frames f).page } bp.disk _ _ live
      (h.table_frame ht) (h.pins f) (fun _ _ => rfl) h.live_table rfl h.file_next
      (fun _ _ => rfl) (fun hclean => ?_)
    rw [show (bp.frames f).dirty = false from hclean] at hd
    cases hd

/-- Writing a page to the file changes none of its bytes but the checksum. -/
theorem bytes_of_checksummed {bp' : BufferPool} (ht : bp.pageTable pageId = some f)
    (hcur : bp'.current = Function.update bp.current pageId
      (some (DiskManager.checksummed (bp.frames f).page))) : bp'.bytes = bp.bytes := by
  funext q
  unfold bytes
  by_cases hq : q = pageId
  · subst hq
    rw [hcur, Function.update_self, current_of_table ht]
    rfl
  · rw [hcur, Function.update_of_ne hq]

theorem Cached.writeFrame_bytes (h : Cached bp live) (ht : bp.pageTable pageId = some f) :
    (bp.writeFrame pageId f).bytes = bp.bytes :=
  bytes_of_checksummed ht (h.writeFrame ht).2

theorem Cached.flushFrame_bytes (h : Cached bp live) (ht : bp.pageTable pageId = some f) :
    (bp.flushFrame pageId f).bytes = bp.bytes :=
  bytes_of_checksummed ht (h.flushFrame ht).2

/-! ## Finding a frame -/

/-- What taking a frame for a page leaves: frame `f` holds no page and is on neither list, the other
pages are where they were, and the one page that may have left the pool has its bytes in the
file. -/
structure Took (bp bp' : BufferPool) (live : List PageGuard) (f : FrameId) : Prop where
  cached : Cached bp' live
  lt : f < bp'.poolSize
  notMem_free : f ∉ bp'.freeList
  notMem_lru : f ∉ bp'.lruList
  notMem_pinned : f ∉ pinned live
  poolSize_eq : bp'.poolSize = bp.poolSize
  wal_eq : bp'.wal = bp.wal
  next_eq : bp'.next = bp.next
  bytes_eq : bp'.bytes = bp.bytes
  table_none : ∀ q, bp.pageTable q = none → bp'.pageTable q = none
  kept : ∀ q f', bp'.pageTable q = some f' → bp.pageTable q = some f' ∧ bp'.frames f' = bp.frames f'
  cover : bp.Covered → ∀ f' < bp.poolSize, f' ≠ f → f' ∈ bp'.freeList ∨ f' ∈ bp'.lruList
  /-- Nothing was written but, possibly, an unpinned dirty page. -/
  io_eq : (bp'.io = bp.io ∧ bp'.disk.file = bp.disk.file) ∨ ∃ q page,
    bp'.io = bp.io ++ [.writePage q page] ∧ bp'.disk.file = bp.disk.file.write q page ∧
    (∀ g ∈ live, g.pageId ≠ q) ∧ bp.bytes q = some page.unsummed

/-- The page of an unpinned frame leaves the pool once the file holds it. -/
theorem Cached.unload (h : Cached bp live) (ht : bp.pageTable pageId = some f)
    (hpin : f ∉ pinned live) (hread : bp.disk.file.read pageId = some (bp.frames f).page) :
    Cached (bp.unload pageId f) live ∧ (bp.unload pageId f).current = bp.current := by
  have htable : ∀ {q f'}, (bp.unload pageId f).pageTable q = some f' ↔
      bp.pageTable q = some f' ∧ f' ≠ f := by
    intro q f'
    rw [show (bp.unload pageId f).pageTable = Function.update bp.pageTable pageId none from rfl]
    by_cases hq : q = pageId
    · subst hq
      rw [Function.update_self, ht]
      constructor
      · intro hno; cases hno
      · rintro ⟨heq, hne⟩; exact absurd (Option.some.inj heq).symm hne
    · rw [Function.update_of_ne hq]
      refine ⟨fun ht' => ⟨ht', ?_⟩, And.left⟩
      rintro rfl
      exact hq (h.table_inj ht' ht)
  have hlru : ∀ {f'}, f' ∈ bp.lruList.erase f ↔ f' ∈ bp.lruList ∧ f' ≠ f :=
    fun {f'} => h.lru_nodup.mem_erase_iff.trans and_comm
  refine ⟨?_, ?_⟩
  · exact
      { table_lt := fun ht' => h.table_lt (htable.mp ht').1
        table_frame := fun ht' => h.table_frame (htable.mp ht').1
        lru_iff := by
          intro f'
          refine hlru.trans ?_
          simp only [h.lru_iff, htable, exists_and_right]
        lru_nodup := h.lru_nodup.erase f
        free_nodup := h.free_nodup
        free_lt := h.free_lt
        free_notMem := fun f' hf' hmem => h.free_notMem f' hf' (hlru.mp hmem).1
        pins := h.pins
        live_table := fun g hg => htable.mpr
          ⟨h.live_table g hg, fun heq => hpin (heq ▸ List.mem_map_of_mem hg)⟩
        clean := fun ht' => h.clean (htable.mp ht').1
        table_next := fun ht' => h.table_next (htable.mp ht').1
        file_next := h.file_next }
  · funext q
    by_cases hq : q = pageId
    · subst hq
      rw [current_of_table ht, current_of_notCached (Function.update_self _ _ _)]
      exact hread
    · simp only [current, BufferPool.unload, Function.update_of_ne hq]
      rfl

/-- **Evicting** an unpinned page: written back first when dirty. -/
theorem Cached.evict (h : Cached bp live) (hlru : f ∈ bp.lruList) (hpin : f ∉ pinned live) :
    Took bp (bp.evict f) live f := by
  obtain ⟨p, ht⟩ := h.lru_iff.mp hlru
  have hlive : ∀ g ∈ live, g.pageId ≠ p := by
    rintro g hg rfl
    exact hpin (Option.some.inj (ht.symm.trans (h.live_table g hg)) ▸ List.mem_map_of_mem hg)
  -- no other cached page has its frame touched
  have hothers : ∀ {q f'}, Function.update bp.pageTable p none q = some f' →
      bp.pageTable q = some f' ∧ f' ≠ f := by
    intro q f' hq
    by_cases hqp : q = p
    · rw [hqp, Function.update_self] at hq
      cases hq
    · rw [Function.update_of_ne hqp] at hq
      refine ⟨hq, ?_⟩
      rintro rfl
      exact hqp (h.table_inj hq ht)
  have hcover : bp.Covered → ∀ f' < bp.poolSize, f' ≠ f →
      f' ∈ bp.freeList ∨ f' ∈ bp.lruList.erase f := fun hc f' hf' hne =>
    (hc f' hf').imp_right fun hmem => (List.mem_erase_of_ne hne).mpr hmem
  by_cases hd : (bp.frames f).dirty = true
  · have heq : bp.evict f = (bp.writeFrame p f).unload p f := by
      simp only [BufferPool.evict, removeFromLRU, h.table_frame ht, hd, if_true]
      rfl
    obtain ⟨hw, hcur⟩ := h.writeFrame ht
    have ht' : (bp.writeFrame p f).pageTable p = some f := ht
    obtain ⟨hu, hcur'⟩ := hw.unload ht' hpin (by
      rw [← current_of_table ht', hcur, Function.update_self]
      exact (congrFun (DataFile.read_write _ _ _) p).trans (Function.update_self _ _ _))
    rw [heq]
    refine ⟨hu, h.table_lt ht, fun hmem => h.free_notMem f hmem hlru,
      h.lru_nodup.not_mem_erase, hpin, rfl, rfl, rfl, ?_, fun q hq => ?_, fun q f' hq => ?_, hcover,
      .inr ⟨p, _, rfl, rfl, hlive, ?_⟩⟩
    · funext q
      exact (congrArg (Option.map _) (congrFun hcur' q)).trans
        (congrFun (h.writeFrame_bytes ht) q)
    · by_cases hqp : q = p
      · exact hqp ▸ Function.update_self _ _ _
      · exact (Function.update_of_ne hqp _ _).trans hq
    · obtain ⟨hq', hne⟩ := hothers hq
      exact ⟨hq', Function.update_of_ne hne _ _⟩
    · rw [bytes, current_of_table ht]
      rfl
  · have heq : bp.evict f = bp.unload p f := by
      simp only [BufferPool.evict, removeFromLRU, h.table_frame ht, hd]
      rfl
    obtain ⟨hu, hcur'⟩ := h.unload ht hpin (h.clean ht (by simpa using hd))
    rw [heq]
    refine ⟨hu, h.table_lt ht, fun hmem => h.free_notMem f hmem hlru, h.lru_nodup.not_mem_erase, hpin, rfl,
      rfl, rfl, ?_, fun q hq => ?_, fun q f' hq => ⟨(hothers hq).1, rfl⟩, hcover, .inl ⟨rfl, rfl⟩⟩
    · funext q
      exact congrArg (Option.map _) (congrFun hcur' q)
    · by_cases hqp : q = p
      · exact hqp ▸ Function.update_self _ _ _
      · exact (Function.update_of_ne hqp _ _).trans hq

/-- **A frame is found, or every frame is pinned** (every cached one, when frames were lost). -/
theorem Cached.findVictimFrame (h : Cached bp live) :
    (∃ f bp', bp.findVictimFrame = (some f, bp') ∧ Took bp bp' live f) ∨
      (bp.findVictimFrame = (none, bp) ∧ bp.freeList = [] ∧
        ∀ f ∈ bp.lruList, f ∈ pinned live) := by
  unfold BufferPool.findVictimFrame
  cases hl : bp.freeList with
  | cons f rest =>
    left
    have hnodup := hl ▸ h.free_nodup
    have hf : f ∈ bp.freeList := hl ▸ List.mem_cons_self
    refine ⟨f, { bp with freeList := rest }, rfl, ?_, h.free_lt f hf, (List.nodup_cons.mp hnodup).1,
      h.free_notMem f hf, ?_, rfl, rfl, rfl, rfl, fun _ hq => hq, fun _ _ hq => ⟨hq, rfl⟩, ?_,
      .inl ⟨rfl, rfl⟩⟩
    · exact
        { h with
          free_nodup := (List.nodup_cons.mp hnodup).2
          free_lt := fun f' hf' => h.free_lt f' (hl ▸ List.mem_cons_of_mem _ hf')
          free_notMem := fun f' hf' => h.free_notMem f' (hl ▸ List.mem_cons_of_mem _ hf') }
    · intro hmem
      obtain ⟨g, hg, rfl⟩ := List.mem_map.mp hmem
      exact h.free_notMem _ hf (h.lru_iff.mpr ⟨_, h.live_table g hg⟩)
    · intro hc f' hf' hne
      refine (hc f' hf').imp_left fun hmem => ?_
      rw [hl] at hmem
      exact List.mem_of_ne_of_mem hne hmem
  | nil =>
    cases hv : bp.lruVictim with
    | some f =>
      have hmem : f ∈ bp.lruList := List.mem_reverse.mp (List.mem_of_find?_eq_some hv)
      have hpin := List.find?_some hv
      exact .inl ⟨f, bp.evict f, rfl, h.evict hmem (h.notMem_pinned (by simpa using hpin))⟩
    | none =>
      refine .inr ⟨rfl, rfl, fun f hf => ?_⟩
      have hpin := List.find?_eq_none.mp hv f (List.mem_reverse.mpr hf)
      rw [h.pins f, beq_iff_eq] at hpin
      exact not_imp_comm.mp List.count_eq_zero.mpr hpin

/-! ## Entering a page -/

/-- **Entering a page in a frame taken for it**, pinned once. -/
theorem Cached.install (h : Cached bp live) (frame : Frame) (disk : DiskManager)
    (hlt : f < bp.poolSize) (hfree : f ∉ bp.freeList) (hlru : f ∉ bp.lruList)
    (hunpinned : f ∉ pinned live) (hnone : bp.pageTable pageId = none)
    (hpage : frame.pageId = some pageId) (hpin : frame.pinCount = 1)
    (hfile : disk.file = bp.disk.file) (hnext : bp.next ≤ disk.nextPageId)
    (hid : pageId < disk.nextPageId)
    (hclean : frame.dirty = false → bp.disk.file.read pageId = some frame.page) :
    Cached (({ bp with disk } : BufferPool).install pageId f frame) (⟨pageId, f⟩ :: live) ∧
      (({ bp with disk } : BufferPool).install pageId f frame).current
        = Function.update bp.current pageId (some frame.page) := by
  -- the frame's id occurs in no entry of the page table yet
  have hne : ∀ {q f'}, bp.pageTable q = some f' → f' ≠ f := by
    rintro q f' hq rfl
    exact hlru (h.lru_iff.mpr ⟨q, hq⟩)
  have htable : ∀ {q f'}, Function.update bp.pageTable pageId (some f) q = some f' →
      (q = pageId ∧ f' = f) ∨ (q ≠ pageId ∧ bp.pageTable q = some f' ∧ f' ≠ f) := by
    intro q f' hq
    by_cases hqp : q = pageId
    · subst hqp
      rw [Function.update_self] at hq
      exact .inl ⟨rfl, (Option.some.inj hq).symm⟩
    · rw [Function.update_of_ne hqp] at hq
      exact .inr ⟨hqp, hq, hne hq⟩
  have hself : (Function.update bp.frames f frame) f = frame := Function.update_self _ _ _
  have hframe : ∀ f' ≠ f, (Function.update bp.frames f frame) f' = bp.frames f' :=
    fun f' hf' => Function.update_of_ne hf' _ _
  have herase : bp.lruList.erase f = bp.lruList := List.erase_of_not_mem hlru
  refine ⟨?_, ?_⟩
  · exact
      { table_lt := by
          intro q f' hq
          rcases htable hq with ⟨-, rfl⟩ | ⟨-, hq, -⟩
          · exact hlt
          · exact h.table_lt hq
        table_frame := by
          intro q f' hq
          rcases htable hq with ⟨rfl, rfl⟩ | ⟨-, hq, hf'⟩
          · exact (congrArg Frame.pageId hself).trans hpage
          · exact (congrArg Frame.pageId (hframe f' hf')).trans (h.table_frame hq)
        lru_iff := by
          intro f'
          change f' ∈ f :: bp.lruList.erase f ↔ _
          rw [herase, List.mem_cons, h.lru_iff]
          constructor
          · rintro (rfl | ⟨q, hq⟩)
            · exact ⟨pageId, Function.update_self _ _ _⟩
            · refine ⟨q, (Function.update_of_ne ?_ _ _).trans hq⟩
              rintro rfl
              rw [hnone] at hq
              cases hq
          · rintro ⟨q, hq⟩
            rcases htable hq with ⟨-, rfl⟩ | ⟨-, hq, -⟩
            · exact .inl rfl
            · exact .inr ⟨q, hq⟩
        lru_nodup := by
          change (f :: bp.lruList.erase f).Nodup
          rw [herase]
          exact List.nodup_cons.mpr ⟨hlru, h.lru_nodup⟩
        free_nodup := h.free_nodup
        free_lt := h.free_lt
        free_notMem := by
          intro f' hf' hmem
          change f' ∈ f :: bp.lruList.erase f at hmem
          rw [herase] at hmem
          rcases List.mem_cons.mp hmem with rfl | hmem
          · exact hfree hf'
          · exact h.free_notMem f' hf' hmem
        pins := by
          intro f'
          by_cases hf' : f' = f
          · subst hf'
            refine (congrArg Frame.pinCount hself).trans ?_
            rw [hpin, pinned, List.map_cons, List.count_cons_self, List.count_eq_zero.mpr hunpinned]
          · refine (congrArg Frame.pinCount (hframe f' hf')).trans ?_
            rw [h.pins f', pinned, pinned, List.map_cons, List.count_cons_of_ne (Ne.symm hf')]
        live_table := by
          intro g hg
          rcases List.mem_cons.mp hg with rfl | hg
          · exact Function.update_self _ _ _
          · refine (Function.update_of_ne ?_ _ _).trans (h.live_table g hg)
            intro heq
            have := h.live_table g hg
            rw [heq, hnone] at this
            cases this
        clean := by
          intro q f' hq hd
          rcases htable hq with ⟨rfl, rfl⟩ | ⟨-, hq, hf'⟩
          · change disk.file.read q = some ((Function.update bp.frames f' frame) f').page
            rw [hself, hfile]
            exact hclean ((congrArg Frame.dirty hself).symm.trans hd)
          · change disk.file.read q = some ((Function.update bp.frames f frame) f').page
            rw [hframe f' hf', hfile]
            exact h.clean hq ((congrArg Frame.dirty (hframe f' hf')).symm.trans hd)
        table_next := by
          intro q f' hq
          rcases htable hq with ⟨rfl, -⟩ | ⟨-, hq, -⟩
          · exact hid
          · exact lt_of_lt_of_le (h.table_next hq) hnext
        file_next := by
          change disk.file.size ≤ disk.nextPageId
          rw [hfile]
          exact le_trans h.file_next hnext }
  · funext q
    by_cases hqp : q = pageId
    · subst hqp
      rw [Function.update_self, current_of_table (Function.update_self _ _ _)]
      exact congrArg (fun fr : Frame => some fr.page) hself
    · rw [Function.update_of_ne hqp]
      cases hq : bp.pageTable q with
      | none =>
        rw [current_of_notCached hq, current_of_notCached ((Function.update_of_ne hqp _ _).trans hq)]
        exact congrArg (fun file : DataFile => file.read q) hfile
      | some f' =>
        rw [current_of_table hq, current_of_table ((Function.update_of_ne hqp _ _).trans hq)]
        exact congrArg (fun fr : Frame => some fr.page) (hframe f' (hne hq))

/-! ## The operations -/

/-- Nothing but, possibly, one unpinned dirty page was written, and no live guard saw anything. -/
structure Served (bp bp' : BufferPool) (live : List PageGuard) : Prop where
  poolSize_eq : bp'.poolSize = bp.poolSize
  wal_eq : bp'.wal = bp.wal
  dirty_eq : ∀ g ∈ live, (bp'.frames g.frame).dirty = (bp.frames g.frame).dirty
  io_eq : (bp'.io = bp.io ∧ bp'.disk.file = bp.disk.file) ∨ ∃ q page,
    bp'.io = bp.io ++ [.writePage q page] ∧ bp'.disk.file = bp.disk.file.write q page ∧
    (∀ g ∈ live, g.pageId ≠ q) ∧ bp.bytes q = some page.unsummed

/-- No frame can be taken: none is free and every cached page is pinned. -/
def Exhausted (bp : BufferPool) (live : List PageGuard) : Prop :=
  bp.freeList = [] ∧ ∀ f ∈ bp.lruList, f ∈ pinned live

/-- With no frame lost, a request is turned down only when every frame is pinned. -/
theorem Cached.all_pinned (h : Cached bp live) (hc : bp.Covered) (hex : Exhausted bp live) {f : FrameId}
    (hf : f < bp.poolSize) : 0 < (bp.frames f).pinCount := by
  have hlru : f ∈ bp.lruList := (hc f hf).resolve_left (by simp [hex.1])
  rw [h.pins f]
  exact List.count_pos_iff.mpr (hex.2 f hlru)

theorem Took.served {bp' : BufferPool} (h : Took bp bp' live f) : Served bp bp' live where
  poolSize_eq := h.poolSize_eq
  wal_eq := h.wal_eq
  dirty_eq g hg := by rw [(h.kept _ _ (h.cached.live_table g hg)).2]
  io_eq := h.io_eq

/-- Entering a page in a frame taken for it is seen by no live guard either. -/
theorem Took.install_served {bp' : BufferPool} (h : Took bp bp' live f) (frame : Frame)
    {disk : DiskManager} (hfile : disk.file = bp'.disk.file) : Served bp (({ bp' with disk } : BufferPool).install pageId f frame) live where
  poolSize_eq := h.poolSize_eq
  wal_eq := h.wal_eq
  dirty_eq g hg := by
    have hne : g.frame ≠ f := fun heq => h.notMem_pinned (heq ▸ List.mem_map_of_mem hg)
    rw [← h.served.dirty_eq g hg]
    exact congrArg Frame.dirty (Function.update_of_ne hne _ _)
  io_eq := by
    refine h.io_eq.imp (fun hio => ⟨hio.1, hfile.trans hio.2⟩) fun ⟨q, page, hio, hf, hrest⟩ => ?_
    exact ⟨q, page, hio, hfile.trans hf, hrest⟩

theorem Took.install_covered {bp' : BufferPool} (h : Took bp bp' live f) (hc : bp.Covered)
    (frame : Frame) (disk : DiskManager) :
    (({ bp' with disk } : BufferPool).install pageId f frame).Covered := by
  intro f' hf'
  by_cases hne : f' = f
  · exact .inr (hne ▸ List.mem_cons_self)
  · refine (h.cover hc f' (h.poolSize_eq ▸ hf') hne).imp_right fun hmem => ?_
    exact List.mem_cons_of_mem _ ((List.mem_erase_of_ne hne).mpr hmem)

/-- **`FetchPage`** hands out a guard on the page, or finds every frame pinned, or throws because
the file does not hold the page. It changes no page. -/
theorem Cached.fetchPage (h : Cached bp live) (pageId : PageId) :
    (∃ g bp', fetchPage pageId bp = .ok (some g) bp' ∧ g.pageId = pageId ∧
      Cached bp' (g :: live) ∧ Served bp bp' live ∧ (bp.Covered → bp'.Covered) ∧
      bp'.next = bp.next ∧ bp'.bytes = bp.bytes) ∨
    (fetchPage pageId bp = .ok none bp ∧ Exhausted bp live) ∨
    (∃ e bp', fetchPage pageId bp = .error e bp' ∧ Cached bp' live ∧ Served bp bp' live ∧
      bp'.next = bp.next ∧ bp'.bytes = bp.bytes) := by
  cases ht : bp.pageTable pageId with
  | some f =>
    left
    obtain ⟨hpin, hcur⟩ := h.pin ht
    obtain ⟨htouch, hcur'⟩ := hpin.touchLRU ht
    refine ⟨⟨pageId, f⟩, _, by simp only [BufferPool.fetchPage, ht], rfl, htouch,
      ⟨rfl, rfl, fun g hg => ?_, .inl ⟨rfl, rfl⟩⟩, fun hc f' hf' => ?_, rfl, ?_⟩
    · simp only [BufferPool.touchLRU, setFrame_frames]
      by_cases hgf : g.frame = f
      · rw [hgf, Function.update_self]
      · rw [Function.update_of_ne hgf]
    · refine (hc f' hf').imp_right fun hmem => ?_
      exact (List.perm_cons_erase (h.lru_iff.mpr ⟨pageId, ht⟩)).mem_iff.mp hmem
    · funext q
      exact congrArg (Option.map _) (congrFun (hcur'.trans hcur) q)
  | none =>
    rcases h.findVictimFrame with ⟨f, bp₁, hv, htook⟩ | ⟨hv, hfree, hpinned⟩
    · have hnone := htook.table_none pageId ht
      cases hr : bp₁.disk.readPage pageId with
      | error e =>
        refine .inr (.inr ⟨e, bp₁, ?_, htook.cached, htook.served, htook.next_eq, htook.bytes_eq⟩)
        simp only [BufferPool.fetchPage, ht, hv, hr]
      | ok page =>
        have hread := DiskManager.readPage_iff.mp hr
        have hid : pageId < bp₁.disk.nextPageId := by
          by_contra hge
          have := (htook.cached.current_next (Nat.not_lt.mp hge)).2
          rw [current_of_notCached hnone, hread] at this
          cases this
        obtain ⟨hin, hcur⟩ := htook.cached.install
          { page, pageId := some pageId, pinCount := 1, dirty := false } bp₁.disk htook.lt
          htook.notMem_free htook.notMem_lru htook.notMem_pinned hnone rfl rfl rfl le_rfl hid
          (fun _ => hread)
        refine .inl ⟨⟨pageId, f⟩, _, ?_, rfl, hin, htook.install_served _ rfl,
          fun hc => htook.install_covered hc _ _, htook.next_eq, ?_⟩
        · simp only [BufferPool.fetchPage, ht, hv, hr]
        · rw [← htook.bytes_eq]
          funext q
          refine congrArg (Option.map _) ((congrFun hcur q).trans ?_)
          by_cases hq : q = pageId
          · subst hq
            rw [Function.update_self, current_of_notCached hnone, hread]
          · rw [Function.update_of_ne hq]
    · exact .inr (.inl ⟨by simp only [BufferPool.fetchPage, ht, hv], hfree, hpinned⟩)

/-- The page `NewPage` hands out. -/
def blank (pageId : PageId) : Page := { Page.zero with pageId }

/-- **`NewPage`** hands out a guard on the next page id, zeroed and dirty, or finds every frame
pinned. It changes no other page. -/
theorem Cached.newPage (h : Cached bp live) :
    (∃ f bp', newPage bp = .ok (some ⟨bp.next, f⟩) bp' ∧
      Cached bp' (⟨bp.next, f⟩ :: live) ∧ Served bp bp' live ∧ (bp.Covered → bp'.Covered) ∧
      (bp'.frames f).dirty = true ∧ bp'.next = bp.next + 1 ∧
      bp'.bytes = Function.update bp.bytes bp.next (some (blank bp.next))) ∨
    (newPage bp = .ok none bp ∧ Exhausted bp live) := by
  rcases h.findVictimFrame with ⟨f, bp₁, hv, htook⟩ | ⟨hv, hfree, hpinned⟩
  · have hnext : bp₁.disk.nextPageId = bp.next := htook.next_eq
    have hnone := (htook.cached.current_next (le_of_eq hnext)).1
    obtain ⟨hin, hcur⟩ := htook.cached.install
      { page := blank bp.next, pageId := some bp.next, pinCount := 1, dirty := true }
      { bp₁.disk with nextPageId := bp₁.disk.nextPageId + 1 } htook.lt htook.notMem_free
      htook.notMem_lru htook.notMem_pinned hnone rfl rfl rfl (Nat.le_succ _)
      (hnext ▸ Nat.lt_succ_self _) (fun hd => by cases hd)
    refine .inl ⟨f, _, ?_, hin, htook.install_served _ rfl, fun hc => htook.install_covered hc _ _, ?_,
      congrArg Nat.succ hnext, ?_⟩
    · simp only [BufferPool.newPage, hv, DiskManager.allocatePage, hnext]
      rfl
    · simp only [BufferPool.install, BufferPool.touchLRU, setFrame_frames, Function.update_self]
    · rw [← htook.bytes_eq]
      funext q
      refine (congrArg (Option.map _) (congrFun hcur q)).trans ?_
      by_cases hq : q = bp.next
      · subst hq
        rw [Function.update_self, Function.update_self]
        rfl
      · rw [Function.update_of_ne hq, Function.update_of_ne hq]
        rfl
  · exact .inr ⟨by simp only [BufferPool.newPage, hv], hfree, hpinned⟩

/-- The unpinning half of a release. -/
theorem Cached.unpin_bytes {g : PageGuard} (h : Cached bp (g :: live)) :
    (bp.setFrame g.frame
      { bp.frames g.frame with pinCount := (bp.frames g.frame).pinCount - 1 }).bytes = bp.bytes := by
  funext q
  exact congrArg (Option.map _) (congrFun h.unpin.2 q)

/-- What a release leaves alone. -/
structure Released (bp bp' : BufferPool) : Prop where
  poolSize_eq : bp'.poolSize = bp.poolSize
  disk_eq : bp'.disk = bp.disk
  freeList_eq : bp'.freeList = bp.freeList
  lruList_eq : bp'.lruList = bp.lruList
  dirty_eq : ∀ f, (bp'.frames f).dirty = (bp.frames f).dirty

theorem Released.covered {bp' : BufferPool} (h : Released bp bp') (hc : bp.Covered) :
    bp'.Covered := fun f hf => by
  rw [h.freeList_eq, h.lruList_eq]
  exact hc f (h.poolSize_eq ▸ hf)

/-- **Releasing a guard on a dirty page logs the page**: its bytes are then those of the record. -/
theorem Cached.release_logs {g : PageGuard} {w : WalManager} (h : Cached bp (g :: live))
    (hd : (bp.frames g.frame).dirty = true) (hw : bp.wal = some w) :
    Cached (g.release bp) live ∧ Released bp (g.release bp) ∧
      (g.release bp).wal = some (w.appendRecord g.pageId (bp.frames g.frame).page) ∧
      (g.release bp).io
        = bp.io ++ [.appendRecord (w.nextRecord g.pageId (bp.frames g.frame).page)] ∧
      (g.release bp).bytes = Function.update bp.bytes g.pageId
        (some (w.stamped (bp.frames g.frame).page).unsummed) := by
  have ht := h.live_table g List.mem_cons_self
  have hset : bp.setFrame g.frame { bp.frames g.frame with dirty := true } = bp := by
    rw [show ({ bp.frames g.frame with dirty := true } : Frame) = bp.frames g.frame by rw [← hd]]
    rw [BufferPool.setFrame, Function.update_eq_self]
  obtain ⟨hlog, hcur⟩ := h.logFrame ht hd
  rw [hw] at hcur
  have hrel : g.release bp = (bp.logFrame g.pageId g.frame).setFrame g.frame
      { (bp.logFrame g.pageId g.frame).frames g.frame with
        pinCount := ((bp.logFrame g.pageId g.frame).frames g.frame).pinCount - 1 } := by
    simp only [PageGuard.release, unpinPage, ht, hd, if_true, hset]
  have hlogged : bp.logFrame g.pageId g.frame = { bp with
      frames := Function.update bp.frames g.frame
        { bp.frames g.frame with page := w.stamped (bp.frames g.frame).page }
      wal := some (w.appendRecord g.pageId (bp.frames g.frame).page)
      io := bp.io ++ [.appendRecord (w.nextRecord g.pageId (bp.frames g.frame).page)] } := by
    simp only [BufferPool.logFrame, hw]
    rfl
  refine ⟨hrel ▸ hlog.unpin.1, ⟨?_, ?_, ?_, ?_, fun f => ?_⟩, ?_, ?_, ?_⟩
  · rw [hrel, hlogged]; rfl
  · rw [hrel, hlogged]; rfl
  · rw [hrel, hlogged]; rfl
  · rw [hrel, hlogged]; rfl
  · rw [hrel, hlogged]
    by_cases hf : f = g.frame
    · subst hf
      simp only [setFrame_frames, Function.update_self]
    · simp only [setFrame_frames, Function.update_of_ne hf]
  · rw [hrel, hlogged]; rfl
  · rw [hrel, hlogged]; rfl
  · rw [hrel, hlog.unpin_bytes]
    funext q
    refine (congrArg (Option.map _) (congrFun hcur q)).trans ?_
    by_cases hq : q = g.pageId
    · subst hq
      rw [Function.update_self, Function.update_self]
      rfl
    · rw [Function.update_of_ne hq, Function.update_of_ne hq]
      rfl

/-- The unpinning is all there is to a release that logs nothing. -/
theorem release_quiet {g : PageGuard} (ht : bp.pageTable g.pageId = some g.frame)
    (hquiet : (bp.frames g.frame).dirty = false ∨ bp.wal = none) :
    g.release bp = bp.setFrame g.frame
      { bp.frames g.frame with pinCount := (bp.frames g.frame).pinCount - 1 } := by
  cases hd : (bp.frames g.frame).dirty with
  | false => simp only [PageGuard.release, unpinPage, ht, hd, Bool.false_eq_true, if_false]
  | true =>
    have hw : bp.wal = none := hquiet.resolve_left (by rw [hd]; decide)
    have hset : bp.setFrame g.frame { bp.frames g.frame with dirty := true } = bp := by
      rw [show ({ bp.frames g.frame with dirty := true } : Frame) = bp.frames g.frame by rw [← hd]]
      rw [BufferPool.setFrame, Function.update_eq_self]
    simp only [PageGuard.release, unpinPage, ht, hd, if_true, hset, logFrame_of_none hw]

/-- **Any other release logs nothing** and changes no page. -/
theorem Cached.release_silent {g : PageGuard} (h : Cached bp (g :: live))
    (hquiet : (bp.frames g.frame).dirty = false ∨ bp.wal = none) :
    Cached (g.release bp) live ∧ Released bp (g.release bp) ∧ (g.release bp).wal = bp.wal ∧
      (g.release bp).io = bp.io ∧ (g.release bp).bytes = bp.bytes := by
  rw [release_quiet (h.live_table g List.mem_cons_self) hquiet]
  refine ⟨h.unpin.1, ⟨rfl, rfl, rfl, rfl, fun f => ?_⟩, rfl, rfl, h.unpin_bytes⟩
  by_cases hf : f = g.frame
  · subst hf
    simp only [setFrame_frames, Function.update_self]
  · simp only [setFrame_frames, Function.update_of_ne hf]

/-- A flush leaves everything alone but the dirty flags and the checksums; `written` is what it wrote
to the file. -/
structure Flushed (bp bp' : BufferPool) (written : List (PageId × Page)) : Prop where
  poolSize_eq : bp'.poolSize = bp.poolSize
  next_eq : bp'.next = bp.next
  wal_eq : bp'.wal = bp.wal
  freeList_eq : bp'.freeList = bp.freeList
  lruList_eq : bp'.lruList = bp.lruList
  bytes_eq : bp'.bytes = bp.bytes
  io_eq : bp'.io = bp.io ++ written.map fun w => .writePage w.1 w.2
  file_eq : bp'.disk.file = written.foldl (fun file w => file.write w.1 w.2) bp.disk.file
  written_eq : ∀ w ∈ written, bp.bytes w.1 = some w.2.unsummed

theorem Flushed.refl (bp : BufferPool) : Flushed bp bp [] :=
  ⟨rfl, rfl, rfl, rfl, rfl, rfl, (List.append_nil _).symm, rfl, fun _ hw => by cases hw⟩

theorem Flushed.trans {bp' bp'' : BufferPool} {W W' : List (PageId × Page)}
    (h : Flushed bp bp' W) (h' : Flushed bp' bp'' W') : Flushed bp bp'' (W ++ W') where
  poolSize_eq := h'.poolSize_eq.trans h.poolSize_eq
  next_eq := h'.next_eq.trans h.next_eq
  wal_eq := h'.wal_eq.trans h.wal_eq
  freeList_eq := h'.freeList_eq.trans h.freeList_eq
  lruList_eq := h'.lruList_eq.trans h.lruList_eq
  bytes_eq := h'.bytes_eq.trans h.bytes_eq
  io_eq := by rw [h'.io_eq, h.io_eq, List.map_append, List.append_assoc]
  file_eq := by rw [h'.file_eq, h.file_eq, List.foldl_append]
  written_eq w hw := by
    rcases List.mem_append.mp hw with hw | hw
    · exact h.written_eq w hw
    · exact h.bytes_eq ▸ h'.written_eq w hw

theorem Flushed.covered {bp' : BufferPool} {W : List (PageId × Page)} (h : Flushed bp bp' W)
    (hc : bp.Covered) : bp'.Covered := fun f hf => by
  rw [h.freeList_eq, h.lruList_eq]
  exact hc f (h.poolSize_eq ▸ hf)

/-- **Flushing a cached page** writes it. -/
theorem Cached.flush (h : Cached bp live) (ht : bp.pageTable pageId = some f) :
    Cached (bp.flushFrame pageId f) live ∧ Flushed bp (bp.flushFrame pageId f)
      [(pageId, DiskManager.checksummed (bp.frames f).page)] := by
  refine ⟨(h.flushFrame ht).1, rfl, rfl, rfl, rfl, rfl, h.flushFrame_bytes ht, rfl, rfl,
    fun w hw => ?_⟩
  rw [List.mem_singleton.mp hw, bytes, current_of_table ht]
  rfl

theorem Cached.flushEntry (h : Cached bp live) (f : FrameId) :
    ∃ W, Cached (bp.flushEntry f) live ∧ Flushed bp (bp.flushEntry f) W := by
  unfold BufferPool.flushEntry
  split
  · exact ⟨[], h, .refl bp⟩
  · split
    · exact ⟨_, h.flush (And.left ‹_ ∧ _›)⟩
    · exact ⟨[], h, .refl bp⟩

/-- **`FlushAll`** changes no page, the checksums aside. -/
theorem Cached.flushAll (h : Cached bp live) :
    ∃ bp' W, BufferPool.flushAll bp = .ok () bp' ∧ Cached bp' live ∧ Flushed bp bp' W := by
  have hfold : ∀ (fs : List FrameId) (bp : BufferPool), Cached bp live →
      ∃ W, Cached (fs.foldl BufferPool.flushEntry bp) live ∧
        Flushed bp (fs.foldl BufferPool.flushEntry bp) W := by
    intro fs
    induction fs with
    | nil => exact fun bp h => ⟨[], h, .refl bp⟩
    | cons f fs ih =>
      intro bp h
      obtain ⟨W, hc, hfl⟩ := h.flushEntry f
      obtain ⟨W', hc', hfl'⟩ := ih _ hc
      exact ⟨W ++ W', hc', hfl.trans hfl'⟩
  obtain ⟨W, hc, hfl⟩ := hfold (List.range bp.poolSize) bp h
  exact ⟨_, W, rfl, hc, hfl⟩

/-- `FlushPage` writes the page if it is cached, and touches no other page's frame. -/
theorem Cached.flushPage (h : Cached bp live) (pageId : PageId) :
    ∃ b bp' W, BufferPool.flushPage pageId bp = .ok b bp' ∧ Cached bp' live ∧ Flushed bp bp' W ∧
      (∀ w ∈ W, w.1 = pageId) ∧
      ∀ q f, bp.pageTable q = some f → q ≠ pageId → bp'.frames f = bp.frames f := by
  cases ht : bp.pageTable pageId with
  | none =>
    exact ⟨false, bp, [], by simp only [BufferPool.flushPage, ht], h, .refl bp,
      (fun _ hw => by cases hw), fun _ _ _ _ => rfl⟩
  | some f =>
    obtain ⟨hc, hfl⟩ := h.flush ht
    refine ⟨true, _, _, by simp only [BufferPool.flushPage, ht], hc, hfl, fun w hw => ?_,
      fun q f' hq hne => ?_⟩
    · rw [List.mem_singleton.mp hw]
    · have hf : f' ≠ f := by
        rintro rfl
        exact hne (h.table_inj hq ht)
      simp only [BufferPool.flushFrame, BufferPool.writeFrame, setFrame_frames,
        Function.update_of_ne hf]

/-- A pool just opened: nothing cached, every frame free. -/
theorem new_cached (poolSize : Nat) (file : DataFile) (wal : Option WalManager) :
    Cached (new poolSize (DiskManager.new file) wal) [] where
  table_lt ht := by cases ht
  table_frame ht := by cases ht
  lru_iff := by
    refine ⟨fun h => ?_, fun h => ?_⟩
    · cases h
    · obtain ⟨_, ht⟩ := h
      cases ht
  lru_nodup := List.nodup_nil
  free_nodup := List.nodup_reverse.mpr List.nodup_range
  free_lt f hf := List.mem_range.mp (List.mem_reverse.mp hf)
  free_notMem _ _ hmem := by cases hmem
  pins _ := rfl
  live_table _ hg := by cases hg
  clean ht := by cases ht
  table_next ht := by cases ht
  file_next := le_rfl

theorem new_covered (poolSize : Nat) (file : DataFile) (wal : Option WalManager) :
    (new poolSize (DiskManager.new file) wal).Covered :=
  fun _ hf => .inl (List.mem_reverse.mpr (List.mem_range.mpr hf))

end BufferPool

end Reldb
