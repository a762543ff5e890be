import Reldb.Pool.Invariant
import Mathlib.Order.MinMax

/-!
# Reldb — writing frames back and logging them

The two places where the pool touches its files, `BufferPool.writeFrame` (`WritePage` during an
eviction) and `BufferPool.logFrame` (`AppendRecord` during an unpin). Both restamp the frame's
header, which nothing in the invariant reads; what each does to the files and to the log is said
here once.
-/

namespace Reldb

open WriteLog

theorem logged_append (records R : List RecoveredPage) :
    logged (records ++ R) = replay (logged records) (writesOf R) := by
  rw [logged, writesOf, List.map_append, replay_append]
  rfl

/-- A logged page has a record in the file. -/
theorem WalManager.Good.exists_slot {w : WalManager} (hw : w.Good) {pageId : PageId} {b : PageBody}
    (h : logged w.validRecords pageId = some b) : ∃ r ∈ w.file.slots, r.pageId = pageId := by
  have hsome : (logged w.validRecords pageId).isSome := by rw [h]; rfl
  rcases mem_of_replay_isSome hsome with hempty | hmem
  · cases hempty
  · rw [writesOf, List.map_map, hw.records_eq, List.map_map] at hmem
    exact List.mem_map.mp hmem

/-- The write-ahead rule for one page write: allowed because the page has a record. -/
theorem Files.WriteAhead.writePage {fs : Files} (h : fs.WriteAhead) {pageId : PageId} {page : Page}
    (hrec : ∃ r ∈ fs.wal.slots, r.pageId = pageId) :
    (fs.apply (.writePage pageId page)).WriteAhead where
  size_le n hn := by
    have hn : n < max fs.data.size (pageId + 1) := hn
    rcases lt_max_iff.mp hn with hn | hn
    · exact h.size_le n hn
    · obtain ⟨r, hr, heq⟩ := hrec
      exact ⟨r, hr, heq ▸ Nat.lt_succ_iff.mp hn⟩
  page_logged q hq := by
    by_cases hpq : q = pageId
    · subst hpq; exact hrec
    · have hpage : (fs.apply (.writePage pageId page)).data.page q = fs.data.page q :=
        Function.update_of_ne hpq _ _
      rw [hpage] at hq
      exact h.page_logged q hq

theorem WalManager.Good.appendRecord {w : WalManager} (h : w.Good) (pageId : PageId)
    (page : Page) : (w.appendRecord pageId page).Good where
  records_eq := by
    simp only [WalManager.appendRecord, List.map_append, List.map_cons, List.map_nil,
      ← h.records_eq]
  intact r hr := by
    rcases List.mem_append.mp hr with hr | hr
    · exact h.intact r hr
    · rw [List.mem_singleton.mp hr]
      exact WalRecord.intact_of _ _ _
  lsn_lt r hr := by
    rcases List.mem_append.mp hr with hr | hr
    · exact Nat.lt_succ_of_lt (h.lsn_lt r hr)
    · rw [List.mem_singleton.mp hr]
      exact Nat.lt_succ_self _
  lsn_sorted := by
    refine List.pairwise_append.mpr ⟨h.lsn_sorted, List.pairwise_singleton _ _, fun r hr r' hr' => ?_⟩
    rw [List.mem_singleton.mp hr']
    exact h.lsn_lt r hr
  tail_eq := h.tail_eq
  offset_eq := by
    simp only [WalManager.appendRecord, h.offset_eq, List.length_append, List.length_singleton,
      Nat.succ_mul]

/-- A record appended to the log never breaks the write-ahead rule. -/
theorem Files.WriteAhead.appendRecord {fs : Files} (h : fs.WriteAhead) (r : WalRecord) :
    (fs.apply (.appendRecord r)).WriteAhead where
  size_le n hn := by
    obtain ⟨r', hr', hle⟩ := h.size_le n hn
    exact ⟨r', List.mem_append_left _ hr', hle⟩
  page_logged q hq := by
    obtain ⟨r', hr', heq⟩ := h.page_logged q hq
    exact ⟨r', List.mem_append_left _ hr', heq⟩

namespace BufferPool

variable {base : Files} {bp bp' : BufferPool} {live : List PageGuard} {unlogged : List PageId}
  {pageId : PageId} {f : FrameId} {w : WalManager}

/-! ## Views of updated pools -/

theorem view_of_table (h : bp.pageTable pageId = some f) :
    bp.view pageId = some (bp.frames f).page.body := by
  simp only [view, h]

theorem view_of_notCached (h : bp.pageTable pageId = none) :
    bp.view pageId = bp.disk.file.view pageId := by
  simp only [view, h]

theorem files_wal (h : bp.wal = some w) : bp.files.wal = w.file := by
  simp only [files, h]

/-- Two pages never share a frame. -/
theorem Core.table_inj (h : Core base bp live unlogged) {q : PageId}
    (hp : bp.pageTable pageId = some f) (hq : bp.pageTable q = some f) : pageId = q :=
  Option.some.inj ((h.table_frame hp).symm.trans (h.table_frame hq))

/-- No page at or past the allocation counter exists yet. -/
theorem Core.view_next (h : Core base bp live unlogged) (hle : bp.next ≤ pageId) :
    bp.view pageId = none := by
  have htable : bp.pageTable pageId = none := by
    cases ht : bp.pageTable pageId with
    | none => rfl
    | some f => exact absurd (h.table_next ht) (Nat.not_lt.mpr hle)
  rw [view_of_notCached htable]
  exact DataFile.view_eq_none_of_size_le (le_trans h.file_next hle)

/-- A page that exists has an id below the allocation counter. -/
theorem Core.lt_next (h : Core base bp live unlogged) {b : PageBody}
    (hb : bp.view pageId = some b) : pageId < bp.next := by
  by_contra hlt
  rw [h.view_next (Nat.not_lt.mp hlt)] at hb
  cases hb

theorem Core.live_lru (h : Core base bp live unlogged) {g : PageGuard} (hg : g ∈ live) :
    g.frame ∈ bp.lruList :=
  h.lru_iff.mpr ⟨g.pageId, h.live_table g hg⟩

/-- The log part of the invariant carries over to a pool with the same files and writes and,
outside the unlogged pages, the same view. -/
theorem Journaled.congr (h : Journaled base bp unlogged w) {unlogged' : List PageId}
    (hio : bp'.io = bp.io) (hfiles : bp'.files = bp.files)
    (hview : ∀ q, q ∉ unlogged' → logged w.validRecords q = bp'.view q) :
    Journaled base bp' unlogged' w where
  wal_good := h.wal_good
  files_eq := by rw [hio, hfiles]; exact h.files_eq
  summed := by rw [hio]; exact h.summed
  ahead := by rw [hio]; exact h.ahead
  synced := hview

theorem Journaled.writeAhead (h : Journaled base bp unlogged w) : bp.files.WriteAhead := by
  have := h.ahead bp.io.length
  rwa [List.take_length, h.files_eq] at this

/-- One more write in the history. -/
theorem Journaled.replay_snoc (h : Journaled base bp unlogged w) (e : IoEvent) :
    base.replay (bp.io ++ [e]) = bp.files.apply e := by
  rw [← h.files_eq, Files.replay, List.foldl_append]
  rfl

theorem Journaled.summed_snoc (h : Journaled base bp unlogged w) {e : IoEvent}
    (he : ∀ p page, e = .writePage p page → page.checksum = computeChecksum page) (p : PageId)
    (page : Page) (hmem : IoEvent.writePage p page ∈ bp.io ++ [e]) :
    page.checksum = computeChecksum page := by
  rcases List.mem_append.mp hmem with hmem | hmem
  · exact h.summed p page hmem
  · exact he p page (List.mem_singleton.mp hmem).symm

/-- Appending one write to the history: the files after it must keep the log ahead. -/
theorem ahead_snoc {io : List IoEvent} {e : IoEvent}
    (h : ∀ k, (base.replay (io.take k)).WriteAhead)
    (he : (base.replay (io ++ [e])).WriteAhead) (k : Nat) :
    (base.replay ((io ++ [e]).take k)).WriteAhead := by
  rcases Nat.lt_or_ge k (io ++ [e]).length with hk | hk
  · rw [List.take_append_of_le_length (by simpa using Nat.lt_succ_iff.mp (by simpa using hk))]
    exact h k
  · rw [List.take_of_length_le hk]
    exact he

/-! ## Restamping frames

`WritePage` stores a checksum and `AppendRecord` an LSN in the frame's page. Neither touches
anything the invariant or the view reads. -/

/-- The pool with its frames restamped and its files replaced. -/
theorem Core.restamp (h : Core base bp live unlogged)
    {frames : FrameId → Frame} {disk : DiskManager} {wal : Option WalManager}
    {io : List IoEvent} {unlogged' : List PageId}
    (halike : ∀ f, (frames f).Alike (bp.frames f))
    (hnext : disk.nextPageId = bp.next) (hsize : disk.file.size ≤ bp.next)
    (hclean : ∀ {q f}, bp.pageTable q = some f → (bp.frames f).dirty = false →
      disk.file.view q = some (bp.frames f).page.body)
    (hsub : unlogged' ⊆ unlogged)
    (hjournal : ∀ w, wal = some w →
      Journaled base { bp with frames, disk, wal, io } unlogged' w) :
    Core base { bp with frames, disk, wal, io } live unlogged' where
  table_lt := h.table_lt
  table_frame ht := (halike _).pageId_eq.trans (h.table_frame ht)
  lru_iff := h.lru_iff
  lru_nodup := h.lru_nodup
  free_nodup := h.free_nodup
  free_lt := h.free_lt
  free_notMem := h.free_notMem
  pins f hf := (halike f).pinCount_eq.trans (h.pins f hf)
  live_table := h.live_table
  live_nodup := h.live_nodup
  clean ht hd := by
    rw [(halike _).body_eq]
    exact hclean ht ((halike _).dirty_eq.symm.trans hd)
  table_next ht := by simpa only [next, hnext] using h.table_next ht
  file_next := by simpa only [next, hnext] using hsize
  unlogged_live q hq := by
    obtain ⟨g, hg, hpage, hdirty⟩ := h.unlogged_live q (hsub hq)
    exact ⟨g, hg, hpage, (halike _).dirty_eq.trans hdirty⟩
  journaled := hjournal

/-- Restamping frames changes no view of a cached page; other pages are read from the file. -/
theorem view_restamp (bp : BufferPool) {frames : FrameId → Frame} {disk : DiskManager} {wal : Option WalManager}
    {io : List IoEvent} (halike : ∀ f, (frames f).Alike (bp.frames f))
    (hdisk : ∀ q, bp.pageTable q = none → disk.file.view q = bp.disk.file.view q) :
    ({ bp with frames, disk, wal, io } : BufferPool).view = bp.view := by
  funext q
  cases ht : bp.pageTable q with
  | some f => simp only [view, ht, (halike f).body_eq]
  | none => simp only [view, ht, hdisk q ht]

theorem update_alike (frame : Frame) (h : frame.Alike (bp.frames f)) (f' : FrameId) :
    (Function.update bp.frames f frame f').Alike (bp.frames f') := by
  by_cases hf : f' = f
  · subst hf; rw [Function.update_self]; exact h
  · rw [Function.update_of_ne hf]; exact .refl _

/-! ### Writing a frame back -/

theorem writeFrame_alike (bp : BufferPool) (pageId : PageId) (f f' : FrameId) :
    ((bp.writeFrame pageId f).frames f').Alike (bp.frames f') :=
  update_alike { bp.frames f with page := DiskManager.checksummed (bp.frames f).page }
    ⟨rfl, rfl, rfl, rfl⟩ f'

theorem writeFrame_fileView (bp : BufferPool) (pageId : PageId) (f : FrameId) :
    (bp.writeFrame pageId f).disk.file.view
      = Function.update bp.disk.file.view pageId (some (bp.frames f).page.body) :=
  DataFile.view_write _ _ _

theorem writeFrame_view (ht : bp.pageTable pageId = some f) :
    (bp.writeFrame pageId f).view = bp.view := by
  refine view_restamp bp (writeFrame_alike bp pageId f) fun q hq => ?_
  have hne : q ≠ pageId := by rintro rfl; rw [ht] at hq; cases hq
  exact (congrFun (writeFrame_fileView bp pageId f) q).trans (Function.update_of_ne hne _ _)

/-- Writing a logged page back keeps the invariant. -/
theorem Core.writeFrame (h : Core base bp live unlogged) (ht : bp.pageTable pageId = some f)
    (hlogged : pageId ∉ unlogged) : Core base (bp.writeFrame pageId f) live unlogged := by
  refine h.restamp (writeFrame_alike bp pageId f) rfl ?_ ?_ (List.Subset.refl _) ?_
  · exact max_le h.file_next (h.table_next ht)
  · intro q f' hq hd
    by_cases hpq : q = pageId
    · subst hpq
      rw [ht] at hq
      obtain rfl := Option.some.inj hq
      exact (congrFun (writeFrame_fileView bp q f) q).trans (Function.update_self _ _ _)
    · exact (congrFun (writeFrame_fileView bp pageId f) q).trans
        ((Function.update_of_ne hpq _ _).trans (h.clean hq hd))
  · intro w hw
    have hw : bp.wal = some w := hw
    have hj := h.journaled w hw
    refine ⟨hj.wal_good, hj.replay_snoc _, hj.summed_snoc fun _ _ heq => ?_, ?_, fun q hq => ?_⟩
    · obtain ⟨-, rfl⟩ := IoEvent.writePage.inj heq
      exact DiskManager.checksum_checksummed _
    · refine ahead_snoc hj.ahead ?_
      rw [hj.replay_snoc]
      refine hj.writeAhead.writePage ?_
      rw [files_wal hw]
      exact hj.wal_good.exists_slot ((hj.synced pageId hlogged).trans (view_of_table ht))
    · rw [hj.synced q hq, ← writeFrame_view ht]
      rfl

/-! ### Logging a frame -/

theorem logFrame_of_none (h : bp.wal = none) : bp.logFrame pageId f = bp := by
  simp only [BufferPool.logFrame, h]

theorem logFrame_of_some (h : bp.wal = some w) : bp.logFrame pageId f =
    { bp.setFrame f { bp.frames f with page := w.stamped (bp.frames f).page } with
      wal := some (w.appendRecord pageId (bp.frames f).page)
      io := bp.io ++ [.appendRecord (w.nextRecord pageId (bp.frames f).page)] } := by
  simp only [BufferPool.logFrame, h]

theorem logFrame_alike (bp : BufferPool) (pageId : PageId) (f f' : FrameId) :
    ((bp.logFrame pageId f).frames f').Alike (bp.frames f') := by
  cases hw : bp.wal with
  | none => rw [logFrame_of_none hw]; exact .refl _
  | some w =>
    rw [logFrame_of_some hw]
    exact update_alike
      { bp.frames f with page := w.stamped (bp.frames f).page } ⟨rfl, rfl, rfl, rfl⟩ f'

theorem logFrame_view (bp : BufferPool) (pageId : PageId) (f : FrameId) :
    (bp.logFrame pageId f).view = bp.view := by
  cases hw : bp.wal with
  | none => rw [logFrame_of_none hw]
  | some w =>
    have halike := logFrame_alike bp pageId f
    rw [logFrame_of_some hw] at halike ⊢
    exact view_restamp bp halike fun _ _ => rfl

/-- The record `logFrame` appends stands for the write of the frame's body. -/
theorem logged_appendRecord (w : WalManager) (pageId : PageId) (page : Page) :
    logged (w.appendRecord pageId page).validRecords
      = write (logged w.validRecords) (pageId, page.body) :=
  logged_append w.validRecords [(w.nextRecord pageId page).recovered]

/-- Logging a page settles its debt: it no longer counts as unlogged. -/
theorem Core.logFrame (h : Core base bp live (pageId :: unlogged))
    (ht : bp.pageTable pageId = some f) :
    Core base (bp.logFrame pageId f) live unlogged := by
  cases hw : bp.wal with
  | none =>
    rw [logFrame_of_none hw]
    exact h.restamp (fun _ => .refl _) rfl h.file_next h.clean (List.subset_cons_self _ _)
      fun w hw' => by rw [hw] at hw'; cases hw'
  | some w =>
    have halike := logFrame_alike bp pageId f
    have hview := logFrame_view bp pageId f
    rw [logFrame_of_some hw] at halike hview ⊢
    refine h.restamp halike rfl h.file_next h.clean (List.subset_cons_self _ _) ?_
    intro w' hw'
    obtain rfl := Option.some.inj hw'
    have hj := h.journaled w hw
    have hfiles : bp.files.apply (.appendRecord (w.nextRecord pageId (bp.frames f).page))
        = ⟨bp.disk.file, (w.appendRecord pageId (bp.frames f).page).file⟩ := by
      simp only [Files.apply, files, hw]
      rfl
    refine ⟨hj.wal_good.appendRecord _ _, (hj.replay_snoc _).trans hfiles,
      hj.summed_snoc (fun _ _ heq => by cases heq), ahead_snoc hj.ahead ?_, fun q hq => ?_⟩
    · rw [hj.replay_snoc]
      exact hj.writeAhead.appendRecord _
    · refine Eq.trans ?_ (congrFun hview q).symm
      rw [logged_appendRecord]
      by_cases hpq : q = pageId
      · subst hpq
        rw [write_self, view_of_table ht]
      · rw [write_of_ne _ _ hpq]
        exact hj.synced q (by simp [hpq, hq])

theorem logFrame_effect (bp : BufferPool) (pageId : PageId) (f : FrameId) :
    Effect bp (bp.logFrame pageId f) [(pageId, (bp.frames f).page.body)] := by
  cases hw : bp.wal with
  | none =>
    rw [logFrame_of_none hw]
    exact ⟨rfl, rfl, List.prefix_refl _, [], by simp, by simp [hw]⟩
  | some w =>
    rw [logFrame_of_some hw]
    refine ⟨rfl, by simp [hw], List.prefix_append _ _,
      [(w.nextRecord pageId (bp.frames f).page).recovered], ?_, fun _ => .refl _ _⟩
    simp only [records, hw]
    rfl

end BufferPool

end Reldb
