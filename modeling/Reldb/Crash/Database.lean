import Reldb.Crash.Reopen
import Reldb.Tree.Call

/-!
# Reldb — databases and their logs

What opening a database comes to, by what its log amounts to: nothing (a fresh tree), a registered
root (the tree at that root), or pages with none at page 0 (the constructor throws). Then the logs
of a running database: each call appends to the log, and a log cut inside a call amounts to a prefix
of that call's page writes.
-/

namespace Reldb

open WriteLog BufferPool

/-! ## Opening a database -/

section

variable {base : Files} {f : Files} {q : Nat}

/-- A page `ReadPage` rejects. -/
theorem DiskManager.readPage_of_not_readable {d : DiskManager} {p : PageId}
    (h : ¬ d.file.Readable p) : ∃ what, d.readPage p = .error (.runtimeError what) := by
  unfold DiskManager.readPage
  by_cases hsize : p < d.file.size
  · rw [if_pos hsize]
    exact ⟨_, if_neg fun hsum => h ⟨hsize, hsum⟩⟩
  · rw [if_neg hsize]
    exact ⟨_, rfl⟩

/-- No log: a fresh tree. -/
theorem Database.new_fresh (hf : f.Restorable) (hempty : f.wal.records = []) (hq : 2 ≤ q) :
    ∃ bp, Database.new q f = .ok ⟨(openPool q f).files, ⟨bp, 0, none, 1⟩⟩ bp ∧
      BTree.Standalone (openPool q f).files ⟨bp, 0, none, 1⟩ ∧ bp.view = freshStore ∧
      bp.wal.isSome = true ∧ bp.log = freshWrites := by
  have hopen := openPool_opened hf q
  have hnext := hopen.next_eq_zero hempty
  obtain ⟨bp, hnew, hs, hlog, hview, hst⟩ := BTree.new_fresh hopen.good hq hnext
  refine ⟨bp, ?_, hst, hview, hs.effect.wal_isSome.trans hopen.wal_isSome,
    hlog hopen.wal_isSome (hopen.records_eq.trans hempty)⟩
  unfold Database.new
  rw [hnew]

/-- A registered root: the tree at that root, and nothing is logged. -/
theorem Database.new_existing {root : PageId} (hf : f.Restorable) (hq : 0 < q)
    (hsound : Sound (logged f.wal.records))
    (hroot : logged f.wal.records 0 = some (.metadata root)) :
    ∃ bp, Database.new q f = .ok ⟨(openPool q f).files, ⟨bp, 0, none, root⟩⟩ bp ∧
      BTree.Standalone (openPool q f).files ⟨bp, 0, none, root⟩ ∧
      bp.view = logged f.wal.records ∧ Quiet (openPool q f) bp := by
  have hopen := openPool_opened hf q
  have hready : PoolReady (openPool q f).files (openPool q f) :=
    ⟨hopen.good, hq, hopen.view_eq ▸ hsound⟩
  obtain ⟨bp, hnew, hquiet, hst⟩ := BTree.new_existing hready (hopen.view_eq ▸ hroot)
  refine ⟨bp, ?_, hst, hquiet.view_eq.trans hopen.view_eq, hquiet⟩
  unfold Database.new
  rw [hnew]

/-- Fetching a page a just opened pool cannot hold or does not find. -/
theorem openPool_fetchPage {p : PageId} (hf : f.Restorable)
    (h : q = 0 ∨ logged f.wal.records p = none) :
    fetchPage p (openPool q f) = .ok none (openPool q f) ∨
      ∃ what bp, fetchPage p (openPool q f) = .error (.runtimeError what) bp ∧
        bp.files = (openPool q f).files := by
  have hopen := openPool_opened hf q
  cases hfree : (openPool q f).freeList with
  | nil =>
    have hvictim : (openPool q f).findVictimFrame = (none, openPool q f) := by
      simp only [findVictimFrame, hfree]
      rfl
    exact .inl (by simp only [fetchPage, hopen.table_empty, hvictim])
  | cons g rest =>
    have hvictim : (openPool q f).findVictimFrame
        = (some g, { openPool q f with freeList := rest }) := by
      simp only [findVictimFrame, hfree]
    have hunreadable : ¬ (openPool q f).disk.file.Readable p := by
      intro hr
      rcases h with rfl | hnone
      · cases hfree
      · have hview := hopen.view_eq ▸ view_of_notCached (hopen.table_empty p)
        rw [hnone, DataFile.view_of_readable hr] at hview
        cases hview
    obtain ⟨what, hread⟩ := DiskManager.readPage_of_not_readable hunreadable
    exact .inr ⟨what, { openPool q f with freeList := rest },
      by simp only [fetchPage, hopen.table_empty, hvictim, hread], rfl⟩

/-- Pages, but none at page 0 or no frame to read it into: the constructor throws and leaves the
files alone. -/
theorem Database.new_error (hf : f.Restorable) (hne : f.wal.records ≠ [])
    (h : q = 0 ∨ logged f.wal.records 0 = none) :
    ∃ what bp, Database.new q f = .error (.runtimeError what) bp ∧
      bp.files = (openPool q f).files := by
  obtain ⟨r, hr⟩ := List.exists_mem_of_ne_nil _ hne
  have hcount : (openPool q f).diskPageCount ≠ 0 :=
    Nat.pos_iff_ne_zero.mp (((openPool_opened hf q).next_iff 0).mpr ⟨r, hr, Nat.zero_le _⟩)
  have hget : (MonadState.get : Prog BufferPool BufferPool) (openPool q f)
      = .ok (openPool q f) (openPool q f) := rfl
  have hconstruct : ∃ what bp, BTree.construct (openPool q f) = .error (.runtimeError what) bp ∧
      bp.files = (openPool q f).files := by
    unfold BTree.construct
    rw [Prog.bind_ok hget, if_neg hcount]
    rcases openPool_fetchPage hf h with hfetch | ⟨what, bp, hfetch, hfiles⟩
    · rw [Prog.bind_ok hfetch]
      exact ⟨_, _, rfl, rfl⟩
    · exact ⟨what, bp, Prog.bind_error hfetch, hfiles⟩
  obtain ⟨what, bp, hrun, hfiles⟩ := hconstruct
  refine ⟨what, bp, ?_, hfiles⟩
  unfold Database.new BTree.new
  rw [hrun]

/-- A fresh tree needs two frames for its two pages. -/
theorem Database.new_undefined (hf : f.Restorable) (hempty : f.wal.records = []) (hq : q < 2) :
    ∃ bp, Database.new q f = .error .undefinedBehaviour bp := by
  have hopen := openPool_opened hf q
  have hcount : (openPool q f).diskPageCount = 0 := hopen.next_eq_zero hempty
  have hget : (MonadState.get : Prog BufferPool BufferPool) (openPool q f)
      = .ok (openPool q f) (openPool q f) := rfl
  have hsize : (openPool q f).poolSize = q := rfl
  have hconstruct : ∃ bp, BTree.construct (openPool q f) = .error .undefinedBehaviour bp := by
    unfold BTree.construct
    rw [Prog.bind_ok hget, if_pos hcount]
    by_cases hzero : q = 0
    · rw [Prog.bind_ok (hopen.good.newPage_full (hsize.trans hzero).le)]
      exact ⟨_, rfl⟩
    · obtain ⟨g, bp₁, hnew₁, h₁, e₁, -, -⟩ := hopen.good.newPage (by simp [hsize]; omega)
      obtain ⟨bp₂, hwrite₂, h₂, e₂, -, -⟩ :=
        h₁.write List.mem_cons_self List.mem_cons_self (.metadata 0)
      have hfull : bp₂.poolSize ≤ 1 := by
        rw [e₂.poolSize_eq, e₁.poolSize_eq, hsize]
        omega
      rw [Prog.bind_ok hnew₁]
      simp only [PageGuard.withGuard, Prog.bind_ok hwrite₂,
        Prog.bind_ok (h₂.newPage_full hfull), Prog.throw_run]
      exact ⟨_, rfl⟩
  obtain ⟨bp, hrun⟩ := hconstruct
  refine ⟨bp, ?_⟩
  unfold Database.new BTree.new
  rw [hrun]

end

/-! ## A running database -/

section

variable {base : Files} {bp : BufferPool} {t t' : BTree} {W : List PageWrite} {next : PageId}

/-- With every guard released, the pages are what the log amounts to. -/
theorem BufferPool.Good.view_eq_logged (h : Good base bp [] []) (hwal : bp.wal.isSome) :
    bp.view = logged bp.records := by
  obtain ⟨w, hw⟩ := Option.isSome_iff_exists.mp hwal
  funext p
  rw [records, hw]
  exact ((h.journaled w hw).synced p List.not_mem_nil).symm

/-- The log file holds the records the process has in memory, and nothing after them. -/
theorem BufferPool.Good.wal_file (h : Good base bp [] []) (hwal : bp.wal.isSome) :
    bp.files.wal.records = bp.records ∧ bp.files.wal.tail = 0 ∧
      (∀ r ∈ bp.files.wal.slots, r.intact = true) ∧
      bp.records.Pairwise fun r r' => r.lsn < r'.lsn := by
  obtain ⟨w, hw⟩ := Option.isSome_iff_exists.mp hwal
  have hgood := (h.journaled w hw).wal_good
  rw [files_wal hw, records, hw]
  exact ⟨hgood.records_eq.symm, hgood.tail_eq, hgood.intact, hgood.lsn_sorted⟩

/-- **A log cut inside a call** amounts to the state before the call and some first page writes of
it. -/
theorem Call.cut (hc : Call base t t' W next) (h : t.Standalone base)
    (hwal : t.bufferPool.wal.isSome) {R : List RecoveredPage}
    (hR : t'.bufferPool.records = t.bufferPool.records ++ R) (k : Nat) :
    ∃ m, logged (t.bufferPool.records ++ R.take k) = replay t.bufferPool.view (W.take m) := by
  obtain ⟨R', hR', hstut⟩ := hc.settled.effect.records
  obtain rfl := List.append_cancel_left (hR.symm.trans hR')
  obtain ⟨m, hm⟩ := (hstut hwal).take k
  refine ⟨m, ?_⟩
  rw [logged_append, h.good.view_eq_logged hwal, writesOf, List.map_take, ← hm.replay_eq]
  rfl

/-- What the log of a running database has come to amount to at some point. -/
structure Midway (σ : PageStore) (root : PageId) (ls ls' : List Leaf) : Prop where
  sound : Sound σ
  registered : σ 0 = some (.metadata root)
  scans : Scans σ root ls ∨ Scans σ root ls'

/-- **A log cut inside a call shows the scan before the call or the scan after it.** -/
theorem Call.midway (hc : Call base t t' W next) (h : t.Standalone base)
    (hmeta : t.metadataPageId = 0) (hwal : t.bufferPool.wal.isSome) {R : List RecoveredPage}
    (hR : t'.bufferPool.records = t.bufferPool.records ++ R) {ls ls' : List Leaf}
    (hls : Scans t.bufferPool.view t.rootPageId ls)
    (hls' : Scans t'.bufferPool.view t'.rootPageId ls') (k : Nat) :
    ∃ root, Midway (logged (t.bufferPool.records ++ R.take k)) root ls ls' := by
  obtain ⟨m, hm⟩ := hc.cut h hwal hR k
  rw [hc.settled.view_eq] at hls'
  obtain ⟨root, hroot, hscan⟩ := hc.log.scans_take hls hls' m
  rw [hmeta] at hroot
  rw [hm]
  exact ⟨root, hc.log.oneCommit.sound_take h.sound m, hroot, hscan⟩

end

end Reldb
