import Reldb.Pool.Guards

/-!
# Reldb — frames are conserved, but for a fetch whose read throws

Between calls every frame of a pool is free, or caches a page under that page's id: `Conserved`.
`FetchPage` takes a frame out of the lists before it reads, and puts it on none of them when the read
throws, so that frame is lost; nothing else loses one. Runs here go on after an exception.

Step lemma: `PoolOp.after_covered`. Run lemma: `covered_iff`.
-/

namespace Reldb

/-- The client after one use of the pool, an exception caught. -/
def PoolOp.after (op : PoolOp) (s : Session) : Session :=
  match op.run s with
  | .ok _ s' => s'
  | .error _ s' => s'

/-- The client after a sequence of uses, every exception caught. -/
def Session.afterAll (s : Session) (ops : List PoolOp) : Session :=
  ops.foldl (fun s op => op.after s) s

namespace BufferPool

/-- Each frame is in one of two places: once on the free list, or in the page table, under its own page
id and no other, with one entry in the LRU list. -/
structure Conserved (bp : BufferPool) : Prop where
  free_or_cached : ∀ f < bp.poolSize, f ∈ bp.freeList ∨ ∃ pageId, bp.pageTable pageId = some f
  free : ∀ f ∈ bp.freeList, bp.freeList.count f = 1 ∧ bp.lruList.count f = 0 ∧
    ∀ pageId, bp.pageTable pageId ≠ some f
  cached : ∀ f pageId, bp.pageTable pageId = some f →
    (bp.frames f).pageId = some pageId ∧ bp.lruList.count f = 1 ∧
      ∀ pageId', bp.pageTable pageId' = some f → pageId' = pageId

/-- `NewPage` finds a frame when none is pinned. -/
def ServesNew (bp : BufferPool) : Prop :=
  (∀ f < bp.poolSize, (bp.frames f).pinCount = 0) → ∃ g bp', newPage bp = .ok (some g) bp'

/-- A fetch of the page does not throw with a frame in hand: the page is cached, or whole in the data
file, or there is no frame to take. -/
def Answerable (bp : BufferPool) (pageId : PageId) : Prop :=
  bp.current pageId ≠ none ∨ ∀ f < bp.poolSize, 0 < (bp.frames f).pinCount

section

variable {bp : BufferPool} {live : List PageGuard} {pageId : PageId}

theorem Cached.conserved_iff (h : Cached bp live) : bp.Conserved ↔ bp.Covered := by
  constructor
  · exact fun hc f hf => (hc.free_or_cached f hf).imp_right h.lru_iff.mpr
  · intro hc
    refine ⟨fun f hf => (hc f hf).imp_right h.lru_iff.mp, fun f hf => ⟨?_, ?_, ?_⟩, fun f p hp =>
      ⟨h.table_frame hp, ?_, fun q hq => h.table_inj hq hp⟩⟩
    · exact List.count_eq_one_of_mem h.free_nodup hf
    · exact List.count_eq_zero.mpr (h.free_notMem f hf)
    · exact fun p hp => h.free_notMem f hf (h.lru_iff.mpr ⟨p, hp⟩)
    · exact List.count_eq_one_of_mem h.lru_nodup (h.lru_iff.mpr ⟨p, hp⟩)

theorem Cached.servesNew (h : Cached bp live) (hc : bp.Covered) (hpos : 0 < bp.poolSize) :
    bp.ServesNew := by
  intro hfree
  rcases h.newPage with ⟨f, bp', hok, -⟩ | ⟨-, hex⟩
  · exact ⟨_, bp', hok⟩
  · have hpin := h.all_pinned hc hex hpos
    have hzero := hfree 0 hpos
    omega

/-- **`FetchPage` keeps the frames exactly when it does not throw with one in hand.** -/
theorem Cached.fetchPage_covered (h : Cached bp live) (hc : bp.Covered) (pageId : PageId) :
    (∃ g bp', BufferPool.fetchPage pageId bp = .ok g bp' ∧ bp'.Covered ∧ bp.Answerable pageId) ∨
      ∃ e bp', BufferPool.fetchPage pageId bp = .error e bp' ∧ ¬ bp'.Covered ∧ ¬ bp.Answerable pageId := by
  cases ht : bp.pageTable pageId with
  | some f =>
    rcases h.fetchPage pageId with ⟨g, bp', hok, -, -, -, hcover, -⟩ | ⟨hok, -⟩ | ⟨e, bp', herr, -⟩
    · exact .inl ⟨_, bp', hok, hcover hc, .inl (by rw [current_of_table ht]; exact Option.some_ne_none _)⟩
    · simp only [BufferPool.fetchPage, ht] at hok
      cases hok
    · simp only [BufferPool.fetchPage, ht] at herr
      cases herr
  | none =>
    rcases h.findVictimFrame with ⟨f, bp₁, hv, htook⟩ | ⟨hv, hex⟩
    · have hnone := htook.table_none pageId ht
      -- taking the frame changes no page, so the read sees what the file held before
      have hbytes : (bp.current pageId).map Page.unsummed = (bp₁.disk.file.read pageId).map Page.unsummed := by
        rw [← current_of_notCached hnone]
        exact (congrFun htook.bytes_eq pageId).symm
      cases hr : bp₁.disk.readPage pageId with
      | ok page =>
        have hread := DiskManager.readPage_iff.mp hr
        rw [hread] at hbytes
        have hok : BufferPool.fetchPage pageId bp = .ok (some ⟨pageId, f⟩) (bp₁.install pageId f
            { page, pageId := some pageId, pinCount := 1, dirty := false }) := by
          simp only [BufferPool.fetchPage, ht, hv, hr]
        refine .inl ⟨_, _, hok, htook.install_covered hc _ bp₁.disk, .inl fun hcur => ?_⟩
        rw [hcur] at hbytes
        cases hbytes
      | error e =>
        have hread : bp₁.disk.file.read pageId = none := by
          refine Option.eq_none_iff_forall_ne_some.mpr fun page hpage => ?_
          rw [DiskManager.readPage_iff.mpr hpage] at hr
          cases hr
        refine .inr ⟨e, bp₁, by simp only [BufferPool.fetchPage, ht, hv, hr], fun hc' => ?_, ?_⟩
        · -- the frame taken is on neither list
          exact (hc' f htook.lt).elim htook.notMem_free htook.notMem_lru
        · rintro (hcur | hpinned)
          · rw [hread] at hbytes
            exact hcur (Option.map_eq_none_iff.mp hbytes)
          · have hpos := hpinned f (htook.poolSize_eq ▸ htook.lt)
            rw [h.pins f] at hpos
            exact htook.notMem_pinned (List.count_pos_iff.mp hpos)
    · exact .inl ⟨none, bp, by simp only [BufferPool.fetchPage, ht, hv], hc,
        .inr fun f hf => h.all_pinned hc hex hf⟩

end

end BufferPool

open BufferPool

/-- The fetches a step makes are answerable. -/
def PoolOp.Answerable : PoolOp → Session → Prop
  | .fetchPage pageId, s => s.pool.Answerable pageId
  | _, _ => True

/-! ## One step -/

/-- What a step leaves: the pool's own invariant, whatever happened, and every frame in its place when
its fetch was answerable and not otherwise. -/
structure Session.Stepped (op : PoolOp) (s s' : Session) : Prop where
  cached : Cached s'.pool s'.live
  poolSize_eq : s'.pool.poolSize = s.pool.poolSize
  covered_iff : s.pool.Covered → (s'.pool.Covered ↔ op.Answerable s)

/-- A step that keeps every frame. -/
theorem Session.Stepped.keeps {op : PoolOp} {s s' : Session} (hc : Cached s'.pool s'.live)
    (hsize : s'.pool.poolSize = s.pool.poolSize) (hcover : s.pool.Covered → s'.pool.Covered)
    (hop : op.Answerable s) : Session.Stepped op s s' :=
  ⟨hc, hsize, fun h => ⟨fun _ => hop, fun _ => hcover h⟩⟩

/-- Dropping a variable's guard unpins it, logging its page or not. -/
theorem Session.releaseGuard_released {bp : BufferPool} {g : Option PageGuard} {live : List PageGuard}
    (h : Cached bp (g.toList ++ live)) :
    Cached (releaseGuard g bp) live ∧ Released bp (releaseGuard g bp) := by
  cases g with
  | none => exact ⟨h, rfl, rfl, rfl, rfl, fun _ => rfl⟩
  | some g =>
    by_cases hlog : (bp.frames g.frame).dirty = true ∧ bp.wal ≠ none
    · obtain ⟨w, hw⟩ := Option.ne_none_iff_exists'.mp hlog.2
      obtain ⟨hrel, hkept, -⟩ := Cached.release_logs h hlog.1 hw
      exact ⟨hrel, hkept⟩
    · have hquiet : (bp.frames g.frame).dirty = false ∨ bp.wal = none := by
        simpa only [not_and_or, Bool.not_eq_true, not_not] using hlog
      obtain ⟨hrel, hkept, -⟩ := Cached.release_silent h hquiet
      exact ⟨hrel, hkept⟩

/-- **Step lemma.** -/
theorem PoolOp.after_stepped (op : PoolOp) {s : Session} (h : Cached s.pool s.live) :
    Session.Stepped op s (op.after s) := by
  cases op with
  | newPage =>
    rcases h.newPage with ⟨f, bp', hok, hc, hserved, hcover, -⟩ | ⟨hok, -⟩
    · simp only [PoolOp.after, PoolOp.run, hok]
      exact .keeps (hc.perm (s.live_declare (some ⟨_, f⟩) bp')) hserved.poolSize_eq hcover trivial
    · simp only [PoolOp.after, PoolOp.run, hok]
      exact .keeps (h.perm (s.live_declare none _)) rfl id trivial
  | fetchPage pageId =>
    have hcovered := fun hcov => h.fetchPage_covered hcov pageId
    rcases h.fetchPage pageId with ⟨g, bp', hok, -, hc, hserved, hcover, -⟩ | ⟨hok, -⟩ |
      ⟨e, bp', herr, hc, hserved, -⟩
    · simp only [PoolOp.after, PoolOp.run, hok]
      refine ⟨hc.perm (s.live_declare (some g) bp'), hserved.poolSize_eq, fun hcov => ?_⟩
      rcases hcovered hcov with ⟨_, _, hok', hcov', hans⟩ | ⟨_, _, herr', -⟩
      · exact ⟨fun _ => hans, fun _ => hcover hcov⟩
      · rw [hok] at herr'; cases herr'
    · simp only [PoolOp.after, PoolOp.run, hok]
      refine ⟨h.perm (s.live_declare none _), rfl, fun hcov => ?_⟩
      rcases hcovered hcov with ⟨_, _, -, -, hans⟩ | ⟨_, _, herr', -⟩
      · exact ⟨fun _ => hans, fun _ => hcov⟩
      · rw [hok] at herr'; cases herr'
    · -- the exception: the frame taken is lost
      simp only [PoolOp.after, PoolOp.run, herr]
      refine ⟨hc, hserved.poolSize_eq, fun hcov => ?_⟩
      rcases hcovered hcov with ⟨_, _, hok', -⟩ | ⟨_, _, herr', hncov, hnans⟩
      · rw [herr] at hok'; cases hok'
      · rw [herr] at herr'
        cases herr'
        exact iff_of_false hncov hnans
  | mutate i page =>
    rcases hg : s.guards[i]? with _ | _ | g
    · simp only [PoolOp.after, PoolOp.run, hg]
      exact .keeps h rfl id trivial
    · simp only [PoolOp.after, PoolOp.run, hg]
      exact .keeps h rfl id trivial
    · obtain ⟨bp', hok, hc, hset, -⟩ := Session.store_good h (Session.mem_live hg) page
      simp only [PoolOp.after, PoolOp.run, hg, hok]
      exact .keeps hc (hset ▸ rfl) (fun hcov => hset ▸ hcov) trivial
  | move i j =>
    rcases hi : s.guards[i]? with _ | g
    · simp only [PoolOp.after, PoolOp.run, hi]
      exact .keeps h rfl id trivial
    rcases hj : s.guards[j]? with _ | old
    · simp only [PoolOp.after, PoolOp.run, hi, hj]
      exact .keeps h rfl id trivial
    by_cases hij : i = j
    · simp only [PoolOp.after, PoolOp.run, hi, hj, if_pos hij]
      exact .keeps h rfl id trivial
    · obtain ⟨hc, hrel⟩ := Session.releaseGuard_released (h.perm (live_move hi hj hij))
      simp only [PoolOp.after, PoolOp.run, hi, hj, if_neg hij]
      exact .keeps hc hrel.poolSize_eq hrel.covered trivial
  | release i =>
    rcases hi : s.guards[i]? with _ | g
    · simp only [PoolOp.after, PoolOp.run, hi]
      exact .keeps h rfl id trivial
    · obtain ⟨hc, hrel⟩ := Session.releaseGuard_released (h.perm (live_release hi))
      simp only [PoolOp.after, PoolOp.run, hi]
      exact .keeps hc hrel.poolSize_eq hrel.covered trivial
  | flushPage pageId =>
    obtain ⟨b, bp', W, hok, hc, hfl, -, -⟩ := h.flushPage pageId
    simp only [PoolOp.after, PoolOp.run, hok]
    exact .keeps hc hfl.poolSize_eq hfl.covered trivial
  | flushAll =>
    obtain ⟨bp', W, hok, hc, hfl⟩ := h.flushAll
    simp only [PoolOp.after, PoolOp.run, hok]
    exact .keeps hc hfl.poolSize_eq hfl.covered trivial

/-! ## Runs -/

/-- Every fetch of the run is answerable in the state it is made in. -/
def Session.AllAnswerable (s : Session) (ops : List PoolOp) : Prop :=
  ∀ k (op : PoolOp), ops[k]? = some op → op.Answerable (s.afterAll (ops.take k))

theorem Session.afterAll_cached {s : Session} (h : Cached s.pool s.live) (ops : List PoolOp) :
    Cached (s.afterAll ops).pool (s.afterAll ops).live ∧
      (s.afterAll ops).pool.poolSize = s.pool.poolSize := by
  induction ops generalizing s with
  | nil => exact ⟨h, rfl⟩
  | cons op ops ih =>
    have hstep := op.after_stepped h
    obtain ⟨hc, hsize⟩ := ih hstep.cached
    exact ⟨hc, hsize.trans hstep.poolSize_eq⟩

/-- **Run lemma.** No frame is lost in a run exactly when all its fetches are answerable. -/
theorem Session.covered_iff {s : Session} (h : Cached s.pool s.live) (hc : s.pool.Covered)
    (ops : List PoolOp) :
    (∀ k, (s.afterAll (ops.take k)).pool.Covered) ↔ s.AllAnswerable ops := by
  induction ops generalizing s with
  | nil =>
    refine ⟨fun _ k op hk => (by cases hk), fun _ k => ?_⟩
    rw [List.take_nil]
    exact hc
  | cons op ops ih =>
    have hstep := op.after_stepped h
    -- the first step, and the steps after it
    constructor
    · intro hall
      have hcov : (op.after s).pool.Covered := hall 1
      have hrest := (ih hstep.cached hcov).mp fun k => hall (k + 1)
      rintro (_ | k) op' hk
      · cases hk
        exact (hstep.covered_iff hc).mp hcov
      · exact hrest k op' hk
    · intro hans
      have hcov := (hstep.covered_iff hc).mpr (hans 0 op rfl)
      have hrest := (ih hstep.cached hcov).mpr fun k op' hk => hans (k + 1) op' hk
      rintro (_ | k)
      · exact hc
      · exact hrest k

/-- What is promised of the frames between calls. -/
def Session.FramesKept (s : Session) : Prop := s.pool.Conserved ∧ s.pool.ServesNew

/-- **Frames are conserved** in every state of a run, and an unpinned pool serves the next page, exactly
when the pool has a frame at all and every fetch of the run is of a page that is cached or readable, or
finds no frame to take. -/
theorem frames_conserved_iff (poolSize : Nat) (file : DataFile) (wal : Option WalManager)
    (ops : List PoolOp) :
    (∀ k, ((Session.start poolSize file wal).afterAll (ops.take k)).FramesKept) ↔
      0 < poolSize ∧ (Session.start poolSize file wal).AllAnswerable ops := by
  have hstart := Session.start_good poolSize file wal
  have hcached := fun k => Session.afterAll_cached hstart.cached (ops.take k)
  rw [← Session.covered_iff hstart.cached hstart.covered]
  constructor
  · intro hall
    refine ⟨?_, fun k => (hcached k).1.conserved_iff.mp (hall k).1⟩
    -- a pool of no frames turns down its first request
    by_contra hzero
    obtain rfl : poolSize = 0 := by omega
    obtain ⟨g, bp', hok⟩ := (hall 0).2 fun f hf => absurd hf (Nat.not_lt_zero f)
    cases hok
  · rintro ⟨hpos, hcov⟩ k
    refine ⟨(hcached k).1.conserved_iff.mpr (hcov k), (hcached k).1.servesNew (hcov k) ?_⟩
    rw [(hcached k).2]
    exact hpos

/-- Fetching a page the file does not have loses the only frame, and the pool hands out no page again,
with nothing pinned. -/
theorem frames_not_conserved_fetch :
    ¬ ∀ k, ((Session.start 1 DataFile.empty none).afterAll
      ([PoolOp.fetchPage 0].take k)).FramesKept := by
  intro hall
  obtain ⟨g, bp', hok⟩ := (hall 1).2 fun f _ => rfl
  cases hok

end Reldb
