import Reldb.Pool.Conserve
import Reldb.Lib.Recency

/-!
# Reldb — which page is evicted

The LRU list against the whole history of accesses: between calls it lists the cached pages in the order in
which they were last fetched or created (`Session.Recent`), so that a page evicted is the one of those no
guard holds whose last access is the oldest.

Step lemma: `PoolOp.run_recent`. Run lemma: `runAll_recent`.
-/

namespace Reldb

open Recency

namespace BufferPool

/-- Every frame caches a page: none is left that was never used. -/
def Full (bp : BufferPool) : Prop := ∀ f < bp.poolSize, ∃ pageId, bp.pageTable pageId = some f

/-- The pages cached, and the order in which they were accessed, are left alone. -/
structure SameLists (bp bp' : BufferPool) : Prop where
  pageTable_eq : bp'.pageTable = bp.pageTable
  lruList_eq : bp'.lruList = bp.lruList

section

variable {bp bp' bp'' : BufferPool} {live : List PageGuard} {f : FrameId}

theorem SameLists.refl (bp : BufferPool) : SameLists bp bp := ⟨rfl, rfl⟩

theorem SameLists.trans (h : SameLists bp bp') (h' : SameLists bp' bp'') : SameLists bp bp'' :=
  ⟨h'.pageTable_eq.trans h.pageTable_eq, h'.lruList_eq.trans h.lruList_eq⟩

theorem unpinPage_lists (bp : BufferPool) (pageId : PageId) (isDirty : Bool) :
    SameLists bp (bp.unpinPage pageId isDirty) := by
  unfold BufferPool.unpinPage
  cases bp.pageTable pageId with
  | none => exact .refl bp
  | some f =>
    cases isDirty with
    | false => exact ⟨rfl, rfl⟩
    | true =>
      cases hw : bp.wal with
      | none => simp only [if_true, BufferPool.logFrame, setFrame, hw]; exact ⟨rfl, rfl⟩
      | some w => simp only [if_true, BufferPool.logFrame, setFrame, hw]; exact ⟨rfl, rfl⟩

theorem flushEntry_lists (bp : BufferPool) (f : FrameId) : SameLists bp (bp.flushEntry f) := by
  unfold BufferPool.flushEntry
  split
  · exact .refl bp
  · split
    · exact ⟨rfl, rfl⟩
    · exact .refl bp

theorem foldl_flushEntry_lists (fs : List FrameId) (bp : BufferPool) :
    SameLists bp (fs.foldl BufferPool.flushEntry bp) := by
  induction fs generalizing bp with
  | nil => exact .refl bp
  | cons f fs ih => exact (flushEntry_lists bp f).trans (ih _)

theorem Cached.full_iff (h : Cached bp live) (hc : bp.Covered) : bp.Full ↔ bp.freeList = [] := by
  constructor
  · intro hfull
    refine List.eq_nil_iff_forall_not_mem.mpr fun f hf => h.free_notMem f hf ?_
    exact h.lru_iff.mpr (hfull f (h.free_lt f hf))
  · intro hnil f hf
    rcases hc f hf with hfree | hlru
    · rw [hnil] at hfree
      cases hfree
    · exact h.lru_iff.mp hlru

/-- Where a frame for a page comes from: the free list, or the page evicted for it. -/
theorem Cached.findVictimFrame_cases (h : Cached bp live) (hv : bp.findVictimFrame = (some f, bp')) :
    (f ∈ bp.freeList ∧ SameLists bp bp') ∨ ∃ victim, bp.freeList = [] ∧ bp.lruVictim = some f ∧
      bp.pageTable victim = some f ∧
      bp'.pageTable = Function.update bp.pageTable victim none ∧ bp'.lruList = bp.lruList.erase f := by
  unfold BufferPool.findVictimFrame at hv
  cases hl : bp.freeList with
  | cons f' rest =>
    simp only [hl, Prod.mk.injEq, Option.some.injEq] at hv
    obtain ⟨rfl, rfl⟩ := hv
    exact .inl ⟨List.mem_cons_self, rfl, rfl⟩
  | nil =>
    simp only [hl] at hv
    cases hvictim : bp.lruVictim with
    | none =>
      rw [hvictim] at hv
      cases hv
    | some f' =>
      simp only [hvictim, Prod.mk.injEq, Option.some.injEq] at hv
      obtain ⟨rfl, rfl⟩ := hv
      have hmem : f' ∈ bp.lruList := List.mem_reverse.mp (List.mem_of_find?_eq_some hvictim)
      obtain ⟨victim, ht⟩ := h.lru_iff.mp hmem
      refine .inr ⟨victim, rfl, rfl, ht, ?_⟩
      by_cases hd : (bp.frames f').dirty = true
      · simp only [BufferPool.evict, removeFromLRU, h.table_frame ht, hd, if_true]
        exact ⟨rfl, rfl⟩
      · simp only [BufferPool.evict, removeFromLRU, h.table_frame ht, hd]
        exact ⟨rfl, rfl⟩

/-- Taking a frame keeps the order. -/
theorem Cached.findVictimFrame_ordered (h : Cached bp live) {history : List PageId}
    (hord : Ordered bp.pageTable history bp.lruList) (hv : bp.findVictimFrame = (some f, bp')) :
    Ordered bp'.pageTable history bp'.lruList := by
  rcases h.findVictimFrame_cases hv with ⟨-, hsame⟩ | ⟨victim, -, -, -, htable, hlru⟩
  · rw [hsame.pageTable_eq, hsame.lruList_eq]
    exact hord
  · rw [htable, hlru]
    refine hord.mono List.erase_sublist fun p f' hp => ?_
    by_cases hpv : p = victim
    · rw [hpv, Function.update_self] at hp
      cases hp
    · rwa [Function.update_of_ne hpv] at hp

end

end BufferPool

open BufferPool

/-! ## Sessions -/

/-- The page the operation accesses: the one fetched, or the one created. -/
def PoolOp.accesses : PoolOp → Session → List PageId
  | .newPage, s =>
    match BufferPool.newPage s.pool with
    | .ok (some g) _ => [g.pageId]
    | _ => []
  | .fetchPage pageId, _ => [pageId]
  | _, _ => []

/-- The pages accessed by a sequence of uses, the latest first. -/
def Session.history : List PoolOp → Session → List PageId
  | [], _ => []
  | op :: ops, s => Session.history ops (op.after s) ++ op.accesses s

/-- The operation has to bring a page into the pool. -/
def PoolOp.NeedsFrame (op : PoolOp) (s : Session) : Prop :=
  match op with
  | .newPage => True
  | .fetchPage pageId => s.pool.pageTable pageId = none
  | _ => False

namespace Session

/-- The page is cached, in a frame with no live guard. -/
def Idle (s : Session) (pageId : PageId) : Prop :=
  ∃ f, s.pool.pageTable pageId = some f ∧ ∀ g ∈ s.live, g.frame ≠ f

/-- The page was cached and is no longer. -/
def Evicts (s s' : Session) (pageId : PageId) : Prop :=
  s.pool.pageTable pageId ≠ none ∧ s'.pool.pageTable pageId = none

/-- The page is the least recently used one, evicted for good reason and safely. -/
structure LeastRecent (history : List PageId) (s s' : Session) (victim : PageId) : Prop where
  full : s.pool.Full
  idle : s.Idle victim
  accessed : victim ∈ history
  oldest : ∀ pageId, s.Idle pageId → pageId ≠ victim → age history pageId < age history victim
  /-- Its bytes are in the file, under the checksum `WritePage` computes. -/
  onDisk : ∃ f page, s.pool.pageTable victim = some f ∧ s'.pool.disk.readPage victim = .ok page ∧
    page.unsummed = (s.pool.frames f).page.unsummed

/-- What a step evicts. -/
structure EvictsLeastRecent (history : List PageId) (op : PoolOp) (s s' : Session) : Prop where
  leastRecent : ∀ victim, s.Evicts s' victim → op.NeedsFrame s ∧ LeastRecent history s s' victim
  evicts : op.NeedsFrame s → s.pool.Full → (∃ pageId, s.Idle pageId) → ∃ victim, s.Evicts s' victim

/-- The LRU list tells the order in which the cached pages were last accessed. -/
structure Recent (history : List PageId) (s : Session) : Prop where
  good : s.Good
  ordered : Ordered s.pool.pageTable history s.pool.lruList

end Session

section

variable {history : List PageId} {op : PoolOp} {s s' : Session}

/-- A step that accesses no page and leaves the lists alone. -/
theorem Session.Recent.quiet (h : s.Recent history) (hgood : s'.Good)
    (hsame : SameLists s.pool s'.pool) (hop : op.accesses s = []) (hneed : ¬ op.NeedsFrame s) :
    s'.Recent (op.accesses s ++ history) ∧ s.EvictsLeastRecent history op s' := by
  refine ⟨⟨hgood, ?_⟩, fun victim hev => ?_, fun hop => absurd hop hneed⟩
  · rw [hop, List.nil_append, hsame.pageTable_eq, hsame.lruList_eq]
    exact h.ordered
  · obtain ⟨hcached, hgone⟩ := hev
    rw [hsame.pageTable_eq] at hgone
    exact absurd hgone hcached

/-- No guard is on a frame whose pin count is zero. -/
theorem Session.idle_iff (h : s.Good) {pageId : PageId} {f : FrameId}
    (ht : s.pool.pageTable pageId = some f) :
    s.Idle pageId ↔ ((s.pool.frames f).pinCount == 0) = true := by
  have hcount : ((s.pool.frames f).pinCount == 0) = true ↔ f ∉ pinned s.live := by
    rw [beq_iff_eq, h.cached.pins f]
    exact List.count_eq_zero
  rw [hcount, List.mem_map, not_exists]
  constructor
  · rintro ⟨f', ht', hfree⟩ g ⟨hg, heq⟩
    exact hfree g hg (heq.trans (Option.some.inj (ht.symm.trans ht')))
  · exact fun hfree => ⟨f, ht, fun g hg heq => hfree g ⟨hg, heq⟩⟩

/-- A step that finds every frame pinned. -/
theorem Session.Recent.refused (h : s.Recent history) {pageId : PageId}
    (hex : Exhausted s.pool s.live) (hidle : s.Idle pageId) : False := by
  obtain ⟨f, ht, hfree⟩ := hidle
  obtain ⟨g, hg, heq⟩ := List.mem_map.mp (hex.2 f (h.good.cached.lru_iff.mpr ⟨pageId, ht⟩))
  exact hfree g hg heq

/-- **A step that brings a page into the pool**, in a frame taken for it. -/
theorem Session.Recent.brings (h : s.Recent history) {pageId : PageId} {f : FrameId} {bp : BufferPool}
    (hv : s.pool.findVictimFrame = (some f, bp)) (hnone : s.pool.pageTable pageId = none)
    (hgood : s'.Good) (htable : s'.pool.pageTable = Function.update bp.pageTable pageId (some f))
    (hlru : s'.pool.lruList = f :: bp.lruList.erase f)
    (hbytes : ∀ q, q ≠ pageId → s'.pool.bytes q = s.pool.bytes q) (hop : op.accesses s = [pageId])
    (hneed : op.NeedsFrame s) :
    s'.Recent (op.accesses s ++ history) ∧ s.EvictsLeastRecent history op s' := by
  have hcached := h.good.cached
  obtain ⟨f', bp', hv', htook⟩ : ∃ f bp', s.pool.findVictimFrame = (some f, bp') ∧
      Took s.pool bp' s.live f := by
    rcases hcached.findVictimFrame with htook | ⟨hno, -⟩
    · exact htook
    · rw [hv] at hno
      cases hno
  rw [hv] at hv'
  obtain ⟨rfl, rfl⟩ : f = f' ∧ bp = bp' := by
    rw [Prod.mk.injEq, Option.some.injEq] at hv'
    exact hv'
  refine ⟨⟨hgood, ?_⟩, fun victim hev => ⟨hneed, ?_⟩, fun _ hfull _ => ?_⟩
  · rw [hop, htable, hlru]
    refine (hcached.findVictimFrame_ordered h.ordered hv).access htook.cached.lru_nodup ?_
    exact fun q _ hq => htook.notMem_lru (htook.cached.lru_iff.mpr ⟨q, hq⟩)
  · obtain ⟨hwas, hgone⟩ := hev
    have hne : victim ≠ pageId := by
      rintro rfl
      exact hwas hnone
    have hleft : bp.pageTable victim = none := by
      rwa [htable, Function.update_of_ne hne] at hgone
    rcases hcached.findVictimFrame_cases hv with ⟨-, hsame⟩ | ⟨v, hempty, hlast, ht, hbp, -⟩
    · rw [hsame.pageTable_eq] at hleft
      exact absurd hleft hwas
    obtain rfl : victim = v := by
      by_contra hv
      rw [hbp, Function.update_of_ne hv] at hleft
      exact hwas hleft
    have hpin := List.find?_some hlast
    refine ⟨(hcached.full_iff h.good.covered).mpr hempty,
      (Session.idle_iff h.good ht).mpr hpin, h.ordered.accessed _ _ ht,
      fun q hq hqv => ?_, ?_⟩
    · obtain ⟨f', ht', -⟩ := id hq
      refine h.ordered.oldest hlast (hcached.lru_iff.mpr ⟨q, ht'⟩)
        ((Session.idle_iff h.good ht').mp hq) ?_ ht ht'
      rintro rfl
      exact hqv (hcached.table_inj ht' ht)
    · have hread := hbytes victim hne
      rw [bytes, bytes, current_of_notCached hgone, current_of_table ht] at hread
      obtain ⟨page, hpage, heq⟩ := Option.map_eq_some_iff.mp hread
      exact ⟨f, page, ht, DiskManager.readPage_iff.mpr hpage, heq⟩
  · have hempty := (hcached.full_iff h.good.covered).mp hfull
    rcases hcached.findVictimFrame_cases hv with ⟨hfree, -⟩ | ⟨v, -, -, ht, hbp, -⟩
    · rw [hempty] at hfree
      cases hfree
    · refine ⟨v, by rw [ht]; exact Option.some_ne_none f, ?_⟩
      have hne : v ≠ pageId := by
        rintro rfl
        rw [ht] at hnone
        cases hnone
      rw [htable, Function.update_of_ne hne, hbp, Function.update_self]

theorem Session.Recent.newPage (h : s.Recent history) (hrun : PoolOp.newPage.run s = .ok () s') :
    s'.Recent (PoolOp.newPage.accesses s ++ history) ∧ s.EvictsLeastRecent history .newPage s' := by
  have hgood := PoolOp.run_good h.good hrun
  rcases h.good.cached.findVictimFrame with ⟨f, bp, hv, htook⟩ | ⟨hv, hex⟩
  · have hnext : bp.disk.nextPageId = s.pool.next := htook.next_eq
    have hnone := (h.good.cached.current_next (le_refl s.pool.next)).1
    rcases h.good.cached.newPage with ⟨f', bp', hok, -, -, -, -, -, hbytes⟩ | ⟨hno, -⟩
    · have hinstall := hok
      simp only [BufferPool.newPage, hv, DiskManager.allocatePage, hnext, EStateM.Result.ok.injEq,
        Option.some.injEq, PageGuard.mk.injEq, true_and] at hinstall
      obtain ⟨rfl, rfl⟩ := hinstall
      simp only [PoolOp.run, hok, EStateM.Result.ok.injEq, true_and] at hrun
      subst hrun
      refine h.brings hv hnone hgood rfl rfl (fun q hq => ?_) (by simp only [PoolOp.accesses, hok]) trivial
      exact (congrFun hbytes q).trans (Function.update_of_ne hq _ _)
    · simp only [BufferPool.newPage, hv] at hno
      cases hno
  · have hok : BufferPool.newPage s.pool = .ok none s.pool := by simp only [BufferPool.newPage, hv]
    simp only [PoolOp.run, hok, EStateM.Result.ok.injEq, true_and] at hrun
    subst hrun
    refine ⟨⟨hgood, by simp only [PoolOp.accesses, hok]; exact h.ordered⟩, fun victim hev => ?_,
      fun _ _ hidle => ?_⟩
    · exact absurd hev.2 hev.1
    · obtain ⟨pageId, hidle⟩ := hidle
      exact (h.refused hex hidle).elim

theorem Session.Recent.fetchPage (h : s.Recent history) {pageId : PageId}
    (hrun : (PoolOp.fetchPage pageId).run s = .ok () s') :
    s'.Recent ((PoolOp.fetchPage pageId).accesses s ++ history) ∧
      s.EvictsLeastRecent history (.fetchPage pageId) s' := by
  have hgood := PoolOp.run_good h.good hrun
  cases ht : s.pool.pageTable pageId with
  | some f =>
    -- a hit: the frame moves to the front
    simp only [PoolOp.run, BufferPool.fetchPage, ht, EStateM.Result.ok.injEq, true_and] at hrun
    subst hrun
    refine ⟨⟨hgood, ?_⟩, fun victim hev => absurd hev.2 hev.1, fun hneed => ?_⟩
    · have haccess := h.ordered.access (k := pageId) h.good.cached.lru_nodup (s := f) ?_
      · rwa [← ht, Function.update_eq_self] at haccess
      · exact fun q hq htq => hq (h.good.cached.table_inj htq ht)
    · rw [PoolOp.NeedsFrame, ht] at hneed
      cases hneed
  | none =>
    rcases h.good.cached.findVictimFrame with ⟨f, bp, hv, htook⟩ | ⟨hv, hex⟩
    · cases hr : bp.disk.readPage pageId with
      | error e =>
        simp only [PoolOp.run, BufferPool.fetchPage, ht, hv, hr] at hrun
        cases hrun
      | ok page =>
        have hok : BufferPool.fetchPage pageId s.pool = .ok (some ⟨pageId, f⟩) (bp.install pageId f
            { page, pageId := some pageId, pinCount := 1, dirty := false }) := by
          simp only [BufferPool.fetchPage, ht, hv, hr]
        simp only [PoolOp.run, hok, EStateM.Result.ok.injEq, true_and] at hrun
        subst hrun
        refine h.brings hv ht hgood rfl rfl (fun q _ => ?_) rfl ht
        rcases h.good.cached.fetchPage pageId with ⟨g, bp', hok', -, -, -, -, -, hbytes⟩ | ⟨hno, -⟩ |
          ⟨e, bp', hno, -⟩
        · rw [hok] at hok'
          cases hok'
          exact congrFun hbytes q
        · rw [hok] at hno
          cases hno
        · rw [hok] at hno
          cases hno
    · have hok : BufferPool.fetchPage pageId s.pool = .ok none s.pool := by
        simp only [BufferPool.fetchPage, ht, hv]
      simp only [PoolOp.run, hok, EStateM.Result.ok.injEq, true_and] at hrun
      subst hrun
      refine ⟨⟨hgood, h.ordered.miss ht⟩, fun victim hev => absurd hev.2 hev.1, fun _ _ hidle => ?_⟩
      obtain ⟨q, hidle⟩ := hidle
      exact (h.refused hex hidle).elim

theorem Session.releaseGuard_lists (g : Option PageGuard) (bp : BufferPool) :
    SameLists bp (Session.releaseGuard g bp) := by
  cases g with
  | none => exact .refl bp
  | some g => exact unpinPage_lists bp _ _

/-- **Step lemma.** -/
theorem PoolOp.run_recent (h : s.Recent history) (hrun : op.run s = .ok () s') :
    s'.Recent (op.accesses s ++ history) ∧ s.EvictsLeastRecent history op s' := by
  have hgood := op.run_good h.good hrun
  cases op with
  | newPage => exact h.newPage hrun
  | fetchPage pageId => exact h.fetchPage hrun
  | mutate i page =>
    refine h.quiet hgood ?_ rfl id
    rcases hg : s.guards[i]? with _ | _ | g
    · simp only [PoolOp.run, hg] at hrun
      cases hrun
    · simp only [PoolOp.run, hg] at hrun
      cases hrun
    · obtain ⟨bp', hok, -, hset, -⟩ := Session.store_good h.good.cached (Session.mem_live hg) page
      simp only [PoolOp.run, hg, hok, EStateM.Result.ok.injEq, true_and] at hrun
      subst hrun
      exact hset ▸ ⟨rfl, rfl⟩
  | move i j =>
    refine h.quiet hgood ?_ rfl id
    rcases hi : s.guards[i]? with _ | g
    · simp only [PoolOp.run, hi] at hrun
      cases hrun
    rcases hj : s.guards[j]? with _ | old
    · simp only [PoolOp.run, hi, hj] at hrun
      cases hrun
    by_cases hij : i = j
    · simp only [PoolOp.run, hi, hj, if_pos hij, EStateM.Result.ok.injEq, true_and] at hrun
      exact hrun ▸ .refl _
    · simp only [PoolOp.run, hi, hj, if_neg hij, EStateM.Result.ok.injEq, true_and] at hrun
      subst hrun
      exact Session.releaseGuard_lists old s.pool
  | release i =>
    refine h.quiet hgood ?_ rfl id
    rcases hi : s.guards[i]? with _ | g
    · simp only [PoolOp.run, hi] at hrun
      cases hrun
    · simp only [PoolOp.run, hi, EStateM.Result.ok.injEq, true_and] at hrun
      subst hrun
      exact Session.releaseGuard_lists g s.pool
  | flushPage pageId =>
    refine h.quiet hgood ?_ rfl id
    cases ht : s.pool.pageTable pageId with
    | none =>
      simp only [PoolOp.run, BufferPool.flushPage, ht, EStateM.Result.ok.injEq, true_and] at hrun
      exact hrun ▸ .refl _
    | some f =>
      simp only [PoolOp.run, BufferPool.flushPage, ht, EStateM.Result.ok.injEq, true_and] at hrun
      subst hrun
      exact ⟨rfl, rfl⟩
  | flushAll =>
    refine h.quiet hgood ?_ rfl id
    simp only [PoolOp.run, BufferPool.flushAll, EStateM.Result.ok.injEq, true_and] at hrun
    subst hrun
    exact foldl_flushEntry_lists _ _

/-- **Run lemma.** -/
theorem runAll_recent {ops : List PoolOp} (h : s.Recent history) (hrun : runAll ops s = .ok () s') :
    s'.Recent (Session.history ops s ++ history) := by
  induction ops generalizing s history with
  | nil =>
    simp only [runAll, Prog.pure_run, EStateM.Result.ok.injEq, true_and] at hrun
    exact hrun ▸ h
  | cons op ops ih =>
    cases hop : op.run s with
    | ok _ s₁ =>
      rw [runAll, Prog.bind_ok hop] at hrun
      have hafter : op.after s = s₁ := by rw [PoolOp.after, hop]
      rw [Session.history, hafter, List.append_assoc]
      exact ih (op.run_recent h hop).1 hrun
    | error e s₁ =>
      rw [runAll, Prog.bind_error hop] at hrun
      cases hrun

end

/-- Nothing is cached before the first access. -/
theorem Session.start_recent (poolSize : Nat) (file : DataFile) (wal : Option WalManager) :
    (Session.start poolSize file wal).Recent [] :=
  ⟨Session.start_good poolSize file wal, fun _ _ hk => (by cases hk), .nil⟩

/-- **Eviction is least recently used**, among the pages no guard holds, in every step of every run whose
disk operations succeed: a page that has to come in evicts such a page if all frames are in use and there
is one, and nothing else evicts any. -/
theorem evicts_least_recent {poolSize : Nat} {file : DataFile} {wal : Option WalManager}
    {ops : List PoolOp} {op : PoolOp} {s s' : Session}
    (hrun : runAll ops (Session.start poolSize file wal) = .ok () s) (hop : op.run s = .ok () s') :
    s.EvictsLeastRecent (Session.history ops (Session.start poolSize file wal)) op s' := by
  have hrecent := runAll_recent (Session.start_recent poolSize file wal) hrun
  rw [List.append_nil] at hrecent
  exact (op.run_recent hrecent hop).2

/-- Two pages are created and released, and the first fetched again. -/
def refetched : List PoolOp :=
  [.newPage, .release 0, .newPage, .release 1, .fetchPage 0, .release 2]

/-- With two frames, a third page then takes the second one's. -/
theorem evicts_least_recent_refetched :
    ∃ s s', runAll refetched (Session.start 2 DataFile.empty none) = .ok () s ∧
      PoolOp.newPage.run s = .ok () s' ∧ s.Evicts s' 1 ∧
      s.EvictsLeastRecent (Session.history refetched (Session.start 2 DataFile.empty none)) .newPage
        s' := by
  have hok : Prog.Returns (fun _ s => Prog.Returns (fun _ s' =>
      decide (s.pool.pageTable 1 ≠ none) && decide (s'.pool.pageTable 1 = none))
        (PoolOp.newPage.run s))
      (runAll refetched (Session.start 2 DataFile.empty none)) = true := by decide +kernel
  obtain ⟨_, s, hrun, hok⟩ := Prog.Returns.ok hok
  obtain ⟨_, s', hop, hok⟩ := Prog.Returns.ok hok
  rw [Bool.and_eq_true, decide_eq_true_eq, decide_eq_true_eq] at hok
  exact ⟨s, s', hrun, hop, hok, evicts_least_recent hrun hop⟩

end Reldb
