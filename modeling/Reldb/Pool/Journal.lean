import Reldb.Pool.Guards

/-!
# Reldb — log before data, for every client of the pool

A pool with a log, from empty files, used in any way: the images written to the data file are images
logged before, and a page no guard holds is in the log as it stands. Flushing is the exception: it
writes a page without logging it and clears the dirty flag the next release would have logged by. So
the two hold as long as no page is flushed between a change and the release that logs it
(`PoolOp.Disciplined`).

Invariant: `BufferPool.Logged`. Step lemma: `PoolOp.attempt_logged`. Run lemma:
`Disciplined.logged`.
-/

namespace Reldb

/-- The latest record of a page. -/
def WalManager.latest (w : WalManager) (pageId : PageId) : Option RecoveredPage :=
  w.validRecords.reverse.find? fun r => r.pageId == pageId

/-- Every page image written was logged before, for its page, up to the checksum. -/
def LoggedFirst (io : List IoEvent) : Prop :=
  ∀ (k : Nat) (pageId : PageId) (page : Page), io[k]? = some (.writePage pageId page) →
    ∃ j < k, ∃ r : WalRecord, io[j]? = some (.appendRecord r) ∧ r.pageId = pageId ∧
      r.page.unsummed = page.unsummed

/-- One more use of the pool by a client that survives an exception. -/
def PoolOp.attempt (op : PoolOp) (s : Session) : Session :=
  match op.run s with
  | .ok _ s => s
  | .error _ s => s

namespace PoolOp

/-- The pages created, or mutated through a guard, since the last release of a guard on them: how
one use of the pool changes them. -/
def unreleased (op : PoolOp) (s : Session) (pages : List PageId) : List PageId :=
  match op with
  | .newPage =>
    match BufferPool.newPage s.pool with
    | .ok (some g) _ => g.pageId :: pages
    | _ => pages
  | .mutate i _ =>
    match s.guards[i]? with
    | some (some g) => g.pageId :: pages
    | _ => pages
  | .move i j =>
    match s.guards[i]?, s.guards[j]? with
    | some _, some (some old) => if i = j then pages else pages.filter (· ≠ old.pageId)
    | _, _ => pages
  | .release i =>
    match s.guards[i]? with
    | some (some g) => pages.filter (· ≠ g.pageId)
    | _ => pages
  | _ => pages

/-- Nothing is flushed that was created or mutated since the last release of a guard on it. -/
def Disciplined (pages : List PageId) : PoolOp → Prop
  | .flushPage pageId => pageId ∉ pages
  | .flushAll => pages = []
  | _ => True

end PoolOp

/-- The sessions a client reaches from empty files through disciplined uses, some possibly throwing,
with the pages created or mutated since they were last released. -/
inductive Disciplined (poolSize : Nat) : Session → List PageId → Prop where
  | start : Disciplined poolSize
      (Session.start poolSize DataFile.empty (some (WalManager.new WalFile.empty))) []
  | step {s : Session} {pages : List PageId} (h : Disciplined poolSize s pages) (op : PoolOp)
      (hop : op.Disciplined pages) :
      Disciplined poolSize (op.attempt s) (op.unreleased s pages)

/-! ## The order of the writes -/

theorem LoggedFirst.snoc {io : List IoEvent} (h : LoggedFirst io) (e : IoEvent)
    (he : ∀ pageId page, e = .writePage pageId page → ∃ r, .appendRecord r ∈ io ∧
      r.pageId = pageId ∧ r.page.unsummed = page.unsummed) : LoggedFirst (io ++ [e]) := by
  intro k pageId page hk
  rcases Nat.lt_trichotomy k io.length with hlt | rfl | hgt
  · rw [List.getElem?_append_left hlt] at hk
    obtain ⟨j, hj, r, hr, hrest⟩ := h k pageId page hk
    exact ⟨j, hj, r, by rw [List.getElem?_append_left (by omega), hr], hrest⟩
  · rw [List.getElem?_concat_length] at hk
    obtain ⟨r, hr, hrest⟩ := he pageId page (Option.some.inj hk)
    obtain ⟨j, hj, hget⟩ := List.mem_iff_getElem.mp hr
    exact ⟨j, hj, r, by rw [List.getElem?_append_left hj, List.getElem?_eq_getElem hj, hget], hrest⟩
  · rw [List.getElem?_eq_none (by simp; omega)] at hk
    cases hk

/-- Several page writes in a row, each of an image logged before all of them. -/
theorem LoggedFirst.writes {io : List IoEvent} (h : LoggedFirst io) (W : List (PageId × Page))
    (hW : ∀ w ∈ W, ∃ r, .appendRecord r ∈ io ∧ r.pageId = w.1 ∧ r.page.unsummed = w.2.unsummed) :
    LoggedFirst (io ++ W.map fun w => .writePage w.1 w.2) := by
  induction W generalizing io with
  | nil => rw [List.map_nil, List.append_nil]; exact h
  | cons w W ih =>
    rw [List.map_cons, List.append_cons]
    refine ih (h.snoc _ fun pageId page heq => ?_) fun w' hw' => ?_
    · cases heq
      exact hW w List.mem_cons_self
    · obtain ⟨r, hr, hrest⟩ := hW w' (List.mem_cons_of_mem _ hw')
      exact ⟨r, List.mem_append_left _ hr, hrest⟩

/-! ## The invariant -/

/-- The record a write stands for. -/
def IoEvent.recovered? : IoEvent → Option RecoveredPage
  | .writePage .. => none
  | .appendRecord r => some r.recovered

namespace BufferPool

/-- The part of the invariant about the two files and the history of the writes to them. -/
structure Journal (bp : BufferPool) (w : WalManager) : Prop where
  wal_eq : bp.wal = some w
  good : w.Good
  files_eq : Files.empty.replay bp.io = bp.files
  records_eq : w.validRecords = bp.io.filterMap IoEvent.recovered?
  first : LoggedFirst bp.io

/-- What one use of the pool keeps: outside the pages awaiting a release, the latest record of a page
is the page; a page that awaits one is held by a guard, and dirty. -/
structure Logged (bp : BufferPool) (live : List PageGuard) (pages : List PageId) (w : WalManager) :
    Prop where
  cached : Cached bp live
  journal : Journal bp w
  synced : ∀ p ∉ pages, bp.bytes p = (w.latest p).map fun r => r.page.unsummed
  held : ∀ p ∈ pages, ∃ g ∈ live, g.pageId = p ∧ (bp.frames g.frame).dirty = true
  exist : ∀ p < bp.next, (bp.bytes p).isSome

variable {bp bp' : BufferPool} {w : WalManager} {live : List PageGuard} {pages : List PageId}

/-- The latest record of a page in the log was appended by some write. -/
theorem Journal.appended (h : Journal bp w) {p : PageId} {page : Page}
    (hp : (w.latest p).map (fun r => r.page.unsummed) = some page.unsummed) :
    ∃ r, .appendRecord r ∈ bp.io ∧ r.pageId = p ∧ r.page.unsummed = page.unsummed := by
  obtain ⟨rec, hrec, hpage⟩ := Option.map_eq_some_iff.mp hp
  have hmem : rec ∈ w.validRecords := List.mem_reverse.mp (List.mem_of_find?_eq_some hrec)
  have hid : rec.pageId = p := by simpa using List.find?_some hrec
  rw [h.records_eq] at hmem
  obtain ⟨e, he, hev⟩ := List.mem_filterMap.mp hmem
  cases e with
  | writePage => cases hev
  | appendRecord r =>
    cases hev
    exact ⟨r, he, hid, hpage⟩

/-- Page writes that follow their records keep the journal. -/
theorem Journal.writes (h : Journal bp w) (W : List (PageId × Page)) (hwal : bp'.wal = bp.wal)
    (hio : bp'.io = bp.io ++ W.map fun w => .writePage w.1 w.2)
    (hfile : bp'.disk.file = W.foldl (fun file w => file.write w.1 w.2) bp.disk.file)
    (hW : ∀ v ∈ W, (w.latest v.1).map (fun r => r.page.unsummed) = some v.2.unsummed) :
    Journal bp' w where
  wal_eq := hwal.trans h.wal_eq
  good := h.good
  files_eq := by
    have hreplay : ∀ (W : List (PageId × Page)) (fs : Files),
        (W.map fun w => IoEvent.writePage w.1 w.2).foldl Files.apply fs
          = { fs with data := W.foldl (fun file w => file.write w.1 w.2) fs.data } := by
      intro W
      induction W with
      | nil => intro fs; rfl
      | cons v W ih => intro fs; exact ih _
    rw [hio, show Files.empty.replay (bp.io ++ _) = List.foldl _ (Files.empty.replay bp.io) _ from
      List.foldl_append, h.files_eq, hreplay, files, files, hwal, hfile]
  records_eq := by
    have hnone : (W.map fun w => IoEvent.writePage w.1 w.2).filterMap IoEvent.recovered? = [] := by
      rw [List.filterMap_map]
      exact List.filterMap_eq_nil_iff.mpr fun _ _ => rfl
    rw [hio, List.filterMap_append, hnone, List.append_nil]
    exact h.records_eq
  first := hio ▸ h.first.writes W fun v hv => h.appended (hW v hv)

/-- So does appending a record. -/
theorem Journal.append (h : Journal bp w) (pageId : PageId) (page : Page)
    (hwal : bp'.wal = some (w.appendRecord pageId page))
    (hio : bp'.io = bp.io ++ [.appendRecord (w.nextRecord pageId page)])
    (hdisk : bp'.disk = bp.disk) : Journal bp' (w.appendRecord pageId page) where
  wal_eq := hwal
  good := h.good.appendRecord pageId page
  files_eq := by
    rw [hio, show Files.empty.replay (bp.io ++ _) = List.foldl _ (Files.empty.replay bp.io) _ from
      List.foldl_append, h.files_eq]
    simp only [List.foldl_cons, List.foldl_nil, Files.apply, files, h.wal_eq, hwal, hdisk]
    rfl
  records_eq := by
    rw [hio, List.filterMap_append, ← h.records_eq]
    rfl
  first := hio ▸ h.first.snoc _ fun _ _ heq => by cases heq

theorem latest_appendRecord (w : WalManager) (pageId : PageId) (page : Page) (p : PageId) :
    ((w.appendRecord pageId page).latest p).map (fun r => r.page.unsummed)
      = Function.update (fun p => (w.latest p).map fun r => r.page.unsummed) pageId
          (some (w.stamped page).unsummed) p := by
  have hrev : (w.appendRecord pageId page).validRecords.reverse
      = (w.nextRecord pageId page).recovered :: w.validRecords.reverse := by
    simp only [WalManager.appendRecord, List.reverse_append, List.reverse_singleton,
      List.singleton_append]
  by_cases hp : p = pageId
  · subst hp
    rw [Function.update_self, WalManager.latest, hrev, List.find?_cons_of_pos]
    · rfl
    · exact beq_self_eq_true p
  · rw [Function.update_of_ne hp, WalManager.latest, hrev, List.find?_cons_of_neg]
    · rfl
    · simpa [WalManager.nextRecord, WalRecord.of, WalRecord.recovered] using Ne.symm hp

/-! ## Step by step -/

theorem Logged.perm (h : Logged bp live pages w) {live' : List PageGuard}
    (hperm : live.Perm live') : Logged bp live' pages w :=
  { h with
    cached := h.cached.perm hperm
    held := fun p hp => by
      obtain ⟨g, hg, hrest⟩ := h.held p hp
      exact ⟨g, hperm.mem_iff.mp hg, hrest⟩ }

/-- The page an eviction writes back has no guard, so it is logged as it stands. -/
theorem Logged.served (h : Logged bp live pages w) (hs : Served bp bp' live) : Journal bp' w := by
  rcases hs.io_eq with ⟨hio, hfile⟩ | ⟨q, page, hio, hfile, hfree, hbytes⟩
  · exact h.journal.writes [] hs.wal_eq (by rw [hio, List.map_nil, List.append_nil]) hfile
      fun _ hv => by cases hv
  · have hq : q ∉ pages := fun hmem => by
      obtain ⟨g, hg, hpage, -⟩ := h.held q hmem
      exact hfree g hg hpage
    refine h.journal.writes [(q, page)] hs.wal_eq hio hfile fun v hv => ?_
    rw [List.mem_singleton.mp hv, ← h.synced q hq, hbytes]

/-- What is asked of the pool and changes no page keeps the invariant. -/
theorem Logged.unchanged (h : Logged bp live pages w) {live' : List PageGuard}
    (hc : Cached bp' live') (hsub : live ⊆ live') (hs : Served bp bp' live)
    (hnext : bp'.next = bp.next) (hbytes : bp'.bytes = bp.bytes) : Logged bp' live' pages w where
  cached := hc
  journal := h.served hs
  synced p hp := by rw [hbytes, h.synced p hp]
  held p hp := by
    obtain ⟨g, hg, hpage, hd⟩ := h.held p hp
    exact ⟨g, hsub hg, hpage, (hs.dirty_eq g hg).trans hd⟩
  exist p hp := by rw [hbytes]; exact h.exist p (hnext ▸ hp)

/-- **A release settles its page**: from here on the log has it as it stands. -/
theorem Logged.release {g : PageGuard} (h : Logged bp (g :: live) pages w) :
    ∃ w', Logged (g.release bp) live (pages.filter (· ≠ g.pageId)) w' := by
  have hmem : ∀ {p}, p ∈ pages.filter (· ≠ g.pageId) ↔ p ∈ pages ∧ p ≠ g.pageId := by simp
  -- a page still awaiting a release is held by another guard
  have hheld : ∀ {bp'}, Released bp bp' → ∀ p ∈ pages.filter (· ≠ g.pageId),
      ∃ g' ∈ live, g'.pageId = p ∧ (bp'.frames g'.frame).dirty = true := by
    intro bp' hr p hp
    obtain ⟨g', hg', hpage, hd⟩ := h.held p (hmem.mp hp).1
    refine ⟨g', ?_, hpage, (hr.dirty_eq _).trans hd⟩
    rcases List.mem_cons.mp hg' with rfl | hg'
    · exact absurd hpage.symm (hmem.mp hp).2
    · exact hg'
  cases hd : (bp.frames g.frame).dirty with
  | true =>
    obtain ⟨hc, hrel, hwal, hio, hbytes⟩ := h.cached.release_logs hd h.journal.wal_eq
    refine ⟨_, hc, h.journal.append _ _ hwal hio hrel.disk_eq, fun p hp => ?_, hheld hrel,
      fun p hp => ?_⟩
    · rw [hbytes, latest_appendRecord]
      by_cases hpg : p = g.pageId
      · rw [hpg, Function.update_self, Function.update_self]
      · rw [Function.update_of_ne hpg, Function.update_of_ne hpg]
        exact h.synced p fun hin => hp (hmem.mpr ⟨hin, hpg⟩)
    · rw [hbytes]
      by_cases hpg : p = g.pageId
      · rw [hpg, Function.update_self]; rfl
      · rw [Function.update_of_ne hpg]
        exact h.exist p (lt_of_lt_of_eq hp (congrArg DiskManager.nextPageId hrel.disk_eq))
  | false =>
    obtain ⟨hc, hrel, hwal, hio, hbytes⟩ := h.cached.release_silent (.inl hd)
    -- a clean page awaits nothing
    have hclean : g.pageId ∉ pages := by
      intro hin
      obtain ⟨g', hg', hpage, hd'⟩ := h.held _ hin
      rw [(h.cached.same_frame_iff hg' List.mem_cons_self).mpr hpage, hd] at hd'
      cases hd'
    refine ⟨w, hc, ?_, fun p hp => ?_, hheld hrel, fun p hp => ?_⟩
    · exact h.journal.writes [] hwal (by rw [hio, List.map_nil, List.append_nil])
        (congrArg DiskManager.file hrel.disk_eq) fun _ hv => by cases hv
    · rw [hbytes]
      refine h.synced p fun hin => hp (hmem.mpr ⟨hin, ?_⟩)
      rintro rfl
      exact hclean hin
    · rw [hbytes]
      exact h.exist p (lt_of_lt_of_eq hp (congrArg DiskManager.nextPageId hrel.disk_eq))

/-- A flush of pages that await no release keeps the invariant. -/
theorem Logged.flushed (h : Logged bp live pages w) {W : List (PageId × Page)}
    (hc : Cached bp' live) (hfl : Flushed bp bp' W) (hW : ∀ v ∈ W, v.1 ∉ pages)
    (hdirty : ∀ p ∈ pages, ∃ g ∈ live, g.pageId = p ∧ (bp'.frames g.frame).dirty = true) :
    Logged bp' live pages w where
  cached := hc
  journal := h.journal.writes W hfl.wal_eq hfl.io_eq hfl.file_eq fun v hv => by
    rw [← h.synced v.1 (hW v hv), hfl.written_eq v hv]
  synced p hp := by rw [hfl.bytes_eq, h.synced p hp]
  held := hdirty
  exist p hp := by rw [hfl.bytes_eq]; exact h.exist p (hfl.next_eq ▸ hp)

end BufferPool

open BufferPool

/-- **Step lemma.** A disciplined use of the pool, throwing or not, keeps `BufferPool.Logged`. -/
theorem PoolOp.attempt_logged {op : PoolOp} {s : Session} {pages : List PageId} {w : WalManager}
    (h : Logged s.pool s.live pages w) (hop : op.Disciplined pages) :
    ∃ w', Logged (op.attempt s).pool (op.attempt s).live (op.unreleased s pages) w' := by
  cases op with
  | newPage =>
    rcases h.cached.newPage with ⟨f, bp', hok, hc, hs, -, hd, hnext, hbytes⟩ | ⟨hok, -⟩
    · simp only [attempt, PoolOp.run, unreleased, hok]
      refine ⟨w, Logged.perm ?_ (s.live_declare (some ⟨_, f⟩) bp')⟩
      refine ⟨hc, h.served hs, fun p hp => ?_, fun p hp => ?_, fun p hp => ?_⟩
      · obtain ⟨hne, hp⟩ := not_or.mp (mt List.mem_cons.mpr hp)
        change bp'.bytes p = _
        rw [hbytes, Function.update_of_ne hne, h.synced p hp]
      · rcases List.mem_cons.mp hp with rfl | hp
        · exact ⟨_, List.mem_cons_self, rfl, hd⟩
        · obtain ⟨g, hg, hpage, hd⟩ := h.held p hp
          exact ⟨g, List.mem_cons_of_mem _ hg, hpage, (hs.dirty_eq g hg).trans hd⟩
      · change (bp'.bytes p).isSome
        rw [hbytes]
        by_cases hpn : p = s.pool.next
        · rw [hpn, Function.update_self]; rfl
        · rw [Function.update_of_ne hpn]
          have hlt : p < s.pool.next + 1 := lt_of_lt_of_eq hp hnext
          exact h.exist p (Nat.lt_of_le_of_ne (Nat.lt_succ_iff.mp hlt) hpn)
    · simp only [attempt, PoolOp.run, unreleased, hok]
      exact ⟨w, h.perm (s.live_declare none s.pool)⟩
  | fetchPage pageId =>
    rcases h.cached.fetchPage pageId with ⟨g, bp', hok, -, hc, hs, -, hnext, hbytes⟩ | ⟨hok, -⟩ |
      ⟨e, bp', hok, hc, hs, hnext, hbytes⟩
    · simp only [attempt, PoolOp.run, unreleased, hok]
      exact ⟨w, (h.unchanged hc (List.subset_cons_self _ _) hs hnext hbytes).perm
        (s.live_declare (some g) bp')⟩
    · simp only [attempt, PoolOp.run, unreleased, hok]
      exact ⟨w, h.perm (s.live_declare none s.pool)⟩
    · -- the read threw: a frame is lost, no page is
      simp only [attempt, PoolOp.run, unreleased, hok]
      exact ⟨w, h.unchanged hc (List.Subset.refl _) hs hnext hbytes⟩
  | mutate i page =>
    simp only [attempt, PoolOp.run, unreleased]
    cases hg : s.guards[i]? with
    | none => exact ⟨w, h⟩
    | some o =>
      cases o with
      | none => exact ⟨w, h⟩
      | some g =>
        obtain ⟨bp', hok, hc, hset, hbytes⟩ := Session.store_good h.cached (Session.mem_live hg) page
        simp only [hok]
        refine ⟨w, hc, ?_, fun p hp => ?_, fun p hp => ?_, fun p hp => ?_⟩
        · subst hset
          exact h.journal.writes [] rfl (List.append_nil _).symm rfl fun _ hv => by cases hv
        · obtain ⟨hne, hp⟩ := not_or.mp (mt List.mem_cons.mpr hp)
          rw [hbytes, Function.update_of_ne hne, h.synced p hp]
        · have hdirty : ∀ g' ∈ s.live, g'.pageId = g.pageId ∨ (s.pool.frames g'.frame).dirty = true →
              (bp'.frames g'.frame).dirty = true := by
            intro g' hg' hd
            subst hset
            rw [setFrame_frames]
            by_cases hf : g'.frame = g.frame
            · rw [hf, Function.update_self]
            · rw [Function.update_of_ne hf]
              refine hd.resolve_left fun hpage => hf ?_
              exact (h.cached.same_frame_iff hg' (Session.mem_live hg)).mpr hpage
          rcases List.mem_cons.mp hp with rfl | hp
          · exact ⟨g, Session.mem_live hg, rfl, hdirty g (Session.mem_live hg) (.inl rfl)⟩
          · obtain ⟨g', hg', hpage, hd⟩ := h.held p hp
            exact ⟨g', hg', hpage, hdirty g' hg' (.inr hd)⟩
        · rw [hbytes]
          by_cases hpg : p = g.pageId
          · rw [hpg, Function.update_self]; rfl
          · rw [Function.update_of_ne hpg]
            subst hset
            exact h.exist p hp
  | move i j =>
    simp only [attempt, PoolOp.run, unreleased]
    cases hi : s.guards[i]? with
    | none => exact ⟨w, h⟩
    | some g =>
      cases hj : s.guards[j]? with
      | none => exact ⟨w, h⟩
      | some old =>
        by_cases hij : i = j
        · cases old <;> simp only [hij, if_true] <;> exact ⟨w, h⟩
        · have hperm := h.perm (live_move hi hj hij)
          cases old with
          | none => simp only [hij, if_false]; exact ⟨w, hperm⟩
          | some old => simp only [hij, if_false]; exact hperm.release
  | release i =>
    simp only [attempt, PoolOp.run, unreleased]
    cases hi : s.guards[i]? with
    | none => exact ⟨w, h⟩
    | some g =>
      have hperm := h.perm (live_release hi)
      cases g with
      | none => exact ⟨w, hperm⟩
      | some g => exact hperm.release
  | flushPage pageId =>
    obtain ⟨b, bp', W, hok, hc, hfl, hW, hframes⟩ := h.cached.flushPage pageId
    simp only [attempt, PoolOp.run, unreleased, hok]
    refine ⟨w, h.flushed hc hfl (fun v hv => hW v hv ▸ hop) fun p hp => ?_⟩
    obtain ⟨g, hg, rfl, hd⟩ := h.held p hp
    refine ⟨g, hg, rfl, ?_⟩
    have hne : g.pageId ≠ pageId := fun heq => hop (heq ▸ hp)
    rw [hframes _ _ (h.cached.live_table g hg) hne, hd]
  | flushAll =>
    obtain ⟨bp', W, hok, hc, hfl⟩ := h.cached.flushAll
    have hnil : pages = [] := hop
    simp only [attempt, PoolOp.run, unreleased, hok]
    subst hnil
    exact ⟨w, h.flushed hc hfl (fun _ _ => List.not_mem_nil) fun _ hp => by cases hp⟩

/-- **Run lemma.** -/
theorem Disciplined.logged {poolSize : Nat} {s : Session} {pages : List PageId}
    (h : Disciplined poolSize s pages) : ∃ w, Logged s.pool s.live pages w := by
  induction h with
  | start =>
    refine ⟨WalManager.new WalFile.empty, new_cached poolSize _ _, ?_, fun p _ => ?_,
      (fun p hp => by cases hp), fun p hp => absurd hp (Nat.not_lt_zero p)⟩
    · refine ⟨rfl, ?_, rfl, rfl, fun k _ _ hk => by cases hk⟩
      exact ⟨rfl, (fun _ hr => by cases hr), (fun _ hr => by cases hr), List.Pairwise.nil, rfl, rfl⟩
    · rw [bytes, current_of_notCached rfl]
      exact congrArg _ (DataFile.read_eq_none_of_size_le (Nat.zero_le p))
  | step _ op hop ih =>
    obtain ⟨w, hw⟩ := ih
    exact op.attempt_logged hw hop

/-! ## The write-ahead rule -/

/-- The write-ahead rule, as a client and a crash see it. -/
structure Session.WriteAhead (s : Session) : Prop where
  /-- `io` is the history of both files. -/
  history : Files.empty.replay s.pool.io = s.pool.files
  /-- No image reaches the data file before the log. -/
  first : LoggedFirst s.pool.io
  /-- A page that no guard holds is, up to the checksum, its latest record. -/
  settled : ∀ p < s.pool.next, (∀ g ∈ s.live, g.pageId ≠ p) → ∃ w page r,
    s.pool.wal = some w ∧ s.pool.current p = some page ∧ w.latest p = some r ∧
      page.unsummed = r.page.unsummed

theorem BufferPool.Logged.writeAhead {s : Session} {pages : List PageId} {w : WalManager}
    (h : Logged s.pool s.live pages w) : s.WriteAhead where
  history := h.journal.files_eq
  first := h.journal.first
  settled p hp hfree := by
    have hsettled : p ∉ pages := fun hin => by
      obtain ⟨g, hg, hpage, -⟩ := h.held p hin
      exact hfree g hg hpage
    obtain ⟨b, hb⟩ := Option.isSome_iff_exists.mp (h.exist p hp)
    obtain ⟨page, hpage, rfl⟩ := Option.map_eq_some_iff.mp hb
    rw [h.synced p hsettled] at hb
    obtain ⟨r, hr, heq⟩ := Option.map_eq_some_iff.mp hb
    exact ⟨w, page, r, h.journal.wal_eq, hpage, hr, heq.symm⟩

/-- **Log before data** in every session that flushes no page between a change and the release that
logs it. -/
theorem writeAhead_of_disciplined {poolSize : Nat} {s : Session} {pages : List PageId}
    (h : Disciplined poolSize s pages) : s.WriteAhead := by
  obtain ⟨w, hw⟩ := h.logged
  exact hw.writeAhead

/-- The session after a sequence of uses from empty files, whatever each of them throws. -/
def attemptAll (poolSize : Nat) (ops : List PoolOp) : Session :=
  ops.foldl (fun s op => op.attempt s)
    (Session.start poolSize DataFile.empty (some (WalManager.new WalFile.empty)))

instance (pages : List PageId) : (op : PoolOp) → Decidable (op.Disciplined pages)
  | .flushPage pageId => inferInstanceAs (Decidable (pageId ∉ pages))
  | .flushAll => inferInstanceAs (Decidable (pages = []))
  | .newPage | .fetchPage _ | .mutate _ _ | .move _ _ | .release _ => .isTrue trivial

/-- Whether a sequence of uses is disciplined, from a given session on. -/
def disciplined (s : Session) (pages : List PageId) : List PoolOp → Bool
  | [] => true
  | op :: ops => decide (op.Disciplined pages) && disciplined (op.attempt s) (op.unreleased s pages) ops

theorem Disciplined.run {poolSize : Nat} {s : Session} {pages : List PageId}
    (h : Disciplined poolSize s pages) {ops : List PoolOp} (hops : disciplined s pages ops = true) :
    ∃ pages', Disciplined poolSize (ops.foldl (fun s op => op.attempt s) s) pages' := by
  induction ops generalizing s pages with
  | nil => exact ⟨pages, h⟩
  | cons op ops ih =>
    obtain ⟨hop, hops⟩ := Bool.and_eq_true_iff.mp hops
    exact ih (h.step op (of_decide_eq_true hop)) hops

/-- A page mutated, logged by its release, and flushed after it. -/
theorem writeAhead_of_disciplined_flush :
    (attemptAll 1 [.newPage, .mutate 0 ⟨0, 0, 0, .metadata 7⟩, .release 0, .flushPage 0]).WriteAhead := by
  have hops : disciplined
      (Session.start 1 DataFile.empty (some (WalManager.new WalFile.empty))) []
      [.newPage, .mutate 0 ⟨0, 0, 0, .metadata 7⟩, .release 0, .flushPage 0] = true := by
    decide +kernel
  obtain ⟨_, h⟩ := (Disciplined.start : Disciplined 1 _ _).run hops
  exact writeAhead_of_disciplined h

/-- A new page flushed before its guard is released: its image reaches the data file with no record
of it in the log, and the release finds the page clean and logs nothing either. -/
theorem flush_before_release :
    ¬ LoggedFirst (attemptAll 1 [.newPage, .flushPage 0]).pool.io ∧
      ¬ (attemptAll 1 [.newPage, .flushPage 0, .release 0]).WriteAhead := by
  have hflush : (attemptAll 1 [.newPage, .flushPage 0]).pool.io
      = [.writePage 0 (DiskManager.checksummed (BufferPool.blank 0))] := rfl
  have hrelease : (attemptAll 1 [.newPage, .flushPage 0, .release 0]).pool.io
      = [.writePage 0 (DiskManager.checksummed (BufferPool.blank 0))] := rfl
  refine ⟨fun h => ?_, fun h => ?_⟩
  · rw [hflush] at h
    obtain ⟨j, hj, -⟩ := h 0 0 _ rfl
    exact absurd hj (Nat.not_lt_zero j)
  · have hfirst := h.first
    rw [hrelease] at hfirst
    obtain ⟨j, hj, -⟩ := hfirst 0 0 _ rfl
    exact absurd hj (Nat.not_lt_zero j)

end Reldb
