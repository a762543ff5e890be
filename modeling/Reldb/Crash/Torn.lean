import Reldb.Crash.Reopen
import Reldb.Pool.Cache
import Mathlib.Data.List.Induction
import Mathlib.Data.List.Pairwise

/-!
# Reldb — data files a crash has torn, and what recovery makes of them

The last page a process wrote before it crashed may have reached its data file in part: the page then
holds anything, or the file ends inside it. Recovery overwrites whatever the log knows about, in an
order the source leaves to its hash map. Since no page is written that was not logged, what it leaves is
settled by the log alone.
-/

namespace Reldb

open BufferPool

/-! ## Torn files -/

/-- The file extended with holes to at least `n` pages. -/
def DataFile.extend (f : DataFile) (n : Nat) : DataFile where
  page := f.page
  size := max f.size n
  past_end m hm := f.past_end m ((le_max_left _ _).trans hm)

/-- A data file that may end inside a page: `whole` is the pages before it, `tail` what the file has of
that page, zero-filled. -/
structure TornFile where
  whole : DataFile
  tail : Option Page

namespace TornFile

/-- `WritePage`: a write past the partial page turns the rest of that page into a hole. -/
def write (f : TornFile) (pageId : PageId) (p : Page) : TornFile :=
  match f.tail with
  | none => ⟨f.whole.write pageId p, none⟩
  | some t =>
    if pageId < f.whole.size then ⟨f.whole.write pageId p, some t⟩
    else ⟨(f.whole.write f.whole.size t).write pageId p, none⟩

/-- The file cut at page `pageId`, at or past its end: a partial page before it is filled. -/
def extend (f : TornFile) (pageId : PageId) : DataFile :=
  match f.tail with
  | none => f.whole.extend pageId
  | some t =>
    if f.whole.size < pageId then (f.whole.write f.whole.size t).extend pageId else f.whole

/-- What a write of page `pageId` that was cut short can leave: the page overwritten with anything, or
the file ending inside it. -/
inductive Tears (f : TornFile) (pageId : PageId) : TornFile → Prop where
  | inside (junk : Page) : Tears f pageId (f.write pageId junk)
  | atEnd (junk : Page) (h : f.whole.size ≤ pageId) : Tears f pageId ⟨f.extend pageId, some junk⟩

/-- The page's bytes in the file, past its end zero. -/
def pageAt (f : TornFile) (pageId : PageId) : Page :=
  if pageId = f.whole.size then f.tail.getD Page.zero else f.whole.page pageId

theorem pageAt_of_none {f : TornFile} (h : f.tail = none) : f.pageAt = f.whole.page := by
  funext p
  unfold pageAt
  split
  · rw [h, ‹p = _›, f.whole.past_end _ le_rfl]
    rfl
  · rfl

/-- The manager of the file once its page count is taken from the file's length. -/
def disk (f : TornFile) : DiskManager := ⟨f.whole, f.whole.size⟩

/-- What a write does, whether the file ends inside a page or not. -/
theorem write_spec (f : TornFile) (pageId : PageId) (p : Page) :
    (f.write pageId p).pageAt = Function.update f.pageAt pageId p ∧
      (f.write pageId p).whole.size = max f.whole.size (pageId + 1) ∧
      ((f.write pageId p).tail.isSome → f.tail.isSome ∧ pageId < f.whole.size) := by
  unfold write
  cases ht : f.tail with
  | none =>
    refine ⟨?_, rfl, fun h => by cases h⟩
    rw [pageAt_of_none rfl, pageAt_of_none ht]
    rfl
  | some t =>
    by_cases hlt : pageId < f.whole.size
    · have hsize : max f.whole.size (pageId + 1) = f.whole.size := max_eq_left hlt
      simp only [if_pos hlt]
      refine ⟨funext fun q => ?_, rfl, fun _ => ⟨rfl, hlt⟩⟩
      unfold pageAt
      simp only [DataFile.write, hsize, ht]
      by_cases hq : q = pageId
      · subst hq
        rw [if_neg (Nat.ne_of_lt hlt), Function.update_self, Function.update_self]
      · simp only [Function.update_of_ne hq]
    · have hle : f.whole.size ≤ pageId := Nat.not_lt.mp hlt
      simp only [if_neg hlt]
      refine ⟨?_, ?_, fun h => by cases h⟩
      · rw [pageAt_of_none rfl]
        funext q
        change Function.update (Function.update f.whole.page f.whole.size t) pageId p q = _
        by_cases hq : q = pageId
        · rw [hq, Function.update_self, Function.update_self]
        · rw [Function.update_of_ne hq, Function.update_of_ne hq, pageAt, ht]
          by_cases hs : q = f.whole.size
          · rw [if_pos hs, hs, Function.update_self]
            rfl
          · rw [if_neg hs, Function.update_of_ne hs]
      · change max (max f.whole.size (f.whole.size + 1)) (pageId + 1) = _
        omega

end TornFile

/-! ## Recovery on a torn file -/

/-- The loop of `RunRecovery` that writes the latest records, in the order given. -/
def recoverFile (f : TornFile) (order : List RecoveredPage) : TornFile :=
  order.foldl (fun f r => f.write r.pageId (DiskManager.checksummed r.page)) f

theorem recoverFile_cons (f : TornFile) (r : RecoveredPage) (order : List RecoveredPage) :
    recoverFile f (r :: order)
      = recoverFile (f.write r.pageId (DiskManager.checksummed r.page)) order := rfl

/-- On a file of whole pages it is the loop of `Reldb.Recovery`. -/
theorem recoverFile_whole (d : DiskManager) (order : List RecoveredPage) :
    recoverFile ⟨d.file, none⟩ order = ⟨(writeRecords d order).file, none⟩ := by
  induction order generalizing d with
  | nil => rfl
  | cons r order ih => exact ih (d.writePage r.pageId r.page)

/-- Recovery's writes, taken together: a page for each record, whatever the order. -/
theorem recoverFile_spec {order : List RecoveredPage} (f : TornFile)
    (hnodup : (order.map RecoveredPage.pageId).Nodup) :
    (∀ r ∈ order, (recoverFile f order).pageAt r.pageId = DiskManager.checksummed r.page) ∧
      (∀ p, p ∉ order.map RecoveredPage.pageId → (recoverFile f order).pageAt p = f.pageAt p) ∧
      (∀ n, n < (recoverFile f order).whole.size ↔ n < f.whole.size ∨ ∃ r ∈ order, n ≤ r.pageId) ∧
      ((recoverFile f order).tail.isSome → f.tail.isSome ∧ ∀ r ∈ order, r.pageId < f.whole.size) := by
  induction order generalizing f with
  | nil => exact ⟨by simp, fun _ _ => rfl, by simp [recoverFile], fun h => ⟨h, by simp⟩⟩
  | cons r order ih =>
    rw [List.map_cons, List.nodup_cons] at hnodup
    obtain ⟨hpage, hsize, htail⟩ := f.write_spec r.pageId (DiskManager.checksummed r.page)
    obtain ⟨hin, hout, hsize', htail'⟩ :=
      ih (f.write r.pageId (DiskManager.checksummed r.page)) hnodup.2
    rw [recoverFile_cons]
    refine ⟨fun r' hr' => ?_, fun p hp => ?_, fun n => ?_, fun h => ?_⟩
    · rcases List.mem_cons.mp hr' with rfl | hr'
      · rw [hout _ hnodup.1, hpage, Function.update_self]
      · exact hin r' hr'
    · rw [List.map_cons, List.mem_cons, not_or] at hp
      rw [hout p hp.2, hpage, Function.update_of_ne hp.1]
    · rw [hsize', hsize, List.exists_mem_cons_iff, lt_max_iff, Nat.lt_succ_iff, or_assoc]
    · obtain ⟨hsome, hlt⟩ := htail' h
      obtain ⟨hsome', hr⟩ := htail hsome
      refine ⟨hsome', fun r' hr' => ?_⟩
      rcases List.mem_cons.mp hr' with rfl | hr'
      · exact hr
      · have hr' := hlt r' hr'
        rw [hsize, max_eq_left hr] at hr'
        exact hr'

/-- Files whose every page is in the log. -/
structure Recoverable (data : TornFile) (wal : WalFile) : Prop where
  size_le : ∀ n < data.whole.size, ∃ r ∈ wal.records, n ≤ r.pageId
  page_logged : ∀ p, data.pageAt p ≠ Page.zero → ∃ r ∈ wal.records, r.pageId = p
  tail_logged : data.tail.isSome → ∃ r ∈ wal.records, r.pageId = data.whole.size
  intact : ∀ r ∈ wal.slots, r.intact = true
  lsn_sorted : wal.records.Pairwise fun r r' => r.lsn < r'.lsn

/-- A data file of whole pages, next to its log. -/
theorem Files.Restorable.recoverable {f : Files} (h : f.Restorable) :
    Recoverable ⟨f.data, none⟩ f.wal where
  size_le n hn := by
    obtain ⟨r, hr, hle⟩ := h.size_le n hn
    exact ⟨r.recovered, List.mem_map_of_mem hr, hle⟩
  page_logged p hp := by
    rw [TornFile.pageAt_of_none rfl] at hp
    obtain ⟨r, hr, heq⟩ := h.page_logged p hp
    exact ⟨r.recovered, List.mem_map_of_mem hr, heq⟩
  tail_logged h := by cases h
  intact := h.intact
  lsn_sorted := h.lsn_sorted

theorem DataFile.ext_of {f g : DataFile} (hpage : f.page = g.page) (hsize : f.size = g.size) :
    f = g := by
  cases f
  cases g
  cases hpage
  cases hsize
  rfl

/-- `f` is what the log amounts to, as a data file: the latest image of each logged page, holes
between them, nothing after the last. -/
structure Restores (wal : WalFile) (f : TornFile) : Prop where
  tail_eq : f.tail = none
  page_eq : ∀ r ∈ latestRecords wal.records, f.whole.page r.pageId = DiskManager.checksummed r.page
  hole : ∀ p, p ∉ wal.records.map RecoveredPage.pageId → f.whole.page p = Page.zero
  size_iff : ∀ n, n < f.whole.size ↔ ∃ r ∈ wal.records, n ≤ r.pageId

section

variable {data : TornFile} {wal : WalFile} {f f' : TornFile} {order : List RecoveredPage}

/-- **Recovery**, from any file whose pages are logged, in any order. -/
theorem recoverFile_restores (h : Recoverable data wal)
    (horder : order.Perm (latestRecords wal.records)) : Restores wal (recoverFile data order) := by
  have hlatest := latestRecords_spec h.lsn_sorted
  have hpages := horder.map RecoveredPage.pageId
  have hmem : ∀ p, p ∈ order.map RecoveredPage.pageId ↔ p ∈ wal.records.map RecoveredPage.pageId :=
    fun p => hpages.mem_iff.trans (hlatest.pages p)
  obtain ⟨hin, hout, hsize, htail⟩ := recoverFile_spec data (hpages.nodup_iff.mpr hlatest.nodup)
  have hnone : (recoverFile data order).tail = none := by
    rw [← Option.not_isSome_iff_eq_none]
    intro hsome
    -- the partial page was logged, so it was written
    obtain ⟨hdata, hlt⟩ := htail hsome
    obtain ⟨r, hr, hpage⟩ := h.tail_logged hdata
    obtain ⟨r', hr', hpage'⟩ := List.mem_map.mp ((hmem r.pageId).mpr (List.mem_map_of_mem hr))
    have hbefore := hlt r' hr'
    rw [hpage', hpage] at hbefore
    exact lt_irrefl _ hbefore
  rw [TornFile.pageAt_of_none hnone] at hin hout
  refine ⟨hnone, fun r hr => hin r (horder.mem_iff.mpr hr), fun p hp => ?_, fun n => ?_⟩
  · rw [hout p (mt (hmem p).mp hp)]
    by_contra hne
    obtain ⟨r, hr, rfl⟩ := h.page_logged p hne
    exact hp (List.mem_map_of_mem hr)
  · rw [hsize]
    constructor
    · rintro (hn | ⟨r, hr, hle⟩)
      · exact h.size_le n hn
      · exact ⟨r, hlatest.subset r (horder.mem_iff.mp hr), hle⟩
    · rintro ⟨r, hr, hle⟩
      obtain ⟨r', hr', hpage⟩ := List.mem_map.mp ((hmem r.pageId).mpr (List.mem_map_of_mem hr))
      exact .inr ⟨r', hr', hpage ▸ hle⟩

/-- **What recovery leaves is settled by the log.** -/
theorem Restores.unique (hlatest : IsLatest wal.records (latestRecords wal.records))
    (h : Restores wal f) (h' : Restores wal f') : f = f' := by
  have hwhole : f.whole = f'.whole := by
    refine DataFile.ext_of (funext fun p => ?_) ?_
    · by_cases hp : p ∈ wal.records.map RecoveredPage.pageId
      · obtain ⟨r, hr, rfl⟩ := List.mem_map.mp ((hlatest.pages p).mpr hp)
        rw [h.page_eq r hr, h'.page_eq r hr]
      · rw [h.hole p hp, h'.hole p hp]
    · refine le_antisymm (Nat.le_of_not_lt fun hlt => ?_) (Nat.le_of_not_lt fun hlt => ?_)
      · exact absurd ((h'.size_iff _).mpr ((h.size_iff _).mp hlt)) (lt_irrefl _)
      · exact absurd ((h.size_iff _).mpr ((h'.size_iff _).mp hlt)) (lt_irrefl _)
  calc f = ⟨f.whole, f.tail⟩ := rfl
    _ = ⟨f'.whole, f'.tail⟩ := by rw [hwhole, h.tail_eq, h'.tail_eq]

/-- A recovered file can be recovered again. -/
theorem Restores.recoverable (h : Restores wal f) (hintact : ∀ r ∈ wal.slots, r.intact = true)
    (hsorted : wal.records.Pairwise fun r r' => r.lsn < r'.lsn) : Recoverable f wal where
  size_le n hn := (h.size_iff n).mp hn
  page_logged p hp := by
    rw [TornFile.pageAt_of_none h.tail_eq] at hp
    exact List.mem_map.mp (by_contra fun hnot => hp (h.hole p hnot))
  tail_logged hsome := by
    rw [h.tail_eq] at hsome
    cases hsome
  intact := hintact
  lsn_sorted := hsorted

/-- What `Reldb.Recovery` computes from an empty data file. -/
theorem runRecovery_restores (hintact : ∀ r ∈ wal.slots, r.intact = true)
    (hsorted : wal.records.Pairwise fun r r' => r.lsn < r'.lsn) :
    ∃ f, Restores wal f ∧ f.disk = runRecovery (.new DataFile.empty) (WalManager.new wal) := by
  have hempty : Recoverable ⟨DataFile.empty, none⟩ wal :=
    { size_le := fun n hn => absurd hn (Nat.not_lt_zero n)
      page_logged := fun p hp => absurd (congrFun (TornFile.pageAt_of_none rfl) p) hp
      tail_logged := fun h => by cases h
      intact := hintact
      lsn_sorted := hsorted }
  refine ⟨_, recoverFile_restores hempty (.refl _), ?_⟩
  have hwhole := recoverFile_whole (.new DataFile.empty) (latestRecords wal.records)
  rw [show (DiskManager.new DataFile.empty).file = DataFile.empty from rfl] at hwhole
  rw [hwhole, runRecovery, (WalManager.new_slots hintact).2]
  rfl

/-! ## The highest LSN -/

/-- `latest` holds of each page the record with the highest LSN. -/
def Highest (records latest : List RecoveredPage) : Prop :=
  ∀ r ∈ latest, ∀ r' ∈ records, r'.pageId = r.pageId → r'.lsn ≤ r.lsn

theorem Highest.supersede {records latest : List RecoveredPage} {record : RecoveredPage}
    (h : Highest records latest) (hlatest : IsLatest records latest)
    (hnew : ∀ r ∈ records, r.lsn < record.lsn) :
    Highest (records ++ [record]) (supersede latest record) := by
  -- a record of another page is not disturbed, and the new one is above all
  have hold : ∀ r ∈ latest, r.pageId ≠ record.pageId → ∀ r' ∈ records ++ [record],
      r'.pageId = r.pageId → r'.lsn ≤ r.lsn := by
    intro r hr hne r' hr' hpage
    rcases List.mem_append.mp hr' with hr' | hr'
    · exact h r hr r' hr' hpage
    · rw [List.mem_singleton.mp hr'] at hpage
      exact absurd hpage.symm hne
  have hself : ∀ r' ∈ records ++ [record], r'.lsn ≤ record.lsn := by
    intro r' hr'
    rcases List.mem_append.mp hr' with hr' | hr'
    · exact Nat.le_of_lt (hnew r' hr')
    · rw [List.mem_singleton.mp hr']
  intro r hr r' hr' hpage
  rcases supersede_cases fun r hr => hnew r (hlatest.subset r hr) with
    ⟨hnot, heq⟩ | ⟨A, r₀, B, rfl, hpage₀, heq⟩
  · rw [heq] at hr
    rcases List.mem_append.mp hr with hr | hr
    · refine hold r hr ?_ r' hr' hpage
      rintro heq'
      exact hnot (heq' ▸ List.mem_map_of_mem hr)
    · exact List.mem_singleton.mp hr ▸ hself r' hr'
  · have hnodup := hlatest.nodup
    rw [List.map_append, List.map_cons, hpage₀] at hnodup
    have hnotin := List.nodup_middle.mp hnodup
    rw [List.nodup_cons, List.mem_append, not_or] at hnotin
    rw [heq] at hr
    rcases List.mem_append.mp hr with hr | hr
    · refine hold r (List.mem_append_left _ hr) (fun heq' => ?_) r' hr' hpage
      exact hnotin.1.1 (heq' ▸ List.mem_map_of_mem hr)
    · rcases List.mem_cons.mp hr with rfl | hr
      · exact hself r' hr'
      · refine hold r (List.mem_append_right _ (List.mem_cons_of_mem _ hr)) (fun heq' => ?_) r' hr'
          hpage
        exact hnotin.1.2 (heq' ▸ List.mem_map_of_mem hr)

theorem latestRecords_highest {records : List RecoveredPage}
    (hsorted : records.Pairwise fun r r' => r.lsn < r'.lsn) :
    Highest records (latestRecords records) := by
  -- the induction is on the end of the log: each record is newer than all before it
  induction records using List.reverseRecOn with
  | nil => exact fun r hr => by cases hr
  | append_singleton records record ih =>
    obtain ⟨hbefore, -, hnew⟩ := List.pairwise_append.mp hsorted
    rw [latestRecords, List.foldl_append]
    exact (ih hbefore).supersede (latestRecords_spec hbefore)
      fun r hr => hnew r hr record (List.mem_singleton_self _)

/-! ## What recovery promises -/

/-- The state after recovery, from `data` and the log of `wal`. -/
structure Recovered (data : TornFile) (wal : WalManager) (after : TornFile) : Prop where
  /-- No partial page is left. -/
  tail_eq : after.tail = none
  /-- Every logged page reads back as its record with the highest LSN. -/
  reads : ∀ r ∈ wal.validRecords,
    (∀ r' ∈ wal.validRecords, r'.pageId = r.pageId → r'.lsn ≤ r.lsn) →
    ∃ page, after.disk.readPage r.pageId = .ok page ∧ page.unsummed = r.page.unsummed
  /-- Pages and page count are those of a recovery from an empty data file. -/
  same : after.disk = runRecovery (.new DataFile.empty) wal
  /-- A second recovery changes nothing, in whatever order it writes. -/
  again : runRecovery after.disk wal = after.disk ∧
    ∀ order, order.Perm (latestRecords wal.validRecords) → recoverFile after order = after
  /-- The next page id is past every page of the log and of the data file. -/
  next_gt : ∀ p, (∃ r ∈ wal.validRecords, r.pageId = p) ∨ p < data.whole.size ∨
    (data.tail.isSome ∧ p = data.whole.size) → p < after.disk.allocatePage.1

/-- **Recovery restores exactly the log.** -/
theorem Recoverable.recovered (h : Recoverable data wal)
    (horder : order.Perm (latestRecords wal.records)) :
    Recovered data (WalManager.new wal) (recoverFile data order) := by
  have hafter := recoverFile_restores h horder
  have hlatest := latestRecords_spec h.lsn_sorted
  have hrecords := (WalManager.new_slots h.intact).2
  obtain ⟨f, hf, hdisk⟩ := runRecovery_restores h.intact h.lsn_sorted
  have hagain : ∀ order', order'.Perm (latestRecords wal.records) →
      recoverFile (recoverFile data order) order' = recoverFile data order := fun order' horder' =>
    (recoverFile_restores (hafter.recoverable h.intact h.lsn_sorted) horder').unique hlatest hafter
  refine ⟨hafter.tail_eq, fun r hr hmax => ?_, ?_, ⟨?_, ?_⟩, fun p hp => ?_⟩
  · rw [hrecords] at hr hmax
    obtain ⟨r₀, hr₀, hpage₀⟩ :=
      List.mem_map.mp ((hlatest.pages r.pageId).mpr (List.mem_map_of_mem hr))
    -- the record written for the page is `r` itself, LSNs being distinct
    have hle := latestRecords_highest h.lsn_sorted r₀ hr₀ r hr hpage₀.symm
    have hge := hmax r₀ (hlatest.subset r₀ hr₀) hpage₀
    have heq : r₀ = r := by
      by_contra hne
      have hdistinct : wal.records.Pairwise fun r r' => r.lsn ≠ r'.lsn :=
        h.lsn_sorted.imp fun hlt => Nat.ne_of_lt hlt
      have : Std.Symm fun r r' : RecoveredPage => r.lsn ≠ r'.lsn := ⟨fun _ _ hne => hne.symm⟩
      exact hdistinct.forall (hlatest.subset r₀ hr₀) hr hne (le_antisymm hge hle)
    subst heq
    have hread : (recoverFile data order).disk.file.Readable r₀.pageId := by
      refine ⟨(hafter.size_iff _).mpr ⟨r₀, hr, le_rfl⟩, ?_⟩
      change ((recoverFile data order).whole.page r₀.pageId).checksum
        = computeChecksum ((recoverFile data order).whole.page r₀.pageId)
      rw [hafter.page_eq r₀ hr₀]
      exact DiskManager.checksum_checksummed _
    refine ⟨_, DiskManager.readPage_of_readable hread, ?_⟩
    change ((recoverFile data order).whole.page _).unsummed = _
    rw [hafter.page_eq r₀ hr₀]
    rfl
  · rw [← hdisk, hafter.unique hlatest hf]
  · have hwhole := recoverFile_whole (recoverFile data order).disk (latestRecords wal.records)
    rw [show (⟨(recoverFile data order).disk.file, none⟩ : TornFile) = recoverFile data order by
      rw [← hafter.tail_eq]; rfl, hagain _ (.refl _)] at hwhole
    have hfile : (recoverFile data order).whole
        = (writeRecords (recoverFile data order).disk (latestRecords wal.records)).file :=
      congrArg TornFile.whole hwhole
    rw [runRecovery, hrecords, DiskManager.refreshNextPageIdAfterRecovery, ← hfile]
    rfl
  · rw [hrecords]
    exact hagain
  · rw [hrecords] at hp
    refine (hafter.size_iff p).mpr ?_
    rcases hp with ⟨r, hr, rfl⟩ | hlt | ⟨hsome, rfl⟩
    · exact ⟨r, hr, le_rfl⟩
    · exact h.size_le p hlt
    · obtain ⟨r, hr, heq⟩ := h.tail_logged hsome
      exact ⟨r, hr, heq.ge⟩

end

end Reldb
