import Reldb.Recovery
import Reldb.Pool.Spec
import Mathlib.Data.List.TakeWhile

/-!
# Reldb — what recovery makes of the files

`Files.Restorable` is what every crash of a process leaves behind: a log of intact records with
growing LSNs, and a data file that holds no page without a record. Recovery turns such files into a
pool whose pages are exactly what the log amounts to (`openPool_good`), whatever the data file held.
-/

namespace Reldb

open WriteLog BufferPool

/-- The records a log file holds. -/
def WalFile.records (f : WalFile) : List RecoveredPage := f.slots.map WalRecord.recovered

/-- Files a process of this program can leave behind. -/
structure Files.Restorable (f : Files) : Prop extends Files.WriteAhead f where
  intact : ∀ r ∈ f.wal.slots, r.intact = true
  lsn_sorted : f.wal.records.Pairwise fun r r' => r.lsn < r'.lsn

theorem Files.Restorable.empty : Files.empty.Restorable where
  size_le n hn := absurd hn (Nat.not_lt_zero n)
  page_logged p hp := absurd rfl hp
  intact r hr := by cases hr
  lsn_sorted := .nil

/-! ## Opening the log -/

namespace WalManager

theorem new_slots {file : WalFile} (h : ∀ r ∈ file.slots, r.intact = true) :
    (new file).file.slots = file.slots ∧ (new file).validRecords = file.records := by
  have hall : file.slots.takeWhile WalRecord.intact = file.slots :=
    List.takeWhile_eq_self_iff.mpr h
  refine ⟨hall, ?_⟩
  simp only [new, hall]
  rfl

/-- The next LSN is past every record's. -/
theorem foldl_max_le (slots : List WalRecord) (n : Nat) :
    n ≤ slots.foldl (fun next r => max next (r.lsn + 1)) n ∧
      ∀ r ∈ slots, r.lsn < slots.foldl (fun next r => max next (r.lsn + 1)) n := by
  induction slots generalizing n with
  | nil => exact ⟨le_rfl, by simp⟩
  | cons s slots ih =>
    obtain ⟨hle, hlt⟩ := ih (max n (s.lsn + 1))
    refine ⟨(le_max_left _ _).trans hle, fun r hr => ?_⟩
    rcases List.mem_cons.mp hr with rfl | hr
    · exact (Nat.lt_succ_self _).trans_le ((le_max_right _ _).trans hle)
    · exact hlt r hr

theorem new_good {file : WalFile} (hintact : ∀ r ∈ file.slots, r.intact = true)
    (hsorted : file.records.Pairwise fun r r' => r.lsn < r'.lsn) : (new file).Good := by
  obtain ⟨hslots, hrecords⟩ := new_slots hintact
  refine ⟨?_, hslots.symm ▸ hintact, fun r hr => ?_, hrecords.symm ▸ hsorted, rfl, ?_⟩
  · rw [hslots, hrecords]
    rfl
  · rw [hrecords] at hr
    obtain ⟨s, hs, rfl⟩ := List.mem_map.mp hr
    have hmem : s ∈ file.slots.takeWhile WalRecord.intact := by
      rw [List.takeWhile_eq_self_iff.mpr hintact]
      exact hs
    exact (foldl_max_le _ 0).2 s hmem
  · rfl

end WalManager

/-! ## Recovery -/

/-- What a record newer than all before does to the list of latest records. -/
theorem supersede_cases {latest : List RecoveredPage} {record : RecoveredPage}
    (hnew : ∀ r ∈ latest, r.lsn < record.lsn) :
    (record.pageId ∉ latest.map RecoveredPage.pageId ∧
        supersede latest record = latest ++ [record]) ∨
      ∃ A r B, latest = A ++ r :: B ∧ r.pageId = record.pageId ∧
        supersede latest record = A ++ record :: B := by
  induction latest with
  | nil => exact .inl ⟨List.not_mem_nil, rfl⟩
  | cons r rest ih =>
    unfold supersede
    by_cases hpage : r.pageId = record.pageId
    · rw [if_pos hpage, if_pos (hnew r List.mem_cons_self)]
      exact .inr ⟨[], r, rest, rfl, hpage, rfl⟩
    · rw [if_neg hpage]
      rcases ih fun r' hr' => hnew r' (List.mem_cons_of_mem _ hr') with
        ⟨hnot, heq⟩ | ⟨A, r', B, rfl, hr', heq⟩
      · refine .inl ⟨?_, by rw [heq]; rfl⟩
        rw [List.map_cons, List.mem_cons]
        rintro (h | h)
        exacts [hpage h.symm, hnot h]
      · exact .inr ⟨r :: A, r', B, rfl, hr', by rw [heq]; rfl⟩

/-- `latest` stands for `records`: one record a page, with the same pages and the same effect. -/
structure IsLatest (records latest : List RecoveredPage) : Prop where
  nodup : (latest.map RecoveredPage.pageId).Nodup
  subset : ∀ r ∈ latest, r ∈ records
  pages : ∀ p, p ∈ latest.map RecoveredPage.pageId ↔ p ∈ records.map RecoveredPage.pageId
  replay_eq : ∀ σ, replay σ (writesOf latest) = replay σ (writesOf records)

theorem IsLatest.supersede {records latest : List RecoveredPage} {record : RecoveredPage}
    (h : IsLatest records latest) (hnew : ∀ r ∈ records, r.lsn < record.lsn) :
    IsLatest (records ++ [record]) (supersede latest record) := by
  have hlast : ∀ σ, replay σ (writesOf (records ++ [record]))
      = write (replay σ (writesOf latest)) record.write := fun σ => by
    rw [writesOf, List.map_append, replay_append, h.replay_eq]
    rfl
  rcases supersede_cases fun r hr => hnew r (h.subset r hr) with
    ⟨hnot, heq⟩ | ⟨A, r, B, rfl, hpage, heq⟩
  · rw [heq]
    refine ⟨?_, fun r hr => ?_, fun p => ?_, fun σ => ?_⟩
    · rw [List.map_append]
      refine List.nodup_append.mpr ⟨h.nodup, List.nodup_singleton _, fun p hp q hq heq => ?_⟩
      rw [List.mem_singleton.mp hq] at heq
      exact hnot (heq ▸ hp)
    · exact (List.mem_append.mp hr).elim (fun hr => List.mem_append_left _ (h.subset r hr))
        (List.mem_append_right _)
    · rw [List.map_append, List.map_append, List.mem_append, List.mem_append, h.pages]
    · rw [hlast, writesOf, List.map_append, replay_append]
      rfl
  · rw [heq]
    have hmap : (A ++ record :: B).map RecoveredPage.pageId
        = (A ++ r :: B).map RecoveredPage.pageId := by simp [hpage]
    refine ⟨hmap ▸ h.nodup, fun r' hr' => ?_, fun p => ?_, fun σ => ?_⟩
    · rcases List.mem_append.mp hr' with hr' | hr'
      · exact List.mem_append_left _ (h.subset r' (List.mem_append_left _ hr'))
      rcases List.mem_cons.mp hr' with rfl | hr'
      · exact List.mem_append_right _ (List.mem_singleton_self _)
      · exact List.mem_append_left _
          (h.subset r' (List.mem_append_right _ (List.mem_cons_of_mem _ hr')))
    · rw [hmap, h.pages, List.map_append, List.mem_append, List.map_singleton,
        List.mem_singleton]
      refine ⟨.inl, fun hp => hp.elim id ?_⟩
      rintro rfl
      rw [← h.pages, ← hpage]
      simp
    · -- the page occurs neither before `r`'s place nor after it
      have hnodup := h.nodup
      rw [List.map_append, List.map_cons] at hnodup
      have hnotB : record.pageId ∉ (B.map RecoveredPage.write).map Prod.fst := by
        have := (List.nodup_cons.mp (List.nodup_append.mp hnodup).2.1).1
        rw [hpage] at this
        rwa [List.map_map]
      rw [hlast]
      simp only [writesOf, List.map_append, List.map_cons, replay_append, replay_cons]
      funext p
      by_cases hp : p = record.pageId
      · subst hp
        rw [replay_of_notMem hnotB]
        exact (write_self _ record.write).trans (write_self _ record.write).symm
      · rw [write_of_ne _ record.write hp]
        refine replay_congr (.inr ?_)
        rw [write_of_ne _ record.write hp, write_of_ne _ r.write (fun h => hp (h.trans hpage))]

/-- **The latest records stand for the whole log.** -/
theorem latestRecords_spec {records : List RecoveredPage}
    (hsorted : records.Pairwise fun r r' => r.lsn < r'.lsn) :
    IsLatest records (latestRecords records) := by
  have hfold : ∀ rest before latest, IsLatest before latest →
      (before ++ rest).Pairwise (fun r r' => r.lsn < r'.lsn) →
      IsLatest (before ++ rest) (rest.foldl supersede latest) := by
    intro rest
    induction rest with
    | nil => intro before latest h _; rwa [List.append_nil]
    | cons r rest ih =>
      intro before latest h hs
      rw [List.append_cons] at hs ⊢
      refine ih _ _ (h.supersede fun r' hr' => ?_) hs
      exact (List.pairwise_append.mp (List.pairwise_append.mp hs).1).2.2 r' hr' r
        (List.mem_singleton_self _)
  exact hfold records [] [] ⟨List.nodup_nil, by simp, by simp, fun σ => rfl⟩ hsorted

/-- Recovery's writes, taken together. -/
theorem writeRecords_spec (L : List RecoveredPage) (d : DiskManager) :
    (writeRecords d L).file.view = replay d.file.view (writesOf L) ∧
      (∀ n, n < (writeRecords d L).file.size ↔ n < d.file.size ∨ ∃ r ∈ L, n ≤ r.pageId) ∧
      ∀ p, p ∉ L.map RecoveredPage.pageId → (writeRecords d L).file.page p = d.file.page p := by
  induction L generalizing d with
  | nil => exact ⟨rfl, by simp [writeRecords], fun _ _ => rfl⟩
  | cons r L ih =>
    obtain ⟨hview, hsize, hpage⟩ := ih (d.writePage r.pageId r.page)
    have hcons : writeRecords d (r :: L) = writeRecords (d.writePage r.pageId r.page) L := rfl
    rw [hcons]
    refine ⟨?_, fun n => ?_, fun p hp => ?_⟩
    · rw [hview]
      exact congrArg (replay · (writesOf L)) (d.file.view_write r.pageId r.page)
    · have hmax : n < (d.writePage r.pageId r.page).file.size ↔ n < d.file.size ∨ n ≤ r.pageId := by
        show n < max d.file.size (r.pageId + 1) ↔ _
        rw [lt_max_iff, Nat.lt_succ_iff]
      rw [hsize, hmax, List.exists_mem_cons_iff, or_assoc]
    · rw [List.map_cons, List.mem_cons, not_or] at hp
      rw [hpage p hp.2]
      exact Function.update_of_ne hp.1 _ _

/-! ## The pool built on recovered files -/

/-- A pool just opened on `f`: it holds what `f`'s log amounts to. -/
structure Opened (f : Files) (bp : BufferPool) : Prop where
  good : Good bp.files bp [] []
  view_eq : bp.view = logged f.wal.records
  records_eq : bp.records = f.wal.records
  next_iff : ∀ n, n < bp.next ↔ ∃ r ∈ f.wal.records, n ≤ r.pageId
  wal_isSome : bp.wal.isSome = true
  table_empty : ∀ p, bp.pageTable p = none

theorem Opened.next_eq_zero {f : Files} {bp : BufferPool} (h : Opened f bp)
    (hempty : f.wal.records = []) : bp.next = 0 := by
  refine Nat.eq_zero_of_not_pos fun hpos => ?_
  obtain ⟨r, hr, -⟩ := (h.next_iff 0).mp hpos
  rw [hempty] at hr
  cases hr

/-- The files a pool was opened on, recovered, are restorable again and hold the same log. -/
theorem Opened.files {f : Files} {bp : BufferPool} (h : Opened f bp) :
    bp.files.Restorable ∧ bp.files.wal.records = f.wal.records := by
  obtain ⟨w, hw⟩ := Option.isSome_iff_exists.mp h.wal_isSome
  have hj := h.good.journaled w hw
  have hfile : bp.files.wal = w.file := files_wal hw
  have hrecords : bp.files.wal.records = f.wal.records := by
    rw [← h.records_eq, records, hw, hfile]
    exact hj.wal_good.records_eq.symm
  have hahead := hj.ahead bp.io.length
  rw [List.take_length, hj.files_eq] at hahead
  refine ⟨⟨hahead, ?_, ?_⟩, hrecords⟩
  · rw [hfile]
    exact hj.wal_good.intact
  · rw [hfile, WalFile.records, ← hj.wal_good.records_eq]
    exact hj.wal_good.lsn_sorted

/-- **Reopening.** -/
theorem openPool_opened {f : Files} (h : f.Restorable) (poolSize : Nat) :
    Opened f (openPool poolSize f) := by
  obtain ⟨hslots, hrecords⟩ := WalManager.new_slots h.intact
  have hgood := WalManager.new_good h.intact h.lsn_sorted
  have hlatest := latestRecords_spec h.lsn_sorted
  obtain ⟨hview, hsize, hpage⟩ :=
    writeRecords_spec (latestRecords f.wal.records) (DiskManager.new f.data)
  set disk := runRecovery (DiskManager.new f.data) (WalManager.new f.wal) with hdisk
  have hfile : disk.file
      = (writeRecords (DiskManager.new f.data) (latestRecords f.wal.records)).file := by
    rw [hdisk, runRecovery, hrecords]
    rfl
  rw [← hfile] at hview hsize hpage
  -- the data file held nothing the log does not
  have hunlogged : ∀ p, p ∉ f.wal.records.map RecoveredPage.pageId →
      f.data.page p = Page.zero := by
    intro p hp
    by_contra hne
    obtain ⟨r, hr, heq⟩ := h.page_logged p hne
    exact hp (List.mem_map.mpr ⟨r.recovered, List.mem_map_of_mem hr, heq⟩)
  have hlogged : disk.file.view = logged f.wal.records := by
    rw [hview, hlatest.replay_eq]
    funext p
    refine replay_congr ?_
    by_cases hp : p ∈ f.wal.records.map RecoveredPage.pageId
    · left
      rwa [writesOf, List.map_map]
    · exact .inr (if_neg (DataFile.not_readable_hole (hunlogged p hp)))
  have hnext : ∀ n, n < disk.file.size ↔ ∃ r ∈ f.wal.records, n ≤ r.pageId := by
    intro n
    rw [hsize]
    constructor
    · rintro (hn | ⟨r, hr, hle⟩)
      · obtain ⟨r, hr, hle⟩ := h.size_le n hn
        exact ⟨r.recovered, List.mem_map_of_mem hr, hle⟩
      · exact ⟨r, hlatest.subset r hr, hle⟩
    · rintro ⟨r, hr, hle⟩
      have hmem := (hlatest.pages r.pageId).mpr (List.mem_map_of_mem hr)
      obtain ⟨r', hr', heq⟩ := List.mem_map.mp hmem
      exact .inr ⟨r', hr', heq ▸ hle⟩
  have hahead : (⟨disk.file, (WalManager.new f.wal).file⟩ : Files).WriteAhead := by
    refine ⟨fun n hn => ?_, fun p hp => ?_⟩
    · obtain ⟨r, hr, hle⟩ := (hnext n).mp hn
      obtain ⟨s, hs, rfl⟩ := List.mem_map.mp hr
      exact ⟨s, hslots.symm ▸ hs, hle⟩
    · by_contra hnone
      have hnot : p ∉ f.wal.records.map RecoveredPage.pageId := by
        intro hmem
        obtain ⟨r, hr, rfl⟩ := List.mem_map.mp hmem
        obtain ⟨s, hs, rfl⟩ := List.mem_map.mp hr
        exact hnone ⟨s, hslots.symm ▸ hs, rfl⟩
      refine hp ?_
      rw [hpage p (mt (hlatest.pages p).mp hnot)]
      exact hunlogged p hnot
  obtain ⟨hpool, hpoolView⟩ := new_good (show disk.file.size ≤ disk.nextPageId from le_rfl)
    fun w (hw : some (WalManager.new f.wal) = some w) => by
      obtain rfl := Option.some.inj hw
      exact ⟨hgood, by rw [hrecords, hlogged], hahead⟩
  exact ⟨hpool, hpoolView.trans hlogged, hrecords, hnext, rfl, fun _ => rfl⟩

/-! ## What a crash leaves -/

/-- The records among a process's writes. -/
def appended (io : List IoEvent) : List WalRecord :=
  io.filterMap fun
    | .writePage .. => none
    | .appendRecord r => some r

theorem replay_slots (base : Files) (io : List IoEvent) :
    (base.replay io).wal.slots = base.wal.slots ++ appended io := by
  induction io generalizing base with
  | nil => exact (List.append_nil _).symm
  | cons e io ih =>
    have hstep : (base.replay (e :: io)) = (base.apply e).replay io := rfl
    rw [hstep, ih]
    cases e with
    | writePage p page => rfl
    | appendRecord r => exact List.append_assoc _ [r] _

section

variable {base : Files} {bp bp' : BufferPool}

theorem BufferPool.Good.records_eq {live : List PageGuard} {unlogged : List PageId}
    (h : Good base bp live unlogged) (hwal : bp.wal.isSome) :
    bp.records = (base.wal.slots ++ appended bp.io).map WalRecord.recovered := by
  obtain ⟨w, hw⟩ := Option.isSome_iff_exists.mp hwal
  have hj := h.journaled w hw
  have hslots := congrArg (fun f : Files => f.wal.slots) hj.files_eq
  simp only [replay_slots, files_wal hw] at hslots
  rw [hslots, records, hw]
  exact hj.wal_good.records_eq

/-- **What a crash leaves**: restorable files, whose log is a prefix of the process's. -/
theorem BufferPool.Good.afterCrash {live : List PageGuard} {unlogged : List PageId}
    (h : Good base bp live unlogged) (hwal : bp.wal.isSome) (n torn : Nat) :
    (base.afterCrash bp.io n torn).Restorable ∧
      (base.afterCrash bp.io n torn).wal.records <+: bp.records := by
  obtain ⟨w, hw⟩ := Option.isSome_iff_exists.mp hwal
  have hj := h.journaled w hw
  have hslots : (base.afterCrash bp.io n torn).wal.slots
      = base.wal.slots ++ appended (bp.io.take n) := replay_slots base _
  have hprefix : (base.afterCrash bp.io n torn).wal.slots <+: base.wal.slots ++ appended bp.io := by
    rw [hslots]
    exact (List.prefix_append_right_inj _).mpr ((List.take_prefix n bp.io).filterMap _)
  have hfile : base.wal.slots ++ appended bp.io = w.file.slots := by
    rw [← replay_slots, hj.files_eq, files_wal hw]
  have hrecords : (base.afterCrash bp.io n torn).wal.records <+: bp.records := by
    rw [h.records_eq hwal]
    exact hprefix.map _
  refine ⟨⟨⟨(hj.ahead n).size_le, (hj.ahead n).page_logged⟩, fun r hr => ?_, ?_⟩, hrecords⟩
  · exact hj.wal_good.intact r (hfile ▸ hprefix.subset hr)
  · have hsorted : bp.records.Pairwise fun r r' => r.lsn < r'.lsn := by
      rw [records, hw]
      exact hj.wal_good.lsn_sorted
    exact hsorted.sublist hrecords.sublist

/-- A crash during an operation keeps the records of those before it. -/
theorem BufferPool.Good.before_crash {live : List PageGuard} {unlogged : List PageId}
    (h : Good base bp live unlogged) (hwal : bp.wal.isSome) (hio : bp.io <+: bp'.io) {n : Nat}
    (hn : bp.io.length ≤ n) (torn : Nat) :
    bp.records <+: (base.afterCrash bp'.io n torn).wal.records := by
  have hslots : (base.afterCrash bp'.io n torn).wal.slots
      = base.wal.slots ++ appended (bp'.io.take n) := replay_slots base _
  rw [h.records_eq hwal, WalFile.records, hslots]
  refine List.IsPrefix.map _ ((List.prefix_append_right_inj _).mpr (List.IsPrefix.filterMap _ ?_))
  rw [List.prefix_take_iff]
  exact ⟨hio, hn⟩

end

end Reldb
