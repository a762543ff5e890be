import Reldb.Log.Corruption
import Reldb.Log.Refine

/-!
# Reldb — the two files by pages and slots are the two files by bytes

`DiskManager` and `WalManager` keep the files as pages and as record slots, `RawDiskManager` and
`RawWalManager` as bytes. On pages of 4096 bytes every sequence of page writes, appends and openings of the
log does the same in both (`storage_by_bytes`): what stands in the files, what a read returns or throws, and
which records an opening accepts. Holes that a write leaves are zero pages in the one and zero bytes in the
other.

Step lemma: `Storage.Same.step`. Run lemma: `Storage.Same.run`.
-/

namespace Reldb

open Folds

/-- One data file, as pages and as bytes. -/
structure DataFile.Same (f : DataFile) (raw : Bytes) : Prop where
  length_eq : raw.length = f.size * pageSize
  page_eq : ∀ p, p < f.size → slice raw (p * pageSize) pageSize = (f.page p).bytes

theorem Page.zero_bytes : Page.zero.bytes = List.replicate pageSize 0 := by
  have hhead : Page.zero.headerPrefix = List.replicate 13 0 := by
    simp [headerPrefix, Page.zero, pageIdBytes, le_zero, PageBody.typeByte, PageBody.numSlots]
  have hsum : le 4 Page.zero.checksum.toNat = List.replicate 4 0 := le_zero 4
  have htail : Page.zero.afterChecksum = List.replicate 4079 0 := by
    simp only [afterChecksum, Page.zero, PageBody.bytes, fixedWidth, pageSize, List.append_nil,
      List.length_replicate, List.replicate_append_replicate]
  rw [bytes, hhead, hsum, htail, List.replicate_append_replicate, List.replicate_append_replicate]
  rfl

/-! ## Reading -/

/-- Both models read one checksum field. -/
theorem checksum_raw {raw : RawPage} {page : Page} (hbytes : raw.bytes = page.bytes) :
    raw.checksum = page.checksum := by
  rw [RawPage.checksum, hbytes, Page.bytes, List.append_assoc, List.drop_left' page.length_headerPrefix,
    List.take_left' (length_le 4 _), unle_le,
    Nat.mod_eq_of_lt (show page.checksum.toNat < 256 ^ 4 from page.checksum.toNat_lt), UInt32.ofNat_toNat]

/-- Both models compute one checksum. -/
theorem computeChecksum_raw {raw : RawPage} {page : Page} (hbytes : raw.bytes = page.bytes) :
    raw.computeChecksum = computeChecksum page := by
  rw [RawPage.computeChecksum, hbytes, computeChecksum]

theorem Page.bytes_setChecksum (page : Page) (sum : UInt32) : ({ page with checksum := sum } : Page).bytes
    = page.headerPrefix ++ le 4 sum.toNat ++ page.afterChecksum := rfl

theorem checksummed_raw {raw : RawPage} {page : Page} (hbytes : raw.bytes = page.bytes) :
    (RawDiskManager.checksummed raw).bytes = (DiskManager.checksummed page).bytes := by
  have hfield : (page.headerPrefix ++ le 4 page.checksum.toNat).length = checksumOffset + 4 := by
    rw [List.length_append, page.length_headerPrefix, length_le]
  rw [RawDiskManager.checksummed_bytes, computeChecksum_raw hbytes, hbytes, Page.bytes,
    List.drop_left' hfield, List.append_assoc page.headerPrefix, List.take_left' page.length_headerPrefix,
    DiskManager.checksummed, Page.bytes_setChecksum]

theorem DataFile.Same.readPage {d : DiskManager} {raw : RawDiskManager} (h : d.file.Same raw.file)
    (pageId : UInt32) :
    (raw.readPage pageId).map RawPage.bytes = (d.readPage pageId.toNat).map Page.bytes := by
  unfold RawDiskManager.readPage DiskManager.readPage
  simp only
  by_cases hin : pageId.toNat < d.file.size
  · have hbytes := h.page_eq _ hin
    have hfits : pageId.toNat * pageSize + pageSize ≤ raw.file.length := by
      rw [h.length_eq, ← Nat.succ_mul]
      exact Nat.mul_le_mul_right _ hin
    have hlen : ((raw.file.drop (RawDiskManager.offset pageId)).take pageSize).length = pageSize :=
      length_slice hfits
    rw [dif_pos hlen, if_pos hin]
    have hsum := @checksum_raw ⟨_, hlen⟩ (d.file.page pageId.toNat) hbytes
    have hcompute := @computeChecksum_raw ⟨_, hlen⟩ (d.file.page pageId.toNat) hbytes
    rw [hsum, hcompute]
    by_cases hmatch : (d.file.page pageId.toNat).checksum = computeChecksum (d.file.page pageId.toNat)
    · rw [if_pos hmatch, if_pos hmatch]
      exact congrArg Except.ok hbytes
    · rw [if_neg hmatch, if_neg hmatch]
      rfl
  · have hempty : (raw.file.drop (RawDiskManager.offset pageId)).take pageSize = [] := by
      rw [List.drop_of_length_le, List.take_nil]
      rw [h.length_eq]
      exact Nat.mul_le_mul_right _ (Nat.not_lt.mp hin)
    have hzero : ¬ ((raw.file.drop (RawDiskManager.offset pageId)).take pageSize).length = pageSize := by
      rw [hempty]
      decide
    have htext : text " (got " ++ (decimal 0 ++ text " bytes) — file truncated?")
        = text " (got 0 bytes) — file truncated?" := by decide +kernel
    rw [dif_neg hzero, if_neg hin, hempty]
    simp only [List.length_nil, List.append_assoc, htext]
    rfl

/-! ## Writing -/

/-- Between the end of the file and a write past it the file has zeros. -/
theorem slice_pwrite_hole {file raw : Bytes} {n start m : Nat} (hstart : file.length ≤ start)
    (hend : start + m ≤ n) : slice (pwrite file n raw) start m = List.replicate m 0 := by
  have hbefore := length_pwrite_before file n
  have htake : (file.take n).length ≤ start := by
    rw [List.length_take]
    omega
  rw [pwrite, List.append_assoc, slice_append_left (by omega), fixedWidth, slice_append_right htake, slice,
    List.drop_replicate, List.take_replicate, List.length_take]
  congr 1
  omega

theorem length_pwrite (file raw : Bytes) (n : Nat) :
    (pwrite file n raw).length = max file.length (n + raw.length) := by
  rw [pwrite, List.length_append, List.length_append, length_pwrite_before, List.length_drop]
  omega

theorem DataFile.Same.write {f : DataFile} {file raw : Bytes} (h : f.Same file) {page : Page}
    (hbytes : raw = page.bytes) (hlen : raw.length = pageSize) (p : PageId) :
    (f.write p page).Same (pwrite file (p * pageSize) raw) where
  length_eq := by
    show _ = max f.size (p + 1) * pageSize
    rw [length_pwrite, h.length_eq, hlen, ← Nat.succ_mul]
    exact (Nat.mul_max_mul_right f.size (p + 1) pageSize)
  page_eq q hq := by
    by_cases hqp : q = p
    · subst hqp
      have hself := slice_pwrite_self file raw (q * pageSize)
      rw [hlen] at hself
      rw [hself, hbytes]
      exact congrArg Page.bytes (Function.update_self q page f.page).symm
    have hpage : (f.write p page).page q = f.page q := Function.update_of_ne hqp _ _
    have hdisj : q * pageSize + pageSize ≤ p * pageSize ∨ p * pageSize + raw.length ≤ q * pageSize := by
      rw [hlen, ← Nat.succ_mul, ← Nat.succ_mul]
      rcases Nat.lt_or_gt_of_ne hqp with hlt | hgt
      · exact .inl (Nat.mul_le_mul_right _ hlt)
      · exact .inr (Nat.mul_le_mul_right _ hgt)
    rw [hpage]
    by_cases hold : q < f.size
    · rw [slice_pwrite_of_disjoint _ hdisj]
      · exact h.page_eq q hold
      · rw [h.length_eq, ← Nat.succ_mul]
        exact Nat.mul_le_mul_right _ hold
    · -- a page skipped over: the write was past the end of the file
      have hq : q < max f.size (p + 1) := hq
      rw [f.past_end q (Nat.not_lt.mp hold), Page.zero_bytes, slice_pwrite_hole]
      · rw [h.length_eq]
        exact Nat.mul_le_mul_right _ (Nat.not_lt.mp hold)
      · rw [← Nat.succ_mul]
        exact Nat.mul_le_mul_right _ (show q + 1 ≤ p by omega)

/-! ## Runs over both files -/

/-- A page whose body fits in `PAGE_SIZE` bytes. -/
structure SizedPage where
  page : Page
  length_eq : page.bytes.length = pageSize

def SizedPage.raw (p : SizedPage) : RawPage := ⟨p.page.bytes, p.length_eq⟩

/-- What is done to the two files. -/
inductive StorageOp where
  | writePage (pageId : UInt32) (page : SizedPage)
  | appendRecord (pageId : UInt32) (page : SizedPage)
  /-- Both managers constructed anew over the files. -/
  | reopen

structure Storage where
  disk : DiskManager
  wal : WalManager

structure RawStorage where
  disk : RawDiskManager
  wal : RawWalManager

/-- A call on the log. -/
def RawStorage.onWal {α : Type} (p : Prog RawWalManager α) : Prog RawStorage Unit := fun s =>
  match p s.wal with
  | .ok _ wal => .ok () { s with wal }
  | .error e wal => .error e { s with wal }

theorem RawStorage.onWal_ok {α : Type} {p : Prog RawWalManager α} {s : RawStorage} {a : α}
    {wal : RawWalManager} (h : p s.wal = .ok a wal) : onWal p s = .ok () { s with wal } := by
  simp only [onWal, h]

def StorageOp.run (s : Storage) : StorageOp → Storage
  | .writePage pageId page => { s with disk := s.disk.writePage pageId.toNat page.page }
  | .appendRecord pageId page => { s with wal := s.wal.appendRecord pageId.toNat page.page }
  | .reopen => ⟨.new s.disk.file, .new s.wal.file⟩

def StorageOp.runRaw : StorageOp → Prog RawStorage Unit
  | .writePage pageId page => fun s => .ok () { s with disk := s.disk.writePage pageId page.raw }
  | .appendRecord pageId page => RawStorage.onWal (RawWalManager.appendRecord pageId page.raw)
  | .reopen => fun s => .ok () { s with wal := .new s.wal.file }

def runStorage (s : Storage) (ops : List StorageOp) : Storage := ops.foldl StorageOp.run s

def runRawStorage : List StorageOp → Prog RawStorage Unit
  | [] => pure ()
  | op :: ops => do
    op.runRaw
    runRawStorage ops

/-- Both managers over empty files. -/
def Storage.empty : Storage := ⟨.new .empty, .new .empty⟩

def RawStorage.empty : RawStorage := ⟨⟨[]⟩, .new []⟩

def StorageOp.isAppend : StorageOp → Bool
  | .appendRecord .. => true
  | _ => false

/-- The two models of a storage agree, `n` records having been appended to it. -/
structure Storage.Same (s : Storage) (raw : RawStorage) (n : Nat) : Prop where
  disk : s.disk.file.Same raw.disk.file
  wal : s.wal.Same raw.wal
  end_eq : raw.wal.nextOffset = raw.wal.file.length
  tail_eq : s.wal.file.tail = 0
  slots : ∀ r ∈ s.wal.file.slots, r.Fits ∧ r.lsn < n
  length_le : s.wal.file.slots.length ≤ n
  next_le : s.wal.nextLsn ≤ n

theorem foldl_max_le {rs : List WalRecord} {n next : Nat} (hnext : next ≤ n) (hrs : ∀ r ∈ rs, r.lsn < n) :
    rs.foldl (fun next r => max next (r.lsn + 1)) next ≤ n := by
  induction rs generalizing next with
  | nil => exact hnext
  | cons r rs ih =>
    have hr := hrs r List.mem_cons_self
    exact ih (Nat.max_le.mpr ⟨hnext, hr⟩) fun r' hr' => hrs r' (List.mem_cons_of_mem _ hr')

theorem length_flatMap_bytes {rs : List WalRecord} (hrs : ∀ r ∈ rs, r.Fits) :
    (rs.flatMap WalRecord.bytes).length = rs.length * walRecordSize := by
  induction rs with
  | nil => exact (Nat.zero_mul _).symm
  | cons r rs ih =>
    have hr : r.bytes.length = walRecordSize := by
      rw [WalRecord.bytes, List.length_append, WalRecordHeader.length_bytes,
        (hrs r List.mem_cons_self).length_eq]
      rfl
    rw [List.flatMap_cons, List.length_append, hr, ih fun r' hr' => hrs r' (List.mem_cons_of_mem _ hr'),
      List.length_cons, Nat.succ_mul, Nat.add_comm]

section

variable {s : Storage} {raw : RawStorage} {n : Nat}

theorem Storage.Same.appendRecord (h : s.Same raw n) {pageId : UInt32} {page : SizedPage}
    (hroom : (n + 1) * walRecordSize ≤ maxFileOffset) : ∃ wal,
    (StorageOp.appendRecord pageId page).runRaw raw = .ok () { raw with wal } ∧
      ((StorageOp.appendRecord pageId page).run s).Same { raw with wal } (n + 1) := by
  have hlt := RawWalManager.length_lt_of_bounded hroom
  have hfits : raw.wal.nextOffset + walRecordSize ≤ maxFileOffset := by
    refine le_trans ?_ hroom
    rw [h.end_eq, h.wal.file_eq, length_flatMap_bytes fun r hr => (h.slots r hr).1, ← Nat.succ_mul]
    exact Nat.mul_le_mul_right _ (Nat.succ_le_succ h.length_le)
  obtain ⟨lsn, page', wal, happ⟩ : ∃ lsn page' wal,
      RawWalManager.appendRecord pageId page.raw raw.wal = .ok (lsn, page') wal :=
    ⟨_, _, _, by simp only [RawWalManager.appendRecord, if_pos hfits]; rfl⟩
  have hnext := h.next_le
  obtain ⟨hsame, hlsn, hbytes⟩ := h.wal.append h.end_eq (by omega)
    (show page.raw.bytes = page.page.bytes from rfl) happ
  refine ⟨wal, @RawStorage.onWal_ok _ (RawWalManager.appendRecord pageId page.raw) raw _ _ happ, ?_⟩
  refine ⟨h.disk, hsame, ?_, h.tail_eq, fun r hr => ?_, ?_, ?_⟩
  · simp only [RawWalManager.appendRecord, if_pos hfits, EStateM.Result.ok.injEq] at happ
    obtain ⟨-, rfl⟩ := happ
    have hlen : ((RawWalManager.header raw.wal.nextLsn pageId (page.raw.stamp raw.wal.nextLsn.toUInt32)).bytes
        ++ (page.raw.stamp raw.wal.nextLsn.toUInt32).bytes).length = walRecordSize :=
      RawRecoveredPage.length_bytes ⟨pageId, raw.wal.nextLsn, page.raw.stamp raw.wal.nextLsn.toUInt32⟩
    show raw.wal.nextOffset + walRecordSize = (pwrite raw.wal.file raw.wal.nextOffset _).length
    rw [length_pwrite, hlen, ← h.end_eq]
    omega
  · rcases List.mem_append.mp hr with hr | hr
    · exact ⟨(h.slots r hr).1, Nat.lt_succ_of_lt (h.slots r hr).2⟩
    · rw [List.mem_singleton.mp hr]
      refine ⟨⟨?_, pageId.toNat_lt, ?_⟩, Nat.lt_succ_of_le hnext⟩
      · show s.wal.nextLsn + 1 < 2 ^ 64
        omega
      · show (s.wal.stamped page.page).bytes.length = pageSize
        rw [← hbytes, page'.length_eq]
  · show (s.wal.file.slots ++ [_]).length ≤ n + 1
    rw [List.length_append, List.length_singleton]
    exact Nat.succ_le_succ h.length_le
  · exact Nat.succ_le_succ hnext

theorem Storage.Same.reopen (h : s.Same raw n) :
    (StorageOp.reopen.run s).Same { raw with wal := .new raw.wal.file } n := by
  have hfits : ∀ r ∈ s.wal.file.slots, r.Fits := fun r hr => (h.slots r hr).1
  have hempty : ([] : Bytes).length < walRecordSize := walRecordSize_pos
  have hnew := new_same s.wal.file hfits hempty
  rw [List.append_nil, ← h.wal.file_eq] at hnew
  have hsub : ∀ r ∈ s.wal.file.slots.takeWhile WalRecord.intact, r.Fits ∧ r.lsn < n :=
    fun r hr => h.slots r (List.takeWhile_subset _ hr)
  refine ⟨h.disk, hnew, ?_, rfl, hsub, ?_, foldl_max_le (Nat.zero_le n) fun r hr => (hsub r hr).2⟩
  · rw [hnew.offset_eq, hnew.file_eq, length_flatMap_bytes]
    · rfl
    · exact fun r hr => (hsub r hr).1
  · exact (List.takeWhile_sublist _).length_le.trans h.length_le

/-- **Step lemma.** -/
theorem Storage.Same.step (h : s.Same raw n) (op : StorageOp)
    (hroom : (n + op.isAppend.toNat) * walRecordSize ≤ maxFileOffset) : ∃ raw',
    op.runRaw raw = .ok () raw' ∧ (op.run s).Same raw' (n + op.isAppend.toNat) := by
  cases op with
  | writePage pageId page =>
    refine ⟨_, rfl, { h with disk := ?_ }⟩
    exact h.disk.write (checksummed_raw rfl) (RawDiskManager.checksummed page.raw).length_eq pageId.toNat
  | appendRecord pageId page =>
    obtain ⟨wal, hrun, hsame⟩ := h.appendRecord hroom
    exact ⟨_, hrun, hsame⟩
  | reopen => exact ⟨_, rfl, h.reopen⟩

/-- **Run lemma.** -/
theorem Storage.Same.run (h : s.Same raw n) (ops : List StorageOp)
    (hroom : (n + ops.countP StorageOp.isAppend) * walRecordSize ≤ maxFileOffset) : ∃ raw' n',
    runRawStorage ops raw = .ok () raw' ∧ (runStorage s ops).Same raw' n' := by
  induction ops generalizing s raw n with
  | nil => exact ⟨raw, n, rfl, h⟩
  | cons op ops ih =>
    have hcount : n + (op :: ops).countP StorageOp.isAppend
        = n + op.isAppend.toNat + ops.countP StorageOp.isAppend := by
      rw [List.countP_cons, Nat.add_assoc]
      cases op.isAppend <;> simp [Nat.add_comm]
    rw [hcount] at hroom
    obtain ⟨raw', hrun, hsame⟩ := h.step op
      (le_trans (Nat.mul_le_mul_right _ (Nat.le_add_right _ _)) hroom)
    obtain ⟨raw'', n', hruns, hsame'⟩ := ih hsame hroom
    exact ⟨raw'', n', by rw [runRawStorage, Prog.bind_ok hrun, hruns], hsame'⟩

end

theorem Storage.empty_same : Storage.empty.Same RawStorage.empty 0 where
  disk := ⟨rfl, fun p hp => absurd hp (Nat.not_lt_zero p)⟩
  wal := ⟨rfl, rfl, rfl, .nil⟩
  end_eq := rfl
  tail_eq := rfl
  slots r hr := by cases hr
  length_le := le_refl 0
  next_le := le_refl 0

/-- What a process sees of the two files. -/
structure Storage.SameAnswers (s : Storage) (raw : RawStorage) : Prop where
  /-- A read returns the same bytes in both, or throws the same in both. -/
  reads : ∀ pageId : UInt32,
    (raw.disk.readPage pageId).map RawPage.bytes = (s.disk.readPage pageId.toNat).map Page.bytes
  records : List.Forall₂ RecoveredPage.Same s.wal.validRecords raw.wal.validRecords
  next_eq : raw.wal.nextLsn.toNat = s.wal.nextLsn
  /-- The file counts as many pages in both, and the log has as many bytes. -/
  size_eq : raw.disk.file.length = s.disk.file.size * pageSize
  log_eq : raw.wal.file.length = s.wal.file.size

/-- **The two files by pages and slots are the two files by bytes**: every sequence of page writes, appends
and openings, of pages of 4096 bytes and no more records than file offsets, does the same in both models. -/
theorem storage_by_bytes {ops : List StorageOp}
    (hroom : ops.countP StorageOp.isAppend * walRecordSize ≤ maxFileOffset) : ∃ raw,
    runRawStorage ops RawStorage.empty = .ok () raw ∧ (runStorage Storage.empty ops).SameAnswers raw := by
  obtain ⟨raw, n, hrun, hsame⟩ := Storage.empty_same.run ops (by rwa [Nat.zero_add])
  refine ⟨raw, hrun, hsame.disk.readPage, hsame.wal.records, hsame.wal.next_eq, hsame.disk.length_eq, ?_⟩
  rw [hsame.wal.file_eq, length_flatMap_bytes fun r hr => (hsame.slots r hr).1, WalFile.size, hsame.tail_eq,
    Nat.add_zero]

def SizedPage.zero : SizedPage := ⟨.zero, by rw [Page.zero_bytes, List.length_replicate]⟩

/-- A page logged, both managers opened again, and the page written past a hole. -/
theorem storage_by_bytes_hole :
    ∃ raw, runRawStorage [.appendRecord 2 .zero, .reopen, .writePage 2 .zero] RawStorage.empty
        = .ok () raw ∧
      (runStorage Storage.empty [.appendRecord 2 .zero, .reopen, .writePage 2 .zero]).SameAnswers raw :=
  storage_by_bytes (by decide)

end Reldb
