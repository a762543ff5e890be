import Reldb.Log.Reopen
import Mathlib.Data.List.Forall2
import Mathlib.Data.List.TakeWhile

/-!
# Reldb — the log by slots is the log by bytes

`WalManager` keeps the records of the log file as slots, `RawWalManager` as the bytes of the file.
On slots whose numbers fit their fields and whose pages are 4096 bytes, opening a file and appending to
it do the same in both.
-/

namespace Reldb

/-- The slot's numbers fit their fields, the LSN after its own too, and its page is `PAGE_SIZE`
bytes. -/
structure WalRecord.Fits (r : WalRecord) : Prop where
  lsn_lt : r.lsn + 1 < 2 ^ 64
  pageId_lt : r.pageId < 2 ^ 32
  length_eq : r.page.bytes.length = pageSize

/-- The header of a slot. -/
def WalRecord.header (r : WalRecord) : WalRecordHeader :=
  ⟨r.magic, .ofNat r.lsn, .ofNat r.pageId, r.checksum⟩

/-- The bytes of a slot. -/
def WalRecord.bytes (r : WalRecord) : Bytes := r.header.bytes ++ r.page.bytes

/-- One record, as slots keep it and as bytes. -/
structure RecoveredPage.Same (r : RecoveredPage) (raw : RawRecoveredPage) : Prop where
  pageId_eq : raw.pageId.toNat = r.pageId
  lsn_eq : raw.lsn.toNat = r.lsn
  bytes_eq : raw.page.bytes = r.page.bytes

/-- One log, as slots and as bytes. -/
structure WalManager.Same (w : WalManager) (raw : RawWalManager) : Prop where
  file_eq : raw.file = w.file.slots.flatMap WalRecord.bytes
  offset_eq : raw.nextOffset = w.nextOffset
  next_eq : raw.nextLsn.toNat = w.nextLsn
  records : List.Forall₂ RecoveredPage.Same w.validRecords raw.validRecords

/-! ## Checksums and stamps -/

/-- Both models compute one checksum. -/
theorem computeRecordChecksum_raw (h : WalRecordHeader) {raw : RawPage} {page : Page}
    (hbytes : raw.bytes = page.bytes) :
    h.computeRecordChecksum raw = computeRecordChecksum h.magic h.lsn.toNat h.pageId.toNat page := by
  simp only [WalRecordHeader.computeRecordChecksum, computeRecordChecksum, hbytes]

/-- Both models stamp the same four bytes. -/
theorem stamp_bytes {raw : RawPage} {page : Page} (hbytes : raw.bytes = page.bytes) (lsn : UInt64) :
    (raw.stamp lsn.toUInt32).bytes = ({ page with lsn := lsn.toNat % 2 ^ 32 } : Page).bytes := by
  have hpre : (pageIdBytes page.pageId ++ [page.body.typeByte] ++ le 2 page.body.numSlots
      ++ List.replicate 2 0).length = lsnOffset := by simp [pageIdBytes, lsnOffset]
  have hhead : page.headerPrefix = (pageIdBytes page.pageId ++ [page.body.typeByte]
      ++ le 2 page.body.numSlots ++ List.replicate 2 0) ++ le 4 page.lsn := rfl
  have hpage : page.bytes = (pageIdBytes page.pageId ++ [page.body.typeByte]
      ++ le 2 page.body.numSlots ++ List.replicate 2 0) ++ (le 4 page.lsn
      ++ (le 4 page.checksum.toNat ++ page.afterChecksum)) := by
    rw [Page.bytes, hhead]
    simp only [List.append_assoc]
  have hdrop : page.bytes.drop (lsnOffset + 4) = le 4 page.checksum.toNat ++ page.afterChecksum := by
    rw [hpage, ← List.append_assoc, List.drop_left' (by rw [List.length_append, hpre, length_le])]
  change raw.bytes.take lsnOffset ++ le 4 lsn.toUInt32.toNat ++ raw.bytes.drop (lsnOffset + 4) = _
  rw [hbytes, hdrop, hpage, List.take_left' hpre]
  simp only [Page.bytes, Page.headerPrefix, List.append_assoc, UInt64.toNat_toUInt32]
  rfl

/-! ## Appending -/

/-- **Appending** does the same to both. -/
theorem WalManager.Same.append {w : WalManager} {raw raw' : RawWalManager} (h : w.Same raw)
    (hraw : raw.nextOffset = raw.file.length) (hlsn : w.nextLsn + 1 < 2 ^ 64)
    {pageId : UInt32} {rawPage page' : RawPage} {page : Page} (hbytes : rawPage.bytes = page.bytes)
    {lsn : UInt64} (happ : RawWalManager.appendRecord pageId rawPage raw = .ok (lsn, page') raw') :
    (w.appendRecord pageId.toNat page).Same raw' ∧ lsn.toNat = w.nextLsn ∧
      page'.bytes = (w.stamped page).bytes := by
  simp only [RawWalManager.appendRecord] at happ
  split at happ
  · simp only [EStateM.Result.ok.injEq, Prod.mk.injEq] at happ
    obtain ⟨⟨rfl, rfl⟩, rfl⟩ := happ
    have hstamp : (rawPage.stamp raw.nextLsn.toUInt32).bytes = (w.stamped page).bytes := by
      rw [stamp_bytes hbytes, WalManager.stamped, h.next_eq]
    have hrecord : (w.nextRecord pageId.toNat page).bytes
        = (RawWalManager.header raw.nextLsn pageId (rawPage.stamp raw.nextLsn.toUInt32)).bytes
          ++ (rawPage.stamp raw.nextLsn.toUInt32).bytes := by
      have hsum := computeRecordChecksum_raw ⟨walMagic, raw.nextLsn, pageId, 0⟩ hstamp
      rw [WalRecord.bytes, hstamp]
      simp only [WalRecord.header, nextRecord, WalRecord.of, RawWalManager.header, hsum, h.next_eq]
      rw [← h.next_eq, UInt64.ofNat_toNat, UInt32.ofNat_toNat]
    refine ⟨⟨?_, ?_, ?_, ?_⟩, h.next_eq, hstamp⟩
    · change pwrite raw.file raw.nextOffset _ = _
      rw [hraw, RawWalManager.pwrite_at_end, h.file_eq, ← hrecord]
      simp only [appendRecord, List.flatMap_append, List.flatMap_cons, List.flatMap_nil,
        List.append_nil]
    · exact congrArg (· + walRecordSize) h.offset_eq
    · change (raw.nextLsn + 1).toNat = _
      rw [UInt64.toNat_add, h.next_eq]
      exact Nat.mod_eq_of_lt hlsn
    · exact List.rel_append h.records (.cons ⟨rfl, h.next_eq, hstamp⟩ .nil)
  · cases happ

/-! ## Opening -/

/-- An intact slot's bytes are a record's. -/
theorem WalRecord.Fits.exists_raw {r : WalRecord} (h : r.Fits) (hintact : r.intact = true) :
    ∃ raw : RawRecoveredPage, raw.bytes = r.bytes ∧ r.recovered.Same raw := by
  simp only [intact, Bool.and_eq_true, beq_iff_eq] at hintact
  have hlsn : (UInt64.ofNat r.lsn).toNat = r.lsn := by
    rw [UInt64.toNat_ofNat', Nat.mod_eq_of_lt (Nat.lt_of_succ_lt h.lsn_lt)]
  have hpage : (UInt32.ofNat r.pageId).toNat = r.pageId := by
    rw [UInt32.toNat_ofNat', Nat.mod_eq_of_lt h.pageId_lt]
  refine ⟨⟨.ofNat r.pageId, .ofNat r.lsn, ⟨r.page.bytes, h.length_eq⟩⟩, ?_, hpage, hlsn, rfl⟩
  have hsum := computeRecordChecksum_raw ⟨walMagic, .ofNat r.lsn, .ofNat r.pageId, 0⟩
    (show (⟨r.page.bytes, h.length_eq⟩ : RawPage).bytes = r.page.bytes from rfl)
  simp only [hlsn, hpage] at hsum
  rw [RawRecoveredPage.bytes, bytes]
  simp only [RawWalManager.header, hsum, header, hintact.1, ← hintact.2]

/-- A slot that is not intact stops both scans. -/
theorem WalRecord.Fits.torn {r : WalRecord} (h : r.Fits) (hintact : r.intact = false)
    (rest : Bytes) : Torn (r.bytes ++ rest) := by
  have hlsn : (UInt64.ofNat r.lsn).toNat = r.lsn := by
    rw [UInt64.toNat_ofNat', Nat.mod_eq_of_lt (Nat.lt_of_succ_lt h.lsn_lt)]
  have hpage : (UInt32.ofNat r.pageId).toNat = r.pageId := by
    rw [UInt32.toNat_ofNat', Nat.mod_eq_of_lt h.pageId_lt]
  have hlen : r.bytes.length = walRecordSize := by
    rw [bytes, List.length_append, WalRecordHeader.length_bytes, h.length_eq]
    rfl
  have hheader : WalRecordHeader.ofBytes (r.bytes ++ rest) = r.header := by
    rw [bytes, List.append_assoc, WalRecordHeader.ofBytes_bytes]
  by_cases hmagic : r.magic = walMagic
  · refine .inr (.inr fun page hbytes => ?_)
    rw [List.take_left' hlen, bytes, List.drop_left' (WalRecordHeader.length_bytes _)] at hbytes
    rw [hheader, computeRecordChecksum_raw _ hbytes]
    simp only [header, hlsn, hpage]
    simpa [intact, hmagic] using hintact
  · exact .inr (.inl (by rw [hheader]; exact hmagic))

/-- The next LSN after the same records. -/
theorem nextLsnAfter_same {rs : List WalRecord} {L : List RawRecoveredPage}
    (h : List.Forall₂ (fun r (raw : RawRecoveredPage) => r.lsn + 1 < 2 ^ 64 ∧ raw.lsn.toNat = r.lsn)
      rs L) (next : UInt64) :
    (RawWalManager.nextLsnAfter next L).toNat
      = rs.foldl (fun next r => max next (r.lsn + 1)) next.toNat := by
  induction h generalizing next with
  | nil => rfl
  | @cons r raw _ _ hr _ ih =>
    have hlsn : (raw.lsn + 1).toNat = r.lsn + 1 := by
      rw [UInt64.toNat_add, hr.2]
      exact Nat.mod_eq_of_lt hr.1
    have hmax : (max next (raw.lsn + 1)).toNat = max next.toNat (r.lsn + 1) := by
      rw [← hlsn]
      change (if next ≤ raw.lsn + 1 then raw.lsn + 1 else next).toNat
        = if next.toNat ≤ (raw.lsn + 1).toNat then (raw.lsn + 1).toNat else next.toNat
      simp only [UInt64.le_iff_toNat_le]
      split <;> rfl
    rw [List.foldl_cons, ← hmax]
    exact ih _

/-- **Opening** finds the same in both: the intact slots before the first that is not, or before the
bytes at the end that make no slot. -/
theorem new_same (f : WalFile) (hfits : ∀ r ∈ f.slots, r.Fits) {tail : Bytes}
    (htail : tail.length < walRecordSize) :
    (WalManager.new f).Same (RawWalManager.new (f.slots.flatMap WalRecord.bytes ++ tail)) := by
  obtain ⟨valid, hval⟩ : ∃ valid, valid = f.slots.takeWhile WalRecord.intact := ⟨_, rfl⟩
  -- the raw records of the accepted slots
  obtain ⟨L, hL⟩ : ∃ L : List RawRecoveredPage, List.Forall₂
      (fun r raw => (raw.bytes = WalRecord.bytes r ∧ r.recovered.Same raw) ∧ r.lsn + 1 < 2 ^ 64)
      valid L := by
    have hvalid : ∀ r ∈ valid, ∃ raw : RawRecoveredPage,
        (raw.bytes = WalRecord.bytes r ∧ r.recovered.Same raw) ∧ r.lsn + 1 < 2 ^ 64 := by
      intro r hr
      rw [hval] at hr
      have hr' := hfits r (List.takeWhile_subset _ hr)
      obtain ⟨raw, hraw⟩ := hr'.exists_raw (List.mem_takeWhile_imp hr)
      exact ⟨raw, hraw, hr'.lsn_lt⟩
    clear hval
    induction valid with
    | nil => exact ⟨[], .nil⟩
    | cons r rs ih =>
      obtain ⟨raw, hraw⟩ := hvalid r List.mem_cons_self
      obtain ⟨L, hL⟩ := ih fun r' hr' => hvalid r' (List.mem_cons_of_mem _ hr')
      exact ⟨raw :: L, .cons hraw hL⟩
  have hbytes : logBytes L = valid.flatMap WalRecord.bytes := by
    clear hval
    induction hL with
    | nil => rfl
    | cons hraw _ ih => rw [logBytes_cons, List.flatMap_cons, hraw.1.1, ih]
  have htorn : Torn ((f.slots.dropWhile WalRecord.intact).flatMap WalRecord.bytes ++ tail) := by
    cases hrest : f.slots.dropWhile WalRecord.intact with
    | nil => exact .inl (by simpa using htail)
    | cons r rest =>
      have hr : r ∈ f.slots := (List.dropWhile_sublist _).subset (hrest ▸ List.mem_cons_self)
      have hbad : r.intact = false := by
        have := List.head?_dropWhile_not WalRecord.intact f.slots
        rw [hrest] at this
        simpa using this
      rw [List.flatMap_cons, List.append_assoc]
      exact (hfits r hr).torn hbad _
  have hfile : f.slots.flatMap WalRecord.bytes ++ tail
      = logBytes L ++ ((f.slots.dropWhile WalRecord.intact).flatMap WalRecord.bytes ++ tail) := by
    rw [hbytes, hval, ← List.append_assoc, ← List.flatMap_append, List.takeWhile_append_dropWhile]
  rw [hfile, RawWalManager.new_logBytes L htorn]
  refine ⟨?_, ?_, ?_, ?_⟩
  · rw [hbytes, hval]
    rfl
  · rw [← hL.length_eq, hval]
    rfl
  · rw [nextLsnAfter_same (hL.imp fun _ _ h => ⟨h.2, h.1.2.lsn_eq⟩), hval]
    rfl
  · refine List.forall₂_map_left_iff.mpr ?_
    rw [← hval]
    exact hL.imp fun _ _ h => h.1.2

end Reldb
