import Reldb.RawWal
import Reldb.Tables.Codec
import Mathlib.Data.List.Induction

/-!
# Reldb — a log that is cut anywhere and reopened

Appends, and crashes that cut the file at any byte and leave any bytes after the cut, in any order and
number. As long as what follows the last whole record does not itself start with a valid one, opening
finds the whole records before the cut and nothing else, and the manager goes on as if they were all
that was ever appended.

Invariant: `RawWalManager.Holds`. Step lemmas: `Holds.append`, `Holds.crash`. Run lemma:
`LogRun.holds`.
-/

namespace Reldb

/-! ## Records as bytes -/

/-- The record a page was logged in. -/
def RawRecoveredPage.bytes (r : RawRecoveredPage) : Bytes :=
  (RawWalManager.header r.lsn r.pageId r.page).bytes ++ r.page.bytes

theorem WalRecordHeader.length_bytes (h : WalRecordHeader) : h.bytes.length = walRecordHeaderSize := by
  simp only [bytes, List.length_append, length_le, walRecordHeaderSize]

theorem RawRecoveredPage.length_bytes (r : RawRecoveredPage) : r.bytes.length = walRecordSize := by
  rw [bytes, List.length_append, WalRecordHeader.length_bytes, r.page.length_eq]
  rfl

/-- What was copied into a buffer is copied out of it. -/
theorem WalRecordHeader.ofBytes_bytes (h : WalRecordHeader) (rest : Bytes) :
    ofBytes (h.bytes ++ rest) = h := by
  have hunle32 : ∀ v : UInt32, UInt32.ofNat (unle (le 4 v.toNat)) = v := fun v => by
    rw [unle_le, Nat.mod_eq_of_lt (show v.toNat < 256 ^ 4 from v.toNat_lt), UInt32.ofNat_toNat]
  have hunle64 : ∀ v : UInt64, UInt64.ofNat (unle (le 8 v.toNat)) = v := fun v => by
    rw [unle_le, Nat.mod_eq_of_lt (show v.toNat < 256 ^ 8 from v.toNat_lt), UInt64.ofNat_toNat]
  have hmagic : (h.bytes ++ rest).take 4 = le 4 h.magic.toNat := by
    simp only [bytes, List.append_assoc]
    exact List.take_left' (length_le 4 _)
  have hlsn : ((h.bytes ++ rest).drop 4).take 8 = le 8 h.lsn.toNat := by
    simp only [bytes, List.append_assoc]
    rw [List.drop_left' (length_le 4 _)]
    exact List.take_left' (length_le 8 _)
  have hpage : ((h.bytes ++ rest).drop 12).take 4 = le 4 h.pageId.toNat := by
    have hpre : (le 4 h.magic.toNat ++ le 8 h.lsn.toNat).length = 12 := by simp
    rw [bytes, List.append_assoc, List.append_assoc, List.drop_left' hpre]
    exact List.take_left' (length_le 4 _)
  have hsum : ((h.bytes ++ rest).drop 16).take 4 = le 4 h.checksum.toNat := by
    have hpre : (le 4 h.magic.toNat ++ le 8 h.lsn.toNat ++ le 4 h.pageId.toNat).length = 16 := by simp
    rw [bytes, List.append_assoc, List.drop_left' hpre]
    exact List.take_left' (length_le 4 _)
  unfold ofBytes
  rw [hmagic, hlsn, hpage, hsum, hunle32, hunle64, hunle32, hunle32]

/-- The bytes of a log that holds `L`. -/
def logBytes (L : List RawRecoveredPage) : Bytes := L.flatMap RawRecoveredPage.bytes

theorem logBytes_cons (r : RawRecoveredPage) (L : List RawRecoveredPage) :
    logBytes (r :: L) = r.bytes ++ logBytes L := rfl

theorem logBytes_concat (L : List RawRecoveredPage) (r : RawRecoveredPage) :
    logBytes (L ++ [r]) = logBytes L ++ r.bytes := by
  rw [logBytes, List.flatMap_append]
  exact congrArg (logBytes L ++ ·) (List.append_nil _)

theorem length_logBytes (L : List RawRecoveredPage) :
    (logBytes L).length = L.length * walRecordSize := by
  induction L with
  | nil => simp [logBytes]
  | cons r L ih =>
    rw [logBytes_cons, List.length_append, ih, r.length_bytes, List.length_cons, Nat.succ_mul,
      Nat.add_comm]

/-- Cutting between records. -/
theorem take_logBytes (L : List RawRecoveredPage) (k : Nat) :
    (logBytes L).take (k * walRecordSize) = logBytes (L.take k) := by
  induction L generalizing k with
  | nil => simp [logBytes]
  | cons r L ih =>
    cases k with
    | zero => simp [logBytes]
    | succ k =>
      have hlen : (k + 1) * walRecordSize = r.bytes.length + k * walRecordSize := by
        rw [r.length_bytes, Nat.succ_mul, Nat.add_comm]
      rw [List.take_succ_cons, logBytes_cons, logBytes_cons, ← ih k, hlen, List.take_length_add_append]

theorem walRecordSize_pos : 0 < walRecordSize := by decide

/-! ## The opening scan -/

/-- The next record-sized slot of `tail` is short, has a wrong magic or a wrong checksum. -/
def Torn (tail : Bytes) : Prop :=
  tail.length < walRecordSize ∨
    (WalRecordHeader.ofBytes tail).magic ≠ walMagic ∨
    ∀ page : RawPage, page.bytes = (tail.take walRecordSize).drop walRecordHeaderSize →
      (WalRecordHeader.ofBytes tail).computeRecordChecksum page
        ≠ (WalRecordHeader.ofBytes tail).checksum

/-- Only the header's own bytes are read for it. -/
theorem WalRecordHeader.ofBytes_take (tail : Bytes) :
    ofBytes (tail.take walRecordSize) = ofBytes tail := by
  have hsize : walRecordSize = 20 + pageSize := rfl
  unfold ofBytes
  simp only [List.take_take, List.drop_take]
  rw [min_eq_left (by omega), min_eq_left (by omega), min_eq_left (by omega),
    min_eq_left (by omega)]

namespace RawWalManager

/-- The next LSN after a scan over `L`. -/
def nextLsnAfter (next : UInt64) (L : List RawRecoveredPage) : UInt64 :=
  L.foldl (fun next r => max next (r.lsn + 1)) next

/-- **The scan accepts the records before a torn tail**, and stops there. -/
theorem scan_logBytes (before : Bytes) (L : List RawRecoveredPage) {tail : Bytes} (htorn : Torn tail)
    (w : RawWalManager) (hoffset : w.nextOffset = before.length) {fuel : Nat}
    (hfuel : L.length < fuel) :
    scan (before ++ logBytes L ++ tail) fuel w
      = { w with
          nextOffset := w.nextOffset + L.length * walRecordSize
          nextLsn := nextLsnAfter w.nextLsn L
          validRecords := w.validRecords ++ L } := by
  induction L generalizing before w fuel with
  | nil =>
    obtain ⟨fuel, rfl⟩ := Nat.exists_eq_succ_of_ne_zero (Nat.ne_of_gt hfuel)
    have hfile : before ++ logBytes [] ++ tail = before ++ tail := by
      rw [logBytes, List.flatMap_nil, List.append_nil]
    have hstop : scan (before ++ tail) (fuel + 1) w = w := by
      unfold scan
      split
      · rename_i hfits
        have hdrop : (before ++ tail).drop w.nextOffset = tail := List.drop_left' hoffset.symm
        simp only [hdrop, WalRecordHeader.ofBytes_take]
        rcases htorn with hshort | hmagic | hsum
        · rw [List.length_append, hoffset] at hfits
          omega
        · rw [if_pos hmagic]
        · split
          · rfl
          · rw [if_pos (hsum _ rfl)]
      · rfl
    rw [hfile, hstop]
    simp [nextLsnAfter]
  | cons r L ih =>
    obtain ⟨fuel, rfl⟩ := Nat.exists_eq_succ_of_ne_zero (Nat.ne_of_gt (Nat.zero_lt_of_lt hfuel))
    have hfile : before ++ logBytes (r :: L) ++ tail = (before ++ r.bytes) ++ logBytes L ++ tail := by
      rw [logBytes_cons]
      simp only [List.append_assoc]
    have hstep : scan (before ++ logBytes (r :: L) ++ tail) (fuel + 1) w
        = scan (before ++ logBytes (r :: L) ++ tail) fuel { w with
            validRecords := w.validRecords ++ [r]
            nextLsn := max w.nextLsn (r.lsn + 1)
            nextOffset := w.nextOffset + walRecordSize } := by
      have hraw : ((before ++ logBytes (r :: L) ++ tail).drop w.nextOffset).take walRecordSize
          = r.bytes := by
        rw [logBytes_cons, List.append_assoc, List.append_assoc, List.drop_left' hoffset.symm]
        exact List.take_left' r.length_bytes
      have hpage : r.bytes.drop walRecordHeaderSize = r.page.bytes :=
        List.drop_left' (WalRecordHeader.length_bytes _)
      have hheader : WalRecordHeader.ofBytes r.bytes = header r.lsn r.pageId r.page :=
        WalRecordHeader.ofBytes_bytes _ _
      have hfits : w.nextOffset + walRecordSize ≤ (before ++ logBytes (r :: L) ++ tail).length := by
        rw [logBytes_cons, hoffset]
        simp only [List.length_append, r.length_bytes]
        omega
      rw [scan, dif_pos hfits]
      simp only [hraw, hpage, hheader]
      rw [if_neg (by simp [header]), if_neg (by simp [header, WalRecordHeader.computeRecordChecksum])]
      rfl
    rw [hstep, hfile, ih (before ++ r.bytes) _
      (by rw [List.length_append, r.length_bytes, ← hoffset]) (Nat.lt_of_succ_lt_succ hfuel)]
    simp only [List.length_cons, Nat.succ_mul, nextLsnAfter, List.foldl_cons, List.append_assoc,
      List.singleton_append, mk.injEq, and_true, true_and]
    omega

/-- **Opening** a log of whole records with a torn tail. -/
theorem new_logBytes (L : List RawRecoveredPage) {tail : Bytes} (htorn : Torn tail) :
    new (logBytes L ++ tail)
      = ⟨logBytes L, L.length * walRecordSize, nextLsnAfter 0 L, L⟩ := by
  have hfuel : L.length < (logBytes L ++ tail).length / walRecordSize + 1 := by
    rw [List.length_append, length_logBytes, Nat.lt_succ_iff, Nat.le_div_iff_mul_le walRecordSize_pos]
    exact Nat.le_add_right _ _
  have hscan := scan_logBytes [] L htorn ⟨logBytes L ++ tail, 0, 0, []⟩ rfl hfuel
  rw [List.nil_append] at hscan
  have hcut : (logBytes L ++ tail).take (L.length * walRecordSize) = logBytes L :=
    List.take_left' (length_logBytes L)
  simp only [new, hscan, Nat.zero_add, List.nil_append, hcut]

/-! ## Runs -/

/-- What a manager holds when the records in its file are `L`: LSNs count the records, of which there
are no more than file offsets. -/
structure Holds (w : RawWalManager) (L : List RawRecoveredPage) : Prop where
  file_eq : w.file = logBytes L
  offset_eq : w.nextOffset = L.length * walRecordSize
  records_eq : w.validRecords = L
  next_eq : w.nextLsn.toNat = L.length
  numbered : L.map (fun r => r.lsn.toNat) = List.range L.length
  bounded : L.length * walRecordSize ≤ maxFileOffset

theorem length_lt_of_bounded {n : Nat} (h : n * walRecordSize ≤ maxFileOffset) : n < 2 ^ 64 := by
  have hsize : n ≤ n * walRecordSize := Nat.le_mul_of_pos_right n walRecordSize_pos
  have hmax : maxFileOffset < 2 ^ 64 := by decide
  omega

/-- Records numbered from 0 leave the next number to be their count. -/
theorem nextLsnAfter_numbered {L : List RawRecoveredPage}
    (h : L.map (fun r => r.lsn.toNat) = List.range L.length) (hlt : L.length < 2 ^ 64) :
    (nextLsnAfter 0 L).toNat = L.length := by
  -- the induction is on the end of the log, where the largest LSN is
  induction L using List.reverseRecOn with
  | nil => rfl
  | append_singleton L r ih =>
    rw [List.map_append, List.length_append, List.length_singleton, List.range_succ] at h
    obtain ⟨hL, hr⟩ := List.append_inj h (by simp)
    have hr : r.lsn.toNat = L.length := by simpa using hr
    rw [List.length_append, List.length_singleton] at hlt ⊢
    have hnext := ih hL (by omega)
    have hlsn : (r.lsn + 1).toNat = L.length + 1 := by
      rw [UInt64.toNat_add, hr]
      exact Nat.mod_eq_of_lt hlt
    have hle : nextLsnAfter 0 L ≤ r.lsn + 1 := by
      rw [UInt64.le_iff_toNat_le, hnext, hlsn]
      omega
    rw [nextLsnAfter, List.foldl_append]
    change (max (nextLsnAfter 0 L) (r.lsn + 1)).toNat = _
    rw [show max (nextLsnAfter 0 L) (r.lsn + 1) = r.lsn + 1 from if_pos hle, hlsn]

/-- **Opening** is settled by the records before the torn tail. -/
theorem new_holds {L : List RawRecoveredPage} {tail : Bytes} (htorn : Torn tail)
    (hnumbered : L.map (fun r => r.lsn.toNat) = List.range L.length)
    (hbounded : L.length * walRecordSize ≤ maxFileOffset) : (new (logBytes L ++ tail)).Holds L := by
  rw [new_logBytes L htorn]
  exact ⟨rfl, rfl, rfl, nextLsnAfter_numbered hnumbered (length_lt_of_bounded hbounded), hnumbered,
    hbounded⟩

theorem pwrite_at_end (file raw : Bytes) : pwrite file file.length raw = file ++ raw := by
  rw [pwrite, fixedWidth, List.take_length, Nat.sub_self, List.replicate_zero, List.append_nil,
    List.drop_of_length_le (Nat.le_add_right _ _), List.append_nil]

/-- **Appending** one record. -/
theorem Holds.append {w w' : RawWalManager} {L : List RawRecoveredPage} (h : w.Holds L)
    {pageId : UInt32} {page page' : RawPage} {lsn : UInt64}
    (happ : appendRecord pageId page w = .ok (lsn, page') w') :
    w'.Holds (L ++ [⟨pageId, lsn, page'⟩]) := by
  simp only [appendRecord] at happ
  split at happ
  · rename_i hfits
    simp only [EStateM.Result.ok.injEq, Prod.mk.injEq] at happ
    obtain ⟨⟨rfl, rfl⟩, rfl⟩ := happ
    rw [h.offset_eq, ← Nat.succ_mul] at hfits
    have hlt := length_lt_of_bounded hfits
    refine ⟨?_, ?_, ?_, ?_, ?_, ?_⟩
    · have hend : w.nextOffset = w.file.length := by rw [h.file_eq, length_logBytes, h.offset_eq]
      rw [logBytes_concat, ← h.file_eq]
      exact hend ▸ pwrite_at_end w.file _
    · rw [List.length_append, List.length_singleton, Nat.succ_mul]
      exact congrArg (· + walRecordSize) h.offset_eq
    · exact congrArg (· ++ [_]) h.records_eq
    · change (w.nextLsn + 1).toNat = _
      rw [UInt64.toNat_add, h.next_eq, List.length_append, List.length_singleton]
      exact Nat.mod_eq_of_lt hlt
    · rw [List.map_append, h.numbered, List.length_append, List.length_singleton, List.range_succ]
      exact congrArg (List.range L.length ++ [·]) h.next_eq
    · rwa [List.length_append, List.length_singleton]
  · cases happ

/-- An append succeeds as long as the file's offsets last. -/
theorem Holds.append_ok {w : RawWalManager} {L : List RawRecoveredPage} (h : w.Holds L)
    (hroom : (L.length + 1) * walRecordSize ≤ maxFileOffset) (pageId : UInt32) (page : RawPage) :
    ∃ lsn page' w', appendRecord pageId page w = .ok (lsn, page') w' := by
  have hfits : w.nextOffset + walRecordSize ≤ maxFileOffset := by
    rwa [h.offset_eq, ← Nat.succ_mul]
  exact ⟨_, _, _, by simp only [appendRecord, if_pos hfits]; rfl⟩

/-- **Crashing** at byte `cut`, with `garbage` in the place of what was cut. -/
theorem Holds.crash {w : RawWalManager} {L : List RawRecoveredPage} (h : w.Holds L) {cut : Nat}
    {garbage : Bytes} (htorn : Torn ((w.file.take cut ++ garbage).drop
      ((L.take (cut / walRecordSize)).length * walRecordSize))) :
    (new (w.file.take cut ++ garbage)).Holds (L.take (cut / walRecordSize)) := by
  have hk : cut / walRecordSize * walRecordSize ≤ cut := Nat.div_mul_le_self cut walRecordSize
  generalize cut / walRecordSize = k at hk htorn ⊢
  -- the whole records before the cut are the file's first bytes
  have hlen : (L.take k).length * walRecordSize ≤ (w.file.take cut).length := by
    rw [List.length_take, List.length_take, h.file_eq, length_logBytes]
    refine le_min (le_trans (Nat.mul_le_mul_right _ (min_le_left _ _)) hk) ?_
    exact Nat.mul_le_mul_right _ (min_le_right _ _)
  have hhead : (w.file.take cut ++ garbage).take ((L.take k).length * walRecordSize)
      = logBytes (L.take k) := by
    have htake : L.take (L.take k).length = L.take k := by simp [List.take_eq_take_iff]
    rw [List.take_append_of_le_length hlen, List.take_take, h.file_eq, min_eq_left, take_logBytes,
      htake]
    exact le_trans (Nat.mul_le_mul_right _ (by rw [List.length_take]; exact min_le_left _ _)) hk
  rw [← List.take_append_drop ((L.take k).length * walRecordSize) (w.file.take cut ++ garbage),
    hhead]
  refine new_holds htorn ?_ ?_
  · rw [List.map_take, h.numbered, List.take_range, List.length_take]
  · refine le_trans (Nat.mul_le_mul_right _ ?_) h.bounded
    rw [List.length_take]
    exact min_le_right _ _

/-- The managers that appends and crashes, each followed by a reopening, can lead to from an empty
file, with the whole records left of all that was appended: a crash at byte `cut` leaves those
before it. -/
inductive LogRun : RawWalManager → List RawRecoveredPage → Prop where
  | start : LogRun (new []) []
  | append {w w' : RawWalManager} {L : List RawRecoveredPage} (h : LogRun w L) {pageId : UInt32}
      {page page' : RawPage} {lsn : UInt64}
      (happ : appendRecord pageId page w = .ok (lsn, page') w') :
      LogRun w' (L ++ [⟨pageId, lsn, page'⟩])
  | crash {w : RawWalManager} {L : List RawRecoveredPage} (h : LogRun w L) {cut : Nat}
      {garbage : Bytes} (htorn : Torn ((w.file.take cut ++ garbage).drop
        ((L.take (cut / walRecordSize)).length * walRecordSize))) :
      LogRun (new (w.file.take cut ++ garbage)) (L.take (cut / walRecordSize))

/-- **Run lemma.** -/
theorem LogRun.holds {w : RawWalManager} {L : List RawRecoveredPage} (h : LogRun w L) :
    w.Holds L := by
  induction h with
  | start =>
    have hempty : Torn [] := .inl walRecordSize_pos
    exact new_holds (L := []) hempty rfl (Nat.zero_le _)
  | append _ happ ih => exact ih.append happ
  | crash _ htorn ih => exact ih.crash htorn

/-- What a client of the log sees. -/
structure Intact (w : RawWalManager) (L : List RawRecoveredPage) : Prop where
  /-- The valid records are the ones left, and the file is exactly those. -/
  records_eq : w.validRecords = L
  file_eq : w.file = logBytes L
  next_zero : L = [] → w.nextLsn = 0
  next_last : ∀ r, L.getLast? = some r → w.nextLsn.toNat = r.lsn.toNat + 1
  lsn_lt : ∀ r ∈ L, r.lsn < w.nextLsn
  lsn_sorted : L.Pairwise fun r r' => r.lsn < r'.lsn
  /-- A fresh open of the file, now or after another torn write, finds the same. -/
  reopened : ∀ tail, Torn tail → new (w.file ++ tail) = w

theorem Holds.lsn_eq {w : RawWalManager} {L : List RawRecoveredPage} (h : w.Holds L) (i : Nat)
    (hi : i < L.length) : L[i].lsn.toNat = i := by
  have hget := congrArg (·[i]?) h.numbered
  simpa [hi] using hget

theorem Holds.intact {w : RawWalManager} {L : List RawRecoveredPage} (h : w.Holds L) :
    w.Intact L where
  records_eq := h.records_eq
  file_eq := h.file_eq
  next_zero hnil := by
    rw [← UInt64.toNat_inj, h.next_eq, hnil]
    rfl
  next_last r hr := by
    obtain ⟨hlt, rfl⟩ := List.getElem?_eq_some_iff.mp (List.getLast?_eq_getElem? ▸ hr)
    rw [h.next_eq, h.lsn_eq _ hlt]
    omega
  lsn_lt r hr := by
    obtain ⟨i, hi, rfl⟩ := List.getElem_of_mem hr
    rw [UInt64.lt_iff_toNat_lt, h.lsn_eq i hi, h.next_eq]
    exact hi
  lsn_sorted := by
    rw [List.pairwise_iff_getElem]
    intro i j hi hj hij
    rw [UInt64.lt_iff_toNat_lt, h.lsn_eq i hi, h.lsn_eq j hj]
    exact hij
  reopened tail htorn := by
    have hnext : nextLsnAfter 0 L = w.nextLsn := by
      rw [← UInt64.toNat_inj, h.next_eq,
        nextLsnAfter_numbered h.numbered (length_lt_of_bounded h.bounded)]
    rw [h.file_eq, new_logBytes L htorn, hnext, ← h.file_eq, ← h.offset_eq]
    rw [← h.records_eq]

/-- **Append, crash and reopen**, in any order and any number: the log holds the whole records before
each cut and all that was appended since. -/
theorem logRun_intact {w : RawWalManager} {L : List RawRecoveredPage} (h : LogRun w L) :
    w.Intact L :=
  h.holds.intact

/-- One page logged, the file then cut within the next record's header and three bytes written there. -/
theorem logRun_intact_torn :
    ∃ (w : RawWalManager) (L : List RawRecoveredPage), L.length = 1 ∧
      (new (w.file.take (walRecordSize + 7) ++ [1, 2, 3])).Intact
        (L.take ((walRecordSize + 7) / walRecordSize)) := by
  have hstart : LogRun (new []) [] := .start
  obtain ⟨lsn, page', w, happ⟩ := hstart.holds.append_ok (by decide) 7
    ⟨List.replicate pageSize 0, List.length_replicate⟩
  have hrun := hstart.append happ
  refine ⟨w, _, rfl, logRun_intact (hrun.crash (.inl ?_))⟩
  rw [List.length_drop, List.length_append, List.length_take, hrun.holds.file_eq, length_logBytes, List.length_take]
  exact show min (walRecordSize + 7) (1 * walRecordSize) + 3
    - min ((walRecordSize + 7) / walRecordSize) 1 * walRecordSize < walRecordSize by decide

end RawWalManager

end Reldb
