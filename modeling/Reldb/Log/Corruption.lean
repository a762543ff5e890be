import Reldb.RawDisk
import Reldb.Log.Reopen
import Reldb.Lib.Folds

/-!
# Reldb — a changed byte is noticed

FNV-1a forgets neither the hash it has nor the byte it reads: the byte is xored in, and the product with an
odd number can be undone modulo 2^32. So no single changed byte leaves a checksum matching, be it under the
page's checksum, in the checksum field, or in any part of a log record.
-/

namespace Reldb

open Folds

/-! ## FNV-1a -/

/-- The inverse of the FNV prime modulo 2^32. -/
def fnvInverse : UInt32 := 899433627

theorem fnvPrime_mul_injective : Function.Injective fun hash : UInt32 => hash * fnvPrime := by
  intro a b heq
  have hinv : fnvPrime * fnvInverse = 1 := by decide
  calc a = a * fnvPrime * fnvInverse := by rw [UInt32.mul_assoc, hinv, UInt32.mul_one]
    _ = b * fnvPrime * fnvInverse := congrArg (· * fnvInverse) heq
    _ = b := by rw [UInt32.mul_assoc, hinv, UInt32.mul_one]

theorem fnvStep_cancels : Cancels fnvStep where
  state b := by
    intro hash hash' heq
    exact (UInt32.xor_left_inj _).mp (fnvPrime_mul_injective heq)
  symbol hash := by
    intro b b' heq
    have hxor := (UInt32.xor_right_inj hash).mp (fnvPrime_mul_injective heq)
    exact UInt8.toUInt32_inj.mp hxor

theorem fnv1a_set_ne {l : Bytes} {i : Nat} {b : UInt8} (hi : i < l.length) (hb : l[i]? ≠ some b) :
    fnv1a (l.set i b) ≠ fnv1a l :=
  fnvStep_cancels.foldl_set_ne hi hb fnvOffset

/-! ## Numbers in a buffer -/

theorem unle_injective {raw raw' : Bytes} (hlen : raw.length = raw'.length) (heq : unle raw = unle raw') :
    raw = raw' := by
  induction raw generalizing raw' with
  | nil => exact (List.length_eq_zero_iff.mp hlen.symm).symm
  | cons b raw ih =>
    cases raw' with
    | nil => cases hlen
    | cons b' raw' =>
      have hb := b.toNat_lt
      have hb' := b'.toNat_lt
      simp only [unle] at heq
      have hhead : b = b' := UInt8.toNat_inj.mp (by omega)
      rw [hhead, ih (Nat.succ.inj hlen) (by omega)]

theorem unle_lt (raw : Bytes) : unle raw < 256 ^ raw.length := by
  induction raw with
  | nil => exact Nat.one_pos
  | cons b raw ih =>
    have hb := b.toNat_lt
    rw [List.length_cons, Nat.pow_succ]
    simp only [unle]
    omega

theorem le_unle {raw : Bytes} {n : Nat} (hlen : raw.length = n) : le n (unle raw) = raw := by
  refine unle_injective (by rw [length_le, hlen]) ?_
  rw [unle_le, Nat.mod_eq_of_lt (hlen ▸ unle_lt raw)]

theorem toNat_ofNat_unle32 {raw : Bytes} (hlen : raw.length = 4) :
    (UInt32.ofNat (unle raw)).toNat = unle raw := by
  have hlt := unle_lt raw
  rw [hlen] at hlt
  exact UInt32.toNat_ofNat' ▸ Nat.mod_eq_of_lt hlt

theorem toNat_ofNat_unle64 {raw : Bytes} (hlen : raw.length = 8) :
    (UInt64.ofNat (unle raw)).toNat = unle raw := by
  have hlt := unle_lt raw
  rw [hlen] at hlt
  exact UInt64.toNat_ofNat' ▸ Nat.mod_eq_of_lt hlt

/-- A number in a buffer changes with any of its bytes. -/
theorem ofNat_unle_set_ne {raw : Bytes} (hlen : raw.length = 4) {i : Nat} {b : UInt8} (hi : i < 4)
    (hb : raw[i]? ≠ some b) : UInt32.ofNat (unle (raw.set i b)) ≠ UInt32.ofNat (unle raw) := by
  intro heq
  have hset : (raw.set i b).length = 4 := by rw [List.length_set, hlen]
  have hnum := congrArg UInt32.toNat heq
  rw [toNat_ofNat_unle32 hset, toNat_ofNat_unle32 hlen] at hnum
  have hraw := unle_injective (hset.trans hlen.symm) hnum
  refine hb ?_
  rw [← hraw, List.getElem?_set_self (by omega)]

/-! ## Pages -/

namespace RawPage

/-- The page with one byte changed. -/
def setByte (page : RawPage) (i : Nat) (b : UInt8) : RawPage where
  bytes := page.bytes.set i b
  length_eq := by rw [List.length_set, page.length_eq]

variable {page : RawPage} {i : Nat} {b : UInt8}

/-- The bytes the checksum runs over: those before its field and those after it. -/
def summed (page : RawPage) : Bytes :=
  slice page.bytes 0 checksumOffset ++ slice page.bytes (checksumOffset + 4) (pageSize - checksumOffset - 4)

theorem computeChecksum_eq (page : RawPage) : page.computeChecksum = fnv1a page.summed := by
  have hrest : slice page.bytes (checksumOffset + 4) (pageSize - checksumOffset - 4)
      = page.bytes.drop (checksumOffset + 4) := by
    refine List.take_of_length_le ?_
    rw [List.length_drop, page.length_eq, Nat.sub_sub]
  rw [computeChecksum, summed, hrest, slice, List.drop_zero]

theorem length_before (page : RawPage) : (slice page.bytes 0 checksumOffset).length = checksumOffset :=
  length_slice (by rw [page.length_eq]; decide)

theorem length_summed (page : RawPage) : page.summed.length = pageSize - 4 := by
  have hafter : (slice page.bytes (checksumOffset + 4) (pageSize - checksumOffset - 4)).length
      = pageSize - checksumOffset - 4 := length_slice (by rw [page.length_eq]; decide)
  rw [summed, List.length_append, page.length_before, hafter]
  decide

/-- A byte outside the checksum field is one of those the checksum runs over. -/
theorem summed_setByte (hi : i < pageSize) (hout : i < checksumOffset ∨ checksumOffset + 4 ≤ i) :
    ∃ j, j < pageSize - 4 ∧ page.summed[j]? = page.bytes[i]? ∧
      (page.setByte i b).summed = page.summed.set j b := by
  have hoffset : checksumOffset = 13 := rfl
  have hsize : pageSize = 4096 := rfl
  have hbefore := page.length_before
  rcases hout with hlt | hge
  · refine ⟨i, by omega, ?_, ?_⟩
    · rw [summed, List.getElem?_append_left (by omega)]
      exact getElem?_slice (Nat.zero_le i) (by omega)
    · rw [summed, setByte, slice_set_of_mem (Nat.zero_le i), slice_set_of_notMem (.inl (by omega)),
        summed, List.set_append_left _ _ (by omega)]
      rfl
  · have hle : checksumOffset ≤ i - 4 := by omega
    have hsub : i - 4 - checksumOffset = i - (checksumOffset + 4) := by omega
    refine ⟨i - 4, by omega, ?_, ?_⟩
    · rw [summed, List.getElem?_append_right (by omega), hbefore, hsub]
      exact getElem?_slice hge (by omega)
    · rw [summed, setByte, slice_set_of_notMem (.inr (by omega)), slice_set_of_mem hge, summed,
        List.set_append_right _ _ (by omega), hbefore, hsub]

/-- **A page whose checksum matches** no longer matches with any one byte changed. -/
theorem checksum_setByte_ne (hsum : page.checksum = page.computeChecksum) (hi : i < pageSize)
    (hb : page.bytes[i]? ≠ some b) :
    (page.setByte i b).checksum ≠ (page.setByte i b).computeChecksum := by
  have hoffset : checksumOffset = 13 := rfl
  have hsize : pageSize = 4096 := rfl
  by_cases hfield : checksumOffset ≤ i ∧ i < checksumOffset + 4
  · -- the stored checksum changes, the computed one does not
    have hsame : (page.setByte i b).computeChecksum = page.computeChecksum := by
      rw [computeChecksum_eq, computeChecksum_eq, summed, setByte, slice_set_of_notMem (.inr (by omega)),
        slice_set_of_notMem (.inl (by omega)), summed]
    have hlen : (slice page.bytes checksumOffset 4).length = 4 :=
      length_slice (by rw [page.length_eq]; decide)
    have hchanged : (page.setByte i b).checksum ≠ page.checksum := by
      show UInt32.ofNat (unle (slice (page.bytes.set i b) checksumOffset 4)) ≠ _
      rw [slice_set_of_mem hfield.1]
      refine ofNat_unle_set_ne hlen (by omega) ?_
      rwa [getElem?_slice hfield.1 hfield.2]
    rw [hsame, ← hsum]
    exact hchanged
  · have hout : i < checksumOffset ∨ checksumOffset + 4 ≤ i := by omega
    have hsame : (page.setByte i b).checksum = page.checksum := by
      show UInt32.ofNat (unle (slice (page.bytes.set i b) checksumOffset 4)) = _
      rw [slice_set_of_notMem (by omega)]
      rfl
    obtain ⟨j, hj, hget, hset⟩ := @summed_setByte page i b hi hout
    rw [hsame, hsum, computeChecksum_eq, computeChecksum_eq, hset]
    refine (fnv1a_set_ne (by rwa [length_summed]) ?_).symm
    rwa [hget]

end RawPage

/-! ## Overwriting a part of a file -/

theorem length_pwrite_before (file : Bytes) (n : Nat) : (fixedWidth n (file.take n)).length = n := by
  rw [fixedWidth, List.length_append, List.length_replicate, List.length_take]
  omega

theorem slice_pwrite_self (file raw : Bytes) (n : Nat) : slice (pwrite file n raw) n raw.length = raw := by
  have hbefore := length_pwrite_before file n
  rw [pwrite, List.append_assoc, slice_append_right hbefore.le, hbefore, Nat.sub_self, slice, List.drop_zero,
    List.take_left]

/-- Bytes that a write does not reach. -/
theorem slice_pwrite_of_disjoint {file raw : Bytes} {n start m : Nat} (hfits : start + m ≤ file.length)
    (hdisj : start + m ≤ n ∨ n + raw.length ≤ start) :
    slice (pwrite file n raw) start m = slice file start m := by
  have hbefore := length_pwrite_before file n
  rcases hdisj with hle | hge
  · rw [pwrite, List.append_assoc, slice_append_left (by omega), fixedWidth,
      slice_append_left (by rw [List.length_take]; omega), slice_take hle]
  · have hlen : (fixedWidth n (file.take n) ++ raw).length = n + raw.length := by
      rw [List.length_append, hbefore]
    rw [pwrite, slice_append_right (by omega), hlen, slice_drop, Nat.add_sub_cancel' hge]

/-! ## The data file -/

namespace RawDiskManager

/-- One byte of the file changed from outside. -/
def setByte (d : RawDiskManager) (i : Nat) (b : UInt8) : RawDiskManager := ⟨d.file.set i b⟩

variable {d : RawDiskManager} {pageId : UInt32} {page : RawPage}

theorem readPage_iff : d.readPage pageId = .ok page ↔
    slice d.file (offset pageId) pageSize = page.bytes ∧ page.checksum = page.computeChecksum := by
  unfold RawDiskManager.readPage
  simp only
  constructor
  · intro hok
    split at hok
    · split at hok
      · obtain rfl := Except.ok.inj hok
        exact ⟨rfl, ‹_›⟩
      · cases hok
    · cases hok
  · rintro ⟨hbytes, hsum⟩
    have hlen : ((d.file.drop (offset pageId)).take pageSize).length = pageSize := by
      rw [show (d.file.drop (offset pageId)).take pageSize = page.bytes from hbytes, page.length_eq]
    have hpage : (⟨(d.file.drop (offset pageId)).take pageSize, hlen⟩ : RawPage) = page := by
      cases page
      simp only [RawPage.mk.injEq]
      exact hbytes
    rw [dif_pos hlen, hpage, if_pos hsum]

/-- **A page that reads** no longer reads with any one of its bytes changed. -/
theorem readPage_setByte (hread : d.readPage pageId = .ok page) {i : Nat} (hi : i < pageSize) {b : UInt8}
    (hb : d.file[offset pageId + i]? ≠ some b) :
    ∃ e, (d.setByte (offset pageId + i) b).readPage pageId = .error e := by
  obtain ⟨hbytes, hsum⟩ := readPage_iff.mp hread
  have hget : page.bytes[i]? = d.file[offset pageId + i]? := by
    rw [← hbytes, ← getElem?_slice (Nat.le_add_right _ i) (Nat.add_lt_add_left hi _), Nat.add_sub_cancel_left]
  cases hres : (d.setByte (offset pageId + i) b).readPage pageId with
  | error e => exact ⟨e, rfl⟩
  | ok page' =>
    obtain ⟨hbytes', hsum'⟩ := readPage_iff.mp hres
    have hpage : page' = page.setByte i b := by
      have hset : page'.bytes = page.bytes.set i b := by
        rw [← hbytes', ← hbytes, setByte, slice_set_of_mem (Nat.le_add_right _ i), Nat.add_sub_cancel_left]
      cases page'
      simp only [RawPage.setByte, RawPage.mk.injEq]
      exact hset
    rw [hpage] at hsum'
    exact absurd hsum' (RawPage.checksum_setByte_ne hsum hi (by rwa [hget]))

/-! ### Writes -/

theorem checksummed_bytes (page : RawPage) : (checksummed page).bytes =
    page.bytes.take checksumOffset ++ le 4 page.computeChecksum.toNat
      ++ page.bytes.drop (checksumOffset + 4) := rfl

theorem checksummed_matches (page : RawPage) :
    (checksummed page).checksum = (checksummed page).computeChecksum := by
  have hbefore : (page.bytes.take checksumOffset).length = checksumOffset := by
    rw [List.length_take, page.length_eq]
    decide
  have hfield : (page.bytes.take checksumOffset ++ le 4 page.computeChecksum.toNat).length
      = checksumOffset + 4 := by
    rw [List.length_append, hbefore, length_le]
  have hsum : (checksummed page).checksum = page.computeChecksum := by
    rw [RawPage.checksum, checksummed_bytes, List.append_assoc, List.drop_left' hbefore,
      List.take_left' (length_le 4 _), unle_le,
      Nat.mod_eq_of_lt (show page.computeChecksum.toNat < 256 ^ 4 from page.computeChecksum.toNat_lt),
      UInt32.ofNat_toNat]
  -- the checksum does not run over its own field
  have hsame : (checksummed page).computeChecksum = page.computeChecksum := by
    rw [RawPage.computeChecksum, checksummed_bytes, List.drop_left' hfield,
      List.append_assoc, List.take_left' hbefore, ← RawPage.computeChecksum]
  rw [hsum, hsame]

theorem readPage_writePage (d : RawDiskManager) (pageId : UInt32) (page : RawPage) :
    (d.writePage pageId page).readPage pageId = .ok (checksummed page) := by
  refine readPage_iff.mpr ⟨?_, checksummed_matches page⟩
  have hself := slice_pwrite_self d.file (checksummed page).bytes (offset pageId)
  rwa [(checksummed page).length_eq] at hself

/-- A page that reads still reads after another page was written. -/
theorem readPage_writePage_of_ne (hread : d.readPage pageId = .ok page) {other : UInt32}
    (hne : pageId ≠ other) (page' : RawPage) : (d.writePage other page').readPage pageId = .ok page := by
  obtain ⟨hbytes, hsum⟩ := readPage_iff.mp hread
  refine readPage_iff.mpr ⟨?_, hsum⟩
  have hnat : pageId.toNat ≠ other.toNat := fun heq => hne (UInt32.toNat_inj.mp heq)
  rw [← hbytes]
  refine slice_pwrite_of_disjoint (le_length_of_slice (by rw [hbytes, page.length_eq]) (by decide)) ?_
  rw [(checksummed page').length_eq, offset, offset, ← Nat.succ_mul, ← Nat.succ_mul]
  rcases Nat.lt_or_gt_of_ne hnat with hlt | hgt
  · exact .inl (Nat.mul_le_mul_right _ hlt)
  · exact .inr (Nat.mul_le_mul_right _ hgt)

/-- **Every page written reads**, whatever was written to other pages since. -/
theorem exists_readPage_writeAll (d : RawDiskManager) (writes : List (UInt32 × RawPage))
    (h : (∃ page, d.readPage pageId = .ok page) ∨ pageId ∈ writes.map Prod.fst) :
    ∃ page, (d.writeAll writes).readPage pageId = .ok page := by
  induction writes generalizing d with
  | nil => exact h.resolve_right List.not_mem_nil
  | cons w writes ih =>
    refine ih (d.writePage w.1 w.2) ?_
    by_cases hw : pageId = w.1
    · subst hw
      exact .inl ⟨_, readPage_writePage d w.1 w.2⟩
    rcases h with ⟨page, hread⟩ | hmem
    · exact .inl ⟨page, readPage_writePage_of_ne hread hw w.2⟩
    · exact .inr ((List.mem_cons.mp hmem).resolve_left hw)

end RawDiskManager

/-! ## Log records -/

namespace WalRecordHeader

variable {s : Bytes}

theorem le_magic (hlen : 20 ≤ s.length) : le 4 (ofBytes s).magic.toNat = slice s 0 4 := by
  have h4 : (slice s 0 4).length = 4 := length_slice (by omega)
  show le 4 (UInt32.ofNat (unle (slice s 0 4))).toNat = _
  rw [toNat_ofNat_unle32 h4, le_unle h4]

theorem le_lsn_pageId (hlen : 20 ≤ s.length) :
    le 8 (ofBytes s).lsn.toNat ++ le 4 (ofBytes s).pageId.toNat = slice s 4 12 := by
  have h8 : (slice s 4 8).length = 8 := length_slice (by omega)
  have h4 : (slice s 12 4).length = 4 := length_slice (by omega)
  show le 8 (UInt64.ofNat (unle (slice s 4 8))).toNat ++ le 4 (UInt32.ofNat (unle (slice s 12 4))).toNat = _
  rw [toNat_ofNat_unle64 h8, le_unle h8, toNat_ofNat_unle32 h4, le_unle h4, slice_append_slice]

/-- What was copied out of a buffer copies back. -/
theorem bytes_ofBytes (hlen : 20 ≤ s.length) : (ofBytes s).bytes = slice s 0 20 := by
  have h4 : (slice s 16 4).length = 4 := length_slice (by omega)
  have hsum : le 4 (ofBytes s).checksum.toNat = slice s 16 4 := by
    show le 4 (UInt32.ofNat (unle (slice s 16 4))).toNat = _
    rw [toNat_ofNat_unle32 h4, le_unle h4]
  have hparts : slice s 0 4 ++ slice s 4 12 ++ slice s 16 4 = slice s 0 20 := by
    rw [slice_append_slice 12, slice_append_slice 4]
  rw [bytes, List.append_assoc (le 4 _), le_magic hlen, le_lsn_pageId hlen, hsum, hparts]

/-- The checksum of a record in a buffer: three hashes, of the magic, of the other numbers and of the
page, combined. -/
theorem computeRecordChecksum_ofBytes (hlen : 20 ≤ s.length) (page : RawPage) :
    (ofBytes s).computeRecordChecksum page =
      (fnv1a (slice s 0 4) * fnvPrime ^^^ fnv1a (slice s 4 12)) * fnvPrime ^^^ fnv1a page.bytes := by
  rw [computeRecordChecksum, le_magic hlen, le_lsn_pageId hlen]

end WalRecordHeader

open WalRecordHeader

/-- **A record's slot with any one byte changed** is torn. -/
theorem torn_set {s : Bytes} (hlen : walRecordSize ≤ s.length) (hmagic : (ofBytes s).magic = walMagic)
    {page : RawPage} (hpage : page.bytes = slice s walRecordHeaderSize pageSize)
    (hsum : (ofBytes s).computeRecordChecksum page = (ofBytes s).checksum) {i : Nat}
    (hi : i < walRecordSize) {b : UInt8} (hb : s[i]? ≠ some b) : Torn (s.set i b) := by
  have hsize : walRecordSize = 20 + pageSize := rfl
  have hheader : walRecordHeaderSize = 20 := rfl
  have hset : 20 ≤ (s.set i b).length := by rw [List.length_set]; omega
  have hchanged : ∀ {start n : Nat}, start ≤ i → i < start + n → start + n ≤ s.length →
      i - start < (slice s start n).length ∧ (slice s start n)[i - start]? ≠ some b := by
    intro start n hlo hhi hfits
    rw [length_slice hfits, getElem?_slice hlo hhi]
    exact ⟨by omega, hb⟩
  by_cases h4 : i < 4
  · -- the magic
    refine .inr (.inl ?_)
    rw [← hmagic]
    show UInt32.ofNat (unle (slice (s.set i b) 0 4)) ≠ UInt32.ofNat (unle (slice s 0 4))
    rw [slice_set_of_mem (Nat.zero_le i)]
    have hget := (hchanged (Nat.zero_le i) (by omega : i < 0 + 4) (by omega)).2
    exact ofNat_unle_set_ne (length_slice (by omega)) (by omega) hget
  refine .inr (.inr fun page' hpage' => ?_)
  have hpage' : page'.bytes = slice (s.set i b) walRecordHeaderSize pageSize := by
    rw [hpage', List.drop_take]
    rfl
  rw [computeRecordChecksum_ofBytes hset, slice_set_of_notMem (.inr (by omega))]
  rw [computeRecordChecksum_ofBytes (by omega)] at hsum
  have hfield : 20 ≤ i ∨ i < 16 →
      (ofBytes (s.set i b)).checksum = (ofBytes s).checksum := by
    intro hout
    show UInt32.ofNat (unle (slice (s.set i b) 16 4)) = UInt32.ofNat (unle (slice s 16 4))
    rw [slice_set_of_notMem (by omega)]
  by_cases h16 : i < 16
  · -- the LSN or the page id
    have hrest : page'.bytes = page.bytes := by
      rw [hpage', hpage, slice_set_of_notMem (.inl (by omega))]
    obtain ⟨hlt, hget⟩ := hchanged (by omega : 4 ≤ i) (by omega : i < 4 + 12) (by omega)
    rw [hfield (.inr h16), ← hsum, hrest, slice_set_of_mem (by omega)]
    intro heq
    have hxor := fnvPrime_mul_injective ((UInt32.xor_left_inj _).mp heq)
    exact fnv1a_set_ne hlt hget ((UInt32.xor_right_inj _).mp hxor)
  by_cases h20 : i < 20
  · -- the checksum
    have hrest : page'.bytes = page.bytes := by
      rw [hpage', hpage, slice_set_of_notMem (.inl (by omega))]
    rw [slice_set_of_notMem (.inr (by omega)), hrest, hsum]
    show UInt32.ofNat (unle (slice s 16 4)) ≠ UInt32.ofNat (unle (slice (s.set i b) 16 4))
    rw [slice_set_of_mem (by omega)]
    have hget := (hchanged (by omega : 16 ≤ i) (by omega : i < 16 + 4) (by omega)).2
    exact (ofNat_unle_set_ne (length_slice (by omega)) (by omega) hget).symm
  · -- the page
    obtain ⟨hlt, hget⟩ := hchanged (by omega : walRecordHeaderSize ≤ i)
      (by omega : i < walRecordHeaderSize + pageSize) (by omega)
    rw [hfield (.inl (by omega)), ← hsum, slice_set_of_notMem (.inr (by omega)), hpage', hpage,
      slice_set_of_mem (by omega)]
    intro heq
    exact fnv1a_set_ne hlt hget ((UInt32.xor_right_inj _).mp heq)

namespace RawWalManager

/-- A slot the scan accepts is a record's bytes. -/
theorem bytes_of_accepted {s : Bytes} (hlen : walRecordSize ≤ s.length)
    (hmagic : (ofBytes s).magic = walMagic) {page : RawPage}
    (hpage : page.bytes = slice s walRecordHeaderSize pageSize)
    (hsum : (ofBytes s).computeRecordChecksum page = (ofBytes s).checksum) :
    (⟨(ofBytes s).pageId, (ofBytes s).lsn, page⟩ : RawRecoveredPage).bytes = slice s 0 walRecordSize := by
  have hsize : walRecordSize = 20 + pageSize := rfl
  have hheader : header (ofBytes s).lsn (ofBytes s).pageId page = ofBytes s := by
    have hcompute : (⟨walMagic, (ofBytes s).lsn, (ofBytes s).pageId, 0⟩ :
        WalRecordHeader).computeRecordChecksum page = (ofBytes s).checksum := by
      rw [← hsum, ← hmagic]
      rfl
    rw [header, hcompute, ← hmagic]
  rw [RawRecoveredPage.bytes, hheader, bytes_ofBytes (by omega), hpage]
  exact slice_append_slice pageSize

/-- What the scan accepts of any bytes are records, one after the other. -/
theorem scan_records (before rest : Bytes) (w : RawWalManager) (hoffset : w.nextOffset = before.length)
    (fuel : Nat) : ∃ L tail, (scan (before ++ rest) fuel w).validRecords = w.validRecords ++ L ∧
      rest = logBytes L ++ tail := by
  induction fuel generalizing before rest w with
  | zero => exact ⟨[], rest, (List.append_nil _).symm, rfl⟩
  | succ fuel ih =>
    have hstop : ∃ L tail, w.validRecords = w.validRecords ++ L ∧ rest = logBytes L ++ tail :=
      ⟨[], rest, (List.append_nil _).symm, rfl⟩
    rw [scan]
    by_cases hfits : w.nextOffset + walRecordSize ≤ (before ++ rest).length
    · have hdrop : (before ++ rest).drop w.nextOffset = rest := List.drop_left' hoffset.symm
      have hlen : walRecordSize ≤ rest.length := by
        rw [List.length_append] at hfits
        omega
      -- behind a record accepted, the scan goes on
      have hgo : ∀ (w' : RawWalManager) (r : RawRecoveredPage),
          w'.nextOffset = w.nextOffset + walRecordSize → w'.validRecords = w.validRecords ++ [r] →
          r.bytes = slice rest 0 walRecordSize →
          ∃ L tail, (scan (before ++ rest) fuel w').validRecords = w.validRecords ++ L ∧
            rest = logBytes L ++ tail := by
        intro w' r hoffset' hrecords hbytes
        have hsplit : rest = rest.take walRecordSize ++ rest.drop walRecordSize :=
          (List.take_append_drop _ _).symm
        have hend : (before ++ rest.take walRecordSize).length = before.length + walRecordSize := by
          rw [List.length_append, List.length_take]
          omega
        obtain ⟨L, tail, hvalid, hrest⟩ := ih (before ++ rest.take walRecordSize)
          (rest.drop walRecordSize) w' (by rw [hend, hoffset', hoffset])
        rw [List.append_assoc, ← hsplit, hrecords, List.append_assoc, List.singleton_append] at hvalid
        refine ⟨r :: L, tail, hvalid, ?_⟩
        rw [logBytes_cons, List.append_assoc, ← hrest, hbytes]
        exact hsplit
      rw [dif_pos hfits]
      simp only [hdrop, ofBytes_take]
      by_cases hmagic : (ofBytes rest).magic ≠ walMagic
      · rw [if_pos hmagic]
        exact hstop
      rw [if_neg hmagic]
      split
      · exact hstop
      · next hsum =>
        exact hgo _ _ rfl rfl
          (bytes_of_accepted hlen (not_not.mp hmagic) (List.drop_take ..) (not_not.mp hsum))
    · rw [dif_neg hfits]
      exact hstop

/-- **Any file** begins with the records an open accepts. -/
theorem exists_tail (file : Bytes) : ∃ tail, file = logBytes (new file).validRecords ++ tail := by
  obtain ⟨fuel, hfuel⟩ : ∃ fuel, fuel = file.length / walRecordSize + 1 := ⟨_, rfl⟩
  obtain ⟨L, tail, hvalid, hfile⟩ := scan_records [] file ⟨file, 0, 0, []⟩ rfl fuel
  refine ⟨tail, ?_⟩
  have hnew : (new file).validRecords = L := by
    rw [List.nil_append, List.nil_append] at hvalid
    rw [new, ← hfuel]
    exact hvalid
  rw [hnew]
  exact hfile

/-- A record, in a buffer that goes on behind it, passes both checks of the scan. -/
theorem accepted_bytes (r : RawRecoveredPage) (rest : Bytes) :
    (ofBytes (r.bytes ++ rest)).magic = walMagic ∧
      r.page.bytes = slice (r.bytes ++ rest) walRecordHeaderSize pageSize ∧
      (ofBytes (r.bytes ++ rest)).computeRecordChecksum r.page = (ofBytes (r.bytes ++ rest)).checksum := by
  have hheader : ofBytes (r.bytes ++ rest) = header r.lsn r.pageId r.page := by
    rw [RawRecoveredPage.bytes, List.append_assoc, ofBytes_bytes]
  have hpre := WalRecordHeader.length_bytes (header r.lsn r.pageId r.page)
  rw [hheader]
  refine ⟨rfl, ?_, by simp only [header, WalRecordHeader.computeRecordChecksum]⟩
  rw [RawRecoveredPage.bytes, List.append_assoc, slice_append_right hpre.le, hpre, Nat.sub_self, slice,
    List.drop_zero, List.take_left' r.page.length_eq]

/-- **A log with one byte of record `k` changed** opens with the records before it. -/
theorem validRecords_set {file : Bytes} {k i : Nat} (hk : k < (new file).validRecords.length)
    (hi : i < walRecordSize) {b : UInt8} (hb : file[k * walRecordSize + i]? ≠ some b) :
    (new (file.set (k * walRecordSize + i) b)).validRecords = (new file).validRecords.take k := by
  obtain ⟨L, hL⟩ : ∃ L, L = (new file).validRecords := ⟨_, rfl⟩
  obtain ⟨tail, hfile⟩ := exists_tail file
  rw [← hL] at hk hfile ⊢
  have hsplit : L = L.take k ++ L[k] :: L.drop (k + 1) := by
    rw [← List.drop_eq_getElem_cons hk, List.take_append_drop]
  have hbytes : file = logBytes (L.take k) ++ (L[k].bytes ++ (logBytes (L.drop (k + 1)) ++ tail)) := by
    rw [hfile]
    nth_rewrite 1 [hsplit]
    rw [logBytes, List.flatMap_append, List.flatMap_cons]
    simp only [List.append_assoc]
    rfl
  have hbefore : (logBytes (L.take k)).length = k * walRecordSize := by
    rw [length_logBytes, List.length_take, Nat.min_eq_left hk.le]
  generalize logBytes (L.drop (k + 1)) ++ tail = rest at hbytes
  obtain ⟨hmagic, hpage, hsum⟩ := accepted_bytes L[k] rest
  have hslot : walRecordSize ≤ (L[k].bytes ++ rest).length := by
    rw [List.length_append, RawRecoveredPage.length_bytes]
    exact Nat.le_add_right _ _
  have htorn : Torn ((L[k].bytes ++ rest).set i b) := by
    refine torn_set hslot hmagic hpage hsum hi ?_
    rw [hbytes, List.getElem?_append_right (by omega), hbefore, Nat.add_sub_cancel_left] at hb
    exact hb
  rw [hbytes, List.set_append_right _ _ (by omega), hbefore, Nat.add_sub_cancel_left, new_logBytes _ htorn]

end RawWalManager

/-- **Every single-byte corruption is caught.** A page that was written does not read with one of its bytes
changed, whatever else was written; and a log with one byte of a valid record changed opens with exactly the
records before that one. -/
theorem corruption_caught :
    (∀ (d : RawDiskManager) (writes : List (UInt32 × RawPage)) (pageId : UInt32) (i : Nat) (b : UInt8),
      pageId ∈ writes.map Prod.fst → i < pageSize →
      (d.writeAll writes).file[RawDiskManager.offset pageId + i]? ≠ some b →
      ∃ e, ((d.writeAll writes).setByte (RawDiskManager.offset pageId + i) b).readPage pageId = .error e) ∧
    ∀ (file : Bytes) (k i : Nat) (b : UInt8), k < (RawWalManager.new file).validRecords.length →
      i < walRecordSize → file[k * walRecordSize + i]? ≠ some b →
      (RawWalManager.new (file.set (k * walRecordSize + i) b)).validRecords
        = (RawWalManager.new file).validRecords.take k := by
  refine ⟨fun d writes pageId i b hmem hi hb => ?_, fun file k i b hk hi hb => ?_⟩
  · obtain ⟨page, hread⟩ := d.exists_readPage_writeAll writes (.inr hmem)
    exact RawDiskManager.readPage_setByte hread hi hb
  · exact RawWalManager.validRecords_set hk hi hb

/-- A page of zeros. -/
def RawPage.zero : RawPage := ⟨List.replicate pageSize 0, List.length_replicate⟩

/-- The first byte of the only page and of the only record changed. -/
theorem corruption_caught_first :
    (∃ e, ((RawDiskManager.writeAll ⟨[]⟩ [(0, .zero)]).setByte (RawDiskManager.offset 0 + 0) 1).readPage 0
      = .error e) ∧
    (RawWalManager.new ((logBytes [⟨7, 0, .zero⟩]).set (0 * walRecordSize + 0) 0)).validRecords = [] := by
  obtain ⟨hpages, hlog⟩ := corruption_caught
  have hempty : Torn [] := .inl walRecordSize_pos
  have hopen := RawWalManager.new_logBytes [⟨7, 0, .zero⟩] hempty
  rw [List.append_nil] at hopen
  refine ⟨hpages _ _ _ _ _ (by decide) (by decide) (by decide +kernel), ?_⟩
  have hfirst := hlog (logBytes [⟨7, 0, .zero⟩]) 0 0 0 (by rw [hopen]; exact Nat.one_pos)
    walRecordSize_pos (by decide +kernel)
  rw [hfirst, List.take_zero]

end Reldb
