import Reldb.Basic
import Mathlib.Logic.Function.Basic

/-!
# Reldb — pages (`page.h`, `btree_node.h`, `catalog_page.h`, `checksum.h`)

A page is its header fields and the one typed view its `page_type` selects: leaf cells,
internal cells, the metadata body or the catalog body. The cells of a node are the list of its
first `num_slots` cells, so `num_slots` is the length of that list; bytes of a page that no
view reads (cells past `num_slots`, `free_space_ptr`) are left out.

`Page.bytes` is the 4096-byte image the checksum runs over, field by field in the order of the
packed structs.
-/

namespace Reldb

/-! ## Constants of the layout -/

def pageSize : Nat := 4096
def valueSize : Nat := 120
def leafMaxKeys : Nat := 4
def internalMaxKeys : Nat := 4
def maxCatalogTables : Nat := 8
def maxCatalogColumns : Nat := 8
def catalogTableNameLen : Nat := 32
def catalogColumnNameLen : Nat := 24

/-- `NODE_DATA_OFFSET`: the cells start after the header (24 bytes) and `NodeExtra` (8). -/
def nodeDataOffset : Nat := 32
/-- `sizeof(LeafCell)`. -/
def leafCellSize : Nat := 136
/-- `sizeof(InternalCell)`. -/
def internalCellSize : Nat := 16

/-- The number of leaf cells that fit between `NODE_DATA_OFFSET` and the end of the page. -/
def leafCapacity : Nat := (pageSize - nodeDataOffset) / leafCellSize

/-- The number of internal cells that fit between `NODE_DATA_OFFSET` and the end of the page. -/
def internalCapacity : Nat := (pageSize - nodeDataOffset) / internalCellSize

/-! ## Page contents -/

/-- A leaf cell; `value` is the first `value_len` bytes of its value array. -/
structure LeafCell where
  key : Int64
  value : Bytes
  deriving DecidableEq, Repr

structure InternalCell where
  key : Int64
  child : PageId
  deriving DecidableEq, Repr

structure CatalogColumnEntry where
  name : Bytes
  type : UInt8
  isPrimaryKey : UInt8
  deriving DecidableEq, Repr

structure CatalogTableEntry where
  tableName : Bytes
  numColumns : Nat
  inUse : Bool
  columns : List CatalogColumnEntry
  rootPageId : PageId
  rowCount : Nat
  deriving DecidableEq, Repr

structure CatalogBody where
  numTables : Nat
  tables : List CatalogTableEntry
  deriving DecidableEq, Repr

/-- `page_type` together with the body it announces. -/
inductive PageBody where
  | invalid
  | leaf (nextLeaf : Option PageId) (cells : List LeafCell)
  | internal (leftmostChild : PageId) (cells : List InternalCell)
  | metadata (rootPageId : PageId)
  | catalog (body : CatalogBody)
  deriving DecidableEq, Repr

structure Page where
  pageId : PageId
  lsn : Nat
  checksum : UInt32
  body : PageBody
  deriving DecidableEq, Repr

/-- A zero-filled page: a freshly constructed `Page`, and what a hole in the file reads as. -/
def Page.zero : Page := ⟨0, 0, 0, .invalid⟩

/-- A zero-filled catalog entry. -/
def CatalogTableEntry.zero : CatalogTableEntry := ⟨[], 0, false, [], 0, 0⟩

/-- The body of a zero-filled page read as a catalog. -/
def CatalogBody.zero : CatalogBody :=
  ⟨0, List.replicate maxCatalogTables CatalogTableEntry.zero⟩

/-! ## The byte image -/

/-- The `n` low bytes of `v`, least significant first. -/
def le : Nat → Nat → Bytes
  | 0, _ => []
  | n + 1, v => UInt8.ofNat v :: le n (v / 256)

/-- A fixed-width `char` array holding `s`, zero-filled after it. -/
def fixedWidth (n : Nat) (s : Bytes) : Bytes := s ++ List.replicate (n - s.length) 0

def keyBytes (k : Int64) : Bytes := le 8 k.toUInt64.toNat

def pageIdBytes (p : PageId) : Bytes := le 4 p

/-- `INVALID_PAGE_ID` is all ones. -/
def nextLeafBytes : Option PageId → Bytes
  | none => List.replicate 4 255
  | some p => pageIdBytes p

def LeafCell.bytes (c : LeafCell) : Bytes :=
  keyBytes c.key ++ le 2 c.value.length ++ fixedWidth valueSize c.value ++ List.replicate 6 0

def InternalCell.bytes (c : InternalCell) : Bytes :=
  keyBytes c.key ++ pageIdBytes c.child ++ List.replicate 4 0

def CatalogColumnEntry.bytes (c : CatalogColumnEntry) : Bytes :=
  fixedWidth catalogColumnNameLen c.name ++ [c.type, c.isPrimaryKey] ++ List.replicate 6 0

def CatalogTableEntry.bytes (e : CatalogTableEntry) : Bytes :=
  fixedWidth catalogTableNameLen e.tableName ++ le 1 e.numColumns ++ [if e.inUse then 1 else 0]
    ++ List.replicate 6 0
    ++ fixedWidth (maxCatalogColumns * 32) (e.columns.flatMap CatalogColumnEntry.bytes)
    ++ pageIdBytes e.rootPageId ++ List.replicate 4 0 ++ le 8 e.rowCount

namespace PageBody

/-- The value of `PageType`. -/
def typeByte : PageBody → UInt8
  | .invalid => 0
  | .leaf .. => 1
  | .internal .. => 2
  | .metadata .. => 3
  | .catalog .. => 4

def numSlots : PageBody → Nat
  | .leaf _ cells => cells.length
  | .internal _ cells => cells.length
  | _ => 0

/-- Everything after the header, not yet padded to the end of the page. -/
def bytes : PageBody → Bytes
  | .invalid => []
  | .leaf next cells => nextLeafBytes next ++ List.replicate 4 0 ++ cells.flatMap LeafCell.bytes
  | .internal lm cells =>
      List.replicate 4 0 ++ pageIdBytes lm ++ cells.flatMap InternalCell.bytes
  | .metadata root => pageIdBytes root
  | .catalog b => le 4 b.numTables ++ List.replicate 4 0 ++ b.tables.flatMap CatalogTableEntry.bytes

end PageBody

namespace Page

/-- The header fields before `checksum`. -/
def headerPrefix (p : Page) : Bytes :=
  pageIdBytes p.pageId ++ [p.body.typeByte] ++ le 2 p.body.numSlots ++ List.replicate 2 0
    ++ le 4 p.lsn

/-- `reserved` and everything after the header. -/
def afterChecksum (p : Page) : Bytes :=
  fixedWidth (pageSize - 17) (List.replicate 7 0 ++ p.body.bytes)

/-- The 4096 bytes of the page. -/
def bytes (p : Page) : Bytes :=
  p.headerPrefix ++ le 4 p.checksum.toNat ++ p.afterChecksum

end Page

/-! ## Checksums -/

def fnvOffset : UInt32 := 2166136261
def fnvPrime : UInt32 := 16777619

/-- One round of FNV-1a. -/
def fnvStep (hash : UInt32) (b : UInt8) : UInt32 := (hash ^^^ b.toUInt32) * fnvPrime

def fnv1a (bytes : Bytes) : UInt32 := bytes.foldl fnvStep fnvOffset

/-- `offsetof(PageHeader, checksum)`. -/
def checksumOffset : Nat := 13

/-- `ComputeChecksum`: FNV-1a over the page's bytes, skipping the four of the checksum field. -/
def computeChecksum (p : Page) : UInt32 :=
  fnv1a (p.bytes.take checksumOffset ++ p.bytes.drop (checksumOffset + 4))

/-! ### What the checksum depends on -/

@[simp] theorem length_le (n v : Nat) : (le n v).length = n := by
  induction n generalizing v with
  | zero => rfl
  | succ n ih => simp [le, ih]

theorem Page.length_headerPrefix (p : Page) : p.headerPrefix.length = checksumOffset := by
  simp [headerPrefix, pageIdBytes, checksumOffset]

/-- The checksum runs over everything but the checksum field itself. -/
theorem computeChecksum_eq (p : Page) :
    computeChecksum p = fnv1a (p.headerPrefix ++ p.afterChecksum) := by
  have hlen : (p.headerPrefix ++ le 4 p.checksum.toNat).length = checksumOffset + 4 := by
    simp [p.length_headerPrefix]
  unfold computeChecksum
  rw [Page.bytes, List.drop_left' hlen, List.append_assoc, List.take_left' p.length_headerPrefix]

/-- Storing a checksum in the header does not change the page's checksum. -/
@[simp] theorem computeChecksum_setChecksum (p : Page) (c : UInt32) :
    computeChecksum { p with checksum := c } = computeChecksum p := by
  simp only [computeChecksum_eq]
  rfl

/-! ### The zero page fails its checksum

FNV-1a keeps an odd hash odd over zero bytes, and the stored checksum of a zero page is 0. This
is what `ReadPage` sees in a hole of the data file. -/

theorem fnvStep_zero_odd {h : UInt32} (hodd : h.toNat % 2 = 1) :
    (fnvStep h 0).toNat % 2 = 1 := by
  have hval : fnvStep h 0 = h * fnvPrime := by simp [fnvStep]
  rw [hval, UInt32.toNat_mul, show fnvPrime.toNat = 16777619 from rfl]
  omega

theorem fnv1a_replicate_zero_odd (n : Nat) : (fnv1a (List.replicate n 0)).toNat % 2 = 1 := by
  have hfold : ∀ (n : Nat) (h : UInt32), h.toNat % 2 = 1 →
      ((List.replicate n 0).foldl fnvStep h).toNat % 2 = 1 := by
    intro n
    induction n with
    | zero => intro h hodd; exact hodd
    | succ n ih => intro h hodd; exact ih _ (fnvStep_zero_odd hodd)
  exact hfold n fnvOffset (by decide)

theorem le_zero (n : Nat) : le n 0 = List.replicate n 0 := by
  induction n with
  | zero => rfl
  | succ n ih => simp only [le, Nat.zero_div, ih, List.replicate_succ]; rfl

theorem Page.zero_checksummed_bytes :
    Page.zero.headerPrefix ++ Page.zero.afterChecksum = List.replicate 4092 0 := by
  have hhead : Page.zero.headerPrefix = List.replicate 13 0 := by
    simp [headerPrefix, Page.zero, pageIdBytes, le_zero, PageBody.typeByte, PageBody.numSlots]
  have htail : Page.zero.afterChecksum = List.replicate 4079 0 := by
    simp only [afterChecksum, Page.zero, PageBody.bytes, fixedWidth, pageSize, List.append_nil,
      List.length_replicate, List.replicate_append_replicate]
  rw [hhead, htail, List.replicate_append_replicate]

/-- A hole in the data file does not pass for a page. -/
theorem computeChecksum_zero_ne : computeChecksum Page.zero ≠ Page.zero.checksum := by
  intro h
  have hodd := fnv1a_replicate_zero_odd 4092
  rw [← Page.zero_checksummed_bytes, ← computeChecksum_eq, h] at hodd
  exact absurd hodd (by decide)

end Reldb
