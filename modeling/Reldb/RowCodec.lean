import Reldb.Ast
import Reldb.Page

/-!
# Reldb — the row codec (`row_codec.h`, `row_codec.cpp`)

A row is stored as the bytes of its columns but the primary key, which is the tree key the bytes are
stored under. `memcpy` of an `int64_t` copies its eight bytes, least significant first.
-/

namespace Reldb

/-- `TEXT_COLUMN_CAPACITY`: a length byte and up to 15 bytes of text. -/
def textColumnCapacity : Nat := 16

/-- The number `le` writes. -/
def unle : Bytes → Nat
  | [] => 0
  | b :: bytes => b.toNat + 256 * unle bytes

/-- The `int64_t` with these eight bytes. -/
def keyOfBytes (bytes : Bytes) : Int64 := (UInt64.ofNat (unle bytes)).toInt64

namespace RowCodec

def columnWidth (col : ColumnDef) : Nat :=
  match col.type with
  | .integer => 8
  | .text => textColumnCapacity

/-- The widths of the columns from index `i` on, the one at `pkIndex` left out. -/
def widthFrom (pkIndex : Option Nat) : Nat → List ColumnDef → Nat
  | _, [] => 0
  | i, col :: cols =>
    (if pkIndex = some i then 0 else columnWidth col) + widthFrom pkIndex (i + 1) cols

def encodedSize (schema : TableSchema) : Nat := widthFrom schema.primaryKeyIndex 0 schema.columns

/-! ## Encode -/

/-- The bytes of one column, zero-filled to its width. -/
def encodeColumn (col : ColumnDef) (val : Value) : Except Exn Bytes :=
  match col.type, val with
  | .integer, .int v => .ok (keyBytes v)
  | .integer, .text _ =>
    .error (.rowEncodingError (text "RowCodec::Encode: column '" ++ col.name ++
      text "' expects an INTEGER value"))
  | .text, .text s =>
    if textColumnCapacity - 1 < s.length then
      .error (.rowEncodingError (text "RowCodec::Encode: value for TEXT column '" ++ col.name ++
        text "' is " ++ decimal s.length ++ text " bytes, exceeding the " ++
        decimal (textColumnCapacity - 1) ++ text "-byte limit for this column"))
    else .ok (UInt8.ofNat s.length :: fixedWidth (textColumnCapacity - 1) s)
  | .text, .int _ =>
    .error (.rowEncodingError (text "RowCodec::Encode: column '" ++ col.name ++
      text "' expects a TEXT value"))

/-- The loop over the columns from index `i` on. -/
def encodeFrom (pkIndex : Option Nat) : Nat → List ColumnDef → List Value → Except Exn Bytes
  | i, col :: cols, val :: vals =>
    if pkIndex = some i then encodeFrom pkIndex (i + 1) cols vals
    else
      match encodeColumn col val with
      | .error e => .error e
      | .ok bytes => (encodeFrom pkIndex (i + 1) cols vals).map (bytes ++ ·)
  | _, _, _ => .ok []

def encode (schema : TableSchema) (values : List Value) : Except Exn Bytes :=
  if values.length ≠ schema.columns.length then
    .error (.rowEncodingError (text "RowCodec::Encode: expected " ++ decimal schema.columns.length ++
      text " values, got " ++ decimal values.length))
  else encodeFrom schema.primaryKeyIndex 0 schema.columns values

/-! ## Decode -/

/-- The value of one column at the front of `blob`. A blob too short to hold it is never stored;
reading past its end is not given a meaning. -/
def decodeColumn (col : ColumnDef) (blob : Bytes) : Except Exn Value :=
  match col.type with
  | .integer =>
    if blob.length < 8 then .error .undefinedBehaviour else .ok (.int (keyOfBytes (blob.take 8)))
  | .text =>
    match blob with
    | [] => .error .undefinedBehaviour
    | len :: rest => .ok (.text (rest.take len.toNat))

/-- The loop over the columns from index `i` on; `blob` starts at the current offset. -/
def decodeFrom (pkIndex : Option Nat) (key : Int64) :
    Nat → List ColumnDef → Bytes → Except Exn (List Value)
  | _, [], _ => .ok []
  | i, col :: cols, blob =>
    if pkIndex = some i then (decodeFrom pkIndex key (i + 1) cols blob).map (.int key :: ·)
    else
      match decodeColumn col blob with
      | .error e => .error e
      | .ok val =>
        (decodeFrom pkIndex key (i + 1) cols (blob.drop (columnWidth col))).map (val :: ·)

def decode (schema : TableSchema) (key : Int64) (blob : Bytes) : Except Exn (List Value) :=
  decodeFrom schema.primaryKeyIndex key 0 schema.columns blob

end RowCodec

end Reldb
