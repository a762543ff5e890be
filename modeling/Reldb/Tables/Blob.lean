import Reldb.Tables.Codec

/-!
# Reldb — the row codec on a blob

`Encode` and `Decode` as the loops they are: each keeps an offset into one blob, steps over the primary
key, and reads or writes at that offset. An access outside the blob has no meaning
(`undefinedBehaviour`), as in the source.

They compute what the codec on lists of bytes does (`encodeBlob_eq`, `decodeBlob_eq`), so the two
offsets never part. From that: which rows are accepted, and the round trip (`rowCodec_roundTrip`).
-/

namespace Reldb

namespace RowCodec

/-! ## The loops -/

/-- `memcpy` of `bytes` to `&blob[offset]`. -/
def store (blob : Bytes) (offset : Nat) (bytes : Bytes) : Except Exn Bytes :=
  if offset + bytes.length ≤ blob.length then
    .ok (blob.take offset ++ bytes ++ blob.drop (offset + bytes.length))
  else .error .undefinedBehaviour

/-- `n` bytes from `&blob[offset]`. -/
def load (blob : Bytes) (offset n : Nat) : Except Exn Bytes :=
  if offset + n ≤ blob.length then .ok ((blob.drop offset).take n) else .error .undefinedBehaviour

/-- `blob.substr(pos, n)`: as many of the `n` bytes as there are. -/
def substr (blob : Bytes) (pos n : Nat) : Except Exn Bytes :=
  if blob.length < pos then .error (.outOfRange (text "basic_string::substr"))
  else .ok ((blob.drop pos).take n)

/-- Write one column at `offset`, once its value passed the checks. -/
def storeColumn (col : ColumnDef) (val : Value) (offset : Nat) (blob : Bytes) : Except Exn Bytes :=
  match encodeColumn col val with
  | .error e => .error e
  | .ok _ =>
    match val with
    | .int v => store blob offset (keyBytes v)
    | .text s => do
      let blob ← store blob offset [UInt8.ofNat s.length]
      store blob (offset + 1) s

/-- The loop of `Encode` from column `i` on. -/
def encodeLoop (pkIndex : Option Nat) :
    Nat → List ColumnDef → List Value → Nat → Bytes → Except Exn Bytes
  | i, col :: cols, val :: vals, offset, blob =>
    if pkIndex = some i then encodeLoop pkIndex (i + 1) cols vals offset blob
    else do
      let blob ← storeColumn col val offset blob
      encodeLoop pkIndex (i + 1) cols vals (offset + columnWidth col) blob
  | _, _, _, _, blob => .ok blob

/-- `RowCodec::Encode`. -/
def encodeBlob (schema : TableSchema) (values : List Value) : Except Exn Bytes :=
  if values.length ≠ schema.columns.length then
    .error (.rowEncodingError (text "RowCodec::Encode: expected " ++ decimal schema.columns.length ++
      text " values, got " ++ decimal values.length))
  else
    encodeLoop schema.primaryKeyIndex 0 schema.columns values 0
      (List.replicate (encodedSize schema) 0)

/-- Read one column at `offset`. -/
def loadColumn (col : ColumnDef) (offset : Nat) (blob : Bytes) : Except Exn Value :=
  match col.type with
  | .integer => (load blob offset 8).map fun bytes => .int (keyOfBytes bytes)
  | .text => do
    let len ← load blob offset 1
    (substr blob (offset + 1) (unle len)).map .text

/-- The loop of `Decode` from column `i` on. -/
def decodeLoop (pkIndex : Option Nat) (key : Int64) (blob : Bytes) :
    Nat → List ColumnDef → Nat → Except Exn (List Value)
  | _, [], _ => .ok []
  | i, col :: cols, offset =>
    if pkIndex = some i then (decodeLoop pkIndex key blob (i + 1) cols offset).map (.int key :: ·)
    else do
      let val ← loadColumn col offset blob
      (decodeLoop pkIndex key blob (i + 1) cols (offset + columnWidth col)).map (val :: ·)

/-- `RowCodec::Decode`. -/
def decodeBlob (schema : TableSchema) (key : Int64) (blob : Bytes) : Except Exn (List Value) :=
  decodeLoop schema.primaryKeyIndex key blob 0 schema.columns 0

/-! ## What one column accepts -/

/-- The column can hold the value: its kind, and at most 15 bytes of text. -/
def Storable (col : ColumnDef) : Value → Prop
  | .int _ => col.type = .integer
  | .text s => col.type = .text ∧ s.length ≤ textColumnCapacity - 1

/-- An accepted value is of its column's kind; its bytes are the integer's, or the text's behind their
number. -/
theorem encodeColumn_cases {col : ColumnDef} {val : Value} {bytes : Bytes}
    (h : encodeColumn col val = .ok bytes) :
    (∃ v, val = .int v ∧ col.type = .integer ∧ bytes = keyBytes v) ∨
      ∃ s, val = .text s ∧ col.type = .text ∧ s.length ≤ textColumnCapacity - 1 ∧
        bytes = UInt8.ofNat s.length :: fixedWidth (textColumnCapacity - 1) s := by
  unfold encodeColumn at h
  split at h
  · next v hcol =>
    cases h
    exact .inl ⟨v, rfl, hcol, rfl⟩
  · cases h
  · next s hcol =>
    split at h
    · cases h
    · next hlen =>
      cases h
      exact .inr ⟨s, rfl, hcol, not_lt.mp hlen, rfl⟩
  · cases h

theorem encodeColumn_ok_iff {col : ColumnDef} {val : Value} :
    (∃ bytes, encodeColumn col val = .ok bytes) ↔ Storable col val := by
  constructor
  · rintro ⟨bytes, h⟩
    rcases encodeColumn_cases h with ⟨v, rfl, hcol, -⟩ | ⟨s, rfl, hcol, hlen, -⟩
    · exact hcol
    · exact ⟨hcol, hlen⟩
  · intro h
    cases val with
    | int v =>
      have hcol : col.type = .integer := h
      exact ⟨keyBytes v, by simp only [encodeColumn, hcol]⟩
    | text s =>
      refine ⟨UInt8.ofNat s.length :: fixedWidth (textColumnCapacity - 1) s, ?_⟩
      simp only [encodeColumn, h.1]
      exact if_neg (not_lt.mpr h.2)

/-! ## Encode keeps its offset -/

/-- Writing at the end of what was written, into the zeroes left of the blob. -/
theorem store_zeros (done bytes : Bytes) (n : Nat) :
    store (done ++ List.replicate (bytes.length + n) 0) done.length bytes =
      .ok ((done ++ bytes) ++ List.replicate n 0) := by
  have hin : done.length + bytes.length ≤ (done ++ List.replicate (bytes.length + n) 0).length := by
    rw [List.length_append, List.length_replicate]
    omega
  rw [store, if_pos hin, List.take_left', List.drop_length_add_append, List.drop_replicate,
    Nat.add_sub_cancel_left]
  rfl

/-- What `storeColumn` leaves of a zeroed blob are the column's bytes, zero-filled to its width. -/
theorem storeColumn_zeros {col : ColumnDef} {val : Value} {bytes : Bytes}
    (h : encodeColumn col val = .ok bytes) (done : Bytes) (n : Nat) :
    storeColumn col val done.length (done ++ List.replicate (columnWidth col + n) 0) =
      .ok ((done ++ bytes) ++ List.replicate n 0) := by
  unfold storeColumn
  rw [h]
  rcases encodeColumn_cases h with ⟨v, rfl, hcol, rfl⟩ | ⟨s, rfl, hcol, hlen, rfl⟩
  · have hwidth : columnWidth col = (keyBytes v).length := by rw [columnWidth, hcol, length_keyBytes]
    rw [hwidth]
    exact store_zeros done (keyBytes v) n
  · -- the length byte first, then the text, each followed by zeroes
    have hwidth : columnWidth col + n = [UInt8.ofNat s.length].length + (s.length + (15 - s.length + n)) := by
      simp only [columnWidth, hcol, textColumnCapacity, List.length_singleton] at hlen ⊢
      omega
    have hend : done.length + 1 = (done ++ [UInt8.ofNat s.length]).length := by simp
    rw [hwidth]
    simp only [bind, Except.bind, store_zeros]
    rw [hend, store_zeros, ← List.replicate_append_replicate]
    simp only [fixedWidth, textColumnCapacity, List.append_assoc, List.cons_append]
    rfl

/-- The loop, past what is written: it writes the rest of the row and no further. -/
theorem encodeLoop_eq {pkIndex : Option Nat} {i : Nat} {cols : List ColumnDef} {vals : List Value}
    (hlen : vals.length = cols.length) (done : Bytes) :
    encodeLoop pkIndex i cols vals done.length
        (done ++ List.replicate (widthFrom pkIndex i cols) 0) =
      (encodeFrom pkIndex i cols vals).map (done ++ ·) := by
  induction cols generalizing i vals done with
  | nil =>
    rw [List.length_eq_zero_iff.mp hlen]
    rfl
  | cons col cols ih =>
    cases vals with
    | nil => cases hlen
    | cons val vals =>
      have hlen := Nat.succ.inj hlen
      rw [encodeLoop, encodeFrom, widthFrom]
      by_cases hpk : pkIndex = some i
      · rw [if_pos hpk, if_pos hpk, if_pos hpk, Nat.zero_add]
        exact ih hlen done
      · rw [if_neg hpk, if_neg hpk, if_neg hpk]
        cases hcol : encodeColumn col val with
        | error e =>
          -- the check comes before any byte is written
          have hstore : ∀ blob, storeColumn col val done.length blob = .error e := fun blob => by
            unfold storeColumn
            rw [hcol]
          rw [hstore]
          rfl
        | ok bytes =>
          have hnext : done.length + columnWidth col = (done ++ bytes).length := by
            rw [List.length_append, encodeColumn_length hcol]
          rw [storeColumn_zeros hcol, hnext]
          refine (ih hlen (done ++ bytes)).trans ?_
          cases encodeFrom pkIndex (i + 1) cols vals with
          | error e => rfl
          | ok rest => exact congrArg Except.ok (List.append_assoc done bytes rest)

/-- **Encode writes the row** the codec on lists gives, and nothing outside the blob. -/
theorem encodeBlob_eq (schema : TableSchema) (values : List Value) :
    encodeBlob schema values = encode schema values := by
  rw [encodeBlob, encode]
  split
  · rfl
  · next hlen =>
    refine (encodeLoop_eq (not_not.mp hlen) []).trans ?_
    cases encodeFrom schema.primaryKeyIndex 0 schema.columns values <;> rfl

/-! ## Decode keeps its offset -/

theorem loadColumn_eq (col : ColumnDef) (offset : Nat) (blob : Bytes) :
    loadColumn col offset blob = decodeColumn col (blob.drop offset) := by
  unfold loadColumn decodeColumn
  cases col.type with
  | integer =>
    simp only [load, List.length_drop]
    by_cases hin : offset + 8 ≤ blob.length
    · rw [if_pos hin, if_neg (by omega)]
      rfl
    · rw [if_neg hin, if_pos (by omega)]
      rfl
  | text =>
    simp only [load, substr]
    by_cases hin : offset + 1 ≤ blob.length
    · have hlt : offset < blob.length := hin
      -- the length byte is in the blob, so the text starts in it or at its end
      rw [if_pos hin, List.drop_eq_getElem_cons hlt]
      simp only [bind, Except.bind, List.take_succ_cons, List.take_zero, unle, Nat.mul_zero, Nat.add_zero,
        if_neg (not_lt.mpr hin)]
      rfl
    · have hend : blob.drop offset = [] := List.drop_eq_nil_of_le (by omega)
      rw [if_neg hin, hend]
      rfl

theorem decodeLoop_eq (pkIndex : Option Nat) (key : Int64) (blob : Bytes) (i : Nat)
    (cols : List ColumnDef) (offset : Nat) :
    decodeLoop pkIndex key blob i cols offset = decodeFrom pkIndex key i cols (blob.drop offset) := by
  induction cols generalizing i offset with
  | nil => rfl
  | cons col cols ih =>
    rw [decodeLoop, decodeFrom]
    by_cases hpk : pkIndex = some i
    · rw [if_pos hpk, if_pos hpk, ih]
    · rw [if_neg hpk, if_neg hpk, loadColumn_eq, List.drop_drop]
      cases decodeColumn col (blob.drop offset) with
      | error e => rfl
      | ok val =>
        simp only [bind, Except.bind, ih]

/-- **Decode reads the row** the codec on lists reads. -/
theorem decodeBlob_eq (schema : TableSchema) (key : Int64) (blob : Bytes) :
    decodeBlob schema key blob = decode schema key blob :=
  decodeLoop_eq schema.primaryKeyIndex key blob 0 schema.columns 0

/-! ## The round trip -/

/-- A row `Encode` accepts: one value for each column, each but the primary key's one its column can
hold. -/
def Encodable (schema : TableSchema) (values : List Value) : Prop :=
  values.length = schema.columns.length ∧
    ∀ i col val, schema.columns[i]? = some col → values[i]? = some val →
      schema.primaryKeyIndex ≠ some i → Storable col val

/-- Two rows that differ at most in their primary keys. -/
def SameRow (schema : TableSchema) (values values' : List Value) : Prop :=
  ∀ i, schema.primaryKeyIndex ≠ some i → values[i]? = values'[i]?

theorem encodeFrom_ok_iff {pkIndex : Option Nat} {i : Nat} {cols : List ColumnDef} {vals : List Value}
    (hlen : vals.length = cols.length) :
    (∃ bytes, encodeFrom pkIndex i cols vals = .ok bytes) ↔
      ∀ j col val, cols[j]? = some col → vals[j]? = some val → pkIndex ≠ some (i + j) →
        Storable col val := by
  induction cols generalizing i vals with
  | nil =>
    rw [List.length_eq_zero_iff.mp hlen]
    exact ⟨fun _ j col val hcol => (by cases hcol), fun _ => ⟨[], rfl⟩⟩
  | cons col cols ih =>
    cases vals with
    | nil => cases hlen
    | cons val vals =>
      have hlen := Nat.succ.inj hlen
      -- the first column, and the columns after it
      have hsplit : (∀ j c v, (col :: cols)[j]? = some c → (val :: vals)[j]? = some v →
            pkIndex ≠ some (i + j) → Storable c v) ↔
          (pkIndex ≠ some i → Storable col val) ∧
            ∀ j c v, cols[j]? = some c → vals[j]? = some v → pkIndex ≠ some (i + 1 + j) →
              Storable c v := by
        constructor
        · intro h
          refine ⟨h 0 col val rfl rfl, fun j c v hc hv hpk => h (j + 1) c v hc hv ?_⟩
          rwa [show i + (j + 1) = i + 1 + j by omega]
        · rintro ⟨h0, h⟩ (_ | j) c v hc hv hpk
          · cases hc
            cases hv
            exact h0 hpk
          · refine h j c v hc hv ?_
            rwa [show i + 1 + j = i + (j + 1) by omega]
      rw [hsplit, ← ih hlen, encodeFrom]
      by_cases hpk : pkIndex = some i
      · rw [if_pos hpk]
        simp only [ne_eq, hpk, not_true_eq_false, false_implies, true_and]
      · rw [if_neg hpk, ← encodeColumn_ok_iff]
        cases encodeColumn col val with
        | error e => simp [hpk]
        | ok bytes =>
          cases encodeFrom pkIndex (i + 1) cols vals <;> simp [Except.map]

theorem encode_ok_iff {schema : TableSchema} {values : List Value} :
    (∃ blob, encode schema values = .ok blob) ↔ Encodable schema values := by
  unfold encode Encodable
  split
  · next hlen => simp [hlen]
  · next hlen =>
    rw [encodeFrom_ok_iff (not_not.mp hlen)]
    simp only [Nat.zero_add, not_not.mp hlen, true_and]

/-- The primary key's value is not looked at. -/
theorem encodeFrom_congr {pkIndex : Option Nat} {i : Nat} {cols : List ColumnDef}
    {vals vals' : List Value}
    (h : ∀ j, pkIndex ≠ some (i + j) → vals[j]? = vals'[j]?) (hlen : vals.length = vals'.length) :
    encodeFrom pkIndex i cols vals = encodeFrom pkIndex i cols vals' := by
  induction cols generalizing i vals vals' with
  | nil => simp only [encodeFrom]
  | cons col cols ih =>
    cases vals with
    | nil => rw [List.length_eq_zero_iff.mp hlen.symm]
    | cons val vals =>
      cases vals' with
      | nil => cases hlen
      | cons val' vals' =>
        have hrest : encodeFrom pkIndex (i + 1) cols vals = encodeFrom pkIndex (i + 1) cols vals' :=
          ih (fun j hj => h (j + 1) (by rwa [show i + (j + 1) = i + 1 + j by omega]))
            (Nat.succ.inj hlen)
        rw [encodeFrom, encodeFrom, hrest]
        by_cases hpk : pkIndex = some i
        · rw [if_pos hpk, if_pos hpk]
        · obtain rfl : val = val' := Option.some.inj (h 0 hpk)
          rfl

theorem keyedFrom_getElem? (pkIndex : Option Nat) (key : Int64) (i : Nat) (vals : List Value) (j : Nat) :
    (keyedFrom pkIndex key i vals)[j]? =
      (vals[j]?).map fun val => if pkIndex = some (i + j) then .int key else val := by
  induction vals generalizing i j with
  | nil => rfl
  | cons val vals ih =>
    cases j with
    | zero => rfl
    | succ j =>
      rw [keyedFrom, List.getElem?_cons_succ, List.getElem?_cons_succ, ih]
      rw [show i + (j + 1) = i + 1 + j by omega]

/-- Rows with one blob differ at most in their keys, and the other way round. -/
theorem encode_eq_iff {schema : TableSchema} {values values' : List Value} {blob blob' : Bytes}
    (h : encode schema values = .ok blob) (h' : encode schema values' = .ok blob') :
    blob = blob' ↔ SameRow schema values values' := by
  constructor
  · rintro rfl i hi
    -- both decode to the same row under one key
    have hkeyed : withKey schema 0 values = withKey schema 0 values' :=
      Except.ok.inj ((decode_encode h 0).symm.trans (decode_encode h' 0))
    have hat := congrArg (·[i]?) hkeyed
    simpa only [withKey, keyedFrom_getElem?, Nat.zero_add, if_neg hi, Option.map_id'] using hat
  · intro hsame
    have hlen := (encode_ok h).1.trans (encode_ok h').1.symm
    have heq : encodeFrom schema.primaryKeyIndex 0 schema.columns _ = _ :=
      encodeFrom_congr (fun j hj => hsame j (by rwa [Nat.zero_add] at hj)) hlen
    exact Except.ok.inj ((encode_ok h).2.symm.trans (heq.trans (encode_ok h').2))

end RowCodec

open RowCodec in
/-- **The row codec.** `Encode` accepts exactly the rows of the schema, touches no byte outside its blob,
and fills the blob; `Decode` gives the row back with the key it is told, and reads no byte outside the
blob; rows share a blob exactly when they differ at most in their keys. -/
theorem rowCodec_roundTrip (schema : TableSchema) (values : List Value) :
    ((∃ blob, encodeBlob schema values = .ok blob) ↔ Encodable schema values) ∧
      encodeBlob schema values ≠ .error .undefinedBehaviour ∧
      ∀ blob, encodeBlob schema values = .ok blob →
        blob.length = encodedSize schema ∧
        (∀ key, decodeBlob schema key blob = .ok (withKey schema key values)) ∧
        ∀ values' blob', encodeBlob schema values' = .ok blob' →
          (blob = blob' ↔ SameRow schema values values') := by
  simp only [encodeBlob_eq, decodeBlob_eq]
  refine ⟨encode_ok_iff, ?_, fun blob h => ⟨encode_length h, decode_encode h, fun values' blob' h' => ?_⟩⟩
  · intro h
    obtain ⟨what, hwhat⟩ := encode_error h
    cases hwhat
  · exact encode_eq_iff h h'

/-- A row with a NUL in its text and the least `int64_t`, its key in the middle. -/
example :
    let schema : TableSchema := ⟨text "t", [⟨text "s", .text, false⟩, ⟨text "id", .integer, true⟩,
      ⟨text "n", .integer, false⟩]⟩
    (RowCodec.encodeBlob schema [.text [65, 0], .int 1, .int Int64.minValue]).bind
        (RowCodec.decodeBlob schema 7) =
      .ok [.text [65, 0], .int 7, .int Int64.minValue] := by
  decide +kernel

end Reldb
