import Reldb.Catalog

/-!
# Reldb — the row codec round trip

A row that `Encode` accepts has the size its schema says and decodes, with its key, to itself.
-/

namespace Reldb

/-! ## Integers -/

theorem unle_le (n v : Nat) : unle (le n v) = v % 256 ^ n := by
  induction n generalizing v with
  | zero => rw [Nat.pow_zero, Nat.mod_one]; rfl
  | succ n ih =>
    have hbyte : (UInt8.ofNat v).toNat = v % 256 := by simp
    rw [le, unle, ih, hbyte, Nat.pow_succ, Nat.mul_comm (256 ^ n), Nat.mod_mul]

@[simp] theorem length_keyBytes (k : Int64) : (keyBytes k).length = 8 := length_le 8 _

@[simp] theorem keyOfBytes_keyBytes (k : Int64) : keyOfBytes (keyBytes k) = k := by
  have hlt : k.toUInt64.toNat < 256 ^ 8 := k.toUInt64.toNat_lt
  rw [keyOfBytes, keyBytes, unle_le, Nat.mod_eq_of_lt hlt, UInt64.ofNat_toNat]
  exact Int64.toInt64_toUInt64 k

namespace RowCodec

/-! ## One column -/

section

variable {col : ColumnDef} {val : Value} {bytes : Bytes}

theorem encodeColumn_length (h : encodeColumn col val = .ok bytes) :
    bytes.length = columnWidth col := by
  unfold encodeColumn columnWidth at *
  split at h
  · next hcol =>
    cases h
    simp [hcol]
  · cases h
  · next hcol =>
    split at h
    · cases h
    · next hlen =>
      cases h
      simp only [hcol]
      simp only [textColumnCapacity, fixedWidth, List.length_cons, List.length_append,
        List.length_replicate] at hlen ⊢
      omega
  · cases h

theorem encodeColumn_error {e : Exn} (h : encodeColumn col val = .error e) :
    ∃ what, e = .rowEncodingError what := by
  unfold encodeColumn at h
  split at h
  · cases h
  · exact ⟨_, (Except.error.inj h).symm⟩
  · split at h
    · exact ⟨_, (Except.error.inj h).symm⟩
    · cases h
  · exact ⟨_, (Except.error.inj h).symm⟩

/-- A column decodes to the value it was encoded from, whatever follows it. -/
theorem decodeColumn_encodeColumn (h : encodeColumn col val = .ok bytes) (rest : Bytes) :
    decodeColumn col (bytes ++ rest) = .ok val := by
  unfold encodeColumn decodeColumn at *
  split at h
  · next v hcol =>
    cases h
    have hlen : ¬ (keyBytes v ++ rest).length < 8 := by simp
    simp only [hcol, if_neg hlen, List.take_left' (length_keyBytes v), keyOfBytes_keyBytes]
  · cases h
  · next s hcol =>
    split at h
    · cases h
    · next hlen =>
      cases h
      have hnat : (UInt8.ofNat s.length).toNat = s.length := by
        rw [UInt8.toNat_ofNat']
        refine Nat.mod_eq_of_lt ?_
        simp only [textColumnCapacity] at hlen
        omega
      simp only [hcol, List.cons_append, hnat, fixedWidth, List.append_assoc, List.take_left']
  · cases h

end

/-! ## Rows -/

section

variable {pkIndex : Option Nat} {cols : List ColumnDef} {vals : List Value} {bytes : Bytes}
  {i : Nat}

theorem encodeFrom_length (h : encodeFrom pkIndex i cols vals = .ok bytes)
    (hlen : vals.length = cols.length) : bytes.length = widthFrom pkIndex i cols := by
  induction cols generalizing i vals bytes with
  | nil =>
    cases h
    rfl
  | cons col cols ih =>
    cases vals with
    | nil => cases hlen
    | cons val vals =>
      have hlen := Nat.succ.inj hlen
      rw [encodeFrom] at h
      rw [widthFrom]
      split at h
      · next hpk =>
        rw [if_pos hpk, ih h hlen, Nat.zero_add]
      · next hpk =>
        cases hcol : encodeColumn col val with
        | error e => rw [hcol] at h; cases h
        | ok b =>
          rw [hcol] at h
          cases hrest : encodeFrom pkIndex (i + 1) cols vals with
          | error e => rw [hrest] at h; cases h
          | ok bs =>
            rw [hrest] at h
            cases h
            rw [if_neg hpk, List.length_append, encodeColumn_length hcol, ih hrest hlen]

theorem encodeFrom_error {e : Exn} (h : encodeFrom pkIndex i cols vals = .error e) :
    ∃ what, e = .rowEncodingError what := by
  induction cols generalizing i vals with
  | nil => cases h
  | cons col cols ih =>
    cases vals with
    | nil => cases h
    | cons val vals =>
      rw [encodeFrom] at h
      split at h
      · exact ih h
      · cases hcol : encodeColumn col val with
        | error e' =>
          rw [hcol] at h
          obtain rfl := Except.error.inj h
          exact encodeColumn_error hcol
        | ok b =>
          rw [hcol] at h
          cases hrest : encodeFrom pkIndex (i + 1) cols vals with
          | error e' =>
            rw [hrest] at h
            obtain rfl := Except.error.inj h
            exact ih hrest
          | ok bs =>
            rw [hrest] at h
            cases h

/-- The values at index `i` and after, the key in place of the one at `pkIndex`. -/
def keyedFrom (pkIndex : Option Nat) (key : Int64) : Nat → List Value → List Value
  | _, [] => []
  | i, val :: vals =>
    (if pkIndex = some i then .int key else val) :: keyedFrom pkIndex key (i + 1) vals

/-- The columns from index `i` on decode to the values they were encoded from, the key in its place. -/
theorem decodeFrom_encodeFrom (h : encodeFrom pkIndex i cols vals = .ok bytes)
    (hlen : vals.length = cols.length) (key : Int64) :
    decodeFrom pkIndex key i cols bytes = .ok (keyedFrom pkIndex key i vals) := by
  induction cols generalizing i vals bytes with
  | nil =>
    rw [List.length_eq_zero_iff.mp hlen]
    rfl
  | cons col cols ih =>
    cases vals with
    | nil => cases hlen
    | cons val vals =>
      have hlen := Nat.succ.inj hlen
      rw [encodeFrom] at h
      rw [decodeFrom, keyedFrom]
      split at h
      · next hpk =>
        rw [if_pos hpk, if_pos hpk, ih h hlen]
        rfl
      · next hpk =>
        cases hcol : encodeColumn col val with
        | error e => rw [hcol] at h; cases h
        | ok b =>
          rw [hcol] at h
          cases hrest : encodeFrom pkIndex (i + 1) cols vals with
          | error e => rw [hrest] at h; cases h
          | ok bs =>
            rw [hrest] at h
            cases h
            -- both loops step over this column's bytes alone
            rw [if_neg hpk, if_neg hpk, decodeColumn_encodeColumn hcol,
              List.drop_left' (encodeColumn_length hcol), ih hrest hlen]
            rfl

theorem keyedFrom_eq_self {key : Int64}
    (hkey : ∀ j, pkIndex = some (i + j) → ∀ v, vals[j]? = some v → v = .int key) :
    keyedFrom pkIndex key i vals = vals := by
  induction vals generalizing i with
  | nil => rfl
  | cons val vals ih =>
    have hkey' : ∀ j, pkIndex = some (i + 1 + j) → ∀ v, vals[j]? = some v → v = .int key :=
      fun j hj v hv => hkey (j + 1) (by rw [hj]; congr 1; omega) v hv
    rw [keyedFrom, ih hkey']
    split
    · next hpk => rw [hkey 0 hpk val rfl]
    · rfl

end

/-! ## Schemas -/

section

variable {schema : TableSchema} {values : List Value} {blob : Bytes} {key : Int64}

theorem encode_ok (h : encode schema values = .ok blob) :
    values.length = schema.columns.length ∧
      encodeFrom schema.primaryKeyIndex 0 schema.columns values = .ok blob := by
  unfold encode at h
  split at h
  · cases h
  · next hlen => exact ⟨not_not.mp hlen, h⟩

/-- What is turned down is turned down by name. -/
theorem encode_error {e : Exn} (h : encode schema values = .error e) :
    ∃ what, e = .rowEncodingError what := by
  unfold encode at h
  split at h
  · exact ⟨_, (Except.error.inj h).symm⟩
  · exact encodeFrom_error h

/-- A row has the bytes its schema says. -/
theorem encode_length (h : encode schema values = .ok blob) : blob.length = encodedSize schema :=
  encodeFrom_length (encode_ok h).2 (encode_ok h).1

/-- A row's values with `key` at the primary key's place. -/
def withKey (schema : TableSchema) (key : Int64) (values : List Value) : List Value :=
  keyedFrom schema.primaryKeyIndex key 0 values

/-- **Round trip**: a row decodes to its values, with the key given at the primary key's place. -/
theorem decode_encode (h : encode schema values = .ok blob) (key : Int64) :
    decode schema key blob = .ok (withKey schema key values) :=
  decodeFrom_encodeFrom (encode_ok h).2 (encode_ok h).1 key

/-- Its own key changes nothing. -/
theorem withKey_eq_self (hkey : schema.primaryKeyIndex.bind (values[·]?) = some (.int key)) :
    withKey schema key values = values := by
  refine keyedFrom_eq_self fun j hj v hv => ?_
  rw [Nat.zero_add] at hj
  rw [hj, Option.bind_some, hv] at hkey
  exact Option.some.inj hkey

end

end RowCodec

/-! ## What `InsertRow` stores -/

namespace Catalog

variable {schema : TableSchema} {values : List Value} {blob : Bytes} {key : Int64}

theorem rowOf_ok (h : rowOf schema values = .ok (key, blob)) :
    schema.primaryKeyIndex.bind (values[·]?) = some (.int key) ∧
      RowCodec.encode schema values = .ok blob := by
  unfold rowOf at h
  simp only [bind, Except.bind, pure, Except.pure, throw, throwThe, MonadExceptOf.throw] at h
  split at h
  · cases h
  split at h
  · split at h
    · next hpk =>
      split at h
      · cases h
      · next hblob =>
        obtain ⟨rfl, rfl⟩ := Prod.mk.inj (Except.ok.inj h)
        exact ⟨hpk, hblob⟩
    · cases h
  · cases h

theorem length_of_rowOf (h : rowOf schema values = .ok (key, blob)) :
    values.length = schema.columns.length := by
  unfold rowOf at h
  by_contra hne
  simp only [if_pos hne, bind, Except.bind, throw, throwThe, MonadExceptOf.throw] at h
  cases h

/-- The row decodes to the values given. -/
theorem decode_rowOf (h : rowOf schema values = .ok (key, blob)) :
    RowCodec.decode schema key blob = .ok values := by
  rw [RowCodec.decode_encode (rowOf_ok h).2, RowCodec.withKey_eq_self (rowOf_ok h).1]

end Catalog

end Reldb
