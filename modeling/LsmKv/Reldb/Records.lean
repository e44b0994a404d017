import LsmKv.Reldb.Keys

namespace reldb

open lsmkv (Status)
open lsmkv.encoding List Option

variable {α : Type}

/-- What was read, or `Corruption`. -/
def require (msg : String) : Option α → Except Status α
  | none => .error (.Corruption msg)
  | some a => .ok a

/-- The loop that reads as many items as the count before them says. -/
def get_items (get : Bytes → Except Status (α × Bytes)) : Nat → Bytes → Except Status (List α × Bytes)
  | 0, input => .ok ([], input)
  | n + 1, input => do
    let (x, input) ← get input
    let (xs, input) ← get_items get n input
    return (x :: xs, input)

/-- The check for bytes that nothing was read from. -/
def finish (msg : String) (a : α) (input : Bytes) : Except Status α :=
  if input ≠ [] then .error (.Corruption msg) else .ok a

def get_word (input : Bytes) : Option (UInt64 × Bytes) :=
  (get_fixed64 input).map fun (v, input) => (UInt64.ofNat v, input)

namespace Row

def encode (row : Row) : Bytes := put_varint32 (row.length % 2 ^ 32) ++ row.flatMap encode_value

def decode (bytes : Bytes) : Except Status Row := do
  let (n, input) ← require "row: bad count" (get_varint32 bytes)
  let (vals, input) ← get_items (fun input => require "row: bad cell" (consume_value input)) n input
  finish "row: trailing bytes" vals input

end Row

-- The records as they are stored: strings are byte strings, words have 64 bits, and an
-- enumeration is its byte, which may be none of the enumerators.
namespace stored

structure VersionRecord where
  version_id : UInt64 := 0
  start_ts : UInt64 := 0
  end_ts : UInt64 := 0
  prev_id : UInt64 := 0
  created_by : UInt64 := 0
  is_tombstone : Bool := false
  payload : Bytes := []
deriving DecidableEq

namespace VersionRecord

def encode (rec : VersionRecord) : Bytes :=
  put_fixed64 rec.version_id.toNat ++ put_fixed64 rec.start_ts.toNat ++ put_fixed64 rec.end_ts.toNat ++
    put_fixed64 rec.prev_id.toNat ++ put_fixed64 rec.created_by.toNat ++ [if rec.is_tombstone then 1 else 0] ++
    put_length_prefixed_slice rec.payload

def get_header (input : Bytes) : Option (VersionRecord × Bytes) := do
  let (version_id, input) ← get_word input
  let (start_ts, input) ← get_word input
  let (end_ts, input) ← get_word input
  let (prev_id, input) ← get_word input
  let (created_by, input) ← get_word input
  return ({ version_id, start_ts, end_ts, prev_id, created_by }, input)

def decode (bytes : Bytes) : Except Status VersionRecord := do
  let (rec, input) ← require "version: truncated header" (get_header bytes)
  match input with
  | [] => .error (.Corruption "version: missing flags")
  | flags :: input => do
    let (payload, input) ← require "version: bad payload" (get_length_prefixed_slice input)
    finish "version: trailing bytes" { rec with is_tombstone := flags ≠ 0, payload } input

end VersionRecord

structure TxnWrite where
  table : Bytes
  pk : Value
  version_id : UInt64 := 0
deriving DecidableEq

structure TxnMeta where
  state : UInt8 := 1
  commit_ts : UInt64 := 0
  writes : List TxnWrite := []
deriving DecidableEq

/-- The bytes of a key. -/
def key_bytes (key : Key) : Bytes := key.map fun c => UInt8.ofNat c.toNat

def bytes_key (bytes : Bytes) : Key := bytes.map fun b => Char.ofNat b.toNat

def put_txn_write (w : TxnWrite) : Bytes :=
  put_length_prefixed_slice w.table ++ put_length_prefixed_slice (key_bytes (encode_pk_for_key w.pk)) ++
    put_fixed64 w.version_id.toNat

/-- A transaction without writes has the short form. -/
def encode_txn_meta (txn_meta : TxnMeta) : Bytes :=
  txn_meta.state :: (put_fixed64 txn_meta.commit_ts.toNat ++
    if txn_meta.writes = [] then []
    else put_fixed32 (txn_meta.writes.length % 2 ^ 32) ++ txn_meta.writes.flatMap put_txn_write)

def get_write_entry (input : Bytes) : Option ((Bytes × Bytes × UInt64) × Bytes) := do
  let (table, input) ← get_length_prefixed_slice input
  let (pk_hex, input) ← get_length_prefixed_slice input
  let (vid, input) ← get_word input
  return ((table, pk_hex, vid), input)

def get_txn_write (input : Bytes) : Except Status (TxnWrite × Bytes) := do
  let ((table, pk_hex, version_id), input) ← require "txn meta: bad write entry" (get_write_entry input)
  let pk ← decode_pk_from_key (bytes_key pk_hex)
  return ({ table, pk, version_id }, input)

def decode_txn_meta (bytes : Bytes) : Except Status TxnMeta :=
  match bytes with
  | [] => .error (.Corruption "txn meta: bad length")
  | state :: input =>
    match get_word input with
    | none => .error (.Corruption "txn meta: bad length")
    | some (commit_ts, input) =>
      if input = [] then .ok { state, commit_ts }
      else do
        let (n, input) ← require "txn meta: bad write count" (get_fixed32 input)
        let (writes, input) ← get_items get_txn_write n input
        finish "txn meta: trailing bytes" { state, commit_ts, writes } input

structure ColumnDef where
  name : Bytes
  type : UInt8 := 2
  primary_key : Bool := false
deriving DecidableEq

structure TableSchema where
  name : Bytes := []
  columns : List ColumnDef := []
deriving DecidableEq

namespace TableSchema

def kSchemaFormatVersion : UInt8 := 1

def put_column (c : ColumnDef) : Bytes :=
  put_length_prefixed_slice c.name ++ [c.type, if c.primary_key then 1 else 0, 0]

def encode (schema : TableSchema) : Bytes :=
  kSchemaFormatVersion :: (put_length_prefixed_slice schema.name ++ put_varint32 (schema.columns.length % 2 ^ 32) ++
    schema.columns.flatMap put_column)

def get_column (input : Bytes) : Except Status (ColumnDef × Bytes) := do
  let (name, input) ← require "schema: bad column name" (get_length_prefixed_slice input)
  match input with
  | type :: primary_key :: flags :: input =>
    if flags ≠ 0 then .error (.Corruption "schema: unknown column flags")
    else .ok ({ name, type, primary_key := primary_key ≠ 0 }, input)
  | _ => .error (.Corruption "schema: truncated column meta")

def decode : Bytes → Except Status TableSchema
  | [] => .error (.Corruption "schema: empty")
  | version :: input =>
    if version ≠ kSchemaFormatVersion then .error (.Corruption "schema: unsupported format version")
    else do
      let (name, input) ← require "schema: bad name" (get_length_prefixed_slice input)
      let (n, input) ← require "schema: bad column count" (get_varint32 input)
      let (columns, input) ← get_items get_column n input
      finish "schema: trailing bytes" { name, columns } input

end TableSchema

end stored

theorem get_items_flatMap {get : Bytes → Except Status (α × Bytes)} {put : α → Bytes} {xs : List α}
    (h : ∀ x ∈ xs, ∀ rest, get (put x ++ rest) = .ok (x, rest)) (rest : Bytes) :
    get_items get xs.length (xs.flatMap put ++ rest) = .ok (xs, rest) := by
  induction xs with
  | nil => rfl
  | cons x xs ih =>
    obtain ⟨hx, hxs⟩ := forall_mem_cons.mp h
    rw [length_cons, get_items, flatMap_cons, append_assoc, hx]
    change (get_items get xs.length (xs.flatMap put ++ rest) >>= _) = _
    rw [ih hxs]
    rfl

theorem get_put_word (v : UInt64) (rest : Bytes) : get_word (put_fixed64 v.toNat ++ rest) = some (v, rest) := by
  rw [get_word, get_put_fixed64 v.toNat_lt]
  exact congrArg (fun w => some (w, rest)) UInt64.ofNat_toNat

/-- A string of less than 2 ^ 30 bytes. -/
def Value.short : Value → Bool
  | .string s => s.length < 2 ^ 30
  | _ => true

theorem Value.fits_of_length {v : Value} (h : (Row.encode_value v).length < 2 ^ 32) : v.fits = true := by
  cases v with
  | string s =>
    simp only [Row.encode_value, put_length_prefixed_slice, length_cons, length_append] at h
    exact decide_eq_true (by omega)
  | _ => rfl

theorem Value.fits_of_short {v : Value} (h : v.short = true) : v.fits = true := by
  cases v with
  | string s => exact decide_eq_true ((of_decide_eq_true h).trans (by norm_num))
  | _ => rfl

namespace Row

def Short (row : Row) : Prop := row.length < 2 ^ 32 ∧ ∀ v ∈ row, v.short = true

theorem decode_encode_append {row : Row} (hlength : row.length < 2 ^ 32) (hcells : ∀ v ∈ row, v.fits = true)
    (tail : Bytes) : decode (encode row ++ tail) = finish "row: trailing bytes" row tail := by
  have hcell : ∀ v ∈ row, ∀ rest, require "row: bad cell" (consume_value (encode_value v ++ rest)) = .ok (v, rest) :=
    fun v hv rest => by rw [consume_encode_value (hcells v hv), require]
  rw [decode, encode, Nat.mod_eq_of_lt hlength, append_assoc, get_put_varint32 hlength]
  change (get_items _ row.length _ >>= _) = _
  rw [get_items_flatMap hcell]
  rfl

end Row

namespace stored

def VersionRecord.Short (rec : VersionRecord) : Prop := rec.payload.length < 2 ^ 30

theorem VersionRecord.decode_encode_slice (rec : VersionRecord) (tail : Bytes) : decode (rec.encode ++ tail) = (do
    let (payload, input) ← require "version: bad payload"
      (get_length_prefixed_slice (put_length_prefixed_slice rec.payload ++ tail))
    finish "version: trailing bytes" { rec with payload } input) := by
  have hheader : ∀ rest, get_header (put_fixed64 rec.version_id.toNat ++ (put_fixed64 rec.start_ts.toNat ++
      (put_fixed64 rec.end_ts.toNat ++ (put_fixed64 rec.prev_id.toNat ++ (put_fixed64 rec.created_by.toNat ++ rest))))) =
      some ({ rec with is_tombstone := false, payload := [] }, rest) := by
    intro rest
    simp only [get_header, get_put_word, bind_eq_bind, bind_some]
    rfl
  simp only [decode, encode, append_assoc, hheader, singleton_append]
  obtain ⟨version_id, start_ts, end_ts, prev_id, created_by, is_tombstone, payload⟩ := rec
  cases is_tombstone <;> rfl

theorem VersionRecord.decode_encode_append {rec : VersionRecord} (h : rec.payload.length < 2 ^ 32) (tail : Bytes) :
    decode (rec.encode ++ tail) = finish "version: trailing bytes" rec tail := by
  rw [decode_encode_slice, get_put_slice h]
  rfl

/-- The length of a longer payload is cut. -/
theorem VersionRecord.decode_encode_long {rec : VersionRecord} (h : 2 ^ 32 ≤ rec.payload.length) :
    decode rec.encode = .error (.Corruption "version: trailing bytes") := by
  have hslice := decode_encode_slice rec []
  rw [append_nil, append_nil, get_put_length_prefixed_slice] at hslice
  rw [hslice]
  refine if_pos ?_
  rw [ne_eq, drop_eq_nil_iff]
  exact not_le.mpr ((Nat.mod_lt _ (by norm_num)).trans_le h)

/-- Hexadecimal digits are bytes. -/
theorem bytes_key_encode_pk (pk : Value) : bytes_key (key_bytes (encode_pk_for_key pk)) = encode_pk_for_key pk := by
  have hdigit : ∀ n < 16, (hex_digit n).toNat < 256 := by decide
  rw [bytes_key, key_bytes, List.map_map]
  refine (map_congr_left fun c hc => ?_).trans (List.map_id _)
  obtain ⟨n, hn, rfl⟩ := mem_to_hex hc
  change Char.ofNat (UInt8.ofNat (hex_digit n).toNat).toNat = hex_digit n
  rw [UInt8.toNat_ofNat', Nat.mod_eq_of_lt (hdigit n hn), Char.ofNat_toNat]

theorem length_encode_value_le {v : Value} (h : v.short = true) : (Row.encode_value v).length < 2 ^ 30 + 9 := by
  cases v with
  | null => decide
  | bool b => cases b <;> decide
  | int64 n => simp [Row.encode_value]
  | string s =>
    have hs : s.length < 2 ^ 30 := of_decide_eq_true h
    have hprefix : (put_varint32 (s.length % 2 ^ 32)).length ≤ 5 :=
      put_varint_length_le ((Nat.mod_lt _ (by norm_num)).trans_le (by norm_num))
    simp only [Row.encode_value, put_length_prefixed_slice, length_cons, length_append]
    omega

def TxnWrite.Short (w : TxnWrite) : Prop := w.table.length < 2 ^ 30 ∧ w.pk.short = true

theorem TxnWrite.Short.length_lt {w : TxnWrite} (h : w.Short) : (put_txn_write w).length < 2 ^ 32 := by
  have hpk := length_encode_value_le h.2
  have hprefix : ∀ value : Bytes, (put_varint32 (value.length % 2 ^ 32)).length ≤ 5 :=
    fun value => put_varint_length_le ((Nat.mod_lt _ (by norm_num)).trans_le (by norm_num))
  have htable := hprefix w.table
  have hhex := hprefix (key_bytes (encode_pk_for_key w.pk))
  have hshort := h.1
  simp only [put_txn_write, put_length_prefixed_slice, length_append, put_fixed64, put_fixed_length]
  rw [key_bytes, length_map, encode_pk_for_key, length_to_hex] at *
  omega

theorem get_put_txn_write {w : TxnWrite} (h : (put_txn_write w).length < 2 ^ 32) (rest : Bytes) :
    get_txn_write (put_txn_write w ++ rest) = .ok (w, rest) := by
  simp only [put_txn_write, put_length_prefixed_slice, length_append] at h
  have hhex : (key_bytes (encode_pk_for_key w.pk)).length < 2 ^ 32 := by omega
  have hfits : w.pk.fits = true := by
    rw [key_bytes, length_map, encode_pk_for_key, length_to_hex] at hhex
    exact Value.fits_of_length (by omega)
  have hpk : decode_pk_from_key (bytes_key (key_bytes (encode_pk_for_key w.pk))) = .ok w.pk := by
    rw [bytes_key_encode_pk, decode_encode_pk, if_pos hfits]
  simp only [get_txn_write, get_write_entry, put_txn_write, append_assoc,
    get_put_slice (show w.table.length < 2 ^ 32 by omega), get_put_slice hhex, get_put_word, bind_eq_bind,
    bind_some]
  change (decode_pk_from_key (bytes_key (key_bytes (encode_pk_for_key w.pk))) >>= _) = _
  rw [hpk]
  rfl

def TxnMeta.Short (txn_meta : TxnMeta) : Prop := txn_meta.writes.length < 2 ^ 32 ∧ ∀ w ∈ txn_meta.writes, w.Short

variable {txn_meta : TxnMeta}

theorem decode_encode_txn_meta_append (hlength : txn_meta.writes.length < 2 ^ 32)
    (hshort : ∀ w ∈ txn_meta.writes, (put_txn_write w).length < 2 ^ 32) (hwrites : txn_meta.writes ≠ []) (tail : Bytes) :
    decode_txn_meta (encode_txn_meta txn_meta ++ tail) = finish "txn meta: trailing bytes" txn_meta tail := by
  have hne : put_fixed32 txn_meta.writes.length ++ (txn_meta.writes.flatMap put_txn_write ++ tail) ≠ [] := by
    intro hnil
    have hzero := congrArg List.length hnil
    simp at hzero
  rw [encode_txn_meta, if_neg hwrites, cons_append, decode_txn_meta, Nat.mod_eq_of_lt hlength, append_assoc,
    append_assoc, get_put_word]
  dsimp only
  rw [if_neg hne, get_put_fixed32 hlength]
  change (get_items get_txn_write txn_meta.writes.length _ >>= _) = _
  rw [get_items_flatMap fun w hw => get_put_txn_write (hshort w hw)]
  rfl

theorem decode_encode_txn_meta_nil (hwrites : txn_meta.writes = []) :
    decode_txn_meta (encode_txn_meta txn_meta) = .ok txn_meta := by
  rw [encode_txn_meta, if_pos hwrites, decode_txn_meta, get_put_word]
  dsimp only
  rw [if_pos rfl, ← hwrites]

theorem decode_encode_txn_meta (hlength : txn_meta.writes.length < 2 ^ 32)
    (hshort : ∀ w ∈ txn_meta.writes, (put_txn_write w).length < 2 ^ 32) :
    decode_txn_meta (encode_txn_meta txn_meta) = .ok txn_meta := by
  by_cases hnil : txn_meta.writes = []
  · exact decode_encode_txn_meta_nil hnil
  · have hdecode := decode_encode_txn_meta_append hlength hshort hnil []
    rw [append_nil] at hdecode
    exact hdecode

namespace TableSchema

def Short (schema : TableSchema) : Prop :=
  schema.name.length < 2 ^ 30 ∧ schema.columns.length < 2 ^ 32 ∧ ∀ c ∈ schema.columns, c.name.length < 2 ^ 30

theorem get_put_column {c : ColumnDef} (h : c.name.length < 2 ^ 30) (rest : Bytes) :
    get_column (put_column c ++ rest) = .ok (c, rest) := by
  rw [get_column, put_column, append_assoc, get_put_slice (h.trans (by norm_num))]
  obtain ⟨name, type, primary_key⟩ := c
  cases primary_key <;> rfl

theorem decode_encode_append {schema : TableSchema} (h : schema.Short) (tail : Bytes) :
    decode (schema.encode ++ tail) = finish "schema: trailing bytes" schema tail := by
  obtain ⟨hname, hlength, hcolumns⟩ := h
  rw [encode, cons_append, decode, if_neg (not_not.mpr rfl), Nat.mod_eq_of_lt hlength, append_assoc,
    append_assoc, get_put_slice (hname.trans (by norm_num))]
  change (require _ (get_varint32 (put_varint32 schema.columns.length ++ _)) >>= _) = _
  rw [get_put_varint32 hlength]
  change (get_items get_column schema.columns.length _ >>= _) = _
  rw [get_items_flatMap fun c hc => get_put_column (hcolumns c hc)]
  rfl

end TableSchema

end stored

/-- A record is read back as it was written, and bytes after it are refused. -/
def RoundTrips (encode : α → Bytes) (decode : Bytes → Except Status α) (a : α) : Prop :=
  decode (encode a) = .ok a ∧ ∀ tail, tail ≠ [] → ∃ msg, decode (encode a ++ tail) = .error (.Corruption msg)

theorem RoundTrips.of_finish {encode : α → Bytes} {decode : Bytes → Except Status α} {a : α} {msg : String}
    (h : ∀ tail, decode (encode a ++ tail) = finish msg a tail) : RoundTrips encode decode a := by
  refine ⟨?_, fun tail htail => ⟨msg, by rw [h, finish, if_pos htail]⟩⟩
  rw [← append_nil (encode a), h]
  rfl

/-- Rows, version records, schemas and transaction records are read back as they were
    written. Bytes that follow are refused, except after a transaction record in its short
    form. Numbers and lengths are assumed to fit their fields, and nothing else. -/
theorem records_round_trip :
    (∀ row : Row, Row.Short row → RoundTrips Row.encode Row.decode row) ∧
    (∀ rec : stored.VersionRecord, rec.Short → RoundTrips stored.VersionRecord.encode stored.VersionRecord.decode rec) ∧
    (∀ schema : stored.TableSchema, schema.Short →
      RoundTrips stored.TableSchema.encode stored.TableSchema.decode schema) ∧
    ∀ txn_meta : stored.TxnMeta, txn_meta.Short →
      stored.decode_txn_meta (stored.encode_txn_meta txn_meta) = .ok txn_meta ∧
      (txn_meta.writes ≠ [] → RoundTrips stored.encode_txn_meta stored.decode_txn_meta txn_meta) := by
  refine ⟨fun row h => .of_finish (Row.decode_encode_append h.1 fun v hv => Value.fits_of_short (h.2 v hv)),
    fun rec h => .of_finish (stored.VersionRecord.decode_encode_append (h.trans (by norm_num))),
    fun schema h => .of_finish (stored.TableSchema.decode_encode_append h), fun txn_meta h => ?_⟩
  have hshort := fun w hw => (h.2 w hw).length_lt
  exact ⟨stored.decode_encode_txn_meta h.1 hshort,
    fun hne => .of_finish (stored.decode_encode_txn_meta_append h.1 hshort hne)⟩

end reldb
