import LsmKv.Lib.Framing
import LsmKv.Version

open lsmkv.encoding

namespace lsmkv

open List

namespace wal

/-- What `WalWriter::AddRecord` appends: length, masked checksum, payload. -/
def add_record (data : Bytes) : Bytes :=
  put_fixed32 (data.length % 2 ^ 32) ++ put_fixed32 (mask_crc (crc32 data)).toNat ++ data

/-- `WalReader::ReadRecord` on what is left of the file: the payload, and what follows it. -/
def read_record (input : Bytes) : Except Status (Bytes × Bytes) :=
  if input = [] then .error (.NotFound "EOF")
  else if input.length < 8 then .error (.Corruption "truncated wal header")
  else
    let len := decode_fixed32 input
    let masked := decode_fixed32 (input.drop 4)
    let payload := input.drop 8
    if payload.length < len then .error (.Corruption "truncated wal record")
    else if (mask_crc (crc32 (payload.take len))).toNat ≠ masked then .error (.Corruption "wal crc mismatch")
    else .ok (payload.take len, payload.drop len)

def type_byte : ValueType → UInt8
  | .kTypeDeletion => 0x0
  | .kTypeValue => 0x1

/-- No other byte is ever written. -/
def type_from_byte (b : UInt8) : ValueType := if b = 0x0 then .kTypeDeletion else .kTypeValue

def encode_entry (e : ValueType × Bytes × Bytes) : Bytes :=
  type_byte e.1 :: (put_length_prefixed_slice e.2.1 ++ put_length_prefixed_slice e.2.2)

def encode_write_batch (batch : LogRecord) : Bytes :=
  put_fixed64 batch.seq ++ put_fixed32 (batch.entries.length % 2 ^ 32) ++ batch.entries.flatMap encode_entry

def decode_entries : Nat → Bytes → Except Status (List (ValueType × Bytes × Bytes))
  | 0, _ => .ok []
  | _ + 1, [] => .error (.Corruption "batch truncated type")
  | count + 1, type :: s =>
    match get_length_prefixed_slice s with
    | none => .error (.Corruption "batch bad key")
    | some (key, s) =>
      match get_length_prefixed_slice s with
      | none => .error (.Corruption "batch bad val")
      | some (value, s) => (decode_entries count s).map ((type_from_byte type, key, value) :: ·)

/-- Bytes that follow the last entry are ignored. -/
def decode_write_batch (record : Bytes) : Except Status LogRecord :=
  match get_fixed64 record with
  | none => .error (.Corruption "batch missing seq")
  | some (seq, s) =>
    match get_fixed32 s with
    | none => .error (.Corruption "batch missing count")
    | some (count, s) => (decode_entries count s).map (⟨seq, ·⟩)

/-- A batch in its frame. -/
def frame (batch : LogRecord) : Bytes := add_record (encode_write_batch batch)

/-- The file after some batches. -/
def log_bytes (batches : List LogRecord) : Bytes := batches.flatMap frame

/-- A round of the loop of `RecoverLogFile`: the next batch, or nothing at the end of the file. -/
def next_batch (input : Bytes) : Except Status (Option (LogRecord × Bytes)) :=
  match read_record input with
  | .error s => if s.is_not_found then .ok none else .error s
  | .ok (record, rest) => (decode_write_batch record).map fun batch => some (batch, rest)

/-- A batch whose fields fit the widths under which they are written. -/
structure Fits (batch : LogRecord) : Prop where
  seq : batch.seq < 2 ^ 64
  payload : (encode_write_batch batch).length < 2 ^ 32

@[simp] theorem add_record_length (data : Bytes) : (add_record data).length = 8 + data.length := by
  simp only [add_record, length_append, put_fixed32_length]

/-- A whole frame gives its payload back. -/
theorem read_record_add_record {data : Bytes} (hdata : data.length < 2 ^ 32) (rest : Bytes) :
    read_record (add_record data ++ rest) = .ok (data, rest) := by
  have hlen : decode_fixed32 (add_record data ++ rest) = data.length := by
    rw [add_record, append_assoc, append_assoc, Nat.mod_eq_of_lt hdata]
    exact decode_put_fixed32 hdata _
  have hdrop : (add_record data ++ rest).drop 4 =
      put_fixed32 (mask_crc (crc32 data)).toNat ++ (data ++ rest) := by
    rw [add_record, append_assoc, append_assoc]
    exact drop_left' (put_fixed32_length _)
  have hpayload : (add_record data ++ rest).drop 8 = data ++ rest := by
    rw [show 8 = 4 + 4 from rfl, ← drop_drop, hdrop]
    exact drop_left' (put_fixed32_length _)
  have hne : add_record data ++ rest ≠ [] := by
    intro hnil
    have := congrArg List.length hnil
    simp at this
  have hlong : ¬ (add_record data ++ rest).length < 8 := by
    rw [length_append, add_record_length]
    omega
  rw [read_record, if_neg hne, if_neg hlong]
  simp only [hlen, hpayload, hdrop, decode_put_fixed32 (UInt32.toNat_lt _)]
  simp

/-- A frame that breaks off is an error, not the end of the file. -/
theorem read_record_broken {data : Bytes} (hdata : data.length < 2 ^ 32) {m : Nat} (hpos : 0 < m)
    (hm : m < (add_record data).length) :
    read_record ((add_record data).take m) =
      .error (.Corruption (if m < 8 then "truncated wal header" else "truncated wal record")) := by
  have hlength : ((add_record data).take m).length = m := length_take_of_le hm.le
  have hne : (add_record data).take m ≠ [] := by
    intro hnil
    rw [hnil] at hlength
    exact hpos.ne hlength
  rw [read_record, if_neg hne, hlength]
  split
  · rfl
  · next hheader =>
    have hlen : decode_fixed32 ((add_record data).take m) = data.length := by
      have hfour : ((add_record data).take m).take 4 = (add_record data).take 4 := by
        rw [take_take, Nat.min_eq_left (by omega)]
      have hwhole := decode_put_fixed32 hdata (put_fixed32 (mask_crc (crc32 data)).toNat ++ data)
      rw [decode_fixed32, hfour]
      rw [decode_fixed32] at hwhole
      rw [add_record, append_assoc, Nat.mod_eq_of_lt hdata]
      exact hwhole
    rw [add_record_length] at hm
    dsimp only
    rw [hlen, length_drop, hlength, if_pos (by omega)]

theorem encode_entry_length (e : ValueType × Bytes × Bytes) :
    e.2.1.length < (encode_entry e).length ∧ e.2.2.length < (encode_entry e).length := by
  simp only [encode_entry, put_length_prefixed_slice, length_cons, length_append]
  omega

theorem decode_entries_encode {entries : List (ValueType × Bytes × Bytes)}
    (hlength : (entries.flatMap encode_entry).length < 2 ^ 32) :
    decode_entries entries.length (entries.flatMap encode_entry) = .ok entries := by
  induction entries with
  | nil => rfl
  | cons e entries ih =>
    obtain ⟨type, key, value⟩ := e
    rw [flatMap_cons, length_append] at hlength
    obtain ⟨hkey, hvalue⟩ := encode_entry_length (type, key, value)
    have htype : type_from_byte (type_byte type) = type := by cases type <;> rfl
    rw [flatMap_cons, encode_entry, cons_append, append_assoc, length_cons, decode_entries,
      get_put_slice (by dsimp only at hkey ⊢; omega)]
    dsimp only
    rw [get_put_slice (by dsimp only at hvalue ⊢; omega)]
    dsimp only
    rw [ih (by omega), htype]
    rfl

variable {batch : LogRecord}

theorem decode_write_batch_encode (h : Fits batch) : decode_write_batch (encode_write_batch batch) = .ok batch := by
  have hpayload := h.payload
  simp only [encode_write_batch, length_append, put_fixed64_length, put_fixed32_length] at hpayload
  have hcount : batch.entries.length ≤ (batch.entries.flatMap encode_entry).length :=
    framing.length_le_flatMap fun _ _ => cons_ne_nil _ _
  rw [decode_write_batch, encode_write_batch, append_assoc, get_put_fixed64 h.seq]
  dsimp only
  rw [Nat.mod_eq_of_lt (by omega), get_put_fixed32 (by omega)]
  dsimp only
  rw [decode_entries_encode (by omega)]
  rfl

theorem frame_ne_nil (batch : LogRecord) : frame batch ≠ [] := by
  intro hnil
  have := congrArg List.length hnil
  simp [frame] at this

theorem next_batch_frame (h : Fits batch) (rest : Bytes) :
    next_batch (frame batch ++ rest) = .ok (some (batch, rest)) := by
  rw [next_batch, frame, read_record_add_record h.payload]
  dsimp only
  rw [decode_write_batch_encode h]
  rfl

theorem next_batch_nil : next_batch [] = .ok none := rfl

end wal

end lsmkv
