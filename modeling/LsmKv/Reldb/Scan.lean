import LsmKv.Reldb.Chain
import LsmKv.Reldb.Disk

namespace reldb

open lsmkv (Status)

/-- A cursor over the rows of a table. `keys` are the row heads that its iterator has
    still to yield, as they were when the scan was opened. -/
structure TableRowScan where
  txn_id : Nat
  start_ts : Nat
  table : String
  end_key : Option Key
  keys : List RowKey
  current : Option (Value × Row) := none
  status : Except Status Unit := .ok ()

/-- What a round of `Advance` makes of a key. -/
inductive Visit where
  | row (pk : Value) (row : Row)
  | skip
  | stop
  | fail (s : Status)

/-- What a round makes of the content of a row. -/
def Visit.of_value (pk : Value) : Option Row → Visit
  | some content => .row pk content
  | none => .skip

namespace TableRowScan

/-- One round of `Advance`; the mutex is taken for each round anew. -/
def visit (scan : TableRowScan) (kv : Kv) (key : RowKey) : Visit :=
  if ¬ row_head_stem scan.table <+: row_head_key key then .stop
  else if scan.end_key.any fun end_key => end_key ≤ row_head_key key then .stop
  else
    match decode_pk_from_key ((row_head_key key).drop (row_head_stem scan.table).length) with
    | .error s => .fail s
    | .ok pk =>
      match kv.get_row (scan.table, pk) scan.start_ts scan.txn_id (some kv.get_txn_meta) with
      | .ok row => .row pk row
      | .error s => if s.is_not_found then .skip else .fail s

def advance_keys (scan : TableRowScan) (kv : Kv) : List RowKey → TableRowScan
  | [] => { scan with keys := [], current := none }
  | key :: keys =>
    match scan.visit kv key with
    | .row pk row => { scan with keys := key :: keys, current := some (pk, row) }
    | .skip => advance_keys scan kv keys
    | .stop => { scan with keys := key :: keys, current := none }
    | .fail s => { scan with keys := key :: keys, current := none, status := .error s }

def advance (scan : TableRowScan) (kv : Kv) : TableRowScan :=
  match scan.status with
  | .error _ => { scan with current := none }
  | .ok () => scan.advance_keys kv scan.keys

def next (scan : TableRowScan) (kv : Kv) : TableRowScan :=
  if scan.current.isNone then scan else { scan with keys := scan.keys.tail }.advance kv

variable {scan : TableRowScan} {kv : Kv}

theorem visit_row {key : RowKey} {pk : Value} {row : Row} (h : scan.visit kv key = .row pk row) :
    kv.get_row (scan.table, pk) scan.start_ts scan.txn_id (some kv.get_txn_meta) = .ok row := by
  rw [visit] at h
  split at h
  · cases h
  split at h
  · cases h
  split at h
  · cases h
  next pk' hpk =>
  split at h
  · next row' hrow =>
    cases h
    exact hrow
  · split at h <;> cases h

/-- A round at the key of a row whose content is known. -/
theorem visit_eq {key : RowKey} (htable : scan.table = key.1)
    (hend : (scan.end_key.any fun end_key => end_key ≤ row_head_key key) = false) (hfits : key.2.fits = true)
    {value : Option Row}
    (hreads : Reads (kv.get_row key scan.start_ts scan.txn_id (some kv.get_txn_meta)) value) :
    scan.visit kv key = Visit.of_value key.2 value := by
  have hstem : row_head_stem scan.table <+: row_head_key key := stem_prefix_iff_under.mpr (.inl htable.symm)
  have hdecode : decode_pk_from_key ((row_head_key key).drop (row_head_stem scan.table).length) = .ok key.2 := by
    rw [htable, row_head_key, List.drop_left, decode_encode_pk, if_pos hfits]
  rw [visit, if_neg (not_not.mpr hstem), if_neg (Bool.not_eq_true _ ▸ hend), hdecode, htable]
  dsimp only
  cases value with
  | some row =>
    rw [show kv.get_row (key.1, key.2) scan.start_ts scan.txn_id (some kv.get_txn_meta) = .ok row from hreads]
    rfl
  | none =>
    obtain ⟨msg, hmsg⟩ := hreads
    rw [show kv.get_row (key.1, key.2) scan.start_ts scan.txn_id (some kv.get_txn_meta) = .error (.NotFound msg) from hmsg]
    exact if_pos rfl

/-- A cursor stands on a row that it visited. -/
theorem advance_current {pk : Value} {row : Row} (h : (scan.advance kv).current = some (pk, row)) :
    kv.get_row (scan.table, pk) scan.start_ts scan.txn_id (some kv.get_txn_meta) = .ok row := by
  have hkeys : ∀ keys, (scan.advance_keys kv keys).current = some (pk, row) →
      ∃ key, scan.visit kv key = .row pk row := by
    intro keys
    induction keys with
    | nil => rintro ⟨⟩
    | cons key keys ih =>
      intro hcurrent
      rw [advance_keys] at hcurrent
      cases hvisit : scan.visit kv key with
      | row pk' row' =>
        rw [hvisit] at hcurrent
        cases hcurrent
        exact ⟨key, hvisit⟩
      | skip =>
        rw [hvisit] at hcurrent
        exact ih hcurrent
      | stop =>
        rw [hvisit] at hcurrent
        cases hcurrent
      | fail s =>
        rw [hvisit] at hcurrent
        cases hcurrent
  rw [advance] at h
  split at h
  · cases h
  · obtain ⟨key, hvisit⟩ := hkeys scan.keys h
    exact visit_row hvisit

end TableRowScan

/-- `start_pk` is an inclusive bound and `end_pk` an exclusive one. -/
def Transaction.scan (disk : Disk) (db : Database) (txn : Transaction) (table : String)
    (start_pk end_pk : Option Value) : Except Status TableRowScan :=
  if txn.finished then .error (.InvalidArgument "transaction finished")
  else do
    let _ ← db.get_table table
    let target :=
      match start_pk with
      | none => row_head_stem table
      | some pk => row_head_key (table, pk)
    let scan : TableRowScan :=
      { txn_id := txn.txn_id, start_ts := txn.start_ts, table := table
        end_key := end_pk.map fun pk => row_head_key (table, pk), keys := disk.seek_heads target [] }
    let scan := scan.advance disk.kv
    match scan.status with
    | .error s => .error s
    | .ok () => return scan

/-- Where the iterator of a scan is placed. -/
def scan_target (table : String) : Option Value → Key
  | none => row_head_stem table
  | some pk => row_head_key (table, pk)

theorem row_head_stem_le_target (table : String) (start_pk : Option Value) :
    row_head_stem table ≤ scan_target table start_pk := by
  cases start_pk with
  | none => exact le_rfl
  | some pk => exact listing.stem_le (stem_prefix_iff_under.mpr (.inl rfl))

/-- The cursor of a scan before its first round. -/
def Transaction.cursor (disk : Disk) (txn : Transaction) (table : String) (start_pk end_pk : Option Value) :
    TableRowScan :=
  { txn_id := txn.txn_id, start_ts := txn.start_ts, table := table
    end_key := end_pk.map fun pk => row_head_key (table, pk)
    keys := disk.seek_heads (scan_target table start_pk) [] }

theorem Transaction.scan_eq {disk : Disk} {db : Database} {txn : Transaction} (hfinished : txn.finished = false)
    {table : String} {schema : TableSchema} (htable : db.get_table table = .ok schema)
    (start_pk end_pk : Option Value) :
    txn.scan disk db table start_pk end_pk =
      match ((txn.cursor disk table start_pk end_pk).advance disk.kv).status with
      | .error s => .error s
      | .ok () => .ok ((txn.cursor disk table start_pk end_pk).advance disk.kv) := by
  unfold Transaction.scan
  rw [if_neg (by simp [hfinished]), htable]
  cases start_pk <;> rfl

end reldb
