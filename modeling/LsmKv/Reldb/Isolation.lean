import LsmKv.Reldb.DdlSteps
import LsmKv.Reldb.Scan
import LsmKv.Reldb.VersionIds

namespace reldb

open lsmkv (Status)
open lsmkv.encoding List Function Option Database effects Disk

/-- The rows of one table apart, the two stores hold the same. -/
structure Kv.SameBut (other : String) (kv kv' : Kv) : Prop where
  heads : ∀ k : RowKey, k.1 ≠ other → kv'.heads k = kv.heads k
  versions : ∀ k : RowKey, k.1 ≠ other → kv'.versions k = kv.versions k
  txns : kv'.txns = kv.txns
  next_ts : kv'.next_ts = kv.next_ts
  next_txn : kv'.next_txn = kv.next_txn
  next_vid : kv'.next_vid = kv.next_vid

structure Disk.SameBut (other : String) (disk disk' : Disk) : Prop where
  kv : Kv.SameBut other disk.kv disk'.kv
  tables : disk'.tables = disk.tables

/-- The heads and the versions of one table are the same. -/
def Disk.SameRows (table : String) (disk disk' : Disk) : Prop :=
  ∀ pk, disk'.kv.heads (table, pk) = disk.kv.heads (table, pk) ∧
    disk'.kv.versions (table, pk) = disk.kv.versions (table, pk)

/-- What a caller sees of a cursor after some calls of `Next`. -/
def Transaction.scan_nth (disk : Disk) (db : Database) (txn : Transaction) (table : String)
    (start_pk end_pk : Option Value) (n : Nat) : Except Status (Option (Value × Row) × Except Status Unit) :=
  (txn.scan disk db table start_pk end_pk).map fun scan =>
    let scan := (fun scan : TableRowScan => scan.next disk.kv)^[n] scan
    (scan.current, scan.status)

/-- The table that DROP or ALTER is about. -/
def Ddl.target : Ddl → Option String
  | .create_table _ => none
  | .drop_table name => some name
  | .alter_table_add_column table _ _ => some table
  | .alter_table_drop_column table _ => some table

theorem Ddl.Alters.target {db : Database} {ddl : Ddl} {table : String} {a : Alteration} (h : ddl.Alters db table a) :
    ddl.target = some table := by
  rcases h with ⟨col, default_value, rfl, -⟩ | ⟨col_name, rfl, -⟩ <;> rfl

/-- Scans, DROP and ALTER of the first table have nothing to do with the rows of the second one:
    their outcome does not depend on them, and no write on the way touches them. -/
structure Isolated (name other : String) : Prop where
  scan : ∀ disk disk' : Disk, disk.SameBut other disk' → ∀ (db : Database) (txn : Transaction)
    (start_pk end_pk : Option Value) (n : Nat),
    txn.scan_nth disk' db name start_pk end_pk n = txn.scan_nth disk db name start_pk end_pk n
  ddl_outcome : ∀ disk disk' : Disk, disk.SameBut other disk' → ∀ (db : Database) (ddl : Ddl), ddl.target = some name →
    (ddl.prog db disk').2 = (ddl.prog db disk).2 ∧
      Disk.SameBut other (applyAll disk (ddl.prog db disk).1) (applyAll disk' (ddl.prog db disk').1)
  ddl_rows : ∀ (disk : Disk) (db : Database) (ddl : Ddl), ddl.target = some name → ∀ i,
    disk.SameRows other (applyAll disk ((ddl.prog db disk).1.take i))

/-- No key of the second table starts like those of the first one. -/
def Apart (name other : String) : Prop :=
  ∀ pk, ¬ row_head_stem name <+: row_head_key (other, pk) ∧
    ∀ version_id, ¬ version_stem name <+: version_key (other, pk) version_id

namespace Apart

variable {name other : String}

theorem not_under (h : Apart name other) : ¬ Under name other := fun hunder =>
  (h .null).1 (stem_prefix_iff_under.mpr hunder)

theorem ne (h : Apart name other) : name ≠ other := fun heq => h.not_under (.inl heq.symm)

theorem ne_of_under (h : Apart name other) {k : RowKey} (hunder : Under name k.1) : k.1 ≠ other := fun heq =>
  h.not_under (heq ▸ hunder)

theorem ne_of_version (h : Apart name other) {k : RowKey} {version_id : Nat}
    (hstem : version_stem name <+: version_key k version_id) : k.1 ≠ other := by
  rintro rfl
  exact (h k.2).2 version_id hstem

end Apart

section Frame

variable {other : String} {kv kv' : Kv} {disk disk' : Disk}

theorem Kv.get_row_congr {key : RowKey} {snapshot reader : Nat} (hheads : kv'.heads key = kv.heads key)
    (hversions : kv'.versions key = kv.versions key) (htxns : kv'.txns = kv.txns) :
    kv'.get_row key snapshot reader (some kv'.get_txn_meta) = kv.get_row key snapshot reader (some kv.get_txn_meta) := by
  have hmeta : kv'.get_txn_meta = kv.get_txn_meta := by
    funext id
    rw [Kv.get_txn_meta, Kv.get_txn_meta, htxns]
  have hwalk : ∀ fuel id, kv'.visible_version key snapshot reader (some kv.get_txn_meta) fuel id =
      kv.visible_version key snapshot reader (some kv.get_txn_meta) fuel id := by
    intro fuel
    induction fuel with
    | zero =>
      intro id
      rw [Kv.visible_version, Kv.visible_version]
    | succ fuel ih =>
      intro id
      rw [Kv.visible_version, Kv.visible_version]
      simp only [Kv.get_version, hversions, ih]
  rw [Kv.get_row, Kv.get_row, hmeta, hheads]
  simp only [hwalk]

theorem Kv.SameBut.apply (h : Kv.SameBut other kv kv') (op : KvOp) : Kv.SameBut other (kv.apply op) (kv'.apply op) := by
  obtain ⟨hheads, hversions, htxns, hts, htxn, hvid⟩ := h
  cases op with
  | put_next_ts v => exact ⟨hheads, hversions, htxns, rfl, htxn, hvid⟩
  | put_next_txn v => exact ⟨hheads, hversions, htxns, hts, rfl, hvid⟩
  | put_next_vid v => exact ⟨hheads, hversions, htxns, hts, htxn, rfl⟩
  | put_txn_meta id txn_meta => exact ⟨hheads, hversions, by simp [Kv.apply, htxns], hts, htxn, hvid⟩
  | put_version_value key rec =>
    refine ⟨hheads, fun k hk => ?_, htxns, hts, htxn, hvid⟩
    simp only [Kv.apply, update_apply]
    split
    · next heq => rw [← heq, hversions k hk]
    · exact hversions k hk
  | set_head key version_id =>
    refine ⟨fun k hk => ?_, hversions, htxns, hts, htxn, hvid⟩
    simp only [Kv.apply, update_apply, hheads k hk]
  | clear_head key =>
    refine ⟨fun k hk => ?_, hversions, htxns, hts, htxn, hvid⟩
    simp only [Kv.apply, update_apply, hheads k hk]

theorem Kv.SameBut.applyAll (h : Kv.SameBut other kv kv') (ops : List KvOp) :
    Kv.SameBut other (applyAll kv ops) (applyAll kv' ops) := by
  induction ops generalizing kv kv' with
  | nil => exact h
  | cons op ops ih => exact ih (h.apply op)

theorem Disk.SameBut.applyAll_kv (h : Disk.SameBut other disk disk') (ops : List KvOp) :
    Disk.SameBut other (applyAll disk (ops.map .kv)) (applyAll disk' (ops.map .kv)) := by
  refine ⟨?_, ?_⟩
  · rw [Disk.applyAll_kv, Disk.applyAll_kv]
    exact h.kv.applyAll ops
  · rw [Disk.applyAll_tables, Disk.applyAll_tables]
    exact h.tables

/-- A write that touches no row of the table. -/
def DiskOp.Spares (table : String) : DiskOp → Prop
  | .kv (.put_version_value key _) | .kv (.set_head key _) | .kv (.clear_head key) | .delete_version key _ =>
    key.1 ≠ table
  | _ => True

theorem Disk.sameRows_applyAll {table : String} {ops : List DiskOp} (hops : ∀ op ∈ ops, op.Spares table) (disk : Disk) :
    disk.SameRows table (applyAll disk ops) := by
  intro pk
  have hop : ∀ op ∈ ops, ∀ disk : Disk, (disk.apply op).kv.heads (table, pk) = disk.kv.heads (table, pk) ∧
      (disk.apply op).kv.versions (table, pk) = disk.kv.versions (table, pk) := by
    intro op hop disk
    have hspares := hops op hop
    cases op with
    | kv op =>
      cases op with
      | put_version_value key rec =>
        exact ⟨rfl, update_of_ne (fun heq => hspares (congrArg Prod.fst heq).symm) _ _⟩
      | set_head key version_id | clear_head key =>
        exact ⟨update_of_ne (fun heq => hspares (congrArg Prod.fst heq).symm) _ _, rfl⟩
      | _ => exact ⟨rfl, rfl⟩
    | delete_version key version_id =>
      exact ⟨rfl, update_of_ne (fun heq => hspares (congrArg Prod.fst heq).symm) _ _⟩
    | _ => exact ⟨rfl, rfl⟩
  exact ⟨applyAll_same (fun disk => disk.kv.heads (table, pk)) (fun op h disk => (hop op h disk).1) disk,
    applyAll_same (fun disk => disk.kv.versions (table, pk)) (fun op h disk => (hop op h disk).2) disk⟩

end Frame

namespace TableRowScan

variable {scan scan' : TableRowScan} {kv kv' : Kv}

/-- Two cursors that differ in keys beyond the table only. -/
def Alike (scan scan' : TableRowScan) : Prop :=
  ∃ rest tail tail', scan.keys = rest ++ tail ∧ scan' = { scan with keys := rest ++ tail' } ∧
    (∀ k ∈ tail ++ tail', ¬ row_head_stem scan.table <+: row_head_key k) ∧ (scan.current.isSome → rest ≠ [])

theorem visit_stop {key : RowKey} (h : ¬ row_head_stem scan.table <+: row_head_key key) : scan.visit kv key = .stop := by
  rw [visit, if_pos h]

section

variable
  (hrows : ∀ pk, kv'.get_row (scan.table, pk) scan.start_ts scan.txn_id (some kv'.get_txn_meta) =
    kv.get_row (scan.table, pk) scan.start_ts scan.txn_id (some kv.get_txn_meta))

include hrows

/-- A round depends on the rows of the table only. -/
theorem visit_congr (key : RowKey) :
    scan.visit kv' key = scan.visit kv key := by
  rw [visit, visit]
  simp only [hrows]

theorem advance_keys_alike {rest tail tail' : List RowKey}
    (hbeyond : ∀ k ∈ tail ++ tail', ¬ row_head_stem scan.table <+: row_head_key k) (keys : List RowKey) :
    Alike (scan.advance_keys kv (rest ++ tail)) ({ scan with keys := keys }.advance_keys kv' (rest ++ tail')) := by
  have hvisit : ∀ key, { scan with keys := keys }.visit kv' key = scan.visit kv key := visit_congr hrows
  induction rest with
  | nil =>
    -- both stop where the table ends
    have hend : ∀ (scan : TableRowScan) (kv : Kv) (tail : List RowKey),
        (∀ k ∈ tail, ¬ row_head_stem scan.table <+: row_head_key k) →
        scan.advance_keys kv tail = { scan with keys := tail, current := none } := by
      intro scan kv tail htail
      cases tail with
      | nil => rfl
      | cons k tail => rw [advance_keys, visit_stop (htail k mem_cons_self)]
    rw [nil_append, nil_append, hend scan kv tail fun k hk => hbeyond k (mem_append_left _ hk),
      hend { scan with keys := keys } kv' tail' fun k hk => hbeyond k (mem_append_right _ hk)]
    exact ⟨[], tail, tail', rfl, rfl, hbeyond, fun hsome => by cases hsome⟩
  | cons key rest ih =>
    rw [cons_append, cons_append, advance_keys, advance_keys, hvisit key]
    cases scan.visit kv key with
    | skip => exact ih
    | row | stop | fail => exact ⟨key :: rest, tail, tail', rfl, rfl, hbeyond, fun _ => cons_ne_nil _ _⟩

theorem Alike.advance {rest tail tail' : List RowKey} (hkeys : scan.keys = rest ++ tail)
    (hbeyond : ∀ k ∈ tail ++ tail', ¬ row_head_stem scan.table <+: row_head_key k) :
    Alike (scan.advance kv) ({ scan with keys := rest ++ tail' }.advance kv') := by
  rw [TableRowScan.advance, TableRowScan.advance]
  dsimp only
  split
  · exact ⟨rest, tail, tail', hkeys, rfl, hbeyond, fun hsome => by cases hsome⟩
  · rw [hkeys]
    exact advance_keys_alike hrows hbeyond _

end

theorem Alike.next (h : Alike scan scan')
    (hrows : ∀ pk, kv'.get_row (scan.table, pk) scan.start_ts scan.txn_id (some kv'.get_txn_meta) =
      kv.get_row (scan.table, pk) scan.start_ts scan.txn_id (some kv.get_txn_meta)) :
    Alike (scan.next kv) (scan'.next kv') := by
  obtain ⟨rest, tail, tail', hkeys, rfl, hbeyond, hrest⟩ := h
  rw [TableRowScan.next, TableRowScan.next]
  dsimp only
  by_cases hnone : scan.current.isNone = true
  · rw [if_pos hnone, if_pos hnone]
    exact ⟨rest, tail, tail', hkeys, rfl, hbeyond, hrest⟩
  · rw [if_neg hnone, if_neg hnone]
    obtain ⟨key, rest, rfl⟩ := exists_cons_of_ne_nil (hrest (isSome_iff_ne_none.mpr (by simpa using hnone)))
    exact @Alike.advance { scan with keys := scan.keys.tail } kv kv' hrows rest tail tail'
      (by rw [hkeys]; rfl) hbeyond

theorem Alike.current_eq (h : Alike scan scan') : scan'.current = scan.current := by
  obtain ⟨rest, tail, tail', -, rfl, -⟩ := h
  rfl

theorem Alike.status_eq (h : Alike scan scan') : scan'.status = scan.status := by
  obtain ⟨rest, tail, tail', -, rfl, -⟩ := h
  rfl

theorem advance_table (scan : TableRowScan) (kv : Kv) : (scan.advance kv).table = scan.table := by
  have hkeys : ∀ (scan : TableRowScan) (keys : List RowKey), (scan.advance_keys kv keys).table = scan.table := by
    intro scan keys
    induction keys with
    | nil => rfl
    | cons key keys ih =>
      rw [advance_keys]
      cases scan.visit kv key with
      | skip => exact ih
      | row | stop | fail => rfl
  rw [TableRowScan.advance]
  split
  · rfl
  · exact hkeys scan _

theorem next_table (scan : TableRowScan) (kv : Kv) : (scan.next kv).table = scan.table := by
  rw [TableRowScan.next]
  split
  · rfl
  · exact advance_table { scan with keys := scan.keys.tail } kv

end TableRowScan

namespace Apart

variable {name other : String} {disk disk' : Disk}

section

variable (h : Apart name other) (hsame : disk.SameBut other disk')

include h hsame

theorem get_row_same (snapshot reader : Nat) (pk : Value) :
    disk'.kv.get_row (name, pk) snapshot reader (some disk'.kv.get_txn_meta) =
      disk.kv.get_row (name, pk) snapshot reader (some disk.kv.get_txn_meta) :=
  Kv.get_row_congr (hsame.kv.heads _ h.ne) (hsame.kv.versions _ h.ne) hsame.kv.txns

/-- The heads under the stem are none of the other table. -/
theorem seek_heads_same {target : Key} (htarget : row_head_stem name ≤ target) :
    disk'.seek_heads target (row_head_stem name) = disk.seek_heads target (row_head_stem name) := by
  refine listing.seek_congr row_head_key_injective disk'.row_keys_nodup disk.row_keys_nodup htarget fun k hk => ?_
  rw [disk'.mem_row_keys, disk.mem_row_keys, hsame.kv.heads k (h.ne_of_under (stem_prefix_iff_under.mp hk))]

theorem alike_nth {scan scan' : TableRowScan} (hscan : scan.Alike scan') (htable : scan.table = name) (n : Nat) :
    ((fun scan : TableRowScan => scan.next disk.kv)^[n] scan).Alike
      ((fun scan : TableRowScan => scan.next disk'.kv)^[n] scan') := by
  induction n generalizing scan scan' with
  | zero => exact hscan
  | succ n ih =>
    rw [iterate_succ_apply, iterate_succ_apply]
    have hrows : ∀ pk, disk'.kv.get_row (scan.table, pk) scan.start_ts scan.txn_id (some disk'.kv.get_txn_meta) =
        disk.kv.get_row (scan.table, pk) scan.start_ts scan.txn_id (some disk.kv.get_txn_meta) :=
      fun pk => htable ▸ h.get_row_same hsame _ _ pk
    exact ih (hscan.next hrows) ((scan.next_table disk.kv).trans htable)

theorem alike_cursor (txn : Transaction) (start_pk end_pk : Option Value) :
    ((txn.cursor disk name start_pk end_pk).advance disk.kv).Alike
      ((txn.cursor disk' name start_pk end_pk).advance disk'.kv) := by
  have hle := row_head_stem_le_target name start_pk
  obtain ⟨tail, hkeys, hbeyond⟩ := @listing.seek_nil_split _ _ _ row_head_key disk.row_keys _ _ hle
  obtain ⟨tail', hkeys', hbeyond'⟩ := @listing.seek_nil_split _ _ _ row_head_key disk'.row_keys _ _ hle
  have hseek := h.seek_heads_same hsame hle
  rw [seek_heads] at hseek
  rw [hseek] at hkeys'
  have hcursor : txn.cursor disk' name start_pk end_pk =
      { txn.cursor disk name start_pk end_pk with
        keys := disk.seek_heads (scan_target name start_pk) (row_head_stem name) ++ tail' } := by
    rw [Transaction.cursor, seek_heads, hkeys']
    rfl
  rw [hcursor]
  refine TableRowScan.Alike.advance (fun pk => h.get_row_same hsame _ _ pk) hkeys fun k hk => ?_
  exact (mem_append.mp hk).elim (hbeyond k) (hbeyond' k)

theorem scan_same (db : Database) (txn : Transaction) (start_pk end_pk : Option Value) (n : Nat) :
    txn.scan_nth disk' db name start_pk end_pk n = txn.scan_nth disk db name start_pk end_pk n := by
  rw [Transaction.scan_nth, Transaction.scan_nth]
  cases hfinished : txn.finished with
  | true => simp [Transaction.scan, hfinished, Except.map]
  | false =>
    cases htable : db.get_table name with
    | error s => simp [Transaction.scan, hfinished, htable, bind, Except.bind, Except.map]
    | ok schema =>
      rw [Transaction.scan_eq hfinished htable, Transaction.scan_eq hfinished htable]
      have halike := h.alike_cursor hsame txn start_pk end_pk
      have hnth := h.alike_nth hsame halike (TableRowScan.advance_table _ _) n
      rw [halike.status_eq]
      cases ((txn.cursor disk name start_pk end_pk).advance disk.kv).status with
      | error s => rfl
      | ok _ => exact congrArg Except.ok (Prod.ext hnth.current_eq hnth.status_eq)

end

end Apart

namespace Database

variable {other : String} {disk disk' : Disk} {kv kv' : Kv} {name table : String}

theorem altered_row_congr {key : RowKey} (hheads : kv'.heads key = kv.heads key)
    (hversions : kv'.versions key = kv.versions key) (a : Alteration) :
    altered_row kv' key a = altered_row kv key a := by
  have hwalk : ∀ fuel prior, committed_prior kv' key fuel prior = committed_prior kv key fuel prior := by
    intro fuel
    induction fuel with
    | zero =>
      intro prior
      rw [committed_prior, committed_prior]
    | succ fuel ih =>
      intro prior
      rw [committed_prior, committed_prior]
      simp only [Kv.get_version, hversions, ih]
  rw [altered_row, altered_row]
  simp only [Kv.get_latest_version_id, Kv.get_version, hheads, hversions, hwalk]

/-- ALTER reads and writes the rows of its table only. -/
theorem alter_rows_congr (h : Kv.SameBut other kv kv') (hne : table ≠ other) (commit_ts : Nat) (a : Alteration)
    (pks : List Value) (db : Database) :
    alter_rows table commit_ts a pks db kv' = alter_rows table commit_ts a pks db kv := by
  induction pks generalizing db kv kv' with
  | nil => rfl
  | cons pk pks ih =>
    rw [alter_rows_cons, alter_rows_cons, altered_row_congr (h.heads _ hne) (h.versions _ hne)]
    cases altered_row kv (table, pk) a with
    | error s => rfl
    | ok found =>
      cases found with
      | none => exact ih h db
      | some pair =>
        dsimp only
        rw [ih (h.applyAll _)]

theorem alter_table_spares (hne : table ≠ other) (db : Database) (a : Alteration) (disk : Disk) :
    ∀ op ∈ (db.alter_table table a disk).1, op.Spares other := by
  have hstep : ∀ past (_ : Disk) (op : DiskOp), (∀ op ∈ past, op.Spares other) → op.Spares other →
      ∀ op' ∈ past ++ [op], op'.Spares other := by
    intro past _ op hpast hop op' hop'
    rcases mem_append.mp hop' with hop' | hop'
    · exact hpast op' hop'
    · exact mem_singleton.mp hop' ▸ hop
  have hspares := @alter_table_throughout db disk table a (fun past _ => ∀ op ∈ past, op.Spares other) []
    (fun _ _ h _ => .of_each hstep h ⟨hne, hne, hne, trivial⟩)
    (fun _ h => .of_each hstep h ⟨trivial, trivial, trivial, trivial⟩) (fun h => hstep _ disk _ h trivial)
    fun op hop => absurd hop not_mem_nil
  exact hspares.last

theorem drop_ops_spares (h : Apart name other) (disk : Disk) : ∀ op ∈ drop_ops disk name, op.Spares other := by
  intro op hop
  rcases mem_drop_ops.mp hop with rfl | ⟨key, -, hunder, rfl⟩ | ⟨key, version_id, -, hstem, rfl⟩
  · trivial
  · exact h.ne_of_under hunder
  · exact h.ne_of_version hstem

end Database

namespace Apart

variable {name other : String} {disk disk' : Disk}

theorem collect_pks_same (h : Apart name other) (hsame : disk.SameBut other disk') :
    collect_pks disk' name = collect_pks disk name := by
  rw [collect_pks, collect_pks, h.seek_heads_same hsame le_rfl]

/-- ALTER does the same to both stores. -/
theorem alter_table_same (h : Apart name other) (hsame : disk.SameBut other disk') (db : Database)
    (a : Database.Alteration) :
    db.alter_table name a disk' = db.alter_table name a disk ∧
      Disk.SameBut other (applyAll disk (db.alter_table name a disk).1)
        (applyAll disk' (db.alter_table name a disk').1) := by
  have hrun : db.alter_table name a disk' = db.alter_table name a disk := by
    simp only [alter_table_run, h.collect_pks_same hsame, alter_rows_congr hsame.kv h.ne]
  refine ⟨hrun, ?_⟩
  rw [hrun, alter_table_run]
  cases collect_pks disk name with
  | error s => exact hsame
  | ok pks =>
    dsimp only
    cases alter_rows name db.next_ts a pks (Transaction.drew_ts db) disk.kv with
    | mk ops result =>
      have hrows := hsame.applyAll_kv ops
      cases result with
      | error s => exact hrows
      | ok pair =>
        obtain ⟨db', status⟩ := pair
        cases status with
        | error s => exact hrows
        | ok _ =>
          have hcounters := hrows.applyAll_kv db'.oracle_ops
          dsimp only
          rw [applyAll_append, applyAll_append, applyAll_append, applyAll_append]
          refine ⟨hcounters.kv, ?_⟩
          show update _ _ _ = update _ _ _
          rw [hcounters.tables]

theorem drop_same (hsame : disk.SameBut other disk') (name : String) :
    Disk.SameBut other (applyAll disk (drop_ops disk name)) (applyAll disk' (drop_ops disk' name)) := by
  obtain ⟨htxns, hts, htxn, hvid⟩ := drop_rest disk name
  obtain ⟨htxns', hts', htxn', hvid'⟩ := drop_rest disk' name
  refine ⟨⟨fun k hk => ?_, fun k hk => funext fun v => ?_, ?_, ?_, ?_, ?_⟩, ?_⟩
  · rw [drop_heads, drop_heads, hsame.kv.heads k hk]
  · rw [drop_versions, drop_versions, hsame.kv.versions k hk]
  · rw [htxns, htxns', hsame.kv.txns]
  · rw [hts, hts', hsame.kv.next_ts]
  · rw [htxn, htxn', hsame.kv.next_txn]
  · rw [hvid, hvid', hsame.kv.next_vid]
  · rw [drop_tables, drop_tables, hsame.tables]

theorem isolated (h : Apart name other) : Isolated name other := by
  refine ⟨fun disk disk' hsame db txn start_pk end_pk n => h.scan_same hsame db txn start_pk end_pk n,
    fun disk disk' hsame db ddl htarget => ?_, fun disk db ddl htarget i => ?_⟩
  · rcases Ddl.prog_cases db ddl with ⟨s, hprog⟩ | ⟨schema, rfl, -⟩ | ⟨name, rfl, -, hprog⟩ | ⟨table, a, halters, hprog⟩
    · rw [hprog, hprog]
      exact ⟨rfl, hsame⟩
    · cases htarget
    · cases htarget
      rw [hprog, hprog]
      exact ⟨rfl, drop_same hsame name⟩
    · cases halters.target.symm.trans htarget
      obtain ⟨hrun, hafter⟩ := h.alter_table_same hsame db a
      rw [hprog, hprog]
      exact ⟨congrArg Prod.snd hrun, hafter⟩
  · refine sameRows_applyAll (fun op hop => ?_) disk
    have hop := mem_of_mem_take hop
    rcases Ddl.prog_cases db ddl with ⟨s, hprog⟩ | ⟨schema, rfl, -⟩ | ⟨name, rfl, -, hprog⟩ | ⟨table, a, halters, hprog⟩
    · rw [hprog] at hop
      cases hop
    · cases htarget
    · cases htarget
      rw [hprog] at hop
      exact drop_ops_spares h disk op hop
    · cases halters.target.symm.trans htarget
      rw [hprog] at hop
      exact alter_table_spares h.ne db a disk op hop

end Apart

/-- Where a key of the second table starts like those of the first one, DROP of the first table
    deletes what is stored under it. -/
theorem Isolated.apart {name other : String} (h : Isolated name other) : Apart name other := by
  set schema : TableSchema := ⟨name, []⟩
  set db : Database := { catalog := update (fun _ => none) name (some schema) } with hdb
  have hdrop : ∀ disk : Disk, db.drop_table name disk =
      (drop_ops disk name, .ok (db.without_table name, .ok ())) := by
    intro disk
    have hcheck : db.check_drop_table name = .ok () := by
      simp [check_drop_table, ddl_gate, hdb, bind, Except.bind]
    rw [drop_table_run, hcheck]
  have hrows : ∀ disk : Disk, disk.SameRows other (applyAll disk (drop_ops disk name)) := by
    intro disk
    have hsame := h.ddl_rows disk db (.drop_table name) rfl (drop_ops disk name).length
    rw [Ddl.prog, hdrop, take_length] at hsame
    exact hsame
  refine fun pk => ⟨fun hstem => ?_, fun version_id hstem => ?_⟩
  · have hhead := (hrows (({} : Disk).apply (.kv (.set_head (other, pk) 1))) pk).1
    rw [drop_heads, if_pos (stem_prefix_iff_under.mp hstem)] at hhead
    simp [Kv.apply] at hhead
  · have hversion := congrFun (hrows (({} : Disk).apply (.kv (.put_version_value (other, pk)
      { version_id := version_id }))) pk).2 version_id
    rw [drop_versions, if_pos hstem] at hversion
    simp [Kv.apply] at hversion

/-- The rows of one table are out of reach of scans, DROP and ALTER of another one if and
    only if none of their keys starts like the keys of the other table. Nothing is assumed
    about the names, and both sides are about all rows that a store can have. -/
theorem isolated_iff (name other : String) : Isolated name other ↔ Apart name other :=
  ⟨Isolated.apart, Apart.isolated⟩

/-- Names without a slash are apart. -/
theorem apart_of_no_slash {name other : String} (hname : '/' ∉ name.toList) (hother : '/' ∉ other.toList)
    (hne : name ≠ other) : Apart name other := by
  have hunder : ¬ Under name other := by
    rintro (rfl | hlonger)
    · exact hne rfl
    · exact hother (hlonger.subset (by simp))
  exact fun pk => ⟨fun hstem => hunder (stem_prefix_iff_under.mp hstem),
    fun version_id hstem => hunder (under_of_version_stem hname hstem)⟩

/-- A row in a table whose name goes on after a slash. -/
def nestedTable : TableSchema := ⟨"t/a", numbersTable.columns⟩

def filledNestedTable : List Command :=
  [.ddl (.create_table numbersTable), .ddl (.create_table nestedTable), .call .begin_txn,
    .call (.insert 1 "t/a" [.int64 1, .int64 10]), .call (.commit 1)]

/-- A scan of the outer table fails, and DROP of it deletes the row of the other one. -/
theorem drop_deletes_nested_row : ∃ before after,
    System.run (.down {}) (Action.session filledNestedTable) = some (.up before) ∧
    numbersTable.name ≠ nestedTable.name ∧ numbersTable.validate = .ok () ∧ nestedTable.validate = .ok () ∧
    before.disk.kv.heads ("t/a", .int64 1) = some 1 ∧
    Transaction.scan before.disk before.db { txn_id := 2, start_ts := 1 } "t" none none =
      .error (.Corruption "bad pk hex") ∧
    before.step (.ddl (.drop_table "t")) = some (after, .ok ()) ∧
    (after.db.catalog "t/a").isSome ∧ after.disk.kv.heads ("t/a", .int64 1) = none ∧
    (after.disk.kv.versions ("t/a", .int64 1) 1).isNone := by
  have hfacts : ((System.run (.down {}) (Action.session filledNestedTable)).bind System.server?).bind (fun before =>
      (before.step (.ddl (.drop_table "t"))).map fun result =>
        decide (before.disk.kv.heads ("t/a", .int64 1) = some 1 ∧
          ((Transaction.scan before.disk before.db { txn_id := 2, start_ts := 1 } "t" none none).map fun _ => ()) =
            .error (.Corruption "bad pk hex") ∧
          result.2 = .ok () ∧ (result.1.db.catalog "t/a").isSome ∧ result.1.disk.kv.heads ("t/a", .int64 1) = none ∧
          (result.1.disk.kv.versions ("t/a", .int64 1) 1).isNone)) = some true := by decide +kernel
  obtain ⟨before, hrun, hfacts⟩ := System.run_up hfacts
  obtain ⟨⟨after, status⟩, hstep, hfacts⟩ := map_eq_some_iff.mp hfacts
  obtain ⟨hhead, hscan, rfl, hcatalog, hgone, hversion⟩ := of_decide_eq_true hfacts
  refine ⟨before, after, hrun, by decide, by decide, by decide, hhead, ?_, hstep, hcatalog, hgone, hversion⟩
  cases hcase : Transaction.scan before.disk before.db { txn_id := 2, start_ts := 1 } "t" none none with
  | ok scan =>
    rw [hcase] at hscan
    cases hscan
  | error s =>
    rw [hcase] at hscan
    cases hscan
    rfl

end reldb
