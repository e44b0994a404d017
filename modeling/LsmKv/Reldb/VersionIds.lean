import LsmKv.Reldb.Chain
import LsmKv.Reldb.DdlPrograms
import LsmKv.Reldb.Recovery
import LsmKv.Reldb.Rewrites
import LsmKv.Reldb.Server

namespace reldb

open lsmkv (Status)
open effects (applyAll Each)
open List Function Option Database Transaction

/-- The write that installs a version outside of a transaction. -/
def DiskOp.installs : DiskOp → Bool
  | .kv (.put_version_value _ rec) => rec.created_by = 0 && rec.end_ts = 0
  | _ => false

/-- The write that makes the counter of versions durable. -/
def DiskOp.saves : DiskOp → Bool
  | .kv (.put_next_vid _) => true
  | _ => false

/-- Whether ALTER has installed a version since the counter of versions was saved. -/
def unsaved (writes : List DiskOp) : Bool :=
  writes.foldl (fun flag op => if op.saves then false else flag || op.installs) false

theorem unsaved_concat (writes : List DiskOp) (op : DiskOp) :
    unsaved (writes ++ [op]) = if op.saves then false else unsaved writes || op.installs := by
  rw [unsaved, foldl_append]
  rfl

theorem VersionRecord.Same.trans {rec cur old : VersionRecord} (h : rec.Same cur) (h' : cur.Same old) :
    rec.Same old := by
  refine ⟨h.prev_id.trans h'.prev_id, h.created_by.trans h'.created_by, ?_⟩
  rcases h'.start_ts with hzero | heq
  · exact .inl hzero
  · rcases h.start_ts with hzero | heq'
    · exact .inl (heq.symm.trans hzero)
    · exact .inr (heq'.trans heq)

/-- The ids in a store and in the writes that led to it. -/
structure Traced (next_vid : Nat) (writes : List DiskOp) (kv : Kv) : Prop where
  keyed : kv.Keyed
  versions : ∀ k v rec, kv.versions k v = some rec → rec.prev_id < v ∧ v < next_vid
  heads : ∀ k head, kv.heads k = some head → head < next_vid
  puts : ∀ k rec, .kv (.put_version_value k rec) ∈ writes → rec.prev_id < rec.version_id ∧ rec.version_id < next_vid ∧
    ∀ cur, kv.versions k rec.version_id = some cur → cur.Same rec
  same : ∀ k rec rec', .kv (.put_version_value k rec) ∈ writes → .kv (.put_version_value k rec') ∈ writes →
    rec.version_id = rec'.version_id → rec.Same rec' ∨ rec'.Same rec

namespace Traced

variable {next_vid next_vid' : Nat} {writes : List DiskOp} {kv kv' : Kv} {key : RowKey} {rec : VersionRecord}

theorem mono (h : Traced next_vid writes kv) (hle : next_vid ≤ next_vid') : Traced next_vid' writes kv :=
  ⟨h.keyed, fun k v rec hrec => ⟨(h.versions k v rec hrec).1, (h.versions k v rec hrec).2.trans_le hle⟩,
    fun k head hhead => (h.heads k head hhead).trans_le hle,
    fun k rec hmem => ⟨(h.puts k rec hmem).1, (h.puts k rec hmem).2.1.trans_le hle, (h.puts k rec hmem).2.2⟩, h.same⟩

/-- A write that puts no version. -/
theorem other (h : Traced next_vid writes kv) {op : DiskOp} (hop : ∀ k rec, op ≠ .kv (.put_version_value k rec))
    (hversions : ∀ k v rec, kv'.versions k v = some rec → kv.versions k v = some rec)
    (hheads : ∀ k head, kv'.heads k = some head → head < next_vid) : Traced next_vid (writes ++ [op]) kv' := by
  have hmem : ∀ {k rec}, .kv (.put_version_value k rec) ∈ writes ++ [op] → .kv (.put_version_value k rec) ∈ writes := by
    intro k rec hmem
    rcases mem_append.mp hmem with hmem | hmem
    · exact hmem
    · exact absurd (mem_singleton.mp hmem).symm (hop k rec)
  refine ⟨fun k v rec hrec => h.keyed k v rec (hversions k v rec hrec),
    fun k v rec hrec => h.versions k v rec (hversions k v rec hrec), hheads, fun k rec hput => ?_,
    fun k rec rec' hput hput' => h.same k rec rec' (hmem hput) (hmem hput')⟩
  obtain ⟨hprev, hid, hcur⟩ := h.puts k rec (hmem hput)
  exact ⟨hprev, hid, fun cur hsome => hcur cur (hversions k _ cur hsome)⟩

/-- A version that is put agrees with all that were put under its id. -/
theorem put (h : Traced next_vid writes kv) (hle : next_vid ≤ next_vid') (hprev : rec.prev_id < rec.version_id)
    (hid : rec.version_id < next_vid')
    (hold : ∀ old, .kv (.put_version_value key old) ∈ writes → old.version_id = rec.version_id → rec.Same old) :
    Traced next_vid' (writes ++ [.kv (.put_version_value key rec)]) (kv.apply (.put_version_value key rec)) := by
  have h' := h.mono hle
  have hmem : ∀ {k rec'}, .kv (.put_version_value k rec') ∈ writes ++ [DiskOp.kv (.put_version_value key rec)] →
      .kv (.put_version_value k rec') ∈ writes ∨ (k = key ∧ rec' = rec) := by
    intro k rec' hmem
    rcases mem_append.mp hmem with hmem | hmem
    · exact .inl hmem
    · cases mem_singleton.mp hmem
      exact .inr ⟨rfl, rfl⟩
  refine ⟨h.keyed.apply _, fun k v cur hcur => ?_, h'.heads, fun k rec' hput => ?_, fun k rec' rec'' hput hput' heq => ?_⟩
  · rw [Kv.versions_put] at hcur
    split at hcur
    · next hat =>
      cases hcur
      rw [hat.2]
      exact ⟨hprev, hid⟩
    · exact h'.versions k v cur hcur
  · rcases hmem hput with hput | ⟨rfl, rfl⟩
    · obtain ⟨hprev', hid', hcur'⟩ := h'.puts k rec' hput
      refine ⟨hprev', hid', fun cur hcur => ?_⟩
      rw [Kv.versions_put] at hcur
      split at hcur
      · next hat =>
        cases hcur
        rw [hat.1] at hput
        exact hold rec' hput hat.2
      · exact hcur' cur hcur
    · refine ⟨hprev, hid, fun cur hcur => ?_⟩
      rw [Kv.versions_put, if_pos ⟨rfl, rfl⟩] at hcur
      cases hcur
      exact ⟨rfl, rfl, .inr rfl⟩
  · rcases hmem hput with hbefore | ⟨rfl, rfl⟩
    · rcases hmem hput' with hbefore' | ⟨rfl, rfl⟩
      · exact h.same k rec' rec'' hbefore hbefore' heq
      · exact .inr (hold rec' hbefore heq)
    · rcases hmem hput' with hbefore' | ⟨-, rfl⟩
      · exact .inl (hold rec'' hbefore' heq.symm)
      · exact .inl ⟨rfl, rfl, .inr rfl⟩

end Traced

/-- The counter in memory is above all ids, and so is the one in the store unless ALTER
    has just installed a version. -/
structure Live (next_vid : Nat) (writes : List DiskOp) (disk : Disk) : Prop where
  traced : Traced next_vid writes disk.kv
  pos : 0 < next_vid
  saved : unsaved writes = false → next_vid ≤ Database.load disk.kv.next_vid 1

/-- What a command may write, and the counter of versions after it. -/
inductive DiskOp.Legal (disk : Disk) (next_vid : Nat) : DiskOp → Nat → Prop
  | rewrites {op : KvOp} {m n : Nat} (hop : op.Rewrites m n disk.kv) (hn : next_vid ≤ n) :
      Legal disk next_vid (.kv op) next_vid
  | put_new {key : RowKey} {rec : VersionRecord} (hid : rec.version_id = next_vid) (hprev : rec.prev_id < next_vid)
      (hsaved : DiskOp.installs (.kv (.put_version_value key rec)) = true ∨ next_vid < Database.load disk.kv.next_vid 1) :
      Legal disk next_vid (.kv (.put_version_value key rec)) (next_vid + 1)
  | set_head {key : RowKey} {version_id : Nat} (hid : version_id < next_vid) :
      Legal disk next_vid (.kv (.set_head key version_id)) next_vid
  | put_table (schema : TableSchema) : Legal disk next_vid (.put_table schema) next_vid
  | delete_table (name : String) : Legal disk next_vid (.delete_table name) next_vid
  | delete_version (key : RowKey) (version_id : Nat) : Legal disk next_vid (.delete_version key version_id) next_vid

namespace Live

variable {next_vid next_vid' : Nat} {writes : List DiskOp} {disk : Disk}

section

variable (h : Live next_vid writes disk)

include h

/-- A write that neither puts a version nor saves the counter. -/
theorem other {op : DiskOp} (hop : ∀ k rec, op ≠ .kv (.put_version_value k rec)) (hsaves : op.saves = false)
    (hversions : ∀ k v rec, (disk.apply op).kv.versions k v = some rec → disk.kv.versions k v = some rec)
    (hheads : ∀ k head, (disk.apply op).kv.heads k = some head → head < next_vid)
    (hnext : (disk.apply op).kv.next_vid = disk.kv.next_vid) : Live next_vid (writes ++ [op]) (disk.apply op) := by
  refine ⟨h.traced.other hop hversions hheads, h.pos, fun hunsaved => ?_⟩
  rw [unsaved_concat, hsaves] at hunsaved
  rw [hnext]
  exact h.saved (Bool.or_eq_false_iff.mp hunsaved).1

theorem set_head {key : RowKey} {version_id : Nat} (hid : version_id < next_vid) :
    Live next_vid (writes ++ [.kv (.set_head key version_id)]) (disk.apply (.kv (.set_head key version_id))) := by
  refine h.other (by rintro k rec ⟨⟩) rfl (fun _ _ _ hsome => hsome) (fun k head hhead => ?_) rfl
  rcases update_some_cases hhead with ⟨rfl, rfl⟩ | ⟨-, hold⟩
  · exact hid
  · exact h.traced.heads k head hold

theorem rewrites {op : KvOp} {m n : Nat} (hop : op.Rewrites m n disk.kv) (hn : next_vid ≤ n) :
    Live next_vid (writes ++ [.kv op]) (disk.apply (.kv op)) := by
  cases op with
  | put_version_value key rec =>
    obtain ⟨cur, hcur, hsame⟩ := hop
    have hbound := h.traced.versions key _ cur hcur
    refine ⟨h.traced.put le_rfl (by rw [hsame.prev_id]; exact hbound.1) hbound.2 fun old hold hid => ?_, h.pos,
      fun hunsaved => ?_⟩
    · obtain ⟨-, -, hsame'⟩ := h.traced.puts key old hold
      exact hsame.trans (hsame' cur (by rw [hid]; exact hcur))
    · rw [unsaved_concat] at hunsaved
      exact h.saved (Bool.or_eq_false_iff.mp hunsaved).1
  | set_head key version_id =>
    obtain ⟨-, head, cur, hhead, hcur, rfl⟩ := hop
    exact h.set_head ((h.traced.versions key head cur hcur).1.trans (h.traced.heads key head hhead))
  | put_next_vid v =>
    have hv : v = n := hop
    refine ⟨h.traced.other (by rintro k rec ⟨⟩) (fun _ _ _ hsome => hsome) h.traced.heads, h.pos, fun _ => ?_⟩
    have hpos := h.pos
    show next_vid ≤ if v = 0 then 1 else v
    rw [if_neg (by omega), hv]
    exact hn
  | clear_head key =>
    exact h.other (by rintro k rec ⟨⟩) rfl (fun _ _ _ hsome => hsome)
      (fun k head hhead => h.traced.heads k head (Kv.heads_of_clear hhead)) rfl
  | put_next_ts v => exact h.other (by rintro k rec ⟨⟩) rfl (fun _ _ _ hsome => hsome) h.traced.heads rfl
  | put_next_txn v => exact h.other (by rintro k rec ⟨⟩) rfl (fun _ _ _ hsome => hsome) h.traced.heads rfl
  | put_txn_meta id txn_meta => exact h.other (by rintro k rec ⟨⟩) rfl (fun _ _ _ hsome => hsome) h.traced.heads rfl

theorem step {op : DiskOp} (hop : op.Legal disk next_vid next_vid') :
    Live next_vid' (writes ++ [op]) (disk.apply op) := by
  cases hop with
  | rewrites hop hn => exact h.rewrites hop hn
  | put_new hid hprev hsaved =>
    next key rec =>
    refine ⟨h.traced.put (Nat.le_succ _) (by rw [hid]; exact hprev) (by omega) fun old hold heq => ?_,
      Nat.succ_pos _, fun hunsaved => ?_⟩
    · have hlt := (h.traced.puts key old hold).2.1
      omega
    · rw [unsaved_concat] at hunsaved
      have hnot : DiskOp.installs (.kv (.put_version_value key rec)) = false := (Bool.or_eq_false_iff.mp hunsaved).2
      rw [hnot] at hsaved
      exact hsaved.resolve_left Bool.false_ne_true
  | set_head hid => exact h.set_head hid
  | put_table schema => exact h.other (by rintro k rec ⟨⟩) rfl (fun _ _ _ hsome => hsome) h.traced.heads rfl
  | delete_table name => exact h.other (by rintro k rec ⟨⟩) rfl (fun _ _ _ hsome => hsome) h.traced.heads rfl
  | delete_version key version_id =>
    have hwithin := DiskOp.Removes.delete_version key version_id disk
    exact h.other (by rintro k rec ⟨⟩) rfl hwithin.versions h.traced.heads rfl

end

end Live

/-- The writes of a command, from the counter before to the counter after. -/
inductive LegalRun : Disk → Nat → List DiskOp → Nat → Prop
  | nil {disk : Disk} {next_vid : Nat} : LegalRun disk next_vid [] next_vid
  | cons {disk : Disk} {next_vid next_vid' next_vid'' : Nat} {op : DiskOp} {ops : List DiskOp}
      (hop : op.Legal disk next_vid next_vid') (hops : LegalRun (disk.apply op) next_vid' ops next_vid'') :
      LegalRun disk next_vid (op :: ops) next_vid''

namespace LegalRun

variable {disk : Disk} {next_vid next_vid' next_vid'' : Nat} {ops ops' : List DiskOp}

theorem append (h : LegalRun disk next_vid ops next_vid') (h' : LegalRun (applyAll disk ops) next_vid' ops' next_vid'') :
    LegalRun disk next_vid (ops ++ ops') next_vid'' := by
  induction h with
  | nil => exact h'
  | cons hop _ ih => exact .cons hop (ih h')

theorem take (h : LegalRun disk next_vid ops next_vid') (i : Nat) :
    ∃ next_vid'', LegalRun disk next_vid (ops.take i) next_vid'' := by
  induction h generalizing i with
  | nil => exact ⟨_, by rw [take_nil]; exact .nil⟩
  | cons hop _ ih =>
    cases i with
    | zero => exact ⟨_, .nil⟩
    | succ i =>
      obtain ⟨n, hn⟩ := ih i
      exact ⟨n, .cons hop hn⟩

theorem live (h : LegalRun disk next_vid ops next_vid') {writes : List DiskOp} (hlive : Live next_vid writes disk) :
    Live next_vid' (writes ++ ops) (applyAll disk ops) := by
  induction h generalizing writes with
  | nil =>
    rw [append_nil]
    exact hlive
  | cons hop _ ih =>
    have hrest := ih (hlive.step hop)
    rw [append_assoc] at hrest
    exact hrest

/-- Writes that install nothing. -/
theorem of_rewrites {ops : List KvOp} {next_txn : Nat} (h : Each (KvOp.Rewrites next_txn next_vid) disk.kv ops) :
    LegalRun disk next_vid (ops.map .kv) next_vid := by
  induction ops generalizing disk with
  | nil => exact .nil
  | cons op ops ih => exact .cons (.rewrites h.1 le_rfl) (ih h.2)

/-- Writes of the catalog and its upkeep. -/
theorem of_forall {ops : List DiskOp} (h : ∀ op ∈ ops, ∀ disk, op.Legal disk next_vid next_vid) :
    LegalRun disk next_vid ops next_vid := by
  induction ops generalizing disk with
  | nil => exact .nil
  | cons op ops ih =>
    exact .cons (h op (mem_cons_self ..) disk) (ih fun op' hop' => h op' (mem_cons_of_mem _ hop'))

end LegalRun

section Commands

variable {db : Database} {disk : Disk} {writes : List DiskOp} {key : RowKey}

theorem install_legal (hlive : Live db.next_version_id writes disk) {txn : Transaction} {is_insert : Bool}
    {prev_id : Nat} (hcheck : txn.check_write disk.kv key is_insert = .ok prev_id) (is_delete : Bool) (row : Row) :
    LegalRun disk db.next_version_id ((txn.install_ops db key prev_id is_delete row).map .kv) (db.next_version_id + 1) := by
  have hprev : prev_id < db.next_version_id := by
    rcases check_write_prev hcheck with ⟨-, rfl⟩ | ⟨head, rec, hhead, hrec, rfl | rfl⟩
    · exact hlive.pos
    · exact hlive.traced.heads key _ hhead
    · exact (hlive.traced.versions key head rec hrec).1.trans (hlive.traced.heads key head hhead)
  have hcounters : LegalRun disk db.next_version_id ((drew_version db).oracle_ops.map .kv)
      db.next_version_id :=
    .cons (.rewrites (m := db.next_txn_id) (n := db.next_version_id) trivial le_rfl) <|
      .cons (.rewrites (n := db.next_version_id) rfl le_rfl) <|
        .cons (.rewrites (m := db.next_txn_id) (n := db.next_version_id + 1) rfl (Nat.le_succ _)) .nil
  rw [install_ops, map_append]
  refine hcounters.append (.cons (.put_new rfl hprev (.inr ?_)) (.cons (.set_head (Nat.lt_succ_self _))
    (.cons (.rewrites (m := db.next_txn_id) (n := db.next_version_id + 1) trivial le_rfl) .nil)))
  rw [Disk.applyAll_kv]
  show db.next_version_id < if db.next_version_id + 1 = 0 then 1 else db.next_version_id + 1
  rw [if_neg (Nat.succ_ne_zero _)]
  exact Nat.lt_succ_self _

theorem replace_legal (hlive : Live db.next_version_id writes disk) {prior : VersionRecord}
    (hrow : Database.Rewritable disk.kv key prior) (commit_ts : Nat) (row : Row) :
    LegalRun disk db.next_version_id ((replace_ops db key commit_ts prior row).map .kv)
      (db.next_version_id + 1) := by
  obtain ⟨v, hprior⟩ : ∃ v, disk.kv.versions key v = some prior :=
    hrow.reaches (P := fun rec => ∃ v, disk.kv.versions key v = some rec) (fun head _ _ hrec => ⟨head, hrec⟩)
      fun _ _ _ _ hprev => ⟨_, hprev⟩
  have hid := hlive.traced.keyed key v prior hprior
  have hbound := (hlive.traced.versions key v prior hprior).2
  subst hid
  refine .cons (.rewrites (m := db.next_txn_id) (n := db.next_version_id) ⟨prior, hprior, rfl, rfl, .inr rfl⟩ le_rfl)
    (.cons (.put_new rfl hbound (.inl rfl)) (.cons (.set_head (Nat.lt_succ_self _)) .nil))

theorem alter_rows_legal (db : Database) (table : String) (commit_ts : Nat) (a : Database.Alteration) (pks : List Value)
    (hlive : Live db.next_version_id writes disk) {ops : List KvOp} {db' : Database} {status : Except Status Unit}
    (hrun : alter_rows table commit_ts a pks db disk.kv = (ops, .ok (db', status))) :
    LegalRun disk db.next_version_id (ops.map .kv) db'.next_version_id := by
  induction pks generalizing db disk writes ops with
  | nil =>
    cases hrun
    exact .nil
  | cons pk pks ih =>
    rw [alter_rows_cons] at hrun
    cases hfound : altered_row disk.kv (table, pk) a with
    | error s =>
      rw [hfound] at hrun
      cases hrun
      exact .nil
    | ok found =>
      rw [hfound] at hrun
      cases found with
      | none => exact ih db hlive hrun
      | some pair =>
        obtain ⟨prior, row⟩ := pair
        dsimp only at hrun
        obtain ⟨rfl, hresult⟩ := Prod.mk.inj hrun
        have hfirst := replace_legal hlive (altered_row_some hfound) commit_ts row
        have hlive' := hfirst.live hlive
        rw [map_append]
        refine hfirst.append (ih (drew_version db) hlive' (Prod.ext ?_ ?_))
        · rw [Disk.applyAll_kv]
        · rw [Disk.applyAll_kv]
          exact hresult

theorem oracle_ops_legal (disk : Disk) (db : Database) :
    LegalRun disk db.next_version_id (db.oracle_ops.map .kv) db.next_version_id :=
  .cons (.rewrites (m := db.next_txn_id) (n := db.next_version_id) trivial le_rfl) <|
    .cons (.rewrites (n := db.next_version_id) rfl le_rfl) <|
      .cons (.rewrites (m := db.next_txn_id) (n := db.next_version_id) rfl le_rfl) .nil

theorem alter_table_legal (table : String) (a : Database.Alteration) (hlive : Live db.next_version_id writes disk) :
    ∃ ops db' status, db.alter_table table a disk = (ops, .ok (db', status)) ∧
      LegalRun disk db.next_version_id ops db'.next_version_id := by
  rw [alter_table_run]
  cases collect_pks disk table with
  | error s => exact ⟨[], db, .error s, rfl, .nil⟩
  | ok pks =>
    dsimp only
    obtain ⟨db', status, hresult⟩ := @Database.alter_rows_returns a db.next_ts table pks (drew_ts db) disk.kv
    cases hrows : alter_rows table db.next_ts a pks (drew_ts db) disk.kv with
    | mk ops result =>
    rw [hrows] at hresult
    subst hresult
    have hlegal := alter_rows_legal (drew_ts db) table db.next_ts a pks hlive hrows
    cases status with
    | error s => exact ⟨_, db', _, rfl, hlegal⟩
    | ok _ =>
      refine ⟨_, db'.with_table a.neu, _, rfl, hlegal.append ((oracle_ops_legal _ db').append ?_)⟩
      exact .cons (.put_table a.neu) .nil

theorem ddl_legal (hlive : Live db.next_version_id writes disk) (ddl : Ddl) :
    ∃ ops db' status, ddl.prog db disk = (ops, .ok (db', status)) ∧
      LegalRun disk db.next_version_id ops db'.next_version_id := by
  rcases ddl.prog_cases db with ⟨s, hrun⟩ | ⟨schema, -, -, hrun⟩ | ⟨name, -, -, hrun⟩ | ⟨table, a, -, hrun⟩
  · exact ⟨_, _, _, hrun disk, .nil⟩
  · exact ⟨_, _, _, hrun disk, .cons (.put_table schema) .nil⟩
  · refine ⟨_, _, _, hrun disk, .of_forall fun op hop disk' => ?_⟩
    rcases mem_drop_ops.mp hop with rfl | ⟨key, -, -, rfl⟩ | ⟨key, version_id, -, -, rfl⟩
    · exact .delete_table name
    · exact .rewrites (m := db.next_txn_id) (n := db.next_version_id) trivial le_rfl
    · exact .delete_version key version_id
  · rw [hrun]
    exact alter_table_legal table a hlive

theorem call_legal {server : Server} (hlive : Live server.db.next_version_id writes server.disk) {call : Call}
    {ops : List KvOp} (hops : server.node.ops call = some ops) :
    ∃ next_vid, LegalRun server.disk server.db.next_version_id (ops.map .kv) next_vid ∧
      ∀ after status, server.node.step call = some (after, status) → after.db.next_version_id = next_vid := by
  obtain ⟨p, hprog, rfl⟩ := map_eq_some_iff.mp hops
  rcases Node.prog_cases hlive.traced.keyed hprog with ⟨next_txn, -, -, heach, hcounters⟩ |
    ⟨txn, key, prev_id, is_delete, row, hinstalls⟩
  · refine ⟨_, .of_rewrites heach, fun after status hstep => ?_⟩
    rw [Node.step, hprog, map_some] at hstep
    cases hcase : p server.node.kv with
    | mk ops result =>
    rw [hcase] at hstep hcounters
    cases result with
    | error s =>
      cases hstep
      rfl
    | ok r =>
      cases hstep
      exact (hcounters r rfl).2
  · obtain ⟨is_insert, hcheck⟩ := hinstalls.check
    rw [hinstalls.run]
    refine ⟨_, install_legal hlive hcheck is_delete row, fun after status hstep => ?_⟩
    obtain ⟨rfl, -⟩ := Node.step_ok hprog hinstalls.run hstep
    rfl

theorem command_legal {server : Server} (hlive : Live server.db.next_version_id writes server.disk)
    {command : Command} {ops : List DiskOp} (hops : server.ops command = some ops) :
    ∃ next_vid, LegalRun server.disk server.db.next_version_id ops next_vid ∧
      ∀ after status, server.step command = some (after, status) →
        after.disk = applyAll server.disk ops ∧ after.db.next_version_id = next_vid := by
  cases command with
  | call call =>
    obtain ⟨kvops, hkvops, rfl⟩ := map_eq_some_iff.mp hops
    obtain ⟨next_vid, hlegal, hafter⟩ := call_legal hlive hkvops
    refine ⟨next_vid, hlegal, fun after status hstep => ?_⟩
    obtain ⟨ops', hops', hnode, hdisk⟩ := Server.step_call hstep
    cases hkvops.symm.trans hops'
    exact ⟨hdisk, hafter _ _ hnode⟩
  | ddl ddl =>
    obtain ⟨ops', db', status', hrun, hlegal⟩ := ddl_legal hlive ddl
    rw [Server.ops, hrun] at hops
    cases hops
    refine ⟨_, hlegal, fun after status hstep => ?_⟩
    obtain ⟨rfl, -⟩ := Server.ddl_after hrun hstep
    exact ⟨rfl, rfl⟩

end Commands

namespace System

/-- The id that the next version gets: from the counter in memory, or from the one that
    the next `Open` reads. -/
def next_version_id : System → Nat
  | .up server => server.db.next_version_id
  | .down disk => Database.load disk.kv.next_vid 1

/-- No process dies between a version that ALTER installs and the saving of the counter. -/
def careful (past : List DiskOp) : System → List Action → Bool
  | _, [] => true
  | s, action :: actions =>
    match s.ops action, s.step action with
    | some ops, some s' => (s'.is_up || !unsaved (past ++ ops)) && careful (past ++ ops) s' actions
    | _, _ => true

variable {s s' : System} {past : List DiskOp} {action : Action} {actions : List Action}

/-- What a process that died leaves. -/
theorem live_down {disk : Disk} {next_vid : Nat} (h : Live next_vid past disk) (hsaved : unsaved past = false) :
    Live (Database.load disk.kv.next_vid 1) past disk :=
  ⟨h.traced.mono (h.saved hsaved), load_pos _, fun _ => le_rfl⟩

theorem live_step (h : Live s.next_version_id past s.disk) {ops : List DiskOp} (hstep : Steps s action ops s')
    (hsaved : (s'.is_up || !unsaved (past ++ ops)) = true) : Live s'.next_version_id (past ++ ops) s'.disk := by
  cases hstep with
  | @command server after command ops status hops hstep hdisk =>
    obtain ⟨next_vid, hlegal, hcommand⟩ := command_legal h hops
    obtain ⟨-, rfl⟩ := hcommand after status hstep
    show Live after.db.next_version_id _ after.disk
    rw [hdisk]
    exact hlegal.live h
  | crash hops writes =>
    obtain ⟨next_vid, hlegal, -⟩ := command_legal h hops
    obtain ⟨next_vid', hlegal'⟩ := hlegal.take writes
    exact live_down (hlegal'.live h) (by simpa [is_up] using hsaved)
  | @reopen disk ops db hopen =>
    obtain ⟨heach, hcounters⟩ := open_db_rewrites disk.tables disk.kv h.traced.keyed
    rw [hopen] at heach hcounters
    show Live db.next_version_id _ _
    rw [(hcounters db rfl).2]
    exact (LegalRun.of_rewrites heach).live h
  | reopen_crash disk writes =>
    obtain ⟨heach, -⟩ := open_db_rewrites disk.tables disk.kv h.traced.keyed
    obtain ⟨next_vid, hlegal⟩ := (LegalRun.of_rewrites heach).take writes
    exact live_down (hlegal.live h) (by simpa [is_up] using hsaved)

theorem live_run (h : Live s.next_version_id past s.disk) (hrun : run s actions = some s')
    (hcareful : careful past s actions = true) : Live s'.next_version_id (past ++ writes s actions) s'.disk := by
  induction actions generalizing s past with
  | nil =>
    cases hrun
    rw [writes, append_nil]
    exact h
  | cons action actions ih =>
    obtain ⟨next, hnext, hrest⟩ := bind_eq_some_iff.mp hrun
    obtain ⟨ops, hops, hsteps⟩ := steps_of_step hnext
    simp only [careful, hops, hnext, Bool.and_eq_true] at hcareful
    simp only [writes, hops, hnext]
    rw [← append_assoc]
    exact ih (live_step h hsteps hcareful.1) hrest hcareful.2

/-- An empty store. -/
theorem live_empty : Live (System.down {}).next_version_id [] (System.down {}).disk :=
  ⟨⟨by rintro k v rec ⟨⟩, by rintro k v rec ⟨⟩, by rintro k head ⟨⟩, by rintro k rec ⟨⟩, by rintro k rec rec' ⟨⟩⟩,
    Nat.one_pos, fun _ => le_rfl⟩

end System

section Walks

variable {kv : Kv} {key : RowKey}

theorem Kv.visible_ne (kv : Kv) (rec : VersionRecord) (snapshot reader : Nat) :
    visible rec snapshot reader (some kv.get_txn_meta) ≠ .error (.Corruption "version chain does not end") := by
  unfold visible get_txn_meta
  intro h
  split at h
  · split at h
    · cases h
    · cases hmeta : kv.txns rec.created_by with
      | none => simp [hmeta, Status.NotFound, Status.Corruption] at h
      | some txn_meta =>
        simp only [hmeta] at h
        split at h
        · simp [Status.Corruption] at h
        · cases h
  · cases h

variable (hfalls : ∀ v rec, kv.versions key v = some rec → rec.prev_id < v)

include hfalls

/-- Where ids fall along the chains, the loop of `GetRow` ends within as many rounds as
    the id says that it starts at. -/
theorem Kv.visible_version_ends (snapshot reader : Nat) {fuel id : Nat} (hfuel : id ≤ fuel) :
    kv.visible_version key snapshot reader (some kv.get_txn_meta) fuel id =
        kv.visible_version key snapshot reader (some kv.get_txn_meta) id id ∧
      kv.visible_version key snapshot reader (some kv.get_txn_meta) fuel id ≠
        .error (.Corruption "version chain does not end") := by
  induction id using Nat.strong_induction_on generalizing fuel with
  | _ id ih =>
  by_cases hid : id = 0
  · subst hid
    rw [visible_version_zero, visible_version_zero]
    exact ⟨rfl, by rintro ⟨⟩⟩
  · obtain ⟨f, rfl⟩ : ∃ n, fuel = n + 1 := Nat.exists_eq_add_one.mpr (by omega)
    obtain ⟨i, rfl⟩ : ∃ n, id = n + 1 := Nat.exists_eq_add_one.mpr (by omega)
    have hround : ∀ n, kv.visible_version key snapshot reader (some kv.get_txn_meta) (n + 1) (i + 1) = _ :=
      fun n => by rw [visible_version, if_neg hid]
    rw [hround f, hround i]
    cases hrec : kv.versions key (i + 1) with
    | none =>
      rw [get_version, hrec]
      exact ⟨rfl, by simp [Status.NotFound, Status.Corruption]⟩
    | some rec =>
      rw [get_version_eq_ok.mpr hrec]
      dsimp only
      have hlt := hfalls _ rec hrec
      have hne := kv.visible_ne rec snapshot reader
      cases hvisible : visible rec snapshot reader (some kv.get_txn_meta) with
      | error s =>
        rw [hvisible] at hne
        exact ⟨rfl, fun h => hne (congrArg Except.error (Except.error.inj h))⟩
      | ok seen =>
        cases seen with
        | true => exact ⟨rfl, by rintro ⟨⟩⟩
        | false =>
          have hf := ih rec.prev_id hlt (show rec.prev_id ≤ f by omega)
          exact ⟨hf.1.trans (ih rec.prev_id hlt (show rec.prev_id ≤ i by omega)).1.symm, hf.2⟩

/-- So does the walk of a first write to the newest committed version. -/
theorem Transaction.check_newest_committed_ends (txn : Transaction) {fuel id : Nat} (hfuel : id ≤ fuel) :
    txn.check_newest_committed kv key fuel id = txn.check_newest_committed kv key id id ∧
      txn.check_newest_committed kv key fuel id ≠ .error (.Corruption "version chain does not end") := by
  induction id using Nat.strong_induction_on generalizing fuel with
  | _ id ih =>
  by_cases hid : id = 0
  · subst hid
    have hzero : ∀ n, txn.check_newest_committed kv key n 0 = .ok () := fun n => by cases n <;> rfl
    rw [hzero, hzero]
    exact ⟨rfl, by rintro ⟨⟩⟩
  · obtain ⟨f, rfl⟩ : ∃ n, fuel = n + 1 := Nat.exists_eq_add_one.mpr (by omega)
    obtain ⟨i, rfl⟩ : ∃ n, id = n + 1 := Nat.exists_eq_add_one.mpr (by omega)
    have hround : ∀ n, txn.check_newest_committed kv key (n + 1) (i + 1) = _ :=
      fun n => by rw [check_newest_committed, if_neg hid]
    rw [hround f, hround i]
    cases hrec : kv.versions key (i + 1) with
    | none =>
      rw [Kv.get_version, hrec]
      exact ⟨rfl, by simp [Status.NotFound, Status.Corruption]⟩
    | some rec =>
      rw [Kv.get_version_eq_ok.mpr hrec]
      dsimp only
      have hlt := hfalls _ rec hrec
      have hf := ih rec.prev_id hlt (show rec.prev_id ≤ f by omega)
      have hi := ih rec.prev_id hlt (show rec.prev_id ≤ i by omega)
      have heq := hf.1.trans hi.1.symm
      split
      · split
        · exact ⟨rfl, by simp [Status.Conflict, Status.Corruption]⟩
        · exact ⟨rfl, by rintro ⟨⟩⟩
      split
      · cases hmeta : kv.txns rec.created_by with
        | none =>
          rw [Kv.get_txn_meta, hmeta]
          exact ⟨rfl, by simp [Status.NotFound, Status.Corruption]⟩
        | some txn_meta =>
          rw [Kv.get_txn_meta, hmeta]
          dsimp only
          split
          · exact ⟨rfl, by simp [Status.Conflict, Status.Corruption]⟩
          · exact ⟨heq, hf.2⟩
      · exact ⟨heq, hf.2⟩

end Walks

/-- If no process dies between a version that ALTER installs and the saving of the
    counter, the ids of versions stay below the counter, fall along the chains and are
    given out once; so the walks over the chains end. The run starts on an empty store and
    may have DDL, and crashes after every other write. -/
theorem version_ids_fresh {actions : List Action} {s : System} (hrun : System.run (.down {}) actions = some s)
    (hcareful : System.careful [] (.down {}) actions = true) :
    (∀ k v rec, s.disk.kv.versions k v = some rec →
      rec.version_id = v ∧ rec.prev_id < rec.version_id ∧ rec.version_id < s.next_version_id) ∧
    (∀ k rec, .kv (.put_version_value k rec) ∈ System.writes (.down {}) actions → rec.version_id < s.next_version_id) ∧
    (∀ k rec rec', .kv (.put_version_value k rec) ∈ System.writes (.down {}) actions →
      .kv (.put_version_value k rec') ∈ System.writes (.down {}) actions →
      rec.version_id = rec'.version_id → rec.Same rec' ∨ rec'.Same rec) ∧
    ∀ k id fuel, id ≤ fuel →
      (∀ snapshot reader, s.disk.kv.visible_version k snapshot reader (some s.disk.kv.get_txn_meta) fuel id =
          s.disk.kv.visible_version k snapshot reader (some s.disk.kv.get_txn_meta) id id ∧
        s.disk.kv.visible_version k snapshot reader (some s.disk.kv.get_txn_meta) fuel id ≠
          .error (.Corruption "version chain does not end")) ∧
      ∀ txn : Transaction, txn.check_newest_committed s.disk.kv k fuel id = txn.check_newest_committed s.disk.kv k id id ∧
        txn.check_newest_committed s.disk.kv k fuel id ≠ .error (.Corruption "version chain does not end") := by
  have hlive := System.live_run System.live_empty hrun hcareful
  rw [nil_append] at hlive
  have htraced := hlive.traced
  have hfalls : ∀ k v rec, s.disk.kv.versions k v = some rec → rec.prev_id < v :=
    fun k v rec hrec => (htraced.versions k v rec hrec).1
  refine ⟨fun k v rec hrec => ?_, fun k rec hput => (htraced.puts k rec hput).2.1, htraced.same,
    fun k id fuel hfuel => ⟨fun snapshot reader => ?_, fun txn => ?_⟩⟩
  · have hid := htraced.keyed k v rec hrec
    subst hid
    exact ⟨rfl, htraced.versions k _ rec hrec⟩
  · exact Kv.visible_version_ends (hfalls k) snapshot reader hfuel
  · exact txn.check_newest_committed_ends (hfalls k) hfuel

/-- A table of numbers. -/
def numbersTable : TableSchema := ⟨"t", [⟨"id", .kInt64, true⟩, ⟨"n", .kInt64, false⟩]⟩

/-- A table of numbers with one row. -/
def oneRow : List Action :=
  [.reopen, .command (.ddl (.create_table numbersTable)), .command (.call .begin_txn),
    .command (.call (.insert 1 "t" [.int64 1, .int64 10])), .command (.call (.commit 1))]

def addFlag : Command := .ddl (.alter_table_add_column "t" ⟨"flag", .kBool, false⟩ (.bool true))

/-- A row is altered, the process dies in the next commit, and the row is written again. -/
def alteredThenCrashed : List Action :=
  oneRow ++ [.command addFlag, .command (.call .begin_txn),
    .command (.call (.update 2 "t" [.int64 1, .int64 11, .bool false])), .crash (.call (.commit 2)) 1, .reopen,
    .command (.call .begin_txn), .command (.call (.update 3 "t" [.int64 1, .int64 12, .bool true]))]

theorem version_ids_fresh_altered : ∃ s, System.run (.down {}) alteredThenCrashed = some s ∧
    System.careful [] (.down {}) alteredThenCrashed = true ∧
    ∀ k v rec, s.disk.kv.versions k v = some rec →
      rec.version_id = v ∧ rec.prev_id < rec.version_id ∧ rec.version_id < s.next_version_id := by
  have hsome : (System.run (.down {}) alteredThenCrashed).isSome = true := by decide +kernel
  have hcareful : System.careful [] (.down {}) alteredThenCrashed = true := by decide +kernel
  obtain ⟨s, hrun⟩ := isSome_iff_exists.mp hsome
  exact ⟨s, hrun, hcareful, (version_ids_fresh hrun hcareful).1⟩

/-- The process dies in ALTER when the rewritten row is the head and only the timestamps
    are saved; the row is then updated. -/
def crashedInAlter : List Action :=
  oneRow ++ [.crash addFlag 4, .reopen, .command (.call .begin_txn),
    .command (.call (.update 2 "t" [.int64 1, .int64 11]))]

/-- The update gets the id of the version that it is put on, and a reader that does not
    own it goes round for ever. -/
theorem version_id_reused : ∃ s rec, System.run (.down {}) crashedInAlter = some s ∧
    s.disk.kv.versions ("t", .int64 1) 2 = some rec ∧ rec.version_id = 2 ∧ rec.prev_id = 2 ∧
    s.disk.kv.heads ("t", .int64 1) = some 2 ∧
    ∀ fuel, s.disk.kv.visible_version ("t", .int64 1) 2 3 (some s.disk.kv.get_txn_meta) fuel 2 =
      .error (.Corruption "version chain does not end") := by
  have hfacts : (System.run (.down {}) crashedInAlter).map (fun s =>
      ((s.disk.kv.versions ("t", .int64 1) 2).map fun rec =>
          (rec.version_id, rec.prev_id, rec.start_ts, rec.created_by),
        s.disk.kv.heads ("t", .int64 1), (s.disk.kv.txns 2).map TxnMeta.state)) =
      some (some (2, 2, 0, 2), some 2, some .kOpen) := by decide +kernel
  obtain ⟨s, hrun, hs⟩ := map_eq_some_iff.mp hfacts
  simp only [Prod.mk.injEq, map_eq_some_iff] at hs
  obtain ⟨⟨rec, hrec, hid, hprev, hstart, howner⟩, hhead, txn_meta, hmeta, hstate⟩ := hs
  refine ⟨s, rec, hrun, hrec, hid, hprev, hhead, fun fuel => ?_⟩
  induction fuel with
  | zero => rfl
  | succ fuel ih =>
    rw [Kv.visible_version, if_neg (by decide), Kv.get_version, hrec]
    simp [Kv.visible, VersionRecord.is_provisional, hstart, howner, Kv.get_txn_meta, hmeta, hstate, hprev, ih]

end reldb
