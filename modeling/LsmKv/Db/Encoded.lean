import LsmKv.Db.Session
import LsmKv.Manifest
import LsmKv.MemTable.Stored
import LsmKv.SSTable.TableBuild
import LsmKv.Wal

open lsmkv.encoding

namespace lsmkv

open List Function Option DBImpl

/-- `RecoverLogFile` on the bytes of a log. -/
def recover_log_bytes (content : Bytes) (state : MemTable × Nat) : Except Status (MemTable × Nat) :=
  framing.replay wal.next_batch replay_record (content.length + 1) content state

/-- The rows of a table file that holds these entries. -/
def encode_entries (entries : List (InternalKey × Bytes)) : List (Bytes × Bytes) :=
  entries.map fun e => (InternalKey.encode e.1, e.2)

/-- The operation writes no record and no block of 2 ^ 32 bytes or more, and no number of more
    than 64 bits: lengths are stored in 32 bits, and the source cuts a longer one off. -/
def FileOp.Fits (options : Options) : FileOp → Prop
  | .write_manifest _ edit | .append_manifest _ edit => edit.Fits
  | .append_log _ records => ∀ batch ∈ records, wal.Fits batch
  | .finish_table _ entries =>
    ∀ size ∈ SSTableBuilder.block_sizes { options } (encode_entries entries), size < 2 ^ 32
  | _ => True

/-- The entry that a call adds to the log and to the memtable. -/
def Label.entry : Label → Option (ValueType × Bytes × Bytes)
  | .put _ key value => some (.kTypeValue, key, value)
  | .delete _ key => some (.kTypeDeletion, key, [])
  | .bg => none

/-- The log record of the call is shorter than 2 ^ 32 bytes, under any sequence number. -/
def Label.Fits (label : Label) : Prop :=
  ∀ e ∈ label.entry, (wal.encode_write_batch ⟨0, [e]⟩).length < 2 ^ 32

section Decidable

instance (batch : LogRecord) : Decidable (wal.Fits batch) :=
  decidable_of_iff (_ ∧ _) ⟨fun h => ⟨h.1, h.2⟩, fun h => ⟨h.seq, h.payload⟩⟩

instance (edit : VersionEdit) : Decidable edit.Fits :=
  decidable_of_iff (_ ∧ _ ∧ _ ∧ _ ∧ _ ∧ _) ⟨fun h => ⟨h.1, h.2.1, h.2.2.1, h.2.2.2.1, h.2.2.2.2.1, h.2.2.2.2.2⟩,
    fun h => ⟨h.next_file_number, h.last_sequence, h.log_number, h.deleted_files, h.added_files, h.length⟩⟩

instance (options : Options) : ∀ op, Decidable (FileOp.Fits options op)
  | .write_manifest _ edit | .append_manifest _ edit => inferInstanceAs (Decidable edit.Fits)
  | .append_log .. | .finish_table .. => inferInstanceAs (Decidable (∀ x ∈ _, _))
  | .write_current _ | .open_log _ | .create_table _ | .remove_table _ => isTrue trivial

instance (label : Label) : Decidable label.Fits := inferInstanceAs (Decidable (∀ e ∈ _, _))

end Decidable

/-- Every block of a finished table fits, under the options that it was built with. -/
def TableFile.Fits : TableFile → Prop
  | .created => True
  | .finished entries =>
    ∃ options, ∀ size ∈ SSTableBuilder.block_sizes { options } (encode_entries entries), size < 2 ^ 32

/-- Every record and every block of the directory fits its length field. -/
structure Disk.Fits (d : Disk) : Prop where
  logs : ∀ n log, d.logs n = some log → ∀ batch ∈ log.records, wal.Fits batch
  manifests : ∀ n edits, d.manifests n = some edits → ∀ edit ∈ edits, edit.Fits
  tables : ∀ n file, d.tables n = some file → file.Fits

/-- The files, as bytes, say what the directory holds: `RecoverLogFile` and `Recover` read back the
    records of each log and manifest, and a table opens to blocks that hold its entries. -/
structure Disk.Readable (d : Disk) : Prop where
  logs : ∀ n log, d.logs n = some log → ∀ state,
    recover_log_bytes (wal.log_bytes log.records) state = .ok (log.records.foldl replay_record state)
  manifests : ∀ n edits, d.manifests n = some edits → ∀ vs : VersionSet,
    framing.replay next_edit VersionSet.recover_edit ((edits.flatMap VersionEdit.frame_edit).length + 1)
      (edits.flatMap VersionEdit.frame_edit) vs = .ok (edits.foldl VersionSet.recover_edit vs)
  tables : ∀ n entries, d.tables n = some (.finished entries) → ∃ options t index parts,
    SSTable.Image.open_data (SSTableBuilder.file options (encode_entries entries)) = .ok t ∧
      t.Lists index parts ∧ (∀ p ∈ parts, (t.read_block p.offset p.size).isOk = true) ∧
      parts.flatMap SSTable.Part.entries = encode_entries entries

section Files

variable {α : Type} {P : α → Prop} {files : Nat → Option α} (h : ∀ n file, files n = some file → P file)

include h

/-- What holds of every file still does when one is replaced by a file of which it holds. -/
theorem forall_file_update {m : Nat} {new : Option α} (hnew : ∀ file ∈ new, P file) :
    ∀ n file, update files m new n = some file → P file := by
  intro n file hfile
  by_cases hn : n = m
  · subst hn
    exact hnew file (by rwa [update_self] at hfile)
  · exact h n file (by rwa [update_of_ne hn] at hfile)

theorem forall_file_getD {default : α} (hdefault : P default) (n : Nat) : P ((files n).getD default) := by
  cases hfile : files n with
  | none => exact hdefault
  | some file => exact h n file hfile

end Files

namespace Disk.Fits

variable {d : Disk} {options : Options}

theorem empty : Disk.Fits {} := by constructor <;> rintro _ _ ⟨⟩

theorem readable (h : d.Fits) : d.Readable where
  logs n log hlog := framing.replay_whole (fun batch _ => wal.frame_ne_nil batch)
    (fun batch hbatch => wal.next_batch_frame (h.logs n log hlog batch hbatch)) wal.next_batch_nil
  manifests n edits hedits := framing.replay_whole (fun edit _ => edit.frame_edit_ne_nil)
    (fun edit hedit => next_edit_frame (h.manifests n edits hedits edit hedit)) rfl
  tables n entries htable := by
    obtain ⟨options, hsizes⟩ := h.tables n _ htable
    exact ⟨options, SSTableBuilder.file_lists options hsizes⟩

theorem apply (h : d.Fits) {op : FileOp} (hop : op.Fits options) : (d.apply op).Fits := by
  obtain ⟨hlogs, hmanifests, htables⟩ := h
  cases op with
  | write_manifest n edit =>
    refine ⟨hlogs, forall_file_update hmanifests ?_, htables⟩
    rintro _ ⟨⟩
    exact forall_mem_singleton.mpr hop
  | append_manifest n edit =>
    refine ⟨hlogs, forall_file_update hmanifests ?_, htables⟩
    rintro _ ⟨⟩
    exact forall_mem_append.mpr ⟨forall_file_getD hmanifests (forall_mem_nil _) n, forall_mem_singleton.mpr hop⟩
  | write_current n => exact ⟨hlogs, hmanifests, htables⟩
  | open_log n =>
    refine ⟨forall_file_update hlogs ?_, hmanifests, htables⟩
    rintro _ ⟨⟩
    exact forall_file_getD hlogs (forall_mem_nil _) n
  | append_log n records =>
    refine ⟨forall_file_update hlogs ?_, hmanifests, htables⟩
    rintro _ ⟨⟩
    exact forall_mem_append.mpr ⟨forall_file_getD hlogs (forall_mem_nil _) n, hop⟩
  | create_table n =>
    refine ⟨hlogs, hmanifests, forall_file_update htables ?_⟩
    rintro _ ⟨⟩
    trivial
  | finish_table n entries =>
    refine ⟨hlogs, hmanifests, forall_file_update htables ?_⟩
    rintro _ ⟨⟩
    exact ⟨options, hop⟩
  | remove_table n =>
    refine ⟨hlogs, hmanifests, forall_file_update htables ?_⟩
    rintro _ ⟨⟩

theorem apply_all {ops : List FileOp} (h : d.Fits) (hops : ∀ op ∈ ops, op.Fits options) : (d.apply_all ops).Fits := by
  induction ops generalizing d with
  | nil => exact h
  | cons op ops ih =>
    obtain ⟨hop, hops⟩ := forall_mem_cons.mp hops
    exact ih (h.apply hop) hops

end Disk.Fits

/-- Some skip list of encoded entries is this memtable: what `Get` finds there is what it finds here. -/
def MemTable.Stored (t : MemTable) : Prop := ∃ m : StoredMemTable, m.Holds t

theorem MemTable.Stored.empty : MemTable.empty.Stored := ⟨_, .empty⟩

theorem MemTable.Stored.add {t : MemTable} (h : t.Stored) {batch : LogRecord}
    (hbatch : (wal.encode_write_batch batch).length < 2 ^ 32) {e : ValueType × Bytes × Bytes}
    (he : e ∈ batch.entries) (seq : Nat) : (t.add seq e.1 e.2.1 e.2.2).Stored := by
  obtain ⟨m, hm⟩ := h
  have hlength : (wal.encode_entry e).length ≤ (batch.entries.flatMap wal.encode_entry).length :=
    (sublist_flatten_of_mem (List.mem_map_of_mem he)).length_le
  obtain ⟨hkey, hvalue⟩ := wal.encode_entry_length e
  simp only [wal.encode_write_batch, length_append, put_fixed64_length, put_fixed32_length] at hbatch
  have hstorable : Storable (Write.entry ⟨seq, e.1, e.2.1, e.2.2⟩) := by
    refine ⟨?_, ?_, ?_⟩
    · simp only [Write.entry, InternalKey.make, pack_sequence_and_type]
      cases e.1 <;> simp only [ValueType.toNat] <;> omega
    · show e.2.1.length + 8 < _
      omega
    · show e.2.2.length < _
      omega
  obtain ⟨m', -, hm'⟩ := hm.add hstorable (show 1 ≤ ((1, 0) : Nat × UInt32).1 from le_rfl) (by decide)
  exact ⟨m', hm'⟩

/-- The memtables of a running database are stored. -/
structure DBImpl.Stored (db : DBImpl) : Prop where
  mem : db.mem.Stored
  imm : ∀ imm ∈ db.imm, imm.Stored

namespace DBImpl

variable {db db' : DBImpl} {d : Disk}

/-- The background thread leaves the memtable alone, and at most clears the immutable one. -/
theorem bg_step_memtables : (db.bg_step d).1.mem = db.mem ∧ ∀ imm ∈ (db.bg_step d).1.imm, imm ∈ db.imm := by
  unfold bg_step flush_step compact_step
  cases hcase : db.bg
  case idle => dsimp only; split <;> [skip; split <;> [skip; split]] <;> exact ⟨rfl, fun _ himm => himm⟩
  case flush_start => dsimp only; cases db.imm <;> exact ⟨rfl, fun _ himm => himm⟩
  case flush_clear => exact ⟨rfl, by rintro _ ⟨⟩⟩
  case compact_start => dsimp only; split <;> exact ⟨rfl, fun _ himm => himm⟩
  case compact_merge current n =>
    dsimp only
    cases compact_level0 db.options d db.dbname current n <;> exact ⟨rfl, fun _ himm => himm⟩
  all_goals exact ⟨rfl, fun _ himm => himm⟩

theorem Stored.bg_step (h : db.Stored) : (db.bg_step d).1.Stored where
  mem := by
    rw [bg_step_memtables.1]
    exact h.mem
  imm imm himm := h.imm imm (bg_step_memtables.2 imm himm)

theorem Stored.write (h : db.Stored) {options : WriteOptions} {type : ValueType} {key value : Bytes}
    {result : Except Status Unit} {ops : List FileOp}
    (hfits : (wal.encode_write_batch ⟨0, [(type, key, value)]⟩).length < 2 ^ 32)
    (hwrite : db.write options type key value = some ((db', result), ops)) : db'.Stored := by
  cases hok : db.bg_error with
  | some status =>
    simp only [DBImpl.write, hok, Option.some.injEq, Prod.mk.injEq] at hwrite
    exact hwrite.1.1 ▸ h
  | none =>
    obtain ⟨-, ⟨-, rfl, -⟩ | ⟨-, -, rfl, -⟩⟩ := write_cases hwrite hok
    · exact ⟨h.mem.add hfits (mem_singleton_self _) _, h.imm⟩
    · refine ⟨MemTable.Stored.empty.add hfits (mem_singleton_self _) _, ?_⟩
      rintro _ ⟨⟩
      exact h.mem

theorem replay_entries_stored {batch : LogRecord} (hbatch : (wal.encode_write_batch batch).length < 2 ^ 32)
    {entries : List (ValueType × Bytes × Bytes)} (hentries : entries ⊆ batch.entries) {t : MemTable} (h : t.Stored)
    (seq last : Nat) : (replay_entries seq entries (t, last)).1.Stored := by
  induction entries generalizing seq t last with
  | nil => exact h
  | cons e entries ih =>
    obtain ⟨he, hentries⟩ := cons_subset.mp hentries
    exact ih hentries (h.add hbatch he seq) _ _

/-- What `RecoverLogFile` replays from records that fit is stored. -/
theorem recover_log_file_stored (hdisk : d.Fits) {n last : Nat} {state : MemTable × Nat}
    (hrecover : recover_log_file d n .empty last = .ok state) : state.1.Stored := by
  rw [recover_log_file] at hrecover
  cases hlog : d.logs n with
  | none =>
    rw [hlog] at hrecover
    cases hrecover
    exact .empty
  | some log =>
    obtain ⟨records, torn⟩ := log
    rw [hlog] at hrecover
    rcases torn with - | - | - <;> cases hrecover
    have hrecords := hdisk.logs n _ hlog
    refine foldlRecOn records replay_record (b := (.empty, last)) (motive := fun state => state.1.Stored) .empty ?_
    intro state hstate batch hbatch
    exact replay_entries_stored (hrecords batch hbatch).payload (Subset.refl _) hstate _ _

end DBImpl

namespace Session

variable {s s' : Session} {label : Label} {labels : List Label} {options : Options} {dbname : String}

/-- The file operations of a step, in their order. -/
def stepOps (s : Session) : Label → Option (List FileOp)
  | .put options key value => (s.db.put options key value).map Prod.snd
  | .delete options key => (s.db.delete options key).map Prod.snd
  | .bg => some (s.db.bg_step s.disk).2

theorem stepOps_of_step (hstep : s.step label = some s') :
    ∃ ops, s.stepOps label = some ops ∧ s'.disk = s.disk.apply_all ops := by
  cases label with
  | bg =>
    cases hstep
    exact ⟨_, rfl, rfl⟩
  | put options key value | delete options key =>
    obtain ⟨outcome, hwrite, rfl⟩ := map_eq_some_iff.mp hstep
    exact ⟨outcome.2, by rw [stepOps, hwrite]; rfl, rfl⟩

theorem start_stored {d : Disk} (hdisk : d.Fits) {acked : List (history.Update Bytes Bytes)}
    (hstart : start options dbname d acked = some s) : s.db.Stored := by
  rw [start] at hstart
  split at hstart
  · cases hstart
  next ops db hopen =>
    cases hstart
    unfold open_db at hopen
    dsimp only at hopen
    split_ifs at hopen with _ _ hexist
    · cases hopen
    · cases hopen
    · cases hrecover : VersionSet.recover d dbname with
      | error status => simp [hrecover] at hopen
      | ok versions =>
        simp only [hrecover] at hopen
        split at hopen
        · cases hopen
        next mem last hreplay =>
          cases hopen
          refine ⟨?_, by rintro _ ⟨⟩⟩
          split_ifs at hreplay
          · have hlog : (FileOp.open_log versions.next_file_number).Fits options := trivial
            exact recover_log_file_stored (hdisk.apply hlog) hreplay
          · cases hreplay
            exact .empty
    · simp only [hexist, Bool.false_and, Bool.false_eq_true, if_false] at hopen
      cases hopen
      exact ⟨.empty, by rintro _ ⟨⟩⟩

/-- The file operations of a run. -/
def runOps (s : Session) : List Label → List FileOp
  | [] => []
  | label :: labels => (s.stepOps label).getD [] ++ ((s.step label).map fun s => s.runOps labels).getD []

theorem stored_step (h : s.db.Stored) (hlabel : label.Fits) (hstep : s.step label = some s') : s'.db.Stored := by
  cases label with
  | bg =>
    rw [step_bg, Option.some.injEq] at hstep
    exact hstep ▸ h.bg_step
  | put options key value | delete options key =>
    obtain ⟨outcome, hwrite, rfl⟩ := map_eq_some_iff.mp hstep
    exact h.write (hlabel _ rfl) hwrite

/-- A run of calls that fit keeps the memtables stored. -/
theorem stored_run (h : s.db.Stored) (hlabels : ∀ label ∈ labels, label.Fits) (hrun : s.run labels = some s') :
    s'.db.Stored :=
  run_keeps (I := fun t => t.db.Stored) h hrun fun label hlabel _ _ _ h hstep _ =>
    stored_step h (hlabels label hlabel) hstep

theorem fits_run (h : s.disk.Fits) (hops : ∀ op ∈ s.runOps labels, op.Fits options) (hrun : s.run labels = some s') :
    s'.disk.Fits := by
  induction labels generalizing s with
  | nil =>
    cases hrun
    exact h
  | cons label labels ih =>
    obtain ⟨mid, hstep, hrest⟩ := run_cons hrun
    obtain ⟨ops, hstepOps, hmid⟩ := stepOps_of_step hstep
    rw [runOps, hstepOps, hstep, forall_mem_append] at hops
    exact ih (hmid ▸ h.apply_all hops.1) hops.2 hrest

/-- On a new directory, every call of the run and everything that it writes fits. -/
def FreshFits (options : Options) (dbname : String) (labels : List Label) : Prop :=
  (∀ label ∈ labels, label.Fits) ∧ ∀ op ∈ (freshSession options dbname).runOps labels, op.Fits options

instance : Decidable (FreshFits options dbname labels) := inferInstanceAs (Decidable (_ ∧ _))

theorem runOps_concat (hrun : s.run labels = some s') :
    s.runOps (labels ++ [label]) = s.runOps labels ++ (s'.stepOps label).getD [] := by
  induction labels generalizing s with
  | nil =>
    cases hrun
    cases hstep : s'.step label <;> simp [runOps, hstep]
  | cons first labels ih =>
    obtain ⟨mid, hstep, hrest⟩ := run_cons hrun
    rw [cons_append, runOps, runOps, hstep, map_some, map_some, getD_some, getD_some, ih hrest, append_assoc]

theorem FreshFits.of_concat (hfits : FreshFits options dbname (labels ++ [label]))
    (hrun : run_fresh options dbname labels = some s) :
    FreshFits options dbname labels ∧ ∀ ops ∈ s.stepOps label, ∀ op ∈ ops, op.Fits options := by
  obtain ⟨hlabels, hops⟩ := hfits
  rw [runOps_concat (run_of_fresh hrun), forall_mem_append] at hops
  refine ⟨⟨(forall_mem_append.mp hlabels).1, hops.1⟩, fun ops hstep => ?_⟩
  rw [hstep] at hops
  exact hops.2

theorem fits_run_fresh (hfits : FreshFits options dbname labels) (hrun : run_fresh options dbname labels = some s) :
    s.db.Stored ∧ s.disk.Fits := by
  have hrun := run_of_fresh hrun
  refine ⟨stored_run ⟨.empty, by rintro _ ⟨⟩⟩ hfits.1 hrun, fits_run ?_ hfits.2 hrun⟩
  exact Disk.Fits.empty.apply_all (show ∀ op ∈ _, FileOp.Fits options op by simp [FileOp.Fits]; decide)

/-- A session on a new database refines a map: in every state that some
    interleaving of writes and background steps reaches, `Get` returns the last
    value written, and the layers are in the order of recency. Sequence numbers are
    assumed to fit their 56 bits, and all that the run writes its length fields; then
    the memtables and files, as bytes, are read back as what the state says. -/
theorem fresh_session_get_eq_last_write {options : Options} {dbname : String} {labels : List Label}
    {s : Session} (hrun : run_fresh options dbname labels = some s)
    (hlast : s.db.versions.last_sequence < 2 ^ 56) (hfits : FreshFits options dbname labels) :
    (∀ k, s.db.get s.disk k = readStatus (history.read s.acked k)) ∧ RecencyOrdered s.db s.disk ∧
      s.db.Stored ∧ s.disk.Readable := by
  obtain ⟨hstored, hdisk⟩ := fits_run_fresh hfits hrun
  obtain ⟨⟨l, hdb, hacked⟩, -⟩ := holds_run_fresh hrun hlast
  refine ⟨fun k => ?_, hdb.recencyOrdered hlast, hstored, hdisk.readable⟩
  rw [hdb.get_eq hlast k, hacked]

/-- A rotation, its flush, a merge into level 1 and a deletion that shadows the merge. -/
theorem fresh_session_get_after_merge :
    ∃ s, run_fresh { create_if_missing := true, write_buffer_size := 1, level0_compaction_trigger := 1 } "db"
        ([.put {} [1] [7], .put {} [2] [8]] ++ List.replicate 12 .bg ++ [.delete {} [1]]) = some s ∧
      s.db.versions.last_sequence = 3 ∧ s.db.versions.current.files1.length = 1 ∧
      ∀ k, s.db.get s.disk k = readStatus (history.read [⟨[1], some [7]⟩, ⟨[2], some [8]⟩, ⟨[1], none⟩] k) := by
  have hfacts : (run_fresh { create_if_missing := true, write_buffer_size := 1, level0_compaction_trigger := 1 }
      "db" ([.put {} [1] [7], .put {} [2] [8]] ++ List.replicate 12 .bg ++ [.delete {} [1]])).map
        (fun s => (s.db.versions.last_sequence, s.db.versions.current.files1.length, s.acked)) =
      some (3, 1, [⟨[1], some [7]⟩, ⟨[2], some [8]⟩, ⟨[1], none⟩]) := by decide
  obtain ⟨s, hrun, hs⟩ := map_eq_some_iff.mp hfacts
  simp only [Prod.mk.injEq] at hs
  obtain ⟨hlast, hfiles, hacked⟩ := hs
  refine ⟨s, hrun, hlast, hfiles, fun k => ?_⟩
  rw [← hacked]
  exact (fresh_session_get_eq_last_write hrun (by rw [hlast]; decide) (by decide +kernel)).1 k

/-- The length of a value of 2 ^ 32 bytes is stored as 0, and an empty value found. -/
theorem get_long_value {value : Bytes} (hlength : value.length = 2 ^ 32) :
    ∃ m, StoredMemTable.empty.add ⟨1, .kTypeValue, [107], value⟩ (1, 0) = some m ∧
      m.get [107] 1 = some (.ok (some (some []))) := by
  have hikey (value : Bytes) : get_length_prefixed_slice
      (encode_entry (make_internal_key [107] 1 .kTypeValue) value) =
      some (make_internal_key [107] 1 .kTypeValue, put_length_prefixed_slice value) :=
    get_put_slice (by decide) _
  have hvalue : get_length_prefixed_slice (put_length_prefixed_slice value) = some ([], value) := by
    rw [put_length_prefixed_slice, hlength, Nat.mod_self]
    rfl
  have hcompare : compare_entry (encode_entry (make_internal_key [107] 1 .kTypeValue) value)
      (encode_entry (make_internal_key [107] 1 .kTypeValue) []) = .eq := by
    rw [compare_entry, hikey, hikey]
    show compare_internal_key _ _ = _
    decide
  have hread : read_entry [107] 1 (encode_entry (make_internal_key [107] 1 .kTypeValue) value) =
      .ok (some (some [])) := by
    rw [read_entry, hikey]
    dsimp only
    rw [hvalue]
    rfl
  refine ⟨⟨⟨[⟨default, some 1 :: List.replicate 11 none⟩, ⟨encode_entry _ value, [none]⟩], 1, 1, 0⟩, 0 + _⟩, rfl, ?_⟩
  generalize encode_entry (make_internal_key [107] 1 .kTypeValue) value = entry at hcompare hread
  have hfind : SkipList.find compare_entry ⟨[⟨default, some 1 :: List.replicate 11 none⟩, ⟨entry, [none]⟩], 1, 1, 0⟩
      (encode_entry (make_internal_key [107] 1 .kTypeValue) []) = some (some entry) := by
    simp [SkipList.find, SkipList.find_greater_or_equal, SkipList.find_loop, SkipList.next, SkipList.ahead,
      SkipList.key, hcompare]
  simp only [StoredMemTable.get, hfind, map_some, hread]

/-- A `Put` of 2 ^ 32 bytes is acknowledged, and its memtable has an empty value for the key. -/
theorem long_value_reads_empty :
    ∃ s m, run_fresh { create_if_missing := true } "db" [.put {} [107] (List.replicate (2 ^ 32) 0)] = some s ∧
      history.read s.acked [107] = some (List.replicate (2 ^ 32) 0) ∧
      StoredMemTable.empty.add ⟨1, .kTypeValue, [107], List.replicate (2 ^ 32) 0⟩ (1, 0) = some m ∧
      m.get [107] 1 = some (.ok (some (some []))) := by
  obtain ⟨m, hadd, hget⟩ := @get_long_value (List.replicate (2 ^ 32) 0) length_replicate
  exact ⟨_, m, rfl, rfl, hadd, hget⟩

end Session

end lsmkv
