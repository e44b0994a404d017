import LsmKv.Db.Session
import LsmKv.Db.Recovery

namespace lsmkv

open List Function Option

/-- The file operations of a step that fail, leaving the files as they are. -/
structure Faults where
  open_log : Bool := false
  append_manifest : Bool := false
deriving DecidableEq, Repr

namespace VersionSet

/-- What `LogAndApply` leaves when the manifest cannot be appended to: the counters are
    merged, the version is not published. -/
def merge_counters (vs : VersionSet) (edit : VersionEdit) : VersionSet :=
  { vs with
    next_file_number := max vs.next_file_number (edit.next_file_number.getD 0)
    last_sequence := max vs.last_sequence (edit.last_sequence.getD 0)
    log_number := edit.log_number.getD vs.log_number }

end VersionSet

def manifest_file_name (dbname : String) (number : Nat) : String := dbname ++ "/MANIFEST-" ++ toString number

def log_file_name (dbname : String) (number : Nat) : String := dbname ++ "/" ++ toString number ++ ".log"

/-- A session whose file operations may fail. `wal_open` tells whether the writer could
    open its log, and `bg_failed` is an error that the background thread has still to
    store, with whether it comes from a flush. -/
structure FaultySession where
  db : DBImpl
  disk : Disk
  wal_open : Bool := true
  bg_failed : Option (Status × Bool) := none

namespace FaultySession

/-- The manifest cannot be appended to. -/
def append_error (s : FaultySession) : Status :=
  .IOError ("cannot append file: " ++ manifest_file_name s.db.dbname s.db.versions.manifest_file_number)

/-- Rotation: memtable, writer and log number change first; then the log is opened, and
    then the manifest is told. -/
def rotate (s : FaultySession) (faults : Faults) : FaultySession × Except Status Unit :=
  let number := s.db.versions.next_file_number
  let edit : VersionEdit := { log_number := some number }
  let versions := s.db.versions.take_file_number
  let db := { s.db with
    imm := some s.db.mem, mem := .empty, logfile_number := number, wal := { number := number }, versions := versions }
  let disk := s.disk.apply_all s.db.wal.flush
  if faults.open_log then
    ({ s with db := db, disk := disk, wal_open := false },
      .error (.IOError ("cannot open wal for append: " ++ log_file_name s.db.dbname number)))
  else
    let disk := disk.apply (.open_log number)
    if faults.append_manifest then
      ({ s with db := { db with versions := versions.merge_counters edit }, disk := disk, wal_open := true },
        .error s.append_error)
    else
      let (versions, ops) := versions.log_and_apply edit
      ({ s with db := { db with versions := versions, flush_scheduled := true }, disk := disk.apply_all ops, wal_open := true },
        .ok ())

/-- `none` while the writer waits for a flush. -/
def make_room_for_write (s : FaultySession) (faults : Faults) : Option (FaultySession × Except Status Unit) :=
  match s.db.bg_error with
  | some e => some (s, .error e)
  | none =>
    if s.db.mem.memory_usage < s.db.options.write_buffer_size then some (s, .ok ())
    else if s.db.imm.isSome then none
    else some (s.rotate faults)

/-- The sequence number is drawn before the log refuses the record. -/
def add_record (s : FaultySession) (options : WriteOptions) (type : ValueType) (key value : Bytes) :
    FaultySession × Except Status Unit :=
  if s.wal_open then
    let (db, ops) := s.db.add_record options type key value
    ({ s with db := db, disk := s.disk.apply_all ops }, .ok ())
  else
    let versions := { s.db.versions with last_sequence := s.db.versions.last_sequence + 1 }
    ({ s with db := { s.db with versions := versions } }, .error (.IOError "wal not open"))

def write (s : FaultySession) (options : WriteOptions) (type : ValueType) (key value : Bytes) (faults : Faults) :
    Option (FaultySession × Except Status Unit) :=
  match s.db.bg_error with
  | some e => some (s, .error e)
  | none =>
    (s.make_room_for_write faults).map fun (s, room) =>
      match room with
      | .error e => (s, .error e)
      | .ok () => s.add_record options type key value

/-- A background step. An error is stored when the mutex is taken again. -/
def bg_step (s : FaultySession) (faults : Faults) : FaultySession :=
  match s.bg_failed with
  | some (e, flush) =>
    { s with
      db := { s.db with
        bg_error := some e, compaction_scheduled := s.db.compaction_scheduled || flush, bg := .idle }
      bg_failed := none }
  | none =>
    match s.db.bg, faults.append_manifest with
    | .flush_edit edit, true =>
      { s with db := { s.db with versions := s.db.versions.merge_counters edit }, bg_failed := some (s.append_error, true) }
    | .compact_edit _ edit, true =>
      { s with db := { s.db with versions := s.db.versions.merge_counters edit }, bg_failed := some (s.append_error, false) }
    | _, _ =>
      let (db, ops) := s.db.bg_step s.disk
      { s with db := db, disk := s.disk.apply_all ops }

/-- A write, or a step of the background thread, with the operations that fail in it. -/
inductive Event where
  | write (options : WriteOptions) (type : ValueType) (key value : Bytes) (faults : Faults)
  | bg (faults : Faults)

def step (s : FaultySession) : Event → Option FaultySession
  | .write options type key value faults => (s.write options type key value faults).map Prod.fst
  | .bg faults => some (s.bg_step faults)

def run (s : FaultySession) : List Event → Option FaultySession
  | [] => some s
  | event :: events => (s.step event).bind fun s => s.run events

/-- A session on a directory that holds nothing yet. -/
def fresh (options : Options) (dbname : String) : Option FaultySession :=
  (Session.fresh options dbname).map fun s => { db := s.db, disk := s.disk }

/-- What a log holds, with the records that its writer still buffers. -/
def log (s : FaultySession) (number : Nat) : List LogRecord :=
  ((s.disk.logs number).getD {}).records ++ if s.db.wal.number = number then s.db.wal.pending else []

end FaultySession

/-- The last log number that the manifest records. -/
def Disk.recordedLog (d : Disk) : Option Nat :=
  d.current.map fun n => (replayManifest n ((d.manifests n).getD [])).log_number

/-- The operation leaves the recorded log number alone. -/
def FileOp.KeepsLog : FileOp → Prop
  | .write_manifest .. | .write_current _ => False
  | .append_manifest _ edit => edit.log_number = none
  | _ => True

theorem Disk.recordedLog_append (d : Disk) (n : Nat) (edit : VersionEdit) (hcurrent : d.current = some n) :
    (d.apply (.append_manifest n edit)).recordedLog = edit.log_number.or d.recordedLog := by
  have hedits : (d.apply (.append_manifest n edit)).manifests n = some ((d.manifests n).getD [] ++ [edit]) := by
    simp [Disk.apply]
  have hcurrent' : (d.apply (.append_manifest n edit)).current = some n := hcurrent
  rw [Disk.recordedLog, Disk.recordedLog, hcurrent', hcurrent, map_some, map_some, hedits, getD_some,
    replayManifest_concat, VersionSet.recover_edit]
  cases edit.log_number <;> rfl

theorem Disk.recordedLog_apply (d : Disk) {op : FileOp} (hop : op.KeepsLog) : (d.apply op).recordedLog = d.recordedLog := by
  cases op with
  | write_manifest | write_current => exact absurd hop id
  | append_manifest m edit =>
    cases hcurrent : d.current with
    | none => simp [Disk.recordedLog, Disk.apply, hcurrent]
    | some n =>
      by_cases hm : n = m
      · subst hm
        rw [d.recordedLog_append n edit hcurrent, show edit.log_number = none from hop]
        rfl
      · simp [Disk.recordedLog, Disk.apply, hcurrent, update, hm]
  | _ => rfl

theorem Disk.recordedLog_apply_all (d : Disk) {ops : List FileOp} (hops : ∀ op ∈ ops, op.KeepsLog) :
    (d.apply_all ops).recordedLog = d.recordedLog := by
  induction ops generalizing d with
  | nil => rfl
  | cons op ops ih =>
    obtain ⟨hop, hops⟩ := forall_mem_cons.mp hops
    rw [Disk.apply_all_cons, ih _ hops, d.recordedLog_apply hop]

theorem WalWriter.flush_keepsLog (w : WalWriter) : ∀ op ∈ w.flush, op.KeepsLog := by
  intro op hop
  unfold WalWriter.flush at hop
  split at hop
  · cases hop
  · rw [mem_singleton.mp hop]
    trivial

/-- The edit that the background thread is about to append tells nothing about logs. -/
def BgState.KeepsLog : BgState → Prop
  | .flush_edit edit | .compact_edit _ edit => edit.log_number = none
  | _ => True

theorem DBImpl.bg_step_keepsLog {db : DBImpl} {d : Disk} (hbg : db.bg.KeepsLog) :
    (db.bg_step d).1.bg.KeepsLog ∧ ∀ op ∈ (db.bg_step d).2, op.KeepsLog := by
  unfold DBImpl.bg_step DBImpl.flush_step DBImpl.compact_step
  cases hcase : db.bg <;> simp only [hcase] at hbg ⊢
  case idle => split <;> [skip; split <;> [skip; split]] <;> simp [hcase, BgState.KeepsLog]
  case flush_start => cases db.imm <;> simp [BgState.KeepsLog]
  case flush_build imm n => split <;> simp [BgState.KeepsLog, FileOp.KeepsLog]
  case flush_edit edit => simpa [BgState.KeepsLog, FileOp.KeepsLog, VersionSet.log_and_apply] using hbg
  case compact_start => split <;> simp [BgState.KeepsLog]
  case compact_merge current n =>
    cases compact_level0 db.options d db.dbname current n <;> simp [BgState.KeepsLog, FileOp.KeepsLog]
  case compact_edit result edit =>
    refine ⟨trivial, fun op hop => ?_⟩
    rcases mem_append.mp hop with hop | hop
    · rw [mem_singleton.mp hop]
      exact hbg
    · obtain ⟨input, -, rfl⟩ := List.mem_map.mp hop
      trivial
  all_goals simp [BgState.KeepsLog]

theorem Disk.current_apply_all (d : Disk) {ops : List FileOp} (hops : ∀ op ∈ ops, op.KeepsLog) :
    (d.apply_all ops).current = d.current := by
  induction ops generalizing d with
  | nil => rfl
  | cons op ops ih =>
    obtain ⟨hop, hops⟩ := forall_mem_cons.mp hops
    rw [Disk.apply_all_cons, ih _ hops]
    cases op <;> first | rfl | exact absurd hop id

namespace FaultySession

/-- The writer finds the memtable full and may rotate. -/
def rotates (s : FaultySession) : Bool :=
  s.db.bg_error.isNone && decide (s.db.options.write_buffer_size ≤ s.db.mem.memory_usage) && s.db.imm.isNone

/-- Whether the log in use is on record after an event, by the operations that failed:
    a rotation that opened its log decides. -/
def on_record (s : FaultySession) (before : Bool) : Event → Bool
  | .write _ _ _ _ faults => if s.rotates && !faults.open_log then !faults.append_manifest else before
  | .bg _ => before

/-- The same after a run of events. -/
def run_on_record (s : FaultySession) (before : Bool) : List Event → Bool
  | [] => before
  | event :: events =>
    match s.step event with
    | some s' => s'.run_on_record (s.on_record before event) events
    | none => before

/-- The invariant: the manifest names a log that was drawn, and it is the log in use if
    and only if this one is on record. -/
structure InStep (s : FaultySession) (recorded : Bool) : Prop where
  current : s.disk.current = some s.db.versions.manifest_file_number
  log : ∃ n, s.disk.recordedLog = some n ∧ n < s.db.versions.next_file_number ∧
    (s.wal_open = true → (s.db.wal.number = n ↔ recorded = true))
  bg : s.db.bg.KeepsLog

variable {s s' : FaultySession} {recorded : Bool}

theorem InStep.rotate (h : s.InStep recorded) (faults : Faults) :
    (s.rotate faults).1.InStep (if faults.open_log then recorded else !faults.append_manifest) := by
  obtain ⟨n, hn, hbelow, hlog⟩ := h.log
  have hflush := s.db.wal.flush_keepsLog
  have hrecorded : (s.disk.apply_all s.db.wal.flush).recordedLog = some n :=
    (s.disk.recordedLog_apply_all hflush).trans hn
  have hcurrent : (s.disk.apply_all s.db.wal.flush).current = some s.db.versions.manifest_file_number :=
    (s.disk.current_apply_all hflush).trans h.current
  have hnext : s.db.versions.next_file_number < s.db.versions.next_file_number + 1 := Nat.lt_succ_self _
  unfold FaultySession.rotate
  by_cases hopen : faults.open_log
  · simp only [hopen, if_true]
    exact ⟨hcurrent, ⟨n, hrecorded, hbelow.trans hnext, fun hwal => absurd hwal Bool.false_ne_true⟩, h.bg⟩
  · simp only [hopen, Bool.false_eq_true, if_false]
    set d := (s.disk.apply_all s.db.wal.flush).apply (.open_log s.db.versions.next_file_number) with hd
    have hopened : d.recordedLog = some n := hrecorded
    by_cases hfails : faults.append_manifest
    · simp only [hfails, if_true, Bool.not_true]
      refine ⟨hcurrent, ⟨n, hopened, ?_, fun _ => ⟨fun heq => ?_, fun hfalse => absurd hfalse (by decide)⟩⟩, h.bg⟩
      · exact hbelow.trans (hnext.trans_le (le_max_left _ _))
      · exact absurd heq.symm (Nat.ne_of_lt hbelow)
    · simp only [hfails, Bool.false_eq_true, if_false, Bool.not_false]
      refine ⟨hcurrent, ⟨s.db.versions.next_file_number, ?_, ?_, fun _ => ⟨fun _ => rfl, fun _ => rfl⟩⟩, h.bg⟩
      · exact d.recordedLog_append _ { log_number := some s.db.versions.next_file_number } hcurrent
      · exact hnext.trans_le (le_max_left _ _)

theorem InStep.add_record (h : s.InStep recorded) (options : WriteOptions) (type : ValueType) (key value : Bytes) :
    (s.add_record options type key value).1.InStep recorded := by
  unfold FaultySession.add_record
  by_cases hopen : s.wal_open
  · rw [if_pos hopen]
    have hops : ∀ op ∈ (s.db.add_record options type key value).2, op.KeepsLog := by
      unfold DBImpl.add_record
      cases options.sync
      · exact fun op hop => absurd hop not_mem_nil
      · exact WalWriter.flush_keepsLog _
    obtain ⟨n, hn, hbelow, hlog⟩ := h.log
    have hnumber : (s.db.add_record options type key value).1.wal.number = s.db.wal.number := by
      unfold DBImpl.add_record
      cases options.sync <;> rfl
    refine ⟨(s.disk.current_apply_all hops).trans h.current,
      ⟨n, (s.disk.recordedLog_apply_all hops).trans hn, hbelow, fun hwal => ?_⟩, h.bg⟩
    show _ = n ↔ _
    rw [hnumber]
    exact hlog hwal
  · rw [if_neg hopen]
    exact ⟨h.current, h.log, h.bg⟩

theorem InStep.bg_step (h : s.InStep recorded) (faults : Faults) : (s.bg_step faults).InStep recorded := by
  obtain ⟨n, hn, hbelow, hlog⟩ := h.log
  have hplain : InStep { s with db := (s.db.bg_step s.disk).1, disk := s.disk.apply_all (s.db.bg_step s.disk).2 } recorded := by
    obtain ⟨hwal, -, -, hmanifest, hnext⟩ := @DBImpl.bg_step_frame s.db s.disk
    obtain ⟨hbg, hops⟩ := DBImpl.bg_step_keepsLog (d := s.disk) h.bg
    refine ⟨(s.disk.current_apply_all hops).trans (h.current.trans (congrArg some hmanifest.symm)),
      ⟨n, (s.disk.recordedLog_apply_all hops).trans hn, hbelow.trans_le hnext, fun hopen => ?_⟩, hbg⟩
    show (s.db.bg_step s.disk).1.wal.number = n ↔ _
    rw [hwal]
    exact hlog hopen
  have hmerged : ∀ edit e, InStep
      { s with db := { s.db with versions := s.db.versions.merge_counters edit }, bg_failed := e } recorded := fun edit e =>
    ⟨h.current, ⟨n, hn, hbelow.trans_le (le_max_left _ _), hlog⟩, h.bg⟩
  unfold FaultySession.bg_step
  split
  · exact ⟨h.current, ⟨n, hn, hbelow, hlog⟩, trivial⟩
  · split
    · exact hmerged _ _
    · exact hmerged _ _
    · exact hplain

/-- What a write does: it is refused, or finds room, or rotates and goes on if that succeeds. -/
theorem write_cases {options : WriteOptions} {type : ValueType} {key value : Bytes} {faults : Faults}
    {result : Except Status Unit} (h : s.write options type key value faults = some (s', result)) :
    (s.rotates = false ∧ s' = s ∧ ∃ e, result = .error e) ∨
      (s.rotates = false ∧ s.add_record options type key value = (s', result)) ∨
      (s.rotates = true ∧ ((s.rotate faults = (s', result) ∧ ∃ e, result = .error e) ∨
        ((s.rotate faults).2 = .ok () ∧ (s.rotate faults).1.add_record options type key value = (s', result)))) := by
  unfold FaultySession.write FaultySession.make_room_for_write at h
  unfold FaultySession.rotates
  cases herror : s.db.bg_error with
  | some e =>
    rw [herror] at h
    cases h
    exact .inl ⟨rfl, rfl, e, rfl⟩
  | none =>
    rw [herror] at h
    dsimp only at h
    by_cases hroom : s.db.mem.memory_usage < s.db.options.write_buffer_size
    · rw [if_pos hroom] at h
      exact .inr (.inl ⟨by simp [hroom], Option.some.inj h⟩)
    · rw [if_neg hroom] at h
      cases himm : s.db.imm with
      | some imm =>
        rw [himm] at h
        cases h
      | none =>
        rw [himm, if_neg (by decide), map_some] at h
        refine .inr (.inr ⟨by simpa using hroom, ?_⟩)
        cases hrotate : s.rotate faults with
        | mk mid room =>
        rw [hrotate] at h
        cases room with
        | error e =>
          cases h
          exact .inl ⟨rfl, e, rfl⟩
        | ok _ => exact .inr ⟨rfl, Option.some.inj h⟩

theorem InStep.step (h : s.InStep recorded) {event : Event} (hstep : s.step event = some s') :
    s'.InStep (s.on_record recorded event) := by
  cases event with
  | bg faults =>
    cases hstep
    exact h.bg_step faults
  | write options type key value faults =>
    obtain ⟨⟨after, result⟩, hwrite, rfl⟩ := map_eq_some_iff.mp hstep
    have hrotated : s.rotates = true →
        (s.rotate faults).1.InStep (s.on_record recorded (.write options type key value faults)) := by
      intro hrotates
      have hin := h.rotate faults
      rw [on_record, hrotates]
      cases hopen : faults.open_log <;> simpa [hopen] using hin
    have hkept : s.rotates = false → s.on_record recorded (.write options type key value faults) = recorded := by
      intro hrotates
      rw [on_record, hrotates]
      rfl
    rcases write_cases hwrite with ⟨hrotates, rfl, -⟩ | ⟨hrotates, hadd⟩ | ⟨hrotates, ⟨hrotate, -⟩ | ⟨-, hadd⟩⟩
    · rw [hkept hrotates]
      exact h
    · rw [hkept hrotates]
      exact congrArg Prod.fst hadd ▸ h.add_record options type key value
    · exact congrArg Prod.fst hrotate ▸ hrotated hrotates
    · exact congrArg Prod.fst hadd ▸ (hrotated hrotates).add_record options type key value

theorem InStep.run (h : s.InStep recorded) {events : List Event} (hrun : s.run events = some s') :
    s'.InStep (s.run_on_record recorded events) := by
  induction events generalizing s recorded with
  | nil =>
    cases hrun
    exact h
  | cons event events ih =>
    obtain ⟨mid, hstep, hrest⟩ := bind_eq_some_iff.mp hrun
    rw [run_on_record, hstep]
    exact ih (h.step hstep) hrest

theorem run_append {events : List Event} {mid : FaultySession} {event : Event} (hrun : s.run events = some mid)
    (hstep : mid.step event = some s') : s.run (events ++ [event]) = some s' := by
  induction events generalizing s with
  | nil =>
    cases hrun
    rw [nil_append, run, hstep]
    rfl
  | cons first events ih =>
    obtain ⟨next, hfirst, hrest⟩ := bind_eq_some_iff.mp hrun
    rw [cons_append, run, hfirst]
    exact ih hrest

theorem fresh_inStep {options : Options} {dbname : String} (hfresh : fresh options dbname = some s) : s.InStep true := by
  obtain ⟨session, hsession, rfl⟩ := map_eq_some_iff.mp hfresh
  rw [Session.fresh_eq hsession]
  exact ⟨rfl, ⟨2, rfl, (by decide : 2 < 4), fun _ => ⟨fun _ => rfl, fun _ => rfl⟩⟩, trivial⟩

/-- Rotation moves the records of the old writer to its file and adds none. -/
theorem log_rotate (s : FaultySession) (faults : Faults) (n : Nat) : (s.rotate faults).1.log n = s.log n := by
  have hopened : ∀ d : Disk, ∀ m, (((d.apply (.open_log m)).logs n).getD {}).records = ((d.logs n).getD {}).records := by
    intro d m
    by_cases hm : n = m <;> simp [Disk.apply, update, hm]
  have hrecords : (((s.rotate faults).1.disk.logs n).getD {}).records =
      (((s.disk.apply_all s.db.wal.flush).logs n).getD {}).records := by
    unfold FaultySession.rotate
    cases faults.open_log
    · cases faults.append_manifest <;> exact hopened _ _
    · rfl
  have hpending : (s.rotate faults).1.db.wal.pending = [] := by
    unfold FaultySession.rotate
    cases faults.open_log
    · cases faults.append_manifest <;> rfl
    · rfl
  rw [log, hrecords, hpending, ite_self, append_nil, log]
  unfold WalWriter.flush
  by_cases hnil : s.db.wal.pending = []
  · simp [hnil]
  · by_cases hn : s.db.wal.number = n
    · simp [hnil, hn, Disk.apply]
    · simp [hnil, hn, Disk.apply, update, Ne.symm hn]

/-- A record that is added goes to the log of the writer. -/
theorem log_add_record {options : WriteOptions} {type : ValueType} {key value : Bytes}
    (h : s.add_record options type key value = (s', .ok ())) (n : Nat) :
    s'.wal_open = true ∧ s'.db.wal.number = s.db.wal.number ∧
      s'.log n = s.log n ++ if s.db.wal.number = n then [⟨s'.db.versions.last_sequence, [(type, key, value)]⟩] else [] := by
  unfold FaultySession.add_record at h
  by_cases hopen : s.wal_open
  · rw [if_pos hopen] at h
    cases h
    refine ⟨hopen, ?_, ?_⟩
    · cases options.sync <;> rfl
    · unfold log
      cases options.sync
      · by_cases hn : s.db.wal.number = n <;> simp [hn]
      · by_cases hn : s.db.wal.number = n
        · simp [WalWriter.flush, Disk.apply, hn]
        · simp [WalWriter.flush, Disk.apply, update, hn, Ne.symm hn]
  · rw [if_neg hopen] at h
    cases h

/-- A write that returns OK has its record in the log that the manifest names if and only
    if the last rotation that opened its log got into the manifest. Any steps before it
    may have failed to open a log or to append to the manifest; appends to the log do not
    fail. -/
theorem write_in_recorded_log_iff {options : Options} {dbname : String} {start : FaultySession}
    (hfresh : fresh options dbname = some start) {events : List Event} (hrun : start.run events = some s)
    {write_options : WriteOptions} {type : ValueType} {key value : Bytes} {faults : Faults}
    (hwrite : s.write write_options type key value faults = some (s', .ok ())) :
    (∃ n, s'.disk.recordedLog = some n ∧
        s'.log n = s.log n ++ [⟨s'.db.versions.last_sequence, [(type, key, value)]⟩]) ↔
      start.run_on_record true (events ++ [.write write_options type key value faults]) = true := by
  have hstep : s.step (.write write_options type key value faults) = some s' := by rw [step, hwrite, map_some]
  have hin : s'.InStep (start.run_on_record true (events ++ [.write write_options type key value faults])) :=
    (fresh_inStep hfresh).run (run_append hrun hstep)
  obtain ⟨n, hn, -, hlog⟩ := hin.log
  -- the record went to the log of the writer, after a rotation or not
  obtain ⟨mid, hmid, hadd⟩ : ∃ mid : FaultySession, (∀ m, mid.log m = s.log m) ∧
      mid.add_record write_options type key value = (s', .ok ()) := by
    rcases write_cases hwrite with ⟨-, -, e, he⟩ | ⟨-, hadd⟩ | ⟨-, ⟨-, e, he⟩ | ⟨-, hadd⟩⟩
    · cases he
    · exact ⟨s, fun _ => rfl, hadd⟩
    · cases he
    · exact ⟨_, s.log_rotate faults, hadd⟩
  obtain ⟨hopen, hnumber, hrecord⟩ := log_add_record hadd n
  rw [← hlog hopen, hnumber]
  rw [hmid] at hrecord
  constructor
  · rintro ⟨m, hm, happended⟩
    cases hn.symm.trans hm
    by_contra hne
    rw [if_neg hne, append_nil, happended] at hrecord
    exact absurd hrecord (by simp)
  · intro heq
    rw [if_pos heq] at hrecord
    exact ⟨n, hn, hrecord⟩

/-- A database whose memtable is full after one write. -/
def small_buffer : Options := { create_if_missing := true, write_buffer_size := 1 }

/-- The second write rotates and the third one follows in the new log. -/
theorem write_in_recorded_log_after_rotation :
    ∃ start s s', fresh small_buffer "db" = some start ∧
      start.run [.write {} .kTypeValue [1] [7] {}, .write {} .kTypeValue [2] [8] {}, .bg {}, .bg {}, .bg {}, .bg {}, .bg {},
        .bg {}, .bg {}] = some s ∧
      s.write {} .kTypeValue [3] [9] {} = some (s', .ok ()) ∧
      ∃ n, s'.disk.recordedLog = some n ∧
        s'.log n = s.log n ++ [⟨s'.db.versions.last_sequence, [(.kTypeValue, [3], [9])]⟩] := by
  obtain ⟨start, hfresh, hstart⟩ : ∃ start, fresh small_buffer "db" = some start ∧
      ((start.run [.write {} .kTypeValue [1] [7] {}, .write {} .kTypeValue [2] [8] {}, .bg {}, .bg {}, .bg {}, .bg {},
        .bg {}, .bg {}, .bg {}]).bind fun s => (s.write {} .kTypeValue [3] [9] {}).map fun after => after.2.toBool) =
          some true ∧
      start.run_on_record true ([.write {} .kTypeValue [1] [7] {}, .write {} .kTypeValue [2] [8] {}, .bg {}, .bg {}, .bg {},
        .bg {}, .bg {}, .bg {}, .bg {}] ++ [.write {} .kTypeValue [3] [9] {}]) = true := by
    refine ⟨_, rfl, ?_, ?_⟩ <;> decide
  obtain ⟨hrun, hrecord⟩ := hstart
  obtain ⟨s, hs, hwrite⟩ := bind_eq_some_iff.mp hrun
  obtain ⟨⟨s', result⟩, hs', hresult⟩ := map_eq_some_iff.mp hwrite
  cases result with
  | error e => cases hresult
  | ok _ => exact ⟨start, s, s', hfresh, hs, hs', (write_in_recorded_log_iff hfresh hs hs').mpr hrecord⟩

/-- A rotation that cannot append to the manifest fails; the next write returns OK and
    goes to a log that the manifest does not name. -/
theorem write_in_unrecorded_log :
    ∃ start s s', fresh small_buffer "db" = some start ∧
      start.run [.write {} .kTypeValue [1] [7] {}, .write {} .kTypeValue [2] [8] { append_manifest := true }] = some s ∧
      s.write {} .kTypeValue [2] [8] {} = some (s', .ok ()) ∧
      s'.disk.recordedLog = some 2 ∧ s'.db.wal.number = 4 ∧ s'.log 2 = s.log 2 ∧
      s'.log 4 = [⟨s'.db.versions.last_sequence, [(.kTypeValue, [2], [8])]⟩] := by
  refine ⟨_, _, _, rfl, rfl, rfl, ?_, ?_, ?_, ?_⟩ <;> decide

end FaultySession

end lsmkv
