import LsmKv.Db.Close
import LsmKv.Db.Encoded

namespace lsmkv

open Option history DBImpl

namespace Session

/-- Destroying the database, once the background thread rests. -/
def close (s : Session) : Option (Disk × List (Update Bytes Bytes)) :=
  match s.db.bg with
  | .idle => some (s.disk.apply_all s.db.close, s.acked)
  | _ => none

/-- One session on a directory: `Open`, the steps, and a clean destruction. -/
def run_session (dbname : String) (input : Options × List Label)
    (dir : Disk × List (Update Bytes Bytes)) : Option (Disk × List (Update Bytes Bytes)) := do
  let s₀ ← start input.1 dbname dir.1 dir.2
  let s ← s₀.run input.2
  s.close

def run_sessions (dbname : String) :
    List (Options × List Label) → Disk × List (Update Bytes Bytes) →
      Option (Disk × List (Update Bytes Bytes))
  | [], dir => some dir
  | input :: inputs, dir => (run_session dbname input dir).bind (run_sessions dbname inputs)

/-- The file operations of one session, from its `Open` to its destruction. -/
def sessionOps (dbname : String) (input : Options × List Label) (dir : Disk × List (Update Bytes Bytes)) :
    List FileOp :=
  (open_db input.1 dbname dir.1).1 ++ ((start input.1 dbname dir.1 dir.2).map fun s₀ =>
    s₀.runOps input.2 ++ ((s₀.run input.2).map fun s => s.db.close).getD []).getD []

/-- The file operations of sessions, each with the options of its session. -/
def sessionsOps (dbname : String) :
    List (Options × List Label) → Disk × List (Update Bytes Bytes) → List (Options × FileOp)
  | [], _ => []
  | input :: inputs, dir => (sessionOps dbname input dir).map (Prod.mk input.1) ++
      ((run_session dbname input dir).map (sessionsOps dbname inputs)).getD []

/-- `Open` draws a log number under which no log holds anything. -/
def OpensFreshLog (dbname : String) (d : Disk) : Prop :=
  match VersionSet.recover d dbname with
  | .ok vs => LogFresh d vs.next_file_number
  | .error _ => True

/-- A step that draws a log number draws one under which no log holds anything, and
    a step that draws a table number draws that of no live table. -/
def DrawsFresh (s : Session) : Label → Prop
  | .bg => s.db.DrawsFreshTable
  | _ => s.db.options.write_buffer_size ≤ s.db.mem.memory_usage →
      LogFresh s.disk s.db.versions.next_file_number

def RunDrawsFresh (s : Session) : List Label → Prop
  | [] => True
  | label :: labels => s.DrawsFresh label ∧ ∀ s' ∈ s.step label, s'.RunDrawsFresh labels

/-- The session's numbers are fresh, and it leaves no write in its memtable that only
    its own `Open` put there: `Open` replayed none, or the memtable was rotated since. -/
def KeepsReplay (dbname : String) (input : Options × List Label)
    (dir : Disk × List (Update Bytes Bytes)) : Prop :=
  OpensFreshLog dbname dir.1 ∧ ∀ s₀ ∈ start input.1 dbname dir.1 dir.2,
    s₀.RunDrawsFresh input.2 ∧ ∀ s ∈ s₀.run input.2,
      (s.db.imm.isSome → s.db.versions.next_file_number ∉ s.db.versions.current.live) ∧
        (s₀.db.mem.table = [] ∨ s.db.logfile_number ≠ s₀.db.logfile_number)

def SessionsKeepReplay (dbname : String) :
    List (Options × List Label) → Disk × List (Update Bytes Bytes) → Prop
  | [], _ => True
  | input :: inputs, dir => KeepsReplay dbname input dir ∧
      ∀ dir' ∈ run_session dbname input dir, SessionsKeepReplay dbname inputs dir'

section Decidable

instance (dbname : String) (d : Disk) : Decidable (OpensFreshLog dbname d) :=
  match h : VersionSet.recover d dbname with
  | .ok vs => decidable_of_iff (LogFresh d vs.next_file_number) (by rw [OpensFreshLog, h])
  | .error _ => isTrue (by rw [OpensFreshLog, h]; trivial)

instance (s : Session) : ∀ label, Decidable (s.DrawsFresh label)
  | .bg => inferInstanceAs (Decidable s.db.DrawsFreshTable)
  | .put .. | .delete .. => inferInstanceAs (Decidable (_ → _))

instance decidableRunDrawsFresh : ∀ (labels : List Label) (s : Session), Decidable (s.RunDrawsFresh labels)
  | [], _ => isTrue trivial
  | label :: labels, s =>
    have := decidableRunDrawsFresh labels
    inferInstanceAs (Decidable (_ ∧ ∀ s' ∈ s.step label, _))

instance (dbname : String) (input : Options × List Label) (dir : Disk × List (Update Bytes Bytes)) :
    Decidable (KeepsReplay dbname input dir) :=
  inferInstanceAs (Decidable (_ ∧ ∀ s₀ ∈ start input.1 dbname dir.1 dir.2, _ ∧ ∀ s ∈ s₀.run input.2, _))

instance decidableSessionsKeepReplay (dbname : String) :
    ∀ inputs dir, Decidable (SessionsKeepReplay dbname inputs dir)
  | [], _ => isTrue trivial
  | input :: inputs, dir =>
    have := decidableSessionsKeepReplay dbname inputs
    inferInstanceAs (Decidable (_ ∧ ∀ dir' ∈ run_session dbname input dir, _))

end Decidable

/-- A directory from which the next `Open` recovers exactly the acknowledged updates. -/
def Kept (d : Disk) (acked : List (Update Bytes Bytes)) : Prop :=
  ∃ n edits older pieces logged, Recoverable d n edits older pieces logged ∧
    updates (older ++ pieces.flatten ++ logged) = acked ∧
    (replayManifest n edits).last_sequence ≤ acked.length ∧
    ∀ w ∈ older ++ pieces.flatten ++ logged, w.seq ≤ acked.length

/-- A running session whose directory is in line. `replayed` are the writes of the
    memtable that no file has any more. -/
structure Running (s : Session) (l : Layout) (replayed logged : List Write) : Prop where
  holds : s.Holds l
  durable : s.db.Durable s.disk l replayed logged
  last_sequence : s.db.versions.last_sequence ≤ s.acked.length

variable {s s' : Session} {l : Layout} {replayed logged : List Write}

/-- One step of a running session. A rotation leaves nothing replayed behind. -/
theorem Running.step (h : s.Running l replayed logged) {label : Label} (hfresh : s.DrawsFresh label)
    (hstep : s.step label = some s') (hlen : s.acked.length < 2 ^ 56) :
    ∃ l' replayed' logged', s'.Running l' replayed' logged' ∧
      ((replayed' = replayed ∧ s'.db.logfile_number = s.db.logfile_number) ∨
        (replayed' = [] ∧ s.db.logfile_number < s'.db.logfile_number)) := by
  obtain ⟨⟨hdb, hacked⟩, hdurable, hlast⟩ := h
  by_cases hlabel : label = .bg
  · subst hlabel
    rw [step_bg, Option.some.injEq] at hstep
    subst hstep
    obtain ⟨hholds, hhistory⟩ := hdb.bg_step hfresh (hlast.trans_lt hlen)
    refine ⟨s.db.bg_layout l, replayed, logged, ⟨⟨hholds, by rw [hhistory, hacked]⟩, hdurable.bg_step hdb.bg, ?_⟩,
      .inl ⟨rfl, ?_⟩⟩
    · show (s.db.bg_step s.disk).1.versions.last_sequence ≤ s.acked.length
      rw [hdb.bg.last_sequence_bg_step]
      exact hlast
    · exact bg_step_frame.2.1
  · have hroom : s.db.options.write_buffer_size ≤ s.db.mem.memory_usage →
        LogFresh s.disk s.db.versions.next_file_number := by
      cases label with
      | bg => exact absurd rfl hlabel
      | put | delete => exact hfresh
    obtain ⟨options, w, ⟨⟨db', result⟩, ops⟩, hwrite, rfl, hseq⟩ := step_write_cases hlabel hstep
    obtain ⟨rfl, hcases⟩ := write_cases hwrite hdb.no_error
    have hw : w = ⟨s.db.versions.last_sequence + 1, w.type, w.key, w.value⟩ := by rw [← hseq]
    have hacked' : (s.wrote ⟨w.key, w.result⟩ ((db', .ok ()), ops)).acked = s.acked ++ [⟨w.key, w.result⟩] := rfl
    have hlength : (s.wrote ⟨w.key, w.result⟩ ((db', .ok ()), ops)).acked.length = s.acked.length + 1 := by
      rw [hacked', List.length_append, List.length_singleton]
    rcases hcases with ⟨-, rfl, rfl⟩ | ⟨hfull, himm, rfl, rfl⟩
    · obtain ⟨hholds, hhistory⟩ := hdb.add_record options w.type w.key w.value
      have hdurable' := hdurable.add_record options w.type w.key w.value
      rw [← hw] at hholds hhistory hdurable'
      refine ⟨l.add w, replayed, logged ++ [w], ⟨⟨hholds, ?_⟩, hdurable', ?_⟩, .inl ⟨rfl, rfl⟩⟩
      · refine (congrArg updates hhistory).trans ?_
        rw [updates_append, hacked]
        rfl
      · rw [hlength]
        exact Nat.succ_le_succ hlast
    · obtain ⟨hrotate, hhistory⟩ := hdb.rotate himm
      obtain ⟨hholds, hhistory'⟩ := hrotate.add_record options w.type w.key w.value
      have hdurable' := (hdurable.rotate (hroom hfull)).add_record options w.type w.key w.value
      rw [rotate_last_sequence, ← hw] at hholds hhistory' hdurable'
      rw [← Disk.apply_all_append] at hholds hdurable'
      refine ⟨l.rotate.add w, [], [] ++ [w], ⟨⟨hholds, ?_⟩, hdurable', ?_⟩, .inr ⟨rfl, ?_⟩⟩
      · refine (congrArg updates hhistory').trans ?_
        rw [hhistory, updates_append, hacked]
        rfl
      · rw [hlength]
        show s.db.rotate.1.versions.last_sequence + 1 ≤ _
        rw [rotate_last_sequence]
        exact Nat.succ_le_succ hlast
      · show s.db.logfile_number < s.db.versions.next_file_number
        rw [hdurable.logfile_number]
        exact hdurable.log_lt

theorem acked_length_le_step {label : Label} (hstep : s.step label = some s') :
    s.acked.length ≤ s'.acked.length := by
  by_cases hlabel : label = .bg
  · subst hlabel
    rw [step_bg, Option.some.injEq] at hstep
    subst hstep
    exact le_rfl
  · obtain ⟨options, w, ⟨⟨db', result⟩, ops⟩, -, rfl, -⟩ := step_write_cases hlabel hstep
    cases result <;> simp [wrote]

theorem acked_length_le_run {labels : List Label} (hrun : s.run labels = some s') :
    s.acked.length ≤ s'.acked.length :=
  run_keeps (I := fun t => s.acked.length ≤ t.acked.length) le_rfl hrun
    fun _ _ _ _ _ h hstep _ => h.trans (acked_length_le_step hstep)

/-- A whole run: what `Open` replayed is still in the memtable only as long as the
    log is the one that `Open` began. -/
theorem Running.run (h : s.Running l replayed logged) {labels : List Label} (hfresh : s.RunDrawsFresh labels)
    (hrun : s.run labels = some s') (hlen : s'.acked.length < 2 ^ 56) :
    ∃ l' replayed' logged', s'.Running l' replayed' logged' ∧
      ((replayed' = replayed ∧ s'.db.logfile_number = s.db.logfile_number) ∨
        (replayed' = [] ∧ s.db.logfile_number < s'.db.logfile_number)) := by
  induction labels generalizing s l replayed logged with
  | nil =>
    cases hrun
    exact ⟨l, replayed, logged, h, .inl ⟨rfl, rfl⟩⟩
  | cons label labels ih =>
    obtain ⟨mid, hstep, hrest⟩ := run_cons hrun
    have hlenMid := (acked_length_le_run hrest).trans_lt hlen
    obtain ⟨l₁, replayed₁, logged₁, h₁, hcases₁⟩ :=
      h.step hfresh.1 hstep ((acked_length_le_step hstep).trans_lt hlenMid)
    obtain ⟨l₂, replayed₂, logged₂, h₂, hcases₂⟩ := ih h₁ (hfresh.2 mid hstep) hrest
    refine ⟨l₂, replayed₂, logged₂, h₂, ?_⟩
    rcases hcases₁ with ⟨rfl, hlog₁⟩ | ⟨rfl, hlog₁⟩ <;> rcases hcases₂ with ⟨rfl, hlog₂⟩ | ⟨rfl, hlog₂⟩
    · exact .inl ⟨rfl, hlog₂.trans hlog₁⟩
    · exact .inr ⟨rfl, hlog₁ ▸ hlog₂⟩
    · exact .inr ⟨rfl, hlog₂ ▸ hlog₁⟩
    · exact .inr ⟨rfl, hlog₁.trans hlog₂⟩

section Open

variable {options : Options} {dbname : String} {d : Disk} {acked : List (Update Bytes Bytes)}

theorem start_eq (hstart : start options dbname d acked = some s) :
    s.disk = d.apply_all (open_db options dbname d).1 ∧ s.acked = acked := by
  unfold start at hstart
  split at hstart
  · cases hstart
  next hopen =>
    cases hstart
    rw [hopen]
    exact ⟨rfl, rfl⟩

theorem freshSession_running (options : Options) (dbname : String) :
    (freshSession options dbname).Running ⟨[], [], [], []⟩ [] [] := by
  refine ⟨(freshSession_holds options dbname).1, ?_, Nat.le_refl 0⟩
  refine ⟨rfl, ⟨_, rfl, ?_⟩, rfl, rfl, Nat.succ_pos 1, ?_, ⟨{}, rfl, rfl, rfl⟩, rfl⟩
  · exact ⟨rfl, List.Perm.refl _, rfl, Nat.succ_pos 2, Nat.le_refl 0, by simp [Layout.tables]⟩
  · show 2 < 4
    decide

theorem OpensFreshLog.logFresh (hfresh : OpensFreshLog dbname d) {n : Nat} {edits : List VersionEdit}
    {older : List Write} {pieces : List (List Write)} (hrec : Recoverable d n edits older pieces logged) :
    LogFresh d (replayManifest n edits).next_file_number := by
  unfold OpensFreshLog at hfresh
  rw [VersionSet.recover, hrec.current] at hfresh
  simp only [hrec.manifest] at hfresh
  exact hfresh

/-- Opening a kept directory yields a running session. What its log held is replayed
    into the memtable, and an empty memtable means that it held nothing. -/
theorem Kept.start (hkept : Kept d acked) (hfresh : OpensFreshLog dbname d)
    (hstart : start options dbname d acked = some s) :
    ∃ l replayed, s.Running l replayed [] ∧ s.acked = acked ∧ (s.db.mem.table = [] → replayed = []) := by
  obtain ⟨n, edits, older, pieces, logged, hrec, hupdates, hlast, hbound⟩ := hkept
  have hoptions : options.error_if_exists = false := by
    by_contra herror
    rw [Bool.not_eq_false] at herror
    simp [Session.start, open_db, hrec.current, herror] at hstart
  have hlog := hfresh.logFresh hrec
  obtain ⟨records, hrecords, hopen⟩ := hrec.open_db_eq hoptions dbname hlog
  unfold Session.start at hstart
  rw [hopen] at hstart
  cases hstart
  have hholds := hrec.opened_holds options dbname hrecords
  have hdurable := hrec.opened_durable options dbname hrecords hlog
  obtain ⟨-, hreplayed⟩ := replay_records_spec records MemTable.empty_represents
    (replayManifest n edits).last_sequence
  refine ⟨⟨older, pieces, [], logged⟩, logged, ⟨⟨hholds, ?_⟩, hdurable, ?_⟩, rfl, ?_⟩
  · rw [← hupdates]
    simp [DBImpl.history, DBImpl.flushed, Layout.tables, Recoverable.openedDb]
  · show (records.foldl replay_record (.empty, (replayManifest n edits).last_sequence)).2 ≤ acked.length
    rw [hreplayed, hrecords]
    exact (foldl_max_seq logged _).2.2 _ hlast fun w hw => hbound w (List.mem_append_right _ hw)
  · intro hempty
    exact (hempty ▸ hholds.mem).eq_nil

end Open

theorem close_eq {dir : Disk × List (Update Bytes Bytes)} (hclose : s.close = some dir) :
    s.db.bg = .idle ∧ dir = (s.disk.apply_all s.db.close, s.acked) := by
  unfold Session.close at hclose
  cases hcase : s.db.bg <;> simp only [hcase, Option.some.injEq, reduceCtorEq] at hclose
  exact ⟨rfl, hclose.symm⟩

/-- A clean close leaves a directory that the next `Open` recovers everything from,
    if nothing replayed is left in the memtable. -/
theorem Running.close (h : s.Running l [] logged) (hlen : s.acked.length < 2 ^ 56)
    (hfresh : s.db.imm.isSome → s.db.versions.next_file_number ∉ s.db.versions.current.live)
    {dir : Disk × List (Update Bytes Bytes)} (hclose : s.close = some dir) :
    Kept dir.1 dir.2 ∧ dir.2 = s.acked := by
  obtain ⟨⟨hdb, hacked⟩, hdurable, hlast⟩ := h
  obtain ⟨hidle, rfl⟩ := close_eq hclose
  refine ⟨?_, rfl⟩
  -- once nothing immutable is left, flushing the log completes the directory
  have hfinish : ∀ (db : DBImpl) (d : Disk) (l' : Layout), db.Holds d l' → db.Durable d l' [] logged →
      db.imm = none → db.history l' = s.db.history l → db.versions.last_sequence = s.db.versions.last_sequence →
      Kept (d.apply_all db.wal.flush) s.acked := by
    intro db d l' hholds hdur himm hhistory hsame
    obtain ⟨edits, hrec, hmatch⟩ := hdur.recoverable hholds
    have heq := hdur.history_of_imm_none hholds himm
    refine ⟨_, edits, _, _, _, hrec, ?_, (hsame ▸ hmatch.last_sequence).trans hlast, ?_⟩
    · rw [← heq, hhistory, hacked]
    · rw [← heq]
      exact fun w hw => (hholds.bound w hw).trans (hsame ▸ hlast)
  cases himm : s.db.imm with
  | none =>
    have hclose' : s.db.close = s.db.wal.flush := by simp [DBImpl.close, himm]
    rw [hclose']
    exact hfinish s.db s.disk l hdb hdurable himm rfl rfl
  | some imm =>
    have hnotflushed : s.db.flushed = false := by rw [DBImpl.flushed, hidle]
    set db₀ : DBImpl := { s.db with bg := .flush_start } with hdb₀
    have hholds₀ : db₀.Holds s.disk l := hdb.set_bg rfl rfl rfl rfl rfl hnotflushed.symm trivial
    have hdurable₀ : db₀.Durable s.disk l [] logged :=
      hdurable.congr rfl rfl rfl rfl rfl rfl le_rfl le_rfl rfl rfl rfl rfl
    obtain ⟨l', hholds, hhistory, hdur, hsame⟩ := hholds₀.run_flush hdurable₀
      (fun _ => hfresh (by simp [himm])) (by simp [hdb₀]) (hlast.trans_lt hlen) 5
    have hclose' : s.db.close = (run_flush 5 db₀).2 ++ (run_flush 5 db₀).1.wal.flush := by
      simp [DBImpl.close, himm, hdb₀]
    rw [hclose', Disk.apply_all_append]
    exact hfinish _ _ l' hholds hdur (run_flush_imm rfl)
      (hhistory.trans (history_eq_of_flushed hnotflushed.symm)) hsame

section Sessions

variable {dbname : String}

/-- A directory before some session: empty, or left by sessions that kept everything. -/
def KeptDir (dir : Disk × List (Update Bytes Bytes)) : Prop :=
  dir = ({}, []) ∨ Kept dir.1 dir.2

variable {dir : Disk × List (Update Bytes Bytes)} {input : Options × List Label}
  {dir' : Disk × List (Update Bytes Bytes)} {inputs : List (Options × List Label)}

/-- Opening a directory that kept everything, the first time or again. -/
theorem KeptDir.start (hkept : KeptDir dir) (hfresh : OpensFreshLog dbname dir.1) {options : Options}
    (hstart : start options dbname dir.1 dir.2 = some s) :
    ∃ l replayed, s.Running l replayed [] ∧ s.acked = dir.2 ∧ (s.db.mem.table = [] → replayed = []) := by
  rcases hkept with rfl | hkept
  · rw [fresh_eq hstart]
    exact ⟨_, _, freshSession_running options dbname, rfl, fun _ => rfl⟩
  · exact hkept.start hfresh hstart

/-- A session that keeps what its `Open` replayed passes everything on. -/
theorem KeptDir.run_session (hkept : KeptDir dir) (hkeep : KeepsReplay dbname input dir)
    (hrun : run_session dbname input dir = some dir') (hlen : dir'.2.length < 2 ^ 56) : KeptDir dir' := by
  obtain ⟨s₀, hstart, hrun⟩ := bind_eq_some_iff.mp hrun
  obtain ⟨s, hsteps, hclose⟩ := bind_eq_some_iff.mp hrun
  obtain ⟨hfresh, hkeep⟩ := hkeep
  obtain ⟨hdraws, hkeep⟩ := hkeep s₀ hstart
  obtain ⟨hflush, hreplay⟩ := hkeep s hsteps
  have hacked : dir'.2 = s.acked := by rw [(close_eq hclose).2]
  obtain ⟨l₀, replayed₀, hrunning₀, -, hempty⟩ := hkept.start hfresh hstart
  obtain ⟨l, replayed, logged, hrunning, hcases⟩ := hrunning₀.run hdraws hsteps (hacked ▸ hlen)
  have hnone : replayed = [] := by
    rcases hcases with ⟨rfl, hsame⟩ | ⟨rfl, -⟩
    · exact hreplay.elim hempty fun hne => absurd hsame hne
    · rfl
  subst hnone
  exact .inr (hrunning.close (hacked ▸ hlen) hflush hclose).1

theorem acked_length_le_run_session (hrun : run_session dbname input dir = some dir') :
    dir.2.length ≤ dir'.2.length := by
  obtain ⟨s₀, hstart, hrun⟩ := bind_eq_some_iff.mp hrun
  obtain ⟨s, hsteps, hclose⟩ := bind_eq_some_iff.mp hrun
  rw [(close_eq hclose).2, ← (start_eq hstart).2]
  exact acked_length_le_run hsteps

theorem acked_length_le_run_sessions (hrun : run_sessions dbname inputs dir = some dir') :
    dir.2.length ≤ dir'.2.length := by
  induction inputs generalizing dir with
  | nil =>
    cases hrun
    exact le_rfl
  | cons input inputs ih =>
    obtain ⟨mid, hsession, hrest⟩ := bind_eq_some_iff.mp hrun
    exact (acked_length_le_run_session hsession).trans (ih hrest)

theorem KeptDir.run_sessions (hkept : KeptDir dir)
    (hkeep : SessionsKeepReplay dbname inputs dir) (hrun : run_sessions dbname inputs dir = some dir')
    (hlen : dir'.2.length < 2 ^ 56) : KeptDir dir' := by
  induction inputs generalizing dir with
  | nil =>
    cases hrun
    exact hkept
  | cons input inputs ih =>
    obtain ⟨mid, hsession, hrest⟩ := bind_eq_some_iff.mp hrun
    obtain ⟨hfirst, hothers⟩ := hkeep
    have hmid := hkept.run_session hfirst hsession ((acked_length_le_run_sessions hrest).trans_lt hlen)
    exact ih hmid (hothers mid hsession) hrest

theorem fits_run_session (hdisk : dir.1.Fits) (hops : ∀ op ∈ sessionOps dbname input dir, op.Fits input.1)
    (hrun : run_session dbname input dir = some dir') : dir'.1.Fits := by
  obtain ⟨s₀, hstart, hrun⟩ := bind_eq_some_iff.mp hrun
  obtain ⟨s, hsteps, hclose⟩ := bind_eq_some_iff.mp hrun
  rw [sessionOps, hstart, map_some, getD_some, hsteps, map_some, getD_some, List.forall_mem_append,
    List.forall_mem_append] at hops
  rw [(close_eq hclose).2]
  exact (fits_run (by rw [(start_eq hstart).1]; exact hdisk.apply_all hops.1) hops.2.1 hsteps).apply_all hops.2.2

theorem fits_run_sessions (hdisk : dir.1.Fits) (hops : ∀ x ∈ sessionsOps dbname inputs dir, x.2.Fits x.1)
    (hrun : run_sessions dbname inputs dir = some dir') : dir'.1.Fits := by
  induction inputs generalizing dir with
  | nil =>
    cases hrun
    exact hdisk
  | cons input inputs ih =>
    obtain ⟨mid, hsession, hrest⟩ := bind_eq_some_iff.mp hrun
    rw [sessionsOps, hsession, map_some, getD_some, List.forall_mem_append, List.forall_mem_map] at hops
    exact ih (fits_run_session hdisk hops.1 hsession) hops.2 hrest

/-- After any number of sessions, each of which drew fresh numbers and left nothing in
    its memtable that only its `Open` put there, the next `Open` succeeds and `Get`
    returns the last acknowledged write over all sessions. All that the sessions wrote is
    assumed to fit its length fields; then the files, as bytes, are read back as what the
    directory says, and the memtable that `Open` fills is stored. -/
theorem sessions_get_eq_last_write {inputs : List (Options × List Label)} {d : Disk}
    {acked : List (Update Bytes Bytes)} (hrun : run_sessions dbname inputs ({}, []) = some (d, acked))
    (hkeep : SessionsKeepReplay dbname inputs ({}, [])) (hfresh : OpensFreshLog dbname d)
    (hlen : acked.length < 2 ^ 56) (hfits : ∀ x ∈ sessionsOps dbname inputs ({}, []), x.2.Fits x.1)
    (options : Options) :
    d.Readable ∧
      (options.create_if_missing = true → options.error_if_exists = false →
        (start options dbname d acked).isSome) ∧
      ∀ s, start options dbname d acked = some s →
        s.db.Stored ∧ ∀ k, s.db.get s.disk k = readStatus (read acked k) := by
  have hkept : KeptDir (d, acked) := KeptDir.run_sessions (.inl rfl) hkeep hrun hlen
  have hdisk : d.Fits := fits_run_sessions .empty hfits hrun
  refine ⟨hdisk.readable, ?_, ?_⟩
  · intro hcreate hexists
    rcases hkept with heq | ⟨n, edits, older, pieces, logged, hrec, -⟩
    · obtain ⟨rfl, rfl⟩ := Prod.mk.inj heq
      simp [Session.start, open_db, hcreate]
    · obtain ⟨records, -, hopen⟩ := hrec.open_db_eq hexists dbname (hfresh.logFresh hrec)
      rw [Session.start, hopen]
      rfl
  · intro s hstart
    refine ⟨start_stored hdisk hstart, fun k => ?_⟩
    obtain ⟨l, replayed, ⟨⟨hdb, hacked⟩, -, hlast⟩, hsame, -⟩ := hkept.start hfresh hstart
    rw [hdb.get_eq (hlast.trans_lt (hsame ▸ hlen)) k, hacked, hsame]

/-- A second session that replays a write and rotates its memtable passes it on to
    the third `Open`. -/
theorem sessions_get_after_rotation :
    ∃ d acked s, run_sessions "db"
        [({ create_if_missing := true, write_buffer_size := 1 }, [.put {} [97] [49]]),
          ({ write_buffer_size := 1 }, [.put {} [98] [50]])] ({}, []) = some (d, acked) ∧
      start {} "db" d acked = some s ∧ acked = [⟨[97], some [49]⟩, ⟨[98], some [50]⟩] ∧
      ∀ k, s.db.get s.disk k = readStatus (read acked k) := by
  have hfacts : (run_sessions "db"
        [({ create_if_missing := true, write_buffer_size := 1 }, [.put {} [97] [49]]),
          ({ write_buffer_size := 1 }, [.put {} [98] [50]])] ({}, [])).map
        (fun dir => (dir.2, decide (OpensFreshLog "db" dir.1), (start {} "db" dir.1 dir.2).isSome)) =
      some ([⟨[97], some [49]⟩, ⟨[98], some [50]⟩], true, true) := by decide
  obtain ⟨⟨d, acked⟩, hrun, hdir⟩ := map_eq_some_iff.mp hfacts
  simp only [Prod.mk.injEq, decide_eq_true_eq] at hdir
  obtain ⟨hacked, hfresh, hopens⟩ := hdir
  obtain ⟨s, hstart⟩ := isSome_iff_exists.mp hopens
  refine ⟨d, acked, s, hrun, hstart, hacked, ?_⟩
  obtain ⟨-, -, hget⟩ := sessions_get_eq_last_write hrun (by decide) hfresh (by rw [hacked]; decide) (by decide +kernel) {}
  exact (hget s hstart).2

/-- A session that replays a write and does not rotate drops it: its `Open` switches
    the manifest to a new log that the write never reaches. -/
theorem reopened_twice_loses_write :
    ∃ d acked s, run_sessions "db" [({ create_if_missing := true }, [.put {} [97] [49]]), ({}, [])]
        ({}, []) = some (d, acked) ∧
      start {} "db" d acked = some s ∧ read acked [97] = some [49] ∧
      s.db.get s.disk [97] = .error (.NotFound "") := by
  have hfacts : (run_sessions "db" [({ create_if_missing := true }, [.put {} [97] [49]]), ({}, [])]
      ({}, [])).bind (fun dir => (start {} "db" dir.1 dir.2).map fun s =>
        (read dir.2 [97], s.db.get s.disk [97])) = some (some [49], .error (.NotFound "")) := by rfl
  obtain ⟨⟨d, acked⟩, hrun, hdir⟩ := bind_eq_some_iff.mp hfacts
  obtain ⟨s, hstart, hs⟩ := map_eq_some_iff.mp hdir
  obtain ⟨hread, hget⟩ := Prod.mk.inj hs
  exact ⟨d, acked, s, hrun, hstart, hread, hget⟩

end Sessions

end Session

end lsmkv
