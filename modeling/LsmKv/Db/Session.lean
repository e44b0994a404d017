import LsmKv.Db.Numbers
import LsmKv.Db.Recency

namespace lsmkv

open Option

/-- The steps of a session: the calls of the writers and the moves of the
    background thread, each inside one critical section. -/
inductive Label where
  | put (options : WriteOptions) (key value : Bytes)
  | delete (options : WriteOptions) (key : Bytes)
  | bg
deriving DecidableEq, Repr

/-- A running database with its directory and the updates acknowledged so far. -/
structure Session where
  db : DBImpl
  disk : Disk
  acked : List (history.Update Bytes Bytes)

namespace Session

/-- The state after a write returned. Only an acknowledged write counts as made. -/
def wrote (s : Session) (update : history.Update Bytes Bytes)
    (outcome : (DBImpl × Except Status Unit) × List FileOp) : Session where
  db := outcome.1.1
  disk := s.disk.apply_all outcome.2
  acked := match outcome.1.2 with
    | .ok _ => s.acked ++ [update]
    | .error _ => s.acked

/-- `none` when the step has to wait. -/
def step (s : Session) : Label → Option Session
  | .put options key value => (s.db.put options key value).map (s.wrote ⟨key, some value⟩)
  | .delete options key => (s.db.delete options key).map (s.wrote ⟨key, none⟩)
  | .bg =>
    let (db, ops) := s.db.bg_step s.disk
    some { s with db := db, disk := s.disk.apply_all ops }

def run (s : Session) : List Label → Option Session
  | [] => some s
  | label :: labels => (s.step label).bind fun s => s.run labels

/-- Opening a database; `none` when `Open` fails. -/
def start (options : Options) (dbname : String) (disk : Disk) (acked : List (history.Update Bytes Bytes)) :
    Option Session :=
  match DBImpl.open_db options dbname disk with
  | (_, .error _) => none
  | (ops, .ok db) => some { db := db, disk := disk.apply_all ops, acked := acked }

/-- A session on a directory that holds nothing yet. -/
def fresh (options : Options) (dbname : String) : Option Session := start options dbname {} []

def run_fresh (options : Options) (dbname : String) (labels : List Label) : Option Session :=
  (fresh options dbname).bind fun s => s.run labels

/-- The layers hold exactly the acknowledged updates. -/
def Holds (s : Session) (l : Layout) : Prop :=
  s.db.Holds s.disk l ∧ updates (s.db.history l) = s.acked

variable {s s' : Session} {l : Layout}

variable {label : Label} {labels : List Label}

/-- A write step is a write of the database, of either type. -/
theorem step_write_cases (hlabel : label ≠ .bg) (hstep : s.step label = some s') :
    ∃ (options : WriteOptions) (w : Write) (outcome : (DBImpl × Except Status Unit) × List FileOp),
      s.db.write options w.type w.key w.value = some outcome ∧
      s' = s.wrote ⟨w.key, w.result⟩ outcome ∧ w.seq = s.db.versions.last_sequence + 1 := by
  cases label with
  | put options key value =>
    obtain ⟨outcome, hwrite, heq⟩ := map_eq_some_iff.mp hstep
    exact ⟨options, ⟨_, .kTypeValue, key, value⟩, outcome, hwrite, heq.symm, rfl⟩
  | delete options key =>
    obtain ⟨outcome, hwrite, heq⟩ := map_eq_some_iff.mp hstep
    exact ⟨options, ⟨_, .kTypeDeletion, key, []⟩, outcome, hwrite, heq.symm, rfl⟩
  | bg => exact absurd rfl hlabel

theorem step_bg (s : Session) : s.step .bg = some
    { s with db := (s.db.bg_step s.disk).1, disk := s.disk.apply_all (s.db.bg_step s.disk).2 } := rfl

theorem numbersBelow_step (h : s.db.NumbersBelow) (hok : s.db.bg_error = none)
    (hstep : s.step label = some s') : s'.db.NumbersBelow := by
  by_cases hlabel : label = .bg
  · subst hlabel
    rw [step_bg, Option.some.injEq] at hstep
    subst hstep
    exact h.bg_step
  · obtain ⟨options, w, ⟨⟨db', result⟩, ops⟩, hwrite, rfl, -⟩ := step_write_cases hlabel hstep
    exact h.write hwrite hok

/-- Every step keeps the layers in line with the acknowledged updates. -/
theorem Holds.step (h : s.Holds l) (hnumbers : s.db.NumbersBelow)
    (hstep : s.step label = some s') (hlast : s'.db.versions.last_sequence < 2 ^ 56) :
    ∃ l', s'.Holds l' := by
  obtain ⟨hdb, hacked⟩ := h
  by_cases hlabel : label = .bg
  · subst hlabel
    rw [step_bg, Option.some.injEq] at hstep
    subst hstep
    have hfresh : s.db.DrawsFreshTable := fun _ hmem => lt_irrefl _ (hnumbers.live _ hmem)
    obtain ⟨hholds, hhistory⟩ := hdb.bg_step hfresh (DBImpl.last_sequence_le_bg_step.trans_lt hlast)
    exact ⟨s.db.bg_layout l, hholds, by rw [hhistory, hacked]⟩
  · obtain ⟨options, w, ⟨⟨db', result⟩, ops⟩, hwrite, rfl, hseq⟩ := step_write_cases hlabel hstep
    obtain ⟨rfl, l', hholds, hhistory⟩ := hdb.write hwrite
    refine ⟨l', hholds, ?_⟩
    simp only [wrote, hhistory, updates_append, hacked]
    rfl

theorem last_sequence_le_step (hstep : s.step label = some s') :
    s.db.versions.last_sequence ≤ s'.db.versions.last_sequence := by
  by_cases hlabel : label = .bg
  · subst hlabel
    rw [step_bg, Option.some.injEq] at hstep
    subst hstep
    exact DBImpl.last_sequence_le_bg_step
  · obtain ⟨options, w, ⟨⟨db', result⟩, ops⟩, hwrite, rfl, -⟩ := step_write_cases hlabel hstep
    exact DBImpl.last_sequence_le_write hwrite

theorem run_cons (hrun : s.run (label :: labels) = some s') :
    ∃ mid, s.step label = some mid ∧ mid.run labels = some s' :=
  bind_eq_some_iff.mp hrun

/-- What every step keeps holds at the end of a run. A step may use that the rest of the run
    succeeds. -/
theorem run_keeps {I : Session → Prop} (h : I s) (hrun : s.run labels = some s')
    (hkeep : ∀ label ∈ labels, ∀ t t' rest, I t → t.step label = some t' → t'.run rest = some s' → I t') : I s' := by
  induction labels generalizing s with
  | nil =>
    cases hrun
    exact h
  | cons label labels ih =>
    obtain ⟨mid, hstep, hrest⟩ := run_cons hrun
    exact ih (hkeep label List.mem_cons_self s mid labels h hstep hrest) hrest fun label hlabel =>
      hkeep label (List.mem_cons_of_mem _ hlabel)

theorem last_sequence_le_run (hrun : s.run labels = some s') :
    s.db.versions.last_sequence ≤ s'.db.versions.last_sequence :=
  run_keeps (I := fun t => s.db.versions.last_sequence ≤ t.db.versions.last_sequence) le_rfl hrun
    fun _ _ _ _ _ h hstep _ => h.trans (last_sequence_le_step hstep)

theorem levelsHold_empty (d : Disk) : LevelsHold d {} [] [] :=
  ⟨List.Forall₂.nil, by simp, by simpa using Represents.nil, List.Pairwise.nil, by simp [Version.live]⟩

/-- What `Open` makes of an empty directory: the manifest is number 1 and the log
    number 2, and the number 3 is recorded as the next one without being used. -/
def freshSession (options : Options) (dbname : String) : Session where
  db :=
    { options := options, dbname := dbname
      versions := { next_file_number := 4, log_number := 2 }
      mem := .empty, imm := none, wal := { number := 2 }, logfile_number := 2
      flush_scheduled := false, compaction_scheduled := false, bg_error := none, bg := .idle }
  disk := Disk.apply_all {}
    [.write_manifest 1 { next_file_number := some 2, last_sequence := some 0, log_number := some 0 },
      .write_current 1, .open_log 2,
      .append_manifest 1 { log_number := some 2, next_file_number := some 3 }]
  acked := []

theorem fresh_eq {options : Options} {dbname : String} (hfresh : fresh options dbname = some s) :
    s = freshSession options dbname := by
  cases hcreate : options.create_if_missing with
  | false => simp [fresh, start, DBImpl.open_db, hcreate] at hfresh
  | true =>
    simp only [fresh, start, DBImpl.open_db, hcreate] at hfresh
    cases hfresh
    rfl

/-- A new database has empty layers. -/
theorem freshSession_holds (options : Options) (dbname : String) :
    (freshSession options dbname).Holds ⟨[], [], [], []⟩ ∧ (freshSession options dbname).db.NumbersBelow := by
  refine ⟨⟨⟨levelsHold_empty _, fun _ => rfl, fun imm himm => (by cases himm), Represents.nil,
    List.Pairwise.nil, by simp [DBImpl.history, Layout.tables], trivial, rfl⟩, rfl⟩, ?_, ?_⟩
  · simp [freshSession, Version.live]
  · simp [freshSession, BgState.reserved]

section Fresh

variable {options : Options} {dbname : String} (hrun : run_fresh options dbname labels = some s)

include hrun

theorem run_of_fresh : (freshSession options dbname).run labels = some s := by
  obtain ⟨s₀, hfresh, hrun⟩ := bind_eq_some_iff.mp hrun
  rwa [fresh_eq hfresh] at hrun

/-- The layers and the numbers after any run on a new directory. -/
theorem holds_run_fresh (hlast : s.db.versions.last_sequence < 2 ^ 56) : (∃ l, s.Holds l) ∧ s.db.NumbersBelow := by
  obtain ⟨hholds, hnumbers⟩ := freshSession_holds options dbname
  refine run_keeps (I := fun t => (∃ l, t.Holds l) ∧ t.db.NumbersBelow) ⟨⟨_, hholds⟩, hnumbers⟩ (run_of_fresh hrun) ?_
  rintro label - t t' rest ⟨⟨l, h⟩, hnumbers⟩ hstep hrest
  exact ⟨h.step hnumbers hstep ((last_sequence_le_run hrest).trans_lt hlast),
    numbersBelow_step hnumbers h.1.no_error hstep⟩

end Fresh

end Session

end lsmkv
