import LsmKv.Reldb.DdlSteps
import LsmKv.Reldb.VersionIds

namespace reldb

open lsmkv (Status)
open effects (applyAll)
open snapshot (keyCommits)
open List

/-- The versions that `prev_id` leads through, down to 0. -/
def ChainFrom (versions : Nat → Option VersionRecord) : Nat → List VersionRecord → Prop
  | id, [] => id = 0
  | id, rec :: rest => id ≠ 0 ∧ versions id = some rec ∧ rec.version_id = id ∧ ChainFrom versions rec.prev_id rest

def committed_versions (recs : List VersionRecord) : List VersionRecord := recs.filter fun rec => rec.start_ts ≠ 0

/-- A chain of versions, newest first. -/
structure ChainOk (kv : Kv) (recs : List VersionRecord) : Prop where
  ids : recs.Pairwise fun newer older => older.version_id < newer.version_id
  /-- Only the head is provisional, and its owner is open. -/
  stamped : ∀ rec ∈ recs.tail, rec.start_ts ≠ 0
  owner : ∀ rec ∈ recs.head?, rec.start_ts = 0 →
    ∃ txn_meta, kv.txns rec.created_by = some txn_meta ∧ txn_meta.state = .kOpen
  start_ts : (committed_versions recs).Pairwise fun newer older => older.start_ts < newer.start_ts
  newest : ∀ rec ∈ (committed_versions recs).head?, rec.end_ts = 0
  end_ts : (committed_versions recs).IsChain fun newer older => older.end_ts = newer.start_ts
  visible : ∀ snapshot, ((committed_versions recs).filter fun rec => is_committed_visible rec snapshot).length ≤ 1

/-- The records of a chain of commits. -/
structure Records (versions : Nat → Option VersionRecord) (id succ : Nat) (entries : List (Nat × Option Row))
    (recs : List VersionRecord) : Prop where
  chain : ChainFrom versions id recs
  entries_eq : recs.map (fun rec => (rec.start_ts, rec.value)) = entries
  stamped : ∀ rec ∈ recs, rec.start_ts ≠ 0
  newest : ∀ rec ∈ recs.head?, rec.end_ts = succ
  end_ts : recs.IsChain fun newer older => older.end_ts = newer.start_ts
  ids : recs.Pairwise fun newer older => older.version_id < newer.version_id
  le : ∀ rec ∈ recs, rec.version_id ≤ id

variable {entries : List (Nat × Option Row)} {recs : List VersionRecord} {k : RowKey}

theorem Linked.records {versions : Nat → Option VersionRecord} {id succ : Nat}
    (h : Linked versions id succ entries) : ∃ recs, Records versions id succ entries recs := by
  induction entries generalizing id succ with
  | nil => exact ⟨[], h, rfl, by simp, by simp, isChain_nil, List.Pairwise.nil, by simp⟩
  | cons e rest ih =>
    obtain ⟨hid, hts, rec, hrec, hvid, hstart, hend, hvalue, hprev, hrest⟩ := h
    obtain ⟨recs, hrecs⟩ := ih hrest
    refine ⟨rec :: recs, ⟨hid, hrec, hvid, hrecs.chain⟩, ?_, ?_, ?_, ?_, ?_, ?_⟩
    · rw [map_cons, hrecs.entries_eq, hstart, hvalue]
    · intro r hr
      rcases mem_cons.mp hr with rfl | hr
      · exact hstart ▸ hts
      · exact hrecs.stamped r hr
    · rintro r ⟨⟩
      exact hend
    · cases recs with
      | nil => exact isChain_singleton _
      | cons older recs =>
        refine isChain_cons_cons.mpr ⟨?_, hrecs.end_ts⟩
        rw [hrecs.newest older rfl, hstart]
    · refine pairwise_cons.mpr ⟨fun r hr => ?_, hrecs.ids⟩
      rw [hvid]
      exact (hrecs.le r hr).trans_lt hprev
    · intro r hr
      rcases mem_cons.mp hr with rfl | hr
      · exact hvid.le
      · exact (hrecs.le r hr).trans hprev.le

/-- Timestamps fall along the commits of a key. -/
theorem keyCommits_falls {commits : List (snapshot.Commit RowKey Row)} (h : snapshot.Ordered commits) (k : RowKey) :
    (keyCommits commits k).Pairwise fun newer older => older.1 < newer.1 := by
  refine List.Pairwise.filterMap _ (fun c c' hlt e he e' he' => ?_) (pairwise_reverse.mpr h)
  obtain ⟨value, -, rfl⟩ := Option.map_eq_some_iff.mp he
  obtain ⟨value', -, rfl⟩ := Option.map_eq_some_iff.mp he'
  exact hlt

/-- Every version below the first is closed by the start of a version above it. -/
theorem closed_by {newer : VersionRecord}
    (hend : (newer :: recs).IsChain fun newer older => older.end_ts = newer.start_ts) :
    ∀ older ∈ recs, ∃ rec ∈ newer :: recs, older.end_ts = rec.start_ts := by
  induction recs generalizing newer with
  | nil => simp
  | cons next recs ih =>
    obtain ⟨hnext, hrest⟩ := isChain_cons_cons.mp hend
    intro older holder
    rcases mem_cons.mp holder with rfl | holder
    · exact ⟨newer, mem_cons_self .., hnext⟩
    · obtain ⟨rec, hrec, heq⟩ := ih hrest older holder
      exact ⟨rec, mem_cons_of_mem _ hrec, heq⟩

/-- Of committed versions that are closed by their successors a snapshot sees one at most. -/
theorem visible_once (hstamped : ∀ rec ∈ recs, rec.start_ts ≠ 0)
    (hstart : recs.Pairwise fun newer older => older.start_ts < newer.start_ts)
    (hend : recs.IsChain fun newer older => older.end_ts = newer.start_ts) (snapshot : Nat) :
    (recs.filter fun rec => is_committed_visible rec snapshot).length ≤ 1 := by
  induction recs with
  | nil => simp
  | cons newer recs ih =>
    obtain ⟨hfalls, hstart'⟩ := pairwise_cons.mp hstart
    cases hvisible : is_committed_visible newer snapshot with
    | false =>
      rw [filter_cons_of_neg (by simp [hvisible])]
      exact ih (fun rec hrec => hstamped rec (mem_cons_of_mem _ hrec)) hstart' hend.of_cons
    | true =>
      -- whoever sees the first version is past the end of the others
      have hnone : recs.filter (fun rec => is_committed_visible rec snapshot) = [] := by
        rw [filter_eq_nil_iff]
        intro older holder
        obtain ⟨rec, hrec, hclosed⟩ := closed_by hend older holder
        have hpos := hstamped rec hrec
        have hle : rec.start_ts ≤ newer.start_ts := by
          rcases mem_cons.mp hrec with rfl | hrec
          · exact le_rfl
          · exact (hfalls rec hrec).le
        have hseen : newer.start_ts ≤ snapshot := by
          by_contra hlt
          simp [is_committed_visible, not_le.mp hlt] at hvisible
        have hover : older.end_ts ≠ 0 ∧ older.end_ts ≤ snapshot := by omega
        simp [is_committed_visible, hover]
      rw [filter_cons_of_pos (by simpa using hvisible), hnone]
      rfl

/-- A chain of commits is a chain of versions. -/
theorem Records.chain_ok {kv : Kv} {id : Nat} (h : Records (kv.versions k) id 0 entries recs)
    (hfalls : entries.Pairwise fun newer older => older.1 < newer.1) : ChainOk kv recs := by
  have hcommitted : committed_versions recs = recs :=
    filter_eq_self.mpr fun rec hrec => by simpa using h.stamped rec hrec
  have hstart : recs.Pairwise fun newer older => older.start_ts < newer.start_ts := by
    rw [← h.entries_eq, pairwise_map] at hfalls
    exact hfalls
  refine ⟨h.ids, fun rec hrec => h.stamped rec (mem_of_mem_tail hrec), fun rec hrec hzero => ?_, ?_, ?_, ?_, ?_⟩
  · exact absurd hzero (h.stamped rec (mem_of_mem_head? hrec))
  · rw [hcommitted]
    exact hstart
  · rw [hcommitted]
    exact h.newest
  · rw [hcommitted]
    exact h.end_ts
  · intro snapshot
    rw [hcommitted]
    exact visible_once h.stamped hstart h.end_ts snapshot

/-- So is one with the version of a transaction under way in front. -/
theorem Records.held_chain_ok {kv : Kv} {rec : VersionRecord} (h : Records (kv.versions k) rec.prev_id 0 entries recs)
    (hfalls : entries.Pairwise fun newer older => older.1 < newer.1) (hprovisional : rec.start_ts = 0)
    (hprev : rec.prev_id < rec.version_id)
    (howner : ∃ txn_meta, kv.txns rec.created_by = some txn_meta ∧ txn_meta.state = .kOpen) :
    ChainOk kv (rec :: recs) := by
  have hrest := h.chain_ok hfalls
  have hcommitted : committed_versions (rec :: recs) = committed_versions recs :=
    filter_cons_of_neg (by simp [hprovisional])
  refine ⟨pairwise_cons.mpr ⟨fun older holder => (h.le older holder).trans_lt hprev, h.ids⟩, h.stamped, ?_, ?_, ?_,
    ?_, ?_⟩
  · rintro _ ⟨⟩ -
    exact howner
  · rw [hcommitted]
    exact hrest.start_ts
  · rw [hcommitted]
    exact hrest.newest
  · rw [hcommitted]
    exact hrest.end_ts
  · rw [hcommitted]
    exact hrest.visible

/-- The chain of every row of a node that is in step with a log. -/
theorem Simulates.chain {since : Nat} {node : Node} {log : snapshot.State RowKey Row} (h : Simulates since node log)
    {head : Nat} (hhead : node.kv.heads k = some head) :
    ∃ recs, recs ≠ [] ∧ ChainFrom (node.kv.versions k) head recs ∧ ChainOk node.kv recs := by
  have hfalls := keyCommits_falls h.ordered k
  rcases h.keys k with (⟨hnone, -⟩ | ⟨head', hhead', hne, hlinked⟩) | ⟨id, txn, htxn, hopen, w, hw, rfl⟩
  · cases hnone.symm.trans hhead
  · cases hhead.symm.trans hhead'
    obtain ⟨recs, hrecs⟩ := hlinked.records
    refine ⟨recs, ?_, hrecs.chain, hrecs.chain_ok hfalls⟩
    rintro rfl
    exact hne hrecs.entries_eq.symm
  · obtain ⟨t, hactive⟩ := h.active id txn htxn hopen
    obtain ⟨rec, -, hheld⟩ := hactive.held w hw
    cases hhead.symm.trans hheld.head_eq
    obtain ⟨recs, hrecs⟩ := hheld.linked.records
    refine ⟨rec :: recs, cons_ne_nil _ _,
      ⟨(h.heads _ _ hhead).1.ne', hheld.version, hheld.version_id, hrecs.chain⟩, ?_⟩
    refine hrecs.held_chain_ok hfalls hheld.provisional (by rw [hheld.version_id]; exact hheld.prev_lt)
      ⟨{ writes := txn.written }, ?_, rfl⟩
    rw [hheld.created_by]
    exact hactive.registry

/-- If DROP deletes the versions of no other row, the versions of every row are a chain,
    after every run of transactions and DDL without a crash. Calls and statements may
    fail; a failure of the store is not part of the run. -/
theorem version_chains {commands : List Command} {server : Server}
    (hrun : System.run (.down {}) (Action.session commands) = some (.up server))
    (hconfined : System.every System.confined (.down {}) (Action.session commands) = true) {k : RowKey} {head : Nat}
    (hhead : server.disk.kv.heads k = some head) :
    ∃ recs, recs ≠ [] ∧ ChainFrom (server.disk.kv.versions k) head recs ∧ ChainOk server.disk.kv recs := by
  obtain ⟨⟨since, log, hsim⟩, -⟩ :=
    System.run_session (I := fun server => (∃ since log, Simulates since server.node log) ∧ server.Sound)
      (C := System.confined)
      (fun hopened => ⟨⟨0, {}, (Server.opened_simulates hopened).1⟩, (Server.opened_simulates hopened).2⟩)
      (fun h hconfined hstep => by
        obtain ⟨⟨since, log, hsim⟩, hsound⟩ := h
        exact ⟨Server.step_simulates hsim hsound hconfined hstep, hsound.step hstep⟩) hconfined hrun
  exact hsim.chain hhead

/-- A row is inserted, the table altered and the row updated, and one more table comes and
    goes. -/
def alteredAndUpdated : List Command :=
  [.ddl (.create_table numbersTable), .call .begin_txn, .call (.insert 1 "t" [.int64 1, .int64 10]), .call (.commit 1),
    addFlag, .ddl (.create_table ⟨"u", numbersTable.columns⟩), .ddl (.drop_table "u"), .call .begin_txn,
    .call (.update 2 "t" [.int64 1, .int64 11, .bool false])]

theorem version_chains_altered : ∃ server head,
    System.run (.down {}) (Action.session alteredAndUpdated) = some (.up server) ∧
    server.disk.kv.heads ("t", .int64 1) = some head ∧
    ∃ recs, recs ≠ [] ∧ ChainFrom (server.disk.kv.versions ("t", .int64 1)) head recs ∧ ChainOk server.disk.kv recs := by
  have hfacts : ((System.run (.down {}) (Action.session alteredAndUpdated)).bind System.server?).bind (fun server =>
      server.disk.kv.heads ("t", .int64 1)) = some 3 := by decide +kernel
  obtain ⟨server, hrun, hhead⟩ := System.run_up hfacts
  exact ⟨server, 3, hrun, hhead, version_chains hrun (by decide +kernel) hhead⟩

/-- Among the names with a slash is one whose versions are stored where those of row 1 of
    the table are. -/
def rowTable : TableSchema := ⟨"t/010100000000000000", numbersTable.columns⟩

def droppedRowTable : List Command :=
  [.ddl (.create_table numbersTable), .call .begin_txn, .call (.insert 1 "t" [.int64 1, .int64 10]), .call (.commit 1),
    .ddl (.create_table rowTable), .ddl (.drop_table rowTable.name)]

/-- DROP of that table leaves a head without a version. -/
theorem chain_broken_by_drop : ∃ server, System.run (.down {}) (Action.session droppedRowTable) = some (.up server) ∧
    server.disk.kv.heads ("t", .int64 1) = some 1 ∧
    ∀ recs, ¬ ChainFrom (server.disk.kv.versions ("t", .int64 1)) 1 recs := by
  have hfacts : ((System.run (.down {}) (Action.session droppedRowTable)).bind System.server?).bind (fun server =>
      (server.disk.kv.heads ("t", .int64 1)).map fun head =>
        (head, (server.disk.kv.versions ("t", .int64 1) 1).isNone)) = some (1, true) := by decide +kernel
  obtain ⟨server, hrun, hfacts⟩ := System.run_up hfacts
  obtain ⟨head, hhead, hfacts⟩ := Option.map_eq_some_iff.mp hfacts
  obtain ⟨rfl, hnone⟩ := Prod.mk.inj hfacts
  refine ⟨server, hrun, hhead, fun recs hchain => ?_⟩
  cases recs with
  | nil => cases hchain
  | cons rec rest =>
    obtain ⟨-, hrec, -⟩ := hchain
    rw [hrec] at hnone
    cases hnone

end reldb
