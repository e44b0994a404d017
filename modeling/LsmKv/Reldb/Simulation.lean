import LsmKv.Reldb.Calls
import LsmKv.Reldb.Chain

namespace reldb

open lsmkv (Status)
open history (latest)
open snapshot (keyCommits Wrote)
open Option Database

/-- A key that no transaction under way has written: its head is the newest commit. -/
def Free (kv : Kv) (k : RowKey) (entries : List (Nat × Option Row)) : Prop :=
  (kv.heads k = none ∧ entries = []) ∨
    ∃ head, kv.heads k = some head ∧ entries ≠ [] ∧ Linked (kv.versions k) head 0 entries

/-- A key that a transaction under way has written: its head is a provisional version
    with the content last written, above the commits that the transaction sees. -/
structure Held (kv : Kv) (k : RowKey) (entries : List (Nat × Option Row)) (owner head start_ts : Nat)
    (rec : VersionRecord) : Prop where
  head_eq : kv.heads k = some head
  version : kv.versions k head = some rec
  version_id : rec.version_id = head
  provisional : rec.start_ts = 0
  not_closed : rec.end_ts = 0
  created_by : rec.created_by = owner
  prev_lt : rec.prev_id < head
  linked : Linked (kv.versions k) rec.prev_id 0 entries
  snapshot : ∀ e ∈ entries.head?, e.1 ≤ start_ts

/-- A transaction under way, in the store and in the log of the clients. -/
structure Active (kv : Kv) (log : snapshot.State RowKey Row) (id : Nat) (txn : Transaction)
    (t : snapshot.Txn RowKey Row) : Prop where
  active : log.active id = some t
  start_ts : t.start_ts = txn.start_ts
  wrote : ∀ k, Wrote t.writes k → ∃ w ∈ txn.written, w.key = k
  registry : kv.txns id = some { writes := txn.written }
  nodup : (txn.written.map TxnWrite.key).Nodup
  held : ∀ w ∈ txn.written, ∃ rec, latest t.writes w.key = some rec.value ∧
    Held kv w.key (keyCommits log.commits w.key) id w.version_id txn.start_ts rec

/-- The node does what the log of the clients says. The log has the commits of all
    transactions from `since` on. -/
structure Simulates (since : Nat) (node : Node) (log : snapshot.State RowKey Row) : Prop where
  no_ddl : node.db.ddl_in_progress = false
  ts_pos : 0 < node.db.next_ts
  vid_pos : 0 < node.db.next_version_id
  heads : ∀ k head, node.kv.heads k = some head →
    0 < head ∧ head < node.db.next_version_id ∧ (node.db.catalog k.1).isSome
  txns : ∀ id txn, node.txns id = some txn →
    txn.txn_id = id ∧ id < node.db.next_txn_id ∧ txn.start_ts < node.db.next_ts
  active : ∀ id txn, node.txns id = some txn → txn.finished = false → ∃ t, Active node.kv log id txn t
  keys : ∀ k, Free node.kv k (keyCommits log.commits k) ∨
    ∃ id txn, node.txns id = some txn ∧ txn.finished = false ∧ ∃ w ∈ txn.written, w.key = k
  since_le : since ≤ node.db.next_txn_id
  committed : ∀ id txn_meta, since ≤ id → node.kv.txns id = some txn_meta → txn_meta.state = .kCommitted →
    ∃ txn, node.txns id = some txn ∧ ∃ c ∈ log.commits, c.txn = id ∧ c.start_ts = txn.start_ts ∧
      c.commit_ts = txn_meta.commit_ts ∧ ∀ w ∈ txn.written, Wrote c.writes w.key
  ordered : snapshot.Ordered log.commits
  wins : snapshot.FirstCommitterWins log.commits
  stamps : ∀ c ∈ log.commits, c.commit_ts < node.db.next_ts

section Frame

variable {kv kv' : Kv} {k : RowKey} {entries : List (Nat × Option Row)} {owner head start_ts : Nat}
  {rec : VersionRecord} {log log' : snapshot.State RowKey Row} {id : Nat} {txn : Transaction}
  {t : snapshot.Txn RowKey Row}

theorem Free.congr (h : Free kv k entries) (hheads : kv'.heads k = kv.heads k)
    (hversions : kv'.versions k = kv.versions k) : Free kv' k entries := by
  rw [Free, hheads, hversions]
  exact h

theorem Held.congr (h : Held kv k entries owner head start_ts rec) (hheads : kv'.heads k = kv.heads k)
    (hversions : kv'.versions k = kv.versions k) : Held kv' k entries owner head start_ts rec :=
  ⟨by rw [hheads]; exact h.head_eq, by rw [hversions]; exact h.version, h.version_id, h.provisional, h.not_closed,
    h.created_by, h.prev_lt, by rw [hversions]; exact h.linked, h.snapshot⟩

/-- The re-check of a commit passes: each write is at its head still, and what is below it
    was in the snapshot. -/
theorem Held.check_commit {entries : TxnWrite → List (Nat × Option Row)}
    (h : ∀ w ∈ txn.written, ∃ rec, Held kv w.key (entries w) owner w.version_id txn.start_ts rec) :
    txn.check_commit kv txn.written = .ok none := by
  refine Transaction.check_commit_none fun w hw => ?_
  obtain ⟨rec, hheld⟩ := h w hw
  refine ⟨hheld.head_eq, rec, hheld.version, fun hpos prev hprev => ?_⟩
  have hlinked := hheld.linked
  have hsnapshot := hheld.snapshot
  cases hentries : entries w with
  | nil =>
    rw [hentries] at hlinked
    exact absurd hlinked hpos
  | cons e rest =>
    rw [hentries] at hlinked hsnapshot
    obtain ⟨-, -, prev', hprev', -, hts, -⟩ := hlinked
    cases hprev.symm.trans hprev'
    exact hts.trans_le (hsnapshot e rfl)

section

variable (h : Held kv k entries owner head start_ts rec)

include h

/-- A key is not free and held at once. -/
theorem Held.not_free : ¬ Free kv k entries := by
  rintro (⟨hnone, -⟩ | ⟨head', hhead', hne, hlinked⟩)
  · rw [h.head_eq] at hnone
    cases hnone
  · cases h.head_eq.symm.trans hhead'
    obtain ⟨rec', hrec', hstamped⟩ := hlinked.head_stamped hne
    cases h.version.symm.trans hrec'
    exact hstamped h.provisional

/-- A key has one holder. -/
theorem Held.owner_eq {owner' head' start_ts' : Nat} {rec' : VersionRecord} {entries' : List (Nat × Option Row)}
    (h' : Held kv k entries' owner' head' start_ts' rec') :
    owner = owner' ∧ head = head' := by
  cases h.head_eq.symm.trans h'.head_eq
  cases h.version.symm.trans h'.version
  exact ⟨h.created_by.symm.trans h'.created_by, rfl⟩

/-- Undoing the provisional version frees the key. -/
theorem Held.restored {w : TxnWrite} (hkey : w.key = k) (hid : w.version_id = head)
    (hhead : kv'.heads k = restored_head kv w) (hversions : kv'.versions k = kv.versions k) :
    Free kv' k entries := by
  have hlinked := h.linked
  rw [restored_head, hkey, hid, h.version] at hhead
  dsimp only at hhead
  split at hhead
  · next hzero =>
    rw [hzero] at hlinked
    exact .inl ⟨hhead, hlinked.eq_nil⟩
  · next hpos =>
    refine .inr ⟨rec.prev_id, hhead, ?_, by rw [hversions]; exact hlinked⟩
    rintro rfl
    exact hpos hlinked

/-- Closing the version below leaves the provisional one alone. -/
theorem Held.closed (commit_ts : Nat) :
    Linked (closed_row (kv.versions k) rec.prev_id commit_ts) rec.prev_id commit_ts entries ∧
      closed_row (kv.versions k) rec.prev_id commit_ts head = some rec := by
  have hlinked := h.linked
  cases entries with
  | nil =>
    refine ⟨hlinked, ?_⟩
    rw [closed_row]
    cases kv.versions k rec.prev_id <;> simp [show rec.prev_id = 0 from hlinked, h.version]
  | cons e rest =>
    obtain ⟨hne, hts, prev, hprev, hvid, hstart, hend, -⟩ := id hlinked
    have hlive : rec.prev_id ≠ 0 ∧ prev.start_ts ≠ 0 ∧ prev.end_ts = 0 := ⟨hne, by rw [hstart]; exact hts, hend⟩
    have hclose := hlinked.close hprev commit_ts
    rw [← hvid] at hclose
    rw [closed_row, hprev]
    dsimp only
    rw [if_pos hlive, ← hvid]
    exact ⟨hclose, by rw [Function.update_of_ne (hvid ▸ h.prev_lt.ne')]; exact h.version⟩

theorem Held.below_stamped (commit_ts : Nat) :
    Linked (stamped_row (kv.versions k) commit_ts rec) rec.prev_id commit_ts entries := by
  refine (h.closed commit_ts).1.congr fun n hn => ?_
  rw [stamped_row, h.version_id]
  exact Function.update_of_ne (hn.trans_lt h.prev_lt).ne _ _

/-- Stamping the provisional version puts it in front of the committed ones. -/
theorem Held.stamped (hpos : 0 < head) {commit_ts : Nat} (hts : commit_ts ≠ 0) :
    Linked (stamped_row (kv.versions k) commit_ts rec) head 0 ((commit_ts, rec.value) :: entries) := by
  refine ⟨hpos.ne', hts, { rec with start_ts := commit_ts }, ?_, h.version_id, rfl, h.not_closed, rfl, h.prev_lt,
    h.below_stamped commit_ts⟩
  rw [stamped_row, h.version_id]
  exact Function.update_self ..

end

/-- A transaction is not touched by a step on other keys and other transactions. -/
theorem Active.congr (h : Active kv log id txn t) (hactive : log'.active id = log.active id)
    (hregistry : kv'.txns id = kv.txns id)
    (hkeys : ∀ w ∈ txn.written, kv'.heads w.key = kv.heads w.key ∧ kv'.versions w.key = kv.versions w.key ∧
      keyCommits log'.commits w.key = keyCommits log.commits w.key) : Active kv' log' id txn t := by
  refine ⟨hactive.trans h.active, h.start_ts, h.wrote, hregistry.trans h.registry, h.nodup, ?_⟩
  intro w hw
  obtain ⟨rec, hlatest, hheld⟩ := h.held w hw
  obtain ⟨hheads, hversions, hcommits⟩ := hkeys w hw
  refine ⟨rec, hlatest, ?_⟩
  rw [hcommits]
  exact hheld.congr hheads hversions

end Frame

namespace Simulates

variable {since : Nat} {node : Node} {log : snapshot.State RowKey Row}

/-- Two transactions under way have written different keys. -/
theorem keys_ne (h : Simulates since node log) {id id' : Nat} {txn txn' : Transaction} (hne : id ≠ id')
    (htxn : node.txns id = some txn) (htxn' : node.txns id' = some txn') (hopen : txn.finished = false)
    (hopen' : txn'.finished = false) {w w' : TxnWrite} (hw : w ∈ txn.written) (hw' : w' ∈ txn'.written) :
    w.key ≠ w'.key := by
  intro hkey
  obtain ⟨t, hactive⟩ := h.active id txn htxn hopen
  obtain ⟨t', hactive'⟩ := h.active id' txn' htxn' hopen'
  obtain ⟨rec, -, hheld⟩ := hactive.held w hw
  obtain ⟨rec', -, hheld'⟩ := hactive'.held w' hw'
  rw [← hkey] at hheld'
  exact hne (hheld.owner_eq hheld').1

/-- What a transaction under way reads. -/
theorem get_row_reads (h : Simulates since node log) {id : Nat} {txn : Transaction} (htxn : node.txns id = some txn)
    (hopen : txn.finished = false) {t : snapshot.Txn RowKey Row} (hactive : Active node.kv log id txn t) (k : RowKey) :
    Reads (txn.get_row node.kv k)
      ((latest t.writes k).getD (snapshot.committedAt (keyCommits log.commits k) txn.start_ts).join) := by
  have hid := (h.txns id txn htxn).1
  rcases h.keys k with hfree | ⟨id', txn', htxn', hopen', w, hw, rfl⟩
  · have hnone : latest t.writes k = none := by
      rw [← not_isSome_iff_eq_none, ← snapshot.wrote_iff_latest]
      intro hwrote
      obtain ⟨w, hw, rfl⟩ := hactive.wrote k hwrote
      obtain ⟨rec, -, hheld⟩ := hactive.held w hw
      exact hheld.not_free hfree
    rw [hnone, getD_none]
    rcases hfree with ⟨hhead, hentries⟩ | ⟨head, hhead, -, hlinked⟩
    · rw [hentries]
      exact Kv.get_row_no_head hhead
    · exact Kv.get_row_committed hhead hlinked
  · obtain ⟨t', hactive'⟩ := h.active id' txn' htxn' hopen'
    obtain ⟨rec, hlatest, hheld⟩ := hactive'.held w hw
    have hpos := (h.heads _ _ hheld.head_eq).1
    by_cases heq : id' = id
    · subst heq
      cases htxn.symm.trans htxn'
      cases hactive.active.symm.trans hactive'.active
      rw [hlatest, getD_some]
      exact Kv.get_row_own hheld.head_eq hheld.version hpos hheld.provisional (hheld.created_by.trans hid.symm)
    · have hnone : latest t.writes w.key = none := by
        rw [← not_isSome_iff_eq_none, ← snapshot.wrote_iff_latest]
        intro hwrote
        obtain ⟨w', hw', hkey⟩ := hactive.wrote w.key hwrote
        exact h.keys_ne heq htxn' htxn hopen' hopen hw hw' hkey.symm
      rw [hnone, getD_none]
      have hregistry := hactive'.registry
      rw [← hheld.created_by] at hregistry
      refine Kv.get_row_other hheld.head_eq hheld.version hpos hheld.provisional ?_ hregistry (by simp)
        hheld.prev_lt hheld.linked
      rw [hheld.created_by, hid]
      exact heq

end Simulates

end reldb
