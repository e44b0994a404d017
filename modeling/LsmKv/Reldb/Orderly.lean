import LsmKv.Reldb.Guarded
import LsmKv.Reldb.VersionIds
import LsmKv.Reldb.View

namespace reldb

open lsmkv (Status)
open effects (applyAll)
open Function Database

namespace Guarded

variable {node : Node}

/-- A step with no transaction under way. -/
theorem quiet (h : Guarded node) (hquiet : ∀ id txn, node.txns id = some txn → txn.finished = true) {kv' : Kv}
    {db' : Database} (hddl : db'.ddl_in_progress = false) (hts : node.db.next_ts ≤ db'.next_ts)
    (hnext : db'.next_txn_id = node.db.next_txn_id) (hpos : ∀ k head, kv'.heads k = some head → 0 < head)
    (hstamped : ∀ k head rec, kv'.heads k = some head → kv'.versions k head = some rec → rec.start_ts ≠ 0) :
    Guarded ⟨kv', db', node.txns⟩ where
  no_ddl := hddl
  ts_pos := h.ts_pos.trans_le hts
  ids := by
    intro id txn htxn
    rw [show (⟨kv', db', node.txns⟩ : Node).db.next_txn_id = node.db.next_txn_id from hnext]
    exact h.ids id txn htxn
  heads_pos := hpos
  held := by
    intro id txn htxn hopen
    rw [hquiet id txn htxn] at hopen
    cases hopen
  stamped := fun k head rec hhead hrec hzero => absurd hzero (hstamped k head rec hhead hrec)

/-- With no transaction under way all heads are stamped. -/
theorem heads_stamped (h : Guarded node) (hquiet : ∀ id txn, node.txns id = some txn → txn.finished = true) (k : RowKey)
    (head : Nat) (rec : VersionRecord) (hhead : node.kv.heads k = some head) (hrec : node.kv.versions k head = some rec) :
    rec.start_ts ≠ 0 := by
  intro hzero
  obtain ⟨id, txn, htxn, hopen, -⟩ := h.stamped k head rec hhead hrec hzero
  rw [hquiet id txn htxn] at hopen
  cases hopen

/-- Every call keeps the guard. -/
theorem step (h : Guarded node) {after : Node} {call : Call} {status : Except Status Unit} {writes : List DiskOp}
    (htraced : Traced node.db.next_version_id writes node.kv)
    (hpos : 0 < node.db.next_version_id) (hstep : node.step call = some (after, status)) : Guarded after := by
  cases h.move htraced.keyed hstep with
  | still call => exact h
  | begin_txn => exact h.begin_txn
  | rewrite hcall htxn hopen hw hrec is_delete row =>
    exact h.rewrite htraced.keyed (fun k v rec hrec => (htraced.versions k v rec hrec).1) htxn hopen hw hrec _ _
  | install hcall htxn hopen hnew hcheck is_delete row =>
    exact h.install hpos htraced.versions htraced.heads htxn hopen hnew hcheck _ _
  | abort htxn hopen hguarded hdone hother => exact hguarded
  | commit htxn hopen hguarded hother => exact hguarded

end Guarded

/-- Every head names a version, and none that is provisional. -/
structure Kv.Stamped (kv : Kv) : Prop where
  pos : ∀ k head, kv.heads k = some head → 0 < head
  start_ts : ∀ k head rec, kv.heads k = some head → kv.versions k head = some rec → rec.start_ts ≠ 0

namespace Kv.Stamped

variable {kv : Kv} {key : RowKey} {rec : VersionRecord} (h : kv.Stamped)

include h

theorem put (hrec : rec.start_ts ≠ 0) : (kv.apply (.put_version_value key rec)).Stamped := by
  refine ⟨h.pos, fun k head cur hhead hcur => ?_⟩
  rw [versions_put] at hcur
  split at hcur
  · cases hcur
    exact hrec
  · exact h.start_ts k head cur hhead hcur

theorem set_head {version_id : Nat} (hpos : 0 < version_id) (hversion : kv.versions key version_id = some rec)
    (hrec : rec.start_ts ≠ 0) : (kv.apply (.set_head key version_id)).Stamped := by
  refine ⟨fun k head hhead => ?_, fun k head cur hhead hcur => ?_⟩
  · rcases update_some_cases hhead with ⟨-, rfl⟩ | ⟨-, hold⟩
    · exact hpos
    · exact h.pos k head hold
  · rcases update_some_cases hhead with ⟨rfl, rfl⟩ | ⟨-, hold⟩
    · cases hversion.symm.trans hcur
      exact hrec
    · exact h.start_ts k head cur hold hcur

/-- The version that ALTER replaces is the one that the head names. -/
theorem rewritable {prior : VersionRecord} (hrow : Database.Rewritable kv key prior) : prior.start_ts ≠ 0 := by
  obtain ⟨head, rec, hhead, hrec, hprior⟩ := hrow.head
  have hstart := h.start_ts key head rec hhead hrec
  cases (committed_prior_stamped hstart head).symm.trans hprior
  exact hstart

end Kv.Stamped

/-- DDL leaves only stamped heads. -/
theorem Ddl.stamped (ddl : Ddl) {db : Database} {disk : Disk} (h : disk.kv.Stamped) (hts : db.next_ts ≠ 0)
    (hvid : 0 < db.next_version_id) : (applyAll disk (ddl.prog db disk).1).kv.Stamped := by
  rcases ddl.prog_cases db with ⟨s, hrun⟩ | ⟨schema, -, -, hrun⟩ | ⟨name, -, -, hrun⟩ | ⟨table, a, -, hrun⟩
  all_goals rw [hrun]
  · exact h
  · exact h
  · have hwithin := Disk.applyAll_within (fun op (hop : op ∈ drop_ops disk name) => drop_ops_removes hop) disk
    exact ⟨fun k head hhead => h.pos k head (hwithin.heads k head hhead), fun k head rec hhead hrec =>
      h.start_ts k head rec (hwithin.heads k head hhead) (hwithin.versions k head rec hrec)⟩
  · refine (@alter_table_throughout _ _ _ _ (fun _ disk => disk.kv.Stamped) []
      (fun {past disk db' pk prior row} _ hle h hrow => ?_)
      (fun _ h => ⟨h, ⟨h.pos, h.start_ts⟩, ⟨h.pos, h.start_ts⟩, h.pos, h.start_ts⟩) (fun h => h) h).last
    have hprior := h.rewritable hrow
    have hclosed : (disk.kv.apply (.put_version_value (table, pk) { prior with end_ts := db.next_ts })).Stamped :=
      h.put hprior
    have hput := @Kv.Stamped.put _ (table, pk) (rewritten db' db.next_ts prior row) hclosed hts
    exact ⟨h, hclosed, hput, hput.set_head (hvid.trans_le hle) ((Kv.versions_put ..).trans (if_pos ⟨rfl, rfl⟩)) hts⟩

namespace Server

/-- What holds of a process in every run without a crash. -/
structure Orderly (server : Server) : Prop where
  guarded : Guarded server.node
  live : ∃ writes, Live server.db.next_version_id writes server.disk
  sound : server.Sound

namespace Orderly

variable {server after : Server} {status : Except Status Unit}

theorem ddl (h : server.Orderly) {ddl : Ddl} (hstep : server.step (.ddl ddl) = some (after, status)) :
    Guarded after.node := by
  obtain ⟨writes, hlive⟩ := h.live
  obtain ⟨ops, db', status', hrun, hleaves⟩ := @Ddl.leaves server.db server.disk ddl
  obtain ⟨rfl, -⟩ := ddl_after hrun hstep
  by_cases hnone : server.db.open_txn_count = 0
  · have hquiet : ∀ id txn, server.txns id = some txn → txn.finished = true :=
      fun id txn => @Node.Counted.none_open server.node h.sound.counted hnone id txn
    have hstamped := @Ddl.stamped ddl server.db server.disk ⟨h.guarded.heads_pos, h.guarded.heads_stamped hquiet⟩
      h.guarded.ts_pos.ne' hlive.pos
    rw [hrun] at hstamped
    exact h.guarded.quiet hquiet (hleaves.ddl_in_progress.trans h.guarded.no_ddl) hleaves.next_ts hleaves.next_txn_id
      hstamped.pos hstamped.start_ts
  · obtain ⟨s, hrefused⟩ := ddl.refused hnone server.disk
    cases hrun.symm.trans hrefused
    exact h.guarded

theorem step (h : server.Orderly) {command : Command} (hstep : server.step command = some (after, status)) :
    after.Orderly := by
  obtain ⟨writes, hlive⟩ := h.live
  refine ⟨?_, ?_, h.sound.step hstep⟩
  · cases command with
    | call call =>
      obtain ⟨-, -, hnode, -⟩ := step_call hstep
      exact h.guarded.step hlive.traced hlive.pos hnode
    | ddl ddl => exact h.ddl hstep
  · obtain ⟨ops, hops, -⟩ := Option.bind_eq_some_iff.mp hstep
    obtain ⟨next_vid, hlegal, hafter⟩ := command_legal hlive hops
    obtain ⟨hdisk, hvid⟩ := hafter after status hstep
    rw [hdisk, hvid]
    exact ⟨_, hlegal.live hlive⟩

theorem opened (h : Server.opened {} = some server) : server.Orderly := by
  obtain ⟨-, hsound⟩ := Server.opened_simulates h
  cases h
  refine ⟨⟨rfl, Nat.one_pos, by rintro id txn ⟨⟩, by rintro k head ⟨⟩, by rintro id txn ⟨⟩, by rintro k head rec ⟨⟩⟩,
    ⟨[], ⟨?_, Nat.one_pos, fun _ => le_rfl⟩⟩, hsound⟩
  exact ⟨by rintro k v rec ⟨⟩, by rintro k v rec ⟨⟩, by rintro k head ⟨⟩, by rintro k rec ⟨⟩, by rintro k rec rec' ⟨⟩⟩

theorem session {commands : List Command}
    (hrun : System.run (.down {}) (Action.session commands) = some (.up server)) : server.Orderly :=
  System.run_session (I := Server.Orderly) (C := fun _ _ => true) opened (fun h _ hstep => h.step hstep)
    (System.every_true _ _) hrun

end Orderly

end Server

end reldb
