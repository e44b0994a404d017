import LsmKv.Reldb.ByteStore
import LsmKv.Reldb.Isolation
import LsmKv.Reldb.View

namespace reldb

open lsmkv (Status)
open lsmkv.encoding List Function Option Server

/-- A scan under way while clients go on with the server: the rows that its user has got
    so far, and whether it has come to its end. -/
structure Scanning where
  server : Server
  scan : TableRowScan
  rows : List (Value × Row) := []
  ended : Bool := false
  /-- The store still writes to the skip list on which the iterator of the scan has its lock. -/
  locked : Bool := true
  /-- A client has `Database::mu_` and waits in `SkipList::Insert` for that lock. -/
  blocked : Bool := false

/-- The mutex is free between two rounds of the loop in `Advance`. -/
inductive ScanEvent where
  | command (command : Command)
  | round
  /-- The store goes on with a new memtable. -/
  | rotate

namespace ScanEvent

def is_round : ScanEvent → Bool
  | .round => true
  | _ => false

def commands : ScanEvent → List Command
  | .command c => [c]
  | _ => []

end ScanEvent

def Server.writes_kv (server : Server) (command : Command) : Bool :=
  (server.ops command).any fun ops => !ops.isEmpty

/-- A round at the key comes to `GetRow`, for which it takes the mutex. -/
def TableRowScan.reaches (scan : TableRowScan) (key : RowKey) : Bool :=
  row_head_stem scan.table <+: row_head_key key && !(scan.end_key.any fun end_key => end_key ≤ row_head_key key) &&
    (decode_pk_from_key ((row_head_key key).drop (row_head_stem scan.table).length)).isOk

namespace Scanning

/-- One round. The user takes the row that `Advance` returns with and calls `Next`. -/
def round (s : Scanning) : Scanning :=
  if s.ended then s
  else
    match s.scan.keys with
    | [] => { s with ended := true }
    | key :: keys =>
      match s.scan.visit s.server.disk.kv key with
      | .row pk row => { s with scan := { s.scan with keys := keys }, rows := s.rows ++ [(pk, row)] }
      | .skip => { s with scan := { s.scan with keys := keys } }
      | .stop => { s with ended := true }
      | .fail status => { s with scan := { s.scan with status := .error status }, ended := true }

def takes_mutex (s : Scanning) : Bool := !s.ended && s.scan.keys.head?.any s.scan.reaches

/-- A command that writes while the iterator has its lock gets no further than its first
    write, and then nobody else gets the mutex. -/
def step (s : Scanning) : ScanEvent → Option Scanning
  | .command command =>
    if s.blocked then none
    else if s.locked && s.server.writes_kv command then some { s with blocked := true }
    else (s.server.step command).map fun (after, _) => { s with server := after }
  | .round => if s.blocked && s.takes_mutex then none else some s.round
  | .rotate => if s.blocked then none else some { s with locked := false }

def run : Scanning → List ScanEvent → Option Scanning
  | s, [] => some s
  | s, event :: events => (s.step event).bind fun s => run s events

def free (s : Scanning) : ScanEvent → Bool
  | .command command => !(s.locked && s.server.writes_kv command)
  | _ => true

/-- Nobody writes before the store goes on with a new memtable. -/
def undisturbed : Scanning → List ScanEvent → Bool
  | _, [] => true
  | s, event :: events => s.free event && (s.step event).all fun s => undisturbed s events

section Free

variable {s s' : Scanning}

theorem step_command {command : Command} (hblocked : s.blocked = false) (hfree : s.free (.command command) = true)
    (hstep : s.step (.command command) = some s') :
    ∃ after status, s.server.step command = some (after, status) ∧ s' = { s with server := after } := by
  have hwrites : (s.locked && s.server.writes_kv command) = false := (Bool.not_eq_true' _).mp hfree
  rw [step, if_neg (by simp [hblocked]), hwrites, if_neg Bool.false_ne_true] at hstep
  obtain ⟨⟨after, status⟩, hafter, rfl⟩ := map_eq_some_iff.mp hstep
  exact ⟨after, status, hafter, rfl⟩

theorem round_eq (s : Scanning) : s.round.blocked = s.blocked ∧ s.round.server = s.server := by
  rw [round]
  split
  · exact ⟨rfl, rfl⟩
  · split
    · exact ⟨rfl, rfl⟩
    · split <;> exact ⟨rfl, rfl⟩

theorem step_free {event : ScanEvent} (hblocked : s.blocked = false) (hfree : s.free event = true)
    (hstep : s.step event = some s') :
    s'.blocked = false ∧ System.run (.up s.server) (event.commands.map .command) = some (.up s'.server) := by
  cases event with
  | command command =>
    obtain ⟨after, status, hafter, rfl⟩ := step_command hblocked hfree hstep
    exact ⟨hblocked, by simp [ScanEvent.commands, System.run, System.step, hafter]⟩
  | round =>
    obtain rfl : s.round = s' := by simpa [step, hblocked] using hstep
    rw [(round_eq s).1, (round_eq s).2]
    exact ⟨hblocked, rfl⟩
  | rotate =>
    obtain rfl : { s with locked := false } = s' := by simpa [step, hblocked] using hstep
    exact ⟨hblocked, rfl⟩

/-- The commands of a run in which nobody is blocked. -/
theorem run_commands {events : List ScanEvent} (hblocked : s.blocked = false) (hfree : s.undisturbed events = true)
    (hrun : s.run events = some s') :
    System.run (.up s.server) ((events.flatMap ScanEvent.commands).map .command) = some (.up s'.server) := by
  induction events generalizing s with
  | nil =>
    cases hrun
    rfl
  | cons event events ih =>
    obtain ⟨next, hnext, hrest⟩ := bind_eq_some_iff.mp hrun
    simp only [undisturbed, hnext, all_some, Bool.and_eq_true] at hfree
    obtain ⟨hblocked', hfirst⟩ := step_free hblocked hfree.1 hnext
    rw [flatMap_cons, map_append, System.run_append, hfirst]
    exact ih hblocked' hfree.2 hrest

end Free

end Scanning

section Drain

variable {kv : Kv}

end Drain

section Slashes

variable {server after : Server}

/-- No table name has a slash in it. -/
def Server.Slashless (server : Server) : Prop :=
  ∀ name, (server.db.catalog name).isSome → '/' ∉ name.toList

/-- Then DROP is confined to the rows of its table. -/
theorem Server.Slashless.confined (h : server.Slashless) (command : Command) : server.confined command = true := by
  cases command with
  | call call => rfl
  | ddl ddl =>
    cases ddl with
    | create_table | alter_table_add_column | alter_table_drop_column => rfl
    | drop_table name =>
      by_cases hname : '/' ∈ name.toList
      · exact confined_drop_iff.mpr fun hcheck => absurd hname (h name (Database.check_drop_table_ok hcheck).2)
      · exact server.confined_of_no_slash hname

/-- Only CREATE adds a name. -/
theorem Server.Slashless.step (h : server.Slashless) (hin : server.InStep) {command : Command} {status : Except Status Unit}
    (hcreate : ∀ schema, command = .ddl (.create_table schema) → '/' ∉ schema.name.toList)
    (hstep : server.step command = some (after, status)) : after.Slashless := by
  obtain ⟨⟨since, log, floor, hsim, hconforms⟩, hsound⟩ := hin
  intro name hname
  cases command with
  | call call =>
    obtain ⟨-, -, hnode, -⟩ := step_call hstep
    rcases Node.step_leaves hnode with ⟨hdb, -⟩ | ⟨_, -, hleaves⟩
    · rw [show after.db = server.db from hdb] at hname
      exact h name hname
    · rw [show after.db.catalog = server.db.catalog from hleaves.catalog] at hname
      exact h name hname
  | ddl ddl =>
    rcases ddl_cases hsim hsound (h.confined _) hstep with ⟨rfl, -⟩ | ⟨-, hdone⟩
    · exact h name hname
    rcases hdone with ⟨schema, rfl, -, -, rfl, -⟩ | ⟨dropped, -, -, -, rfl, -⟩ | ⟨table, a, hddl, pks, pre, halters⟩
    · change (update server.db.catalog schema.name (some schema) name).isSome at hname
      by_cases heq : name = schema.name
      · subst heq
        exact hcreate schema rfl
      · rw [update_of_ne heq] at hname
        exact h name hname
    · change (update server.db.catalog dropped none name).isSome at hname
      by_cases heq : name = dropped
      · subst heq
        rw [update_self] at hname
        cases hname
      · rw [update_of_ne heq] at hname
        exact h name hname
    · obtain ⟨hold, hok⟩ := hddl.ok
      obtain rfl := hconforms.alter_succeeds hold hok halters
      rw [(halters.done rfl).2] at hname
      change (update server.db.catalog a.neu.name (some a.neu) name).isSome at hname
      by_cases heq : name = a.neu.name
      · subst heq
        rw [hok.name, hconforms.named table a.old hold]
        exact h table (by rw [show server.db.catalog table = _ from hold]; rfl)
      · rw [update_of_ne heq] at hname
        exact h name hname

end Slashes

section Keys

variable {server : Server} {table : String} {start_pk end_pk : Option Value}

/-- Whether `Advance` goes on at a key. -/
def Covers (table : String) (end_pk : Option Value) (key : RowKey) : Bool :=
  decide (row_head_stem table <+: row_head_key key) &&
    !((end_pk.map fun pk => row_head_key (table, pk)).any fun end_key => end_key ≤ row_head_key key)

/-- The row heads that a scan is to look at, in key order. -/
def Server.covered (server : Server) (table : String) (start_pk end_pk : Option Value) : List RowKey :=
  (server.disk.seek_heads (scan_target table start_pk) []).takeWhile (Covers table end_pk)

end Keys

section Agreement

variable {id : Nat} {txn : Transaction} {view : RowKey → Option Row} {table : String} {end_pk : Option Value}
  {covered rest : List RowKey} {s s' : Scanning} {rounds : Nat}

/-- What a user is to get for a key. -/
def shown_row (view : RowKey → Option Row) (k : RowKey) : Option (Value × Row) := (view k).map fun row => (k.2, row)

/-- A scan on its way through the keys that it covers, after some rounds. -/
structure Scanning.OnTrack (s : Scanning) (id : Nat) (txn : Transaction) (view : RowKey → Option Row) (table : String)
    (end_pk : Option Value) (covered rest : List RowKey) (rounds : Nat) : Prop where
  unblocked : s.blocked = false
  sees : s.server.Sees id txn view
  table_eq : s.scan.table = table
  txn_id : s.scan.txn_id = txn.txn_id
  start_ts : s.scan.start_ts = txn.start_ts
  end_key : s.scan.end_key = end_pk.map fun pk => row_head_key (table, pk)
  status : s.scan.status = .ok ()
  going : s.ended = false → ∃ seen todo, covered = seen ++ todo ∧ s.scan.keys = todo ++ rest ∧
    s.rows = seen.filterMap (shown_row view) ∧ seen.length = rounds
  done : s.ended = true → s.rows = covered.filterMap (shown_row view)

namespace Scanning.OnTrack

/-- At a key that it covers a round finds what the transaction sees. -/
theorem visit_covered (h : s.OnTrack id txn view table end_pk covered rest rounds) {k : RowKey} (htable : k.1 = table)
    (hcovers : Covers table end_pk k = true) (hfits : k.2.fits = true) :
    s.scan.visit s.server.disk.kv k = Visit.of_value k.2 (view k) := by
  simp only [Covers, Bool.and_eq_true, Bool.not_eq_true'] at hcovers
  refine TableRowScan.visit_eq (h.table_eq.trans htable.symm) ?_ hfits ?_
  · rw [h.end_key]
    exact hcovers.2
  · rw [h.start_ts, h.txn_id]
    exact h.sees.get_row k

/-- At the first key that it does not cover it stops. -/
theorem visit_rest (h : s.OnTrack id txn view table end_pk covered rest rounds) {k : RowKey}
    (hcovers : Covers table end_pk k = false) : s.scan.visit s.server.disk.kv k = .stop := by
  rw [TableRowScan.visit, h.table_eq, h.end_key]
  by_cases hstem : row_head_stem table <+: row_head_key k
  · rw [if_neg (not_not.mpr hstem)]
    refine if_pos ?_
    simpa [Covers, hstem] using hcovers
  · exact if_pos hstem

section

variable (h : s.OnTrack id txn view table end_pk covered rest rounds)
  (hcovered : ∀ k ∈ covered, k.1 = table ∧ Covers table end_pk k = true ∧ k.2.fits = true)
  (hrest : ∀ k ∈ rest.head?, Covers table end_pk k = false)

include h hcovered hrest

/-- One event of a run in which the transaction makes no call and nobody is blocked. -/
theorem step {event : ScanEvent} (hfree : s.free event = true)
    (hother : ∀ command, event = .command command → command.txn ≠ some id) (hstep : s.step event = some s') :
    s'.OnTrack id txn view table end_pk covered rest (rounds + if event.is_round then 1 else 0) := by
  cases event with
  | command command =>
    obtain ⟨after, status, hafter, rfl⟩ := step_command h.unblocked hfree hstep
    exact { h with sees := h.sees.step (hother command rfl) hafter }
  | rotate =>
    obtain rfl : { s with locked := false } = s' := by simpa [Scanning.step, h.unblocked] using hstep
    exact { h with }
  | round =>
    obtain rfl : s.round = s' := by simpa [Scanning.step, h.unblocked] using hstep
    rw [Scanning.round]
    cases hended : s.ended with
    | true =>
      rw [if_pos rfl]
      exact { h with going := fun hgoing => absurd (hended.symm.trans hgoing) (by simp) }
    | false =>
      rw [if_neg Bool.false_ne_true]
      obtain ⟨seen, todo, hsplit, hkeys, hrows, hlength⟩ := h.going hended
      cases todo with
      | nil =>
        rw [append_nil] at hsplit
        have hdone : s.rows = covered.filterMap (shown_row view) := hsplit ▸ hrows
        cases rest with
        | nil =>
          rw [hkeys]
          exact { h with going := by simp, done := fun _ => hdone }
        | cons k rest =>
          rw [hkeys]
          dsimp only [nil_append]
          rw [h.visit_rest (hrest k rfl)]
          exact { h with going := by simp, done := fun _ => hdone }
      | cons k todo =>
        obtain ⟨htable, hcovers, hfits⟩ := hcovered k (by rw [hsplit]; simp)
        rw [hkeys]
        dsimp only [cons_append]
        rw [h.visit_covered htable hcovers hfits]
        have hseen : covered = (seen ++ [k]) ++ todo := by rw [hsplit]; simp
        have hmore : (seen ++ [k]).filterMap (shown_row view) = s.rows ++ (shown_row view k).toList := by
          rw [filterMap_append, hrows]
          cases hshown : shown_row view k <;> simp [hshown]
        rw [shown_row] at hmore
        cases hview : view k with
        | none =>
          rw [hview] at hmore
          refine { h with
            going := fun _ => ⟨seen ++ [k], todo, hseen, rfl, ?_, by simp [hlength, ScanEvent.is_round]⟩, done := ?_ }
          · rw [hmore]
            exact (append_nil _).symm
          · rintro ⟨⟩
        | some row =>
          rw [hview] at hmore
          refine { h with
            going := fun _ => ⟨seen ++ [k], todo, hseen, rfl, ?_, by simp [hlength, ScanEvent.is_round]⟩, done := ?_ }
          · rw [hmore]
            rfl
          · rintro ⟨⟩

theorem run {events : List ScanEvent} (hfree : s.undisturbed events = true)
    (hother : ∀ command, .command command ∈ events → command.txn ≠ some id) (hrun : s.run events = some s') :
    s'.OnTrack id txn view table end_pk covered rest (rounds + events.countP ScanEvent.is_round) := by
  induction events generalizing s rounds with
  | nil =>
    cases hrun
    exact h
  | cons event events ih =>
    obtain ⟨next, hnext, hrest'⟩ := bind_eq_some_iff.mp hrun
    simp only [undisturbed, hnext, all_some, Bool.and_eq_true] at hfree
    have hfirst := h.step hcovered hrest hfree.1 (fun command heq => hother command (by rw [heq]; simp)) hnext
    have hdone := ih hfirst hfree.2 (fun command hmem => hother command (mem_cons_of_mem _ hmem)) hrest'
    rw [countP_cons, Nat.add_comm (List.countP _ _), ← Nat.add_assoc]
    exact hdone

end

/-- A user who goes on long enough comes to the end. -/
theorem ended (h : s.OnTrack id txn view table end_pk covered rest rounds) (hlt : covered.length < rounds) :
    s.ended = true := by
  cases hended : s.ended with
  | true => rfl
  | false =>
    obtain ⟨seen, todo, rfl, -, -, hlength⟩ := h.going hended
    rw [length_append] at hlt
    omega

end Scanning.OnTrack

end Agreement

end reldb
