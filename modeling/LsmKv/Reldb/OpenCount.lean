import Mathlib.Data.Set.Card
import LsmKv.Reldb.ByteStore
import LsmKv.Reldb.Failures
import LsmKv.Reldb.OpenTxns
import LsmKv.Reldb.View

namespace reldb

open lsmkv (Status)
open effects (applyAll)
open failing (Plan never)
open failing.Act (Keeps)
open List Function Option Database ServerAct

namespace Kv

/-- No single write takes a version away. -/
theorem apply_versions_isSome {kv : Kv} {key : RowKey} {id : Nat} (h : (kv.versions key id).isSome) (op : KvOp) :
    ((kv.apply op).versions key id).isSome := by
  cases op with
  | put_version_value k rec =>
    simp only [apply, update_apply]
    by_cases hkey : key = k
    · subst hkey
      by_cases hid : id = rec.version_id <;> simp [hid, h]
    · simp [hkey, h]
  | _ => exact h

theorem applyAll_versions_isSome {kv : Kv} {key : RowKey} {id : Nat} (h : (kv.versions key id).isSome) (ops : List KvOp) :
    ((applyAll kv ops).versions key id).isSome := by
  induction ops generalizing kv with
  | nil => exact h
  | cons op ops ih => exact ih (apply_versions_isSome h op)

end Kv

/-- Heads go back as long as the versions written are there. -/
theorem Database.restore_heads_ok {writes : List TxnWrite} {kv : Kv}
    (h : ∀ w ∈ writes, (kv.versions w.key w.version_id).isSome) : (restore_heads writes kv).2 = .ok () := by
  have hloop : ∀ (ws : List TxnWrite) (kv : Kv), (∀ w ∈ ws, (kv.versions w.key w.version_id).isSome) →
      (effects.Prog.forEach restore_head ws kv).2 = .ok () := by
    intro ws
    induction ws with
    | nil => exact fun _ _ => rfl
    | cons w ws ih =>
      intro kv h
      have hrun := restore_head_run fun _ => isSome_iff_exists.mp (h w (mem_cons_self ..))
      rw [effects.Prog.forEach_cons ws hrun]
      exact ih _ fun w' hw' => Kv.applyAll_versions_isSome (h w' (mem_cons_of_mem _ hw')) _
  exact hloop _ kv fun w hw => h w (mem_reverse.mp hw)

namespace Server

/-- The transactions go on as they are, while counters move and versions are written. -/
structure Still (server after : Server) : Prop where
  txns : after.txns = server.txns
  open_txn_count : after.db.open_txn_count = server.db.open_txn_count
  ddl_in_progress : after.db.ddl_in_progress = server.db.ddl_in_progress
  next_txn_id : server.db.next_txn_id ≤ after.db.next_txn_id
  versions : ∀ key id, (server.disk.kv.versions key id).isSome → (after.disk.kv.versions key id).isSome

variable {server mid after : Server} {plan : Plan Status} {txn : Transaction} {n : Nat}

theorem Still.refl (server : Server) : Still server server := ⟨rfl, rfl, rfl, le_rfl, fun _ _ h => h⟩

theorem Still.trans (h : Still server mid) (h' : Still mid after) : Still server after where
  txns := h'.txns.trans h.txns
  open_txn_count := h'.open_txn_count.trans h.open_txn_count
  ddl_in_progress := h'.ddl_in_progress.trans h.ddl_in_progress
  next_txn_id := h.next_txn_id.trans h'.next_txn_id
  versions key id hsome := h'.versions key id (h.versions key id hsome)

theorem still_apply (server : Server) (op : KvOp) : Still server (server.apply op) :=
  ⟨rfl, rfl, rfl, le_rfl, fun _ _ h => Kv.apply_versions_isSome h op⟩

end Server

namespace ServerAct

open Server (Still)

variable {α : Type} {txn : Transaction}

theorem put_keeps (op : KvOp) : Keeps Still (put op) := Keeps.operate Still.refl fun server => server.still_apply op

theorem enact_keeps (p : KvProg α) : Keeps Still (enact p) := by
  refine Keeps.bind (fun _ _ _ => Still.trans) (Keeps.view Still.refl _) fun r => ?_
  refine Keeps.bind (fun _ _ _ => Still.trans) (Keeps.operateAll Still.refl (fun _ _ _ => Still.trans) ?_) fun _ =>
    Keeps.ofExcept Still.refl _
  intro f hf server
  obtain ⟨op, -, rfl⟩ := List.mem_map.mp hf
  exact server.still_apply op

theorem persist_oracles_keeps : Keeps Still persist_oracles :=
  Keeps.bind (fun _ _ _ => Still.trans) (Keeps.view Still.refl _) fun db => enact_keeps db.persist_oracles

/-- The transaction is marked finished and no longer counted. -/
def finish (server : Server) (txn : Transaction) : Server :=
  { server.set_txn { txn with finished := true } with
    db := { server.db with open_txn_count := server.db.open_txn_count - 1 } }

/-- `Begin` adds a transaction as its last step. -/
theorem begin_txn_cases (plan : Plan Status) (server : Server) (n : Nat) :
    Still server (begin_txn plan server n).state ∨
      ∃ mid start_ts, Still server mid ∧ server.db.next_txn_id < mid.db.next_txn_id ∧
        (begin_txn plan server n).state =
          { mid.set_txn { txn_id := server.db.next_txn_id, start_ts := start_ts } with
            db := { mid.db with open_txn_count := mid.db.open_txn_count + 1 } } := by
  rw [begin_txn, failing.Act.view_bind]
  split
  · exact .inl (Still.refl server)
  rw [change_db, failing.Act.change_bind]
  let drawn : Server := { server with db := { server.db with next_txn_id := server.db.next_txn_id + 1 } }
  have hdrawn : Still server drawn := ⟨rfl, rfl, rfl, Nat.le_succ _, fun _ _ h => h⟩
  obtain ⟨mid, n', hmid, ⟨e, hrun⟩ | ⟨_, hrun⟩⟩ := persist_oracles_keeps.cases _ plan drawn n
  · exact .inl (by rw [hrun]; exact hdrawn.trans hmid)
  rw [hrun]
  obtain ⟨mid', n'', hmid', ⟨e, hrun⟩ | ⟨_, hrun⟩⟩ := (put_keeps _).cases _ plan mid n'
  · exact .inl (by rw [hrun]; exact hdrawn.trans (hmid.trans hmid'))
  rw [hrun]
  exact .inr ⟨mid', _, hdrawn.trans (hmid.trans hmid'), Nat.lt_of_succ_le (hmid.trans hmid').next_txn_id, rfl⟩

theorem install_cases (txn : Transaction) (key : RowKey) (prev_id : Nat) (is_delete : Bool) (row : Row)
    (plan : Plan Status) (server : Server) (n : Nat) :
    Still server (install txn key prev_id is_delete row plan server n).state ∨
      ∃ mid w, Still server mid ∧ (mid.disk.kv.versions w.key w.version_id).isSome ∧
        Still (mid.set_txn { txn with written := txn.written ++ [w] })
          (install txn key prev_id is_delete row plan server n).state := by
  rw [install, failing.Act.view_bind, change_db, failing.Act.change_bind]
  let drawn : Server := { server with db := { server.db with next_version_id := server.db.next_version_id + 1 } }
  have hdrawn : Still server drawn := ⟨rfl, rfl, rfl, le_rfl, fun _ _ h => h⟩
  obtain ⟨mid, n', hmid, ⟨e, hrun⟩ | ⟨_, hrun⟩⟩ := persist_oracles_keeps.cases _ plan drawn n
  · exact .inl (by rw [hrun]; exact hdrawn.trans hmid)
  rw [hrun]
  cases hplan : plan n' with
  | some e =>
    rw [failing.Act.bind_error (put_error hplan _)]
    exact .inl (hdrawn.trans hmid)
  | none =>
    rw [failing.Act.bind_ok (put_ok hplan _)]
    obtain ⟨mid', n'', hmid', ⟨e, hrun⟩ | ⟨_, hrun⟩⟩ := (put_keeps _).cases _ plan (mid.apply _) (n' + 1)
    · exact .inl (by rw [hrun]; exact hdrawn.trans (hmid.trans ((mid.still_apply _).trans hmid')))
    rw [hrun]
    refine .inr ⟨mid', ⟨key.1, key.2, server.db.next_version_id⟩,
      hdrawn.trans (hmid.trans ((mid.still_apply _).trans hmid')), hmid'.versions _ _ ?_, put_keeps _ plan _ n''⟩
    simp [Server.apply, Disk.apply, Kv.apply, TxnWrite.key]

/-- A write adds one to the list of the transaction, once its version is there. -/
theorem write_cases (txn : Transaction) (key : RowKey) (is_delete : Bool) (row : Row) (is_insert : Bool)
    (plan : Plan Status) (server : Server) (n : Nat) :
    Still server (write txn key is_delete row is_insert plan server n).state ∨
      ∃ mid w, Still server mid ∧ txn.finished = false ∧ (mid.disk.kv.versions w.key w.version_id).isSome ∧
        Still (mid.set_txn { txn with written := txn.written ++ [w] })
          (write txn key is_delete row is_insert plan server n).state := by
  rw [write]
  split
  · exact .inl (Still.refl server)
  next hopen =>
  cases txn.written.find? fun w => w.key = key with
  | some w => exact .inl (enact_keeps _ plan server n)
  | none =>
    dsimp only
    obtain ⟨mid, n', hmid, ⟨e, hrun⟩ | ⟨prev_id, hrun⟩⟩ := (Keeps.inquire Still.refl _).cases _ plan server n
    · exact .inl (by rw [read, hrun]; exact hmid)
    rw [read, hrun]
    rcases install_cases txn key prev_id is_delete row plan mid n' with hstill | ⟨mid', w, hmid', hversion, hafter⟩
    · exact .inl (hmid.trans hstill)
    · exact .inr ⟨mid', w, hmid.trans hmid', by simpa using hopen, hversion, hafter⟩

/-- An act that ends with the mark of the transaction, or before it. -/
def Ends (txn : Transaction) (p : ServerAct α) : Prop :=
  ∀ plan server n, Still server (p plan server n).state ∨
    ∃ mid, Still server mid ∧ (p plan server n).state = finish mid txn

theorem mark_ends (txn : Transaction) : Ends txn (mark_txn_finished txn) :=
  fun _ server _ => .inr ⟨server, Still.refl server, rfl⟩

theorem Ends.after {p : ServerAct α} (hp : Keeps Still p) {β : Type} {f : α → ServerAct β} (hf : ∀ a, Ends txn (f a)) :
    Ends txn (p >>= f) := by
  intro plan server n
  obtain ⟨mid, n', hmid, ⟨e, hrun⟩ | ⟨a, hrun⟩⟩ := hp.cases f plan server n
  · rw [hrun]
    exact .inl hmid
  · rw [hrun]
    rcases hf a plan mid n' with hstill | ⟨mid', hmid', hend⟩
    · exact .inl (hmid.trans hstill)
    · exact .inr ⟨mid', hmid.trans hmid', hend⟩

theorem roll_back_ends (txn : Transaction) : Ends txn (roll_back txn) :=
  Ends.after (enact_keeps _) fun _ => Ends.after (put_keeps _) fun _ => mark_ends txn

theorem commit_writes_ends (txn : Transaction) : Ends txn (commit_writes txn) := by
  have hdraw : Keeps Still (change_db fun db => { db with next_ts := db.next_ts + 1 }) :=
    Keeps.change fun _ => ⟨rfl, rfl, rfl, le_rfl, fun _ _ h => h⟩
  refine Ends.after (Keeps.view Still.refl _) fun db => Ends.after hdraw fun _ => Ends.after (put_keeps _) fun _ => ?_
  exact Ends.after (enact_keeps _) fun _ => Ends.after (put_keeps _) fun _ =>
    Ends.after persist_oracles_keeps fun _ => mark_ends txn

theorem commit_ends (hopen : txn.finished = false) : Ends txn (commit txn) := by
  rw [commit, if_neg (by simp [hopen])]
  refine Ends.after (Keeps.inquire Still.refl _) fun conflict? => ?_
  cases conflict? with
  | none => exact commit_writes_ends txn
  | some conflict =>
    intro plan server n
    dsimp only
    rw [failing.Act.bind_fail_state]
    exact roll_back_ends txn plan server n

/-- A roll-back on a store that serves all its operations. -/
theorem roll_back_served {server : Server} {plan : Plan Status}
    (hok : (restore_heads txn.written server.disk.kv).2 = .ok ())
    (hserved : ∀ i ≤ (restore_heads txn.written server.disk.kv).1.length, plan i = none) :
    ∃ mid, Still server mid ∧ (roll_back txn plan server 0).state = finish mid txn := by
  have henact := @enact_served _ server plan 0 (restore_heads txn.written)
    fun i hi => by rw [Nat.zero_add]; exact hserved i hi.le
  have hput : plan (0 + (restore_heads txn.written server.disk.kv).1.length) = none := by
    rw [Nat.zero_add]
    exact hserved _ le_rfl
  have hstill := enact_keeps (restore_heads txn.written) plan server 0
  rw [hok] at henact
  rw [henact] at hstill
  rw [roll_back, failing.Act.bind_ok henact, failing.Act.bind_ok (put_ok hput _)]
  exact ⟨_, hstill.trans (Server.still_apply _ _), rfl⟩

/-- A roll-back that a failure ends. -/
theorem roll_back_interrupted {server : Server} {plan : Plan Status}
    (hfail : ∃ i ≤ (restore_heads txn.written server.disk.kv).1.length, plan i ≠ none) :
    Still server (roll_back txn plan server 0).state := by
  have hstill := enact_keeps (restore_heads txn.written) plan server 0
  rw [roll_back]
  by_cases hheads : ∃ i < (restore_heads txn.written server.disk.kv).1.length, plan (0 + i) ≠ none
  · obtain ⟨i, e, hrun⟩ := enact_interrupted hheads
    rw [hrun] at hstill
    rw [failing.Act.bind_error hrun]
    exact hstill
  · have hserved : ∀ i < (restore_heads txn.written server.disk.kv).1.length, plan (0 + i) = none :=
      fun i hi => by_contra fun hne => hheads ⟨i, hi, hne⟩
    have henact := enact_served hserved
    rw [henact] at hstill
    cases hresult : (restore_heads txn.written server.disk.kv).2 with
    | error s =>
      rw [hresult] at henact
      rw [failing.Act.bind_error henact]
      exact hstill
    | ok u =>
      rw [hresult] at henact
      obtain ⟨i, hi, hne⟩ := hfail
      have hlast : i = (restore_heads txn.written server.disk.kv).1.length :=
        le_antisymm hi (Nat.le_of_not_lt fun hlt => hne (by rw [← Nat.zero_add i]; exact hserved i hlt))
      obtain ⟨e, he⟩ := ne_none_iff_exists'.mp hne
      rw [hlast, ← Nat.zero_add (List.length _)] at he
      rw [failing.Act.bind_ok henact, failing.Act.bind_error (put_error he _)]
      exact hstill

end ServerAct

/-- What can happen to a process while its store fails now and then. -/
inductive ServerEvent where
  | call (call : Call) (plan : Plan Status)
  | destroy (id : Nat) (plan : Plan Status)
  | ddl (ddl : Ddl)

namespace Server

/-- The destructor aborts a transaction that is not finished, and drops the status. -/
def destroy (server : Server) (id : Nat) (txn : Transaction) (plan : Plan Status) : Server :=
  let after := (ServerAct.abort txn plan server 0).state
  { after with txns := update after.txns id none }

def happen (server : Server) : ServerEvent → Option Server
  | .call call plan => (server.act call).map fun p => (p plan server 0).state
  | .destroy id plan => (server.txns id).map fun txn => server.destroy id txn plan
  | .ddl ddl => (server.step (.ddl ddl)).map Prod.fst

def live : Server → List ServerEvent → Option Server
  | server, [] => some server
  | server, event :: events => (server.happen event).bind fun after => live after events

/-- The transaction objects that exist and are not finished. -/
def under_way (server : Server) : Set Nat := { id | ∃ txn, server.txns id = some txn ∧ txn.finished = false }

def CountExact (server : Server) : Prop := server.db.open_txn_count = server.under_way.ncard

/-- The store serves the operations of the `Abort` that a destructor runs: the moves of
    the heads and the mark. -/
def Served (server : Server) : ServerEvent → Prop
  | .destroy id plan => ∀ txn, server.txns id = some txn → txn.finished = false →
      ∀ i ≤ (restore_heads txn.written server.disk.kv).1.length, plan i = none
  | _ => True

def AllServed : Server → List ServerEvent → Prop
  | _, [] => True
  | server, event :: events => server.Served event ∧ ∀ after, server.happen event = some after → after.AllServed events

/-- What an event makes of the store is made by writes that fit. -/
def AllFit : Server → List ServerEvent → Prop
  | _, [] => True
  | server, event :: events => ∀ after, server.happen event = some after →
    (∃ ops, after.disk = applyAll server.disk ops ∧ ops.all DiskOp.fits = true) ∧ after.AllFit events

theorem AllFit.held {server : Server} {events : List ServerEvent} (h : server.AllFit events) {store : ByteStore}
    (hheld : server.disk.HeldIn store) {last : Server} (hlive : server.live events = some last) :
    ∃ ops, last.disk = applyAll server.disk ops ∧ last.disk.HeldIn (applyAll store (ops.map DiskOp.entry)) := by
  induction events generalizing server store with
  | nil =>
    cases hlive
    exact ⟨[], rfl, hheld⟩
  | cons event events ih =>
    obtain ⟨after, hafter, hlive⟩ := bind_eq_some_iff.mp hlive
    obtain ⟨⟨ops, hdisk, hops⟩, hrest⟩ := h after hafter
    obtain ⟨later, hlast, hlater⟩ := ih hrest (hdisk ▸ hheld.apply hops) hlive
    refine ⟨ops ++ later, by rw [hlast, hdisk, effects.applyAll_append], ?_⟩
    rw [map_append, effects.applyAll_append]
    exact hlater

/-- What holds whatever fails: the count is that of the transactions under way and of
    those that are gone without having been finished. -/
structure Tracked (server : Server) (lost : Nat) : Prop where
  ids : ∀ id txn, server.txns id = some txn → txn.txn_id = id ∧ id < server.db.next_txn_id
  held : ∀ id txn, server.txns id = some txn → txn.finished = false →
    ∀ w ∈ txn.written, (server.disk.kv.versions w.key w.version_id).isSome
  ddl_in_progress : server.db.ddl_in_progress = false
  count : server.db.open_txn_count = server.under_way.ncard + lost

variable {server mid after : Server} {id lost : Nat} {txn : Transaction}

theorem Tracked.finite (h : server.Tracked lost) : server.under_way.Finite := by
  refine (Set.finite_Iio server.db.next_txn_id).subset ?_
  rintro id ⟨txn, htxn, -⟩
  exact (h.ids id txn htxn).2

theorem under_way_set_txn_open (server : Server) (hopen : txn.finished = false) :
    (server.set_txn txn).under_way = insert txn.txn_id server.under_way := by
  ext id
  simp only [under_way, set_txn, update_apply, Set.mem_ofPred_eq, Set.mem_insert_iff]
  by_cases heq : id = txn.txn_id <;> simp [heq, hopen]

theorem under_way_set_txn_finished (server : Server) (hfinished : txn.finished = true) :
    (server.set_txn txn).under_way = server.under_way \ {txn.txn_id} := by
  ext id
  simp only [under_way, set_txn, update_apply, Set.mem_ofPred_eq, Set.mem_sdiff, Set.mem_singleton_iff]
  by_cases heq : id = txn.txn_id <;> simp [heq, hfinished]

theorem Tracked.still (h : server.Tracked lost) (hstill : Still server after) : after.Tracked lost where
  ids id txn htxn := by
    rw [hstill.txns] at htxn
    exact ⟨(h.ids id txn htxn).1, (h.ids id txn htxn).2.trans_le hstill.next_txn_id⟩
  held id txn htxn hopen w hw := by
    rw [hstill.txns] at htxn
    exact hstill.versions _ _ (h.held id txn htxn hopen w hw)
  ddl_in_progress := hstill.ddl_in_progress.trans h.ddl_in_progress
  count := by
    rw [hstill.open_txn_count, h.count, under_way, under_way, hstill.txns]

/-- A transaction is new or changed, and the count follows. -/
theorem Tracked.set_txn (h : mid.Tracked lost) {count : Nat} (hid : txn.txn_id < mid.db.next_txn_id)
    (hheld : txn.finished = false → ∀ w ∈ txn.written, (mid.disk.kv.versions w.key w.version_id).isSome)
    (hcount : count = (mid.set_txn txn).under_way.ncard + lost) :
    Tracked { mid.set_txn txn with db := { mid.db with open_txn_count := count } } lost where
  ids id' txn' htxn' := by
    rcases update_some_cases htxn' with ⟨rfl, rfl⟩ | ⟨-, hold⟩
    · exact ⟨rfl, hid⟩
    · exact h.ids id' txn' hold
  held id' txn' htxn' := by
    rcases update_some_cases htxn' with ⟨rfl, rfl⟩ | ⟨-, hold⟩
    · exact hheld
    · exact h.held id' txn' hold
  ddl_in_progress := h.ddl_in_progress
  count := hcount

/-- A transaction with a new id. -/
theorem Tracked.begin_txn (h : mid.Tracked lost) (hnew : mid.txns id = none) (hid : id < mid.db.next_txn_id)
    (start_ts : Nat) :
    Tracked { mid.set_txn { txn_id := id, start_ts := start_ts } with
      db := { mid.db with open_txn_count := mid.db.open_txn_count + 1 } } lost := by
  have hout : id ∉ mid.under_way := by
    rintro ⟨txn, htxn, -⟩
    rw [hnew] at htxn
    cases htxn
  have hset : (mid.set_txn { txn_id := id, start_ts := start_ts }).under_way = insert id mid.under_way :=
    under_way_set_txn_open mid rfl
  refine h.set_txn hid (by rintro - w ⟨⟩) ?_
  rw [hset, Set.ncard_insert_of_notMem hout h.finite, h.count, Nat.add_right_comm]

section

variable (h : mid.Tracked lost) (htxn : mid.txns id = some txn) (hopen : txn.finished = false)

include h htxn hopen

theorem Tracked.mem_under_way : txn.txn_id ∈ mid.under_way ∧ txn.txn_id < mid.db.next_txn_id := by
  obtain ⟨heq, hlt⟩ := h.ids id txn htxn
  rw [heq]
  exact ⟨⟨txn, htxn, hopen⟩, hlt⟩

/-- A transaction under way writes one more version. -/
theorem Tracked.written {w : TxnWrite} (hversion : (mid.disk.kv.versions w.key w.version_id).isSome) :
    (mid.set_txn { txn with written := txn.written ++ [w] }).Tracked lost := by
  obtain ⟨hmem, hlt⟩ := h.mem_under_way htxn hopen
  have hopen' : ({ txn with written := txn.written ++ [w] } : Transaction).finished = false := hopen
  refine @set_txn mid lost _ h mid.db.open_txn_count hlt (fun _ w' hw' => ?_) ?_
  · rcases mem_append.mp hw' with hw' | hw'
    · exact h.held id txn htxn hopen w' hw'
    · obtain rfl := mem_singleton.mp hw'
      exact hversion
  · rw [under_way_set_txn_open mid hopen', Set.insert_eq_of_mem hmem]
    exact h.count

/-- A transaction under way is marked finished. -/
theorem Tracked.finish : (ServerAct.finish mid txn).Tracked lost := by
  obtain ⟨hmem, hlt⟩ := h.mem_under_way htxn hopen
  have hset : (mid.set_txn { txn with finished := true }).under_way = mid.under_way \ {txn.txn_id} :=
    under_way_set_txn_finished mid rfl
  have hcard := Set.ncard_sdiff_singleton_add_one hmem h.finite
  refine h.set_txn hlt (by rintro ⟨⟩) ?_
  rw [hset, h.count]
  omega

end

def forget (server : Server) (id : Nat) : Server := { server with txns := update server.txns id none }

section

variable (h : server.Tracked lost) (htxn : server.txns id = some txn)

include h htxn

/-- An object is gone: it was finished, or it stays counted. -/
theorem Tracked.forget :
    (server.forget id).Tracked (if txn.finished then lost else lost + 1) := by
  have hold : ∀ {id' txn'}, (server.forget id).txns id' = some txn' → id' ≠ id ∧ server.txns id' = some txn' := by
    intro id' txn' htxn'
    by_cases heq : id' = id
    · subst heq
      simp [Server.forget] at htxn'
    · exact ⟨heq, by simpa [Server.forget, heq] using htxn'⟩
  have hset : (server.forget id).under_way = server.under_way \ {id} := by
    ext id'
    simp only [under_way, Server.forget, update_apply, Set.mem_ofPred_eq, Set.mem_sdiff, Set.mem_singleton_iff]
    by_cases heq : id' = id <;> simp [heq]
  refine ⟨fun id' txn' h' => h.ids id' txn' (hold h').2, fun id' txn' h' => h.held id' txn' (hold h').2,
    h.ddl_in_progress, ?_⟩
  rw [hset]
  show server.db.open_txn_count = _
  cases hfinished : txn.finished with
  | true =>
    have hout : id ∉ server.under_way := by
      rintro ⟨txn', htxn', hopen⟩
      rw [htxn] at htxn'
      cases htxn'
      rw [hfinished] at hopen
      cases hopen
    rw [Set.sdiff_singleton_eq_self hout]
    exact h.count
  | false =>
    have hcard := Set.ncard_sdiff_singleton_add_one (show id ∈ server.under_way from ⟨txn, htxn, hfinished⟩) h.finite
    rw [h.count, if_neg (by simp)]
    omega

theorem Tracked.write (key : RowKey) (is_delete : Bool) (row : Row) (is_insert : Bool) (plan : Plan Status) (n : Nat) :
    (ServerAct.write txn key is_delete row is_insert plan server n).state.Tracked lost := by
  rcases write_cases txn key is_delete row is_insert plan server n with
    hstill | ⟨mid, w, hmid, hopen, hversion, hafter⟩
  · exact h.still hstill
  · exact ((h.still hmid).written (by rw [hmid.txns]; exact htxn) hopen hversion).still hafter

theorem Tracked.row_call (key? : Server → Except Status RowKey) (is_delete : Bool) (row : Row) (is_insert : Bool)
    (plan : Plan Status) (n : Nat) :
    ((do
      let key ← failing.Act.inquire key?
      ServerAct.write txn key is_delete row is_insert : ServerAct Unit) plan server n).state.Tracked lost := by
  obtain ⟨mid, n', hmid, ⟨e, hrun⟩ | ⟨key, hrun⟩⟩ := (Keeps.inquire Still.refl key?).cases
    (fun key => ServerAct.write txn key is_delete row is_insert) plan server n
  · rw [hrun]
    exact h.still hmid
  · rw [hrun]
    exact (h.still hmid).write (by rw [hmid.txns]; exact htxn) key is_delete row is_insert plan n'

theorem Tracked.ends (hopen : txn.finished = false) {p : ServerAct Unit} (hp : ServerAct.Ends txn p)
    (plan : Plan Status) (n : Nat) :
    (p plan server n).state.Tracked lost := by
  rcases hp plan server n with hstill | ⟨mid, hmid, hend⟩
  · exact h.still hstill
  · rw [hend]
    exact (h.still hmid).finish (by rw [hmid.txns]; exact htxn) hopen

end

theorem Tracked.call (h : server.Tracked lost) {call : Call} {p : ServerAct Unit} (hact : server.act call = some p)
    (plan : Plan Status) : (p plan server 0).state.Tracked lost := by
  cases call with
  | begin_txn =>
    cases hact
    rcases begin_txn_cases plan server 0 with hstill | ⟨mid, start_ts, hmid, hid, hbegun⟩
    · exact h.still hstill
    · rw [hbegun]
      refine (h.still hmid).begin_txn ?_ hid start_ts
      rw [hmid.txns]
      by_contra hold
      obtain ⟨txn, htxn⟩ := ne_none_iff_exists'.mp hold
      exact (h.ids _ txn htxn).2.false
  | insert id table row =>
    obtain ⟨txn, htxn, rfl⟩ := map_eq_some_iff.mp hact
    exact h.row_call htxn _ false row true plan 0
  | update id table row =>
    obtain ⟨txn, htxn, rfl⟩ := map_eq_some_iff.mp hact
    exact h.row_call htxn _ false row false plan 0
  | delete id table pk =>
    obtain ⟨txn, htxn, rfl⟩ := map_eq_some_iff.mp hact
    exact h.row_call htxn _ true [] false plan 0
  | commit id =>
    obtain ⟨txn, htxn, rfl⟩ := map_eq_some_iff.mp hact
    cases hopen : txn.finished with
    | false => exact h.ends htxn hopen (commit_ends hopen) plan 0
    | true =>
      rw [ServerAct.commit, if_pos hopen]
      exact h
  | abort id =>
    obtain ⟨txn, htxn, rfl⟩ := map_eq_some_iff.mp hact
    rw [ServerAct.abort]
    split
    · exact h
    · next hopen => exact h.ends htxn (by simpa using hopen) (roll_back_ends txn) plan 0

/-- DDL that is let in finds no transaction under way. -/
theorem Tracked.ddl (h : server.Tracked lost) {ddl : Ddl} {status : Except Status Unit}
    (hstep : server.step (.ddl ddl) = some (after, status)) : after.Tracked lost := by
  obtain ⟨ops, db', status', hrun, hleaves⟩ := @Ddl.leaves server.db server.disk ddl
  obtain ⟨rfl, -⟩ := ddl_after hrun hstep
  refine ⟨?_, fun id txn htxn hopen => ?_, hleaves.ddl_in_progress.trans h.ddl_in_progress,
    hleaves.open_txn_count.trans h.count⟩
  · rw [hleaves.next_txn_id]
    exact h.ids
  · have hbusy : server.db.open_txn_count ≠ 0 := by
      have hpos := (Set.ncard_pos h.finite).mpr ⟨id, txn, htxn, hopen⟩
      rw [h.count]
      omega
    obtain ⟨s, hrefused⟩ := ddl.refused hbusy server.disk
    cases hrun.symm.trans hrefused
    exact h.held id txn htxn hopen

variable {plan : Plan Status} {events : List ServerEvent}

section

variable (h : server.Tracked lost)

include h

theorem Tracked.destroy_finished (htxn : server.txns id = some txn) (hfinished : txn.finished = true) :
    (server.destroy id txn plan).Tracked lost := by
  have hforget := h.forget htxn
  rw [hfinished] at hforget
  rw [destroy, ServerAct.abort, if_pos hfinished]
  exact hforget

/-- The store serves the destructor. -/
theorem Tracked.destroy_served (htxn : server.txns id = some txn) (hopen : txn.finished = false)
    (hserved : ∀ i ≤ (restore_heads txn.written server.disk.kv).1.length, plan i = none) :
    (server.destroy id txn plan).Tracked lost := by
  have hok := restore_heads_ok (h.held id txn htxn hopen)
  obtain ⟨mid, hmid, hend⟩ := roll_back_served hok hserved
  have hfinish := (h.still hmid).finish (by rw [hmid.txns]; exact htxn) hopen
  have hgone : (ServerAct.finish mid txn).txns id = some { txn with finished := true } := by
    rw [← (h.ids id txn htxn).1]
    exact update_self ..
  rw [destroy, ServerAct.abort, if_neg (by simp [hopen]), hend]
  exact hfinish.forget hgone

/-- The `Abort` of the destructor fails: the transaction is gone and stays counted. -/
theorem Tracked.destroy_interrupted (htxn : server.txns id = some txn) (hopen : txn.finished = false)
    (hfail : ∃ i ≤ (restore_heads txn.written server.disk.kv).1.length, plan i ≠ none) :
    (server.destroy id txn plan).Tracked (lost + 1) := by
  have hstill := roll_back_interrupted hfail
  have hforget := (h.still hstill).forget (by rw [hstill.txns]; exact htxn)
  rw [hopen] at hforget
  rw [destroy, ServerAct.abort, if_neg (by simp [hopen])]
  exact hforget

theorem Tracked.happen_served {event : ServerEvent} (hafter : server.happen event = some after)
    (hserved : server.Served event) : after.Tracked lost := by
  cases event with
  | call call plan =>
    obtain ⟨p, hact, rfl⟩ := map_eq_some_iff.mp hafter
    exact h.call hact plan
  | destroy id plan =>
    obtain ⟨txn, htxn, rfl⟩ := map_eq_some_iff.mp hafter
    cases hopen : txn.finished with
    | true => exact h.destroy_finished htxn hopen
    | false => exact h.destroy_served htxn hopen (hserved txn htxn hopen)
  | ddl ddl =>
    obtain ⟨⟨after, status⟩, hstep, rfl⟩ := map_eq_some_iff.mp hafter
    exact h.ddl hstep

theorem Tracked.happen_interrupted {event : ServerEvent} (hafter : server.happen event = some after)
    (hfail : ¬ server.Served event) : after.Tracked (lost + 1) := by
  cases event with
  | destroy id plan =>
    obtain ⟨txn, htxn, rfl⟩ := map_eq_some_iff.mp hafter
    simp only [Served, not_forall] at hfail
    obtain ⟨txn', htxn', hopen, i, hi, hfail⟩ := hfail
    cases htxn.symm.trans htxn'
    exact h.destroy_interrupted htxn hopen ⟨i, hi, hfail⟩
  | call call plan => exact absurd trivial hfail
  | ddl ddl => exact absurd trivial hfail

/-- What is lost stays lost. -/
theorem Tracked.live {last : Server} (hlive : server.live events = some last) :
    ∃ lost', last.Tracked lost' ∧ lost ≤ lost' ∧ (lost' = lost ↔ server.AllServed events) := by
  induction events generalizing server lost with
  | nil =>
    cases hlive
    exact ⟨lost, h, le_rfl, by simp [AllServed]⟩
  | cons event events ih =>
    obtain ⟨after, hafter, hlive⟩ := bind_eq_some_iff.mp hlive
    have hall : server.AllServed (event :: events) ↔ server.Served event ∧ after.AllServed events := by
      rw [AllServed]
      exact and_congr_right fun _ => ⟨fun hrest => hrest after hafter, fun hrest after' hafter' => by
        cases hafter.symm.trans hafter'
        exact hrest⟩
    by_cases hserved : server.Served event
    · obtain ⟨lost', hlast, hle, hiff⟩ := ih (h.happen_served hafter hserved) hlive
      exact ⟨lost', hlast, hle, by rw [hall, hiff, and_iff_right hserved]⟩
    · obtain ⟨lost', hlast, hle, -⟩ := ih (h.happen_interrupted hafter hserved) hlive
      refine ⟨lost', hlast, by omega, ?_⟩
      rw [hall]
      exact ⟨fun heq => by omega, fun hserved' => absurd hserved'.1 hserved⟩

end

theorem tracked_opened {disk : Disk} (hopen : Server.opened disk = some server) : server.Tracked 0 := by
  cases hrun : open_db disk.tables disk.kv with
  | mk ops result =>
    rw [opened, lift, hrun] at hopen
    cases result with
    | error s => cases hopen
    | ok db =>
      cases hopen
      obtain ⟨-, hcount, hddl⟩ := open_db_result (congrArg Prod.snd hrun)
      have hempty : Server.under_way { disk := applyAll disk (ops.map .kv), db := db } = ∅ :=
        Set.eq_empty_of_forall_notMem (by rintro id ⟨txn, ⟨⟩, -⟩)
      refine ⟨by rintro _ _ ⟨⟩, by rintro _ _ ⟨⟩, hddl, ?_⟩
      rw [hempty, Set.ncard_empty]
      exact hcount

/-- Whatever operations fail, the count is that of the transaction objects under way,
    and DDL is let in when there are none, exactly if no destructor's `Abort` failed. The
    process is on any store that it could open. What is in the store and what the events
    write fits the records, so that the calls read it back. -/
theorem open_txn_count_exact_iff {disk : Disk} (hopen : Server.opened disk = some server) {store : ByteStore}
    (hheld : server.disk.HeldIn store) {events : List ServerEvent} (hfits : server.AllFit events) {last : Server}
    (hlive : server.live events = some last) :
    (∃ ops, last.disk = applyAll server.disk ops ∧
      last.disk.kv.ReadFrom (applyAll store (ops.map DiskOp.entry))) ∧
    ((last.CountExact ∧ (last.under_way = ∅ → last.db.ddl_gate = .ok ())) ↔ server.AllServed events) := by
  obtain ⟨ops, hdisk, hread⟩ := hfits.held hheld hlive
  refine ⟨⟨ops, hdisk, hread.readFrom⟩, ?_⟩
  obtain ⟨lost, hlast, -, hiff⟩ := (tracked_opened hopen).live hlive
  rw [← hiff]
  constructor
  · rintro ⟨hexact, -⟩
    have hcount := hlast.count
    rw [CountExact] at hexact
    omega
  · rintro rfl
    refine ⟨hlast.count, fun hempty => ?_⟩
    have hzero : last.db.open_txn_count = 0 := by rw [hlast.count, hempty, Set.ncard_empty]
    simp [ddl_gate, hzero, hlast.ddl_in_progress]

theorem allServed_of_never (h : ∀ id plan, .destroy id plan ∈ events → plan = never)
    (server : Server) : server.AllServed events := by
  induction events generalizing server with
  | nil => trivial
  | cons event events ih =>
    refine ⟨?_, fun after _ => ih (fun id plan hmem => h id plan (mem_cons_of_mem _ hmem)) after⟩
    cases event with
    | destroy id plan =>
      intro txn _ _ i _
      rw [h id plan (mem_cons_self ..)]
      rfl
    | _ => trivial

theorem allFit_cons {event : ServerEvent} {after : Server} (hafter : server.happen event = some after)
    (ops : List DiskOp) (hdisk : after.disk = applyAll server.disk ops) (hfits : ops.all DiskOp.fits = true)
    (h : after.AllFit events) : server.AllFit (event :: events) := by
  intro after' hafter'
  cases hafter.symm.trans hafter'
  exact ⟨⟨ops, hdisk, hfits⟩, h⟩

def failAt (op : Nat) : Plan Status := failing.once op (.IOError "write failed")

/-- A commit fails after its first write, and the destructor of the transaction is served. -/
def servedAtLast : List ServerEvent := [.call .begin_txn never, .call (.commit 1) (failAt 2), .destroy 1 never]

theorem open_txn_count_exact_served : ∃ server last, opened {} = some server ∧ server.live servedAtLast = some last ∧
    last.CountExact ∧ (last.under_way = ∅ → last.db.ddl_gate = .ok ()) := by
  obtain ⟨server, last, hopen, hlive, hstart, hfits⟩ : ∃ server last, opened {} = some server ∧
      server.live servedAtLast = some last ∧
      server.disk = applyAll {} [.kv (.put_next_ts 1), .kv (.put_next_txn 1), .kv (.put_next_vid 1)] ∧
      server.AllFit servedAtLast :=
    ⟨_, _, rfl, rfl, rfl, allFit_cons rfl [.kv (.put_next_ts 1), .kv (.put_next_txn 2), .kv (.put_next_vid 1),
      .kv (.put_txn_meta 1 {})] rfl (by decide +kernel)
      (allFit_cons rfl [.kv (.put_txn_meta 1 { state := .kCommitting, commit_ts := 1 })] rfl (by decide +kernel)
        (allFit_cons rfl [.kv (.put_txn_meta 1 { state := .kAborted })] rfl (by decide +kernel) trivial))⟩
  have hheld : server.disk.HeldIn _ := hstart ▸ Disk.HeldIn.apply .empty (by decide +kernel)
  refine ⟨server, last, hopen, hlive,
    (open_txn_count_exact_iff hopen hheld hfits hlive).2.mpr (allServed_of_never ?_ server)⟩
  intro id plan hmem
  simp only [servedAtLast, mem_cons, reduceCtorEq, ServerEvent.destroy.injEq, not_mem_nil, or_false, false_or] at hmem
  exact hmem.2

/-- The mark that the destructor writes fails: no transaction is left, and DDL is
    refused from then on. -/
theorem destructor_abort_fails : ∃ server last, opened {} = some server ∧
    server.live [.call .begin_txn never, .destroy 1 (failAt 0)] = some last ∧ last.under_way = ∅ ∧
    last.db.open_txn_count = 1 ∧ ¬ last.CountExact ∧
    last.db.ddl_gate = .error (.InvalidArgument "DDL requires no open transactions") := by
  obtain ⟨server, last, hopen, hlive, hcount, hgone⟩ : ∃ server last, opened {} = some server ∧
      server.live [.call .begin_txn never, .destroy 1 (failAt 0)] = some last ∧ last.db.open_txn_count = 1 ∧
      ∃ txn : Transaction, last.txns = update (update (fun _ => none) 1 (some txn)) 1 none :=
    ⟨_, _, rfl, rfl, rfl, _, rfl⟩
  obtain ⟨txn, htxns⟩ := hgone
  have hempty : last.under_way = ∅ := by
    refine Set.eq_empty_of_forall_notMem ?_
    rintro id ⟨txn', htxn', -⟩
    rw [htxns, update_idem] at htxn'
    by_cases heq : id = 1 <;> simp [heq] at htxn'
  refine ⟨server, last, hopen, hlive, hempty, hcount, ?_, ?_⟩
  · rw [CountExact, hcount, hempty, Set.ncard_empty]
    exact Nat.one_ne_zero
  · rw [ddl_gate, hcount]
    rfl

end Server

end reldb
