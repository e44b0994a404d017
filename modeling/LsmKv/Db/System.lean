import LsmKv.Db.FileOps
import LsmKv.Db.Session

namespace lsmkv

/-- The log or table file that an operation creates. Opening a log that exists
    counts, too: the writer does not tell the two apart. -/
def FileOp.created : FileOp → Option Nat
  | .open_log n | .create_table n => some n
  | _ => none

def FileOp.appendsManifest : FileOp → Bool
  | .append_manifest .. => true
  | _ => false

/-- A directory over any number of sessions: the running database, if there is one,
    and the numbers of all logs and tables created so far. -/
structure System where
  disk : Disk := {}
  db : Option DBImpl := none
  created : List Nat := []

/-- What a process can do: open the database, take a step, and destroy it. -/
inductive Event where
  | open_db (options : Options)
  | step (label : Label)
  | close

/-- The file operations of an event, the database after it, and the numbers that
    `NextFileNumber` hands out for a log or a table. -/
structure Outcome where
  ops : List FileOp
  db : Option DBImpl
  drawn : List Nat

/-- An event runs to its end, or the process is killed after some of its operations.
    Then the end of the log is a part of what was buffered, and maybe a broken record. -/
inductive Action where
  | complete (event : Event)
  | crash (event : Event) (done kept : Nat) (torn : Option TornRecord)

def Action.event : Action → Event
  | .complete event | .crash event .. => event

def Action.opens (action : Action) : Bool :=
  match action.event with
  | .open_db _ => true
  | _ => false

/-- What was still buffered when the given operations were done. -/
def DBImpl.buffered (db : DBImpl) (ops : List FileOp) : List LogRecord :=
  if ops.any (fun op => op.logNumber = some db.wal.number) then [] else db.wal.pending

def Disk.cut_log (d : Disk) (n : Nat) (records : List LogRecord) (torn : Option TornRecord) : Disk :=
  let log := (d.logs n).map fun log => { records := log.records ++ records, torn := torn }
  { d with logs := Function.update d.logs n log }

namespace System

/-- The numbers between two values of the counter. -/
def handedOut (before after : VersionSet) : List Nat :=
  List.range' before.next_file_number (after.next_file_number - before.next_file_number)

def stepOutcome (db db' : DBImpl) (ops : List FileOp) : Outcome where
  ops := ops
  db := some db'
  drawn := handedOut db.versions db'.versions

/-- `none` when the event has to wait, or does not apply. -/
def outcome (dbname : String) (s : System) : Event → Option Outcome
  | .open_db options =>
    match s.db with
    | some _ => none
    | none =>
      let (ops, opened) := DBImpl.open_db options dbname s.disk
      some { ops := ops, db := opened.toOption, drawn := ops.filterMap FileOp.created }
  | .step (.put options key value) => do
    let db ← s.db
    let ((db', _), ops) ← db.put options key value
    some (stepOutcome db db' ops)
  | .step (.delete options key) => do
    let db ← s.db
    let ((db', _), ops) ← db.delete options key
    some (stepOutcome db db' ops)
  | .step .bg => do
    let db ← s.db
    let (db', ops) := db.bg_step s.disk
    some (stepOutcome db db' ops)
  | .close => do
    let db ← s.db
    match db.bg with
    | .idle =>
      some { ops := db.close, db := none, drawn := if db.imm.isSome then [db.versions.next_file_number] else [] }
    | _ => none

/-- The operations that an action gets done. -/
def performed (dbname : String) (s : System) (action : Action) : List FileOp :=
  match s.outcome dbname action.event with
  | none => []
  | some outcome =>
    match action with
    | .complete _ => outcome.ops
    | .crash _ done .. => outcome.ops.take done

def step (dbname : String) (s : System) (action : Action) : Option System :=
  let ops := s.performed dbname action
  let created := s.created ++ ops.filterMap FileOp.created
  (s.outcome dbname action.event).map fun outcome =>
    match action with
    | .complete _ => { disk := s.disk.apply_all ops, db := outcome.db, created := created }
    | .crash _ _ kept torn =>
      match s.db with
      | none => { disk := s.disk.apply_all ops, db := none, created := created }
      | some db =>
        { disk := (s.disk.apply_all ops).cut_log db.wal.number ((db.buffered ops).take kept) torn
          db := none, created := created }

def run (dbname : String) (s : System) : List Action → Option System
  | [] => some s
  | action :: actions => (s.step dbname action).bind fun s => s.run dbname actions

/-- The tables of the current version, which before an `Open` is the one that it recovers. -/
def live (dbname : String) (s : System) : List Nat :=
  match s.db with
  | some db => db.versions.current.live
  | none =>
    match VersionSet.recover s.disk dbname with
    | .ok vs => vs.current.live
    | .error _ => []

/-- Every number handed out is new: no live table has it, and no log or table was
    ever created under it. -/
def DrawsNew (dbname : String) (s : System) (action : Action) : Prop :=
  ∀ outcome, s.outcome dbname action.event = some outcome →
    ∀ n ∈ outcome.drawn, n ∉ s.live dbname ∧ n ∉ s.created

/-- The action creates no log and no table, or is an `Open` that gets to its manifest
    record. -/
def Quiet (dbname : String) (s : System) (action : Action) : Prop :=
  (s.performed dbname action).filterMap FileOp.created = [] ∨
    action.opens = true ∧ (s.performed dbname action).any FileOp.appendsManifest = true

/-- Every action that a later `Open` follows is quiet. -/
def QuietBeforeOpen (dbname : String) (s : System) : List Action → Prop
  | [] => True
  | action :: actions => (actions.any Action.opens = true → s.Quiet dbname action) ∧
      match s.step dbname action with
      | some s' => s'.QuietBeforeOpen dbname actions
      | none => True

instance (dbname : String) (s : System) (action : Action) : Decidable (s.Quiet dbname action) :=
  inferInstanceAs (Decidable (_ ∨ _ ∧ _))

instance decidableQuietBeforeOpen (dbname : String) :
    ∀ (actions : List Action) (s : System), Decidable (s.QuietBeforeOpen dbname actions)
  | [], _ => isTrue trivial
  | action :: actions, s =>
    match h : s.step dbname action with
    | some s' =>
      have := decidableQuietBeforeOpen dbname actions s'
      decidable_of_iff ((actions.any Action.opens = true → s.Quiet dbname action) ∧
        s'.QuietBeforeOpen dbname actions) (by rw [QuietBeforeOpen, h])
    | none => decidable_of_iff (actions.any Action.opens = true → s.Quiet dbname action)
        (by simp [QuietBeforeOpen, h])

end System

end lsmkv
