import LsmKv.Db
import LsmKv.Db.Compact

namespace lsmkv

/-- How the writes so far are spread over the layers, oldest first: level 1, the
    files of level 0, the immutable memtable and the memtable. -/
structure Layout where
  older : List Write
  pieces : List (List Write)
  imm : List Write
  mem : List Write

namespace Layout

def tables (l : Layout) : List Write := l.older ++ l.pieces.flatten

def rotate (l : Layout) : Layout := { l with imm := l.mem, mem := [] }

def add (l : Layout) (w : Write) : Layout := { l with mem := l.mem ++ [w] }

end Layout

namespace DBImpl

/-- The table of the immutable memtable is installed, and the memtable not yet dropped. -/
def flushed (db : DBImpl) : Bool :=
  match db.bg with
  | .flush_clear => true
  | _ => false

/-- All writes so far. A flushed immutable memtable only repeats level 0. -/
def history (db : DBImpl) (l : Layout) : List Write :=
  l.tables ++ (if db.flushed then [] else l.imm) ++ l.mem

/-- A table of the immutable memtable, finished under a number that no live table has. -/
structure ImmTable (db : DBImpl) (d : Disk) (f : FileMetaData) (imm : MemTable) : Prop where
  imm_eq : db.imm = some imm
  ne_nil : imm.table ≠ []
  file_eq : f = SSTableBuilder.build db.options imm.table f.number
  finished : d.tables f.number = some (.finished imm.table)
  fresh : f.number ∉ db.versions.current.live

/-- The outcome of merging the current version, finished under a number that no
    live table has. -/
structure MergeTable (db : DBImpl) (d : Disk) (result : CompactionResult) (n : Nat) : Prop where
  inputs_eq : result.inputs = db.versions.current.files0.map (fun f => (0, f.number)) ++
    (level1_inputs db.versions.current).map (fun f => (1, f.number))
  output_eq : result.output = SSTableBuilder.build db.options (mergedEntries d db.versions.current) n
  finished : d.tables n = some (.finished (mergedEntries d db.versions.current))
  fresh : n ∉ db.versions.current.live

/-- The immutable memtable repeats the newest file of level 0, or has no entry. -/
def FlushedCopy (db : DBImpl) (d : Disk) (l : Layout) : Prop :=
  ∃ imm, db.imm = some imm ∧ (imm.table = [] ∨
    ∃ front files f, l.pieces = front ++ [l.imm] ∧ db.versions.current.files0 = files ++ [f] ∧
      d.entries f = imm.table)

/-- What the background thread has prepared fits the current state. -/
def BgHolds (db : DBImpl) (d : Disk) (l : Layout) : Prop :=
  match db.bg with
  | .idle | .flush_start | .flush_done | .compact_start => True
  | .flush_build imm n => db.imm = some imm ∧ n ∉ db.versions.current.live
  | .flush_built f => ∃ imm, ImmTable db d f imm
  | .flush_edit edit => ∃ f seq imm, ImmTable db d f imm ∧
      edit = { added_files := [(0, f)], last_sequence := some seq } ∧
      seq ≤ db.versions.last_sequence ∧ ∀ w ∈ l.tables ++ l.imm, w.seq ≤ seq
  | .flush_clear => FlushedCopy db d l
  | .compact_merge current n => current = db.versions.current ∧ n ∉ db.versions.current.live
  | .compact_built result => ∃ n, MergeTable db d result n
  | .compact_edit result edit => ∃ n seq, MergeTable db d result n ∧
      edit = { deleted_files := result.inputs
               added_files := if 0 < result.output.file_size ∧ result.output.smallest ≠ [] then
                 [(1, result.output)] else []
               last_sequence := some seq } ∧
      seq ≤ db.versions.last_sequence ∧ ∀ w ∈ l.tables, w.seq ≤ seq

/-- A flush is under way and keeps hold of the immutable memtable. -/
def flushing (db : DBImpl) : Bool :=
  match db.bg with
  | .flush_build .. | .flush_built _ | .flush_edit _ | .flush_clear => true
  | _ => false

/-- The layers of a running database hold the writes of a layout. -/
structure Holds (db : DBImpl) (d : Disk) (l : Layout) : Prop where
  levels : LevelsHold d db.versions.current l.older l.pieces
  imm_none : db.imm = none → l.imm = []
  imm_some : ∀ imm, db.imm = some imm → Represents imm.table l.imm
  mem : Represents db.mem.table l.mem
  sequenced : Sequenced (db.history l)
  bound : ∀ w ∈ db.history l, w.seq ≤ db.versions.last_sequence
  bg : BgHolds db d l
  no_error : db.bg_error = none

end DBImpl

end lsmkv
