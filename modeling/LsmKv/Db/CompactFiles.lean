import LsmKv.Compaction
import LsmKv.SSTable.Damage

open lsmkv.SSTable

namespace lsmkv

open List

/-- The table files of the database directory, byte by byte. -/
abbrev TableDir := Nat → Option Bytes

namespace TableDir

def open_table (files : TableDir) (dbname : String) (number : Nat) : Except Status Image :=
  match files number with
  | none => .error (.IOError ("cannot open sstable: " ++ table_file_name dbname number))
  | some data => Image.open_data data

/-- The iterators over the inputs, each on its first entry. -/
def open_iterators (files : TableDir) (dbname : String) : List FileMetaData → Except Status (List Image.Iterator)
  | [] => .ok []
  | f :: fs =>
    match files.open_table dbname f.number with
    | .error s => .error s
    | .ok t => (open_iterators files dbname fs).map (t.new_iterator.seek_to_first :: ·)

/-- Input `i` stands on `e`: it becomes the best one if there is none yet or its key is smaller. -/
def challenge (best : Option (Nat × Bytes × Bytes)) (i : Nat) (e : Bytes × Bytes) : Option (Nat × Bytes × Bytes) :=
  match best with
  | none => some (i, e)
  | some b => if compare_internal_key e.1 b.2.1 = .lt then some (i, e) else some b

/-- The loop that looks for the smallest key from input `i` on. -/
def find_best : List Image.Iterator → Nat → Option (Nat × Bytes × Bytes) → Option (Nat × Bytes × Bytes)
  | [], _, best => best
  | it :: iters, i, best =>
    match it.current with
    | none => find_best iters (i + 1) best
    | some e => find_best iters (i + 1) (challenge best i e)

/-- The entries that the merge hands to the builder. It emits the first entry of each user key
    and looks at no iterator's status. -/
def merge_loop : Nat → List Image.Iterator → Option Bytes → List (Bytes × Bytes)
  | 0, _, _ => []
  | rounds + 1, iters, last_user =>
    match find_best iters 0 none with
    | none => []
    | some (best, e) =>
      if last_user = some (extract_user_key e.1) then merge_loop rounds (iters.modify best Image.Iterator.next) last_user
      else e :: merge_loop rounds (iters.modify best Image.Iterator.next) (some (extract_user_key e.1))

/-- All of level 0 and the overlapping part of level 1, as the merge opens them. -/
def inputs (current : Version) : List FileMetaData := current.files0 ++ level1_inputs current

/-- Level 0 is opened before level 1, and the output only after both. The entries written are
    returned with the result. -/
def compact_level0 (options : Options) (files : TableDir) (dbname : String) (rounds : Nat) (current : Version)
    (output_number : Nat) : Except Status (CompactionResult × List (Bytes × Bytes)) :=
  match files.open_iterators dbname (inputs current) with
  | .error s => .error s
  | .ok iters =>
    let merged := merge_loop rounds iters none
    let (_, metadata) := (SSTableBuilder.add_all { options } merged).finish
    .ok ({ inputs := current.files0.map (fun f => (0, f.number)) ++ (level1_inputs current).map (fun f => (1, f.number))
           output := { metadata with number := output_number } },
      merged)

variable {iters : List Image.Iterator} {lists : List (List (Bytes × Bytes))}

/-- An entry of the same user key with a larger sequence number, or of the same one and a larger type. -/
def Newer (e' e : Bytes × Bytes) : Prop :=
  extract_user_key e'.1 = extract_user_key e.1 ∧ extract_packed e.1 < extract_packed e'.1

/-- The entry itself or a newer one of its user key. -/
def Covers (es : List (Bytes × Bytes)) (e : Bytes × Bytes) : Prop := e ∈ es ∨ ∃ e' ∈ es, Newer e' e

/-- The entries that were stored in the inputs. -/
def stored (current : Version) (contents : Nat → Contents) : List (Bytes × Bytes) :=
  (inputs current).flatMap fun f => (contents f.number).stored

/-- The entries of the inputs that stand ahead of any damage. -/
def readable (current : Version) (contents : Nat → Contents) : List (Bytes × Bytes) :=
  (inputs current).flatMap fun f => (contents f.number).readable

variable {files : TableDir} {dbname : String} {current : Version} {contents : Nat → Contents}

/-- The entry is superseded by one that can be read, or can be read itself and no other value can
    be read under its internal key. -/
def Kept (es : List (Bytes × Bytes)) (e : Bytes × Bytes) : Prop :=
  (∃ e' ∈ es, Newer e' e) ∨ e ∈ es ∧ ∀ e' ∈ es, e'.1 = e.1 → e' = e

end TableDir

end lsmkv
