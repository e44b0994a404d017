import LsmKv.Lib.Sorting
import LsmKv.Reldb.Types

namespace reldb

open lsmkv (Status)

structure SortKey where
  column_index : Int
  ascending : Bool := true
deriving DecidableEq

/-- The sign of a comparison by `<`. -/
def three_way {α : Type} [LT α] [DecidableLT α] (a b : α) : Ordering := if a < b then .lt else if b < a then .gt else .eq

def compare_for_sort : Value → Value → Except Status Ordering
  | .null, .null => .ok .eq
  | .null, _ => .ok .gt
  | _, .null => .ok .lt
  | .int64 a, .int64 b => .ok (three_way a b)
  | .string a, .string b => .ok (three_way a b)
  | .bool a, .bool b => .ok (three_way a.toNat b.toNat)
  | _, _ => .error (.InvalidArgument "ORDER BY type mismatch")

/-- The cell of a row at an index that may be out of range. -/
def Row.cell (row : Row) (index : Int) : Option Value := if index < 0 then none else row[index.toNat]?

/-- The comparator; its first error ends the sort. -/
def row_less : List SortKey → Row → Row → Except Status Bool
  | [], _, _ => .ok false
  | key :: keys, a, b =>
    match Row.cell a key.column_index, Row.cell b key.column_index with
    | some x, some y =>
      match compare_for_sort x y with
      | .error s => .error s
      | .ok .eq => row_less keys a b
      | .ok cmp => .ok (if key.ascending then cmp = .lt else cmp = .gt)
    | _, _ => .error (.InvalidArgument "ORDER BY column out of range")

def insert_row (keys : List SortKey) (row : Row) : List Row → Except Status (List Row)
  | [] => .ok [row]
  | other :: rows =>
    match row_less keys row other with
    | .error s => .error s
    | .ok true => .ok (row :: other :: rows)
    | .ok false => (insert_row keys row rows).map (other :: ·)

/-- `std::stable_sort`. It does not say which rows it compares; here each row is
    compared with those before it, until one is greater. -/
def stable_sort (keys : List SortKey) : List Row → List Row → Except Status (List Row)
  | sorted, [] => .ok sorted
  | sorted, row :: rows =>
    match insert_row keys row sorted with
    | .error s => .error s
    | .ok sorted => stable_sort keys sorted rows

/-- What `SortExecutor` has to output after `Open`, for a child that yields these rows. -/
def sort_rows (keys : List SortKey) (rows : List Row) : Except Status (List Row) :=
  if keys = [] then .error (.InvalidArgument "empty sort keys") else stable_sort keys [] rows

end reldb
