import LsmKv.Status

namespace reldb

open lsmkv (Status)

inductive ColumnType where
  | kNull
  | kInt64
  | kString
  | kBool
deriving DecidableEq, Repr

def column_type_name : ColumnType → String
  | .kNull => "Null"
  | .kInt64 => "Int64"
  | .kString => "String"
  | .kBool => "Bool"

/-- A single cell. -/
inductive Value where
  | null
  | int64 (v : Int64)
  | string (v : Bytes)
  | bool (v : Bool)
deriving DecidableEq

namespace Value

def type : Value → ColumnType
  | .null => .kNull
  | .int64 _ => .kInt64
  | .string _ => .kString
  | .bool _ => .kBool

def is_null (v : Value) : Bool := v.type = .kNull

end Value

structure ColumnDef where
  name : String
  type : ColumnType := .kString
  primary_key : Bool := false
deriving DecidableEq, Repr

structure TableSchema where
  name : String
  columns : List ColumnDef
deriving DecidableEq, Repr

namespace TableSchema

/-- The last primary-key column; a valid schema has exactly one. -/
def primary_key_index (schema : TableSchema) : Option Nat :=
  ((List.range schema.columns.length).filter fun i =>
    (schema.columns[i]?.map ColumnDef.primary_key).getD false).getLast?

def find_column (schema : TableSchema) (name : String) : Option ColumnDef :=
  schema.columns.find? fun c => c.name = name

def column_index (schema : TableSchema) (name : String) : Option Nat :=
  schema.columns.findIdx? fun c => c.name = name

/-- The checks of one column, given the columns before it. -/
def validate_column (before : List ColumnDef) (c : ColumnDef) : Except Status Unit :=
  if c.name = "" then .error (.InvalidArgument "column name is empty")
  else if before.any (fun b => b.name = c.name) then .error (.InvalidArgument ("duplicate column: " ++ c.name))
  else if c.type = .kNull then .error (.InvalidArgument ("column type cannot be Null: " ++ c.name))
  else .ok ()

def validate_columns (before : List ColumnDef) : List ColumnDef → Except Status Unit
  | [] => .ok ()
  | c :: cs => do
    validate_column before c
    validate_columns (before ++ [c]) cs

def validate (schema : TableSchema) : Except Status Unit :=
  if schema.name = "" then .error (.InvalidArgument "table name is empty")
  else if schema.columns = [] then .error (.InvalidArgument "table has no columns")
  else do
    validate_columns [] schema.columns
    if (schema.columns.filter ColumnDef.primary_key).length ≠ 1 then
      .error (.InvalidArgument "table must have exactly one primary key")
    else .ok ()

end TableSchema

/-- The cells of a row, in the column order of its table. -/
abbrev Row := List Value

namespace Row

def validate_cells : List ColumnDef → List Value → Except Status Unit
  | col :: cols, cell :: cells =>
    if cell.is_null then .error (.InvalidArgument ("null not allowed in column: " ++ col.name))
    else if cell.type ≠ col.type then
      .error (.InvalidArgument ("type mismatch for column " ++ col.name ++ ": expected " ++
        column_type_name col.type ++ ", got " ++ column_type_name cell.type))
    else validate_cells cols cells
  | _, _ => .ok ()

def validate_against (row : Row) (schema : TableSchema) : Except Status Unit := do
  schema.validate
  if row.length ≠ schema.columns.length then .error (.InvalidArgument "row column count mismatch")
  else validate_cells schema.columns row

def primary_key (row : Row) (schema : TableSchema) : Except Status Value := do
  validate_against row schema
  match schema.primary_key_index with
  | none => .error (.InvalidArgument "no primary key")
  | some i => .ok (row[i]?.getD .null)

end Row

/-- The result of a statement. A SELECT fills the rows; the others count those that
    they wrote. -/
structure QueryResult where
  column_names : List Bytes := []
  rows : List Row := []
  rows_affected : Nat := 0
  plan_tag : Bytes := []
deriving DecidableEq

end reldb
