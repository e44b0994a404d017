import LsmKv.Reldb.Types

namespace reldb

open lsmkv (Status)

structure BoundTable where
  table_name : String
  as_name : String
  schema : TableSchema
  row_offset : Nat
deriving DecidableEq

structure BoundColumn where
  table_index : Nat
  column_index : Nat
  row_offset : Nat
  type : ColumnType
  column_name : String
deriving DecidableEq

/-- The tables of a FROM clause. `name_to_table` holds the names and the aliases of the
    tables, each with the position of its table. -/
structure BindContext where
  tables : List BoundTable := []
  name_to_table : List (String × Nat) := []
  total_columns : Nat := 0
deriving DecidableEq

namespace BindContext

/-- A reference as its qualifier, which is empty if there is none, and its column. -/
def split_column_ref (ref : String) : Except Status (String × String) :=
  if ref = "" then .error (.InvalidArgument "empty column reference")
  else
    match ref.toList.dropWhile (· ≠ '.') with
    | [] => .ok ("", ref)
    | _ :: column =>
      let qualifier := ref.toList.takeWhile (· ≠ '.')
      if '.' ∈ column ∨ qualifier = [] ∨ column = [] then
        .error (.InvalidArgument ("invalid column reference: " ++ ref))
      else .ok (String.ofList qualifier, String.ofList column)

def find_table (ctx : BindContext) (qualifier : String) : Option Nat :=
  (ctx.name_to_table.find? fun entry => entry.1 = qualifier).map Prod.snd

def register_name (ctx : BindContext) (name : String) : Except Status BindContext :=
  if name = "" then .ok ctx
  else if (ctx.find_table name).isSome then .error (.InvalidArgument ("duplicate table name or alias: " ++ name))
  else .ok { ctx with name_to_table := ctx.name_to_table ++ [(name, ctx.tables.length)] }

/-- The names are registered one after the other, and before the table is there. What an
    earlier step has registered stays if a later one fails. -/
def add_table (ctx : BindContext) (table_name as_name : String) (schema : TableSchema) : BindContext × Except Status Unit :=
  if table_name = "" then (ctx, .error (.InvalidArgument "empty table name in FROM"))
  else
    match ctx.register_name table_name with
    | .error e => (ctx, .error e)
    | .ok ctx =>
      match if as_name ≠ "" ∧ as_name ≠ table_name then ctx.register_name as_name else .ok ctx with
      | .error e => (ctx, .error e)
      | .ok ctx =>
        ({ ctx with
          tables := ctx.tables ++ [⟨table_name, as_name, schema, ctx.total_columns⟩]
          total_columns := ctx.total_columns + schema.columns.length }, .ok ())

/-- The column of a table, by its position there. -/
def bound_column (table_index : Nat) (t : BoundTable) (column_index : Nat) (column : String) : BoundColumn :=
  { table_index := table_index, column_index := column_index, row_offset := t.row_offset + column_index
    type := (t.schema.columns[column_index]?.map ColumnDef.type).getD .kString, column_name := column }

/-- The tables that have the column, each with the position of the column. -/
def candidates (ctx : BindContext) (column : String) : List BoundColumn :=
  (ctx.tables.zipIdx.filterMap fun (t, table_index) =>
    (t.schema.column_index column).map fun column_index => bound_column table_index t column_index column)

/-- The source does not look whether the position of a name is one of a table; here such a
    name is as an unknown one. -/
def resolve (ctx : BindContext) (ref : String) : Except Status BoundColumn := do
  let (qualifier, column) ← split_column_ref ref
  if qualifier ≠ "" then
    match (ctx.find_table qualifier).bind fun i => (ctx.tables[i]?).map fun t => (i, t) with
    | none => .error (.InvalidArgument ("unknown table: " ++ qualifier))
    | some (table_index, t) =>
      match t.schema.column_index column with
      | none => .error (.InvalidArgument ("unknown column: " ++ ref))
      | some column_index => .ok (bound_column table_index t column_index column)
  else
    match ctx.candidates column with
    | [] => .error (.InvalidArgument ("unknown column: " ++ column))
    | [bc] => .ok bc
    | _ => .error (.InvalidArgument ("ambiguous column: " ++ column))

end BindContext

end reldb
