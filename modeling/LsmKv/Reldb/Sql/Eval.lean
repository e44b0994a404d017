import LsmKv.Reldb.Sql.Ast

namespace reldb

open lsmkv (Status)

/-- Whether an operator holds for the sign of a comparison. -/
def CmpOp.holds : CmpOp → Ordering → Bool
  | .kEq, o => o = .eq
  | .kNe, o => o ≠ .eq
  | .kLt, o => o = .lt
  | .kLe, o => o ≠ .gt
  | .kGt, o => o = .gt
  | .kGe, o => o ≠ .lt

namespace Expr

def bind (schema : TableSchema) : Expr → Except Status Expr
  | .literal v => .ok (.literal v)
  | .column name _ =>
    match schema.column_index name with
    | none => .error (.InvalidArgument ("unknown column: " ++ name))
    | some i => .ok (.column name (some i))
  | .compare op left right => do return .compare op (← left.bind schema) (← right.bind schema)
  | .and left right => do return .and (← left.bind schema) (← right.bind schema)
  | .or left right => do return .or (← left.bind schema) (← right.bind schema)
  | .not child => do return .not (← child.bind schema)

def compare_values (op : CmpOp) : Value → Value → Except Status Value
  | .null, _ | _, .null => .ok .null
  | .int64 a, .int64 b => .ok (.bool (op.holds (three_way a b)))
  | .string a, .string b => .ok (.bool (op.holds (three_way a b)))
  | .bool a, .bool b => .ok (.bool (op.holds (three_way a.toNat b.toNat)))
  | _, _ => .error (.InvalidArgument "compare type mismatch")

/-- A truth value, or unknown. -/
def as_tri (msg : String) : Value → Except Status (Option Bool)
  | .null => .ok none
  | .bool b => .ok (some b)
  | _ => .error (.InvalidArgument msg)

def of_tri : Option Bool → Value
  | none => .null
  | some b => .bool b

/-- AND if `stop` is false and OR if it is true: the value that decides alone. -/
def eval_logic (stop : Bool) (left right : Value) : Except Status Value := do
  let lt ← as_tri "logic requires boolean" left
  let rt ← as_tri "logic requires boolean" right
  return of_tri (if lt = some stop ∨ rt = some stop then some stop else if lt = none ∨ rt = none then none else some !stop)

/-- A column that is not bound is looked up by its name. -/
def eval (row : Row) (schema : TableSchema) : Expr → Except Status Value
  | .literal v => .ok v
  | .column name index =>
    match index.or (schema.column_index name) with
    | none => .error (.InvalidArgument ("unknown column: " ++ name))
    | some i =>
      match row[i]? with
      | none => .error (.InvalidArgument "row width mismatch")
      | some v => .ok v
  | .compare op left right => do compare_values op (← left.eval row schema) (← right.eval row schema)
  | .and left right => do eval_logic false (← left.eval row schema) (← right.eval row schema)
  | .or left right => do eval_logic true (← left.eval row schema) (← right.eval row schema)
  | .not child => do return of_tri ((← as_tri "NOT requires boolean" (← child.eval row schema)).map Bool.not)

/-- A row of which the predicate is unknown is filtered out. -/
def eval_bool (row : Row) (schema : TableSchema) (e : Expr) : Except Status Bool := do
  return (← as_tri "predicate must be boolean" (← e.eval row schema)).getD false

end Expr

end reldb
