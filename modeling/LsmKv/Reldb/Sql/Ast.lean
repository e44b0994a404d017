import LsmKv.Lib.Decimal
import LsmKv.Reldb.Sql.BindContext
import LsmKv.Reldb.Sql.Sort

namespace reldb

open lsmkv (Status)

inductive CmpOp where
  | kEq
  | kNe
  | kLt
  | kLe
  | kGt
  | kGe
deriving DecidableEq, Repr

/-- An expression of a filter or a projection. A column has the position that `Bind` gave
    it, or none. -/
inductive Expr where
  | literal (v : Value)
  | column (name : String) (index : Option Nat := none)
  | compare (op : CmpOp) (left right : Expr)
  | and (left right : Expr)
  | or (left right : Expr)
  | not (child : Expr)
deriving DecidableEq

inductive AggFunc where
  | kCount
  | kSum
  | kAvg
  | kMin
  | kMax
deriving DecidableEq, Repr

def agg_func_name : AggFunc → String
  | .kCount => "COUNT"
  | .kSum => "SUM"
  | .kAvg => "AVG"
  | .kMin => "MIN"
  | .kMax => "MAX"

def default_agg_result_name (f : AggFunc) (star : Bool) (col : String) : String :=
  agg_func_name f ++ "(" ++ (if star then "*" else col) ++ ")"

end reldb
