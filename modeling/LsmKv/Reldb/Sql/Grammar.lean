import LsmKv.Reldb.Sql.Parser

namespace reldb

open reldb.Parser (literal_value token_to_cmp_op token_to_agg_func)

/-- A name, or a qualifier and a name. -/
inductive ColumnRef : List Token → String → Prop where
  | name {t : Token} : t.kind = .kIdent → ColumnRef [t] t.text.toText
  | qualified {q dot t : Token} : q.kind = .kIdent → dot.kind = .kDot → t.kind = .kIdent →
      ColumnRef [q, dot, t] (q.text.toText ++ "." ++ t.text.toText)

theorem ColumnRef.head {ts : List Token} {name : String} (hname : ColumnRef ts name) (t : Token) :
    (ts.headD t).kind = .kIdent := by
  cases hname with
  | name ht => exact ht
  | qualified hq => exact hq

/-- What may stand in the parentheses of an aggregate. -/
inductive AggArgument (func : AggFunc) : List Token → Bool × String → Prop where
  | star {t : Token} : func = .kCount → t.kind = .kStar → AggArgument func [t] (true, "")
  | column {ts : List Token} {name : String} : ColumnRef ts name → AggArgument func ts (false, name)

/-- An aggregate with its argument. -/
inductive AggCall : List Token → AggFunc × Bool × String → Prop where
  | call {t o c : Token} {func : AggFunc} {ts : List Token} {arg : Bool × String} :
      token_to_agg_func t.kind = some func → o.kind = .kLParen → AggArgument func ts arg → c.kind = .kRParen →
        AggCall (t :: o :: (ts ++ [c])) (func, arg)

/-- An expression without operators and parentheses. A HAVING clause has aggregates. -/
inductive Leaf (having_context : Bool) : List Token → Expr → Prop where
  | literal {t : Token} {v : Value} : literal_value t = some v → Leaf having_context [t] (.literal v)
  | column {ts : List Token} {name : String} : ColumnRef ts name → Leaf having_context ts (.column name)
  | aggregate {ts : List Token} {func : AggFunc} {arg : Bool × String} : having_context = true →
      AggCall ts (func, arg) → Leaf having_context ts (.column (default_agg_result_name func arg.1 arg.2))

/-- The token lists of an expression where the precedence is `min` at least: 0 is that of
    `OR`, 1 of `AND`, 2 of `NOT`, 3 of a comparison and 4 of a leaf. An operand that binds
    less stands in parentheses, and any other may. -/
inductive Renders (having_context : Bool) : Nat → List Token → Expr → Prop where
  | leaf {min : Nat} {ts : List Token} {e : Expr} : Leaf having_context ts e → Renders having_context min ts e
  | paren {min : Nat} {o c : Token} {ts : List Token} {e : Expr} : o.kind = .kLParen →
      Renders having_context 0 ts e → c.kind = .kRParen → Renders having_context min (o :: (ts ++ [c])) e
  | compare {min : Nat} {o : Token} {op : CmpOp} {ls rs : List Token} {l r : Expr} : min ≤ 3 →
      Renders having_context 4 ls l → token_to_cmp_op o.kind = some op → Renders having_context 4 rs r →
      Renders having_context min (ls ++ o :: rs) (.compare op l r)
  | not {min : Nat} {o : Token} {ts : List Token} {e : Expr} : min ≤ 2 → o.kind = .kNot →
      Renders having_context 2 ts e → Renders having_context min (o :: ts) (.not e)
  | and {min : Nat} {o : Token} {ls rs : List Token} {l r : Expr} : min ≤ 1 → Renders having_context 1 ls l →
      o.kind = .kAnd → Renders having_context 2 rs r → Renders having_context min (ls ++ o :: rs) (.and l r)
  | or {o : Token} {ls rs : List Token} {l r : Expr} : Renders having_context 0 ls l → o.kind = .kOr →
      Renders having_context 1 rs r → Renders having_context 0 (ls ++ o :: rs) (.or l r)

/-- The kinds that do not continue an expression of precedence `min`. -/
def Follows (min : Nat) (kind : TokenKind) : Prop :=
  kind ≠ .kDot ∧ (min ≤ 3 → token_to_cmp_op kind = none) ∧ (min ≤ 1 → kind ≠ .kAnd) ∧ (min = 0 → kind ≠ .kOr)

instance (min : Nat) (kind : TokenKind) : Decidable (Follows min kind) := inferInstanceAs (Decidable (_ ∧ _))

end reldb
