import LsmKv.Reldb.Sql.Ast
import LsmKv.Reldb.Sql.Lexer

namespace reldb

open lsmkv (Status)

/-- A routine of the parser, which moves the lexer on or fails. -/
abbrev Parser := StateT Lexer (Except Status)

namespace Parser

def current : Parser Token := fun lex => .ok (lex.cur, lex)

def advance : Parser Unit := fun lex => .ok ((), lex.advance)

def fail {α : Type} (msg : String) : Parser α := fun lex => .error (lex.error msg)

def refuse_if (c : Bool) (msg : String) : Parser Unit := if c then fail msg else pure ()

def match_kind (k : TokenKind) : Parser Bool := fun lex =>
  if lex.cur.kind = k then .ok (true, lex.advance) else .ok (false, lex)

/-- The routines that take one token: its value, or the message if it has none. -/
def accept {α : Type} (value : Token → Option α) (msg : Token → String) : Parser α := do
  let cur ← current
  match value cur with
  | some a =>
    advance
    return a
  | none => fail (msg cur)

def of_kind (k : TokenKind) (t : Token) : Option Unit := if t.kind = k then some () else none

def expect (k : TokenKind) (what : String) : Parser Unit :=
  accept (of_kind k) fun t => "expected " ++ what ++ ", got " ++ token_kind_name t.kind

def ident_name (t : Token) : Option String := if t.kind = .kIdent then some t.text.toText else none

def parse_ident : Parser String :=
  accept ident_name fun t => "expected identifier, got " ++ token_kind_name t.kind

/-- A name, or a qualifier and a name. -/
def parse_column_ref : Parser String := do
  let name ← parse_ident
  if ← match_kind .kDot then
    let field ← parse_ident
    return name ++ "." ++ field
  else return name

/-- The value of a literal token. -/
def literal_value (t : Token) : Option Value :=
  match t.kind with
  | .kInteger => some (.int64 t.int_val)
  | .kString => some (.string t.text)
  | .kTrue => some (.bool true)
  | .kFalse => some (.bool false)
  | .kNull => some .null
  | _ => none

/-- The message of a token that cannot start what is expected; a lexical error brings its own. -/
def unexpected (what : String) (t : Token) : String :=
  if t.kind = .kEof then if t.text ≠ [] then t.text.toText else "expected " ++ what
  else "expected " ++ what ++ ", got " ++ token_kind_name t.kind

def token_to_cmp_op : TokenKind → Option CmpOp
  | .kEq => some .kEq
  | .kNe => some .kNe
  | .kLt => some .kLt
  | .kLe => some .kLe
  | .kGt => some .kGt
  | .kGe => some .kGe
  | _ => none

def match_cmp_op : Parser (Option CmpOp) := do
  let cur ← current
  match token_to_cmp_op cur.kind with
  | some op =>
    advance
    return some op
  | none => return none

/-- The aggregate function of a token, if it is one. -/
def token_to_agg_func : TokenKind → Option AggFunc
  | .kCount => some .kCount
  | .kSum => some .kSum
  | .kAvg => some .kAvg
  | .kMin => some .kMin
  | .kMax => some .kMax
  | _ => none

/-- The argument of an aggregate: a star or a column. -/
def parse_agg_argument (func : AggFunc) : Parser (Bool × String) := do
  if ← match_kind .kStar then
    refuse_if (func ≠ .kCount) "only COUNT(*) is allowed; use a column for other aggregates"
    return (true, "")
  else
    let col ← parse_column_ref
    return (false, col)

/-- What follows the name of an aggregate. -/
def parse_agg_call (func : AggFunc) : Parser (Bool × String) := do
  expect .kLParen "'('"
  let arg ← parse_agg_argument func
  expect .kRParen "')'"
  return arg

/-- The aggregate that a token names, if the context admits one. -/
def agg_in_context (having_context : Bool) (t : Token) : Option AggFunc :=
  if having_context then token_to_agg_func t.kind else none

/-- A leaf of an expression. In a HAVING clause an aggregate stands for the column of its
    result. -/
def parse_leaf (having_context : Bool) : Parser Expr := do
  let cur ← current
  match agg_in_context having_context cur with
  | some func =>
    advance
    let arg ← parse_agg_call func
    return .column (default_agg_result_name func arg.1 arg.2)
  | none =>
    match literal_value cur with
    | some v =>
      advance
      return .literal v
    | none =>
      if cur.kind = .kIdent then
        let name ← parse_column_ref
        return .column name
      else fail (unexpected "expression" cur)

/-- The recursion is bounded by `fuel`; `parse_expr` starts it with enough. -/
def out_of_fuel {α : Type} : Parser α := fail "expression too deep"

mutual

def parse_or (having_context : Bool) : Nat → Parser Expr
  | 0 => out_of_fuel
  | fuel + 1 => do
    let left ← parse_and having_context fuel
    or_loop having_context fuel left

/-- The loop of `parse_or` with the operands so far. -/
def or_loop (having_context : Bool) : Nat → Expr → Parser Expr
  | 0, _ => out_of_fuel
  | fuel + 1, left => do
    if ← match_kind .kOr then
      let right ← parse_and having_context fuel
      or_loop having_context fuel (.or left right)
    else return left

def parse_and (having_context : Bool) : Nat → Parser Expr
  | 0 => out_of_fuel
  | fuel + 1 => do
    let left ← parse_not having_context fuel
    and_loop having_context fuel left

/-- The loop of `parse_and` with the operands so far. -/
def and_loop (having_context : Bool) : Nat → Expr → Parser Expr
  | 0, _ => out_of_fuel
  | fuel + 1, left => do
    if ← match_kind .kAnd then
      let right ← parse_not having_context fuel
      and_loop having_context fuel (.and left right)
    else return left

def parse_not (having_context : Bool) : Nat → Parser Expr
  | 0 => out_of_fuel
  | fuel + 1 => do
    if ← match_kind .kNot then
      let child ← parse_not having_context fuel
      return .not child
    else parse_cmp having_context fuel

def parse_cmp (having_context : Bool) : Nat → Parser Expr
  | 0 => out_of_fuel
  | fuel + 1 => do
    let left ← parse_primary having_context fuel
    match ← match_cmp_op with
    | none => return left
    | some op =>
      let right ← parse_primary having_context fuel
      return .compare op left right

def parse_primary (having_context : Bool) : Nat → Parser Expr
  | 0 => out_of_fuel
  | fuel + 1 => do
    if ← match_kind .kLParen then
      let e ← parse_or having_context fuel
      expect .kRParen "')'"
      return e
    else parse_leaf having_context

end

def parse_expr (having_context : Bool) : Parser Expr := fun lex =>
  parse_or having_context (6 * lex.left + 6) lex

/-- `WHERE` and its predicate, if they come next. -/
def parse_where : Parser (Option Expr) := do
  if ← match_kind .kWhere then
    let e ← parse_expr false
    return some e
  else return none

end Parser

end reldb
