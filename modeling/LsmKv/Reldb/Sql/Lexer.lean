import LsmKv.Lib.Decimal
import LsmKv.Status

namespace reldb

open lsmkv (Status)

inductive TokenKind where
  | kEof | kIdent | kInteger | kString | kBegin | kCommit | kAbort | kRollback | kTransaction | kCreate | kDrop
  | kAlter | kAdd | kColumn | kDefault | kTable | kIf | kExists | kInsert | kInto | kValues | kSelect | kFrom
  | kWhere | kOrder | kBy | kLimit | kAsc | kDesc | kUpdate | kSet | kDelete | kPrimary | kKey | kAnd | kOr
  | kNot | kTrue | kFalse | kNull | kTypeInt | kTypeInteger | kTypeText | kTypeString | kTypeBool
  | kTypeBoolean | kInner | kJoin | kOn | kLeft | kRight | kFull | kOuter | kCross | kGroup | kHaving | kUnion
  | kIntersect | kExcept | kDistinct | kAs | kCount | kSum | kAvg | kMin | kMax | kLParen | kRParen | kComma
  | kSemicolon | kStar | kEq | kNe | kLt | kLe | kGt | kGe | kDot
deriving DecidableEq, Repr

def token_kind_name : TokenKind → String
  | .kEof => "end of input"
  | .kIdent => "identifier"
  | .kInteger => "integer"
  | .kString => "string"
  | .kBegin => "BEGIN"
  | .kCommit => "COMMIT"
  | .kAbort => "ABORT"
  | .kRollback => "ROLLBACK"
  | .kTransaction => "TRANSACTION"
  | .kCreate => "CREATE"
  | .kDrop => "DROP"
  | .kAlter => "ALTER"
  | .kAdd => "ADD"
  | .kColumn => "COLUMN"
  | .kDefault => "DEFAULT"
  | .kTable => "TABLE"
  | .kIf => "IF"
  | .kExists => "EXISTS"
  | .kInsert => "INSERT"
  | .kInto => "INTO"
  | .kValues => "VALUES"
  | .kSelect => "SELECT"
  | .kFrom => "FROM"
  | .kWhere => "WHERE"
  | .kOrder => "ORDER"
  | .kBy => "BY"
  | .kLimit => "LIMIT"
  | .kAsc => "ASC"
  | .kDesc => "DESC"
  | .kUpdate => "UPDATE"
  | .kSet => "SET"
  | .kDelete => "DELETE"
  | .kPrimary => "PRIMARY"
  | .kKey => "KEY"
  | .kAnd => "AND"
  | .kOr => "OR"
  | .kNot => "NOT"
  | .kTrue => "TRUE"
  | .kFalse => "FALSE"
  | .kNull => "NULL"
  | .kTypeInt => "INT"
  | .kTypeInteger => "INTEGER"
  | .kTypeText => "TEXT"
  | .kTypeString => "STRING"
  | .kTypeBool => "BOOL"
  | .kTypeBoolean => "BOOLEAN"
  | .kInner => "INNER"
  | .kJoin => "JOIN"
  | .kOn => "ON"
  | .kLeft => "LEFT"
  | .kRight => "RIGHT"
  | .kFull => "FULL"
  | .kOuter => "OUTER"
  | .kCross => "CROSS"
  | .kGroup => "GROUP"
  | .kHaving => "HAVING"
  | .kUnion => "UNION"
  | .kIntersect => "INTERSECT"
  | .kExcept => "EXCEPT"
  | .kDistinct => "DISTINCT"
  | .kAs => "AS"
  | .kCount => "COUNT"
  | .kSum => "SUM"
  | .kAvg => "AVG"
  | .kMin => "MIN"
  | .kMax => "MAX"
  | .kLParen => "("
  | .kRParen => ")"
  | .kComma => ","
  | .kSemicolon => ";"
  | .kStar => "*"
  | .kEq => "="
  | .kNe => "!="
  | .kLt => "<"
  | .kLe => "<="
  | .kGt => ">"
  | .kGe => ">="
  | .kDot => "."

/-- A token with its text, its value if it is an integer, and its offset in the input. -/
structure Token where
  kind : TokenKind := .kEof
  text : Bytes := []
  int_val : Int64 := 0
  pos : Nat := 0
deriving DecidableEq

/-- The byte of a character. -/
def char_byte (c : Char) : UInt8 := UInt8.ofNat c.toNat

/-- The single quote. -/
def quote : UInt8 := 39

/-- `isspace` of the C locale; the other classes of bytes likewise. -/
def is_space (c : UInt8) : Bool := c = 32 || (9 ≤ c && c ≤ 13)

def is_digit (c : UInt8) : Bool := char_byte '0' ≤ c && c ≤ char_byte '9'

def is_alpha (c : UInt8) : Bool :=
  (char_byte 'A' ≤ c && c ≤ char_byte 'Z') || (char_byte 'a' ≤ c && c ≤ char_byte 'z')

def is_alnum (c : UInt8) : Bool := is_alpha c || is_digit c

def to_lower (c : UInt8) : UInt8 := if char_byte 'A' ≤ c && c ≤ char_byte 'Z' then c + 32 else c

/-- A byte inside an identifier or a keyword. -/
def is_word (c : UInt8) : Bool := is_alnum c || c = char_byte '_'

/-- The reserved words with their kinds. -/
def keywords : List (String × TokenKind) :=
  [("begin", .kBegin), ("commit", .kCommit), ("abort", .kAbort), ("rollback", .kRollback),
    ("transaction", .kTransaction), ("create", .kCreate), ("drop", .kDrop), ("alter", .kAlter), ("add", .kAdd),
    ("column", .kColumn), ("default", .kDefault), ("table", .kTable), ("if", .kIf), ("exists", .kExists),
    ("insert", .kInsert), ("into", .kInto), ("values", .kValues), ("select", .kSelect), ("from", .kFrom),
    ("where", .kWhere), ("order", .kOrder), ("by", .kBy), ("limit", .kLimit), ("asc", .kAsc), ("desc", .kDesc),
    ("update", .kUpdate), ("set", .kSet), ("delete", .kDelete), ("primary", .kPrimary), ("key", .kKey),
    ("and", .kAnd), ("or", .kOr), ("not", .kNot), ("true", .kTrue), ("false", .kFalse), ("null", .kNull),
    ("int", .kTypeInt), ("integer", .kTypeInteger), ("text", .kTypeText), ("string", .kTypeString),
    ("bool", .kTypeBool), ("boolean", .kTypeBoolean), ("inner", .kInner), ("join", .kJoin), ("on", .kOn),
    ("left", .kLeft), ("right", .kRight), ("full", .kFull), ("outer", .kOuter), ("cross", .kCross),
    ("group", .kGroup), ("having", .kHaving), ("union", .kUnion), ("intersect", .kIntersect),
    ("except", .kExcept), ("distinct", .kDistinct), ("as", .kAs), ("count", .kCount), ("sum", .kSum),
    ("avg", .kAvg), ("min", .kMin), ("max", .kMax)]

def keyword_kind (lower : Bytes) : TokenKind :=
  ((keywords.find? fun entry => Bytes.ofString entry.1 = lower).map Prod.snd).getD .kIdent

def skip_whitespace (unread : Bytes) : Bytes := unread.dropWhile is_space

/-- The contents of a string literal after its opening quote, and what follows the closing
    one; `none` if there is no closing one. -/
def lex_string : Bytes → Option (Bytes × Bytes)
  | [] => none
  | [c] => if c = quote then some ([], []) else none
  | c :: d :: rest =>
    if c = quote then
      if d = quote then (lex_string rest).map fun (out, unread) => (quote :: out, unread)
      else some ([], d :: rest)
    else (lex_string (d :: rest)).map fun (out, unread) => (c :: out, unread)

/-- The text of an integer literal and what follows it. -/
def lex_digits : Bytes → Bytes × Bytes
  | [] => ([], [])
  | c :: rest =>
    if c = char_byte '-' then (c :: rest.takeWhile is_digit, rest.dropWhile is_digit)
    else ((c :: rest).takeWhile is_digit, (c :: rest).dropWhile is_digit)

/-- `stoll` on the text of an integer literal. -/
def stoll (text : Bytes) : Option Int64 :=
  (decimal.decodeInt text).bind fun n => if -2 ^ 63 ≤ n ∧ n < 2 ^ 63 then some (Int64.ofInt n) else none

/-- A literal that does not fit becomes an identifier. -/
def lex_integer (pos : Nat) (unread : Bytes) : Token × Bytes :=
  let (text, unread) := lex_digits unread
  match stoll text with
  | some int_val => ({ kind := .kInteger, text, int_val, pos }, unread)
  | none => ({ kind := .kIdent, text := Bytes.ofString "integer out of range", pos }, unread)

/-- The case of a keyword does not matter; an identifier keeps its own. -/
def lex_ident_or_keyword (pos : Nat) (unread : Bytes) : Token × Bytes :=
  let text := unread.takeWhile is_word
  ({ kind := keyword_kind (text.map to_lower), text, pos }, unread.dropWhile is_word)

/-- A token of one byte. -/
def punctuation (c : UInt8) : Option TokenKind :=
  if c = char_byte '(' then some .kLParen
  else if c = char_byte ')' then some .kRParen
  else if c = char_byte ',' then some .kComma
  else if c = char_byte ';' then some .kSemicolon
  else if c = char_byte '*' then some .kStar
  else if c = char_byte '.' then some .kDot
  else if c = char_byte '=' then some .kEq
  else none

/-- The token that starts with `c`. A lexical error is a token of kind `kEof` whose text is
    the message. -/
def read_token (pos : Nat) (c : UInt8) (rest : Bytes) : Token × Bytes :=
  match punctuation c with
  | some kind => ({ kind, pos }, rest)
  | none =>
    if c = char_byte '!' then
      if rest.head? = some (char_byte '=') then ({ kind := .kNe, pos }, rest.tail)
      else ({ kind := .kEof, text := Bytes.ofString "unexpected '!'", pos }, rest)
    else if c = char_byte '<' then
      if rest.head? = some (char_byte '=') then ({ kind := .kLe, pos }, rest.tail)
      else if rest.head? = some (char_byte '>') then ({ kind := .kNe, pos }, rest.tail)
      else ({ kind := .kLt, pos }, rest)
    else if c = char_byte '>' then
      if rest.head? = some (char_byte '=') then ({ kind := .kGe, pos }, rest.tail)
      else ({ kind := .kGt, pos }, rest)
    else if c = quote then
      match lex_string rest with
      | some (text, unread) => ({ kind := .kString, text, pos }, unread)
      | none => ({ kind := .kEof, text := Bytes.ofString "unterminated string literal", pos }, [])
    else if is_digit c || (c = char_byte '-' && rest.head?.any is_digit) then lex_integer pos (c :: rest)
    else if is_alpha c || c = char_byte '_' then lex_ident_or_keyword pos (c :: rest)
    else ({ kind := .kEof, text := Bytes.ofString "unexpected character '" ++ [c, quote], pos }, rest)

def next_token (pos : Nat) (unread : Bytes) : Token × Bytes :=
  match skip_whitespace unread with
  | [] => ({ kind := .kEof, pos := pos + unread.length }, [])
  | c :: rest => read_token (pos + (unread.length - (c :: rest).length)) c rest

/-- The lexer with the bytes from `pos` on and the current token. -/
structure Lexer where
  unread : Bytes
  pos : Nat
  cur : Token
deriving DecidableEq

namespace Lexer

/-- The lexer at an offset, on the first token that follows it. -/
def at_offset (pos : Nat) (unread : Bytes) : Lexer :=
  let (cur, rest) := next_token pos unread
  { unread := rest, pos := pos + (unread.length - rest.length), cur }

def new (input : Bytes) : Lexer := at_offset 0 input

def advance (lex : Lexer) : Lexer := at_offset lex.pos lex.unread

def error (lex : Lexer) (msg : String) : Status :=
  .InvalidArgument ("SQL parse error at offset " ++ toString lex.cur.pos ++ ": " ++ msg)

/-- What is left to read: the unread bytes and the current token. -/
def left (lex : Lexer) : Nat := lex.unread.length + if lex.cur.kind = .kEof then 0 else 1

end Lexer

end reldb
