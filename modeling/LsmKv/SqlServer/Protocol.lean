import LsmKv.Lib.Decimal
import LsmKv.Lib.Lines
import LsmKv.Reldb.Types

namespace reldb.sqlproto

open lsmkv (Status)

/-- The byte of a character. -/
def byte (c : Char) : UInt8 := UInt8.ofNat c.toNat

/-- The bytes of a source literal. -/
def bytes (s : String) : Bytes := Bytes.ofString s

def hex_value (c : UInt8) : Option Nat :=
  if byte '0' ≤ c ∧ c ≤ byte '9' then some (c.toNat - (byte '0').toNat)
  else if byte 'a' ≤ c ∧ c ≤ byte 'f' then some (c.toNat - (byte 'a').toNat + 10)
  else if byte 'A' ≤ c ∧ c ≤ byte 'F' then some (c.toNat - (byte 'A').toNat + 10)
  else none

def hex_digit (n : Nat) : UInt8 := (bytes "0123456789ABCDEF").getD n 0

def escape_byte (c : UInt8) : Bytes :=
  if c = byte '\\' then bytes "\\\\"
  else if c = byte '\n' then bytes "\\n"
  else if c = byte '\r' then bytes "\\r"
  else if c = byte '\t' then bytes "\\t"
  else if c < 0x20 ∨ c = 0x7F then bytes "\\x" ++ [hex_digit (c.toNat >>> 4), hex_digit (c.toNat &&& 0xF)]
  else [c]

def escape_string (s : Bytes) : Bytes := s.flatMap escape_byte

def unescape_string : Bytes → Except Status Bytes
  | [] => .ok []
  | c :: rest =>
    if c ≠ byte '\\' then (unescape_string rest).map (c :: ·)
    else
      match rest with
      | [] => .error (.InvalidArgument "truncated string escape")
      | e :: rest =>
        if e = byte '\\' then (unescape_string rest).map (byte '\\' :: ·)
        else if e = byte 'n' then (unescape_string rest).map (byte '\n' :: ·)
        else if e = byte 'r' then (unescape_string rest).map (byte '\r' :: ·)
        else if e = byte 't' then (unescape_string rest).map (byte '\t' :: ·)
        else if e = byte 'x' then
          match rest with
          | high :: low :: rest =>
            match hex_value high, hex_value low with
            | some hi, some lo => (unescape_string rest).map (UInt8.ofNat (hi <<< 4 ||| lo) :: ·)
            | _, _ => .error (.InvalidArgument "invalid \\x escape")
          | _ => .error (.InvalidArgument "truncated \\x escape")
        else .error (.InvalidArgument "unknown string escape")

/-- One carriage return at the end of a line is dropped. -/
def strip_return (line : Bytes) : Bytes := if line.getLast? = some (byte '\r') then line.dropLast else line

def split_lines (text : Bytes) : List Bytes := (lines.split (byte '\n') text).map strip_return

/-- `from_chars` on the whole text. -/
def parse_u64 (s : Bytes) : Option Nat := (decimal.decode s).bind fun n => if n < 2 ^ 64 then some n else none

def parse_i64 (s : Bytes) : Option Int64 :=
  (decimal.decodeInt s).bind fun n => if -2 ^ 63 ≤ n ∧ n < 2 ^ 63 then some (Int64.ofInt n) else none

def encode_cell : Value → Bytes
  | .null => bytes "$N"
  | .int64 n => bytes "$I:" ++ decimal.encodeInt n.toInt
  | .bool b => if b then bytes "$B:1" else bytes "$B:0"
  | .string s => bytes "$S:" ++ escape_string s

def decode_cell (line : Bytes) : Except Status Value :=
  if line = bytes "$N" then .ok .null
  else if line.take 3 = bytes "$I:" then
    match parse_i64 (line.drop 3) with
    | none => .error (.InvalidArgument "bad int cell")
    | some v => .ok (.int64 v)
  else if line = bytes "$B:0" then .ok (.bool false)
  else if line = bytes "$B:1" then .ok (.bool true)
  else if line.take 3 = bytes "$S:" then do
    let s ← unescape_string (line.drop 3)
    return .string s
  else .error (.InvalidArgument "unknown cell form")

/-- A reply of these lines; `AppendLine` ends each one. -/
def reply_of_lines (ls : List Bytes) : Bytes := lines.terminated (byte '\n') ls

def encode_ok : Bytes := bytes "+OK\n"

def encode_ok_rows_affected (n : Nat) : Bytes := bytes "+OK rows_affected=" ++ decimal.encode n ++ bytes "\n"

/-- The width of a result block. -/
def result_width (result : QueryResult) : Nat :=
  if result.column_names = [] then (result.rows.head?.map List.length).getD 0 else result.column_names.length

/-- A cell that a row lacks is sent as NULL; one beyond the width is not sent. -/
def row_lines (ncols : Nat) (row : Row) : List Bytes :=
  bytes "*ROW" :: (List.range ncols).map fun c => encode_cell (row.getD c .null)

def result_lines (result : QueryResult) : List Bytes :=
  let ncols := result_width result
  (if result.plan_tag = [] then [] else [bytes "*PLAN " ++ result.plan_tag]) ++
    [bytes "*RESULT " ++ decimal.encode result.rows.length ++ bytes " " ++ decimal.encode ncols,
      bytes "*COLS " ++ decimal.encode ncols] ++
    ((List.range ncols).map fun c => result.column_names.getD c []) ++
    result.rows.flatMap (row_lines ncols) ++
    [bytes "*END"]

def encode_query_result (result : QueryResult) : Bytes :=
  if result.column_names = [] ∧ result.rows = [] then
    if 0 < result.rows_affected then encode_ok_rows_affected result.rows_affected else encode_ok
  else reply_of_lines (result_lines result)

inductive ReplyKind where
  | kOk
  | kPong
  | kError
  | kResult
deriving DecidableEq, Repr

structure DecodedReply where
  kind : ReplyKind
  error_text : Bytes := []
  rows_affected : Option Nat := none
  in_txn : Option Bool := none
  plan_tag : Bytes := []
  result : QueryResult := {}
deriving DecidableEq

/-- The columns named on the next lines, and the lines after them. -/
def take_names : Nat → List Bytes → Except Status (List Bytes × List Bytes)
  | 0, ls => .ok ([], ls)
  | _ + 1, [] => .error (.InvalidArgument "missing column name")
  | n + 1, l :: ls => do
    let (names, ls) ← take_names n ls
    return (l :: names, ls)

def take_cells : Nat → List Bytes → Except Status (List Value × List Bytes)
  | 0, ls => .ok ([], ls)
  | _ + 1, [] => .error (.InvalidArgument "missing cell")
  | n + 1, l :: ls => do
    let cell ← decode_cell l
    let (cells, ls) ← take_cells n ls
    return (cell :: cells, ls)

def take_rows (ncols : Nat) : Nat → List Bytes → Except Status (List Row × List Bytes)
  | 0, ls => .ok ([], ls)
  | _ + 1, [] => .error (.InvalidArgument "expected *ROW")
  | n + 1, l :: ls =>
    if l ≠ bytes "*ROW" then .error (.InvalidArgument "expected *ROW")
    else do
      let (cells, ls) ← take_cells ncols ls
      let (rows, ls) ← take_rows ncols n ls
      return (cells :: rows, ls)

/-- The counts of the header line. -/
def decode_counts (header : Bytes) : Except Status (Nat × Nat) :=
  if header.take 8 ≠ bytes "*RESULT " then .error (.InvalidArgument "expected *RESULT")
  else if byte ' ' ∉ header.drop 8 then .error (.InvalidArgument "bad *RESULT")
  else
    let rest := header.drop 8
    match parse_u64 (rest.takeWhile (· ≠ byte ' ')), parse_u64 ((rest.dropWhile (· ≠ byte ' ')).drop 1) with
    | some nrows, some ncols => .ok (nrows, ncols)
    | _, _ => .error (.InvalidArgument "bad *RESULT counts")

/-- The line that repeats the number of columns. -/
def check_cols (ncols : Nat) (line : Bytes) : Except Status Unit :=
  if line.take 6 ≠ bytes "*COLS " then .error (.InvalidArgument "expected *COLS")
  else if parse_u64 (line.drop 6) ≠ some ncols then .error (.InvalidArgument "*COLS mismatch")
  else .ok ()

/-- A result block after its plan line. -/
def decode_block (plan_tag : Bytes) : List Bytes → Except Status DecodedReply
  | [] => .error (.InvalidArgument "expected *RESULT")
  | header :: ls => do
    let (nrows, ncols) ← decode_counts header
    match ls with
    | [] => .error (.InvalidArgument "expected *COLS")
    | cols :: ls =>
      check_cols ncols cols
      let (names, ls) ← take_names ncols ls
      let (rows, ls) ← take_rows ncols nrows ls
      if ls.head? ≠ some (bytes "*END") then .error (.InvalidArgument "expected *END")
      else
        return { kind := .kResult, plan_tag := plan_tag
                 result := { column_names := names, rows := rows, plan_tag := plan_tag } }

def decode_result (first : Bytes) (ls : List Bytes) : Except Status DecodedReply :=
  if first.take 6 = bytes "*PLAN " then decode_block (first.drop 6) ls else decode_block [] (first :: ls)

/-- What may follow `+OK` on its line. -/
def decode_ok (first : Bytes) : Except Status DecodedReply :=
  let rest := first.drop 4
  if 4 < first.length ∧ first[3]? = some (byte ' ') then
    if rest.take 14 = bytes "rows_affected=" then
      match parse_u64 (rest.drop 14) with
      | none => .error (.InvalidArgument "bad rows_affected")
      | some n => .ok { kind := .kOk, rows_affected := some n }
    else if rest.take 7 = bytes "in_txn=" then
      if rest.drop 7 = bytes "0" then .ok { kind := .kOk, in_txn := some false }
      else if rest.drop 7 = bytes "1" then .ok { kind := .kOk, in_txn := some true }
      else .error (.InvalidArgument "bad in_txn")
    else .ok { kind := .kOk }
  else .ok { kind := .kOk }

def decode_error (first : Bytes) : DecodedReply :=
  { kind := .kError, error_text := if first[4]? = some (byte ' ') then first.drop 5 else first.drop 4 }

def decode_reply (text : Bytes) : Except Status DecodedReply :=
  match split_lines text with
  | [] => .error (.InvalidArgument "empty reply")
  | first :: ls =>
    if first = bytes "+PONG" then .ok { kind := .kPong }
    else if first.take 4 = bytes "-ERR" then .ok (decode_error first)
    else if first.take 3 = bytes "+OK" then decode_ok first
    else decode_result first ls

end reldb.sqlproto
