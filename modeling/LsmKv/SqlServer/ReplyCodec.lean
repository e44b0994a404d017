import LsmKv.SqlServer.Protocol

namespace reldb.sqlproto

open lsmkv (Status)
open List

section Cells

theorem hex_value_hex_digit {n : Nat} (hn : n < 16) : hex_value (hex_digit n) = some n := by
  revert n
  decide

/-- A byte that is written as two digits is read back from them. -/
theorem hex_byte (c : UInt8) : hex_value (hex_digit (c.toNat >>> 4)) = some (c.toNat / 16) ∧
    hex_value (hex_digit (c.toNat &&& 0xF)) = some (c.toNat % 16) ∧
    UInt8.ofNat ((c.toNat / 16) <<< 4 ||| c.toNat % 16) = c := by
  have hbound := c.toNat_lt
  have hhigh : c.toNat >>> 4 = c.toNat / 16 := Nat.shiftRight_eq_div_pow c.toNat 4
  have hlow : c.toNat &&& 0xF = c.toNat % 16 := Nat.and_two_pow_sub_one_eq_mod c.toNat 4
  have hbyte : (c.toNat / 16) <<< 4 ||| c.toNat % 16 = c.toNat := by
    rw [← Nat.shiftLeft_add_eq_or_of_lt (by omega), Nat.shiftLeft_eq]
    omega
  refine ⟨?_, ?_, ?_⟩
  · rw [hhigh]
    exact hex_value_hex_digit (by omega)
  · rw [hlow]
    exact hex_value_hex_digit (by omega)
  · rw [hbyte, UInt8.ofNat_toNat]

theorem unescape_hex (high low : UInt8) (rest : Bytes) :
    unescape_string (byte '\\' :: byte 'x' :: high :: low :: rest) =
      match hex_value high, hex_value low with
      | some hi, some lo => (unescape_string rest).map (UInt8.ofNat (hi <<< 4 ||| lo) :: ·)
      | _, _ => .error (.InvalidArgument "invalid \\x escape") := by
  rw [unescape_string.eq_def]
  rfl

theorem unescape_escape_byte (c : UInt8) (rest : Bytes) :
    unescape_string (escape_byte c ++ rest) = (unescape_string rest).map (c :: ·) := by
  unfold escape_byte
  by_cases hslash : c = byte '\\'
  · rw [if_pos hslash, hslash, unescape_string.eq_def]
    rfl
  rw [if_neg hslash]
  by_cases hnewline : c = byte '\n'
  · rw [if_pos hnewline, hnewline, unescape_string.eq_def]
    rfl
  rw [if_neg hnewline]
  by_cases hreturn : c = byte '\r'
  · rw [if_pos hreturn, hreturn, unescape_string.eq_def]
    rfl
  rw [if_neg hreturn]
  by_cases htab : c = byte '\t'
  · rw [if_pos htab, htab, unescape_string.eq_def]
    rfl
  rw [if_neg htab]
  by_cases hcontrol : c < 0x20 ∨ c = 0x7F
  · obtain ⟨hhigh, hlow, hbyte⟩ := hex_byte c
    rw [if_pos hcontrol]
    refine (unescape_hex _ _ rest).trans ?_
    rw [hhigh, hlow]
    simp only [hbyte]
  · rw [if_neg hcontrol, singleton_append, unescape_string.eq_def]
    exact if_pos hslash

theorem unescape_escape (s : Bytes) : unescape_string (escape_string s) = .ok s := by
  induction s with
  | nil => rfl
  | cons c s ih =>
    show unescape_string (escape_byte c ++ escape_string s) = _
    rw [unescape_escape_byte, ih]
    rfl

/-- No byte of an escape ends a line. -/
theorem escape_byte_clean : ∀ c : UInt8, byte '\n' ∉ escape_byte c ∧ byte '\r' ∉ escape_byte c := by
  decide +kernel

theorem not_mem_encode_cell {b : UInt8} (hb : b = byte '\n' ∨ b = byte '\r') (v : Value) : b ∉ encode_cell v := by
  cases v with
  | null => rcases hb with rfl | rfl <;> decide
  | bool v => cases v <;> rcases hb with rfl | rfl <;> decide
  | int64 n =>
    have hhead : b ∉ bytes "$I:" := by rcases hb with rfl | rfl <;> decide
    have hdigits : b ∉ decimal.encodeInt n.toInt := by
      refine decimal.not_mem_encodeInt ?_ (.inl ?_) <;> rcases hb with rfl | rfl <;> decide
    exact not_mem_append hhead hdigits
  | string s =>
    have hhead : b ∉ bytes "$S:" := by rcases hb with rfl | rfl <;> decide
    refine not_mem_append hhead fun hmem => ?_
    obtain ⟨c, -, hc⟩ := mem_flatMap.mp hmem
    rcases hb with rfl | rfl
    · exact (escape_byte_clean c).1 hc
    · exact (escape_byte_clean c).2 hc

theorem parse_i64_encode (n : Int64) : parse_i64 (decimal.encodeInt n.toInt) = some n := by
  have hlow := n.le_toInt
  have hhigh := n.toInt_lt
  rw [parse_i64, decimal.decodeInt_encodeInt, Option.bind_some, if_pos ⟨hlow, hhigh⟩, Int64.ofInt_toInt]

theorem decode_encode_cell (v : Value) : decode_cell (encode_cell v) = .ok v := by
  cases v with
  | null => rfl
  | bool v => cases v <;> rfl
  | int64 n =>
    have htake : (encode_cell (.int64 n)).take 3 = bytes "$I:" := rfl
    have hdrop : (encode_cell (.int64 n)).drop 3 = decimal.encodeInt n.toInt := rfl
    have hnull : encode_cell (.int64 n) ≠ bytes "$N" := fun h => absurd (congrArg (List.take 3) h) (by rw [htake]; decide)
    rw [decode_cell, if_neg hnull, if_pos htake, hdrop, parse_i64_encode]
  | string s =>
    have htake : (encode_cell (.string s)).take 3 = bytes "$S:" := rfl
    have hdrop : (encode_cell (.string s)).drop 3 = escape_string s := rfl
    have hother : ∀ line : Bytes, line.take 3 ≠ bytes "$S:" → encode_cell (.string s) ≠ line :=
      fun line hline h => hline (h ▸ htake)
    rw [decode_cell, if_neg (hother _ (by decide)), if_neg (by rw [htake]; decide), if_neg (hother _ (by decide)),
      if_neg (hother _ (by decide)), if_pos htake, hdrop, unescape_escape]
    rfl

end Cells

section Lines

theorem strip_return_eq {line : Bytes} (h : line.getLast? ≠ some (byte '\r')) : strip_return line = line := if_neg h

theorem strip_return_of_not_mem {line : Bytes} (h : byte '\r' ∉ line) : strip_return line = line :=
  strip_return_eq fun hlast => h (mem_of_getLast? hlast)

theorem strip_return_append (front : Bytes) {line : Bytes} (hline : line ≠ []) :
    strip_return (front ++ line) = front ++ strip_return line := by
  unfold strip_return
  rw [List.getLast?_append_of_ne_nil _ hline]
  split
  · exact dropLast_append_of_ne_nil hline
  · rfl

/-- The lines of a reply are read back, each without a carriage return at its end. -/
theorem split_reply {ls : List Bytes} (hls : ∀ l ∈ ls, byte '\n' ∉ l) :
    split_lines (reply_of_lines ls) = ls.map strip_return := by
  rw [split_lines, reply_of_lines, lines.split_terminated hls]

theorem take_names_append (names ls : List Bytes) : take_names names.length (names ++ ls) = .ok (names, ls) := by
  induction names with
  | nil => rfl
  | cons name names ih =>
    rw [length_cons, cons_append, take_names, ih]
    rfl

theorem take_cells_append (cells : List Value) (ls : List Bytes) :
    take_cells cells.length (cells.map encode_cell ++ ls) = .ok (cells, ls) := by
  induction cells with
  | nil => rfl
  | cons cell cells ih =>
    rw [length_cons, map_cons, cons_append, take_cells, decode_encode_cell]
    show (take_cells cells.length (cells.map encode_cell ++ ls)).bind _ = _
    rw [ih]
    rfl

/-- The cells of a row that a reply of this width carries. -/
def fit (ncols : Nat) (row : Row) : Row := (List.range ncols).map fun c => row.getD c .null

@[simp] theorem fit_length (ncols : Nat) (row : Row) : (fit ncols row).length = ncols := by simp [fit]

theorem fit_eq_iff {ncols : Nat} {row : Row} : fit ncols row = row ↔ row.length = ncols := by
  refine ⟨fun h => by rw [← h, fit_length], fun h => ext_getElem? fun c => ?_⟩
  subst h
  by_cases hc : c < row.length
  · simp [fit, hc]
  · simp [fit, hc]

theorem row_lines_eq (ncols : Nat) (row : Row) : row_lines ncols row = bytes "*ROW" :: (fit ncols row).map encode_cell := by
  rw [row_lines, fit, map_map]
  rfl

theorem take_rows_append (ncols : Nat) (rows : List Row) (ls : List Bytes) :
    take_rows ncols rows.length (rows.flatMap (row_lines ncols) ++ ls) = .ok (rows.map (fit ncols), ls) := by
  induction rows with
  | nil => rfl
  | cons row rows ih =>
    have hcells := take_cells_append (fit ncols row) (rows.flatMap (row_lines ncols) ++ ls)
    rw [fit_length] at hcells
    rw [flatMap_cons, row_lines_eq, length_cons, cons_append, cons_append, append_assoc,
      take_rows, if_neg (not_not.mpr rfl)]
    show (take_cells ncols _).bind _ = _
    rw [hcells]
    show (take_rows ncols rows.length _).bind _ = _
    rw [ih]
    rfl

end Lines

section Blocks

theorem parse_u64_encode {n : Nat} (hn : n < 2 ^ 64) : parse_u64 (decimal.encode n) = some n := by
  rw [parse_u64, decimal.decode_encode, Option.bind_some, if_pos hn]

/-- The header line of a result block. -/
def header_line (nrows ncols : Nat) : Bytes :=
  bytes "*RESULT " ++ decimal.encode nrows ++ bytes " " ++ decimal.encode ncols

theorem decode_counts_header {nrows ncols : Nat} (hrows : nrows < 2 ^ 64) (hcols : ncols < 2 ^ 64) :
    decode_counts (header_line nrows ncols) = .ok (nrows, ncols) := by
  have hdrop : (header_line nrows ncols).drop 8 = decimal.encode nrows ++ byte ' ' :: decimal.encode ncols := by
    rw [header_line, append_assoc, append_assoc]
    rfl
  have hspace : ∀ b ∈ decimal.encode nrows, decide (b ≠ byte ' ') = true := by
    intro b hb
    refine decide_eq_true fun h => ?_
    exact decimal.not_mem_encode (.inl (by decide)) (h ▸ hb)
  have hbefore : (decimal.encode nrows ++ byte ' ' :: decimal.encode ncols).takeWhile (· ≠ byte ' ') =
      decimal.encode nrows := by
    rw [takeWhile_append_of_pos hspace, takeWhile_cons_of_neg (by simp), append_nil]
  have hafter : (decimal.encode nrows ++ byte ' ' :: decimal.encode ncols).dropWhile (· ≠ byte ' ') =
      byte ' ' :: decimal.encode ncols := by
    rw [dropWhile_append_of_pos hspace, dropWhile_cons_of_neg (by simp)]
  have htake : (header_line nrows ncols).take 8 = bytes "*RESULT " := by
    rw [header_line, append_assoc, append_assoc]
    rfl
  rw [decode_counts, if_neg (not_not.mpr htake), hdrop, if_neg (not_not.mpr (by simp))]
  simp only [hbefore, hafter, drop_one, tail_cons, parse_u64_encode hrows, parse_u64_encode hcols]

theorem check_cols_line {ncols : Nat} (hcols : ncols < 2 ^ 64) :
    check_cols ncols (bytes "*COLS " ++ decimal.encode ncols) = .ok () := by
  have htake : (bytes "*COLS " ++ decimal.encode ncols).take 6 = bytes "*COLS " := rfl
  have hdrop : (bytes "*COLS " ++ decimal.encode ncols).drop 6 = decimal.encode ncols := rfl
  rw [check_cols, if_neg (not_not.mpr htake), hdrop, parse_u64_encode hcols, if_neg (not_not.mpr rfl)]

/-- The lines of a block whose names are these. -/
def block_lines (names : List Bytes) (rows : List Row) : List Bytes :=
  header_line rows.length names.length :: (bytes "*COLS " ++ decimal.encode names.length) ::
    (names ++ (rows.flatMap (row_lines names.length) ++ [bytes "*END"]))

theorem decode_block_lines {names : List Bytes} {rows : List Row} (hcols : names.length < 2 ^ 64)
    (hrows : rows.length < 2 ^ 64) (plan_tag : Bytes) :
    decode_block plan_tag (block_lines names rows) =
      .ok { kind := .kResult, plan_tag := plan_tag
            result := { column_names := names, rows := rows.map (fit names.length), plan_tag := plan_tag } } := by
  rw [block_lines, decode_block, decode_counts_header hrows hcols]
  show (check_cols names.length _).bind _ = _
  rw [check_cols_line hcols]
  show (take_names names.length _).bind _ = _
  rw [take_names_append]
  show (take_rows names.length rows.length _).bind _ = _
  rw [take_rows_append]
  rfl

end Blocks

section Replies

variable {result : QueryResult}

/-- The plan line, which a reply has only for a plan that has a tag. -/
def plan_lines (plan_tag : Bytes) : List Bytes := if plan_tag = [] then [] else [bytes "*PLAN " ++ plan_tag]

theorem result_lines_eq (hcols : result.column_names ≠ []) :
    result_lines result = plan_lines result.plan_tag ++ block_lines result.column_names result.rows := by
  have hwidth : result_width result = result.column_names.length := if_neg hcols
  have hnames : (List.range result.column_names.length).map (fun c => result.column_names.getD c []) =
      result.column_names := by
    refine ext_getElem? fun c => ?_
    by_cases hc : c < result.column_names.length
    · simp [hc]
    · simp [hc]
  simp only [result_lines, hwidth, hnames, plan_lines, block_lines, header_line, append_assoc, cons_append,
    nil_append]

theorem strip_block_lines (names : List Bytes) (rows : List Row) :
    (block_lines names rows).map strip_return = block_lines (names.map strip_return) rows := by
  have hdigits : ∀ n, byte '\r' ∉ decimal.encode n := fun n => decimal.not_mem_encode (.inl (by decide))
  have hheader : strip_return (header_line rows.length names.length) = header_line rows.length names.length := by
    refine strip_return_of_not_mem ?_
    rw [header_line]
    simp only [mem_append, not_or]
    exact ⟨⟨⟨by decide, hdigits _⟩, by decide⟩, hdigits _⟩
  have hcols : strip_return (bytes "*COLS " ++ decimal.encode names.length) =
      bytes "*COLS " ++ decimal.encode names.length :=
    strip_return_of_not_mem (not_mem_append (by decide) (hdigits _))
  have hrow : ∀ row : Row, (row_lines names.length row).map strip_return = row_lines names.length row := by
    intro row
    rw [row_lines_eq, map_cons, map_map]
    refine congrArg₂ _ (by decide) (map_congr_left fun v _ => ?_)
    exact strip_return_of_not_mem (not_mem_encode_cell (.inr rfl) v)
  have hend : strip_return (bytes "*END") = bytes "*END" := by decide
  simp only [block_lines, map_cons, map_append, map_nil, length_map, hheader, hcols, hend,
    map_flatMap, hrow]

theorem newline_not_mem_block_lines {names : List Bytes} (hnames : ∀ name ∈ names, byte '\n' ∉ name) {rows : List Row}
    {l : Bytes} (hl : l ∈ block_lines names rows) : byte '\n' ∉ l := by
  have hdigits : ∀ n, byte '\n' ∉ decimal.encode n := fun n => decimal.not_mem_encode (.inl (by decide))
  simp only [block_lines, mem_cons, mem_append, mem_flatMap, not_mem_nil, or_false] at hl
  rcases hl with rfl | rfl | hname | ⟨row, -, hrow⟩ | rfl
  · rw [header_line]
    simp only [mem_append, not_or]
    exact ⟨⟨⟨by decide, hdigits _⟩, by decide⟩, hdigits _⟩
  · exact not_mem_append (by decide) (hdigits _)
  · exact hnames l hname
  · rw [row_lines_eq] at hrow
    rcases mem_cons.mp hrow with rfl | hcell
    · decide
    · obtain ⟨v, -, rfl⟩ := mem_map.mp hcell
      exact not_mem_encode_cell (.inl rfl) v
  · decide

/-- A reply that starts with a star is a result block. -/
theorem decode_reply_star {text first : Bytes} {ls : List Bytes} (hsplit : split_lines text = first :: ls)
    (hstar : first.head? = some (byte '*')) : decode_reply text = decode_result first ls := by
  have hother : ∀ n (line : Bytes), line.head? ≠ some (byte '*') → first.take (n + 1) ≠ line := by
    intro n line hline htake
    refine hline (htake ▸ ?_)
    rw [List.head?_take, if_neg (Nat.succ_ne_zero n), hstar]
  have hpong : first ≠ bytes "+PONG" := by
    rintro rfl
    exact absurd hstar (by decide)
  rw [decode_reply, hsplit]
  dsimp only
  rw [if_neg hpong, if_neg (hother 3 _ (by decide)), if_neg (hother 2 _ (by decide))]

/-- What a client reads from a result whose names and tag have no newline. -/
theorem decode_encode_result (hcols : result.column_names ≠ []) (hwidth : result.column_names.length < 2 ^ 64)
    (hrows : result.rows.length < 2 ^ 64) (hnames : ∀ name ∈ result.column_names, byte '\n' ∉ name)
    (htag : byte '\n' ∉ result.plan_tag) :
    decode_reply (encode_query_result result) =
      .ok { kind := .kResult, plan_tag := strip_return result.plan_tag
            result := { column_names := result.column_names.map strip_return
                        rows := result.rows.map (fit result.column_names.length)
                        plan_tag := strip_return result.plan_tag } } := by
  have hlines : ∀ l ∈ result_lines result, byte '\n' ∉ l := by
    intro l hl
    rw [result_lines_eq hcols] at hl
    rcases mem_append.mp hl with hplan | hblock
    · unfold plan_lines at hplan
      split at hplan
      · cases hplan
      · rw [mem_singleton.mp hplan]
        exact not_mem_append (by decide) htag
    · exact newline_not_mem_block_lines hnames hblock
  have hblock := @decode_block_lines (result.column_names.map strip_return) result.rows (by rwa [length_map]) hrows
  rw [length_map] at hblock
  have hsplit : split_lines (encode_query_result result) =
      (plan_lines result.plan_tag).map strip_return ++ block_lines (result.column_names.map strip_return) result.rows := by
    rw [encode_query_result, if_neg (fun h => hcols h.1), split_reply hlines, result_lines_eq hcols, map_append,
      strip_block_lines]
  by_cases hplan : result.plan_tag = []
  · rw [plan_lines, if_pos hplan] at hsplit
    rw [decode_reply_star hsplit rfl, hplan]
    exact hblock []
  · rw [plan_lines, if_neg hplan, map_singleton, strip_return_append _ hplan] at hsplit
    rw [decode_reply_star hsplit rfl]
    exact hblock (strip_return result.plan_tag)

/-- A text that is a line of a reply as it is. -/
def OneLine (text : Bytes) : Prop := byte '\n' ∉ text ∧ text.getLast? ≠ some (byte '\r')

instance (text : Bytes) : Decidable (OneLine text) := inferInstanceAs (Decidable (_ ∧ _))

/-- A vector of the program has a size that fits 64 bits. -/
def Sized (result : QueryResult) : Prop :=
  result.column_names.length < 2 ^ 64 ∧ result.rows.length < 2 ^ 64

instance (result : QueryResult) : Decidable (Sized result) := inferInstanceAs (Decidable (_ ∧ _))

/-- A client reads from the reply what the server encoded: the plan tag, the column names
    and the rows. Names and tag are assumed to be lines of text, and the rows to be as
    wide as the header, which is not empty; nothing is assumed about the values. -/
theorem reply_round_trip (hsized : Sized result) (hcols : result.column_names ≠ [])
    (hwidth : ∀ row ∈ result.rows, row.length = result.column_names.length)
    (hnames : ∀ name ∈ result.column_names, OneLine name) (htag : OneLine result.plan_tag) :
    ∃ reply, decode_reply (encode_query_result result) = .ok reply ∧ reply.kind = .kResult ∧
      reply.plan_tag = result.plan_tag ∧ reply.result.column_names = result.column_names ∧
      reply.result.rows = result.rows := by
  refine ⟨_, decode_encode_result hcols hsized.1 hsized.2 (fun name hname => (hnames name hname).1) htag.1,
    rfl, strip_return_eq htag.2, ?_, ?_⟩
  · exact (map_congr_left fun name hname => strip_return_eq (hnames name hname).2).trans (map_id' _)
  · exact (map_congr_left fun row hrow => fit_eq_iff.mpr (hwidth row hrow)).trans (map_id' _)

/-- Names and cells that look like marks of the protocol come through. -/
theorem reply_round_trip_marks :
    ∃ reply, decode_reply (encode_query_result
      { column_names := [bytes "*END", bytes "$N", []]
        rows := [[.string (bytes "*ROW\r\n\\x"), .int64 (-9223372036854775808), .null], [.bool true, .string [], .string [0, 255]]]
        plan_tag := bytes "Limit<-SeqScan" }) = .ok reply ∧ reply.kind = .kResult ∧
      reply.plan_tag = bytes "Limit<-SeqScan" ∧ reply.result.column_names = [bytes "*END", bytes "$N", []] ∧
      reply.result.rows =
        [[.string (bytes "*ROW\r\n\\x"), .int64 (-9223372036854775808), .null], [.bool true, .string [], .string [0, 255]]] :=
  reply_round_trip (by decide) (by decide) (by decide) (by decide) (by decide)

end Replies

end reldb.sqlproto
