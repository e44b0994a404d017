import LsmKv.Lib.Descent
import LsmKv.Reldb.Sql.Lexer

namespace reldb

open List Option

/-- The contents of a string literal with its quotes doubled. -/
def double_quotes (text : Bytes) : Bytes := text.flatMap fun c => if c = quote then [quote, quote] else [c]

/-- The comparison operators with more than one spelling or more than one byte. -/
def operators : List (String × TokenKind) :=
  [("!=", .kNe), ("<>", .kNe), ("<", .kLt), ("<=", .kLe), (">", .kGt), (">=", .kGe)]

/-- The spellings of the tokens. The offset is left out. -/
inductive Spells : Token → Bytes → Prop where
  | punctuation {c : UInt8} {kind : TokenKind} : punctuation c = some kind → Spells { kind } [c]
  | operator {op : String} {kind : TokenKind} : (op, kind) ∈ operators → Spells { kind } (Bytes.ofString op)
  | string (text : Bytes) : Spells { kind := .kString, text } (quote :: (double_quotes text ++ [quote]))
  | integer {text : Bytes} {int_val : Int64} :
      stoll text = some int_val → Spells { kind := .kInteger, text, int_val } text
  | word {c : UInt8} {text : Bytes} : is_alpha c ∨ c = char_byte '_' → (∀ d ∈ text, is_word d = true) →
      Spells { kind := keyword_kind ((c :: text).map to_lower), text := c :: text } (c :: text)

/-- An integer literal that does not fit, and the token that stands for it. -/
def OutOfRange (t : Token) (text : Bytes) : Prop :=
  t = { kind := .kIdent, text := Bytes.ofString "integer out of range" } ∧
    ∃ n, decimal.decodeInt text = some n ∧ ¬(-2 ^ 63 ≤ n ∧ n < 2 ^ 63)

/-- A token without its offset. -/
def Token.lexeme (t : Token) : Token := { t with pos := 0 }

/-- A token that reports a lexical error. -/
def Token.IsError (t : Token) : Prop := t.kind = .kEof ∧ t.text ≠ []

theorem double_quotes_cons (c : UInt8) (text : Bytes) :
    double_quotes (c :: text) = (if c = quote then [quote, quote] else [c]) ++ double_quotes text :=
  flatMap_cons ..

variable {unread text : Bytes} {c : UInt8} {input : Bytes} {t : Token}

/-- A string literal ends at the first quote that is not doubled. -/
theorem lex_string_double_quotes (text : Bytes) (hend : unread.head? ≠ some quote) :
    lex_string (double_quotes text ++ quote :: unread) = some (text, unread) := by
  induction text with
  | nil =>
    cases unread with
    | nil => rfl
    | cons d rest =>
      have hd : d ≠ quote := fun hd => hend (by rw [hd]; rfl)
      simp only [double_quotes, flatMap_nil, nil_append, lex_string, if_true, if_neg hd]
  | cons c text ih =>
    rw [double_quotes_cons]
    split
    · next hc =>
      subst hc
      simp only [cons_append, nil_append, lex_string, if_true, ih, map_some]
    · next hc =>
      obtain ⟨d, rest, hrest⟩ : ∃ d rest, double_quotes text ++ quote :: unread = d :: rest :=
        exists_cons_of_ne_nil (by simp)
      rw [append_assoc, cons_append, nil_append, hrest]
      simp only [lex_string, if_neg hc, ← hrest, ih, map_some]

theorem lex_string_eq_some {s : Bytes} (hlex : lex_string s = some (text, unread)) :
    s = double_quotes text ++ quote :: unread ∧ unread.head? ≠ some quote := by
  fun_induction lex_string s generalizing text with
  | case1 => cases hlex
  | case2 =>
    obtain ⟨rfl, rfl⟩ := hlex
    exact ⟨rfl, by simp⟩
  | case3 => cases hlex
  | case4 rest ih =>
    obtain ⟨⟨out, after⟩, hout, heq⟩ := map_eq_some_iff.mp hlex
    obtain ⟨rfl, rfl⟩ := heq
    obtain ⟨hs, hend⟩ := ih hout
    rw [double_quotes_cons, if_pos rfl, hs]
    exact ⟨rfl, hend⟩
  | case5 d rest hd =>
    obtain ⟨rfl, rfl⟩ := hlex
    exact ⟨rfl, fun hhead => hd (Option.some.inj hhead)⟩
  | case6 c d rest hc ih =>
    obtain ⟨⟨out, after⟩, hout, heq⟩ := map_eq_some_iff.mp hlex
    obtain ⟨rfl, rfl⟩ := heq
    obtain ⟨hs, hend⟩ := ih hout
    rw [double_quotes_cons, if_neg hc, hs]
    exact ⟨rfl, hend⟩

theorem is_digit_iff : is_digit c = true ↔ (decimal.digit c).isSome := by
  rw [decimal.digit_isSome_iff]
  simp [is_digit, char_byte, UInt8.le_iff_toNat_le]

/-- No byte that `p` accepts comes next. -/
def Stops (p : UInt8 → Bool) (unread : Bytes) : Prop := ∀ c ∈ unread.head?, p c = false

theorem span_append {p : UInt8 → Bool} {run : Bytes} (hrun : ∀ c ∈ run, p c = true) (hstop : Stops p unread) :
    (run ++ unread).takeWhile p = run ∧ (run ++ unread).dropWhile p = unread := by
  rw [takeWhile_append_of_pos hrun, dropWhile_append_of_pos hrun]
  cases unread with
  | nil => exact ⟨append_nil _, rfl⟩
  | cons c unread =>
    have hc := hstop c rfl
    simp [hc]

theorem lex_digits_append (htext : (decimal.decodeInt text).isSome)
    (hstop : Stops is_digit unread) : lex_digits (text ++ unread) = (text, unread) := by
  obtain ⟨digits, hne, hdigits, htext⟩ := decimal.decodeInt_isSome_iff.mp htext
  have hspan := span_append (fun c hc => is_digit_iff.mpr (hdigits c hc)) hstop
  rcases htext with rfl | rfl
  · obtain ⟨c, text, rfl⟩ := exists_cons_of_ne_nil hne
    have hsign : c ≠ char_byte '-' := by
      rintro rfl
      exact absurd (hdigits _ (mem_cons_self ..)) (by decide)
    rw [cons_append] at hspan ⊢
    rw [lex_digits, if_neg hsign, hspan.1, hspan.2]
  · rw [cons_append, lex_digits, if_pos (by decide), hspan.1, hspan.2]

theorem lex_digits_cons {rest : Bytes} (hc : is_digit c = true ∨ c = char_byte '-' ∧ rest.head?.any is_digit = true) :
    ∃ text unread, lex_digits (c :: rest) = (text, unread) ∧ c :: rest = text ++ unread ∧
      (decimal.decodeInt text).isSome := by
  have hspan : ∀ bytes : Bytes, bytes.head?.any is_digit = true →
      bytes.takeWhile is_digit ≠ [] ∧ ∀ b ∈ bytes.takeWhile is_digit, (decimal.digit b).isSome := by
    intro bytes hhead
    refine ⟨?_, fun b hb => is_digit_iff.mp (mem_takeWhile_imp hb)⟩
    cases bytes with
    | nil => cases hhead
    | cons b bytes => simp [show is_digit b = true from hhead]
  rw [lex_digits]
  split
  · next hsign =>
    have hhead : rest.head?.any is_digit = true := by
      rcases hc with hdigit | hc
      · rw [hsign] at hdigit
        exact absurd hdigit (by decide)
      · exact hc.2
    obtain ⟨hne, hdigits⟩ := hspan rest hhead
    refine ⟨_, _, rfl, by rw [cons_append, takeWhile_append_dropWhile], ?_⟩
    exact decimal.decodeInt_isSome_iff.mpr ⟨_, hne, hdigits, .inr (by rw [hsign]; rfl)⟩
  · next hsign =>
    have hhead : (c :: rest).head?.any is_digit = true := hc.resolve_right fun hc => hsign hc.1
    obtain ⟨hne, hdigits⟩ := hspan (c :: rest) hhead
    refine ⟨_, _, rfl, (takeWhile_append_dropWhile ..).symm, ?_⟩
    exact decimal.decodeInt_isSome_iff.mpr ⟨_, hne, hdigits, .inl rfl⟩

theorem stoll_eq_none_iff {n : Int} (htext : decimal.decodeInt text = some n) :
    stoll text = none ↔ ¬(-2 ^ 63 ≤ n ∧ n < 2 ^ 63) := by
  simp [stoll, htext]

/-- What the lexer takes from the input for a token, an error aside: the spelling of the
    token, or an integer that does not fit. -/
def Takes (t : Token) (unread input : Bytes) : Prop :=
  t.IsError ∧ unread.length ≤ input.length ∨ ∃ text, input = text ++ unread ∧
    (Spells t.lexeme text ∧ (t.kind = .kString → unread.head? ≠ some quote) ∨ OutOfRange t.lexeme text)

theorem takes_operator (op : String) (kind : TokenKind) (hop : (op, kind) ∈ operators) (pos : Nat)
    (hinput : input = Bytes.ofString op ++ unread) : Takes { kind, pos } unread input := by
  refine .inr ⟨_, hinput, .inl ⟨.operator hop, fun hkind => ?_⟩⟩
  exact absurd hkind ((by decide : ∀ op ∈ operators, op.2 ≠ .kString) _ hop)

theorem lex_integer_takes (pos : Nat) {rest : Bytes}
    (hc : is_digit c = true ∨ c = char_byte '-' ∧ rest.head?.any is_digit = true) :
    Takes (lex_integer pos (c :: rest)).1 (lex_integer pos (c :: rest)).2 (c :: rest) := by
  obtain ⟨text, unread, hlex, hinput, hsome⟩ := lex_digits_cons hc
  obtain ⟨n, hn⟩ := isSome_iff_exists.mp hsome
  rw [lex_integer, hlex]
  dsimp only
  cases hstoll : stoll text with
  | some int_val => exact .inr ⟨text, hinput, .inl ⟨.integer hstoll, by simp⟩⟩
  | none => exact .inr ⟨text, hinput, .inr ⟨rfl, n, hn, (stoll_eq_none_iff hn).mp hstoll⟩⟩

theorem keyword_kind_cases (lower : Bytes) :
    keyword_kind lower = .kIdent ∨ ∃ entry ∈ keywords, Bytes.ofString entry.1 = lower ∧ keyword_kind lower = entry.2 := by
  unfold keyword_kind
  cases hfind : keywords.find? fun entry => Bytes.ofString entry.1 = lower with
  | none => exact .inl rfl
  | some entry =>
    exact .inr ⟨entry, mem_of_find?_eq_some hfind, by simpa using List.find?_some hfind, rfl⟩

theorem keyword_kind_ne {kind : TokenKind} (hident : kind ≠ .kIdent) (hkind : ∀ entry ∈ keywords, entry.2 ≠ kind)
    (lower : Bytes) : keyword_kind lower ≠ kind := by
  rcases keyword_kind_cases lower with heq | ⟨entry, hentry, -, heq⟩
  · rw [heq]
    exact hident.symm
  · rw [heq]
    exact hkind entry hentry

theorem lex_ident_or_keyword_takes (pos : Nat) (rest : Bytes) (hc : is_alpha c = true ∨ c = char_byte '_') :
    Takes (lex_ident_or_keyword pos (c :: rest)).1 (lex_ident_or_keyword pos (c :: rest)).2 (c :: rest) := by
  have hword : is_word c = true := by
    rcases hc with hc | hc <;> simp [is_word, is_alnum, hc]
  have htake : (c :: rest).takeWhile is_word = c :: rest.takeWhile is_word := by simp [hword]
  refine .inr ⟨(c :: rest).takeWhile is_word, (takeWhile_append_dropWhile ..).symm, .inl ⟨?_, ?_⟩⟩
  · have hspells := Spells.word hc (fun d hd => mem_takeWhile_imp hd : ∀ d ∈ rest.takeWhile is_word, is_word d = true)
    rw [← htake] at hspells
    exact hspells
  · intro hkind
    exact absurd hkind (keyword_kind_ne (by decide) (by decide) _)

theorem punctuation_ne_kString (c : UInt8) : punctuation c ≠ some .kString := by
  unfold punctuation
  grind

theorem read_token_takes (pos : Nat) (c : UInt8) (rest : Bytes) :
    Takes (read_token pos c rest).1 (read_token pos c rest).2 (c :: rest) := by
  have hnext : ∀ {d : Char}, rest.head? = some (char_byte d) → c :: rest = [c, char_byte d] ++ rest.tail :=
    fun hhead => congrArg _ (eq_cons_of_mem_head? hhead)
  have herror : ∀ {text unread : Bytes}, text ≠ [] → unread.length ≤ (c :: rest).length →
      Takes { kind := .kEof, text, pos } unread (c :: rest) := fun htext hlength => .inl ⟨⟨rfl, htext⟩, hlength⟩
  unfold read_token
  split
  · next kind hkind =>
    refine .inr ⟨[c], rfl, .inl ⟨.punctuation hkind, ?_⟩⟩
    rintro rfl
    exact absurd hkind (punctuation_ne_kString c)
  split
  · next hc =>
    split
    · next heq => exact takes_operator "!=" .kNe (by decide) pos (hc ▸ hnext heq)
    · exact herror (by decide) (by simp)
  split
  · next hc =>
    split
    · next heq => exact takes_operator "<=" .kLe (by decide) pos (hc ▸ hnext heq)
    split
    · next heq => exact takes_operator "<>" .kNe (by decide) pos (hc ▸ hnext heq)
    · exact takes_operator "<" .kLt (by decide) pos (hc ▸ rfl)
  split
  · next hc =>
    split
    · next heq => exact takes_operator ">=" .kGe (by decide) pos (hc ▸ hnext heq)
    · exact takes_operator ">" .kGt (by decide) pos (hc ▸ rfl)
  split
  · next hc =>
    split
    · next text unread hlex =>
      obtain ⟨hinput, hend⟩ := lex_string_eq_some hlex
      refine .inr ⟨_, ?_, .inl ⟨.string text, fun _ => hend⟩⟩
      rw [hc, hinput]
      simp
    · exact herror (by decide) (by simp)
  split
  · next hc => exact lex_integer_takes pos (by simpa using hc)
  split
  · next hc => exact lex_ident_or_keyword_takes pos rest (by simpa using hc)
  · exact herror (by simp) (by simp)

/-- The end of the input, which is not an error. -/
def Token.IsEnd (t : Token) : Prop := t.kind = .kEof ∧ t.text = []

theorem next_token_takes (pos : Nat) (unread : Bytes) :
    ((next_token pos unread).1.IsEnd ∧ (next_token pos unread).2 = [] ∧ ∀ c ∈ unread, is_space c = true) ∨
      ∃ blanks input, unread = blanks ++ input ∧ (∀ c ∈ blanks, is_space c = true) ∧
        Takes (next_token pos unread).1 (next_token pos unread).2 input := by
  have hsplit : unread = unread.takeWhile is_space ++ skip_whitespace unread := takeWhile_append_dropWhile.symm
  have hblanks : ∀ c ∈ unread.takeWhile is_space, is_space c = true := fun c hc => mem_takeWhile_imp hc
  unfold next_token
  split
  · next hskip =>
    rw [hskip, append_nil] at hsplit
    exact .inl ⟨⟨rfl, rfl⟩, rfl, hsplit ▸ hblanks⟩
  · next c rest hskip => exact .inr ⟨_, _, hskip ▸ hsplit, hblanks, read_token_takes _ c rest⟩

theorem Spells.kind_ne_kEof (hspells : Spells t text) : t.kind ≠ .kEof := by
  cases hspells with
  | @punctuation c kind hc =>
    rintro rfl
    unfold reldb.punctuation at hc
    grind
  | operator hop => exact (by decide : ∀ op ∈ operators, op.2 ≠ .kEof) _ hop
  | string | integer => simp
  | word => exact keyword_kind_ne (by decide) (by decide) _

theorem OutOfRange.kind_eq (hrange : OutOfRange t.lexeme text) : t.kind = .kIdent :=
  congrArg Token.kind hrange.1

theorem Takes.not_isEnd (htakes : Takes t unread input) : ¬t.IsEnd := by
  rintro ⟨hkind, htext⟩
  obtain ⟨⟨-, herror⟩, -⟩ | ⟨text, -, ⟨hspells, -⟩ | hrange⟩ := htakes
  · exact herror htext
  · exact hspells.kind_ne_kEof hkind
  · rw [hrange.kind_eq] at hkind
    cases hkind

theorem Takes.eq_append (htakes : Takes t unread input) (hkind : t.kind ≠ .kEof) :
    ∃ text, input = text ++ unread := by
  obtain ⟨⟨herror, -⟩, -⟩ | ⟨text, hinput, -⟩ := htakes
  · exact absurd herror hkind
  · exact ⟨text, hinput⟩

theorem Spells.ne_nil (hspells : Spells t text) : text ≠ [] := by
  cases hspells with
  | punctuation => exact cons_ne_nil _ _
  | operator hop => exact (by decide +kernel : ∀ op ∈ operators, Bytes.ofString op.1 ≠ []) _ hop
  | string => exact cons_ne_nil _ _
  | integer hstoll =>
    rintro rfl
    cases hstoll
  | word => exact cons_ne_nil _ _

/-- A token takes a byte at least, an error aside. -/
theorem Takes.length_le (htakes : Takes t unread input) :
    (unread.length + if t.kind = .kEof then 0 else 1) ≤ input.length := by
  obtain ⟨⟨hkind, -⟩, hlength⟩ | ⟨text, rfl, htext⟩ := htakes
  · rw [if_pos hkind]
    exact hlength
  · have hne : text ≠ [] := by
      rcases htext with ⟨hspells, -⟩ | ⟨-, n, hn, -⟩
      · exact hspells.ne_nil
      · rintro rfl
        cases hn
    have hpos := length_pos_of_ne_nil hne
    rw [length_append]
    split <;> omega

/-- The lexer is at the end where only blanks are left. -/
theorem next_token_isEnd_iff (pos : Nat) (unread : Bytes) :
    (next_token pos unread).1.IsEnd ↔ ∀ c ∈ unread, is_space c = true := by
  constructor
  · intro hend
    rcases next_token_takes pos unread with ⟨-, -, hblank⟩ | ⟨_, _, -, -, htakes⟩
    · exact hblank
    · exact absurd hend htakes.not_isEnd
  · intro hblank
    have hskip : skip_whitespace unread = [] := dropWhile_eq_nil_iff.mpr hblank
    rw [next_token, hskip]
    exact ⟨rfl, rfl⟩

namespace Lexer

/-- The lexer as a source of tokens; their offsets are left out. -/
def source : descent.Source Lexer Token where
  cur lex := lex.cur.lexeme
  next := advance
  Ends t := t.kind = .kEof

instance : DecidablePred source.Ends := fun t => inferInstanceAs (Decidable (t.kind = .kEof))

/-- The tokens that are read from one state of the lexer to another. -/
abbrev Consumes (lex : Lexer) (ts : List Token) (lex' : Lexer) : Prop := source.Consumes lex ts lex'

theorem Consumes.cons {lex lex' : Lexer} {t : Token} {ts : List Token} (hts : lex.Consumes (t :: ts) lex') :
    lex.cur.kind = t.kind ∧ lex.advance.Consumes ts lex' := by
  obtain ⟨rfl, -, hts⟩ := hts
  exact ⟨rfl, hts⟩

theorem left_at_offset_le (pos : Nat) (unread : Bytes) : (at_offset pos unread).left ≤ unread.length := by
  change (next_token pos unread).2.length + (if (next_token pos unread).1.kind = .kEof then 0 else 1) ≤ unread.length
  rcases next_token_takes pos unread with ⟨hend, hrest, -⟩ | ⟨blanks, input, hunread, -, htakes⟩
  · rw [if_pos hend.1, hrest]
    exact Nat.zero_le _
  · have hlength := htakes.length_le
    have happend := congrArg List.length hunread
    rw [length_append] at happend
    omega

/-- Every token that is read leaves less. -/
theorem Consumes.left_le {lex lex' : Lexer} {ts : List Token} (hts : lex.Consumes ts lex') :
    ts.length + lex'.left ≤ lex.left := by
  induction ts generalizing lex with
  | nil =>
    obtain rfl := hts
    simp
  | cons t ts ih =>
    obtain ⟨rfl, hkind, hts⟩ := hts
    have hle := ih hts
    have hadvance : lex.advance.left ≤ lex.unread.length := left_at_offset_le _ _
    have hleft : lex.left = lex.unread.length + 1 := congrArg (lex.unread.length + ·) (if_neg hkind)
    change ts.length + lex'.left ≤ lex.advance.left at hle
    rw [length_cons]
    omega

end Lexer

end reldb
