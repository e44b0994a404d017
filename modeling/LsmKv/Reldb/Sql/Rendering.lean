import LsmKv.Reldb.Sql.ExprParser

namespace reldb

open descent (bind_of_eq_ok)
open List Option

/-- Tokens in their spellings, with blanks between them. -/
inductive Spaced : List Token → Bytes → Prop where
  | one {t : Token} {word : Bytes} : Spells t word → Spaced [t] word
  | cons {t : Token} {ts : List Token} {word blanks text : Bytes} : Spells t word → blanks ≠ [] →
      (∀ c ∈ blanks, is_space c = true) → Spaced ts text → Spaced (t :: ts) (word ++ (blanks ++ text))

/-- A byte that can be part of a token that has already begun. -/
def extends_token (c : UInt8) : Bool := is_word c || c = quote || c = char_byte '=' || c = char_byte '>'

variable {c : UInt8} {text : Bytes} {t : Token}

theorem extends_token_of_is_space (hc : is_space c = true) : extends_token c = false := by
  revert c
  decide +kernel

/-- What the first byte of a number rules out. -/
theorem starts_integer (hc : is_digit c = true ∨ c = char_byte '-') :
    is_space c = false ∧ punctuation c = none ∧ c ≠ char_byte '!' ∧ c ≠ char_byte '<' ∧ c ≠ char_byte '>' ∧ c ≠ quote := by
  revert c
  decide +kernel

theorem starts_word (hc : is_alpha c = true ∨ c = char_byte '_') :
    is_space c = false ∧ punctuation c = none ∧ c ≠ char_byte '!' ∧ c ≠ char_byte '<' ∧ c ≠ char_byte '>' ∧
      c ≠ quote ∧ is_digit c = false ∧ c ≠ char_byte '-' := by
  revert c
  decide +kernel

theorem is_space_of_punctuation (hc : (punctuation c).isSome) : is_space c = false := by
  revert c
  decide +kernel

theorem Stops.mono {p q : UInt8 → Bool} {unread : Bytes} (hstop : Stops q unread)
    (hpq : ∀ c, p c = true → q c = true) : Stops p unread := by
  intro c hc
  by_contra hp
  have hq := hstop c hc
  rw [hpq c (by simpa using hp)] at hq
  cases hq

/-- A spelling that is read back as its token where the next byte is not part of it. -/
def ReadsBack (t : Token) (text : Bytes) : Prop :=
  ∃ c word, text = c :: word ∧ is_space c = false ∧ ∀ (pos : Nat) (unread : Bytes), Stops extends_token unread →
    read_token pos c (word ++ unread) = ({ t with pos }, unread)

theorem readsBack_operator {op : String} {kind : TokenKind} (hop : (op, kind) ∈ operators) :
    ReadsBack { kind } (Bytes.ofString op) := by
  have hnext : ∀ {unread : Bytes}, Stops extends_token unread →
      unread.head? ≠ some (char_byte '=') ∧ unread.head? ≠ some (char_byte '>') := by
    intro unread hstop
    constructor <;> intro hhead <;> exact absurd (hstop _ hhead) (by decide)
  simp only [operators, mem_cons, Prod.mk.injEq, not_mem_nil, or_false] at hop
  rcases hop with ⟨rfl, rfl⟩ | ⟨rfl, rfl⟩ | ⟨rfl, rfl⟩ | ⟨rfl, rfl⟩ | ⟨rfl, rfl⟩ | ⟨rfl, rfl⟩
  · exact ⟨_, _, rfl, by decide, fun pos unread _ => rfl⟩
  · exact ⟨_, _, rfl, by decide, fun pos unread _ => rfl⟩
  · exact ⟨_, _, rfl, by decide, fun pos unread hstop => (if_neg (hnext hstop).1).trans (if_neg (hnext hstop).2)⟩
  · exact ⟨_, _, rfl, by decide, fun pos unread _ => rfl⟩
  · exact ⟨_, _, rfl, by decide, fun pos unread hstop => if_neg (hnext hstop).1⟩
  · exact ⟨_, _, rfl, by decide, fun pos unread _ => rfl⟩

theorem read_token_quote (pos : Nat) (rest : Bytes) : read_token pos quote rest =
    match lex_string rest with
    | some (text, unread) => ({ kind := .kString, text, pos }, unread)
    | none => ({ kind := .kEof, text := Bytes.ofString "unterminated string literal", pos }, []) := rfl

theorem readsBack_string (text : Bytes) :
    ReadsBack { kind := .kString, text } (quote :: (double_quotes text ++ [quote])) := by
  refine ⟨_, _, rfl, by decide, fun pos unread hstop => ?_⟩
  have hend : unread.head? ≠ some quote := fun hhead => absurd (hstop _ hhead) (by decide)
  rw [read_token_quote, append_assoc, singleton_append, lex_string_double_quotes text hend]

theorem readsBack_integer {int_val : Int64} (hstoll : stoll text = some int_val) :
    ReadsBack { kind := .kInteger, text, int_val } text := by
  obtain ⟨n, hn, -⟩ := bind_eq_some_iff.mp hstoll
  have hsome : (decimal.decodeInt text).isSome := isSome_of_eq_some hn
  obtain ⟨digits, hne, hdigits, htext⟩ := decimal.decodeInt_isSome_iff.mp hsome
  obtain ⟨d, digits, rfl⟩ := exists_cons_of_ne_nil hne
  have hd : is_digit d = true := is_digit_iff.mpr (hdigits d (mem_cons_self ..))
  obtain ⟨c, word, rfl, hc⟩ : ∃ c word, text = c :: word ∧
      (is_digit c = true ∨ c = char_byte '-' ∧ word.head?.any is_digit = true) := by
    rcases htext with rfl | rfl
    · exact ⟨d, digits, rfl, .inl hd⟩
    · exact ⟨_, d :: digits, rfl, .inr ⟨rfl, hd⟩⟩
  obtain ⟨hspace, hpunct, hbang, hlt, hgt, hquote⟩ := starts_integer (hc.imp id And.left)
  refine ⟨c, word, rfl, hspace, fun pos unread hstop => ?_⟩
  have hdigit : is_digit c = true ∨ c = char_byte '-' ∧ (word ++ unread).head?.any is_digit = true := by
    refine hc.imp id ?_
    rintro ⟨hsign, hword⟩
    refine ⟨hsign, ?_⟩
    cases word with
    | nil => cases hword
    | cons => exact hword
  have hdigits := lex_digits_append hsome (hstop.mono fun c hc => by simp [extends_token, is_word, is_alnum, hc])
  rw [read_token, hpunct]
  dsimp only
  rw [if_neg hbang, if_neg hlt, if_neg hgt, if_neg hquote, if_pos (by simpa using hdigit), lex_integer, ← cons_append,
    hdigits]
  dsimp only
  rw [hstoll]

theorem readsBack_word (hc : is_alpha c = true ∨ c = char_byte '_') (htext : ∀ d ∈ text, is_word d = true) :
    ReadsBack { kind := keyword_kind ((c :: text).map to_lower), text := c :: text } (c :: text) := by
  obtain ⟨hspace, hpunct, hbang, hlt, hgt, hquote, hdigit, hsign⟩ := starts_word hc
  refine ⟨c, text, rfl, hspace, fun pos unread hstop => ?_⟩
  have hword : ∀ d ∈ c :: text, is_word d = true := by
    refine forall_mem_cons.mpr ⟨?_, htext⟩
    rcases hc with hc | hc <;> simp [is_word, is_alnum, hc]
  obtain ⟨htake, hdrop⟩ := span_append hword (hstop.mono fun d hd => by simp [extends_token, hd])
  rw [read_token, hpunct]
  dsimp only
  rw [if_neg hbang, if_neg hlt, if_neg hgt, if_neg hquote, if_neg (by simp [hdigit, hsign]),
    if_pos (by simpa using hc), lex_ident_or_keyword, ← cons_append, htake, hdrop]

theorem Spells.readsBack (hspells : Spells t text) : ReadsBack t text := by
  cases hspells with
  | @punctuation c kind hkind =>
    refine ⟨c, [], rfl, is_space_of_punctuation (isSome_of_eq_some hkind), fun pos unread _ => ?_⟩
    rw [nil_append, read_token, hkind]
  | operator hop => exact readsBack_operator hop
  | string text => exact readsBack_string text
  | integer hstoll => exact readsBack_integer hstoll
  | word hc htext => exact readsBack_word hc htext

theorem Spells.lexeme_eq (hspells : Spells t text) : t.lexeme = t := by
  cases hspells <;> rfl

theorem at_offset_spells {word blanks unread : Bytes} (hspells : Spells t word)
    (hblanks : ∀ c ∈ blanks, is_space c = true) (hstop : Stops extends_token unread) (pos : Nat) :
    (Lexer.at_offset pos (blanks ++ (word ++ unread))).cur.lexeme = t ∧
      (Lexer.at_offset pos (blanks ++ (word ++ unread))).unread = unread := by
  obtain ⟨c, rest, rfl, hspace, hread⟩ := hspells.readsBack
  have hskip : skip_whitespace (blanks ++ (c :: rest ++ unread)) = c :: (rest ++ unread) := by
    rw [skip_whitespace, dropWhile_append_of_pos hblanks, cons_append, dropWhile_cons_of_neg (by simp [hspace])]
  unfold Lexer.at_offset next_token
  rw [hskip]
  dsimp only
  rw [hread _ unread hstop]
  exact ⟨hspells.lexeme_eq, rfl⟩

/-- The lexer reads the tokens of a text back, up to what follows the text. -/
theorem Spaced.consumes {ts : List Token} (htext : Spaced ts text) {blanks tail : Bytes}
    (hblanks : ∀ c ∈ blanks, is_space c = true) (htail : Stops extends_token tail) (pos : Nat) :
    ∃ pos', (Lexer.at_offset pos (blanks ++ (text ++ tail))).Consumes ts (Lexer.at_offset pos' tail) := by
  have hadvance : ∀ {lex : Lexer} {unread : Bytes}, lex.unread = unread → lex.advance = Lexer.at_offset lex.pos unread :=
    fun hunread => congrArg (Lexer.at_offset _) hunread
  induction htext generalizing pos blanks with
  | @one t word hspells =>
    obtain ⟨hcur, hunread⟩ := at_offset_spells hspells hblanks htail pos
    exact ⟨(Lexer.at_offset pos (blanks ++ (word ++ tail))).pos, hcur, hspells.kind_ne_kEof, (hadvance hunread).symm⟩
  | @cons t ts word gap text hspells hne hgap _ ih =>
    have hstop : Stops extends_token (gap ++ (text ++ tail)) := by
      obtain ⟨c, gap, rfl⟩ := exists_cons_of_ne_nil hne
      intro d hd
      obtain rfl := Option.some.inj hd
      exact extends_token_of_is_space (hgap _ (mem_cons_self ..))
    rw [append_assoc, append_assoc]
    obtain ⟨hcur, hunread⟩ := at_offset_spells hspells hblanks hstop pos
    obtain ⟨pos', hts⟩ := ih hgap (Lexer.at_offset pos (blanks ++ (word ++ (gap ++ (text ++ tail))))).pos
    rw [← hadvance hunread] at hts
    exact ⟨pos', hcur, hspells.kind_ne_kEof, hts⟩

theorem spells_word {word : Bytes} {kind : TokenKind} (hkind : keyword_kind (word.map to_lower) = kind)
    (hhead : word.head?.any is_alpha = true) (hword : word.all is_word = true) : Spells { kind, text := word } word := by
  cases word with
  | nil => cases hhead
  | cons c text =>
    subst hkind
    exact .word (.inl hhead) fun d hd => List.all_eq_true.mp hword d (mem_cons_of_mem _ hd)

/-- A keyword in the case that the documentation uses. -/
theorem spells_keyword (word : String) (kind : TokenKind) (hword : let word := Bytes.ofString word
      keyword_kind (word.map to_lower) = kind ∧ word.head?.any is_alpha = true ∧ word.all is_word = true) :
    Spells { kind, text := Bytes.ofString word } (Bytes.ofString word) :=
  spells_word hword.1 hword.2.1 hword.2.2

theorem is_space_blank : ∀ c ∈ [char_byte ' '], is_space c = true := by decide +kernel

/-- A clause ends here: what follows does not continue its last token nor its expression. -/
def EndsClause (tail : Bytes) : Prop :=
  Stops extends_token tail ∧ Follows 0 (next_token 0 tail).1.kind

theorem read_token_kind (pos : Nat) (c : UInt8) (rest : Bytes) :
    (read_token pos c rest).1.kind = (read_token 0 c rest).1.kind := by
  have hinteger : (lex_integer pos (c :: rest)).1.kind = (lex_integer 0 (c :: rest)).1.kind := by
    unfold lex_integer
    dsimp only
    cases stoll (lex_digits (c :: rest)).1 <;> rfl
  unfold read_token
  cases punctuation c with
  | some => rfl
  | none =>
    dsimp only
    cases lex_string rest <;> split_ifs <;> first | rfl | exact hinteger

theorem next_token_kind (pos : Nat) (unread : Bytes) : (next_token pos unread).1.kind = (next_token 0 unread).1.kind := by
  unfold next_token
  split
  · rfl
  · next c rest _ => exact (read_token_kind _ c rest).trans (read_token_kind _ c rest).symm

/-- Every rendering of an expression is parsed to the expression, whatever parentheses and
    blanks it has beyond those that it needs. What follows is assumed to end the clause;
    what stands before it does not matter. -/
theorem parse_where_renders {ts : List Token} {e : Expr} {lex : Lexer} {blanks text tail : Bytes}
    (he : Renders false 0 ts e) (htext : Spaced ts text) (hwhere : lex.cur.kind = .kWhere)
    (hblanks : ∀ c ∈ blanks, is_space c = true) (hunread : lex.unread = blanks ++ (text ++ tail))
    (htail : EndsClause tail) :
    ∃ pos, Parser.parse_where lex = .ok (some e, Lexer.at_offset pos tail) := by
  obtain ⟨pos, hts⟩ := htext.consumes hblanks htail.1 lex.pos
  rw [← hunread] at hts
  have hfollow : Follows 0 (Lexer.at_offset pos tail).cur.kind := by
    have hkind : (Lexer.at_offset pos tail).cur.kind = (next_token 0 tail).1.kind := next_token_kind pos tail
    rw [hkind]
    exact htail.2
  have hexpr : Parser.parse_expr false lex.advance = .ok (e, Lexer.at_offset pos tail) :=
    Parser.parse_expr_complete he hts hfollow
  refine ⟨pos, ?_⟩
  rw [Parser.parse_where, bind_of_eq_ok (Parser.match_kind_pos hwhere), if_pos rfl, bind_of_eq_ok hexpr]
  rfl

theorem endsClause_nil : EndsClause [] := ⟨by rintro c ⟨⟩, by decide⟩

/-- A negative literal next to an operator, in parentheses that are not needed. -/
theorem parse_where_renders_negative :
    ∃ pos, Parser.parse_where (Lexer.new (Bytes.ofString "WHERE NOT\t( a  = -5 )")) =
      .ok (some (.not (.compare .kEq (.column "a") (.literal (.int64 (-5))))), Lexer.at_offset pos []) := by
  let o : Token := { kind := .kLParen }
  let a : Token := { kind := .kIdent, text := Bytes.ofString "a" }
  let eq : Token := { kind := .kEq }
  let five : Token := { kind := .kInteger, text := Bytes.ofString "-5", int_val := -5 }
  let c : Token := { kind := .kRParen }
  let n : Token := { kind := .kNot, text := Bytes.ofString "NOT" }
  have he : Renders false 0 [n, o, a, eq, five, c] (.not (.compare .kEq (.column "a") (.literal (.int64 (-5))))) := by
    have hcompare : Renders false 0 ([a] ++ eq :: [five]) (.compare .kEq (.column "a") (.literal (.int64 (-5)))) :=
      .compare (by omega) (.leaf (.column (.name rfl))) rfl (.leaf (.literal rfl))
    exact .not (by omega) rfl (.paren rfl hcompare rfl)
  have htext : Spaced [n, o, a, eq, five, c] (Bytes.ofString "NOT\t( a  = -5 )") :=
    @Spaced.cons _ _ _ [9] _ (spells_keyword "NOT" .kNot (by decide +kernel)) (by decide) (by decide +kernel)
      (@Spaced.cons _ _ _ [32] _ (.punctuation rfl) (by decide) (by decide +kernel)
      (@Spaced.cons _ _ _ [32, 32] _ (spells_keyword "a" .kIdent (by decide +kernel)) (by decide) (by decide +kernel)
      (@Spaced.cons _ _ _ [32] _ (.punctuation rfl) (by decide) (by decide +kernel)
      (@Spaced.cons _ _ _ [32] _ (.integer (by decide +kernel)) (by decide) (by decide +kernel)
      (.one (.punctuation rfl))))))
  exact parse_where_renders he htext (by decide +kernel) is_space_blank (by decide +kernel) endsClause_nil

end reldb
