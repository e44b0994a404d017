import LsmKv.Reldb.Sql.Tokens

namespace reldb.sqlproto

open List Option

/-- The blanks that may follow the last semicolon. -/
def is_trailing (c : UInt8) : Bool :=
  c = char_byte ' ' || c = char_byte '\t' || c = char_byte '\n' || c = char_byte '\r'

/-- The scan for a terminator, inside a string literal or not. -/
def terminator_scan : Bool → Bytes → Bool
  | _, [] => false
  | true, [_] => false
  | true, c :: d :: rest =>
    if c = quote then
      if d = quote then terminator_scan true rest else terminator_scan false (d :: rest)
    else terminator_scan true (d :: rest)
  | false, c :: rest =>
    if c = quote then terminator_scan true rest
    else if c = char_byte ';' then rest.all is_trailing || terminator_scan false rest
    else terminator_scan false rest

def ends_with_statement_terminator (s : Bytes) : Bool := terminator_scan false s

/-- A byte that the scan steps over outside of a literal. -/
def IsPlain (c : UInt8) : Prop := c ≠ quote ∧ c ≠ char_byte ';'

instance (c : UInt8) : Decidable (IsPlain c) := inferInstanceAs (Decidable (_ ∧ _))

/-- Outside of a literal the scan looks for quotes and semicolons only. -/
theorem terminator_scan_append {run : Bytes} (hrun : ∀ c ∈ run, IsPlain c) (rest : Bytes) :
    terminator_scan false (run ++ rest) = terminator_scan false rest := by
  induction run with
  | nil => rfl
  | cons c run ih =>
    obtain ⟨hquote, hsemicolon⟩ := hrun c (mem_cons_self ..)
    rw [cons_append, terminator_scan, if_neg hquote, if_neg hsemicolon]
    exact ih fun d hd => hrun d (mem_cons_of_mem _ hd)

variable {unread : Bytes} {c : UInt8} {text : Bytes} {t : Token}

/-- The scan leaves a literal where the lexer does. -/
theorem terminator_scan_string (text : Bytes) (hend : unread.head? ≠ some quote) :
    terminator_scan true (double_quotes text ++ quote :: unread) = terminator_scan false unread := by
  induction text with
  | nil =>
    cases unread with
    | nil => rfl
    | cons d rest =>
      have hd : d ≠ quote := fun hd => hend (by rw [hd]; rfl)
      simp only [double_quotes, flatMap_nil, nil_append, terminator_scan, if_true, if_neg hd]
  | cons c text ih =>
    rw [double_quotes_cons]
    split
    · simp only [cons_append, nil_append, terminator_scan, if_true, ih]
    · next hc =>
      obtain ⟨d, rest, hrest⟩ : ∃ d rest, double_quotes text ++ quote :: unread = d :: rest :=
        exists_cons_of_ne_nil (by simp)
      rw [append_assoc, cons_append, nil_append, hrest, terminator_scan, if_neg hc, ← hrest, ih]

theorem isPlain_of_is_space (hc : is_space c = true) : IsPlain c := by
  constructor <;> rintro rfl <;> exact absurd hc (by decide)

theorem isPlain_of_is_word (hc : is_word c = true) : IsPlain c := by
  constructor <;> rintro rfl <;> exact absurd hc (by decide)

theorem isPlain_of_decodeInt (htext : (decimal.decodeInt text).isSome) : ∀ c ∈ text, IsPlain c := by
  obtain ⟨digits, -, hdigits, htext⟩ := decimal.decodeInt_isSome_iff.mp htext
  have hplain : ∀ c ∈ digits, IsPlain c := fun c hc =>
    isPlain_of_is_word (by simp [is_word, is_alnum, is_digit_iff.mpr (hdigits c hc)])
  rcases htext with rfl | rfl
  · exact hplain
  · exact forall_mem_cons.mpr ⟨by decide, hplain⟩

theorem isPlain_of_spells (hspells : Spells t text) (hstring : t.kind ≠ .kString)
    (hsemicolon : t.kind ≠ .kSemicolon) : ∀ c ∈ text, IsPlain c := by
  cases hspells with
  | @punctuation c kind hkind =>
    rw [forall_mem_singleton]
    constructor
    · rintro rfl
      exact absurd hkind (by simp [punctuation, quote, char_byte])
    · rintro rfl
      exact hsemicolon (Option.some.inj hkind).symm
  | operator hop => exact (by decide +kernel : ∀ op ∈ operators, ∀ c ∈ Bytes.ofString op.1, IsPlain c) _ hop
  | string => exact absurd rfl hstring
  | integer hstoll =>
    refine isPlain_of_decodeInt ?_
    obtain ⟨n, hn, -⟩ := bind_eq_some_iff.mp hstoll
    exact isSome_of_eq_some hn
  | @word c text hc htext =>
    refine forall_mem_cons.mpr ⟨isPlain_of_is_word ?_, fun d hd => isPlain_of_is_word (htext d hd)⟩
    rcases hc with hc | hc <;> simp [is_word, is_alnum, hc]

theorem spells_semicolon (hspells : Spells t text) (hkind : t.kind = .kSemicolon) : text = [char_byte ';'] := by
  cases hspells with
  | @punctuation c kind hc =>
    obtain rfl : kind = .kSemicolon := hkind
    refine congrArg (fun c => [c]) ?_
    unfold punctuation at hc
    grind
  | operator hop => exact absurd hkind ((by decide : ∀ op ∈ operators, op.2 ≠ .kSemicolon) _ hop)
  | string => cases hkind
  | integer => cases hkind
  | word => exact absurd hkind (keyword_kind_ne (by decide) (by decide) _)

theorem spells_kString (hspells : Spells t text) (hkind : t.kind = .kString) :
    text = quote :: (double_quotes t.text ++ [quote]) := by
  cases hspells with
  | @punctuation c kind hc =>
    obtain rfl : kind = .kString := hkind
    exact absurd hc (punctuation_ne_kString c)
  | operator hop => exact absurd hkind ((by decide : ∀ op ∈ operators, op.2 ≠ .kString) _ hop)
  | string => rfl
  | integer => cases hkind
  | word => exact absurd hkind (keyword_kind_ne (by decide) (by decide) _)

/-- The scan steps over every token but the semicolon. -/
theorem terminator_scan_takes {input : Bytes} (htakes : Takes t unread input)
    (hkind : t.kind ≠ .kEof) (hsemicolon : t.kind ≠ .kSemicolon) :
    terminator_scan false input = terminator_scan false unread := by
  obtain ⟨⟨herror, -⟩, -⟩ | ⟨text, rfl, ⟨hspells, hend⟩ | ⟨-, n, hn, -⟩⟩ := htakes
  · exact absurd herror hkind
  · by_cases hstring : t.kind = .kString
    · rw [spells_kString hspells hstring, cons_append, append_assoc, terminator_scan, if_pos rfl]
      exact terminator_scan_string _ (hend hstring)
    · exact terminator_scan_append (isPlain_of_spells hspells hstring hsemicolon) unread
  · exact terminator_scan_append (isPlain_of_decodeInt (isSome_of_eq_some hn)) unread

theorem takes_semicolon {input : Bytes} (htakes : Takes t unread input)
    (hkind : t.kind = .kSemicolon) : input = char_byte ';' :: unread := by
  obtain ⟨⟨herror, -⟩, -⟩ | ⟨text, rfl, ⟨hspells, -⟩ | hrange⟩ := htakes
  · rw [herror] at hkind
    cases hkind
  · rw [spells_semicolon hspells hkind]
    rfl
  · rw [OutOfRange.kind_eq hrange] at hkind
    cases hkind

theorem is_trailing_iff (hc : c ≠ 0x0B ∧ c ≠ 0x0C) : is_trailing c = true ↔ is_space c = true := by
  revert c
  decide +kernel

section

variable {pos : Nat} {ts : List Token} {last : Lexer} (hbytes : ∀ c ∈ unread, c ≠ 0x0B ∧ c ≠ 0x0C)
  (hlex : (Lexer.at_offset pos unread).Consumes ts last) (hend : last.cur.IsEnd)

include hbytes hlex hend

/-- Only blanks are left where the lexer yields no more tokens. -/
theorem all_is_trailing_iff : unread.all is_trailing = true ↔ ts = [] := by
  have hblank : unread.all is_trailing = true ↔ (next_token pos unread).1.IsEnd := by
    rw [List.all_eq_true, next_token_isEnd_iff]
    exact forall₂_congr fun c hc => is_trailing_iff (hbytes c hc)
  rw [hblank]
  cases ts with
  | nil =>
    have hlast : last = Lexer.at_offset pos unread := hlex
    rw [hlast] at hend
    exact iff_of_true hend rfl
  | cons t ts =>
    obtain ⟨rfl, hkind, -⟩ := hlex
    exact iff_of_false (fun hcur => hkind hcur.1) (cons_ne_nil _ _)

/-- The scan from a token on, for every number of tokens that are left. -/
theorem terminator_scan_iff :
    terminator_scan false unread = true ↔ ts.getLast?.map Token.kind = some .kSemicolon := by
  induction ts generalizing pos unread with
  | nil =>
    have hlast : last = Lexer.at_offset pos unread := hlex
    rw [hlast] at hend
    have hblank := (next_token_isEnd_iff pos unread).mp hend
    have hscan := terminator_scan_append (fun c hc => isPlain_of_is_space (hblank c hc)) []
    rw [append_nil] at hscan
    rw [hscan]
    simp [terminator_scan]
  | cons t ts ih =>
    obtain ⟨hcur, hkind, hlex⟩ := hlex
    have hkind' : (next_token pos unread).1.kind = t.kind := by
      rw [← hcur]
      rfl
    obtain ⟨⟨hcur', -⟩, -⟩ | ⟨blanks, input, rfl, hblanks, htakes⟩ := next_token_takes pos unread
    · exact absurd (hkind'.symm.trans hcur') hkind
    have hrest : ∀ c ∈ (next_token pos (blanks ++ input)).2, c ≠ 0x0B ∧ c ≠ 0x0C := by
      obtain ⟨text, hinput⟩ := htakes.eq_append (hkind' ▸ hkind)
      intro c hc
      exact hbytes c (mem_append_right _ (hinput ▸ mem_append_right _ hc))
    rw [terminator_scan_append fun c hc => isPlain_of_is_space (hblanks c hc)]
    by_cases hsemicolon : t.kind = .kSemicolon
    · have htrailing := all_is_trailing_iff hrest hlex hend
      rw [takes_semicolon htakes (hkind'.trans hsemicolon), terminator_scan, if_neg (by decide), if_pos rfl,
        Bool.or_eq_true, htrailing, ih hrest hlex]
      cases ts with
      | nil => simp [hsemicolon]
      | cons => simp
    · rw [terminator_scan_takes htakes (hkind' ▸ hkind) (hkind' ▸ hsemicolon), ih hrest hlex]
      cases ts with
      | nil => simp [hsemicolon]
      | cons => simp

end

/-- A buffer without vertical tabs and form feeds that the lexer reads to its end without
    an error is complete for the server exactly if its last token is a semicolon. The
    tokens need not form a statement, and comments and strings may have semicolons in
    them. -/
theorem ends_with_statement_terminator_iff {buffer : Bytes} {ts : List Token} {last : Lexer}
    (hbytes : ∀ c ∈ buffer, c ≠ 0x0B ∧ c ≠ 0x0C) (hlex : (Lexer.new buffer).Consumes ts last)
    (hend : last.cur.IsEnd) :
    ends_with_statement_terminator buffer = true ↔ ts.getLast?.map Token.kind = some .kSemicolon :=
  terminator_scan_iff hbytes hlex hend

/-- A doubled quote and a semicolon inside a literal, then the semicolon that counts. -/
theorem ends_with_statement_terminator_literal :
    ends_with_statement_terminator (Bytes.ofString "SELECT 'it''s;' ; \n") = true :=
  let input := Bytes.ofString "SELECT 'it''s;' ; \n"
  let ts : List Token := [{ kind := .kSelect, text := Bytes.ofString "SELECT" },
    { kind := .kString, text := Bytes.ofString "it's;" }, { kind := .kSemicolon }]
  have hlex : (Lexer.new input).Consumes ts (Lexer.new input).advance.advance.advance := by decide +kernel
  (ends_with_statement_terminator_iff (by decide +kernel) hlex ⟨by decide +kernel, by decide +kernel⟩).mpr rfl

end reldb.sqlproto
