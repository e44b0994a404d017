import LsmKv.Reldb.Sql.Grammar
import LsmKv.Reldb.Sql.Tokens

namespace reldb

open descent (bind_of_eq_ok)
open List

section Grammar

variable {having_context : Bool} {min : Nat} {ts : List Token} {e : Expr}

theorem ColumnRef.cur_kind {lex lex' : Lexer} {name : String} (hname : ColumnRef ts name)
    (hts : lex.Consumes ts lex') : lex.cur.kind = .kIdent := by
  have hcur : lex.cur.lexeme = ts.headD lex'.cur.lexeme := hts.cur_eq
  have hhead := hname.head lex'.cur.lexeme
  rw [← hcur] at hhead
  exact hhead

theorem Leaf.head_ne {k : TokenKind} (hleaf : Leaf having_context ts e) (hk : k = .kNot ∨ k = .kLParen) (t : Token) :
    (ts.headD t).kind ≠ k := by
  intro hkind
  cases hleaf with
  | @literal t' _ hv =>
    have hkind' : t'.kind = k := hkind
    rcases hk with rfl | rfl <;> simp [Parser.literal_value, hkind'] at hv
  | column hname =>
    rw [hname.head] at hkind
    rcases hk with rfl | rfl <;> cases hkind
  | aggregate _ hcall =>
    obtain @⟨t', _, _, _, _, _, hfunc, -⟩ := hcall
    have hkind' : t'.kind = k := hkind
    rcases hk with rfl | rfl <;> simp [Parser.token_to_agg_func, hkind'] at hfunc

theorem Leaf.ne_nil (hleaf : Leaf having_context ts e) : ts ≠ [] := by
  rintro rfl
  have hident := hleaf.head_ne (.inl rfl) { kind := .kNot }
  exact hident rfl

theorem Renders.ne_nil (he : Renders having_context min ts e) : ts ≠ [] := by
  cases he with
  | leaf hleaf => exact hleaf.ne_nil
  | paren => exact cons_ne_nil _ _
  | not => exact cons_ne_nil _ _
  | compare | and | or => simp

theorem headD_append {ls : List Token} (hne : ls ≠ []) (rs : List Token) (t : Token) :
    (ls ++ rs).headD t = ls.headD t := by
  obtain ⟨l, ls, rfl⟩ := exists_cons_of_ne_nil hne
  rfl

/-- Only an expression that starts with `NOT` starts with that token. -/
theorem Renders.head_ne_kNot (he : Renders having_context min ts e) (hmin : 3 ≤ min) (t : Token) :
    (ts.headD t).kind ≠ .kNot := by
  induction he with
  | leaf hleaf => exact hleaf.head_ne (.inl rfl) t
  | paren ho =>
    intro hkind
    cases ho.symm.trans hkind
  | compare _ hl _ _ ih =>
    rw [headD_append hl.ne_nil]
    exact ih (by omega)
  | not | and | or => omega

end Grammar

namespace Parser

variable {α : Type} {lex lex' : Lexer} {having_context : Bool} {ts : List Token} {e : Expr}

variable {k : TokenKind} {min : Nat} {o : Token} {ls rs : List Token} {l r : Expr}

theorem match_kind_pos (hkind : lex.cur.kind = k) : match_kind k lex = .ok (true, lex.advance) := if_pos hkind

theorem match_kind_neg (hkind : lex.cur.kind ≠ k) : match_kind k lex = .ok (false, lex) := if_neg hkind

theorem accept_of_some {value : Token → Option α} {a : α} (msg : Token → String) (hvalue : value lex.cur = some a) :
    accept value msg lex = .ok (a, lex.advance) := by
  rw [accept, bind_of_eq_ok rfl, hvalue]
  rfl

theorem expect_of_eq (what : String) (hkind : lex.cur.kind = k) : expect k what lex = .ok ((), lex.advance) :=
  accept_of_some _ (if_pos hkind)

theorem parse_ident_of_eq (hkind : lex.cur.kind = .kIdent) :
    parse_ident lex = .ok (lex.cur.text.toText, lex.advance) :=
  accept_of_some _ (if_pos hkind)

theorem parse_column_ref_complete {name : String} (hname : ColumnRef ts name) (hts : lex.Consumes ts lex')
    (hfollow : lex'.cur.kind ≠ .kDot) : parse_column_ref lex = .ok (name, lex') := by
  cases hname with
  | name ht =>
    obtain ⟨rfl, -, rfl⟩ := hts
    dsimp only [Lexer.source] at hfollow
    rw [parse_column_ref, bind_of_eq_ok (parse_ident_of_eq ht), bind_of_eq_ok (match_kind_neg hfollow)]
    rfl
  | qualified hq hdot ht =>
    obtain ⟨rfl, -, rfl, -, rfl, -, rfl⟩ := hts
    dsimp only [Lexer.source] at hdot ht
    rw [parse_column_ref, bind_of_eq_ok (parse_ident_of_eq hq), bind_of_eq_ok (match_kind_pos hdot), if_pos rfl,
      bind_of_eq_ok (parse_ident_of_eq ht)]
    rfl

theorem parse_agg_argument_complete {func : AggFunc} {arg : Bool × String} (harg : AggArgument func ts arg)
    (hts : lex.Consumes ts lex') (hfollow : lex'.cur.kind ≠ .kDot) :
    parse_agg_argument func lex = .ok (arg, lex') := by
  cases harg with
  | star hfunc ht =>
    obtain ⟨rfl, -, rfl⟩ := hts
    rw [parse_agg_argument, bind_of_eq_ok (match_kind_pos ht), if_pos rfl, hfunc]
    rfl
  | column hname =>
    have hkind : lex.cur.kind ≠ .kStar := by
      rw [hname.cur_kind hts]
      decide
    rw [parse_agg_argument, bind_of_eq_ok (match_kind_neg hkind), if_neg Bool.false_ne_true,
      bind_of_eq_ok (parse_column_ref_complete hname hts hfollow)]
    rfl

theorem parse_leaf_complete (hleaf : Leaf having_context ts e) (hts : lex.Consumes ts lex') (hfollow : lex'.cur.kind ≠ .kDot) :
    parse_leaf having_context lex = .ok (e, lex') := by
  rw [parse_leaf, bind_of_eq_ok rfl]
  cases hleaf with
  | literal hv =>
    obtain ⟨rfl, -, rfl⟩ := hts
    have hvalue : literal_value lex.cur = some _ := hv
    have hagg : agg_in_context having_context lex.cur = none := by
      unfold literal_value at hvalue
      split at hvalue <;> simp_all [agg_in_context, token_to_agg_func]
    rw [hagg, hvalue]
    rfl
  | column hname =>
    have hident := hname.cur_kind hts
    have hagg : agg_in_context having_context lex.cur = none := by simp [agg_in_context, hident, token_to_agg_func]
    have hvalue : literal_value lex.cur = none := by simp [literal_value, hident]
    rw [hagg, hvalue]
    dsimp only
    rw [if_pos hident, bind_of_eq_ok (parse_column_ref_complete hname hts hfollow)]
    rfl
  | aggregate hctx hcall =>
    obtain ⟨hfunc, ho, harg, hc⟩ := hcall
    obtain ⟨rfl, -, rfl, -, hts⟩ := hts
    obtain ⟨mid, hinner, rfl, -, rfl⟩ := descent.Source.consumes_append.mp hts
    dsimp only [Lexer.source] at ho hc hinner
    have hagg : agg_in_context having_context lex.cur = some _ := (if_pos hctx).trans hfunc
    have hdot : mid.cur.kind ≠ .kDot := by
      intro hkind
      cases hkind.symm.trans hc
    rw [hagg]
    dsimp only
    rw [bind_of_eq_ok rfl, parse_agg_call, bind_assoc, bind_of_eq_ok (expect_of_eq _ ho), bind_assoc,
      bind_of_eq_ok (parse_agg_argument_complete harg hinner hdot), bind_assoc, bind_of_eq_ok (expect_of_eq _ hc)]
    rfl

/-- With fuel for its tokens, a routine takes an expression where nothing continues it. -/
def Parses (level cost : Nat) (parse : Nat → Parser Expr) (ts : List Token) (e : Expr) : Prop :=
  ∀ ⦃lex lex' : Lexer⦄, lex.Consumes ts lex' → Follows level lex'.cur.kind →
    ∀ fuel, 6 * ts.length + cost ≤ fuel → parse fuel lex = .ok (e, lex')

/-- With fuel for its tokens, a routine gets to its loop with an expression as the operand. -/
def Enters (level cost : Nat) (parse : Nat → Parser Expr) (loop : Nat → Expr → Parser Expr) (ts : List Token)
    (e : Expr) : Prop :=
  ∀ ⦃lex lex' : Lexer⦄, lex.Consumes ts lex' → Follows level lex'.cur.kind →
    ∀ fuel, 6 * ts.length + cost ≤ fuel → ∃ left, fuel ≤ left + 6 * ts.length ∧ parse fuel lex = loop left e lex'

/-- What the routine for a precedence does with an expression of it. -/
def ParsesAt (having_context : Bool) : Nat → List Token → Expr → Prop
  | 0 => Enters 1 5 (parse_or having_context) (or_loop having_context)
  | 1 => Enters 2 4 (parse_and having_context) (and_loop having_context)
  | 2 => Parses 2 3 (parse_not having_context)
  | 3 => Parses 3 2 (parse_cmp having_context)
  | _ => Parses 4 1 (parse_primary having_context)

theorem and_loop_stop (hfollow : lex.cur.kind ≠ .kAnd) {fuel : Nat} (hfuel : 0 < fuel) (e : Expr) :
    and_loop having_context fuel e lex = .ok (e, lex) := by
  obtain ⟨fuel, rfl⟩ := Nat.exists_eq_add_of_lt hfuel
  rw [Nat.zero_add, and_loop, bind_of_eq_ok (match_kind_neg hfollow)]
  rfl

theorem or_loop_stop (hfollow : lex.cur.kind ≠ .kOr) {fuel : Nat} (hfuel : 0 < fuel) (e : Expr) :
    or_loop having_context fuel e lex = .ok (e, lex) := by
  obtain ⟨fuel, rfl⟩ := Nat.exists_eq_add_of_lt hfuel
  rw [Nat.zero_add, or_loop, bind_of_eq_ok (match_kind_neg hfollow)]
  rfl

theorem match_cmp_op_none (hfollow : token_to_cmp_op lex.cur.kind = none) :
    match_cmp_op lex = .ok (none, lex) := by
  rw [match_cmp_op, bind_of_eq_ok rfl, hfollow]
  rfl

theorem match_cmp_op_some {op : CmpOp} (hop : token_to_cmp_op lex.cur.kind = some op) :
    match_cmp_op lex = .ok (some op, lex.advance) := by
  rw [match_cmp_op, bind_of_eq_ok rfl, hop]
  rfl

/-- An operand is taken by the routine for the next lower precedence as well. -/
theorem parsesAt_lower (hparses : ParsesAt having_context (min + 1) ts e) (hne : ts ≠ [])
    (hnot : min = 2 → ∀ t : Token, (ts.headD t).kind ≠ .kNot) : ParsesAt having_context min ts e := by
  have hlength := length_pos_of_ne_nil hne
  rcases min with _ | _ | _ | _ | min
  · intro lex lex' hts hfollow fuel hfuel
    obtain ⟨fuel, rfl⟩ : ∃ n, fuel = n + 1 := ⟨fuel - 1, by omega⟩
    obtain ⟨left, hleft, hand⟩ := hparses hts ⟨hfollow.1, fun _ => hfollow.2.1 (by omega), by omega, by omega⟩ fuel (by omega)
    rw [and_loop_stop (hfollow.2.2.1 (by omega)) (by omega)] at hand
    refine ⟨fuel, by omega, ?_⟩
    rw [parse_or, bind_of_eq_ok hand]
  · intro lex lex' hts hfollow fuel hfuel
    obtain ⟨fuel, rfl⟩ : ∃ n, fuel = n + 1 := ⟨fuel - 1, by omega⟩
    refine ⟨fuel, by omega, ?_⟩
    rw [parse_and, bind_of_eq_ok (hparses hts hfollow fuel (by omega))]
  · intro lex lex' hts hfollow fuel hfuel
    obtain ⟨fuel, rfl⟩ : ∃ n, fuel = n + 1 := ⟨fuel - 1, by omega⟩
    have hkind : lex.cur.kind ≠ .kNot := by
      have hcur : lex.cur.lexeme = ts.headD lex'.cur.lexeme := hts.cur_eq
      have hhead := hnot rfl lex'.cur.lexeme
      rw [← hcur] at hhead
      exact hhead
    rw [parse_not, bind_of_eq_ok (match_kind_neg hkind)]
    exact hparses hts ⟨hfollow.1, fun _ => hfollow.2.1 (by omega), by omega, by omega⟩ fuel (by omega)
  · intro lex lex' hts hfollow fuel hfuel
    obtain ⟨fuel, rfl⟩ : ∃ n, fuel = n + 1 := ⟨fuel - 1, by omega⟩
    have hprimary := hparses hts ⟨hfollow.1, by omega, by omega, by omega⟩ fuel (by omega)
    rw [parse_cmp, bind_of_eq_ok hprimary, bind_of_eq_ok (match_cmp_op_none (hfollow.2.1 (by omega)))]
    rfl
  · exact hparses

theorem parsesAt_of_le {k : Nat} (hparses : ParsesAt having_context k ts e) (hne : ts ≠ [])
    (hnot : 3 ≤ k → ∀ t : Token, (ts.headD t).kind ≠ .kNot) (hmin : min ≤ k) : ParsesAt having_context min ts e := by
  induction k with
  | zero => rwa [Nat.le_zero.mp hmin]
  | succ k ih =>
    rcases Nat.le_succ_iff.mp hmin with hmin | rfl
    · exact ih (parsesAt_lower hparses hne fun hk => hnot (by omega)) (fun hk => hnot (by omega)) hmin
    · exact hparses

theorem parses_leaf (hleaf : Leaf having_context ts e) : Parses 4 1 (parse_primary having_context) ts e := by
  intro lex lex' hts hfollow fuel hfuel
  obtain ⟨fuel, rfl⟩ : ∃ n, fuel = n + 1 := ⟨fuel - 1, by omega⟩
  have hkind : lex.cur.kind ≠ .kLParen := by
    have hcur : lex.cur.lexeme = ts.headD lex'.cur.lexeme := hts.cur_eq
    have hhead := hleaf.head_ne (.inr rfl) lex'.cur.lexeme
    rw [← hcur] at hhead
    exact hhead
  rw [parse_primary, bind_of_eq_ok (match_kind_neg hkind)]
  exact parse_leaf_complete hleaf hts hfollow.1

theorem parses_paren {c : Token} (ho : o.kind = .kLParen) (hparses : ParsesAt having_context 0 ts e)
    (hc : c.kind = .kRParen) : Parses 4 1 (parse_primary having_context) (o :: (ts ++ [c])) e := by
  intro lex lex' hts hfollow fuel hfuel
  obtain ⟨fuel, rfl⟩ : ∃ n, fuel = n + 1 := ⟨fuel - 1, by omega⟩
  simp only [length_cons, length_append, length_nil] at hfuel
  obtain ⟨hkind, hts⟩ := hts.cons
  obtain ⟨mid, hinner, hclose⟩ := descent.Source.consumes_append.mp hts
  obtain ⟨hmid, rfl⟩ := Lexer.Consumes.cons hclose
  rw [hc] at hmid
  obtain ⟨left, hleft, hor⟩ := hparses hinner (by simp [Follows, hmid, token_to_cmp_op]) fuel (by omega)
  rw [or_loop_stop (by simp [hmid]) (by omega)] at hor
  rw [parse_primary, bind_of_eq_ok (match_kind_pos (hkind.trans ho)), if_pos rfl, bind_of_eq_ok hor,
    bind_of_eq_ok (expect_of_eq _ hmid)]
  rfl

theorem parses_compare {op : CmpOp}
    (hl : Parses 4 1 (parse_primary having_context) ls l) (hop : token_to_cmp_op o.kind = some op)
    (hr : Parses 4 1 (parse_primary having_context) rs r) :
    Parses 3 2 (parse_cmp having_context) (ls ++ o :: rs) (.compare op l r) := by
  intro lex lex' hts hfollow fuel hfuel
  obtain ⟨fuel, rfl⟩ : ∃ n, fuel = n + 1 := ⟨fuel - 1, by omega⟩
  simp only [length_cons, length_append] at hfuel
  obtain ⟨mid, hls, hrs⟩ := descent.Source.consumes_append.mp hts
  obtain ⟨hkind, hrs⟩ := Lexer.Consumes.cons hrs
  have hmid : token_to_cmp_op mid.cur.kind = some op := by rw [hkind, hop]
  have hdot : mid.cur.kind ≠ .kDot := fun hkind => by rw [hkind] at hmid; cases hmid
  rw [parse_cmp, bind_of_eq_ok (hl hls ⟨hdot, by omega, by omega, by omega⟩ fuel (by omega)),
    bind_of_eq_ok (match_cmp_op_some hmid)]
  dsimp only
  rw [bind_of_eq_ok (hr hrs ⟨hfollow.1, by omega, by omega, by omega⟩ fuel (by omega))]
  rfl

theorem parses_not (ho : o.kind = .kNot) (hparses : Parses 2 3 (parse_not having_context) ts e) :
    Parses 2 3 (parse_not having_context) (o :: ts) (.not e) := by
  intro lex lex' hts hfollow fuel hfuel
  obtain ⟨fuel, rfl⟩ : ∃ n, fuel = n + 1 := ⟨fuel - 1, by omega⟩
  simp only [length_cons] at hfuel
  obtain ⟨hkind, hts⟩ := hts.cons
  rw [parse_not, bind_of_eq_ok (match_kind_pos (hkind.trans ho)), if_pos rfl,
    bind_of_eq_ok (hparses hts hfollow fuel (by omega))]
  rfl

theorem enters_and (hl : ParsesAt having_context 1 ls l) (ho : o.kind = .kAnd) (hr : ParsesAt having_context 2 rs r) :
    ParsesAt having_context 1 (ls ++ o :: rs) (.and l r) := by
  intro lex lex' hts hfollow fuel hfuel
  simp only [length_cons, length_append] at hfuel ⊢
  obtain ⟨mid, hls, hrs⟩ := descent.Source.consumes_append.mp hts
  obtain ⟨hmid, hrs⟩ := Lexer.Consumes.cons hrs
  rw [ho] at hmid
  obtain ⟨left, hleft, hand⟩ := hl hls (by simp [Follows, hmid, token_to_cmp_op]) fuel (by omega)
  obtain ⟨left, rfl⟩ : ∃ n, left = n + 1 := ⟨left - 1, by omega⟩
  refine ⟨left, by omega, ?_⟩
  rw [hand, and_loop, bind_of_eq_ok (match_kind_pos hmid), if_pos rfl,
    bind_of_eq_ok (hr hrs hfollow left (by omega))]

theorem enters_or (hl : ParsesAt having_context 0 ls l) (ho : o.kind = .kOr) (hr : ParsesAt having_context 1 rs r) :
    ParsesAt having_context 0 (ls ++ o :: rs) (.or l r) := by
  intro lex lex' hts hfollow fuel hfuel
  simp only [length_cons, length_append] at hfuel ⊢
  obtain ⟨mid, hls, hrs⟩ := descent.Source.consumes_append.mp hts
  obtain ⟨hmid, hrs⟩ := Lexer.Consumes.cons hrs
  rw [ho] at hmid
  obtain ⟨left, hleft, hor⟩ := hl hls (by simp [Follows, hmid, token_to_cmp_op]) fuel (by omega)
  obtain ⟨left, rfl⟩ : ∃ n, left = n + 1 := ⟨left - 1, by omega⟩
  obtain ⟨left', hleft', hand⟩ := hr hrs ⟨hfollow.1, fun _ => hfollow.2.1 (by omega), by omega, by omega⟩ left (by omega)
  rw [and_loop_stop (hfollow.2.2.1 (by omega)) (by omega)] at hand
  refine ⟨left, by omega, ?_⟩
  rw [hor, or_loop, bind_of_eq_ok (match_kind_pos hmid), if_pos rfl, bind_of_eq_ok hand]

theorem parsesAt_of_renders (he : Renders having_context min ts e) : ParsesAt having_context min ts e := by
  induction he with
  | @leaf min ts e hleaf =>
    have hparses : ParsesAt having_context (min + 4) ts e := parses_leaf hleaf
    exact parsesAt_of_le hparses hleaf.ne_nil (fun _ => hleaf.head_ne (.inl rfl)) (by omega)
  | @paren min o c ts e ho _ hc ih =>
    have hparses : ParsesAt having_context (min + 4) (o :: (ts ++ [c])) e := parses_paren ho ih hc
    refine parsesAt_of_le hparses (cons_ne_nil _ _) (fun _ _ hkind => ?_) (by omega)
    cases ho.symm.trans hkind
  | @compare min o op ls rs l r hmin hl hop hr ihl ihr =>
    have hparses : ParsesAt having_context 3 (ls ++ o :: rs) (.compare op l r) := parses_compare ihl hop ihr
    exact parsesAt_of_le hparses (by simp) (fun _ => (Renders.compare le_rfl hl hop hr).head_ne_kNot le_rfl) hmin
  | @not min o ts e hmin ho _ ih =>
    have hparses : ParsesAt having_context 2 (o :: ts) (.not e) := parses_not ho ih
    exact parsesAt_of_le hparses (cons_ne_nil _ _) (fun hk => absurd hk (by decide)) hmin
  | and hmin _ ho _ ihl ihr =>
    exact parsesAt_of_le (enters_and ihl ho ihr) (by simp) (fun hk => absurd hk (by decide)) hmin
  | or _ ho _ ihl ihr => exact enters_or ihl ho ihr

/-- The parser takes every token list of an expression, for any parentheses in it. -/
theorem parse_expr_complete (he : Renders having_context 0 ts e) (hts : lex.Consumes ts lex')
    (hfollow : Follows 0 lex'.cur.kind) : parse_expr having_context lex = .ok (e, lex') := by
  have hleft := Lexer.Consumes.left_le hts
  have hfollow' : Follows 1 lex'.cur.kind :=
    ⟨hfollow.1, fun _ => hfollow.2.1 (by omega), fun _ => hfollow.2.2.1 (by omega), by omega⟩
  obtain ⟨left, hle, hor⟩ := parsesAt_of_renders he hts hfollow' (6 * lex.left + 6) (by omega)
  rw [parse_expr, hor]
  exact or_loop_stop (hfollow.2.2.2 rfl) (by omega) e

end Parser

end reldb
