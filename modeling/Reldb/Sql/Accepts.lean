import Reldb.Sql.Reads

/-!
# Reldb — every derivation is parsed

`Accepts p ts a us` says of a parsing method that, with the word `ts` and then `us` left, it reads
`ts`, returns `a` and leaves `us`. One token of lookahead is enough because no word can be continued
by the first token of what may follow it: `Follows types us` names the tokens that must not come
next. With the rules of `Reldb.Sql.Reads` this makes the parser accept exactly the grammar.
-/

namespace Reldb

open Language

/-- Something is left, and it begins with none of these tokens. -/
def Follows (types : List TokenType) (us : List Token) : Prop :=
  ∃ t vs, us = t :: vs ∧ t.type ∉ types

namespace Follows

variable {types types' : List TokenType} {us : List Token}

theorem mono (h : Follows types us) (hsub : ∀ t ∈ types', t ∈ types) : Follows types' us := by
  obtain ⟨t, vs, rfl, ht⟩ := h
  exact ⟨t, vs, rfl, fun hmem => ht (hsub _ hmem)⟩

theorem cons {t : Token} {type : TokenType} (ht : t.type = type) (h : type ∉ types) :
    Follows types (t :: us) := ⟨t, us, rfl, ht ▸ h⟩

theorem append (h : Follows types us) (vs : List Token) : Follows types (us ++ vs) := by
  obtain ⟨t, ts, rfl, ht⟩ := h
  exact ⟨t, ts ++ vs, rfl, ht⟩

theorem ne_nil (h : Follows types us) : us ≠ [] := by
  obtain ⟨t, vs, rfl, -⟩ := h
  exact List.cons_ne_nil t vs

/-- An iteration begins with its separator, or with what follows it. -/
theorem many {α : Type} {type : TokenType} {L : Rule Token α} {ts : List Token} {as : List α}
    (h : Many (After type L) ts as) (htype : type ∉ types) (hus : Follows types us) :
    Follows types (ts ++ us) := by
  cases h with
  | nil => exact hus
  | cons first _ =>
    obtain ⟨ht, -⟩ := first
    exact .cons ht htype

end Follows

namespace Parser

variable {α β : Type}

def Accepts (p : Prog Parser α) (ts : List Token) (a : α) (us : List Token) : Prop :=
  ∀ s, s.rest = ts ++ us → ∃ s', p s = .ok a s' ∧ s'.rest = us

namespace Accepts

variable {p : Prog Parser α} {f : α → Prog Parser β} {ts us w : List Token} {a : α} {b : β}
  {t : Token} {type : TokenType}

theorem pure : Accepts (Pure.pure a) [] a us := fun s hs => ⟨s, rfl, hs⟩

theorem bind (h : Accepts p ts a (w ++ us)) (hf : Accepts (f a) w b us) :
    Accepts (p >>= f) (ts ++ w) b us := by
  intro s hs
  obtain ⟨s', hrun, hs'⟩ := h s (hs.trans (List.append_assoc _ _ _))
  obtain ⟨s'', hrun', hs''⟩ := hf s' hs'
  exact ⟨s'', (Prog.bind_ok hrun).trans hrun', hs''⟩

theorem map {g : α → β} (h : Accepts p ts a us) :
    Accepts (p >>= fun a => Pure.pure (g a)) ts (g a) us := by
  have := h.bind (f := fun a => Pure.pure (g a)) (w := []) (b := g a) pure
  rwa [List.append_nil] at this

theorem advance (hus : us ≠ []) : Accepts Parser.advance [t] t us := by
  intro s hs
  obtain ⟨u, us', rfl⟩ := List.exists_cons_of_ne_nil hus
  obtain ⟨hrun, hrest⟩ := advance_rest hs
  exact ⟨_, hrun, hrest⟩

theorem expect (ht : t.type = type) (what : String) (hus : us ≠ []) :
    Accepts (Parser.expect type what) [t] t us := by
  intro s hs
  rw [expect_rest_eq hs ht]
  exact advance hus s hs

theorem match'_true (ht : t.type = type) (hus : us ≠ []) :
    Accepts (Parser.match' type) [t] true us := by
  intro s hs
  obtain ⟨s', hrun, hs'⟩ := advance hus s hs
  exact ⟨s', match'_rest_eq hs ht hrun, hs'⟩

theorem match'_false (h : Follows [type] us) : Accepts (Parser.match' type) [] false us := by
  intro s hs
  obtain ⟨t, vs, rfl, ht⟩ := h
  exact ⟨s, match'_rest_ne hs (fun h => ht (List.mem_singleton.mpr h)), hs⟩

/-- `if (Match(type)) … else …`, the token there. -/
theorem ifMatch {x y : Prog Parser α} (ht : t.type = type) (hne : ts ++ us ≠ [])
    (hx : Accepts x ts a us) :
    Accepts (Parser.match' type >>= fun b => if b = true then x else y) (t :: ts) a us :=
  (match'_true ht hne).bind hx

/-- `if (Match(type)) … else …`, the token not there. -/
theorem ifNoMatch {x y : Prog Parser α} (h : Follows [type] (ts ++ us)) (hy : Accepts y ts a us) :
    Accepts (Parser.match' type >>= fun b => if b = true then x else y) ts a us :=
  (match'_false h).bind hy

theorem withFuel {f : Nat → Prog Parser α} (h : ∀ k, ts.length < k → Accepts (f k) ts a us) :
    Accepts (fuel >>= f) ts a us := by
  intro s hs
  have hlen := s.rest_length_le
  rw [hs, List.length_append] at hlen
  have hfuel : fuel s = .ok (s.tokens.length + 1) s := rfl
  rw [Prog.bind_ok hfuel]
  exact h _ (by omega) s hs

/-- A loop reads each round's word, and stops before a token no round begins with. -/
theorem whileM {cond : Prog Parser Bool} {step : β → Prog Parser β} {L : Rule Token α}
    {g : β → α → β} (next : List TokenType)
    (hround : ∀ ts a, L ts a → ∀ b us, Follows next us → ∃ cs ds, ts = cs ++ ds ∧
      Accepts cond cs true (ds ++ us) ∧ Accepts (step b) ds (g b a) us)
    (hfirst : ∀ ts a, L ts a → Follows next ts) (hstop : Accepts cond [] false us)
    (hus : Follows next us) {as : List α} (has : Many L ts as) {k : Nat} (hk : ts.length < k)
    (b : β) : Accepts (Prog.whileM cond step k b) ts (as.foldl g b) us := by
  induction has generalizing k b with
  | nil =>
    obtain ⟨k, rfl⟩ := Nat.exists_eq_succ_of_ne_zero (Nat.ne_of_gt hk)
    unfold Prog.whileM
    exact hstop.bind (w := []) pure
  | @cons ts vs a as ha hrest ih =>
    obtain ⟨k, rfl⟩ := Nat.exists_eq_succ_of_ne_zero (Nat.ne_of_gt (Nat.zero_lt_of_lt hk))
    -- What follows the round is the next round, or what follows the loop.
    have hnext : Follows next (vs ++ us) := by
      cases hrest with
      | nil => exact hus
      | cons hb _ =>
        rw [List.append_assoc]
        exact (hfirst _ _ hb).append _
    have hpos := List.length_pos_iff.mpr (hfirst _ _ ha).ne_nil
    obtain ⟨cs, ds, rfl, hcond, hstep⟩ := hround _ _ ha b _ hnext
    rw [List.length_append] at hk
    unfold Prog.whileM
    rw [List.append_assoc]
    refine bind (by rwa [List.append_assoc]) ?_
    exact hstep.bind (ih (by omega) _)

/-- `while (Match(type)) …`. -/
theorem whileMatch {item : Prog Parser α} {L : Rule Token α} {g : β → α → β}
    (next : List TokenType) (htype : type ∉ next)
    (hitem : ∀ ts a, L ts a → ∀ us, Follows next us → Accepts item ts a us)
    (hne : ∀ ts a, L ts a → ts ≠ []) (hus : Follows (type :: next) us) {as : List α}
    (has : Many (After type L) ts as) (b : β) :
    Accepts (fuel >>= fun k => Prog.whileM (Parser.match' type)
      (fun b => item >>= fun a => Pure.pure (g b a)) k b) ts (as.foldl g b) us := by
  have hstop : Follows [type] us := hus.mono (by simp)
  have hnext : Follows next us := hus.mono fun t ht => List.mem_cons_of_mem _ ht
  refine withFuel fun k hk => whileM next ?_ ?_ (match'_false hstop) hnext has hk b
  · rintro _ a ⟨ht, ha⟩ b us hus
    refine ⟨[_], _, rfl, match'_true ht ?_, (hitem _ _ ha us hus).map⟩
    exact List.append_ne_nil_of_left_ne_nil (hne _ _ ha) _
  · rintro _ a ⟨ht, -⟩
    exact .cons ht htype

theorem collect {item : Prog Parser α} {L : Rule Token α} (next : List TokenType)
    (hcomma : .comma ∉ next) (hitem : ∀ ts a, L ts a → ∀ us, Follows next us → Accepts item ts a us)
    (hne : ∀ ts a, L ts a → ts ≠ []) (hus : Follows (.comma :: next) us) {as : List α}
    (has : Many (After .comma L) ts as) (items : List α) :
    Accepts (Parser.collect .comma item items) ts (items ++ as) us := by
  rw [← foldl_snoc]
  exact whileMatch next hcomma hitem hne hus has items

/-- `Expect(type, …)`, and on. -/
theorem expectThen {f : Token → Prog Parser β} {what : String} (ht : t.type = type)
    (hne : w ++ us ≠ []) (hf : Accepts (f t) w b us) :
    Accepts (Parser.expect type what >>= f) (t :: w) b us :=
  (expect ht what hne).bind hf

theorem parseIdent (ht : t.type = .identifier) (hne : us ≠ []) :
    Accepts parseIdent [t] t.text us :=
  (expect ht _ hne).map

/-- `ParseIdent()`, and on. -/
theorem identThen {f : Bytes → Prog Parser β} (ht : t.type = .identifier) (hne : w ++ us ≠ [])
    (hf : Accepts (f t.text) w b us) : Accepts (Parser.parseIdent >>= f) (t :: w) b us :=
  (parseIdent ht hne).bind hf

end Accepts

/-! ## The methods -/

section

variable {ts us : List Token} {t : Token}

theorem accepts_parseTypeName {type : ColumnType} (h : TypeRule t.type type) (hus : us ≠ []) :
    Accepts parseTypeName [t] type us := by
  generalize htype : t.type = ty at h
  cases h with
  | integer => exact .ifMatch htype hus .pure
  | text =>
    exact .ifNoMatch (.cons htype (by decide)) (.ifMatch htype hus .pure)

theorem accepts_parseColumnDef {column : ColumnDef} (h : ColumnDefRule ts column)
    (hus : Follows [.primary] us) : Accepts parseColumnDef ts column us := by
  cases h with
  | plain hname htype =>
    refine .identThen hname (List.cons_ne_nil _ _) ?_
    refine (accepts_parseTypeName htype hus.ne_nil).bind (w := []) ?_
    exact .ifNoMatch hus .pure
  | @primaryKey n t p k type hname htype hp hk =>
    refine .identThen hname (List.cons_ne_nil _ _) ?_
    refine (accepts_parseTypeName htype (List.cons_ne_nil _ _)).bind (w := [p, k]) ?_
    refine .ifMatch hp (List.cons_ne_nil _ _) ?_
    exact .expectThen (w := []) hk hus.ne_nil .pure

theorem columnDefRule_ne_nil {column : ColumnDef} (h : ColumnDefRule ts column) : ts ≠ [] := by
  cases h <;> exact List.cons_ne_nil _ _

theorem identRule_ne_nil {name : Bytes} (h : IdentRule ts name) : ts ≠ [] := by
  cases h
  exact List.cons_ne_nil _ _

theorem literalRule_ne_nil {value : Literal} (h : LiteralRule ts value) : ts ≠ [] := by
  cases h <;> exact List.cons_ne_nil _ _

theorem accepts_parseCreateTable {stmt : CreateTableStmt} (h : CreateRule ts stmt) (hus : us ≠ []) :
    Accepts parseCreateTable ts (.createTable stmt) us := by
  obtain ⟨hc, ht, hname, hl, ⟨hfirst, hrest⟩, hr⟩ := h
  simp only [List.cons_append, List.append_assoc]
  refine .expectThen hc (List.cons_ne_nil _ _) ?_
  refine .expectThen ht (List.cons_ne_nil _ _) ?_
  refine .identThen hname (List.cons_ne_nil _ _) ?_
  refine .expectThen hl (by simp) ?_
  refine (accepts_parseColumnDef hfirst ?_).bind ?_
  · rw [List.append_assoc]
    exact .many hrest (by decide) (.cons hr (by decide))
  · refine (Accepts.collect [.primary] (by decide)
      (fun _ _ h _ => accepts_parseColumnDef h) (fun _ _ => columnDefRule_ne_nil)
      (.cons hr (by decide)) hrest _).bind ?_
    exact .expectThen (w := []) hr hus .pure

/-! ### INSERT -/

theorem accepts_ident {name : Bytes} (h : IdentRule ts name) (hus : us ≠ []) :
    Accepts parseIdent ts name us := by
  obtain ⟨ht⟩ := h
  exact .parseIdent ht hus

theorem accepts_parseLiteral {value : Literal} (h : LiteralRule ts value) (hus : us ≠ []) :
    Accepts parseLiteral ts value us := by
  intro s hs
  unfold parseLiteral
  cases h with
  | integer ht =>
    rw [Prog.bind_ok (check_rest hs), decide_eq_true ht, if_pos rfl]
    exact Accepts.map (g := fun t : Token => Literal.integer t.intValue) (.advance hus) s hs
  | text ht =>
    rw [Prog.bind_ok (check_rest hs), decide_eq_false (by rw [ht]; decide),
      if_neg Bool.false_ne_true, Prog.bind_ok (check_rest hs), decide_eq_true ht, if_pos rfl]
    exact Accepts.map (g := fun t : Token => Literal.text t.stringValue) (.advance hus) s hs

/-- A comma list of words that may be followed by anything, up to its closing parenthesis. -/
theorem accepts_list {item : Prog Parser α} {L : Rule Token α} {r : Token} {what : String}
    (hitem : ∀ ts a, L ts a → ∀ us, us ≠ [] → Accepts item ts a us)
    (hne : ∀ ts a, L ts a → ts ≠ []) {as : List α} (h : CommaList L ts as) (hr : r.type = .rparen)
    (hus : us ≠ []) {f : List α → Prog Parser β} {b : β} {vs : List Token}
    (hf : Accepts (f as) vs b us) :
    Accepts (item >>= fun first => collect .comma item [first] >>= fun items =>
      expect .rparen what >>= fun _ => f items) (ts ++ r :: vs) b us := by
  obtain ⟨hfirst, hrest⟩ := h
  rw [List.append_assoc]
  refine (hitem _ _ hfirst _ ?_).bind ?_
  · simp
  · refine (Accepts.collect [] (by decide) (fun _ _ h _ hus => hitem _ _ h _ hus.ne_nil)
      hne (.cons hr (by decide)) hrest _).bind ?_
    exact .expectThen hr (by simp [hus]) hf

theorem accepts_parseColumnNames {columns : List Bytes} (h : ColumnNamesRule ts columns)
    (hus : Follows [.lparen] us) : Accepts parseColumnNames ts columns us := by
  cases h with
  | absent => exact .ifNoMatch hus .pure
  | present hl hlist hr =>
    simp only [List.cons_append]
    refine .ifMatch hl (by simp) ?_
    exact accepts_list (fun _ _ h _ => accepts_ident h) (fun _ _ => identRule_ne_nil) hlist hr
      hus.ne_nil .pure

theorem accepts_parseInsert {stmt : InsertStmt} (h : InsertRule ts stmt) (hus : us ≠ []) :
    Accepts parseInsert ts (.insert stmt) us := by
  obtain ⟨hi, ho, hname, hnames, hv, hl, hlist, hr⟩ := h
  simp only [List.cons_append, List.append_assoc]
  refine .expectThen hi (List.cons_ne_nil _ _) ?_
  refine .expectThen ho (List.cons_ne_nil _ _) ?_
  refine .identThen hname (by simp) ?_
  refine (accepts_parseColumnNames hnames (.cons hv (by decide))).bind ?_
  refine .expectThen hv (List.cons_ne_nil _ _) ?_
  refine .expectThen hl (by simp) ?_
  exact accepts_list (fun _ _ h _ => accepts_parseLiteral h) (fun _ _ => literalRule_ne_nil) hlist hr
    hus .pure

/-! ### Expressions -/

theorem accepts_parseColumnRef {ref : Option Bytes × Bytes} (h : ColumnRefRule ts ref)
    (hus : Follows [.dot] us) : Accepts parseColumnRef ts ref us := by
  cases h with
  | plain ht => exact .identThen ht hus.ne_nil (.ifNoMatch hus .pure)
  | qualified ht hd hu =>
    refine .identThen ht (List.cons_ne_nil _ _) ?_
    refine .ifMatch hd (List.cons_ne_nil _ _) ?_
    exact .identThen (w := []) hu hus.ne_nil .pure

theorem literalRule_follows {value : Literal} {types : List TokenType} (h : LiteralRule ts value)
    (hint : .integerLiteral ∉ types) (htext : .stringLiteral ∉ types) : Follows types ts := by
  cases h with
  | integer ht => exact .cons ht hint
  | text ht => exact .cons ht htext

theorem columnRefRule_follows {ref : Option Bytes × Bytes} {types : List TokenType}
    (h : ColumnRefRule ts ref) (hident : .identifier ∉ types) : Follows types ts := by
  cases h with
  | plain ht => exact .cons ht hident
  | qualified ht => exact .cons ht hident

theorem accepts_parseValue {e : Expr} (h : ValueRule ts e) (hus : Follows [.dot] us) :
    Accepts parseValue ts e us := by
  intro s hs
  unfold parseValue
  cases h with
  | @columnRef _ table column href =>
    obtain ⟨t, vs, hts, ht⟩ : ∃ t vs, ts = t :: vs ∧ t.type = .identifier := by
      cases href with
      | plain ht => exact ⟨_, _, rfl, ht⟩
      | qualified ht => exact ⟨_, _, rfl, ht⟩
    have hrest : s.rest = t :: (vs ++ us) := by
      rw [hs, hts]
      rfl
    rw [Prog.bind_ok (check_rest hrest), decide_eq_true ht, if_pos rfl]
    exact Accepts.map (g := fun ref : Option Bytes × Bytes => Expr.columnRef ref.1 ref.2)
      (accepts_parseColumnRef href hus) s hs
  | @literal _ value hvalue =>
    obtain ⟨t, vs, hts, ht⟩ : ∃ t vs, ts = t :: vs ∧
        (t.type = .integerLiteral ∨ t.type = .stringLiteral) := by
      cases hvalue with
      | integer ht => exact ⟨_, _, rfl, .inl ht⟩
      | text ht => exact ⟨_, _, rfl, .inr ht⟩
    have hrest : s.rest = t :: (vs ++ us) := by
      rw [hs, hts]
      rfl
    have hident : t.type ≠ .identifier := by
      rcases ht with ht | ht <;> rw [ht] <;> decide
    have hor : (decide (t.type = .integerLiteral) || decide (t.type = .stringLiteral)) = true := by
      simpa using ht
    rw [Prog.bind_ok (check_rest hrest), decide_eq_false hident, if_neg Bool.false_ne_true,
      Prog.bind_ok (check_rest hrest), Prog.bind_ok (check_rest hrest), hor, if_pos rfl]
    exact Accepts.map (g := Expr.literal) (accepts_parseLiteral hvalue hus.ne_nil) s hs

theorem comparisonOp_of_cmpRule {type : TokenType} {op : ComparisonOp} (h : CmpRule type op) :
    comparisonOp type = some op := by
  cases h <;> rfl

theorem accepts_parseComparisonOp {op : ComparisonOp} (h : CmpRule t.type op) (hus : us ≠ []) :
    Accepts parseComparisonOp [t] op us := by
  intro s hs
  unfold parseComparisonOp
  rw [Prog.bind_ok (peek_rest hs), comparisonOp_of_cmpRule h]
  exact Accepts.map (g := fun _ => op) (.advance hus) s hs

/-- A primary expression does not begin with these. -/
theorem valueRule_follows {e : Expr} {types : List TokenType} (h : ValueRule ts e)
    (hident : .identifier ∉ types) (hint : .integerLiteral ∉ types)
    (htext : .stringLiteral ∉ types) : Follows types ts := by
  cases h with
  | columnRef href => exact columnRefRule_follows href hident
  | literal hvalue => exact literalRule_follows hvalue hint htext

theorem accepts_parseComparison {vs : List Token} {op : ComparisonOp} {a b : Expr}
    (ha : ValueRule ts a) (hop : CmpRule t.type op) (hb : ValueRule vs b)
    (hus : Follows [.dot] us) :
    Accepts parseComparison (ts ++ t :: vs) (.comparison op a b) us := by
  have hcmp : Follows [.dot] (t :: (vs ++ us)) := by
    cases htype : t.type <;> rw [htype] at hop <;> cases hop <;> exact .cons htype (by decide)
  have hvs : Follows [] vs := valueRule_follows hb (by decide) (by decide) (by decide)
  refine (accepts_parseValue ha hcmp).bind ?_
  refine (accepts_parseComparisonOp hop (hvs.append us).ne_nil).bind (w := vs) ?_
  exact (accepts_parseValue hb hus).map

section

variable {inner : Prog Parser Expr} {depth : Nat} {e : Expr}

/-- `parseExpr` reads expressions of fewer than `depth` tokens. -/
def ReadsWithin (depth : Nat) (inner : Prog Parser Expr) : Prop :=
  ∀ ts e, ExprRule .or ts e → ts.length < depth → ∀ us, Follows [.or, .and, .dot] us →
    Accepts inner ts e us

theorem accepts_parsePrimaryExpr (hinner : ReadsWithin depth inner) (h : ExprRule .primary ts e)
    (hdepth : ts.length < depth + 1) (hus : Follows [.dot] us) :
    Accepts (parsePrimaryExpr inner) ts e us := by
  cases h with
  | paren hl he hr =>
    simp only [List.length_append, List.length_cons, List.length_nil] at hdepth
    simp only [List.cons_append]
    refine .ifMatch hl (by simp) ?_
    refine (hinner _ _ he (by omega) _ (.cons hr (by decide))).bind ?_
    exact .expectThen (w := []) hr hus.ne_nil .pure
  | comparison ha hop hb =>
    refine .ifNoMatch ?_ (accepts_parseComparison ha hop hb hus)
    rw [List.append_assoc]
    exact (valueRule_follows ha (by decide) (by decide) (by decide)).append _

theorem exprRule_ne_nil {level : Level} (h : ExprRule level ts e) : ts ≠ [] := by
  induction h with
  | ofAnd _ ih => exact ih
  | ofPrimary _ ih => exact ih
  | or => simp
  | and => simp
  | paren => simp
  | comparison => simp

theorem accepts_parseAndExpr (hinner : ReadsWithin depth inner) (h : ExprRule .and ts e)
    (hdepth : ts.length < depth + 1) (hus : Follows [.and, .dot] us) :
    Accepts (parseAndExpr inner) ts e us := by
  obtain ⟨fs, vs, first, rights, hfirst, hrights, rfl, rfl⟩ := exprRule_and_iff.mp h
  rw [List.length_append] at hdepth
  have hdot : Follows [.dot] us := hus.mono (by simp)
  refine (accepts_parsePrimaryExpr hinner hfirst (by omega)
    (.many hrights (by decide) hdot)).bind ?_
  -- Every operand is shorter than the whole, so `inner` reads what its parentheses hold.
  have hbounded : Many (After .and fun us e => ExprRule .primary us e ∧ us.length < depth + 1)
      vs rights := by
    refine hrights.bounded.imp ?_
    rintro _ _ ⟨⟨ht, he⟩, hlen⟩
    rw [List.length_cons] at hlen
    exact .mk ht ⟨he, by omega⟩
  exact .whileMatch [.dot] (by decide) (fun _ _ h _ => accepts_parsePrimaryExpr hinner h.1 h.2)
    (fun _ _ h => exprRule_ne_nil h.1) hus hbounded first

theorem accepts_parseExprWithin : ReadsWithin depth (parseExprWithin depth) := by
  induction depth with
  | zero => exact fun _ _ _ h => absurd h (Nat.not_lt_zero _)
  | succ depth ih =>
    intro ts e h hdepth us hus
    obtain ⟨fs, vs, first, rights, hfirst, hrights, rfl, rfl⟩ := exprRule_or_iff.mp h
    rw [List.length_append] at hdepth
    have hand : Follows [.and, .dot] us := hus.mono (by simp)
    refine (accepts_parseAndExpr ih hfirst (by omega) (.many hrights (by decide) hand)).bind ?_
    have hbounded : Many (After .or fun us e => ExprRule .and us e ∧ us.length < depth + 1)
        vs rights := by
      refine hrights.bounded.imp ?_
      rintro _ _ ⟨⟨ht, he⟩, hlen⟩
      rw [List.length_cons] at hlen
      exact .mk ht ⟨he, by omega⟩
    exact .whileMatch [.and, .dot] (by decide) (fun _ _ h _ => accepts_parseAndExpr ih h.1 h.2)
      (fun _ _ h => exprRule_ne_nil h.1) hus hbounded first

theorem accepts_parseExpr (h : ExprRule .or ts e) (hus : Follows [.or, .and, .dot] us) :
    Accepts parseExpr ts e us :=
  .withFuel fun _ hk => accepts_parseExprWithin ts e h hk us hus

end

/-! ### SELECT -/

theorem accepts_parseAlias {name : Option Bytes} (h : Optional .as IdentRule ts name)
    (hus : Follows [.as] us) : Accepts parseAlias ts name us := by
  cases h with
  | absent => exact .ifNoMatch hus .pure
  | present ha hname =>
    refine .ifMatch ha ?_ (accepts_ident hname hus.ne_nil).map
    exact List.append_ne_nil_of_right_ne_nil _ hus.ne_nil

/-- An optional part begins with its keyword, or is not there. -/
theorem Follows.optional {type : TokenType} {L : Rule Token α} {types : List TokenType}
    {a : Option α} (h : Optional type L ts a) (htype : type ∉ types) (hus : Follows types us) :
    Follows types (ts ++ us) := by
  cases h with
  | absent => exact hus
  | present ht => exact .cons ht htype

theorem accepts_parseSelectItem {item : SelectItem} (h : SelectItemRule ts item)
    (hus : Follows [.as, .dot] us) : Accepts parseSelectItem ts item us := by
  obtain ⟨href, has⟩ := h
  have hdot : Follows [.dot] us := hus.mono (by simp)
  refine (accepts_parseColumnRef href (Follows.optional has (by decide) hdot)).bind ?_
  exact (accepts_parseAlias has (hus.mono (by simp))).map

theorem accepts_parseTableRef {ref : TableRef} (h : TableRefRule ts ref) (hus : Follows [.as] us) :
    Accepts parseTableRef ts ref us := by
  obtain ⟨hname, has⟩ := h
  refine .identThen hname (List.append_ne_nil_of_right_ne_nil _ hus.ne_nil) ?_
  exact (accepts_parseAlias has hus).map

theorem accepts_parseJoinClause {join : JoinClause} (h : JoinRule ts join)
    (hus : Follows [.or, .and, .dot] us) : Accepts parseJoinClause ts join us := by
  obtain ⟨hj, htable, ho, hcondition⟩ := h
  simp only [List.cons_append]
  refine .expectThen hj (by simp) ?_
  refine (accepts_parseTableRef htable (.cons ho (by decide))).bind ?_
  refine .expectThen ho (List.append_ne_nil_of_right_ne_nil _ hus.ne_nil) ?_
  exact (accepts_parseExpr hcondition hus).map

theorem joinRule_follows {join : JoinClause} {types : List TokenType} (h : JoinRule ts join)
    (hjoin : .join ∉ types) : Follows types ts := by
  obtain ⟨hj, -, -, -⟩ := h
  exact .cons hj hjoin

theorem accepts_parseJoins {joins : List JoinClause} (h : Many JoinRule ts joins)
    (hus : Follows [.join, .or, .and, .dot] us) : Accepts parseJoins ts joins us := by
  have hstop : Accepts (check .join) [] false us := by
    intro s hs
    obtain ⟨t, vs, rfl, ht⟩ := hus
    refine ⟨s, ?_, hs⟩
    rw [check_rest hs, decide_eq_false fun hjoin : t.type = .join => ht (by rw [hjoin]; decide)]
  have hjoins : joins = joins.foldl (fun joins join => joins ++ [join]) [] :=
    (foldl_snoc joins []).symm
  rw [hjoins]
  refine .withFuel fun k hk => .whileM [.or, .and, .dot] ?_
    (fun _ _ h => joinRule_follows h (by decide)) hstop (hus.mono (by simp)) h hk []
  intro vs join hjoin joins ws hws
  refine ⟨[], vs, rfl, ?_, (accepts_parseJoinClause hjoin hws).map⟩
  -- The condition sees the JOIN the round begins with, and leaves it there.
  intro s hs
  obtain ⟨hj, -, -, -⟩ := hjoin
  exact ⟨s, by rw [check_rest hs, decide_eq_true hj], hs⟩

theorem selectItemRule_follows {item : SelectItem} {types : List TokenType}
    (h : SelectItemRule ts item) (hident : .identifier ∉ types) : Follows types ts := by
  obtain ⟨href, -⟩ := h
  exact (columnRefRule_follows href hident).append _

theorem accepts_parseSelectList {list : Bool × List SelectItem} (h : SelectListRule ts list)
    (hus : Follows [.comma, .as, .dot] us) : Accepts parseSelectList ts list us := by
  cases h with
  | star ht => exact .ifMatch ht hus.ne_nil .pure
  | items hlist =>
    obtain ⟨hfirst, hrest⟩ := hlist
    have hnext : Follows [.as, .dot] us := hus.mono (by simp)
    refine .ifNoMatch ?_ ?_
    · rw [List.append_assoc]
      exact (selectItemRule_follows hfirst (by decide)).append _
    · refine (accepts_parseSelectItem hfirst (.many hrest (by decide) hnext)).bind ?_
      exact (Accepts.collect [.as, .dot] (by decide) (fun _ _ h _ => accepts_parseSelectItem h)
        (fun _ _ h => (selectItemRule_follows h List.not_mem_nil).ne_nil) hus hrest _).map

theorem accepts_parseWhere {condition : Option Expr}
    (h : Optional .where (ExprRule .or) ts condition)
    (hus : Follows [.where, .or, .and, .dot] us) : Accepts parseWhere ts condition us := by
  cases h with
  | absent => exact .ifNoMatch (hus.mono (by simp)) .pure
  | present hw he =>
    refine .ifMatch hw (List.append_ne_nil_of_right_ne_nil _ hus.ne_nil) ?_
    exact (accepts_parseExpr he (hus.mono (by simp))).map

/-- What no statement can be continued by. -/
def clauseTokens : List TokenType := [.as, .join, .where, .or, .and, .dot]

theorem accepts_parseSelect {stmt : SelectStmt} (h : SelectRule ts stmt)
    (hus : Follows clauseTokens us) : Accepts parseSelect ts (.select stmt) us := by
  obtain ⟨hs, hlist, hf, htable, hjoins, hwhere⟩ := h
  have hjoined : Follows [.join, .or, .and, .dot] us := hus.mono (by decide)
  have has : Follows [.as] us := hus.mono (by decide)
  simp only [List.cons_append, List.append_assoc]
  refine .expectThen hs (by simp) ?_
  refine (accepts_parseSelectList hlist (.cons hf (by decide))).bind ?_
  refine .expectThen hf (by simp [hus.ne_nil]) ?_
  refine (accepts_parseTableRef htable ?_).bind ?_
  · rw [List.append_assoc]
    cases hjoins with
    | nil =>
      rw [List.nil_append]
      exact Follows.optional hwhere (by decide) has
    | cons hjoin _ =>
      rw [List.append_assoc]
      exact (joinRule_follows hjoin (by decide)).append _
  · refine (accepts_parseJoins hjoins (Follows.optional hwhere (by decide) hjoined)).bind ?_
    exact (accepts_parseWhere hwhere (hus.mono (by decide))).map

/-! ### Statements -/

theorem accepts_parseBody {stmt : Statement} (h : BodyRule ts stmt)
    (hus : Follows clauseTokens us) : Accepts parseBody ts stmt us := by
  intro s hs
  unfold parseBody
  cases h with
  | create h =>
    have haccepts := accepts_parseCreateTable h hus.ne_nil
    obtain ⟨hc, _, _, _, _, _⟩ := h
    rw [Prog.bind_ok (peek_rest hs), hc]
    exact haccepts s hs
  | insert h =>
    have haccepts := accepts_parseInsert h hus.ne_nil
    obtain ⟨hi, _, _, _, _, _, _, _⟩ := h
    rw [Prog.bind_ok (peek_rest hs), hi]
    exact haccepts s hs
  | select h =>
    have haccepts := accepts_parseSelect h hus
    obtain ⟨hsel, _, _, _, _, _⟩ := h
    rw [Prog.bind_ok (peek_rest hs), hsel]
    exact haccepts s hs

/-- `Advance` stays on the last token. -/
theorem advance_last {p : Parser} (h : p.rest = [t]) : advance p = .ok t p := by
  have hlen := congrArg List.length h
  rw [rest, List.length_drop, List.length_singleton] at hlen
  unfold advance
  rw [Prog.bind_ok (peek_rest h)]
  have hpos : ¬ p.pos < p.tokens.length - 1 := by omega
  simp [bind, EStateM.bind, hpos, pure, EStateM.pure]

theorem parseStatement_of_rule {stmt : Statement} (h : StatementRule ts stmt) {s : Parser}
    (hs : s.rest = ts) : ∃ s', parseStatement s = .ok stmt s' := by
  unfold parseStatement
  cases h with
  | plain hbody hlast =>
    obtain ⟨s₁, hrun₁, hs₁⟩ := accepts_parseBody hbody (.cons hlast (by decide)) s hs
    rw [Prog.bind_ok hrun₁, Prog.bind_ok (match'_rest_ne hs₁ (by rw [hlast]; decide))]
    rw [Prog.bind_ok ((expect_rest_eq hs₁ hlast _).trans (advance_last hs₁))]
    exact ⟨s₁, rfl⟩
  | semicolon hbody hsemicolon hlast =>
    obtain ⟨s₁, hrun₁, hs₁⟩ := accepts_parseBody hbody (.cons hsemicolon (by decide)) s hs
    obtain ⟨hrun₂, hs₂⟩ := advance_rest hs₁
    rw [Prog.bind_ok hrun₁, Prog.bind_ok (match'_rest_eq hs₁ hsemicolon hrun₂)]
    rw [Prog.bind_ok ((expect_rest_eq hs₂ hlast _).trans (advance_last hs₂))]
    exact ⟨_, rfl⟩

/-- The last step of `ParseStatement`. -/
theorem expect_end {p : Parser} (hp : Ended p.rest) (what : String) :
    (∃ t, p.rest = [t] ∧ t.type = .endOfInput ∧ expect .endOfInput what p = .ok t p) ∨
      ∃ e, expect .endOfInput what p = .error e p ∧ Exn.IsParseError e := by
  obtain ⟨t, ts, hrest⟩ := hp.exists_cons
  by_cases ht : t.type = .endOfInput
  · left
    rw [hrest, ended_cons] at hp
    rcases hp with ⟨rfl, -⟩ | ⟨hne, -⟩
    · exact ⟨t, hrest, ht, (expect_rest_eq hrest ht what).trans (advance_last hrest)⟩
    · exact absurd ht hne
  · right
    obtain ⟨msg, hmsg⟩ := expect_rest_ne hrest ht what
    exact ⟨_, hmsg, _, _, _, rfl⟩

/-- What `ParseStatement` returns has a derivation; else it throws a `ParseError`. -/
theorem rule_of_parseStatement {s : Parser} (hs : Ended s.rest) :
    (∃ stmt s', parseStatement s = .ok stmt s' ∧ StatementRule s.rest stmt) ∨
      ∃ e s', parseStatement s = .error e s' ∧ Exn.IsParseError e := by
  unfold parseStatement
  have hbody := reads_parseBody s hs le_rfl
  cases hrun : parseBody s with
  | error e s₁ =>
    rw [hrun] at hbody
    rw [Prog.bind_error hrun]
    exact .inr ⟨e, s₁, rfl, hbody⟩
  | ok stmt s₁ =>
    rw [hrun] at hbody
    obtain ⟨hs₁, ts, hts, hstmt⟩ := hbody
    rw [Prog.bind_ok hrun]
    have hsemicolon := Reads.match' (show TokenType.semicolon ≠ .endOfInput by decide) s₁ hs₁
      le_rfl
    cases hrun₂ : match' .semicolon s₁ with
    | error e s₂ =>
      rw [hrun₂] at hsemicolon
      rw [Prog.bind_error hrun₂]
      exact .inr ⟨e, s₂, rfl, hsemicolon⟩
    | ok b s₂ =>
      rw [hrun₂] at hsemicolon
      obtain ⟨hs₂, us, hus, hb⟩ := hsemicolon
      rw [Prog.bind_ok hrun₂]
      rcases expect_end hs₂ "end of statement (only one statement is supported per parse call)" with
        ⟨t, hrest, ht, hend⟩ | ⟨e, hend, he⟩
      · rw [Prog.bind_ok hend]
        refine .inl ⟨stmt, s₂, rfl, ?_⟩
        rw [hts, hus, hrest]
        cases b with
        | true =>
          obtain ⟨u, rfl, hu⟩ := hb
          exact .semicolon hstmt hu ht
        | false =>
          obtain rfl : us = [] := hb
          exact .plain hstmt ht
      · rw [Prog.bind_error hend]
        exact .inr ⟨e, s₂, rfl, he⟩

end

/-- **The parser accepts exactly its grammar.** On a token list that ends in its only
`END_OF_INPUT`, `ParseStatement` returns a statement if and only if the list derives it, and throws
a `ParseError` if it derives none. -/
theorem parseStatement_iff {tokens : List Token} (h : Ended tokens) :
    (∀ stmt, (∃ p, parseStatement (new tokens) = .ok stmt p) ↔ StatementRule tokens stmt) ∧
      ((¬ ∃ stmt, StatementRule tokens stmt) →
        ∃ what line column p, parseStatement (new tokens) = .error (.parseError what line column) p) := by
  have hrest := rest_new tokens
  have hsound := rule_of_parseStatement (s := new tokens) (by rwa [hrest])
  rw [hrest] at hsound
  refine ⟨fun stmt => ⟨?_, fun hrule => parseStatement_of_rule hrule hrest⟩, fun hnone => ?_⟩
  · rintro ⟨p, hrun⟩
    rcases hsound with ⟨stmt', p', hrun', hrule⟩ | ⟨e, p', hrun', -⟩
    · rw [hrun] at hrun'
      cases hrun'
      exact hrule
    · rw [hrun] at hrun'
      cases hrun'
  · rcases hsound with ⟨stmt', p', hrun', hrule⟩ | ⟨e, p', hrun', what, line, column, rfl⟩
    · exact absurd ⟨stmt', hrule⟩ hnone
    · exact ⟨what, line, column, p', hrun'⟩

/-- `SELECT * FROM t`, as tokens. -/
def selectStar : List Token :=
  [⟨.select, text "SELECT", 0, [], 1, 1⟩, ⟨.star, text "*", 0, [], 1, 8⟩,
    ⟨.from, text "FROM", 0, [], 1, 10⟩, ⟨.identifier, text "t", 0, [], 1, 15⟩,
    ⟨.endOfInput, [], 0, [], 1, 16⟩]

theorem parseStatement_iff_select :
    StatementRule selectStar (.select ⟨true, [], ⟨text "t", none⟩, [], none⟩) := by
  have hended : Ended selectStar :=
    ⟨by decide, by decide, by decide, by decide, rfl⟩
  exact ((parseStatement_iff hended).1 _).mp ⟨_, rfl⟩

end Parser

end Reldb
