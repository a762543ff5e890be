import Reldb.Sql.Accepts

/-!
# Reldb — two runs of the parser in lockstep

The parser looks at no token past the one it is at. So on two token lists that are alike up to some
index, in all but the tokens' places and the letter case of keywords, it does the same until it gets
past that index: it returns the same, or throws at the same token (`parseStatement_lockstep`).
-/

namespace Reldb

/-! ## Tokens the parser cannot tell apart -/

/-- The same but for the place, and the text of what is no identifier. -/
structure Token.Alike (t u : Token) : Prop where
  type : t.type = u.type
  name : t.type = .identifier → t.text = u.text
  intValue : t.intValue = u.intValue
  stringValue : t.stringValue = u.stringValue

theorem Token.Alike.refl (t : Token) : t.Alike t := ⟨rfl, fun _ => rfl, rfl, rfl⟩

namespace Parser

variable {α β : Type} {k : Nat} {s t : Parser}

/-- At the same place, with the same tokens up to index `k`, which is the last one of both lists or of
neither. -/
structure Abreast (k : Nat) (s t : Parser) : Prop where
  pos : s.pos = t.pos
  alike : ∀ i ≤ k, ∃ a b, s.tokens[i]? = some a ∧ t.tokens[i]? = some b ∧ a.Alike b
  last : k + 1 = s.tokens.length ↔ k + 1 = t.tokens.length

/-- A `ParseError` with the place of the next token. -/
def ErrorAt (e : Exn) (s : Parser) : Prop :=
  ∃ t ts what, s.rest = t :: ts ∧ e = .parseErrorAt what t.line t.column

/-- Only the place moves, and forwards. -/
def Ahead (s s' : Parser) : Prop := s'.tokens = s.tokens ∧ s.pos ≤ s'.pos

theorem Ahead.refl (s : Parser) : Ahead s s := ⟨rfl, Nat.le_refl _⟩

theorem Ahead.trans {s' s'' : Parser} (h : Ahead s s') (h' : Ahead s' s'') : Ahead s s'' :=
  ⟨h'.1.trans h.1, h.2.trans h'.2⟩

/-- The parser a run leaves. -/
def left : EStateM.Result Exn Parser α → Parser
  | .ok _ s => s
  | .error _ s => s

/-- How two runs from abreast parsers compare: the first got past the index, one of them ran out of
fuel, or both ended abreast. -/
inductive Meets (k : Nat) (R : α → α → Prop) :
    EStateM.Result Exn Parser α → EStateM.Result Exn Parser α → Prop
  | ok {a b : α} {s t : Parser} (hab : R a b) (h : Abreast k s t) (hk : s.pos ≤ k) :
      Meets k R (.ok a s) (.ok b t)
  | error {e e' : Exn} {s t : Parser} (h : Abreast k s t) (he : ErrorAt e s) (he' : ErrorAt e' t) :
      Meets k R (.error e s) (.error e' t)
  | passed {r r' : EStateM.Result Exn Parser α} (h : k < (left r).pos)
      (hlast : k + 1 < (left r).tokens.length) : Meets k R r r'
  | outOfFuel {r : EStateM.Result Exn Parser α} {s : Parser} : Meets k R (.error .divergence s) r
  | outOfFuel' {r : EStateM.Result Exn Parser α} {s : Parser} : Meets k R r (.error .divergence s)

/-- From abreast parsers the two programs do the same, up to index `k`. -/
structure Lockstep (R : α → α → Prop) (p q : Prog Parser α) : Prop where
  ahead : ∀ s, Ahead s (left (p s))
  meets : ∀ k s t, Abreast k s t → s.pos ≤ k → Meets k R (p s) (q t)

/-! ## Reading tokens -/

theorem rest_of_getElem? {a : Token} (h : s.tokens[s.pos]? = some a) : ∃ us, s.rest = a :: us := by
  obtain ⟨hlt, ha⟩ := List.getElem?_eq_some_iff.mp h
  refine ⟨s.tokens.drop (s.pos + 1), ?_⟩
  rw [rest, List.drop_eq_getElem_cons hlt, ha]

theorem Abreast.heads (h : Abreast k s t) (hk : s.pos ≤ k) : ∃ a us b vs,
    s.rest = a :: us ∧ t.rest = b :: vs ∧ a.Alike b := by
  obtain ⟨a, b, ha, hb, hab⟩ := h.alike s.pos hk
  obtain ⟨us, hus⟩ := rest_of_getElem? ha
  rw [h.pos] at hb
  obtain ⟨vs, hvs⟩ := rest_of_getElem? hb
  exact ⟨a, us, b, vs, hus, hvs, hab⟩

theorem Abreast.lt_length (h : Abreast k s t) {i : Nat} (hi : i ≤ k) : i < s.tokens.length := by
  obtain ⟨a, b, ha, -, -⟩ := h.alike i hi
  exact (List.getElem?_eq_some_iff.mp ha).1

/-- `Advance` past all tokens but the last. -/
def next (s : Parser) : Parser :=
  if s.pos < s.tokens.length - 1 then { s with pos := s.pos + 1 } else s

theorem next_ahead (s : Parser) : Ahead s s.next := by
  unfold next
  split
  · exact ⟨rfl, Nat.le_succ _⟩
  · exact .refl s

theorem next_le (s : Parser) : s.next.pos ≤ s.pos + 1 := by
  unfold next
  split
  · exact Nat.le_refl _
  · exact Nat.le_succ _

theorem advance_next {a : Token} {us : List Token} (h : s.rest = a :: us) :
    advance s = .ok a s.next := by
  unfold advance
  rw [Prog.bind_ok (peek_rest h)]
  rfl

theorem peek_cases (s : Parser) : (∃ a, peek s = .ok a s) ∨ ∃ e, peek s = .error e s := by
  unfold peek
  rw [Prog.bind_ok (rfl : (get : Prog Parser Parser) s = .ok s s)]
  cases s.tokens[s.pos]? with
  | some a => exact .inl ⟨a, rfl⟩
  | none =>
    cases s.tokens.getLast? with
    | some a => exact .inl ⟨a, rfl⟩
    | none => exact .inr ⟨_, rfl⟩

theorem Abreast.next (h : Abreast k s t) (hk : s.pos < k) : Abreast k s.next t.next := by
  obtain ⟨a, b, -, hb, -⟩ := h.alike k (Nat.le_refl k)
  have hs := h.lt_length (Nat.le_refl k)
  have ht := (List.getElem?_eq_some_iff.mp hb).1
  have hpos := h.pos
  unfold Parser.next
  rw [if_pos (by omega), if_pos (by omega)]
  exact ⟨congrArg (· + 1) hpos, h.alike, h.last⟩

namespace Lockstep

variable {R : α → α → Prop} {S : β → β → Prop} {p q : Prog Parser α} {f g : α → Prog Parser β}

theorem pure {a b : α} (h : R a b) : Lockstep R (Pure.pure a) (Pure.pure b) :=
  ⟨fun s => .refl s, fun _ _ _ hst hk => .ok h hst hk⟩

/-- What comes after the first program starts abreast, unless that one got past the index; then the
whole does too. -/
theorem bind (h : Lockstep R p q) (hR : ∀ a, R a a)
    (hf : ∀ a b, R a b → Lockstep S (f a) (g b)) : Lockstep S (p >>= f) (q >>= g) := by
  have hahead : ∀ s, Ahead s (left ((p >>= f) s)) ∧ Ahead (left (p s)) (left ((p >>= f) s)) := by
    intro s
    have hp := h.ahead s
    cases hrun : p s with
    | error e s' =>
      rw [hrun] at hp
      rw [Prog.bind_error hrun]
      exact ⟨hp, .refl s'⟩
    | ok a s' =>
      rw [hrun] at hp
      rw [Prog.bind_ok hrun]
      have hrest := (hf a a (hR a)).ahead s'
      exact ⟨hp.trans hrest, hrest⟩
  refine ⟨fun s => (hahead s).1, fun k s t hst hk => ?_⟩
  have hmeets := h.meets k s t hst hk
  have hafter := (hahead s).2
  generalize hps : p s = r at hmeets hafter
  generalize hqt : q t = r' at hmeets
  cases hmeets with
  | @ok a b s' t' hab hst' hk' =>
    rw [Prog.bind_ok hps, Prog.bind_ok hqt]
    exact (hf a b hab).meets k s' t' hst' hk'
  | error hst' he he' =>
    rw [Prog.bind_error hps, Prog.bind_error hqt]
    exact .error hst' he he'
  | passed hpos hlast =>
    refine .passed (Nat.lt_of_lt_of_le hpos hafter.2) ?_
    rw [hafter.1]
    exact hlast
  | outOfFuel =>
    rw [Prog.bind_error hps]
    exact .outOfFuel
  | outOfFuel' =>
    rw [Prog.bind_error hqt]
    exact .outOfFuel'

theorem andThen (h : Lockstep Eq p q) (hf : ∀ a, Lockstep S (f a) (g a)) :
    Lockstep S (p >>= f) (q >>= g) := by
  refine h.bind (fun _ => rfl) fun a b hab => ?_
  subst hab
  exact hf a

theorem error (what what' : Bytes) : Lockstep R (error what) (Parser.error what') := by
  constructor
  · intro s
    rcases peek_cases s with ⟨a, hpeek⟩ | ⟨e, hpeek⟩
    · rw [Parser.error, Prog.bind_ok hpeek]
      exact .refl s
    · rw [Parser.error, Prog.bind_error hpeek]
      exact .refl s
  · intro k s t hst hk
    obtain ⟨a, us, b, vs, hs, ht, -⟩ := hst.heads hk
    rw [error_rest hs, error_rest ht]
    exact .error hst ⟨a, us, what, hs, rfl⟩ ⟨b, vs, what', ht, rfl⟩

theorem peek : Lockstep Token.Alike peek Parser.peek := by
  constructor
  · intro s
    rcases peek_cases s with ⟨a, hpeek⟩ | ⟨e, hpeek⟩ <;> rw [hpeek] <;> exact .refl s
  · intro k s t hst hk
    obtain ⟨a, us, b, vs, hs, ht, hab⟩ := hst.heads hk
    rw [peek_rest hs, peek_rest ht]
    exact .ok hab hst hk

/-- Both move, unless at the last token of both lists. -/
theorem advance_meets {R : Token → Token → Prop} {a b : Token} {us vs : List Token}
    (h : Abreast k s t) (hk : s.pos ≤ k) (hs : s.rest = a :: us) (ht : t.rest = b :: vs)
    (hab : R a b) : Meets k R (Parser.advance s) (Parser.advance t) := by
  rw [advance_next hs, advance_next ht]
  rcases Nat.lt_or_eq_of_le hk with hlt | rfl
  · exact .ok hab (h.next hlt) (s.next_le.trans hlt)
  · have hlength := h.lt_length (Nat.le_refl _)
    by_cases hlast : s.pos + 1 = s.tokens.length
    · have hstay : s.next = s ∧ t.next = t := by
        have hlast' := h.last.mp hlast
        have hpos := h.pos
        exact ⟨if_neg (by omega), if_neg (by omega)⟩
      rw [hstay.1, hstay.2]
      exact .ok hab h hk
    · have hmove : s.next = { s with pos := s.pos + 1 } := if_pos (by omega)
      rw [hmove]
      exact .passed (Nat.lt_succ_self _) (show s.pos + 1 < s.tokens.length by omega)

theorem advance_ahead (s : Parser) : Ahead s (left (Parser.advance s)) := by
  rcases peek_cases s with ⟨a, hpeek⟩ | ⟨e, hpeek⟩
  · have hadvance : Parser.advance s = .ok a s.next := Prog.bind_ok hpeek
    rw [hadvance]
    exact next_ahead s
  · have hadvance : Parser.advance s = .error e s := Prog.bind_error hpeek
    rw [hadvance]
    exact .refl s

theorem advance : Lockstep Token.Alike advance Parser.advance := by
  refine ⟨advance_ahead, fun k s t hst hk => ?_⟩
  obtain ⟨a, us, b, vs, hs, ht, hab⟩ := hst.heads hk
  exact advance_meets hst hk hs ht hab

theorem check (type : TokenType) : Lockstep Eq (check type) (Parser.check type) := by
  refine peek.bind Token.Alike.refl fun a b hab => .pure ?_
  rw [hab.type]

theorem match' (type : TokenType) : Lockstep Eq (match' type) (Parser.match' type) := by
  refine (check type).andThen fun b => ?_
  cases b with
  | false => exact .pure rfl
  | true => exact advance.bind Token.Alike.refl fun _ _ _ => .pure rfl

theorem ifMatch {type : TokenType} {x x' y y' : Prog Parser α} (hx : Lockstep R x x')
    (hy : Lockstep R y y') :
    Lockstep R (Parser.match' type >>= fun b => if b = true then x else y)
      (Parser.match' type >>= fun b => if b = true then x' else y') := by
  refine (match' type).andThen fun b => ?_
  cases b with
  | false => exact hy
  | true => exact hx

theorem fuel {f g : Nat → Prog Parser α} (h : ∀ m n, Lockstep R (f m) (g n)) :
    Lockstep R (fuel >>= f) (Parser.fuel >>= g) :=
  ⟨fun s => (h _ 0).ahead s, fun k s t hst hk => (h _ _).meets k s t hst hk⟩

theorem whileM {cond : Prog Parser Bool} {step step' : α → Prog Parser α}
    (hcond : Lockstep Eq cond cond) (hstep : ∀ a, Lockstep Eq (step a) (step' a)) (m n : Nat) (a : α) :
    Lockstep Eq (Prog.whileM cond step m a) (Prog.whileM cond step' n a) := by
  induction m generalizing n a with
  | zero => exact ⟨fun s => .refl s, fun _ _ _ _ _ => .outOfFuel⟩
  | succ m ih =>
    have hround : ∀ n, Lockstep Eq (Prog.whileM cond step (m + 1) a)
        (Prog.whileM cond step' (n + 1) a) := by
      intro n
      refine hcond.andThen fun b => ?_
      cases b with
      | false => exact .pure rfl
      | true => exact (hstep a).andThen fun c => ih n c
    cases n with
    | zero => exact ⟨(hround 0).ahead, fun _ _ _ _ _ => .outOfFuel'⟩
    | succ n => exact hround n

theorem outOfFuel {p : Prog Parser α} (h : ∀ s, Ahead s (left (p s))) :
    Lockstep R p (throw .divergence) := ⟨h, fun _ _ _ _ _ => .outOfFuel'⟩

theorem expect_ahead (type : TokenType) (what : String) (s : Parser) :
    Ahead s (left (expect type what s)) := by
  rcases peek_cases s with ⟨a, hpeek⟩ | ⟨e, hpeek⟩
  · have hcheck : Parser.check type s = .ok (decide (a.type = type)) s := Prog.bind_ok hpeek
    unfold Parser.expect
    rw [Prog.bind_ok hcheck]
    cases decide (a.type = type) with
    | true => exact advance_ahead s
    | false =>
      simp only [Bool.not_false, if_true]
      rw [Prog.bind_ok hpeek]
      have herror : ∀ what, (Parser.error what : Prog Parser PUnit) s =
          .error (.parseErrorAt what a.line a.column) s := fun what => Prog.bind_ok hpeek
      rw [Prog.bind_error (herror _)]
      exact .refl s
  · have hcheck : Parser.check type s = .error e s := Prog.bind_error hpeek
    unfold Parser.expect
    rw [Prog.bind_error hcheck]
    exact .refl s

/-- An expected identifier's text too is the same. -/
theorem expect (type : TokenType) (what : String) :
    Lockstep (fun a b => a.Alike b ∧ (type = .identifier → a.text = b.text))
      (expect type what) (Parser.expect type what) := by
  refine ⟨expect_ahead type what, fun k s t hst hk => ?_⟩
  obtain ⟨a, us, b, vs, hs, ht, hab⟩ := hst.heads hk
  by_cases htype : a.type = type
  · rw [expect_rest_eq hs htype, expect_rest_eq ht (hab.type ▸ htype)]
    exact advance_meets hst hk hs ht ⟨hab, fun h => hab.name (htype.trans h)⟩
  · obtain ⟨what₁, h₁⟩ := expect_rest_ne hs htype what
    obtain ⟨what₂, h₂⟩ := expect_rest_ne ht (hab.type ▸ htype) what
    rw [h₁, h₂]
    exact .error hst ⟨a, us, what₁, hs, rfl⟩ ⟨b, vs, what₂, ht, rfl⟩

/-- What an expected token is does not matter. -/
theorem expectThen (type : TokenType) (what : String) {x y : Prog Parser α} (h : Lockstep R x y) :
    Lockstep R (Parser.expect type what >>= fun _ => x) (Parser.expect type what >>= fun _ => y) :=
  (expect type what).bind (fun a => ⟨.refl a, fun _ => rfl⟩) fun _ _ _ => h

end Lockstep

/-! ## The methods

Each lemma follows its method's text. -/

theorem parseIdent_lockstep : Lockstep Eq parseIdent parseIdent :=
  (Lockstep.expect _ _).bind (fun a => ⟨.refl a, fun _ => rfl⟩) fun _ _ h => .pure (h.2 rfl)

theorem collect_lockstep {type : TokenType} {item : Prog Parser α} (h : Lockstep Eq item item)
    (as : List α) : Lockstep Eq (collect type item as) (collect type item as) :=
  .fuel fun m n => .whileM (.match' type) (fun _ => h.andThen fun _ => .pure rfl) m n as

theorem parseTypeName_lockstep : Lockstep Eq parseTypeName parseTypeName :=
  .ifMatch (.pure rfl) (.ifMatch (.pure rfl) (.error _ _))

theorem parseColumnDef_lockstep : Lockstep Eq parseColumnDef parseColumnDef := by
  refine parseIdent_lockstep.andThen fun name => ?_
  refine parseTypeName_lockstep.andThen fun type => ?_
  exact .ifMatch (.expectThen _ _ (.pure rfl)) (.pure rfl)

theorem parseCreateTable_lockstep : Lockstep Eq parseCreateTable parseCreateTable := by
  refine .expectThen _ _ (.expectThen _ _ ?_)
  refine parseIdent_lockstep.andThen fun tableName => .expectThen _ _ ?_
  refine parseColumnDef_lockstep.andThen fun first => ?_
  refine (collect_lockstep parseColumnDef_lockstep _).andThen fun columns => ?_
  exact .expectThen _ _ (.pure rfl)

theorem parseLiteral_lockstep : Lockstep Eq parseLiteral parseLiteral := by
  refine (Lockstep.check _).andThen fun b => ?_
  cases b with
  | true =>
    refine Lockstep.advance.bind Token.Alike.refl fun a b hab => .pure ?_
    rw [hab.intValue]
  | false =>
    refine (Lockstep.check _).andThen fun b => ?_
    cases b with
    | true =>
      refine Lockstep.advance.bind Token.Alike.refl fun a b hab => .pure ?_
      rw [hab.stringValue]
    | false => exact .error _ _

theorem parseColumnNames_lockstep : Lockstep Eq parseColumnNames parseColumnNames := by
  refine .ifMatch ?_ (.pure rfl)
  refine parseIdent_lockstep.andThen fun first => ?_
  refine (collect_lockstep parseIdent_lockstep _).andThen fun columns => ?_
  exact .expectThen _ _ (.pure rfl)

theorem parseInsert_lockstep : Lockstep Eq parseInsert parseInsert := by
  refine .expectThen _ _ (.expectThen _ _ ?_)
  refine parseIdent_lockstep.andThen fun tableName => ?_
  refine parseColumnNames_lockstep.andThen fun columns => .expectThen _ _ (.expectThen _ _ ?_)
  refine parseLiteral_lockstep.andThen fun first => ?_
  refine (collect_lockstep parseLiteral_lockstep _).andThen fun values => ?_
  exact .expectThen _ _ (.pure rfl)

theorem parseColumnRef_lockstep : Lockstep Eq parseColumnRef parseColumnRef := by
  refine parseIdent_lockstep.andThen fun first => ?_
  exact .ifMatch (parseIdent_lockstep.andThen fun _ => .pure rfl) (.pure rfl)

theorem parseValue_lockstep : Lockstep Eq parseValue parseValue := by
  refine (Lockstep.check _).andThen fun b => ?_
  cases b with
  | true => exact parseColumnRef_lockstep.andThen fun _ => .pure rfl
  | false =>
    refine (Lockstep.check _).andThen fun b => (Lockstep.check _).andThen fun b' => ?_
    cases b || b' with
    | true => exact parseLiteral_lockstep.andThen fun _ => .pure rfl
    | false => exact .error _ _

theorem parseComparisonOp_lockstep : Lockstep Eq parseComparisonOp parseComparisonOp := by
  refine Lockstep.peek.bind Token.Alike.refl fun a b hab => ?_
  rw [hab.type]
  cases comparisonOp b.type with
  | some op => exact Lockstep.advance.bind Token.Alike.refl fun _ _ _ => .pure rfl
  | none => exact .error _ _

theorem parseComparison_lockstep : Lockstep Eq parseComparison parseComparison := by
  refine parseValue_lockstep.andThen fun left => ?_
  refine parseComparisonOp_lockstep.andThen fun op => ?_
  exact parseValue_lockstep.andThen fun right => .pure rfl

section

variable {inner inner' : Prog Parser Expr} (h : Lockstep Eq inner inner')
include h

theorem parsePrimaryExpr_lockstep :
    Lockstep Eq (parsePrimaryExpr inner) (parsePrimaryExpr inner') :=
  .ifMatch (h.andThen fun _ => .expectThen _ _ (.pure rfl)) parseComparison_lockstep

theorem parseAndExpr_lockstep : Lockstep Eq (parseAndExpr inner) (parseAndExpr inner') := by
  refine (parsePrimaryExpr_lockstep h).andThen fun left => .fuel fun m n => ?_
  exact .whileM (.match' .and) (fun _ => (parsePrimaryExpr_lockstep h).andThen fun _ => .pure rfl)
    m n left

end

/-- However many open parentheses the two allow. -/
theorem parseExprWithin_lockstep (m n : Nat) :
    Lockstep Eq (parseExprWithin m) (parseExprWithin n) := by
  induction m generalizing n with
  | zero => exact ⟨fun s => .refl s, fun _ _ _ _ _ => .outOfFuel⟩
  | succ m ih =>
    have hlevel : ∀ n, Lockstep Eq (parseExprWithin (m + 1)) (parseExprWithin (n + 1)) := by
      intro n
      refine (parseAndExpr_lockstep (ih n)).andThen fun left => .fuel fun k l => ?_
      exact .whileM (.match' .or) (fun _ => (parseAndExpr_lockstep (ih n)).andThen fun _ => .pure rfl)
        k l left
    cases n with
    | zero => exact .outOfFuel (hlevel 0).ahead
    | succ n => exact hlevel n

theorem parseExpr_lockstep : Lockstep Eq parseExpr parseExpr :=
  .fuel fun m n => parseExprWithin_lockstep m n

theorem parseAlias_lockstep : Lockstep Eq parseAlias parseAlias :=
  .ifMatch (parseIdent_lockstep.andThen fun _ => .pure rfl) (.pure rfl)

theorem parseSelectItem_lockstep : Lockstep Eq parseSelectItem parseSelectItem :=
  parseColumnRef_lockstep.andThen fun _ => parseAlias_lockstep.andThen fun _ => .pure rfl

theorem parseTableRef_lockstep : Lockstep Eq parseTableRef parseTableRef :=
  parseIdent_lockstep.andThen fun _ => parseAlias_lockstep.andThen fun _ => .pure rfl

theorem parseJoinClause_lockstep : Lockstep Eq parseJoinClause parseJoinClause := by
  refine .expectThen _ _ (parseTableRef_lockstep.andThen fun table => .expectThen _ _ ?_)
  exact parseExpr_lockstep.andThen fun _ => .pure rfl

theorem parseJoins_lockstep : Lockstep Eq parseJoins parseJoins :=
  .fuel fun m n => .whileM (.check .join)
    (fun _ => parseJoinClause_lockstep.andThen fun _ => .pure rfl) m n []

theorem parseSelectList_lockstep : Lockstep Eq parseSelectList parseSelectList := by
  refine .ifMatch (.pure rfl) (parseSelectItem_lockstep.andThen fun first => ?_)
  exact (collect_lockstep parseSelectItem_lockstep _).andThen fun _ => .pure rfl

theorem parseWhere_lockstep : Lockstep Eq parseWhere parseWhere :=
  .ifMatch (parseExpr_lockstep.andThen fun _ => .pure rfl) (.pure rfl)

theorem parseSelect_lockstep : Lockstep Eq parseSelect parseSelect := by
  refine .expectThen _ _ (parseSelectList_lockstep.andThen fun list => .expectThen _ _ ?_)
  refine parseTableRef_lockstep.andThen fun table => parseJoins_lockstep.andThen fun joins => ?_
  exact parseWhere_lockstep.andThen fun _ => .pure rfl

theorem parseBody_lockstep : Lockstep Eq parseBody parseBody := by
  refine Lockstep.peek.bind Token.Alike.refl fun a b hab => ?_
  rw [hab.type]
  cases b.type with
  | create => exact parseCreateTable_lockstep
  | insert => exact parseInsert_lockstep
  | select => exact parseSelect_lockstep
  | _ => exact .error _ _

/-- **`ParseStatement` looks at no token past the one it is at.** -/
theorem parseStatement_lockstep : Lockstep Eq parseStatement parseStatement := by
  refine parseBody_lockstep.andThen fun stmt => (Lockstep.match' _).andThen fun _ => ?_
  exact .expectThen _ _ (.pure rfl)

/-- On a list that ends in its only end there is always fuel. -/
theorem parseStatement_ne_divergence {tokens : List Token} (h : Ended tokens) (p : Parser) :
    parseStatement (new tokens) ≠ .error .divergence p := by
  have hrest := rest_new tokens
  intro hrun
  rcases rule_of_parseStatement (s := new tokens) (by rwa [hrest]) with
    ⟨stmt, s, hok, -⟩ | ⟨e, s, herror, what, line, column, he⟩
  · rw [hrun] at hok
    cases hok
  · rw [hrun] at herror
    cases herror
    cases he

end Parser

end Reldb
