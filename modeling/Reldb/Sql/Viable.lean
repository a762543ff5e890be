import Reldb.Sql.Lockstep

/-!
# Reldb — parse errors point at the first impossible token

When the parser throws at a token, some list it accepts begins with the tokens before it, and none
begins with these and the token itself. The first half is `Completes`, one rule for each way a method
is put together: what a method has read when it throws begins a word of its rule. The second half is
that a run over a list with the same beginning would throw there too.
-/

namespace Reldb

open Language

theorem endless_singleton {t : Token} {type : TokenType} (ht : t.type = type)
    (htype : type ≠ .endOfInput) : Endless [t] :=
  List.forall_mem_singleton.mpr (ht ▸ htype)

/-- A token of a type. -/
def Token.some (type : TokenType) : Token := ⟨type, [], 0, [], 0, 0⟩

namespace Parser

variable {α β : Type}

/-- `L` has a word; and what `p`, with at most `n` tokens left, has read when it throws begins one. -/
structure Completes (n : Nat) (p : Prog Parser α) (L : Rule Token α) : Prop where
  word : ∃ ts a, Endless ts ∧ L ts a
  fails : ∀ s, Ended s.rest → s.rest.length ≤ n → ∀ e s', p s = .error e s' →
    ∃ us vs a, s.rest = us ++ s'.rest ∧ Endless vs ∧ L (us ++ vs) a

namespace Completes

variable {n m : Nat} {p : Prog Parser α} {f : α → Prog Parser β} {L : Rule Token α}
  {M : Rule Token β}

theorem mono (h : Completes n p L) (hm : m ≤ n) : Completes m p L :=
  ⟨h.word, fun s hs hlen => h.fails s hs (hlen.trans hm)⟩

theorem imp {L' : Rule Token α} (h : Completes n p L) (hL : ∀ ts a, L ts a → L' ts a) :
    Completes n p L' := by
  obtain ⟨ts, a, hts, ha⟩ := h.word
  refine ⟨⟨ts, a, hts, hL ts a ha⟩, fun s hs hlen e s' hrun => ?_⟩
  obtain ⟨us, vs, b, hus, hvs, hb⟩ := h.fails s hs hlen e s' hrun
  exact ⟨us, vs, b, hus, hvs, hL _ _ hb⟩

theorem zero (h : ∃ ts a, Endless ts ∧ L ts a) : Completes 0 p L := by
  refine ⟨h, fun s hs hlen => ?_⟩
  obtain ⟨t, ts, hrest⟩ := hs.exists_cons
  rw [hrest] at hlen
  cases hlen

theorem pure {a : α} (h : L [] a) : Completes n (Pure.pure a) L :=
  ⟨⟨[], a, fun _ ht => absurd ht List.not_mem_nil, h⟩, fun _ _ _ _ _ hrun => by cases hrun⟩

/-- Where nothing was read, any word will do. -/
theorem of_stays (hword : ∃ ts a, Endless ts ∧ L ts a)
    (h : ∀ s, Ended s.rest → ∀ e s', p s = .error e s' → s' = s) : Completes n p L := by
  refine ⟨hword, fun s hs _ e s' hrun => ?_⟩
  obtain ⟨ts, a, hts, ha⟩ := hword
  rw [h s hs e s' hrun]
  exact ⟨[], ts, a, rfl, hts, ha⟩

theorem error (what : Bytes) (hword : ∃ ts a, Endless ts ∧ L ts a) :
    Completes n (error what) L := by
  refine of_stays hword fun s hs e s' hrun => ?_
  obtain ⟨t, ts, hrest⟩ := hs.exists_cons
  rw [error_rest hrest] at hrun
  cases hrun
  rfl

/-- What the first part had read when it threw is completed by a word of its own rule and one of what
comes after. -/
theorem bind (hreads : Reads n p L) (h : Completes n p L)
    (hf : ∀ ts a, L ts a → Completes (n - ts.length) (f a) fun us b => M (ts ++ us) b) :
    Completes n (p >>= f) M := by
  constructor
  · obtain ⟨ts, a, hts, ha⟩ := h.word
    obtain ⟨us, b, hus, hb⟩ := (hf ts a ha).word
    exact ⟨ts ++ us, b, endless_append.mpr ⟨hts, hus⟩, hb⟩
  · intro s hs hlen e s' hrun
    have hp := hreads s hs hlen
    cases hfirst : p s with
    | error e₁ s₁ =>
      rw [Prog.bind_error hfirst] at hrun
      cases hrun
      obtain ⟨us, vs, a, hus, hvs, ha⟩ := h.fails s hs hlen e s' hfirst
      obtain ⟨ws, b, hws, hb⟩ := (hf _ a ha).word
      refine ⟨us, vs ++ ws, b, hus, endless_append.mpr ⟨hvs, hws⟩, ?_⟩
      rwa [← List.append_assoc]
    | ok a s₁ =>
      rw [hfirst] at hp
      obtain ⟨hs₁, ts, hts, ha⟩ := hp
      rw [Prog.bind_ok hfirst] at hrun
      have hlen₁ : s₁.rest.length ≤ n - ts.length := by
        rw [hts, List.length_append] at hlen
        omega
      obtain ⟨us, vs, b, hus, hvs, hb⟩ := (hf ts a ha).fails s₁ hs₁ hlen₁ e s' hrun
      refine ⟨ts ++ us, vs, b, ?_, hvs, ?_⟩
      · rw [hts, hus, List.append_assoc]
      · rwa [List.append_assoc]

theorem check (type : TokenType) : Completes n (check type) fun ts _ => ts = [] := by
  refine of_stays ⟨[], false, fun _ ht => absurd ht List.not_mem_nil, rfl⟩ fun s hs e s' hrun => ?_
  obtain ⟨t, ts, hrest⟩ := hs.exists_cons
  rw [check_rest hrest] at hrun
  cases hrun

theorem match' {type : TokenType} : Completes n (match' type) (Reads.Matched type) := by
  refine of_stays ⟨[], false, fun _ ht => absurd ht List.not_mem_nil, rfl⟩ fun s hs e s' hrun => ?_
  obtain ⟨t, ts, hrest⟩ := hs.exists_cons
  by_cases ht : t.type = type
  · rw [match'_rest_eq hrest ht (advance_next hrest)] at hrun
    cases hrun
  · rw [match'_rest_ne hrest ht] at hrun
    cases hrun

theorem expect {type : TokenType} (htype : type ≠ .endOfInput) (what : String) :
    Completes n (expect type what) fun ts t => ts = [t] ∧ t.type = type := by
  refine of_stays ⟨[.some type], .some type, endless_singleton rfl htype, rfl, rfl⟩
    fun s hs e s' hrun => ?_
  obtain ⟨t, ts, hrest⟩ := hs.exists_cons
  by_cases ht : t.type = type
  · rw [expect_rest_eq hrest ht, advance_next hrest] at hrun
    cases hrun
  · obtain ⟨msg, hmsg⟩ := expect_rest_ne hrest ht what
    rw [hmsg] at hrun
    cases hrun
    rfl

theorem ifMatch {type : TokenType} {x y : Prog Parser α} (htype : type ≠ .endOfInput)
    (hx : ∀ t, t.type = type → Completes (n - 1) x fun us a => L (t :: us) a)
    (hy : Completes n y L) :
    Completes n (Parser.match' type >>= fun b => if b = true then x else y) L := by
  refine match'.bind (Reads.match' htype) fun ts b hb => ?_
  cases b with
  | true =>
    obtain ⟨t, rfl, ht⟩ := hb
    exact hx t ht
  | false =>
    obtain rfl : ts = [] := hb
    exact hy

theorem withFuel {f : Nat → Prog Parser α} (h : ∀ m ≤ n, ∀ k, m < k → Completes m (f k) L) :
    Completes n (fuel >>= f) L := by
  refine ⟨(h n le_rfl _ (Nat.lt_succ_self n)).word, fun s hs hlen e s' hrun => ?_⟩
  have hfuel : fuel s = .ok (s.tokens.length + 1) s := rfl
  rw [Prog.bind_ok hfuel] at hrun
  exact (h _ hlen _ (Nat.lt_succ_of_le s.rest_length_le)).fails s hs le_rfl e s' hrun

/-- Between rounds nothing more need be read. -/
theorem whileM {cond : Prog Parser Bool} {step : β → Prog Parser β} {C : Rule Token Bool}
    {g : β → α → β} (hcondReads : ∀ m, Reads m cond C) (hcond : ∀ m, Completes m cond C)
    (hstop : ∀ ts, C ts false → ts = [])
    (hstepReads : ∀ m ≤ n, ∀ ts b, C ts true →
      Reads m (step b) fun us b' => ∃ a, L (ts ++ us) a ∧ b' = g b a)
    (hstep : ∀ m ≤ n, ∀ ts b, C ts true →
      Completes m (step b) fun us b' => ∃ a, L (ts ++ us) a ∧ b' = g b a)
    (hL : ∀ ts a, L ts a → ts ≠ []) {k : Nat} (hk : n < k) (b : β) :
    Completes n (Prog.whileM cond step k b) fun ts b' => ∃ as, Many L ts as ∧ b' = as.foldl g b := by
  induction k generalizing n b with
  | zero => exact absurd hk (Nat.not_lt_zero n)
  | succ k ih =>
    unfold Prog.whileM
    refine (hcond n).bind (hcondReads n) fun ts c hc => ?_
    cases c with
    | false =>
      obtain rfl := hstop ts hc
      exact .pure ⟨[], .nil, rfl⟩
    | true =>
      refine (hstep _ (Nat.sub_le _ _) ts b hc).bind (hstepReads _ (Nat.sub_le _ _) ts b hc)
        fun us b' hb' => ?_
      obtain ⟨a, ha, rfl⟩ := hb'
      have hround := List.length_pos_iff.mpr (hL _ _ ha)
      rw [List.length_append] at hround
      rcases Nat.eq_zero_or_pos n with rfl | hpos
      · rw [Nat.zero_sub, Nat.zero_sub]
        refine .zero ⟨[], g b a, fun _ ht => absurd ht List.not_mem_nil, [a], ?_, rfl⟩
        rw [← List.append_assoc]
        exact .cons ha .nil
      · have hless : n - ts.length - us.length ≤ n := by omega
        refine (ih (fun m hm => hstepReads m (hm.trans hless))
          (fun m hm => hstep m (hm.trans hless)) (by omega) (g b a)).imp ?_
        rintro vs b'' ⟨as, has, rfl⟩
        refine ⟨a :: as, ?_, rfl⟩
        rw [← List.append_assoc]
        exact .cons ha has

/-- `while (Match(type)) …`. -/
theorem whileMatch {type : TokenType} {item : Prog Parser α} {g : β → α → β}
    (htype : type ≠ .endOfInput) (hreads : ∀ m ≤ n, Reads m item L)
    (hitem : ∀ m ≤ n, Completes m item L) (b : β) :
    Completes n (fuel >>= fun k => Prog.whileM (Parser.match' type)
      (fun b => item >>= fun a => Pure.pure (g b a)) k b) fun ts b' =>
        ∃ as, Many (After type L) ts as ∧ b' = as.foldl g b := by
  refine withFuel fun m hm k hk => whileM (fun _ => Reads.match' htype) (fun _ => match')
    (fun _ h => h) ?_ ?_ (fun _ _ h => ?_) hk b
  · rintro m' hm' ts b ⟨t, rfl, ht⟩
    refine (hreads m' (hm'.trans hm)).bind fun us a ha => .pure ⟨a, ?_, rfl⟩
    rw [List.append_nil]
    exact .mk ht ha
  · rintro m' hm' ts b ⟨t, rfl, ht⟩
    refine (hitem m' (hm'.trans hm)).bind (hreads m' (hm'.trans hm)) fun us a ha => .pure ⟨a, ?_, rfl⟩
    rw [List.append_nil]
    exact .mk ht ha
  · cases h
    exact List.cons_ne_nil _ _

theorem collect {item : Prog Parser α} (hreads : ∀ m, Reads m item L)
    (hitem : ∀ m, Completes m item L) {ts : List Token} {a : α} (ha : L ts a) :
    Completes n (collect .comma item [a]) fun us as => CommaList L (ts ++ us) as := by
  refine (whileMatch (g := fun as a => as ++ [a]) (by decide) (fun m _ => hreads m)
    (fun m _ => hitem m) [a]).imp ?_
  rintro us _ ⟨as, has, rfl⟩
  rw [foldl_snoc]
  exact .mk ha has

/-- An expected token, and what comes after it. -/
theorem expectThen {type : TokenType} {x : Prog Parser α} (htype : type ≠ .endOfInput)
    (what : String) (hx : ∀ t, t.type = type → Completes (n - 1) x fun us a => L (t :: us) a) :
    Completes n (Parser.expect type what >>= fun _ => x) L := by
  refine (expect htype what).bind (Reads.expect htype what) fun ts t ht => ?_
  obtain ⟨rfl, ht⟩ := ht
  exact hx t ht

end Completes

/-! ## The methods

Each lemma follows its method's text. -/

section

variable {n : Nat}

theorem completes_parseIdent : Completes n parseIdent IdentRule :=
  (Completes.expect (by decide) _).bind (Reads.expect (by decide) _)
    fun _ _ ⟨hts, ht⟩ => .pure (hts ▸ .mk ht)

theorem completes_parseTypeName :
    Completes n parseTypeName fun ts type => ∃ t, ts = [t] ∧ TypeRule t.type type := by
  refine .ifMatch (by decide) (fun t ht => .pure ⟨t, rfl, ht ▸ .integer⟩) ?_
  refine .ifMatch (by decide) (fun t ht => .pure ⟨t, rfl, ht ▸ .text⟩) (.error _ ?_)
  exact ⟨[.some .textType], .text, endless_singleton rfl (by decide), _, rfl, .text⟩

theorem completes_parseColumnDef : Completes n parseColumnDef ColumnDefRule := by
  refine completes_parseIdent.bind reads_parseIdent fun _ _ hname => ?_
  obtain ⟨hname⟩ := hname
  refine completes_parseTypeName.bind reads_parseTypeName fun _ type htype => ?_
  obtain ⟨t, rfl, htype⟩ := htype
  refine .ifMatch (by decide) (fun p hp => ?_) (.pure (.plain hname htype))
  exact .expectThen (by decide) _ fun k hk => .pure (.primaryKey hname htype hp hk)

theorem completes_parseCreateTable : Completes n parseCreateTable BodyRule := by
  refine .expectThen (by decide) _ fun c hc => .expectThen (by decide) _ fun t ht => ?_
  refine completes_parseIdent.bind reads_parseIdent fun _ _ hname => ?_
  obtain ⟨hname⟩ := hname
  refine .expectThen (by decide) _ fun l hl => ?_
  refine completes_parseColumnDef.bind reads_parseColumnDef fun ts first hfirst => ?_
  refine (Completes.collect (fun _ => reads_parseColumnDef) (fun _ => completes_parseColumnDef)
    hfirst).bind (Reads.collect (fun _ => reads_parseColumnDef) hfirst) fun us columns hlist => ?_
  refine .expectThen (by decide) _ fun r hr => .pure (.create ?_)
  simpa using CreateRule.mk hc ht hname hl hlist hr

theorem completes_parseLiteral : Completes n parseLiteral LiteralRule := by
  refine .of_stays ⟨[.some .stringLiteral], _, endless_singleton rfl (by decide), .text rfl⟩
    fun s hs e s' hrun => ?_
  obtain ⟨t, ts, hrest⟩ := hs.exists_cons
  unfold parseLiteral at hrun
  rw [Prog.bind_ok (check_rest hrest)] at hrun
  cases hint : decide (t.type = .integerLiteral) with
  | true =>
    rw [hint, if_pos rfl, Prog.bind_ok (advance_next hrest)] at hrun
    cases hrun
  | false =>
    rw [hint, if_neg Bool.false_ne_true, Prog.bind_ok (check_rest hrest)] at hrun
    cases htext : decide (t.type = .stringLiteral) with
    | true =>
      rw [htext, if_pos rfl, Prog.bind_ok (advance_next hrest)] at hrun
      cases hrun
    | false =>
      rw [htext, if_neg Bool.false_ne_true, error_rest hrest] at hrun
      cases hrun
      rfl

theorem completes_parseColumnNames : Completes n parseColumnNames ColumnNamesRule := by
  refine .ifMatch (by decide) (fun l hl => ?_) (.pure .absent)
  refine completes_parseIdent.bind reads_parseIdent fun ts first hfirst => ?_
  refine (Completes.collect (fun _ => reads_parseIdent) (fun _ => completes_parseIdent)
    hfirst).bind (Reads.collect (fun _ => reads_parseIdent) hfirst) fun us columns hlist => ?_
  refine .expectThen (by decide) _ fun r hr => .pure ?_
  simpa using ColumnNamesRule.present hl hlist hr

theorem completes_parseInsert : Completes n parseInsert BodyRule := by
  refine .expectThen (by decide) _ fun i hi => .expectThen (by decide) _ fun o ho => ?_
  refine completes_parseIdent.bind reads_parseIdent fun _ _ hname => ?_
  obtain ⟨hname⟩ := hname
  refine completes_parseColumnNames.bind reads_parseColumnNames fun _ columns hnames => ?_
  refine .expectThen (by decide) _ fun v hv => .expectThen (by decide) _ fun l hl => ?_
  refine completes_parseLiteral.bind reads_parseLiteral fun ts first hfirst => ?_
  refine (Completes.collect (fun _ => reads_parseLiteral) (fun _ => completes_parseLiteral)
    hfirst).bind (Reads.collect (fun _ => reads_parseLiteral) hfirst) fun us values hlist => ?_
  refine .expectThen (by decide) _ fun r hr => .pure (.insert ?_)
  simpa using InsertRule.mk hi ho hname hnames hv hl hlist hr

theorem completes_parseColumnRef : Completes n parseColumnRef ColumnRefRule := by
  refine completes_parseIdent.bind reads_parseIdent fun _ _ hfirst => ?_
  obtain ⟨hfirst⟩ := hfirst
  refine .ifMatch (by decide) (fun d hd => ?_) (.pure (.plain hfirst))
  refine completes_parseIdent.bind reads_parseIdent fun _ _ hname => ?_
  obtain ⟨hname⟩ := hname
  exact .pure (.qualified hfirst hd hname)

/-- A literal is a value. -/
theorem exists_value : ∃ ts e, Endless ts ∧ ValueRule ts e :=
  ⟨[.some .stringLiteral], _, endless_singleton rfl (by decide), .literal (.text rfl)⟩

theorem completes_parseValue : Completes n parseValue ValueRule := by
  refine (Completes.check _).bind (Reads.check _) fun _ b hts => ?_
  subst hts
  cases b with
  | true =>
    refine completes_parseColumnRef.bind reads_parseColumnRef fun ts ref href => .pure (.columnRef ?_)
    rwa [List.nil_append, List.append_nil]
  | false =>
    refine (Completes.check _).bind (Reads.check _) fun _ b hts => ?_
    subst hts
    refine (Completes.check _).bind (Reads.check _) fun _ b' hts => ?_
    subst hts
    cases hb : b || b' with
    | true =>
      refine completes_parseLiteral.bind reads_parseLiteral fun ts value hvalue =>
        .pure (ValueRule.literal ?_)
      rwa [List.append_nil]
    | false => exact .error _ exists_value

theorem completes_parseComparisonOp :
    Completes n parseComparisonOp fun ts op => ∃ t, ts = [t] ∧ CmpRule t.type op := by
  refine .of_stays ⟨[.some .eq], .eq, endless_singleton rfl (by decide), _, rfl, .eq⟩
    fun s hs e s' hrun => ?_
  obtain ⟨t, ts, hrest⟩ := hs.exists_cons
  unfold parseComparisonOp at hrun
  rw [Prog.bind_ok (peek_rest hrest)] at hrun
  cases hop : comparisonOp t.type with
  | none =>
    simp only [hop, error_rest hrest] at hrun
    cases hrun
    rfl
  | some op =>
    simp only [hop, Prog.bind_ok (advance_next hrest)] at hrun
    cases hrun

theorem completes_parseComparison : Completes n parseComparison (ExprRule .primary) := by
  refine completes_parseValue.bind reads_parseValue fun ts left hleft => ?_
  refine completes_parseComparisonOp.bind reads_parseComparisonOp fun _ op hop => ?_
  obtain ⟨t, rfl, hop⟩ := hop
  refine completes_parseValue.bind reads_parseValue fun us right hright => .pure ?_
  simpa using ExprRule.comparison hleft hop hright

section

variable {inner : Prog Parser Expr}

theorem completes_parsePrimaryExpr (hreads : Reads (n - 1) inner (ExprRule .or))
    (hinner : Completes (n - 1) inner (ExprRule .or)) :
    Completes n (parsePrimaryExpr inner) (ExprRule .primary) := by
  refine .ifMatch (by decide) (fun l hl => ?_) completes_parseComparison
  refine hinner.bind hreads fun ts e he => .expectThen (by decide) _ fun r hr => .pure ?_
  simpa using ExprRule.paren hl he hr

theorem completes_parseAndExpr (hreads : Reads (n - 1) inner (ExprRule .or))
    (hinner : Completes (n - 1) inner (ExprRule .or)) :
    Completes n (parseAndExpr inner) (ExprRule .and) := by
  have hprimaryReads : ∀ m ≤ n, Reads m (parsePrimaryExpr inner) (ExprRule .primary) := fun m hm =>
    reads_parsePrimaryExpr (hreads.mono (Nat.sub_le_sub_right hm 1))
  have hprimary : ∀ m ≤ n, Completes m (parsePrimaryExpr inner) (ExprRule .primary) := fun m hm =>
    completes_parsePrimaryExpr (hreads.mono (Nat.sub_le_sub_right hm 1))
      (hinner.mono (Nat.sub_le_sub_right hm 1))
  refine (hprimary n le_rfl).bind (hprimaryReads n le_rfl) fun ts left hleft => ?_
  refine (Completes.whileMatch (g := Expr.and) (by decide)
    (fun m hm => hprimaryReads m (hm.trans (Nat.sub_le _ _)))
    (fun m hm => hprimary m (hm.trans (Nat.sub_le _ _))) left).imp ?_
  rintro us _ ⟨rights, hrights, rfl⟩
  exact exprRule_and_iff.mpr ⟨ts, us, left, rights, hleft, hrights, rfl, rfl⟩

end

/-- A comparison of two values is a condition. -/
theorem exists_condition : ∃ ts e, Endless ts ∧ ExprRule .or ts e := by
  obtain ⟨ts, e, hts, he⟩ := exists_value
  have heq : Endless [Token.some .eq] := endless_singleton rfl (by decide)
  exact ⟨ts ++ .some .eq :: ts, .comparison .eq e e,
    endless_append.mpr ⟨hts, List.forall_mem_cons.mpr ⟨by decide, hts⟩⟩,
    .ofAnd (.ofPrimary (.comparison he .eq he))⟩

theorem completes_parseExprWithin {depth : Nat} (h : n ≤ depth) :
    Completes n (parseExprWithin depth) (ExprRule .or) := by
  induction depth generalizing n with
  | zero =>
    obtain rfl := Nat.le_zero.mp h
    exact .zero exists_condition
  | succ depth ih =>
    have hinner : ∀ m ≤ n, Reads (m - 1) (parseExprWithin depth) (ExprRule .or) := fun m hm =>
      reads_parseExprWithin (by omega)
    have handReads : ∀ m ≤ n, Reads m (parseAndExpr (parseExprWithin depth)) (ExprRule .and) :=
      fun m hm => reads_parseAndExpr (hinner m hm)
    have hand : ∀ m ≤ n, Completes m (parseAndExpr (parseExprWithin depth)) (ExprRule .and) :=
      fun m hm => completes_parseAndExpr (hinner m hm) (ih (by omega))
    refine (hand n le_rfl).bind (handReads n le_rfl) fun ts left hleft => ?_
    refine (Completes.whileMatch (g := Expr.or) (by decide)
      (fun m hm => handReads m (hm.trans (Nat.sub_le _ _)))
      (fun m hm => hand m (hm.trans (Nat.sub_le _ _))) left).imp ?_
    rintro us _ ⟨rights, hrights, rfl⟩
    exact exprRule_or_iff.mpr ⟨ts, us, left, rights, hleft, hrights, rfl, rfl⟩

theorem completes_parseExpr : Completes n parseExpr (ExprRule .or) :=
  .withFuel fun _ _ _ hk => completes_parseExprWithin hk.le

theorem completes_parseAlias : Completes n parseAlias (Optional .as IdentRule) := by
  refine .ifMatch (by decide) (fun a ha => ?_) (.pure .absent)
  refine completes_parseIdent.bind reads_parseIdent fun ts name hname => .pure ?_
  rw [List.append_nil]
  exact .present ha hname

theorem completes_parseSelectItem : Completes n parseSelectItem SelectItemRule := by
  refine completes_parseColumnRef.bind reads_parseColumnRef fun ts ref href => ?_
  refine completes_parseAlias.bind reads_parseAlias fun us aliasName halias => .pure ?_
  rw [List.append_nil]
  exact .mk href halias

theorem completes_parseTableRef : Completes n parseTableRef TableRefRule := by
  refine completes_parseIdent.bind reads_parseIdent fun _ _ hname => ?_
  obtain ⟨hname⟩ := hname
  refine completes_parseAlias.bind reads_parseAlias fun us aliasName halias => .pure ?_
  rw [List.append_nil]
  exact .mk hname halias

theorem completes_parseJoinClause : Completes n parseJoinClause JoinRule := by
  refine .expectThen (by decide) _ fun j hj => ?_
  refine completes_parseTableRef.bind reads_parseTableRef fun ts table htable => ?_
  refine .expectThen (by decide) _ fun o ho => ?_
  refine completes_parseExpr.bind reads_parseExpr fun us condition hcondition => .pure ?_
  simpa using JoinRule.mk hj htable ho hcondition

theorem completes_parseJoins : Completes n parseJoins (Many JoinRule) := by
  refine .withFuel fun m hm k hk => ?_
  refine (Completes.whileM (L := JoinRule) (g := fun joins join => joins ++ [join])
    (fun _ => Reads.check .join) (fun _ => .check .join) (fun _ h => h) ?_ ?_ (fun _ _ h => ?_)
    hk []).imp ?_
  · rintro m' _ _ joins rfl
    refine reads_parseJoinClause.bind fun us join hjoin => .pure ⟨join, ?_, rfl⟩
    rwa [List.append_nil]
  · rintro m' _ _ joins rfl
    refine completes_parseJoinClause.bind reads_parseJoinClause fun us join hjoin =>
      .pure ⟨join, ?_, rfl⟩
    rwa [List.append_nil]
  · cases h
    exact List.cons_ne_nil _ _
  · rintro us _ ⟨joins, hjoins, rfl⟩
    rwa [foldl_snoc]

theorem completes_parseSelectList : Completes n parseSelectList SelectListRule := by
  refine .ifMatch (by decide) (fun t ht => .pure (.star ht)) ?_
  refine completes_parseSelectItem.bind reads_parseSelectItem fun ts first hfirst => ?_
  refine (Completes.collect (fun _ => reads_parseSelectItem) (fun _ => completes_parseSelectItem)
    hfirst).bind (Reads.collect (fun _ => reads_parseSelectItem) hfirst) fun us items hitems => ?_
  refine .pure (.items ?_)
  rwa [List.append_nil]

theorem completes_parseWhere : Completes n parseWhere (Optional .where (ExprRule .or)) := by
  refine .ifMatch (by decide) (fun w hw => ?_) (.pure .absent)
  refine completes_parseExpr.bind reads_parseExpr fun ts condition hcondition => .pure ?_
  rw [List.append_nil]
  exact .present hw hcondition

theorem completes_parseSelect : Completes n parseSelect BodyRule := by
  refine .expectThen (by decide) _ fun s hs => ?_
  refine completes_parseSelectList.bind reads_parseSelectList fun ts list hlist => ?_
  refine .expectThen (by decide) _ fun f hf => ?_
  refine completes_parseTableRef.bind reads_parseTableRef fun us table htable => ?_
  refine completes_parseJoins.bind reads_parseJoins fun vs joins hjoins => ?_
  refine completes_parseWhere.bind reads_parseWhere fun ws condition hcondition =>
    .pure (.select ?_)
  simpa using SelectRule.mk hs hlist hf htable hjoins hcondition

theorem completes_parseBody : Completes n parseBody BodyRule := by
  have hpeek : Completes n peek fun ts _ => ts = [] := by
    refine .of_stays ⟨[], .some .endOfInput, fun _ ht => absurd ht List.not_mem_nil, rfl⟩
      fun s hs e s' hrun => ?_
    obtain ⟨t, ts, hrest⟩ := hs.exists_cons
    rw [peek_rest hrest] at hrun
    cases hrun
  refine hpeek.bind Reads.peek fun _ t hts => ?_
  subst hts
  split
  · exact completes_parseCreateTable
  · exact completes_parseInsert
  · exact completes_parseSelect
  · exact .error _ (completes_parseCreateTable (n := 0)).word

end

/-! ## Where it throws -/

/-- The parser accepts a list that begins with these tokens. -/
def Viable (ts : List Token) : Prop :=
  ∃ us stmt p, Ended (ts ++ us) ∧ parseStatement (new (ts ++ us)) = .ok stmt p

theorem viable_of_rule {ts us : List Token} {stmt : Statement} (hended : Ended (ts ++ us))
    (h : StatementRule (ts ++ us) stmt) : Viable ts := by
  obtain ⟨p, hrun⟩ := parseStatement_of_rule h (rest_new _)
  exact ⟨us, stmt, p, hended, hrun⟩

theorem Abreast.self {tokens : List Token} (h : tokens ≠ []) :
    Abreast (tokens.length - 1) (new tokens) (new tokens) := by
  refine ⟨rfl, fun i hi => ?_, Iff.rfl⟩
  have hpos := List.length_pos_iff.mpr h
  have hlt : i < tokens.length := by omega
  exact ⟨tokens[i], tokens[i], List.getElem?_eq_getElem hlt, List.getElem?_eq_getElem hlt, .refl _⟩

/-- A `ParseError` is thrown at a token that is still there. -/
theorem errorAt_of_throw {tokens : List Token} (h : Ended tokens) {e : Exn} {p : Parser}
    (hrun : parseStatement (new tokens) = .error e p) : ErrorAt e p := by
  obtain ⟨t, ts, rfl⟩ := h.exists_cons
  have hself : Abreast ts.length (new (t :: ts)) (new (t :: ts)) := .self (List.cons_ne_nil t ts)
  have hmeets := parseStatement_lockstep.meets _ _ _ hself (Nat.zero_le _)
  have htokens := (parseStatement_lockstep.ahead (new (t :: ts))).1
  rw [hrun] at hmeets htokens
  cases hmeets with
  | error _ he _ => exact he
  | passed _ hlast =>
    rw [htokens] at hlast
    exact absurd hlast (Nat.lt_irrefl _)
  | outOfFuel => exact absurd hrun (parseStatement_ne_divergence h p)
  | outOfFuel' => exact absurd hrun (parseStatement_ne_divergence h p)

/-- Only the end was missing, and nothing more was read. -/
theorem stays_of_end {s s' : Parser} (hs : Ended s.rest) {what : String} {stmt : Statement} {e : Exn}
    (hrun : (expect .endOfInput what >>= fun _ => (pure stmt : Prog Parser Statement)) s
      = .error e s') : s' = s := by
  rcases expect_end hs what with ⟨t, -, -, hok⟩ | ⟨e', herror, -⟩
  · rw [Prog.bind_ok hok] at hrun
    cases hrun
  · rw [Prog.bind_error herror] at hrun
    cases hrun
    rfl

/-- What has been read when the parser throws begins an accepted list. -/
theorem viable_of_throw {s : Parser} (hs : Ended s.rest) {e : Exn} {s' : Parser}
    (hrun : parseStatement s = .error e s') (hs' : s'.rest ≠ []) :
    ∃ us, s.rest = us ++ s'.rest ∧ Viable us := by
  -- a statement, and perhaps a semicolon, is completed by the end
  have hend : ∀ us vs stmt, s.rest = us ++ s'.rest → Endless vs →
      (∀ t : Token, t.type = .endOfInput → StatementRule (us ++ vs ++ [t]) stmt) → Viable us := by
    intro us vs stmt hus hvs hrule
    have hus : Endless us := Ended.endless (hus ▸ hs) hs'
    have hended := (endless_append.mpr ⟨hus, hvs⟩).ended (show (Token.some .endOfInput).type = _ from rfl)
    have hrule := hrule (.some .endOfInput) rfl
    rw [List.append_assoc] at hended hrule
    exact viable_of_rule hended hrule
  unfold parseStatement at hrun
  have hreads := reads_parseBody s hs le_rfl
  cases hbody : parseBody s with
  | error e₁ s₁ =>
    rw [Prog.bind_error hbody] at hrun
    cases hrun
    obtain ⟨us, vs, stmt, hus, hvs, hstmt⟩ := completes_parseBody.fails s hs le_rfl e s' hbody
    exact ⟨us, hus, hend us vs stmt hus hvs fun t ht => .plain hstmt ht⟩
  | ok stmt s₁ =>
    rw [hbody] at hreads
    obtain ⟨hs₁, ts, hts, hstmt⟩ := hreads
    rw [Prog.bind_ok hbody] at hrun
    obtain ⟨t, us, hrest⟩ := hs₁.exists_cons
    have hnil : Endless [] := fun _ ht => absurd ht List.not_mem_nil
    by_cases ht : t.type = .semicolon
    · obtain ⟨s₂, hadvance, hs₂, hsplit⟩ := advance_ended hs₁ hrest (by rw [ht]; decide)
      rw [Prog.bind_ok (match'_rest_eq hrest ht hadvance)] at hrun
      obtain rfl := stays_of_end hs₂ hrun
      have heq : s.rest = ts ++ [t] ++ s'.rest := by rw [hts, hsplit, List.append_assoc]
      refine ⟨ts ++ [t], heq, hend (ts ++ [t]) [] stmt heq hnil fun u hu => ?_⟩
      rw [List.append_nil, List.append_assoc]
      exact .semicolon hstmt ht hu
    · rw [Prog.bind_ok (match'_rest_ne hrest ht)] at hrun
      obtain rfl := stays_of_end hs₁ hrun
      refine ⟨ts, hts, hend ts [] stmt hts hnil fun u hu => ?_⟩
      rw [List.append_nil]
      exact .plain hstmt hu

/-- Two lists that end in their only end and begin with the same tokens. -/
theorem Abreast.of_prefix {us ts vs : List Token} {t : Token} (h : Ended (us ++ t :: ts))
    (h' : Ended (us ++ t :: vs)) : Abreast us.length (new (us ++ t :: ts)) (new (us ++ t :: vs)) := by
  refine ⟨rfl, fun i hi => ?_, ?_⟩
  · have hlt : i < (us ++ [t]).length := by
      rw [List.length_append, List.length_singleton]
      omega
    have hsame : ∀ ws : List Token, (us ++ t :: ws)[i]? = some (us ++ [t])[i] := by
      intro ws
      rw [List.append_cons, List.getElem?_append_left hlt, List.getElem?_eq_getElem hlt]
    exact ⟨_, _, hsame ts, hsame vs, .refl _⟩
  · have hlength : ∀ ws : List Token, Ended (us ++ t :: ws) →
        (us.length + 1 = (new (us ++ t :: ws)).tokens.length ↔ t.type = .endOfInput) := by
      intro ws hws
      show us.length + 1 = (us ++ t :: ws).length ↔ _
      rw [List.length_append, List.length_cons, ← hws.nil_iff]
      constructor
      · exact fun hlen => List.length_eq_zero_iff.mp (by omega)
      · rintro rfl
        rfl
    rw [hlength ts h, hlength vs h']

/-- **Parse errors point at the first impossible token.** When `ParseStatement` throws, it throws a
`ParseError` with the place of a token such that some accepted list begins with the tokens before it, and
none begins with these and the token itself. -/
theorem parse_error_exact {tokens : List Token} (h : Ended tokens) {e : Exn} {p : Parser}
    (hrun : parseStatement (new tokens) = .error e p) : ∃ us t ts what, tokens = us ++ t :: ts ∧
      e = .parseErrorAt what t.line t.column ∧ Viable us ∧ ¬ Viable (us ++ [t]) := by
  obtain ⟨t, ts, what, hrest, he⟩ := errorAt_of_throw h hrun
  have htokens := rest_new tokens
  obtain ⟨us, hus, hviable⟩ := viable_of_throw (htokens ▸ h) hrun (by
    rw [hrest]
    exact List.cons_ne_nil t ts)
  rw [htokens, hrest] at hus
  refine ⟨us, t, ts, what, hus, he, hviable, ?_⟩
  rintro ⟨vs, stmt, p', hended, hrun'⟩
  rw [List.append_assoc, List.singleton_append] at hended hrun'
  subst hus
  have hmeets := parseStatement_lockstep.meets _ _ _ (Abreast.of_prefix h hended) (Nat.zero_le _)
  rw [hrun, hrun'] at hmeets
  cases hmeets with
  | passed hpos hlast =>
    -- the token it threw at is the one after `us`
    have hplace := congrArg List.length hrest
    have hkept := (parseStatement_lockstep.ahead (new (us ++ t :: ts))).1
    rw [hrun] at hkept
    have hkept : p.tokens.length = (us ++ t :: ts).length := congrArg List.length hkept
    have hpos : us.length < p.pos := hpos
    rw [rest, List.length_drop, hkept, List.length_append, List.length_cons] at hplace
    omega
  | outOfFuel => cases he

/-- `SELECT FROM t`, as tokens. -/
def selectNothing : List Token :=
  [⟨.select, text "SELECT", 0, [], 1, 1⟩, ⟨.from, text "FROM", 0, [], 1, 8⟩,
    ⟨.identifier, text "t", 0, [], 1, 13⟩, ⟨.endOfInput, [], 0, [], 1, 14⟩]

theorem parse_error_exact_select : ∃ us t ts, selectNothing = us ++ t :: ts ∧ Viable us ∧
    ¬ Viable (us ++ [t]) := by
  have hended : Ended selectNothing := ⟨by decide, by decide, by decide, rfl⟩
  have hthrows : Prog.Throws (fun _ _ => true) (parseStatement (new selectNothing)) = true := by
    decide
  obtain ⟨e, p, hrun, -⟩ := Prog.Throws.error hthrows
  obtain ⟨us, t, ts, what, hsplit, -, hviable, hnot⟩ := parse_error_exact hended hrun
  exact ⟨us, t, ts, hsplit, hviable, hnot⟩

end Parser

end Reldb
