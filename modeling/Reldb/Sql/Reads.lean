import Reldb.Parser
import Reldb.Sql.Grammar

/-!
# Reldb — every parse has a derivation behind it

`Reads n p L` says of a parsing method that, with at most `n` tokens left, it either reads off a
word of `L` and returns the word's meaning, or throws a `ParseError`. There is one rule for each way
the methods are put together, and one lemma for each method.
-/

namespace Reldb

open Language

/-! ## What is left of the tokens -/

/-- A token list that ends in its only `END_OF_INPUT`. -/
def Ended : List Token → Prop
  | [] => False
  | [t] => t.type = .endOfInput
  | t :: u :: ts => t.type ≠ .endOfInput ∧ Ended (u :: ts)

theorem ended_cons {t : Token} {ts : List Token} : Ended (t :: ts) ↔
    ts = [] ∧ t.type = .endOfInput ∨ t.type ≠ .endOfInput ∧ Ended ts := by
  cases ts with
  | nil => simp [Ended]
  | cons u ts => simp [Ended]

theorem Ended.exists_cons {ts : List Token} (h : Ended ts) : ∃ t us, ts = t :: us := by
  cases ts with
  | nil => exact h.elim
  | cons t us => exact ⟨t, us, rfl⟩

/-- Past a token that is not the last, the list still ends as it did. -/
theorem Ended.tail {t : Token} {ts : List Token} {type : TokenType} (h : Ended (t :: ts))
    (ht : t.type = type) (htype : type ≠ .endOfInput) : Ended ts := by
  rcases ended_cons.mp h with ⟨-, hend⟩ | ⟨-, htail⟩
  · exact absurd (ht.symm.trans hend) htype
  · exact htail

/-- No end among them. -/
def Endless (ts : List Token) : Prop := ∀ t ∈ ts, t.type ≠ .endOfInput

theorem endless_append {ts us : List Token} : Endless (ts ++ us) ↔ Endless ts ∧ Endless us :=
  List.forall_mem_append

theorem Endless.ended {ts : List Token} {t : Token} (h : Endless ts) (ht : t.type = .endOfInput) :
    Ended (ts ++ [t]) := by
  induction ts with
  | nil => exact ht
  | cons u ts ih =>
    obtain ⟨hu, hts⟩ := List.forall_mem_cons.mp h
    exact ended_cons.mpr (.inr ⟨hu, ih hts⟩)

/-- What comes before the end. -/
theorem Ended.endless {ts us : List Token} (h : Ended (ts ++ us)) (hus : us ≠ []) :
    Endless ts := by
  induction ts with
  | nil => exact fun t ht => absurd ht List.not_mem_nil
  | cons t ts ih =>
    rcases ended_cons.mp h with ⟨hnil, -⟩ | ⟨ht, htail⟩
    · exact absurd (List.append_eq_nil_iff.mp hnil).2 hus
    · exact List.forall_mem_cons.mpr ⟨ht, ih htail⟩

/-- The end is the last. -/
theorem Ended.nil_iff {us ts : List Token} {t : Token} (h : Ended (us ++ t :: ts)) :
    ts = [] ↔ t.type = .endOfInput := by
  induction us with
  | nil =>
    rcases ended_cons.mp h with ⟨hts, ht⟩ | ⟨ht, hts⟩
    · exact ⟨fun _ => ht, fun _ => hts⟩
    · refine ⟨fun hnil => ?_, fun hend => absurd hend ht⟩
      rw [hnil] at hts
      exact hts.elim
  | cons u us ih =>
    rcases ended_cons.mp h with ⟨hnil, -⟩ | ⟨-, htail⟩
    · exact absurd (List.append_eq_nil_iff.mp hnil).2 (List.cons_ne_nil t ts)
    · exact ih htail

namespace Parser

variable {α β : Type}

/-- The tokens not read yet. -/
def rest (p : Parser) : List Token := p.tokens.drop p.pos

theorem rest_new (tokens : List Token) : (new tokens).rest = tokens := List.drop_zero

theorem rest_length_le (p : Parser) : p.rest.length ≤ p.tokens.length := by
  rw [rest, List.length_drop]
  omega

section

variable {p : Parser} {t u : Token} {ts : List Token} {type : TokenType}

theorem getElem?_pos (h : p.rest = t :: ts) : p.tokens[p.pos]? = some t := by
  have := @List.getElem?_drop _ p.tokens p.pos 0
  rwa [← rest, h, List.getElem?_cons_zero, Nat.add_zero, eq_comm] at this

@[simp] theorem peek_rest (h : p.rest = t :: ts) : peek p = .ok t p := by
  unfold peek
  rw [Prog.bind_ok (rfl : (get : Prog Parser Parser) p = .ok p p), getElem?_pos h]
  rfl

/-- `Advance` moves past a token that is not the last. -/
theorem advance_rest (h : p.rest = t :: u :: ts) :
    advance p = .ok t { p with pos := p.pos + 1 } ∧
      ({ p with pos := p.pos + 1 } : Parser).rest = u :: ts := by
  have hlen := congrArg List.length h
  rw [rest, List.length_drop] at hlen
  simp only [List.length_cons] at hlen
  constructor
  · unfold advance
    rw [Prog.bind_ok (peek_rest h)]
    have hpos : p.pos < p.tokens.length - 1 := by omega
    simp [bind, EStateM.bind, hpos, pure, EStateM.pure]
  · show p.tokens.drop (p.pos + 1) = _
    rw [← List.drop_drop, ← rest, h]
    rfl

/-- Reading a token that is not the end of the input. -/
theorem advance_ended (hs : Ended p.rest) (h : p.rest = t :: ts) (ht : t.type ≠ .endOfInput) :
    ∃ p', advance p = .ok t p' ∧ Ended p'.rest ∧ p.rest = [t] ++ p'.rest := by
  rw [h] at hs
  have htail := hs.tail rfl ht
  obtain ⟨u, us, rfl⟩ := htail.exists_cons
  obtain ⟨hadvance, hrest⟩ := advance_rest h
  refine ⟨_, hadvance, ?_, ?_⟩
  · rwa [hrest]
  · rw [hrest, h]
    rfl

theorem check_rest (h : p.rest = t :: ts) : check type p = .ok (decide (t.type = type)) p :=
  Prog.bind_ok (peek_rest h)

theorem error_rest (h : p.rest = t :: ts) (what : Bytes) :
    (error what : Prog Parser α) p = .error (.parseErrorAt what t.line t.column) p :=
  Prog.bind_ok (peek_rest h)

theorem match'_rest_ne (h : p.rest = t :: ts) (ht : t.type ≠ type) :
    match' type p = .ok false p := by
  unfold match'
  rw [Prog.bind_ok (check_rest h), decide_eq_false ht]
  rfl

theorem match'_rest_eq (h : p.rest = t :: ts) (ht : t.type = type) {p' : Parser}
    (hadvance : advance p = .ok t p') : match' type p = .ok true p' := by
  unfold match'
  rw [Prog.bind_ok (check_rest h), decide_eq_true ht]
  exact Prog.bind_ok hadvance

theorem expect_rest_ne (h : p.rest = t :: ts) (ht : t.type ≠ type) (what : String) :
    ∃ msg, expect type what p = .error (.parseErrorAt msg t.line t.column) p := by
  unfold expect
  rw [Prog.bind_ok (check_rest h), decide_eq_false ht]
  simp only [Bool.not_false, if_true]
  rw [Prog.bind_ok (peek_rest h)]
  exact ⟨_, Prog.bind_error (error_rest h _)⟩

theorem expect_rest_eq (h : p.rest = t :: ts) (ht : t.type = type) (what : String) :
    expect type what p = advance p := by
  unfold expect
  rw [Prog.bind_ok (check_rest h), decide_eq_true ht]
  rfl

end

/-! ## Rules -/

def Exn.IsParseError (e : Exn) : Prop := ∃ what line column, e = .parseError what line column

/-- With at most `n` tokens left, `p` reads a word of `L` or throws a `ParseError`. -/
def Reads (n : Nat) (p : Prog Parser α) (L : Rule Token α) : Prop :=
  ∀ s, Ended s.rest → s.rest.length ≤ n → match p s with
    | .ok a s' => Ended s'.rest ∧ ∃ ts, s.rest = ts ++ s'.rest ∧ L ts a
    | .error e _ => Exn.IsParseError e

namespace Reads

variable {n m : Nat} {p : Prog Parser α} {f : α → Prog Parser β} {L : Rule Token α}
  {M : Rule Token β}

theorem mono (h : Reads n p L) (hm : m ≤ n) : Reads m p L :=
  fun s hs hlen => h s hs (hlen.trans hm)

theorem imp {L' : Rule Token α} (h : Reads n p L) (hL : ∀ ts a, L ts a → L' ts a) :
    Reads n p L' := by
  intro s hs hlen
  have := h s hs hlen
  revert this
  cases p s with
  | ok a s' => exact fun ⟨hs', ts, hts, ha⟩ => ⟨hs', ts, hts, hL _ _ ha⟩
  | error e s' => exact id

/-- There always is a token left. -/
theorem zero : Reads 0 p L := by
  intro s hs hlen
  obtain ⟨t, ts, hrest⟩ := hs.exists_cons
  rw [hrest] at hlen
  cases hlen

theorem pure {a : α} (h : L [] a) : Reads n (Pure.pure a) L :=
  fun _ hs _ => ⟨hs, [], rfl, h⟩

theorem error (what : Bytes) : Reads n (error what) L := by
  intro s hs _
  obtain ⟨t, ts, hrest⟩ := hs.exists_cons
  rw [error_rest hrest]
  exact ⟨_, _, _, rfl⟩

/-- What was read first shortens what is left, and is the front of the whole word. -/
theorem bind (h : Reads n p L)
    (hf : ∀ ts a, L ts a → Reads (n - ts.length) (f a) fun us b => M (ts ++ us) b) :
    Reads n (p >>= f) M := by
  intro s hs hlen
  have hp := h s hs hlen
  cases hrun : p s with
  | error e s' =>
    rw [hrun] at hp
    rw [Prog.bind_error hrun]
    exact hp
  | ok a s' =>
    rw [hrun] at hp
    obtain ⟨hs', ts, hts, ha⟩ := hp
    rw [Prog.bind_ok hrun]
    have hlen' : s'.rest.length ≤ n - ts.length := by
      rw [hts, List.length_append] at hlen
      omega
    have hb := hf ts a ha s' hs' hlen'
    cases hrun' : f a s' with
    | error e s'' =>
      rw [hrun'] at hb
      exact hb
    | ok b s'' =>
      rw [hrun'] at hb
      obtain ⟨hs'', us, hus, hb⟩ := hb
      exact ⟨hs'', ts ++ us, by rw [hts, hus, List.append_assoc], hb⟩

theorem check (type : TokenType) : Reads n (check type) fun ts _ => ts = [] := by
  intro s hs _
  obtain ⟨t, ts, hrest⟩ := hs.exists_cons
  rw [check_rest hrest]
  exact ⟨hs, [], rfl, rfl⟩

theorem peek : Reads n peek fun ts _ => ts = [] := by
  intro s hs _
  obtain ⟨t, ts, hrest⟩ := hs.exists_cons
  rw [peek_rest hrest]
  exact ⟨hs, [], rfl, rfl⟩

/-- What `Match` reads: the token, or nothing. -/
def Matched (type : TokenType) : Rule Token Bool := fun ts b =>
  if b then ∃ t, ts = [t] ∧ t.type = type else ts = []

theorem match' {type : TokenType} (htype : type ≠ .endOfInput) :
    Reads n (match' type) (Matched type) := by
  intro s hs _
  obtain ⟨t, ts, hrest⟩ := hs.exists_cons
  by_cases ht : t.type = type
  · obtain ⟨s', hadvance, hs', hsplit⟩ := advance_ended hs hrest (ht ▸ htype)
    rw [match'_rest_eq hrest ht hadvance]
    exact ⟨hs', [t], hsplit, t, rfl, ht⟩
  · rw [match'_rest_ne hrest ht]
    exact ⟨hs, [], rfl, rfl⟩

theorem expect {type : TokenType} (htype : type ≠ .endOfInput) (what : String) :
    Reads n (expect type what) fun ts t => ts = [t] ∧ t.type = type := by
  intro s hs _
  obtain ⟨t, ts, hrest⟩ := hs.exists_cons
  by_cases ht : t.type = type
  · obtain ⟨s', hadvance, hs', hsplit⟩ := advance_ended hs hrest (ht ▸ htype)
    rw [expect_rest_eq hrest ht, hadvance]
    exact ⟨hs', [t], hsplit, rfl, ht⟩
  · obtain ⟨msg, hmsg⟩ := expect_rest_ne hrest ht what
    rw [hmsg]
    exact ⟨_, _, _, rfl⟩

/-- `if (Match(type)) … else …`. -/
theorem ifMatch {type : TokenType} {x y : Prog Parser α} (htype : type ≠ .endOfInput)
    (hx : ∀ t, t.type = type → Reads (n - 1) x fun us a => L (t :: us) a) (hy : Reads n y L) :
    Reads n (Parser.match' type >>= fun b => if b = true then x else y) L := by
  refine (match' htype).bind fun ts b hb => ?_
  cases b with
  | true =>
    obtain ⟨t, rfl, ht⟩ := hb
    exact hx t ht
  | false =>
    obtain rfl : ts = [] := hb
    exact hy

/-- The number of tokens is more than are left. -/
theorem withFuel {f : Nat → Prog Parser α} (h : ∀ m ≤ n, ∀ k, m < k → Reads m (f k) L) :
    Reads n (fuel >>= f) L := by
  intro s hs hlen
  have hfuel : fuel s = .ok (s.tokens.length + 1) s := rfl
  rw [Prog.bind_ok hfuel]
  exact h _ hlen _ (Nat.lt_succ_of_le s.rest_length_le) s hs le_rfl

/-- A loop reads an iteration: each round, condition and step together, reads a word of `L`. -/
theorem whileM {cond : Prog Parser Bool} {step : β → Prog Parser β} {C : Rule Token Bool}
    {g : β → α → β} (hcond : ∀ m, Reads m cond C) (hstop : ∀ ts, C ts false → ts = [])
    (hstep : ∀ m ≤ n, ∀ ts b, C ts true → Reads m (step b) fun us b' => ∃ a, L (ts ++ us) a ∧ b' = g b a)
    (hL : ∀ ts a, L ts a → ts ≠ []) {k : Nat} (hk : n < k) (b : β) :
    Reads n (Prog.whileM cond step k b) fun ts b' => ∃ as, Many L ts as ∧ b' = as.foldl g b := by
  induction k generalizing n b with
  | zero => exact absurd hk (Nat.not_lt_zero n)
  | succ k ih =>
    unfold Prog.whileM
    refine (hcond n).bind fun ts c hc => ?_
    cases c with
    | false =>
      obtain rfl := hstop ts hc
      exact .pure ⟨[], .nil, rfl⟩
    | true =>
      refine (hstep _ (Nat.sub_le _ _) ts b hc).bind fun us b' hb' => ?_
      obtain ⟨a, ha, rfl⟩ := hb'
      -- The round read at least one token, so less fuel is enough for the rest.
      have hround := List.length_pos_iff.mpr (hL _ _ ha)
      rw [List.length_append] at hround
      rcases Nat.eq_zero_or_pos n with rfl | hpos
      · rw [Nat.zero_sub, Nat.zero_sub]
        exact .zero
      · have hless : n - ts.length - us.length ≤ n := by omega
        refine (ih (fun m hm => hstep m (hm.trans hless)) (by omega) (g b a)).imp ?_
        rintro vs b'' ⟨as, has, rfl⟩
        refine ⟨a :: as, ?_, rfl⟩
        rw [← List.append_assoc]
        exact .cons ha has

/-- `while (Match(type)) …`. -/
theorem whileMatch {type : TokenType} {item : Prog Parser α} {g : β → α → β}
    (htype : type ≠ .endOfInput) (hitem : ∀ m ≤ n, Reads m item L) (b : β) :
    Reads n (fuel >>= fun k => Prog.whileM (Parser.match' type)
      (fun b => item >>= fun a => Pure.pure (g b a)) k b) fun ts b' =>
        ∃ as, Many (After type L) ts as ∧ b' = as.foldl g b := by
  refine withFuel fun m hm k hk => whileM (fun _ => match' htype) (fun _ h => h) ?_
    (fun _ _ h => ?_) hk b
  · rintro m' hm' ts b ⟨t, rfl, ht⟩
    refine (hitem m' (hm'.trans hm)).bind fun us a ha => .pure ⟨a, ?_, rfl⟩
    rw [List.append_nil]
    exact .mk ht ha
  · cases h
    exact List.cons_ne_nil _ _

theorem collect {item : Prog Parser α} (hitem : ∀ m, Reads m item L) {ts : List Token} {a : α}
    (ha : L ts a) : Reads n (collect .comma item [a]) fun us as => CommaList L (ts ++ us) as := by
  refine (whileMatch (g := fun as a => as ++ [a]) (by decide) (fun m _ => hitem m) [a]).imp ?_
  rintro us _ ⟨as, has, rfl⟩
  rw [foldl_snoc]
  exact .mk ha has

end Reads

/-! ## The methods

Each lemma follows its method's text. -/

section

variable {n : Nat}

theorem reads_parseIdent : Reads n parseIdent IdentRule :=
  (Reads.expect (by decide) _).bind fun _ _ ⟨hts, ht⟩ => .pure (hts ▸ .mk ht)

theorem reads_parseTypeName :
    Reads n parseTypeName fun ts type => ∃ t, ts = [t] ∧ TypeRule t.type type := by
  refine .ifMatch (by decide) (fun t ht => .pure ⟨t, rfl, ht ▸ .integer⟩) ?_
  exact .ifMatch (by decide) (fun t ht => .pure ⟨t, rfl, ht ▸ .text⟩) (.error _)

theorem reads_parseColumnDef : Reads n parseColumnDef ColumnDefRule := by
  refine reads_parseIdent.bind fun _ _ hname => ?_
  obtain ⟨hname⟩ := hname
  refine reads_parseTypeName.bind fun _ type htype => ?_
  obtain ⟨t, rfl, htype⟩ := htype
  refine .ifMatch (by decide) (fun p hp => ?_) (.pure (.plain hname htype))
  refine (Reads.expect (by decide) _).bind fun _ k hk => ?_
  obtain ⟨rfl, hk⟩ := hk
  exact .pure (.primaryKey hname htype hp hk)

theorem reads_parseCreateTable : Reads n parseCreateTable BodyRule := by
  refine (Reads.expect (by decide) _).bind fun _ c hc => ?_
  obtain ⟨rfl, hc⟩ := hc
  refine (Reads.expect (by decide) _).bind fun _ t ht => ?_
  obtain ⟨rfl, ht⟩ := ht
  refine reads_parseIdent.bind fun _ _ hname => ?_
  obtain ⟨hname⟩ := hname
  refine (Reads.expect (by decide) _).bind fun _ l hl => ?_
  obtain ⟨rfl, hl⟩ := hl
  refine reads_parseColumnDef.bind fun ts first hfirst => ?_
  refine (Reads.collect (fun _ => reads_parseColumnDef) hfirst).bind fun us columns hlist => ?_
  refine (Reads.expect (by decide) _).bind fun _ r hr => ?_
  obtain ⟨rfl, hr⟩ := hr
  refine .pure (.create ?_)
  simpa using CreateRule.mk hc ht hname hl hlist hr

theorem reads_parseLiteral : Reads n parseLiteral LiteralRule := by
  intro s hs _
  obtain ⟨t, ts, hrest⟩ := hs.exists_cons
  unfold parseLiteral
  rw [Prog.bind_ok (check_rest hrest)]
  by_cases hint : t.type = .integerLiteral
  · obtain ⟨s', hadvance, hs', hsplit⟩ := advance_ended hs hrest (by rw [hint]; decide)
    rw [decide_eq_true hint, if_pos rfl, Prog.bind_ok hadvance]
    exact ⟨hs', [t], hsplit, .integer hint⟩
  · rw [decide_eq_false hint, if_neg Bool.false_ne_true, Prog.bind_ok (check_rest hrest)]
    by_cases htext : t.type = .stringLiteral
    · obtain ⟨s', hadvance, hs', hsplit⟩ := advance_ended hs hrest (by rw [htext]; decide)
      rw [decide_eq_true htext, if_pos rfl, Prog.bind_ok hadvance]
      exact ⟨hs', [t], hsplit, .text htext⟩
    · rw [decide_eq_false htext, if_neg Bool.false_ne_true, error_rest hrest]
      exact ⟨_, _, _, rfl⟩

theorem reads_parseColumnNames : Reads n parseColumnNames ColumnNamesRule := by
  refine .ifMatch (by decide) (fun l hl => ?_) (.pure .absent)
  refine reads_parseIdent.bind fun ts first hfirst => ?_
  refine (Reads.collect (fun _ => reads_parseIdent) hfirst).bind fun us columns hlist => ?_
  refine (Reads.expect (by decide) _).bind fun _ r hr => ?_
  obtain ⟨rfl, hr⟩ := hr
  refine .pure ?_
  simpa using ColumnNamesRule.present hl hlist hr

theorem reads_parseInsert : Reads n parseInsert BodyRule := by
  refine (Reads.expect (by decide) _).bind fun _ i hi => ?_
  obtain ⟨rfl, hi⟩ := hi
  refine (Reads.expect (by decide) _).bind fun _ o ho => ?_
  obtain ⟨rfl, ho⟩ := ho
  refine reads_parseIdent.bind fun _ _ hname => ?_
  obtain ⟨hname⟩ := hname
  refine reads_parseColumnNames.bind fun _ columns hnames => ?_
  refine (Reads.expect (by decide) _).bind fun _ v hv => ?_
  obtain ⟨rfl, hv⟩ := hv
  refine (Reads.expect (by decide) _).bind fun _ l hl => ?_
  obtain ⟨rfl, hl⟩ := hl
  refine reads_parseLiteral.bind fun ts first hfirst => ?_
  refine (Reads.collect (fun _ => reads_parseLiteral) hfirst).bind fun us values hlist => ?_
  refine (Reads.expect (by decide) _).bind fun _ r hr => ?_
  obtain ⟨rfl, hr⟩ := hr
  refine .pure (.insert ?_)
  simpa using InsertRule.mk hi ho hname hnames hv hl hlist hr

theorem reads_parseColumnRef : Reads n parseColumnRef ColumnRefRule := by
  refine reads_parseIdent.bind fun _ _ hfirst => ?_
  obtain ⟨hfirst⟩ := hfirst
  refine .ifMatch (by decide) (fun d hd => ?_) (.pure (.plain hfirst))
  refine reads_parseIdent.bind fun _ _ hname => ?_
  obtain ⟨hname⟩ := hname
  exact .pure (.qualified hfirst hd hname)

theorem reads_parseValue : Reads n parseValue ValueRule := by
  refine (Reads.check _).bind fun _ b hts => ?_
  subst hts
  cases b with
  | true =>
    refine reads_parseColumnRef.bind fun ts ref href => .pure (.columnRef ?_)
    rwa [List.nil_append, List.append_nil]
  | false =>
    refine (Reads.check _).bind fun _ b hts => ?_
    subst hts
    refine (Reads.check _).bind fun _ b' hts => ?_
    subst hts
    cases hb : b || b' with
    | true =>
      refine reads_parseLiteral.bind fun ts value hvalue => .pure (ValueRule.literal ?_)
      rwa [List.append_nil]
    | false => exact .error _

theorem cmpRule_of_comparisonOp {type : TokenType} {op : ComparisonOp}
    (h : comparisonOp type = some op) : CmpRule type op ∧ type ≠ .endOfInput := by
  cases type <;> cases h <;> exact ⟨by constructor, by decide⟩

theorem reads_parseComparisonOp :
    Reads n parseComparisonOp fun ts op => ∃ t, ts = [t] ∧ CmpRule t.type op := by
  intro s hs _
  obtain ⟨t, ts, hrest⟩ := hs.exists_cons
  unfold parseComparisonOp
  rw [Prog.bind_ok (peek_rest hrest)]
  cases hop : comparisonOp t.type with
  | none =>
    simp only [error_rest hrest]
    exact ⟨_, _, _, rfl⟩
  | some op =>
    obtain ⟨hcmp, hend⟩ := cmpRule_of_comparisonOp hop
    obtain ⟨s', hadvance, hs', hsplit⟩ := advance_ended hs hrest hend
    simp only [Prog.bind_ok hadvance]
    exact ⟨hs', [t], hsplit, t, rfl, hcmp⟩

theorem reads_parseComparison : Reads n parseComparison (ExprRule .primary) := by
  refine reads_parseValue.bind fun ts left hleft => ?_
  refine reads_parseComparisonOp.bind fun _ op hop => ?_
  obtain ⟨t, rfl, hop⟩ := hop
  refine reads_parseValue.bind fun us right hright => .pure ?_
  simpa using ExprRule.comparison hleft hop hright

section

variable {inner : Prog Parser Expr}

theorem reads_parsePrimaryExpr (hinner : Reads (n - 1) inner (ExprRule .or)) :
    Reads n (parsePrimaryExpr inner) (ExprRule .primary) := by
  refine .ifMatch (by decide) (fun l hl => ?_) reads_parseComparison
  refine hinner.bind fun ts e he => ?_
  refine (Reads.expect (by decide) _).bind fun _ r hr => ?_
  obtain ⟨rfl, hr⟩ := hr
  refine .pure ?_
  simpa using ExprRule.paren hl he hr

theorem reads_parseAndExpr (hinner : Reads (n - 1) inner (ExprRule .or)) :
    Reads n (parseAndExpr inner) (ExprRule .and) := by
  have hprimary : ∀ m ≤ n, Reads m (parsePrimaryExpr inner) (ExprRule .primary) := fun m hm =>
    reads_parsePrimaryExpr (hinner.mono (Nat.sub_le_sub_right hm 1))
  refine (hprimary n le_rfl).bind fun ts left hleft => ?_
  refine (Reads.whileMatch (g := Expr.and) (by decide)
    (fun m hm => hprimary m (hm.trans (Nat.sub_le _ _))) left).imp ?_
  rintro us _ ⟨rights, hrights, rfl⟩
  exact exprRule_and_iff.mpr ⟨ts, us, left, rights, hleft, hrights, rfl, rfl⟩

end

theorem reads_parseExprWithin {depth : Nat} (h : n ≤ depth) :
    Reads n (parseExprWithin depth) (ExprRule .or) := by
  induction depth generalizing n with
  | zero =>
    obtain rfl := Nat.le_zero.mp h
    exact .zero
  | succ depth ih =>
    have hand : ∀ m ≤ n, Reads m (parseAndExpr (parseExprWithin depth)) (ExprRule .and) :=
      fun m hm => reads_parseAndExpr (ih (by omega))
    refine (hand n le_rfl).bind fun ts left hleft => ?_
    refine (Reads.whileMatch (g := Expr.or) (by decide)
      (fun m hm => hand m (hm.trans (Nat.sub_le _ _))) left).imp ?_
    rintro us _ ⟨rights, hrights, rfl⟩
    exact exprRule_or_iff.mpr ⟨ts, us, left, rights, hleft, hrights, rfl, rfl⟩

theorem reads_parseExpr : Reads n parseExpr (ExprRule .or) :=
  .withFuel fun _ _ _ hk => reads_parseExprWithin hk.le

theorem reads_parseAlias : Reads n parseAlias (Optional .as IdentRule) := by
  refine .ifMatch (by decide) (fun a ha => ?_) (.pure .absent)
  refine reads_parseIdent.bind fun ts name hname => .pure ?_
  rw [List.append_nil]
  exact .present ha hname

theorem reads_parseSelectItem : Reads n parseSelectItem SelectItemRule := by
  refine reads_parseColumnRef.bind fun ts ref href => ?_
  refine reads_parseAlias.bind fun us aliasName halias => .pure ?_
  rw [List.append_nil]
  exact .mk href halias

theorem reads_parseTableRef : Reads n parseTableRef TableRefRule := by
  refine reads_parseIdent.bind fun _ _ hname => ?_
  obtain ⟨hname⟩ := hname
  refine reads_parseAlias.bind fun us aliasName halias => .pure ?_
  rw [List.append_nil]
  exact .mk hname halias

theorem reads_parseJoinClause : Reads n parseJoinClause JoinRule := by
  refine (Reads.expect (by decide) _).bind fun _ j hj => ?_
  obtain ⟨rfl, hj⟩ := hj
  refine reads_parseTableRef.bind fun ts table htable => ?_
  refine (Reads.expect (by decide) _).bind fun _ o ho => ?_
  obtain ⟨rfl, ho⟩ := ho
  refine reads_parseExpr.bind fun us condition hcondition => .pure ?_
  simpa using JoinRule.mk hj htable ho hcondition

theorem reads_parseSelectList : Reads n parseSelectList SelectListRule := by
  refine .ifMatch (by decide) (fun t ht => .pure (.star ht)) ?_
  refine reads_parseSelectItem.bind fun ts first hfirst => ?_
  refine (Reads.collect (fun _ => reads_parseSelectItem) hfirst).bind fun us items hitems => ?_
  refine .pure (.items ?_)
  rwa [List.append_nil]

theorem reads_parseWhere : Reads n parseWhere (Optional .where (ExprRule .or)) := by
  refine .ifMatch (by decide) (fun w hw => ?_) (.pure .absent)
  refine reads_parseExpr.bind fun ts condition hcondition => .pure ?_
  rw [List.append_nil]
  exact .present hw hcondition

theorem reads_parseJoins : Reads n parseJoins (Many JoinRule) := by
  refine Reads.withFuel fun m hm k hk => ?_
  refine (Reads.whileM (L := JoinRule) (g := fun joins join => joins ++ [join])
    (fun _ => Reads.check .join) (fun _ h => h) ?_ (fun _ _ h => ?_) hk []).imp ?_
  · rintro m' _ _ joins rfl
    refine reads_parseJoinClause.bind fun us join hjoin => .pure ⟨join, ?_, rfl⟩
    rwa [List.append_nil]
  · cases h
    exact List.cons_ne_nil _ _
  · rintro us _ ⟨joins, hjoins, rfl⟩
    rwa [foldl_snoc]

theorem reads_parseSelect : Reads n parseSelect BodyRule := by
  refine (Reads.expect (by decide) _).bind fun _ s hs => ?_
  obtain ⟨rfl, hs⟩ := hs
  refine reads_parseSelectList.bind fun ts list hlist => ?_
  refine (Reads.expect (by decide) _).bind fun _ f hf => ?_
  obtain ⟨rfl, hf⟩ := hf
  refine reads_parseTableRef.bind fun us table htable => ?_
  refine reads_parseJoins.bind fun vs joins hjoins => ?_
  refine reads_parseWhere.bind fun ws condition hcondition => .pure (.select ?_)
  simpa using SelectRule.mk hs hlist hf htable hjoins hcondition

theorem reads_parseBody : Reads n parseBody BodyRule := by
  refine Reads.peek.bind fun _ t hts => ?_
  subst hts
  split
  · exact reads_parseCreateTable
  · exact reads_parseInsert
  · exact reads_parseSelect
  · exact .error _

end

end Parser

end Reldb
