import Mathlib.Data.List.Induction
import Reldb.Sql.Source

/-!
# Reldb — the lexer reads what the text is

`nextToken` reads the lexeme it stands before (`nextToken_lexeme`) and throws where a fault is
(`nextToken_fault`); over the pieces of a whole text this makes `Tokenize` return the token of each
lexeme, with the place of its first byte (`tokenize_cuts`), or throw at the first fault. What the
documentation leaves out is a number too large for its token (`fails_as_documented_iff`).
-/

namespace Reldb.Lexer

variable {α : Type} {l : Lexer} {c d : UInt8} {bs tail : Bytes}

/-! ## Reading bytes -/

/-- The bytes not read yet. -/
def rest (l : Lexer) : Bytes := l.source.drop l.pos

/-- The lexer once it has read these bytes. -/
def skip (l : Lexer) (bs : Bytes) : Lexer :=
  bs.foldl (fun l c =>
    if c = byte '\n' then { l with pos := l.pos + 1, line := l.line + 1, column := 1 }
    else { l with pos := l.pos + 1, column := l.column + 1 }) l

@[simp] theorem skip_nil (l : Lexer) : l.skip [] = l := rfl

theorem skip_append (l : Lexer) (bs cs : Bytes) : l.skip (bs ++ cs) = (l.skip bs).skip cs :=
  List.foldl_append

theorem skip_cons (l : Lexer) (c : UInt8) (bs : Bytes) : l.skip (c :: bs) = (l.skip [c]).skip bs := rfl

theorem skip_byte (l : Lexer) (hc : c ≠ byte '\n') :
    l.skip [c] = { l with pos := l.pos + 1, column := l.column + 1 } := if_neg hc

theorem skip_source_pos (l : Lexer) (bs : Bytes) :
    (l.skip bs).source = l.source ∧ (l.skip bs).pos = l.pos + bs.length := by
  induction bs generalizing l with
  | nil => exact ⟨rfl, rfl⟩
  | cons c bs ih =>
    have hc : (l.skip [c]).source = l.source ∧ (l.skip [c]).pos = l.pos + 1 := by
      show (if c = byte '\n' then _ else _ : Lexer).source = _ ∧
        (if c = byte '\n' then _ else _ : Lexer).pos = _
      split <;> exact ⟨rfl, rfl⟩
    obtain ⟨hsource, hpos⟩ := ih (l.skip [c])
    rw [skip_cons, hsource, hpos, hc.1, hc.2, List.length_cons]
    exact ⟨rfl, by omega⟩

theorem rest_skip (h : l.rest = bs ++ tail) : (l.skip bs).rest = tail := by
  obtain ⟨hsource, hpos⟩ := l.skip_source_pos bs
  rw [rest, hsource, hpos, ← List.drop_drop, ← rest, h, List.drop_left]

theorem rest_length_le (l : Lexer) : l.rest.length ≤ l.source.length := by
  rw [rest, List.length_drop]
  omega

theorem getElem?_pos (l : Lexer) : l.source[l.pos]? = l.rest.head? := by
  rw [rest, List.head?_drop]

theorem isAtEnd_run (l : Lexer) : isAtEnd l = .ok l.rest.isEmpty l := by
  have hempty : l.rest.isEmpty = decide (l.source.length ≤ l.pos) := by
    rw [Bool.eq_iff_iff, List.isEmpty_iff, decide_eq_true_iff, rest, List.drop_eq_nil_iff]
  rw [hempty]
  rfl

theorem peek_run (l : Lexer) : peek l = .ok (l.rest.head?.getD 0) l := by
  unfold peek
  rw [Prog.bind_ok (rfl : (get : Prog Lexer Lexer) l = .ok l l), getElem?_pos]
  rfl

theorem isAtEnd_of_cons (h : l.rest = c :: bs) : isAtEnd l = .ok false l := by
  rw [isAtEnd_run, h]
  rfl

theorem isAtEnd_of_nil (h : l.rest = []) : isAtEnd l = .ok true l := by
  rw [isAtEnd_run, h]
  rfl

theorem peek_of_cons (h : l.rest = c :: bs) : peek l = .ok c l := by
  rw [peek_run, h]
  rfl

/-- What comes next is not `d`. -/
theorem peek_ne (hd : d ≠ 0) (h : d ∉ l.rest.head?) : ∃ b, peek l = .ok b l ∧ b ≠ d := by
  refine ⟨_, peek_run l, fun heq => ?_⟩
  cases hrest : l.rest with
  | nil =>
    rw [hrest] at heq
    exact hd heq.symm
  | cons c bs =>
    rw [hrest] at h heq
    exact h (congrArg some heq)

theorem advance_run (h : l.rest = c :: bs) : advance l = .ok c (l.skip [c]) := by
  have hc : l.source[l.pos]?.getD 0 = c := by
    rw [getElem?_pos, h]
    rfl
  unfold advance
  rw [Prog.bind_ok (rfl : (get : Prog Lexer Lexer) l = .ok l l)]
  simp only [hc, skip, List.foldl_cons, List.foldl_nil]
  split <;> rfl

/-- The condition of `takeWhile`'s loop. -/
theorem more_run (test : UInt8 → Bool) (l : Lexer) :
    (do return !(← isAtEnd) && test (← peek) : Prog Lexer Bool) l =
      .ok (!l.rest.isEmpty && test (l.rest.head?.getD 0)) l :=
  (Prog.bind_ok (isAtEnd_run l)).trans (Prog.bind_ok (peek_run l))

theorem whileM_run {test : UInt8 → Bool} (hbs : ∀ c ∈ bs, test c = true) (htail : Stops test tail)
    {fuel : Nat} (hfuel : bs.length < fuel) (text : Bytes) (hl : l.rest = bs ++ tail) :
    Prog.whileM (do return !(← isAtEnd) && test (← peek))
      (fun text => do return text ++ [← advance]) fuel text l = .ok (text ++ bs) (l.skip bs) := by
  induction bs generalizing fuel text l with
  | nil =>
    obtain ⟨fuel, rfl⟩ := Nat.exists_eq_succ_of_ne_zero (Nat.ne_of_gt hfuel)
    unfold Prog.whileM
    have hcond : (!l.rest.isEmpty && test (l.rest.head?.getD 0)) = false := by
      rw [hl, List.nil_append]
      cases tail with
      | nil => rfl
      | cons c tail => exact htail c rfl
    rw [Prog.bind_ok (more_run test l), hcond, List.append_nil]
    rfl
  | cons c bs ih =>
    obtain ⟨fuel, rfl⟩ := Nat.exists_eq_succ_of_ne_zero (Nat.ne_of_gt (Nat.zero_lt_of_lt hfuel))
    unfold Prog.whileM
    have hcond : (!l.rest.isEmpty && test (l.rest.head?.getD 0)) = true := by
      rw [hl]
      exact hbs c List.mem_cons_self
    have hstep : (do return text ++ [← advance] : Prog Lexer Bytes) l = .ok (text ++ [c]) (l.skip [c]) :=
      Prog.bind_ok (advance_run hl)
    rw [Prog.bind_ok (more_run test l), hcond, if_pos rfl, Prog.bind_ok hstep,
      ih (fun d hd => hbs d (List.mem_cons_of_mem c hd)) (Nat.lt_of_succ_lt_succ hfuel) (text ++ [c])
        (rest_skip hl), ← skip_cons, List.append_assoc, List.singleton_append]

theorem takeWhile_run {test : UInt8 → Bool} (hbs : ∀ c ∈ bs, test c = true)
    (htail : Stops test tail) (hl : l.rest = bs ++ tail) :
    takeWhile test l = .ok bs (l.skip bs) := by
  have hlen := l.rest_length_le
  rw [hl, List.length_append] at hlen
  unfold takeWhile
  rw [Prog.bind_ok (rfl : (get : Prog Lexer Lexer) l = .ok l l)]
  exact whileM_run hbs htail (by omega) [] hl

theorem skipWhitespace_run {space : Bytes} (hspace : ∀ c ∈ space, isSpace c = true)
    (hbs : Stops isSpace bs) (h : l.rest = space ++ bs) : skipWhitespace l = .ok () (l.skip space) :=
  Prog.bind_ok (takeWhile_run hspace hbs h)

/-! ## Words and numbers -/

theorem lexIdentifierOrKeyword_run {w : Bytes} (hw : IsWord w) (hlexeme : LexemeAt w tail)
    (hl : l.rest = w ++ tail) : lexIdentifierOrKeyword l
      = .ok ⟨(keywordTable.lookup (toUpper w)).getD .identifier, w, 0, [], l.line, l.column⟩
          (l.skip w) := by
  have hstops : Stops isWordByte tail :=
    stops_of_longest hlexeme.longest fun d hd => .word (hw.concat hd)
  unfold lexIdentifierOrKeyword
  rw [Prog.bind_ok (rfl : (get : Prog Lexer Lexer) l = .ok l l)]
  exact Prog.bind_ok (takeWhile_run hw.2 hstops hl)

theorem lexNumber_run {w : Bytes} (hw : IsNumber w) (hlexeme : LexemeAt w tail)
    (hl : l.rest = w ++ tail) : lexNumber l
      = if 2 ^ 63 ≤ digitsValue w then .error (.outOfRange (text "stoll")) (l.skip w)
        else .ok ⟨.integerLiteral, w, Int64.ofNat (digitsValue w), [], l.line, l.column⟩ (l.skip w) := by
  have hstops : Stops isDigit tail :=
    stops_of_longest hlexeme.longest fun d hd => .number (hw.concat hd)
  unfold lexNumber
  rw [Prog.bind_ok (rfl : (get : Prog Lexer Lexer) l = .ok l l),
    Prog.bind_ok (takeWhile_run hw.2 hstops hl)]
  by_cases hlarge : 2 ^ 63 ≤ digitsValue w
  · rw [if_pos hlarge, if_pos hlarge]
    rfl
  · rw [if_neg hlarge, if_neg hlarge]
    rfl

/-! ## Strings -/

section

variable {startLine startColumn : Nat}

theorem lexStringFrom_escape (value : Bytes) (fuel : Nat) (read : Bytes)
    (hl : l.rest = escape value ++ tail) :
    lexStringFrom startLine startColumn (fuel + value.length) read l
      = lexStringFrom startLine startColumn fuel (read ++ value) (l.skip (escape value)) := by
  induction value generalizing l read with
  | nil => rw [List.append_nil]; rfl
  | cons c value ih =>
    have hstep : lexStringFrom startLine startColumn (fuel + (c :: value).length) read l
        = lexStringFrom startLine startColumn (fuel + value.length) (read ++ [c])
          (l.skip (if c = byte '\'' then [byte '\'', byte '\''] else [c])) := by
      rw [List.length_cons, ← Nat.add_assoc, lexStringFrom]
      by_cases hc : c = byte '\''
      · subst hc
        have hl : l.rest = byte '\'' :: byte '\'' :: (escape value ++ tail) := hl
        have hrest := @rest_skip _ [byte '\''] _ hl
        rw [Prog.bind_ok (isAtEnd_of_cons hl), if_neg Bool.false_ne_true,
          Prog.bind_ok (peek_of_cons hl), if_pos rfl, Prog.bind_ok (advance_run hl),
          Prog.bind_ok (peek_of_cons hrest), if_pos rfl, Prog.bind_ok (advance_run hrest), if_pos rfl]
        rfl
      · rw [escape_byte hc, List.cons_append] at hl
        rw [Prog.bind_ok (isAtEnd_of_cons hl), if_neg Bool.false_ne_true,
          Prog.bind_ok (peek_of_cons hl), if_neg hc, if_neg hc, Prog.bind_ok (advance_run hl)]
    rw [escape_cons, List.append_assoc] at hl
    rw [hstep, ih _ (rest_skip hl), escape_cons, skip_append, List.append_assoc,
      List.singleton_append]

/-- A literal is read up to its closing quote. -/
theorem lexStringFrom_closed {value : Bytes} (hclosed : byte '\'' ∉ tail.head?) {fuel : Nat}
    (hfuel : value.length < fuel) (read : Bytes) (hl : l.rest = escape value ++ byte '\'' :: tail) :
    lexStringFrom startLine startColumn fuel read l
      = .ok (read ++ value) (l.skip (escape value ++ [byte '\''])) := by
  obtain ⟨fuel, rfl⟩ := Nat.exists_eq_add_of_lt hfuel
  rw [show value.length + fuel + 1 = fuel + 1 + value.length by omega,
    lexStringFrom_escape value (fuel + 1) read hl, lexStringFrom, skip_append]
  have hrest := rest_skip hl
  generalize l.skip (escape value) = l' at hrest
  obtain ⟨b, hpeek, hb⟩ := peek_ne (l := l'.skip [byte '\'']) (d := byte '\'') (by decide)
    (by rwa [@rest_skip _ [byte '\''] _ hrest])
  rw [Prog.bind_ok (isAtEnd_of_cons hrest), if_neg Bool.false_ne_true,
    Prog.bind_ok (peek_of_cons hrest), if_pos rfl, Prog.bind_ok (advance_run hrest),
    Prog.bind_ok hpeek, if_neg hb]
  rfl

theorem lexStringFrom_unterminated {value : Bytes} {fuel : Nat} (hfuel : value.length < fuel)
    (read : Bytes) (hl : l.rest = escape value) : ∃ l',
      lexStringFrom startLine startColumn fuel read l
        = .error (.lexErrorAt (text "unterminated string literal") startLine startColumn) l' := by
  obtain ⟨fuel, rfl⟩ := Nat.exists_eq_add_of_lt hfuel
  have hl' : l.rest = escape value ++ [] := by rw [hl, List.append_nil]
  rw [show value.length + fuel + 1 = fuel + 1 + value.length by omega,
    lexStringFrom_escape value (fuel + 1) read hl', lexStringFrom,
    Prog.bind_ok (isAtEnd_of_nil (rest_skip hl')), if_pos rfl]
  exact ⟨_, rfl⟩

end

theorem escape_length_le (value : Bytes) : value.length ≤ (escape value).length := by
  induction value with
  | nil => exact Nat.le_refl 0
  | cons c value ih =>
    rw [escape_cons, List.length_append, List.length_cons]
    have : 1 ≤ (if c = byte '\'' then [byte '\'', byte '\''] else [c]).length := by
      split <;> simp
    omega

/-- The loop of `LexString` has the fuel for what follows the quote. -/
theorem lt_fuel {value : Bytes} (h : l.rest = byte '\'' :: (escape value ++ tail)) :
    value.length < l.source.length + 1 := by
  have hlen := l.rest_length_le
  have := escape_length_le value
  rw [h, List.length_cons, List.length_append] at hlen
  omega

theorem lexString_run {value : Bytes} (hclosed : byte '\'' ∉ tail.head?)
    (hl : l.rest = quoted value ++ tail) : lexString l
      = .ok ⟨.stringLiteral, value, 0, value, l.line, l.column⟩ (l.skip (quoted value)) := by
  have hl : l.rest = byte '\'' :: (escape value ++ byte '\'' :: tail) := by
    rw [hl, quoted, List.cons_append, List.append_assoc]
    rfl
  unfold lexString
  rw [Prog.bind_ok (rfl : (get : Prog Lexer Lexer) l = .ok l l), Prog.bind_ok (advance_run hl),
    Prog.bind_ok (lexStringFrom_closed hclosed (lt_fuel hl) [] (@rest_skip _ [byte '\''] _ hl))]
  rfl

theorem lexString_unterminated {value : Bytes} (hl : l.rest = byte '\'' :: escape value) :
    ∃ l', lexString l
      = .error (.lexErrorAt (text "unterminated string literal") l.line l.column) l' := by
  have hfuel : value.length < l.source.length + 1 := by
    apply lt_fuel
    rw [hl, List.append_nil]
  obtain ⟨l', hrun⟩ := @lexStringFrom_unterminated _ l.line l.column _ _
    hfuel [] (@rest_skip _ [byte '\''] _ hl)
  refine ⟨l', ?_⟩
  unfold lexString
  rw [Prog.bind_ok (rfl : (get : Prog Lexer Lexer) l = .ok l l), Prog.bind_ok (advance_run hl),
    Prog.bind_error hrun]

/-! ## Symbols -/

theorem lexSymbol_run (h : l.rest = c :: tail) (hc : c ≠ byte '\n') (type : TokenType) {symbol : String}
    (hsymbol : text symbol = [c]) : lexSymbol type symbol l
      = .ok ⟨type, [c], 0, [], l.line, l.column⟩ (l.skip [c]) := by
  unfold lexSymbol
  rw [Prog.bind_ok (advance_run h), hsymbol, skip_byte l hc]
  rfl

/-- A token of one or two characters, told apart by the second. -/
def lexPair (first second : Prog Lexer Token) : Prog Lexer Token := do
  let _ ← advance
  if (← peek) = byte '=' then second else first

theorem lexPair_second {first : Prog Lexer Token} {type : TokenType} {symbol : String}
    (h : l.rest = c :: byte '=' :: tail) (hc : c ≠ byte '\n') (hsymbol : text symbol = [c, byte '=']) :
    lexPair first (lexSymbol type symbol) l
      = .ok ⟨type, [c, byte '='], 0, [], l.line, l.column⟩ (l.skip [c, byte '=']) := by
  have hrest : (l.skip [c]).rest = byte '=' :: tail := @rest_skip _ [c] _ h
  rw [lexPair, Prog.bind_ok (advance_run h), Prog.bind_ok (peek_of_cons hrest), if_pos rfl, lexSymbol,
    Prog.bind_ok (advance_run hrest), hsymbol, skip_cons l c [byte '='],
    skip_byte (l.skip [c]) (by decide), skip_byte l hc]
  rfl

theorem lexPair_first {first second : Prog Lexer Token} (h : l.rest = c :: tail)
    (htail : byte '=' ∉ tail.head?) : lexPair first second l = first (l.skip [c]) := by
  obtain ⟨b, hpeek, hb⟩ := peek_ne (l := l.skip [c]) (d := byte '=') (by decide)
    (by rwa [@rest_skip _ [c] _ h])
  rw [lexPair, Prog.bind_ok (advance_run h), Prog.bind_ok hpeek, if_neg hb]

theorem makeToken_run (hc : c ≠ byte '\n') (type : TokenType) {symbol : Bytes} (hsymbol : symbol = [c]) :
    makeToken type symbol (l.skip [c]) = .ok ⟨type, [c], 0, [], l.line, l.column⟩ (l.skip [c]) := by
  rw [hsymbol, skip_byte l hc]
  rfl

theorem nextToken_run (h : l.rest = c :: bs) : nextToken l =
    (if isAlpha c || c == byte '_' then lexIdentifierOrKeyword
      else if isDigit c then lexNumber
      else if c = byte '\'' then lexString
      else lexOperator c) l :=
  Prog.bind_ok (peek_of_cons h)

theorem nextToken_symbol {w : Bytes} {type : TokenType} (hw : (w, type) ∈ symbolTable)
    (hlexeme : LexemeAt w tail) (hl : l.rest = w ++ tail) :
    nextToken l = .ok ⟨type, w, 0, [], l.line, l.column⟩ (l.skip w) := by
  -- a symbol that `=` would make another is not followed by it
  have hnot : ∀ type', (w ++ [byte '='], type') ∈ symbolTable → byte '=' ∉ tail.head? := by
    intro type' hmem heq
    obtain ⟨tail, rfl⟩ : ∃ tail', tail = byte '=' :: tail' :=
      ⟨tail.tail, (List.cons_head?_tail heq).symm⟩
    exact hlexeme.longest.not_concat (.symbol hmem)
  simp only [symbolTable, List.mem_cons, Prod.mk.injEq, List.not_mem_nil, or_false] at hw
  rcases hw with ⟨rfl, rfl⟩ | ⟨rfl, rfl⟩ | ⟨rfl, rfl⟩ | ⟨rfl, rfl⟩ | ⟨rfl, rfl⟩ | ⟨rfl, rfl⟩ |
    ⟨rfl, rfl⟩ | ⟨rfl, rfl⟩ | ⟨rfl, rfl⟩ | ⟨rfl, rfl⟩ | ⟨rfl, rfl⟩ | ⟨rfl, rfl⟩
  -- the test of each character against the ones before it is a computation
  · rw [nextToken_run (c := byte '*') hl]
    exact lexSymbol_run (c := byte '*') hl (by decide) .star rfl
  · rw [nextToken_run (c := byte ',') hl]
    exact lexSymbol_run (c := byte ',') hl (by decide) .comma rfl
  · rw [nextToken_run (c := byte '.') hl]
    exact lexSymbol_run (c := byte '.') hl (by decide) .dot rfl
  · rw [nextToken_run (c := byte ';') hl]
    exact lexSymbol_run (c := byte ';') hl (by decide) .semicolon rfl
  · rw [nextToken_run (c := byte '(') hl]
    exact lexSymbol_run (c := byte '(') hl (by decide) .lparen rfl
  · rw [nextToken_run (c := byte ')') hl]
    exact lexSymbol_run (c := byte ')') hl (by decide) .rparen rfl
  · rw [nextToken_run (c := byte '=') hl]
    exact lexSymbol_run (c := byte '=') hl (by decide) .eq rfl
  · rw [nextToken_run (c := byte '!') hl]
    exact lexPair_second (c := byte '!') hl (by decide) rfl
  · rw [nextToken_run (c := byte '<') hl]
    exact (lexPair_first (c := byte '<') hl (hnot .lte (by decide))).trans
      (makeToken_run (by decide) .lt rfl)
  · rw [nextToken_run (c := byte '<') hl]
    exact lexPair_second (c := byte '<') hl (by decide) rfl
  · rw [nextToken_run (c := byte '>') hl]
    exact (lexPair_first (c := byte '>') hl (hnot .gte (by decide))).trans
      (makeToken_run (by decide) .gt rfl)
  · rw [nextToken_run (c := byte '>') hl]
    exact lexPair_second (c := byte '>') hl (by decide) rfl

/-! ## One token -/

/-- `lexOperator` throws at a byte that begins no symbol. -/
theorem lexOperator_stray (h : ∀ p ∈ symbolTable, c ∉ p.1.head?) : lexOperator c l
    = .error (.lexErrorAt (text "unexpected character '" ++ [c] ++ text "'") l.line l.column) l := by
  have hne : ∀ p ∈ symbolTable, ∀ d ∈ p.1.head?, c ≠ d := by
    rintro p hp d hd rfl
    exact h p hp hd
  unfold lexOperator
  rw [Prog.bind_ok (rfl : (get : Prog Lexer Lexer) l = .ok l l),
    if_neg (hne (text "*", .star) (by decide) (byte '*') rfl),
    if_neg (hne (text ",", .comma) (by decide) (byte ',') rfl),
    if_neg (hne (text ".", .dot) (by decide) (byte '.') rfl),
    if_neg (hne (text ";", .semicolon) (by decide) (byte ';') rfl),
    if_neg (hne (text "(", .lparen) (by decide) (byte '(') rfl),
    if_neg (hne (text ")", .rparen) (by decide) (byte ')') rfl),
    if_neg (hne (text "=", .eq) (by decide) (byte '=') rfl),
    if_neg (hne (text "<", .lt) (by decide) (byte '<') rfl),
    if_neg (hne (text ">", .gt) (by decide) (byte '>') rfl),
    if_neg (hne (text "!=", .neq) (by decide) (byte '!') rfl)]
  rfl

theorem nextToken_number {w : Bytes} (hnumber : IsNumber w) (hw : LexemeAt w tail)
    (hl : l.rest = w ++ tail) : nextToken l = lexNumber l := by
  obtain ⟨c, cs, rfl⟩ := List.exists_cons_of_ne_nil hnumber.1
  have hc : isDigit c = true := hnumber.2 c List.mem_cons_self
  have hstart : (isAlpha c || c == byte '_') = false := not_isWordStart_of_isDigit hc
  rw [nextToken_run (c := c) hl, hstart, if_neg Bool.false_ne_true, if_pos hc]

/-- **`nextToken` reads the lexeme that stands before it**, if that is no number too large for its
token. -/
theorem nextToken_lexeme {w : Bytes} (hw : LexemeAt w tail) (hl : l.rest = w ++ tail)
    (hfits : IsNumber w → digitsValue w < 2 ^ 63) :
    ∃ t, TokenAt l.line l.column w t ∧ nextToken l = .ok t (l.skip w) := by
  cases hw.longest.1 with
  | word hword =>
    obtain ⟨⟨c, hc, hstart⟩, -⟩ := id hword
    obtain ⟨cs, rfl⟩ : ∃ cs, w = c :: cs := ⟨w.tail, (List.cons_head?_tail hc).symm⟩
    refine ⟨_, .word hword, ?_⟩
    rw [nextToken_run (c := c) hl, if_pos (show (isAlpha c || c == byte '_') = true from hstart)]
    exact lexIdentifierOrKeyword_run hword hw hl
  | number hnumber =>
    have hlt := hfits hnumber
    refine ⟨_, .number hnumber (Int64.toInt_ofNat_of_lt hlt), ?_⟩
    rw [nextToken_number hnumber hw hl, lexNumber_run hnumber hw hl, if_neg (Nat.not_le.mpr hlt)]
  | string value =>
    refine ⟨_, .string value, ?_⟩
    rw [nextToken_run (c := byte '\'') hl]
    exact lexString_run (hw.closed rfl) hl
  | symbol hsymbol => exact ⟨_, .symbol hsymbol, nextToken_symbol hsymbol hw hl⟩

/-- **`nextToken` throws at a fault**, with the place of its first byte. -/
theorem nextToken_fault {msg : Bytes} (h : Fault l.rest msg) :
    ∃ l', nextToken l = .error (.lexErrorAt msg l.line l.column) l' := by
  generalize hrest : l.rest = bs at h
  cases h with
  | unterminated value =>
    rw [nextToken_run hrest]
    exact lexString_unterminated hrest
  | @bang tail hne =>
    rw [nextToken_run hrest]
    exact ⟨_, lexPair_first hrest hne⟩
  | @stray c tail hnone hc =>
    have hword : (isAlpha c || c == byte '_') = false := by
      rw [Bool.eq_false_iff]
      intro hstart
      exact hnone [c] (.word ⟨⟨c, rfl, hstart⟩, fun d hd =>
        List.mem_singleton.mp hd ▸ isWordByte_of_isWordStart hstart⟩) rfl
    have hdigit : isDigit c = false := by
      rw [Bool.eq_false_iff]
      intro hdigit
      exact hnone [c] (.number ⟨List.cons_ne_nil _ _, fun d hd =>
        List.mem_singleton.mp hd ▸ hdigit⟩) rfl
    have hquote : c ≠ byte '\'' := by
      rintro rfl
      exact hnone _ (.string []) rfl
    have hsymbol : ∀ p ∈ symbolTable, c ∉ p.1.head? := fun p hp => hnone p.1 (.symbol hp)
    rw [nextToken_run hrest, hword, hdigit, if_neg Bool.false_ne_true, if_neg Bool.false_ne_true,
      if_neg hquote]
    exact ⟨_, lexOperator_stray fun p hp => hnone p.1 (.symbol hp)⟩

/-! ## Places -/

/-- A lexer that has read these bytes from the start knows where it is. -/
theorem new_skip (source before : Bytes) : ((new source).skip before).line = lineAfter before ∧
    ((new source).skip before).column = columnAfter before := by
  induction before using List.reverseRecOn with
  | nil => exact ⟨rfl, rfl⟩
  | append_singleton before c ih =>
    rw [skip_append]
    generalize (new source).skip before = l at ih
    show (if c = byte '\n' then _ else _ : Lexer).line = _ ∧
      (if c = byte '\n' then _ else _ : Lexer).column = _
    rw [lineAfter, columnAfter, List.count_append, List.reverse_append]
    by_cases hc : c = byte '\n'
    · subst hc
      rw [if_pos rfl]
      exact ⟨by simp only [ih.1, lineAfter]; rfl, rfl⟩
    · rw [if_neg hc]
      have hcount : [c].count (byte '\n') = 0 := List.count_eq_zero.mpr
        fun hmem => hc (List.mem_singleton.mp hmem).symm
      have htake : ([c].reverse ++ before.reverse).takeWhile (fun c => c != byte '\n')
          = c :: before.reverse.takeWhile fun c => c != byte '\n' :=
        List.takeWhile_cons_of_pos (bne_iff_ne.mpr hc)
      rw [hcount, htake, List.length_cons]
      exact ⟨ih.1, by simp only [ih.2, columnAfter]; omega⟩

/-! ## A whole text -/

variable {source before : Bytes} {pieces : List (Bytes × Bytes)}

/-- One round of the loop of `Tokenize` that reads a lexeme. -/
theorem tokensFrom_lexeme {space w : Bytes} (hspace : ∀ c ∈ space, isSpace c = true)
    (hw : LexemeAt w tail) (hl : l.rest = space ++ (w ++ tail)) (fuel : Nat) (tokens : List Token) :
    tokensFrom (fuel + 1) tokens l
      = (nextToken >>= fun t => tokensFrom fuel (tokens ++ [t])) (l.skip space) := by
  obtain ⟨c, cs, rfl, hc⟩ := hw.longest.1.exists_head
  have hstops : Stops isSpace (c :: cs ++ tail) := by
    rintro _ ⟨⟩
    exact isSpace_eq_false hc
  rw [tokensFrom, Prog.bind_ok (skipWhitespace_run hspace hstops hl),
    Prog.bind_ok (isAtEnd_of_cons (rest_skip hl))]
  rfl

theorem tokensFrom_cuts (h : Cuts bs pieces tail) (hfits : Fits pieces)
    (hl : ((new source).skip before).rest = bs) : ∃ ts, Tokens before pieces ts ∧
      ∀ fuel tokens, tokensFrom (fuel + pieces.length) tokens ((new source).skip before)
        = tokensFrom fuel (tokens ++ ts) ((new source).skip (before ++ Munch.read pieces)) := by
  induction h generalizing before with
  | nil =>
    refine ⟨[], .nil, fun fuel tokens => ?_⟩
    rw [List.append_nil, Munch.read, List.flatMap_nil, List.append_nil]
    rfl
  | @cons space w rest tail pieces hspace hw h ih =>
    have hskip : ((new source).skip before).skip (space ++ w)
        = (new source).skip (before ++ (space ++ w)) := (skip_append _ _ _).symm
    have hmid : (((new source).skip before).skip space).rest = w ++ rest := rest_skip hl
    obtain ⟨hline, hcolumn⟩ := new_skip source (before ++ space)
    rw [skip_append] at hline hcolumn
    obtain ⟨t, ht, hrun⟩ := nextToken_lexeme hw hmid (hfits _ List.mem_cons_self)
    rw [hline, hcolumn] at ht
    rw [← skip_append ((new source).skip before) space w, hskip] at hrun
    have hrest : ((new source).skip (before ++ (space ++ w))).rest = rest := by
      rw [← hskip]
      exact rest_skip (by rw [hl, List.append_assoc])
    obtain ⟨ts, hts, hloop⟩ := ih (fun p hp => hfits p (List.mem_cons_of_mem _ hp)) hrest
    refine ⟨t :: ts, .cons ht hts, fun fuel tokens => ?_⟩
    rw [List.length_cons, ← Nat.add_assoc, tokensFrom_lexeme hspace hw hl, Prog.bind_ok hrun, hloop,
      Munch.read_cons, List.append_assoc tokens, List.singleton_append]
    simp only [List.append_assoc]

/-- A number too large for its token is thrown at, with what is no `LexError`. -/
theorem tokensFrom_tooLarge (h : Cuts bs pieces tail) (hfits : ¬ Fits pieces) (hl : l.rest = bs)
    (fuel : Nat) (tokens : List Token) : ∃ l',
      tokensFrom (fuel + pieces.length) tokens l = .error (.outOfRange (text "stoll")) l' := by
  induction h generalizing l tokens with
  | nil => exact absurd (fun p hp => absurd hp List.not_mem_nil) hfits
  | @cons space w rest tail pieces hspace hw h ih =>
    rw [List.length_cons, ← Nat.add_assoc, tokensFrom_lexeme hspace hw hl]
    by_cases hw' : IsNumber w → digitsValue w < 2 ^ 63
    · obtain ⟨t, -, hrun⟩ := nextToken_lexeme hw (rest_skip hl) hw'
      have hfits' : ¬ Fits pieces := fun hrest => hfits fun p hp => by
        rcases List.mem_cons.mp hp with rfl | hp
        · exact hw'
        · exact hrest p hp
      rw [Prog.bind_ok hrun]
      exact ih hfits' (rest_skip (rest_skip hl)) _
    · rw [Classical.not_imp, Nat.not_lt] at hw'
      obtain ⟨hnumber, hlarge⟩ := hw'
      have hrun := lexNumber_run hnumber hw (rest_skip hl)
      rw [if_pos hlarge, ← nextToken_number hnumber hw (rest_skip hl)] at hrun
      exact ⟨_, Prog.bind_error hrun⟩

/-- What is left of a text without lexemes: white space, and then nothing or a fault. -/
theorem tokensFrom_end {space : Bytes} (hspace : ∀ c ∈ space, isSpace c = true) (hl : l.rest = space)
    (fuel : Nat) (tokens : List Token) : tokensFrom (fuel + 1) tokens l = .ok tokens (l.skip space) := by
  have hl : l.rest = space ++ [] := by rw [hl, List.append_nil]
  have hstops : Stops isSpace [] := nofun
  rw [tokensFrom, Prog.bind_ok (skipWhitespace_run hspace hstops hl),
    Prog.bind_ok (isAtEnd_of_nil (rest_skip hl))]
  rfl

theorem tokensFrom_fault {space rest msg : Bytes} (hspace : ∀ c ∈ space, isSpace c = true)
    (hfault : Fault rest msg) (hl : l.rest = space ++ rest) (fuel : Nat) (tokens : List Token) :
    ∃ l', tokensFrom (fuel + 1) tokens l
      = .error (.lexErrorAt msg (l.skip space).line (l.skip space).column) l' := by
  have hrest := rest_skip hl
  obtain ⟨l', hrun⟩ := nextToken_fault (l := l.skip space) (hrest ▸ hfault)
  obtain ⟨c, cs, rfl, hc⟩ := hfault.exists_head
  have hstops : Stops isSpace (c :: cs) := by
    rintro _ ⟨⟩
    exact hc
  refine ⟨l', ?_⟩
  rw [tokensFrom, Prog.bind_ok (skipWhitespace_run hspace hstops hl),
    Prog.bind_ok (isAtEnd_of_cons hrest)]
  exact Prog.bind_error hrun

/-- `Tokenize` has the fuel for all lexemes of a text. -/
theorem length_le_source (h : Cuts source pieces tail) : pieces.length ≤ source.length := by
  induction h with
  | nil => exact Nat.zero_le _
  | cons hspace hw h ih =>
    obtain ⟨c, cs, rfl, -⟩ := hw.longest.1.exists_head
    simp only [List.length_cons, List.length_append]
    omega

/-- The loop of `Tokenize` reads the pieces first. -/
theorem loop_cuts (h : Cuts source pieces tail) (hfits : Fits pieces) : ∃ ts fuel,
    Tokens [] pieces ts ∧ tokensFrom (source.length + 1) [] (new source)
      = tokensFrom (fuel + 1) ts ((new source).skip (Munch.read pieces)) ∧
    ((new source).skip (Munch.read pieces)).rest = tail := by
  obtain ⟨ts, hts, hloop⟩ := @tokensFrom_cuts _ _ source [] _ h hfits rfl
  obtain ⟨fuel, hfuel⟩ := Nat.exists_eq_add_of_le (length_le_source h)
  refine ⟨ts, fuel, hts, ?_, rest_skip h.text_eq⟩
  rw [show source.length + 1 = fuel + 1 + pieces.length by omega]
  exact hloop (fuel + 1) []

theorem tokenize_error {e : Exn} {l' : Lexer}
    (h : tokensFrom (source.length + 1) [] (new source) = .error e l') :
    tokenize (new source) = .error e l' := by
  have hstart : (get : Prog Lexer Lexer) (new source) = .ok (new source) (new source) := rfl
  exact (Prog.bind_ok hstart).trans (Prog.bind_error h)

/-- The token at the end of a text. -/
def endToken (source : Bytes) : Token :=
  ⟨.endOfInput, [], 0, [], lineAfter source, columnAfter source⟩

/-- **`Tokenize` over the pieces of a text**: one token each, and one for the end. -/
theorem tokenize_of_cuts {space : Bytes} (h : Cuts source pieces space) (hfits : Fits pieces)
    (hspace : ∀ c ∈ space, isSpace c = true) : ∃ ts l', Tokens [] pieces ts ∧
      tokenize (new source) = .ok (ts ++ [endToken source]) l' := by
  obtain ⟨ts, fuel, hts, hloop, hrest⟩ := loop_cuts h hfits
  rw [tokensFrom_end hspace hrest, ← skip_append, ← h.text_eq] at hloop
  obtain ⟨hline, hcolumn⟩ := new_skip source source
  refine ⟨ts, (new source).skip source, hts, ?_⟩
  rw [endToken, ← hline, ← hcolumn]
  have hstart : (get : Prog Lexer Lexer) (new source) = .ok (new source) (new source) := rfl
  exact (Prog.bind_ok hstart).trans (Prog.bind_ok hloop)

/-- **`Tokenize` throws at the first fault of a text**, with the place of its first byte. -/
theorem tokenize_of_fault {space rest msg : Bytes} (h : Cuts source pieces (space ++ rest))
    (hfits : Fits pieces) (hspace : ∀ c ∈ space, isSpace c = true) (hfault : Fault rest msg) :
    ∃ l', tokenize (new source) = .error (.lexErrorAt msg (lineAfter (Munch.read pieces ++ space))
      (columnAfter (Munch.read pieces ++ space))) l' := by
  obtain ⟨ts, fuel, -, hloop, hrest⟩ := loop_cuts h hfits
  obtain ⟨l', hend⟩ := tokensFrom_fault hspace hfault hrest fuel ts
  obtain ⟨hline, hcolumn⟩ := new_skip source (Munch.read pieces ++ space)
  rw [hend, ← skip_append, hline, hcolumn] at hloop
  exact ⟨l', tokenize_error hloop⟩

theorem tokenize_of_tooLarge (h : Cuts source pieces tail) (hfits : ¬ Fits pieces) :
    ∃ l', tokenize (new source) = .error (.outOfRange (text "stoll")) l' := by
  obtain ⟨fuel, hfuel⟩ := Nat.exists_eq_add_of_le (length_le_source h)
  obtain ⟨l', hrun⟩ := tokensFrom_tooLarge h hfits (l := new source) rfl (fuel + 1) []
  refine ⟨l', tokenize_error ?_⟩
  rw [show source.length + 1 = fuel + 1 + pieces.length by omega]
  exact hrun

/-! ## What comes of a text -/

/-- **Tokens and where they are.** What `Tokenize` returns are the tokens of the lexemes the text is cut
into, each with the place of its first byte, and the token for the end; and the text is cut in no
other way. -/
theorem tokenize_cuts {ts : List Token} {l' : Lexer} (h : tokenize (new source) = .ok ts l') :
    ∃ pieces space ts', Cuts source pieces space ∧ (∀ c ∈ space, isSpace c = true) ∧
      Tokens [] pieces ts' ∧ ts = ts' ++ [endToken source] ∧
      ∀ pieces' space', Cuts source pieces' space' → (∀ c ∈ space', isSpace c = true) →
        pieces' = pieces ∧ space' = space := by
  obtain ⟨pieces, space, rest, hcuts, hspace, hend⟩ := exists_cuts source
  by_cases hfits : Fits pieces
  · rcases hend with rfl | ⟨msg, hfault⟩
    · rw [List.append_nil] at hcuts
      obtain ⟨ts', l'', hts', hrun⟩ := tokenize_of_cuts hcuts hfits hspace
      rw [hrun] at h
      cases h
      exact ⟨pieces, space, ts', hcuts, hspace, hts', rfl, fun pieces' space' h' hspace' =>
        cuts_unique h' hspace' hcuts hspace⟩
    · obtain ⟨l'', hrun⟩ := tokenize_of_fault hcuts hfits hspace hfault
      rw [hrun] at h
      cases h
  · obtain ⟨l'', hrun⟩ := tokenize_of_tooLarge hcuts hfits
    rw [hrun] at h
    cases h

/-- `Tokenize` comes to tokens with one end, at the end, whose numbers are what their digits spell; or to
a `LexError` with the place of a token that is none: a fault, or a number too large for its token. -/
def FailsAsDocumented (source : Bytes) : Prop :=
  match tokenize (new source) with
  | .ok ts _ => ∃ ts' t, ts = ts' ++ [t] ∧ t.type = .endOfInput ∧
      (∀ t ∈ ts', t.type ≠ .endOfInput) ∧
      ∀ t ∈ ts, t.type = .integerLiteral → t.intValue.toInt = digitsValue t.text
  | .error e _ => ∃ pieces space rest msg, Cuts source pieces (space ++ rest) ∧
      (∀ c ∈ space, isSpace c = true) ∧
      (Fault rest msg ∨ ∃ w tail, rest = w ++ tail ∧ LexemeAt w tail ∧ IsNumber w ∧
        2 ^ 63 ≤ digitsValue w) ∧
      e = .lexErrorAt msg (lineAfter (Munch.read pieces ++ space))
        (columnAfter (Munch.read pieces ++ space))

theorem not_failsAsDocumented {what : Bytes} {l' : Lexer}
    (h : tokenize (new source) = .error (.outOfRange what) l') : ¬ FailsAsDocumented source := by
  rw [FailsAsDocumented, h]
  rintro ⟨_, _, _, _, -, -, -, heq⟩
  cases heq

/-- **The lexer fails as documented** on exactly the texts none of whose lexemes is a number that spells
`2 ^ 63` or more. -/
theorem fails_as_documented_iff (source : Bytes) :
    FailsAsDocumented source ↔ ∀ pieces tail, Cuts source pieces tail → Fits pieces := by
  constructor
  · intro h pieces tail hcuts
    by_contra hfits
    obtain ⟨l', hrun⟩ := tokenize_of_tooLarge hcuts hfits
    exact not_failsAsDocumented hrun h
  · intro h
    obtain ⟨pieces, space, rest, hcuts, hspace, hend⟩ := exists_cuts source
    have hfits := h _ _ hcuts
    rw [FailsAsDocumented]
    rcases hend with rfl | ⟨msg, hfault⟩
    · rw [List.append_nil] at hcuts
      obtain ⟨ts', l', hts', hrun⟩ := tokenize_of_cuts hcuts hfits hspace
      rw [hrun]
      refine ⟨ts', endToken source, rfl, rfl, fun t ht => (hts'.spec t ht).1, fun t ht => ?_⟩
      rcases List.mem_append.mp ht with ht | ht
      · exact (hts'.spec t ht).2
      · obtain rfl := List.mem_singleton.mp ht
        nofun
    · obtain ⟨l', hrun⟩ := tokenize_of_fault hcuts hfits hspace hfault
      rw [hrun]
      exact ⟨pieces, space, rest, msg, hcuts, hspace, .inl hfault, rfl⟩

theorem tokenize_tooLarge : ∃ l', tokenize (new (text "9223372036854775808"))
    = .error (.outOfRange (text "stoll")) l' := by
  have hthrows : Prog.Throws (fun e _ => decide (e = .outOfRange (text "stoll")))
      (tokenize (new (text "9223372036854775808"))) = true := by decide +kernel
  obtain ⟨e, l', hrun⟩ := Prog.Throws.error hthrows
  have he : e = _ := of_decide_eq_true hrun.2
  rw [he] at hrun
  exact ⟨l', hrun.1⟩

/-- A number of one more than `INT64_MAX` is no `LexError`. -/
theorem not_failsAsDocumented_stoll : ¬ ∀ source, FailsAsDocumented source := by
  intro h
  -- the text stays a variable, so that nothing evaluates the lexer over it again
  obtain ⟨source, hsource⟩ : ∃ source, source = text "9223372036854775808" := ⟨_, rfl⟩
  obtain ⟨l', hrun⟩ := tokenize_tooLarge
  rw [← hsource] at hrun
  exact not_failsAsDocumented hrun (h source)

/-- A text of two lines, with a string of two lines. -/
theorem tokenize_cuts_lines : ∃ pieces space ts, Cuts (text "SELECT\n 'a\n''b' x1") pieces space ∧
    (∀ c ∈ space, isSpace c = true) ∧ Tokens [] pieces ts ∧
    ts.map (fun t => (t.line, t.column)) = [(1, 1), (2, 2), (3, 6)] := by
  have hreturns : Prog.Returns (fun ts _ => decide (ts.map (fun t => (t.line, t.column))
      = [(1, 1), (2, 2), (3, 6), (3, 8)]))
      (tokenize (new (text "SELECT\n 'a\n''b' x1"))) = true := by decide +kernel
  obtain ⟨ts, l', hrun, hplaces⟩ := Prog.Returns.ok hreturns
  obtain ⟨pieces, space, ts', hcuts, hspace, hts, rfl, -⟩ := tokenize_cuts hrun
  refine ⟨pieces, space, ts', hcuts, hspace, hts, ?_⟩
  have hplaces := of_decide_eq_true hplaces
  rw [List.map_append] at hplaces
  have hplaces : ts'.map (fun t => (t.line, t.column)) ++ _ = [(1, 1), (2, 2), (3, 6)] ++ [(3, 8)] :=
    hplaces
  exact (List.append_inj' hplaces rfl).1

end Reldb.Lexer
