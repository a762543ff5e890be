import Mathlib.Data.List.Forall2
import Reldb.Sql.Tokenize

/-!
# Reldb — what the lexer reads

A `Lexeme` is what a token means to the parser; `Spelled x w` says that the bytes `w` spell it. A
text of spellings with single spaces between them lexes to tokens that denote the lexemes, in
order (`tokenize_spelled`).
-/

namespace Reldb

/-! ## Lexemes -/

inductive Lexeme where
  | keyword (type : TokenType)
  | ident (name : Bytes)
  | integer (value : Int64)
  | string (value : Bytes)
  | symbol (type : TokenType)
  deriving DecidableEq, Repr

/-- A letter or underscore, then letters, digits and underscores; and no keyword in any case. -/
def IsIdentifier : Bytes → Prop
  | [] => False
  | c :: cs => (isAlpha c || c == byte '_') = true ∧
      (∀ d ∈ c :: cs, (isAlnum d || d == byte '_') = true) ∧
      toUpper (c :: cs) ∉ keywordTable.map Prod.fst

inductive Spelled : Lexeme → Bytes → Prop
  | keyword {w : Bytes} {type : TokenType} (h : (toUpper w, type) ∈ keywordTable) :
      Spelled (.keyword type) w
  | ident {name : Bytes} (h : IsIdentifier name) : Spelled (.ident name) name
  | integer {value : Int64} (h : 0 ≤ value) :
      Spelled (.integer value) (decimal value.toNatClampNeg)
  | string {value : Bytes} :
      Spelled (.string value) (byte '\'' :: escape value ++ [byte '\''])
  | symbol {w : Bytes} {type : TokenType} (h : (w, type) ∈ symbolTable) :
      Spelled (.symbol type) w

/-- The token stands for the lexeme, wherever it was read. -/
def Denotes : Lexeme → Token → Prop
  | .keyword type, t => t.type = type
  | .ident name, t => t.type = .identifier ∧ t.text = name
  | .integer value, t => t.type = .integerLiteral ∧ t.intValue = value
  | .string value, t => t.type = .stringLiteral ∧ t.stringValue = value
  | .symbol type, t => t.type = type

/-! ## Numbers -/

theorem text_append (s t : String) : text (s ++ t) = text s ++ text t := by
  show (s ++ t).toByteArray.data.toList = _
  rw [String.toByteArray_append, ByteArray.data_append, Array.toList_append]
  rfl

theorem decimal_of_lt : ∀ {n : Nat}, n < 10 → decimal n = [48 + n.toUInt8] := by
  decide

theorem decimal_of_ge {n : Nat} (h : 10 ≤ n) :
    decimal n = decimal (n / 10) ++ [48 + (n % 10).toUInt8] := by
  rw [← decimal_of_lt (Nat.mod_lt n (by omega)), decimal, Nat.toString_eq_repr,
    Nat.repr_eq_repr_append_repr h, text_append]
  rfl

theorem digit_spec : ∀ {n : Nat}, n < 10 →
    isDigit (48 + n.toUInt8) = true ∧ (48 + n.toUInt8).toNat - 48 = n := by
  decide

/-- `std::to_string` spells a number with digits, and `digitsValue` reads it back. -/
theorem decimal_spec (n : Nat) : decimal n ≠ [] ∧ (∀ c ∈ decimal n, isDigit c = true) ∧
    digitsValue (decimal n) = n := by
  induction n using Nat.strongRecOn with
  | ind n ih =>
    by_cases h : n < 10
    · obtain ⟨hdigit, hvalue⟩ := digit_spec h
      rw [decimal_of_lt h]
      refine ⟨List.cons_ne_nil _ _, fun c hc => ?_, ?_⟩
      · rw [List.mem_singleton.mp hc]
        exact hdigit
      · simp only [digitsValue, List.foldl_cons, List.foldl_nil, hvalue]
        omega
    · obtain ⟨-, hdigits, hvalue⟩ := ih (n / 10) (by omega)
      obtain ⟨hdigit, hlast⟩ := digit_spec (Nat.mod_lt n (show 0 < 10 by omega))
      rw [decimal_of_ge (by omega)]
      refine ⟨List.append_ne_nil_of_right_ne_nil _ (List.cons_ne_nil _ _), fun c hc => ?_, ?_⟩
      · rcases List.mem_append.mp hc with hc | hc
        · exact hdigits c hc
        · rw [List.mem_singleton.mp hc]
          exact hdigit
      · rw [digitsValue, List.foldl_append, ← digitsValue, hvalue]
        simp only [List.foldl_cons, List.foldl_nil, hlast]
        omega

namespace Lexer

variable {l : Lexer} {c d : UInt8} {bs tail : Bytes}

/-! ## One token -/

/-- A spelling is followed by a space or by nothing. -/
def Delimited (tail : Bytes) : Prop := tail = [] ∨ ∃ bs, tail = 32 :: bs

theorem Delimited.stops {test : UInt8 → Bool} (h : Delimited tail) (htest : test 32 = false) :
    Stops test tail := by
  rintro c hc
  rcases h with rfl | ⟨bs, rfl⟩
  · cases hc
  · cases hc
    exact htest

/-- The names in `keywordTable` are different, and capital letters. -/
theorem keywordTable_spec : ∀ p ∈ keywordTable, keywordTable.lookup p.1 = some p.2 ∧ p.1 ≠ [] ∧
    ∀ c ∈ p.1, 65 ≤ c ∧ c ≤ 90 := by
  decide +kernel

theorem isAlpha_of_upper : ∀ c : UInt8,
    65 ≤ (if 97 ≤ c ∧ c ≤ 122 then c - 32 else c) ∧ (if 97 ≤ c ∧ c ≤ 122 then c - 32 else c) ≤ 90 →
      isAlpha c = true := by
  intro c h
  simp only [isAlpha, Bool.or_eq_true, Bool.and_eq_true, decide_eq_true_eq]
  split at h
  · next hc => exact .inr hc
  · exact .inl h

/-- The letters of a keyword, in any mix of letter case. -/
theorem isAlpha_of_keyword {type : TokenType} (h : (toUpper bs, type) ∈ keywordTable) :
    bs ≠ [] ∧ ∀ c ∈ bs, isAlpha c = true := by
  obtain ⟨-, hne, hletters⟩ := keywordTable_spec _ h
  refine ⟨fun hnil => hne (by rw [hnil]; rfl), fun c hc => isAlpha_of_upper c ?_⟩
  exact hletters _ (List.mem_map_of_mem hc)

theorem lookup_eq_none_of_notMem {key : Bytes} {table : List (Bytes × TokenType)}
    (h : key ∉ table.map Prod.fst) : table.lookup key = none := by
  rw [List.lookup_eq_none_iff]
  rintro ⟨name, type⟩ hmem
  rw [bne_iff_ne]
  rintro rfl
  exact h (List.mem_map_of_mem hmem)

theorem isWordStart_of_isAlpha (h : isAlpha c = true) : isWordStart c = true := by
  rw [isWordStart, h, Bool.true_or]

theorem le_of_isWordByte (h : isWordByte c = true) : 33 ≤ c.toNat := by
  rw [isWordByte, isAlnum, Bool.or_eq_true, Bool.or_eq_true] at h
  rcases h with (h | h) | h
  · exact le_of_isWordStart (isWordStart_of_isAlpha h)
  · exact le_of_isDigit h
  · exact le_of_isWordStart (by rw [isWordStart, h, Bool.or_true])

/-- Only strings hold spaces. -/
theorem IsLexeme.no_space {w : Bytes} (h : IsLexeme w) (hquote : byte '\'' ∉ w.head?) :
    ∀ d ∈ w, 33 ≤ d.toNat := by
  cases h with
  | word h => exact fun d hd => le_of_isWordByte (h.2 d hd)
  | number h => exact fun d hd => le_of_isDigit (h.2 d hd)
  | string value => exact absurd rfl hquote
  | symbol h =>
    have htable : ∀ p ∈ symbolTable, ∀ d ∈ p.1, 33 ≤ d.toNat := by decide +kernel
    exact htable _ h

/-- A space ends every lexeme but a string. -/
theorem lexemeAt_delimited {w : Bytes} (h : IsLexeme w) (hquote : byte '\'' ∉ w.head?)
    (htail : Delimited tail) : LexemeAt w tail := by
  obtain ⟨c, cs, rfl, -⟩ := h.exists_head
  refine ⟨@longest_of_stops _ _ (fun d => decide (33 ≤ d.toNat)) _ h (fun w' hw' d hd => ?_)
    (htail.stops rfl), fun heq => absurd heq hquote⟩
  exact decide_eq_true (IsLexeme.no_space hw' hquote d hd)

theorem Delimited.not_quote (h : Delimited tail) : byte '\'' ∉ tail.head? := by
  rcases h with rfl | ⟨bs, rfl⟩
  · exact nofun
  · intro heq
    exact absurd (Option.some.inj heq) (by decide)

/-- What `nextToken` reads off a spelling: a token that denotes the lexeme. -/
def ReadsToken (p : Prog Lexer Token) (bs : Bytes) (x : Lexeme) (tail : Bytes) : Prop :=
  ∀ l : Lexer, l.rest = bs ++ tail → ∃ t l', p l = .ok t l' ∧ l'.rest = tail ∧ Denotes x t

theorem nextToken_word {x : Lexeme} {type : TokenType} (hword : IsWord bs)
    (htype : (keywordTable.lookup (toUpper bs)).getD .identifier = type)
    (hx : ∀ t : Token, t.type = type → t.text = bs → Denotes x t) (htail : Delimited tail) :
    ReadsToken nextToken bs x tail := by
  intro l hl
  obtain ⟨⟨c, hc, hstart⟩, -⟩ := id hword
  obtain ⟨cs, rfl⟩ : ∃ cs, bs = c :: cs := ⟨bs.tail, (List.cons_head?_tail hc).symm⟩
  have hquote : byte '\'' ∉ (c :: cs).head? := by
    rintro ⟨⟩
    exact absurd hstart (by decide)
  have hrun := lexIdentifierOrKeyword_run hword (lexemeAt_delimited (.word hword) hquote htail) hl
  have hnext : nextToken l = lexIdentifierOrKeyword l := by
    rw [nextToken_run (c := c) hl, if_pos (show (isAlpha c || c == byte '_') = true from hstart)]
  exact ⟨_, _, hnext.trans hrun, rest_skip hl, hx _ htype rfl⟩

/-- **The lexer reads a spelling** that a space or the end of the text follows. -/
theorem nextToken_reads {x : Lexeme} (h : Spelled x bs) (htail : Delimited tail) :
    ReadsToken nextToken bs x tail := by
  cases h with
  | @keyword _ type hkeyword =>
    obtain ⟨hne, hletters⟩ := isAlpha_of_keyword hkeyword
    obtain ⟨c, cs, rfl⟩ := List.exists_cons_of_ne_nil hne
    have hstart : ∀ d ∈ c :: cs, isWordStart d = true := fun d hd =>
      isWordStart_of_isAlpha (hletters d hd)
    have htype : (keywordTable.lookup (toUpper (c :: cs))).getD .identifier = type := by
      rw [(keywordTable_spec _ hkeyword).1]
      rfl
    exact nextToken_word (x := .keyword type) ⟨⟨c, rfl, hstart c List.mem_cons_self⟩,
      fun d hd => isWordByte_of_isWordStart (hstart d hd)⟩ htype (fun t ht _ => ht) htail
  | ident hident =>
    cases bs with
    | nil => exact hident.elim
    | cons c cs =>
      obtain ⟨hc, hword, hnone⟩ := hident
      have htype : (keywordTable.lookup (toUpper (c :: cs))).getD .identifier = .identifier := by
        rw [lookup_eq_none_of_notMem hnone]
        rfl
      exact nextToken_word (x := .ident (c :: cs)) ⟨⟨c, rfl, hc⟩, hword⟩ htype
        (fun t ht hname => ⟨ht, hname⟩) htail
  | @integer value hvalue =>
    intro l hl
    obtain ⟨hne, hdigits, heq⟩ := decimal_spec value.toNatClampNeg
    have hnumber : IsNumber (decimal value.toNatClampNeg) := ⟨hne, hdigits⟩
    have hquote : byte '\'' ∉ (decimal value.toNatClampNeg).head? := fun hmem =>
      absurd (hdigits _ (List.mem_of_mem_head? hmem)) (by decide)
    have hw := lexemeAt_delimited (.number hnumber) hquote htail
    have hlt : ¬ 2 ^ 63 ≤ value.toNatClampNeg := Nat.not_le.mpr value.toNatClampNeg_lt
    have hrun := lexNumber_run hnumber hw hl
    rw [heq, if_neg hlt] at hrun
    exact ⟨_, _, (nextToken_number hnumber hw hl).trans hrun, rest_skip hl, rfl,
      Int64.ofNat_toNatClampNeg value hvalue⟩
  | @string value =>
    intro l hl
    have hrun := @lexString_run _ _ value htail.not_quote hl
    have hnext : nextToken l = lexString l := nextToken_run (c := byte '\'') hl
    exact ⟨_, _, hnext.trans hrun, rest_skip hl, rfl, rfl⟩
  | symbol hsymbol =>
    intro l hl
    obtain ⟨-, c, hc, -, -, hne, -⟩ := symbolTable_spec _ hsymbol
    have hquote : byte '\'' ∉ bs.head? := fun heq => hne (Option.some.inj (hc.symm.trans heq))
    exact ⟨_, _, nextToken_symbol hsymbol (lexemeAt_delimited (.symbol hsymbol) hquote htail) hl,
      rest_skip hl, rfl⟩

/-! ## A whole text -/

theorem spelled_head {x : Lexeme} (h : Spelled x bs) : ∃ c cs, bs = c :: cs ∧ isSpace c = false := by
  suffices hlexeme : IsLexeme bs by
    obtain ⟨c, cs, rfl, hc⟩ := hlexeme.exists_head
    exact ⟨c, cs, rfl, isSpace_eq_false hc⟩
  cases h with
  | keyword hkeyword =>
    obtain ⟨hne, hletters⟩ := isAlpha_of_keyword hkeyword
    obtain ⟨c, cs, rfl⟩ := List.exists_cons_of_ne_nil hne
    exact .word ⟨⟨c, rfl, isWordStart_of_isAlpha (hletters c List.mem_cons_self)⟩, fun d hd =>
      isWordByte_of_isWordStart (isWordStart_of_isAlpha (hletters d hd))⟩
  | ident hident =>
    cases bs with
    | nil => exact hident.elim
    | cons c cs => exact .word ⟨⟨c, rfl, hident.1⟩, hident.2.1⟩
  | @integer value _ =>
    obtain ⟨hne, hdigits, -⟩ := decimal_spec value.toNatClampNeg
    exact .number ⟨hne, hdigits⟩
  | @string value => exact .string value
  | symbol hsymbol => exact .symbol hsymbol

/-- The spellings, a space before each. -/
def spaced (words : List Bytes) : Bytes := words.flatMap fun w => 32 :: w

/-- The loop of `Tokenize`, over spellings with a space before each; before the first one there may
be none. -/
theorem tokensFrom_run {xs : List Lexeme} {words : List Bytes} (h : List.Forall₂ Spelled xs words)
    {fuel : Nat} (hfuel : words.length < fuel) (tokens : List Token)
    (hl : l.rest = spaced words ∨ l.rest = (spaced words).tail) : ∃ ts l',
      tokensFrom fuel tokens l = .ok (tokens ++ ts) l' ∧ List.Forall₂ Denotes xs ts := by
  induction h generalizing fuel tokens l with
  | nil =>
    obtain ⟨fuel, rfl⟩ := Nat.exists_eq_succ_of_ne_zero (Nat.ne_of_gt hfuel)
    have hrest : l.rest = [] ++ [] := by
      rcases hl with hl | hl <;> exact hl
    have hstop : Stops isSpace [] := fun c hc => by cases hc
    refine ⟨[], l, ?_, .nil⟩
    rw [@tokensFrom_end _ [] (fun c hc => absurd hc List.not_mem_nil) hrest, List.append_nil]
    rfl
  | @cons x w xs words hx hxs ih =>
    obtain ⟨fuel, rfl⟩ := Nat.exists_eq_succ_of_ne_zero (Nat.ne_of_gt (Nat.zero_lt_of_lt hfuel))
    obtain ⟨c, cs, rfl, hc⟩ := spelled_head hx
    have hdelimited : Delimited (spaced words) := by
      cases words with
      | nil => exact .inl rfl
      | cons w words => exact .inr ⟨_, rfl⟩
    have hstop : Stops isSpace (c :: cs ++ spaced words) := by
      rintro _ ⟨⟩
      exact hc
    obtain ⟨space, hspace, hrest⟩ : ∃ space : Bytes, (∀ d ∈ space, isSpace d = true) ∧
        l.rest = space ++ (c :: cs ++ spaced words) := by
      rcases hl with hl | hl
      · exact ⟨[32], by decide +kernel, hl⟩
      · exact ⟨[], nofun, hl⟩
    have hrest₁ := rest_skip hrest
    obtain ⟨t, l₂, htoken, hrest₂, ht⟩ := nextToken_reads hx hdelimited _ hrest₁
    obtain ⟨ts, l₃, hrun, hts⟩ := ih (Nat.lt_of_succ_lt_succ hfuel) (tokens ++ [t]) (.inl hrest₂)
    refine ⟨t :: ts, l₃, ?_, .cons ht hts⟩
    rw [List.append_assoc, List.singleton_append] at hrun
    rw [tokensFrom, Prog.bind_ok (skipWhitespace_run hspace hstop hrest),
      Prog.bind_ok (isAtEnd_of_cons hrest₁)]
    exact (Prog.bind_ok htoken).trans hrun

theorem intercalate_eq (words : List Bytes) : List.intercalate [32] words = (spaced words).tail := by
  cases words with
  | nil => rfl
  | cons w words =>
    show List.intercalate [32] (w :: words) = w ++ spaced words
    induction words generalizing w with
    | nil => simp [spaced]
    | cons w' words ih =>
      rw [List.intercalate_cons_cons, ih, List.append_assoc]
      rfl

theorem length_le_spaced {xs : List Lexeme} {words : List Bytes}
    (h : List.Forall₂ Spelled xs words) : 2 * words.length ≤ (spaced words).length := by
  induction h with
  | nil => exact Nat.le_refl 0
  | @cons x w xs words hx _ ih =>
    obtain ⟨c, cs, rfl, -⟩ := spelled_head hx
    have : spaced ((c :: cs) :: words) = 32 :: c :: cs ++ spaced words := rfl
    simp only [this, List.length_append, List.length_cons]
    omega

/-- **A text of spellings with single spaces between them lexes to what they spell.** -/
theorem tokenize_spelled {xs : List Lexeme} {words : List Bytes}
    (h : List.Forall₂ Spelled xs words) : ∃ ts t l,
      tokenize (new (List.intercalate [32] words)) = .ok (ts ++ [t]) l ∧
        List.Forall₂ Denotes xs ts ∧ t.type = .endOfInput := by
  rw [intercalate_eq]
  generalize hl : new (spaced words).tail = l
  have hrest : l.rest = (spaced words).tail := by
    rw [← hl]
    rfl
  have hsource : l.source = (spaced words).tail := by
    rw [← hl]
    rfl
  have hlen := length_le_spaced h
  have hfuel : words.length < l.source.length + 1 := by
    rw [hsource, List.length_tail]
    omega
  obtain ⟨ts, l', hrun, hts⟩ := tokensFrom_run h hfuel [] (.inr hrest)
  refine ⟨ts, ⟨.endOfInput, [], 0, [], l'.line, l'.column⟩, l', ?_, hts, rfl⟩
  unfold tokenize
  rw [Prog.bind_ok (rfl : (get : Prog Lexer Lexer) l = .ok l l), Prog.bind_ok hrun]
  rfl

end Lexer

end Reldb
