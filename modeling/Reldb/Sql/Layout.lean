import Reldb.Sql.Lockstep
import Reldb.Sql.Lexing

/-!
# Reldb — layout

What `ParseSQL` makes of a text depends on its lexemes alone, not on the white space between them and
not on the letter case of its keywords: texts of the same lexemes are parsed to the same statement, or
to errors at the same lexeme.
-/

namespace Reldb

/-! ## Texts of the same lexemes -/

/-- The same bytes, or one keyword in two mixes of letter case. -/
def SameWord (w w' : Bytes) : Prop :=
  w = w' ∨ toUpper w = toUpper w' ∧ toUpper w ∈ keywordTable.map Prod.fst

theorem SameWord.symm {w w' : Bytes} (h : SameWord w w') : SameWord w' w :=
  h.imp Eq.symm fun ⟨hupper, hmem⟩ => ⟨hupper.symm, hupper ▸ hmem⟩

/-- The two texts are white space and lexemes to their ends, and the lexemes are the same. -/
def SameLexemes (sql sql' : Bytes) : Prop :=
  ∃ pieces space pieces' space', Cuts sql pieces space ∧ (∀ c ∈ space, isSpace c = true) ∧
    Cuts sql' pieces' space' ∧ (∀ c ∈ space', isSpace c = true) ∧
    List.Forall₂ (fun p p' => SameWord p.2 p'.2) pieces pieces'

theorem Token.Alike.symm {t u : Token} (h : t.Alike u) : u.Alike t :=
  ⟨h.type.symm, fun hu => (h.name (h.type.trans hu)).symm, h.intValue.symm, h.stringValue.symm⟩

theorem Token.Alike.trans {t u v : Token} (h : t.Alike u) (h' : u.Alike v) : t.Alike v :=
  ⟨h.type.trans h'.type, fun ht => (h.name ht).trans (h'.name (h.type.symm.trans ht)),
    h.intValue.trans h'.intValue, h.stringValue.trans h'.stringValue⟩

namespace Lexer

variable {line column line' column' : Nat} {w w' : Bytes} {t t' : Token}

/-- The lexer reads a lexeme's token off a text of nothing else. -/
theorem nextToken_of_tokenAt (h : TokenAt line column w t) :
    ∃ t₀ l, nextToken (new w) = .ok t₀ l ∧ t₀.Alike t := by
  have hrest : (new w).rest = w ++ [] := (List.append_nil w).symm
  have hnil : byte '\'' ∉ ([] : Bytes).head? := nofun
  have hlexeme : IsLexeme w → byte '\'' ∉ w.head? → LexemeAt w [] := fun hw hquote =>
    lexemeAt_delimited hw hquote (.inl rfl)
  cases h with
  | word hword =>
    obtain ⟨⟨c, hc, hstart⟩, -⟩ := id hword
    obtain ⟨cs, rfl⟩ : ∃ cs, w = c :: cs := ⟨w.tail, (List.cons_head?_tail hc).symm⟩
    have hquote : byte '\'' ∉ (c :: cs).head? := by
      rintro ⟨⟩
      exact absurd hstart (by decide)
    have hrun := lexIdentifierOrKeyword_run hword (hlexeme (.word hword) hquote) hrest
    have hnext : nextToken (new (c :: cs)) = lexIdentifierOrKeyword (new (c :: cs)) := by
      rw [nextToken_run (c := c) hrest,
        if_pos (show (isAlpha c || c == byte '_') = true from hstart)]
    exact ⟨_, _, hnext.trans hrun, ⟨rfl, fun _ => rfl, rfl, rfl⟩⟩
  | @number _ hnumber value hvalue =>
    have hquote : byte '\'' ∉ w.head? := fun hmem =>
      absurd (hnumber.2 _ (List.mem_of_mem_head? hmem)) (by decide)
    have hw := hlexeme (.number hnumber) hquote
    have hlt : digitsValue w < 2 ^ 63 := by
      have hmax := Int64.toInt_lt value
      omega
    have hrun := lexNumber_run hnumber hw hrest
    rw [if_neg (Nat.not_le.mpr hlt)] at hrun
    refine ⟨_, _, (nextToken_number hnumber hw hrest).trans hrun, ⟨rfl, nofun, ?_, rfl⟩⟩
    rw [← Int64.toInt_inj, hvalue]
    exact Int64.toInt_ofNat_of_lt hlt
  | string value =>
    have hrun := lexString_run hnil hrest
    exact ⟨_, _, (nextToken_run (c := byte '\'') hrest).trans hrun, ⟨rfl, fun _ => rfl, rfl, rfl⟩⟩
  | symbol hsymbol =>
    obtain ⟨-, c, hc, -, -, hne, -⟩ := symbolTable_spec _ hsymbol
    have hquote : byte '\'' ∉ w.head? := fun heq => hne (Option.some.inj (hc.symm.trans heq))
    exact ⟨_, _, nextToken_symbol hsymbol (hlexeme (.symbol hsymbol) hquote) hrest,
      ⟨rfl, fun _ => rfl, rfl, rfl⟩⟩

/-- A lexeme stands for one token, wherever it is. -/
theorem tokenAt_alike (h : TokenAt line column w t) (h' : TokenAt line' column' w t') :
    t.Alike t' := by
  obtain ⟨t₀, l, hrun, ht⟩ := nextToken_of_tokenAt h
  obtain ⟨t₁, l', hrun', ht'⟩ := nextToken_of_tokenAt h'
  rw [hrun] at hrun'
  cases hrun'
  exact ht.symm.trans ht'

theorem isWord_of_keyword (h : toUpper w ∈ keywordTable.map Prod.fst) : IsWord w := by
  obtain ⟨⟨name, type⟩, hmem, hname⟩ := List.mem_map.mp h
  obtain ⟨hne, hletters⟩ := @isAlpha_of_keyword w type (hname ▸ hmem)
  obtain ⟨c, cs, rfl⟩ := List.exists_cons_of_ne_nil hne
  have hstart : ∀ d ∈ c :: cs, isWordStart d = true := fun d hd =>
    isWordStart_of_isAlpha (hletters d hd)
  exact ⟨⟨c, rfl, hstart c List.mem_cons_self⟩, fun d hd => isWordByte_of_isWordStart (hstart d hd)⟩

/-- The same lexeme in two places, and two spellings of one keyword. -/
theorem tokenAt_sameWord (h : TokenAt line column w t) (h' : TokenAt line' column' w' t')
    (hw : SameWord w w') : t.Alike t' := by
  rcases hw with rfl | ⟨hupper, hmem⟩
  · exact tokenAt_alike h h'
  · have hword : TokenAt 0 0 w _ := .word (isWord_of_keyword hmem)
    have hword' : TokenAt 0 0 w' _ := .word (isWord_of_keyword (hupper ▸ hmem))
    obtain ⟨⟨name, type⟩, hp, hname⟩ := List.mem_map.mp hmem
    have hnot : ∀ p ∈ keywordTable, p.2 ≠ .identifier := by decide +kernel
    have hlookup : keywordTable.lookup (toUpper w) = some type := by
      rw [← hname]
      exact (keywordTable_spec _ hp).1
    have hsame : Token.Alike ⟨(keywordTable.lookup (toUpper w)).getD .identifier, w, 0, [], 0, 0⟩
        ⟨(keywordTable.lookup (toUpper w')).getD .identifier, w', 0, [], 0, 0⟩ := by
      rw [← hupper, hlookup]
      exact ⟨rfl, fun htype => absurd htype (hnot _ hp), rfl, rfl⟩
    exact ((tokenAt_alike h hword).trans hsame).trans (tokenAt_alike hword' h')

theorem tokens_alike {before before' : Bytes} {pieces pieces' : List (Bytes × Bytes)}
    {ts ts' : List Token} (h : Tokens before pieces ts) (h' : Tokens before' pieces' ts')
    (hw : List.Forall₂ (fun p p' => SameWord p.2 p'.2) pieces pieces') :
    List.Forall₂ Token.Alike ts ts' := by
  induction hw generalizing before before' ts ts' with
  | nil =>
    cases h
    cases h'
    exact .nil
  | cons hp _ ih =>
    cases h with
    | cons ht hts =>
      cases h' with
      | cons ht' hts' => exact .cons (tokenAt_sameWord ht ht' hp) (ih hts hts')

/-- Numbers are spelled in one way. -/
theorem fits_of_sameWord {pieces pieces' : List (Bytes × Bytes)}
    (hw : List.Forall₂ (fun p p' => SameWord p.2 p'.2) pieces pieces') (h : Fits pieces) :
    Fits pieces' := by
  induction hw with
  | nil => exact h
  | @cons p p' pieces pieces' hp _ ih =>
    obtain ⟨hfirst, hrest⟩ := List.forall_mem_cons.mp h
    refine List.forall_mem_cons.mpr ⟨fun hnumber => ?_, ih hrest⟩
    rcases hp with heq | ⟨hupper, hmem⟩
    · rw [← heq] at hnumber ⊢
      exact hfirst hnumber
    · obtain ⟨⟨c, hc, hstart⟩, -⟩ := isWord_of_keyword (hupper ▸ hmem)
      have hdigit := hnumber.2 c (List.mem_of_mem_head? hc)
      rw [not_isWordStart_of_isDigit hdigit] at hstart
      cases hstart

end Lexer

/-! ## Parsing them -/

/-- Two results: the same statement, or errors with the places of tokens at one index of the two lists. -/
inductive SameOutcome (ts ts' : List Token) : Except Exn Statement → Except Exn Statement → Prop
  | ok (stmt : Statement) : SameOutcome ts ts' (.ok stmt) (.ok stmt)
  | error {i : Nat} {t t' : Token} {what what' : Bytes} (ht : ts[i]? = some t)
      (ht' : ts'[i]? = some t') :
      SameOutcome ts ts' (.error (.parseErrorAt what t.line t.column))
        (.error (.parseErrorAt what' t'.line t'.column))

namespace Parser

theorem getElem?_of_rest {s : Parser} {tokens us : List Token} {t : Token} (h : s.tokens = tokens)
    (hrest : s.rest = t :: us) : tokens[s.pos]? = some t := by
  rw [← h]
  exact getElem?_pos hrest

/-- Token lists that are alike from end to end. -/
theorem Abreast.of_alike {ts ts' : List Token} (h : List.Forall₂ Token.Alike ts ts')
    (hne : ts ≠ []) : Abreast (ts.length - 1) (new ts) (new ts') := by
  have hlength := h.length_eq
  have hpos := List.length_pos_iff.mpr hne
  refine ⟨rfl, fun i hi => ?_, ?_⟩
  · have hlt : i < ts.length := by omega
    have hlt' : i < ts'.length := by omega
    exact ⟨ts[i], ts'[i], List.getElem?_eq_getElem hlt, List.getElem?_eq_getElem hlt',
      h.get hlt hlt'⟩
  · show _ = ts.length ↔ _ = ts'.length
    omega

end Parser

theorem parseSQL_of_error {sql : Bytes} {ts : List Token} {l : Lexer} {e : Exn} {p : Parser}
    (hlex : Lexer.tokenize (.new sql) = .ok ts l)
    (hrun : Parser.parseStatement (.new ts) = .error e p) : parseSQL sql = .error e := by
  simp only [parseSQL, hlex, hrun]

theorem sameOutcome_of_alike {sql sql' : Bytes} {ts ts' : List Token} {l l' : Lexer}
    (hlex : Lexer.tokenize (.new sql) = .ok ts l) (hlex' : Lexer.tokenize (.new sql') = .ok ts' l')
    (h : List.Forall₂ Token.Alike ts ts') (hts : Ended ts) (hts' : Ended ts') :
    SameOutcome ts ts' (parseSQL sql) (parseSQL sql') := by
  obtain ⟨t, us, heq⟩ := hts.exists_cons
  have hst := Parser.Abreast.of_alike h (heq ▸ List.cons_ne_nil t us)
  have hmeets := Parser.parseStatement_lockstep.meets _ _ _ hst (Nat.zero_le _)
  have hkept := (Parser.parseStatement_lockstep.ahead (.new ts)).1
  have hkept' := (Parser.parseStatement_lockstep.ahead (.new ts')).1
  generalize hrun : Parser.parseStatement (.new ts) = r at hmeets hkept
  generalize hrun' : Parser.parseStatement (.new ts') = r' at hmeets hkept'
  cases hmeets with
  | ok hab _ _ =>
    subst hab
    simp only [parseSQL, hlex, hrun, hlex', hrun']
    exact .ok _
  | @error _ _ s t hst' he he' =>
    obtain ⟨a, as, what, hs, rfl⟩ := he
    obtain ⟨b, bs, what', ht, rfl⟩ := he'
    rw [parseSQL_of_error hlex hrun, parseSQL_of_error hlex' hrun']
    have hat : ts[s.pos]? = some a := Parser.getElem?_of_rest hkept hs
    rw [hst'.pos] at hat
    exact .error hat (Parser.getElem?_of_rest hkept' ht)
  | passed _ hlast =>
    rw [hkept] at hlast
    have hlast : ts.length - 1 + 1 < ts.length := hlast
    omega
  | outOfFuel => exact absurd hrun (Parser.parseStatement_ne_divergence hts _)
  | outOfFuel' => exact absurd hrun' (Parser.parseStatement_ne_divergence hts' _)

/-- **Layout does not matter.** Texts of the same lexemes, in any white space and any letter case of
keywords, are parsed to the same statement, or both to a `ParseError` with the place of the same lexeme
(or of the end); unless both have a number too large for the lexer. -/
theorem parseSQL_layout {sql sql' : Bytes} (h : SameLexemes sql sql') :
    (∃ ts ts' l l', Lexer.tokenize (.new sql) = .ok ts l ∧ Lexer.tokenize (.new sql') = .ok ts' l' ∧
      List.Forall₂ Token.Alike ts ts' ∧ SameOutcome ts ts' (parseSQL sql) (parseSQL sql')) ∨
    parseSQL sql = .error (.outOfRange (text "stoll")) ∧
      parseSQL sql' = .error (.outOfRange (text "stoll")) := by
  obtain ⟨pieces, space, pieces', space', hcuts, hspace, hcuts', hspace', hw⟩ := h
  by_cases hfits : Fits pieces
  · left
    have hfits' := Lexer.fits_of_sameWord hw hfits
    obtain ⟨ts, l, hts, hlex⟩ := Lexer.tokenize_of_cuts hcuts hfits hspace
    obtain ⟨ts', l', hts', hlex'⟩ := Lexer.tokenize_of_cuts hcuts' hfits' hspace'
    have hend : (Lexer.endToken sql).Alike (Lexer.endToken sql') := ⟨rfl, nofun, rfl, rfl⟩
    have halike : List.Forall₂ Token.Alike (ts ++ [Lexer.endToken sql]) (ts' ++ [Lexer.endToken sql']) :=
      List.rel_append (Lexer.tokens_alike hts hts' hw) (.cons hend .nil)
    have hended := Endless.ended (fun t ht => (hts.spec t ht).1) (t := Lexer.endToken sql) rfl
    have hended' := Endless.ended (fun t ht => (hts'.spec t ht).1) (t := Lexer.endToken sql') rfl
    exact ⟨_, _, l, l', hlex, hlex', halike, sameOutcome_of_alike hlex hlex' halike hended hended'⟩
  · right
    have hfits' : ¬ Fits pieces' := fun hfits' =>
      hfits (Lexer.fits_of_sameWord (hw.flip.imp fun _ _ => SameWord.symm) hfits')
    obtain ⟨l, hlex⟩ := Lexer.tokenize_of_tooLarge hcuts hfits
    obtain ⟨l', hlex'⟩ := Lexer.tokenize_of_tooLarge hcuts' hfits'
    simp only [parseSQL, hlex, hlex', and_self]

/-- A text of words and symbols, with white space between them that begins with a space. -/
theorem cuts_cons {w space rest : Bytes} {pieces : List (Bytes × Bytes)} (hw : IsLexeme w)
    (hquote : byte '\'' ∉ w.head?) (hspace : ∀ c ∈ space, isSpace c = true)
    (hrest : Lexer.Delimited rest) (h : Cuts rest pieces []) :
    Cuts (space ++ (w ++ rest)) ((space, w) :: pieces) [] :=
  .cons hspace (Lexer.lexemeAt_delimited hw hquote hrest) h

theorem parseSQL_layout_select :
    ∃ ts ts', SameOutcome ts ts' (parseSQL (text "SELECT * FROM t"))
      (parseSQL (text "select  * \nFrom t")) := by
  have hword : ∀ w ∈ [text "SELECT", text "select", text "FROM", text "From", text "t"],
      IsLexeme w ∧ byte '\'' ∉ w.head? := by
    intro w hw
    refine ⟨.word ⟨?_, ?_⟩, ?_⟩ <;> revert w <;> decide +kernel
  have hstar : IsLexeme (text "*") := .symbol (show (text "*", TokenType.star) ∈ symbolTable by
    decide +kernel)
  have hblank : ∀ s ∈ [[], [10], [32]], ∀ c ∈ 32 :: s, isSpace c = true := by decide +kernel
  have hnone : ∀ c ∈ ([] : Bytes), isSpace c = true := fun c hc => absurd hc List.not_mem_nil
  have hcuts : ∀ select ∈ [text "SELECT", text "select"], ∀ from' ∈ [text "FROM", text "From"],
      ∀ s ∈ [[], [10], [32]], ∀ s' ∈ [[], [10], [32]],
      Cuts (select ++ (32 :: s ++ (text "*" ++ (32 :: s' ++ (from' ++ ([32] ++ (text "t" ++ [])))))))
        [([], select), (32 :: s, text "*"), (32 :: s', from'), ([32], text "t")] [] := by
    intro select hselect from' hfrom s hs s' hs'
    have hselect := hword select (List.mem_append_left _ hselect)
    have hfrom := hword from' (List.mem_append_right [_, _] (List.mem_append_left _ hfrom))
    have ht := hword (text "t") (by simp)
    have h := cuts_cons ht.1 ht.2 (hblank [] (by simp)) (.inl rfl) .nil
    have h := cuts_cons hfrom.1 hfrom.2 (hblank s' hs') (.inr ⟨_, rfl⟩) h
    have h := cuts_cons hstar (by decide +kernel) (hblank s hs) (.inr ⟨_, rfl⟩) h
    exact cuts_cons hselect.1 hselect.2 hnone (.inr ⟨_, rfl⟩) h
  have hsame : SameLexemes (text "SELECT * FROM t") (text "select  * \nFrom t") := by
    refine ⟨_, [], _, [], hcuts (text "SELECT") (by simp) (text "FROM") (by simp) [] (by simp) []
      (by simp), hnone, hcuts (text "select") (by simp) (text "From") (by simp) [32] (by simp) [10]
      (by simp), hnone, ?_⟩
    exact .cons (.inr (by decide +kernel)) <| .cons (.inl rfl) <|
      .cons (.inr (by decide +kernel)) <| .cons (.inl rfl) .nil
  rcases parseSQL_layout hsame with ⟨ts, ts', -, -, -, -, -, houtcome⟩ | ⟨herror, -⟩
  · exact ⟨ts, ts', houtcome⟩
  · have hok : (parseSQL (text "SELECT * FROM t")).isOk = true := by decide +kernel
    rw [herror] at hok
    cases hok

end Reldb
