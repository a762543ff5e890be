import Reldb.Sql.Print

/-!
# Reldb — parsing, then printing

Every lexeme has a canonical spelling, so a statement has a canonical text: capital keywords, single
spaces, no parentheses but the needed ones, no leading zeros. The statements `ParseSQL` can return
are exactly those a text can be printed for, and the canonical text of each is parsed to it again.
-/

namespace Reldb

open Language

/-! ## Canonical spellings -/

/-- The first name the table has for a type. -/
def spellingIn (table : List (Bytes × TokenType)) (type : TokenType) : Bytes :=
  ((table.find? fun p => p.2 == type).map Prod.fst).getD []

namespace Lexeme

def spell : Lexeme → Bytes
  | .keyword type => spellingIn keywordTable type
  | .ident name => name
  | .integer value => decimal value.toNatClampNeg
  | .string value => quoted value
  | .symbol type => spellingIn symbolTable type

/-- Some word spells it. -/
def Spellable (x : Lexeme) : Prop := ∃ w, Spelled x w

end Lexeme

theorem spelled_keyword : ∀ type ∈ keywordTable.map Prod.snd,
    Spelled (.keyword type) (Lexeme.keyword type).spell := by
  have htable : ∀ type ∈ keywordTable.map Prod.snd,
      (toUpper (spellingIn keywordTable type), type) ∈ keywordTable := by
    decide +kernel
  exact fun type h => .keyword (htable type h)

theorem spelled_symbol : ∀ type ∈ symbolTable.map Prod.snd,
    Spelled (.symbol type) (Lexeme.symbol type).spell := by
  have htable : ∀ type ∈ symbolTable.map Prod.snd,
      (spellingIn symbolTable type, type) ∈ symbolTable := by
    decide +kernel
  exact fun type h => .symbol (htable type h)

/-- What can be spelled is spelled by its canonical spelling. -/
theorem Lexeme.Spellable.spell {x : Lexeme} (h : x.Spellable) : Spelled x x.spell := by
  obtain ⟨w, hw⟩ := h
  cases hw with
  | keyword htable => exact spelled_keyword _ (List.mem_map_of_mem htable)
  | ident hname => exact .ident hname
  | integer hvalue => exact .integer hvalue
  | string => exact .string
  | symbol htable => exact spelled_symbol _ (List.mem_map_of_mem htable)

/-- The canonical text. -/
def Statement.toSQL (stmt : Statement) : Bytes :=
  List.intercalate [32] (stmt.print.map Lexeme.spell)

theorem renders_toSQL {stmt : Statement} (h : ∀ x ∈ stmt.print, x.Spellable) :
    Renders stmt stmt.toSQL := by
  refine ⟨_, ?_, rfl⟩
  rw [List.forall₂_map_right_iff, List.forall₂_same]
  exact fun x hx => (h x hx).spell

/-! ## What the lexer's tokens hold -/

/-- An identifier token holds an identifier, an integer token no negative number. -/
structure Token.Lexed (t : Token) : Prop where
  ident : t.type = .identifier → IsIdentifier t.text
  integer : t.type = .integerLiteral → 0 ≤ t.intValue

theorem isIdentifier_of_isWord {w : Bytes} (h : IsWord w)
    (hnone : keywordTable.lookup (toUpper w) = none) : IsIdentifier w := by
  obtain ⟨⟨c, hc, hstart⟩, hall⟩ := h
  obtain ⟨cs, rfl⟩ : ∃ cs, w = c :: cs := ⟨w.tail, (List.cons_head?_tail hc).symm⟩
  refine ⟨hstart, hall, fun hmem => ?_⟩
  obtain ⟨⟨name, type⟩, hp, hname⟩ := List.mem_map.mp hmem
  rw [List.lookup_eq_none_iff] at hnone
  exact absurd hname.symm (bne_iff_ne.mp (hnone _ hp))

theorem TokenAt.lexed {line column : Nat} {w : Bytes} {t : Token} (h : TokenAt line column w t) :
    t.Lexed := by
  cases h with
  | word hword =>
    have htable : ∀ p ∈ keywordTable, p.2 ≠ .identifier ∧ p.2 ≠ .integerLiteral := by decide +kernel
    cases hlookup : keywordTable.lookup (toUpper w) with
    | none => exact ⟨fun _ => isIdentifier_of_isWord hword hlookup, nofun⟩
    | some type =>
      obtain ⟨before, after, heq, -⟩ := List.lookup_eq_some_iff.mp hlookup
      obtain ⟨h₁, h₂⟩ := htable (toUpper w, type) (by
        rw [heq]
        exact List.mem_append_right _ List.mem_cons_self)
      exact ⟨fun h => absurd h h₁, fun h => absurd h h₂⟩
  | number hnumber hvalue =>
    refine ⟨nofun, fun _ => ?_⟩
    rw [Int64.le_iff_toInt_le, hvalue]
    exact Int.natCast_nonneg _
  | string value => exact ⟨nofun, nofun⟩
  | symbol hsymbol =>
    have htable : ∀ p ∈ symbolTable, p.2 ≠ .identifier ∧ p.2 ≠ .integerLiteral := by decide +kernel
    obtain ⟨h₁, h₂⟩ := htable _ hsymbol
    exact ⟨fun h => absurd h h₁, fun h => absurd h h₂⟩

theorem Tokens.lexed {before : Bytes} {pieces : List (Bytes × Bytes)} {ts : List Token}
    (h : Tokens before pieces ts) : ∀ t ∈ ts, t.Lexed := by
  induction h with
  | nil => exact fun t ht => absurd ht List.not_mem_nil
  | cons ht _ ih => exact List.forall_mem_cons.mpr ⟨ht.lexed, ih⟩

/-! ## What the grammar makes of them can be printed -/

/-- All of its lexemes can be spelled. -/
def Printable (xs : List Lexeme) : Prop := ∀ x ∈ xs, x.Spellable

namespace Printable

variable {x : Lexeme} {xs ys : List Lexeme}

theorem nil : Printable [] := fun _ hx => absurd hx List.not_mem_nil

theorem cons (hx : x.Spellable) (hxs : Printable xs) : Printable (x :: xs) :=
  List.forall_mem_cons.mpr ⟨hx, hxs⟩

theorem append (hxs : Printable xs) (hys : Printable ys) : Printable (xs ++ ys) :=
  List.forall_mem_append.mpr ⟨hxs, hys⟩

theorem keyword {type : TokenType} (hxs : Printable xs)
    (htype : type ∈ keywordTable.map Prod.snd) : Printable (.keyword type :: xs) :=
  .cons ⟨_, spelled_keyword type htype⟩ hxs

theorem symbol {type : TokenType} (hxs : Printable xs)
    (htype : type ∈ symbolTable.map Prod.snd) : Printable (.symbol type :: xs) :=
  .cons ⟨_, spelled_symbol type htype⟩ hxs

theorem ident {t : Token} (hxs : Printable xs) (h : t.Lexed) (ht : t.type = .identifier) :
    Printable (.ident t.text :: xs) := .cons ⟨_, .ident (h.ident ht)⟩ hxs

theorem parenIf {paren : Bool} (hxs : Printable xs) : Printable (parenIf paren xs) := by
  cases paren with
  | false => exact hxs
  | true => exact (hxs.append (nil.symbol (by decide))).symbol (by decide)

theorem printList {items : List (List Lexeme)} (h : ∀ xs ∈ items, Printable xs) :
    Printable (printList items) := by
  induction items with
  | nil => exact nil
  | cons xs items ih =>
    obtain ⟨hxs, hitems⟩ := List.forall_mem_cons.mp h
    cases items with
    | nil => rwa [Reldb.printList, List.intercalate_singleton]
    | cons ys items =>
      rw [Reldb.printList, List.intercalate_cons_cons, List.append_assoc]
      exact hxs.append ((ih hitems).symbol (by decide))

end Printable

section

variable {α : Type} {L : Rule Token α} {P : α → Prop}

theorem commaList_yields (h : Yields Token.Lexed L P) :
    Yields Token.Lexed (CommaList L) fun as => as ≠ [] ∧ ∀ a ∈ as, P a := by
  rintro _ _ ⟨hfirst, hrest⟩ hts
  obtain ⟨hfirstLexed, hrestLexed⟩ := List.forall_mem_append.mp hts
  have hafter : Yields Token.Lexed (After .comma L) P := by
    rintro _ a ⟨-, htail⟩ hus
    exact h htail (List.forall_mem_cons.mp hus).2
  have has := hafter.many hrest hrestLexed
  exact ⟨List.cons_ne_nil _ _, List.forall_mem_cons.mpr ⟨h hfirst hfirstLexed, has⟩⟩

theorem optional_yields {type : TokenType} (h : Yields Token.Lexed L P) :
    Yields Token.Lexed (Optional type L) fun a => ∀ b ∈ a, P b := by
  intro ts a hrule hts
  cases hrule with
  | absent => exact fun b hb => absurd hb (Option.not_mem_none b)
  | present _ htail =>
    rintro _ ⟨⟩
    exact h htail (List.forall_mem_cons.mp hts).2

end

theorem ident_yields : Yields Token.Lexed IdentRule fun name => Printable [.ident name] := by
  rintro _ _ ⟨ht⟩ hts
  exact Printable.nil.ident (hts _ List.mem_cons_self) ht

theorem literal_yields : Yields Token.Lexed LiteralRule fun value => Printable [value.print] := by
  intro ts value hrule hts
  cases hrule with
  | integer ht =>
    exact .cons ⟨_, .integer ((hts _ List.mem_cons_self).integer ht)⟩ .nil
  | text ht => exact .cons ⟨_, .string⟩ .nil

theorem columnRef_yields :
    Yields Token.Lexed ColumnRefRule fun ref => Printable (printColumn ref.1 ref.2) := by
  intro ts ref hrule hts
  cases hrule with
  | plain ht => exact Printable.nil.ident (hts _ List.mem_cons_self) ht
  | qualified ht _ hc =>
    have hname := Printable.nil.ident (hts _ (by simp)) hc
    exact (hname.symbol (by decide)).ident (hts _ List.mem_cons_self) ht

theorem printAlias_printable {name : Option Bytes}
    (h : ∀ b ∈ name, Printable [.ident b]) : Printable (printAlias name) := by
  cases name with
  | none => exact .nil
  | some b => exact (h b rfl).keyword (by decide)

/-! ### Expressions -/

theorem value_yields : Yields Token.Lexed ValueRule fun e => e.IsOperand ∧ Printable e.print := by
  intro ts e hrule hts
  cases hrule with
  | columnRef href => exact ⟨trivial, columnRef_yields href hts⟩
  | literal hliteral => exact ⟨trivial, literal_yields hliteral hts⟩

theorem expr_yields {level : Level} :
    Yields Token.Lexed (ExprRule level) fun e => e.IsCondition ∧ Printable e.print := by
  intro ts e hrule
  induction hrule with
  | ofAnd _ ih => exact ih
  | ofPrimary _ ih => exact ih
  | or _ _ _ ihl ihr =>
    intro hts
    obtain ⟨hus, hvs⟩ := List.forall_mem_append.mp hts
    obtain ⟨hleft, hl⟩ := ihl hus
    obtain ⟨hright, hr⟩ := ihr (List.forall_mem_cons.mp hvs).2
    exact ⟨⟨hleft, hright⟩, hl.append (hr.parenIf.keyword (by decide))⟩
  | and _ _ _ ihl ihr =>
    intro hts
    obtain ⟨hus, hvs⟩ := List.forall_mem_append.mp hts
    obtain ⟨hleft, hl⟩ := ihl hus
    obtain ⟨hright, hr⟩ := ihr (List.forall_mem_cons.mp hvs).2
    exact ⟨⟨hleft, hright⟩, hl.parenIf.append (hr.parenIf.keyword (by decide))⟩
  | paren _ _ _ ih =>
    intro hts
    obtain ⟨hus, -⟩ := List.forall_mem_append.mp hts
    exact ih (List.forall_mem_cons.mp hus).2
  | @comparison _ _ _ op _ _ left _ right =>
    intro hts
    obtain ⟨hus, hvs⟩ := List.forall_mem_append.mp hts
    obtain ⟨hleft, hl⟩ := value_yields left hus
    obtain ⟨hright, hr⟩ := value_yields right (List.forall_mem_cons.mp hvs).2
    have hop : op.symbol ∈ symbolTable.map Prod.snd := by cases op <;> decide
    exact ⟨⟨hleft, hright⟩, hl.append (hr.symbol hop)⟩

/-! ### Statements -/

theorem columnDef_yields : Yields Token.Lexed ColumnDefRule fun c => Printable c.print := by
  have htype : ∀ type : ColumnType, type.keyword ∈ keywordTable.map Prod.snd := by
    intro type
    cases type <;> decide
  intro ts c hrule hts
  cases hrule with
  | plain hn _ =>
    exact (Printable.nil.keyword (htype _)).ident (hts _ List.mem_cons_self) hn
  | primaryKey hn _ _ _ =>
    have hkey : Printable [.keyword .primary, .keyword .key] :=
      (Printable.nil.keyword (by decide)).keyword (by decide)
    exact (hkey.keyword (htype _)).ident (hts _ List.mem_cons_self) hn

theorem tableRef_yields : Yields Token.Lexed TableRefRule fun t => Printable t.print := by
  rintro _ _ ⟨hn, has⟩ hts
  obtain ⟨hname, hrest⟩ := List.forall_mem_cons.mp hts
  exact (printAlias_printable (optional_yields ident_yields has hrest)).ident hname hn

theorem selectItem_yields : Yields Token.Lexed SelectItemRule fun i => Printable i.print := by
  rintro _ _ ⟨href, has⟩ hts
  obtain ⟨hus, hvs⟩ := List.forall_mem_append.mp hts
  exact (columnRef_yields href hus).append
    (printAlias_printable (optional_yields ident_yields has hvs))

theorem join_yields : Yields Token.Lexed JoinRule fun j =>
    j.onCondition.IsCondition ∧ Printable j.print := by
  rintro _ _ ⟨_, htable, _, hcondition⟩ hts
  obtain ⟨hus, hvs⟩ := List.forall_mem_append.mp hts
  obtain ⟨hshape, hprint⟩ := expr_yields hcondition (List.forall_mem_cons.mp hvs).2
  have hname := tableRef_yields htable (List.forall_mem_cons.mp hus).2
  exact ⟨hshape, (hname.keyword (by decide)).append (hprint.keyword (by decide))⟩

theorem create_yields : Yields Token.Lexed CreateRule fun s =>
    s.columns ≠ [] ∧ Printable (Statement.createTable s).print := by
  rintro _ _ ⟨_, _, hn, _, hlist, _⟩ hts
  obtain ⟨hus, -⟩ := List.forall_mem_append.mp hts
  simp only [List.forall_mem_cons] at hus
  obtain ⟨-, -, hname, -, hus⟩ := hus
  obtain ⟨hne, hcolumns⟩ := commaList_yields columnDef_yields hlist hus
  have hprint := Printable.printList (List.forall_mem_map.mpr hcolumns)
  have hclosed := hprint.append (@Printable.symbol [] .rparen .nil (by decide))
  exact ⟨hne, (((hclosed.symbol (by decide)).ident hname hn).keyword (by decide)).keyword
    (by decide)⟩

theorem columnNames_yields : Yields Token.Lexed ColumnNamesRule fun columns =>
    Printable (printColumnNames columns) := by
  intro ts columns hrule hts
  unfold printColumnNames
  cases hrule with
  | absent => exact .nil
  | present _ hlist _ =>
    obtain ⟨hus, -⟩ := List.forall_mem_append.mp hts
    obtain ⟨hne, hcolumns⟩ := commaList_yields ident_yields hlist (List.forall_mem_cons.mp hus).2
    have hprint := Printable.printList (List.forall_mem_map.mpr hcolumns)
    rw [if_neg hne]
    exact (hprint.append (Printable.nil.symbol (by decide))).symbol (by decide)

theorem insert_yields : Yields Token.Lexed InsertRule fun s =>
    s.values ≠ [] ∧ Printable (Statement.insert s).print := by
  rintro _ _ ⟨_, _, hn, hnames, _, _, hlist, _⟩ hts
  obtain ⟨hus, -⟩ := List.forall_mem_append.mp hts
  obtain ⟨hus, hvs⟩ := List.forall_mem_append.mp hus
  simp only [List.forall_mem_cons] at hus hvs
  obtain ⟨-, -, hname, hus⟩ := hus
  obtain ⟨-, -, hvs⟩ := hvs
  obtain ⟨hne, hvalues⟩ := commaList_yields literal_yields hlist hvs
  have hprint := Printable.printList (List.forall_mem_map.mpr hvalues)
  have hclosed := hprint.append (@Printable.symbol [] .rparen .nil (by decide))
  have htable := (columnNames_yields hnames hus).ident hname hn
  have hinto := @Printable.keyword _ .into htable (by decide)
  have hnamed := @Printable.keyword _ .insert hinto (by decide)
  have hlist := @Printable.symbol _ .lparen hclosed (by decide)
  have hvalues := @Printable.keyword _ .values hlist (by decide)
  refine ⟨hne, ?_⟩
  simpa [Statement.print] using hnamed.append hvalues

theorem selectList_yields : Yields Token.Lexed SelectListRule fun list =>
    (list.1 = true ↔ list.2 = []) ∧ Printable (if list.1 then [.symbol .star]
      else printList (list.2.map SelectItem.print)) := by
  intro ts list hrule hts
  cases hrule with
  | star _ => exact ⟨⟨fun _ => rfl, fun _ => rfl⟩, Printable.nil.symbol (by decide)⟩
  | items hlist =>
    obtain ⟨hne, hitems⟩ := commaList_yields selectItem_yields hlist hts
    exact ⟨⟨nofun, fun h => absurd h hne⟩, .printList (List.forall_mem_map.mpr hitems)⟩

theorem printWhere_printable {condition : Option Expr}
    (h : ∀ e ∈ condition, Printable e.print) : Printable (printWhere condition) := by
  cases condition with
  | none => exact .nil
  | some e => exact (h e rfl).keyword (by decide)

theorem select_yields : Yields Token.Lexed SelectRule fun s =>
    (Statement.select s).Shaped ∧ Printable (Statement.select s).print := by
  rintro _ _ ⟨_, hlist, _, htable, hjoins, hfilter⟩ hts
  obtain ⟨hus, hfilterLexed⟩ := List.forall_mem_append.mp hts
  obtain ⟨hus, hjoinsLexed⟩ := List.forall_mem_append.mp hus
  obtain ⟨hlistLexed, hvs⟩ := List.forall_mem_append.mp hus
  obtain ⟨hstar, hprint⟩ := selectList_yields hlist (List.forall_mem_cons.mp hlistLexed).2
  have hfrom := tableRef_yields htable (List.forall_mem_cons.mp hvs).2
  have hjoins := join_yields.many hjoins hjoinsLexed
  have hfilter := optional_yields expr_yields hfilter hfilterLexed
  refine ⟨⟨hstar, fun j hj => (hjoins j hj).1, fun e he => (hfilter e he).1⟩, ?_⟩
  have hflat : Printable (List.flatMap JoinClause.print _) := fun x hx => by
    obtain ⟨j, hj, hx⟩ := List.mem_flatMap.mp hx
    exact (hjoins j hj).2 x hx
  exact (((hprint.keyword (by decide)).append (hfrom.keyword (by decide))).append hflat).append
    (printWhere_printable fun e he => (hfilter e he).2)

theorem statement_yields : Yields Token.Lexed BodyRule fun stmt =>
    stmt.Shaped ∧ Printable stmt.print := by
  intro ts stmt hrule hts
  cases hrule with
  | create h => exact create_yields h hts
  | insert h => exact insert_yields h hts
  | select h => exact select_yields h hts

/-! ## What the parser returns -/

/-- The tokens of a text are those of its pieces, and one for the end. -/
theorem tokenize_pieces {sql : Bytes} {ts : List Token} {l : Lexer}
    (h : Lexer.tokenize (.new sql) = .ok ts l) : ∃ pieces ts', Tokens [] pieces ts' ∧
      ts = ts' ++ [Lexer.endToken sql] := by
  obtain ⟨pieces, space, rest, hcuts, hspace, hend⟩ := exists_cuts sql
  by_cases hfits : Fits pieces
  · rcases hend with rfl | ⟨msg, hfault⟩
    · rw [List.append_nil] at hcuts
      obtain ⟨ts', l', hts', hrun⟩ := Lexer.tokenize_of_cuts hcuts hfits hspace
      rw [hrun] at h
      cases h
      exact ⟨pieces, ts', hts', rfl⟩
    · obtain ⟨l', hrun⟩ := Lexer.tokenize_of_fault hcuts hfits hspace hfault
      rw [hrun] at h
      cases h
  · obtain ⟨l', hrun⟩ := Lexer.tokenize_of_tooLarge hcuts hfits
    rw [hrun] at h
    cases h

/-- The tokens of a text end in their only end, and are what the lexer makes of lexemes. -/
theorem tokenize_lexed {sql : Bytes} {ts : List Token} {l : Lexer}
    (h : Lexer.tokenize (.new sql) = .ok ts l) : Ended ts ∧ ∀ t ∈ ts, t.Lexed := by
  obtain ⟨pieces, ts', hts, rfl⟩ := tokenize_pieces h
  constructor
  · exact Endless.ended (fun t ht => (hts.spec t ht).1) rfl
  · have hend : (Lexer.endToken sql).Lexed := ⟨nofun, nofun⟩
    exact List.forall_mem_append.mpr ⟨hts.lexed, List.forall_mem_singleton.mpr hend⟩

/-- What a text is parsed to can be printed. -/
theorem printable_of_parseSQL {sql : Bytes} {stmt : Statement} (h : parseSQL sql = .ok stmt) :
    stmt.Shaped ∧ Printable stmt.print := by
  unfold parseSQL at h
  cases hlex : Lexer.tokenize (.new sql) with
  | error e l =>
    rw [hlex] at h
    cases h
  | ok ts l =>
    obtain ⟨hended, hts⟩ := tokenize_lexed hlex
    have hrest := Parser.rest_new ts
    rw [hlex] at h
    rcases Parser.rule_of_parseStatement (s := .new ts) (by rwa [hrest]) with
      ⟨stmt', p, hparse, hrule⟩ | ⟨e, p, hparse, -⟩
    · simp only [hparse] at h
      cases h
      rw [hrest] at hrule
      cases hrule with
      | plain hbody _ => exact statement_yields hbody (List.forall_mem_append.mp hts).1
      | semicolon hbody _ _ => exact statement_yields hbody (List.forall_mem_append.mp hts).1
    · simp only [hparse] at h
      cases h

/-- The canonical text of what can be printed is parsed to it. -/
theorem parseSQL_of_printable {stmt : Statement} (h : stmt.Shaped) (hprint : Printable stmt.print) :
    parseSQL stmt.toSQL = .ok stmt := by
  obtain ⟨words, hwords, heq⟩ := renders_toSQL hprint
  obtain ⟨ts, t, l, hrun, hts, ht⟩ := Lexer.tokenize_spelled hwords
  have hrule : StatementRule (ts ++ [t]) stmt := .plain (statement_prints h ts hts) ht
  obtain ⟨p, hparse⟩ := Parser.parseStatement_of_rule hrule (Parser.rest_new _)
  simp only [parseSQL, heq, hrun, hparse]

/-- **Parsing, then printing.** `ParseSQL` returns a statement for some text exactly when the statement
is of a shape the grammar produces and all of its lexemes can be spelled; and whatever text a statement
came from, its canonical text is parsed to it. -/
theorem parseSQL_range (stmt : Statement) :
    ((∃ sql, parseSQL sql = .ok stmt) ↔ stmt.Shaped ∧ Printable stmt.print) ∧
      ∀ sql, parseSQL sql = .ok stmt → parseSQL stmt.toSQL = .ok stmt := by
  have hback : stmt.Shaped ∧ Printable stmt.print → parseSQL stmt.toSQL = .ok stmt :=
    fun h => parseSQL_of_printable h.1 h.2
  refine ⟨⟨?_, fun h => ⟨_, hback h⟩⟩, fun sql h => hback (printable_of_parseSQL h)⟩
  rintro ⟨sql, h⟩
  exact printable_of_parseSQL h

end Reldb
