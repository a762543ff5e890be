import Reldb.Sql.Accepts
import Reldb.Sql.Lexing

/-!
# Reldb — printing, then parsing

A statement is printed as lexemes, with parentheses only where the grammar needs them: around an
`OR` under an `AND`, and around a right operand that is itself an `AND` under an `AND` or an `OR`
under an `OR`. A text that spells these lexemes, single spaces between them and keywords in any mix
of letter case, parses to the statement it was printed from.
-/

namespace Reldb

open Language

/-! ## Printing -/

def ComparisonOp.symbol : ComparisonOp → TokenType
  | .eq => .eq
  | .neq => .neq
  | .lt => .lt
  | .lte => .lte
  | .gt => .gt
  | .gte => .gte

def ColumnType.keyword : ColumnType → TokenType
  | .integer => .integerType
  | .text => .textType

def Literal.print : Literal → Lexeme
  | .integer value => .integer value
  | .text value => .string value

/-- `[ident .] ident`. -/
def printColumn : Option Bytes → Bytes → List Lexeme
  | none, column => [.ident column]
  | some table, column => [.ident table, .symbol .dot, .ident column]

/-- `[AS ident]`. -/
def printAlias : Option Bytes → List Lexeme
  | none => []
  | some name => [.keyword .as, .ident name]

/-- Commas between the items. -/
def printList (items : List (List Lexeme)) : List Lexeme :=
  List.intercalate [.symbol .comma] items

def parenIf (paren : Bool) (xs : List Lexeme) : List Lexeme :=
  if paren then .symbol .lparen :: xs ++ [.symbol .rparen] else xs

namespace Expr

def isAnd : Expr → Bool
  | .and .. => true
  | _ => false

def isOr : Expr → Bool
  | .or .. => true
  | _ => false

def print : Expr → List Lexeme
  | .columnRef table column => printColumn table column
  | .literal value => [value.print]
  | .comparison op left right => left.print ++ .symbol op.symbol :: right.print
  | .and left right =>
    parenIf left.isOr left.print ++ .keyword .and :: parenIf (right.isOr || right.isAnd) right.print
  | .or left right => left.print ++ .keyword .or :: parenIf right.isOr right.print

end Expr

def ColumnDef.print (c : ColumnDef) : List Lexeme :=
  .ident c.name :: .keyword c.type.keyword ::
    if c.isPrimaryKey then [.keyword .primary, .keyword .key] else []

def TableRef.print (t : TableRef) : List Lexeme := .ident t.table :: printAlias t.aliasName

def SelectItem.print (i : SelectItem) : List Lexeme :=
  printColumn i.table i.column ++ printAlias i.aliasName

def JoinClause.print (j : JoinClause) : List Lexeme :=
  .keyword .join :: j.table.print ++ .keyword .on :: j.onCondition.print

/-- `[( ident {, ident} )]`. -/
def printColumnNames (columns : List Bytes) : List Lexeme :=
  if columns = [] then []
  else .symbol .lparen :: printList (columns.map fun c => [.ident c]) ++ [.symbol .rparen]

/-- `[WHERE expr]`. -/
def printWhere : Option Expr → List Lexeme
  | none => []
  | some condition => .keyword .where :: condition.print

def Statement.print : Statement → List Lexeme
  | .createTable s =>
    .keyword .create :: .keyword .table :: .ident s.tableName :: .symbol .lparen ::
      printList (s.columns.map ColumnDef.print) ++ [.symbol .rparen]
  | .insert s =>
    .keyword .insert :: .keyword .into :: .ident s.tableName ::
      printColumnNames s.columns ++ .keyword .values :: .symbol .lparen ::
      printList (s.values.map fun v => [v.print]) ++ [.symbol .rparen]
  | .select s =>
    .keyword .select ::
      (if s.isStar then [.symbol .star] else printList (s.selectItems.map SelectItem.print)) ++
      .keyword .from :: s.from.print ++ s.joins.flatMap JoinClause.print ++ printWhere s.where

/-- `sql` spells the statement's lexemes, with single spaces between them. -/
def Renders (stmt : Statement) (sql : Bytes) : Prop :=
  ∃ words, List.Forall₂ Spelled stmt.print words ∧ sql = List.intercalate [32] words

/-! ## The shapes the grammar can produce -/

/-- A column reference or a literal. -/
def Expr.IsOperand : Expr → Prop
  | .columnRef .. => True
  | .literal _ => True
  | _ => False

/-- Comparisons of operands, under `AND` and `OR`. -/
def Expr.IsCondition : Expr → Prop
  | .comparison _ left right => left.IsOperand ∧ right.IsOperand
  | .and left right => left.IsCondition ∧ right.IsCondition
  | .or left right => left.IsCondition ∧ right.IsCondition
  | _ => False

/-- Lists are not empty where the grammar requires an item, and conditions are conditions. -/
def Statement.Shaped : Statement → Prop
  | .createTable s => s.columns ≠ []
  | .insert s => s.values ≠ []
  | .select s => (s.isStar = true ↔ s.selectItems = []) ∧
      (∀ j ∈ s.joins, j.onCondition.IsCondition) ∧ ∀ condition ∈ s.where, condition.IsCondition

/-! ## Tokens that denote a printed statement derive it -/

/-- Every token list that denotes `xs` is a word of `L` that means `a`. -/
def Prints {α : Type} (xs : List Lexeme) (L : Rule Token α) (a : α) : Prop :=
  ∀ ts, List.Forall₂ Denotes xs ts → L ts a

theorem denotes_append {xs ys : List Lexeme} {ts : List Token}
    (h : List.Forall₂ Denotes (xs ++ ys) ts) : ∃ us vs, ts = us ++ vs ∧
      List.Forall₂ Denotes xs us ∧ List.Forall₂ Denotes ys vs := by
  induction xs generalizing ts with
  | nil => exact ⟨[], ts, rfl, .nil, h⟩
  | cons x xs ih =>
    obtain ⟨t, ts, hx, htail, rfl⟩ := List.forall₂_cons_left_iff.mp h
    obtain ⟨us, vs, rfl, hus, hvs⟩ := ih htail
    exact ⟨t :: us, vs, rfl, .cons hx hus, hvs⟩

theorem denotes_cons {x : Lexeme} {xs : List Lexeme} {ts : List Token}
    (h : List.Forall₂ Denotes (x :: xs) ts) :
    ∃ t us, ts = t :: us ∧ Denotes x t ∧ List.Forall₂ Denotes xs us := by
  obtain ⟨t, us, hx, hxs, rfl⟩ := List.forall₂_cons_left_iff.mp h
  exact ⟨t, us, rfl, hx, hxs⟩

theorem denotes_nil {ts : List Token} (h : List.Forall₂ Denotes [] ts) : ts = [] := by
  cases h
  rfl

theorem commaList_cons {α : Type} {L : Rule Token α} {ts us : List Token} {t : Token} {a : α}
    {as : List α} (ha : L ts a) (ht : t.type = .comma) (has : CommaList L us as) :
    CommaList L (ts ++ t :: us) (a :: as) := by
  obtain ⟨hfirst, hrest⟩ := has
  exact .mk ha (.cons (.mk ht hfirst) hrest)

theorem printList_prints {α : Type} {L : Rule Token α} {print : α → List Lexeme} {as : List α}
    (hne : as ≠ []) (h : ∀ a ∈ as, Prints (print a) L a) :
    Prints (printList (as.map print)) (CommaList L) as := by
  induction as with
  | nil => exact absurd rfl hne
  | cons a as ih =>
    intro ts hts
    have ha := h a List.mem_cons_self
    cases as with
    | nil =>
      rw [List.map_singleton, printList, List.intercalate_singleton] at hts
      have := CommaList.mk (ha ts hts) .nil
      rwa [List.append_nil] at this
    | cons b bs =>
      rw [List.map_cons, List.map_cons, printList, List.intercalate_cons_cons,
        List.append_assoc] at hts
      obtain ⟨us, vs, rfl, hus, hvs⟩ := denotes_append hts
      obtain ⟨t, vs, rfl, ht, hvs⟩ := denotes_cons hvs
      exact commaList_cons (ha us hus) ht
        (ih (List.cons_ne_nil _ _) (fun c hc => h c (List.mem_cons_of_mem _ hc)) vs hvs)

theorem ident_prints (name : Bytes) : Prints [.ident name] IdentRule name := by
  intro ts hts
  obtain ⟨t, us, rfl, ⟨ht, rfl⟩, hus⟩ := denotes_cons hts
  rw [denotes_nil hus]
  exact .mk ht

theorem literal_prints (value : Literal) : Prints [value.print] LiteralRule value := by
  intro ts hts
  cases value with
  | integer value =>
    obtain ⟨t, us, rfl, ⟨ht, rfl⟩, hus⟩ := denotes_cons hts
    rw [denotes_nil hus]
    exact .integer ht
  | text value =>
    obtain ⟨t, us, rfl, ⟨ht, rfl⟩, hus⟩ := denotes_cons hts
    rw [denotes_nil hus]
    exact .text ht

theorem printColumn_prints (table : Option Bytes) (column : Bytes) :
    Prints (printColumn table column) ColumnRefRule (table, column) := by
  intro ts hts
  cases table with
  | none =>
    obtain ⟨t, us, rfl, ⟨ht, rfl⟩, hus⟩ := denotes_cons hts
    rw [denotes_nil hus]
    exact .plain ht
  | some table =>
    obtain ⟨t, us, rfl, ⟨ht, rfl⟩, hus⟩ := denotes_cons hts
    obtain ⟨d, vs, rfl, hd, hvs⟩ := denotes_cons hus
    obtain ⟨u, ws, rfl, ⟨hu, rfl⟩, hws⟩ := denotes_cons hvs
    rw [denotes_nil hws]
    exact .qualified ht hd hu

theorem printAlias_prints (name : Option Bytes) :
    Prints (printAlias name) (Optional .as IdentRule) name := by
  intro ts hts
  cases name with
  | none =>
    rw [denotes_nil hts]
    exact .absent
  | some name =>
    obtain ⟨t, us, rfl, ht, hus⟩ := denotes_cons hts
    exact .present ht (ident_prints name us hus)

/-! ### Expressions -/

def Expr.level : Expr → Level
  | .or .. => .or
  | .and .. => .and
  | _ => .primary

theorem exprRule_or_of {level : Level} {ts : List Token} {e : Expr} (h : ExprRule level ts e) :
    ExprRule .or ts e := by
  cases level with
  | or => exact h
  | and => exact .ofAnd h
  | primary => exact .ofAnd (.ofPrimary h)

/-- In parentheses an expression is a primary one. -/
theorem parenIf_prints {paren : Bool} {e : Expr} (h : Prints e.print (ExprRule e.level) e) :
    Prints (parenIf paren e.print) (ExprRule (if paren then .primary else e.level)) e := by
  intro ts hts
  cases paren with
  | false => exact h ts hts
  | true =>
    obtain ⟨l, us, rfl, hl, hus⟩ := denotes_cons hts
    obtain ⟨vs, ws, rfl, hvs, hws⟩ := denotes_append hus
    obtain ⟨r, ys, rfl, hr, hys⟩ := denotes_cons hws
    rw [denotes_nil hys]
    exact .paren hl (exprRule_or_of (h vs hvs)) hr

/-- With its `OR` in parentheses, an operand of `AND` on the left or of `OR` on the right. -/
theorem exprRule_and_operand {ts : List Token} {e : Expr}
    (h : ExprRule (if e.isOr then .primary else e.level) ts e) : ExprRule .and ts e := by
  cases e with
  | and => exact h
  | _ => exact .ofPrimary h

/-- With its `OR` or `AND` in parentheses, an operand of `AND` on the right. -/
theorem exprRule_primary_operand {ts : List Token} {e : Expr}
    (h : ExprRule (if e.isOr || e.isAnd then .primary else e.level) ts e) :
    ExprRule .primary ts e := by
  cases e <;> exact h

theorem value_prints {e : Expr} (h : e.IsOperand) : Prints e.print ValueRule e := by
  intro ts hts
  cases e with
  | columnRef table column => exact .columnRef (printColumn_prints table column ts hts)
  | literal value => exact .literal (literal_prints value ts hts)
  | comparison | and | or => exact h.elim

theorem cmpRule_symbol (op : ComparisonOp) : CmpRule op.symbol op := by
  cases op <;> constructor

theorem expr_prints {e : Expr} (h : e.IsCondition) : Prints e.print (ExprRule e.level) e := by
  induction e with
  | columnRef | literal => exact h.elim
  | comparison op left right =>
    intro ts hts
    obtain ⟨us, vs, rfl, hus, hvs⟩ := denotes_append hts
    obtain ⟨t, vs, rfl, ht, hvs⟩ := denotes_cons hvs
    have hop : CmpRule t.type op := by
      rw [show t.type = op.symbol from ht]
      exact cmpRule_symbol op
    exact .comparison (value_prints h.1 us hus) hop (value_prints h.2 vs hvs)
  | and left right ihl ihr =>
    intro ts hts
    obtain ⟨us, vs, rfl, hus, hvs⟩ := denotes_append hts
    obtain ⟨t, ws, rfl, ht, hws⟩ := denotes_cons hvs
    exact .and (exprRule_and_operand (parenIf_prints (ihl h.1) us hus)) ht
      (exprRule_primary_operand (parenIf_prints (ihr h.2) ws hws))
  | or left right ihl ihr =>
    intro ts hts
    obtain ⟨us, vs, rfl, hus, hvs⟩ := denotes_append hts
    obtain ⟨t, ws, rfl, ht, hws⟩ := denotes_cons hvs
    exact .or (exprRule_or_of (ihl h.1 us hus)) ht
      (exprRule_and_operand (parenIf_prints (ihr h.2) ws hws))

theorem condition_prints {e : Expr} (h : e.IsCondition) : Prints e.print (ExprRule .or) e :=
  fun ts hts => exprRule_or_of (expr_prints h ts hts)

/-! ### Statements -/

theorem columnDef_prints (c : ColumnDef) : Prints c.print ColumnDefRule c := by
  intro ts hts
  obtain ⟨name, type, isPrimaryKey⟩ := c
  obtain ⟨n, us, rfl, ⟨hn, rfl⟩, hus⟩ := denotes_cons hts
  obtain ⟨t, vs, rfl, ht, hvs⟩ := denotes_cons hus
  have htype : TypeRule t.type type := by
    rw [show t.type = type.keyword from ht]
    cases type <;> constructor
  cases isPrimaryKey with
  | false =>
    rw [denotes_nil hvs]
    exact .plain hn htype
  | true =>
    obtain ⟨p, ws, rfl, hp, hws⟩ := denotes_cons hvs
    obtain ⟨k, ys, rfl, hk, hys⟩ := denotes_cons hws
    rw [denotes_nil hys]
    exact .primaryKey hn htype hp hk

theorem tableRef_prints (t : TableRef) : Prints t.print TableRefRule t := by
  intro ts hts
  obtain ⟨n, us, rfl, ⟨hn, hname⟩, hus⟩ := denotes_cons hts
  obtain ⟨table, aliasName⟩ := t
  obtain rfl : n.text = table := hname
  exact .mk hn (printAlias_prints aliasName us hus)

theorem selectItem_prints (i : SelectItem) : Prints i.print SelectItemRule i := by
  intro ts hts
  obtain ⟨us, vs, rfl, hus, hvs⟩ := denotes_append hts
  exact .mk (printColumn_prints i.table i.column us hus) (printAlias_prints i.aliasName vs hvs)

theorem joinClause_prints {j : JoinClause} (h : j.onCondition.IsCondition) :
    Prints j.print JoinRule j := by
  intro ts hts
  obtain ⟨us, vs, rfl, hus, hvs⟩ := denotes_append hts
  obtain ⟨k, ws, rfl, hk, hws⟩ := denotes_cons hus
  obtain ⟨o, ys, rfl, ho, hys⟩ := denotes_cons hvs
  exact .mk hk (tableRef_prints j.table ws hws) ho (condition_prints h ys hys)

theorem joins_prints {joins : List JoinClause} (h : ∀ j ∈ joins, j.onCondition.IsCondition) :
    Prints (joins.flatMap JoinClause.print) (Many JoinRule) joins := by
  induction joins with
  | nil =>
    intro ts hts
    rw [denotes_nil hts]
    exact .nil
  | cons j joins ih =>
    intro ts hts
    rw [List.flatMap_cons] at hts
    obtain ⟨us, vs, rfl, hus, hvs⟩ := denotes_append hts
    exact .cons (joinClause_prints (h j List.mem_cons_self) us hus)
      (ih (fun k hk => h k (List.mem_cons_of_mem j hk)) vs hvs)

theorem createTable_prints {s : CreateTableStmt} (h : s.columns ≠ []) :
    Prints (Statement.createTable s).print CreateRule s := by
  intro ts hts
  obtain ⟨tableName, columns⟩ := s
  obtain ⟨us, vs, rfl, hus, hvs⟩ := denotes_append hts
  obtain ⟨r, ws, rfl, hr, hws⟩ := denotes_cons hvs
  rw [denotes_nil hws]
  obtain ⟨c, us₁, rfl, hc, hus₁⟩ := denotes_cons hus
  obtain ⟨t, us₂, rfl, ht, hus₂⟩ := denotes_cons hus₁
  obtain ⟨n, us₃, rfl, ⟨hn, rfl⟩, hus₃⟩ := denotes_cons hus₂
  obtain ⟨l, us₄, rfl, hl, hus₄⟩ := denotes_cons hus₃
  exact .mk hc ht hn hl (printList_prints h (fun c _ => columnDef_prints c) us₄ hus₄) hr

theorem columnNames_prints (columns : List Bytes) :
    Prints (printColumnNames columns) ColumnNamesRule columns := by
  intro ts hts
  unfold printColumnNames at hts
  split at hts
  · next h =>
    rw [denotes_nil hts, h]
    exact .absent
  · next h =>
    obtain ⟨us, vs, rfl, hus, hvs⟩ := denotes_append hts
    obtain ⟨r, ws, rfl, hr, hws⟩ := denotes_cons hvs
    rw [denotes_nil hws]
    obtain ⟨l, us₁, rfl, hl, hus₁⟩ := denotes_cons hus
    exact .present hl (printList_prints h (fun c _ => ident_prints c) us₁ hus₁) hr

theorem insert_prints {s : InsertStmt} (h : s.values ≠ []) :
    Prints (Statement.insert s).print InsertRule s := by
  intro ts hts
  obtain ⟨tableName, columns, values⟩ := s
  obtain ⟨us, vs, rfl, hus, hvs⟩ := denotes_append hts
  obtain ⟨r, ws, rfl, hr, hws⟩ := denotes_cons hvs
  rw [denotes_nil hws]
  obtain ⟨names, list, rfl, hnames, hlist⟩ := denotes_append hus
  obtain ⟨i, us₁, rfl, hi, hus₁⟩ := denotes_cons hnames
  obtain ⟨o, us₂, rfl, ho, hus₂⟩ := denotes_cons hus₁
  obtain ⟨n, us₃, rfl, ⟨hn, rfl⟩, hus₃⟩ := denotes_cons hus₂
  obtain ⟨v, list₁, rfl, hv, hlist₁⟩ := denotes_cons hlist
  obtain ⟨l, list₂, rfl, hl, hlist₂⟩ := denotes_cons hlist₁
  exact .mk hi ho hn (columnNames_prints columns us₃ hus₃) hv hl
    (printList_prints h (fun v _ => literal_prints v) list₂ hlist₂) hr

theorem selectList_prints {isStar : Bool} {items : List SelectItem}
    (h : isStar = true ↔ items = []) :
    Prints (if isStar then [.symbol .star] else printList (items.map SelectItem.print))
      SelectListRule (isStar, items) := by
  intro ts hts
  cases isStar with
  | true =>
    obtain ⟨t, us, rfl, ht, hus⟩ := denotes_cons hts
    rw [denotes_nil hus, h.mp rfl]
    exact .star ht
  | false =>
    have hne : items ≠ [] := fun hnil => Bool.false_ne_true (h.mpr hnil)
    exact .items (printList_prints hne (fun i _ => selectItem_prints i) ts hts)

theorem where_prints {condition : Option Expr} (h : ∀ e ∈ condition, e.IsCondition) :
    Prints (printWhere condition) (Optional .where (ExprRule .or)) condition := by
  intro ts hts
  cases condition with
  | none =>
    rw [denotes_nil hts]
    exact .absent
  | some e =>
    obtain ⟨t, us, rfl, ht, hus⟩ := denotes_cons hts
    exact .present ht (condition_prints (h e rfl) us hus)

theorem select_prints {s : SelectStmt} (h : (Statement.select s).Shaped) :
    Prints (Statement.select s).print SelectRule s := by
  intro ts hts
  obtain ⟨isStar, items, table, joins, condition⟩ := s
  obtain ⟨hitems, hjoins, hwhere⟩ := h
  obtain ⟨us, ws, rfl, hus, hws⟩ := denotes_append hts
  obtain ⟨us, vs, rfl, hus, hvs⟩ := denotes_append hus
  obtain ⟨list, source, rfl, hlist, hsource⟩ := denotes_append hus
  obtain ⟨k, list₁, rfl, hk, hlist₁⟩ := denotes_cons hlist
  obtain ⟨f, source₁, rfl, hf, hsource₁⟩ := denotes_cons hsource
  exact .mk hk (selectList_prints hitems list₁ hlist₁) hf (tableRef_prints table source₁ hsource₁)
    (joins_prints hjoins vs hvs) (where_prints hwhere ws hws)

theorem statement_prints {stmt : Statement} (h : stmt.Shaped) : Prints stmt.print BodyRule stmt := by
  intro ts hts
  cases stmt with
  | createTable s => exact .create (createTable_prints h ts hts)
  | insert s => exact .insert (insert_prints h ts hts)
  | select s => exact .select (select_prints h ts hts)

/-- **Printing, then parsing, is the identity.** -/
theorem parseSQL_renders {stmt : Statement} {sql : Bytes} (h : stmt.Shaped)
    (hsql : Renders stmt sql) : parseSQL sql = .ok stmt := by
  obtain ⟨words, hwords, rfl⟩ := hsql
  obtain ⟨ts, t, l, hrun, hts, ht⟩ := Lexer.tokenize_spelled hwords
  have hrule : StatementRule (ts ++ [t]) stmt := .plain (statement_prints h ts hts) ht
  obtain ⟨p, hparse⟩ := Parser.parseStatement_of_rule hrule (Parser.rest_new _)
  simp only [parseSQL, hrun, hparse]

/-- `select * From t WHERE a != 'it''s'`. -/
theorem parseSQL_renders_select :
    parseSQL (text "select * From t WHERE a != 'it''s'") =
      .ok (.select ⟨true, [], ⟨text "t", none⟩, [],
        some (.comparison .neq (.columnRef none (text "a")) (.literal (.text (text "it's"))))⟩) := by
  refine parseSQL_renders ⟨⟨fun _ => rfl, fun _ => rfl⟩, nofun, fun _ h => ?_⟩
    ⟨[text "select", text "*", text "From", text "t", text "WHERE", text "a", text "!=",
      text "'it''s'"], ?_, rfl⟩
  · cases h
    exact ⟨trivial, trivial⟩
  · have hname : ∀ c : UInt8, c = 116 ∨ c = 97 → IsIdentifier [c] := by
      rintro c (rfl | rfl) <;> exact ⟨rfl, by decide +kernel, by decide +kernel⟩
    exact .cons (.keyword (by decide)) <| .cons (.symbol (by decide)) <|
      .cons (.keyword (by decide)) <| .cons (.ident (hname 116 (.inl rfl))) <|
      .cons (.keyword (by decide)) <| .cons (.ident (hname 97 (.inr rfl))) <|
      .cons (.symbol (by decide)) <| .cons (@Spelled.string (text "it's")) .nil

end Reldb
