import Reldb.Ast
import Reldb.Lexer
import Reldb.Lib.Language

/-!
# Reldb — the grammar of statements

The grammar the parser is meant for, as rules that relate a token list to the statement it spells.
The expression rules are left-recursive, which is what makes `AND` and `OR` associate to the left;
`exprRule_or_iff` and `exprRule_and_iff` give them as iterations.
-/

namespace Reldb

open Language

/-! ## Parts -/

/-- A token of the type, then a word of `L`. -/
inductive After {α : Type} (type : TokenType) (L : Rule Token α) : Rule Token α
  | mk {t : Token} {ts : List Token} {a : α} (head : t.type = type) (tail : L ts a) :
      After type L (t :: ts) a

/-- A token of the type and a word of `L`, or nothing. -/
inductive Optional {α : Type} (type : TokenType) (L : Rule Token α) : Rule Token (Option α)
  | absent : Optional type L [] none
  | present {t : Token} {ts : List Token} {a : α} (head : t.type = type) (tail : L ts a) :
      Optional type L (t :: ts) (some a)

/-- `L {, L}`. -/
inductive CommaList {α : Type} (L : Rule Token α) : Rule Token (List α)
  | mk {ts us : List Token} {a : α} {as : List α} (first : L ts a)
      (rest : Many (After .comma L) us as) : CommaList L (ts ++ us) (a :: as)

inductive IdentRule : Rule Token Bytes
  | mk {t : Token} (type : t.type = .identifier) : IdentRule [t] t.text

inductive LiteralRule : Rule Token Literal
  | integer {t : Token} (type : t.type = .integerLiteral) : LiteralRule [t] (.integer t.intValue)
  | text {t : Token} (type : t.type = .stringLiteral) : LiteralRule [t] (.text t.stringValue)

/-- `[ident .] ident`. -/
inductive ColumnRefRule : Rule Token (Option Bytes × Bytes)
  | plain {t : Token} (name : t.type = .identifier) : ColumnRefRule [t] (none, t.text)
  | qualified {t d u : Token} (table : t.type = .identifier) (dot : d.type = .dot)
      (name : u.type = .identifier) : ColumnRefRule [t, d, u] (some t.text, u.text)

/-! ## Expressions -/

inductive ValueRule : Rule Token Expr
  | columnRef {ts : List Token} {table : Option Bytes} {column : Bytes}
      (ref : ColumnRefRule ts (table, column)) : ValueRule ts (.columnRef table column)
  | literal {ts : List Token} {value : Literal} (literal : LiteralRule ts value) :
      ValueRule ts (.literal value)

/-- The operator a token type stands for. -/
inductive CmpRule : TokenType → ComparisonOp → Prop
  | eq : CmpRule .eq .eq
  | neq : CmpRule .neq .neq
  | lt : CmpRule .lt .lt
  | lte : CmpRule .lte .lte
  | gt : CmpRule .gt .gt
  | gte : CmpRule .gte .gte

/-- The three rules an expression is made by. -/
inductive Level where
  | or
  | and
  | primary

/-- `or = and | or OR and`, `and = prim | and AND prim`, `prim = ( or ) | value cmp value`. -/
inductive ExprRule : Level → Rule Token Expr
  | ofAnd {ts : List Token} {e : Expr} (h : ExprRule .and ts e) : ExprRule .or ts e
  | or {ts us : List Token} {t : Token} {a b : Expr} (left : ExprRule .or ts a)
      (op : t.type = .or) (right : ExprRule .and us b) : ExprRule .or (ts ++ t :: us) (.or a b)
  | ofPrimary {ts : List Token} {e : Expr} (h : ExprRule .primary ts e) : ExprRule .and ts e
  | and {ts us : List Token} {t : Token} {a b : Expr} (left : ExprRule .and ts a)
      (op : t.type = .and) (right : ExprRule .primary us b) :
      ExprRule .and (ts ++ t :: us) (.and a b)
  | paren {ts : List Token} {l r : Token} {e : Expr} (lparen : l.type = .lparen)
      (inner : ExprRule .or ts e) (rparen : r.type = .rparen) :
      ExprRule .primary (l :: ts ++ [r]) e
  | comparison {ts us : List Token} {t : Token} {op : ComparisonOp} {a b : Expr}
      (left : ValueRule ts a) (cmp : CmpRule t.type op) (right : ValueRule us b) :
      ExprRule .primary (ts ++ t :: us) (.comparison op a b)

/-! ## Statements -/

inductive TypeRule : TokenType → ColumnType → Prop
  | integer : TypeRule .integerType .integer
  | text : TypeRule .textType .text

/-- `ident (INTEGER | TEXT) [PRIMARY KEY]`. -/
inductive ColumnDefRule : Rule Token ColumnDef
  | plain {n t : Token} {type : ColumnType} (name : n.type = .identifier)
      (typeName : TypeRule t.type type) : ColumnDefRule [n, t] ⟨n.text, type, false⟩
  | primaryKey {n t p k : Token} {type : ColumnType} (name : n.type = .identifier)
      (typeName : TypeRule t.type type) (primary : p.type = .primary) (key : k.type = .key) :
      ColumnDefRule [n, t, p, k] ⟨n.text, type, true⟩

/-- `CREATE TABLE ident ( coldef {, coldef} )`. -/
inductive CreateRule : Rule Token CreateTableStmt
  | mk {c t n l r : Token} {ts : List Token} {columns : List ColumnDef} (create : c.type = .create)
      (table : t.type = .table) (name : n.type = .identifier) (lparen : l.type = .lparen)
      (list : CommaList ColumnDefRule ts columns) (rparen : r.type = .rparen) :
      CreateRule (c :: t :: n :: l :: ts ++ [r]) ⟨n.text, columns⟩

/-- `[( ident {, ident} )]`. -/
inductive ColumnNamesRule : Rule Token (List Bytes)
  | absent : ColumnNamesRule [] []
  | present {l r : Token} {ts : List Token} {columns : List Bytes} (lparen : l.type = .lparen)
      (list : CommaList IdentRule ts columns) (rparen : r.type = .rparen) :
      ColumnNamesRule (l :: ts ++ [r]) columns

/-- `INSERT INTO ident [( ident {, ident} )] VALUES ( literal {, literal} )`. -/
inductive InsertRule : Rule Token InsertStmt
  | mk {i o n v l r : Token} {ts us : List Token} {columns : List Bytes} {values : List Literal}
      (insert : i.type = .insert) (into : o.type = .into) (name : n.type = .identifier)
      (names : ColumnNamesRule ts columns) (keyword : v.type = .values) (lparen : l.type = .lparen)
      (list : CommaList LiteralRule us values) (rparen : r.type = .rparen) :
      InsertRule (i :: o :: n :: ts ++ v :: l :: us ++ [r]) ⟨n.text, columns, values⟩

/-- `ident [AS ident]`. -/
inductive TableRefRule : Rule Token TableRef
  | mk {n : Token} {ts : List Token} {aliasName : Option Bytes} (name : n.type = .identifier)
      (as : Optional .as IdentRule ts aliasName) : TableRefRule (n :: ts) ⟨n.text, aliasName⟩

/-- `[ident .] ident [AS ident]`. -/
inductive SelectItemRule : Rule Token SelectItem
  | mk {ts us : List Token} {table : Option Bytes} {column : Bytes} {aliasName : Option Bytes}
      (ref : ColumnRefRule ts (table, column)) (as : Optional .as IdentRule us aliasName) :
      SelectItemRule (ts ++ us) ⟨table, column, aliasName⟩

/-- `JOIN tref ON expr`. -/
inductive JoinRule : Rule Token JoinClause
  | mk {j o : Token} {ts us : List Token} {table : TableRef} {on : Expr} (join : j.type = .join)
      (tableRef : TableRefRule ts table) (keyword : o.type = .on) (condition : ExprRule .or us on) :
      JoinRule (j :: ts ++ o :: us) ⟨table, on⟩

/-- `* | item {, item}`. -/
inductive SelectListRule : Rule Token (Bool × List SelectItem)
  | star {t : Token} (star : t.type = .star) : SelectListRule [t] (true, [])
  | items {ts : List Token} {items : List SelectItem} (list : CommaList SelectItemRule ts items) :
      SelectListRule ts (false, items)

/-- `SELECT list FROM tref {JOIN tref ON expr} [WHERE expr]`. -/
inductive SelectRule : Rule Token SelectStmt
  | mk {s f : Token} {ts us vs ws : List Token} {isStar : Bool} {items : List SelectItem}
      {table : TableRef} {joins : List JoinClause} {condition : Option Expr}
      (select : s.type = .select) (list : SelectListRule ts (isStar, items))
      (keyword : f.type = .from) (tableRef : TableRefRule us table) (joined : Many JoinRule vs joins)
      (filter : Optional .where (ExprRule .or) ws condition) :
      SelectRule (s :: ts ++ f :: us ++ vs ++ ws) ⟨isStar, items, table, joins, condition⟩

inductive BodyRule : Rule Token Statement
  | create {ts : List Token} {stmt : CreateTableStmt} (h : CreateRule ts stmt) :
      BodyRule ts (.createTable stmt)
  | insert {ts : List Token} {stmt : InsertStmt} (h : InsertRule ts stmt) :
      BodyRule ts (.insert stmt)
  | select {ts : List Token} {stmt : SelectStmt} (h : SelectRule ts stmt) :
      BodyRule ts (.select stmt)

/-- `(create | insert | select) [;] END`. -/
inductive StatementRule : Rule Token Statement
  | plain {ts : List Token} {t : Token} {stmt : Statement} (body : BodyRule ts stmt)
      (last : t.type = .endOfInput) : StatementRule (ts ++ [t]) stmt
  | semicolon {ts : List Token} {s t : Token} {stmt : Statement} (body : BodyRule ts stmt)
      (semicolon : s.type = .semicolon) (last : t.type = .endOfInput) :
      StatementRule (ts ++ [s, t]) stmt

/-! ## The expression rules as iterations -/

theorem exprRule_or_chain {ts : List Token} {e : Expr} : ExprRule .or ts e ↔
    Chain (ExprRule .and) (After .or (ExprRule .and)) Expr.or ts e := by
  constructor
  · intro h
    generalize hlevel : Level.or = level at h
    induction h with
    | ofAnd h => exact .one h
    | or left op right ih => exact .more (ih rfl) (.mk op right)
    | _ => cases hlevel
  · intro h
    induction h with
    | one h => exact .ofAnd h
    | more h h' ih =>
      obtain ⟨head, tail⟩ := h'
      exact .or ih head tail

theorem exprRule_and_chain {ts : List Token} {e : Expr} : ExprRule .and ts e ↔
    Chain (ExprRule .primary) (After .and (ExprRule .primary)) Expr.and ts e := by
  constructor
  · intro h
    generalize hlevel : Level.and = level at h
    induction h with
    | ofPrimary h => exact .one h
    | and left op right ih => exact .more (ih rfl) (.mk op right)
    | _ => cases hlevel
  · intro h
    induction h with
    | one h => exact .ofPrimary h
    | more h h' ih =>
      obtain ⟨head, tail⟩ := h'
      exact .and ih head tail

/-- `expr = and {OR and}`, its operands combined from the left. -/
theorem exprRule_or_iff {ts : List Token} {e : Expr} : ExprRule .or ts e ↔
    ∃ us vs a bs, ExprRule .and us a ∧ Many (After .or (ExprRule .and)) vs bs ∧ ts = us ++ vs ∧
      e = bs.foldl .or a :=
  exprRule_or_chain.trans chain_iff

/-- `and = prim {AND prim}`, its operands combined from the left. -/
theorem exprRule_and_iff {ts : List Token} {e : Expr} : ExprRule .and ts e ↔
    ∃ us vs a bs, ExprRule .primary us a ∧ Many (After .and (ExprRule .primary)) vs bs ∧
      ts = us ++ vs ∧ e = bs.foldl .and a :=
  exprRule_and_chain.trans chain_iff

end Reldb
