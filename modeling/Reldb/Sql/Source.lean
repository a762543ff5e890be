import Reldb.Lexer
import Reldb.Lib.Munch

/-!
# Reldb — the lexical structure of a statement's text

What the bytes of a statement are, before any lexer reads them: the lexemes, each told from the
others by its first byte; the tokens they stand for; where they stand, by line and column; and the
faults, the ends of texts that no token begins. Every text is cut into lexemes up to its first fault
(`exists_cuts`).
-/

namespace Reldb

variable {c d : UInt8} {bs rest : Bytes}

/-! ## Lexemes -/

/-- What a word goes on with. -/
def isWordByte (c : UInt8) : Bool := isAlnum c || c == byte '_'

/-- What a word begins with. -/
def isWordStart (c : UInt8) : Bool := isAlpha c || c == byte '_'

/-- The contents of a string literal, its quotes doubled. -/
def escape (value : Bytes) : Bytes :=
  value.flatMap fun c => if c = byte '\'' then [byte '\'', byte '\''] else [c]

/-- A string literal. -/
def quoted (value : Bytes) : Bytes := byte '\'' :: (escape value ++ [byte '\''])

/-- Punctuation and operators. -/
def symbolTable : List (Bytes × TokenType) :=
  [(text "*", .star), (text ",", .comma), (text ".", .dot), (text ";", .semicolon),
    (text "(", .lparen), (text ")", .rparen), (text "=", .eq), (text "!=", .neq),
    (text "<", .lt), (text "<=", .lte), (text ">", .gt), (text ">=", .gte)]

def IsWord (w : Bytes) : Prop :=
  (∃ c ∈ w.head?, isWordStart c = true) ∧ ∀ c ∈ w, isWordByte c = true

def IsNumber (w : Bytes) : Prop := w ≠ [] ∧ ∀ c ∈ w, isDigit c = true

inductive IsLexeme : Bytes → Prop
  | word {w : Bytes} (h : IsWord w) : IsLexeme w
  | number {w : Bytes} (h : IsNumber w) : IsLexeme w
  | string (value : Bytes) : IsLexeme (quoted value)
  | symbol {w : Bytes} {type : TokenType} (h : (w, type) ∈ symbolTable) : IsLexeme w

/-- `w` is a lexeme of the text `w ++ rest`: the longest there is at its place, and, if a string,
closed by the first of its quotes that is not doubled. -/
structure LexemeAt (w rest : Bytes) : Prop where
  longest : Munch.Longest IsLexeme w rest
  closed : byte '\'' ∈ w.head? → byte '\'' ∉ rest.head?

/-! ## Tokens -/

/-- The token a lexeme stands for, at a line and a column. -/
inductive TokenAt (line column : Nat) : Bytes → Token → Prop
  | word {w : Bytes} (h : IsWord w) :
      TokenAt line column w ⟨(keywordTable.lookup (toUpper w)).getD .identifier, w, 0, [], line, column⟩
  | number {w : Bytes} (h : IsNumber w) {value : Int64} (hvalue : value.toInt = digitsValue w) :
      TokenAt line column w ⟨.integerLiteral, w, value, [], line, column⟩
  | string (value : Bytes) :
      TokenAt line column (quoted value) ⟨.stringLiteral, value, 0, value, line, column⟩
  | symbol {w : Bytes} {type : TokenType} (h : (w, type) ∈ symbolTable) :
      TokenAt line column w ⟨type, w, 0, [], line, column⟩

/-! ## Places -/

/-- The line of the byte after these, counted from 1. -/
def lineAfter (before : Bytes) : Nat := 1 + before.count (byte '\n')

/-- The column of the byte after these, counted from 1. -/
def columnAfter (before : Bytes) : Nat :=
  1 + (before.reverse.takeWhile fun c => c != byte '\n').length

/-- The tokens of a text's pieces; `before` is what precedes them. -/
inductive Tokens : Bytes → List (Bytes × Bytes) → List Token → Prop
  | nil {before : Bytes} : Tokens before [] []
  | cons {before space w : Bytes} {pieces : List (Bytes × Bytes)} {t : Token} {ts : List Token}
      (ht : TokenAt (lineAfter (before ++ space)) (columnAfter (before ++ space)) w t)
      (h : Tokens (before ++ (space ++ w)) pieces ts) :
      Tokens before ((space, w) :: pieces) (t :: ts)

/-! ## Faults -/

/-- A text that begins with what is no token, and the message for it. -/
inductive Fault : Bytes → Bytes → Prop
  | unterminated (value : Bytes) :
      Fault (byte '\'' :: escape value) (text "unterminated string literal")
  | bang {rest : Bytes} (h : byte '=' ∉ rest.head?) :
      Fault (byte '!' :: rest) (text "unexpected character '!' (did you mean '!='?)")
  | stray {c : UInt8} {rest : Bytes} (h : ∀ w, IsLexeme w → c ∉ w.head?) (hc : isSpace c = false) :
      Fault (c :: rest) (text "unexpected character '" ++ [c] ++ text "'")

/-- The pieces of a text: white space and lexemes. -/
abbrev Cuts : Bytes → List (Bytes × Bytes) → Bytes → Prop :=
  Munch.Cuts (fun c => isSpace c = true) LexemeAt

/-- No number among the pieces is too large for its token. -/
def Fits (pieces : List (Bytes × Bytes)) : Prop :=
  ∀ p ∈ pieces, IsNumber p.2 → digitsValue p.2 < 2 ^ 63

/-! ## First bytes -/

theorem isSpace_eq_false (h : 33 ≤ c.toNat) : isSpace c = false := by
  have h9 : (9 : UInt8).toNat = 9 := rfl
  have h13 : (13 : UInt8).toNat = 13 := rfl
  have h32 : (32 : UInt8).toNat = 32 := rfl
  simp only [isSpace, Bool.or_eq_false_iff, Bool.and_eq_false_iff, decide_eq_false_iff_not,
    beq_eq_false_iff_ne, ne_eq, UInt8.le_iff_toNat_le, ← UInt8.toNat_inj]
  omega

theorem le_of_isDigit (h : isDigit c = true) : 33 ≤ c.toNat := by
  have h48 : (48 : UInt8).toNat = 48 := rfl
  simp only [isDigit, Bool.and_eq_true, decide_eq_true_eq, UInt8.le_iff_toNat_le] at h
  omega

theorem le_of_isWordStart (h : isWordStart c = true) : 33 ≤ c.toNat := by
  have h65 : (65 : UInt8).toNat = 65 := rfl
  have h97 : (97 : UInt8).toNat = 97 := rfl
  simp only [isWordStart, isAlpha, Bool.or_eq_true, Bool.and_eq_true, decide_eq_true_eq,
    UInt8.le_iff_toNat_le, beq_iff_eq] at h
  rcases h with h | rfl
  · omega
  · decide

theorem isWordByte_of_isWordStart (h : isWordStart c = true) : isWordByte c = true := by
  simp only [isWordStart, isWordByte, isAlnum, Bool.or_eq_true] at h ⊢
  tauto

theorem not_isWordStart_of_isDigit (h : isDigit c = true) : isWordStart c = false := by
  simp only [isDigit, Bool.and_eq_true, decide_eq_true_eq] at h
  obtain ⟨h₁, h₂⟩ := h
  rw [UInt8.le_iff_toNat_le] at h₁ h₂
  have h₁ : 48 ≤ c.toNat := h₁
  have h₂ : c.toNat ≤ 57 := h₂
  have hbyte : (byte '_').toNat = 95 := rfl
  simp only [isWordStart, isAlpha, Bool.or_eq_false_iff, Bool.and_eq_false_iff,
    decide_eq_false_iff_not, UInt8.le_iff_toNat_le, beq_eq_false_iff_ne, ne_eq, ← UInt8.toNat_inj,
    hbyte]
  have h65 : (65 : UInt8).toNat = 65 := rfl
  have h97 : (97 : UInt8).toNat = 97 := rfl
  omega

/-- Symbols are of one or two bytes, and begin as nothing else does. -/
theorem symbolTable_spec : ∀ p ∈ symbolTable, (p.1.length = 1 ∨ p.1.length = 2) ∧
    ∃ c ∈ p.1.head?, isWordStart c = false ∧ isDigit c = false ∧ c ≠ byte '\'' ∧ 33 ≤ c.toNat := by
  decide +kernel

/-- Every symbol of two bytes has its first byte for a symbol, but `!=`. -/
theorem symbolTable_first : ∀ p ∈ symbolTable, ∀ c ∈ p.1.head?,
    (∃ type, ([c], type) ∈ symbolTable) ∨ c = byte '!' ∧ p.1 = [byte '!', byte '='] := by
  have hall : ∀ p ∈ symbolTable, ∀ c ∈ p.1.head?,
      (∃ q ∈ symbolTable, q.1 = [c]) ∨ c = byte '!' ∧ p.1 = [byte '!', byte '='] := by decide +kernel
  intro p hp c hc
  refine (hall p hp c hc).imp_left ?_
  rintro ⟨⟨_, type⟩, hq, rfl⟩
  exact ⟨type, hq⟩

theorem IsLexeme.exists_head {w : Bytes} (h : IsLexeme w) : ∃ c cs, w = c :: cs ∧ 33 ≤ c.toNat := by
  suffices hhead : ∃ c ∈ w.head?, 33 ≤ c.toNat by
    obtain ⟨c, hc, hle⟩ := hhead
    exact ⟨c, w.tail, (List.cons_head?_tail hc).symm, hle⟩
  cases h with
  | word hw =>
    obtain ⟨⟨c, hc, hstart⟩, -⟩ := hw
    exact ⟨c, hc, le_of_isWordStart hstart⟩
  | number hw =>
    obtain ⟨hne, hdigits⟩ := hw
    obtain ⟨c, cs, rfl⟩ := List.exists_cons_of_ne_nil hne
    exact ⟨c, rfl, le_of_isDigit (hdigits c List.mem_cons_self)⟩
  | string value => exact ⟨byte '\'', rfl, by decide⟩
  | symbol hw =>
    obtain ⟨-, c, hc, -, -, -, hle⟩ := symbolTable_spec _ hw
    exact ⟨c, hc, hle⟩

section

variable {w : Bytes} (h : IsLexeme (c :: w))
include h

/-- The first byte tells what a lexeme is. -/
theorem IsLexeme.word_of_head (hc : isWordStart c = true) : IsWord (c :: w) := by
  generalize hw : c :: w = w' at h
  cases h with
  | word h => exact h
  | number h =>
    subst hw
    rw [not_isWordStart_of_isDigit (h.2 c List.mem_cons_self)] at hc
    cases hc
  | string value =>
    obtain ⟨rfl, -⟩ := List.cons.inj hw
    exact absurd hc (by decide)
  | symbol h =>
    subst hw
    obtain ⟨-, _, ⟨⟩, hno, -⟩ := symbolTable_spec _ h
    rw [hno] at hc
    cases hc

theorem IsLexeme.number_of_head (hc : isDigit c = true) : IsNumber (c :: w) := by
  generalize hw : c :: w = w' at h
  cases h with
  | word h =>
    subst hw
    obtain ⟨⟨_, ⟨⟩, hstart⟩, -⟩ := h
    rw [not_isWordStart_of_isDigit hc] at hstart
    cases hstart
  | number h => exact h
  | string value =>
    obtain ⟨rfl, -⟩ := List.cons.inj hw
    exact absurd hc (by decide)
  | symbol h =>
    subst hw
    obtain ⟨-, _, ⟨⟩, -, hno, -⟩ := symbolTable_spec _ h
    rw [hno] at hc
    cases hc

theorem IsLexeme.string_of_head (hc : c = byte '\'') : ∃ value, c :: w = quoted value := by
  generalize hw : c :: w = w' at h
  subst hc
  cases h with
  | word h =>
    subst hw
    obtain ⟨⟨_, ⟨⟩, hstart⟩, -⟩ := h
    exact absurd hstart (by decide)
  | number h =>
    subst hw
    exact absurd (h.2 _ List.mem_cons_self) (by decide)
  | string value => exact ⟨value, rfl⟩
  | symbol h =>
    subst hw
    obtain ⟨-, _, ⟨⟩, -, -, hno, -⟩ := symbolTable_spec _ h
    exact absurd rfl hno

theorem IsLexeme.symbol_of_head (h₁ : isWordStart c = false) (h₂ : isDigit c = false)
    (h₃ : c ≠ byte '\'') : ∃ type, (c :: w, type) ∈ symbolTable := by
  generalize hw : c :: w = w' at h
  cases h with
  | word h =>
    subst hw
    obtain ⟨⟨_, ⟨⟩, hstart⟩, -⟩ := h
    rw [h₁] at hstart
    cases hstart
  | number h =>
    subst hw
    rw [h.2 c List.mem_cons_self] at h₂
    cases h₂
  | string value =>
    obtain ⟨rfl, -⟩ := List.cons.inj hw
    exact absurd rfl h₃
  | symbol h => exact ⟨_, h⟩

end

/-! ## Where lexemes end -/

/-- The run ends here: the next byte fails the test, or there is none. -/
def Lexer.Stops (test : UInt8 → Bool) (tail : Bytes) : Prop := ∀ c ∈ tail.head?, test c = false

open Lexer (Stops)

/-- A run that cannot go on is the longest, when all its like are such runs. -/
theorem longest_of_stops {test : UInt8 → Bool} {w : Bytes} (hw : IsLexeme (c :: w))
    (hlike : ∀ w', IsLexeme (c :: w') → ∀ d ∈ c :: w', test d = true) (hrest : Stops test rest) :
    Munch.Longest IsLexeme (c :: w) rest := by
  refine ⟨hw, fun w' hw' hpre => ?_⟩
  obtain ⟨a, w', rfl, -⟩ := hw'.exists_head
  obtain ⟨rfl, hafter⟩ := List.cons_prefix_cons.mp hpre
  by_contra hlonger
  simp only [List.length_cons, Nat.add_le_add_iff_right, Nat.not_le] at hlonger
  have hafter : w' <+: w ++ rest := hafter
  -- the byte after the run is in the longer one
  obtain ⟨d, rest, rfl⟩ : ∃ d rest', rest = d :: rest' := by
    cases rest with
    | nil =>
      have hle := hafter.length_le
      rw [List.append_nil] at hle
      omega
    | cons d rest => exact ⟨d, rest, rfl⟩
  have hd : d ∈ w' := by
    have hget : w'[w.length]? = some d := by
      obtain ⟨t, ht⟩ := hafter
      rw [← List.getElem?_append_left hlonger, ht]
      simp
    exact List.mem_of_getElem? hget
  have hfalse := hrest d rfl
  rw [hlike w' hw' d (List.mem_cons_of_mem _ hd)] at hfalse
  cases hfalse

/-- What follows a lexeme of bytes that pass a test does not pass it, if the lexeme and it would make
another. -/
theorem stops_of_longest {test : UInt8 → Bool} {w : Bytes} (h : Munch.Longest IsLexeme w tail)
    (hlike : ∀ d, test d = true → IsLexeme (w ++ [d])) : Stops test tail := by
  intro d hd
  obtain ⟨tail, rfl⟩ : ∃ tail', tail = d :: tail' := ⟨tail.tail, (List.cons_head?_tail hd).symm⟩
  rw [Bool.eq_false_iff]
  intro htest
  exact h.not_concat (hlike d htest)

theorem IsWord.concat {w : Bytes} (h : IsWord w) (hd : isWordByte d = true) : IsWord (w ++ [d]) := by
  obtain ⟨⟨c, hc, hstart⟩, hall⟩ := h
  refine ⟨⟨c, ?_, hstart⟩, fun b hb => ?_⟩
  · rw [List.head?_append, Option.mem_def.mp hc]
    rfl
  · rcases List.mem_append.mp hb with hb | hb
    · exact hall b hb
    · exact List.mem_singleton.mp hb ▸ hd

theorem IsNumber.concat {w : Bytes} (h : IsNumber w) (hd : isDigit d = true) : IsNumber (w ++ [d]) := by
  refine ⟨List.append_ne_nil_of_left_ne_nil h.1 _, fun b hb => ?_⟩
  rcases List.mem_append.mp hb with hb | hb
  · exact h.2 b hb
  · exact List.mem_singleton.mp hb ▸ hd

theorem escape_cons (c : UInt8) (value : Bytes) :
    escape (c :: value) = (if c = byte '\'' then [byte '\'', byte '\''] else [c]) ++ escape value :=
  List.flatMap_cons

@[simp] theorem escape_quote (value : Bytes) :
    escape (byte '\'' :: value) = byte '\'' :: byte '\'' :: escape value := rfl

theorem escape_byte (hc : c ≠ byte '\'') (value : Bytes) : escape (c :: value) = c :: escape value := by
  rw [escape_cons, if_neg hc]
  rfl

/-- A text goes up to the first of its quotes that is not doubled, or has none. -/
theorem exists_escape (bs : Bytes) :
    (∃ value rest, bs = escape value ++ byte '\'' :: rest ∧ byte '\'' ∉ rest.head?) ∨
      ∃ value, bs = escape value := by
  induction hlen : bs.length using Nat.strongRecOn generalizing bs with
  | ind n ih =>
    cases bs with
    | nil => exact .inr ⟨[], rfl⟩
    | cons c bs =>
      rw [List.length_cons] at hlen
      by_cases hc : c = byte '\''
      · subst hc
        cases bs with
        | nil => exact .inl ⟨[], [], rfl, nofun⟩
        | cons d bs =>
          rw [List.length_cons] at hlen
          by_cases hd : d = byte '\''
          · subst hd
            rcases ih bs.length (by omega) bs rfl with ⟨value, rest, rfl, hrest⟩ | ⟨value, rfl⟩
            · exact .inl ⟨byte '\'' :: value, rest, rfl, hrest⟩
            · exact .inr ⟨byte '\'' :: value, rfl⟩
          · refine .inl ⟨[], d :: bs, rfl, fun h => hd ?_⟩
            exact Option.some.inj h
      · rcases ih bs.length (by omega) bs rfl with ⟨value, rest, rfl, hrest⟩ | ⟨value, rfl⟩
        · exact .inl ⟨c :: value, rest, by rw [escape_byte hc]; rfl, hrest⟩
        · exact .inr ⟨c :: value, (escape_byte hc value).symm⟩

/-- No other contents end further on than at a quote that is not doubled. -/
theorem escape_prefix {value value' : Bytes} (hrest : byte '\'' ∉ rest.head?)
    (h : escape value' ++ [byte '\''] <+: escape value ++ byte '\'' :: rest) :
    (escape value').length ≤ (escape value).length := by
  induction value' generalizing value with
  | nil => exact Nat.zero_le _
  | cons c value' ih =>
    cases value with
    | nil =>
      exfalso
      by_cases hc : c = byte '\''
      · subst hc
        obtain ⟨-, h⟩ := List.cons_prefix_cons.mp h
        obtain ⟨t, rfl⟩ := h
        exact hrest rfl
      · rw [escape_byte hc] at h
        exact hc (List.cons_prefix_cons.mp h).1
    | cons d value =>
      by_cases hc : c = byte '\''
      · subst hc
        by_cases hd : d = byte '\''
        · subst hd
          have h := (List.cons_prefix_cons.mp (List.cons_prefix_cons.mp h).2).2
          have := ih h
          simp only [escape_quote, List.length_cons]
          omega
        · rw [escape_byte hd] at h
          exact absurd (List.cons_prefix_cons.mp h).1.symm hd
      · rw [escape_byte hc] at h ⊢
        by_cases hd : d = byte '\''
        · subst hd
          exact absurd (List.cons_prefix_cons.mp h).1 hc
        · rw [escape_byte hd] at h ⊢
          have := ih (List.cons_prefix_cons.mp h).2
          simp only [List.length_cons]
          omega

theorem lexemeAt_quoted (value : Bytes) (hrest : byte '\'' ∉ rest.head?) :
    LexemeAt (quoted value) rest := by
  refine ⟨⟨.string value, fun w' hw' hpre => ?_⟩, fun _ => hrest⟩
  obtain ⟨a, w', rfl, -⟩ := hw'.exists_head
  obtain ⟨rfl, hafter⟩ := List.cons_prefix_cons.mp hpre
  obtain ⟨value', hvalue'⟩ := hw'.string_of_head rfl
  obtain ⟨-, rfl⟩ := List.cons.inj hvalue'
  have hafter : escape value' ++ [byte '\''] <+: escape value ++ [byte '\''] ++ rest := hafter
  rw [List.append_assoc] at hafter
  have := escape_prefix hrest hafter
  simp only [quoted, List.length_cons, List.length_append, List.length_nil]
  omega

theorem head_eq_of_ne_nil {w : Bytes} {a : UInt8} (hw : a ∈ w.head?) (hpre : w <+: c :: bs) :
    a = c := by
  obtain ⟨t, ht⟩ := hpre
  cases w with
  | nil => cases hw
  | cons b w =>
    cases hw
    exact (List.cons.inj ht).1

/-- A symbol is a lexeme where no longer symbol stands. -/
theorem lexemeAt_symbol {w : Bytes} {type : TokenType} (hw : (w, type) ∈ symbolTable)
    (hlongest : ∀ p ∈ symbolTable, p.1 <+: w ++ rest → p.1.length ≤ w.length) : LexemeAt w rest := by
  obtain ⟨-, c, hc, h₁, h₂, h₃, -⟩ := symbolTable_spec _ hw
  refine ⟨⟨.symbol hw, fun w' hw' hpre => ?_⟩, fun hquote => ?_⟩
  · obtain ⟨a, w', rfl, -⟩ := hw'.exists_head
    obtain ⟨cs, rfl⟩ : ∃ cs, w = c :: cs := ⟨w.tail, (List.cons_head?_tail hc).symm⟩
    obtain ⟨rfl, -⟩ := List.cons_prefix_cons.mp hpre
    obtain ⟨type', hmem⟩ := hw'.symbol_of_head h₁ h₂ h₃
    exact hlongest _ hmem hpre
  · exact absurd (Option.some.inj (hc.symm.trans hquote)) h₃

theorem stops_dropWhile (test : UInt8 → Bool) (bs : Bytes) : Stops test (bs.dropWhile test) := by
  intro d hd
  have hnot := List.head?_dropWhile_not test bs
  rw [Option.mem_def.mp hd] at hnot
  exact hnot

/-- A run of bytes that pass a test, as far as it goes. -/
theorem lexemeAt_run {test : UInt8 → Bool} (hw : IsLexeme (c :: bs.takeWhile test))
    (hlike : ∀ w', IsLexeme (c :: w') → ∀ d ∈ c :: w', test d = true) (hquote : c ≠ byte '\'') :
    ∃ w rest, c :: bs = w ++ rest ∧ LexemeAt w rest := by
  refine ⟨c :: bs.takeWhile test, bs.dropWhile test, ?_,
    longest_of_stops hw hlike (stops_dropWhile test bs), fun h => absurd (Option.some.inj h) hquote⟩
  rw [List.cons_append, List.takeWhile_append_dropWhile]

theorem all_takeWhile {test : UInt8 → Bool} (hc : test c = true) :
    ∀ d ∈ c :: bs.takeWhile test, test d = true := by
  intro d hd
  rcases List.mem_cons.mp hd with rfl | hd
  · exact hc
  · exact List.mem_takeWhile_imp hd

/-- Where a symbol stands, the longest there is a lexeme. -/
theorem lexemeAt_symbols {p : Bytes × TokenType} (hp : p ∈ symbolTable) (hpre : p.1 <+: bs) :
    ∃ w rest, bs = w ++ rest ∧ LexemeAt w rest := by
  by_cases hpair : ∃ q ∈ symbolTable, q.1.length = 2 ∧ q.1 <+: bs
  · obtain ⟨⟨w, type⟩, hq, hlen, rest, rfl⟩ := hpair
    refine ⟨w, rest, rfl, lexemeAt_symbol hq fun r hr _ => ?_⟩
    have hlen : w.length = 2 := hlen
    have := (symbolTable_spec r hr).1
    omega
  · have hsingle : ∀ r ∈ symbolTable, r.1 <+: bs → r.1.length = 1 := fun r hr hr' =>
      (symbolTable_spec r hr).1.resolve_right fun h => hpair ⟨r, hr, h, hr'⟩
    have hlen := hsingle p hp hpre
    obtain ⟨w, type⟩ := p
    obtain ⟨rest, rfl⟩ := hpre
    exact ⟨w, rest, rfl, lexemeAt_symbol hp fun r hr hr' => ((hsingle r hr hr').trans hlen.symm).le⟩

/-- **What stands at a place past the white space** is a lexeme or a fault. -/
theorem lexeme_or_fault (hc : isSpace c = false) :
    (∃ w rest, c :: bs = w ++ rest ∧ LexemeAt w rest) ∨ ∃ msg, Fault (c :: bs) msg := by
  by_cases hquote : c = byte '\''
  · subst hquote
    rcases exists_escape bs with ⟨value, rest, rfl, hrest⟩ | ⟨value, rfl⟩
    · refine .inl ⟨quoted value, rest, ?_, lexemeAt_quoted value hrest⟩
      rw [quoted, List.cons_append, List.append_assoc]
      rfl
    · exact .inr ⟨_, .unterminated value⟩
  by_cases hword : isWordStart c = true
  · exact .inl (lexemeAt_run
      (.word ⟨⟨c, rfl, hword⟩, all_takeWhile (isWordByte_of_isWordStart hword)⟩)
      (fun w' hw' => (hw'.word_of_head hword).2) hquote)
  by_cases hdigit : isDigit c = true
  · exact .inl (lexemeAt_run (.number ⟨List.cons_ne_nil _ _, all_takeWhile hdigit⟩)
      (fun w' hw' => (hw'.number_of_head hdigit).2) hquote)
  by_cases hsymbol : ∃ p ∈ symbolTable, p.1 <+: c :: bs
  · obtain ⟨p, hp, hpre⟩ := hsymbol
    exact .inl (lexemeAt_symbols hp hpre)
  by_cases hbang : c = byte '!'
  · subst hbang
    refine .inr ⟨_, .bang fun heq => hsymbol ⟨(text "!=", .neq), by decide, ?_⟩⟩
    obtain ⟨rest, rfl⟩ : ∃ rest, bs = byte '=' :: rest := ⟨bs.tail, (List.cons_head?_tail heq).symm⟩
    exact ⟨rest, rfl⟩
  · refine .inr ⟨_, .stray (fun w hw hhead => ?_) hc⟩
    -- a symbol that begins with the byte is the byte, or `!=`
    obtain ⟨cs, rfl⟩ : ∃ cs, w = c :: cs := ⟨w.tail, (List.cons_head?_tail hhead).symm⟩
    obtain ⟨type, hmem⟩ := hw.symbol_of_head (Bool.eq_false_iff.mpr hword)
      (Bool.eq_false_iff.mpr hdigit) hquote
    rcases symbolTable_first _ hmem c rfl with ⟨type', hmem'⟩ | ⟨rfl, -⟩
    · exact hsymbol ⟨_, hmem', ⟨bs, rfl⟩⟩
    · exact hbang rfl

theorem Fault.exists_head {msg : Bytes} (h : Fault bs msg) : ∃ c cs, bs = c :: cs ∧ isSpace c = false := by
  cases h with
  | unterminated value => exact ⟨_, _, rfl, by decide⟩
  | bang hne => exact ⟨_, _, rfl, by decide⟩
  | stray hnone hc => exact ⟨_, _, rfl, hc⟩

/-- **Every text is cut into pieces** up to its end or to its first fault. -/
theorem exists_cuts (bs : Bytes) : ∃ pieces space rest, Cuts bs pieces (space ++ rest) ∧
    (∀ c ∈ space, isSpace c = true) ∧ (rest = [] ∨ ∃ msg, Fault rest msg) := by
  induction hlen : bs.length using Nat.strongRecOn generalizing bs with
  | ind n ih =>
    have hspace : ∀ c ∈ bs.takeWhile isSpace, isSpace c = true := fun c hc => List.mem_takeWhile_imp hc
    have hbs := List.takeWhile_append_dropWhile (p := isSpace) (l := bs)
    generalize bs.takeWhile isSpace = blanks at hspace hbs
    cases hrest : bs.dropWhile isSpace with
    | nil =>
      rw [hrest] at hbs
      refine ⟨[], blanks, [], ?_, hspace, .inl rfl⟩
      rw [hbs]
      exact .nil
    | cons c cs =>
      rw [hrest] at hbs
      have hc : isSpace c = false := stops_dropWhile isSpace bs c (by rw [hrest]; rfl)
      rcases @lexeme_or_fault _ cs hc with ⟨w, rest, heq, hw⟩ | hfault
      · obtain ⟨a, w', rfl, -⟩ := hw.longest.1.exists_head
        have hshorter : rest.length < n := by
          rw [← hlen, ← hbs, heq]
          simp only [List.length_append, List.length_cons]
          omega
        obtain ⟨pieces, space, rest', hcuts, hblank, hend⟩ := ih rest.length hshorter rest rfl
        refine ⟨(blanks, a :: w') :: pieces, space, rest', ?_, hblank, hend⟩
        rw [← hbs, heq]
        exact .cons hspace hw hcuts
      · refine ⟨[], blanks, c :: cs, ?_, hspace, .inr hfault⟩
        rw [hbs]
        exact .nil

/-- **A text that is cut to its end is cut in one way.** -/
theorem cuts_unique {pieces pieces' : List (Bytes × Bytes)} {space space' : Bytes}
    (h : Cuts bs pieces space) (hspace : ∀ c ∈ space, isSpace c = true)
    (h' : Cuts bs pieces' space') (hspace' : ∀ c ∈ space', isSpace c = true) :
    pieces = pieces' ∧ space = space' := by
  refine Munch.Cuts.unique (fun w rest hw => ?_) (fun w rest w' rest' hw hw' heq =>
    hw.longest.unique hw'.longest heq) h hspace h' hspace'
  obtain ⟨c, cs, rfl, hc⟩ := hw.longest.1.exists_head
  exact ⟨c, cs, rfl, by rw [isSpace_eq_false hc]; exact Bool.false_ne_true⟩

/-! ## What tokens say -/

/-- A lexeme's token is not the end, and a number's is what its digits spell. -/
theorem TokenAt.spec {line column : Nat} {w : Bytes} {t : Token} (h : TokenAt line column w t) :
    t.type ≠ .endOfInput ∧ (t.type = .integerLiteral → t.intValue.toInt = digitsValue t.text) := by
  cases h with
  | word hword =>
    have htable : ∀ p ∈ keywordTable, p.2 ≠ .endOfInput ∧ p.2 ≠ .integerLiteral := by decide +kernel
    cases hlookup : keywordTable.lookup (toUpper w) with
    | none => exact ⟨nofun, nofun⟩
    | some type =>
      obtain ⟨before, after, heq, -⟩ := List.lookup_eq_some_iff.mp hlookup
      have hmem : (toUpper w, type) ∈ keywordTable := by
        rw [heq]
        exact List.mem_append_right _ List.mem_cons_self
      obtain ⟨h₁, h₂⟩ := htable _ hmem
      exact ⟨h₁, fun h => absurd h h₂⟩
  | number hnumber hvalue => exact ⟨nofun, fun _ => hvalue⟩
  | string value => exact ⟨nofun, nofun⟩
  | symbol hsymbol =>
    have htable : ∀ p ∈ symbolTable, p.2 ≠ .endOfInput ∧ p.2 ≠ .integerLiteral := by decide +kernel
    obtain ⟨h₁, h₂⟩ := htable _ hsymbol
    exact ⟨h₁, fun h => absurd h h₂⟩

theorem Tokens.spec {before : Bytes} {pieces : List (Bytes × Bytes)} {ts : List Token}
    (h : Tokens before pieces ts) : ∀ t ∈ ts,
    t.type ≠ .endOfInput ∧ (t.type = .integerLiteral → t.intValue.toInt = digitsValue t.text) := by
  induction h with
  | nil => nofun
  | @cons before space w pieces t ts ht h ih =>
    intro t' ht'
    rcases List.mem_cons.mp ht' with rfl | ht'
    · exact TokenAt.spec ht
    · exact ih t' ht'

end Reldb
