import Mathlib.Data.List.Basic

/-!
# Texts cut by maximal munch

`Lex w rest` says that `w` is a lexeme where `rest` follows it. A text is cut into pieces, each a
run of blanks and a lexeme, read one after the other; `Longest` is the usual rule for where a
lexeme ends. When two lexemes of one text are the same lexeme, and none begins with a blank, a text
is cut in one way only.
-/

namespace Munch

variable {α : Type}

/-- `w` is the longest among the `P`s the text `w ++ rest` begins with. -/
def Longest (P : List α → Prop) (w rest : List α) : Prop :=
  P w ∧ ∀ w', P w' → w' <+: w ++ rest → w'.length ≤ w.length

theorem Longest.unique {P : List α → Prop} {w rest w' rest' : List α} (h : Longest P w rest)
    (h' : Longest P w' rest') (heq : w ++ rest = w' ++ rest') : w = w' := by
  have hle : w'.length ≤ w.length := h.2 w' h'.1 (heq ▸ List.prefix_append w' rest')
  have hge : w.length ≤ w'.length := h'.2 w h.1 (heq ▸ List.prefix_append w rest)
  exact (List.append_inj heq (Nat.le_antisymm hge hle)).1

/-- A longest `P` does not go on with the next element. -/
theorem Longest.not_concat {P : List α → Prop} {w rest : List α} {a : α}
    (h : Longest P w (a :: rest)) : ¬ P (w ++ [a]) := by
  intro hP
  have hle := h.2 _ hP (by
    rw [List.prefix_append_right_inj]
    exact ⟨rest, rfl⟩)
  rw [List.length_append, List.length_singleton] at hle
  omega

variable (blank : α → Prop) (Lex : List α → List α → Prop)

/-- The text begins with the pieces, and `tail` is what they leave of it. -/
inductive Cuts : List α → List (List α × List α) → List α → Prop
  | nil {tail : List α} : Cuts tail [] tail
  | cons {space w rest tail : List α} {pieces : List (List α × List α)}
      (hspace : ∀ a ∈ space, blank a) (hw : Lex w rest) (h : Cuts rest pieces tail) :
      Cuts (space ++ (w ++ rest)) ((space, w) :: pieces) tail

/-- What pieces are of a text. -/
def read (pieces : List (List α × List α)) : List α := pieces.flatMap fun p => p.1 ++ p.2

theorem read_cons (space w : List α) (pieces : List (List α × List α)) :
    read ((space, w) :: pieces) = space ++ (w ++ read pieces) := by
  rw [read, List.flatMap_cons, List.append_assoc]
  rfl

variable {blank Lex} {text tail tail' : List α} {pieces pieces' : List (List α × List α)}

theorem Cuts.text_eq (h : Cuts blank Lex text pieces tail) : text = read pieces ++ tail := by
  induction h with
  | nil => rfl
  | cons hspace hw h ih => rw [read_cons, List.append_assoc, List.append_assoc, ← ih]

/-- A run of blanks ends where something else begins. -/
theorem blanks_unique {space space' : List α} {a a' : α} {rest rest' : List α}
    (hspace : ∀ a ∈ space, blank a) (hspace' : ∀ a ∈ space', blank a) (ha : ¬ blank a)
    (ha' : ¬ blank a') (heq : space ++ a :: rest = space' ++ a' :: rest') :
    space = space' ∧ a :: rest = a' :: rest' := by
  induction space generalizing space' with
  | nil =>
    cases space' with
    | nil => exact ⟨rfl, heq⟩
    | cons b space' =>
      obtain ⟨rfl, -⟩ := List.cons.inj heq
      exact absurd (hspace' _ List.mem_cons_self) ha
  | cons b space ih =>
    cases space' with
    | nil =>
      obtain ⟨rfl, -⟩ := List.cons.inj heq
      exact absurd (hspace _ List.mem_cons_self) ha'
    | cons b' space' =>
      obtain ⟨rfl, -⟩ := List.cons.inj heq
      obtain ⟨rfl, hrest⟩ := ih (fun c hc => hspace c (List.mem_cons_of_mem _ hc))
        (fun c hc => hspace' c (List.mem_cons_of_mem _ hc)) (List.cons.inj heq).2
      exact ⟨rfl, hrest⟩

/-- **A text is cut in one way**, when what is left of it is blank. -/
theorem Cuts.unique (hfirst : ∀ w rest, Lex w rest → ∃ a w', w = a :: w' ∧ ¬ blank a)
    (hlex : ∀ w rest w' rest', Lex w rest → Lex w' rest' → w ++ rest = w' ++ rest' → w = w')
    (h : Cuts blank Lex text pieces tail) (htail : ∀ a ∈ tail, blank a)
    (h' : Cuts blank Lex text pieces' tail') (htail' : ∀ a ∈ tail', blank a) :
    pieces = pieces' ∧ tail = tail' := by
  induction h generalizing pieces' with
  | nil =>
    cases h' with
    | nil => exact ⟨rfl, rfl⟩
    | cons hspace hw h' =>
      obtain ⟨a, w', rfl, ha⟩ := hfirst _ _ hw
      exact absurd (htail a (by simp)) ha
  | @cons space w rest tail pieces hspace hw h ih =>
    obtain ⟨a, w, rfl, ha⟩ := hfirst _ _ hw
    generalize htext : space ++ (a :: w ++ rest) = text at h'
    cases h' with
    | nil =>
      subst htext
      exact absurd (htail' a (by simp)) ha
    | @cons space' w' rest' _ pieces' hspace' hw' h' =>
      obtain ⟨a', w', rfl, ha'⟩ := hfirst _ _ hw'
      obtain ⟨rfl, heq⟩ := blanks_unique hspace hspace' ha ha' htext
      obtain ⟨rfl, rfl⟩ := List.cons.inj (hlex _ _ _ _ hw hw' heq)
      obtain rfl := (List.append_right_inj (a :: w)).mp heq
      obtain ⟨rfl, rfl⟩ := ih htail h'
      exact ⟨rfl, rfl⟩

end Munch
