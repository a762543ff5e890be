import Mathlib.Data.List.Basic

/-!
# Reldb — languages with meanings

A rule of a grammar relates a word to what the word means: `L ts a` says that the symbols `ts` are
a word of `L` with meaning `a`. `Many L` is the iteration `{ L }`; its words mean the list of their
parts' meanings. `Chain L N f` is the left-recursive rule `X = L | X N`, the meanings of whose parts
`f` combines from the left.
-/

namespace Language

variable {τ α β : Type}

/-- A set of words, each with a meaning. -/
abbrev Rule (τ α : Type) := List τ → α → Prop

/-- `{ L }`. -/
inductive Many (L : Rule τ α) : Rule τ (List α)
  | nil : Many L [] []
  | cons {ts us : List τ} {a : α} {as : List α} (first : L ts a) (rest : Many L us as) :
      Many L (ts ++ us) (a :: as)

namespace Many

variable {L M : Rule τ α} {ts us : List τ} {as bs : List α} {a : α}

theorem append (h : Many L ts as) (h' : Many L us bs) : Many L (ts ++ us) (as ++ bs) := by
  induction h with
  | nil => exact h'
  | cons first rest ih =>
    rw [List.append_assoc]
    exact .cons first ih

theorem snoc (h : Many L ts as) (h' : L us a) : Many L (ts ++ us) (as ++ [a]) := by
  have hlast : Many L (us ++ []) [a] := .cons h' .nil
  rw [List.append_nil] at hlast
  exact h.append hlast

theorem imp (h : Many L ts as) (hLM : ∀ ts a, L ts a → M ts a) : Many M ts as := by
  induction h with
  | nil => exact .nil
  | cons first rest ih => exact .cons (hLM _ _ first) ih

/-- No part is longer than the whole. -/
theorem bounded (h : Many L ts as) : Many (fun us a => L us a ∧ us.length ≤ ts.length) ts as := by
  induction h with
  | nil => exact .nil
  | cons first rest ih =>
    refine .cons ⟨first, ?_⟩ (ih.imp fun us a ⟨ha, hlen⟩ => ⟨ha, ?_⟩)
    all_goals
      rw [List.length_append]
      omega

end Many

/-- Collecting a list from the left. -/
theorem foldl_snoc (as bs : List α) : as.foldl (fun cs a => cs ++ [a]) bs = bs ++ as := by
  induction as generalizing bs with
  | nil => exact (List.append_nil bs).symm
  | cons a as ih => rw [List.foldl_cons, ih, List.append_assoc, List.singleton_append]

/-- `X = L | X N`. -/
inductive Chain (L : Rule τ α) (N : Rule τ β) (f : α → β → α) : Rule τ α
  | one {ts : List τ} {a : α} (h : L ts a) : Chain L N f ts a
  | more {ts us : List τ} {a : α} {b : β} (h : Chain L N f ts a) (h' : N us b) :
      Chain L N f (ts ++ us) (f a b)

/-- Left recursion is iteration: `X = L { N }`. -/
theorem chain_iff {L : Rule τ α} {N : Rule τ β} {f : α → β → α} {ts : List τ} {e : α} :
    Chain L N f ts e ↔
      ∃ us vs a bs, L us a ∧ Many N vs bs ∧ ts = us ++ vs ∧ e = bs.foldl f a := by
  constructor
  · intro h
    induction h with
    | one h => exact ⟨_, [], _, [], h, .nil, (List.append_nil _).symm, rfl⟩
    | more h h' ih =>
      obtain ⟨us, vs, a, bs, hfirst, hrest, rfl, rfl⟩ := ih
      refine ⟨us, _, a, _, hfirst, hrest.snoc h', List.append_assoc _ _ _, ?_⟩
      rw [List.foldl_append]
      rfl
  · rintro ⟨us, vs, a, bs, hfirst, hrest, rfl, rfl⟩
    -- What was read so far is a word of the chain; each further part extends it.
    have hbase : Chain L N f us a := .one hfirst
    clear hfirst
    induction hrest generalizing us a with
    | nil => rwa [List.append_nil]
    | cons first rest ih =>
      rw [← List.append_assoc]
      exact ih _ _ (.more hbase first)

/-! ## Rules and their symbols -/

/-- Words of `Q` symbols mean `P`s. -/
def Yields (Q : τ → Prop) (L : Rule τ α) (P : α → Prop) : Prop :=
  ∀ ⦃ts a⦄, L ts a → (∀ t ∈ ts, Q t) → P a

theorem Yields.many {Q : τ → Prop} {L : Rule τ α} {P : α → Prop} (h : Yields Q L P) :
    Yields Q (Many L) fun as => ∀ a ∈ as, P a := by
  intro ts as hmany
  induction hmany with
  | nil => exact fun _ a ha => absurd ha List.not_mem_nil
  | cons first rest ih =>
    intro hts
    have hfirst := h first fun t ht => hts t (List.mem_append_left _ ht)
    have hrest := ih fun t ht => hts t (List.mem_append_right _ ht)
    exact List.forall_mem_cons.mpr ⟨hfirst, hrest⟩

end Language
