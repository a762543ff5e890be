import Mathlib.Logic.Function.Basic

/-!
# Programs that only ask

A program over a state may be written against an interface, and only ask it things. Where every answer is
the one a pure interface gives, in each state with a property the answers keep, the program does what it
does over the pure interface: `Agrees`, one rule for each way programs are built.
-/

variable {ε σ α β : Type}

/-- What `x` says, in the state `s`. -/
def resultIn (s : σ) : Except ε α → EStateM.Result ε σ α
  | .ok a => .ok a s
  | .error e => .error e s

/-- From a state in `I`, `p` returns or throws what `x` says, and leaves a state in `I`. -/
def Agrees (I : σ → Prop) (p : EStateM ε σ α) (x : Except ε α) : Prop :=
  ∀ s, I s → ∃ s', I s' ∧ p s = resultIn s' x

namespace Agrees

variable {I : σ → Prop} {p : EStateM ε σ α} {x : Except ε α}

protected theorem pure (a : α) :
    Agrees I (Pure.pure a : EStateM ε σ α) (Pure.pure a : Except ε α) := fun s hs => ⟨s, hs, rfl⟩

protected theorem throw (e : ε) :
    Agrees I (MonadExcept.throw e : EStateM ε σ α) (MonadExcept.throw e : Except ε α) :=
  fun s hs => ⟨s, hs, rfl⟩

protected theorem ofExcept (y : Except ε α) :
    Agrees I (MonadExcept.ofExcept y : EStateM ε σ α) (MonadExcept.ofExcept y : Except ε α) := by
  cases y with
  | error e => exact .throw e
  | ok a => exact .pure a

protected theorem bind {f : α → EStateM ε σ β} {g : α → Except ε β} (h : Agrees I p x)
    (hf : ∀ a, Agrees I (f a) (g a)) : Agrees I (p >>= f) (x >>= g) := by
  intro s hs
  obtain ⟨s', hs', hrun⟩ := h s hs
  cases x with
  | error e =>
    refine ⟨s', hs', ?_⟩
    simp only [Bind.bind, EStateM.bind, hrun]
    rfl
  | ok a =>
    obtain ⟨s'', hs'', hrun'⟩ := hf a s' hs'
    refine ⟨s'', hs'', ?_⟩
    simp only [Bind.bind, EStateM.bind, hrun]
    exact hrun'

protected theorem map (h : Agrees I p x) (f : α → β) : Agrees I (f <$> p) (x.map f) := by
  intro s hs
  obtain ⟨s', hs', hrun⟩ := h s hs
  refine ⟨s', hs', ?_⟩
  simp only [Functor.map, EStateM.map, hrun]
  cases x <;> rfl

protected theorem ite {c : Prop} [Decidable c] {q : EStateM ε σ α} {y : Except ε α} (h : Agrees I p x)
    (h' : Agrees I q y) : Agrees I (if c then p else q) (if c then x else y) := by
  split
  · exact h
  · exact h'

end Agrees
