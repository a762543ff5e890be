import Mathlib.Logic.Function.Basic

/-!
# Programs that keep a property of the state

`Obeys I p P`: from a state in `I` the program leaves a state in `I`, whether it returns or throws, and what
it returns is in `P`. One rule for each way programs are built.
-/

variable {ε σ α β : Type}

def Obeys (I : σ → Prop) (p : EStateM ε σ α) (P : α → Prop) : Prop :=
  ∀ s, I s → match p s with
    | .ok a s' => I s' ∧ P a
    | .error _ s' => I s'

namespace Obeys

variable {I : σ → Prop} {p : EStateM ε σ α} {P : α → Prop} {Q : β → Prop}

protected theorem pure {a : α} (h : P a) : Obeys I (Pure.pure a : EStateM ε σ α) P := fun _ hs => ⟨hs, h⟩

protected theorem throw (e : ε) : Obeys I (MonadExcept.throw e : EStateM ε σ α) P := fun _ hs => hs

protected theorem ofExcept {x : Except ε α} (h : ∀ a, x = .ok a → P a) :
    Obeys I (MonadExcept.ofExcept x : EStateM ε σ α) P := by
  cases x with
  | error e => exact .throw e
  | ok a => exact .pure (h a rfl)

protected theorem bind {f : α → EStateM ε σ β} (h : Obeys I p P) (hf : ∀ a, P a → Obeys I (f a) Q) :
    Obeys I (p >>= f) Q := by
  intro s hs
  have hp := h s hs
  simp only [Bind.bind, EStateM.bind]
  cases hrun : p s with
  | ok a s' =>
    rw [hrun] at hp
    exact hf a hp.2 s' hp.1
  | error e s' =>
    rw [hrun] at hp
    exact hp

protected theorem map (h : Obeys I p P) (f : α → β) : Obeys I (f <$> p) fun _ => True := by
  rw [← bind_pure_comp]
  exact h.bind fun _ _ => .pure trivial

protected theorem ite {c : Prop} [Decidable c] {q : EStateM ε σ α} (h : Obeys I p P) (h' : Obeys I q P) :
    Obeys I (if c then p else q) P := by
  split
  · exact h
  · exact h'

end Obeys
