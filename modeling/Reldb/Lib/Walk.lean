import Mathlib.Data.List.Basic

/-!
# Walks over a store

A computation that only looks things up: it visits one key after another, and which key comes next may
depend on what the earlier ones held. Over a store, a walk comes to a result and to the list of the keys
it visited. A key the store lacks ends it.
-/

inductive Walk (κ β ε α : Type) where
  | done (result : Except ε α)
  | visit (key : κ) (missing : ε) (next : β → Walk κ β ε α)

namespace Walk

variable {κ β ε α γ : Type} {store : κ → Option β} {w : Walk κ β ε α} {f : α → Walk κ β ε γ}

protected def bind : Walk κ β ε α → (α → Walk κ β ε γ) → Walk κ β ε γ
  | .done (.ok a), f => f a
  | .done (.error e), _ => .done (.error e)
  | .visit key missing next, f => .visit key missing fun b => (next b).bind f

/-- What the walk comes to over a store. -/
def result (store : κ → Option β) : Walk κ β ε α → Except ε α
  | .done result => result
  | .visit key missing next =>
    match store key with
    | some b => (next b).result store
    | none => .error missing

/-- The keys it visits, the one it finds missing included. -/
def visited (store : κ → Option β) : Walk κ β ε α → List κ
  | .done _ => []
  | .visit key _ next =>
    key :: match store key with
      | some b => (next b).visited store
      | none => []

end Walk
