import Mathlib.Data.List.Basic
import Mathlib.Data.List.Forall2
import Mathlib.Data.List.Induction
import Mathlib.Data.List.MinMax
import Mathlib.Data.List.Nodup
import Mathlib.Data.List.Pairwise
import Mathlib.Data.List.Perm.Subperm
import Mathlib.Data.List.TakeWhile
import Mathlib.Data.Multiset.Bind
import Mathlib.Order.BoundedOrder.Basic
import Mathlib.Order.Nat
import Mathlib.Order.WithBot

/-!
# Reldb — vocabulary shared by every layer

Page ids, byte strings, the exceptions the engine throws and the program type its methods
are written in. A method of a C++ class is a `Prog σ α`: it runs on the object's state `σ`
and either returns or throws, and in both cases leaves a state behind, as the C++ object
does when an exception unwinds through it.

`page_id_t` is modelled as `Nat` and `INVALID_PAGE_ID` as `none`: a data file of `2 ^ 32`
pages (16 TiB) is out of the model. Keys keep their width, `Int64`.
-/

namespace Reldb

/-- `page_id_t`. The one value that names no page, `INVALID_PAGE_ID`, is `none` in the
`Option PageId` fields that can hold it. -/
abbrev PageId := Nat

/-- The contents of a `std::string`: bytes, not characters. -/
abbrev Bytes := List UInt8

/-- The bytes of a string literal of the source (a message text). -/
def text (s : String) : Bytes := s.toUTF8.data.toList

/-- `std::to_string` of an unsigned number. -/
def decimal (n : Nat) : Bytes := text (toString n)

instance instLawfulBEqBytes : LawfulBEq Bytes := inferInstance

/-- The exception types of the engine, with the text they carry. The last two stand for
behaviour C++ gives no meaning to: dereferencing the page of an invalid guard or writing a cell
past the end of a page (`undefinedBehaviour`), and a walk that never ends (`divergence`). -/
inductive Exn where
  | runtimeError (what : Bytes)
  | invalidArgument (what : Bytes)
  | logicError (what : Bytes)
  | catalogError (what : Bytes)
  | rowEncodingError (what : Bytes)
  | semanticError (what : Bytes)
  | columnResolutionError (what : Bytes)
  | evalError (what : Bytes)
  | lexError (what : Bytes) (line column : Nat)
  | parseError (what : Bytes) (line column : Nat)
  | outOfRange (what : Bytes)
  | undefinedBehaviour
  | divergence
  deriving DecidableEq, Repr

/-- A method on an object with state `σ`: returns or throws, leaving a state either way. -/
abbrev Prog (σ α : Type) := EStateM Exn σ α

/-- `while (cond) acc = step(acc);`. A loop that is still running after `fuel` tests of its condition
is taken for one that never ends. -/
def Prog.whileM {σ β : Type} (cond : Prog σ Bool) (step : β → Prog σ β) : Nat → β → Prog σ β
  | 0, _ => throw .divergence
  | fuel + 1, acc => do
    if ← cond then whileM cond step fuel (← step acc) else return acc

/-! ## Running programs

The equations a proof steps through a method with: the first part either returned, and the
rest runs on the state it left, or threw, and the whole throws. -/

section Prog

variable {σ α β : Type}

theorem Prog.bind_ok {x : Prog σ α} {f : α → Prog σ β} {s s' : σ} {a : α}
    (h : x s = .ok a s') : (x >>= f) s = f a s' := by
  simp only [bind, EStateM.bind, h]

theorem Prog.bind_error {x : Prog σ α} {f : α → Prog σ β} {s s' : σ} {e : Exn}
    (h : x s = .error e s') : (x >>= f) s = .error e s' := by
  simp only [bind, EStateM.bind, h]

@[simp] theorem Prog.pure_run (a : α) (s : σ) : (pure a : Prog σ α) s = .ok a s := rfl

@[simp] theorem Prog.modify_run (f : σ → σ) (s : σ) : (modify f : Prog σ PUnit) s = .ok ⟨⟩ (f s) := rfl

/-- The call returned, with a value and in a state that pass the test. -/
def Prog.Returns (p : α → σ → Bool) : EStateM.Result Exn σ α → Bool
  | .ok a s => p a s
  | .error _ _ => false

theorem Prog.Returns.ok {p : α → σ → Bool} {r : EStateM.Result Exn σ α} (h : Prog.Returns p r = true) :
    ∃ a s, r = .ok a s ∧ p a s = true := by
  cases r with
  | ok a s => exact ⟨a, s, rfl, h⟩
  | error e s => cases h

/-- The call threw, and what it threw and left pass the test. -/
def Prog.Throws (p : Exn → σ → Bool) : EStateM.Result Exn σ α → Bool
  | .ok _ _ => false
  | .error e s => p e s

theorem Prog.Throws.error {p : Exn → σ → Bool} {r : EStateM.Result Exn σ α}
    (h : Prog.Throws p r = true) : ∃ e s, r = .error e s ∧ p e s = true := by
  cases r with
  | ok a s => cases h
  | error e s => exact ⟨e, s, rfl, h⟩

@[simp] theorem Prog.throw_run (e : Exn) (s : σ) : (throw e : Prog σ α) s = .error e s := rfl

end Prog

/-! ## `int64_t` keys in order -/

instance instLinearOrderInt64 : LinearOrder Int64 where
  le_refl a := Int64.le_refl a
  le_trans _ _ _ := Int64.le_trans
  le_antisymm _ _ := Int64.le_antisymm
  le_total := Int64.le_total
  lt_iff_le_not_ge a b := by
    simp only [Int64.lt_iff_toInt_lt, Int64.le_iff_toInt_le]
    omega
  toDecidableLE := inferInstance
  toDecidableEq := inferInstance
  toDecidableLT := inferInstance

/-- `INT64_MIN` and `INT64_MAX` bound every key. -/
instance instBoundedOrderInt64 : BoundedOrder Int64 where
  bot := Int64.minValue
  bot_le a := Int64.le_iff_toInt_le.mpr (Int64.minValue_le_toInt a)
  top := Int64.maxValue
  le_top a := Int64.le_iff_toInt_le.mpr (Int64.toInt_le a)

end Reldb
