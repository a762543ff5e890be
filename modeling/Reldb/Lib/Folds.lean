import Mathlib.Data.List.Basic
import Mathlib.Logic.Function.Basic

/-!
# Folds that notice a changed symbol

A running hash reads a sequence symbol by symbol. If a step loses neither the state nor the symbol, each
being determined by the result and the other (`Cancels`), then sequences that differ in one symbol leave
different hashes, wherever the symbol stands. `slice` names the parts of a sequence that are hashed apart.
-/

namespace Folds

variable {σ α : Type}

/-- A step whose result and one argument determine the other. -/
structure Cancels (step : σ → α → σ) : Prop where
  state : ∀ a, Function.Injective fun s => step s a
  symbol : ∀ s, Function.Injective (step s)

/-- Different states stay different over the same symbols. -/
theorem Cancels.foldl_injective {step : σ → α → σ} (h : Cancels step) (l : List α) :
    Function.Injective fun s => l.foldl step s := by
  induction l with
  | nil => exact fun _ _ heq => heq
  | cons a l ih => exact fun s s' heq => h.state a (ih heq)

/-- **One changed symbol** changes the fold. -/
theorem Cancels.foldl_set_ne {step : σ → α → σ} (h : Cancels step) {l : List α} {i : Nat} {b : α}
    (hi : i < l.length) (hb : l[i]? ≠ some b) (s : σ) : (l.set i b).foldl step s ≠ l.foldl step s := by
  induction l generalizing i s with
  | nil => exact absurd hi (Nat.not_lt_zero i)
  | cons a l ih =>
    cases i with
    | zero =>
      intro heq
      have hstep : step s b = step s a := h.foldl_injective l heq
      exact hb (congrArg some (h.symbol s hstep).symm)
    | succ i => exact ih (Nat.lt_of_succ_lt_succ hi) hb (step s a)

/-- The `n` symbols from `start` on. -/
def slice (l : List α) (start n : Nat) : List α := (l.drop start).take n

variable {l : List α} {start n i : Nat} {b : α}

theorem length_slice (hfits : start + n ≤ l.length) : (slice l start n).length = n := by
  rw [slice, List.length_take, List.length_drop]
  omega

theorem slice_set_of_mem (hlo : start ≤ i) : slice (l.set i b) start n = (slice l start n).set (i - start) b := by
  rw [slice, List.drop_set, if_neg (Nat.not_lt.mpr hlo), List.take_set]
  rfl

theorem slice_set_of_notMem (h : i < start ∨ start + n ≤ i) : slice (l.set i b) start n = slice l start n := by
  rcases h with hlt | hle
  · rw [slice, List.drop_set, if_pos hlt]
    rfl
  · rw [slice_set_of_mem (by omega)]
    refine List.set_eq_of_length_le ?_
    rw [slice, List.length_take]
    omega

theorem getElem?_slice (hlo : start ≤ i) (hhi : i < start + n) : (slice l start n)[i - start]? = l[i]? := by
  rw [slice, List.getElem?_take_of_lt (by omega), List.getElem?_drop, Nat.add_sub_cancel' hlo]

/-- Neighbouring parts. -/
theorem slice_append_slice (m : Nat) : slice l start n ++ slice l (start + n) m = slice l start (n + m) := by
  rw [slice, slice, slice, List.take_add, List.drop_drop]

theorem slice_append_left {l' : List α} (h : start + n ≤ l.length) :
    slice (l ++ l') start n = slice l start n := by
  rw [slice, List.drop_append_of_le_length (by omega), List.take_append_of_le_length, slice]
  rw [List.length_drop]
  omega

theorem slice_append_right {l' : List α} (h : l.length ≤ start) :
    slice (l ++ l') start n = slice l' (start - l.length) n := by
  rw [slice, List.drop_append, List.drop_of_length_le h, List.nil_append, slice]

theorem slice_take {m : Nat} (h : start + n ≤ m) : slice (l.take m) start n = slice l start n := by
  rw [slice, List.drop_take, List.take_take, Nat.min_eq_left (by omega), slice]

theorem slice_drop {m : Nat} : slice (l.drop m) start n = slice l (m + start) n := by
  rw [slice, List.drop_drop, slice]

theorem le_length_of_slice (hlen : (slice l start n).length = n) (hn : 0 < n) : start + n ≤ l.length := by
  rw [slice, List.length_take, List.length_drop] at hlen
  omega

end Folds
