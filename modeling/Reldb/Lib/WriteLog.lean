import Mathlib.Logic.Function.Basic
import Mathlib.Data.List.Basic

/-!
# Write logs over a keyed store

A store maps keys to values; a log is a list of whole-value writes, replayed in order. This is
the theory a redo log needs: replay composes, depends only on the keys a log mentions, and is
unchanged by writes that repeat the current value (`Stutters`), which a logger that re-logs
unmodified values inserts anywhere.
-/

namespace WriteLog

variable {κ β : Type} [DecidableEq κ]

/-- A partial map from keys to values. -/
abbrev Store (κ β : Type) := κ → Option β

abbrev Write (κ β : Type) := κ × β

/-- The store that holds nothing. -/
def empty : Store κ β := fun _ => none

def write (σ : Store κ β) (w : Write κ β) : Store κ β := Function.update σ w.1 (some w.2)

/-- The store after a log of writes, oldest first. -/
def replay (σ : Store κ β) (W : List (Write κ β)) : Store κ β := W.foldl write σ

@[simp] theorem write_self (σ : Store κ β) (w : Write κ β) : write σ w w.1 = some w.2 := by
  simp [write]

theorem write_of_ne (σ : Store κ β) (w : Write κ β) {k : κ} (h : k ≠ w.1) :
    write σ w k = σ k := by
  simp [write, Function.update_of_ne h]

/-- Writing the value a key already has changes nothing. -/
theorem write_eq_self {σ : Store κ β} {k : κ} {b : β} (h : σ k = some b) :
    write σ (k, b) = σ := by
  rw [write, ← h, Function.update_eq_self]

@[simp] theorem write_write (σ : Store κ β) (k : κ) (b b' : β) :
    write (write σ (k, b)) (k, b') = write σ (k, b') := by
  simp [write]

@[simp] theorem replay_nil (σ : Store κ β) : replay σ [] = σ := rfl

@[simp] theorem replay_cons (σ : Store κ β) (w : Write κ β) (W : List (Write κ β)) :
    replay σ (w :: W) = replay (write σ w) W := rfl

theorem replay_append (σ : Store κ β) (W W' : List (Write κ β)) :
    replay σ (W ++ W') = replay (replay σ W) W' := by
  simp [replay, List.foldl_append]

/-- A log changes only the keys it mentions. -/
theorem replay_of_notMem {σ : Store κ β} {W : List (Write κ β)} {k : κ}
    (h : k ∉ W.map Prod.fst) : replay σ W k = σ k := by
  induction W generalizing σ with
  | nil => rfl
  | cons w W ih =>
    simp only [List.map_cons, List.mem_cons, not_or] at h
    rw [replay_cons, ih h.2, write_of_ne σ w h.1]

/-- Replay never forgets a key. -/
theorem replay_isSome {σ : Store κ β} {W : List (Write κ β)} {k : κ}
    (h : (σ k).isSome ∨ k ∈ W.map Prod.fst) : (replay σ W k).isSome := by
  induction W generalizing σ with
  | nil => simpa using h
  | cons w W ih =>
    refine ih ?_
    by_cases hk : k = w.1
    · left; rw [hk, write_self]; rfl
    · rw [write_of_ne σ w hk]
      simpa [hk] using h

/-- A key holding a value was in the store or is mentioned by the log. -/
theorem mem_of_replay_isSome {σ : Store κ β} {W : List (Write κ β)} {k : κ}
    (h : (replay σ W k).isSome) : (σ k).isSome ∨ k ∈ W.map Prod.fst := by
  by_cases hk : k ∈ W.map Prod.fst
  · exact Or.inr hk
  · rw [replay_of_notMem hk] at h; exact Or.inl h

/-- What a log leaves under a key it mentions does not depend on the store it started from. -/
theorem replay_congr {σ τ : Store κ β} {W : List (Write κ β)} {k : κ}
    (h : k ∈ W.map Prod.fst ∨ σ k = τ k) : replay σ W k = replay τ W k := by
  induction W generalizing σ τ with
  | nil => simpa using h
  | cons w W ih =>
    refine ih ?_
    by_cases hk : k = w.1
    · right; rw [hk, write_self, write_self]
    · rw [write_of_ne σ w hk, write_of_ne τ w hk]
      simpa [hk] using h

/-- A write that the log repeats later is lost. -/
theorem replay_write_of_mem {σ : Store κ β} {W : List (Write κ β)} {w : Write κ β}
    (h : w.1 ∈ W.map Prod.fst) : replay (write σ w) W = replay σ W := by
  funext k
  refine replay_congr ?_
  by_cases hk : k = w.1
  · exact .inl (hk ▸ h)
  · exact .inr (write_of_ne σ w hk)

/-! ## Stuttering -/

/-- `Stutters σ L W`: from `σ`, the log `L` is `W` with writes inserted that repeat the value
their key has at that point. -/
inductive Stutters : Store κ β → List (Write κ β) → List (Write κ β) → Prop where
  | nil (σ : Store κ β) : Stutters σ [] []
  | write {σ : Store κ β} {L W : List (Write κ β)} (w : Write κ β)
      (rest : Stutters (write σ w) L W) : Stutters σ (w :: L) (w :: W)
  | skip {σ : Store κ β} {L W : List (Write κ β)} {k : κ} {b : β} (same : σ k = some b)
      (rest : Stutters σ L W) : Stutters σ ((k, b) :: L) W

namespace Stutters

variable {σ : Store κ β} {L L' W W' : List (Write κ β)}

theorem refl (σ : Store κ β) (W : List (Write κ β)) : Stutters σ W W := by
  induction W generalizing σ with
  | nil => exact .nil σ
  | cons w W ih => exact .write w (ih _)

/-- A stuttering log leaves the same store behind. -/
theorem replay_eq (h : Stutters σ L W) : replay σ L = replay σ W := by
  induction h with
  | nil => rfl
  | write w _ ih => exact ih
  | skip same _ ih => rw [replay_cons, write_eq_self same, ih]

theorem append (h : Stutters σ L W) (h' : Stutters (replay σ W) L' W') :
    Stutters σ (L ++ L') (W ++ W') := by
  induction h with
  | nil => exact h'
  | write w _ ih => exact .write w (ih h')
  | skip same _ ih => exact .skip same (ih h')

/-- A prefix of a stuttering log stutters a prefix of the log it stutters. -/
theorem take (h : Stutters σ L W) (n : Nat) :
    ∃ m, Stutters σ (L.take n) (W.take m) := by
  induction h generalizing n with
  | nil σ => exact ⟨0, by simpa using .nil σ⟩
  | write w _ ih =>
    cases n with
    | zero => exact ⟨0, by simpa using .nil _⟩
    | succ n =>
      obtain ⟨m, hm⟩ := ih n
      exact ⟨m + 1, by simpa using .write w hm⟩
  | skip same _ ih =>
    cases n with
    | zero => exact ⟨0, by simpa using .nil _⟩
    | succ n =>
      obtain ⟨m, hm⟩ := ih n
      exact ⟨m, by simpa using .skip same hm⟩

/-- A log of repetitions stutters the empty log. -/
theorem single {k : κ} {b : β} (same : σ k = some b) : Stutters σ [(k, b)] [] :=
  .skip same (.nil σ)

/-- A single write that repeats the store's value is no write. -/
theorem skip_last {k : κ} {b : β} (h : Stutters σ L [(k, b)]) (same : σ k = some b) :
    Stutters σ L [] := by
  generalize hW : [(k, b)] = W at h
  induction h with
  | nil => cases hW
  | write w rest ih =>
    cases hW
    exact .skip same (write_eq_self same ▸ rest)
  | skip same' rest ih => exact .skip same' (ih same hW)

theorem length_le (h : Stutters σ L W) : W.length ≤ L.length := by
  induction h with
  | nil => exact Nat.le_refl _
  | write w _ ih => exact Nat.succ_le_succ ih
  | skip _ _ ih => exact Nat.le_succ_of_le ih

/-- Without room for a repetition there is none. -/
theorem eq_of_length_le (h : Stutters σ L W) (hle : L.length ≤ W.length) : L = W := by
  induction h with
  | nil => rfl
  | write w _ ih => rw [ih (Nat.le_of_succ_le_succ hle)]
  | skip _ rest _ => exact absurd hle (Nat.not_le.mpr (Nat.lt_succ_of_le rest.length_le))

/-- From the empty store a log cannot begin with a repetition. -/
theorem eq_nil_of_empty (h : Stutters empty L []) : L = [] := by
  cases h with
  | nil => rfl
  | skip same => cases same

/-- Whatever holds of the store after every prefix of `W` holds after every prefix of `L`. -/
theorem forall_take {P : Store κ β → Prop} (h : Stutters σ L W)
    (hP : ∀ m, P (replay σ (W.take m))) (n : Nat) : P (replay σ (L.take n)) := by
  obtain ⟨m, hm⟩ := h.take n
  rw [hm.replay_eq]
  exact hP m

end Stutters

/-! ## The writes that change something -/

/-- A log without the writes that repeat the value their key has at that point. -/
def changes [DecidableEq β] (σ : Store κ β) : List (Write κ β) → List (Write κ β)
  | [] => []
  | w :: L => if σ w.1 = some w.2 then changes σ L else w :: changes (write σ w) L

section

variable [DecidableEq β] {σ : Store κ β} {L W : List (Write κ β)}

theorem replay_changes (σ : Store κ β) (L : List (Write κ β)) :
    replay σ (changes σ L) = replay σ L := by
  induction L generalizing σ with
  | nil => rfl
  | cons w L ih =>
    unfold changes
    split
    · next same => rw [ih, replay_cons, write_eq_self same]
    · exact ih _

/-- Stuttering does not change which writes change something. -/
theorem Stutters.changes_eq (h : Stutters σ L W) : changes σ L = changes σ W := by
  induction h with
  | nil => rfl
  | write w _ ih =>
    unfold changes
    split
    · next same => rwa [write_eq_self same] at ih
    · rw [ih]
  | skip same _ ih =>
    rw [← ih]
    exact if_pos same

theorem changes_take (σ : Store κ β) (L : List (Write κ β)) (n : Nat) :
    changes σ (L.take n) <+: changes σ L := by
  induction L generalizing σ n with
  | nil => simp
  | cons w L ih =>
    cases n with
    | zero => exact List.nil_prefix
    | succ n =>
      rw [List.take_succ_cons]
      unfold changes
      split
      · exact ih σ n
      · exact List.cons_prefix_cons.mpr ⟨rfl, ih _ n⟩

end

end WriteLog
