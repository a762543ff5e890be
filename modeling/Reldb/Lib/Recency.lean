import Mathlib.Data.List.Basic
import Mathlib.Logic.Function.Basic

/-!
# Recency lists

Keys are kept in slots, `holds k = some s` saying that the slot `s` holds the key `k`, and a list of the
slots is kept in the order in which their keys were last accessed, the latest first. Searched from its end,
the list gives the slot whose key was not accessed for the longest time: that is the list's purpose, stated
against the history of all accesses (`Ordered.oldest`). Accessing a key moves its slot to the front
(`Ordered.access`); slots may be taken out (`Ordered.mono`).
-/

namespace Recency

variable {κ ι : Type} [DecidableEq κ]

/-- How many accesses ago a key was last accessed; the history lists the latest access first. -/
def age (history : List κ) (k : κ) : Nat := history.idxOf k

/-- The slots are listed in the order of their keys' last accesses. -/
structure Ordered (holds : κ → Option ι) (history : List κ) (slots : List ι) : Prop where
  accessed : ∀ k s, holds k = some s → k ∈ history
  pairwise : slots.Pairwise fun s s' => ∀ k k', holds k = some s → holds k' = some s' →
    age history k < age history k'

variable {holds holds' : κ → Option ι} {history : List κ} {slots slots' : List ι} {k : κ} {s : ι}

theorem age_self : age (k :: history) k = 0 := List.idxOf_cons_self

theorem age_of_ne {k' : κ} (hne : k' ≠ k) : age (k :: history) k' = age history k' + 1 :=
  List.idxOf_cons_ne history hne.symm

/-- Slots taken out, keys dropped. -/
theorem Ordered.mono (h : Ordered holds history slots) (hslots : slots'.Sublist slots)
    (hholds : ∀ k s, holds' k = some s → holds k = some s) : Ordered holds' history slots' where
  accessed k s hk := h.accessed k s (hholds k s hk)
  pairwise := (h.pairwise.sublist hslots).imp fun hlt k k' hk hk' =>
    hlt k k' (hholds k _ hk) (hholds k' _ hk')

/-- An access to a key that no slot holds. -/
theorem Ordered.miss (h : Ordered holds history slots) (hnone : holds k = none) :
    Ordered holds (k :: history) slots where
  accessed k' s hk := List.mem_cons_of_mem _ (h.accessed k' s hk)
  pairwise := by
    refine h.pairwise.imp fun hlt k₁ k₂ h₁ h₂ => ?_
    have hne : ∀ {k' s'}, holds k' = some s' → k' ≠ k := by
      rintro k' s' hk' rfl
      rw [hnone] at hk'
      cases hk'
    rw [age_of_ne (hne h₁), age_of_ne (hne h₂)]
    exact Nat.succ_lt_succ (hlt k₁ k₂ h₁ h₂)

/-- **An access moves the key's slot to the front.** The slot held the key before or none. -/
theorem Ordered.access [DecidableEq ι] (h : Ordered holds history slots) (hnodup : slots.Nodup)
    (hslot : ∀ k', k' ≠ k → holds k' ≠ some s) :
    Ordered (Function.update holds k (some s)) (k :: history) (s :: slots.erase s) := by
  have hother : ∀ {k' s'}, Function.update holds k (some s) k' = some s' → s' ≠ s →
      k' ≠ k ∧ holds k' = some s' := by
    intro k' s' hk' hne
    have hkne : k' ≠ k := by
      rintro rfl
      rw [Function.update_self] at hk'
      exact hne (Option.some.inj hk').symm
    rw [Function.update_of_ne hkne] at hk'
    exact ⟨hkne, hk'⟩
  have herase : ∀ s' ∈ slots.erase s, s' ≠ s := fun s' hmem => (hnodup.mem_erase_iff.mp hmem).1
  refine ⟨fun k' s' hk' => ?_, List.pairwise_cons.mpr ⟨fun s' hs' k₁ k₂ h₁ h₂ => ?_, ?_⟩⟩
  · by_cases hkne : k' = k
    · exact hkne ▸ List.mem_cons_self
    · rw [Function.update_of_ne hkne] at hk'
      exact List.mem_cons_of_mem _ (h.accessed k' s' hk')
  · -- the key just accessed against one that was not
    obtain rfl : k₁ = k := by
      by_contra hne
      rw [Function.update_of_ne hne] at h₁
      exact hslot k₁ hne h₁
    rw [age_self, age_of_ne (hother h₂ (herase s' hs')).1]
    exact Nat.succ_pos _
  · refine ((h.pairwise.sublist List.erase_sublist).imp_of_mem ?_)
    intro s₁ s₂ hs₁ hs₂ hlt k₁ k₂ h₁ h₂
    obtain ⟨hne₁, h₁⟩ := hother h₁ (herase s₁ hs₁)
    obtain ⟨hne₂, h₂⟩ := hother h₂ (herase s₂ hs₂)
    rw [age_of_ne hne₁, age_of_ne hne₂]
    exact Nat.succ_lt_succ (hlt k₁ k₂ h₁ h₂)

/-- **The last slot that passes a test** holds the oldest key among those that pass. -/
theorem Ordered.oldest (h : Ordered holds history slots) {p : ι → Bool}
    (hfind : slots.reverse.find? p = some s) {k' : κ} {s' : ι} (hmem : s' ∈ slots) (hp : p s' = true)
    (hne : s' ≠ s) (hk : holds k = some s) (hk' : holds k' = some s') :
    age history k' < age history k := by
  obtain ⟨-, after, before, hsplit, hafter⟩ := List.find?_eq_some_iff_append.mp hfind
  have hslots : slots = before.reverse ++ s :: after.reverse := by
    rw [← List.reverse_reverse slots, hsplit, List.reverse_append, List.reverse_cons,
      List.append_assoc, List.singleton_append]
  have hpair := h.pairwise
  rw [hslots] at hpair hmem
  rcases List.mem_append.mp hmem with hbefore | hmem
  · exact (List.pairwise_append.mp hpair).2.2 s' hbefore s List.mem_cons_self k' k hk' hk
  rcases List.mem_cons.mp hmem with rfl | hmem
  · exact absurd rfl hne
  · -- slots after the one found do not pass
    have hfail := hafter s' (List.mem_reverse.mp hmem)
    rw [hp] at hfail
    cases hfail

end Recency
