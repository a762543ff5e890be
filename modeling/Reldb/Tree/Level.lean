import Reldb.Tree.OnStore
import Mathlib.Data.List.Nodup
import Mathlib.Data.List.Perm.Subperm

/-!
# Reldb — levels of tree pages

`HasLevel σ d p` says that page `p` is the root of a tree of uniform height `d`: following child
pointers from it always finds a page of the right type, and a leaf after exactly `d` steps. It is
what every walk down a tree relies on: the pages it meets exist, are pairwise different, and are at
most as many as pages were allocated.
-/

namespace Reldb

open WriteLog

/-- The children of an internal page, left to right. -/
def childrenOf (leftmostChild : PageId) (cells : List InternalCell) : List PageId :=
  leftmostChild :: cells.map (·.child)

/-- Page `p` is the root of a tree whose leaves are all `d` steps away. -/
def HasLevel (σ : PageStore) : Nat → PageId → Prop
  | 0, p => ∃ chain cells, σ p = some (.leaf chain cells)
  | d + 1, p => ∃ lm cells, σ p = some (.internal lm cells) ∧
      ∀ c ∈ childrenOf lm cells, HasLevel σ d c

namespace HasLevel

variable {σ : PageStore} {d e : Nat} {p : PageId} {lm : PageId} {cells : List InternalCell}

theorem isSome (h : HasLevel σ d p) : (σ p).isSome := by
  cases d with
  | zero => obtain ⟨_, _, heq⟩ := h; rw [heq]; rfl
  | succ d => obtain ⟨_, _, heq, -⟩ := h; rw [heq]; rfl

/-- A page's type decides whether its level is zero. -/
theorem of_leaf {chain : Option PageId} {lcells : List LeafCell} (h : HasLevel σ d p)
    (hp : σ p = some (.leaf chain lcells)) : d = 0 := by
  cases d with
  | zero => rfl
  | succ d => obtain ⟨_, _, heq, -⟩ := h; rw [hp] at heq; cases heq

theorem of_internal (h : HasLevel σ d p) (hp : σ p = some (.internal lm cells)) :
    ∃ d', d = d' + 1 ∧ ∀ c ∈ childrenOf lm cells, HasLevel σ d' c := by
  cases d with
  | zero => obtain ⟨_, _, heq⟩ := h; rw [hp] at heq; cases heq
  | succ d =>
    obtain ⟨_, _, heq, hkids⟩ := h
    rw [hp] at heq
    cases heq
    exact ⟨d, rfl, hkids⟩

theorem unique (h : HasLevel σ d p) (h' : HasLevel σ e p) : d = e := by
  induction d generalizing e p with
  | zero =>
    obtain ⟨_, _, heq⟩ := h
    exact (h'.of_leaf heq).symm
  | succ d ih =>
    obtain ⟨lm, cells, heq, hkids⟩ := h
    obtain ⟨e', rfl, hkids'⟩ := h'.of_internal heq
    rw [ih (hkids lm List.mem_cons_self) (hkids' lm List.mem_cons_self)]

/-- The pages on the way down to a leaf: as many as the level says, and no two alike. -/
theorem exists_path (h : HasLevel σ d p) : ∃ path : List PageId, path.length = d + 1 ∧
    path.Nodup ∧ ∀ q ∈ path, ∃ e ≤ d, HasLevel σ e q := by
  induction d generalizing p with
  | zero =>
    refine ⟨[p], rfl, List.nodup_singleton p, fun q hq => ?_⟩
    rw [List.mem_singleton.mp hq]
    exact ⟨0, le_rfl, h⟩
  | succ d ih =>
    obtain ⟨lm, cells, heq, hkids⟩ := h
    obtain ⟨path, hlen, hnodup, hlevel⟩ := ih (hkids lm List.mem_cons_self)
    have hself : HasLevel σ (d + 1) p := ⟨lm, cells, heq, hkids⟩
    refine ⟨p :: path, by simp [hlen], List.nodup_cons.mpr ⟨fun hmem => ?_, hnodup⟩, ?_⟩
    · obtain ⟨e, he, hp⟩ := hlevel p hmem
      have := hself.unique hp
      omega
    · intro q hq
      rcases List.mem_cons.mp hq with rfl | hq
      · exact ⟨d + 1, le_rfl, hself⟩
      · obtain ⟨e, he, hq⟩ := hlevel q hq
        exact ⟨e, Nat.le_succ_of_le he, hq⟩

/-- A level is less than the number of pages there are. -/
theorem lt_of_bounded (h : HasLevel σ d p) {n : Nat} (hn : ∀ q, (σ q).isSome → q < n) : d < n := by
  obtain ⟨path, hlen, hnodup, hlevel⟩ := h.exists_path
  have hsub : path ⊆ List.range n := by
    intro q hq
    obtain ⟨e, -, hq⟩ := hlevel q hq
    exact List.mem_range.mpr (hn q hq.isSome)
  have hle := (List.subperm_of_subset hnodup hsub).length_le
  rw [List.length_range] at hle
  omega

end HasLevel

/-- The child a descent takes is one of the page's children. -/
theorem childAt_mem (lm : PageId) (cells : List InternalCell) (idx : Nat) :
    childAt lm cells idx ∈ childrenOf lm cells := by
  unfold childAt
  cases idx with
  | zero => exact List.mem_cons_self
  | succ i =>
    simp only
    cases hi : cells[i]? with
    | none => exact List.mem_cons_self
    | some c => exact List.mem_cons_of_mem _ (List.mem_map_of_mem (List.mem_of_getElem? hi))

end Reldb
