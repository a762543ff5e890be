import Reldb.Tree.Level

/-!
# Reldb — the leaf chain

`Linked σ src dst leaves`: following `next_leaf` from `src` one meets the leaf pages `leaves`, in
this order, and then stands at `dst`. A chain that ends (`dst = none`) is determined by where it
starts, visits no leaf twice, and so has at most as many leaves as there are pages.

`Scans σ root leaves` is the chain a full scan of the tree at `root` walks.
-/

namespace Reldb

open WriteLog

/-- A leaf page with its cells. -/
structure Leaf where
  id : PageId
  cells : List LeafCell
  deriving DecidableEq, Repr

/-- All cells of a run of leaves, in order. -/
def cellsOf (leaves : List Leaf) : List LeafCell := leaves.flatMap Leaf.cells

@[simp] theorem cellsOf_nil : cellsOf [] = [] := rfl

@[simp] theorem cellsOf_cons (l : Leaf) (ls : List Leaf) :
    cellsOf (l :: ls) = l.cells ++ cellsOf ls := List.flatMap_cons

@[simp] theorem cellsOf_append (ls ls' : List Leaf) :
    cellsOf (ls ++ ls') = cellsOf ls ++ cellsOf ls' := List.flatMap_append

/-- Following `next_leaf` from `src` visits `leaves` and arrives at `dst`. -/
def Linked (σ : PageStore) : Option PageId → Option PageId → List Leaf → Prop
  | src, dst, [] => src = dst
  | src, dst, l :: ls =>
    src = some l.id ∧ ∃ next, σ l.id = some (.leaf next l.cells) ∧ Linked σ next dst ls

namespace Linked

variable {σ τ : PageStore} {src dst : Option PageId} {ls ls' : List Leaf}

theorem append_iff : Linked σ src dst (ls ++ ls') ↔
    ∃ mid, Linked σ src mid ls ∧ Linked σ mid dst ls' := by
  induction ls generalizing src with
  | nil => simp [Linked]
  | cons l ls ih =>
    simp only [List.cons_append, Linked, ih]
    constructor
    · rintro ⟨hsrc, next, hl, mid, h, h'⟩
      exact ⟨mid, ⟨hsrc, next, hl, h⟩, h'⟩
    · rintro ⟨mid, ⟨hsrc, next, hl, h⟩, h'⟩
      exact ⟨hsrc, next, hl, mid, h, h'⟩

/-- A chain only depends on the leaves it visits. -/
theorem congr (h : Linked σ src dst ls) (heq : ∀ l ∈ ls, τ l.id = σ l.id) :
    Linked τ src dst ls := by
  induction ls generalizing src with
  | nil => exact h
  | cons l ls ih =>
    obtain ⟨hsrc, next, hl, hrest⟩ := h
    refine ⟨hsrc, next, (heq l List.mem_cons_self).trans hl, ih hrest fun l' hl' => ?_⟩
    exact heq l' (List.mem_cons_of_mem _ hl')

theorem isLeaf (h : Linked σ src dst ls) {l : Leaf} (hl : l ∈ ls) :
    ∃ next, σ l.id = some (.leaf next l.cells) := by
  induction ls generalizing src with
  | nil => cases hl
  | cons l' ls ih =>
    obtain ⟨-, next, hl', hrest⟩ := h
    rcases List.mem_cons.mp hl with rfl | hl
    · exact ⟨next, hl'⟩
    · exact ih hrest hl

/-- A chain that ends is determined by where it starts. -/
theorem unique (h : Linked σ src none ls) (h' : Linked σ src none ls') : ls = ls' := by
  induction ls generalizing src ls' with
  | nil =>
    cases ls' with
    | nil => rfl
    | cons l' ls' =>
      obtain ⟨hsrc, -⟩ := h'
      rw [show src = none from h] at hsrc
      cases hsrc
  | cons l ls ih =>
    obtain ⟨hsrc, next, hl, hrest⟩ := h
    cases ls' with
    | nil =>
      rw [show src = none from h'] at hsrc
      cases hsrc
    | cons l' ls' =>
      obtain ⟨hsrc', next', hl', hrest'⟩ := h'
      have hid : l.id = l'.id := Option.some.inj (hsrc.symm.trans hsrc')
      rw [← hid, hl] at hl'
      injection hl' with hbody
      injection hbody with hnext hcells
      subst hnext
      rw [ih hrest hrest']
      congr 1
      cases l; cases l'
      cases hid; cases hcells
      rfl

/-- A chain that ends visits no leaf twice: from its second visit it would go on as from the
first. -/
theorem nodup (h : Linked σ src none ls) : (ls.map Leaf.id).Nodup := by
  induction ls generalizing src with
  | nil => exact List.nodup_nil
  | cons l ls ih =>
    have hself := h
    obtain ⟨hsrc, next, hl, hrest⟩ := h
    refine List.nodup_cons.mpr ⟨fun hmem => ?_, ih hrest⟩
    obtain ⟨l', hl', hid⟩ := List.mem_map.mp hmem
    obtain ⟨before, after, rfl⟩ := List.append_of_mem hl'
    obtain ⟨mid, -, hagain⟩ := append_iff.mp hrest
    have hmid : mid = src := by rw [hagain.1, hsrc, hid]
    rw [hmid] at hagain
    have hlen := congrArg List.length (hself.unique hagain)
    simp at hlen
    omega

theorem length_le (h : Linked σ src none ls) {n : Nat} (hn : ∀ q, (σ q).isSome → q < n) :
    ls.length ≤ n := by
  have hsub : ls.map Leaf.id ⊆ List.range n := by
    intro q hq
    obtain ⟨l, hl, rfl⟩ := List.mem_map.mp hq
    obtain ⟨next, hleaf⟩ := h.isLeaf hl
    exact List.mem_range.mpr (hn _ (by rw [hleaf]; rfl))
  have hle := (List.subperm_of_subset h.nodup hsub).length_le
  rwa [List.length_map, List.length_range] at hle

/-- Where a leaf stands in a chain that ends. -/
theorem split_at (h : Linked σ src none ls) {p : PageId} (hp : p ∈ ls.map Leaf.id) :
    ∃ A cells chain B, ls = A ++ ⟨p, cells⟩ :: B ∧ σ p = some (.leaf chain cells) ∧
      Linked σ src (some p) A ∧ Linked σ chain none B ∧
      p ∉ A.map Leaf.id ∧ p ∉ B.map Leaf.id := by
  obtain ⟨l, hl, rfl⟩ := List.mem_map.mp hp
  obtain ⟨A, B, rfl⟩ := List.append_of_mem hl
  have hnodup := h.nodup
  obtain ⟨mid, hA, rfl, chain, hleaf, hB⟩ := append_iff.mp h
  refine ⟨A, l.cells, chain, B, rfl, hleaf, hA, hB, ?_, ?_⟩
  · rw [List.map_append, List.map_cons] at hnodup
    exact fun hmem => (List.disjoint_of_nodup_append hnodup) hmem List.mem_cons_self
  · rw [List.map_append, List.map_cons] at hnodup
    exact (List.nodup_cons.mp (List.nodup_append.mp hnodup).2.1).1

end Linked

/-! ## Scanning along a chain -/

/-- The pairs `RangeScan` reports from a run of leaves. -/
def scanned (low high : Int64) : List Leaf → List (Int64 × Bytes)
  | [] => []
  | l :: ls =>
    (scanCells low high l.cells).1 ++
      if (scanCells low high l.cells).2 then [] else scanned low high ls

/-- With fuel for every leaf, the scan loop walks the chain to its end. -/
theorem OnStore.scanLeaves_eq {σ : PageStore} {src : Option PageId} {ls : List Leaf} {fuel : Nat}
    (h : Linked σ src none ls) (hfuel : ls.length ≤ fuel) (low high : Int64) :
    OnStore.scanLeaves fuel σ src low high = .ok (scanned low high ls) := by
  induction ls generalizing src fuel with
  | nil =>
    rw [show src = none from h]
    cases fuel <;> rfl
  | cons l ls ih =>
    obtain ⟨rfl, next, hl, hrest⟩ := h
    cases fuel with
    | zero => simp at hfuel
    | succ fuel =>
      have hfuel' : ls.length ≤ fuel := by simpa using hfuel
      simp only [OnStore.scanLeaves, hl, scanned]
      cases hpast : (scanCells low high l.cells).2 with
      | true =>
        have hstop : OnStore.scanLeaves fuel σ none low high = .ok [] := by cases fuel <;> rfl
        simp [hstop, Except.map]
      | false => simp [ih hrest hfuel', Except.map]

/-- A scan of every key reports every cell. -/
theorem scanCells_all (cells : List LeafCell) :
    scanCells ⊥ ⊤ cells = (cells.map fun c => (c.key, c.value), false) := by
  induction cells with
  | nil => rfl
  | cons c cs ih => simp [scanCells, ih]

theorem scanned_all (ls : List Leaf) :
    scanned ⊥ ⊤ ls = (cellsOf ls).map fun c => (c.key, c.value) := by
  induction ls with
  | nil => rfl
  | cons l ls ih => simp [scanned, scanCells_all, ih]

/-! ## The chain of a tree -/

/-- The leaf at the end of the leftmost path down from `p`. -/
def leftmostLeaf (σ : PageStore) : Nat → PageId → PageId
  | 0, p => p
  | d + 1, p =>
    match σ p with
    | some (.internal lm _) => leftmostLeaf σ d lm
    | _ => p

/-- The leaves a full scan of the tree at `root` visits. -/
def Scans (σ : PageStore) (root : PageId) (leaves : List Leaf) : Prop :=
  ∃ d, HasLevel σ d root ∧ Linked σ (some (leftmostLeaf σ d root)) none leaves

theorem Scans.unique {σ : PageStore} {root : PageId} {ls ls' : List Leaf} (h : Scans σ root ls)
    (h' : Scans σ root ls') : ls = ls' := by
  obtain ⟨d, hd, hl⟩ := h
  obtain ⟨d', hd', hl'⟩ := h'
  obtain rfl := hd.unique hd'
  exact hl.unique hl'

end Reldb
