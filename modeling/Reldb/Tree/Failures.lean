import Reldb.Tree.Room

/-!
# Reldb — inserts that run out of frames

`Insert` keeps a frame for every page of its way down. It throws before it writes when the tree has more
levels than the pool has frames, and after it wrote when the way down took every frame and the leaf at
its end is full.
-/

namespace Reldb

open WriteLog

namespace OnStore

section

variable {σ : PageStore} {d fuel fuel' free poolSize : Nat} {next node root : PageId}
  {chain : Option PageId} {cells : List LeafCell} {key : Int64}

/-- Fuel that lasts to the leaf does not change where a descent ends. -/
theorem findLeafPageId_congr (hnode : HasLevel σ d node) (h : d < fuel) (h' : d < fuel')
    (key : Int64) : findLeafPageId fuel σ node key = findLeafPageId fuel' σ node key := by
  induction d generalizing fuel fuel' node with
  | zero =>
    obtain ⟨chain, cells, hleaf⟩ := hnode
    obtain ⟨fuel, rfl⟩ := Nat.exists_eq_succ_of_ne_zero (Nat.ne_of_gt h)
    obtain ⟨fuel', rfl⟩ := Nat.exists_eq_succ_of_ne_zero (Nat.ne_of_gt h')
    simp only [findLeafPageId, hleaf]
  | succ d ih =>
    obtain ⟨lm, cells, hbody, hkids⟩ := hnode
    obtain ⟨fuel, rfl⟩ := Nat.exists_eq_succ_of_ne_zero (Nat.ne_of_gt (Nat.zero_lt_of_lt h))
    obtain ⟨fuel', rfl⟩ := Nat.exists_eq_succ_of_ne_zero (Nat.ne_of_gt (Nat.zero_lt_of_lt h'))
    simp only [findLeafPageId, hbody]
    exact ih (hkids _ (childAt_mem lm cells (childIndex cells key))) (by omega) (by omega)

/-! ## On the way down -/

theorem insertRecursive_exhausted (hnode : HasLevel σ d node) (hfuel : d < fuel) (hfree : free ≤ d)
    (key : Int64) (value : Bytes) :
    insertRecursive fuel free σ next node key value = .fail next .exhaustedInsert := by
  induction d generalizing fuel free node with
  | zero =>
    obtain ⟨fuel, rfl⟩ := Nat.exists_eq_succ_of_ne_zero (Nat.ne_of_gt hfuel)
    obtain rfl : free = 0 := by omega
    rfl
  | succ d ih =>
    obtain ⟨lm, cells, hbody, hkids⟩ := hnode
    obtain ⟨fuel, rfl⟩ := Nat.exists_eq_succ_of_ne_zero (Nat.ne_of_gt (Nat.zero_lt_of_lt hfuel))
    cases free with
    | zero => rfl
    | succ free =>
      have hchild := @ih fuel free _ (hkids _ (childAt_mem lm cells (childIndex cells key)))
        (by omega) (by omega)
      simp only [insertRecursive, hbody]
      rw [hchild]
      rfl

theorem insert_exhausted {register : PageId → PageStore → PageId → Run Unit}
    (hroot : HasLevel σ d root) (hd : d < next + 1) (hpool : poolSize ≤ d) (key : Int64)
    (value : Bytes) :
    insert poolSize register σ next root key value = .fail next .exhaustedInsert := by
  rw [insert, insertRecursive_exhausted hroot hd hpool]
  rfl

/-! ## At the leaf -/

theorem splitLeafIfNeeded_starves (h : leafMaxKeys < cells.length) :
    ∃ e, (splitLeafIfNeeded 0 next node chain cells).result = .error e := by
  unfold splitLeafIfNeeded
  rw [if_neg (Nat.not_le.mpr h), if_pos rfl]
  exact ⟨_, rfl⟩

theorem insertIntoLeaf_starves (hs : SortedCells cells) (hfull : leafMaxKeys ≤ cells.length)
    (hkey : ∀ c ∈ cells, c.key ≠ key) (value : Bytes) :
    ∃ e, (insertIntoLeaf 0 next node chain cells key value).result = .error e := by
  unfold insertIntoLeaf
  obtain ⟨A, B, -, ⟨old, hold, hcells, -⟩ | ⟨-, hmiss, -⟩⟩ := leafIndex_spec hs key
  · have hmem : old ∈ cells := hcells ▸ List.mem_append_right _ List.mem_cons_self
    exact absurd hold (hkey old hmem)
  · simp only [if_neg hmiss]
    split
    · exact ⟨_, rfl⟩
    · apply splitLeafIfNeeded_starves
      rw [length_insertCell]
      omega

theorem insertRecursive_starves (hs : Sound σ) (hnode : HasLevel σ d node) (hfuel : d < fuel)
    (hfull : FullLeaf σ fuel node key) (value : Bytes) :
    ∃ e, (insertRecursive fuel (d + 1) σ next node key value).result = .error e := by
  induction d generalizing fuel node with
  | zero =>
    obtain ⟨chain, cells, hleaf⟩ := hnode
    obtain ⟨fuel, rfl⟩ := Nat.exists_eq_succ_of_ne_zero (Nat.ne_of_gt hfuel)
    obtain ⟨p, chain', cells', hfind, hp, hlen, hkey⟩ := hfull
    simp only [findLeafPageId, hleaf, Except.ok.injEq] at hfind
    subst hfind
    rw [hleaf] at hp
    cases hp
    simp only [insertRecursive, hleaf]
    exact insertIntoLeaf_starves (hs.sorted hleaf) hlen hkey value
  | succ d ih =>
    obtain ⟨lm, cells, hbody, hkids⟩ := hnode
    obtain ⟨fuel, rfl⟩ := Nat.exists_eq_succ_of_ne_zero (Nat.ne_of_gt (Nat.zero_lt_of_lt hfuel))
    simp only [FullLeaf, findLeafPageId, hbody] at hfull
    obtain ⟨e, he⟩ := ih (hkids _ (childAt_mem lm cells (childIndex cells key))) (by omega) hfull
    refine ⟨e, ?_⟩
    simp only [insertRecursive, hbody]
    rw [Run.andThen_error he]

theorem insert_starves {register : PageId → PageStore → PageId → Run Unit} (hs : Sound σ)
    (hroot : HasLevel σ d root) (hd : d < next + 1) (hfull : FullLeaf σ (d + 1) root key)
    (value : Bytes) : ∃ e, (insert (d + 1) register σ next root key value).result = .error e := by
  have hfull : FullLeaf σ (next + 1) root key := by
    obtain ⟨p, chain, cells, hfind, hleaf⟩ := hfull
    rw [findLeafPageId_congr hroot (Nat.lt_succ_self d) hd] at hfind
    exact ⟨p, chain, cells, hfind, hleaf⟩
  obtain ⟨e, he⟩ := @insertRecursive_starves _ _ _ next _ _ hs hroot hd hfull value
  refine ⟨e, ?_⟩
  rw [insert, Run.andThen_error he]

end

end OnStore

/-- A key its leaf does not hold is nowhere in the tree. -/
theorem Intact.lacks_of_fullLeaf {σ : PageStore} {h : Nat} {t : Tree h} {root next : PageId}
    {key : Int64} (ht : Intact σ root t) (hnext : ∀ p, next ≤ p → σ p = none)
    (hfull : FullLeaf σ (h + 1) root key) : ∀ c ∈ t.cells, c.key ≠ key := by
  intro c hc hck
  obtain ⟨p, chain, cells, hfind, hleaf, -, hkey⟩ := hfull
  rw [OnStore.findLeafPageId_congr ht.hasLevel (Nat.lt_succ_self h) (ht.lt_next hnext)] at hfind
  obtain ⟨r, hget, hr⟩ := ht.get hnext key
  have hsome : r = some c.value := (hr c.value).mpr (hck ▸ hc)
  have hnone : cells.find? (·.key == key) = none :=
    List.find?_eq_none.mpr fun c hc => by simpa using hkey c hc
  simp only [OnStore.get, hfind, Except.bind, hleaf, hnone, Option.map_none] at hget
  rw [hsome] at hget
  cases hget

end Reldb
