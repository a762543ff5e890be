import Reldb.Tree.Shape

/-!
# Reldb — lookups and deletes on intact trees

In an intact tree `Get` finds exactly the cells the tree has, `RangeScan` reports exactly those
within its bounds, and `Delete` takes one out of its leaf and leaves an intact tree.
-/

namespace Reldb

open WriteLog Tiling

section

variable {σ : PageStore} {h : Nat} {t : Tree h} {root next : PageId} {key : Int64}

theorem Intact.lt_next (ht : Intact σ root t) (hnext : ∀ p, next ≤ p → σ p = none) : h < next + 1 :=
  Nat.lt_succ_of_lt (ht.hasLevel.lt_of_bounded fun q hq => by
    obtain ⟨b, hb⟩ := Option.isSome_iff_exists.mp hq
    exact lt_of_some hnext hb)

theorem bot_le_key (key : Int64) : (⊥ : Int64) ≤ key := bot_le

theorem key_lt_top (key : Int64) : (key : WithTop Int64) < ⊤ := WithTop.coe_lt_top key

theorem Intact.findLeaf (ht : Intact σ root t) (hnext : ∀ p, next ≤ p → σ p = none)
    (key : Int64) : ∃ A l B chain, Found σ t ⊥ ⊤ key A l B chain ∧
      OnStore.findLeafPageId (next + 1) σ root key = .ok l.id := by
  obtain ⟨A, l, B, chain, hfound, hfind⟩ :=
    ht.holds.findLeaf ht.nodup (bot_le_key key) (key_lt_top key) (ht.lt_next hnext)
  exact ⟨A, l, B, chain, hfound, ht.root_eq ▸ hfind⟩

/-- **`Get` finds exactly the tree's cells.** -/
theorem Intact.get (ht : Intact σ root t) (hnext : ∀ p, next ≤ p → σ p = none) (key : Int64) :
    ∃ r, OnStore.get σ next root key = .ok r ∧ ∀ v, r = some v ↔ ⟨key, v⟩ ∈ t.cells := by
  obtain ⟨A, l, B, chain, hfound, hfind⟩ := ht.findLeaf hnext key
  refine ⟨(l.cells.find? (·.key == key)).map (·.value), ?_, fun v => ?_⟩
  · simp only [OnStore.get, hfind, Except.bind, hfound.leaf]
  · rw [find?_key hfound.sorted, hfound.mem_leaf rfl]

/-- **`RangeScan` reports exactly the tree's cells within the bounds, in key order.** -/
theorem Intact.rangeScan (ht : Intact σ root t) (hnext : ∀ p, next ≤ p → σ p = none)
    (low high : Int64) : OnStore.rangeScan σ next root low high
      = .ok ((t.cells.filter fun c => decide (low ≤ c.key) && decide (c.key ≤ high)).map
          LeafCell.pair) := by
  unfold OnStore.rangeScan
  by_cases hlt : high < low
  · rw [if_pos hlt, List.filter_eq_nil_iff.mpr]
    · rfl
    · intro c _ hc
      simp only [Bool.and_eq_true, decide_eq_true_eq] at hc
      exact absurd (hc.1.trans hc.2) (not_le.mpr hlt)
  · rw [if_neg hlt]
    obtain ⟨A, l, B, chain, hfound, hfind⟩ := ht.findLeaf hnext low
    have hlinked := ht.linked
    rw [hfound.leaves] at hlinked
    obtain ⟨mid, -, rfl, chain', hleaf, hrest⟩ := Linked.append_iff.mp hlinked
    have hscan : Linked σ (some l.id) none (l :: B) := ⟨rfl, chain', hleaf, hrest⟩
    have hfuel : (l :: B).length ≤ next + 1 :=
      (hscan.length_le fun q hq => by
        obtain ⟨b, hb⟩ := Option.isSome_iff_exists.mp hq
        exact lt_of_some hnext hb).trans (Nat.le_succ _)
    have hsorted := ht.holds.sorted
    have hcells : t.cells = cellsOf A ++ cellsOf (l :: B) := by
      rw [Tree.cells, hfound.leaves, cellsOf_append]
    rw [hcells] at hsorted ⊢
    have hnone : (cellsOf A).filter (fun c => decide (low ≤ c.key) && decide (c.key ≤ high))
        = [] := by
      refine List.filter_eq_nil_iff.mpr fun c hc => ?_
      simp [not_le.mpr (hfound.below c hc)]
    simp only [hfind, Except.bind]
    rw [OnStore.scanLeaves_eq hscan hfuel, scanned_eq (SortedCells.append_iff.mp hsorted).2.1,
      List.filter_append, hnone, List.nil_append]

/-! ## Rewriting one leaf -/

/-- A chain with the cells of one of its leaves rewritten in place. -/
theorem Linked.rewriteLeaf {src : Option PageId} {A B : List Leaf} {l : Leaf}
    {chain : Option PageId} (hl : Linked σ src none (A ++ l :: B))
    (hleaf : σ l.id = some (.leaf chain l.cells)) (cells' : List LeafCell) :
    Linked (write σ (l.id, .leaf chain cells')) src none (A ++ ⟨l.id, cells'⟩ :: B) := by
  have hnodup := hl.nodup
  rw [List.map_append, List.map_cons] at hnodup
  obtain ⟨-, hright, hcross⟩ := List.nodup_append.mp hnodup
  obtain ⟨mid, hA, rfl, chain', hleaf', hB⟩ := append_iff.mp hl
  obtain rfl : chain' = chain := by
    have := hleaf'.symm.trans hleaf
    injection this with this
    injection this
  refine append_iff.mpr ⟨some l.id, hA.congr fun x hx => write_of_ne σ _ ?_, rfl, chain',
    write_self σ _, hB.congr fun x hx => write_of_ne σ _ ?_⟩
  · exact hcross _ (List.mem_map_of_mem hx) _ List.mem_cons_self
  · intro heq
    have heq : x.id = l.id := heq
    exact (List.nodup_cons.mp hright).1 (heq ▸ List.mem_map_of_mem hx)

/-- An intact tree with the cells of the leaf found rewritten. -/
theorem Intact.rewriteLeaf (ht : Intact σ root t) {A B : List Leaf} {l : Leaf}
    {chain : Option PageId} (hf : Found σ t ⊥ ⊤ key A l B chain) {cells' : List LeafCell}
    (hcells' : ∀ {lo hi}, LeafOn lo hi l → lo ≤ key → (key : WithTop Int64) < hi →
      LeafOn lo hi ⟨l.id, cells'⟩) :
    ∃ t' : Tree h, Intact (write σ (l.id, .leaf chain cells')) root t' ∧ t'.pages = t.pages ∧
      t'.leaves = A ++ ⟨l.id, cells'⟩ :: B := by
  obtain ⟨lo', hi', hon, hlo', hhi', hrewrite⟩ := hf.rewrite
  obtain ⟨t', hholds, hid, hpages, hleaves⟩ := hrewrite cells' (hcells' hon hlo' hhi')
  refine ⟨t', ⟨hid.trans ht.root_eq, hholds, hpages ▸ ht.nodup, ?_⟩, hpages, hleaves⟩
  have hcommit : Commit σ (l.id, .leaf chain cells') := .cells hf.leaf (hcells' hon hlo' hhi').sorted
  rw [(Extends.of_commit hcommit).leftmostLeaf_eq ht.hasLevel, hleaves]
  have hlinked := ht.linked
  rw [hf.leaves] at hlinked
  exact hlinked.rewriteLeaf hf.leaf cells'

theorem mem_eraseIdx_sorted {cells : List LeafCell} (hs : SortedCells cells) {i : Nat}
    (hi : i < cells.length) {c : LeafCell} :
    c ∈ cells.eraseIdx i ↔ c ∈ cells ∧ c.key ≠ (cells[i]).key := by
  rw [List.mem_eraseIdx_iff_getElem]
  have hmono := List.pairwise_iff_getElem.mp hs
  constructor
  · rintro ⟨j, hj, hne, rfl⟩
    refine ⟨List.getElem_mem hj, fun heq => ?_⟩
    rcases Nat.lt_or_gt_of_ne hne with hlt | hgt
    · exact absurd heq (hmono j i hj hi hlt).ne
    · exact absurd heq (hmono i j hi hj hgt).ne'
  · rintro ⟨hc, hne⟩
    obtain ⟨j, hj, rfl⟩ := List.getElem_of_mem hc
    exact ⟨j, hj, fun heq => hne (by subst heq; rfl), rfl⟩

/-- **`Delete` takes out the key's cell**, if there is one, and says whether there was. -/
theorem Intact.delete (ht : Intact σ root t) (hnext : ∀ p, next ≤ p → σ p = none) (key : Int64) :
    ∃ found, (OnStore.delete σ next root key).result = .ok found ∧
      (found = true ↔ ∃ c ∈ t.cells, c.key = key) ∧
      (∀ w ∈ (OnStore.delete σ next root key).writes, w.1 ∈ t.pages) ∧
      (OnStore.delete σ next root key).next = next ∧
      ∃ t' : Tree h, Intact ((OnStore.delete σ next root key).store σ) root t' ∧
        t'.pages = t.pages ∧ (∀ c, c ∈ t'.cells ↔ c ∈ t.cells ∧ c.key ≠ key) ∧
        ∀ n, (∀ l ∈ t.leaves, l.cells.length ≤ n) → ∀ l ∈ t'.leaves, l.cells.length ≤ n := by
  obtain ⟨A, l, B, chain, hfound, hfind⟩ := ht.findLeaf hnext key
  simp only [OnStore.delete, hfind, hfound.leaf]
  cases hidx : l.cells.findIdx? (·.key == key) with
  | none =>
    have hnone : ∀ c ∈ t.cells, c.key ≠ key := by
      intro c hc hkey
      have := List.findIdx?_eq_none_iff.mp hidx c ((hfound.mem_leaf hkey).mp hc)
      simp [hkey] at this
    refine ⟨false, rfl, ⟨fun h => (by cases h), ?_⟩, ?_, rfl, t, ht, rfl, ?_, fun _ h => h⟩
    · rintro ⟨c, hc, hkey⟩
      exact absurd hkey (hnone c hc)
    · rintro w ⟨⟩
    · exact fun c => ⟨fun hc => ⟨hc, hnone c hc⟩, And.left⟩
  | some i =>
    obtain ⟨hi, hkey, -⟩ := List.findIdx?_eq_some_iff_getElem.mp hidx
    have hkey : (l.cells[i]).key = key := by simpa using hkey
    have hsub : (l.cells.eraseIdx i).Sublist l.cells := List.eraseIdx_sublist _ i
    obtain ⟨t', ht', hpages, hleaves⟩ := ht.rewriteLeaf hfound fun hon _ _ =>
      (⟨hon.sorted.sublist hsub, fun c hc => hon.range c (hsub.subset hc)⟩ :
        LeafOn _ _ ⟨l.id, l.cells.eraseIdx i⟩)
    refine ⟨true, rfl, ⟨fun _ => ⟨_, (hfound.mem_leaf hkey).mpr (List.getElem_mem hi), hkey⟩,
      fun _ => rfl⟩, ?_, rfl, t', ht', hpages, fun c => ?_, fun n hn x hx => ?_⟩
    · intro w hw
      rw [List.mem_singleton.mp hw]
      exact t.leaf_mem_pages (hfound.leaves ▸ List.mem_append_right _ List.mem_cons_self)
    · rw [Tree.cells, hleaves, hfound.cells_eq, cellsOf_append, cellsOf_cons]
      simp only [List.mem_append, mem_eraseIdx_sorted hfound.sorted hi, hkey]
      constructor
      · rintro (hc | ⟨hc, hne⟩ | hc)
        · exact ⟨.inl hc, (hfound.below c hc).ne⟩
        · exact ⟨.inr (.inl hc), hne⟩
        · exact ⟨.inr (.inr hc), (hfound.above c hc).ne'⟩
      · rintro ⟨hc | hc | hc, hne⟩
        exacts [.inl hc, .inr (.inl ⟨hc, hne⟩), .inr (.inr hc)]
    · rw [hfound.leaves] at hn
      rw [hleaves] at hx
      rcases List.mem_append.mp hx with hx | hx
      · exact hn x (List.mem_append_left _ hx)
      rcases List.mem_cons.mp hx with rfl | hx
      · exact hsub.length_le.trans (hn l (List.mem_append_right _ List.mem_cons_self))
      · exact hn x (List.mem_append_right _ (List.mem_cons_of_mem _ hx))

end

end Reldb
