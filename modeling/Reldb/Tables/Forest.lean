import Reldb.Tables.Methods

/-!
# Reldb — the tables' trees

Between calls every table has an intact tree, and no page belongs to two of them. An operation on
one table writes pages of that table's tree, new pages and the catalog page, so the other trees stay
as they are.
-/

namespace Reldb

open WriteLog BufferPool

/-- A tree of some height. -/
abbrev AnyTree := Σ h, Tree h

/-- The intact trees of the tables in use. -/
structure Forest (σ : PageStore) (tables : List CatalogTableEntry) (trees : Nat → AnyTree) :
    Prop where
  intact : ∀ {i : Nat} {entry : CatalogTableEntry}, tables[i]? = some entry → entry.inUse = true →
    Intact σ entry.rootPageId (trees i).2
  disjoint : ∀ {i j : Nat} {entry entry' : CatalogTableEntry}, tables[i]? = some entry →
    entry.inUse = true → tables[j]? = some entry' → entry'.inUse = true → i ≠ j →
    ∀ p ∈ (trees i).2.pages, p ∉ (trees j).2.pages

/-- No leaf of any table has outgrown the split threshold. -/
def SmallTrees (tables : List CatalogTableEntry) (trees : Nat → AnyTree) : Prop :=
  ∀ i entry, tables[i]? = some entry → entry.inUse = true →
    ∀ l ∈ (trees i).2.leaves, l.cells.length ≤ leafMaxKeys

section

variable {σ τ : PageStore} {tables : List CatalogTableEntry} {trees : Nat → AnyTree}
  {slot : Nat} {next : PageId}

/-- The tree at one slot replaced by one made of its pages and new ones. -/
theorem Forest.set (h : Forest σ tables trees) {entry entry' : CatalogTableEntry} (tree : AnyTree)
    (hentry : tables[slot]? = some entry) (hintact : Intact τ entry'.rootPageId tree.2)
    (hnext : ∀ p, next ≤ p → σ p = none)
    (hpages : ∀ p ∈ tree.2.pages, (entry.inUse = true ∧ p ∈ (trees slot).2.pages) ∨ next ≤ p)
    (hkeep : ∀ p b, σ p = some b → b.IsNode → (entry.inUse = true → p ∉ (trees slot).2.pages) →
      τ p = σ p) :
    Forest τ (tables.set slot entry') (Function.update trees slot tree) := by
  have hlt := (List.getElem?_eq_some_iff.mp hentry).1
  have hother : ∀ {j e}, tables[j]? = some e → e.inUse = true → slot ≠ j →
      ∀ p ∈ (trees j).2.pages, (∃ b, σ p = some b ∧ b.IsNode) ∧
        (entry.inUse = true → p ∉ (trees slot).2.pages) := by
    intro j e hj huse hne p hp
    obtain ⟨b, hb, hnode⟩ := (h.intact hj huse).holds.isNode hp
    exact ⟨⟨b, hb, hnode⟩, fun hslot hmem => h.disjoint hentry hslot hj huse hne p hmem hp⟩
  have hfresh : ∀ {j e}, tables[j]? = some e → e.inUse = true → slot ≠ j →
      ∀ p ∈ (trees j).2.pages, p ∉ tree.2.pages := by
    intro j e hj huse hne p hp hmem
    obtain ⟨⟨b, hb, -⟩, hnot⟩ := hother hj huse hne p hp
    rcases hpages p hmem with ⟨hslot, hin⟩ | hge
    · exact hnot hslot hin
    · rw [hnext p hge] at hb
      cases hb
  have hget : ∀ {j e}, slot ≠ j → (tables.set slot entry')[j]? = some e → tables[j]? = some e :=
    fun hne hj => by rwa [List.getElem?_set_ne hne] at hj
  constructor
  · intro j e hj huse
    by_cases hne : slot = j
    · subst hne
      rw [List.getElem?_set_self hlt] at hj
      obtain rfl := Option.some.inj hj
      rw [Function.update_self]
      exact hintact
    · rw [Function.update_of_ne (Ne.symm hne)]
      refine (h.intact (hget hne hj) huse).congr fun p hp => ?_
      obtain ⟨⟨b, hb, hnode⟩, hnot⟩ := hother (hget hne hj) huse hne p hp
      exact hkeep p b hb hnode hnot
  · intro i j e e' hi huse hj huse' hij p hp
    by_cases hsi : slot = i
    · subst hsi
      rw [Function.update_self] at hp
      rw [Function.update_of_ne (Ne.symm hij)]
      exact fun hmem => hfresh (hget hij hj) huse' hij p hmem hp
    · rw [Function.update_of_ne (Ne.symm hsi)] at hp
      by_cases hsj : slot = j
      · subst hsj
        rw [Function.update_self]
        exact hfresh (hget hsi hi) huse hsi p hp
      · rw [Function.update_of_ne (Ne.symm hsj)]
        exact h.disjoint (hget hsi hi) huse (hget hsj hj) huse' hij p hp

theorem SmallTrees.set (h : SmallTrees tables trees) {entry' : CatalogTableEntry} {tree : AnyTree}
    (htree : ∀ l ∈ tree.2.leaves, l.cells.length ≤ leafMaxKeys) :
    SmallTrees (tables.set slot entry') (Function.update trees slot tree) := by
  intro i entry hi huse l hl
  by_cases hne : slot = i
  · subst hne
    rw [Function.update_self] at hl
    exact htree l hl
  · rw [List.getElem?_set_ne hne] at hi
    rw [Function.update_of_ne (Ne.symm hne)] at hl
    exact h i entry hi huse l hl

end

namespace Catalog

section

variable {base : Files} {cat : Catalog} {body : CatalogBody} {trees : Nat → AnyTree} {slot : Nat}

/-- **`CreateTable`** plants a tree of one empty leaf. -/
theorem Created.forest {schema : TableSchema} {bp : BufferPool} (h : Ready base cat body)
    (hf : Forest cat.bufferPool.view body.tables trees)
    (hc : Created base cat body schema slot bp) :
    Forest bp.view (body.addTable slot schema cat.bufferPool.next).tables
      (Function.update trees slot ⟨0, .leaf ⟨cat.bufferPool.next, []⟩⟩) := by
  obtain ⟨handle, hget, hfree⟩ := hc.free
  obtain ⟨entry, hentry, hm⟩ := h.exists_entry hget
  have hview : bp.view = write (write cat.bufferPool.view (cat.bufferPool.next, .leaf none []))
      (0, .catalog (body.addTable slot schema cat.bufferPool.next)) := hc.settled.view_eq
  have hzero : cat.bufferPool.next ≠ 0 := (h.good.lt_next h.page).ne'
  have hleaf : bp.view cat.bufferPool.next = some (.leaf none []) := by
    rw [hview, write_of_ne _ _ hzero]
    exact write_self _ _
  refine hf.set ⟨0, .leaf ⟨cat.bufferPool.next, []⟩⟩ hentry
    ⟨rfl, holds_leaf.mpr ⟨⟨none, hleaf⟩, .nil, by simp⟩, List.nodup_singleton _, rfl, none, hleaf,
      rfl⟩ h.fresh (fun p hp => .inr (List.mem_singleton.mp hp).ge) fun p b hb hnode _ => ?_
  have hp₀ : p ≠ 0 := by
    rintro rfl
    rw [h.page] at hb
    obtain rfl := Option.some.inj hb
    exact hnode
  have hp₁ : p ≠ cat.bufferPool.next := (h.good.lt_next hb).ne
  rw [hview, write_of_ne _ _ hp₀, write_of_ne _ _ hp₁]

variable {name : Bytes} {values : List Value} {handle : TableHandle} {entry : CatalogTableEntry}
  {key : Int64} {blob : Bytes}

/-- What an insertion made of the table's tree. -/
structure Grew (cat : Catalog) (slot : Nat) (entry : CatalogTableEntry) (key : Int64)
    (blob : Bytes) (tree tree' : AnyTree) : Prop where
  mem : ∀ c, c ∈ tree'.2.cells ↔ c = ⟨key, blob⟩ ∨ (c ∈ tree.2.cells ∧ c.key ≠ key)
  result : (∃ root, (cat.insertRun slot entry.rootPageId key blob).result = .ok root) ∨
    ((cat.insertRun slot entry.rootPageId key blob).result = .error .exhaustedSplit ∧
      cat.bufferPool.poolSize = tree.1 + 1 ∧
      FullLeaf cat.bufferPool.view (tree.1 + 1) entry.rootPageId key)
  small : (∃ root, (cat.insertRun slot entry.rootPageId key blob).result = .ok root) →
    (∀ l ∈ tree.2.leaves, l.cells.length ≤ leafMaxKeys) →
    ∀ l ∈ tree'.2.leaves, l.cells.length ≤ leafMaxKeys

/-- **`InsertRow`** does nothing, or puts the row in its table's tree and leaves the others. -/
theorem Stores.forest (h : Ready base cat body)
    (hf : Forest cat.bufferPool.view body.tables trees)
    (hst : Stores cat body name values slot handle entry key blob) :
    (∃ e, cat.insertRun slot entry.rootPageId key blob = .fail cat.bufferPool.next e ∧
        ((e = .exhaustedInsert ∧ cat.bufferPool.poolSize ≤ (trees slot).1) ∨
          (e = .undefinedBehaviour ∧ ∃ l ∈ (trees slot).2.leaves, leafCapacity ≤ l.cells.length))) ∨
      ∃ tree', Grew cat slot entry key blob (trees slot) tree' ∧
        Forest ((cat.insertRowRun slot entry.rootPageId key blob).store cat.bufferPool.view)
          (bodyAfter body slot (cat.insertRun slot entry.rootPageId key blob)).tables
          (Function.update trees slot tree') := by
  have hintact := hf.intact hst.entry_eq hst.inUse
  rcases hintact.insert_registered (OnStore.writeRootPageId slot) 0 h.sound
    h.pool_pos h.fresh h.page id (fun root' τ n hτ =>
      ⟨_, OnStore.updateEntry_eq (hτ.trans h.page) slot _ n⟩) key blob with hidle | ⟨h', t', hin⟩
  · exact .inl hidle
  right
  change Inserted cat.bufferPool.view cat.bufferPool.next entry.rootPageId 0
    cat.bufferPool.poolSize (trees slot).2 key blob (cat.insertRun slot entry.rootPageId key blob) t'
    at hin
  obtain ⟨d, hd⟩ := hst.root h
  have heq : cat.insertRowRun slot entry.rootPageId key blob = _ :=
    insertRow_eq h.sound hd h.pool_pos h.fresh h.page hst.entry_eq
      (show OnStore.insert _ _ _ _ _ key blob = cat.insertRun slot entry.rootPageId key blob from rfl)
  have hreg : RootLog cat.bufferPool.view cat.bufferPool.next 0 _ entry.rootPageId
      (cat.insertRun slot entry.rootPageId key blob) _ :=
    insert_catalog h.sound hd h.pool_pos h.fresh h.page hst.entry_eq key blob
  obtain ⟨count, htables, -⟩ := bodyAfter_tables hst.entry_eq
    (cat.insertRun slot entry.rootPageId key blob)
  set r := cat.insertRun slot entry.rootPageId key blob with hr
  set r' := cat.insertRowRun slot entry.rootPageId key blob with hr'
  -- the count comes after the tree's writes, on the catalog page
  have hstore : r'.store cat.bufferPool.view = r.store cat.bufferPool.view ∨
      ∃ b, r'.store cat.bufferPool.view = write (r.store cat.bufferPool.view) (0, .catalog b) := by
    rw [heq]
    cases r.result with
    | error e => exact .inl rfl
    | ok root => exact .inr ⟨_, by rw [Run.store, replay_append]; rfl⟩
  have hzero : ∀ b, r.store cat.bufferPool.view 0 = some b → ¬ b.IsNode := fun b hb => by
    rw [hreg.registered] at hb
    obtain rfl := Option.some.inj hb
    exact id
  have hintact' : Intact (r'.store cat.bufferPool.view) (rootAfter entry.rootPageId r) t' := by
    rcases hstore with hsame | ⟨b, hsame⟩
    · rw [hsame]
      exact hin.intact
    · rw [hsame]
      exact hin.intact.write_other hzero
  have hkeep : ∀ p b, cat.bufferPool.view p = some b → b.IsNode →
      p ∉ (trees slot).2.pages → r'.store cat.bufferPool.view p = cat.bufferPool.view p := by
    intro p b hb hnode hp
    have hp₀ : p ≠ 0 := by
      rintro rfl
      rw [h.page] at hb
      obtain rfl := Option.some.inj hb
      exact hnode
    have htree : r.store cat.bufferPool.view p = cat.bufferPool.view p := by
      refine replay_of_notMem fun hmem => ?_
      obtain ⟨w, hw, rfl⟩ := List.mem_map.mp hmem
      rcases hin.frame w hw with hpage | hge | hregistry
      · exact hp hpage
      · rw [h.fresh _ hge] at hb
        cases hb
      · exact hp₀ hregistry
    rcases hstore with hsame | ⟨b, hsame⟩
    · rw [hsame, htree]
    · rw [hsame, write_of_ne _ _ hp₀, htree]
  refine ⟨⟨h', t'⟩, ⟨hin.mem, hin.result.imp (fun hok => ⟨_, hok⟩) id, hin.small⟩, ?_⟩
  rw [htables]
  exact hf.set ⟨h', t'⟩ hst.entry_eq hintact' h.fresh
    (fun p hp => (hin.pages p hp).imp (fun hmem => ⟨hst.inUse, hmem⟩) And.left)
    fun p b hb hnode hnot => hkeep p b hb hnode (hnot hst.inUse)

end

end Catalog

end Reldb
