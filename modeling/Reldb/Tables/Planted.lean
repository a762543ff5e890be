import Reldb.Tables.Cuts

/-!
# Reldb — whole trees in a log cut inside a call

A crash between the pages of a split leaves a tree without the new page above its leaves. A call that
allocates no page writes one page of a tree at most, so that its log, cut anywhere, shows whole trees
(`Writes.planted`).
-/

namespace Reldb

open WriteLog BufferPool

/-- What a log shows between calls: a catalog's page and whole trees. -/
structure Planted (σ : PageStore) (body : CatalogBody) (trees : Nat → AnyTree) : Prop extends
    Catalog.Listed σ body where
  forest : Forest σ body.tables trees

/-- The trees under pages that differ in no node and in no table's root. -/
theorem Forest.congr {σ τ : PageStore} {tables tables' : List CatalogTableEntry} {trees : Nat → AnyTree}
    (h : Forest σ tables trees) (hnodes : ∀ p b, σ p = some b → b.IsNode → τ p = σ p)
    (htables : ∀ (i : Nat) (entry' : CatalogTableEntry), tables'[i]? = some entry' →
      entry'.inUse = true → ∃ entry : CatalogTableEntry, tables[i]? = some entry ∧
        entry.inUse = true ∧ entry.rootPageId = entry'.rootPageId) : Forest τ tables' trees := by
  constructor
  · intro i entry' hi huse
    obtain ⟨entry, hi, huse, hroot⟩ := htables i entry' hi huse
    have hintact := h.intact hi huse
    rw [← hroot]
    refine hintact.congr fun p hp => ?_
    obtain ⟨b, hb, hnode⟩ := hintact.holds.isNode hp
    exact hnodes p b hb hnode
  · intro i j entry entry' hi huse hj huse' hne
    obtain ⟨e, hi, huse, -⟩ := htables i entry hi huse
    obtain ⟨e', hj, huse', -⟩ := htables j entry' hj huse'
    exact h.disjoint hi huse hj huse' hne

namespace Catalog

section

variable {base : Files} {cat cat' : Catalog} {body body' : CatalogBody} {trees trees' : Nat → AnyTree}
  {slot : Nat} {handle : TableHandle} {entry : CatalogTableEntry} {name : Bytes} {values : List Value}
  {key : Int64} {blob : Bytes} {schema : TableSchema} {bp : BufferPool} {op : CatalogOp}
  {res : Except Exn CatalogAnswer}

theorem Ready.planted (h : Ready base cat body) (hmirror : Mirrored cat body)
    (hf : Forest cat.bufferPool.view body.tables trees) : Planted cat.bufferPool.view body trees :=
  ⟨h.listed hmirror, hf⟩

/-- The log of the insertion into the table's tree. -/
theorem Stores.rootLog (h : Ready base cat body)
    (hst : Stores cat body name values slot handle entry key blob) :
    RootLog cat.bufferPool.view cat.bufferPool.next 0 (fun root => .catalog (body.setRoot slot root))
      entry.rootPageId (cat.insertRun slot entry.rootPageId key blob)
      (rootAfter entry.rootPageId (cat.insertRun slot entry.rootPageId key blob)) := by
  obtain ⟨d, hd⟩ := hst.root h
  exact insert_catalog h.sound hd h.pool_pos h.fresh h.page hst.entry_eq key blob

/-- A root leaf that no table has yet. -/
theorem Created.planted (h : Ready base cat body) (hf : Forest cat.bufferPool.view body.tables trees)
    (hmirror : Mirrored cat body) (hc : Created base cat body schema slot bp)
    (hname : NulFree schema.tableName) (hcols : ∀ col ∈ schema.columns, NulFree col.name) (m : Nat) :
    ∃ body₂ trees₂, Planted (replay cat.bufferPool.view
      ((OnStore.allocateTable slot schema body cat.bufferPool.next).writes.take m)) body₂ trees₂ := by
  have hfresh : cat.bufferPool.view cat.bufferPool.next = none := h.fresh _ le_rfl
  cases m with
  | zero => exact ⟨body, trees, h.planted hmirror hf⟩
  | succ m =>
    cases m with
    | zero =>
      have hleaf : Shadow cat.bufferPool.view (cat.bufferPool.next, .leaf none []) :=
        .newLeaf hfresh (show Linked cat.bufferPool.view none none [] from rfl) .nil
      have hne : cat.bufferPool.next ≠ 0 := (h.good.lt_next h.page).ne'
      have hother : ∀ p b, cat.bufferPool.view p = some b →
          write cat.bufferPool.view (cat.bufferPool.next, .leaf none []) p = cat.bufferPool.view p := by
        intro p b hb
        apply write_of_ne
        rintro rfl
        rw [hfresh] at hb
        cases hb
      refine ⟨body, trees, ⟨h.sound.shadow hleaf, (hother 0 _ h.page).trans h.page,
        hmirror.valid_of_ready h, cat, hmirror⟩, ?_⟩
      exact hf.congr (fun p b hb _ => hother p b hb) fun i e hi huse => ⟨e, hi, huse, rfl⟩
    | succ m =>
      have hall : (OnStore.allocateTable slot schema body cat.bufferPool.next).writes.take (m + 2)
          = (OnStore.allocateTable slot schema body cat.bufferPool.next).writes :=
        List.take_of_length_le (by show 2 ≤ m + 2; omega)
      have hplanted := (hc.ready h).planted (hmirror.created hc hname hcols) (hc.forest h hf)
      have hview : (cat.withTable slot schema bp).bufferPool.view
          = (OnStore.allocateTable slot schema body cat.bufferPool.next).store cat.bufferPool.view :=
        hc.settled.view_eq
      rw [hview] at hplanted
      rw [hall]
      exact ⟨_, _, hplanted⟩

/-- An insertion that allocates no page writes one page of its tree at most. -/
theorem Stores.writes_le (h : Ready base cat body) (hf : Forest cat.bufferPool.view body.tables trees)
    (hst : Stores cat body name values slot handle entry key blob)
    (hnext : (cat.insertRun slot entry.rootPageId key blob).next = cat.bufferPool.next) :
    (cat.insertRun slot entry.rootPageId key blob).writes.length ≤ 1 := by
  have hreg := hst.rootLog h
  have hintact := hf.intact hst.entry_eq hst.inUse
  rcases hintact.insert_registered (OnStore.writeRootPageId slot) 0 h.sound h.pool_pos h.fresh h.page id
    (fun root' τ n hτ => ⟨_, OnStore.updateEntry_eq (hτ.trans h.page) slot _ n⟩) key blob with
    ⟨e, hfail, -⟩ | ⟨h', t', hin⟩
  · have hnil : cat.insertRun slot entry.rootPageId key blob = .fail cat.bufferPool.next e := hfail
    rw [hnil]
    exact Nat.zero_le _
  · have hframe : ∀ w ∈ (cat.insertRun slot entry.rootPageId key blob).writes,
        w.1 ∈ (trees slot).2.pages ∨ cat.bufferPool.next ≤ w.1 ∨ w.1 = 0 := hin.frame
    rcases hreg.first with ⟨w, W, hwrites, hnone⟩ | hle
    · -- the first page written would be new, and past every page allocated
      exfalso
      rcases hframe w (hwrites ▸ List.mem_cons_self) with hpage | hge | hzero
      · obtain ⟨b, hb, -⟩ := hintact.holds.isNode hpage
        rw [hnone] at hb
        cases hb
      · have hsome := replay_isSome (σ := cat.bufferPool.view)
          (W := (cat.insertRun slot entry.rootPageId key blob).writes) (k := w.1)
          (.inr (by rw [hwrites]; exact List.mem_cons_self))
        have hfree := hreg.fresh w.1 (hnext ▸ hge)
        rw [Run.store] at hfree
        rw [hfree] at hsome
        cases hsome
      · rw [hzero, h.page] at hnone
        cases hnone
    · exact hle

/-- A row that is in, in a tree that did not grow, and not counted. -/
theorem Stores.planted (h : Ready base cat body) (hf : Forest cat.bufferPool.view body.tables trees)
    (hmirror : Mirrored cat body) (hst : Stores cat body name values slot handle entry key blob)
    {tree' : AnyTree} (hs : Settled base [] cat.bufferPool
      (cat.insertRowRun slot entry.rootPageId key blob) bp)
    (hf' : Forest ((cat.insertRowRun slot entry.rootPageId key blob).store cat.bufferPool.view)
      (bodyAfter body slot (cat.insertRun slot entry.rootPageId key blob)).tables
      (Function.update trees slot tree'))
    (hnext : bp.next = cat.bufferPool.next) (m : Nat) :
    ∃ body₂ trees₂, Planted (replay cat.bufferPool.view
      ((cat.insertRowRun slot entry.rootPageId key blob).writes.take m)) body₂ trees₂ := by
  have hreg := hst.rootLog h
  have heq := hst.insertRowRun_eq h
  obtain ⟨count, htables, -⟩ := bodyAfter_tables hst.entry_eq
    (cat.insertRun slot entry.rootPageId key blob)
  have hwhole : Planted ((cat.insertRowRun slot entry.rootPageId key blob).store cat.bufferPool.view)
      (bodyAfter body slot (cat.insertRun slot entry.rootPageId key blob))
      (Function.update trees slot tree') := by
    have hready := hst.ready h hs
    have hmirror' := hmirror.patched
      (hst.heads_eq (rootAfter entry.rootPageId (cat.insertRun slot entry.rootPageId key blob)) bp)
      hst.entry_eq htables (bodyAfter_numTables _ _ _)
    have hview : (cat.afterInsert slot handle
        (rootAfter entry.rootPageId (cat.insertRun slot entry.rootPageId key blob)) bp).bufferPool.view
        = (cat.insertRowRun slot entry.rootPageId key blob).store cat.bufferPool.view := hs.view_eq
    rw [← hview] at hf' ⊢
    exact hready.planted hmirror' hf'
  have hshort := hst.writes_le h hf (by rw [← hnext, hs.next_eq, heq]; split <;> rfl)
  set r := cat.insertRun slot entry.rootPageId key blob with hr
  set r' := cat.insertRowRun slot entry.rootPageId key blob with hr'
  rcases Nat.lt_or_ge m r'.writes.length with hm | hm
  · cases m with
    | zero =>
      rw [List.take_zero]
      exact ⟨body, trees, h.planted hmirror hf⟩
    | succ m =>
      -- all but the count is in
      cases hres : r.result with
      | error e =>
        rw [heq, hres] at hm
        exact absurd hm (by show ¬ m + 1 < r.writes.length; omega)
      | ok root =>
        have hwrites : r'.writes = r.writes ++ [(0, .catalog (bodyAfter body slot r))] := by
          rw [heq, hres]
        rw [hwrites, List.length_append, List.length_singleton] at hm
        have htake : r'.writes.take (m + 1) = r.writes := by
          rw [hwrites, List.take_append_of_le_length (by omega)]
          exact List.take_of_length_le (by omega)
        rw [htake]
        have hmirror₁ : Mirrored cat (body.setRoot slot (rootAfter entry.rootPageId r)) :=
          hmirror.patched rfl hst.entry_eq (CatalogBody.setRoot_tables hst.entry_eq _) rfl
        refine ⟨_, Function.update trees slot tree', ⟨hreg.oneCommit.sound h.sound, hreg.registered,
          hmirror₁.valid_of_ready h, cat, hmirror₁⟩, ?_⟩
        have hstore : r'.store cat.bufferPool.view = write (r.store cat.bufferPool.view)
            (0, .catalog (bodyAfter body slot r)) := by
          rw [Run.store, hwrites, replay_append]
          rfl
        refine hf'.congr (fun p b hb hnode => ?_) fun i e hi huse => ?_
        · rw [hstore] at hb ⊢
          have hne : p ≠ 0 := by
            rintro rfl
            rw [write_self (r.store cat.bufferPool.view) (0, .catalog (bodyAfter body slot r))] at hb
            obtain rfl := Option.some.inj hb
            exact hnode
          exact (write_of_ne _ _ hne).symm
        · rw [htables, List.getElem?_set]
          rcases CatalogBody.getElem?_setRoot hst.entry_eq hi with ⟨rfl, rfl⟩ | ⟨hne, hget⟩
          · rw [if_pos rfl, if_pos (List.getElem?_eq_some_iff.mp hst.entry_eq).1]
            exact ⟨_, rfl, huse, rfl⟩
          · rw [if_neg (Ne.symm hne)]
            exact ⟨e, hget, huse, rfl⟩
  · rw [List.take_of_length_le hm]
    exact ⟨_, _, hwhole⟩

/-- **Every prefix of the page writes of a call that splits no page** leaves whole trees. -/
theorem Writes.planted {W : List PageWrite} (h : Ready base cat body) (hmirror : Mirrored cat body)
    (hf : Forest cat.bufferPool.view body.tables trees) (hop : Named op)
    (hw : Writes base cat body op cat' body' W)
    (hnext : (∃ name values, op = .insertRow name values) →
      cat'.bufferPool.next = cat.bufferPool.next) (m : Nat) :
    ∃ body₂ trees₂, Planted (replay cat.bufferPool.view (W.take m)) body₂ trees₂ := by
  cases hw with
  | kept touched =>
    rw [List.take_nil]
    exact ⟨body, trees, h.planted hmirror hf⟩
  | created created => exact created.planted h hf hmirror hop.1 hop.2 m
  | @inserted name values slot handle entry key blob bp stores settled =>
    rcases stores.forest h hf with ⟨e, hfail, -⟩ | ⟨tree', -, hf'⟩
    · -- nothing was written
      have heq := stores.insertRowRun_eq h
      rw [hfail] at heq
      have hwrites : (cat.insertRowRun slot entry.rootPageId key blob).writes = [] := by rw [heq]; rfl
      rw [hwrites, List.take_nil]
      exact ⟨body, trees, h.planted hmirror hf⟩
    · exact stores.planted h hf hmirror settled hf' (hnext ⟨_, _, rfl⟩) m

/-- A call leaves whole trees. -/
theorem Writes.forest {W : List PageWrite} (h : Ready base cat body)
    (hf : Forest cat.bufferPool.view body.tables trees)
    (hw : Writes base cat body op cat' body' W) :
    ∃ trees', Forest cat'.bufferPool.view body'.tables trees' := by
  cases hw with
  | kept touched => exact ⟨trees, touched.quiet.view_eq ▸ hf⟩
  | created created => exact ⟨_, created.forest h hf⟩
  | @inserted name values slot handle entry key blob bp stores settled =>
    have hview : bp.view
        = (cat.insertRowRun slot entry.rootPageId key blob).store cat.bufferPool.view :=
      settled.view_eq
    rcases stores.forest h hf with ⟨e, hfail, -⟩ | ⟨tree', -, hf'⟩
    · have heq := stores.insertRowRun_eq h
      rw [hfail] at heq
      have hsame : bodyAfter body slot (cat.insertRun slot entry.rootPageId key blob) = body := by
        rw [hfail]; rfl
      refine ⟨trees, ?_⟩
      show Forest bp.view _ _
      rw [hsame, hview, heq]
      exact hf
    · exact ⟨_, hview ▸ hf'⟩

end

end Catalog

end Reldb
