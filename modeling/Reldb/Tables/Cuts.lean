import Reldb.Crash.Rounds
import Reldb.Tables.Mirror

/-!
# Reldb — a log cut inside a catalog's call

The pages a call logs are shadow writes around at most one commit, and the catalog page names the roots.
So what a log cut inside a call amounts to shows each table's rows as before the call or as after it. A
row's count is logged after the row, so the cut may lie between the two.

`Displays` says what a store shows, `Cut` what it shows of a call. None of it needs whole trees: a call on a
table that a crash has left with a page missing above its leaves is cut the same way.
-/

namespace Reldb

open WriteLog BufferPool

/-! ## One commit, seen by every scan -/

section

variable {σ : PageStore} {W : List PageWrite} {root : PageId} {ls : List Leaf} {d m : Nat}

/-- A scan after shadow writes, seen before them. -/
theorem Shadows.scans_before (h : Shadows σ W) (hs : Sound σ) (hroot : HasLevel σ d root)
    (hscan : Scans (replay σ W) root ls) : Scans σ root ls := by
  obtain ⟨ls', hls'⟩ := hs.exists_scan hroot
  have hsame : ls = ls' := hscan.unique (h.scans hls')
  rw [hsame]
  exact hls'

/-- A prefix of a log lies before its commit or after it, for all scans alike. -/
theorem OneCommit.sides (h : OneCommit σ W) (hs : Sound σ) (m : Nat) :
    (∀ q ls, Scans σ q ls → Scans (replay σ (W.take m)) q ls) ∨
      ∀ d q ls, HasLevel σ d q → Scans (replay σ W) q ls → Scans (replay σ (W.take m)) q ls := by
  induction h generalizing m with
  | shadows all => exact .inl fun q ls hls => (all.take m).scans hls
  | commit head tail =>
    cases m with
    | zero => exact .inl fun q ls hls => hls
    | succ m =>
      right
      intro d q ls hq hls
      -- what follows the commit changes no scan
      have hlevel := (Extends.of_commit head).hasLevel hq
      exact (tail.take m).scans (tail.scans_before (hs.commit head) hlevel hls)
  | cons head tail ih =>
    cases m with
    | zero => exact .inl fun q ls hls => hls
    | succ m =>
      rcases ih (hs.shadow head) m with hold | hnew
      · exact .inl fun q ls hls => hold q ls (hls.of_shadow head)
      · exact .inr fun d q ls hq hls => hnew d q ls ((Extends.of_shadow head).hasLevel hq) hls

end

/-! ## Stores between two page writes -/

section

variable {σ : PageStore} {w : PageWrite} {body body' : CatalogBody} {leaves leaves' : Nat → List Leaf}
  {cat cat' : Catalog} {slot : Nat} {entry : CatalogTableEntry} {root : PageId}

/-- The leaf chain of each table on the catalog page. -/
structure Displays (σ : PageStore) (body : CatalogBody) (leaves : Nat → List Leaf) : Prop where
  sound : Sound σ
  page : σ 0 = some (.catalog body)
  scans : ∀ {i : Nat} {entry : CatalogTableEntry}, body.tables[i]? = some entry → entry.inUse = true →
    Scans σ entry.rootPageId (leaves i)

/-- A sound store with a catalog page displays something. -/
theorem Sound.displays (hs : Sound σ) (hpage : σ 0 = some (.catalog body)) :
    ∃ leaves, Displays σ body leaves := by
  have htable : ∀ i : Nat, ∃ ls, ∀ entry : CatalogTableEntry, body.tables[i]? = some entry →
      entry.inUse = true → Scans σ entry.rootPageId ls := by
    intro i
    cases hi : body.tables[i]? with
    | none => exact ⟨[], nofun⟩
    | some entry =>
      cases huse : entry.inUse with
      | false =>
        refine ⟨[], fun entry' heq huse' => ?_⟩
        rw [← Option.some.inj heq, huse] at huse'
        cases huse'
      | true =>
        obtain ⟨d, hd⟩ := hs.roots hpage _ (CatalogBody.mem_roots.mpr ⟨i, entry, hi, huse, rfl⟩)
        obtain ⟨ls, hls⟩ := hs.exists_scan hd
        exact ⟨ls, fun entry' heq _ => Option.some.inj heq ▸ hls⟩
  choose leaves hleaves using htable
  exact ⟨leaves, hs, hpage, fun hi huse => hleaves _ _ hi huse⟩

theorem Displays.unique (h : Displays σ body leaves) (h' : Displays σ body leaves') {i : Nat}
    (hi : body.tables[i]? = some entry) (huse : entry.inUse = true) : leaves i = leaves' i :=
  (h.scans hi huse).unique (h'.scans hi huse)

/-- The handles the constructor makes of a catalog page. -/
def CatalogBody.heads (body : CatalogBody) : List TableHandle :=
  body.tables.map CatalogTableEntry.handle

def CatalogBody.counts (body : CatalogBody) : List Nat := body.tables.map (·.rowCount)

theorem CatalogBody.setRoot_tables (h : body.tables[slot]? = some entry) (root : PageId) :
    (body.setRoot slot root).tables = body.tables.set slot { entry with rootPageId := root } := by
  obtain ⟨hlt, hget⟩ := List.getElem?_eq_some_iff.mp h
  apply List.ext_getElem?
  intro i
  simp only [setRoot, List.getElem?_modify, List.getElem?_set]
  by_cases hi : slot = i
  · subst hi
    simp [hlt, hget]
  · simp [hi]

theorem CatalogBody.setRoot_counts (h : body.tables[slot]? = some entry) (root : PageId) :
    (body.setRoot slot root).counts = body.counts := by
  rw [counts, setRoot_tables h, List.map_set]
  exact Catalog.set_of_getElem? (by rw [List.getElem?_map, h]; rfl)

/-- A patched root, and every other table as it was. -/
theorem CatalogBody.getElem?_setRoot {i : Nat} {e : CatalogTableEntry}
    (hentry : body.tables[slot]? = some entry) (hi : (body.setRoot slot root).tables[i]? = some e) :
    (i = slot ∧ e = { entry with rootPageId := root }) ∨ (i ≠ slot ∧ body.tables[i]? = some e) := by
  rw [setRoot_tables hentry, List.getElem?_set] at hi
  by_cases hslot : slot = i
  · left
    rw [if_pos hslot, if_pos (List.getElem?_eq_some_iff.mp hentry).1] at hi
    exact ⟨hslot.symm, (Option.some.inj hi).symm⟩
  · right
    rw [if_neg hslot] at hi
    exact ⟨Ne.symm hslot, hi⟩

/-- A shadow write off the catalog page. -/
theorem Displays.shadow (h : Displays σ body leaves) (hw : Shadow σ w) (hpage : w.1 ≠ 0) :
    Displays (write σ w) body leaves where
  sound := h.sound.shadow hw
  page := (write_of_ne σ w hpage.symm).trans h.page
  scans hi huse := (h.scans hi huse).of_shadow hw

/-- What a store shows of a catalog: its tables, with these leaf chains and these counts. -/
def Shown (σ : PageStore) (cat : Catalog) (counts : List Nat) (leaves : Nat → List Leaf) : Prop :=
  ∃ body, Displays σ body leaves ∧ cat.Mirrored body ∧ body.counts = counts

/-- What a log cut inside a call shows. The call made `cat'`, `body'` and `leaves'` of `cat`, `body` and
`leaves`. -/
inductive Cut (σ : PageStore) (cat cat' : Catalog) (body body' : CatalogBody)
    (leaves leaves' : Nat → List Leaf) : Prop where
  | before (shown : Shown σ cat body.counts leaves)
  | after (shown : Shown σ cat' body'.counts leaves')
  | uncounted (shown : Shown σ cat' body.counts leaves') (heads_eq : cat'.heads = cat.heads)

end

namespace Catalog

section

variable {base : Files} {cat cat' : Catalog} {body body' : CatalogBody} {leaves leaves' : Nat → List Leaf}
  {slot : Nat} {handle : TableHandle} {entry : CatalogTableEntry} {name : Bytes} {values : List Value}
  {key : Int64} {blob : Bytes} {schema : TableSchema} {bp : BufferPool} {op : CatalogOp}

/-! ## Where the log of a call is cut -/

/-- **A log cut inside `CreateTable`**: the new root alone shows nothing. -/
theorem Created.cut (h : Ready base cat body) (hmirror : Mirrored cat body)
    (hd : Displays cat.bufferPool.view body leaves) (hc : Created base cat body schema slot bp)
    (hmirror' : Mirrored (cat.withTable slot schema bp)
      (body.addTable slot schema cat.bufferPool.next))
    (hd' : Displays bp.view (body.addTable slot schema cat.bufferPool.next) leaves') (m : Nat) :
    Cut (replay cat.bufferPool.view
        ((OnStore.allocateTable slot schema body cat.bufferPool.next).writes.take m))
      cat (cat.withTable slot schema bp) body (body.addTable slot schema cat.bufferPool.next)
      leaves leaves' := by
  cases m with
  | zero => exact .before ⟨body, hd, hmirror, rfl⟩
  | succ m =>
    cases m with
    | zero =>
      have hfresh : cat.bufferPool.view cat.bufferPool.next = none := h.fresh _ le_rfl
      have hleaf : Shadow cat.bufferPool.view (cat.bufferPool.next, .leaf none []) :=
        .newLeaf hfresh (show Linked cat.bufferPool.view none none [] from rfl) .nil
      have hne : cat.bufferPool.next ≠ 0 := (h.good.lt_next h.page).ne'
      exact .before ⟨body, hd.shadow hleaf hne, hmirror, rfl⟩
    | succ m =>
      -- both page writes are in
      have hall : (OnStore.allocateTable slot schema body cat.bufferPool.next).writes.take (m + 2)
          = (OnStore.allocateTable slot schema body cat.bufferPool.next).writes :=
        List.take_of_length_le (by show 2 ≤ m + 2; omega)
      have hview : bp.view
          = (OnStore.allocateTable slot schema body cat.bufferPool.next).store cat.bufferPool.view :=
        hc.settled.view_eq
      rw [hview] at hd'
      rw [hall]
      exact .after ⟨_, hd', hmirror', rfl⟩

/-- The run of the whole call: the insertion into the tree, and the count if that returned. -/
theorem Stores.insertRowRun_eq (h : Ready base cat body)
    (hst : Stores cat body name values slot handle entry key blob) :
    cat.insertRowRun slot entry.rootPageId key blob =
      match (cat.insertRun slot entry.rootPageId key blob).result with
      | .ok _ => ⟨.ok (), (cat.insertRun slot entry.rootPageId key blob).writes ++
          [(0, .catalog (bodyAfter body slot (cat.insertRun slot entry.rootPageId key blob)))],
          (cat.insertRun slot entry.rootPageId key blob).next⟩
      | .error e => ⟨.error e, (cat.insertRun slot entry.rootPageId key blob).writes,
          (cat.insertRun slot entry.rootPageId key blob).next⟩ := by
  obtain ⟨d, hd⟩ := hst.root h
  exact insertRow_eq h.sound hd h.pool_pos h.fresh h.page hst.entry_eq
    (show OnStore.insert _ _ _ _ _ key blob = cat.insertRun slot entry.rootPageId key blob from rfl)

/-- The page writes of an insertion: those of the table's tree, and last those of the catalog page, which
no scan can see. -/
structure Parts (cat : Catalog) (body : CatalogBody) (slot : Nat) (entry : CatalogTableEntry)
    (root : PageId) (W T : List PageWrite) : Prop where
  split : ∃ n, RootSplit cat.bufferPool.view cat.bufferPool.next entry.rootPageId root W n
  page : ∀ m, replay cat.bufferPool.view (W.take m) 0 = some (.catalog body)
  shadows : Shadows (replay cat.bufferPool.view W) T
  registered : ∀ j, 0 < j → j < T.length → T.take j = [(0, .catalog (body.setRoot slot root))]

theorem Stores.parts (h : Ready base cat body)
    (hst : Stores cat body name values slot handle entry key blob) :
    ∃ W T, (cat.insertRowRun slot entry.rootPageId key blob).writes = W ++ T ∧
      Parts cat body slot entry
        (rootAfter entry.rootPageId (cat.insertRun slot entry.rootPageId key blob)) W T := by
  obtain ⟨d, hd⟩ := hst.root h
  have heq := hst.insertRowRun_eq h
  have hreg := insert_catalog h.sound hd h.pool_pos h.fresh h.page hst.entry_eq key blob
  change RootLog cat.bufferPool.view cat.bufferPool.next 0 _ entry.rootPageId
    (cat.insertRun slot entry.rootPageId key blob)
    (rootAfter entry.rootPageId (cat.insertRun slot entry.rootPageId key blob)) at hreg
  have hlog := insert_log (OnStore.writeRootPageId slot) h.sound hd h.pool_pos h.fresh key blob
  change (RootSplit cat.bufferPool.view cat.bufferPool.next entry.rootPageId entry.rootPageId
        (cat.insertRun slot entry.rootPageId key blob).writes
        (cat.insertRun slot entry.rootPageId key blob).next ∧
      ∀ r, (cat.insertRun slot entry.rootPageId key blob).result = .ok r → r = entry.rootPageId) ∨
    (∃ root' W n, RootSplit cat.bufferPool.view cat.bufferPool.next entry.rootPageId root' W n ∧
      BeginsFresh cat.bufferPool.view W ∧ cat.insertRun slot entry.rootPageId key blob = _) at hlog
  set r := cat.insertRun slot entry.rootPageId key blob with hr
  -- the count, over any page that registers the root
  have hcount : ∀ {root body₁}, r.result = .ok root →
      r.store cat.bufferPool.view 0 = some (.catalog body₁) →
      Shadows (r.store cat.bufferPool.view) [(0, .catalog (bodyAfter body slot r))] := by
    intro root body₁ hres hpage
    refine .cons (catalog_shadow hpage fun q hq => ?_) (.nil _)
    rw [show bodyAfter body slot r = (body.setRoot slot root).bump slot by rw [bodyAfter, hres]] at hq
    have hroots := CatalogBody.mem_roots_bump hq
    rw [rootAfter_ok hres] at hreg
    exact (hreg.oneCommit.sound h.sound).roots hreg.registered q hroots
  rcases hlog with ⟨hsplit, hok⟩ | ⟨root', W, n, hsplit, hfirst, hrun⟩
  · -- the root stays
    have hafter : rootAfter entry.rootPageId r = entry.rootPageId := by
      unfold rootAfter
      cases hres : r.result with
      | ok root => exact hok root hres
      | error e => rfl
    have hpage : ∀ m, replay cat.bufferPool.view (r.writes.take m) 0 = some (.catalog body) := fun m =>
      (replay_of_notMem (take_notMem (hsplit.nodes_only h.page id) m)).trans h.page
    have hwhole : r.store cat.bufferPool.view 0 = some (.catalog body) :=
      (replay_of_notMem (hsplit.nodes_only h.page id)).trans h.page
    rw [hafter]
    cases hres : r.result with
    | error e =>
      refine ⟨r.writes, [], by rw [heq, hres, List.append_nil], ⟨_, hsplit⟩, hpage, .nil _,
        fun j _ hj => absurd hj (Nat.not_lt_zero j)⟩
    | ok root =>
      refine ⟨r.writes, _, by rw [heq, hres], ⟨_, hsplit⟩, hpage, hcount hres hwhole, fun j hpos hj => ?_⟩
      rw [List.length_singleton] at hj
      omega
  · -- a new root is registered
    have hpage : ∀ m, replay cat.bufferPool.view (W.take m) 0 = some (.catalog body) := fun m =>
      (replay_of_notMem (take_notMem (hsplit.nodes_only h.page id) m)).trans h.page
    have hwhole : replay cat.bufferPool.view W 0 = some (.catalog body) :=
      (replay_of_notMem (hsplit.nodes_only h.page id)).trans h.page
    rw [show OnStore.writeRootPageId slot root' (replay cat.bufferPool.view W) n
      = ⟨.ok (), [(0, .catalog (body.setRoot slot root'))], n⟩
      from OnStore.updateEntry_eq hwhole slot _ n] at hrun
    have hres : r.result = .ok root' := by rw [hrun]; rfl
    have hwrites : r.writes = W ++ [(0, .catalog (body.setRoot slot root'))] := by rw [hrun]
    have hafter : rootAfter entry.rootPageId r = root' := rootAfter_ok hres
    have hstore : r.store cat.bufferPool.view = replay (replay cat.bufferPool.view W)
        [(0, .catalog (body.setRoot slot root'))] := by
      rw [Run.store, hwrites, replay_append]
    have hregister : Shadow (replay cat.bufferPool.view W) (0, .catalog (body.setRoot slot root')) := by
      refine catalog_shadow hwhole fun q hq => ?_
      rcases CatalogBody.mem_roots_setRoot hq with rfl | hq
      · exact hsplit.level
      · obtain ⟨e, he⟩ := h.sound.roots h.page q hq
        exact ⟨e, hsplit.oneCommit.hasLevel he⟩
    rw [hafter] at hreg ⊢
    have hbump := hcount hres hreg.registered
    rw [hstore] at hbump
    refine ⟨W, [(0, .catalog (body.setRoot slot root')), (0, .catalog (bodyAfter body slot r))], ?_,
      ⟨n, hsplit⟩, hpage, .cons hregister hbump, fun j hpos hj => ?_⟩
    · rw [heq, hres]
      show r.writes ++ _ = _
      rw [hwrites, List.append_assoc]
      rfl
    · have hone : j = 1 := by
        have : j < 2 := hj
        omega
      rw [hone]
      rfl

theorem bodyAfter_numTables (body : CatalogBody) (slot : Nat) (r : Run PageId) :
    (bodyAfter body slot r).numTables = body.numTables := by
  unfold bodyAfter
  split <;> rfl

/-- **A log cut inside `InsertRow`**: up to the tree's last page the row is in or not, and not counted. -/
theorem Stores.cut (h : Ready base cat body) (hmirror : Mirrored cat body)
    (hd : Displays cat.bufferPool.view body leaves)
    (hst : Stores cat body name values slot handle entry key blob) (bp : BufferPool)
    (hd' : Displays ((cat.insertRowRun slot entry.rootPageId key blob).store cat.bufferPool.view)
      (bodyAfter body slot (cat.insertRun slot entry.rootPageId key blob)) leaves') (m : Nat) :
    Cut (replay cat.bufferPool.view
        ((cat.insertRowRun slot entry.rootPageId key blob).writes.take m))
      cat (cat.afterInsert slot handle
        (rootAfter entry.rootPageId (cat.insertRun slot entry.rootPageId key blob)) bp)
      body (bodyAfter body slot (cat.insertRun slot entry.rootPageId key blob)) leaves leaves' := by
  obtain ⟨W, T, hwrites, hparts⟩ := hst.parts h
  obtain ⟨n, hsplit⟩ := hparts.split
  obtain ⟨count, htables, -⟩ := bodyAfter_tables hst.entry_eq
    (cat.insertRun slot entry.rootPageId key blob)
  set root' := rootAfter entry.rootPageId (cat.insertRun slot entry.rootPageId key blob) with hroot'
  have hheads := hst.heads_eq root' bp
  have hmirror₁ : Mirrored (cat.afterInsert slot handle root' bp) body := hmirror.touched hheads
  have hsoundW : Sound (replay cat.bufferPool.view W) := hsplit.oneCommit.sound h.sound
  rw [Run.store, hwrites, replay_append] at hd'
  -- the scans of the whole call, seen before the catalog page is written
  have hafter : ∀ {i e}, (bodyAfter body slot (cat.insertRun slot entry.rootPageId key blob)).tables[i]?
      = some e → e.inUse = true → (∃ d, HasLevel (replay cat.bufferPool.view W) d e.rootPageId) →
      Scans (replay cat.bufferPool.view W) e.rootPageId (leaves' i) := by
    intro i e hi huse hlevel
    obtain ⟨d, hd⟩ := hlevel
    exact hparts.shadows.scans_before hsoundW hd (hd'.scans hi huse)
  have hself : Scans (replay cat.bufferPool.view W) root' (leaves' slot) := by
    have hget : (bodyAfter body slot (cat.insertRun slot entry.rootPageId key blob)).tables[slot]?
        = some { entry with rootPageId := root', rowCount := count } := by
      rw [htables]
      exact List.getElem?_set_self (List.getElem?_eq_some_iff.mp hst.entry_eq).1
    exact hafter hget hst.inUse hsplit.level
  have hother : ∀ {i e}, i ≠ slot → body.tables[i]? = some e → e.inUse = true →
      Scans (replay cat.bufferPool.view W) e.rootPageId (leaves' i) := by
    intro i e hne hi huse
    obtain ⟨d, hd⟩ := h.root hi huse
    refine hafter ?_ huse ⟨d, hsplit.oneCommit.hasLevel hd⟩
    rw [htables, List.getElem?_set_ne (Ne.symm hne), hi]
  rw [hwrites]
  rcases Nat.lt_or_ge W.length m with hm | hm
  · have htake : (W ++ T).take m = W ++ T.take (m - W.length) := by
      rw [List.take_append, List.take_of_length_le (Nat.le_of_lt hm)]
    rw [htake, replay_append]
    rcases Nat.lt_or_ge (m - W.length) T.length with hlast | hlast
    · -- all but the count is in
      rw [hparts.registered _ (by omega) hlast]
      have hshadow := hparts.shadows.take (m - W.length)
      rw [hparts.registered _ (by omega) hlast] at hshadow
      refine .uncounted ⟨body.setRoot slot root', ⟨hshadow.sound hsoundW, ?_, fun {i e} hi huse => ?_⟩,
        hmirror.patched hheads hst.entry_eq (CatalogBody.setRoot_tables hst.entry_eq _) rfl,
        CatalogBody.setRoot_counts hst.entry_eq _⟩ hheads
      · exact write_self (replay cat.bufferPool.view W) (0, .catalog (body.setRoot slot root'))
      · apply hshadow.scans
        rcases CatalogBody.getElem?_setRoot hst.entry_eq hi with ⟨rfl, rfl⟩ | ⟨hne, hget⟩
        · exact hself
        · exact hother hne hget huse
    · rw [List.take_of_length_le hlast]
      exact .after ⟨_, hd', hmirror.patched hheads hst.entry_eq htables (bodyAfter_numTables _ _ _), rfl⟩
  · -- the catalog page is as it was
    rw [List.take_append_of_le_length hm]
    have hsound := hsplit.oneCommit.sound_take h.sound m
    rcases hsplit.oneCommit.sides h.sound m with hold | hnew
    · exact .before ⟨body, ⟨hsound, hparts.page m, fun hi huse => hold _ _ (hd.scans hi huse)⟩,
        hmirror, rfl⟩
    · refine .uncounted ⟨body, ⟨hsound, hparts.page m, fun {i e} hi huse => ?_⟩, hmirror₁, rfl⟩ hheads
      obtain ⟨d, hd⟩ := h.root hi huse
      apply hnew d _ _ hd
      by_cases hslot : i = slot
      · -- the old root leads to what the new one does
        subst hslot
        obtain rfl := Option.some.inj (hi.symm.trans hst.entry_eq)
        exact (hsplit.scans _).mp hself
      · exact hother hslot hi huse

/-! ## Calls -/

/-- The page writes of a call, whatever the tables' trees are like: none, a new root leaf and the catalog
page, or those of an insertion. -/
inductive Writes (base : Files) (cat : Catalog) (body : CatalogBody) :
    CatalogOp → Catalog → CatalogBody → List PageWrite → Prop where
  | kept {op : CatalogOp} {cat' : Catalog} (touched : Touched base body cat cat') :
      Writes base cat body op cat' body []
  | created {name : Bytes} {cols : List ColumnDef} {slot : Nat} {bp : BufferPool}
      (created : Created base cat body ⟨name, cols⟩ slot bp) :
      Writes base cat body (.createTable name cols) (cat.withTable slot ⟨name, cols⟩ bp)
        (body.addTable slot ⟨name, cols⟩ cat.bufferPool.next)
        (OnStore.allocateTable slot ⟨name, cols⟩ body cat.bufferPool.next).writes
  | inserted {name : Bytes} {values : List Value} {slot : Nat} {handle : TableHandle}
      {entry : CatalogTableEntry} {key : Int64} {blob : Bytes} {bp : BufferPool}
      (stores : Stores cat body name values slot handle entry key blob)
      (settled : Settled base [] cat.bufferPool
        (cat.insertRowRun slot entry.rootPageId key blob) bp) :
      Writes base cat body (.insertRow name values)
        (cat.afterInsert slot handle
          (rootAfter entry.rootPageId (cat.insertRun slot entry.rootPageId key blob)) bp)
        (bodyAfter body slot (cat.insertRun slot entry.rootPageId key blob))
        (cat.insertRowRun slot entry.rootPageId key blob).writes

theorem Ready.displays (h : Ready base cat body) :
    ∃ leaves, Displays cat.bufferPool.view body leaves := h.sound.displays h.page

/-- A scan only touches the catalog. -/
theorem Ready.scanTable_touched (h : Ready base cat body) (name : Bytes) :
    Touched base body cat (CatalogOp.after cat (.scanTable name)) := by
  rw [CatalogOp.after, CatalogOp.call, outcomeOf_map]
  rcases cat.handleOf_cases (text "Catalog::ScanTable") name with
    ⟨-, what, herr⟩ | ⟨slot, handle, hfind, -⟩
  · have hget : (MonadState.get : Prog Catalog Catalog) cat = .ok cat cat := rfl
    unfold Catalog.scanTable
    rw [Prog.bind_ok hget]
    simp only [herr]
    exact .refl h
  · obtain ⟨entry, hentry, hm⟩ := h.exists_entry hfind.get
    obtain ⟨leaves, hd⟩ := h.displays
    obtain ⟨cat', hrun, htouched⟩ :=
      h.scanTable hfind hentry (hd.scans hentry (hm.inUse_eq ▸ hfind.inUse))
    rw [hrun]
    exact htouched

theorem Ready.estimatedRowCount_touched (h : Ready base cat body) (name : Bytes) :
    Touched base body cat (CatalogOp.after cat (.estimatedRowCount name)) := by
  have hmoved := @Ready.estimatedRowCount_moved base cat body (fun _ => ⟨0, .leaf ⟨0, []⟩⟩) h name
  cases hmoved with
  | kept touched => exact touched

/-- **What a call can write.** -/
theorem Ready.writes (h : Ready base cat body) (op : CatalogOp) :
    ∃ body' W, Writes base cat body op (op.after cat) body' W := by
  cases op with
  | createTable name cols =>
    rw [CatalogOp.after, CatalogOp.call, outcomeOf_map]
    rcases h.createTable name cols with ⟨what, hrun⟩ | ⟨slot, bp, hrun, hc⟩
    · rw [hrun]
      exact ⟨body, [], .kept (.refl h)⟩
    · rw [hrun]
      exact ⟨_, _, .created hc⟩
  | insertRow name values =>
    rw [CatalogOp.after, CatalogOp.call, outcomeOf_map]
    rcases h.insertRow name values with ⟨e, hrun, -⟩ | ⟨slot, handle, entry, key, blob, hst⟩
    · rw [hrun]
      exact ⟨body, [], .kept (.refl h)⟩
    · obtain ⟨bp, hrun, hs⟩ := hst.insertRow h
      have hafter : (outcomeOf (Catalog.insertRow name values cat)).2 = cat.afterInsert slot handle
          (rootAfter entry.rootPageId (cat.insertRun slot entry.rootPageId key blob)) bp := by
        rw [hrun, Run.outcome]
        split <;> rfl
      rw [hafter]
      exact ⟨_, _, .inserted hst hs⟩
  | scanTable name => exact ⟨body, [], .kept (h.scanTable_touched name)⟩
  | estimatedRowCount name => exact ⟨body, [], .kept (h.estimatedRowCount_touched name)⟩

/-- What a call that made `cat'` of `cat` left, and what it logged: cut anywhere, that shows one of the
two. -/
structure Logs (base : Files) (cat : Catalog) (body : CatalogBody) (leaves : Nat → List Leaf)
    (cat' : Catalog) (body' : CatalogBody) (leaves' : Nat → List Leaf) (W : List PageWrite) : Prop where
  ready : Ready base cat' body'
  mirrored : Mirrored cat' body'
  displays : Displays cat'.bufferPool.view body' leaves'
  effect : Effect cat.bufferPool cat'.bufferPool W
  cut : ∀ m, Cut (replay cat.bufferPool.view (W.take m)) cat cat' body body' leaves leaves'

/-- **Step.** -/
theorem Writes.logs {W : List PageWrite} (h : Ready base cat body) (hmirror : Mirrored cat body)
    (hd : Displays cat.bufferPool.view body leaves) (hop : Named op)
    (hw : Writes base cat body op cat' body' W) :
    ∃ leaves', Logs base cat body leaves cat' body' leaves' W := by
  cases hw with
  | kept touched =>
    refine ⟨leaves, touched.ready, hmirror.touched touched.heads_eq, touched.quiet.view_eq ▸ hd,
      touched.quiet.toEffect, fun m => ?_⟩
    rw [List.take_nil]
    exact .before ⟨body, hd, hmirror, rfl⟩
  | created created =>
    have hready := created.ready h
    have hmirror' := hmirror.created created hop.1 hop.2
    obtain ⟨leaves', hd'⟩ := hready.displays
    exact ⟨leaves', hready, hmirror', hd', created.settled.effect,
      created.cut h hmirror hd hmirror' hd'⟩
  | @inserted name values slot handle entry key blob bp stores settled =>
    have hready := stores.ready h settled
    obtain ⟨count, htables, -⟩ := bodyAfter_tables stores.entry_eq
      (cat.insertRun slot entry.rootPageId key blob)
    have hmirror' := hmirror.patched
      (stores.heads_eq (rootAfter entry.rootPageId (cat.insertRun slot entry.rootPageId key blob)) bp)
      stores.entry_eq htables (bodyAfter_numTables _ _ _)
    obtain ⟨leaves', hd'⟩ := hready.displays
    have hview : bp.view
        = (cat.insertRowRun slot entry.rootPageId key blob).store cat.bufferPool.view :=
      settled.view_eq
    exact ⟨leaves', hready, hmirror', hd', settled.effect,
      stores.cut h hmirror hd bp (hview ▸ hd')⟩

end

end Catalog

/-! ## The files a crash leaves -/

/-- **A crash inside a call** leaves files that can be recovered. Their log amounts to the pages before
the call and some first page writes of it. -/
theorem BufferPool.Good.crashed {base : Files} {bp bp' : BufferPool} {W : List PageWrite}
    (h : Good base bp [] []) (h' : Good base bp' [] []) (hwal : bp.wal.isSome) (he : Effect bp bp' W)
    {n : Nat} {data : TornFile} (hdata : TornAt base bp'.io (bp.io.length + n) data) (torn : Nat) :
    Recoverable data (base.afterCrash bp'.io (bp.io.length + n) torn).wal ∧ ∃ m,
      logged (base.afterCrash bp'.io (bp.io.length + n) torn).wal.records
        = replay bp.view (W.take m) := by
  obtain ⟨hrecoverable, hlater⟩ := h'.torn (he.wal_isSome.trans hwal) hdata torn
  obtain ⟨R', hR'⟩ := h.before_crash hwal he.io_prefix (Nat.le_add_right _ n) torn
  obtain ⟨R, hR, hstut⟩ := he.records
  rw [← hR', hR] at hlater
  have htake : R.take R'.length = R' :=
    (List.prefix_iff_eq_take.mp ((List.prefix_append_right_inj _).mp hlater)).symm
  obtain ⟨m, hm⟩ := (hstut hwal).take R'.length
  refine ⟨hrecoverable, m, ?_⟩
  rw [← hR', logged_append, h.view_eq_logged hwal, ← hm.replay_eq, writesOf, writesOf, ← List.map_take,
    htake]

namespace Catalog

/-- Two catalogs have the same tables, with the same rows. -/
structure SameTables (cat cat' : Catalog) : Prop where
  tableNames_eq : cat'.tableNames = cat.tableNames
  getSchema_eq : ∀ name, cat'.getSchema name = cat.getSchema name
  scanTable_eq : ∀ name, CatalogOp.result cat' (.scanTable name) = CatalogOp.result cat (.scanTable name)

/-- Two catalogs estimate the same row counts. -/
def SameCounts (cat cat' : Catalog) : Prop :=
  ∀ name, CatalogOp.result cat' (.estimatedRowCount name)
    = CatalogOp.result cat (.estimatedRowCount name)

/-- What a catalog opened after a crash inside a call is, by the catalogs before and after the call. -/
inductive Survives (cat cat' cat₂ : Catalog) : Prop where
  | before (agree : Agree cat cat₂)
  | after (agree : Agree cat' cat₂)
  | uncounted (tables : SameTables cat' cat₂) (counts : SameCounts cat cat₂)

section

variable {base base' : Files} {cat cat' : Catalog} {body body' : CatalogBody}
  {leaves leaves' : Nat → List Leaf}

/-- What `ScanTable` answers, by the leaf chains. -/
theorem Ready.scan_displays (h : Ready base cat body) (hd : Displays cat.bufferPool.view body leaves)
    (name : Bytes) :
    (cat.findTableIndex name = none ∧ CatalogOp.result cat (.scanTable name) = .error (.catalogError
        (text "Catalog::ScanTable" ++ text ": no such table '" ++ name ++ text "'"))) ∨
      ∃ slot handle, cat.Finds name slot handle ∧ CatalogOp.result cat (.scanTable name)
        = (decodeRows handle.schema ((cellsOf (leaves slot)).map LeafCell.pair)).map .rows := by
  rw [CatalogOp.result, CatalogOp.call, outcomeOf_map]
  rcases cat.handleOf_cases (text "Catalog::ScanTable") name with
    ⟨hnone, -⟩ | ⟨slot, handle, hfind, -⟩
  · have hget : (MonadState.get : Prog Catalog Catalog) cat = .ok cat cat := rfl
    refine .inl ⟨hnone, ?_⟩
    unfold Catalog.scanTable
    rw [Prog.bind_ok hget]
    simp only [handleOf, hnone]
    rfl
  · obtain ⟨entry, hentry, hm⟩ := h.exists_entry hfind.get
    obtain ⟨cat₁, hrun, -⟩ :=
      h.scanTable hfind hentry (hd.scans hentry (hm.inUse_eq ▸ hfind.inUse))
    rw [hrun]
    exact .inr ⟨slot, handle, hfind, rfl⟩

/-- The same handles over the same leaf chains. -/
theorem Ready.sameTables (h : Ready base cat body) (hd : Displays cat.bufferPool.view body leaves)
    (h' : Ready base' cat' body') (hd' : Displays cat'.bufferPool.view body' leaves)
    (hheads : cat'.heads = cat.heads) : SameTables cat cat' := by
  refine ⟨by rw [tableNames_heads, tableNames_heads, hheads], fun name => ?_, fun name => ?_⟩
  · rcases handleOf_heads hheads (text "Catalog") name with
      ⟨e, herr, herr'⟩ | ⟨slot, handle, handle', -, -, hschema, hok, hok'⟩
    · rw [getSchema, getSchema, herr, herr']
    · rw [getSchema, getSchema, hok, hok']
      exact congrArg Except.ok hschema.symm
  · rcases h.scan_displays hd name with ⟨hnone, hres⟩ | ⟨slot, handle, hfind, hres⟩ <;>
      rcases h'.scan_displays hd' name with ⟨hnone', hres'⟩ | ⟨slot', handle', hfind', hres'⟩
    · rw [hres, hres']
    · rw [← findTableIndex_congr hheads, hfind'.index] at hnone
      cases hnone
    · rw [findTableIndex_congr hheads, hfind.index] at hnone'
      cases hnone'
    · obtain ⟨handle₀, hfind₀, hschema⟩ := hfind'.of_heads hheads
      obtain ⟨rfl, rfl⟩ := hfind.unique hfind₀
      rw [hres, hres', hschema]

/-- The same handles and the same counts on the page. -/
theorem Ready.sameCounts (h : Ready base cat body) (h' : Ready base' cat' body')
    (hheads : cat'.heads = cat.heads) (hcounts : body'.counts = body.counts) : SameCounts cat cat' := by
  intro name
  rcases h.estimate_result name with ⟨hnone, hres⟩ | ⟨slot, handle, entry, hfind, hentry, -, hres⟩ <;>
    rcases h'.estimate_result name with
      ⟨hnone', hres'⟩ | ⟨slot', handle', entry', hfind', hentry', -, hres'⟩
  · rw [hres, hres']
  · rw [← findTableIndex_congr hheads, hfind'.index] at hnone
    cases hnone
  · rw [findTableIndex_congr hheads, hfind.index] at hnone'
    cases hnone'
  · obtain ⟨handle₀, hfind₀, -⟩ := hfind'.of_heads hheads
    obtain ⟨rfl, rfl⟩ := hfind.unique hfind₀
    have hcount : body'.counts[slot]? = body.counts[slot]? := by rw [hcounts]
    simp only [CatalogBody.counts, List.getElem?_map, hentry, hentry', Option.map_some,
      Option.some.injEq] at hcount
    rw [hres, hres', hcount]

theorem SameTables.agree (h : SameTables cat cat') (hcounts : SameCounts cat cat') : Agree cat cat' :=
  ⟨h.tableNames_eq, h.getSchema_eq, h.scanTable_eq, hcounts⟩

/-- Which schemas the entries have does not depend on the page they were read from. -/
theorem Mirrored.valid_of_ready (hmirror : Mirrored cat body') (h : Ready base cat body) :
    ∀ entry ∈ body'.tables, entry.inUse = true → entry.schema.Valid := by
  intro entry hmem huse
  have hhead : entry.handle ∈ cat.heads := hmirror.decoded ▸ List.mem_map_of_mem hmem
  obtain ⟨handle, hhandle, heq⟩ := List.mem_map.mp hhead
  rw [CatalogTableEntry.handle, if_pos huse, TableHandle.mk.injEq] at heq
  obtain ⟨slot, hget⟩ := List.mem_iff_getElem?.mp hhandle
  obtain ⟨entry', -, hm⟩ := h.exists_entry hget
  exact heq.2.1 ▸ hm.valid heq.1

theorem heads_opened (bp : BufferPool) (body : CatalogBody) :
    heads ⟨bp, 0, body.tables.map CatalogTableEntry.handle⟩ = body.heads := by
  rw [heads, CatalogBody.heads, List.map_map]
  apply List.map_congr_left
  intro entry _
  show { entry.handle with tree := none } = entry.handle
  unfold CatalogTableEntry.handle
  split <;> rfl

/-- A page that some catalog mirrors, and that a catalog can be constructed on. -/
structure Listed (σ : PageStore) (body : CatalogBody) : Prop where
  sound : Sound σ
  page : σ 0 = some (.catalog body)
  valid : ∀ entry ∈ body.tables, entry.inUse = true → entry.schema.Valid
  mirrored : ∃ cat, Mirrored cat body

theorem Ready.listed (h : Ready base cat body) (hmirror : Mirrored cat body) :
    Listed cat.bufferPool.view body :=
  ⟨h.sound, h.page, hmirror.valid_of_ready h, cat, hmirror⟩

theorem Ready.listed_of_shown {σ : PageStore} {counts : List Nat} (h : Ready base cat body)
    (hshown : Shown σ cat counts leaves) : ∃ body₂, Listed σ body₂ := by
  obtain ⟨body₂, hd, hmirror, -⟩ := hshown
  exact ⟨body₂, hd.sound, hd.page, hmirror.valid_of_ready h, cat, hmirror⟩

/-- **Wherever the log of a call is cut**, a catalog can be constructed on it. -/
theorem Logs.listed {W : List PageWrite} (h : Ready base cat body)
    (hlogs : Logs base cat body leaves cat' body' leaves' W) (m : Nat) :
    ∃ body₂, Listed (replay cat.bufferPool.view (W.take m)) body₂ := by
  cases hlogs.cut m with
  | before shown => exact h.listed_of_shown shown
  | after shown => exact hlogs.ready.listed_of_shown shown
  | uncounted shown => exact hlogs.ready.listed_of_shown shown

/-- **A catalog constructed on the files of a log** has the tables of the log's catalog page. -/
theorem Listed.constructs {wal : WalFile} (h : Listed (logged wal.records) body)
    (hf : (⟨DataFile.empty, wal⟩ : Files).Restorable) {q : Nat} (hq : 0 < q) :
    ∃ bp, Catalog.new (openPool q ⟨DataFile.empty, wal⟩)
        = .ok ⟨bp, 0, body.tables.map CatalogTableEntry.handle⟩ bp ∧
      Quiet (openPool q ⟨DataFile.empty, wal⟩) bp ∧
      Ready (openPool q ⟨DataFile.empty, wal⟩).files
        ⟨bp, 0, body.tables.map CatalogTableEntry.handle⟩ body ∧
      Mirrored ⟨bp, 0, body.tables.map CatalogTableEntry.handle⟩ body := by
  have hopen := openPool_opened hf q
  have hview := hopen.view_eq
  obtain ⟨bp, hnew, hquiet, hready⟩ := @new_existing _ _ body
    ⟨hopen.good, hq, hview.symm ▸ h.sound⟩ (hview.symm ▸ h.page) h.valid
  obtain ⟨ghost, hmirror⟩ := h.mirrored
  exact ⟨bp, hnew, hquiet, hready,
    hmirror.touched ((heads_opened bp body).trans hmirror.decoded)⟩

/-- **A crash inside a call**: the catalog opened on the files shows the call or nothing of it. -/
theorem Logs.survives {W : List PageWrite} (h : Ready base cat body)
    (hd : Displays cat.bufferPool.view body leaves) (hwal : cat.bufferPool.wal.isSome)
    (hlogs : Logs base cat body leaves cat' body' leaves' W)
    {n torn q : Nat} {data : TornFile} {order : List RecoveredPage}
    (hdata : TornAt base cat'.bufferPool.io (cat.bufferPool.io.length + n) data)
    (horder : RecoveryOrder
      (base.afterCrash cat'.bufferPool.io (cat.bufferPool.io.length + n) torn).wal order)
    (hq : 0 < q) : ∃ cat₂ bp₂,
      Catalog.new (openTorn q data
          (base.afterCrash cat'.bufferPool.io (cat.bufferPool.io.length + n) torn).wal order)
        = .ok cat₂ bp₂ ∧ Survives cat cat' cat₂ := by
  have h' := hlogs.ready
  have hd' := hlogs.displays
  obtain ⟨hrec, m, hlog⟩ := h.good.crashed h'.good hwal hlogs.effect hdata torn
  have hcut := hlogs.cut m
  rw [hrec.openTorn horder]
  rw [← hlog] at hcut
  -- what is opened on a page of the log shows what the log shows
  have hopens : ∀ {c : Catalog} {b : CatalogBody} {counts : List Nat} {ls : Nat → List Leaf},
      Ready base c b → Displays c.bufferPool.view b ls →
      Shown (logged (base.afterCrash cat'.bufferPool.io (cat.bufferPool.io.length + n)
        torn).wal.records) c counts ls →
      ∃ cat₂ bp₂ body₂ base₂, Catalog.new (openPool q ⟨DataFile.empty,
          (base.afterCrash cat'.bufferPool.io (cat.bufferPool.io.length + n) torn).wal⟩)
          = .ok cat₂ bp₂ ∧ Ready base₂ cat₂ body₂ ∧ cat₂.heads = c.heads ∧ body₂.counts = counts ∧
        SameTables c cat₂ := by
    intro c b counts ls hready hshows hshown
    obtain ⟨body₂, hd₂, hmirror₂, hcounts⟩ := hshown
    have hlisted : Listed _ body₂ :=
      ⟨hd₂.sound, hd₂.page, hmirror₂.valid_of_ready hready, c, hmirror₂⟩
    obtain ⟨bp₂, hnew, hquiet, hready₂, -⟩ := hlisted.constructs hrec.restorable hq
    have hheads := (heads_opened bp₂ body₂).trans hmirror₂.decoded
    have hview := hquiet.view_eq.trans (openPool_opened hrec.restorable q).view_eq
    exact ⟨_, bp₂, body₂, _, hnew, hready₂, hheads, hcounts,
      hready.sameTables hshows hready₂ (hview.symm ▸ hd₂) hheads⟩
  cases hcut with
  | before shown =>
    obtain ⟨cat₂, bp₂, body₂, base₂, hnew, h₂, hheads, hcounts, hsame⟩ := hopens h hd shown
    exact ⟨cat₂, bp₂, hnew, .before (hsame.agree (h.sameCounts h₂ hheads hcounts))⟩
  | after shown =>
    obtain ⟨cat₂, bp₂, body₂, base₂, hnew, h₂, hheads, hcounts, hsame⟩ := hopens h' hd' shown
    exact ⟨cat₂, bp₂, hnew, .after (hsame.agree (h'.sameCounts h₂ hheads hcounts))⟩
  | uncounted shown heads_eq =>
    obtain ⟨cat₂, bp₂, body₂, base₂, hnew, h₂, hheads, hcounts, hsame⟩ := hopens h' hd' shown
    exact ⟨cat₂, bp₂, hnew, .uncounted hsame (h.sameCounts h₂ (hheads.trans heads_eq) hcounts)⟩

end

end Catalog

end Reldb
