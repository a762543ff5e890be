import Reldb.Tables.Map

/-!
# Reldb — row counts

`BumpRowCount` adds one after every insertion that returned. The count is the number of rows as long as
every insertion that returned added a row and every one that threw added none: an insertion under a key
that is there already replaces a row, and one that finds no frame for a split throws with its row in the
leaf.
-/

namespace Reldb

open WriteLog BufferPool

namespace Catalog

/-- Every table's count is the number of cells in its tree. -/
def Counted (tables : List CatalogTableEntry) (trees : Nat → AnyTree) : Prop :=
  ∀ i entry, tables[i]? = some entry → entry.inUse = true →
    entry.rowCount = (trees i).2.cells.length

/-- The leaves from `root` on hold no cell under the key. -/
def Lacks (cat : Catalog) (root : PageId) (key : Int64) : Prop :=
  ∀ ls, Scans cat.bufferPool.view root ls → ∀ c ∈ cellsOf ls, c.key ≠ key

/-- The way down to the key's leaf takes every frame of the pool, and the leaf is full. -/
def Starves (cat : Catalog) (root : PageId) (key : Int64) : Prop :=
  ∃ d, HasLevel cat.bufferPool.view d root ∧ cat.bufferPool.poolSize = d + 1 ∧
    FullLeaf cat.bufferPool.view (d + 1) root key

end Catalog

/-- An `InsertRow` that passes its checks is under a key the table does not have, and its split, if it
needs one, finds a frame. -/
def CatalogOp.Counts (cat : Catalog) : CatalogOp → Prop
  | .insertRow name values => ∀ body slot handle entry key blob,
      cat.bufferPool.view 0 = some (.catalog body) →
      Catalog.Stores cat body name values slot handle entry key blob →
      cat.Lacks entry.rootPageId key ∧ ¬ cat.Starves entry.rootPageId key
  | _ => True

/-- An `InsertRow` that passes its checks finds a frame for its split, if it needs one. -/
def CatalogOp.Finishes (cat : Catalog) : CatalogOp → Prop
  | .insertRow name values => ∀ body slot handle entry key blob,
      cat.bufferPool.view 0 = some (.catalog body) →
      Catalog.Stores cat body name values slot handle entry key blob →
      ¬ cat.Starves entry.rootPageId key
  | _ => True

/-- Every call of the run does. -/
def Catalog.Finishing : Catalog → List CatalogOp → Prop
  | _, [] => True
  | cat, op :: ops => op.Finishes cat ∧ (op.after cat).Finishing ops

/-- Every call of the run does. -/
def Catalog.Counting : Catalog → List CatalogOp → Prop
  | _, [] => True
  | cat, op :: ops => op.Counts cat ∧ (op.after cat).Counting ops

namespace Catalog

section

variable {base : Files} {cat cat' : Catalog} {body body' : CatalogBody} {trees trees' : Nat → AnyTree}
  {m : TableMap} {op : CatalogOp} {res : Except Exn CatalogAnswer} {tables : List CatalogTableEntry}
  {slot : Nat} {entry : CatalogTableEntry} {name : Bytes}

theorem Counted.set (h : Counted tables trees) {entry' : CatalogTableEntry} {tree : AnyTree}
    (htree : entry'.rowCount = tree.2.cells.length) :
    Counted (tables.set slot entry') (Function.update trees slot tree) := by
  intro i entry hi huse
  by_cases hne : slot = i
  · subst hne
    rw [Function.update_self]
    obtain ⟨hlt, -⟩ := List.getElem?_eq_some_iff.mp hi
    rw [List.getElem?_set_self (by rwa [List.length_set] at hlt)] at hi
    exact Option.some.inj hi ▸ htree
  · rw [List.getElem?_set_ne hne] at hi
    rw [Function.update_of_ne (Ne.symm hne)]
    exact h i entry hi huse

/-- No table has more cells than its count says, and no count is above `n`. -/
def Covered (n : Nat) (tables : List CatalogTableEntry) (trees : Nat → AnyTree) : Prop :=
  ∀ i entry, tables[i]? = some entry → entry.inUse = true →
    (trees i).2.cells.length ≤ entry.rowCount ∧ entry.rowCount ≤ n

theorem Covered.set {n n' : Nat} (h : Covered n tables trees) (hn : n ≤ n')
    {entry' : CatalogTableEntry} {tree : AnyTree} (htree : tree.2.cells.length ≤ entry'.rowCount)
    (hcount : entry'.rowCount ≤ n') :
    Covered n' (tables.set slot entry') (Function.update trees slot tree) := by
  intro i entry hi huse
  by_cases hne : slot = i
  · subst hne
    rw [Function.update_self]
    obtain ⟨hlt, -⟩ := List.getElem?_eq_some_iff.mp hi
    rw [List.getElem?_set_self (by rwa [List.length_set] at hlt)] at hi
    obtain rfl := Option.some.inj hi
    exact ⟨htree, hcount⟩
  · rw [List.getElem?_set_ne hne] at hi
    rw [Function.update_of_ne (Ne.symm hne)]
    obtain ⟨hcells, hle⟩ := h i entry hi huse
    exact ⟨hcells, hle.trans hn⟩

theorem nodup_of_sorted {cells : List LeafCell} (h : SortedCells cells) : cells.Nodup :=
  h.imp fun hlt heq => absurd (heq ▸ hlt) (lt_irrefl _)

/-- A cell under any key is at most one more cell. -/
theorem length_upsert_le {cells cells' : List LeafCell} {key : Int64} {value : Bytes}
    (hsorted' : SortedCells cells')
    (hmem : ∀ c, c ∈ cells' ↔ c = ⟨key, value⟩ ∨ (c ∈ cells ∧ c.key ≠ key)) :
    cells'.length ≤ cells.length + 1 := by
  have hsub : cells' ⊆ ⟨key, value⟩ :: cells := by
    intro c hc
    rcases (hmem c).mp hc with rfl | ⟨hc, -⟩
    · exact List.mem_cons_self
    · exact List.mem_cons_of_mem _ hc
  exact ((nodup_of_sorted hsorted').subperm hsub).length_le

/-- **Step.** -/
theorem Covered.moved {n : Nat} (hcover : Covered n body.tables trees) (h : Ready base cat body)
    (hf : Forest cat.bufferPool.view body.tables trees)
    (hm : Moved base cat body trees op res cat' body' trees') (hop : op.Finishes cat) :
    Covered (n + 1) body'.tables trees' := by
  have hforest := hm.forest h hf
  have hstep : Covered (n + 1) body.tables trees := fun i entry hi huse =>
    (hcover i entry hi huse).imp_right fun hle => hle.trans (Nat.le_succ n)
  cases hm with
  | kept touched result => exact hstep
  | created created => exact hcover.set (Nat.le_succ n) (le_refl 0) (Nat.zero_le _)
  | @inserted name values slot handle entry key blob tree' bp stores grew settled forest =>
    have hstarves := hop body slot handle entry key blob h.page stores
    have hintact := hf.intact stores.entry_eq stores.inUse
    obtain ⟨root, hok⟩ : ∃ root, (cat.insertRun slot entry.rootPageId key blob).result = .ok root := by
      rcases grew.result with hok | ⟨-, hpool, hfull⟩
      · exact hok
      · exact absurd ⟨_, hintact.hasLevel, hpool, hfull⟩ hstarves
    obtain ⟨count, htables, hbump⟩ := bodyAfter_tables stores.entry_eq
      (cat.insertRun slot entry.rootPageId key blob)
    rw [htables] at hforest ⊢
    rw [hok] at hbump
    have hlt := (List.getElem?_eq_some_iff.mp stores.entry_eq).1
    have hintact' := hforest.intact (List.getElem?_set_self hlt) stores.inUse
    rw [Function.update_self] at hintact'
    have hcells := length_upsert_le hintact'.holds.sorted grew.mem
    obtain ⟨hle, hn⟩ := hcover slot entry stores.entry_eq stores.inUse
    have hcount : count = entry.rowCount + 1 := hbump
    refine hcover.set (Nat.le_succ n) ?_ ?_
    · show tree'.2.cells.length ≤ count
      omega
    · show count ≤ n + 1
      omega

/-- A cell under a new key is one more cell. -/
theorem length_upsert {cells cells' : List LeafCell} {key : Int64} {value : Bytes}
    (hsorted : SortedCells cells) (hsorted' : SortedCells cells')
    (hmem : ∀ c, c ∈ cells' ↔ c = ⟨key, value⟩ ∨ (c ∈ cells ∧ c.key ≠ key))
    (hlacks : ∀ c ∈ cells, c.key ≠ key) : cells'.length = cells.length + 1 := by
  have hnew : (⟨key, value⟩ :: cells : List LeafCell).Nodup :=
    List.nodup_cons.mpr ⟨fun hc => hlacks _ hc rfl, nodup_of_sorted hsorted⟩
  have hperm : cells'.Perm (⟨key, value⟩ :: cells) := by
    refine (List.perm_ext_iff_of_nodup (nodup_of_sorted hsorted') hnew).mpr fun c => ?_
    rw [hmem, List.mem_cons]
    exact or_congr_right ⟨And.left, fun hc => ⟨hc, hlacks c hc⟩⟩
  exact hperm.length_eq

/-- A call that changed no table did not run out of frames in a split. -/
theorem Holds.kept_ne (h : Holds base cat body trees m) (hres : KeptResult cat body trees op res) :
    res ≠ .error .exhaustedSplit := by
  rintro rfl
  cases op with
  | createTable name columns =>
    obtain ⟨what, hres⟩ := hres
    cases hres
  | insertRow name values =>
    obtain ⟨e, hres, he⟩ := hres
    obtain rfl := Except.error.inj hres
    rcases he with (⟨what, he⟩ | ⟨what, he⟩) | ⟨_, _, _, _, _, -, ⟨he, -⟩ | ⟨he, -⟩⟩
    · cases he
    · cases he
    · exact absurd he (by decide)
    · cases he
  | scanTable name =>
    rcases hres with ⟨e, hnone, hres⟩ | ⟨slot, handle, hfind, hres⟩
    · obtain rfl := Except.error.inj hres
      cases (handleOf_error hnone).2
    · obtain ⟨data, rows, -, hrows, -⟩ := h.rows hfind
      rw [hrows] at hres
      cases hres
  | estimatedRowCount name =>
    rcases hres with ⟨e, hnone, hres⟩ | ⟨slot, handle, entry, -, -, hres⟩
    · obtain rfl := Except.error.inj hres
      cases (handleOf_error hnone).2
    · cases hres

/-- **Step.** -/
theorem Counted.moved (hcount : Counted body.tables trees) (h : Holds base cat body trees m)
    (hm : Moved base cat body trees op res cat' body' trees') (hop : op.Counts cat) :
    Counted body'.tables trees' ∧ res ≠ .error .exhaustedSplit := by
  have hforest := hm.forest h.toReady h.forest
  cases hm with
  | kept touched result => exact ⟨hcount, h.kept_ne result⟩
  | created created => exact ⟨hcount.set rfl, nofun⟩
  | @inserted name values slot handle entry key blob tree' bp stores grew settled forest =>
    obtain ⟨hlacks, hstarves⟩ := hop body slot handle entry key blob h.page stores
    have hintact := h.forest.intact stores.entry_eq stores.inUse
    obtain ⟨root, hok⟩ : ∃ root, (cat.insertRun slot entry.rootPageId key blob).result = .ok root := by
      rcases grew.result with hok | ⟨-, hpool, hfull⟩
      · exact hok
      · exact absurd ⟨_, hintact.hasLevel, hpool, hfull⟩ hstarves
    refine ⟨?_, by rw [hok]; exact nofun⟩
    obtain ⟨count, htables, hbump⟩ := bodyAfter_tables stores.entry_eq
      (cat.insertRun slot entry.rootPageId key blob)
    rw [htables] at hforest ⊢
    rw [hok] at hbump
    refine hcount.set ?_
    have hlt := (List.getElem?_eq_some_iff.mp stores.entry_eq).1
    have hintact' := hforest.intact (List.getElem?_set_self hlt) stores.inUse
    rw [Function.update_self] at hintact'
    rw [length_upsert hintact.holds.sorted hintact'.holds.sorted grew.mem
      fun c hc => hlacks _ hintact.scans c hc, ← hcount slot entry stores.entry_eq stores.inUse]
    exact hbump

/-- **Run.** -/
theorem Counted.run (hcount : Counted body.tables trees) (h : Holds base cat body trees m)
    {ops : List CatalogOp} (hops : cat.Counting ops) : ∃ body' trees' m',
    Counted body'.tables trees' ∧ Holds base (cat.afterAll ops) body' trees' m' := by
  induction ops generalizing cat body trees m with
  | nil => exact ⟨body, trees, m, hcount, h⟩
  | cons op ops ih =>
    obtain ⟨hop, hops⟩ := hops
    obtain ⟨body', trees', hm⟩ := h.toReady.moved h.forest op
    obtain ⟨hcount', hsplit⟩ := hcount.moved h hm hop
    exact ih hcount' (h.moved hm hsplit) hops

/-- The stored count of every table is the number of its rows. -/
def CountsExact (cat : Catalog) : Prop :=
  ∀ name, cat.tableExists name = true → ∃ rows,
    CatalogOp.result cat (.scanTable name) = .ok (.rows rows) ∧
      CatalogOp.result cat (.estimatedRowCount name) = .ok (.count rows.length)

theorem Counted.exact (hcount : Counted body.tables trees) (h : Holds base cat body trees m) :
    cat.CountsExact := by
  intro name hexists
  rcases h.toReady.scan_result h.forest name with ⟨hnone, -⟩ | ⟨slot, handle, hfind, hscan⟩
  · rw [tableExists, hnone] at hexists
    cases hexists
  obtain ⟨data, rows, -, hrows, -, hlength⟩ := h.rows hfind
  refine ⟨rows, by rw [hscan, hrows]; rfl, ?_⟩
  rcases h.toReady.estimate_result name with ⟨hnone, -⟩ | ⟨slot', handle', entry, hfind', hentry, hm, hres⟩
  · rw [hfind.index] at hnone
    cases hnone
  · obtain ⟨rfl, rfl⟩ := hfind.unique hfind'
    rw [hres, hcount slot entry hentry (hm.inUse_eq ▸ hfind.inUse), hlength]

/-- An insertion under a key no row has, into a tree whose way down leaves frames over. -/
theorem Holds.counts (h : Holds base cat body trees m) {values : List Value}
    (hnew : ∀ data key, m name = some data → data.schema.keyOf values = some key →
      data.rows key = none)
    (hframes : ∀ slot handle, cat.Finds name slot handle →
      (trees slot).1 + 1 < cat.bufferPool.poolSize) :
    (CatalogOp.insertRow name values).Counts cat := by
  intro body' slot handle entry key blob hpage hst
  rw [h.page] at hpage
  obtain rfl : body = body' := by injection Option.some.inj hpage
  have hintact := h.forest.intact hst.entry_eq hst.inUse
  constructor
  · intro ls hls c hc hkey
    rw [hls.unique hintact.scans] at hc
    obtain ⟨data, hdata, hstored⟩ := h.stored hst.finds
    obtain ⟨values', hrows, -⟩ := (hstored.mem c.key c.value).mp hc
    rw [hkey, hnew data key hdata (hstored.schema_eq ▸ keyOf_rowOf hst.row)] at hrows
    cases hrows
  · rintro ⟨d, hd, hpool, -⟩
    have := hd.unique hintact.hasLevel
    have := hframes slot handle hst.finds
    omega

end

end Catalog

/-- **Row counts are exact** in every state of every run, on a fresh catalog, whose insertions each add a
row when they return and none when they throw. -/
theorem rowCount_exact_of_counting {poolSize : Nat} {wal : Option WalManager}
    (hwal : wal = none ∨ wal = some (WalManager.new WalFile.empty)) {cat : Catalog} {bp : BufferPool}
    (hnew : Catalog.new (BufferPool.new poolSize (DiskManager.new DataFile.empty) wal) = .ok cat bp)
    {ops : List CatalogOp} (hops : cat.Counting ops) : (cat.afterAll ops).CountsExact := by
  obtain ⟨hgood, -⟩ := fresh_good poolSize hwal
  obtain ⟨bp', hnew', -, -, -, hready⟩ := Catalog.new_fresh hgood (Catalog.pool_pos hgood rfl hnew) rfl
  rw [hnew'] at hnew
  obtain ⟨rfl, -⟩ := EStateM.Result.ok.inj hnew
  have hfresh := Catalog.Holds.fresh hready fun _ => ⟨0, .leaf ⟨0, []⟩⟩
  have hcount : Catalog.Counted CatalogBody.zero.tables fun _ => ⟨0, .leaf ⟨0, []⟩⟩ := by
    intro i entry hi huse
    rw [CatalogBody.zero_tables hi] at huse
    cases huse
  obtain ⟨body, trees, m, hcount, h⟩ := hcount.run hfresh hops
  exact hcount.exact h

theorem rowCount_exact_of_counting_insert : ∃ cat bp,
    Catalog.new (BufferPool.new 2 (DiskManager.new DataFile.empty) none) = .ok cat bp ∧
      (cat.afterAll (upsertOps.take 2)).CountsExact := by
  obtain ⟨hgood, -⟩ := @fresh_good 2 none (.inl rfl)
  obtain ⟨bp, hnew, hs, -, -, hready⟩ := Catalog.new_fresh hgood (Nat.succ_pos 1) rfl
  refine ⟨_, bp, hnew, rowCount_exact_of_counting (.inl rfl) hnew ⟨trivial, ?_, trivial⟩⟩
  have hfresh := Catalog.Holds.fresh hready fun _ => ⟨0, .leaf ⟨0, []⟩⟩
  rcases hready.createTable (text "t") [⟨text "id", .integer, true⟩, ⟨text "v", .text, false⟩] with
    ⟨what, hrun⟩ | ⟨slot, bp', hrun, hc⟩
  · have hok : Catalog.runNew (BufferPool.new 2 (DiskManager.new DataFile.empty) none)
        (upsertOps.take 1) = (upsertOps.take 1).map (·, .ok .done) := by decide +kernel
    rw [Catalog.runNew_ok hnew] at hok
    have hok := congrArg Prod.snd (List.cons.inj hok).1
    simp only [CatalogOp.result, CatalogOp.call, outcomeOf_map, hrun] at hok
    cases hok
  · rw [CatalogOp.after, CatalogOp.call, outcomeOf_map, hrun]
    refine (hfresh.created hc (hc.forest hready hfresh.forest)).counts (fun data key hm _ => ?_)
      fun slot' handle hfind => ?_
    · rw [Function.update_self] at hm
      rw [← Option.some.inj hm]
    · rcases hc.finds hfind with ⟨-, rfl, -⟩ | ⟨hne, -⟩
      · have hpool : bp'.poolSize = 2 :=
          hc.settled.effect.poolSize_eq.trans hs.effect.poolSize_eq
        rw [Function.update_self]
        show 0 + 1 < bp'.poolSize
        omega
      · exact absurd rfl hne

/-- A table whose one row was inserted twice has a count of two. -/
theorem rowCount_not_exact_upsert :
    ¬ ∀ (cat : Catalog) (bp : BufferPool) (ops : List CatalogOp),
      Catalog.new (BufferPool.new 2 (DiskManager.new DataFile.empty) none) = .ok cat bp →
        (cat.afterAll ops).CountsExact := by
  intro hall
  have hscan : (Catalog.runNew (BufferPool.new 2 (DiskManager.new DataFile.empty) none)
      (upsertOps ++ [.scanTable (text "t")])).getLast?
        = some (.scanTable (text "t"), .ok (.rows [[.int 1, .text (text "b")]])) := by decide +kernel
  have hcount : (Catalog.runNew (BufferPool.new 2 (DiskManager.new DataFile.empty) none)
      (upsertOps ++ [.estimatedRowCount (text "t")])).getLast?
        = some (.estimatedRowCount (text "t"), .ok (.count 2)) := by decide +kernel
  have hrun : Prog.Returns (fun cat _ => (cat.afterAll upsertOps).tableExists (text "t"))
      (Catalog.new (BufferPool.new 2 (DiskManager.new DataFile.empty) none)) = true := by
    decide +kernel
  obtain ⟨cat, bp, hnew, hexists⟩ := Prog.Returns.ok hrun
  rw [Catalog.runNew_ok hnew, Catalog.history_append, List.getLast?_append] at hscan hcount
  have hscan : CatalogOp.result (cat.afterAll upsertOps) (.scanTable (text "t")) = _ :=
    congrArg Prod.snd (Option.some.inj hscan)
  have hcount : CatalogOp.result (cat.afterAll upsertOps) (.estimatedRowCount (text "t")) = _ :=
    congrArg Prod.snd (Option.some.inj hcount)
  obtain ⟨rows, hrows, hexact⟩ := hall cat bp upsertOps hnew (text "t") hexists
  rw [hscan] at hrows
  rw [hcount] at hexact
  obtain ⟨rfl⟩ := CatalogAnswer.rows.inj (Except.ok.inj hrows)
  cases hexact

end Reldb
