import Reldb.Query.Silent
import Reldb.Sql.Reprint
import Reldb.Tables.Cuts

/-!
# Reldb — an engine that crashes

An `Engine` executes statements, its process ends at any of its writes, and another is opened on the two
files, any number of times. A crash can tear the page and the record being written, and can come while the
constructor or a recovery runs. What the next engine shows is the interrupted statement or nothing of it
(`statement_survives`), and every prefix of the log is closed under the pointers of its pages
(`log_closed`).

Invariant: `EngineState.Inv`. Step lemma: `EngineState.Inv.step`. Run lemma: `EngineRun.inv`.
-/

namespace Reldb

open WriteLog BufferPool

/-! ## Statements and calls -/

namespace Engine

/-- What `ExecuteSQL` returned or threw. -/
def result (fuel : Nat) (sql : Bytes) (cat : Catalog) : Except Exn QueryResult :=
  (outcomeOf (executeSQL fuel sql cat)).1

/-- The catalog it left. -/
def after (fuel : Nat) (sql : Bytes) (cat : Catalog) : Catalog :=
  (outcomeOf (executeSQL fuel sql cat)).2

/-- Whether it is an `INSERT` that allocates a page. -/
def splits (fuel : Nat) (sql : Bytes) (cat : Catalog) : Bool :=
  match parseSQL sql with
  | .ok (.insert _) => (after fuel sql cat).bufferPool.next != cat.bufferPool.next
  | _ => false

end Engine

theorem ofExcept_bind {σ α β : Type} (x : Except Exn α) (f : α → Prog σ β) (s : σ) :
    (∃ e, x = .error e ∧ (ofExcept x >>= f) s = .error e s) ∨
      ∃ a, x = .ok a ∧ (ofExcept x >>= f) s = f a s := by
  cases x with
  | error e => exact .inl ⟨e, rfl, rfl⟩
  | ok a => exact .inr ⟨a, rfl, rfl⟩

theorem Prog.after_of_outcome {σ α : Type} {p : Prog σ α} {s : σ} {P : σ → Prop}
    (h : P (outcomeOf (p s)).2) : p.After s P := by
  unfold Prog.After
  cases hrun : p s with
  | ok a s' => rwa [hrun] at h
  | error e s' => rwa [hrun] at h

/-- An item of a printed list. -/
theorem mem_printList {items : List (List Lexeme)} {xs : List Lexeme} (h : xs ∈ items) :
    xs ⊆ printList items := by
  induction items with
  | nil => cases h
  | cons ys items ih =>
    intro x hx
    cases items with
    | nil =>
      obtain rfl := List.mem_singleton.mp h
      simpa [printList] using hx
    | cons zs items =>
      have hcons : printList (ys :: zs :: items) = ys ++ .symbol .comma :: printList (zs :: items) := by
        simp [printList, List.intercalate, List.intersperse]
      rw [hcons]
      rcases List.mem_cons.mp h with rfl | h
      · exact List.mem_append_left _ hx
      · exact List.mem_append_right _ (List.mem_cons_of_mem _ (ih h hx))

/-- No identifier holds a zero byte. -/
theorem nulFree_of_spellable {name : Bytes} (h : (Lexeme.ident name).Spellable) : NulFree name := by
  obtain ⟨w, hw⟩ := h
  cases hw with
  | ident hname =>
    cases name with
    | nil => cases hname
    | cons c cs =>
      intro b hb
      have hword := hname.2.1 b hb
      rintro rfl
      revert hword
      decide

/-- The names of a `CREATE TABLE` that was parsed. -/
theorem named_of_parseSQL {sql : Bytes} {stmt : CreateTableStmt}
    (h : parseSQL sql = .ok (.createTable stmt)) :
    Catalog.Named (.createTable stmt.tableName stmt.columns) := by
  obtain ⟨-, hprint⟩ := printable_of_parseSQL h
  constructor
  · apply nulFree_of_spellable
    apply hprint
    simp [Statement.print]
  · intro col hcol
    apply nulFree_of_spellable
    apply hprint
    have hmem : Lexeme.ident col.name ∈ printList (stmt.columns.map ColumnDef.print) :=
      mem_printList (List.mem_map_of_mem hcol) (by simp [ColumnDef.print])
    simp only [Statement.print, List.mem_append, List.mem_cons]
    exact .inl (.inr (.inr (.inr (.inr hmem))))

/-- What a `SELECT` asks leaves a touched catalog. -/
theorem Catalog.reads_touched {base : Files} {cat : Catalog} {body : CatalogBody} (T : List Bytes) :
    Catalog.reads.Obey (Touched base body cat) T True where
  getSchema name := .bind (obeys_of_after fun _ h => h) fun _ _ => .ofExcept fun _ _ => trivial
  scanTable name _ := obeys_of_after fun cat₁ h => by
    have htouched := h.ready.scanTable_touched name
    rw [CatalogOp.after, CatalogOp.call, outcomeOf_map] at htouched
    exact Prog.after_of_outcome (h.trans htouched)
  estimatedRowCount _ name _ := (obeys_of_after fun cat₁ h => by
    have htouched := h.ready.estimatedRowCount_touched name
    rw [CatalogOp.after, CatalogOp.call, outcomeOf_map] at htouched
    exact Prog.after_of_outcome (h.trans htouched)).map _

/-! ## What a statement does to the catalog -/

section

variable {base : Files} {cat : Catalog} {body : CatalogBody}

/-- **What `ExecuteSQL` can do**: touch the catalog, or one call of it. -/
theorem Engine.after_cases (h : Catalog.Ready base cat body) (fuel : Nat) (sql : Bytes) :
    Catalog.Touched base body cat (Engine.after fuel sql cat) ∨
      ∃ op : CatalogOp, Catalog.Named op ∧ Engine.after fuel sql cat = op.after cat ∧
        ((∃ name values, op = .insertRow name values) → ∃ stmt, parseSQL sql = .ok (.insert stmt)) := by
  have hrefl := Catalog.Touched.refl h
  have hget : (MonadState.get : Prog Catalog Catalog) cat = .ok cat cat := rfl
  unfold Engine.after Engine.executeSQL
  rcases ofExcept_bind (parseSQL sql) _ cat with ⟨e, -, hrun⟩ | ⟨stmt, hparse, hrun⟩
  · rw [hrun]
    exact .inl hrefl
  rw [hrun, Prog.bind_ok hget]
  rcases ofExcept_bind (validateStatement cat stmt) _ cat with ⟨e, -, hrun⟩ | ⟨u, -, hrun⟩
  · rw [hrun]
    exact .inl hrefl
  rw [hrun]
  cases stmt with
  | createTable stmt =>
    refine .inr ⟨.createTable stmt.tableName stmt.columns, named_of_parseSQL hparse, ?_, nofun⟩
    show (outcomeOf (((fun _ => QueryResult.empty) <$>
      Catalog.createTable stmt.tableName stmt.columns) cat)).2 = _
    rw [CatalogOp.after, CatalogOp.call, outcomeOf_map, outcomeOf_map]
  | insert stmt =>
    have hstate : (outcomeOf (Engine.executeStatement fuel (.insert stmt) cat)).2
        = (outcomeOf (Engine.executeInsert stmt cat)).2 := by
      show (outcomeOf (((fun _ => QueryResult.empty) <$> Engine.executeInsert stmt) cat)).2 = _
      rw [outcomeOf_map]
    rw [hstate]
    unfold Engine.executeInsert
    rw [Prog.bind_ok hget]
    rcases ofExcept_bind (cat.getSchema stmt.tableName) _ cat with ⟨e, -, hrun⟩ | ⟨schema, -, hrun⟩
    · rw [hrun]
      exact .inl hrefl
    rw [hrun]
    rcases ofExcept_bind (Engine.insertValues schema stmt) _ cat with ⟨e, -, hrun⟩ | ⟨row, -, hrun⟩
    · rw [hrun]
      exact .inl hrefl
    refine .inr ⟨.insertRow stmt.tableName row, trivial, ?_, fun _ => ⟨stmt, hparse⟩⟩
    rw [hrun, CatalogOp.after, CatalogOp.call, outcomeOf_map]
  | select stmt =>
    -- whatever plan is made and run, it only reads
    have hobey := @Catalog.reads_touched base cat body stmt.asked
    have hreads : Obeys (Catalog.Touched base body cat) (Engine.executeSelect Catalog.reads fuel stmt)
        fun _ => True :=
      Engine.executeSelect_obeys ⟨hobey.getSchema, hobey.scanTable,
        fun _ => hobey.estimatedRowCount trivial⟩ fuel
    have hcat := hreads cat hrefl
    left
    show Catalog.Touched base body cat (outcomeOf (Engine.executeSelect Catalog.reads fuel stmt cat)).2
    cases hselect : Engine.executeSelect Catalog.reads fuel stmt cat with
    | ok rows cat' =>
      rw [hselect] at hcat
      exact hcat.1
    | error e cat' =>
      rw [hselect] at hcat
      exact hcat

end

/-! ## Runs -/

/-- A running engine's files and catalog, or the files a process left behind. The files are those the
process started from once recovery was done. -/
inductive EngineState where
  | running (base : Files) (cat : Catalog)
  | down (data : TornFile) (wal : WalFile)

/-- A statement that was answered, or one the process ended in, splitting a page or not. -/
inductive EngineEvent where
  | answered (sql : Bytes) (res : Except Exn QueryResult)
  | crashed (sql : Bytes) (split : Bool)

/-- One step of a run. `fuel` bounds the rows a plan goes through. -/
inductive EngineStep : EngineState → List EngineEvent → EngineState → Prop where
  | execute {base : Files} {cat : Catalog} {fuel : Nat} {sql : Bytes}
      (h : Engine.result fuel sql cat ≠ .error .undefinedBehaviour) :
      EngineStep (.running base cat) [.answered sql (Engine.result fuel sql cat)]
        (.running base (Engine.after fuel sql cat))
  /-- The process ends `n` writes into a statement, or before it. -/
  | crash {base : Files} {cat : Catalog} {fuel : Nat} {sql : Bytes} {n : Nat} {data : TornFile}
      (torn : Nat) (h : Engine.result fuel sql cat ≠ .error .undefinedBehaviour)
      (hdata : TornAt base (Engine.after fuel sql cat).bufferPool.io
        (cat.bufferPool.io.length + n) data) :
      EngineStep (.running base cat) [.crashed sql (Engine.splits fuel sql cat)] (.down data
        (base.afterCrash (Engine.after fuel sql cat).bufferPool.io
          (cat.bufferPool.io.length + n) torn).wal)
  /-- The process ends during a recovery: `before` was written, `record` perhaps in part. -/
  | crashRecovering {data data' : TornFile} {wal : WalFile} {before rest : List RecoveredPage}
      {record : RecoveredPage} (h : RecoveryOrder wal (before ++ record :: rest))
      (hdata : data' = recoverFile data before ∨
        (recoverFile data before).Tears record.pageId data') :
      EngineStep (.down data wal) [] (.down data' (WalManager.new wal).file)
  /-- The process ends `n` writes into the catalog's constructor. -/
  | crashOpening {data data' : TornFile} {wal : WalFile} {order : List RecoveredPage}
      {poolSize n : Nat} {cat : Catalog} {bp : BufferPool} (torn : Nat) (h : RecoveryOrder wal order)
      (hnew : Catalog.new (openTorn poolSize data wal order) = .ok cat bp)
      (hdata : TornAt (openTorn poolSize data wal order).files bp.io n data') :
      EngineStep (.down data wal) [] (.down data'
        ((openTorn poolSize data wal order).files.afterCrash bp.io n torn).wal)
  | reopen {data : TornFile} {wal : WalFile} {order : List RecoveredPage} {poolSize : Nat}
      {cat : Catalog} {bp : BufferPool} (h : RecoveryOrder wal order)
      (hnew : Catalog.new (openTorn poolSize data wal order) = .ok cat bp) :
      EngineStep (.down data wal) [] (.running (openTorn poolSize data wal order).files cat)

/-- The runs from empty files, and what happened in them. -/
inductive EngineRun : List EngineEvent → EngineState → Prop where
  | start : EngineRun [] (.down ⟨DataFile.empty, none⟩ WalFile.empty)
  | step {es es' : List EngineEvent} {s s' : EngineState} (before : EngineRun es s)
      (next : EngineStep s es' s') : EngineRun (es ++ es') s'

/-- The records of the log. -/
def EngineState.records : EngineState → List RecoveredPage
  | .running _ cat => cat.bufferPool.records
  | .down _ wal => wal.records

/-! ## The invariant -/

/-- What every prefix of an engine's log amounts to: nothing, or a catalog's pages. -/
def Storable (σ : PageStore) : Prop := σ = WriteLog.empty ∨ ∃ body, Catalog.Listed σ body

/-- A catalog between statements. -/
structure Catalog.Runs (base : Files) (cat : Catalog) (body : CatalogBody) : Prop where
  ready : Ready base cat body
  mirrored : Mirrored cat body
  wal_isSome : cat.bufferPool.wal.isSome
  storable : EachPrefix Storable cat.bufferPool.records

/-- What every state of every run satisfies. -/
def EngineState.Inv : EngineState → Prop
  | .running base cat => ∃ body, Catalog.Runs base cat body
  | .down data wal => Recoverable data wal ∧ EachPrefix Storable wal.records

/-- Page writes every prefix of which has `P` extend a log every prefix of which has it. -/
theorem BufferPool.Effect.eachPrefix {bp bp' : BufferPool} {W : List PageWrite} {P : PageStore → Prop}
    (he : Effect bp bp' W) (h : EachPrefix P bp.records) (hwal : bp.wal.isSome)
    (hW : ∀ m, P (replay (logged bp.records) (W.take m))) : EachPrefix P bp'.records := by
  obtain ⟨R, hR, hstut⟩ := he.records
  rw [hR]
  refine h.append fun k => ?_
  have hsame := (hstut hwal).forall_take (P := P) hW k
  rwa [logged_append, writesOf, List.map_take]

section

variable {base : Files} {cat : Catalog} {body : CatalogBody} {leaves : Nat → List Leaf}

/-- **A statement** logs what a call logs. -/
theorem Catalog.Runs.logs (h : Runs base cat body) (hd : Displays cat.bufferPool.view body leaves)
    (fuel : Nat) (sql : Bytes) : ∃ body' leaves' W,
      Logs base cat body leaves (Engine.after fuel sql cat) body' leaves' W := by
  rcases Engine.after_cases h.ready fuel sql with htouched | ⟨op, hnamed, hafter, -⟩
  · have hw : Writes base cat body (.scanTable []) (Engine.after fuel sql cat) body [] := .kept htouched
    obtain ⟨leaves', hlogs⟩ := hw.logs h.ready h.mirrored hd (show Named (.scanTable []) from trivial)
    exact ⟨body, leaves', [], hlogs⟩
  · obtain ⟨body', W, hw⟩ := h.ready.writes op
    obtain ⟨leaves', hlogs⟩ := hw.logs h.ready h.mirrored hd hnamed
    rw [hafter]
    exact ⟨body', leaves', W, hlogs⟩

theorem Catalog.Runs.of_logs {cat' : Catalog} {body' : CatalogBody} {leaves' : Nat → List Leaf}
    {W : List PageWrite} (h : Runs base cat body)
    (hlogs : Logs base cat body leaves cat' body' leaves' W) : Runs base cat' body' where
  ready := hlogs.ready
  mirrored := hlogs.mirrored
  wal_isSome := hlogs.effect.wal_isSome.trans h.wal_isSome
  storable := hlogs.effect.eachPrefix h.storable h.wal_isSome fun m => by
    rw [← h.ready.good.view_eq_logged h.wal_isSome]
    exact .inr (hlogs.listed h.ready m)

theorem Catalog.Runs.after (h : Runs base cat body) (fuel : Nat) (sql : Bytes) :
    ∃ body', Runs base (Engine.after fuel sql cat) body' := by
  obtain ⟨leaves, hd⟩ := h.ready.displays
  obtain ⟨body', leaves', W, hlogs⟩ := h.logs hd fuel sql
  exact ⟨body', h.of_logs hlogs⟩

/-- What a crash of a process leaves. -/
theorem Catalog.Runs.crashed (h : Runs base cat body) {n : Nat} {data : TornFile}
    (hdata : TornAt base cat.bufferPool.io n data) (torn : Nat) :
    (EngineState.down data (base.afterCrash cat.bufferPool.io n torn).wal).Inv := by
  obtain ⟨hrec, hinitial⟩ := h.ready.good.torn h.wal_isSome hdata torn
  exact ⟨hrec, h.storable.of_initial hinitial⟩

end

/-! ## Opening -/

/-- Only an empty log amounts to nothing. -/
theorem records_eq_nil {R : List RecoveredPage} (h : logged R = WriteLog.empty) : R = [] := by
  cases R with
  | nil => rfl
  | cons r R =>
    have hsome : (logged (r :: R) r.pageId).isSome :=
      replay_isSome (.inr (List.mem_map_of_mem (List.mem_map_of_mem List.mem_cons_self)))
    rw [h] at hsome
    cases hsome

/-- No catalog is constructed without a frame. -/
theorem Catalog.frames_pos {f : Files} {q : Nat} {cat : Catalog} {bp : BufferPool} (hf : f.Restorable)
    (hnew : Catalog.new (openPool q f) = .ok cat bp) : 0 < q := by
  apply Nat.pos_of_ne_zero
  rintro rfl
  by_cases hnext : (openPool 0 f).next = 0
  · have hpos : 0 < (openPool 0 f).poolSize := pool_pos (openPool_opened hf 0).good hnext hnew
    exact absurd hpos (Nat.lt_irrefl 0)
  · have hget : (MonadState.get : Prog BufferPool BufferPool) (openPool 0 f)
        = .ok (openPool 0 f) (openPool 0 f) := rfl
    have hcount : (openPool 0 f).diskPageCount ≠ 0 := hnext
    unfold Catalog.new construct at hnew
    rw [Prog.bind_ok hget, if_neg hcount] at hnew
    rcases openPool_fetchPage (p := 0) hf (.inl rfl) with hfetch | ⟨what, bp', hfetch, -⟩
    · rw [Prog.bind_ok hfetch] at hnew
      cases hnew
    · rw [Prog.bind_error hfetch] at hnew
      cases hnew

/-- The page of a fresh catalog. -/
theorem Catalog.emptyCatalog_listed (bp : BufferPool) : Listed emptyCatalogStore .zero where
  sound := emptyCatalog_log.sound empty_sound
  page := rfl
  valid entry hmem huse := by
    rw [List.eq_of_mem_replicate hmem] at huse
    cases huse
  mirrored := ⟨_, Catalog.Mirrored.fresh bp⟩

/-- What a catalog's constructor makes of the files of a log: an empty catalog, or the one whose page is
logged. -/
inductive Catalog.Starts (wal : WalFile) (base : Files) : Catalog → Prop where
  | fresh {bp : BufferPool} (empty : wal.records = []) (view_eq : bp.view = emptyCatalogStore)
      (runs : Runs base ⟨bp, 0, List.replicate maxCatalogTables .empty⟩ .zero) :
      Starts wal base ⟨bp, 0, List.replicate maxCatalogTables .empty⟩
  | existing {bp : BufferPool} {body : CatalogBody} (listed : Listed (logged wal.records) body)
      (view_eq : bp.view = logged wal.records)
      (runs : Runs base ⟨bp, 0, body.tables.map CatalogTableEntry.handle⟩ body) :
      Starts wal base ⟨bp, 0, body.tables.map CatalogTableEntry.handle⟩

theorem Catalog.Starts.runs {wal : WalFile} {base : Files} {cat : Catalog} (h : Starts wal base cat) :
    ∃ body, Runs base cat body := by
  cases h with
  | fresh empty view_eq runs => exact ⟨_, runs⟩
  | existing listed view_eq runs => exact ⟨_, runs⟩

/-- **The constructor**, on files a run has left behind. -/
theorem EngineState.Inv.opens {data : TornFile} {wal : WalFile} (h : (down data wal).Inv)
    {order : List RecoveredPage} (horder : RecoveryOrder wal order) {q : Nat} {cat : Catalog}
    {bp : BufferPool} (hnew : Catalog.new (openTorn q data wal order) = .ok cat bp) :
    cat.bufferPool = bp ∧ Catalog.Starts wal (openTorn q data wal order).files cat := by
  obtain ⟨hrec, hlog⟩ := h
  rw [hrec.openTorn horder] at hnew ⊢
  have hf := hrec.restorable
  have hopen := openPool_opened hf q
  have hq := Catalog.frames_pos hf hnew
  have hlog : EachPrefix Storable (openPool q ⟨DataFile.empty, wal⟩).records :=
    hopen.records_eq.symm ▸ hlog
  rcases hlog.whole with hempty | ⟨body, hlisted⟩
  · have hnil : wal.records = [] := records_eq_nil (hopen.records_eq ▸ hempty)
    obtain ⟨bp', hnew', hs, -, hview, hready⟩ :=
      Catalog.new_fresh hopen.good hq (hopen.next_eq_zero hnil)
    rw [hnew'] at hnew
    obtain ⟨rfl, rfl⟩ := EStateM.Result.ok.inj hnew
    have hstorable := hs.effect.eachPrefix hlog hopen.wal_isSome fun m => by
      rw [hempty]
      cases m with
      | zero => exact .inl rfl
      | succ m =>
        have hall : emptyCatalogRun.writes.take (m + 1) = emptyCatalogRun.writes :=
          List.take_of_length_le (by show 1 ≤ m + 1; omega)
        rw [hall]
        exact .inr ⟨.zero, Catalog.emptyCatalog_listed bp'⟩
    exact ⟨rfl, .fresh hnil hview ⟨hready, .fresh bp', hs.effect.wal_isSome.trans hopen.wal_isSome,
      hstorable⟩⟩
  · rw [hopen.records_eq] at hlisted
    obtain ⟨bp', hnew', hquiet, hready, hmirror⟩ := hlisted.constructs hf hq
    rw [hnew'] at hnew
    obtain ⟨rfl, rfl⟩ := EStateM.Result.ok.inj hnew
    exact ⟨rfl, .existing hlisted (hquiet.view_eq.trans hopen.view_eq) ⟨hready, hmirror,
      hquiet.wal_isSome.trans hopen.wal_isSome, hlog.quiet hopen.wal_isSome hquiet⟩⟩

/-! ## Steps and runs -/

/-- **Step lemma.** -/
theorem EngineState.Inv.step {s s' : EngineState} {es : List EngineEvent} (h : s.Inv)
    (hstep : EngineStep s es s') : s'.Inv := by
  cases hstep with
  | @execute base cat fuel sql hdefined =>
    obtain ⟨body, hruns⟩ := h
    exact hruns.after fuel sql
  | @crash base cat fuel sql n data torn hdefined hdata =>
    obtain ⟨body, hruns⟩ := h
    obtain ⟨body', hruns'⟩ := hruns.after fuel sql
    exact hruns'.crashed hdata torn
  | @crashRecovering data data' wal before rest record horder hdata =>
    obtain ⟨hrec, hlog⟩ := h
    exact ⟨hrec.crashed horder hdata, by rwa [hrec.opened_records]⟩
  | @crashOpening data data' wal order q n cat bp torn horder hnew hdata =>
    obtain ⟨rfl, hstarts⟩ := h.opens horder hnew
    obtain ⟨body, hruns⟩ := hstarts.runs
    exact hruns.crashed hdata torn
  | @reopen data wal order q cat bp horder hnew => exact (h.opens horder hnew).2.runs

/-- **Run lemma.** -/
theorem EngineRun.inv {es : List EngineEvent} {s : EngineState} (h : EngineRun es s) : s.Inv := by
  induction h with
  | start =>
    refine ⟨Files.Restorable.empty.recoverable, fun n => .inl ?_⟩
    rw [show WalFile.empty.records = [] from rfl, List.take_nil]
    rfl
  | step _ hnext ih => exact ih.step hnext

/-! ## Crashes -/

/-- **Statements survive crashes whole.** In every state of every run, whatever statement the process ends
in, and at whichever of its writes: a catalog opens on the files, and it has the tables and rows from before
the statement or those from after it. At most the row counts are older than the rows. -/
theorem statement_survives {es : List EngineEvent} {base : Files} {cat : Catalog}
    (h : EngineRun es (.running base cat)) (fuel : Nat) (sql : Bytes) {n : Nat} {data : TornFile}
    (hdata : TornAt base (Engine.after fuel sql cat).bufferPool.io
      (cat.bufferPool.io.length + n) data) (torn : Nat) {order : List RecoveredPage}
    (horder : RecoveryOrder (base.afterCrash (Engine.after fuel sql cat).bufferPool.io
      (cat.bufferPool.io.length + n) torn).wal order) {q : Nat} (hq : 0 < q) :
    ∃ cat₂ bp₂, Catalog.new (openTorn q data
        (base.afterCrash (Engine.after fuel sql cat).bufferPool.io
          (cat.bufferPool.io.length + n) torn).wal order) = .ok cat₂ bp₂ ∧
      Catalog.Survives cat (Engine.after fuel sql cat) cat₂ := by
  obtain ⟨body, hruns⟩ := h.inv
  obtain ⟨leaves, hd⟩ := hruns.ready.displays
  obtain ⟨body', leaves', W, hlogs⟩ := hruns.logs hd fuel sql
  exact hlogs.survives hruns.ready hd hruns.wal_isSome hdata horder hq

/-- An engine on empty files, and a crash after the first write of its first `CREATE TABLE`. -/
theorem statement_survives_create : ∃ (base f : Files) (cat cat₂ : Catalog) (bp₂ : BufferPool)
    (sql : Bytes), EngineRun [] (.running base cat) ∧ cat.tableNames = [] ∧
      (Engine.after 0 sql cat).tableNames = [text "t"] ∧
      f = base.afterCrash (Engine.after 0 sql cat).bufferPool.io (cat.bufferPool.io.length + 1) 0 ∧
      Catalog.new (openTorn 1 ⟨f.data, none⟩ f.wal
        (latestRecords (WalManager.new f.wal).validRecords)) = .ok cat₂ bp₂ ∧
      Catalog.Survives cat (Engine.after 0 sql cat) cat₂ := by
  obtain ⟨sql, hrun⟩ : ∃ sql, Prog.Returns (fun cat _ => decide (cat.tableNames = [] ∧
      (Engine.after 0 sql cat).tableNames = [text "t"]))
      (Catalog.new (openTorn 4 ⟨DataFile.empty, none⟩ WalFile.empty [])) = true :=
    ⟨text "CREATE TABLE t (id INTEGER PRIMARY KEY)", by decide +kernel⟩
  obtain ⟨cat, bp, hnew, hnames⟩ := Prog.Returns.ok hrun
  obtain ⟨hbefore, hafter⟩ := of_decide_eq_true hnames
  have hopened : EngineRun [] (.running _ cat) := .step .start (@EngineStep.reopen _ _ [] 4 _ _ .nil hnew)
  obtain ⟨cat₂, bp₂, hopen, hsurvives⟩ :=
    statement_survives hopened 0 sql (n := 1) .clean 0 (.refl _) Nat.one_pos
  exact ⟨_, _, cat, cat₂, bp₂, sql, hopened, hbefore, hafter, rfl, hopen, hsurvives⟩

/-! ## Pointers -/

/-- The pages an image points to. -/
def PageBody.refs : PageBody → List PageId
  | .invalid => []
  | .leaf chain _ => chain.toList
  | .internal leftmostChild cells => childrenOf leftmostChild cells
  | .metadata root => [root]
  | .catalog body => PageBody.roots (.catalog body)

/-- No page points to one that is not there, and the leaf chain under every registered root ends. -/
structure Closed (σ : PageStore) : Prop where
  refs : ∀ p b, σ p = some b → ∀ q ∈ b.refs, (σ q).isSome
  ends : ∀ p b, σ p = some b → ∀ root ∈ b.roots, ∃ leaves, Scans σ root leaves

/-- A sound store is closed. -/
theorem Sound.closed {σ : PageStore} (h : Sound σ) : Closed σ where
  refs p b hb q hq := by
    cases b with
    | invalid => cases hq
    | leaf chain cells =>
      obtain ⟨ls, hls⟩ := h.chain hb
      rw [Option.mem_toList.mp hq] at hls
      cases ls with
      | nil => cases hls
      | cons l ls =>
        obtain ⟨hl, next, hpage, -⟩ := hls
        rw [Option.some.inj hl, hpage]
        rfl
    | internal lm cells =>
      obtain ⟨d, hd⟩ := h.level hb trivial
      cases d with
      | zero =>
        obtain ⟨chain, cells', hleaf⟩ := hd
        rw [hb] at hleaf
        cases hleaf
      | succ d =>
        obtain ⟨lm', cells', hbody, hkids⟩ := hd
        obtain ⟨rfl, rfl⟩ := PageBody.internal.inj (Option.some.inj (hb.symm.trans hbody))
        exact (hkids q hq).isSome
    | metadata root =>
      obtain ⟨d, hd⟩ := h.roots hb q hq
      exact hd.isSome
    | catalog body =>
      obtain ⟨d, hd⟩ := h.roots hb q hq
      exact hd.isSome
  ends p b hb root hroot := by
    obtain ⟨d, hd⟩ := h.roots hb root hroot
    exact h.exists_scan hd

theorem Storable.sound {σ : PageStore} (h : Storable σ) : Sound σ := by
  rcases h with rfl | ⟨body, hlisted⟩
  · exact empty_sound
  · exact hlisted.sound

theorem EngineState.Inv.storable {s : EngineState} (h : s.Inv) : EachPrefix Storable s.records := by
  cases s with
  | running base cat =>
    obtain ⟨body, hruns⟩ := h
    exact hruns.storable
  | down data wal => exact h.2

/-- The logs that runs of engines and of databases write, whatever crashes they go through. -/
inductive Writer : List RecoveredPage → Prop where
  | engine {es : List EngineEvent} {s : EngineState} (run : EngineRun es s) : Writer s.records
  | database {db : Database} (run : TornReaches (.running db)) : Writer db.tree.bufferPool.records
  | databaseDown {data : TornFile} {wal : WalFile} (run : TornReaches (.down data wal)) :
      Writer wal.records

theorem Writer.logSound {records : List RecoveredPage} (h : Writer records) : LogSound records := by
  cases h with
  | engine run => exact fun n => (run.inv.storable n).sound
  | database run => exact run.inv.2.1
  | databaseDown run => exact run.inv.2.1

/-- **No dangling pointer in any prefix of a log**: what the latest images of its pages point to is logged
in it too, and every leaf chain ends. -/
theorem log_closed {records : List RecoveredPage} (h : Writer records) (n : Nat) :
    Closed (logged (records.take n)) :=
  (h.logSound n).closed

/-- The log of an engine after a `CREATE TABLE`, cut between the new root and the catalog page. -/
theorem log_closed_create : ∃ records, Writer records ∧ records.length = 3 ∧
    Closed (logged (records.take 2)) := by
  obtain ⟨sql, hrun⟩ : ∃ sql, Prog.Returns (fun cat _ =>
      (Engine.result 0 sql cat).isOk && (Engine.after 0 sql cat).bufferPool.records.length == 3)
      (Catalog.new (openTorn 4 ⟨DataFile.empty, none⟩ WalFile.empty [])) = true :=
    ⟨text "CREATE TABLE t (id INTEGER PRIMARY KEY)", by decide +kernel⟩
  obtain ⟨cat, bp, hnew, hok⟩ := Prog.Returns.ok hrun
  rw [Bool.and_eq_true, beq_iff_eq] at hok
  obtain ⟨hreturned, hlength⟩ := hok
  have hopened : EngineRun [] (.running _ cat) := .step .start (@EngineStep.reopen _ _ [] 4 _ _ .nil hnew)
  have hdefined : Engine.result 0 sql cat ≠ .error .undefinedBehaviour := by
    intro herr
    rw [herr] at hreturned
    cases hreturned
  have hwriter : Writer (Engine.after 0 sql cat).bufferPool.records :=
    .engine (.step hopened (.execute hdefined))
  exact ⟨_, hwriter, hlength, log_closed hwriter 2⟩

end Reldb
