import Reldb.Crash.Runs
import Reldb.Crash.Torn

/-!
# Reldb — recovery after any number of crashes

A database runs, crashes and is reopened, any number of times. A crash can come at any write of the
process, those of its constructor included, or in the middle of a recovery, and can tear the page being
written to the data file; a recovery writes the logged pages in any order. After each of them the data
file is exactly what the log amounts to (`recovery_restores`).

Invariant: `TornState.Inv`. Step lemma: `TornState.Inv.step`. Run lemma: `TornReaches.inv`.
-/

namespace Reldb

open WriteLog BufferPool

/-- A running database, or the files a process left behind. -/
inductive TornState where
  | running (db : Database)
  | down (data : TornFile) (wal : WalFile)

/-- The data file of a process that crashed `n` writes after it was opened on `base`, the next write
perhaps cut short. -/
inductive TornAt (base : Files) (io : List IoEvent) (n : Nat) : TornFile → Prop where
  | clean : TornAt base io n ⟨(base.replay (io.take n)).data, none⟩
  | torn {pageId : PageId} {page : Page} {data : TornFile}
      (next : io[n]? = some (.writePage pageId page))
      (tears : TornFile.Tears ⟨(base.replay (io.take n)).data, none⟩ pageId data) :
      TornAt base io n data

/-- The pool a process opens on torn files, its recovery writing in the given order. -/
def openTorn (poolSize : Nat) (data : TornFile) (wal : WalFile) (order : List RecoveredPage) :
    BufferPool :=
  .new poolSize (recoverFile data order).disk (some (WalManager.new wal))

/-- `Database`'s tree, on the pool its constructor has built. -/
def Database.on (bp : BufferPool) : EStateM.Result Exn BufferPool Database :=
  match BTree.new bp with
  | .ok tree bp' => .ok ⟨bp.files, tree⟩ bp'
  | .error e bp' => .error e bp'

theorem Database.new_eq (poolSize : Nat) (files : Files) :
    Database.new poolSize files = Database.on (openPool poolSize files) := rfl

/-- The orders in which recovery can write the latest records. -/
def RecoveryOrder (wal : WalFile) (order : List RecoveredPage) : Prop :=
  order.Perm (latestRecords (WalManager.new wal).validRecords)

/-- One step of a run. -/
inductive TornStep : TornState → TornState → Prop where
  | call {db : Database} {op : TreeOp} (h : op.result db.tree ≠ .error .undefinedBehaviour) :
      TornStep (.running db) (.running (db.after op))
  /-- The process ends during `op`, or earlier. -/
  | crash {db : Database} {op : TreeOp} {n : Nat} {data : TornFile} (torn : Nat)
      (h : op.result db.tree ≠ .error .undefinedBehaviour)
      (hdata : TornAt db.base (op.after db.tree).bufferPool.io n data) :
      TornStep (.running db)
        (.down data (db.base.afterCrash (op.after db.tree).bufferPool.io n torn).wal)
  /-- The process ends during a recovery: `before` was written, `record` perhaps in part. -/
  | crashRecovering {data data' : TornFile} {wal : WalFile} {before rest : List RecoveredPage}
      {record : RecoveredPage} (h : RecoveryOrder wal (before ++ record :: rest))
      (hdata : data' = recoverFile data before ∨
        (recoverFile data before).Tears record.pageId data') :
      TornStep (.down data wal) (.down data' (WalManager.new wal).file)
  | reopen {data : TornFile} {wal : WalFile} {order : List RecoveredPage} {poolSize : Nat}
      {db : Database} {bp : BufferPool} (h : RecoveryOrder wal order)
      (hnew : Database.on (openTorn poolSize data wal order) = .ok db bp) :
      TornStep (.down data wal) (.running db)
  /-- The constructor throws. -/
  | reopenFails {data : TornFile} {wal : WalFile} {order : List RecoveredPage} {poolSize : Nat}
      {e : Exn} {bp : BufferPool} (h : RecoveryOrder wal order) (he : e ≠ .undefinedBehaviour)
      (hnew : Database.on (openTorn poolSize data wal order) = .error e bp) :
      TornStep (.down data wal) (.down ⟨bp.files.data, none⟩ bp.files.wal)

/-- The states of the runs from empty files. -/
inductive TornReaches : TornState → Prop where
  | start : TornReaches (.down ⟨DataFile.empty, none⟩ WalFile.empty)
  | step {s s' : TornState} (before : TornReaches s) (next : TornStep s s') : TornReaches s'

/-! ## Torn writes of logged pages -/

section

variable {data data' : TornFile} {wal : WalFile}

/-- A write of a logged page, whole or cut short, leaves every page logged. -/
theorem Recoverable.tears (h : Recoverable data wal) {p : PageId}
    (hp : ∃ r ∈ wal.records, r.pageId = p) (ht : data.Tears p data') : Recoverable data' wal := by
  obtain ⟨r, hr, hpage⟩ := hp
  cases ht with
  | inside junk =>
    obtain ⟨hat, hsize, htail⟩ := data.write_spec p junk
    refine ⟨fun n hn => ?_, fun q hq => ?_, fun hsome => ?_, h.intact, h.lsn_sorted⟩
    · rw [hsize, lt_max_iff, Nat.lt_succ_iff] at hn
      exact hn.elim (h.size_le n) fun hle => ⟨r, hr, hpage ▸ hle⟩
    · by_cases hqp : q = p
      · exact ⟨r, hr, hpage.trans hqp.symm⟩
      · rw [hat, Function.update_of_ne hqp] at hq
        exact h.page_logged q hq
    · obtain ⟨hsome, hlt⟩ := htail hsome
      rw [hsize, max_eq_left hlt]
      exact h.tail_logged hsome
  | atEnd junk hle =>
    have hsize : (data.extend p).size = p := by
      cases ht : data.tail with
      | none =>
        simp only [TornFile.extend, ht]
        exact max_eq_right hle
      | some t =>
        by_cases hlt : data.whole.size < p
        · simp only [TornFile.extend, ht, if_pos hlt]
          have : max (max data.whole.size (data.whole.size + 1)) p = p := by omega
          exact this
        · simp only [TornFile.extend, ht, if_neg hlt]
          exact le_antisymm hle (Nat.not_lt.mp hlt)
    have hat : ∀ q ≠ p, (data.extend p).page q = data.pageAt q := by
      intro q hq
      unfold TornFile.extend
      split
      · rename_i hnone
        exact (congrFun (TornFile.pageAt_of_none hnone) q).symm
      · rename_i t hsome
        rw [TornFile.pageAt, hsome]
        split
        · by_cases hqs : q = data.whole.size
          · rw [if_pos hqs, hqs]
            exact Function.update_self _ _ _
          · rw [if_neg hqs]
            exact Function.update_of_ne hqs _ _
        · rename_i hlt
          have hsize : data.whole.size = p := le_antisymm hle (Nat.not_lt.mp hlt)
          rw [if_neg (hsize ▸ hq)]
    refine ⟨fun n hn => ?_, fun q hq => ?_, fun _ => ?_, h.intact, h.lsn_sorted⟩
    · have hn : n < (data.extend p).size := hn
      rw [hsize] at hn
      exact ⟨r, hr, hpage ▸ Nat.le_of_lt hn⟩
    · by_cases hqp : q = p
      · exact ⟨r, hr, hpage.trans hqp.symm⟩
      · refine h.page_logged q ?_
        rw [← hat q hqp]
        simpa only [TornFile.pageAt, hsize, if_neg hqp] using hq
    · exact ⟨r, hr, hpage.trans hsize.symm⟩

/-- Recovery can stop after any of its writes. -/
theorem Recoverable.recoverFile (h : Recoverable data wal) {order : List RecoveredPage}
    (horder : ∀ r ∈ order, r ∈ wal.records) : Recoverable (recoverFile data order) wal := by
  induction order generalizing data with
  | nil => exact h
  | cons r order ih =>
    refine ih (h.tears ⟨r, horder r List.mem_cons_self, rfl⟩ (.inside _)) fun r' hr' => ?_
    exact horder r' (List.mem_cons_of_mem _ hr')

/-- A log whose slots are intact is opened as it is. -/
theorem Recoverable.order (h : Recoverable data wal) {order : List RecoveredPage} :
    RecoveryOrder wal order ↔ order.Perm (latestRecords wal.records) := by
  rw [RecoveryOrder, (WalManager.new_slots h.intact).2]

theorem Recoverable.restorable (h : Recoverable data wal) :
    (⟨DataFile.empty, wal⟩ : Files).Restorable where
  size_le n hn := absurd hn (Nat.not_lt_zero n)
  page_logged _ hp := absurd rfl hp
  intact := h.intact
  lsn_sorted := h.lsn_sorted

/-- Opening the log rewrites none of its records. -/
theorem Recoverable.opened_records (h : Recoverable data wal) :
    (WalManager.new wal).file.records = wal.records := by
  obtain ⟨hslots, -⟩ := WalManager.new_slots h.intact
  rw [WalFile.records, hslots, WalFile.records]

/-- What a crash during a recovery leaves can be recovered. -/
theorem Recoverable.crashed (h : Recoverable data wal) {before rest : List RecoveredPage}
    {record : RecoveredPage} (horder : RecoveryOrder wal (before ++ record :: rest))
    (hdata : data' = Reldb.recoverFile data before ∨
      (Reldb.recoverFile data before).Tears record.pageId data') :
    Recoverable data' (WalManager.new wal).file := by
  have hmem : ∀ r ∈ before ++ record :: rest, r ∈ wal.records := fun r hr =>
    (latestRecords_spec h.lsn_sorted).subset r ((h.order.mp horder).mem_iff.mp hr)
  have hbefore := h.recoverFile fun r hr => hmem r (List.mem_append_left _ hr)
  have hafter : Recoverable data' wal := by
    rcases hdata with rfl | htears
    · exact hbefore
    · exact hbefore.tears ⟨record, hmem record (by simp), rfl⟩ htears
  have hrecords := h.opened_records
  obtain ⟨hslots, -⟩ := WalManager.new_slots h.intact
  refine ⟨?_, ?_, ?_, ?_, ?_⟩
  · rw [hrecords]; exact hafter.size_le
  · rw [hrecords]; exact hafter.page_logged
  · rw [hrecords]; exact hafter.tail_logged
  · rw [hslots]; exact hafter.intact
  · rw [hrecords]; exact hafter.lsn_sorted

/-- A process opened on torn files is the one opened on the log alone. -/
theorem Recoverable.openTorn (h : Recoverable data wal) {order : List RecoveredPage}
    (horder : RecoveryOrder wal order) (poolSize : Nat) :
    Reldb.openTorn poolSize data wal order = openPool poolSize ⟨DataFile.empty, wal⟩ := by
  rw [Reldb.openTorn, (h.recovered (h.order.mp horder)).same]
  rfl

end

/-! ## The invariant -/

/-- Page 0, if it holds anything, registers a root. -/
def Registers (σ : PageStore) : Prop := ∀ b, σ 0 = some b → ∃ root, b = .metadata root

/-- What every state of every run satisfies. -/
def TornState.Inv : TornState → Prop
  | .running db => Running db.base db.tree ∧ LogSound db.tree.bufferPool.records ∧
      EachPrefix Registers db.tree.bufferPool.records
  | .down data wal => Recoverable data wal ∧ LogSound wal.records ∧ EachPrefix Registers wal.records

section

variable {base : Files} {t : BTree}

theorem Running.registers (h : Running base t) (hr : EachPrefix Registers t.bufferPool.records)
    (op : TreeOp) : EachPrefix Registers (op.after t).bufferPool.records := by
  obtain ⟨W, next, hc, hrun⟩ := h.call op
  obtain ⟨R, hR, -⟩ := hc.settled.effect.records
  obtain ⟨ls, hls⟩ := h.exists_scans
  obtain ⟨ls', hls'⟩ := hrun.exists_scans
  rw [hR]
  refine hr.append fun k b hb => ?_
  obtain ⟨root, hmid⟩ := hc.midway h.toStandalone h.metadata_eq h.wal_isSome hR hls hls' k
  rw [hmid.registered] at hb
  exact ⟨root, (Option.some.inj hb).symm⟩

/-- The two pages of a fresh tree, logged one after the other. -/
theorem registers_fresh {bp : BufferPool} (h : bp.log = freshWrites) :
    EachPrefix Registers bp.records := by
  intro n b hb
  have hlog : writesOf bp.records = freshWrites := h
  rw [logged, writesOf, List.map_take, ← writesOf, hlog] at hb
  rcases n with _ | _ | n
  · cases hb
  · cases hb
  · rw [List.take_of_length_le (by simp [freshWrites])] at hb
    exact ⟨1, (Option.some.inj hb).symm⟩

/-- What a crash of a process leaves, between calls of its pool or earlier. -/
theorem BufferPool.Good.torn {bp : BufferPool} (h : Good base bp [] []) (hwal : bp.wal.isSome) {n : Nat}
    {data : TornFile} (hdata : TornAt base bp.io n data) (torn : Nat) :
    Recoverable data (base.afterCrash bp.io n torn).wal ∧
      (base.afterCrash bp.io n torn).wal.records <+: bp.records := by
  obtain ⟨hrestorable, hprefix⟩ := h.afterCrash hwal n torn
  refine ⟨?_, hprefix⟩
  have hclean := hrestorable.recoverable
  cases hdata with
  | clean => exact hclean
  | @torn p page data hnext htears =>
    -- the page about to be written was logged before
    refine hclean.tears ?_ htears
    obtain ⟨w, hw⟩ := Option.isSome_iff_exists.mp hwal
    have hj := h.journaled w hw
    have hne : page ≠ Page.zero := by
      rintro rfl
      exact computeChecksum_zero_ne (hj.summed p _ (List.mem_of_getElem? hnext)).symm
    have htake : bp.io.take (n + 1) = bp.io.take n ++ [.writePage p page] := by
      rw [List.take_add_one, hnext]
      rfl
    have hreplay : base.replay (bp.io.take (n + 1))
        = (base.replay (bp.io.take n)).apply (.writePage p page) := by
      rw [htake, Files.replay, List.foldl_append]
      rfl
    have hafter := hj.ahead (n + 1)
    rw [hreplay] at hafter
    obtain ⟨r, hr, hpage⟩ := hafter.page_logged p (by
      rw [show ((base.replay (bp.io.take n)).apply (.writePage p page)).data.page
        = Function.update (base.replay (bp.io.take n)).data.page p page from rfl,
        Function.update_self]
      exact hne)
    exact ⟨r.recovered, List.mem_map_of_mem hr, hpage⟩

/-- What a crash during a call, or earlier, leaves. -/
theorem Running.torn (h : Running base t) {n : Nat} {data : TornFile}
    (hdata : TornAt base t.bufferPool.io n data) (torn : Nat) :
    Recoverable data (base.afterCrash t.bufferPool.io n torn).wal ∧
      (base.afterCrash t.bufferPool.io n torn).wal.records <+: t.bufferPool.records :=
  h.good.torn h.wal_isSome hdata torn

end

/-- Opening a process on files that can be recovered: a running database, or the same log and the
recovered data file. -/
theorem TornState.Inv.opened {data : TornFile} {wal : WalFile} (h : (down data wal).Inv) (q : Nat) :
    (∀ db bp, Database.new q ⟨DataFile.empty, wal⟩ = .ok db bp → (running db).Inv) ∧
      ∀ e bp, e ≠ .undefinedBehaviour → Database.new q ⟨DataFile.empty, wal⟩ = .error e bp →
        (down ⟨bp.files.data, none⟩ bp.files.wal).Inv := by
  obtain ⟨hrec, hsound, hreg⟩ := h
  have hf := hrec.restorable
  have hopen := openPool_opened hf q
  by_cases hempty : wal.records = []
  · rcases Nat.lt_or_ge q 2 with hq | hq
    · obtain ⟨bp₀, hnew₀⟩ := Database.new_undefined hf hempty hq
      refine ⟨fun db bp hnew => ?_, fun e bp he hnew => ?_⟩
      · rw [hnew₀] at hnew; cases hnew
      · rw [hnew₀] at hnew
        exact absurd (EStateM.Result.error.inj hnew).1.symm he
    · obtain ⟨bp₀, hnew₀, hst, -, hwal, hlog⟩ := Database.new_fresh hf hempty hq
      refine ⟨fun db bp hnew => ?_, fun e bp he hnew => ?_⟩
      · rw [hnew₀] at hnew
        obtain ⟨rfl, -⟩ := EStateM.Result.ok.inj hnew
        exact ⟨⟨hst, rfl, hwal⟩, .fresh hlog, registers_fresh hlog⟩
      · rw [hnew₀] at hnew; cases hnew
  · by_cases herr : q = 0 ∨ logged wal.records 0 = none
    · obtain ⟨what, bp₀, hnew₀, hfiles⟩ := Database.new_error hf hempty herr
      refine ⟨fun db bp hnew => ?_, fun e bp he hnew => ?_⟩
      · rw [hnew₀] at hnew; cases hnew
      · rw [hnew₀] at hnew
        obtain ⟨-, rfl⟩ := EStateM.Result.error.inj hnew
        obtain ⟨hrestorable, hrecords⟩ := hopen.files
        rw [hfiles]
        refine ⟨hrestorable.recoverable, ?_, ?_⟩
        · rw [hrecords]; exact hsound
        · rw [hrecords]; exact hreg
    · rw [not_or] at herr
      obtain ⟨b, hb⟩ := Option.ne_none_iff_exists'.mp herr.2
      obtain ⟨root, rfl⟩ := hreg.whole b hb
      obtain ⟨bp₀, hnew₀, hst, hview, hquiet⟩ :=
        Database.new_existing hf (Nat.pos_iff_ne_zero.mpr herr.1) hsound.whole hb
      refine ⟨fun db bp hnew => ?_, fun e bp he hnew => ?_⟩
      · rw [hnew₀] at hnew
        obtain ⟨rfl, -⟩ := EStateM.Result.ok.inj hnew
        exact ⟨⟨hst, rfl, hquiet.wal_isSome.trans hopen.wal_isSome⟩,
          LogSound.quiet (hopen.records_eq ▸ hsound) hopen.wal_isSome hquiet,
          EachPrefix.quiet (hopen.records_eq ▸ hreg) hopen.wal_isSome hquiet⟩
      · rw [hnew₀] at hnew; cases hnew

/-- **Step lemma.** -/
theorem TornState.Inv.step {s s' : TornState} (h : s.Inv) (hstep : TornStep s s') : s'.Inv := by
  cases hstep with
  | @call db op hop =>
    obtain ⟨hrun, hsound, hreg⟩ := h
    obtain ⟨W, next, -, hrun'⟩ := hrun.call op
    exact ⟨hrun', hrun.logSound hsound op, hrun.registers hreg op⟩
  | @crash db op n data torn hop hdata =>
    obtain ⟨hrun, hsound, hreg⟩ := h
    obtain ⟨W, next, -, hrun'⟩ := hrun.call op
    obtain ⟨hrec, hprefix⟩ := hrun'.torn hdata torn
    exact ⟨hrec, (hrun.logSound hsound op).of_initial hprefix,
      (hrun.registers hreg op).of_initial hprefix⟩
  | @crashRecovering data data' wal before rest record horder hdata =>
    obtain ⟨hrec, hsound, hreg⟩ := h
    have hrecords := hrec.opened_records
    exact ⟨hrec.crashed horder hdata, hrecords.symm ▸ hsound, hrecords.symm ▸ hreg⟩
  | @reopen data wal order q db bp horder hnew =>
    rw [h.1.openTorn horder, ← Database.new_eq] at hnew
    exact (h.opened q).1 db bp hnew
  | @reopenFails data wal order q e bp horder he hnew =>
    rw [h.1.openTorn horder, ← Database.new_eq] at hnew
    exact (h.opened q).2 e bp he hnew

/-- **Run lemma.** -/
theorem TornReaches.inv {s : TornState} (h : TornReaches s) : s.Inv := by
  induction h with
  | start =>
    refine ⟨Files.Restorable.empty.recoverable, .nil, fun n b hb => ?_⟩
    rw [show WalFile.empty.records = [] from rfl, List.take_nil] at hb
    cases hb
  | step _ hnext ih => exact ih.step hnext

/-- **Recovery restores exactly the log**, whatever a run of the database and its crashes have left of
the data file, in whatever order it writes. -/
theorem recovery_restores {data : TornFile} {wal : WalFile} (h : TornReaches (.down data wal))
    {order : List RecoveredPage} (horder : RecoveryOrder wal order) :
    Recovered data (WalManager.new wal) (recoverFile data order) :=
  h.inv.1.recovered (h.inv.1.order.mp horder)

/-- A fresh database, closed after a lookup. -/
theorem recovery_restores_fresh : ∃ data wal, wal.records ≠ [] ∧
    Recovered data (WalManager.new wal)
      (recoverFile data (latestRecords (WalManager.new wal).validRecords)) := by
  obtain ⟨bp, hnew, hst, hview, hwal, hlog⟩ :=
    Database.new_fresh Files.Restorable.empty rfl (le_refl 2)
  have hrun : Running (openPool 2 Files.empty).files ⟨bp, 0, none, 1⟩ := ⟨hst, rfl, hwal⟩
  have hget := BTree.get_answers hst.toReady 0
  have hmiss : OnStore.get bp.view bp.next 1 0 = .ok none := by
    rw [hview]; rfl
  rw [hmiss] at hget
  have hresult : (TreeOp.get 0).result ⟨bp, 0, none, 1⟩ ≠ .error .undefinedBehaviour := by
    rw [TreeOp.result, TreeOp.call, hget.result_ok TreeAnswer.value]
    intro heq
    cases heq
  -- the process ends after its last write
  have hclosed := TornReaches.step
    (.step .start (@TornStep.reopen _ _ [] 2 _ _ .nil hnew))
    (.crash 0 hresult (.clean (n := ((TreeOp.get 0).after ⟨bp, 0, none, 1⟩).bufferPool.io.length)))
  refine ⟨_, _, ?_, recovery_restores hclosed (.refl _)⟩
  obtain ⟨W, next, hc, -⟩ := hrun.call (.get 0)
  obtain ⟨R, hR⟩ := hrun.good.before_crash hrun.wal_isSome hc.settled.effect.io_prefix
    hc.settled.effect.io_prefix.length_le 0
  intro hempty
  have hnil : bp.records = [] := (List.append_eq_nil_iff.mp (hR.trans hempty)).1
  rw [BufferPool.log, hnil] at hlog
  cases hlog

end Reldb
