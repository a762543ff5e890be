import Reldb.Crash.Truncate

/-!
# Reldb — runs of a database with crashes in between

A state of a run is a running database or the two files a process left behind. A crash ends the
process in the middle of a call: the files are those after the first `n` file writes of the call.
Reopening a database may throw, and then leaves the files.

A step that C++ gives no meaning to (a page written past its end, a page of an invalid guard) has no
next state.
-/

namespace Reldb

open WriteLog BufferPool

inductive DbState where
  | running (db : Database)
  | down (files : Files)

inductive DbEvent where
  | call (op : TreeOp)
  | crash (op : TreeOp) (n torn : Nat)
  | reopen (poolSize : Nat)

/-- The database after a call. -/
def Database.after (db : Database) (op : TreeOp) : Database := { db with tree := op.after db.tree }

/-- The files a crash in the middle of a call leaves, `n` file writes into it. -/
def Database.crashed (db : Database) (op : TreeOp) (n torn : Nat) : Files :=
  db.base.afterCrash (op.after db.tree).bufferPool.io (db.tree.bufferPool.io.length + n) torn

def DbState.step : DbState → DbEvent → Option DbState
  | .running db, .call op =>
    if op.result db.tree = .error .undefinedBehaviour then none else some (.running (db.after op))
  | .running db, .crash op n torn =>
    if op.result db.tree = .error .undefinedBehaviour then none
    else some (.down (db.crashed op n torn))
  | .down files, .reopen poolSize =>
    match Database.new poolSize files with
    | .ok db _ => some (.running db)
    | .error .undefinedBehaviour _ => none
    | .error _ bp => some (.down bp.files)
  | _, _ => none

/-- The states of the runs from empty files whose every step satisfies `P`. -/
inductive Reaches (P : DbState → DbEvent → Prop) : DbState → Prop where
  | start : Reaches P (.down Files.empty)
  | step {s s' : DbState} {e : DbEvent} (before : Reaches P s) (allowed : P s e)
      (next : s.step e = some s') : Reaches P s'

/-- The log of a state. -/
def DbState.records : DbState → List RecoveredPage
  | .running db => db.tree.bufferPool.files.wal.records
  | .down files => files.wal.records

/-! ## What a step can do -/

theorem DbState.step_cases {s s' : DbState} {e : DbEvent} (h : s.step e = some s') :
    (∃ db op, s = .running db ∧ e = .call op ∧ s' = .running (db.after op)) ∨
    (∃ db op n torn, s = .running db ∧ e = .crash op n torn ∧ s' = .down (db.crashed op n torn)) ∨
    ∃ f q, s = .down f ∧ e = .reopen q ∧
      ((∃ db bp, Database.new q f = .ok db bp ∧ s' = .running db) ∨
        ∃ x bp, x ≠ .undefinedBehaviour ∧ Database.new q f = .error x bp ∧
          s' = .down bp.files) := by
  cases s with
  | running db =>
    cases e with
    | call op =>
      simp only [step] at h
      split at h
      · cases h
      · exact .inl ⟨db, op, rfl, rfl, (Option.some.inj h).symm⟩
    | crash op n torn =>
      simp only [step] at h
      split at h
      · cases h
      · exact .inr (.inl ⟨db, op, n, torn, rfl, rfl, (Option.some.inj h).symm⟩)
    | reopen q => cases h
  | down f =>
    cases e with
    | call op => cases h
    | crash op n torn => cases h
    | reopen q =>
      refine .inr (.inr ⟨f, q, rfl, rfl, ?_⟩)
      simp only [step] at h
      split at h
      · next db bp heq => exact .inl ⟨db, bp, heq, (Option.some.inj h).symm⟩
      · cases h
      · next x bp hne heq =>
        exact .inr ⟨x, bp, fun hx => hne hx, heq,
          (Option.some.inj h).symm⟩

/-! ## Sound logs -/

/-- Every prefix of the log amounts to a store with `P`. -/
def EachPrefix (P : PageStore → Prop) (records : List RecoveredPage) : Prop :=
  ∀ n, P (logged (records.take n))

/-- Every prefix of the log amounts to a sound store. -/
def LogSound (records : List RecoveredPage) : Prop := ∀ n, Sound (logged (records.take n))

section

variable {A R : List RecoveredPage} {P : PageStore → Prop}

theorem EachPrefix.of_initial (h : EachPrefix P A) (hp : R <+: A) : EachPrefix P R := by
  obtain ⟨rest, rfl⟩ := hp
  intro n
  rcases Nat.le_total n R.length with hn | hn
  · have := h n
    rwa [List.take_append_of_le_length hn] at this
  · have := h R.length
    rwa [List.take_left', ← List.take_of_length_le hn] at this
    rfl

theorem EachPrefix.append (h : EachPrefix P A) (hR : ∀ k, P (logged (A ++ R.take k))) :
    EachPrefix P (A ++ R) := by
  intro n
  rcases Nat.le_total n A.length with hn | hn
  · rw [List.take_append_of_le_length hn]
    exact h n
  · rw [List.take_append, List.take_of_length_le hn]
    exact hR _

theorem EachPrefix.whole (h : EachPrefix P A) : P (logged A) := by
  have := h A.length
  rwa [List.take_length] at this

/-- Images logged once more change nothing. -/
theorem EachPrefix.quiet {bp bp' : BufferPool} (h : EachPrefix P bp.records)
    (hwal : bp.wal.isSome) (hq : Quiet bp bp') : EachPrefix P bp'.records := by
  obtain ⟨R, hR, hstut⟩ := hq.records
  rw [hR]
  refine h.append fun k => ?_
  have hsame := (hstut hwal).forall_take (P := P) (fun m => by simpa using h.whole) k
  rwa [logged_append, writesOf, List.map_take]

theorem LogSound.nil : LogSound [] := fun n => by
  rw [List.take_nil]
  exact empty_sound

theorem LogSound.of_initial (h : LogSound A) (hp : R <+: A) : LogSound R :=
  EachPrefix.of_initial h hp

theorem LogSound.append (h : LogSound A) (hR : ∀ k, Sound (logged (A ++ R.take k))) :
    LogSound (A ++ R) :=
  EachPrefix.append h hR

theorem LogSound.whole (h : LogSound A) : Sound (logged A) := EachPrefix.whole h

theorem LogSound.quiet {bp bp' : BufferPool} (h : LogSound bp.records) (hwal : bp.wal.isSome)
    (hq : Quiet bp bp') : LogSound bp'.records :=
  EachPrefix.quiet h hwal hq

end

theorem LogSound.fresh {bp : BufferPool} (h : bp.log = freshWrites) : LogSound bp.records := by
  intro n
  have hlog : writesOf bp.records = freshWrites := h
  rw [logged, writesOf, List.map_take, ← writesOf, hlog]
  exact fresh_log.sound_take empty_sound n

/-! ## The invariant of all runs -/

/-- What every state of every run satisfies. -/
def DbState.Inv : DbState → Prop
  | .running db => Running db.base db.tree ∧ LogSound db.tree.bufferPool.records
  | .down f => f.Restorable ∧ LogSound f.wal.records ∧
      ∀ b, logged f.wal.records 0 = some b → ∃ root, b = .metadata root

section

variable {base : Files} {t : BTree} {db : Database} {op : TreeOp}

theorem Running.logSound (h : Running base t) (hs : LogSound t.bufferPool.records) (op : TreeOp) :
    LogSound (op.after t).bufferPool.records := by
  obtain ⟨W, next, hc, -⟩ := h.call op
  obtain ⟨R, hR, -⟩ := hc.settled.effect.records
  rw [hR]
  refine hs.append fun k => ?_
  obtain ⟨m, hm⟩ := hc.cut h.toStandalone h.wal_isSome hR k
  rw [hm]
  exact hc.log.oneCommit.sound_take h.sound m

/-- What a crash in the middle of a call leaves: the records of the calls before it and some first
records of its own. -/
theorem Running.crashed (h : Running db.base db.tree) (op : TreeOp) (n torn : Nat) :
    (db.crashed op n torn).Restorable ∧ ∃ R k,
      (op.after db.tree).bufferPool.records = db.tree.bufferPool.records ++ R ∧
        (db.crashed op n torn).wal.records = db.tree.bufferPool.records ++ R.take k := by
  obtain ⟨W, next, hc, hrun⟩ := h.call op
  obtain ⟨hrestorable, hlater⟩ := hrun.good.afterCrash hrun.wal_isSome
    (db.tree.bufferPool.io.length + n) torn
  obtain ⟨R', hR'⟩ := h.good.before_crash h.wal_isSome hc.settled.effect.io_prefix
    (Nat.le_add_right _ n) torn
  obtain ⟨R, hR, -⟩ := hc.settled.effect.records
  refine ⟨hrestorable, R, R'.length, hR, ?_⟩
  have hR'' : (db.crashed op n torn).wal.records = db.tree.bufferPool.records ++ R' := hR'.symm
  have hpre : db.tree.bufferPool.records ++ R' <+: db.tree.bufferPool.records ++ R := by
    rw [← hR'', ← hR]
    exact hlater
  rw [hR'', List.prefix_iff_eq_take.mp ((List.prefix_append_right_inj _).mp hpre), List.length_take]
  congr 1
  rw [List.prefix_iff_eq_take.mp ((List.prefix_append_right_inj _).mp hpre)]
  simp

/-- Both scans of a call: the one before it and the one after it. -/
theorem Running.exists_scans (h : Running base t) :
    ∃ ls, Scans t.bufferPool.view t.rootPageId ls := by
  obtain ⟨d, hd⟩ := h.root
  exact h.sound.exists_scan hd

/-- What a database opened on `f` is: a fresh tree, or the tree `f`'s log registers. -/
structure Reopened (f : Files) (db : Database) : Prop where
  running : Running db.base db.tree
  logSound : LogSound db.tree.bufferPool.records
  origin : (f.wal.records = [] ∧ ∃ bp, db.tree = ⟨bp, 0, none, 1⟩ ∧ bp.view = freshStore) ∨
    (db.tree.bufferPool.view = logged f.wal.records ∧
      logged f.wal.records 0 = some (.metadata db.tree.rootPageId))

/-- What opening a database on restorable files comes to. -/
theorem Database.new_cases {f : Files} (hf : f.Restorable) (hlog : LogSound f.wal.records)
    (hmeta : ∀ b, logged f.wal.records 0 = some b → ∃ root, b = .metadata root) (q : Nat) :
    (∃ bp, Database.new q f = .error .undefinedBehaviour bp) ∨
    (∃ db bp, Database.new q f = .ok db bp ∧ Reopened f db) ∨
    ∃ what bp, Database.new q f = .error (.runtimeError what) bp ∧ bp.files.Restorable ∧
      bp.files.wal.records = f.wal.records := by
  have hopen := openPool_opened hf q
  by_cases hempty : f.wal.records = []
  · rcases Nat.lt_or_ge q 2 with hq | hq
    · exact .inl (new_undefined hf hempty hq)
    · obtain ⟨bp, hnew, hst, hview, hwal, hbp⟩ := new_fresh hf hempty hq
      exact .inr (.inl ⟨_, bp, hnew, ⟨hst, rfl, hwal⟩, .fresh hbp,
        .inl ⟨hempty, bp, rfl, hview⟩⟩)
  · by_cases herr : q = 0 ∨ logged f.wal.records 0 = none
    · obtain ⟨what, bp, hnew, hfiles⟩ := new_error hf hempty herr
      obtain ⟨hrestorable, hrecords⟩ := hopen.files
      exact .inr (.inr ⟨what, bp, hnew, hfiles ▸ hrestorable, hfiles ▸ hrecords⟩)
    · rw [not_or] at herr
      obtain ⟨b, hb⟩ := Option.ne_none_iff_exists'.mp herr.2
      obtain ⟨root, rfl⟩ := hmeta b hb
      obtain ⟨bp, hnew, hst, hview, hquiet⟩ :=
        new_existing hf (Nat.pos_iff_ne_zero.mpr herr.1) hlog.whole hb
      have hwal := hquiet.wal_isSome.trans hopen.wal_isSome
      exact .inr (.inl ⟨_, bp, hnew, ⟨hst, rfl, hwal⟩,
        LogSound.quiet (hopen.records_eq ▸ hlog) hopen.wal_isSome hquiet, .inr ⟨hview, hb⟩⟩)

/-- The two ways a run goes on from files. -/
theorem DbState.reopen_cases {s' : DbState} {f : Files} {q : Nat} (hf : f.Restorable)
    (hlog : LogSound f.wal.records)
    (hmeta : ∀ b, logged f.wal.records 0 = some b → ∃ root, b = .metadata root)
    (hopen : (∃ db bp, Database.new q f = .ok db bp ∧ s' = .running db) ∨
      ∃ x bp, x ≠ .undefinedBehaviour ∧ Database.new q f = .error x bp ∧ s' = .down bp.files) :
    (∃ db, s' = .running db ∧ Reopened f db) ∨
      ∃ f', s' = .down f' ∧ f'.Restorable ∧ f'.wal.records = f.wal.records := by
  rcases Database.new_cases hf hlog hmeta q with
    ⟨bp, hnew⟩ | ⟨db, bp, hnew, hre⟩ | ⟨what, bp, hnew, hrestorable, hrecords⟩
  all_goals rcases hopen with ⟨db', bp', hnew', rfl⟩ | ⟨x, bp', hx, hnew', rfl⟩
  all_goals rw [hnew] at hnew'
  · cases hnew'
  · obtain ⟨rfl, -⟩ := EStateM.Result.error.inj hnew'
    exact absurd rfl hx
  · obtain ⟨rfl, -⟩ := EStateM.Result.ok.inj hnew'
    exact .inl ⟨db, rfl, hre⟩
  · cases hnew'
  · cases hnew'
  · obtain ⟨-, rfl⟩ := EStateM.Result.error.inj hnew'
    exact .inr ⟨_, rfl, hrestorable, hrecords⟩

/-- **Step**, for the invariant of all runs. -/
theorem DbState.Inv.step {s s' : DbState} {e : DbEvent} (h : s.Inv) (hstep : s.step e = some s') :
    s'.Inv := by
  rcases step_cases hstep with ⟨db, op, rfl, rfl, rfl⟩ | ⟨db, op, n, torn, rfl, rfl, rfl⟩ |
    ⟨f, q, rfl, rfl, hopen⟩
  · obtain ⟨hrun, hlog⟩ := h
    obtain ⟨W, next, hc, hrun'⟩ := hrun.call op
    exact ⟨hrun', hrun.logSound hlog op⟩
  · obtain ⟨hrun, hlog⟩ := h
    obtain ⟨hrestorable, R, k, hR, hrecords⟩ := hrun.crashed op n torn
    refine ⟨hrestorable, ?_, fun b hb => ?_⟩
    · rw [hrecords]
      refine (hrun.logSound hlog op).of_initial ?_
      rw [hR]
      exact (List.prefix_append_right_inj _).mpr (List.take_prefix _ _)
    · obtain ⟨W, next, hc, hrun'⟩ := hrun.call op
      obtain ⟨ls, hls⟩ := hrun.exists_scans
      obtain ⟨ls', hls'⟩ := hrun'.exists_scans
      obtain ⟨root, hmid⟩ := hc.midway hrun.toStandalone hrun.metadata_eq hrun.wal_isSome hR hls
        hls' k
      rw [hrecords, hmid.registered] at hb
      exact ⟨root, (Option.some.inj hb).symm⟩
  · obtain ⟨hf, hlog, hmeta⟩ := h
    rcases reopen_cases hf hlog hmeta hopen with ⟨db, rfl, hre⟩ | ⟨f', rfl, hf', hrecords⟩
    · exact ⟨hre.running, hre.logSound⟩
    · refine ⟨hf', ?_⟩
      rw [hrecords]
      exact ⟨hlog, hmeta⟩

/-- **Run**, for the invariant of all runs. -/
theorem Reaches.inv {P : DbState → DbEvent → Prop} {s : DbState} (h : Reaches P s) : s.Inv := by
  induction h with
  | start =>
    refine ⟨Files.Restorable.empty, .nil, fun b hb => ?_⟩
    cases hb
  | step _ _ hnext ih => exact ih.step hnext

end

end Reldb
