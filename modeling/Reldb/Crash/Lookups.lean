import Reldb.Crash.Runs

/-!
# Reldb — lookups after crashes

A split logs the new right sibling first and the page it was split from next; from then until the
parent (or the registered root) is logged, the keys that moved are on the leaf chain and nowhere a
descent looks. A crash in between makes that permanent: scans show keys that lookups miss.

A crash that lets at most one page-changing record of the call survive, or all of them, leaves an
intact tree. `CleanCrash` is that condition.
-/

namespace Reldb

open WriteLog BufferPool

/-- The page-changing records among those logged after `before`. -/
def changesAfter (before after : List RecoveredPage) : List PageWrite :=
  changes (logged before) (writesOf (after.drop before.length))

/-- A crash lets at most one of the call's page-changing records survive, or all of them. -/
def CleanCrash : DbState → DbEvent → Prop
  | .running db, .crash op n torn =>
    let before := db.tree.bufferPool.records
    let survived := changesAfter before (db.crashed op n torn).wal.records
    let all := changesAfter before (op.after db.tree).bufferPool.records
    survived.length ≤ 1 ∨ survived.length = all.length
  | _, _ => True

/-! ## Trees that hold a map -/

section

variable {base : Files} {t : BTree} {m : KeyMap}

/-- The map an intact tree holds. -/
theorem Intact.exists_map {σ : PageStore} {root : PageId} {h : Nat} {tree : Tree h}
    (hi : Intact σ root tree) : ∃ m : KeyMap, ∀ k v, m k = some v ↔ ⟨k, v⟩ ∈ tree.cells :=
  ⟨fun k => (tree.cells.find? (·.key == k)).map (·.value), fun k v =>
    find?_key hi.holds.sorted k v⟩

end

/-! ## Logs cut with few changes -/

/-- A log that is short or begins with a new page, cut where at most one change has been made or
all have: nothing was written, or one new page, or everything. -/
theorem replay_take_of_few {σ : PageStore} {W : List PageWrite}
    (hfirst : BeginsFresh σ W ∨ W.length ≤ 1) {m : Nat}
    (hfew : (changes σ (W.take m)).length ≤ 1 ∨
      (changes σ (W.take m)).length = (changes σ W).length) :
    replay σ (W.take m) = σ ∨ (∃ w, σ w.1 = none ∧ replay σ (W.take m) = write σ w) ∨
      replay σ (W.take m) = replay σ W := by
  rcases hfew with hone | hall
  · rcases hfirst with ⟨w, W', rfl, hw⟩ | hshort
    · cases m with
      | zero => exact .inl rfl
      | succ m =>
        -- the new page is a change, so nothing after it is
        have hne : σ w.1 ≠ some w.2 := by rw [hw]; exact nofun
        rw [List.take_succ_cons, changes, if_neg hne, List.length_cons] at hone
        have hnil : changes (write σ w) (W'.take m) = [] :=
          List.length_eq_zero_iff.mp (Nat.le_zero.mp (Nat.le_of_succ_le_succ hone))
        refine .inr (.inl ⟨w, hw, ?_⟩)
        rw [List.take_succ_cons, replay_cons, ← replay_changes, hnil]
        rfl
    · cases m with
      | zero => exact .inl rfl
      | succ m =>
        rw [List.take_of_length_le (hshort.trans (Nat.succ_le_succ (Nat.zero_le m)))]
        exact .inr (.inr rfl)
  · right; right
    rw [← replay_changes, ← replay_changes σ W,
      (changes_take σ W m).eq_of_length hall]

/-- A store with an intact tree, registered on page 0. -/
def HoldsTree (σ : PageStore) : Prop :=
  ∃ root, σ 0 = some (.metadata root) ∧ ∃ h, ∃ tree : Tree h, Intact σ root tree

section

variable {σ : PageStore} {W : List PageWrite}

theorem HoldsTree.write_fresh {w : PageWrite} (h : HoldsTree σ) (hw : σ w.1 = none) :
    HoldsTree (write σ w) := by
  obtain ⟨root, hroot, height, tree, hintact⟩ := h
  refine ⟨root, ?_, height, tree, hintact.write_other fun b hb => by rw [hw] at hb; cases hb⟩
  rw [write_of_ne, hroot]
  rintro h0
  rw [← h0, hroot] at hw
  cases hw

/-- A log between two intact trees, cut where few changes have been made. -/
theorem HoldsTree.replay_take {m : Nat} (h : HoldsTree σ) (h' : HoldsTree (replay σ W))
    (hfirst : BeginsFresh σ W ∨ W.length ≤ 1)
    (hfew : (changes σ (W.take m)).length ≤ 1 ∨
      (changes σ (W.take m)).length = (changes σ W).length) :
    HoldsTree (replay σ (W.take m)) := by
  rcases replay_take_of_few hfirst hfew with heq | ⟨w, hw, heq⟩ | heq
  · rwa [heq]
  · rw [heq]
    exact h.write_fresh hw
  · rwa [heq]

theorem Abstracts.holdsTree {base : Files} {t : BTree} {m : KeyMap} (h : Abstracts base t m)
    (hmeta : t.metadataPageId = 0) : HoldsTree t.bufferPool.view := by
  obtain ⟨height, tree, hintact, -⟩ := h.tree
  exact ⟨_, hmeta ▸ h.registered, height, tree, hintact⟩

end

/-! ## The invariant of runs with clean crashes -/

/-- What every state of a run with clean crashes satisfies besides `DbState.Inv`. -/
def DbState.Whole : DbState → Prop
  | .running db => ∃ m, Abstracts db.base db.tree m
  | .down f => f.wal.records = [] ∨ HoldsTree (logged f.wal.records)

/-- The log a clean crash leaves. -/
theorem Running.crashed_whole {db : Database} {m : KeyMap} {op : TreeOp} {n torn : Nat}
    (hrun : Running db.base db.tree) (hm : Abstracts db.base db.tree m)
    (hclean : CleanCrash (.running db) (.crash op n torn)) :
    HoldsTree (logged (db.crashed op n torn).wal.records) := by
  obtain ⟨W, next, hc, hrun'⟩ := hrun.call op
  obtain ⟨-, R, k, hR, hrecords⟩ := hrun.crashed op n torn
  obtain ⟨R', hR', hstut⟩ := hc.settled.effect.records
  obtain rfl := List.append_cancel_left (hR.symm.trans hR')
  have hview := hrun.good.view_eq_logged hrun.wal_isSome
  have hall : Stutters db.tree.bufferPool.view (writesOf R) W := hview ▸ hstut hrun.wal_isSome
  obtain ⟨j, hcut⟩ := hall.take k
  have hstore : logged (db.crashed op n torn).wal.records
      = replay db.tree.bufferPool.view (W.take j) := by
    rw [hrecords, logged_append, ← hview, writesOf, List.map_take, ← hcut.replay_eq]
    rfl
  have hfew : (changes db.tree.bufferPool.view (W.take j)).length ≤ 1 ∨
      (changes db.tree.bufferPool.view (W.take j)).length
        = (changes db.tree.bufferPool.view W).length := by
    rw [← hcut.changes_eq, ← hall.changes_eq]
    simpa only [CleanCrash, changesAfter, hrecords, hR, List.drop_left, ← hview, writesOf,
      List.map_take] using hclean
  rw [hstore]
  refine (hm.holdsTree hrun.metadata_eq).replay_take ?_ hc.log.first hfew
  have hafter := (hm.step op).abstracts.holdsTree hrun'.metadata_eq
  rwa [hc.settled.view_eq] at hafter

/-- **Step**, for runs with clean crashes. -/
theorem DbState.Whole.step {s s' : DbState} {e : DbEvent} (hinv : s.Inv) (h : s.Whole)
    (hclean : CleanCrash s e) (hstep : s.step e = some s') : s'.Whole := by
  rcases step_cases hstep with ⟨db, op, rfl, rfl, rfl⟩ | ⟨db, op, n, torn, rfl, rfl, rfl⟩ |
    ⟨f, q, rfl, rfl, hopen⟩
  · obtain ⟨m, hm⟩ := h
    exact ⟨_, (hm.step op).abstracts⟩
  · obtain ⟨m, hm⟩ := h
    exact .inr (hinv.1.crashed_whole hm hclean)
  · obtain ⟨hf, hlog, hmeta⟩ := hinv
    rcases reopen_cases hf hlog hmeta hopen with ⟨db, rfl, hre⟩ | ⟨f', rfl, -, hrecords⟩
    · rcases hre.origin with ⟨-, bp, heq, hview⟩ | ⟨hview, hroot⟩
      · refine ⟨fun _ => none, ?_⟩
        have hst := hre.running.toStandalone
        rw [heq] at hst ⊢
        exact (Abstracts.fresh hst hview).1
      · rcases h with hempty | ⟨root, hroot', height, tree, hintact⟩
        · rw [hempty] at hroot
          cases hroot
        · obtain ⟨rfl⟩ : db.tree.rootPageId = root := by
            rw [hroot] at hroot'
            injection hroot' with hroot'
            injection hroot'
          obtain ⟨m, hm⟩ := hintact.exists_map
          exact ⟨m, hre.running.toStandalone, height, tree, hview ▸ hintact, hm⟩
    · rw [Whole, hrecords]
      exact h

/-- **Run**, for runs with clean crashes. -/
theorem Reaches.whole {s : DbState} (h : Reaches CleanCrash s) : s.Whole := by
  induction h with
  | start => exact .inl rfl
  | step before hclean hnext ih => exact ih.step before.inv hclean hnext

/-- The state after a sequence of events. -/
def DbState.run (s : DbState) : List DbEvent → Option DbState
  | [] => some s
  | e :: events => (s.step e).bind fun s' => s'.run events

theorem Reaches.run {s s' : DbState} {events : List DbEvent} (h : Reaches (fun _ _ => True) s)
    (hrun : s.run events = some s') : Reaches (fun _ _ => True) s' := by
  induction events generalizing s with
  | nil => exact Option.some.inj hrun ▸ h
  | cons e events ih =>
    obtain ⟨s₁, hstep, hrest⟩ := Option.bind_eq_some_iff.mp hrun
    exact ih (.step h trivial hstep) hrest

end Reldb
