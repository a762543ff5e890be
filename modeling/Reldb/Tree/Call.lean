import Reldb.Tree.Map
import Mathlib.Data.List.TakeWhile

/-!
# Reldb — what a method call logs, and what a full scan shows

The facts about a single-table tree that do not depend on the tree being intact, and so hold of the
trees recovery makes out of a log cut anywhere: a full scan walks the leaf chain from the leftmost
leaf (`BTree.Ready.fullScan_eq`), and every method call logs a `SingleLog` (`Standalone.call`).
-/

namespace Reldb

open WriteLog BufferPool

/-! ## The full scan -/

/-- `RangeScan(INT64_MIN, INT64_MAX)`. -/
def BTree.fullScan (t : BTree) : Except Exn (List (Int64 × Bytes)) :=
  (outcomeOf (BTree.rangeScan ⊥ ⊤ t)).1

/-- No separator is `INT64_MIN`, so a descent for it keeps to the left. -/
theorem OnStore.findLeafPageId_bot {σ : PageStore} (hs : Sound σ) {d fuel : Nat} {p : PageId}
    (hp : HasLevel σ d p) (hfuel : d < fuel) :
    OnStore.findLeafPageId fuel σ p ⊥ = .ok (leftmostLeaf σ d p) := by
  induction d generalizing fuel p with
  | zero =>
    obtain ⟨chain, cells, hleaf⟩ := hp
    obtain ⟨fuel, rfl⟩ := Nat.exists_eq_succ_of_ne_zero (Nat.ne_of_gt hfuel)
    simp only [OnStore.findLeafPageId, hleaf, leftmostLeaf]
  | succ d ih =>
    obtain ⟨lm, cells, hinternal, hkids⟩ := hp
    obtain ⟨fuel, rfl⟩ := Nat.exists_eq_succ_of_ne_zero (Nat.ne_of_gt (Nat.zero_lt_of_lt hfuel))
    have hleft : childIndex cells ⊥ = 0 := by
      refine List.length_eq_zero_iff.mpr (List.takeWhile_eq_nil_iff.mpr fun hlen hle => ?_)
      exact absurd (of_decide_eq_true hle)
        (not_le.mpr ((hs.separated hinternal).bot_lt _ (List.getElem_mem hlen)))
    simp only [OnStore.findLeafPageId, hinternal, leftmostLeaf, hleft, childAt]
    exact ih (hkids lm List.mem_cons_self) (Nat.lt_of_succ_lt_succ hfuel)

section

variable {base : Files} {t : BTree}

/-- **A full scan reports the leaf chain.** -/
theorem BTree.Ready.fullScan_eq (h : BTree.Ready base t) {ls : List Leaf}
    (hls : Scans t.bufferPool.view t.rootPageId ls) :
    t.fullScan = .ok ((cellsOf ls).map LeafCell.pair) := by
  obtain ⟨d, hd, hlinked⟩ := hls
  obtain ⟨bp, hrun, -, -⟩ := BTree.rangeScan_answers h ⊥ ⊤
  have hfind := OnStore.findLeafPageId_bot h.sound hd (Nat.lt_succ_of_lt (h.level_lt hd))
  have hlen : ls.length ≤ t.bufferPool.next + 1 :=
    (hlinked.length_le fun q hq => by
      obtain ⟨b, hb⟩ := Option.isSome_iff_exists.mp hq
      exact h.good.lt_next hb).trans (Nat.le_succ _)
  have hscan : OnStore.rangeScan t.bufferPool.view t.bufferPool.next t.rootPageId ⊥ ⊤
      = .ok ((cellsOf ls).map LeafCell.pair) := by
    unfold OnStore.rangeScan
    rw [if_neg (not_lt.mpr bot_le), hfind]
    simp only [Except.bind]
    rw [OnStore.scanLeaves_eq hlinked hlen, scanned_all]
    rfl
  rw [BTree.fullScan, hrun, hscan]
  rfl

/-- The leaf chain of a tree that holds a map lists the map. -/
theorem Abstracts.scans {m : KeyMap} (h : Abstracts base t m) :
    ∃ ls, Scans t.bufferPool.view t.rootPageId ls ∧
      IsScan m ⊥ ⊤ ((cellsOf ls).map LeafCell.pair) := by
  obtain ⟨height, tree, hintact, hm⟩ := h.tree
  refine ⟨_, hintact.scans, ?_, fun k v => ?_⟩
  · exact List.pairwise_map.mpr hintact.holds.sorted
  · rw [hm]
    simp only [bot_le, le_top, true_and]
    constructor
    · intro hmem
      obtain ⟨⟨k', v'⟩, hc, heq⟩ := List.mem_map.mp hmem
      obtain ⟨rfl, rfl⟩ := Prod.mk.inj heq
      exact hc
    · exact fun hc => List.mem_map.mpr ⟨_, hc, rfl⟩

/-- A full scan of a tree that holds a map lists the map. -/
theorem Abstracts.fullScan {m : KeyMap} (h : Abstracts base t m) :
    ∃ rows, t.fullScan = .ok rows ∧ IsScan m ⊥ ⊤ rows := by
  obtain ⟨ls, hls, hscan⟩ := h.scans
  exact ⟨_, h.fullScan_eq hls, hscan⟩

/-! ## Calls -/

/-- What a call did: to the tree object, to the store, and to the log. -/
structure Call (base : Files) (t t' : BTree) (W : List PageWrite) (next : PageId) : Prop where
  object : t' = { t with bufferPool := t'.bufferPool, rootPageId := t'.rootPageId }
  settled : Settled base [] t.bufferPool (⟨.ok (), W, next⟩ : Run Unit) t'.bufferPool
  log : SingleLog t.bufferPool.view t.bufferPool.next t.metadataPageId t.rootPageId
    (⟨.ok (), W, next⟩ : Run Unit) t'.rootPageId

/-- A call leaves a single-table tree again. -/
theorem Call.standalone {t' : BTree} {W : List PageWrite} {next : PageId}
    (hc : Call base t t' W next) (h : t.Standalone base) : t'.Standalone base := by
  rw [hc.object]
  exact h.after hc.settled hc.log

/-- A read-only method's call. -/
theorem BTree.Answers.call {α β : Type} {p : Prog BTree α} {res : Except Exn α} (f : α → β)
    (h : t.Standalone base) (hp : BTree.Answers base p t res) :
    Call base t (outcomeOf ((f <$> p) t)).2 [] t.bufferPool.next := by
  obtain ⟨bp, hrun, hgood, hquiet⟩ := hp
  have hafter : (outcomeOf ((f <$> p) t)).2 = t.withPool bp := by
    cases res with
    | ok a => simp only [Functor.map, EStateM.map, hrun, Run.outcome, outcomeOf]
    | error e => simp only [Functor.map, EStateM.map, hrun, Run.outcome, outcomeOf]
  obtain ⟨d, hd⟩ := h.root
  rw [hafter]
  exact ⟨rfl, ⟨hgood, hquiet.toEffect, hquiet.view_eq, hquiet.next_eq⟩,
    RootSplit.single h.sound (.refl hd h.fresh) h.registered⟩

/-- **Every method call on a single-table tree.** -/
theorem BTree.Standalone.call (h : t.Standalone base) (op : TreeOp) :
    ∃ W next, Call base t (op.after t) W next := by
  cases op with
  | get key => exact ⟨_, _, (BTree.get_answers h.toReady key).call TreeAnswer.value h⟩
  | rangeScan low high => exact ⟨_, _, (BTree.rangeScan_answers h.toReady low high).call TreeAnswer.rows h⟩
  | delete key =>
    obtain ⟨bp, hrun, hs⟩ := BTree.delete_run h.toReady key
    have hafter : TreeOp.after t (.delete key) = t.withPool bp := by
      cases hres : (OnStore.delete t.bufferPool.view t.bufferPool.next t.rootPageId key).result with
      | ok a =>
        simp only [TreeOp.after, TreeOp.call, Functor.map, EStateM.map, hrun, Run.outcome_ok hres,
          outcomeOf]
      | error e =>
        simp only [TreeOp.after, TreeOp.call, Functor.map, EStateM.map, hrun,
          Run.outcome_error hres, outcomeOf]
    have hlog := h.delete_log key
    rw [hafter]
    exact ⟨_, _, rfl, ⟨hs.good, hs.effect, hs.view_eq, hs.next_eq⟩, ⟨hlog.oneCommit, hlog.next_le,
      hlog.fresh, hlog.level, hlog.first, hlog.registered, hlog.scans_take⟩⟩
  | insert key value =>
    by_cases hfits : valueSize < value.length
    · have hafter : TreeOp.after t (.insert key value) = t := by
        simp only [TreeOp.after, TreeOp.call, Functor.map, EStateM.map, BTree.insert, hfits, if_true]
        rfl
      obtain ⟨d, hd⟩ := h.root
      rw [hafter]
      exact ⟨[], t.bufferPool.next, rfl, .refl h.good rfl rfl,
        RootSplit.single h.sound (.refl hd h.fresh) h.registered⟩
    · obtain ⟨bp, hrun, hs⟩ := h.insert key (Nat.not_lt.mp hfits)
      have hafter : TreeOp.after t (.insert key value) = { t with
          bufferPool := bp, rootPageId := rootAfter t.rootPageId (t.insertRun key value) } := by
        simp only [TreeOp.after, TreeOp.call, Functor.map, EStateM.map, hrun, BTree.afterInsert,
          rootAfter]
        cases (t.insertRun key value).result <;> rfl
      have hlog := h.insert_log key value
      rw [hafter]
      exact ⟨_, _, rfl, ⟨hs.good, hs.effect, hs.view_eq, hs.next_eq⟩, ⟨hlog.oneCommit, hlog.next_le,
        hlog.fresh, hlog.level, hlog.first, hlog.registered, hlog.scans_take⟩⟩

/-! ## Lookups never fail -/

/-- `Get` and `RangeScan`. -/
def TreeOp.IsLookup : TreeOp → Prop
  | .get _ => True
  | .rangeScan _ _ => True
  | _ => False

theorem BTree.Ready.get_ok (h : BTree.Ready base t) (key : Int64) :
    ∃ v, OnStore.get t.bufferPool.view t.bufferPool.next t.rootPageId key = .ok v := by
  obtain ⟨p, chain, cells, bp, hfind, hleaf, -⟩ := BTree.exists_findLeaf h key
  refine ⟨(cells.find? (·.key == key)).map (·.value), ?_⟩
  simp only [OnStore.get, hfind, Except.bind, hleaf]

theorem BTree.Ready.rangeScan_ok (h : BTree.Ready base t) (low high : Int64) :
    ∃ rows, OnStore.rangeScan t.bufferPool.view t.bufferPool.next t.rootPageId low high
      = .ok rows := by
  unfold OnStore.rangeScan
  by_cases hlt : high < low
  · exact ⟨_, if_pos hlt⟩
  obtain ⟨p, chain, cells, bp, hfind, hleaf, -⟩ := BTree.exists_findLeaf h low
  obtain ⟨ls, hls⟩ := h.sound.chain hleaf
  have hlinked : Linked t.bufferPool.view (some p) none (⟨p, cells⟩ :: ls) := ⟨rfl, chain, hleaf, hls⟩
  have hlen : (⟨p, cells⟩ :: ls : List Leaf).length ≤ t.bufferPool.next + 1 :=
    (hlinked.length_le fun q hq => by
      obtain ⟨b, hb⟩ := Option.isSome_iff_exists.mp hq
      exact h.good.lt_next hb).trans (Nat.le_succ _)
  rw [if_neg hlt, hfind]
  exact ⟨_, OnStore.scanLeaves_eq hlinked hlen low high⟩

theorem BTree.Answers.result_ok {α β : Type} {p : Prog BTree α} {a : α} (f : α → β)
    (hp : BTree.Answers base p t (.ok a)) : (outcomeOf ((f <$> p) t)).1 = .ok (f a) := by
  obtain ⟨bp, hrun, -⟩ := hp
  simp only [Functor.map, EStateM.map, hrun, Run.outcome, outcomeOf]

theorem BTree.Ready.lookup_ok (h : BTree.Ready base t) (op : TreeOp) (hop : op.IsLookup) :
    ∃ a, op.result t = .ok a := by
  cases op with
  | get key =>
    obtain ⟨v, hv⟩ := h.get_ok key
    have hanswers := BTree.get_answers h key
    rw [hv] at hanswers
    exact ⟨_, hanswers.result_ok TreeAnswer.value⟩
  | rangeScan low high =>
    obtain ⟨rows, hrows⟩ := h.rangeScan_ok low high
    have hanswers := BTree.rangeScan_answers h low high
    rw [hrows] at hanswers
    exact ⟨_, hanswers.result_ok TreeAnswer.rows⟩
  | insert key value => cases hop
  | delete key => cases hop

end

end Reldb
