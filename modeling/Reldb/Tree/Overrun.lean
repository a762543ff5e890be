import Reldb.Tree.Room
import Reldb.Tree.Call

/-!
# Reldb — runs that stay inside their pages

Of all calls on a tree only one writes past a page: an `Insert` into a tree of as many levels as the pool
has frames, of a key its leaf of 29 cells does not hold (`TreeOp.Overruns`). The invariant `Paged` rules
out every other way there: pages hold no more cells than fit, and a leaf past the split threshold means
that the pool has no frame to spare.

Step lemma: `Paged.step`. Run lemma: `Paged.run`.
-/

namespace Reldb

open WriteLog BufferPool

/-- The tree after a sequence of calls, every exception caught. -/
def BTree.afterAll (t : BTree) (ops : List TreeOp) : BTree := ops.foldl TreeOp.after t

/-- The call an overrun takes. -/
def TreeOp.Overruns (t : BTree) : TreeOp → Prop
  | .insert key value => value.length ≤ valueSize ∧
      HasLevel t.bufferPool.view (t.bufferPool.poolSize - 1) t.rootPageId ∧
      OnStore.NoRoom t.bufferPool.view (t.bufferPool.next + 1) t.rootPageId key
  | _ => False

/-- Every cell the call writes is inside its page, and the pages it leaves hold no more than fit. -/
structure TreeOp.StaysInside (t : BTree) (op : TreeOp) : Prop where
  writes : op.result t ≠ .error .undefinedBehaviour
  pages : InPages (op.after t).bufferPool.view

/-- What holds of a tree between calls, besides that it is intact. -/
structure Paged (base : Files) (t : BTree) : Prop where
  abstracts : ∃ m, Abstracts base t m
  pages : InPages t.bufferPool.view
  levels : ∀ d, HasLevel t.bufferPool.view d t.rootPageId → d < t.bufferPool.poolSize
  /-- With a frame to spare no leaf outgrows the split threshold. -/
  spare : ∀ d, HasLevel t.bufferPool.view d t.rootPageId → d + 1 < t.bufferPool.poolSize → t.Small

section

variable {base : Files} {t t' : BTree}

/-- An insert with no room in its leaf is one into a tree that takes all frames for its levels. -/
theorem Paged.overruns_iff (h : Paged base t) {d : Nat}
    (hd : HasLevel t.bufferPool.view d t.rootPageId) {key : Int64} {value : Bytes} :
    (TreeOp.insert key value).Overruns t ↔ value.length ≤ valueSize ∧ d < t.bufferPool.poolSize ∧
      OnStore.NoRoom t.bufferPool.view (t.bufferPool.next + 1) t.rootPageId key := by
  have hlt := h.levels d hd
  constructor
  · rintro ⟨hfits, -, hroom⟩
    exact ⟨hfits, hlt, hroom⟩
  · rintro ⟨hfits, -, hroom⟩
    refine ⟨hfits, ?_, hroom⟩
    -- a frame to spare would have kept the leaf small
    have hfull : ¬ d + 1 < t.bufferPool.poolSize := by
      intro hspare
      obtain ⟨m, habs⟩ := h.abstracts
      obtain ⟨height, tree, hintact, -⟩ := habs.tree
      obtain ⟨A, l, B, chain, hfound, hfind⟩ := hintact.findLeaf habs.toPoolReady.fresh key
      obtain ⟨p, chain', cells, hfind', hleaf, hcap, -⟩ := hroom
      rw [hfind] at hfind'
      cases hfind'
      rw [hfound.leaf] at hleaf
      cases hleaf
      have hsmall := (h.spare d hd hspare).lt_capacity hintact (l := l) (by rw [hfound.leaves]; simp)
      omega
    rwa [show t.bufferPool.poolSize - 1 = d by omega]

/-- A call that leaves the view and the root alone. -/
theorem Paged.of_quiet (h : Paged base t) {bp : BufferPool} (hq : Quiet t.bufferPool bp)
    (habs : ∃ m, Abstracts base (t.withPool bp) m) :
    Paged base (t.withPool bp) where
  abstracts := habs
  pages := by
    show InPages bp.view
    rw [hq.view_eq]
    exact h.pages
  levels d hd := by
    show d < bp.poolSize
    rw [hq.poolSize_eq]
    exact h.levels d (hq.view_eq ▸ hd)
  spare d hd hspare := by
    have hd' : HasLevel t.bufferPool.view d t.rootPageId := hq.view_eq ▸ hd
    have hsmall := h.spare d hd' (hq.poolSize_eq ▸ hspare)
    show ∀ ls, Scans bp.view t.rootPageId ls → _
    rw [hq.view_eq]
    exact hsmall

theorem BTree.Answers.after {α : Type} {p : Prog BTree α} {res : Except Exn α}
    (hp : BTree.Answers base p t res) {op : TreeOp} {f : α → TreeAnswer} (hcall : op.call = f <$> p) :
    ∃ bp, op.after t = t.withPool bp ∧ Quiet t.bufferPool bp := by
  obtain ⟨bp, hrun, -, hquiet⟩ := hp
  refine ⟨bp, ?_, hquiet⟩
  rw [TreeOp.after, hcall]
  cases res with
  | ok a => simp only [Functor.map, EStateM.map, hrun, Run.outcome, outcomeOf]
  | error e => simp only [Functor.map, EStateM.map, hrun, Run.outcome, outcomeOf]

theorem Paged.answers {α : Type} (h : Paged base t) {p : Prog BTree α} {res : Except Exn α}
    (hp : BTree.Answers base p t res) {op : TreeOp} {f : α → TreeAnswer} (hcall : op.call = f <$> p)
    (hstep : ∃ m, Abstracts base (op.after t) m) : Paged base (op.after t) := by
  obtain ⟨bp, hafter, hquiet⟩ := hp.after hcall
  rw [hafter] at hstep ⊢
  exact h.of_quiet hquiet hstep

theorem TreeOp.after_delete {bp : BufferPool} {key : Int64} {found : Bool}
    (h : BTree.delete key t = .ok found (t.withPool bp)) :
    TreeOp.after t (.delete key) = t.withPool bp ∧
      TreeOp.result t (.delete key) = .ok (.deleted found) := by
  have hcall : TreeOp.call (.delete key) t = .ok (.deleted found) (t.withPool bp) := by
    simp only [TreeOp.call, Functor.map, EStateM.map, h]
  exact ⟨by rw [TreeOp.after, hcall]; rfl, by rw [TreeOp.result, hcall]; rfl⟩

theorem Paged.delete (h : Paged base t) (key : Int64) : Paged base (TreeOp.after t (.delete key)) ∧
    TreeOp.result t (.delete key) ≠ .error .undefinedBehaviour := by
  obtain ⟨m, habs⟩ := h.abstracts
  have hstep := habs.step (.delete key)
  obtain ⟨height, tree, hintact, -⟩ := habs.tree
  obtain ⟨found, hres, -, -, -, tree', hintact', -⟩ := hintact.delete habs.toPoolReady.fresh key
  obtain ⟨bp, hrun, hs⟩ := BTree.delete_run habs.toReady key
  rw [Run.outcome_ok hres] at hrun
  obtain ⟨hafter, hresult⟩ := TreeOp.after_delete hrun
  have hlevel : HasLevel bp.view height t.rootPageId := hs.view_eq ▸ hintact'.hasLevel
  have hsize : bp.poolSize = t.bufferPool.poolSize := hs.effect.poolSize_eq
  refine ⟨⟨⟨_, hstep.abstracts⟩, ?_, fun d hd => ?_, fun d hd hspare => ?_⟩, by rw [hresult]; simp⟩
  · rw [hafter]
    show InPages bp.view
    rw [hs.view_eq]
    exact (OnStore.delete_inPage h.pages key).store h.pages
  · rw [hafter] at hd ⊢
    obtain rfl := hlevel.unique hd
    show height < bp.poolSize
    exact hsize ▸ h.levels _ hintact.hasLevel
  · -- the tree is as high as it was
    have hheight : height + 1 < t.bufferPool.poolSize := by
      rw [hafter] at hd hspare
      obtain rfl := hlevel.unique hd
      exact hsize ▸ hspare
    exact hstep.small (h.spare _ hintact.hasLevel hheight) ⟨_, hresult⟩

/-- What `Insert` leaves and returns, once its value fits. -/
theorem TreeOp.after_insert {bp : BufferPool} {key : Int64} {value : Bytes}
    (h : BTree.insert key value t = t.afterInsert (t.insertRun key value) bp) :
    TreeOp.after t (.insert key value) = { t with
        bufferPool := bp, rootPageId := rootAfter t.rootPageId (t.insertRun key value) } ∧
      TreeOp.result t (.insert key value) = (t.insertRun key value).result.map fun _ => .done := by
  rw [TreeOp.after, TreeOp.result]
  simp only [TreeOp.call, Functor.map, EStateM.map, h, BTree.afterInsert, rootAfter]
  cases (t.insertRun key value).result <;> exact ⟨rfl, rfl⟩

theorem Paged.insert (h : Paged base t) (key : Int64) (value : Bytes) :
    Paged base (TreeOp.after t (.insert key value)) ∧
      (TreeOp.result t (.insert key value) = .error .undefinedBehaviour ↔
        (TreeOp.insert key value).Overruns t) := by
  obtain ⟨m, habs⟩ := h.abstracts
  have hstep := habs.step (.insert key value)
  by_cases hfits : valueSize < value.length
  · rw [TreeOp.after, TreeOp.result, TreeOp.insert_tooLong hfits]
    exact ⟨h, iff_of_false (fun he => by cases he) fun ho => absurd ho.1 (Nat.not_le.mpr hfits)⟩
  have hfits := Nat.not_lt.mp hfits
  obtain ⟨height, tree, hintact, -⟩ := habs.tree
  obtain ⟨bp, hrun, hs⟩ := habs.toStandalone.insert key hfits
  obtain ⟨hafter, hresult⟩ := TreeOp.after_insert hrun
  have hlevel := hintact.hasLevel
  have hsize : bp.poolSize = t.bufferPool.poolSize := hs.effect.poolSize_eq
  have hlt := h.levels _ hlevel
  have hpages : InPages (TreeOp.after t (.insert key value)).bufferPool.view := by
    rw [hafter]
    show InPages bp.view
    rw [hs.view_eq]
    refine (OnStore.insert_inPage h.pages (fun root' τ n w hw => ?_) key value).store h.pages
    rw [List.mem_singleton.mp hw]
    trivial
  have hover : t.insertRun key value = .fail t.bufferPool.next .undefinedBehaviour ↔
      (TreeOp.insert key value).Overruns t := by
    have hd := Nat.lt_succ_of_lt (habs.toPoolReady.level_lt hlevel)
    rw [h.overruns_iff hlevel, BTree.insertRun, OnStore.insert_overruns_iff habs.sound hlevel hd]
    exact ⟨fun hrest => ⟨hfits, hrest⟩, And.right⟩
  have herror : ∀ r : Except Exn PageId, (r.map fun _ => TreeAnswer.done) = .error .undefinedBehaviour ↔
      r = .error .undefinedBehaviour := by
    rintro (e | a) <;> simp [Except.map]
  rw [hresult, herror, ← hover]
  rcases hintact.insert_levels (registerMetadata t.metadataPageId) t.metadataPageId habs.sound
      habs.pool_pos habs.toPoolReady.fresh habs.registered id
      (fun root' _ _ _ => ⟨.metadata root', rfl⟩) key value with
    ⟨e, hidle, -⟩ | ⟨height', tree', hin, hheight⟩
  · -- nothing was written
    have hidle : t.insertRun key value = .fail t.bufferPool.next e := hidle
    rw [hidle] at hs hafter
    have hquiet : Quiet t.bufferPool bp := ⟨hs.effect, hs.view_eq, hs.next_eq⟩
    have hafter : TreeOp.after t (.insert key value) = t.withPool bp := hafter
    refine ⟨?_, ?_⟩
    · rw [hafter] at hstep ⊢
      exact h.of_quiet hquiet ⟨_, hstep.abstracts⟩
    · rw [hidle]
      simp [Run.fail]
  · have hlevel' : HasLevel bp.view height' (rootAfter t.rootPageId (t.insertRun key value)) := by
      rw [hs.view_eq]
      exact hin.intact.hasLevel
    refine ⟨⟨⟨_, hstep.abstracts⟩, hpages, fun d hd => ?_, fun d hd hspare => ?_⟩, ?_⟩
    · rw [hafter] at hd ⊢
      obtain rfl := hlevel'.unique hd
      show height' < bp.poolSize
      omega
    · -- the pool had a frame to spare before, and the call returned
      have hbefore : height + 1 < t.bufferPool.poolSize ∧ height' + 1 < t.bufferPool.poolSize := by
        rw [hafter] at hd hspare
        obtain rfl := hlevel'.unique hd
        have hspare : height' + 1 < bp.poolSize := hspare
        omega
      refine hstep.small (h.spare _ hlevel hbefore.1) ?_
      rcases hin.result with hok | ⟨-, hfull, -⟩
      · exact ⟨.done, by rw [hresult, BTree.insertRun, hok]; rfl⟩
      · omega
    · refine iff_of_false (fun he => ?_) fun hfail => ?_
      · rcases hin.result with hok | ⟨hsplit, -⟩
        · rw [BTree.insertRun, hok] at he
          cases he
        · rw [BTree.insertRun, hsplit] at he
          cases he
      · have hres := congrArg Run.result hfail
        rcases hin.result with hok | ⟨hsplit, -⟩
        · rw [BTree.insertRun, hok] at hres
          cases hres
        · rw [BTree.insertRun, hsplit] at hres
          cases hres

/-- **Step lemma.** A call keeps the invariant, and writes past a page exactly when it overruns. -/
theorem Paged.step (h : Paged base t) (op : TreeOp) : Paged base (op.after t) ∧
    (op.result t = .error .undefinedBehaviour ↔ op.Overruns t) := by
  obtain ⟨m, habs⟩ := h.abstracts
  have hlookup : op.IsLookup → op.result t ≠ .error .undefinedBehaviour := by
    intro hop he
    obtain ⟨a, ha⟩ := habs.toReady.lookup_ok op hop
    rw [ha] at he
    cases he
  cases op with
  | insert key value => exact h.insert key value
  | delete key => exact ⟨(h.delete key).1, iff_of_false (h.delete key).2 id⟩
  | get key =>
    exact ⟨h.answers (BTree.get_answers habs.toReady key) (f := .value) rfl
      ⟨_, (habs.step (.get key)).abstracts⟩, iff_of_false (hlookup trivial) id⟩
  | rangeScan low high =>
    exact ⟨h.answers (BTree.rangeScan_answers habs.toReady low high) (f := .rows) rfl
      ⟨_, (habs.step (.rangeScan low high)).abstracts⟩, iff_of_false (hlookup trivial) id⟩

/-- **Run lemma.** -/
theorem Paged.run (h : Paged base t) (ops : List TreeOp) : Paged base (t.afterAll ops) := by
  induction ops generalizing t with
  | nil => exact h
  | cons op ops ih => exact ih (h.step op).1

end

/-- **Cells stay inside their pages** in a run of calls on a tree freshly constructed on a pool of two
frames or more, calls that throw included, exactly when no call of the run overruns. -/
theorem cells_inside_iff {poolSize : Nat} (hpool : 2 ≤ poolSize) {wal : Option WalManager}
    (hwal : wal = none ∨ wal = some (WalManager.new WalFile.empty)) {t : BTree} {bp : BufferPool}
    (hnew : BTree.new (BufferPool.new poolSize (DiskManager.new DataFile.empty) wal) = .ok t bp)
    (ops : List TreeOp) :
    (∀ k op, ops[k]? = some op → TreeOp.StaysInside (t.afterAll (ops.take k)) op) ↔
      ∀ k op, ops[k]? = some op → ¬ TreeOp.Overruns (t.afterAll (ops.take k)) op := by
  obtain ⟨hgood, -⟩ := fresh_good poolSize hwal
  obtain ⟨bp, hnew₀, hs, -, hview, hst⟩ := BTree.new_fresh hgood hpool rfl
  rw [hnew₀] at hnew
  cases hnew
  obtain ⟨habs, hsmall⟩ := Abstracts.fresh hst hview
  have hlevel : HasLevel bp.view 0 1 := hview ▸ fresh_intact.hasLevel
  have hsize : bp.poolSize = poolSize := hs.effect.poolSize_eq
  have hpaged : Paged (BufferPool.new poolSize (DiskManager.new DataFile.empty) wal).files
      ⟨bp, 0, none, 1⟩ := by
    refine ⟨⟨_, habs⟩, ?_, fun d hd => ?_, fun _ _ _ => hsmall⟩
    · show InPages bp.view
      rw [hview]
      refine InPages.replay (fun p b hp => by cases hp) fun w hw => ?_
      simp only [freshWrites, List.mem_cons, List.not_mem_nil, or_false] at hw
      rcases hw with rfl | rfl
      exacts [Nat.zero_le _, trivial]
    · obtain rfl := hlevel.unique hd
      show 0 < bp.poolSize
      omega
  refine forall_congr' fun k => forall_congr' fun op => forall_congr' fun hop => ?_
  obtain ⟨hafter, hover⟩ := (hpaged.run (ops.take k)).step op
  exact ⟨fun hin ho => hin.writes (hover.mpr ho), fun ho => ⟨fun he => ho (hover.mp he), hafter.pages⟩⟩

theorem cells_inside_iff_two : ∃ t bp,
    BTree.new (BufferPool.new 2 (DiskManager.new DataFile.empty) none) = .ok t bp ∧
      ((∀ k op, [TreeOp.insert 5 [1], .delete 5][k]? = some op →
          TreeOp.StaysInside (t.afterAll ([TreeOp.insert 5 [1], .delete 5].take k)) op) ↔
        ∀ k op, [TreeOp.insert 5 [1], .delete 5][k]? = some op →
          ¬ TreeOp.Overruns (t.afterAll ([TreeOp.insert 5 [1], .delete 5].take k)) op) := by
  obtain ⟨hgood, -⟩ := fresh_good 2 (.inl rfl)
  obtain ⟨bp, hnew, -⟩ := BTree.new_fresh hgood (le_refl 2) rfl
  exact ⟨_, bp, hnew, cells_inside_iff (le_refl 2) (.inl rfl) hnew _⟩

/-! ## The insert after the 29th -/

/-- The store, the next page id and the root after keys were inserted with empty values, by the store
version of `Insert` on a pool of two frames. -/
def imageAfter (image : PageStore × PageId × PageId) (keys : List Int64) :
    PageStore × PageId × PageId :=
  keys.foldl (fun s key =>
    let r := OnStore.insert 2 (registerMetadata 0) s.1 s.2.1 s.2.2 key []
    (r.store s.1, r.next, rootAfter s.2.2 r)) image

def BTree.image (t : BTree) : PageStore × PageId × PageId :=
  (t.bufferPool.view, t.bufferPool.next, t.rootPageId)

def insertsOf (keys : List Int64) : List TreeOp := keys.map fun key => .insert key []

theorem BTree.Standalone.image_afterAll {base : Files} {t : BTree} (h : t.Standalone base)
    (hmeta : t.metadataPageId = 0) (hsize : t.bufferPool.poolSize = 2) (keys : List Int64) :
    (t.afterAll (insertsOf keys)).image = imageAfter t.image keys ∧
      (t.afterAll (insertsOf keys)).Standalone base ∧
      (t.afterAll (insertsOf keys)).metadataPageId = 0 ∧
      (t.afterAll (insertsOf keys)).bufferPool.poolSize = 2 := by
  induction keys generalizing t with
  | nil => exact ⟨rfl, h, hmeta, hsize⟩
  | cons key keys ih =>
    obtain ⟨bp, hrun, hs⟩ := h.insert key (show [].length ≤ valueSize from Nat.zero_le _)
    obtain ⟨hafter, -⟩ := TreeOp.after_insert hrun
    have hstand := h.after hs (h.insert_log key [])
    have himage : (TreeOp.after t (.insert key [])).image = imageAfter t.image [key] := by
      rw [hafter, BTree.image, hs.view_eq, hs.next_eq, BTree.insertRun, hmeta, hsize]
      rfl
    have hrest := ih (t := TreeOp.after t (.insert key []))
      (by rw [hafter]; exact hstand) (by rw [hafter]; exact hmeta)
      (by rw [hafter]; exact hs.effect.poolSize_eq.trans hsize)
    rw [himage] at hrest
    exact hrest

/-- On a pool of two frames the tree stops splitting its leaves at two levels. Keys inserted in order
from 0 on then pile up in the last leaf, and key 31 goes past its page. -/
def risingKeys : List Int64 := (List.range 32).map Int64.ofNat

theorem rising_overruns :
    let image := imageAfter (freshStore, 2, 1) (risingKeys.take 31)
    (match (OnStore.insert 2 (registerMetadata 0) image.1 image.2.1 image.2.2 31 []).result with
      | .error e => decide (e = .undefinedBehaviour)
      | .ok _ => false) = true := by
  decide +kernel

theorem cells_not_inside_rising :
    ∃ t bp, BTree.new (BufferPool.new 2 (DiskManager.new DataFile.empty) none) = .ok t bp ∧
      ¬ ∀ k op, (insertsOf risingKeys)[k]? = some op →
        TreeOp.StaysInside (t.afterAll ((insertsOf risingKeys).take k)) op := by
  obtain ⟨hgood, -⟩ := fresh_good 2 (.inl rfl)
  obtain ⟨bp, hnew, hs, -, hview, hst⟩ := BTree.new_fresh hgood (le_refl 2) rfl
  refine ⟨_, bp, hnew, fun hall => (hall 31 (.insert 31 []) (by decide)).writes ?_⟩
  have htake : (insertsOf risingKeys).take 31 = insertsOf (risingKeys.take 31) := by
    rw [insertsOf, insertsOf, List.map_take]
  obtain ⟨himage, hst', hmeta, hsize⟩ := hst.image_afterAll rfl hs.effect.poolSize_eq
    (risingKeys.take 31)
  have hstart : BTree.image ⟨bp, 0, none, 1⟩ = (freshStore, 2, 1) := by
    rw [BTree.image, hview, hs.next_eq]
    rfl
  rw [hstart] at himage
  rw [htake]
  obtain ⟨bp', hrun, -⟩ := hst'.insert 31 (show [].length ≤ valueSize from Nat.zero_le _)
  rw [(TreeOp.after_insert hrun).2, BTree.insertRun, hmeta, hsize]
  have hover := rising_overruns
  rw [← himage] at hover
  simp only [BTree.image] at hover
  split at hover
  · next e he =>
    rw [he, of_decide_eq_true hover]
    rfl
  · cases hover

end Reldb
