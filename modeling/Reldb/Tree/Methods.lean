import Reldb.Tree.Refine
import Reldb.Tree.Logs

/-!
# Reldb — the methods of a `BTree` between calls

`BTree.Ready` is what a tree object satisfies between two calls of its methods: the pool's
invariant with no guard alive, a sound view, and a root that is one. Each public method, called on a
ready tree, does what its store version says and leaves a ready tree.
-/

namespace Reldb

open WriteLog BufferPool

/-- A descent over complete levels arrives at a leaf. -/
theorem OnStore.findLeafPageId_ok {σ : PageStore} {fuel d : Nat} {cur : PageId}
    (hcur : HasLevel σ d cur) (hfuel : d < fuel) (key : Int64) :
    ∃ p chain cells, OnStore.findLeafPageId fuel σ cur key = .ok p ∧
      σ p = some (.leaf chain cells) := by
  induction fuel generalizing d cur with
  | zero => omega
  | succ fuel ih =>
    cases d with
    | zero =>
      obtain ⟨chain, cells, hleaf⟩ := hcur
      exact ⟨cur, chain, cells, by simp only [OnStore.findLeafPageId, hleaf], hleaf⟩
    | succ d =>
      obtain ⟨lm, cells, hinternal, hkids⟩ := hcur
      simp only [OnStore.findLeafPageId, hinternal]
      exact ih (hkids _ (childAt_mem lm cells (childIndex cells key))) (by omega)

/-- A pool between two calls, over a sound store. -/
structure PoolReady (base : Files) (bp : BufferPool) : Prop where
  good : Good base bp [] []
  pool_pos : 0 < bp.poolSize
  sound : Sound bp.view

namespace PoolReady

variable {base : Files} {bp bp' : BufferPool} {d : Nat} {root : PageId}

theorem fresh (h : PoolReady base bp) (p : PageId) (hp : bp.next ≤ p) : bp.view p = none :=
  h.good.view_next hp

theorem level_lt (h : PoolReady base bp) (hroot : HasLevel bp.view d root) : d < bp.next :=
  hroot.lt_of_bounded fun q hq => by
    obtain ⟨b, hb⟩ := Option.isSome_iff_exists.mp hq
    exact h.good.lt_next hb

theorem of_quiet (h : PoolReady base bp) (hgood : Good base bp' [] []) (hq : Quiet bp bp') :
    PoolReady base bp' :=
  ⟨hgood, hq.poolSize_eq ▸ h.pool_pos, hq.view_eq ▸ h.sound⟩

theorem of_settled {α : Type} {r : Run α} (h : PoolReady base bp) (hs : Settled base [] bp r bp')
    (hsound : Sound (r.store bp.view)) : PoolReady base bp' :=
  ⟨hs.good, hs.effect.poolSize_eq ▸ h.pool_pos, hs.view_eq ▸ hsound⟩

/-! ## Methods on the pool -/

theorem findLeaf_reads (h : PoolReady base bp) (hroot : HasLevel bp.view d root) (key : Int64) :
    Reads base (findLeafPageId (bp.diskPageCount + 1) root key) bp
      (OnStore.findLeafPageId (bp.next + 1) bp.view root key) :=
  findLeafPageId_reads h.good h.pool_pos hroot (Nat.lt_succ_of_lt (h.level_lt hroot)) key

theorem insertRecursive (h : PoolReady base bp) (hroot : HasLevel bp.view d root) (key : Int64)
    (value : Bytes) :
    Refines base [] (Reldb.insertRecursive (bp.diskPageCount + 1) root key value) bp
      (OnStore.insertRecursive (bp.next + 1) bp.poolSize bp.view bp.next root key value) :=
  insertRecursive_refines h.good hroot (Nat.lt_succ_of_lt (h.level_lt hroot))
    (fun _ hg => by cases hg) rfl key value

end PoolReady

namespace BTree

variable {base : Files} {t : BTree} {d : Nat}

/-- A tree object between two calls. -/
structure Ready (base : Files) (t : BTree) : Prop extends PoolReady base t.bufferPool where
  root : ∃ d, HasLevel t.bufferPool.view d t.rootPageId

/-- The tree over another state of its pool. -/
def withPool (t : BTree) (bp : BufferPool) : BTree := { t with bufferPool := bp }

theorem onPool_run {α : Type} {p : Prog BufferPool α} {r : Run α} {bp : BufferPool}
    (h : p t.bufferPool = r.outcome bp) : onPool p t = r.outcome (t.withPool bp) := by
  unfold onPool
  rw [h]
  cases hr : r.result with
  | ok a => simp only [Run.outcome_ok hr]; rfl
  | error e => simp only [Run.outcome_error hr]; rfl

/-- A read-only method of a tree comes to `res`. -/
def Answers {α : Type} (base : Files) (p : Prog BTree α) (t : BTree) (res : Except Exn α) : Prop :=
  ∃ bp, p t = (⟨res, [], t.bufferPool.next⟩ : Run α).outcome (t.withPool bp) ∧
    Good base bp [] [] ∧ Quiet t.bufferPool bp

theorem Answers.onPool {α : Type} {p : Prog BufferPool α} {res : Except Exn α}
    (h : Reads base p t.bufferPool res) : Answers base (onPool p) t res := by
  obtain ⟨bp, hrun, hgood, hquiet⟩ := h
  exact ⟨bp, onPool_run hrun, hgood, hquiet⟩

theorem Ready.withPool (h : Ready base t) {bp : BufferPool} (hgood : Good base bp [] [])
    (hq : Quiet t.bufferPool bp) : Ready base (t.withPool bp) :=
  ⟨h.toPoolReady.of_quiet hgood hq, by
    obtain ⟨d, hd⟩ := h.root
    exact ⟨d, show HasLevel bp.view d t.rootPageId from hq.view_eq ▸ hd⟩⟩

theorem findLeaf_answers (h : Ready base t) (key : Int64) :
    Answers base (findLeaf key) t
      (OnStore.findLeafPageId (t.bufferPool.next + 1) t.bufferPool.view t.rootPageId key) := by
  obtain ⟨d, hd⟩ := h.root
  exact Answers.onPool (h.toPoolReady.findLeaf_reads hd key)

/-- A method that descends first: the rest runs on the leaf the store version names. -/
theorem exists_findLeaf (h : Ready base t) (key : Int64) : ∃ p chain cells bp,
    OnStore.findLeafPageId (t.bufferPool.next + 1) t.bufferPool.view t.rootPageId key = .ok p ∧
      t.bufferPool.view p = some (.leaf chain cells) ∧
      findLeaf key t = .ok p (t.withPool bp) ∧ Good base bp [] [] ∧ Quiet t.bufferPool bp := by
  obtain ⟨d, hd⟩ := h.root
  obtain ⟨p, chain, cells, hfind, hleaf⟩ := OnStore.findLeafPageId_ok hd
    (Nat.lt_succ_of_lt (h.level_lt hd)) key
  obtain ⟨bp, hrun, hgood, hquiet⟩ := findLeaf_answers h key
  rw [hfind] at hrun
  exact ⟨p, chain, cells, bp, hfind, hleaf, hrun, hgood, hquiet⟩

theorem get_answers (h : Ready base t) (key : Int64) :
    Answers base (BTree.get key) t
      (OnStore.get t.bufferPool.view t.bufferPool.next t.rootPageId key) := by
  obtain ⟨p, chain, cells, bp, hfind, hleaf, hrun, hgood, hquiet⟩ := exists_findLeaf h key
  have hb : bp.view p = some (.leaf chain cells) := by rw [hquiet.view_eq, hleaf]
  have hpool : 0 < bp.poolSize := by rw [hquiet.poolSize_eq]; exact h.pool_pos
  obtain ⟨f, bp₁, hfetch, h₁, hquiet₁⟩ := hgood.fetchPage hb List.not_mem_nil hpool
  obtain ⟨hgood₂, hquiet₂⟩ := h₁.release List.not_mem_nil
  refine ⟨_, ?_, hgood₂, (hquiet.trans hquiet₁).trans hquiet₂⟩
  have hpage := h₁.page List.mem_cons_self (hquiet₁.view_eq ▸ hb)
  unfold BTree.get
  rw [Prog.bind_ok hrun]
  simp only [onPool, BTree.withPool, Prog.bind_ok hfetch, PageGuard.withGuard, Prog.bind_ok hpage,
    OnStore.get, hfind, hleaf, Except.bind, Run.outcome, Prog.pure_run]

theorem rangeScan_answers (h : Ready base t) (low high : Int64) :
    Answers base (rangeScan low high) t
      (OnStore.rangeScan t.bufferPool.view t.bufferPool.next t.rootPageId low high) := by
  unfold BTree.rangeScan OnStore.rangeScan
  by_cases hlt : high < low
  · simp only [hlt, if_true]
    exact ⟨t.bufferPool, rfl, h.good, .refl _⟩
  simp only [hlt, if_false]
  obtain ⟨p, chain, cells, bp, hfind, hleaf, hrun, hgood, hquiet⟩ := exists_findLeaf h low
  obtain ⟨ls, hls⟩ := h.sound.chain hleaf
  have hlinked : Linked bp.view (some p) none (⟨p, cells⟩ :: ls) := by
    rw [hquiet.view_eq]
    exact ⟨rfl, chain, hleaf, hls⟩
  have hpool : 0 < bp.poolSize := by rw [hquiet.poolSize_eq]; exact h.pool_pos
  obtain ⟨bp₂, hscan, hgood₂, hquiet₂⟩ := Answers.onPool (t := t.withPool bp)
    (scanLeaves_reads (bp.diskPageCount + 1) hgood hpool hlinked low high)
  refine ⟨bp₂, ?_, hgood₂, hquiet.trans hquiet₂⟩
  rw [Prog.bind_ok hrun, hfind]
  simp only [Except.bind, ← hquiet.view_eq, ← hquiet.next_eq]
  exact hscan

/-! ## Methods that write -/

/-- What `Delete` does with the leaf it has found. -/
def deleteFrom (leafId : PageId) (key : Int64) : Prog BufferPool Bool := do
  let some guard ← fetchPage leafId | throw .undefinedBehaviour
  guard.withGuard do
    let .leaf next cells ← guard.page | throw .undefinedBehaviour
    match cells.findIdx? (·.key == key) with
    | none => return false
    | some i =>
      guard.write (.leaf next (cells.eraseIdx i))
      guard.markDirty
      return true

/-- `Delete` does what its store version says. -/
theorem delete_run (h : Ready base t) (key : Int64) : ∃ bp,
    delete key t = (OnStore.delete t.bufferPool.view t.bufferPool.next t.rootPageId key).outcome
        (t.withPool bp) ∧
      Settled base [] t.bufferPool
        (OnStore.delete t.bufferPool.view t.bufferPool.next t.rootPageId key) bp := by
  obtain ⟨p, chain, cells, bp, hfind, hleaf, hrun, hgood, hquiet⟩ := exists_findLeaf h key
  have hb : bp.view p = some (.leaf chain cells) := by rw [hquiet.view_eq, hleaf]
  have hpool : 0 < bp.poolSize := by rw [hquiet.poolSize_eq]; exact h.pool_pos
  have hrefines : Refines base [] (deleteFrom p key) bp
      (OnStore.delete t.bufferPool.view t.bufferPool.next t.rootPageId key) := by
    obtain ⟨f, bp₁, hfetch, h₁, hquiet₁⟩ := hgood.fetchPage hb List.not_mem_nil hpool
    refine Refines.of_quiet hquiet₁ ?_ (Prog.bind_ok hfetch)
    refine UnderGuard.withGuard ?_
    unfold UnderGuard
    rw [Prog.bind_ok (h₁.page List.mem_cons_self (hquiet₁.view_eq ▸ hb))]
    simp only [OnStore.delete, hfind, hleaf]
    have hnext : t.bufferPool.next = bp₁.next := by rw [hquiet₁.next_eq, hquiet.next_eq]
    cases cells.findIdx? (·.key == key) with
    | none => exact ⟨bp₁, rfl, .inl (.refl h₁ rfl hnext)⟩
    | some i =>
      obtain ⟨bp₂, bp₃, hwrite, hdirty, h₃, e₃, v₃, n₃⟩ :=
        h₁.writeDirty List.mem_cons_self (.leaf chain (cells.eraseIdx i))
      refine ⟨bp₃, ?_, .inr ⟨h₃, ⟨[], _, rfl, e₃⟩, v₃, n₃.trans hnext.symm⟩⟩
      simp only [Prog.bind_ok hwrite, Prog.bind_ok hdirty]
      rfl
  obtain ⟨bp₂, hrun₂, hs⟩ := hrefines
  refine ⟨bp₂, ?_, hs.of_quiet hquiet⟩
  unfold BTree.delete
  rw [Prog.bind_ok hrun]
  exact onPool_run (t := t.withPool bp) hrun₂

/-- How this tree registers a new root. -/
def registerRoot (t : BTree) (newRoot : PageId) : Prog BufferPool Unit :=
  match t.onRootChanged with
  | some callback => callback newRoot
  | none => writeMetadata t.metadataPageId newRoot

/-- What `Insert` does with the split its root came back with. -/
def growRoot (t : BTree) : Option SplitResult → Prog BTree Unit
  | none => pure ()
  | some split => do
    let newRootId ← onPool (newRoot t.rootPageId split)
    modify fun t => { t with rootPageId := newRootId }
    match t.onRootChanged with
    | some callback => onPool (callback newRootId)
    | none => onPool (writeMetadata t.metadataPageId newRootId)

/-- The state `Insert` leaves the tree object in. -/
def afterInsert (t : BTree) (r : Run PageId) (bp : BufferPool) : EStateM.Result Exn BTree Unit :=
  match r.result with
  | .ok root => .ok () { t with bufferPool := bp, rootPageId := root }
  | .error e => .error e (t.withPool bp)

/-- **`Insert` does what its store version says**, when the registration of a new root does. -/
theorem insert_run (h : Ready base t) (key : Int64) {value : Bytes}
    (hvalue : value.length ≤ valueSize) (register : PageId → PageStore → PageId → Run Unit)
    (hreg : ∀ root' W bp, RootSplit t.bufferPool.view t.bufferPool.next t.rootPageId root' W bp.next →
      PoolReady base bp → bp.poolSize = t.bufferPool.poolSize →
      bp.view = replay t.bufferPool.view W →
      Refines base [] (t.registerRoot root') bp (register root' bp.view bp.next) ∧
        (register root' bp.view bp.next).result = .ok ()) :
    ∃ bp, BTree.insert key value t = t.afterInsert
        (OnStore.insert t.bufferPool.poolSize register t.bufferPool.view t.bufferPool.next
          t.rootPageId key value) bp ∧
      Settled base [] t.bufferPool
        (OnStore.insert t.bufferPool.poolSize register t.bufferPool.view t.bufferPool.next
          t.rootPageId key value) bp := by
  obtain ⟨d, hroot⟩ := h.root
  obtain ⟨bp₁, hrun₁, hs₁⟩ := h.toPoolReady.insertRecursive hroot key value
  have hlog := insertRecursive_log_root t.bufferPool.poolSize h.sound hroot h.fresh key value
  have hready₁ : PoolReady base bp₁ := h.toPoolReady.of_settled hs₁ (hlog.oneCommit.sound h.sound)
  have hon := onPool_run hrun₁
  have hstart : BTree.insert key value t =
      (onPool (Reldb.insertRecursive (t.bufferPool.diskPageCount + 1) t.rootPageId key value) >>=
        t.growRoot) t := by
    unfold BTree.insert
    rw [if_neg (Nat.not_lt.mpr hvalue)]
    rfl
  rw [hstart]
  set r := OnStore.insertRecursive (t.bufferPool.next + 1) t.bufferPool.poolSize
    t.bufferPool.view t.bufferPool.next t.rootPageId key value with hr
  cases hres : r.result with
  | error e =>
    rw [Run.outcome_error hres] at hon
    rw [insert_of_error hr.symm hres]
    exact ⟨bp₁, Prog.bind_error hon, hs₁.good, hs₁.effect, hs₁.view_eq, hs₁.next_eq⟩
  | ok split =>
    rw [Run.outcome_ok hres] at hon
    rw [Prog.bind_ok hon]
    cases split with
    | none =>
      rw [insert_of_none hr.symm hres]
      exact ⟨bp₁, rfl, hs₁.good, hs₁.effect, hs₁.view_eq, hs₁.next_eq⟩
    | some split =>
      obtain ⟨hsplit, -⟩ := hlog.rootSplit h.sound hroot h.fresh hres
      set W := r.writes ++ [newRootWrite r.next t.rootPageId split] with hW
      rw [insert_of_split h.pool_pos hr.symm hres hW]
      obtain ⟨bp₂, hrun₂, hs₂⟩ := newRoot_refines hready₁.good t.rootPageId split
      have hnew : OnStore.newRoot bp₁.poolSize bp₁.next t.rootPageId split
          = ⟨.ok r.next, [newRootWrite r.next t.rootPageId split], r.next + 1⟩ := by
        rw [hs₁.next_eq]
        exact if_neg (Nat.pos_iff_ne_zero.mp hready₁.pool_pos)
      rw [hnew] at hrun₂ hs₂
      have hview₂ : bp₂.view = replay t.bufferPool.view W := by
        rw [hs₂.view_eq, hs₁.view_eq, hW, replay_append]
        rfl
      have heffect₂ : Effect t.bufferPool bp₂ W := hs₁.effect.trans hs₂.effect
      have hready₂ : PoolReady base bp₂ :=
        ⟨hs₂.good, heffect₂.poolSize_eq ▸ h.pool_pos,
          hview₂ ▸ hsplit.oneCommit.sound h.sound⟩
      obtain ⟨⟨bp₃, hrun₃, hs₃⟩, hok⟩ := hreg r.next W bp₂ (hs₂.next_eq ▸ hsplit) hready₂
        heffect₂.poolSize_eq hview₂
      rw [hview₂, hs₂.next_eq] at hrun₃ hs₃ hok
      refine ⟨bp₃, ?_, hs₃.good, heffect₂.trans hs₃.effect, ?_, hs₃.next_eq⟩
      · have hon₂ := onPool_run (t := t.withPool bp₁) hrun₂
        have hset : (modify fun t => { t with rootPageId := r.next } : Prog BTree Unit)
            ((t.withPool bp₁).withPool bp₂)
            = .ok () { t with bufferPool := bp₂, rootPageId := r.next } := rfl
        rw [Run.outcome_ok hok] at hrun₃
        simp only [growRoot, Prog.bind_ok hon₂, Prog.bind_ok hset, afterInsert, hok, Except.map]
        unfold registerRoot at hrun₃
        cases hcb : t.onRootChanged with
        | some callback =>
          simp only [hcb] at hrun₃
          simp only [onPool, hrun₃]
        | none =>
          simp only [hcb] at hrun₃
          simp only [onPool, hrun₃]
      · rw [hs₃.view_eq, hview₂]
        exact (replay_append _ W _).symm

end BTree

end Reldb
