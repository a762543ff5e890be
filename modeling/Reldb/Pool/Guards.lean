import Reldb.Pool.Cache

/-!
# Reldb — the pool is a transparent cache

A client of the pool: a list of guard variables and the operations it can perform on them and on the
pool, in any order. Over every run, whatever is evicted, flushed and loaded again on the way, a guard
shows the bytes some guard last left on its page.

Invariant: `Session.Good`. Step lemma: `PoolOp.run_good`. Run lemma: `runAll_good`.
-/

namespace Reldb

/-- The client writes a whole page through `page()`. -/
def PageGuard.store (g : PageGuard) (page : Page) : Prog BufferPool Unit := fun bp =>
  .ok () (bp.setFrame g.frame { bp.frames g.frame with page })

/-- A client: the pool and the guard variables that exist, each holding a guard or being invalid.
`left` is no state of the program: it records what was last left on each page, stamps aside. -/
structure Session where
  pool : BufferPool
  guards : List (Option PageGuard)
  left : PageId → Option Page

/-- One use of the pool by a client. A guard variable is named by its number. -/
inductive PoolOp where
  /-- `PageGuard g = pool.NewPage();` -/
  | newPage
  /-- `PageGuard g = pool.FetchPage(pageId);` -/
  | fetchPage (pageId : PageId)
  /-- `*g.page() = page; g.MarkDirty();` -/
  | mutate (g : Nat) (page : Page)
  /-- `to = std::move(from);` -/
  | move (source target : Nat)
  /-- `g` goes out of scope. -/
  | release (g : Nat)
  | flushPage (pageId : PageId)
  | flushAll

namespace Session

/-- A pool just opened on a data file, with a log or without one. -/
def start (poolSize : Nat) (file : DataFile) (wal : Option WalManager) : Session where
  pool := BufferPool.new poolSize (DiskManager.new file) wal
  guards := []
  left pageId := (file.read pageId).map Page.unstamped

/-- The valid guards. -/
def live (s : Session) : List PageGuard := s.guards.filterMap id

/-- A new guard variable, initialised with what the pool returned. -/
def declare (s : Session) (g : Option PageGuard) (pool : BufferPool) : Session :=
  { s with pool, guards := s.guards ++ [g] }

/-- `Release` of a guard variable: nothing happens when it is invalid. -/
def releaseGuard (g : Option PageGuard) (pool : BufferPool) : BufferPool :=
  match g with
  | some g => g.release pool
  | none => pool

end Session

/-- What one use of the pool does. Using a guard variable that does not exist, or the page of an invalid
guard, has no meaning in the source. -/
def PoolOp.run : PoolOp → Prog Session Unit
  | .newPage => fun s =>
    match BufferPool.newPage s.pool with
    | .ok none pool => .ok () (s.declare none pool)
    | .ok (some g) pool =>
      .ok () { s.declare (some g) pool with
        left := Function.update s.left g.pageId (some (BufferPool.blank g.pageId)) }
    | .error e pool => .error e { s with pool }
  | .fetchPage pageId => fun s =>
    match BufferPool.fetchPage pageId s.pool with
    | .ok g pool => .ok () (s.declare g pool)
    | .error e pool => .error e { s with pool }
  | .mutate i page => fun s =>
    match s.guards[i]? with
    | some (some g) =>
      match (do g.store page; g.markDirty : Prog BufferPool Unit) s.pool with
      | .ok () pool =>
        .ok () { s with pool, left := Function.update s.left g.pageId (some page.unstamped) }
      | .error e pool => .error e { s with pool }
    | _ => .error .undefinedBehaviour s
  | .move i j => fun s =>
    match s.guards[i]?, s.guards[j]? with
    | some g, some old =>
      if i = j then .ok () s
      else .ok () { s with
        pool := Session.releaseGuard old s.pool
        guards := (s.guards.set j g).set i none }
    | _, _ => .error .undefinedBehaviour s
  | .release i => fun s =>
    match s.guards[i]? with
    | some g => .ok () { s with pool := Session.releaseGuard g s.pool, guards := s.guards.set i none }
    | none => .error .undefinedBehaviour s
  | .flushPage pageId => fun s =>
    match BufferPool.flushPage pageId s.pool with
    | .ok _ pool => .ok () { s with pool }
    | .error e pool => .error e { s with pool }
  | .flushAll => fun s =>
    match BufferPool.flushAll s.pool with
    | .ok () pool => .ok () { s with pool }
    | .error e pool => .error e { s with pool }

/-- A sequence of uses, ended by the first one that throws. -/
def runAll : List PoolOp → Prog Session Unit
  | [] => pure ()
  | op :: ops => do
    op.run
    runAll ops

/-! ## Guard variables as a bag of guards -/

/-- The valid guards after one variable's content is replaced. -/
theorem live_set {guards : List (Option PageGuard)} {i : Nat} {g : Option PageGuard}
    (h : guards[i]? = some g) (g' : Option PageGuard) :
    (g.toList ++ (guards.set i g').filterMap id).Perm (g'.toList ++ guards.filterMap id) := by
  obtain ⟨hi, rfl⟩ := List.getElem?_eq_some_iff.mp h
  have hset : guards.set i g' = guards.take i ++ g' :: guards.drop (i + 1) := by
    rw [List.set_eq_take_append_cons_drop, if_pos hi]
  have hsplit : guards = guards.take i ++ guards[i] :: guards.drop (i + 1) := by
    rw [← List.drop_eq_getElem_cons hi, List.take_append_drop]
  have hcons : ∀ (o : Option PageGuard) (l : List (Option PageGuard)),
      (o :: l).filterMap id = o.toList ++ l.filterMap id := by
    intro o l
    cases o <;> rfl
  rw [hset]
  nth_rewrite 4 [hsplit]
  rw [List.filterMap_append, List.filterMap_append, hcons, hcons]
  -- both sides are the two contents and the rest of the list
  generalize guards[i].toList = a
  generalize g'.toList = b
  generalize (guards.take i).filterMap id = l
  generalize (guards.drop (i + 1)).filterMap id = r
  have hleft : a ++ (l ++ (b ++ r)) = (a ++ l ++ b) ++ r := by simp only [List.append_assoc]
  have hright : b ++ (l ++ (a ++ r)) = (b ++ (l ++ a)) ++ r := by simp only [List.append_assoc]
  rw [hleft, hright]
  refine List.Perm.append_right r (List.perm_append_comm.trans ?_)
  exact List.perm_append_comm.append_left b

/-- Dropping one variable's guard. -/
theorem live_release {guards : List (Option PageGuard)} {i : Nat} {g : Option PageGuard}
    (h : guards[i]? = some g) :
    (guards.filterMap id).Perm (g.toList ++ (guards.set i none).filterMap id) :=
  (live_set h none).symm

/-- Moving one variable's guard to another drops the other's. -/
theorem live_move {guards : List (Option PageGuard)} {i j : Nat} {g old : Option PageGuard}
    (hi : guards[i]? = some g) (hj : guards[j]? = some old) (hne : i ≠ j) :
    (guards.filterMap id).Perm (old.toList ++ ((guards.set j g).set i none).filterMap id) := by
  have hi' : (guards.set j g)[i]? = some g := by rw [List.getElem?_set_ne (Ne.symm hne), hi]
  refine (List.perm_append_left_iff g.toList).mp ?_
  refine (live_set hj g).symm.trans (((live_release hi').append_left _).trans ?_)
  rw [← List.append_assoc, ← List.append_assoc]
  exact List.perm_append_comm.append_right _

/-! ## The invariant, step by step -/

namespace Session

open BufferPool

/-- What one use of the pool keeps: the pool's own invariant for the valid guards, no frame lost, and
every page showing what was last left on it. -/
structure Good (s : Session) : Prop where
  cached : Cached s.pool s.live
  covered : s.pool.Covered
  left_eq : ∀ pageId, s.left pageId = (s.pool.bytes pageId).map Page.unstamped

theorem start_good (poolSize : Nat) (file : DataFile) (wal : Option WalManager) :
    (start poolSize file wal).Good where
  cached := new_cached poolSize file wal
  covered := new_covered poolSize file wal
  left_eq pageId := by
    rw [bytes, current_of_notCached rfl, Option.map_map]
    rfl

theorem live_declare (s : Session) (g : Option PageGuard) (pool : BufferPool) :
    (g.toList ++ s.live).Perm (s.declare g pool).live := by
  have hlive : (s.declare g pool).live = s.live ++ g.toList := by
    rw [live, declare, List.filterMap_append]
    cases g <;> rfl
  rw [hlive]
  exact List.perm_append_comm

/-- Releasing the guard of a variable, whatever it holds. -/
theorem releaseGuard_good {bp : BufferPool} {g : Option PageGuard} {live : List PageGuard}
    (h : Cached bp (g.toList ++ live)) (hc : bp.Covered) :
    Cached (releaseGuard g bp) live ∧ (releaseGuard g bp).Covered ∧
      ∀ p, ((releaseGuard g bp).bytes p).map Page.unstamped = (bp.bytes p).map Page.unstamped := by
  cases g with
  | none => exact ⟨h, hc, fun _ => rfl⟩
  | some g =>
    by_cases hlog : (bp.frames g.frame).dirty = true ∧ bp.wal ≠ none
    · obtain ⟨w, hw⟩ := Option.ne_none_iff_exists'.mp hlog.2
      obtain ⟨hrel, hkept, -, -, hbytes⟩ := Cached.release_logs h hlog.1 hw
      refine ⟨hrel, hkept.covered hc, fun p => ?_⟩
      -- the record's LSN is stamped into the page, and only that
      rw [show releaseGuard (some g) bp = g.release bp from rfl, hbytes]
      by_cases hp : p = g.pageId
      · subst hp
        rw [Function.update_self, bytes, h.current_live List.mem_cons_self]
        rfl
      · rw [Function.update_of_ne hp]
    · have hquiet : (bp.frames g.frame).dirty = false ∨ bp.wal = none := by
        simpa only [not_and_or, Bool.not_eq_true, not_not] using hlog
      obtain ⟨hrel, hkept, -, -, hbytes⟩ := Cached.release_silent h hquiet
      exact ⟨hrel, hkept.covered hc, fun p => congrArg (Option.map _) (congrFun hbytes p)⟩

/-- Storing a page through a live guard and marking it dirty. -/
theorem store_good {bp : BufferPool} {g : PageGuard} {live : List PageGuard} (h : Cached bp live)
    (hg : g ∈ live) (page : Page) :
    ∃ bp', (do g.store page; g.markDirty : Prog BufferPool Unit) bp = .ok () bp' ∧
      Cached bp' live ∧ bp' = bp.setFrame g.frame { bp.frames g.frame with page, dirty := true } ∧
      bp'.bytes = Function.update bp.bytes g.pageId (some page.unsummed) := by
  have ht := h.live_table g hg
  obtain ⟨hset, hcur⟩ := h.setFrame ht { bp.frames g.frame with page, dirty := true }
    (h.table_frame ht) rfl (fun hd => by cases hd)
  have hstore : g.store page bp = .ok () (bp.setFrame g.frame { bp.frames g.frame with page }) := rfl
  refine ⟨_, ?_, hset, rfl, ?_⟩
  · rw [Prog.bind_ok hstore]
    simp only [PageGuard.markDirty, BufferPool.setFrame, Function.update_self, Function.update_idem]
  · funext q
    refine (congrArg (Option.map _) (congrFun hcur q)).trans ?_
    by_cases hq : q = g.pageId
    · subst hq
      rw [Function.update_self, Function.update_self]
      rfl
    · rw [Function.update_of_ne hq, Function.update_of_ne hq]
      rfl

theorem mem_live {s : Session} {i : Nat} {g : PageGuard} (h : s.guards[i]? = some (some g)) :
    g ∈ s.live :=
  List.mem_filterMap.mpr ⟨some g, List.mem_of_getElem? h, rfl⟩

end Session

open BufferPool

/-- **Step lemma.** Every use of the pool that succeeds keeps `Session.Good`. -/
theorem PoolOp.run_good {op : PoolOp} {s s' : Session} (h : s.Good) (hrun : op.run s = .ok () s') :
    s'.Good := by
  cases op with
  | newPage =>
    rcases h.cached.newPage with ⟨f, bp', hok, hc, -, hcover, -, -, hbytes⟩ | ⟨hok, -⟩
    · simp only [PoolOp.run, hok, EStateM.Result.ok.injEq, true_and] at hrun
      subst hrun
      refine ⟨hc.perm (s.live_declare (some ⟨_, f⟩) bp'), hcover h.covered, fun p => ?_⟩
      change Function.update s.left s.pool.next _ p = (bp'.bytes p).map _
      rw [hbytes]
      by_cases hp : p = s.pool.next
      · subst hp
        rw [Function.update_self, Function.update_self]
        rfl
      · rw [Function.update_of_ne hp, Function.update_of_ne hp, h.left_eq p]
    · simp only [PoolOp.run, hok, EStateM.Result.ok.injEq, true_and] at hrun
      subst hrun
      exact ⟨h.cached.perm (s.live_declare none _), h.covered, h.left_eq⟩
  | fetchPage pageId =>
    rcases h.cached.fetchPage pageId with ⟨g, bp', hok, -, hc, -, hcover, -, hbytes⟩ | ⟨hok, -⟩ |
      ⟨e, bp', hok, -⟩
    · simp only [PoolOp.run, hok, EStateM.Result.ok.injEq, true_and] at hrun
      subst hrun
      refine ⟨hc.perm (s.live_declare (some g) bp'), hcover h.covered, fun p => ?_⟩
      exact (h.left_eq p).trans (congrArg (Option.map _) (congrFun hbytes p).symm)
    · simp only [PoolOp.run, hok, EStateM.Result.ok.injEq, true_and] at hrun
      subst hrun
      exact ⟨h.cached.perm (s.live_declare none _), h.covered, h.left_eq⟩
    · simp only [PoolOp.run, hok] at hrun
      cases hrun
  | mutate i page =>
    simp only [PoolOp.run] at hrun
    split at hrun
    · rename_i g hg
      obtain ⟨bp', hok, hc, hset, hbytes⟩ := Session.store_good h.cached (Session.mem_live hg) page
      simp only [hok, EStateM.Result.ok.injEq, true_and] at hrun
      subst hrun
      refine ⟨hc, hset ▸ h.covered, fun p => ?_⟩
      change Function.update s.left g.pageId _ p = (bp'.bytes p).map _
      rw [hbytes]
      by_cases hp : p = g.pageId
      · subst hp
        rw [Function.update_self, Function.update_self]
        rfl
      · rw [Function.update_of_ne hp, Function.update_of_ne hp, h.left_eq p]
    · cases hrun
  | move i j =>
    simp only [PoolOp.run] at hrun
    split at hrun
    · rename_i g old hi hj
      by_cases hij : i = j
      · simp only [hij, if_true, EStateM.Result.ok.injEq, true_and] at hrun
        exact hrun ▸ h
      · simp only [hij, if_false, EStateM.Result.ok.injEq, true_and] at hrun
        subst hrun
        obtain ⟨hc, hcover, hbytes⟩ :=
          Session.releaseGuard_good (h.cached.perm (live_move hi hj hij)) h.covered
        exact ⟨hc, hcover, fun p => (h.left_eq p).trans (hbytes p).symm⟩
    · cases hrun
  | release i =>
    simp only [PoolOp.run] at hrun
    split at hrun
    · rename_i g hi
      simp only [EStateM.Result.ok.injEq, true_and] at hrun
      subst hrun
      obtain ⟨hc, hcover, hbytes⟩ :=
        Session.releaseGuard_good (h.cached.perm (live_release hi)) h.covered
      exact ⟨hc, hcover, fun p => (h.left_eq p).trans (hbytes p).symm⟩
    · cases hrun
  | flushPage pageId =>
    obtain ⟨b, bp', W, hok, hc, hfl, -, -⟩ := h.cached.flushPage pageId
    simp only [PoolOp.run, hok, EStateM.Result.ok.injEq, true_and] at hrun
    subst hrun
    exact ⟨hc, hfl.covered h.covered, fun p => by rw [hfl.bytes_eq]; exact h.left_eq p⟩
  | flushAll =>
    obtain ⟨bp', W, hok, hc, hfl⟩ := h.cached.flushAll
    simp only [PoolOp.run, hok, EStateM.Result.ok.injEq, true_and] at hrun
    subst hrun
    exact ⟨hc, hfl.covered h.covered, fun p => by rw [hfl.bytes_eq]; exact h.left_eq p⟩

/-- **Run lemma.** -/
theorem runAll_good {ops : List PoolOp} {s s' : Session} (h : s.Good)
    (hrun : runAll ops s = .ok () s') : s'.Good := by
  induction ops generalizing s with
  | nil =>
    simp only [runAll, Prog.pure_run, EStateM.Result.ok.injEq, true_and] at hrun
    exact hrun ▸ h
  | cons op ops ih =>
    cases hop : op.run s with
    | ok _ s₁ =>
      rw [runAll, Prog.bind_ok hop] at hrun
      exact ih (op.run_good h hop) hrun
    | error e s₁ =>
      rw [runAll, Prog.bind_error hop] at hrun
      cases hrun

/-! ## The cache is transparent -/

/-- What a client sees of the pool: pages, with no sign of the cache between it and them. -/
structure Session.Transparent (s : Session) : Prop where
  /-- A guard shows what was last left on its page. -/
  shows : ∀ g ∈ s.live, some (s.pool.frames g.frame).page.unstamped = s.left g.pageId
  /-- Its frame is the page's own and not reassigned. -/
  holds : ∀ g ∈ s.live, s.pool.pageTable g.pageId = some g.frame ∧
    (s.pool.frames g.frame).pageId = some g.pageId
  same_frame : ∀ g ∈ s.live, ∀ g' ∈ s.live, g.frame = g'.frame ↔ g.pageId = g'.pageId
  pins : ∀ f, (s.pool.frames f).pinCount = s.live.countP fun g => g.frame == f
  /-- Only a pool whose every frame is pinned turns a request down. -/
  fetch_full : ∀ {pageId bp'}, BufferPool.fetchPage pageId s.pool = .ok none bp' →
    ∀ f < s.pool.poolSize, 0 < (s.pool.frames f).pinCount
  new_full : ∀ {bp'}, BufferPool.newPage s.pool = .ok none bp' →
    ∀ f < s.pool.poolSize, 0 < (s.pool.frames f).pinCount

theorem Session.Good.transparent {s : Session} (h : s.Good) : s.Transparent where
  shows g hg := by
    rw [h.left_eq, bytes, h.cached.current_live hg]
    rfl
  holds g hg := ⟨h.cached.live_table g hg, h.cached.table_frame (h.cached.live_table g hg)⟩
  same_frame _ hg _ hg' := h.cached.same_frame_iff hg hg'
  pins f := by
    rw [h.cached.pins f, pinned, List.count, List.countP_map]
    rfl
  fetch_full {pageId bp'} hfull f hf := by
    rcases h.cached.fetchPage pageId with ⟨g, bp', hok, -⟩ | ⟨-, hex⟩ | ⟨e, bp', hok, -⟩
    · rw [hok] at hfull; cases hfull
    · exact h.cached.all_pinned h.covered hex hf
    · rw [hok] at hfull; cases hfull
  new_full {bp'} hfull f hf := by
    rcases h.cached.newPage with ⟨f', bp', hok, -⟩ | ⟨-, hex⟩
    · rw [hok] at hfull; cases hfull
    · exact h.cached.all_pinned h.covered hex hf

/-- **The buffer pool is a transparent cache**, for every pool size, every data file it is opened on,
with a log or without one, after every sequence of uses. -/
theorem bufferPool_transparent {poolSize : Nat} {file : DataFile} {wal : Option WalManager}
    {ops : List PoolOp} {s : Session}
    (hrun : runAll ops (Session.start poolSize file wal) = .ok () s) : s.Transparent :=
  (runAll_good (Session.start_good poolSize file wal) hrun).transparent

/-- Whether a sequence of uses of a fresh pool succeeds. -/
def succeeds (poolSize : Nat) (ops : List PoolOp) : Bool :=
  match runAll ops (Session.start poolSize DataFile.empty none) with
  | .ok _ _ => true
  | .error _ _ => false

/-- A page mutated, released, evicted by another page, which two guards then share. -/
theorem bufferPool_transparent_evicted :
    ∃ s, runAll [.newPage, .mutate 0 ⟨0, 0, 0, .metadata 7⟩, .release 0, .newPage, .fetchPage 1,
      .move 2 0, .flushAll] (Session.start 1 DataFile.empty none) = .ok () s ∧ s.Transparent := by
  have hok : succeeds 1 [.newPage, .mutate 0 ⟨0, 0, 0, .metadata 7⟩, .release 0, .newPage,
      .fetchPage 1, .move 2 0, .flushAll] = true := by decide +kernel
  unfold succeeds at hok
  split at hok
  · rename_i s hrun
    exact ⟨s, hrun, bufferPool_transparent hrun⟩
  · cases hok

end Reldb
