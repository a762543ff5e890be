import Reldb.Lib.Walk
import Reldb.Pool.Keeps

/-!
# Reldb — visits that write nothing

A read pins one page at a time, looks at it and unpins it. Unpinning passes on the dirty flag of the frame,
whoever set it, so a visit to a page that an earlier write left dirty logs that page again, if there is a
log. A visit to any other page appends nothing, and changes no byte of a page that is cached before and
after it (`BufferPool.Silent`). Reads are walks over the pages the pool shows (`BufferPool.walkPages`).
-/

namespace Reldb

namespace BufferPool

/-- The page is cached in a dirty frame. -/
def DirtyAt (bp : BufferPool) (pageId : PageId) : Prop :=
  ∃ f, bp.pageTable pageId = some f ∧ (bp.frames f).dirty = true

/-- What silent visits to the pages `V` do to a pool: pages leave it, pages of `V` come in clean, and
a dirty page is either as it was or has been written to the file. -/
structure Silent (V : List PageId) (bp bp' : BufferPool) : Prop where
  wal_eq : bp'.wal = bp.wal
  next_eq : bp'.next = bp.next
  bytes_eq : bp'.bytes = bp.bytes
  clean : ∀ p, ¬ bp.DirtyAt p → ¬ bp'.DirtyAt p ∧ bp'.current p = bp.current p
  dirty : ∀ p, bp.DirtyAt p → bp'.DirtyAt p → bp'.current p = bp.current p
  still : ∀ p ∉ V, bp.DirtyAt p → bp'.pageTable p ≠ none → bp'.DirtyAt p
  loaded : ∀ p ∉ V, bp'.pageTable p ≠ none → bp.pageTable p ≠ none

/-- Visits to the pages `V` append nothing: none of them is dirty, or there is no log. -/
def Unlogged (V : List PageId) (bp : BufferPool) : Prop := bp.wal = none ∨ ∀ p ∈ V, ¬ bp.DirtyAt p

section

variable {bp bp' bp'' : BufferPool} {live : List PageGuard} {V V' : List PageId} {pageId : PageId}
  {f : FrameId}

theorem view_eq_bytes (bp : BufferPool) (p : PageId) : bp.view p = (bp.bytes p).map Page.body := by
  rw [bytes, current, view]
  cases bp.pageTable p with
  | some f => rfl
  | none =>
    simp only [DataFile.view, DataFile.read]
    split <;> rfl

theorem Silent.view_eq (h : Silent V bp bp') : bp'.view = bp.view := by
  funext p
  rw [view_eq_bytes, view_eq_bytes, h.bytes_eq]

theorem DirtyAt.cached (h : bp.DirtyAt pageId) : bp.pageTable pageId ≠ none := by
  obtain ⟨f, ht, -⟩ := h
  rw [ht]
  exact Option.some_ne_none f

theorem Silent.refl (bp : BufferPool) : Silent V bp bp where
  wal_eq := rfl
  next_eq := rfl
  bytes_eq := rfl
  clean _ h := ⟨h, rfl⟩
  dirty _ _ _ := rfl
  still _ _ h _ := h
  loaded _ _ h := h

theorem Silent.mono (h : Silent V bp bp') (hV : V ⊆ V') : Silent V' bp bp' :=
  { h with
    still := fun p hp => h.still p fun hv => hp (hV hv)
    loaded := fun p hp => h.loaded p fun hv => hp (hV hv) }

theorem Silent.trans (h : Silent V bp bp') (h' : Silent V' bp' bp'') : Silent (V ++ V') bp bp'' where
  wal_eq := h'.wal_eq.trans h.wal_eq
  next_eq := h'.next_eq.trans h.next_eq
  bytes_eq := h'.bytes_eq.trans h.bytes_eq
  clean p hp := by
    obtain ⟨hclean, hcur⟩ := h.clean p hp
    obtain ⟨hclean', hcur'⟩ := h'.clean p hclean
    exact ⟨hclean', hcur'.trans hcur⟩
  dirty p hp hp'' := by
    -- a page that was clean in between would be clean now
    have hp' : bp'.DirtyAt p := by
      by_contra hclean
      exact (h'.clean p hclean).1 hp''
    exact (h'.dirty p hp' hp'').trans (h.dirty p hp hp')
  still p hp hd hcached := by
    simp only [List.mem_append, not_or] at hp
    exact h'.still p hp.2 (h.still p hp.1 hd (h'.loaded p hp.2 hcached)) hcached
  loaded p hp hcached := by
    simp only [List.mem_append, not_or] at hp
    exact h.loaded p hp.1 (h'.loaded p hp.2 hcached)

theorem Unlogged.mono (h : Unlogged V' bp) (hV : V ⊆ V') : Unlogged V bp :=
  h.imp_right fun hclean p hp => hclean p (hV hp)

/-- Silent visits leave the next ones as silent. -/
theorem Silent.unlogged (h : Silent V bp bp') (hq : Unlogged V' bp) : Unlogged V' bp' :=
  hq.imp (fun hw => h.wal_eq.trans hw) fun hclean p hp => (h.clean p (hclean p hp)).1

/-- A frame taken for a page: only a dirty page shows other bytes for it, in its checksum. -/
theorem Cached.findVictimFrame_current (h : Cached bp live)
    (hv : bp.findVictimFrame = (some f, bp')) {p : PageId} (hp : ¬ bp.DirtyAt p) :
    bp'.current p = bp.current p := by
  unfold BufferPool.findVictimFrame at hv
  cases hl : bp.freeList with
  | cons f' rest =>
    simp only [hl, Prod.mk.injEq] at hv
    obtain ⟨-, rfl⟩ := hv
    rfl
  | nil =>
    simp only [hl] at hv
    cases hvictim : bp.lruVictim with
    | none =>
      rw [hvictim] at hv
      cases hv
    | some f' =>
      simp only [hvictim, Prod.mk.injEq, Option.some.injEq] at hv
      obtain ⟨rfl, rfl⟩ := hv
      have hmem : f' ∈ bp.lruList := List.mem_reverse.mp (List.mem_of_find?_eq_some hvictim)
      have hpin : f' ∉ pinned live := h.notMem_pinned (by simpa using List.find?_some hvictim)
      obtain ⟨q, ht⟩ := h.lru_iff.mp hmem
      by_cases hd : (bp.frames f').dirty = true
      · have hne : p ≠ q := by
          rintro rfl
          exact hp ⟨f', ht, hd⟩
        have heq : bp.evict f' = (bp.writeFrame q f').unload q f' := by
          simp only [BufferPool.evict, removeFromLRU, h.table_frame ht, hd, if_true]
          rfl
        obtain ⟨hw, hcur⟩ := h.writeFrame ht
        have ht' : (bp.writeFrame q f').pageTable q = some f' := ht
        obtain ⟨-, hcur'⟩ := hw.unload ht' hpin (by
          rw [← current_of_table ht', hcur, Function.update_self]
          exact (congrFun (DataFile.read_write _ _ _) q).trans (Function.update_self _ _ _))
        rw [heq, hcur', hcur, Function.update_of_ne hne]
      · have heq : bp.evict f' = bp.unload q f' := by
          simp only [BufferPool.evict, removeFromLRU, h.table_frame ht, hd]
          rfl
        rw [heq, (h.unload ht hpin (h.clean ht (by simpa using hd))).2]

/-- Taking a frame for a page. -/
theorem Cached.findVictimFrame_silent (h : Cached bp live)
    (hv : bp.findVictimFrame = (some f, bp')) (htook : Took bp bp' live f) : Silent [] bp bp' := by
  -- a page still cached is cached as it was
  have hkept : ∀ {p}, bp'.pageTable p ≠ none →
      ∃ f', bp'.pageTable p = some f' ∧ bp.pageTable p = some f' ∧ bp'.frames f' = bp.frames f' := by
    intro p hp
    obtain ⟨f', hf'⟩ := Option.ne_none_iff_exists'.mp hp
    exact ⟨f', hf', htook.kept p f' hf'⟩
  have hdirty : ∀ {p}, bp.DirtyAt p → bp'.pageTable p ≠ none →
      bp'.DirtyAt p ∧ bp'.current p = bp.current p := by
    rintro p ⟨f₀, ht₀, hd⟩ hp
    obtain ⟨f', hf', ht, hframe⟩ := hkept hp
    obtain rfl := Option.some.inj (ht.symm.trans ht₀)
    exact ⟨⟨f', hf', hframe ▸ hd⟩, by rw [current_of_table hf', current_of_table ht, hframe]⟩
  refine ⟨htook.wal_eq, htook.next_eq, htook.bytes_eq, fun p hp => ⟨?_, ?_⟩, fun p hd hd' => ?_,
    fun p _ hd hp => (hdirty hd hp).1, fun p _ hp => ?_⟩
  · rintro ⟨f₀, hf₀, hd⟩
    obtain ⟨ht, hframe⟩ := htook.kept p f₀ hf₀
    exact hp ⟨f₀, ht, hframe ▸ hd⟩
  · exact h.findVictimFrame_current hv hp
  · exact (hdirty hd hd'.cached).2
  · obtain ⟨f', -, ht, -⟩ := hkept hp
    rw [ht]
    exact Option.some_ne_none f'

/-- A visit: the page's body, looked at under a guard. -/
def visitPage (pageId : PageId) (e : Exn) : Prog BufferPool PageBody := do
  let some guard ← fetchPage pageId | throw e
  guard.withGuard guard.page

/-- Pins come and go, and the LRU list is in another order. -/
theorem Silent.of_table (hwal : bp'.wal = bp.wal) (hdisk : bp'.disk = bp.disk)
    (htable : bp'.pageTable = bp.pageTable)
    (hframes : ∀ p f, bp.pageTable p = some f → (bp'.frames f).page = (bp.frames f).page ∧
      (bp'.frames f).dirty = (bp.frames f).dirty) : Silent V bp bp' := by
  have hcur : bp'.current = bp.current := by
    funext p
    cases ht : bp.pageTable p with
    | none => rw [current_of_notCached ht, current_of_notCached (htable ▸ ht), hdisk]
    | some f => rw [current_of_table ht, current_of_table (htable ▸ ht), (hframes p f ht).1]
  have hdirty : ∀ p, bp'.DirtyAt p ↔ bp.DirtyAt p := by
    intro p
    rw [DirtyAt, DirtyAt, htable]
    constructor
    · rintro ⟨f, ht, hd⟩
      exact ⟨f, ht, (hframes p f ht).2 ▸ hd⟩
    · rintro ⟨f, ht, hd⟩
      exact ⟨f, ht, (hframes p f ht).2.symm ▸ hd⟩
  refine ⟨hwal, congrArg DiskManager.nextPageId hdisk, ?_, fun p hp => ?_,
    fun p _ _ => congrFun hcur p, fun p _ hd _ => (hdirty p).mpr hd, fun p _ hp => htable ▸ hp⟩
  · funext p
    rw [bytes, bytes, hcur]
  · exact ⟨fun hd => hp ((hdirty p).mp hd), congrFun hcur p⟩

/-- The page read into a frame taken for it, and unpinned. -/
theorem Silent.of_install {page : Page} (hnone : bp.pageTable pageId = none)
    (hf : ∀ q, bp.pageTable q ≠ some f) (hread : bp.disk.file.read pageId = some page)
    (hwal : bp'.wal = bp.wal) (hdisk : bp'.disk = bp.disk)
    (htable : bp'.pageTable = Function.update bp.pageTable pageId (some f))
    (hframe : (bp'.frames f).page = page ∧ (bp'.frames f).dirty = false)
    (hframes : ∀ f' ≠ f, bp'.frames f' = bp.frames f') : Silent [pageId] bp bp' := by
  have hself : bp'.pageTable pageId = some f := by rw [htable, Function.update_self]
  have hother : ∀ q, q ≠ pageId → bp'.pageTable q = bp.pageTable q := fun q hq => by
    rw [htable, Function.update_of_ne hq]
  have hsame : ∀ {q f'}, bp.pageTable q = some f' → bp'.frames f' = bp.frames f' := fun hq =>
    hframes _ fun heq => hf _ (heq ▸ hq)
  have hclean : ¬ bp'.DirtyAt pageId := by
    rintro ⟨f', ht, hd⟩
    obtain rfl := Option.some.inj (hself.symm.trans ht)
    rw [hframe.2] at hd
    cases hd
  have hcur : ∀ q, bp'.current q = bp.current q := by
    intro q
    by_cases hq : q = pageId
    · subst hq
      rw [current_of_table hself, current_of_notCached hnone, hread, hframe.1]
    · cases ht : bp.pageTable q with
      | none => rw [current_of_notCached ht, current_of_notCached ((hother q hq).trans ht), hdisk]
      | some f' => rw [current_of_table ht, current_of_table ((hother q hq).trans ht), hsame ht]
  -- the page itself has come in; every other one is as it was
  refine ⟨hwal, congrArg DiskManager.nextPageId hdisk, ?_, fun q hq => ⟨?_, hcur q⟩,
    fun q _ _ => hcur q, fun q hqp hd _ => ?_, fun q hqp hq => ?_⟩
  · funext q
    rw [bytes, bytes, hcur]
  · by_cases hqp : q = pageId
    · exact hqp ▸ hclean
    · rintro ⟨f', ht, hd⟩
      rw [hother q hqp] at ht
      exact hq ⟨f', ht, hsame ht ▸ hd⟩
  · obtain ⟨f', ht, hd⟩ := hd
    exact ⟨f', (hother q (by simpa using hqp)).trans ht, (hsame ht).symm ▸ hd⟩
  · rw [← hother q (by simpa using hqp)]
    exact hq

theorem install_frames (bp : BufferPool) (pageId : PageId) (f : FrameId) (frame : Frame) :
    (bp.install pageId f frame).frames = Function.update bp.frames f frame := rfl

/-- What a visit leaves of the guard it took: one pin less, where nothing is logged. -/
theorem visitPage_some {g : PageGuard} (e : Exn) (hfetch : fetchPage pageId bp = .ok (some g) bp')
    (ht : bp'.pageTable g.pageId = some g.frame)
    (hquiet : (bp'.frames g.frame).dirty = false ∨ bp'.wal = none) :
    visitPage pageId e bp = .ok (bp'.frames g.frame).page.body (bp'.setFrame g.frame
      { bp'.frames g.frame with pinCount := (bp'.frames g.frame).pinCount - 1 }) := by
  rw [visitPage, Prog.bind_ok hfetch]
  simp only [PageGuard.withGuard, PageGuard.page, release_quiet ht hquiet]

/-- **A visit is silent** where the page is not dirty or there is no log. -/
theorem Cached.visitPage (h : Cached bp live) (hq : Unlogged [pageId] bp) (e : Exn) :
    (visitPage pageId e).After bp (Silent [pageId] bp) := by
  cases ht : bp.pageTable pageId with
  | some f =>
    have hfetch : BufferPool.fetchPage pageId bp = .ok (some ⟨pageId, f⟩)
        ((bp.setFrame f { bp.frames f with pinCount := (bp.frames f).pinCount + 1 }).touchLRU f) := by
      simp only [BufferPool.fetchPage, ht]
    have hquiet : (bp.frames f).dirty = false ∨ bp.wal = none := by
      rcases hq with hw | hclean
      · exact .inr hw
      · refine .inl (by_contra fun hd => hclean pageId (by simp) ⟨f, ht, ?_⟩)
        simpa using hd
    refine .of_ok (visitPage_some e hfetch ht ?_) (.of_table rfl rfl rfl fun q f' _ => ?_)
    · show (Function.update bp.frames f _ f).dirty = false ∨ bp.wal = none
      rwa [Function.update_self]
    · by_cases hf : f' = f
      · subst hf
        simp [BufferPool.touchLRU, setFrame_frames]
      · simp [BufferPool.touchLRU, setFrame_frames, Function.update_of_ne hf]
  | none =>
    rcases h.findVictimFrame with ⟨f, bp₁, hv, htook⟩ | ⟨hv, -⟩
    · have htaken := h.findVictimFrame_silent hv htook
      cases hr : bp₁.disk.readPage pageId with
      | error e' =>
        have hfetch : BufferPool.fetchPage pageId bp = .error e' bp₁ := by
          simp only [BufferPool.fetchPage, ht, hv, hr]
        exact .of_error (Prog.bind_error hfetch) (htaken.mono (List.nil_subset _))
      | ok page =>
        have hfetch : BufferPool.fetchPage pageId bp = .ok (some ⟨pageId, f⟩) (bp₁.install pageId f
            { page, pageId := some pageId, pinCount := 1, dirty := false }) := by
          simp only [BufferPool.fetchPage, ht, hv, hr]
        refine .of_ok (visitPage_some e hfetch ?_ ?_) ?_
        · exact Function.update_self pageId (some f) bp₁.pageTable
        · exact .inl (by rw [install_frames, Function.update_self])
        · refine Silent.trans htaken (.of_install (htook.table_none pageId ht) ?_
            (DiskManager.readPage_iff.mp hr) rfl rfl rfl ?_ fun f' hf' => ?_)
          · exact fun q hq => htook.notMem_lru (htook.cached.lru_iff.mpr ⟨q, hq⟩)
          · simp [setFrame_frames, install_frames]
          · simp [setFrame_frames, install_frames, Function.update_of_ne hf']
    · have hfetch : BufferPool.fetchPage pageId bp = .ok none bp := by
        simp only [BufferPool.fetchPage, ht, hv]
      exact .of_error (Prog.bind_ok hfetch) (.refl bp)

theorem Keeps.visitPage (e : Exn) : Keeps live (BufferPool.visitPage pageId e) :=
  .fetchPage (.throw e) fun g _ h => After.withGuard (Keeps.page g _ h)

/-- A visit comes back with what the pool shows for the page. -/
theorem Cached.visitPage_body (h : Cached bp live) {e : Exn} {body : PageBody}
    (hrun : BufferPool.visitPage pageId e bp = .ok body bp') : bp.view pageId = some body := by
  rw [BufferPool.visitPage] at hrun
  rcases h.fetchPage pageId with ⟨g, bp₁, hfetch, rfl, hc, -, -, -, hbytes⟩ | ⟨hfetch, -⟩ |
    ⟨e', bp₁, hfetch, -⟩
  · rw [Prog.bind_ok hfetch] at hrun
    injection hrun with hbody
    rw [view_eq_bytes, ← hbytes, bytes, hc.current_live List.mem_cons_self, ← hbody]
    rfl
  · rw [Prog.bind_ok hfetch] at hrun
    cases hrun
  · rw [Prog.bind_error hfetch] at hrun
    cases hrun

/-! ## Walks -/

/-- A walk over the pages of the pool. -/
def walkPages {α : Type} : Walk PageId PageBody Exn α → Prog BufferPool α
  | .done (.ok a) => pure a
  | .done (.error e) => throw e
  | .visit pageId e next => do walkPages (next (← BufferPool.visitPage pageId e))

variable {α β : Type} {w : Walk PageId PageBody Exn α}

theorem walkPages_bind (w : Walk PageId PageBody Exn α) (f : α → Walk PageId PageBody Exn β) :
    walkPages (w.bind f) = walkPages w >>= fun a => walkPages (f a) := by
  induction w with
  | done result => cases result <;> rfl
  | visit pageId e next ih =>
    simp only [Walk.bind, walkPages, bind_assoc]
    exact bind_congr fun body => ih body

/-- **Walks are silent** where each page they visit is. -/
theorem Cached.walkPages (h : Cached bp live) (hq : Unlogged (w.visited bp.view) bp) :
    (walkPages w).After bp fun bp' => Cached bp' live ∧ Silent (w.visited bp.view) bp bp' := by
  induction w generalizing bp with
  | done result => cases result <;> exact ⟨h, .refl bp⟩
  | visit pageId e next ih =>
    have hvisit : [pageId] ⊆ (Walk.visit pageId e next).visited bp.view := by
      simp [Walk.visited]
    have hafter := h.visitPage (hq.mono hvisit) e
    have hkept := @Keeps.visitPage live pageId e bp h
    rw [BufferPool.walkPages]
    cases hrun : BufferPool.visitPage pageId e bp with
    | error e' bp' =>
      rw [Prog.After, hrun] at hafter hkept
      exact .of_error (Prog.bind_error hrun) ⟨hkept, hafter.mono hvisit⟩
    | ok body bp' =>
      rw [Prog.After, hrun] at hafter hkept
      -- the rest of the walk visits the pages it would visit now
      have hvisited : (Walk.visit pageId e next).visited bp.view
          = [pageId] ++ (next body).visited bp'.view := by
        simp only [Walk.visited, h.visitPage_body hrun, hafter.view_eq, List.singleton_append]
      rw [hvisited] at hq ⊢
      rw [Prog.After, Prog.bind_ok hrun]
      refine (ih body hkept ?_).mono fun bp'' hrest => ⟨hrest.1, hafter.trans hrest.2⟩
      exact hafter.unlogged (hq.mono (List.subset_append_right _ _))

end

end BufferPool

end Reldb
