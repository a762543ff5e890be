import Reldb.Pool.Frames
import Mathlib.Data.List.Nodup
import Mathlib.Data.List.Perm.Subperm

/-!
# Reldb — what each buffer-pool operation does

One lemma for each operation: from a pool in `BufferPool.Good` it returns, keeps the invariant
(with the guard it hands out added to the live ones, or the one it releases taken off) and
changes the picture (`view`, `next`, the log) in the way the lemma states. Callers cite these and
never unfold the operations.
-/

namespace Reldb

open WriteLog

namespace BufferPool

variable {base : Files} {bp bp' bp'' : BufferPool} {live : List PageGuard}
  {unlogged : List PageId} {pageId : PageId} {f : FrameId} {W W' : List PageWrite}

/-! ## Effects compose -/

/-- An operation that appends no record has no effect on the log. -/
theorem Effect.silent (hsize : bp'.poolSize = bp.poolSize) (hwal : bp'.wal = bp.wal)
    (hio : bp.io <+: bp'.io) : Effect bp bp' [] :=
  ⟨hsize, by rw [hwal], hio, [], by simp only [BufferPool.records, hwal, List.append_nil], fun _ => .nil _⟩

theorem Effect.refl (bp : BufferPool) : Effect bp bp [] := .silent rfl rfl (List.prefix_refl _)

theorem Effect.trans (h : Effect bp bp' W) (h' : Effect bp' bp'' W') :
    Effect bp bp'' (W ++ W') := by
  obtain ⟨R, hR, hstut⟩ := h.records
  obtain ⟨R', hR', hstut'⟩ := h'.records
  refine ⟨h'.poolSize_eq.trans h.poolSize_eq, h'.wal_isSome.trans h.wal_isSome,
    h.io_prefix.trans h'.io_prefix, R ++ R', by rw [hR', hR, List.append_assoc], fun hw => ?_⟩
  have hlogged : logged bp'.records = replay (logged bp.records) W := by
    rw [hR, logged_append, (hstut hw).replay_eq]
  rw [writesOf, List.map_append]
  exact (hstut hw).append (hlogged ▸ hstut' (h.wal_isSome ▸ hw))

theorem Quiet.refl (bp : BufferPool) : Quiet bp bp := ⟨.refl bp, rfl, rfl⟩

theorem Quiet.trans (h : Quiet bp bp') (h' : Quiet bp' bp'') : Quiet bp bp'' :=
  ⟨h.toEffect.trans h'.toEffect, h'.view_eq.trans h.view_eq, h'.next_eq.trans h.next_eq⟩

/-! ## Capacity -/

theorem Core.live_frame_nodup (h : Core base bp live unlogged) :
    (live.map PageGuard.frame).Nodup := by
  refine List.Nodup.map_on (fun g hg g' hg' heq => ?_) (.of_map _ h.live_nodup)
  have hpage : g.pageId = g'.pageId :=
    h.table_inj (h.live_table g hg) (heq ▸ h.live_table g' hg')
  exact List.inj_on_of_nodup_map h.live_nodup hg hg' hpage

theorem Core.unlogged_lt_next (h : Core base bp live unlogged) (hp : pageId ∈ unlogged) :
    pageId < bp.next := by
  obtain ⟨g, hg, rfl, -⟩ := h.unlogged_live pageId hp
  exact h.table_next (h.live_table g hg)

/-- With fewer live guards than frames, some frame is free or unpinned. -/
theorem exists_unpinned (live : List PageGuard) (hfree : live.length < bp.poolSize) :
    ∃ f < bp.poolSize, f ∉ live.map PageGuard.frame := by
  by_contra hall
  push Not at hall
  have hsub : List.range bp.poolSize ⊆ live.map PageGuard.frame :=
    fun f hf => hall f (List.mem_range.mp hf)
  have hle := (List.subperm_of_subset List.nodup_range hsub).length_le
  simp only [List.length_range, List.length_map] at hle
  omega

/-- With as many live guards as frames, every frame of the pool is pinned by one. -/
theorem Good.pinned_of_full (h : Good base bp live unlogged) (hfull : bp.poolSize ≤ live.length)
    (hf : f < bp.poolSize) : f ∈ live.map PageGuard.frame := by
  have hsub : live.map PageGuard.frame ⊆ List.range bp.poolSize := by
    intro f hf
    obtain ⟨g, hg, rfl⟩ := List.mem_map.mp hf
    exact List.mem_range.mpr (h.table_lt (h.live_table g hg))
  have hperm := (List.subperm_of_subset h.live_frame_nodup hsub).perm_of_length_le
    (by simpa using hfull)
  exact hperm.mem_iff.mpr (List.mem_range.mpr hf)

/-! ## Finding a frame -/

/-- A page taken out of the page table, its frame off the LRU list. -/
def unload (bp : BufferPool) (pageId : PageId) (f : FrameId) : BufferPool :=
  { bp.removeFromLRU f with pageTable := Function.update bp.pageTable pageId none }

theorem Core.table_unload (h : Core base bp live unlogged) (ht : bp.pageTable pageId = some f)
    {q : PageId} {f' : FrameId} :
    (bp.unload pageId f).pageTable q = some f' ↔ bp.pageTable q = some f' ∧ f' ≠ f := by
  by_cases hq : q = pageId
  · subst hq
    simp only [unload, Function.update_self, ht, Option.some.injEq]
    constructor
    · intro hno; cases hno
    · rintro ⟨rfl, hne⟩; exact absurd rfl hne
  · simp only [unload, Function.update_of_ne hq]
    refine ⟨fun ht' => ⟨ht', ?_⟩, And.left⟩
    rintro rfl
    exact hq (h.table_inj ht' ht)

/-- Unloading an unpinned page that the file holds in its current state. -/
theorem Core.unload (h : Core base bp live unlogged) (ht : bp.pageTable pageId = some f)
    (hpin : f ∉ live.map PageGuard.frame)
    (hfile : bp.disk.file.view pageId = some (bp.frames f).page.body) :
    Core base (bp.unload pageId f) live unlogged ∧ (bp.unload pageId f).view = bp.view := by
  have hview : (bp.unload pageId f).view = bp.view := by
    funext q
    by_cases hq : q = pageId
    · subst hq
      rw [view_of_table ht, view_of_notCached (by simp [BufferPool.unload])]
      exact hfile
    · simp only [view, BufferPool.unload, Function.update_of_ne hq, removeFromLRU]
  have hlru : ∀ {f'}, f' ∈ (bp.unload pageId f).lruList ↔ f' ∈ bp.lruList ∧ f' ≠ f :=
    fun {f'} => h.lru_nodup.mem_erase_iff.trans and_comm
  refine ⟨?_, hview⟩
  exact
    { table_lt := fun ht' => h.table_lt ((h.table_unload ht).mp ht').1
      table_frame := fun ht' => h.table_frame ((h.table_unload ht).mp ht').1
      lru_iff := by
        intro f'
        simp only [hlru, h.lru_iff, h.table_unload ht, exists_and_right]
      lru_nodup := h.lru_nodup.erase f
      free_nodup := h.free_nodup
      free_lt := h.free_lt
      free_notMem := fun f' hf' hmem => h.free_notMem f' hf' (hlru.mp hmem).1
      pins := fun f' hf' => h.pins f' (hlru.mp hf').1
      live_table := fun g hg => (h.table_unload ht).mpr
        ⟨h.live_table g hg, fun heq => hpin (heq ▸ List.mem_map_of_mem hg)⟩
      live_nodup := h.live_nodup
      clean := fun ht' => h.clean ((h.table_unload ht).mp ht').1
      table_next := fun ht' => h.table_next ((h.table_unload ht).mp ht').1
      file_next := h.file_next
      unlogged_live := h.unlogged_live
      journaled := fun w hw => (h.journaled w hw).congr rfl rfl fun q hq => by
        rw [hview]; exact (h.journaled w hw).synced q hq }

/-- Evicting an unpinned page: written back first when dirty, which the write-ahead rule allows
because an unpinned page is logged. -/
theorem Core.evict (h : Core base bp live unlogged) (hlru : f ∈ bp.lruList)
    (hpin : f ∉ live.map PageGuard.frame) :
    Core base (bp.evict f) live unlogged ∧ Quiet bp (bp.evict f) ∧
      (bp.evict f).freeList = bp.freeList ∧ (bp.evict f).lruList = bp.lruList.erase f ∧
      ∀ q, bp.pageTable q = none → (bp.evict f).pageTable q = none := by
  obtain ⟨p, ht⟩ := h.lru_iff.mp hlru
  have hp : p ∉ unlogged := by
    intro hmem
    obtain ⟨g, hg, rfl, -⟩ := h.unlogged_live p hmem
    rw [h.live_table g hg] at ht
    exact hpin (Option.some.inj ht ▸ List.mem_map_of_mem hg)
  have htable : ∀ q, bp.pageTable q = none →
      Function.update bp.pageTable p none q = none := by
    intro q hq
    by_cases hpq : q = p
    · rw [hpq, Function.update_self]
    · rw [Function.update_of_ne hpq, hq]
  by_cases hdirty : (bp.frames f).dirty = true
  · have heq : bp.evict f = (bp.writeFrame p f).unload p f := by
      simp only [BufferPool.evict, removeFromLRU, h.table_frame ht, hdirty, if_true]
      rfl
    have hcore := h.writeFrame ht hp
    obtain ⟨hcore, hview⟩ := hcore.unload (f := f) ht hpin (by
      rw [writeFrame_fileView, Function.update_self]
      exact congrArg some (writeFrame_alike bp p f f).body_eq.symm)
    rw [heq]
    exact ⟨hcore, ⟨.silent rfl rfl (List.prefix_append _ _), hview.trans (writeFrame_view ht), rfl⟩,
      rfl, rfl, htable⟩
  · have heq : bp.evict f = bp.unload p f := by
      simp only [BufferPool.evict, removeFromLRU, h.table_frame ht, hdirty]
      rfl
    obtain ⟨hcore, hview⟩ := h.unload ht hpin (h.clean ht (by simpa using hdirty))
    rw [heq]
    exact ⟨hcore, ⟨.silent rfl rfl (List.prefix_refl _), hview, rfl⟩, rfl, rfl, htable⟩

/-- The LRU victim is a cached page's unpinned frame. -/
theorem Core.lruVictim_some (h : Core base bp live unlogged) (hv : bp.lruVictim = some f) :
    f ∈ bp.lruList ∧ f ∉ live.map PageGuard.frame := by
  have hmem : f ∈ bp.lruList := List.mem_reverse.mp (List.mem_of_find?_eq_some hv)
  have hpin := List.find?_some hv
  refine ⟨hmem, fun hlive => ?_⟩
  rw [h.pins f hmem, beq_iff_eq] at hpin
  exact List.count_eq_zero.mp hpin hlive

theorem Core.lruVictim_none (h : Core base bp live unlogged) (hv : bp.lruVictim = none)
    (hf : f ∈ bp.lruList) : f ∈ live.map PageGuard.frame := by
  have hpin := List.find?_eq_none.mp hv f (List.mem_reverse.mpr hf)
  rw [h.pins f hf, beq_iff_eq] at hpin
  exact not_imp_comm.mp List.count_eq_zero.mpr hpin

/-- **A frame is found exactly when fewer guards are alive than the pool has frames.** -/
theorem Good.findVictimFrame (h : Good base bp live unlogged) (hfree : live.length < bp.poolSize) :
    ∃ f bp', bp.findVictimFrame = (some f, bp') ∧ Core base bp' live unlogged ∧ bp'.Vacant f ∧
      Quiet bp bp' ∧ ∀ q, bp.pageTable q = none → bp'.pageTable q = none := by
  unfold BufferPool.findVictimFrame
  cases hl : bp.freeList with
  | cons f rest =>
    have hnodup := hl ▸ h.free_nodup
    refine ⟨f, { bp with freeList := rest }, rfl, ?_, ?_, ⟨.silent rfl rfl (List.prefix_refl _), rfl,
      rfl⟩, fun _ hq => hq⟩
    · exact
        { h.toCore with
          free_nodup := (List.nodup_cons.mp hnodup).2
          free_lt := fun f' hf' => h.free_lt f' (hl ▸ List.mem_cons_of_mem _ hf')
          free_notMem := fun f' hf' => h.free_notMem f' (hl ▸ List.mem_cons_of_mem _ hf')
          journaled := fun w hw => (h.journaled w hw).congr rfl rfl (h.journaled w hw).synced }
    · have hf : f ∈ bp.freeList := hl ▸ List.mem_cons_self
      refine ⟨h.free_lt f hf, (List.nodup_cons.mp hnodup).1, h.free_notMem f hf, ?_⟩
      intro f' hf' hne
      refine (h.cover f' hf').imp_left fun hmem => ?_
      rw [hl] at hmem
      exact List.mem_of_ne_of_mem hne hmem
  | nil =>
    obtain ⟨f₀, hf₀, hunpinned⟩ := exists_unpinned live hfree
    have hcover : ∀ f < bp.poolSize, f ∈ bp.lruList := fun f hf =>
      (h.cover f hf).resolve_left (by simp [hl])
    cases hv : bp.lruVictim with
    | none => exact absurd (h.lruVictim_none hv (hcover f₀ hf₀)) hunpinned
    | some f =>
      obtain ⟨hlru, hpin⟩ := h.lruVictim_some hv
      obtain ⟨hcore, hquiet, hfl, hll, htable⟩ := h.evict hlru hpin
      obtain ⟨p, ht⟩ := h.lru_iff.mp hlru
      refine ⟨f, bp.evict f, rfl, hcore, ⟨?_, by simp [hfl, hl], ?_, ?_⟩, hquiet, htable⟩
      · rw [hquiet.poolSize_eq]; exact h.table_lt ht
      · rw [hll]; exact h.lru_nodup.not_mem_erase
      · intro f' hf' hne
        rw [hquiet.poolSize_eq] at hf'
        right
        rw [hll]
        exact (List.mem_erase_of_ne hne).mpr (hcover f' hf')

theorem Good.findVictimFrame_full (h : Good base bp live unlogged)
    (hfull : bp.poolSize ≤ live.length) : bp.findVictimFrame = (none, bp) := by
  have hpinned : ∀ f < bp.poolSize, f ∈ bp.lruList := by
    intro f hf
    obtain ⟨g, hg, rfl⟩ := List.mem_map.mp (h.pinned_of_full hfull hf)
    exact h.live_lru hg
  have hfree : bp.freeList = [] :=
    List.eq_nil_iff_forall_not_mem.mpr fun f hf =>
      h.free_notMem f hf (hpinned f (h.free_lt f hf))
  have hvictim : bp.lruVictim = none := by
    cases hv : bp.lruVictim with
    | none => rfl
    | some f =>
      obtain ⟨hmem, hpin⟩ := h.lruVictim_some hv
      obtain ⟨p, ht⟩ := h.lru_iff.mp hmem
      exact absurd (h.pinned_of_full hfull (h.table_lt ht)) hpin
  simp only [BufferPool.findVictimFrame, hfree, hvictim]

/-! ## Handing out guards -/

/-- Entering a page in a vacant frame, pinned once. -/
theorem Core.install (h : Core base bp live unlogged) (hv : bp.Vacant f)
    (ht : bp.pageTable pageId = none) (hlt : pageId < bp.next) (frame : Frame)
    (unlogged' : List PageId) (hpage : frame.pageId = some pageId) (hpin : frame.pinCount = 1)
    (hclean : frame.dirty = false → bp.disk.file.view pageId = some frame.page.body)
    (hu : ∀ q ∈ unlogged', q ∈ unlogged ∨ q = pageId ∧ frame.dirty = true)
    (hu' : ∀ q, q ∉ unlogged' → q ∉ unlogged ∧ (q = pageId → frame.dirty = false)) :
    Good base (bp.install pageId f frame) (⟨pageId, f⟩ :: live) unlogged' ∧
      (bp.install pageId f frame).view = write bp.view (pageId, frame.page.body) := by
  have hlru : ∀ {f'}, f' ∈ (bp.install pageId f frame).lruList ↔ f' = f ∨ f' ∈ bp.lruList := by
    intro f'
    simp only [BufferPool.install, touchLRU, setFrame, List.mem_cons,
      List.erase_of_not_mem hv.notMem_lru]
  have hnotCached : ∀ {q f'}, bp.pageTable q = some f' → f' ≠ f := by
    rintro q f' hq rfl
    exact hv.notMem_lru (h.lru_iff.mpr ⟨q, hq⟩)
  have htable : ∀ {q f'}, (bp.install pageId f frame).pageTable q = some f' ↔
      (q = pageId ∧ f' = f) ∨ bp.pageTable q = some f' := by
    intro q f'
    by_cases hq : q = pageId
    · subst hq
      simp only [BufferPool.install, touchLRU, Function.update_self, Option.some.injEq, ht,
        true_and, reduceCtorEq, or_false, eq_comm]
    · simp only [BufferPool.install, touchLRU, Function.update_of_ne hq, hq, false_and, false_or,
        setFrame]
  have hframe : (bp.install pageId f frame).frames f = frame := by
    simp [BufferPool.install, touchLRU, setFrame]
  have hframes : ∀ {f'}, f' ≠ f → (bp.install pageId f frame).frames f' = bp.frames f' := by
    intro f' hne
    simp [BufferPool.install, touchLRU, setFrame, Function.update_of_ne hne]
  have hcached : ∀ {q f'}, bp.pageTable q = some f' →
      (bp.install pageId f frame).frames f' = bp.frames f' :=
    fun hq => hframes (hnotCached hq)
  have hview : (bp.install pageId f frame).view = write bp.view (pageId, frame.page.body) := by
    funext q
    by_cases hq : q = pageId
    · subst hq
      rw [view_of_table (htable.mpr (.inl ⟨rfl, rfl⟩)), hframe, write_self]
    · rw [write_of_ne _ _ hq]
      cases hq' : bp.pageTable q with
      | some f' =>
        rw [view_of_table (htable.mpr (.inr hq')), view_of_table hq', hcached hq']
      | none =>
        rw [view_of_notCached hq', view_of_notCached]
        · rfl
        · simp only [BufferPool.install, touchLRU, Function.update_of_ne hq, setFrame, hq']
  have hlive : f ∉ live.map PageGuard.frame := by
    intro hmem
    obtain ⟨g, hg, heq⟩ := List.mem_map.mp hmem
    exact hv.notMem_lru (heq ▸ h.live_lru hg)
  refine ⟨?_, hview⟩
  exact
    { table_lt := by
        rintro q f' hq
        rcases htable.mp hq with ⟨-, rfl⟩ | hq
        · exact hv.lt
        · exact h.table_lt hq
      table_frame := by
        rintro q f' hq
        rcases htable.mp hq with ⟨rfl, rfl⟩ | hq
        · rw [hframe, hpage]
        · rw [hcached hq, h.table_frame hq]
      lru_iff := by
        intro f'
        simp only [hlru, htable, h.lru_iff, exists_or, exists_eq_left]
      lru_nodup := List.nodup_cons.mpr
        ⟨h.lru_nodup.not_mem_erase, h.lru_nodup.erase f⟩
      free_nodup := h.free_nodup
      free_lt := h.free_lt
      free_notMem := by
        intro f' hf' hmem
        rcases hlru.mp hmem with rfl | hmem
        · exact hv.notMem_free hf'
        · exact h.free_notMem f' hf' hmem
      pins := by
        intro f' hf'
        rw [List.map_cons]
        rcases hlru.mp hf' with rfl | hf'
        · rw [hframe, hpin, List.count_cons_self, List.count_eq_zero.mpr hlive]
        · have hne : f' ≠ f := fun heq => hv.notMem_lru (heq ▸ hf')
          rw [hframes hne, List.count_cons_of_ne hne.symm, h.pins f' hf']
      live_table := by
        intro g hg
        rcases List.mem_cons.mp hg with rfl | hg
        · exact htable.mpr (.inl ⟨rfl, rfl⟩)
        · exact htable.mpr (.inr (h.live_table g hg))
      live_nodup := by
        refine List.nodup_cons.mpr ⟨fun hmem => ?_, h.live_nodup⟩
        obtain ⟨g, hg, rfl⟩ := List.mem_map.mp hmem
        rw [h.live_table g hg] at ht
        cases ht
      clean := by
        intro q f' hq hd
        rcases htable.mp hq with ⟨rfl, rfl⟩ | hq
        · rw [hframe] at hd ⊢
          exact hclean hd
        · rw [hcached hq] at hd ⊢
          exact h.clean hq hd
      table_next := by
        intro q f' hq
        rcases htable.mp hq with ⟨rfl, rfl⟩ | hq
        · exact hlt
        · exact h.table_next hq
      file_next := h.file_next
      unlogged_live := by
        intro q hq
        rcases hu q hq with hq | ⟨rfl, hd⟩
        · obtain ⟨g, hg, hgq, hd⟩ := h.unlogged_live q hq
          exact ⟨g, List.mem_cons_of_mem _ hg, hgq, by rw [hcached (h.live_table g hg)]; exact hd⟩
        · exact ⟨⟨q, f⟩, List.mem_cons_self, rfl, by rw [hframe]; exact hd⟩
      journaled := by
        intro w hw
        refine (h.journaled w hw).congr rfl rfl fun q hq => ?_
        obtain ⟨hq, hsame⟩ := hu' q hq
        rw [(h.journaled w hw).synced q hq, hview]
        by_cases hqp : q = pageId
        · subst hqp
          rw [write_self, view_of_notCached ht]
          exact hclean (hsame rfl)
        · rw [write_of_ne _ _ hqp]
      cover := by
        intro f' hf'
        by_cases hne : f' = f
        · exact .inr (hlru.mpr (.inl hne))
        · exact (hv.cover f' hf' hne).imp_right fun hmem => hlru.mpr (.inr hmem) }

/-- Pinning a page that is already cached. -/
theorem Good.pin (h : Good base bp live unlogged) (ht : bp.pageTable pageId = some f)
    (hlive : pageId ∉ live.map PageGuard.pageId) :
    Good base ((bp.setFrame f { bp.frames f with pinCount := (bp.frames f).pinCount + 1 }).touchLRU f)
        (⟨pageId, f⟩ :: live) unlogged ∧
      Quiet bp ((bp.setFrame f
        { bp.frames f with pinCount := (bp.frames f).pinCount + 1 }).touchLRU f) := by
  set frame : Frame := { bp.frames f with pinCount := (bp.frames f).pinCount + 1 } with hframe
  have hlru : ∀ {f'}, f' ∈ ((bp.setFrame f frame).touchLRU f).lruList ↔ f' ∈ bp.lruList := by
    intro f'
    have hf : f ∈ bp.lruList := h.lru_iff.mpr ⟨pageId, ht⟩
    simp only [touchLRU, setFrame, List.mem_cons, h.lru_nodup.mem_erase_iff]
    constructor
    · rintro (rfl | ⟨-, hmem⟩)
      exacts [hf, hmem]
    · intro hmem
      exact (eq_or_ne f' f).imp_right fun hne => ⟨hne, hmem⟩
  have hself : ((bp.setFrame f frame).touchLRU f).frames f = frame := by
    simp [touchLRU, setFrame]
  have hother : ∀ {f'}, f' ≠ f → ((bp.setFrame f frame).touchLRU f).frames f' = bp.frames f' := by
    intro f' hne
    simp [touchLRU, setFrame, Function.update_of_ne hne]
  have hpage : ∀ f', (((bp.setFrame f frame).touchLRU f).frames f').page = (bp.frames f').page ∧
      (((bp.setFrame f frame).touchLRU f).frames f').pageId = (bp.frames f').pageId ∧
      (((bp.setFrame f frame).touchLRU f).frames f').dirty = (bp.frames f').dirty := by
    intro f'
    by_cases hne : f' = f
    · rw [hne, hself]; exact ⟨rfl, rfl, rfl⟩
    · rw [hother hne]; exact ⟨rfl, rfl, rfl⟩
  have hview : ((bp.setFrame f frame).touchLRU f).view = bp.view := by
    funext q
    cases hq : bp.pageTable q with
    | some f' =>
      have hq' : ((bp.setFrame f frame).touchLRU f).pageTable q = some f' := hq
      rw [view_of_table hq, view_of_table hq', (hpage f').1]
    | none =>
      have hq' : ((bp.setFrame f frame).touchLRU f).pageTable q = none := hq
      rw [view_of_notCached hq, view_of_notCached hq']
      rfl
  refine ⟨?_, .silent rfl rfl (List.prefix_refl _), hview, rfl⟩
  exact
    { table_lt := h.table_lt
      table_frame := fun hq => (hpage _).2.1.trans (h.table_frame hq)
      lru_iff := hlru.trans h.lru_iff
      lru_nodup := List.nodup_cons.mpr ⟨h.lru_nodup.not_mem_erase, h.lru_nodup.erase f⟩
      free_nodup := h.free_nodup
      free_lt := h.free_lt
      free_notMem := fun f' hf' hmem => h.free_notMem f' hf' (hlru.mp hmem)
      pins := by
        intro f' hf'
        have hpins := h.pins f' (hlru.mp hf')
        rw [List.map_cons]
        by_cases hne : f' = f
        · subst hne
          rw [hself, List.count_cons_self, ← hpins]
        · rw [hother hne, List.count_cons_of_ne (Ne.symm hne), hpins]
      live_table := by
        intro g hg
        rcases List.mem_cons.mp hg with rfl | hg
        exacts [ht, h.live_table g hg]
      live_nodup := List.nodup_cons.mpr ⟨hlive, h.live_nodup⟩
      clean := fun hq hd => by
        rw [(hpage _).1]
        exact h.clean hq ((hpage _).2.2.symm.trans hd)
      table_next := h.table_next
      file_next := h.file_next
      unlogged_live := by
        intro q hq
        obtain ⟨g, hg, hgq, hd⟩ := h.unlogged_live q hq
        exact ⟨g, List.mem_cons_of_mem _ hg, hgq, (hpage _).2.2.trans hd⟩
      journaled := fun w hw => (h.journaled w hw).congr rfl rfl fun q hq => by
        rw [hview]; exact (h.journaled w hw).synced q hq
      cover := fun f' hf' => (h.cover f' hf').imp_right hlru.mpr }

/-! ## Using and releasing guards -/

/-- One cached frame replaced: the invariant for the guards `live'` and the unlogged pages
`unlogged'` the step leaves behind. -/
theorem Good.setFrame (h : Good base bp live unlogged) (ht : bp.pageTable pageId = some f)
    (frame : Frame) (live' : List PageGuard) (unlogged' : List PageId)
    (hpage : frame.pageId = some pageId)
    (hpin : frame.pinCount = (live'.map PageGuard.frame).count f)
    (hpins : ∀ f', f' ≠ f →
      (live'.map PageGuard.frame).count f' = (live.map PageGuard.frame).count f')
    (hsub : live'.Sublist live)
    (hclean : frame.dirty = false → bp.disk.file.view pageId = some frame.page.body)
    (hu : ∀ q ∈ unlogged', (∃ g ∈ live', g.pageId = q) ∧
      (q = pageId → frame.dirty = true) ∧ (q ≠ pageId → q ∈ unlogged))
    (hu' : ∀ q, q ∉ unlogged' → q ∉ unlogged ∧
      (q = pageId → frame.page.body = (bp.frames f).page.body)) :
    Good base (bp.setFrame f frame) live' unlogged' ∧
      (bp.setFrame f frame).view = write bp.view (pageId, frame.page.body) := by
  have hself : (bp.setFrame f frame).frames f = frame := by simp [BufferPool.setFrame]
  have hother : ∀ {f'}, f' ≠ f → (bp.setFrame f frame).frames f' = bp.frames f' := by
    intro f' hne
    simp [BufferPool.setFrame, Function.update_of_ne hne]
  have hne : ∀ {q f'}, bp.pageTable q = some f' → q ≠ pageId → f' ≠ f := by
    rintro q f' hq hqp rfl
    exact hqp (h.table_inj hq ht)
  have hview : (bp.setFrame f frame).view = write bp.view (pageId, frame.page.body) := by
    funext q
    by_cases hq : q = pageId
    · subst hq
      have ht' : (bp.setFrame f frame).pageTable q = some f := ht
      rw [view_of_table ht', hself, write_self]
    · rw [write_of_ne _ _ hq]
      cases hq' : bp.pageTable q with
      | some f' =>
        have hq'' : (bp.setFrame f frame).pageTable q = some f' := hq'
        rw [view_of_table hq'', view_of_table hq', hother (hne hq' hq)]
      | none =>
        have hq'' : (bp.setFrame f frame).pageTable q = none := hq'
        rw [view_of_notCached hq'', view_of_notCached hq']
        rfl
  refine ⟨?_, hview⟩
  exact
    { table_lt := h.table_lt
      table_frame := by
        intro q f' hq
        by_cases hf : f' = f
        · subst hf
          rw [hself, hpage, h.table_inj hq ht]
        · rw [hother hf, h.table_frame hq]
      lru_iff := h.lru_iff
      lru_nodup := h.lru_nodup
      free_nodup := h.free_nodup
      free_lt := h.free_lt
      free_notMem := h.free_notMem
      pins := by
        intro f' hf'
        by_cases hf : f' = f
        · rw [hf, hself, hpin]
        · rw [hother hf, hpins f' hf, h.pins f' hf']
      live_table := fun g hg => h.live_table g (hsub.subset hg)
      live_nodup := h.live_nodup.sublist (hsub.map _)
      clean := by
        intro q f' hq hd
        by_cases hqp : q = pageId
        · subst hqp
          obtain rfl := Option.some.inj (hq.symm.trans ht)
          rw [hself] at hd ⊢
          exact hclean hd
        · rw [hother (hne hq hqp)] at hd ⊢
          exact h.clean hq hd
      table_next := h.table_next
      file_next := h.file_next
      unlogged_live := by
        intro q hq
        obtain ⟨⟨g, hg, hgq⟩, hself', hold⟩ := hu q hq
        have htq : bp.pageTable q = some g.frame := hgq ▸ h.live_table g (hsub.subset hg)
        refine ⟨g, hg, hgq, ?_⟩
        by_cases hqp : q = pageId
        · rw [hqp, ht] at htq
          rw [← Option.some.inj htq, hself]
          exact hself' hqp
        · obtain ⟨g', hg', rfl, hd⟩ := h.unlogged_live q (hold hqp)
          rw [h.live_table g' hg'] at htq
          rw [← Option.some.inj htq, hother (hne (h.live_table g' hg') hqp)]
          exact hd
      journaled := by
        intro w hw
        refine (h.journaled w hw).congr rfl rfl fun q hq => ?_
        obtain ⟨hq, hsame⟩ := hu' q hq
        rw [(h.journaled w hw).synced q hq, hview]
        by_cases hqp : q = pageId
        · rw [hqp, write_self, hsame hqp, view_of_table ht]
        · rw [write_of_ne _ _ hqp]
      cover := h.cover }

/-- The page a live guard pins reads as the view says. -/
theorem Good.page {g : PageGuard} (h : Good base bp live unlogged) (hg : g ∈ live) {b : PageBody}
    (hb : bp.view g.pageId = some b) : g.page bp = .ok b bp := by
  rw [view_of_table (h.live_table g hg)] at hb
  simp only [PageGuard.page, Option.some.inj hb]

theorem Core.dirty {g : PageGuard} (h : Core base bp live unlogged) (hg : g ∈ live)
    (hu : g.pageId ∈ unlogged) : (bp.frames g.frame).dirty = true := by
  obtain ⟨g', hg', hpage, hd⟩ := h.unlogged_live _ hu
  have ht := h.live_table g' hg'
  rw [hpage, h.live_table g hg] at ht
  rw [Option.some.inj ht]
  exact hd

/-- Marking a page that is already dirty changes nothing. -/
theorem Good.markDirty {g : PageGuard} (h : Good base bp live unlogged) (hg : g ∈ live)
    (hu : g.pageId ∈ unlogged) : g.markDirty bp = .ok () bp := by
  have hsame : ({ bp.frames g.frame with dirty := true } : Frame) = bp.frames g.frame := by
    rw [← h.dirty hg hu]
  simp only [PageGuard.markDirty, BufferPool.setFrame, hsame, Function.update_eq_self]

/-- Overwriting a page that is already dirty and unlogged. -/
theorem Good.write {g : PageGuard} (h : Good base bp live unlogged) (hg : g ∈ live)
    (hu : g.pageId ∈ unlogged) (b : PageBody) :
    ∃ bp', g.write b bp = .ok () bp' ∧ Good base bp' live unlogged ∧ Effect bp bp' [] ∧
      bp'.view = WriteLog.write bp.view (g.pageId, b) ∧ bp'.next = bp.next := by
  have ht := h.live_table g hg
  have hd := h.dirty hg hu
  obtain ⟨hgood, hview⟩ := h.setFrame ht
    { bp.frames g.frame with page := { (bp.frames g.frame).page with body := b } } live unlogged
    (h.table_frame ht) (h.pins _ (h.live_lru hg)) (fun _ _ => rfl) (List.Sublist.refl _)
    (fun hclean => by rw [show (bp.frames g.frame).dirty = true from hd] at hclean; cases hclean)
    (fun q hq => by
      obtain ⟨g', hg', hpage, -⟩ := h.unlogged_live q hq
      exact ⟨⟨g', hg', hpage⟩, fun _ => hd, fun _ => hq⟩)
    (fun q hq => ⟨hq, fun heq => absurd (heq ▸ hu) hq⟩)
  exact ⟨_, rfl, hgood, .silent rfl rfl (List.prefix_refl _), hview, rfl⟩

/-- Overwriting a page and marking it dirty: it is unlogged from here on. -/
theorem Good.writeDirty {g : PageGuard} (h : Good base bp live unlogged) (hg : g ∈ live)
    (b : PageBody) :
    ∃ bp₁ bp', g.write b bp = .ok () bp₁ ∧ g.markDirty bp₁ = .ok () bp' ∧
      Good base bp' live (g.pageId :: unlogged) ∧ Effect bp bp' [] ∧
      bp'.view = WriteLog.write bp.view (g.pageId, b) ∧ bp'.next = bp.next := by
  have ht := h.live_table g hg
  obtain ⟨hgood, hview⟩ := h.setFrame ht
    { bp.frames g.frame with page := { (bp.frames g.frame).page with body := b }, dirty := true }
    live (g.pageId :: unlogged)
    (h.table_frame ht) (h.pins _ (h.live_lru hg)) (fun _ _ => rfl) (List.Sublist.refl _)
    (fun hclean => by cases hclean)
    (fun q hq => by
      rcases List.mem_cons.mp hq with rfl | hq
      · exact ⟨⟨g, hg, rfl⟩, fun _ => rfl, fun hne => absurd rfl hne⟩
      · obtain ⟨g', hg', hpage, -⟩ := h.unlogged_live q hq
        exact ⟨⟨g', hg', hpage⟩, fun _ => rfl, fun _ => hq⟩)
    (fun q hq => ⟨fun hmem => hq (List.mem_cons_of_mem _ hmem),
      fun heq => absurd (heq ▸ List.mem_cons_self) hq⟩)
  refine ⟨_, _, rfl, rfl, ?_⟩
  have hset : (((bp.setFrame g.frame
      { bp.frames g.frame with page := { (bp.frames g.frame).page with body := b } }).setFrame
        g.frame { (bp.setFrame g.frame { bp.frames g.frame with
          page := { (bp.frames g.frame).page with body := b } }).frames g.frame with dirty := true }))
      = bp.setFrame g.frame { bp.frames g.frame with
          page := { (bp.frames g.frame).page with body := b }, dirty := true } := by
    simp [BufferPool.setFrame]
  rw [hset]
  exact ⟨hgood, .silent rfl rfl (List.prefix_refl _), hview, rfl⟩

/-- Dropping the pin of the guard on top. -/
theorem Good.unpin {g : PageGuard} (h : Good base bp (g :: live) unlogged)
    (hu : g.pageId ∉ unlogged) :
    Good base (bp.setFrame g.frame
        { bp.frames g.frame with pinCount := (bp.frames g.frame).pinCount - 1 }) live unlogged ∧
      Quiet bp (bp.setFrame g.frame
        { bp.frames g.frame with pinCount := (bp.frames g.frame).pinCount - 1 }) := by
  have ht := h.live_table g List.mem_cons_self
  have hcount := h.pins _ (h.live_lru List.mem_cons_self)
  rw [List.map_cons, List.count_cons_self] at hcount
  obtain ⟨hgood, hview⟩ := h.setFrame ht
    { bp.frames g.frame with pinCount := (bp.frames g.frame).pinCount - 1 } live unlogged
    (h.table_frame ht) (by simp only [hcount, Nat.add_sub_cancel])
    (fun f' hne => by rw [List.map_cons, List.count_cons_of_ne (Ne.symm hne)])
    (List.sublist_cons_self _ _) (fun hd => h.clean ht hd)
    (fun q hq => by
      obtain ⟨g', hg', hpage, -⟩ := h.unlogged_live q hq
      have hne : q ≠ g.pageId := fun heq => hu (heq ▸ hq)
      rcases List.mem_cons.mp hg' with rfl | hg'
      · exact absurd hpage.symm hne
      · exact ⟨⟨g', hg', hpage⟩, fun heq => absurd heq hne, fun _ => hq⟩)
    (fun q hq => ⟨hq, fun _ => rfl⟩)
  refine ⟨hgood, .silent rfl rfl (List.prefix_refl _), ?_, rfl⟩
  rw [hview]
  exact write_eq_self (view_of_table ht)

/-- `Release` of a page with its dirty flag set is logging and unpinning. -/
theorem Core.release_dirty {g : PageGuard} (h : Core base bp (g :: live) unlogged)
    (hd : (bp.frames g.frame).dirty = true) :
    g.release bp = (bp.logFrame g.pageId g.frame).setFrame g.frame
      { (bp.logFrame g.pageId g.frame).frames g.frame with
        pinCount := ((bp.logFrame g.pageId g.frame).frames g.frame).pinCount - 1 } := by
  have hsame : bp.setFrame g.frame { bp.frames g.frame with dirty := true } = bp := by
    rw [BufferPool.setFrame, ← hd, Function.update_eq_self]
  simp only [PageGuard.release, unpinPage, h.live_table g List.mem_cons_self, hd, if_true, hsame]

/-- **Releasing an unlogged page logs it.** -/
theorem Good.release_unlogged {g : PageGuard} {b : PageBody}
    (h : Good base bp (g :: live) (g.pageId :: unlogged)) (hu : g.pageId ∉ unlogged)
    (hb : bp.view g.pageId = some b) :
    Good base (g.release bp) live unlogged ∧ Effect bp (g.release bp) [(g.pageId, b)] ∧
      (g.release bp).view = bp.view ∧ (g.release bp).next = bp.next := by
  have ht := h.live_table g List.mem_cons_self
  rw [view_of_table ht] at hb
  rw [h.release_dirty (h.dirty List.mem_cons_self List.mem_cons_self)]
  have hlog : Good base (bp.logFrame g.pageId g.frame) (g :: live) unlogged :=
    ⟨h.toCore.logFrame ht, by cases hw : bp.wal with
      | none => rw [logFrame_of_none hw]; exact h.cover
      | some w => rw [logFrame_of_some hw]; exact h.cover⟩
  obtain ⟨hgood, hquiet⟩ := hlog.unpin hu
  have heffect := (logFrame_effect bp g.pageId g.frame).trans
    hquiet.toEffect
  rw [Option.some.inj hb] at heffect
  refine ⟨hgood, heffect, hquiet.view_eq.trans (logFrame_view _ _ _), hquiet.next_eq.trans ?_⟩
  cases hw : bp.wal with
  | none => rw [logFrame_of_none hw]
  | some w => rw [logFrame_of_some hw]; rfl

/-- A release logs one record or none. -/
theorem release_records_length (g : PageGuard) (bp : BufferPool) :
    (g.release bp).records.length ≤ bp.records.length + 1 := by
  have hset : ∀ (bp : BufferPool) f frame, (bp.setFrame f frame).records = bp.records :=
    fun _ _ _ => rfl
  have hlog : ∀ (bp : BufferPool) p f,
      (bp.logFrame p f).records.length ≤ bp.records.length + 1 := fun bp p f => by
    cases hw : bp.wal with
    | none => rw [logFrame_of_none hw]; exact Nat.le_succ _
    | some w =>
      rw [logFrame_of_some hw]
      simp only [records, hw, WalManager.appendRecord, List.length_append,
        List.length_singleton, le_refl]
  unfold PageGuard.release unpinPage
  cases bp.pageTable g.pageId with
  | none => exact Nat.le_succ _
  | some f =>
    simp only [hset]
    split
    · exact hlog _ _ _
    · exact Nat.le_succ _

/-- Releasing a page that is logged already: if its dirty flag is set the same image is logged
once more. -/
theorem Good.release {g : PageGuard} (h : Good base bp (g :: live) unlogged)
    (hu : g.pageId ∉ unlogged) :
    Good base (g.release bp) live unlogged ∧ Quiet bp (g.release bp) := by
  have ht := h.live_table g List.mem_cons_self
  cases hd : (bp.frames g.frame).dirty with
  | false =>
    have heq : g.release bp = bp.setFrame g.frame
        { bp.frames g.frame with pinCount := (bp.frames g.frame).pinCount - 1 } := by
      simp [PageGuard.release, unpinPage, ht, hd]
    rw [heq]
    exact h.unpin hu
  | true =>
    have hb := view_of_table ht
    have hdebt : Good base bp (g :: live) (g.pageId :: unlogged) :=
      { h with
        unlogged_live := fun q hq => by
          rcases List.mem_cons.mp hq with rfl | hq
          · exact ⟨g, List.mem_cons_self, rfl, hd⟩
          · exact h.unlogged_live q hq
        journaled := fun w hw => (h.journaled w hw).congr rfl rfl fun q hq =>
          (h.journaled w hw).synced q fun hmem => hq (List.mem_cons_of_mem _ hmem) }
    obtain ⟨hgood, heffect, hview, hnext⟩ := hdebt.release_unlogged hu hb
    refine ⟨hgood, ⟨heffect.poolSize_eq, heffect.wal_isSome, heffect.io_prefix, ?_⟩, hview, hnext⟩
    obtain ⟨R, hR, hstut⟩ := heffect.records
    refine ⟨R, hR, fun hw => ?_⟩
    obtain ⟨w, hw'⟩ := Option.isSome_iff_exists.mp hw
    have hsame : logged bp.records g.pageId = some (bp.frames g.frame).page.body := by
      simp only [BufferPool.records, hw']
      exact ((h.journaled w hw').synced _ hu).trans hb
    exact (hstut hw).skip_last hsame

/-! ## Fetching and allocating -/

/-- **`FetchPage` of an existing page** pins it and changes nothing else, as long as some frame is
not pinned. -/
theorem Good.fetchPage (h : Good base bp live unlogged) {b : PageBody}
    (hb : bp.view pageId = some b) (hlive : pageId ∉ live.map PageGuard.pageId)
    (hfree : live.length < bp.poolSize) :
    ∃ f bp', BufferPool.fetchPage pageId bp = .ok (some ⟨pageId, f⟩) bp' ∧
      Good base bp' (⟨pageId, f⟩ :: live) unlogged ∧ Quiet bp bp' := by
  cases ht : bp.pageTable pageId with
  | some f =>
    obtain ⟨hgood, hquiet⟩ := h.pin ht hlive
    exact ⟨f, _, by simp only [BufferPool.fetchPage, ht], hgood, hquiet⟩
  | none =>
    obtain ⟨f, bp₁, hfind, hcore, hvacant, hquiet, htable⟩ := h.findVictimFrame hfree
    have ht₁ := htable pageId ht
    have hb₁ : bp₁.disk.file.view pageId = some b := by
      rw [← view_of_notCached ht₁, hquiet.view_eq, hb]
    obtain ⟨hreadable, hbody⟩ := DataFile.readable_of_view hb₁
    obtain ⟨hgood, hview⟩ := hcore.install hvacant ht₁ (hcore.lt_next (hquiet.view_eq ▸ hb))
      ⟨bp₁.disk.file.page pageId, some pageId, 1, false⟩ unlogged rfl rfl (fun _ => by rw [hb₁, hbody])
      (fun q hq => .inl hq) (fun q hq => ⟨hq, fun _ => rfl⟩)
    refine ⟨f, _, ?_, hgood, hquiet.trans ⟨.silent rfl rfl (List.prefix_refl _), ?_, rfl⟩⟩
    · simp only [BufferPool.fetchPage, ht, hfind, DiskManager.readPage_of_readable hreadable]
    · rw [hview]
      refine write_eq_self ?_
      rw [hquiet.view_eq, hb, hbody]

/-- With every frame pinned, `FetchPage` of a page no live guard holds finds none. -/
theorem Good.fetchPage_full (h : Good base bp live unlogged)
    (hlive : pageId ∉ live.map PageGuard.pageId) (hfull : bp.poolSize ≤ live.length) :
    BufferPool.fetchPage pageId bp = .ok none bp := by
  have ht : bp.pageTable pageId = none := by
    cases ht : bp.pageTable pageId with
    | none => rfl
    | some f =>
      obtain ⟨g, hg, hframe⟩ := List.mem_map.mp (h.pinned_of_full hfull (h.table_lt ht))
      have hpage : g.pageId = pageId := h.table_inj (h.live_table g hg) (hframe ▸ ht)
      exact absurd (hpage ▸ List.mem_map_of_mem hg) hlive
  simp only [BufferPool.fetchPage, ht, h.findVictimFrame_full hfull]

/-- **`NewPage`** hands out the next id; the page is empty, dirty and unlogged. -/
theorem Good.newPage (h : Good base bp live unlogged) (hfree : live.length < bp.poolSize) :
    ∃ f bp', BufferPool.newPage bp = .ok (some ⟨bp.next, f⟩) bp' ∧
      Good base bp' (⟨bp.next, f⟩ :: live) (bp.next :: unlogged) ∧ Effect bp bp' [] ∧
      bp'.view = WriteLog.write bp.view (bp.next, .invalid) ∧ bp'.next = bp.next + 1 := by
  obtain ⟨f, bp₁, hfind, hcore, hvacant, hquiet, -⟩ := h.findVictimFrame hfree
  have hnext : bp₁.disk.nextPageId = bp.next := hquiet.next_eq
  have hcore' : Core base { bp₁ with disk := bp₁.disk.allocatePage.2 } live unlogged :=
    { hcore with
      table_next := fun hq => Nat.lt_succ_of_lt (hcore.table_next hq)
      file_next := Nat.le_succ_of_le hcore.file_next
      journaled := fun w hw => (hcore.journaled w hw).congr rfl rfl
        (hcore.journaled w hw).synced }
  have ht : bp₁.pageTable bp.next = none := by
    cases ht : bp₁.pageTable bp.next with
    | none => rfl
    | some f' =>
      have hlt := hcore.table_next ht
      rw [hquiet.next_eq] at hlt
      exact absurd hlt (lt_irrefl _)
  have hvacant' : Vacant { bp₁ with disk := bp₁.disk.allocatePage.2 } f :=
    ⟨hvacant.lt, hvacant.notMem_free, hvacant.notMem_lru, hvacant.cover⟩
  have hlt : bp.next < bp₁.disk.allocatePage.2.nextPageId := by
    simp only [DiskManager.allocatePage, hnext, Nat.lt_succ_self]
  obtain ⟨hgood, hview⟩ := hcore'.install hvacant' ht hlt
    ⟨{ Page.zero with pageId := bp.next }, some bp.next, 1, true⟩ (bp.next :: unlogged) rfl rfl
    (fun hd => by cases hd)
    (fun q hq => (List.mem_cons.mp hq).symm.imp_right fun heq => ⟨heq, rfl⟩)
    (fun q hq => ⟨fun hmem => hq (List.mem_cons_of_mem _ hmem),
      fun heq => absurd (heq ▸ List.mem_cons_self) hq⟩)
  refine ⟨f, _, ?_, hgood, ?_, ?_, ?_⟩
  · simp only [BufferPool.newPage, hfind, DiskManager.allocatePage, hnext]
  · exact hquiet.toEffect.trans (.silent rfl rfl (List.prefix_refl _))
  · rw [hview, ← hquiet.view_eq]; rfl
  · simp only [next, BufferPool.install, touchLRU, BufferPool.setFrame, DiskManager.allocatePage,
      hnext]

theorem Good.newPage_full (h : Good base bp live unlogged) (hfull : bp.poolSize ≤ live.length) :
    BufferPool.newPage bp = .ok none bp := by
  simp only [BufferPool.newPage, h.findVictimFrame_full hfull]

/-! ## A fresh pool -/

/-- A pool opened on files whose log, if it has one, amounts to the data file. -/
theorem new_good {poolSize : Nat} {disk : DiskManager} {wal : Option WalManager}
    (hnext : disk.file.size ≤ disk.nextPageId)
    (hwal : ∀ w, wal = some w → w.Good ∧ logged w.validRecords = disk.file.view ∧
      (⟨disk.file, w.file⟩ : Files).WriteAhead) :
    Good (BufferPool.new poolSize disk wal).files (BufferPool.new poolSize disk wal) [] [] ∧
      (BufferPool.new poolSize disk wal).view = disk.file.view := by
  refine ⟨?_, rfl⟩
  exact
    { table_lt := fun ht => by cases ht
      table_frame := fun ht => by cases ht
      lru_iff := by simp [BufferPool.new]
      lru_nodup := List.nodup_nil
      free_nodup := List.nodup_reverse.mpr List.nodup_range
      free_lt := fun f hf => List.mem_range.mp (List.mem_reverse.mp hf)
      free_notMem := fun _ _ hmem => by cases hmem
      pins := fun _ hmem => by cases hmem
      live_table := fun _ hmem => by cases hmem
      live_nodup := List.nodup_nil
      clean := fun ht => by cases ht
      table_next := fun ht => by cases ht
      file_next := hnext
      unlogged_live := fun _ hmem => by cases hmem
      journaled := by
        rintro w rfl
        obtain ⟨hgood, hlogged, hahead⟩ := hwal w rfl
        refine ⟨hgood, rfl, (fun _ _ hmem => by cases hmem), fun k => ?_, fun q _ => congrFun hlogged q⟩
        rw [show (BufferPool.new poolSize disk (some w)).io = [] from rfl, List.take_nil]
        exact hahead
      cover := fun f hf => .inl (List.mem_reverse.mpr (List.mem_range.mpr hf)) }

/-- A pool on an empty data file, without a log or with an empty one. -/
theorem fresh_good (poolSize : Nat) {wal : Option WalManager}
    (hwal : wal = none ∨ wal = some (WalManager.new WalFile.empty)) :
    Good (BufferPool.new poolSize (DiskManager.new DataFile.empty) wal).files
        (BufferPool.new poolSize (DiskManager.new DataFile.empty) wal) [] [] ∧
      (BufferPool.new poolSize (DiskManager.new DataFile.empty) wal).view = WriteLog.empty := by
  have hempty : (DataFile.empty).view = WriteLog.empty := by
    funext p
    exact DataFile.view_eq_none_of_size_le (Nat.zero_le p)
  rw [← hempty]
  refine new_good le_rfl fun w hw => ?_
  rcases hwal with rfl | rfl
  · cases hw
  · obtain rfl := Option.some.inj hw
    have hgood : (WalManager.new WalFile.empty).Good :=
      { records_eq := rfl
        intact := fun r hr => by cases hr
        lsn_lt := fun r hr => by cases hr
        lsn_sorted := .nil
        tail_eq := rfl
        offset_eq := rfl }
    exact ⟨hgood, hempty.symm, fun n hn => absurd hn (Nat.not_lt_zero n), fun p hp => absurd rfl hp⟩

end BufferPool

end Reldb
