import Reldb.Tree.Chain
import Reldb.Pool.Spec

/-!
# Reldb — the tree's methods do what their store versions say

`Refines base live p bp r`: the program `p`, started on a good pool `bp` with the guards `live`
alive, comes to the run `r`: same result or exception, the log grown by the run's writes (and
repetitions of logged images), the view changed by them. A method that works on a page under a
guard leaves that page's last write to the guard's release; `UnderGuard` is the state in between.
-/

namespace Reldb

open WriteLog BufferPool

/-- A run's result as the outcome of a program that left the state `s` behind. -/
def Run.outcome {σ α : Type} (r : Run α) (s : σ) : EStateM.Result Exn σ α :=
  match r.result with
  | .ok a => .ok a s
  | .error e => .error e s

/-- The pool after a run: every write logged, nothing left to log. -/
structure Settled {α : Type} (base : Files) (live : List PageGuard) (bp : BufferPool) (r : Run α)
    (bp' : BufferPool) : Prop where
  good : Good base bp' live []
  effect : Effect bp bp' r.writes
  view_eq : bp'.view = r.store bp.view
  next_eq : bp'.next = r.next

/-- The pool after a run whose last write, to the page `g` pins, is not logged yet. -/
structure Pending {α : Type} (base : Files) (live : List PageGuard) (g : PageGuard)
    (bp : BufferPool) (r : Run α) (bp' : BufferPool) : Prop where
  good : Good base bp' (g :: live) [g.pageId]
  effect : ∃ W b, r.writes = W ++ [(g.pageId, b)] ∧ Effect bp bp' W
  view_eq : bp'.view = r.store bp.view
  next_eq : bp'.next = r.next

/-- `p` comes to the run `r`. -/
def Refines {α : Type} (base : Files) (live : List PageGuard) (p : Prog BufferPool α)
    (bp : BufferPool) (r : Run α) : Prop :=
  ∃ bp', p bp = r.outcome bp' ∧ Settled base live bp r bp'

/-- `p`, run while the guard `g` is alive, comes to the run `r` once `g` is released. -/
def UnderGuard {α : Type} (base : Files) (live : List PageGuard) (g : PageGuard)
    (p : Prog BufferPool α) (bp : BufferPool) (r : Run α) : Prop :=
  ∃ bp', p bp = r.outcome bp' ∧ (Settled base (g :: live) bp r bp' ∨ Pending base live g bp r bp')

section

variable {α β : Type} {base : Files} {live : List PageGuard} {bp bp₁ bp' : BufferPool}
  {r : Run α} {g : PageGuard} {p : Prog BufferPool α}

/-! ## Composing runs -/

theorem Run.outcome_ok {σ : Type} {s : σ} {a : α} (h : r.result = .ok a) :
    r.outcome s = .ok a s := by
  simp only [outcome, h]

theorem Run.outcome_error {σ : Type} {s : σ} {e : Exn} (h : r.result = .error e) :
    r.outcome s = .error e s := by
  simp only [outcome, h]

theorem Settled.refl (h : Good base bp live []) (hw : r.writes = []) (hn : r.next = bp.next) :
    Settled base live bp r bp :=
  ⟨h, hw ▸ .refl bp, by rw [Run.store, hw, replay_nil], hn.symm⟩

/-- Work after a quiet step is work from before it. -/
theorem Settled.of_quiet (hq : Quiet bp bp₁) (h : Settled base live bp₁ r bp') :
    Settled base live bp r bp' :=
  ⟨h.good, hq.toEffect.trans h.effect, by rw [h.view_eq, hq.view_eq], h.next_eq⟩

theorem Refines.of_quiet (hq : Quiet bp bp₁) (h : Refines base live p bp₁ r)
    {p' : Prog BufferPool α} (hp : p' bp = p bp₁) : Refines base live p' bp r := by
  obtain ⟨bp', hrun, hs⟩ := h
  exact ⟨bp', hp.trans hrun, hs.of_quiet hq⟩

/-- The pool after two runs in a row. -/
theorem Settled.andThen {f : α → PageStore → PageId → Run β} {a : α} (hr : r.result = .ok a)
    (h : Settled base live bp r bp₁)
    (h' : Settled base live bp₁ (f a bp₁.view bp₁.next) bp') :
    Settled base live bp (r.andThen bp.view f) bp' := by
  rw [h.view_eq, h.next_eq] at h'
  rw [Run.andThen_ok hr]
  refine ⟨h'.good, h.effect.trans h'.effect, ?_, h'.next_eq⟩
  rw [h'.view_eq, Run.store, Run.store, Run.store, replay_append, h.view_eq]
  rfl

theorem Settled.pending {f : α → PageStore → PageId → Run β} {a : α} (hr : r.result = .ok a)
    (h : Settled base (g :: live) bp r bp₁)
    (h' : Pending base live g bp₁ (f a bp₁.view bp₁.next) bp') :
    Pending base live g bp (r.andThen bp.view f) bp' := by
  rw [h.view_eq, h.next_eq] at h'
  rw [Run.andThen_ok hr]
  obtain ⟨W, b, hW, heffect⟩ := h'.effect
  refine ⟨h'.good, ⟨r.writes ++ W, b, by rw [hW, List.append_assoc], h.effect.trans heffect⟩, ?_,
    h'.next_eq⟩
  rw [h'.view_eq, Run.store, Run.store, Run.store, replay_append, h.view_eq]
  rfl

/-- Running on after a run that returned. -/
theorem Refines.andThen {f : α → PageStore → PageId → Run β} {k : α → Prog BufferPool β}
    (h : Refines base live p bp r)
    (hk : ∀ a bp₁, r.result = .ok a → Settled base live bp r bp₁ →
      Refines base live (k a) bp₁ (f a bp₁.view bp₁.next)) :
    Refines base live (p >>= k) bp (r.andThen bp.view f) := by
  obtain ⟨bp₁, hrun, hs⟩ := h
  cases hr : r.result with
  | error e =>
    rw [Run.outcome_error hr] at hrun
    rw [Run.andThen_error hr]
    exact ⟨bp₁, Prog.bind_error hrun, hs.good, hs.effect, hs.view_eq, hs.next_eq⟩
  | ok a =>
    rw [Run.outcome_ok hr] at hrun
    obtain ⟨bp', hrun', hs'⟩ := hk a bp₁ hr hs
    refine ⟨bp', ?_, hs.andThen hr hs'⟩
    rw [Prog.bind_ok hrun, hrun', Run.andThen_ok hr, hs.view_eq, hs.next_eq]
    rfl

/-- A throw that writes nothing. -/
theorem Refines.throw (h : Good base bp live []) (e : Exn) :
    Refines base live (throw e : Prog BufferPool α) bp (.fail bp.next e) :=
  ⟨bp, rfl, .refl h rfl rfl⟩

theorem Refines.pure (h : Good base bp live []) (a : α) :
    Refines base live (pure a : Prog BufferPool α) bp (.ret bp.next a) :=
  ⟨bp, rfl, .refl h rfl rfl⟩

/-- The writes of a run that starts by overwriting a page the run writes again. -/
theorem Run.store_write {b : PageBody} {σ : PageStore} {q : PageId}
    (h : q ∈ r.writes.map Prod.fst) : r.store (write σ (q, b)) = r.store σ :=
  replay_write_of_mem h

/-- **The release of a guard logs its page's last write.** -/
theorem UnderGuard.withGuard (h : UnderGuard base live g p bp r) :
    Refines base live (g.withGuard p) bp r := by
  obtain ⟨bp₁, hrun, hs⟩ := h
  have hwith : g.withGuard p bp = r.outcome (g.release bp₁) := by
    unfold PageGuard.withGuard
    cases hr : r.result with
    | ok a => rw [hrun, Run.outcome_ok hr, Run.outcome_ok hr]
    | error e => rw [hrun, Run.outcome_error hr, Run.outcome_error hr]
  refine ⟨g.release bp₁, hwith, ?_⟩
  rcases hs with hs | hs
  · obtain ⟨hgood, hquiet⟩ := hs.good.release (List.not_mem_nil)
    refine ⟨hgood, ?_, hquiet.view_eq.trans hs.view_eq, hquiet.next_eq.trans hs.next_eq⟩
    have := hs.effect.trans hquiet.toEffect
    rwa [List.append_nil] at this
  · obtain ⟨W, b, hW, heffect⟩ := hs.effect
    have hb : bp₁.view g.pageId = some b := by
      rw [hs.view_eq, Run.store, hW, replay_append, replay_cons, replay_nil, write_self]
    obtain ⟨hgood, hlog, hview, hnext⟩ := hs.good.release_unlogged List.not_mem_nil hb
    exact ⟨hgood, hW ▸ heffect.trans hlog, hview.trans hs.view_eq, hnext.trans hs.next_eq⟩

end

/-! ## Splits -/

section

variable {base : Files} {live : List PageGuard} {bp : BufferPool} {g : PageGuard} {free : Nat}
  {chain : Option PageId} {lm : PageId}

/-- A page written by its guard already, and by the run again: the run's writes count from before
the first write. -/
theorem Pending.of_written {α : Type} {r : Run α} {bp₀ bp' : BufferPool} {b : PageBody}
    (heff : Effect bp₀ bp []) (hview : bp.view = write bp₀.view (g.pageId, b))
    (h : Pending base live g bp r bp') : Pending base live g bp₀ r bp' := by
  obtain ⟨W, b', hW, heffect⟩ := h.effect
  refine ⟨h.good, ⟨W, b', hW, heff.trans heffect⟩, ?_, h.next_eq⟩
  rw [h.view_eq, hview, Run.store_write]
  simp [hW]

/-- A run that consists of the pending write of the guard's current page. -/
theorem Pending.current {α : Type} {r : Run α} {b : PageBody}
    (h : Good base bp (g :: live) [g.pageId]) (hb : bp.view g.pageId = some b)
    (hw : r.writes = [(g.pageId, b)]) (hn : r.next = bp.next) : Pending base live g bp r bp :=
  ⟨h, ⟨[], b, by simpa using hw, .refl bp⟩, by
    rw [Run.store, hw, replay_cons, replay_nil, write_eq_self hb], hn.symm⟩

/-- The part the two split methods share: with a frame to spare, a page is allocated for the right
sibling, both halves are written, and the sibling's guard is released. -/
theorem split_pending {α : Type} (a : α) (R L : PageBody) (k : PageGuard → Prog BufferPool α)
    {r : Run α} (hr : r = ⟨.ok a, [(bp.next, R), (g.pageId, L)], bp.next + 1⟩)
    (h : Good base bp (g :: live) [g.pageId])
    (hfree : free + (live.length + 1) = bp.poolSize) (hpos : free ≠ 0)
    (hk : ∀ f bp₁ bp₂ bp₃, (⟨bp.next, f⟩ : PageGuard).write R bp₁ = .ok () bp₂ →
      g.write L bp₂ = .ok () bp₃ → g.markDirty bp₃ = .ok () bp₃ →
      (⟨bp.next, f⟩ : PageGuard).markDirty bp₃ = .ok () bp₃ →
      k ⟨bp.next, f⟩ bp₁ = .ok a bp₃) :
    ∃ f bp₁ bp', newPage bp = .ok (some ⟨bp.next, f⟩) bp₁ ∧
      (⟨bp.next, f⟩ : PageGuard).withGuard (k ⟨bp.next, f⟩) bp₁ = r.outcome bp' ∧
      Pending base live g bp r bp' := by
  have hlt : (g :: live).length < bp.poolSize := by rw [List.length_cons]; omega
  obtain ⟨f, bp₁, hnew, h₁, e₁, v₁, n₁⟩ := h.newPage hlt
  obtain ⟨bp₂, hw₂, h₂, e₂, v₂, n₂⟩ :=
    h₁.write (g := ⟨bp.next, f⟩) List.mem_cons_self List.mem_cons_self R
  obtain ⟨bp₃, hw₃, h₃, e₃, v₃, n₃⟩ :=
    h₂.write (g := g) (List.mem_cons_of_mem _ List.mem_cons_self)
      (List.mem_cons_of_mem _ List.mem_cons_self) L
  have hd := h₃.markDirty (g := g) (List.mem_cons_of_mem _ List.mem_cons_self)
    (List.mem_cons_of_mem _ List.mem_cons_self)
  have hd' := h₃.markDirty (g := ⟨bp.next, f⟩) List.mem_cons_self List.mem_cons_self
  have hne : bp.next ≠ g.pageId :=
    (h.unlogged_lt_next (List.mem_singleton_self g.pageId)).ne'
  have hview : bp₃.view = write (write bp.view (bp.next, R)) (g.pageId, L) := by
    rw [v₃, v₂, v₁, write_write]
  have hR : bp₃.view bp.next = some R := by
    rw [hview, write_of_ne _ _ hne, write_self]
  obtain ⟨hgood, hlog, hv, hn⟩ := h₃.release_unlogged (by simpa using hne) hR
  refine ⟨f, bp₁, _, hnew, ?_, hgood, ⟨[(bp.next, R)], L, by rw [hr]; rfl, ?_⟩, ?_, ?_⟩
  · simp only [PageGuard.withGuard, hk f bp₁ bp₂ bp₃ hw₂ hw₃ hd hd', hr, Run.outcome]
  · exact e₁.trans (e₂.trans (e₃.trans hlog))
  · rw [hv, hview, hr]; rfl
  · rw [hn, n₃, n₂, n₁, hr]

theorem splitLeafIfNeeded_pending {cells : List LeafCell}
    (h : Good base bp (g :: live) [g.pageId])
    (hb : bp.view g.pageId = some (.leaf chain cells))
    (hfree : free + (live.length + 1) = bp.poolSize) :
    ∃ bp', splitLeafIfNeeded g bp
        = (OnStore.splitLeafIfNeeded free bp.next g.pageId chain cells).outcome bp' ∧
      Pending base live g bp (OnStore.splitLeafIfNeeded free bp.next g.pageId chain cells) bp' := by
  unfold Reldb.splitLeafIfNeeded OnStore.splitLeafIfNeeded
  rw [Prog.bind_ok (h.page List.mem_cons_self hb)]
  by_cases hlen : cells.length ≤ leafMaxKeys
  · simp only [hlen, if_true]
    exact ⟨bp, rfl, .current h hb rfl rfl⟩
  simp only [hlen, if_false]
  by_cases hpos : free = 0
  · simp only [hpos, if_true]
    have hfull : bp.poolSize ≤ (g :: live).length := by rw [List.length_cons]; omega
    rw [Prog.bind_ok (h.newPage_full hfull)]
    exact ⟨bp, rfl, .current h hb rfl rfl⟩
  simp only [hpos, if_false]
  cases hfirst : (cells.drop (cells.length / 2)).head? with
  | none =>
    rw [List.head?_eq_none_iff, List.drop_eq_nil_iff] at hfirst
    have : leafMaxKeys = 4 := rfl
    omega
  | some first =>
    obtain ⟨f, bp₁, bp', hnew, hrun, hpending⟩ := split_pending
      (some (SplitResult.mk first.key bp.next)) (.leaf chain (cells.drop (cells.length / 2)))
      (.leaf (some bp.next) (cells.take (cells.length / 2)))
      (fun right => do
        right.write (.leaf chain (cells.drop (cells.length / 2)))
        g.write (.leaf (some right.pageId) (cells.take (cells.length / 2)))
        g.markDirty
        right.markDirty
        return some (SplitResult.mk first.key right.pageId))
      rfl h hfree hpos
      (fun f bp₁ bp₂ bp₃ hw₂ hw₃ hd hd' => by
        rw [Prog.bind_ok hw₂, Prog.bind_ok hw₃, Prog.bind_ok hd, Prog.bind_ok hd']
        rfl)
    rw [Prog.bind_ok hnew]
    exact ⟨bp', hrun, hpending⟩

theorem splitInternalIfNeeded_pending {cells : List InternalCell}
    (h : Good base bp (g :: live) [g.pageId])
    (hb : bp.view g.pageId = some (.internal lm cells))
    (hfree : free + (live.length + 1) = bp.poolSize) :
    ∃ bp', splitInternalIfNeeded g bp
        = (OnStore.splitInternalIfNeeded free bp.next g.pageId lm cells).outcome bp' ∧
      Pending base live g bp (OnStore.splitInternalIfNeeded free bp.next g.pageId lm cells) bp' := by
  unfold Reldb.splitInternalIfNeeded OnStore.splitInternalIfNeeded
  rw [Prog.bind_ok (h.page List.mem_cons_self hb)]
  by_cases hlen : cells.length ≤ internalMaxKeys
  · simp only [hlen, if_true]
    exact ⟨bp, rfl, .current h hb rfl rfl⟩
  simp only [hlen, if_false]
  by_cases hpos : free = 0
  · simp only [hpos, if_true]
    have hfull : bp.poolSize ≤ (g :: live).length := by rw [List.length_cons]; omega
    rw [Prog.bind_ok (h.newPage_full hfull)]
    exact ⟨bp, rfl, .current h hb rfl rfl⟩
  simp only [hpos, if_false]
  cases hmiddle : cells[cells.length / 2]? with
  | none =>
    rw [List.getElem?_eq_none_iff] at hmiddle
    have : internalMaxKeys = 4 := rfl
    omega
  | some middle =>
    obtain ⟨f, bp₁, bp', hnew, hrun, hpending⟩ := split_pending
      (some (SplitResult.mk middle.key bp.next)) (.internal middle.child (cells.drop (cells.length / 2 + 1)))
      (.internal lm (cells.take (cells.length / 2)))
      (fun right => do
        right.write (.internal middle.child (cells.drop (cells.length / 2 + 1)))
        g.write (.internal lm (cells.take (cells.length / 2)))
        g.markDirty
        right.markDirty
        return some (SplitResult.mk middle.key right.pageId))
      rfl h hfree hpos
      (fun f bp₁ bp₂ bp₃ hw₂ hw₃ hd hd' => by
        rw [Prog.bind_ok hw₂, Prog.bind_ok hw₃, Prog.bind_ok hd, Prog.bind_ok hd']
        rfl)
    rw [Prog.bind_ok hnew]
    exact ⟨bp', hrun, hpending⟩

/-! ## Insert -/

/-- Overwriting the guarded page and going on with a method that finds the write pending. -/
theorem UnderGuard.of_writeDirty {α : Type} {r : Run α} {b : PageBody} {k : Prog BufferPool α}
    (h : Good base bp (g :: live) [])
    (hk : ∀ bp₁, Good base bp₁ (g :: live) [g.pageId] → bp₁.view g.pageId = some b →
      bp₁.poolSize = bp.poolSize → bp₁.next = bp.next →
      ∃ bp', k bp₁ = r.outcome bp' ∧ Pending base live g bp₁ r bp') :
    UnderGuard base live g (do g.write b; g.markDirty; k) bp r := by
  obtain ⟨bp₁, bp₂, hwrite, hdirty, h₂, e₂, v₂, n₂⟩ := h.writeDirty List.mem_cons_self b
  obtain ⟨bp', hrun, hpending⟩ := hk bp₂ h₂ (by rw [v₂, write_self]) e₂.poolSize_eq n₂
  refine ⟨bp', ?_, .inr (hpending.of_written e₂ v₂)⟩
  rw [Prog.bind_ok hwrite, Prog.bind_ok hdirty, hrun]

theorem insertIntoLeaf_underGuard {cells : List LeafCell} (h : Good base bp (g :: live) [])
    (hfree : free + (live.length + 1) = bp.poolSize) (key : Int64) (value : Bytes) :
    UnderGuard base live g (insertIntoLeaf g chain cells key value) bp
      (OnStore.insertIntoLeaf free bp.next g.pageId chain cells key value) := by
  unfold Reldb.insertIntoLeaf OnStore.insertIntoLeaf
  by_cases hhit : cells[leafIndex cells key]?.map (·.key) = some key
  · simp only [hhit, if_true]
    exact .of_writeDirty h fun bp₁ h₁ hb₁ _ hn₁ => ⟨bp₁, rfl, .current h₁ hb₁ rfl hn₁.symm⟩
  simp only [hhit, if_false]
  by_cases hcap : leafCapacity ≤ cells.length
  · simp only [hcap, if_true]
    exact ⟨bp, rfl, .inl (.refl h rfl rfl)⟩
  simp only [hcap, if_false]
  refine .of_writeDirty h fun bp₁ h₁ hb₁ hsize hn₁ => ?_
  rw [← hn₁]
  exact splitLeafIfNeeded_pending h₁ hb₁ (hsize ▸ hfree)

theorem insertSeparator_underGuard (h : Good base bp (g :: live) [])
    (hfree : free + (live.length + 1) = bp.poolSize) (idx : Nat) (split : SplitResult) :
    UnderGuard base live g (insertSeparator g idx split) bp
      (OnStore.insertSeparator free g.pageId idx split bp.view bp.next) := by
  have hb := view_of_table (h.live_table g List.mem_cons_self)
  unfold Reldb.insertSeparator OnStore.insertSeparator
  unfold UnderGuard
  rw [Prog.bind_ok (h.page List.mem_cons_self hb), hb]
  cases hbody : (bp.frames g.frame).page.body with
  | internal lm cells =>
    simp only
    by_cases hcap : internalCapacity ≤ cells.length
    · simp only [hcap, if_true]
      exact ⟨bp, rfl, .inl (.refl h rfl rfl)⟩
    · simp only [hcap, if_false]
      refine UnderGuard.of_writeDirty h fun bp₁ h₁ hb₁ hsize hn₁ => ?_
      rw [← hn₁]
      exact splitInternalIfNeeded_pending h₁ hb₁ (hsize ▸ hfree)
  | _ => exact ⟨bp, rfl, .inl (.refl h rfl rfl)⟩

/-- **`InsertRecursive` does what its store version says**, on a node whose subtree is complete
and lies below every page a live guard pins. -/
theorem insertRecursive_refines {fuel d : Nat} {node : PageId} (h : Good base bp live [])
    (hnode : HasLevel bp.view d node) (hfuel : d < fuel)
    (hbelow : ∀ g ∈ live, ∀ e, HasLevel bp.view e g.pageId → d < e)
    (hfree : free + live.length = bp.poolSize) (key : Int64) (value : Bytes) :
    Refines base live (insertRecursive fuel node key value) bp
      (OnStore.insertRecursive fuel free bp.view bp.next node key value) := by
  induction fuel generalizing d node bp live free with
  | zero => omega
  | succ fuel ih =>
    have hlive : node ∉ live.map PageGuard.pageId := by
      intro hmem
      obtain ⟨g, hg, rfl⟩ := List.mem_map.mp hmem
      exact absurd (hbelow g hg d hnode) (lt_irrefl d)
    unfold Reldb.insertRecursive
    cases free with
    | zero =>
      rw [Refines, Prog.bind_ok (h.fetchPage_full hlive (by omega))]
      exact Refines.throw h _
    | succ free =>
      obtain ⟨b, hb⟩ := Option.isSome_iff_exists.mp hnode.isSome
      obtain ⟨f, bp₁, hfetch, h₁, hquiet⟩ := h.fetchPage hb hlive (by omega)
      refine Refines.of_quiet hquiet ?_ (Prog.bind_ok hfetch)
      rw [← hquiet.view_eq, ← hquiet.next_eq]
      rw [← hquiet.view_eq] at hb hnode hbelow
      have hfree₁ : free + (live.length + 1) = bp₁.poolSize := by
        rw [hquiet.poolSize_eq]; omega
      refine UnderGuard.withGuard ?_
      unfold UnderGuard
      rw [Prog.bind_ok (h₁.page List.mem_cons_self hb)]
      cases b with
      | leaf chain cells =>
        simp only [OnStore.insertRecursive, hb]
        exact insertIntoLeaf_underGuard h₁ hfree₁ key value
      | internal lm cells =>
        simp only [OnStore.insertRecursive, hb]
        obtain ⟨d, rfl, hkids⟩ := hnode.of_internal hb
        have hbelow₁ : ∀ g ∈ (⟨node, f⟩ :: live : List PageGuard), ∀ e,
            HasLevel bp₁.view e g.pageId → d < e := by
          intro g hg e he
          rcases List.mem_cons.mp hg with rfl | hg
          · have := he.unique hnode
            omega
          · exact Nat.lt_of_succ_lt (hbelow g hg e he)
        have hchild := ih h₁ (hkids _ (childAt_mem lm cells (childIndex cells key))) (by omega)
          hbelow₁ (by rw [List.length_cons]; exact hfree₁)
        obtain ⟨bp₂, hrun, hs⟩ := hchild
        cases hr : (OnStore.insertRecursive fuel free bp₁.view bp₁.next
            (childAt lm cells (childIndex cells key)) key value).result with
        | error e =>
          rw [Run.outcome_error hr] at hrun
          rw [Run.andThen_error hr, Prog.bind_error hrun]
          exact ⟨bp₂, rfl, .inl ⟨hs.good, hs.effect, hs.view_eq, hs.next_eq⟩⟩
        | ok split =>
          rw [Run.outcome_ok hr] at hrun
          rw [Prog.bind_ok hrun]
          cases split with
          | none =>
            refine ⟨bp₂, ?_, .inl (hs.andThen hr (.refl hs.good rfl rfl))⟩
            rw [Run.andThen_ok hr]
            rfl
          | some split =>
            obtain ⟨bp₃, hrun₃, hs₃⟩ := insertSeparator_underGuard hs.good
              (by rw [hs.effect.poolSize_eq]; exact hfree₁) (childIndex cells key) split
            refine ⟨bp₃, ?_, hs₃.imp (fun hs₃ => hs.andThen hr hs₃) fun hp => hs.pending hr hp⟩
            rw [Run.andThen_ok hr, ← hs.view_eq, ← hs.next_eq]
            exact hrun₃
      | invalid =>
        simp only [OnStore.insertRecursive, hb]
        exact ⟨bp₁, rfl, .inl (.refl h₁ rfl rfl)⟩
      | metadata root =>
        simp only [OnStore.insertRecursive, hb]
        exact ⟨bp₁, rfl, .inl (.refl h₁ rfl rfl)⟩
      | catalog body =>
        simp only [OnStore.insertRecursive, hb]
        exact ⟨bp₁, rfl, .inl (.refl h₁ rfl rfl)⟩

theorem newRoot_refines (h : Good base bp [] []) (oldRoot : PageId) (split : SplitResult) :
    Refines base [] (BTree.newRoot oldRoot split) bp
      (OnStore.newRoot bp.poolSize bp.next oldRoot split) := by
  unfold BTree.newRoot OnStore.newRoot
  by_cases hfree : bp.poolSize = 0
  · simp only [hfree, if_true]
    rw [Refines, Prog.bind_ok (h.newPage_full (by simp [hfree]))]
    exact Refines.throw h _
  · simp only [hfree, if_false]
    obtain ⟨f, bp₁, hnew, h₁, e₁, v₁, n₁⟩ := h.newPage (Nat.pos_of_ne_zero hfree)
    obtain ⟨bp₂, hwrite, h₂, e₂, v₂, n₂⟩ :=
      h₁.write List.mem_cons_self List.mem_cons_self
        (.internal oldRoot [⟨split.promotedKey, split.newRightPageId⟩])
    have hdirty := h₂.markDirty List.mem_cons_self List.mem_cons_self
    obtain ⟨hgood, hlog, hview, hnext⟩ :=
      h₂.release_unlogged List.not_mem_nil (by rw [v₂, write_self])
    refine ⟨_, ?_, hgood, e₁.trans (e₂.trans hlog), ?_, ?_⟩
    · rw [Prog.bind_ok hnew]
      simp only [PageGuard.withGuard, Prog.bind_ok hwrite, Prog.bind_ok hdirty]
      rfl
    · rw [hview, v₂, v₁, write_write]
      rfl
    · rw [hnext, n₂, n₁]

theorem writeMetadata_refines {metadataPageId root : PageId} (h : Good base bp [] [])
    (hpool : 0 < bp.poolSize) (hb : bp.view metadataPageId = some (.metadata root))
    (newRoot : PageId) :
    Refines base [] (BTree.writeMetadata metadataPageId newRoot) bp
      (OnStore.writeMetadata metadataPageId newRoot bp.next) := by
  obtain ⟨f, bp₁, hfetch, h₁, hquiet⟩ := h.fetchPage hb List.not_mem_nil hpool
  refine Refines.of_quiet hquiet ?_ (Prog.bind_ok hfetch)
  refine UnderGuard.withGuard ?_
  unfold UnderGuard
  rw [Prog.bind_ok (h₁.page List.mem_cons_self (hquiet.view_eq ▸ hb))]
  obtain ⟨bp₂, bp₃, hwrite, hdirty, h₃, e₃, v₃, n₃⟩ :=
    h₁.writeDirty List.mem_cons_self (.metadata newRoot)
  refine ⟨bp₃, ?_, .inr ⟨h₃, ⟨[], _, rfl, e₃⟩, v₃, n₃.trans hquiet.next_eq⟩⟩
  exact (Prog.bind_ok hwrite).trans hdirty

/-! ## Lookups -/

/-- Reading one page: nothing changes. -/
theorem readPage_quiet {pageId : PageId} {b : PageBody} (h : Good base bp [] [])
    (hpool : 0 < bp.poolSize) (hb : bp.view pageId = some b) :
    ∃ f bp₁ bp', fetchPage pageId bp = .ok (some ⟨pageId, f⟩) bp₁ ∧
      (⟨pageId, f⟩ : PageGuard).withGuard (⟨pageId, f⟩ : PageGuard).page bp₁ = .ok b bp' ∧
      Good base bp' [] [] ∧ Quiet bp bp' := by
  obtain ⟨f, bp₁, hfetch, h₁, hquiet⟩ := h.fetchPage hb List.not_mem_nil hpool
  obtain ⟨hgood, hrelease⟩ := h₁.release List.not_mem_nil
  refine ⟨f, bp₁, _, hfetch, ?_, hgood, hquiet.trans hrelease⟩
  simp only [PageGuard.withGuard, h₁.page List.mem_cons_self (hquiet.view_eq ▸ hb)]

/-- `p` only reads, and comes to `res`. -/
def Reads {α : Type} (base : Files) (p : Prog BufferPool α) (bp : BufferPool)
    (res : Except Exn α) : Prop :=
  ∃ bp', p bp = (⟨res, [], bp.next⟩ : Run α).outcome bp' ∧ Good base bp' [] [] ∧ Quiet bp bp'

theorem Reads.refines {α : Type} {p : Prog BufferPool α} {res : Except Exn α}
    (h : Reads base p bp res) : Refines base [] p bp ⟨res, [], bp.next⟩ := by
  obtain ⟨bp', hrun, hgood, hquiet⟩ := h
  exact ⟨bp', hrun, hgood, hquiet.toEffect, hquiet.view_eq, hquiet.next_eq⟩

theorem Reads.of_quiet {α : Type} {p p' : Prog BufferPool α} {res : Except Exn α}
    {bp₁ : BufferPool} (hq : Quiet bp bp₁) (h : Reads base p bp₁ res) (hp : p' bp = p bp₁) :
    Reads base p' bp res := by
  obtain ⟨bp', hrun, hgood, hquiet⟩ := h
  exact ⟨bp', hp.trans (by rw [hrun, hq.next_eq]), hgood, hq.trans hquiet⟩

theorem findLeafPageId_reads {fuel d : Nat} {cur : PageId} (h : Good base bp [] [])
    (hpool : 0 < bp.poolSize) (hcur : HasLevel bp.view d cur) (hfuel : d < fuel) (key : Int64) :
    Reads base (findLeafPageId fuel cur key) bp
      (OnStore.findLeafPageId fuel bp.view cur key) := by
  induction fuel generalizing d cur bp with
  | zero => omega
  | succ fuel ih =>
    obtain ⟨b, hb⟩ := Option.isSome_iff_exists.mp hcur.isSome
    obtain ⟨f, bp₁, bp₂, hfetch, hread, h₂, hquiet⟩ := readPage_quiet h hpool hb
    unfold Reldb.findLeafPageId
    refine Reads.of_quiet hquiet ?_ ((Prog.bind_ok hfetch).trans (Prog.bind_ok hread))
    cases d with
    | zero =>
      obtain ⟨chain, cells, hleaf⟩ := hcur
      obtain rfl := Option.some.inj (hb.symm.trans hleaf)
      simp only [OnStore.findLeafPageId, hb]
      exact ⟨bp₂, rfl, h₂, .refl bp₂⟩
    | succ d =>
      obtain ⟨lm, cells, hinternal, hkids⟩ := hcur
      obtain rfl := Option.some.inj (hb.symm.trans hinternal)
      simp only [OnStore.findLeafPageId, hb]
      rw [← hquiet.view_eq] at hkids ⊢
      exact ih h₂ (by rw [hquiet.poolSize_eq]; exact hpool)
        (hkids _ (childAt_mem lm cells (childIndex cells key))) (by omega)

theorem scanLeaves_reads (fuel : Nat) {src : Option PageId} {ls : List Leaf}
    (h : Good base bp [] []) (hpool : 0 < bp.poolSize) (hls : Linked bp.view src none ls)
    (low high : Int64) :
    Reads base (scanLeaves fuel src low high) bp
      (OnStore.scanLeaves fuel bp.view src low high) := by
  have hnone : ∀ {fuel : Nat} {bp : BufferPool}, Good base bp [] [] →
      Reads base (scanLeaves fuel none low high) bp
        (OnStore.scanLeaves fuel bp.view none low high) := by
    intro fuel bp h
    have hprog : scanLeaves fuel none low high = pure [] := by cases fuel <;> rfl
    have hstore : OnStore.scanLeaves fuel bp.view none low high = .ok [] := by cases fuel <;> rfl
    rw [hprog, hstore]
    exact ⟨bp, rfl, h, .refl bp⟩
  induction ls generalizing src fuel bp with
  | nil =>
    rw [show src = none from hls]
    exact hnone h
  | cons l ls ih =>
    obtain ⟨rfl, next, hl, hrest⟩ := hls
    cases fuel with
    | zero => exact ⟨bp, rfl, h, .refl bp⟩
    | succ fuel =>
      obtain ⟨f, bp₁, bp₂, hfetch, hread, h₂, hquiet⟩ := readPage_quiet h hpool hl
      have hpool₂ : 0 < bp₂.poolSize := by rw [hquiet.poolSize_eq]; exact hpool
      unfold Reldb.scanLeaves
      refine Reads.of_quiet hquiet ?_ ((Prog.bind_ok hfetch).trans (Prog.bind_ok hread))
      simp only [OnStore.scanLeaves, hl]
      rw [← hquiet.view_eq] at hrest ⊢
      have hgo : Reads base
          (scanLeaves fuel (if (scanCells low high l.cells).2 then none else next) low high) bp₂
          (OnStore.scanLeaves fuel bp₂.view
            (if (scanCells low high l.cells).2 then none else next) low high) := by
        cases (scanCells low high l.cells).2 with
        | true => exact hnone h₂
        | false => exact ih fuel h₂ hpool₂ hrest
      obtain ⟨bp₃, hrun, h₃, hquiet₃⟩ := hgo
      refine ⟨bp₃, ?_, h₃, hquiet₃⟩
      cases hres : OnStore.scanLeaves fuel bp₂.view
          (if (scanCells low high l.cells).2 then none else next) low high with
      | error e =>
        rw [hres] at hrun
        exact Prog.bind_error hrun
      | ok rest =>
        rw [hres] at hrun
        exact Prog.bind_ok hrun

end

end Reldb
