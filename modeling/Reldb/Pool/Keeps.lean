import Reldb.Pool.Cache

/-!
# Reldb — programs that hold guards in scopes

A method of the tree or the catalog pins a page for a scope, and unpins it on the way out whether the
scope returned or threw. `Keeps live p` says that `p`, run beside the guards `live`, leaves a pool that
is `Cached` for just these. It is proved of a program along its text, one rule for each way it is
built, and holds in every state, whatever is on the pages.
-/

namespace Reldb

/-- What the state is in after a program, whether it returned or threw. -/
def Prog.After {σ α : Type} (p : Prog σ α) (s : σ) (P : σ → Prop) : Prop :=
  match p s with
  | .ok _ s' => P s'
  | .error _ s' => P s'

namespace Prog.After

variable {σ α β : Type} {p : Prog σ α} {f : α → Prog σ β} {s : σ} {P Q : σ → Prop}

theorem mono (h : p.After s P) (hPQ : ∀ s', P s' → Q s') : p.After s Q := by
  unfold After at *
  split <;> simp_all

theorem of_ok {a : α} {s' : σ} (hrun : p s = .ok a s') (h : P s') : p.After s P := by
  rw [After, hrun]
  exact h

theorem of_error {e : Exn} {s' : σ} (hrun : p s = .error e s') (h : P s') : p.After s P := by
  rw [After, hrun]
  exact h

theorem bind (h : p.After s P) (herror : ∀ s', P s' → Q s')
    (hf : ∀ a s', p s = .ok a s' → P s' → (f a).After s' Q) : (p >>= f).After s Q := by
  cases hrun : p s with
  | ok a s' =>
    rw [After, hrun] at h
    rw [After, Prog.bind_ok hrun]
    exact hf a s' hrun h
  | error e s' =>
    rw [After, hrun] at h
    exact .of_error (Prog.bind_error hrun) (herror s' h)

end Prog.After

namespace BufferPool

/-- Run beside the guards `live`, the program leaves these. -/
def Keeps {α : Type} (live : List PageGuard) (p : Prog BufferPool α) : Prop :=
  ∀ bp, Cached bp live → p.After bp (Cached · live)

section

variable {α β : Type} {live : List PageGuard} {p : Prog BufferPool α} {f : α → Prog BufferPool β}
  {bp : BufferPool} {g : PageGuard} {pageId : PageId}

theorem Keeps.pure (a : α) : Keeps live (Pure.pure a : Prog BufferPool α) := fun _ h => h

theorem Keeps.throw (e : Exn) : Keeps live (MonadExcept.throw e : Prog BufferPool α) := fun _ h => h

theorem Keeps.bind (hp : Keeps live p) (hf : ∀ a, Keeps live (f a)) : Keeps live (p >>= f) :=
  fun bp h => (hp bp h).bind (fun _ h' => h') fun a bp' _ h' => hf a bp' h'

theorem Keeps.ite {c : Prop} [Decidable c] {q : Prog BufferPool α} (hp : Keeps live p)
    (hq : Keeps live q) : Keeps live (if c then p else q) := by
  split
  exacts [hp, hq]

theorem Keeps.page (g : PageGuard) : Keeps live g.page := fun _ h => h

/-! ### Guards -/

theorem Cached.release (h : Cached bp (g :: live)) : Cached (g.release bp) live := by
  by_cases hlog : (bp.frames g.frame).dirty = true ∧ bp.wal ≠ none
  · obtain ⟨w, hw⟩ := Option.ne_none_iff_exists'.mp hlog.2
    exact (h.release_logs hlog.1 hw).1
  · have hquiet : (bp.frames g.frame).dirty = false ∨ bp.wal = none := by
      simpa only [not_and_or, Bool.not_eq_true, not_not] using hlog
    exact (h.release_silent hquiet).1

/-- A scope releases its guard, however it ends. -/
theorem After.withGuard (h : p.After bp (Cached · (g :: live))) :
    (g.withGuard p).After bp (Cached · live) := by
  unfold Prog.After PageGuard.withGuard at *
  cases hrun : p bp with
  | ok a bp' =>
    rw [hrun] at h
    exact Cached.release h
  | error e bp' =>
    rw [hrun] at h
    exact Cached.release h

/-- Fetching a page, and going on with the guard or without one. -/
theorem Keeps.fetchPage {k : Option PageGuard → Prog BufferPool α} (hnone : Keeps live (k none))
    (hsome : ∀ g bp, Cached bp (g :: live) → (k (some g)).After bp (Cached · live)) :
    Keeps live (BufferPool.fetchPage pageId >>= k) := by
  intro bp h
  rcases h.fetchPage pageId with ⟨g, bp', hrun, -, hc, -⟩ | ⟨hrun, -⟩ | ⟨e, bp', hrun, hc, -⟩
  · rw [Prog.After, Prog.bind_ok hrun]
    exact hsome g bp' hc
  · rw [Prog.After, Prog.bind_ok hrun]
    exact hnone bp h
  · exact .of_error (Prog.bind_error hrun) hc

/-- A new page is dirty from the start. -/
theorem Keeps.newPage {k : Option PageGuard → Prog BufferPool α} (hnone : Keeps live (k none))
    (hsome : ∀ g bp, Cached bp (g :: live) → (bp.frames g.frame).dirty = true →
      (k (some g)).After bp (Cached · live)) : Keeps live (BufferPool.newPage >>= k) := by
  intro bp h
  rcases h.newPage with ⟨f, bp', hrun, hc, -, -, hdirty, -⟩ | ⟨hrun, -⟩
  · rw [Prog.After, Prog.bind_ok hrun]
    exact hsome _ bp' hc hdirty
  · rw [Prog.After, Prog.bind_ok hrun]
    exact hnone bp h

/-! ### Page writes -/

/-- A page overwritten in a frame that is dirty after that. -/
theorem Cached.store (h : Cached bp live) (hg : g ∈ live) (body : PageBody) :
    Cached (bp.setFrame g.frame { bp.frames g.frame with
      page := { (bp.frames g.frame).page with body }, dirty := true }) live := by
  have ht := h.live_table g hg
  refine (h.setFrame ht { bp.frames g.frame with
    page := { (bp.frames g.frame).page with body }, dirty := true } (h.table_frame ht) rfl ?_).1
  exact fun hclean => absurd (show true = false from hclean) (by decide)

theorem write_markDirty (bp : BufferPool) (g : PageGuard) (body : PageBody) :
    (do g.write body; g.markDirty : Prog BufferPool Unit) bp
      = .ok () (bp.setFrame g.frame { bp.frames g.frame with
          page := { (bp.frames g.frame).page with body }, dirty := true }) := by
  have hwrite : g.write body bp = .ok () (bp.setFrame g.frame { bp.frames g.frame with
      page := { (bp.frames g.frame).page with body } }) := rfl
  rw [Prog.bind_ok hwrite]
  simp only [PageGuard.markDirty, BufferPool.setFrame, Function.update_self, Function.update_idem]

theorem Keeps.write (hg : g ∈ live) (body : PageBody) :
    Keeps live (do g.write body; g.markDirty : Prog BufferPool Unit) := fun bp h =>
  .of_ok (write_markDirty bp g body) (h.store hg body)

/-- A page overwritten through a guard, marked dirty, and what comes next. -/
theorem Keeps.write_then (hg : g ∈ live) (body : PageBody) {k : Prog BufferPool α}
    (hk : Keeps live k) : Keeps live (do g.write body; g.markDirty; k) := by
  have hassoc : (do g.write body; g.markDirty; k : Prog BufferPool α)
      = ((do g.write body; g.markDirty : Prog BufferPool Unit) >>= fun _ => k) := by
    simp only [bind_assoc]
  rw [hassoc]
  exact (Keeps.write hg body).bind fun _ => hk

theorem Keeps.markDirty (hg : g ∈ live) : Keeps live g.markDirty := by
  intro bp h
  have ht := h.live_table g hg
  refine .of_ok rfl
    (h.setFrame ht { bp.frames g.frame with dirty := true } (h.table_frame ht) rfl ?_).1
  exact fun hclean => absurd (show true = false from hclean) (by decide)

/-- A page overwritten in a frame that is dirty already. -/
theorem Cached.write_dirty (h : Cached bp live) (hg : g ∈ live)
    (hd : (bp.frames g.frame).dirty = true) (body : PageBody) :
    (g.write body).After bp (Cached · live) := by
  have ht := h.live_table g hg
  refine .of_ok rfl (h.setFrame ht { bp.frames g.frame with
    page := { (bp.frames g.frame).page with body } } (h.table_frame ht) rfl ?_).1
  intro hclean
  rw [show (bp.frames g.frame).dirty = false from hclean] at hd
  cases hd

/-- The writes of a split: the new page, dirty from the start, is overwritten first and marked last. -/
theorem Cached.split {r : PageGuard} (h : Cached bp live) (hr : r ∈ live) (hg : g ∈ live)
    (hd : (bp.frames r.frame).dirty = true) (right left : PageBody) {k : Prog BufferPool α}
    (hk : Keeps live k) :
    (do r.write right; g.write left; g.markDirty; r.markDirty; k : Prog BufferPool α).After bp
      (Cached · live) := by
  refine (h.write_dirty hr hd right).bind (fun _ h' => h') fun _ bp' _ h' => ?_
  exact Keeps.write_then hg left ((Keeps.markDirty hr).bind fun _ => hk) bp' h'

end

end BufferPool

end Reldb
