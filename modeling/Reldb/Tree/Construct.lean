import Reldb.Tree.Single

/-!
# Reldb — constructing a tree

`BTree(BufferPool*)` on a fresh file allocates the metadata page and then the root leaf; the root's
guard is destroyed first, so page 1 is logged before page 0. On an existing file it reads the root
from page 0.
-/

namespace Reldb

open WriteLog BufferPool

/-- The two pages of a fresh tree, in the order they are logged. -/
def freshWrites : List PageWrite := [(1, .leaf none []), (0, .metadata 1)]

def freshRun : Run (PageId × PageId) := ⟨.ok (0, 1), freshWrites, 2⟩

section

variable {base : Files} {bp : BufferPool}

/-- Construction on a fresh file. Starting from an empty log it logs exactly its two pages. -/
theorem construct_fresh (h : Good base bp [] []) (hpool : 2 ≤ bp.poolSize) (hnext : bp.next = 0) :
    ∃ bp', BTree.construct bp = freshRun.outcome bp' ∧ Settled base [] bp freshRun bp' ∧
      (bp.wal.isSome → bp.records = [] → bp'.log = freshWrites) := by
  have hcount : bp.diskPageCount = 0 := hnext
  obtain ⟨f, bp₁, hnew₁, h₁, e₁, v₁, n₁⟩ := h.newPage (by simp; omega)
  rw [hnext] at hnew₁ h₁ v₁ n₁
  obtain ⟨bp₂, hwrite₂, h₂, e₂, v₂, n₂⟩ :=
    h₁.write List.mem_cons_self List.mem_cons_self (.metadata 0)
  obtain ⟨f', bp₃, hnew₃, h₃, e₃, v₃, n₃⟩ := h₂.newPage (by
    rw [(e₁.trans e₂).poolSize_eq]; simp; omega)
  rw [n₂, n₁] at hnew₃ h₃ v₃ n₃
  obtain ⟨bp₄, hwrite₄, h₄, e₄, v₄, n₄⟩ :=
    h₃.write List.mem_cons_self List.mem_cons_self (.leaf none [])
  have hdirty₄ := h₄.markDirty List.mem_cons_self List.mem_cons_self
  obtain ⟨bp₅, hwrite₅, h₅, e₅, v₅, n₅⟩ :=
    h₄.write (g := ⟨0, f⟩) (List.mem_cons_of_mem _ List.mem_cons_self)
      (List.mem_cons_of_mem _ List.mem_cons_self) (.metadata 1)
  have hdirty₅ := h₅.markDirty (g := ⟨0, f⟩) (List.mem_cons_of_mem _ List.mem_cons_self)
    (List.mem_cons_of_mem _ List.mem_cons_self)
  have hview : bp₅.view = replay bp.view freshWrites := by
    rw [v₅, v₄, v₃, v₂, v₁]
    funext p
    by_cases h0 : p = 0
    · subst h0; rfl
    by_cases h1 : p = 1
    · subst h1; rfl
    simp [freshWrites, write_of_ne, h0, h1]
  obtain ⟨h₆, e₆, v₆, n₆⟩ := h₅.release_unlogged (g := ⟨1, f'⟩) (by simp)
    (show bp₅.view 1 = some (.leaf none []) by rw [hview]; rfl)
  obtain ⟨h₇, e₇, v₇, n₇⟩ := h₆.release_unlogged (g := ⟨0, f⟩) List.not_mem_nil
    (show (PageGuard.release ⟨1, f'⟩ bp₅).view 0 = some (.metadata 1) by rw [v₆, hview]; rfl)
  have hget : (MonadState.get : Prog BufferPool BufferPool) bp = .ok bp bp := rfl
  have heffect : Effect bp _ freshWrites :=
    e₁.trans (e₂.trans (e₃.trans (e₄.trans (e₅.trans (e₆.trans e₇)))))
  refine ⟨_, ?_, ⟨h₇, heffect, v₇.trans (v₆.trans hview), ?_⟩, fun hwal hempty => ?_⟩
  · unfold BTree.construct
    rw [Prog.bind_ok hget, if_pos hcount, Prog.bind_ok hnew₁]
    simp only [PageGuard.withGuard, Prog.bind_ok hwrite₂, Prog.bind_ok hnew₃,
      Prog.bind_ok hwrite₄, Prog.bind_ok hdirty₄, Prog.bind_ok hwrite₅, Prog.bind_ok hdirty₅,
      Prog.pure_run]
    rfl
  · rw [n₇, n₆, n₅, n₄, n₃]
    rfl
  · -- nothing was logged before the two releases
    obtain ⟨R₅, hR₅, hstut₅⟩ := (e₁.trans (e₂.trans (e₃.trans (e₄.trans e₅)))).records
    obtain ⟨R, hR, hstut⟩ := heffect.records
    rw [hempty] at hR₅ hR hstut₅ hstut
    have hnil : R₅ = [] := List.map_eq_nil_iff.mp (hstut₅ hwal).eq_nil_of_empty
    have h₅ : bp₅.records.length = 0 := by rw [hR₅, hnil]; rfl
    have hlen₆ := release_records_length ⟨1, f'⟩ bp₅
    have hlen₇ := release_records_length ⟨0, f⟩ (PageGuard.release ⟨1, f'⟩ bp₅)
    have hR' := congrArg List.length hR
    rw [List.nil_append] at hR'
    have hlen : (writesOf R).length ≤ freshWrites.length := by
      rw [writesOf, List.length_map, ← hR']
      simp only [freshWrites, List.length_cons, List.length_nil]
      omega
    have hlog := (hstut hwal).eq_of_length_le hlen
    rw [BufferPool.log, hR]
    exact hlog

theorem construct_existing {root : PageId} (h : Good base bp [] []) (hpool : 0 < bp.poolSize)
    (hnext : bp.next ≠ 0) (hroot : bp.view 0 = some (.metadata root)) :
    Reads base BTree.construct bp (.ok (0, root)) := by
  have hcount : bp.diskPageCount ≠ 0 := hnext
  obtain ⟨f, bp₁, hfetch, h₁, hquiet⟩ := h.fetchPage hroot List.not_mem_nil hpool
  obtain ⟨hgood, hrelease⟩ := h₁.release List.not_mem_nil
  have hget : (MonadState.get : Prog BufferPool BufferPool) bp = .ok bp bp := rfl
  refine ⟨_, ?_, hgood, hquiet.trans hrelease⟩
  unfold BTree.construct
  rw [Prog.bind_ok hget, if_neg hcount, Prog.bind_ok hfetch]
  simp only [PageGuard.withGuard,
    Prog.bind_ok (h₁.page List.mem_cons_self (hquiet.view_eq ▸ hroot)), Prog.pure_run]
  rfl

/-! ## The store of a fresh tree -/

/-- The store a fresh tree starts from. -/
def freshStore : PageStore := replay WriteLog.empty freshWrites

theorem fresh_log : OneCommit WriteLog.empty freshWrites := by
  have hchain : Linked WriteLog.empty none none [] := rfl
  refine .shadows (.cons (.newLeaf rfl hchain .nil) (.cons ?_ (.nil _)))
  refine .register (fun b hb => by cases hb) id fun r hr => ?_
  rw [List.mem_singleton.mp hr]
  exact ⟨0, none, [], rfl⟩

theorem empty_sound : Sound WriteLog.empty where
  level h := by cases h
  chain h := by cases h
  sorted h := by cases h
  separated h := by cases h
  roots h := by cases h

theorem fresh_sound : Sound freshStore := fresh_log.sound empty_sound

/-- The one-leaf tree of a fresh store. -/
theorem fresh_intact : Intact freshStore 1 (.leaf ⟨1, []⟩) where
  root_eq := rfl
  holds := holds_leaf.mpr ⟨⟨none, rfl⟩, .nil, by simp⟩
  nodup := List.nodup_singleton 1
  linked := ⟨rfl, none, rfl, rfl⟩

end

namespace BTree

variable {base : Files} {bp : BufferPool}

/-- **A fresh tree.** -/
theorem new_fresh (h : Good base bp [] []) (hpool : 2 ≤ bp.poolSize) (hnext : bp.next = 0) :
    ∃ bp', BTree.new bp = .ok ⟨bp', 0, none, 1⟩ bp' ∧ Settled base [] bp freshRun bp' ∧
      (bp.wal.isSome → bp.records = [] → bp'.log = freshWrites) ∧ bp'.view = freshStore ∧
      Standalone base ⟨bp', 0, none, 1⟩ := by
  obtain ⟨bp', hrun, hs, hlog⟩ := construct_fresh h hpool hnext
  have hempty : bp.view = WriteLog.empty := by
    funext p
    exact h.view_next (hnext ▸ Nat.zero_le p)
  have hview : bp'.view = freshStore := by rw [hs.view_eq, hempty]; rfl
  refine ⟨bp', ?_, hs, hlog, hview, ⟨⟨hs.good, ?_, hview ▸ fresh_sound⟩, ⟨0, ?_⟩⟩, rfl, ?_⟩
  · unfold BTree.new
    rw [hrun]
    rfl
  · rw [hs.effect.poolSize_eq]; omega
  · show HasLevel bp'.view 0 1
    rw [hview]
    exact fresh_intact.hasLevel
  · show bp'.view 0 = _
    rw [hview]
    rfl

/-- A tree over an existing file. -/
theorem new_existing {root : PageId} (h : PoolReady base bp)
    (hroot : bp.view 0 = some (.metadata root)) :
    ∃ bp', BTree.new bp = .ok ⟨bp', 0, none, root⟩ bp' ∧ Quiet bp bp' ∧
      Standalone base ⟨bp', 0, none, root⟩ := by
  have hnext : bp.next ≠ 0 := (Nat.zero_lt_of_lt (h.good.lt_next hroot)).ne'
  obtain ⟨bp', hrun, hgood, hquiet⟩ := construct_existing h.good h.pool_pos hnext hroot
  obtain ⟨d, hd⟩ := h.sound.roots hroot root (List.mem_singleton_self _)
  refine ⟨bp', ?_, hquiet, ⟨h.of_quiet hgood hquiet, ⟨d, ?_⟩⟩, rfl, ?_⟩
  · unfold BTree.new
    rw [hrun]
    rfl
  · show HasLevel bp'.view d root
    rw [hquiet.view_eq]
    exact hd
  · show bp'.view 0 = _
    rw [hquiet.view_eq, hroot]

end BTree

end Reldb
