import Reldb.Tree.Fill
import Reldb.Tree.Overrun

/-!
# Reldb — the shape of a tree

What `Insert` and `Delete` keep of the tree's shape: how full the nodes are, the separators between their
children, and the chain of the leaves (`Shaped`). The keys and the chain come from the tree being intact, how
full the nodes are from `Fans`. Nothing merges what `Delete` empties, so a leaf may be empty; but internal
pages never lose a child, which is what bounds the number of leaves from below.

Step lemma: `Fanned.step`. Run lemma: `Fanned.run`.
-/

namespace Reldb

open WriteLog Tiling BufferPool

/-- A separator between two children. -/
structure Separates {h : Nat} (sep : InternalCell) (left right : Tree h) : Prop where
  below : ∀ c ∈ left.cells, c.key < sep.key
  above : ∀ c ∈ right.cells, sep.key ≤ c.key

/-- An internal page over the children `kids`, with `least` separators or more. -/
structure Branches {h : Nat} (least : Nat) (lm : PageId) (cells : List InternalCell)
    (kids : List (Tree h)) : Prop where
  children : childrenOf lm cells = kids.map Tree.id
  count : least ≤ cells.length ∧ cells.length ≤ internalMaxKeys
  increasing : cells.Pairwise fun a b => a.key < b.key
  separates : ∀ (i : Nat) sep left right, cells[i]? = some sep → kids[i]? = some left →
    kids[i + 1]? = some right → Separates sep left right

/-- The pages of the tree are as its nodes say, as full as a node is that is the root or is not. -/
def Balanced (σ : PageStore) : Bool → {h : Nat} → Tree h → Prop
  | _, 0, t => (∃ chain, σ (Leaf.id t) = some (.leaf chain (Leaf.cells t))) ∧
      (Leaf.cells t).length ≤ leafMaxKeys ∧ SortedCells (Leaf.cells t)
  | top, _ + 1, t => ∃ lm cells, σ t.1 = some (.internal lm cells) ∧
      Branches (if top then 1 else 2) lm cells (t.2.map Prod.snd) ∧
      ∀ kid ∈ t.2, Balanced σ false kid.2

/-- The tree at `root` has its shape. All leaves of a `Tree h` are `h` steps down, so that it is `h + 1`
pages high. -/
structure Shaped (σ : PageStore) (root : PageId) {h : Nat} (t : Tree h) : Prop where
  root_eq : t.id = root
  nodup : t.pages.Nodup
  balanced : Balanced σ true t
  chain : Linked σ (some (leftmostLeaf σ h root)) none t.leaves
  leaves : 2 ≤ h + 1 → 2 * 3 ^ (h + 1 - 2) ≤ t.leaves.length

section

variable {σ : PageStore} {h : Nat} {root : PageId} {lo : Int64} {hi : WithTop Int64}

theorem pointers_child {kids : List (Int64 × Tree h)} {lm : PageId} {cells : List InternalCell}
    (hkids : kids.map pointer = pointers lo lm cells) :
    childrenOf lm cells = (kids.map Prod.snd).map Tree.id := by
  have hsnd := congrArg (List.map Prod.snd) hkids
  rw [pointers, List.map_cons, List.map_map, List.map_map] at hsnd
  rw [childrenOf, List.map_map]
  exact hsnd.symm

theorem Holds.branches {kids : List (Int64 × Tree h)} {lm : PageId} {cells : List InternalCell}
    {least : Nat} (hkids : kids.map pointer = pointers lo lm cells)
    (hspans : Spans (fun lo hi kid => Holds σ kid lo hi) kids hi)
    (hcount : least ≤ cells.length ∧ cells.length ≤ internalMaxKeys) :
    Branches least lm cells (kids.map Prod.snd) := by
  refine ⟨pointers_child hkids, hcount, ?_, fun i sep left right hsep hleft hright => ?_⟩
  · -- the separators are where the children but the first start
    have hfst : kids.map Prod.fst = lo :: cells.map (·.key) := by
      have := congrArg (List.map Prod.fst) hkids
      rw [pointers, List.map_cons, List.map_map, List.map_map] at this
      exact this
    have hincreasing : (kids.map Prod.fst).Pairwise (· < ·) := List.pairwise_map.mpr hspans.starts
    rw [hfst] at hincreasing
    exact List.pairwise_map.mp (List.pairwise_cons.mp hincreasing).2
  · rw [List.getElem?_map, Option.map_eq_some_iff] at hleft hright
    obtain ⟨left, hl, rfl⟩ := hleft
    obtain ⟨right, hr, rfl⟩ := hright
    have hstart : right.1 = sep.key := by
      have hget : (kids.map pointer)[i + 1]? = some (pointer right) := by
        rw [List.getElem?_map, hr]
        rfl
      rw [hkids, pointers, List.getElem?_cons_succ, List.getElem?_map, hsep] at hget
      exact (congrArg Prod.fst (Option.some.inj hget)).symm
    obtain ⟨hleft, hi', hright⟩ := hspans.neighbours hl hr
    rw [hstart] at hleft hright
    exact ⟨fun c hc => WithTop.coe_lt_coe.mp (hleft.cells_spec.2 c hc).2,
      fun c hc => (hright.cells_spec.2 c hc).1⟩

/-- A tree that is held, of nodes as full as they are to be, is balanced. -/
theorem Holds.balanced {t : Tree h} (ht : Holds σ t lo hi) (hnodup : t.pages.Nodup) (hfans : Fans σ root)
    {top : Bool} (htop : t.id = root ∧ top = true ∨ root ∉ t.pages ∧ top = false) :
    Balanced σ top t := by
  induction h generalizing lo hi top with
  | zero =>
    obtain ⟨⟨chain, hleaf⟩, hon⟩ := ht
    exact ⟨⟨chain, hleaf⟩, (hfans _ _ hleaf).1, hon.sorted⟩
  | succ h ih =>
    obtain ⟨id, kids⟩ := t
    obtain ⟨lm, cells, hbody, hkids, hspans⟩ := ht
    obtain ⟨hroot, hother⟩ := hfans _ _ hbody
    refine ⟨lm, cells, hbody, Holds.branches hkids hspans ?_, fun kid hkid => ?_⟩
    · rcases htop with ⟨-, rfl⟩ | ⟨hnot, rfl⟩
      · exact hroot
      · exact hother fun heq => hnot (heq ▸ List.mem_cons_self)
    · have hin : ∀ p ∈ kid.2.pages, p ∈ kids.flatMap fun kid => kid.2.pages :=
        fun p hp => List.mem_flatMap.mpr ⟨kid, hkid, hp⟩
      obtain ⟨hid, hrest⟩ := List.nodup_cons.mp hnodup
      obtain ⟨hi', hk⟩ := hspans.exists_range hkid
      refine ih hk ((List.nodup_flatMap.mp hrest).1 kid hkid) (.inr ⟨fun hmem => ?_, rfl⟩)
      -- the root is no page below a child
      rcases htop with ⟨rfl, -⟩ | ⟨hnot, -⟩
      · exact hid (hin _ hmem)
      · exact hnot (List.mem_cons_of_mem _ (hin _ hmem))

theorem Branches.length_kids {least : Nat} {lm : PageId} {cells : List InternalCell}
    {kids : List (Tree h)} (hb : Branches least lm cells kids) : least + 1 ≤ kids.length := by
  have hlen := congrArg List.length hb.children
  rw [childrenOf, List.length_cons, List.length_map, List.length_map] at hlen
  have := hb.count.1
  omega

/-- Children of `n` leaves or more. -/
theorem length_leaves_ge {kids : List (Int64 × Tree h)} {n : Nat}
    (hkids : ∀ kid ∈ kids, n ≤ kid.2.leaves.length) :
    kids.length * n ≤ (kids.flatMap fun kid => kid.2.leaves).length := by
  induction kids with
  | nil => exact Nat.zero_mul n ▸ Nat.zero_le _
  | cons kid kids ih =>
    have hkid := hkids kid List.mem_cons_self
    have hrest := ih fun kid hmem => hkids kid (List.mem_cons_of_mem _ hmem)
    rw [List.flatMap_cons, List.length_append, List.length_cons, Nat.succ_mul]
    omega

theorem Balanced.pow_le {t : Tree h} (ht : Balanced σ false t) : 3 ^ h ≤ t.leaves.length := by
  induction h with
  | zero => exact le_refl 1
  | succ h ih =>
    obtain ⟨id, kids⟩ := t
    obtain ⟨lm, cells, -, hbranches, hkids⟩ := ht
    have hcount : 3 ≤ kids.length := by
      have := hbranches.length_kids
      rwa [List.length_map] at this
    calc 3 ^ (h + 1) = 3 * 3 ^ h := Nat.pow_succ'
      _ ≤ kids.length * 3 ^ h := Nat.mul_le_mul_right _ hcount
      _ ≤ _ := length_leaves_ge fun kid hkid => ih (hkids kid hkid)

theorem Balanced.leaves_ge {t : Tree (h + 1)} (ht : Balanced σ true t) :
    2 * 3 ^ h ≤ t.leaves.length := by
  obtain ⟨id, kids⟩ := t
  obtain ⟨lm, cells, -, hbranches, hkids⟩ := ht
  have hcount : 2 ≤ kids.length := by
    have := hbranches.length_kids
    rwa [List.length_map] at this
  calc 2 * 3 ^ h ≤ kids.length * 3 ^ h := Nat.mul_le_mul_right _ hcount
    _ ≤ _ := length_leaves_ge fun kid hkid => Balanced.pow_le (hkids kid hkid)

theorem Intact.shaped {t : Tree h} (ht : Intact σ root t) (hfans : Fans σ root) : Shaped σ root t where
  root_eq := ht.root_eq
  nodup := ht.nodup
  balanced := ht.holds.balanced ht.nodup hfans (.inl ⟨ht.root_eq, rfl⟩)
  chain := ht.linked
  leaves hheight := by
    have hbalanced := ht.holds.balanced ht.nodup hfans (.inl ⟨ht.root_eq, rfl⟩)
    cases h with
    | zero => omega
    | succ h => exact hbalanced.leaves_ge

end

/-! ## Runs -/

/-- What holds of a tree between calls none of which threw. -/
structure Fanned (base : Files) (t : BTree) : Prop where
  abstracts : ∃ m, Abstracts base t m
  fans : Fans t.bufferPool.view t.rootPageId

/-- No call of a run threw. -/
def NoneThrows (t : BTree) (ops : List TreeOp) : Prop := ∀ r ∈ runTree t ops, ∃ a, r = .ok a

section

variable {base : Files} {t : BTree}

theorem Fanned.insert (h : Fanned base t) {key : Int64} {value : Bytes} {a : TreeAnswer}
    (hok : TreeOp.result t (.insert key value) = .ok a) :
    Fans (TreeOp.after t (.insert key value)).bufferPool.view
      (TreeOp.after t (.insert key value)).rootPageId := by
  obtain ⟨m, habs⟩ := h.abstracts
  have hfits : value.length ≤ valueSize := by
    refine Nat.not_lt.mp fun hlong => ?_
    rw [TreeOp.result, TreeOp.insert_tooLong hlong] at hok
    cases hok
  obtain ⟨bp, hrun, hs⟩ := habs.toStandalone.insert key hfits
  obtain ⟨hafter, hresult⟩ := TreeOp.after_insert hrun
  rw [hresult] at hok
  cases hres : (t.insertRun key value).result with
  | error e =>
    rw [hres] at hok
    cases hok
  | ok root' =>
    rw [hafter, rootAfter_ok hres]
    show Fans bp.view root'
    rw [hs.view_eq]
    refine OnStore.insert_fans h.fans (fun root' τ n w hw => ?_) hres
    rw [List.mem_singleton.mp hw]
    exact trivial

theorem Fanned.delete (h : Fanned base t) (key : Int64) :
    Fans (TreeOp.after t (.delete key)).bufferPool.view
      (TreeOp.after t (.delete key)).rootPageId := by
  obtain ⟨m, habs⟩ := h.abstracts
  obtain ⟨height, tree, hintact, -⟩ := habs.tree
  obtain ⟨found, hres, -⟩ := hintact.delete habs.toPoolReady.fresh key
  obtain ⟨bp, hrun, hs⟩ := BTree.delete_run habs.toReady key
  rw [Run.outcome_ok hres] at hrun
  rw [(TreeOp.after_delete hrun).1]
  show Fans bp.view t.rootPageId
  rw [hs.view_eq]
  exact OnStore.delete_fans h.fans

theorem Fanned.answers {α : Type} (h : Fanned base t) {p : Prog BTree α} {res : Except Exn α}
    (hp : BTree.Answers base p t res) {op : TreeOp} {f : α → TreeAnswer} (hcall : op.call = f <$> p) :
    Fans (op.after t).bufferPool.view (op.after t).rootPageId := by
  obtain ⟨bp, hafter, hquiet⟩ := hp.after hcall
  rw [hafter]
  show Fans bp.view t.rootPageId
  rw [hquiet.view_eq]
  exact h.fans

/-- **Step lemma.** -/
theorem Fanned.step (h : Fanned base t) {op : TreeOp} {a : TreeAnswer} (hok : op.result t = .ok a) :
    Fanned base (op.after t) := by
  obtain ⟨m, habs⟩ := h.abstracts
  refine ⟨⟨_, (habs.step op).abstracts⟩, ?_⟩
  cases op with
  | insert key value => exact h.insert hok
  | delete key => exact h.delete key
  | get key => exact h.answers (BTree.get_answers habs.toReady key) (f := .value) rfl
  | rangeScan low high =>
    exact h.answers (BTree.rangeScan_answers habs.toReady low high) (f := .rows) rfl

/-- **Run lemma.** -/
theorem Fanned.run (h : Fanned base t) {ops : List TreeOp} (hok : NoneThrows t ops) :
    Fanned base (t.afterAll ops) := by
  induction ops generalizing t with
  | nil => exact h
  | cons op ops ih =>
    obtain ⟨a, ha⟩ := hok _ List.mem_cons_self
    exact ih (h.step ha) fun r hr => hok r (List.mem_cons_of_mem _ hr)

theorem Fanned.shaped (h : Fanned base t) :
    ∃ height, ∃ tree : Tree height, Shaped t.bufferPool.view t.rootPageId tree := by
  obtain ⟨m, habs⟩ := h.abstracts
  obtain ⟨height, tree, hintact, -⟩ := habs.tree
  exact ⟨height, tree, hintact.shaped h.fans⟩

end

/-- A descent ends at a leaf, and a scan of any bounds ends. -/
structure BTree.Terminates (t : BTree) : Prop where
  findLeaf : ∀ key, ∃ p t', BTree.findLeaf key t = .ok p t'
  rangeScan : ∀ low high, ∃ rows t', BTree.rangeScan low high t = .ok rows t'

theorem BTree.Ready.terminates {base : Files} {t : BTree} (h : BTree.Ready base t) : t.Terminates where
  findLeaf key := by
    obtain ⟨p, chain, cells, bp, -, -, hrun, -⟩ := BTree.exists_findLeaf h key
    exact ⟨p, _, hrun⟩
  rangeScan low high := by
    obtain ⟨rows, hrows⟩ := h.rangeScan_ok low high
    obtain ⟨bp, hrun, -⟩ := BTree.rangeScan_answers h low high
    rw [hrows] at hrun
    exact ⟨rows, _, hrun⟩

/-- The new tree pins its metadata page while it creates the root. -/
theorem two_le_of_new {poolSize : Nat} {wal : Option WalManager}
    (hwal : wal = none ∨ wal = some (WalManager.new WalFile.empty)) {t : BTree} {bp : BufferPool}
    (hnew : BTree.new (BufferPool.new poolSize (DiskManager.new DataFile.empty) wal) = .ok t bp) :
    2 ≤ poolSize := by
  refine Nat.not_lt.mp fun hsmall => ?_
  have hthrows : Prog.Throws (fun _ _ => true)
      (BTree.new (BufferPool.new poolSize (DiskManager.new DataFile.empty) wal)) = true := by
    obtain rfl | rfl : poolSize = 0 ∨ poolSize = 1 := by omega
    · rcases hwal with rfl | rfl <;> decide +kernel
    · rcases hwal with rfl | rfl <;> decide +kernel
  rw [hnew] at hthrows
  cases hthrows

theorem Fanned.fresh {base : Files} {bp : BufferPool} (h : BTree.Standalone base ⟨bp, 0, none, 1⟩)
    (hview : bp.view = freshStore) : Fanned base ⟨bp, 0, none, 1⟩ := by
  refine ⟨⟨_, (Abstracts.fresh h hview).1⟩, ?_⟩
  show Fans bp.view 1
  rw [hview]
  refine Fans.replay (fun p b hp => by cases hp) fun w hw => ?_
  simp only [freshWrites, List.mem_cons, List.not_mem_nil, or_false] at hw
  rcases hw with rfl | rfl
  exacts [Nat.zero_le _, trivial]

/-- **A tree keeps its shape** through calls none of which throws, from its construction on, and descents
and scans of it end. -/
theorem tree_keeps_shape {poolSize : Nat} {wal : Option WalManager}
    (hwal : wal = none ∨ wal = some (WalManager.new WalFile.empty)) {t : BTree} {bp : BufferPool}
    (hnew : BTree.new (BufferPool.new poolSize (DiskManager.new DataFile.empty) wal) = .ok t bp)
    {ops : List TreeOp} (hok : NoneThrows t ops) :
    (∃ height, ∃ tree : Tree height,
        Shaped (t.afterAll ops).bufferPool.view (t.afterAll ops).rootPageId tree) ∧
      (t.afterAll ops).Terminates := by
  obtain ⟨hgood, -⟩ := fresh_good poolSize hwal
  obtain ⟨bp, hnew₀, -, -, hview, hst⟩ := BTree.new_fresh hgood (two_le_of_new hwal hnew) rfl
  rw [hnew₀] at hnew
  cases hnew
  have hrun := (Fanned.fresh hst hview).run hok
  obtain ⟨m, habs⟩ := hrun.abstracts
  exact ⟨hrun.shaped, habs.toReady.terminates⟩

/-- Six inserts, the fifth of which grows a root, and a delete. -/
def growingOps : List TreeOp :=
  [.insert 1 [1], .insert 2 [2], .insert 3 [3], .insert 4 [4], .insert 5 [5], .insert 6 [6], .delete 1]

theorem tree_keeps_shape_growing : ∃ t bp,
    BTree.new (BufferPool.new 4 (DiskManager.new DataFile.empty) none) = .ok t bp ∧
      (∃ height, ∃ tree : Tree height,
        Shaped (t.afterAll growingOps).bufferPool.view (t.afterAll growingOps).rootPageId tree) ∧
      (t.afterAll growingOps).Terminates := by
  obtain ⟨hgood, -⟩ := fresh_good 4 (.inl rfl)
  obtain ⟨bp, hnew, -⟩ := BTree.new_fresh hgood (by decide) rfl
  refine ⟨_, bp, hnew, tree_keeps_shape (.inl rfl) hnew fun r hr => ?_⟩
  have hrun : runNew (BufferPool.new 4 (DiskManager.new DataFile.empty) none) growingOps
      = [.ok .done, .ok .done, .ok .done, .ok .done, .ok .done, .ok .done, .ok (.deleted true)] := by
    decide +kernel
  rw [runNew, hnew] at hrun
  rw [show runTree _ growingOps = _ from hrun] at hr
  simp only [List.mem_cons, List.not_mem_nil, or_false] at hr
  rcases hr with rfl | rfl | rfl | rfl | rfl | rfl | rfl <;> exact ⟨_, rfl⟩

end Reldb
