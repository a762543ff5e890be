import Reldb.Tree.Methods
import Reldb.Lib.Spans

/-!
# Reldb — intact trees

The shape of a tree that no operation is in the middle of changing. `Tree h` is a tree of height
`h` written out: a leaf, or an internal page with its children and the key each child starts at.
`Holds σ t lo hi` says that the store `σ` holds the tree `t` and that its keys tile `[lo, hi)`; that
is what makes descent by separators find a key, and it is what a crash between the writes of a
split can break.
-/

namespace Reldb

open WriteLog Tiling

/-- A tree of uniform height. A child is paired with the key its range starts at. -/
def Tree : Nat → Type
  | 0 => Leaf
  | h + 1 => PageId × List (Int64 × Tree h)

namespace Tree

/-- The page at the root. -/
def id : {h : Nat} → Tree h → PageId
  | 0, t => Leaf.id t
  | _ + 1, t => Prod.fst t

/-- The leaves, left to right. -/
def leaves : {h : Nat} → Tree h → List Leaf
  | 0, t => [t]
  | _ + 1, t => t.2.flatMap fun kid => leaves kid.2

/-- All pages of the tree. -/
def pages : {h : Nat} → Tree h → List PageId
  | 0, t => [Leaf.id t]
  | _ + 1, t => t.1 :: t.2.flatMap fun kid => pages kid.2

/-- All cells of the tree, in key order. -/
def cells {h : Nat} (t : Tree h) : List LeafCell := cellsOf t.leaves

theorem cells_leaf (t : Tree 0) : t.cells = Leaf.cells t := List.append_nil (Leaf.cells t)

/-- The tree of one leaf. -/
def leaf (l : Leaf) : Tree 0 := l

/-- The tree with the page `id` over the children `kids`. -/
def node {h : Nat} (id : PageId) (kids : List (Int64 × Tree h)) : Tree (h + 1) := (id, kids)

theorem exists_leaf (t : Tree 0) : ∃ l, t = leaf l := ⟨t, rfl⟩

theorem exists_node {h : Nat} (t : Tree (h + 1)) : ∃ id kids, t = node id kids := ⟨t.1, t.2, rfl⟩

section

variable {h : Nat} (l : Leaf) (p : PageId) (kids : List (Int64 × Tree h))

@[simp] theorem id_leaf : (leaf l).id = l.id := rfl
@[simp] theorem leaves_leaf : (leaf l).leaves = [l] := rfl
@[simp] theorem pages_leaf : (leaf l).pages = [l.id] := rfl
@[simp] theorem cells_leaf' : (leaf l).cells = l.cells := cells_leaf l
@[simp] theorem id_node : (node p kids).id = p := rfl
@[simp] theorem leaves_node : (node p kids).leaves = kids.flatMap fun kid => kid.2.leaves := rfl
@[simp] theorem pages_node :
    (node p kids).pages = p :: kids.flatMap fun kid => kid.2.pages := rfl

end

theorem id_mem_pages {h : Nat} (t : Tree h) : t.id ∈ t.pages := by
  cases h with
  | zero => exact List.mem_singleton_self _
  | succ h => exact List.mem_cons_self

theorem leaf_mem_pages {h : Nat} (t : Tree h) {l : Leaf} (hl : l ∈ t.leaves) : l.id ∈ t.pages := by
  induction h with
  | zero => rw [List.mem_singleton.mp hl]; exact List.mem_singleton_self _
  | succ h ih =>
    obtain ⟨kid, hkid, hl⟩ := List.mem_flatMap.mp hl
    exact List.mem_cons_of_mem _ (List.mem_flatMap.mpr ⟨kid, hkid, ih kid.2 hl⟩)

end Tree

theorem cellsOf_flatMap {h : Nat} (kids : List (Int64 × Tree h)) :
    cellsOf (kids.flatMap fun kid => kid.2.leaves) = kids.flatMap fun kid => kid.2.cells := by
  simp only [cellsOf, Tree.cells, List.flatMap_assoc]

/-- What a leaf holds on its range. -/
structure LeafOn (lo : Int64) (hi : WithTop Int64) (l : Leaf) : Prop where
  sorted : SortedCells l.cells
  range : ∀ c ∈ l.cells, lo ≤ c.key ∧ (c.key : WithTop Int64) < hi

/-- A key and the page it leads to, as a child list stores them. -/
def pointer {h : Nat} (kid : Int64 × Tree h) : Int64 × PageId := (kid.1, kid.2.id)

/-- The separators and child pointers of an internal page, the leftmost child at `lo`. -/
def pointers (lo : Int64) (lm : PageId) (cells : List InternalCell) : List (Int64 × PageId) :=
  (lo, lm) :: cells.map fun c => (c.key, c.child)

/-- The store holds the tree, and its keys tile `[lo, hi)`. -/
def Holds (σ : PageStore) : {h : Nat} → Tree h → Int64 → WithTop Int64 → Prop
  | 0, t, lo, hi => (∃ chain, σ (Leaf.id t) = some (.leaf chain (Leaf.cells t))) ∧ LeafOn lo hi t
  | _ + 1, t, lo, hi => ∃ lm cells, σ t.1 = some (.internal lm cells) ∧
      t.2.map pointer = pointers lo lm cells ∧
      Spans (fun lo hi kid => Holds σ kid lo hi) t.2 hi

theorem holds_leaf {σ : PageStore} {l : Leaf} {lo : Int64} {hi : WithTop Int64} :
    Holds σ (.leaf l) lo hi ↔
      (∃ chain, σ l.id = some (.leaf chain l.cells)) ∧ LeafOn lo hi l := Iff.rfl

theorem holds_node {σ : PageStore} {h : Nat} {id : PageId} {kids : List (Int64 × Tree h)}
    {lo : Int64} {hi : WithTop Int64} : Holds σ (.node id kids) lo hi ↔
      ∃ lm cells, σ id = some (.internal lm cells) ∧ kids.map pointer = pointers lo lm cells ∧
        Spans (fun lo hi kid => Holds σ kid lo hi) kids hi := Iff.rfl

namespace Holds

variable {σ τ : PageStore} {h : Nat} {t : Tree h} {lo : Int64} {hi : WithTop Int64}

/-- A tree depends only on its own pages. -/
theorem congr (ht : Holds σ t lo hi) (heq : ∀ p ∈ t.pages, τ p = σ p) : Holds τ t lo hi := by
  induction h generalizing lo hi with
  | zero =>
    obtain ⟨⟨chain, hleaf⟩, hon⟩ := ht
    exact ⟨⟨chain, (heq _ (List.mem_singleton_self _)).trans hleaf⟩, hon⟩
  | succ h ih =>
    obtain ⟨lm, cells, hbody, hkids, hspans⟩ := ht
    refine ⟨lm, cells, (heq _ List.mem_cons_self).trans hbody, hkids, hspans.imp ?_⟩
    intro kid hkid hi' hk
    exact ih hk fun p hp =>
      heq p (List.mem_cons_of_mem _ (List.mem_flatMap.mpr ⟨kid, hkid, hp⟩))

/-- The tree's cells are sorted and lie in its range. -/
theorem cells_spec (ht : Holds σ t lo hi) :
    SortedCells t.cells ∧ ∀ c ∈ t.cells, lo ≤ c.key ∧ (c.key : WithTop Int64) < hi := by
  induction h generalizing lo hi with
  | zero =>
    obtain ⟨-, hon⟩ := ht
    rw [Tree.cells_leaf]
    exact ⟨hon.sorted, hon.range⟩
  | succ h ih =>
    obtain ⟨lm, cells, -, hkids, hspans⟩ := ht
    have hcells : t.cells = t.2.flatMap fun kid => kid.2.cells := cellsOf_flatMap t.2
    have hstart : start t.2 hi = (lo : WithTop Int64) := by
      cases hk : t.2 with
      | nil => rw [hk] at hkids; cases hkids
      | cons kid kids =>
        rw [hk] at hkids
        have := congrArg Prod.fst (List.cons.inj hkids).1
        exact congrArg _ this
    rw [hcells]
    refine ⟨hspans.pairwise (fun hk => (ih hk).2) fun hk => (ih hk).1, fun c hc => ?_⟩
    have hrange := hspans.mem_range (fun hk => (ih hk).2) c hc
    rw [hstart] at hrange
    exact ⟨WithTop.coe_le_coe.mp hrange.1, hrange.2⟩

theorem sorted (ht : Holds σ t lo hi) : SortedCells t.cells := ht.cells_spec.1

/-- The pages of the tree are nodes. -/
theorem isNode (ht : Holds σ t lo hi) {p : PageId} (hp : p ∈ t.pages) :
    ∃ b, σ p = some b ∧ b.IsNode := by
  induction h generalizing lo hi with
  | zero =>
    obtain ⟨⟨chain, hleaf⟩, -⟩ := ht
    rw [List.mem_singleton.mp hp]
    exact ⟨_, hleaf, trivial⟩
  | succ h ih =>
    obtain ⟨lm, cells, hbody, -, hspans⟩ := ht
    rcases List.mem_cons.mp hp with rfl | hp
    · exact ⟨_, hbody, trivial⟩
    · obtain ⟨kid, hkid, hp⟩ := List.mem_flatMap.mp hp
      obtain ⟨hi', hk⟩ := hspans.exists_range hkid
      exact ih hk hp

theorem isSome (ht : Holds σ t lo hi) {p : PageId} (hp : p ∈ t.pages) : (σ p).isSome := by
  obtain ⟨b, hb, -⟩ := ht.isNode hp
  rw [hb]
  rfl

end Holds

/-! ## Descent -/

section

variable {σ : PageStore} {h : Nat} {lo key : Int64} {hi : WithTop Int64} {lm : PageId}
  {cells : List InternalCell}

theorem childAt_of_pointers {i : Nat} {b : Int64} {p : PageId}
    (hi : (pointers lo lm cells)[i]? = some (b, p)) : childAt lm cells i = p := by
  cases i with
  | zero =>
    simp only [pointers, List.getElem?_cons_zero, Option.some.injEq, Prod.mk.injEq] at hi
    exact hi.2
  | succ i =>
    simp only [pointers, List.getElem?_cons_succ, List.getElem?_map, Option.map_eq_some_iff] at hi
    obtain ⟨c, hc, heq⟩ := hi
    simp only [childAt, hc, Option.map_some, Option.getD_some]
    exact congrArg Prod.snd heq

/-- Counting separators up to a key is counting the starts of the children after the first. -/
theorem childIndex_eq_position {kids : List (Int64 × Tree h)}
    (hkids : kids.map pointer = cells.map fun c => (c.key, c.child)) :
    childIndex cells key = position key kids := by
  have hleft : ((cells.map fun c => (c.key, c.child)).takeWhile fun p => decide (p.1 ≤ key)).length
      = childIndex cells key := by
    rw [List.takeWhile_map, List.length_map]
    rfl
  have hright : ((kids.map pointer).takeWhile fun p => decide (p.1 ≤ key)).length
      = position key kids := by
    rw [List.takeWhile_map, List.length_map]
    rfl
  rw [← hleft, ← hkids, hright]

/-- **Descent finds the child whose range holds the key.** -/
theorem Holds.locate {kids : List (Int64 × Tree h)}
    (hkids : kids.map pointer = pointers lo lm cells)
    (hspans : Spans (fun lo hi kid => Holds σ kid lo hi) kids hi) (hlo : lo ≤ key)
    (hhi : (key : WithTop Int64) < hi) :
    ∃ A b kid B, kids = A ++ (b, kid) :: B ∧ b ≤ key ∧ (key : WithTop Int64) < start B hi ∧
      A.length = childIndex cells key ∧ childAt lm cells (childIndex cells key) = kid.id ∧
      Holds σ kid b (start B hi) := by
  cases kids with
  | nil => cases hkids
  | cons first rest =>
    obtain ⟨hfirst, hrest⟩ := List.cons.inj hkids
    have hlo' : first.1 ≤ key := (congrArg Prod.fst hfirst).trans_le hlo
    obtain ⟨A, ⟨b, kid⟩, B, heq, hb, hB, hlen⟩ := hspans.locate hlo' hhi
    rw [← childIndex_eq_position hrest] at hlen
    refine ⟨A, b, kid, B, heq, hb, hB, hlen, ?_, ?_⟩
    · have hget : (pointers lo lm cells)[childIndex cells key]? = some (b, kid.id) := by
        rw [← hkids, show (first :: rest).map pointer = (A ++ (b, kid) :: B).map pointer from
          congrArg _ heq, ← hlen]
        simp [pointer]
      exact childAt_of_pointers hget
    · have hspans' : Spans (fun lo hi kid => Holds σ kid lo hi) (A ++ (b, kid) :: B) hi :=
        heq ▸ hspans
      exact (spans_append.mp hspans').2.2.1

/-- Cells left of a child are below every key the child's range can hold; cells right of it are
above. -/
theorem Holds.cells_outside {A B : List (Int64 × Tree h)} {b : Int64} {kid : Tree h}
    (hspans : Spans (fun lo hi kid => Holds σ kid lo hi) (A ++ (b, kid) :: B) hi)
    (hb : b ≤ key) (hB : (key : WithTop Int64) < start B hi) :
    (∀ c ∈ A.flatMap fun kid => kid.2.cells, c.key < key) ∧
      ∀ c ∈ B.flatMap fun kid => kid.2.cells, key < c.key := by
  obtain ⟨hA, -, -, hB'⟩ := spans_append.mp hspans
  constructor
  · intro c hc
    have hlt := (hA.mem_range (fun hk => hk.cells_spec.2) c hc).2
    exact (WithTop.coe_lt_coe.mp hlt).trans_le hb
  · intro c hc
    have hle := (hB'.mem_range (fun hk => hk.cells_spec.2) c hc).1
    exact WithTop.coe_lt_coe.mp (hB.trans_le hle)

/-- Pages of the parts of a child list, one child apart from the others. -/
theorem pages_disjoint {A B : List (Int64 × Tree h)} {b : Int64} {kid : Tree h} {id : PageId}
    (hnodup : (id :: (A ++ (b, kid) :: B).flatMap fun kid => kid.2.pages).Nodup) :
    kid.pages.Nodup ∧ id ∉ kid.pages ∧ ∀ k ∈ A ++ B, ∀ p ∈ k.2.pages, p ∉ kid.pages := by
  obtain ⟨hid, hkids⟩ := List.nodup_cons.mp hnodup
  rw [List.flatMap_append, List.flatMap_cons] at hid hkids
  obtain ⟨-, hrest, hA⟩ := List.nodup_append.mp hkids
  obtain ⟨hkid, -, hB⟩ := List.nodup_append.mp hrest
  refine ⟨hkid, fun hmem => hid ?_, fun k hk p hp hmem => ?_⟩
  · exact List.mem_append_right _ (List.mem_append_left _ hmem)
  · rcases List.mem_append.mp hk with hk | hk
    · exact hA p (List.mem_flatMap.mpr ⟨k, hk, hp⟩) p (List.mem_append_left _ hmem) rfl
    · exact hB p hmem p (List.mem_flatMap.mpr ⟨k, hk, hp⟩) rfl

/-- The leaf `l` a descent for `key` arrives at, with the leaves `A` before and `B` after it: the
key belongs in `l` if anywhere, and cells of `l`'s range may replace `l`'s cells without touching
the rest of the tree. -/
structure Found (σ : PageStore) (t : Tree h) (lo : Int64) (hi : WithTop Int64) (key : Int64)
    (A : List Leaf) (l : Leaf) (B : List Leaf) (chain : Option PageId) : Prop where
  leaves : t.leaves = A ++ l :: B
  leaf : σ l.id = some (.leaf chain l.cells)
  below : ∀ c ∈ cellsOf A, c.key < key
  above : ∀ c ∈ cellsOf B, key < c.key
  rewrite : ∃ lo' hi', LeafOn lo' hi' l ∧ lo' ≤ key ∧ (key : WithTop Int64) < hi' ∧
    ∀ cells', LeafOn lo' hi' ⟨l.id, cells'⟩ → ∃ t' : Tree h,
      Holds (write σ (l.id, .leaf chain cells')) t' lo hi ∧ t'.id = t.id ∧ t'.pages = t.pages ∧
        t'.leaves = A ++ ⟨l.id, cells'⟩ :: B

/-- **Where a descent arrives.** -/
theorem Holds.findLeaf {t : Tree h} {fuel : Nat} (ht : Holds σ t lo hi) (hnodup : t.pages.Nodup)
    (hlo : lo ≤ key) (hhi : (key : WithTop Int64) < hi) (hfuel : h < fuel) :
    ∃ A l B chain, Found σ t lo hi key A l B chain ∧
      OnStore.findLeafPageId fuel σ t.id key = .ok l.id := by
  induction h generalizing fuel lo hi with
  | zero =>
    obtain ⟨⟨chain, hleaf⟩, hon⟩ := ht
    obtain ⟨fuel, rfl⟩ := Nat.exists_eq_succ_of_ne_zero (Nat.ne_of_gt hfuel)
    refine ⟨[], t, [], chain, ⟨rfl, hleaf, by simp, by simp, lo, hi, hon, hlo, hhi, ?_⟩, ?_⟩
    · intro cells' hon'
      exact ⟨(⟨Leaf.id t, cells'⟩ : Leaf), ⟨⟨chain, write_self σ _⟩, hon'⟩, rfl, rfl, rfl⟩
    · simp only [OnStore.findLeafPageId, Tree.id, hleaf]
  | succ h ih =>
    obtain ⟨id, kids⟩ := t
    obtain ⟨lm, cells, hbody, hkids, hspans⟩ := ht
    obtain ⟨fuel, rfl⟩ := Nat.exists_eq_succ_of_ne_zero (Nat.ne_of_gt (Nat.zero_lt_of_lt hfuel))
    obtain ⟨A', b, kid, B', rfl, hb, hB, -, hchild, hkid⟩ := Holds.locate hkids hspans hlo hhi
    obtain ⟨hnk, hidk, hdisj⟩ := pages_disjoint hnodup
    obtain ⟨A, l, B, chain, hfound, hfind⟩ := ih hkid hnk hb hB (Nat.lt_of_succ_lt_succ hfuel)
    obtain ⟨hbelow, habove⟩ := Holds.cells_outside hspans hb hB
    have hbody' : σ id = some (.internal lm cells) := hbody
    refine ⟨(A'.flatMap fun kid => kid.2.leaves) ++ A, l,
      B ++ B'.flatMap fun kid => kid.2.leaves, chain, ?_, ?_⟩
    · obtain ⟨lo', hi', hon, hlo', hhi', hrewrite⟩ := hfound.rewrite
      refine ⟨?_, hfound.leaf, ?_, ?_, lo', hi', hon, hlo', hhi', ?_⟩
      · simp only [Tree.leaves, List.flatMap_append, List.flatMap_cons, hfound.leaves,
          List.append_assoc, List.cons_append]
      · intro c hc
        rw [cellsOf_append, List.mem_append, cellsOf_flatMap] at hc
        exact hc.elim (hbelow c) (hfound.below c)
      · intro c hc
        rw [cellsOf_append, List.mem_append, cellsOf_flatMap] at hc
        exact hc.elim (hfound.above c) (habove c)
      · intro cells' hon'
        obtain ⟨kid', hkid', hid', hpages', hleaves'⟩ := hrewrite cells' hon'
        have hl : l.id ∈ kid.pages :=
          kid.leaf_mem_pages (hfound.leaves ▸ List.mem_append_right _ List.mem_cons_self)
        have hkeep : ∀ k ∈ A' ++ B', ∀ hi', Holds σ k.2 k.1 hi' →
            Holds (write σ (l.id, .leaf chain cells')) k.2 k.1 hi' := by
          intro k hk hi' hkid
          refine hkid.congr fun p hp => write_of_ne σ _ ?_
          rintro rfl
          exact hdisj k hk _ hp hl
        obtain ⟨hsA, hsmid, -, hsB⟩ := spans_append.mp hspans
        refine ⟨(id, A' ++ (b, kid') :: B'), ⟨lm, cells, ?_, ?_, ?_⟩, rfl, ?_, ?_⟩
        · exact (write_of_ne σ _ fun heq : id = l.id => hidk (heq ▸ hl)).trans hbody'
        · rw [← hkids]
          simp only [List.map_append, List.map_cons, pointer, hid']
        · rw [spans_append, spans_cons]
          exact ⟨hsA.imp fun k hk => hkeep k (List.mem_append_left _ hk), hsmid, hkid',
            hsB.imp fun k hk => hkeep k (List.mem_append_right _ hk)⟩
        · simp only [Tree.pages, List.flatMap_append, List.flatMap_cons, hpages']
        · simp only [Tree.leaves, List.flatMap_append, List.flatMap_cons, hleaves',
            List.append_assoc, List.cons_append]
    · simp only [OnStore.findLeafPageId, Tree.id, hbody', hchild]
      exact hfind

/-- The tree's cells around the leaf found. -/
theorem Found.cells_eq {t : Tree h} {A B : List Leaf} {l : Leaf} {chain : Option PageId}
    (hf : Found σ t lo hi key A l B chain) : t.cells = cellsOf A ++ (l.cells ++ cellsOf B) := by
  rw [Tree.cells, hf.leaves, cellsOf_append, cellsOf_cons]

theorem Found.sorted {t : Tree h} {A B : List Leaf} {l : Leaf} {chain : Option PageId}
    (hf : Found σ t lo hi key A l B chain) : SortedCells l.cells := by
  obtain ⟨_, _, hon, -⟩ := hf.rewrite
  exact hon.sorted

/-- A cell of the tree with the descent's key is in the leaf found. -/
theorem Found.mem_leaf {t : Tree h} {A B : List Leaf} {l : Leaf} {chain : Option PageId}
    (hf : Found σ t lo hi key A l B chain) {c : LeafCell} (hkey : c.key = key) :
    c ∈ t.cells ↔ c ∈ l.cells := by
  rw [hf.cells_eq, List.mem_append, List.mem_append]
  constructor
  · rintro (hc | hc | hc)
    · exact absurd hkey (hf.below c hc).ne
    · exact hc
    · exact absurd hkey (hf.above c hc).ne'
  · exact fun hc => .inr (.inl hc)

/-- An intact tree has the levels of its shape. -/
theorem Holds.hasLevel {t : Tree h} (ht : Holds σ t lo hi) : HasLevel σ h t.id := by
  induction h generalizing lo hi with
  | zero => exact ⟨ht.1.choose, _, ht.1.choose_spec⟩
  | succ h ih =>
    obtain ⟨lm, cells, hbody, hkids, hspans⟩ := ht
    refine ⟨lm, cells, hbody, fun p hp => ?_⟩
    have hmem : p ∈ (t.2.map pointer).map Prod.snd := by
      rw [hkids]
      simpa [pointers, childrenOf] using hp
    rw [List.map_map] at hmem
    obtain ⟨kid, hkid, rfl⟩ := List.mem_map.mp hmem
    obtain ⟨hi', hk⟩ := hspans.exists_range hkid
    exact ih hk

/-- The leftmost path of an intact tree ends at its first leaf. -/
theorem Holds.leftmost {t : Tree h} (ht : Holds σ t lo hi) :
    ∃ l ls, t.leaves = l :: ls ∧ leftmostLeaf σ h t.id = l.id := by
  induction h generalizing lo hi with
  | zero => exact ⟨t, [], rfl, rfl⟩
  | succ h ih =>
    obtain ⟨id, kids⟩ := t
    obtain ⟨lm, cells, hbody, hkids, hspans⟩ := ht
    cases kids with
    | nil => cases hkids
    | cons kid kids =>
      obtain ⟨l, ls, hleaves, hleft⟩ := ih hspans.2.1
      refine ⟨l, ls ++ kids.flatMap fun kid => kid.2.leaves, ?_, ?_⟩
      · simp only [Tree.leaves, List.flatMap_cons, hleaves, List.cons_append]
      · have hlm : kid.2.id = lm := congrArg Prod.snd (List.cons.inj hkids).1
        have hbody' : σ id = some (.internal lm cells) := hbody
        simp only [leftmostLeaf, Tree.id, hbody', ← hlm]
        exact hleft

end

/-- The tree at `root` is intact: it is written out by `t`, no page occurs twice in it, and its
leaves are chained in order. -/
structure Intact (σ : PageStore) (root : PageId) {h : Nat} (t : Tree h) : Prop where
  root_eq : t.id = root
  holds : Holds σ t ⊥ ⊤
  nodup : t.pages.Nodup
  linked : Linked σ (some (leftmostLeaf σ h root)) none t.leaves

namespace Intact

variable {σ : PageStore} {root : PageId} {h : Nat} {t : Tree h}

theorem hasLevel (ht : Intact σ root t) : HasLevel σ h root := ht.root_eq ▸ ht.holds.hasLevel

theorem scans (ht : Intact σ root t) : Scans σ root t.leaves := ⟨h, ht.hasLevel, ht.linked⟩

/-- An intact tree depends only on its own pages. -/
theorem congr {τ : PageStore} (ht : Intact σ root t) (heq : ∀ p ∈ t.pages, τ p = σ p) :
    Intact τ root t := by
  have hholds := ht.holds.congr heq
  refine ⟨ht.root_eq, hholds, ht.nodup, ?_⟩
  obtain ⟨l, ls, hleaves, hleft⟩ := hholds.leftmost
  obtain ⟨l', ls', hleaves', hleft'⟩ := ht.holds.leftmost
  obtain ⟨rfl, -⟩ := List.cons.inj (hleaves.symm.trans hleaves')
  rw [← ht.root_eq, hleft, ← hleft', ht.root_eq]
  exact ht.linked.congr fun l hl => heq _ (t.leaf_mem_pages hl)

/-- Writing a page that is no node leaves the tree alone. -/
theorem write_other (ht : Intact σ root t) {w : PageWrite} (hw : ∀ b, σ w.1 = some b → ¬ b.IsNode) :
    Intact (write σ w) root t := by
  refine ht.congr fun p hp => write_of_ne σ w ?_
  rintro rfl
  obtain ⟨b, hb, hnode⟩ := ht.holds.isNode hp
  exact hw b hb hnode

end Intact

/-! ## Lookups in an intact tree -/

/-- The pairs of a cell. -/
def LeafCell.pair (c : LeafCell) : Int64 × Bytes := (c.key, c.value)

theorem find?_key {cells : List LeafCell} (hs : SortedCells cells) (key : Int64) (v : Bytes) :
    (cells.find? (·.key == key)).map (·.value) = some v ↔ ⟨key, v⟩ ∈ cells := by
  constructor
  · intro h
    obtain ⟨c, hc, rfl⟩ := Option.map_eq_some_iff.mp h
    have hkey : c.key = key := by simpa using List.find?_some hc
    have hmem := List.mem_of_find?_eq_some hc
    rwa [show c = ⟨key, c.value⟩ by cases c; cases hkey; rfl] at hmem
  · intro h
    cases hf : cells.find? (·.key == key) with
    | none =>
      have := List.find?_eq_none.mp hf _ h
      simp at this
    | some c =>
      have hkey : c.key = key := by simpa using List.find?_some hf
      rw [hs.eq_of_key_eq (List.mem_of_find?_eq_some hf) h hkey]
      rfl

/-- What one leaf contributes to a scan, and whether the scan stops in it. -/
theorem scanCells_eq {cells : List LeafCell} (hs : SortedCells cells) (low high : Int64) :
    (scanCells low high cells).1
        = (cells.filter fun c => decide (low ≤ c.key) && decide (c.key ≤ high)).map LeafCell.pair ∧
      ((scanCells low high cells).2 = true → ∃ c ∈ cells, high < c.key) := by
  induction cells with
  | nil => exact ⟨rfl, fun h => by cases h⟩
  | cons c cs ih =>
    obtain ⟨hhead, htail⟩ := List.pairwise_cons.mp hs
    obtain ⟨hhits, hpast⟩ := ih htail
    unfold scanCells
    by_cases hlow : c.key < low
    · rw [if_pos hlow]
      refine ⟨?_, fun h => (hpast h).imp fun _ h => ⟨List.mem_cons_of_mem _ h.1, h.2⟩⟩
      rw [hhits, List.filter_cons_of_neg]
      simp [hlow]
    rw [if_neg hlow]
    by_cases hhigh : high < c.key
    · rw [if_pos hhigh]
      refine ⟨?_, fun _ => ⟨c, List.mem_cons_self, hhigh⟩⟩
      have hnone : (c :: cs).filter (fun c => decide (low ≤ c.key) && decide (c.key ≤ high)) = [] := by
        refine List.filter_eq_nil_iff.mpr fun x hx => ?_
        have hx' : high < x.key := by
          rcases List.mem_cons.mp hx with rfl | hx
          exacts [hhigh, hhigh.trans (hhead x hx)]
        simp [not_le.mpr hx']
      rw [hnone]
      rfl
    · rw [if_neg hhigh]
      refine ⟨?_, fun h => (hpast h).imp fun _ h => ⟨List.mem_cons_of_mem _ h.1, h.2⟩⟩
      simp only [hhits]
      rw [List.filter_cons_of_pos]
      · rfl
      · simp [not_lt.mp hlow, not_lt.mp hhigh]

/-- A scan along a chain of sorted leaves reports the cells within the bounds. -/
theorem scanned_eq {ls : List Leaf} (hs : SortedCells (cellsOf ls)) (low high : Int64) :
    scanned low high ls
      = ((cellsOf ls).filter fun c => decide (low ≤ c.key) && decide (c.key ≤ high)).map
          LeafCell.pair := by
  induction ls with
  | nil => rfl
  | cons l ls ih =>
    rw [cellsOf_cons] at hs ⊢
    obtain ⟨hl, hls, hcross⟩ := SortedCells.append_iff.mp hs
    obtain ⟨hhits, hpast⟩ := scanCells_eq hl low high
    rw [scanned, hhits, List.filter_append, List.map_append]
    congr 1
    cases h : (scanCells low high l.cells).2 with
    | false => exact ih hls
    | true =>
      -- a key past `high` in this leaf: nothing after it is within the bounds
      obtain ⟨c, hc, hhigh⟩ := hpast h
      have hnone : (cellsOf ls).filter (fun c => decide (low ≤ c.key) && decide (c.key ≤ high))
          = [] := by
        refine List.filter_eq_nil_iff.mpr fun x hx => ?_
        simp [not_le.mpr (hhigh.trans (hcross c hc x hx))]
      rw [hnone]
      rfl

end Reldb
