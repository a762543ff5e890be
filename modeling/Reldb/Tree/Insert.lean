import Reldb.Tree.Lookup

/-!
# Reldb — insertion into an intact tree

`InsertRecursive` on the root of an intact subtree either does nothing (it ran out of frames on the
way down) or turns the subtree into one or two that tile the same range and hold the same cells but
for the key inserted (`Grown`). The induction follows the recursion: at a leaf the cells are
rewritten and perhaps halved; above, the child's list of pieces replaces the child in its parent's,
which is then written and perhaps halved in turn.
-/

namespace Reldb

open WriteLog Tiling

/-- What the two exhaustion messages of `Insert` stand for. -/
def Exn.exhaustedInsert : Exn := .runtimeError (text "BTree::Insert: buffer pool exhausted")

def Exn.exhaustedSplit : Exn := .runtimeError (text "BTree: buffer pool exhausted during split")

/-- The leaf the key belongs in has no room for it. -/
def FullLeaf (σ : PageStore) (fuel : Nat) (root : PageId) (key : Int64) : Prop :=
  ∃ p chain cells, OnStore.findLeafPageId fuel σ root key = .ok p ∧
    σ p = some (.leaf chain cells) ∧ leafMaxKeys ≤ cells.length ∧ ∀ c ∈ cells, c.key ≠ key

/-- All pages of a list of pieces. -/
def pagesOf {h : Nat} (T : List (Int64 × Tree h)) : List PageId := T.flatMap fun kid => kid.2.pages

/-- All leaves of a list of pieces. -/
def leavesOf {h : Nat} (T : List (Int64 × Tree h)) : List Leaf := T.flatMap fun kid => kid.2.leaves

/-- The pieces tile the range on the store. -/
abbrev Tiles (σ : PageStore) {h : Nat} (T : List (Int64 × Tree h)) (hi : WithTop Int64) : Prop :=
  Spans (fun lo hi kid => Holds σ kid lo hi) T hi

/-- The pieces a node turned into: itself, or itself and the right sibling a split announces. -/
def Pieces {h : Nat} (id : PageId) (lo : Int64) (result : Except Exn (Option SplitResult))
    (T : List (Int64 × Tree h)) : Prop :=
  (∃ t', T = [(lo, t')] ∧ t'.id = id ∧ ∀ s, result ≠ .ok (some s)) ∨
    ∃ t₁ t₂ s, T = [(lo, t₁), (SplitResult.promotedKey s, t₂)] ∧ t₁.id = id ∧
      t₂.id = s.newRightPageId ∧ result = .ok (some s)

/-- What inserting `key` made of the subtree `t`: the pieces `T`. -/
structure Grown (σ : PageStore) {h : Nat} (t : Tree h) (lo : Int64) (hi : WithTop Int64)
    (key : Int64) (value : Bytes) (free : Nat) (next : PageId) (r : Run (Option SplitResult))
    (T : List (Int64 × Tree h)) : Prop where
  tiles : Tiles (r.store σ) T hi
  pieces : Pieces t.id lo r.result T
  nodup : (pagesOf T).Nodup
  pages : ∀ p ∈ pagesOf T, p ∈ t.pages ∨ (next ≤ p ∧ p < r.next)
  frame : ∀ w ∈ r.writes, w.1 ∈ t.pages ∨ next ≤ w.1
  linked : ∀ {src dst}, Linked σ src dst t.leaves → Linked (r.store σ) src dst (leavesOf T)
  mem : ∀ c, c ∈ cellsOf (leavesOf T) ↔ c = ⟨key, value⟩ ∨ (c ∈ t.cells ∧ c.key ≠ key)
  small : (∃ a, r.result = .ok a) → (∀ l ∈ t.leaves, l.cells.length ≤ leafMaxKeys) →
    ∀ l ∈ leavesOf T, l.cells.length ≤ leafMaxKeys
  frames : ∀ s, r.result = .ok (some s) → h + 2 ≤ free
  error : ∀ e, r.result = .error e →
    e = .exhaustedSplit ∧ free = h + 1 ∧ FullLeaf σ (h + 1) t.id key

/-- The insertion that does nothing. -/
def Idle {h : Nat} (t : Tree h) (free : Nat) (next : PageId) (r : Run (Option SplitResult)) :
    Prop :=
  ∃ e, r = .fail next e ∧ ((e = .exhaustedInsert ∧ free ≤ h) ∨
    (e = .undefinedBehaviour ∧ ∃ l ∈ t.leaves, leafCapacity ≤ l.cells.length))

section

variable {σ : PageStore} {next : PageId} {free : Nat} {key lo : Int64} {hi : WithTop Int64}
  {value : Bytes} {id : PageId} {chain : Option PageId}

/-! ## At a leaf -/

/-- New cells for a leaf's range: the old ones and the key's. -/
theorem LeafOn.insert {l : Leaf} {A B : List LeafCell} (hon : LeafOn lo hi l)
    (ha : Around l.cells key A B) (hlo : lo ≤ key) (hhi : (key : WithTop Int64) < hi) :
    LeafOn lo hi ⟨l.id, A ++ ⟨key, value⟩ :: B⟩ := by
  refine ⟨ha.sorted value, fun c hc => ?_⟩
  rcases ha.mem_around.mp hc with rfl | ⟨hc, -⟩
  exacts [⟨hlo, hhi⟩, hon.range c hc]

/-- A leaf rewritten in place. -/
theorem grown_cells {l : Leaf} {cells' : List LeafCell} {result : Except Exn (Option SplitResult)}
    (hleaf : σ l.id = some (.leaf chain l.cells)) (hon' : LeafOn lo hi ⟨l.id, cells'⟩)
    (hlo : (lo : WithTop Int64) < hi)
    (hmem : ∀ c, c ∈ cells' ↔ c = ⟨key, value⟩ ∨ (c ∈ l.cells ∧ c.key ≠ key))
    (hresult : ∀ s, result ≠ .ok (some s))
    (hsmall : (∃ a, result = .ok a) → l.cells.length ≤ leafMaxKeys → cells'.length ≤ leafMaxKeys)
    (herror : ∀ e, result = .error e →
      e = .exhaustedSplit ∧ free = 1 ∧ FullLeaf σ 1 l.id key) :
    Grown σ (.leaf l) lo hi key value free next ⟨result, [(l.id, .leaf chain cells')], next⟩
      [(lo, .leaf ⟨l.id, cells'⟩)] where
  tiles := by
    refine spans_singleton.mpr ⟨hlo, holds_leaf.mpr ⟨⟨chain, ?_⟩, hon'⟩⟩
    exact write_self σ (l.id, .leaf chain cells')
  pieces := .inl ⟨_, rfl, rfl, hresult⟩
  nodup := List.nodup_singleton _
  pages p hp := .inl hp
  frame w hw := .inl (by rw [List.mem_singleton.mp hw]; exact List.mem_singleton_self _)
  linked := by
    rintro src dst ⟨hsrc, chain', hleaf', hdst⟩
    have hchain : chain' = chain := by
      have := hleaf'.symm.trans hleaf
      injection this with this
      injection this
    exact ⟨hsrc, chain, write_self σ (l.id, .leaf chain cells'), hchain ▸ hdst⟩
  mem c := by
    rw [Tree.cells_leaf']
    refine Iff.trans ?_ (hmem c)
    simp [leavesOf]
  small hok hl l' hl' := by
    obtain rfl : l' = ⟨l.id, cells'⟩ := by simpa [leavesOf] using hl'
    exact hsmall hok (hl l (List.mem_singleton_self _))
  frames s hs := absurd hs (hresult s)
  error := herror

theorem splitLeafIfNeeded_grown {l : Leaf} {A B : List LeafCell}
    (hleaf : σ l.id = some (.leaf chain l.cells)) (hon : LeafOn lo hi l)
    (hnext : ∀ p, next ≤ p → σ p = none) (hlo : lo ≤ key) (hhi : (key : WithTop Int64) < hi)
    (ha : Around l.cells key A B) (hsplit : l.cells = A ++ B) :
    ∃ T, Grown σ (.leaf l) lo hi key value (free + 1) next
      (OnStore.splitLeafIfNeeded free next l.id chain (A ++ ⟨key, value⟩ :: B)) T := by
  set cells' := A ++ ⟨key, value⟩ :: B with hcells'
  have hlt : (lo : WithTop Int64) < hi := (WithTop.coe_le_coe.mpr hlo).trans_lt hhi
  have hon' : LeafOn lo hi ⟨l.id, cells'⟩ := hon.insert ha hlo hhi
  have hlen : cells'.length = l.cells.length + 1 := by
    rw [hcells', hsplit]
    simp only [List.length_append, List.length_cons]
    omega
  unfold OnStore.splitLeafIfNeeded
  by_cases hfits : cells'.length ≤ leafMaxKeys
  · rw [if_pos hfits]
    exact ⟨_, grown_cells hleaf hon' hlt (fun c => ha.mem_around) (fun s hs => by cases hs)
      (fun _ _ => hfits) fun e he => by cases he⟩
  rw [if_neg hfits]
  by_cases hfree : free = 0
  · rw [if_pos hfree]
    refine ⟨_, grown_cells hleaf hon' hlt (fun c => ha.mem_around) (fun s hs => by cases hs)
      (fun ⟨a, hok⟩ => by cases hok) fun e he => ?_⟩
    refine ⟨(Except.error.inj he).symm, by rw [hfree], l.id, chain, l.cells, ?_, hleaf, by omega,
      fun c hc hkey => ?_⟩
    · simp only [OnStore.findLeafPageId, hleaf]
    · rw [hsplit] at hc
      rcases List.mem_append.mp hc with hc | hc
      exacts [absurd hkey (ha.lt c hc).ne, absurd hkey (ha.gt c hc).ne']
  rw [if_neg hfree]
  obtain ⟨first, rest, hdrop, ⟨low, hlow, hlowlt⟩, hleft, hright⟩ :=
    hon'.sorted.halves (Nat.lt_of_not_le hfits)
  have hfirst : first ∈ cells' := List.mem_of_mem_drop (hdrop ▸ List.mem_cons_self)
  have hloFirst : lo < first.key := (hon'.range low hlow).1.trans_lt hlowlt
  have hne : l.id ≠ next := fun heq => by rw [heq, hnext next le_rfl] at hleaf; cases hleaf
  simp only [hdrop, List.head?_cons]
  refine ⟨[(lo, Tree.leaf ⟨l.id, cells'.take (cells'.length / 2)⟩),
    (first.key, Tree.leaf ⟨next, first :: rest⟩)], ?_⟩
  set L : PageWrite := (l.id, .leaf (some next) (cells'.take (cells'.length / 2))) with hLdef
  set R : PageWrite := (next, .leaf chain (first :: rest)) with hRdef
  set σ' := write (write σ R) L with hσ'
  have hL : σ' l.id = some (.leaf (some next) (cells'.take (cells'.length / 2))) := write_self _ L
  have hR : σ' next = some (.leaf chain (first :: rest)) :=
    (write_of_ne _ L hne.symm).trans (write_self σ R)
  have hmem : ∀ c, c ∈ cells'.take (cells'.length / 2) ++ first :: rest ↔ c ∈ cells' := by
    intro c
    rw [← hdrop, List.take_append_drop]
  exact
    { tiles := by
        refine ⟨WithTop.coe_lt_coe.mpr hloFirst, holds_leaf.mpr ⟨⟨some next, hL⟩,
          hon'.sorted.take _, fun c hc => ⟨(hon'.range c (List.mem_of_mem_take hc)).1,
            WithTop.coe_lt_coe.mpr (hleft c hc)⟩⟩, (hon'.range first hfirst).2,
          holds_leaf.mpr ⟨⟨chain, hR⟩, hdrop ▸ hon'.sorted.drop _, fun c hc => ?_⟩, trivial⟩
        have hc' : c ∈ cells'.drop (cells'.length / 2) := hdrop ▸ hc
        exact ⟨hright c hc', (hon'.range c (List.mem_of_mem_drop hc')).2⟩
      pieces := .inr ⟨_, _, ⟨first.key, next⟩, rfl, rfl, rfl, rfl⟩
      nodup := by simpa [pagesOf] using hne
      pages := by
        intro p hp
        have hp : p = l.id ∨ p = next := by simpa [pagesOf] using hp
        rcases hp with rfl | rfl
        · exact .inl (List.mem_singleton_self _)
        · exact .inr ⟨le_rfl, Nat.lt_succ_self _⟩
      frame := by
        intro w hw
        rcases List.mem_cons.mp hw with rfl | hw
        · exact .inr le_rfl
        · rw [List.mem_singleton.mp hw]
          exact .inl (List.mem_singleton_self _)
      linked := by
        rintro src dst ⟨hsrc, chain', hleaf', hdst⟩
        have hchain : chain' = chain := by
          have := hleaf'.symm.trans hleaf
          injection this with this
          injection this
        exact ⟨hsrc, some next, hL, rfl, chain, hR, hchain ▸ hdst⟩
      mem := by
        intro c
        have hT : cellsOf (leavesOf [(lo, Tree.leaf ⟨l.id, cells'.take (cells'.length / 2)⟩),
            (first.key, Tree.leaf ⟨next, first :: rest⟩)])
            = cells'.take (cells'.length / 2) ++ first :: rest := by
          simp [leavesOf]
        rw [hT, hmem, Tree.cells_leaf']
        exact ha.mem_around
      small := by
        intro _ hl l' hl'
        have hmax : leafMaxKeys = 4 := rfl
        have hold := hl l (List.mem_singleton_self _)
        have hl' : l' = ⟨l.id, cells'.take (cells'.length / 2)⟩ ∨ l' = ⟨next, first :: rest⟩ := by
          simpa [leavesOf] using hl'
        rcases hl' with rfl | rfl
        · simp only [List.length_take]
          omega
        · simp only [← hdrop, List.length_drop]
          omega
      frames := fun _ _ => by omega
      error := fun e he => by cases he }

theorem insertIntoLeaf_grown {l : Leaf} (hleaf : σ l.id = some (.leaf chain l.cells))
    (hon : LeafOn lo hi l) (hnext : ∀ p, next ≤ p → σ p = none) (hlo : lo ≤ key)
    (hhi : (key : WithTop Int64) < hi) :
    Idle (.leaf l) (free + 1) next
        (OnStore.insertIntoLeaf free next l.id chain l.cells key value) ∨
      ∃ T, Grown σ (.leaf l) lo hi key value (free + 1) next
        (OnStore.insertIntoLeaf free next l.id chain l.cells key value) T := by
  unfold OnStore.insertIntoLeaf
  obtain ⟨A, B, ha, ⟨old, -, hcells, hhit, hset⟩ | ⟨hcells, hmiss, hins⟩⟩ :=
    leafIndex_spec hon.sorted key
  · rw [if_pos hhit, hset]
    refine .inr ⟨_, grown_cells hleaf (hon.insert ha hlo hhi)
      ((WithTop.coe_le_coe.mpr hlo).trans_lt hhi) (fun c => ha.mem_around)
      (fun s hs => by cases hs) (fun _ hsmall => ?_) fun e he => by cases he⟩
    rw [hcells] at hsmall
    simpa using hsmall
  · rw [if_neg hmiss]
    by_cases hcap : leafCapacity ≤ l.cells.length
    · rw [if_pos hcap]
      exact .inl ⟨_, rfl, .inr ⟨rfl, l, List.mem_singleton_self _, hcap⟩⟩
    · rw [if_neg hcap, hins]
      exact .inr (splitLeafIfNeeded_grown hleaf hon hnext hlo hhi ha hcells)

/-! ## At an internal page -/

variable {h : Nat} {lm : PageId} {cells : List InternalCell}

/-- Cutting a child list at a separator: the right part starts at the separator's key, with the
separator's child leftmost. -/
theorem pointers_split {kids : List (Int64 × Tree h)} {k : Nat} {middle : InternalCell}
    (hkids : kids.map pointer = pointers lo lm cells) (hk : cells[k]? = some middle) :
    (kids.take (k + 1)).map pointer = pointers lo lm (cells.take k) ∧
      (kids.drop (k + 1)).map pointer
        = pointers middle.key middle.child (cells.drop (k + 1)) := by
  rw [List.map_take, List.map_drop, hkids]
  constructor
  · rw [pointers, List.take_succ_cons, pointers, List.map_take]
  · have hdrop : cells.drop k = middle :: cells.drop (k + 1) := by
      obtain ⟨hlt, rfl⟩ := List.getElem?_eq_some_iff.mp hk
      exact List.drop_eq_getElem_cons hlt
    rw [pointers, List.drop_succ_cons, ← List.map_drop, hdrop]
    rfl

/-- The child a separator is inserted after, and the separator's own. -/
theorem pointers_insert {A B : List (Int64 × Tree h)} {b : Int64} {kid t₁ t₂ : Tree h}
    {split : SplitResult}
    (hkids : (A ++ (b, kid) :: B).map pointer = pointers lo lm cells)
    (hid₁ : t₁.id = kid.id) (hid₂ : t₂.id = split.newRightPageId) :
    (A ++ [(b, t₁), (split.promotedKey, t₂)] ++ B).map pointer
      = pointers lo lm (insertCell cells A.length
          ⟨split.promotedKey, split.newRightPageId⟩) := by
  have hlist : pointers lo lm cells = (A.map pointer ++ [(b, kid.id)]) ++ B.map pointer := by
    rw [← hkids]
    simp [pointer]
  have hlen : (A.map pointer ++ [(b, kid.id)]).length = A.length + 1 := by simp
  have htake : A.map pointer ++ [(b, kid.id)] = (pointers lo lm cells).take (A.length + 1) := by
    rw [hlist, List.take_left' hlen]
  have hdrop : B.map pointer = (pointers lo lm cells).drop (A.length + 1) := by
    rw [hlist, List.drop_left' hlen]
  have hsplit : (A ++ [(b, t₁), (split.promotedKey, t₂)] ++ B).map pointer
      = (A.map pointer ++ [(b, kid.id)]) ++
          (split.promotedKey, split.newRightPageId) :: B.map pointer := by
    simp [pointer, hid₁, hid₂]
  rw [hsplit, htake, hdrop]
  simp only [pointers, insertCell, List.take_succ_cons, List.drop_succ_cons, List.map_append,
    List.map_cons, List.map_take, List.map_drop, List.cons_append]

/-- The first piece of a tiling starts before its end. -/
theorem Tiles.start_lt {kids : List (Int64 × Tree h)} (ht : Tiles σ kids hi)
    (hkids : kids.map pointer = pointers lo lm cells) : (lo : WithTop Int64) < hi := by
  cases kids with
  | nil => cases hkids
  | cons kid kids =>
    have hlo : kid.1 = lo := congrArg Prod.fst (List.cons.inj hkids).1
    exact hlo ▸ (ht.1.trans_le ht.2.2.start_le)

/-- What `SplitInternalIfNeeded` makes of an internal page over the children `kids`. -/
structure NodeSplit (σ : PageStore) (id : PageId) (lo : Int64) (hi : WithTop Int64)
    (next : PageId) (kids : List (Int64 × Tree h)) (r : Run (Option SplitResult))
    (T : List (Int64 × Tree (h + 1))) : Prop where
  tiles : Tiles (r.store σ) T hi
  pieces : Pieces id lo r.result T
  leaves : leavesOf T = leavesOf kids
  nodup : (pagesOf T).Nodup
  pages : ∀ p ∈ pagesOf T, p = id ∨ p ∈ pagesOf kids ∨ (next ≤ p ∧ p < r.next)
  frame : ∀ w ∈ r.writes, w.1 = id ∨ next ≤ w.1
  next_le : next ≤ r.next
  returns : ∃ a, r.result = .ok a

theorem Tiles.congr {τ : PageStore} {kids : List (Int64 × Tree h)} (ht : Tiles σ kids hi)
    (heq : ∀ p ∈ pagesOf kids, τ p = σ p) : Tiles τ kids hi :=
  ht.imp fun kid hkid _ hk => hk.congr fun p hp => heq p (List.mem_flatMap.mpr ⟨kid, hkid, hp⟩)

theorem splitInternalIfNeeded_split {kids : List (Int64 × Tree h)}
    (hkids : kids.map pointer = pointers lo lm cells) (ht : Tiles σ kids hi)
    (hnodup : (id :: pagesOf kids).Nodup) (hlt : ∀ p ∈ id :: pagesOf kids, p < next)
    (hfree : free ≠ 0) :
    ∃ T, NodeSplit σ id lo hi next kids
      (OnStore.splitInternalIfNeeded free next id lm cells) T := by
  obtain ⟨hid, hnk⟩ := List.nodup_cons.mp hnodup
  have hlohi := ht.start_lt hkids
  unfold OnStore.splitInternalIfNeeded
  by_cases hfits : cells.length ≤ internalMaxKeys
  · rw [if_pos hfits]
    set w : PageWrite := (id, .internal lm cells) with hw
    have hself : write σ w id = some (.internal lm cells) := write_self σ w
    refine ⟨[(lo, .node id kids)], ⟨?_, .inl ⟨_, rfl, rfl, fun s hs => by cases hs⟩, ?_, ?_, ?_, ?_,
      le_rfl, _, rfl⟩⟩
    · refine spans_singleton.mpr ⟨hlohi, holds_node.mpr ⟨lm, cells, hself, hkids, ?_⟩⟩
      exact Tiles.congr ht fun p hp => write_of_ne σ w fun heq : p = id => hid (heq ▸ hp)
    · simp [leavesOf]
    · simpa [pagesOf] using hnodup
    · intro p hp
      have hp : p = id ∨ p ∈ pagesOf kids := by simpa [pagesOf] using hp
      exact hp.imp_right .inl
    · intro w' hw'
      rw [List.mem_singleton.mp hw']
      exact .inl rfl
  rw [if_neg hfits, if_neg hfree]
  cases hmiddle : cells[cells.length / 2]? with
  | none =>
    rw [List.getElem?_eq_none_iff] at hmiddle
    have : internalMaxKeys = 4 := rfl
    omega
  | some middle =>
    simp only [hmiddle]
    set k := cells.length / 2 with hk
    obtain ⟨hleft, hright⟩ := pointers_split hkids hmiddle
    have happ : kids = kids.take (k + 1) ++ kids.drop (k + 1) := (List.take_append_drop _ _).symm
    have hpages : pagesOf kids = pagesOf (kids.take (k + 1)) ++ pagesOf (kids.drop (k + 1)) := by
      rw [pagesOf, pagesOf, pagesOf, ← List.flatMap_append, ← happ]
    set R : PageWrite := (next, .internal middle.child (cells.drop (k + 1))) with hR
    set L : PageWrite := (id, .internal lm (cells.take k)) with hL
    have hne : id ≠ next := (hlt id List.mem_cons_self).ne
    have hLself : write (write σ R) L id = some (.internal lm (cells.take k)) :=
      write_self (write σ R) L
    have hRself : write (write σ R) L next
        = some (.internal middle.child (cells.drop (k + 1))) :=
      (write_of_ne (write σ R) L hne.symm).trans (write_self σ R)
    have hkeep : ∀ p ∈ pagesOf kids, write (write σ R) L p = σ p := by
      intro p hp
      have hpn : p ≠ next := (hlt p (List.mem_cons_of_mem _ hp)).ne
      exact (write_of_ne _ L fun heq : p = id => hid (heq ▸ hp)).trans (write_of_ne σ R hpn)
    have ht' : Tiles (write (write σ R) L) (kids.take (k + 1) ++ kids.drop (k + 1)) hi :=
      happ ▸ ht.congr hkeep
    obtain ⟨hTL, hTR⟩ := spans_append.mp ht'
    have hstart : start (kids.drop (k + 1)) hi = (middle.key : WithTop Int64) := by
      cases hd : kids.drop (k + 1) with
      | nil => rw [hd] at hright; cases hright
      | cons kid rest =>
        rw [hd] at hright
        exact congrArg (WithTop.some ∘ Prod.fst) (List.cons.inj hright).1
    rw [hstart] at hTL
    refine ⟨[(lo, .node id (kids.take (k + 1))), (middle.key, .node next (kids.drop (k + 1)))],
      ⟨?_, .inr ⟨_, _, ⟨middle.key, next⟩, rfl, rfl, rfl, rfl⟩, ?_, ?_, ?_, ?_, Nat.le_succ _, _,
        rfl⟩⟩
    · exact ⟨Tiles.start_lt hTL hleft, holds_node.mpr ⟨lm, _, hLself, hleft, hTL⟩,
        Tiles.start_lt hTR hright, holds_node.mpr ⟨_, _, hRself, hright, hTR⟩, trivial⟩
    · rw [leavesOf, leavesOf, List.flatMap_cons, List.flatMap_cons, List.flatMap_nil,
        List.append_nil, Tree.leaves_node, Tree.leaves_node, ← List.flatMap_append, ← happ]
    · have hperm : (pagesOf [(lo, Tree.node id (kids.take (k + 1))),
          (middle.key, Tree.node next (kids.drop (k + 1)))]).Perm (next :: id :: pagesOf kids) := by
        simp only [pagesOf, List.flatMap_cons, List.flatMap_nil, List.append_nil, Tree.pages_node]
        rw [show kids.flatMap (fun kid => kid.2.pages) = pagesOf kids from rfl, hpages]
        simp only [pagesOf, List.cons_append]
        exact (List.perm_middle.cons id).trans (.swap next id _)
      refine hperm.nodup_iff.mpr (List.nodup_cons.mpr ⟨fun hmem => ?_, hnodup⟩)
      exact absurd (hlt next hmem) (lt_irrefl next)
    · intro p hp
      simp only [pagesOf, List.flatMap_cons, List.flatMap_nil, List.append_nil, Tree.pages_node,
        List.cons_append, List.mem_cons, List.mem_append] at hp
      rw [hpages, List.mem_append]
      rcases hp with rfl | hp | rfl | hp
      · exact .inl rfl
      · exact .inr (.inl (.inl hp))
      · exact .inr (.inr ⟨le_rfl, Nat.lt_succ_self _⟩)
      · exact .inr (.inl (.inr hp))
    · intro w hw
      rcases List.mem_cons.mp hw with rfl | hw
      · exact .inr le_rfl
      · rw [List.mem_singleton.mp hw]
        exact .inl rfl

/-! ## Down and up again -/

theorem mem_pagesOf {T : List (Int64 × Tree h)} {p : PageId} :
    p ∈ pagesOf T ↔ ∃ kid ∈ T, p ∈ kid.2.pages := List.mem_flatMap

theorem mem_cellsOf_leavesOf {T : List (Int64 × Tree h)} {c : LeafCell} :
    c ∈ cellsOf (leavesOf T) ↔ ∃ kid ∈ T, c ∈ kid.2.cells := by
  rw [leavesOf, cellsOf_flatMap, List.mem_flatMap]

/-- Everything about the children of a page after the child `kid` became the pieces `T`, before the
page itself is written: `K` is the new child list. -/
structure KidsGrown (σ : PageStore) (id : PageId) (kids : List (Int64 × Tree h))
    (hi : WithTop Int64) (key : Int64) (value : Bytes) (next : PageId)
    (r : Run (Option SplitResult)) (K : List (Int64 × Tree h)) : Prop where
  tiles : Tiles (r.store σ) K hi
  page : r.store σ id = σ id
  nodup : (id :: pagesOf K).Nodup
  pages : ∀ p ∈ pagesOf K, p ∈ pagesOf kids ∨ (next ≤ p ∧ p < r.next)
  frame : ∀ w ∈ r.writes, w.1 ∈ pagesOf kids ∨ next ≤ w.1
  linked : ∀ {src dst}, Linked σ src dst (leavesOf kids) →
    Linked (r.store σ) src dst (leavesOf K)
  mem : ∀ c, c ∈ cellsOf (leavesOf K) ↔
    c = ⟨key, value⟩ ∨ (c ∈ cellsOf (leavesOf kids) ∧ c.key ≠ key)
  small : (∃ a, r.result = .ok a) → (∀ l ∈ leavesOf kids, l.cells.length ≤ leafMaxKeys) →
    ∀ l ∈ leavesOf K, l.cells.length ≤ leafMaxKeys

theorem Grown.kids {A B : List (Int64 × Tree h)} {b : Int64} {kid : Tree h}
    {r : Run (Option SplitResult)} {T : List (Int64 × Tree h)}
    (hg : Grown σ kid b (start B hi) key value free next r T)
    (ht : Tiles σ (A ++ (b, kid) :: B) hi) (hb : b ≤ key)
    (hB : (key : WithTop Int64) < start B hi)
    (hnodup : (id :: pagesOf (A ++ (b, kid) :: B)).Nodup)
    (hlt : ∀ p ∈ id :: pagesOf (A ++ (b, kid) :: B), p < next) :
    KidsGrown σ id (A ++ (b, kid) :: B) hi key value next r (A ++ T ++ B) := by
  obtain ⟨-, hidk, hdisj⟩ := pages_disjoint hnodup
  obtain ⟨hbelow, habove⟩ := Holds.cells_outside ht hb hB
  have hkidsub : ∀ p ∈ kid.pages, p ∈ pagesOf (A ++ (b, kid) :: B) := fun p hp =>
    mem_pagesOf.mpr ⟨(b, kid), List.mem_append_right _ List.mem_cons_self, hp⟩
  have hABsub : ∀ k ∈ A ++ B, k ∈ A ++ (b, kid) :: B := by
    intro k hk
    rcases List.mem_append.mp hk with hk | hk
    exacts [List.mem_append_left _ hk, List.mem_append_right _ (List.mem_cons_of_mem _ hk)]
  -- pages outside the child are not written
  have hsame : ∀ p, p < next → p ∉ kid.pages → r.store σ p = σ p := by
    intro p hp hnk
    refine replay_of_notMem fun hmem => ?_
    obtain ⟨w, hw, rfl⟩ := List.mem_map.mp hmem
    rcases hg.frame w hw with hin | hge
    · exact hnk hin
    · exact absurd hp (Nat.not_lt.mpr hge)
  have hother : ∀ k ∈ A ++ B, ∀ p ∈ k.2.pages, r.store σ p = σ p := fun k hk p hp =>
    hsame p (hlt p (List.mem_cons_of_mem _ (mem_pagesOf.mpr ⟨k, hABsub k hk, hp⟩)))
      (hdisj k hk p hp)
  have hstart : start T (start B hi) = (b : WithTop Int64) := by
    rcases hg.pieces with ⟨t', rfl, -⟩ | ⟨t₁, t₂, s, rfl, -⟩ <;> rfl
  obtain ⟨hA, -, -, hB'⟩ := spans_append.mp ht
  have hkids : ∀ X : List (Int64 × Tree h), leavesOf (A ++ X ++ B)
      = leavesOf A ++ leavesOf X ++ leavesOf B := fun X => by
    simp only [leavesOf, List.flatMap_append]
  have hkidLeaves : leavesOf (A ++ (b, kid) :: B) = leavesOf A ++ kid.leaves ++ leavesOf B := by
    simp only [leavesOf, List.flatMap_append, List.flatMap_cons, List.append_assoc]
  have hleafSame : ∀ k ∈ A ++ B, ∀ l ∈ k.2.leaves, r.store σ l.id = σ l.id := fun k hk l hl =>
    hother k hk _ (k.2.leaf_mem_pages hl)
  exact
    { tiles := by
        rw [Tiles, spans_append, spans_append, hstart]
        exact ⟨⟨hA.imp fun k hk _ hholds => hholds.congr (hother k (List.mem_append_left _ hk)),
          hg.tiles⟩,
          hB'.imp fun k hk _ hholds => hholds.congr (hother k (List.mem_append_right _ hk))⟩
      page := hsame id (hlt id List.mem_cons_self) hidk
      nodup := by
        have hnew : ∀ p ∈ pagesOf T, p ∈ kid.pages ∨ next ≤ p := fun p hp =>
          (hg.pages p hp).imp_right And.left
        have hout : ∀ q ∈ id :: pagesOf (A ++ B), q ∉ pagesOf T := by
          intro q hq hqT
          have hqlt : q < next := by
            rcases List.mem_cons.mp hq with rfl | hq
            · exact hlt _ List.mem_cons_self
            · obtain ⟨k, hk, hqk⟩ := mem_pagesOf.mp hq
              exact hlt q (List.mem_cons_of_mem _ (mem_pagesOf.mpr ⟨k, hABsub k hk, hqk⟩))
          rcases hnew q hqT with hin | hge
          · rcases List.mem_cons.mp hq with rfl | hq
            · exact hidk hin
            · obtain ⟨k, hk, hqk⟩ := mem_pagesOf.mp hq
              exact hdisj k hk q hqk hin
          · exact absurd hqlt (Nat.not_lt.mpr hge)
        have hAB : (id :: pagesOf (A ++ B)).Nodup := by
          refine hnodup.sublist (List.Sublist.cons_cons _ ?_)
          simp only [pagesOf, List.flatMap_append, List.flatMap_cons]
          exact List.Sublist.append_left (List.sublist_append_right _ _) _
        have hperm : (id :: pagesOf (A ++ T ++ B)).Perm (pagesOf T ++ (id :: pagesOf (A ++ B))) := by
          simp only [pagesOf, List.flatMap_append]
          refine (List.Perm.cons id ?_).trans List.perm_middle.symm
          rw [List.append_assoc]
          exact List.perm_append_comm_assoc _ _ _
        refine hperm.nodup_iff.mpr (List.nodup_append.mpr ⟨hg.nodup, hAB, ?_⟩)
        rintro p hp q hq rfl
        exact hout p hq hp
      pages := by
        intro p hp
        obtain ⟨k, hk, hpk⟩ := mem_pagesOf.mp hp
        rw [List.append_assoc, List.mem_append, List.mem_append] at hk
        rcases hk with hk | hk | hk
        · exact .inl (mem_pagesOf.mpr ⟨k, hABsub k (List.mem_append_left _ hk), hpk⟩)
        · exact (hg.pages p (mem_pagesOf.mpr ⟨k, hk, hpk⟩)).imp_left (hkidsub p)
        · exact .inl (mem_pagesOf.mpr ⟨k, hABsub k (List.mem_append_right _ hk), hpk⟩)
      frame := fun w hw => (hg.frame w hw).imp_left (hkidsub _)
      linked := by
        intro src dst hl
        rw [hkidLeaves] at hl
        obtain ⟨m₂, hl', hlB⟩ := Linked.append_iff.mp hl
        obtain ⟨m₁, hlA, hlk⟩ := Linked.append_iff.mp hl'
        rw [hkids]
        refine Linked.append_iff.mpr ⟨m₂, Linked.append_iff.mpr ⟨m₁, hlA.congr ?_, hg.linked hlk⟩,
          hlB.congr ?_⟩
        · intro l hl
          obtain ⟨k, hk, hlk⟩ := List.mem_flatMap.mp hl
          exact hleafSame k (List.mem_append_left _ hk) l hlk
        · intro l hl
          obtain ⟨k, hk, hlk⟩ := List.mem_flatMap.mp hl
          exact hleafSame k (List.mem_append_right _ hk) l hlk
      mem := by
        intro c
        rw [hkids, hkidLeaves]
        simp only [cellsOf_append, List.mem_append, hg.mem]
        have hcA : c ∈ cellsOf (leavesOf A) → c.key ≠ key := fun hc =>
          (hbelow c (by rwa [leavesOf, cellsOf_flatMap] at hc)).ne
        have hcB : c ∈ cellsOf (leavesOf B) → c.key ≠ key := fun hc =>
          (habove c (by rwa [leavesOf, cellsOf_flatMap] at hc)).ne'
        constructor
        · rintro ((hc | hc | ⟨hc, hne⟩) | hc)
          · exact .inr ⟨.inl (.inl hc), hcA hc⟩
          · exact .inl hc
          · exact .inr ⟨.inl (.inr hc), hne⟩
          · exact .inr ⟨.inr hc, hcB hc⟩
        · rintro (hc | ⟨(hc | hc) | hc, hne⟩)
          · exact .inl (.inr (.inl hc))
          · exact .inl (.inl hc)
          · exact .inl (.inr (.inr ⟨hc, hne⟩))
          · exact .inr hc
      small := by
        intro hok hl l hmem
        rw [hkids, List.mem_append, List.mem_append] at hmem
        rw [hkidLeaves] at hl
        rcases hmem with (hmem | hmem) | hmem
        · exact hl l (List.mem_append_left _ (List.mem_append_left _ hmem))
        · refine hg.small hok (fun l hlk => hl l ?_) l hmem
          exact List.mem_append_left _ (List.mem_append_right _ hlk)
        · exact hl l (List.mem_append_right _ hmem) }

/-- The child did not split: the page stays as it is, over the new child list. -/
theorem KidsGrown.done {kids K : List (Int64 × Tree h)} {r : Run (Option SplitResult)}
    (hk : KidsGrown σ id kids hi key value next r K) (hbody : σ id = some (.internal lm cells))
    (hK : K.map pointer = pointers lo lm cells) (hres : ∀ s, r.result ≠ .ok (some s))
    (herror : ∀ e, r.result = .error e →
      e = .exhaustedSplit ∧ free = h + 2 ∧ FullLeaf σ (h + 2) id key) :
    Grown σ (.node id kids) lo hi key value free next r [(lo, .node id K)] where
  tiles := spans_singleton.mpr ⟨hk.tiles.start_lt hK,
    holds_node.mpr ⟨lm, cells, hk.page.trans hbody, hK, hk.tiles⟩⟩
  pieces := .inl ⟨_, rfl, rfl, hres⟩
  nodup := by simpa [pagesOf] using hk.nodup
  pages p hp := by
    have hp : p = id ∨ p ∈ pagesOf K := by simpa [pagesOf] using hp
    rcases hp with rfl | hp
    · exact .inl List.mem_cons_self
    · exact (hk.pages p hp).imp_left (List.mem_cons_of_mem _)
  frame w hw := (hk.frame w hw).imp_left (List.mem_cons_of_mem _)
  linked hl := by
    have := hk.linked hl
    simpa [leavesOf] using this
  mem c := by
    have := hk.mem c
    simpa [leavesOf, Tree.cells] using this
  small hok hl l hmem := hk.small hok hl l (by simpa [leavesOf] using hmem)
  frames s hs := absurd hs (hres s)
  error := herror

/-- The child split: the page is written over the new child list, and perhaps splits too. -/
theorem KidsGrown.split {kids K : List (Int64 × Tree h)} {r r' : Run (Option SplitResult)}
    {T : List (Int64 × Tree (h + 1))} {s : SplitResult}
    (hk : KidsGrown σ id kids hi key value next r K)
    (hs : NodeSplit (r.store σ) id lo hi r.next K r' T) (hres : r.result = .ok (some s))
    (hnext : next ≤ r.next) (hlt : ∀ p ∈ pagesOf K, p < r.next) (hframes : h + 3 ≤ free) :
    Grown σ (.node id kids) lo hi key value free next
      ⟨r'.result, r.writes ++ r'.writes, r'.next⟩ T := by
  have hstore : ∀ result, (⟨result, r.writes ++ r'.writes, r'.next⟩ :
      Run (Option SplitResult)).store σ = r'.store (r.store σ) := fun _ => replay_append _ _ _
  exact
    { tiles := (hstore r'.result).symm ▸ hs.tiles
      pieces := hs.pieces
      nodup := hs.nodup
      pages := by
        intro p hp
        rcases hs.pages p hp with rfl | hp | ⟨hle, hlt⟩
        · exact .inl List.mem_cons_self
        · rcases hk.pages p hp with hp | ⟨hle, hlt⟩
          · exact .inl (List.mem_cons_of_mem _ hp)
          · exact .inr ⟨hle, hlt.trans_le hs.next_le⟩
        · exact .inr ⟨hnext.trans hle, hlt⟩
      frame := by
        intro w hw
        rcases List.mem_append.mp hw with hw | hw
        · exact (hk.frame w hw).imp_left (List.mem_cons_of_mem _)
        · rcases hs.frame w hw with heq | hge
          · exact .inl (heq ▸ List.mem_cons_self)
          · exact .inr (hnext.trans hge)
      linked := by
        intro src dst hl
        rw [hstore, hs.leaves]
        refine (hk.linked hl).congr fun l hmem => replay_of_notMem fun hw => ?_
        obtain ⟨kid, hkid, hlk⟩ := List.mem_flatMap.mp hmem
        have hpage : l.id ∈ pagesOf K := mem_pagesOf.mpr ⟨kid, hkid, kid.2.leaf_mem_pages hlk⟩
        obtain ⟨w, hw, heq⟩ := List.mem_map.mp hw
        rcases hs.frame w hw with hid | hge
        · exact (List.nodup_cons.mp hk.nodup).1 (hid ▸ heq ▸ hpage)
        · exact absurd (hlt _ (heq ▸ hpage)) (Nat.not_lt.mpr hge)
      mem := by
        intro c
        rw [hs.leaves]
        exact hk.mem c
      small := by
        intro _ hl l hmem
        rw [hs.leaves] at hmem
        exact hk.small ⟨_, hres⟩ hl l hmem
      frames := fun _ _ => hframes
      error := by
        intro e he
        obtain ⟨a, ha⟩ := hs.returns
        rw [ha] at he
        cases he }

/-- Going on after a run that did not split adds nothing. -/
theorem Run.andThen_unsplit {r : Run (Option SplitResult)}
    {f : Option SplitResult → PageStore → PageId → Run (Option SplitResult)}
    (hr : ∀ s, r.result ≠ .ok (some s)) (hf : ∀ σ n, f none σ n = .ret n none) :
    r.andThen σ f = r := by
  cases hres : r.result with
  | error e => rw [andThen_error hres, ← hres]
  | ok split =>
    cases split with
    | none => rw [andThen_ok hres, hf]; simp [ret, ← hres]
    | some s => exact absurd hres (hr s)

/-- **Insertion into an intact subtree.** -/
theorem insertRecursive_tree {fuel : Nat} {t : Tree h} (hs : Sound σ)
    (hnext : ∀ p, next ≤ p → σ p = none) (ht : Holds σ t lo hi) (hnodup : t.pages.Nodup)
    (hlo : lo ≤ key) (hhi : (key : WithTop Int64) < hi) (hfuel : h < fuel) :
    Idle t free next (OnStore.insertRecursive fuel free σ next t.id key value) ∨
      ∃ T, Grown σ t lo hi key value free next
        (OnStore.insertRecursive fuel free σ next t.id key value) T := by
  induction h generalizing fuel free lo hi with
  | zero =>
    obtain ⟨l, hl⟩ := t.exists_leaf
    rw [hl] at ht ⊢
    obtain ⟨⟨chain, hleaf⟩, hon⟩ := holds_leaf.mp ht
    obtain ⟨fuel, rfl⟩ := Nat.exists_eq_succ_of_ne_zero (Nat.ne_of_gt hfuel)
    cases free with
    | zero => exact .inl ⟨_, rfl, .inl ⟨rfl, le_rfl⟩⟩
    | succ free =>
      simp only [OnStore.insertRecursive, Tree.id_leaf, hleaf]
      exact insertIntoLeaf_grown hleaf hon hnext hlo hhi
  | succ h ih =>
    obtain ⟨id, kids, rfl⟩ := t.exists_node
    obtain ⟨lm, cells, hbody, hkids, hspans⟩ := holds_node.mp ht
    obtain ⟨fuel, rfl⟩ := Nat.exists_eq_succ_of_ne_zero (Nat.ne_of_gt (Nat.zero_lt_of_lt hfuel))
    cases free with
    | zero => exact .inl ⟨_, rfl, .inl ⟨rfl, Nat.zero_le _⟩⟩
    | succ free =>
      obtain ⟨A, b, kid, B, rfl, hb, hB, hidx, hchild, hkid⟩ := Holds.locate hkids hspans hlo hhi
      obtain ⟨hnk, -, -⟩ := pages_disjoint hnodup
      have hlt : ∀ p ∈ id :: pagesOf (A ++ (b, kid) :: B), p < next := by
        intro p hp
        obtain ⟨body, hbody⟩ := Option.isSome_iff_exists.mp (ht.isSome hp)
        exact lt_of_some hnext hbody
      simp only [OnStore.insertRecursive, Tree.id_node, hbody, hchild]
      have hdescend : OnStore.findLeafPageId (h + 2) σ id key
          = OnStore.findLeafPageId (h + 1) σ kid.id key := by
        simp only [OnStore.findLeafPageId, hbody, hchild]
      have hchildRun : Idle kid free next
            (OnStore.insertRecursive fuel free σ next kid.id key value) ∨
          ∃ T, Grown σ kid b (start B hi) key value free next
            (OnStore.insertRecursive fuel free σ next kid.id key value) T :=
        ih hkid hnk hb hB (Nat.lt_of_succ_lt_succ hfuel)
      rcases hchildRun with hidle | ⟨T, hg⟩
      · obtain ⟨e, hr, he⟩ := hidle
        refine .inl ⟨e, by rw [hr]; rfl, he.imp (fun he => ⟨he.1, by omega⟩) ?_⟩
        rintro ⟨he, l, hl, hcap⟩
        refine ⟨he, l, List.mem_flatMap.mpr ⟨(b, kid), ?_, hl⟩, hcap⟩
        exact List.mem_append_right _ List.mem_cons_self
      · right
        set r := OnStore.insertRecursive fuel free σ next kid.id key value with hr
        have hk : KidsGrown σ id (A ++ (b, kid) :: B) hi key value next r (A ++ T ++ B) :=
          hg.kids hspans hb hB hnodup hlt
        rcases hg.pieces with ⟨t', rfl, hid', hnone⟩ | ⟨t₁, t₂, s, rfl, hid₁, hid₂, hsome⟩
        · have hK : (A ++ [(b, t')] ++ B).map pointer = pointers lo lm cells := by
            rw [← hkids]
            simp [pointer, hid']
          rw [Run.andThen_unsplit hnone fun _ _ => rfl]
          refine ⟨_, hk.done hbody hK hnone fun e he => ?_⟩
          obtain ⟨heq, hfree, p, chain, cs, hfind, hrest⟩ := hg.error e he
          exact ⟨heq, by omega, p, chain, cs, hdescend.trans hfind, hrest⟩
        · have hframes := hg.frames s hsome
          rw [Run.andThen_ok hsome]
          simp only [OnStore.insertSeparator, hk.page, hbody]
          have hcap : internalCapacity = 254 := rfl
          have hmax : internalMaxKeys = 4 := rfl
          have hlen := (hs.separated hbody).length_le
          rw [if_neg (by omega), ← hidx]
          have hK := pointers_insert hkids hid₁ hid₂
          have hnext' : next ≤ r.next :=
            (show InsertLog σ h free next r from insertRecursive_log hs hkid.hasLevel
              (Nat.lt_of_succ_lt_succ hfuel) hnext key value).next_le
          have hltK : ∀ p ∈ id :: pagesOf (A ++ [(b, t₁), (s.promotedKey, t₂)] ++ B),
              p < r.next := by
            intro p hp
            rcases List.mem_cons.mp hp with rfl | hp
            · exact (hlt p List.mem_cons_self).trans_le hnext'
            · rcases hk.pages p hp with hp | hp
              · exact (hlt p (List.mem_cons_of_mem _ hp)).trans_le hnext'
              · exact hp.2
          obtain ⟨T', hT'⟩ := splitInternalIfNeeded_split hK hk.tiles hk.nodup hltK
            (show free ≠ 0 by omega)
          exact ⟨T', hk.split hT' hsome hnext' (fun p hp => hltK p (List.mem_cons_of_mem _ hp))
            (by omega)⟩

end

end Reldb
