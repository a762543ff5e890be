import Reldb.Tree.Cells

/-!
# Reldb — the logs of the tree's operations are sound

Each method of `Reldb.Tree.OnStore`, run on a sound store, logs shadow writes around at most one
commit. For `InsertRecursive` this is an induction down the tree: the leaf's split logs the new
sibling (shadow) and then the shrunken leaf (commit), and everything above adds shadows.
-/

namespace Reldb

open WriteLog

/-- The first page written is a new one. -/
def BeginsFresh (σ : PageStore) (W : List PageWrite) : Prop := ∃ w W', W = w :: W' ∧ σ w.1 = none

theorem BeginsFresh.append {σ : PageStore} {W : List PageWrite} (h : BeginsFresh σ W)
    (W' : List PageWrite) : BeginsFresh σ (W ++ W') := by
  obtain ⟨w, W₁, rfl, hw⟩ := h
  exact ⟨w, W₁ ++ W', rfl, hw⟩

/-- What is known of an insertion's run below a page of level `d`, started with `free` frames. -/
structure InsertLog (σ : PageStore) (d free : Nat) (next : PageId)
    (r : Run (Option SplitResult)) : Prop where
  oneCommit : OneCommit σ r.writes
  next_le : next ≤ r.next
  fresh : ∀ p, r.next ≤ p → r.store σ p = none
  /-- Metadata and catalog pages are not written. -/
  nodes_only : ∀ {p b}, σ p = some b → ¬ b.IsNode → p ∉ r.writes.map Prod.fst
  split : ∀ s, r.result = .ok (some s) →
    2 ≤ free ∧ HasLevel (r.store σ) d s.newRightPageId ∧ ⊥ < s.promotedKey
  first : BeginsFresh σ r.writes ∨ (r.writes.length ≤ 1 ∧ ∀ s, r.result ≠ .ok (some s))

section

variable {σ : PageStore} {next node : PageId} {free : Nat}

theorem InsertLog.of_fail {d : Nat} (hnext : ∀ p, next ≤ p → σ p = none) (e : Exn) :
    InsertLog σ d free next (.fail next e) where
  oneCommit := .shadows (.nil σ)
  next_le := le_rfl
  fresh := hnext
  nodes_only := fun _ _ hmem => by cases hmem
  split := fun s hs => by cases hs
  first := .inr ⟨Nat.zero_le _, fun s hs => by cases hs⟩

theorem write_fresh {w : PageWrite} {n : PageId} (hnext : ∀ p, n ≤ p → σ p = none)
    (hw : w.1 < n) (p : PageId) (hp : n ≤ p) : write σ w p = none := by
  rw [write_of_ne]
  · exact hnext p hp
  · rintro rfl
    exact absurd hp (Nat.not_le.mpr hw)

/-- A page of the store lies below the counter. -/
theorem lt_of_some {b : PageBody} {n : PageId} (hnext : ∀ p, n ≤ p → σ p = none)
    (hb : σ node = some b) : node < n := by
  by_contra hlt
  rw [hnext node (Nat.not_lt.mp hlt)] at hb
  cases hb

/-- One write to a leaf that keeps its place in the chain. -/
theorem insertLog_cells {chain : Option PageId} {cells cells' : List LeafCell}
    {result : Except Exn (Option SplitResult)} (hnode : σ node = some (.leaf chain cells))
    (hnext : ∀ p, next ≤ p → σ p = none) (hsorted : SortedCells cells')
    (hresult : ∀ s, result ≠ .ok (some s)) :
    InsertLog σ 0 (free + 1) next ⟨result, [(node, .leaf chain cells')], next⟩ where
  oneCommit := .commit (.cells hnode hsorted) (.nil _)
  next_le := le_rfl
  fresh p hp := write_fresh hnext (lt_of_some hnext hnode) p hp
  nodes_only {p b} hp hb hmem := by
    obtain rfl : p = node := by simpa using hmem
    rw [hnode] at hp
    obtain rfl := Option.some.inj hp
    exact hb trivial
  split s hs := absurd hs (hresult s)
  first := .inr ⟨le_rfl, hresult⟩

theorem splitLeafIfNeeded_log {chain : Option PageId} {cells₀ cells : List LeafCell}
    (hs : Sound σ) (hnode : σ node = some (.leaf chain cells₀))
    (hnext : ∀ p, next ≤ p → σ p = none) (hsorted : SortedCells cells) :
    InsertLog σ 0 (free + 1) next (OnStore.splitLeafIfNeeded free next node chain cells) := by
  unfold OnStore.splitLeafIfNeeded
  by_cases hlen : cells.length ≤ leafMaxKeys
  · rw [if_pos hlen]
    exact insertLog_cells hnode hnext hsorted fun s hs => by cases hs
  rw [if_neg hlen]
  by_cases hfree : free = 0
  · rw [if_pos hfree]
    exact insertLog_cells hnode hnext hsorted fun s hs => by cases hs
  rw [if_neg hfree]
  obtain ⟨first, rest, hdrop, ⟨low, -, hlow⟩, -⟩ := hsorted.halves (Nat.lt_of_not_le hlen)
  simp only [hdrop, List.head?_cons]
  have hlt := lt_of_some hnext hnode
  obtain ⟨ls, hls⟩ := hs.chain hnode
  have hsib : Shadow σ (next, .leaf chain (first :: rest)) :=
    .newLeaf (hnext next le_rfl) hls (hdrop ▸ hsorted.drop _)
  exact
    { oneCommit := .cons hsib (.commit
        (.split ((write_of_ne σ _ hlt.ne).trans hnode) (write_self σ _) hlt.ne' (hsorted.take _))
        (.nil _))
      next_le := Nat.le_succ _
      fresh := fun p hp => by
        refine write_fresh ?_ (Nat.lt_succ_of_lt hlt) p hp
        exact write_fresh (fun p hp => hnext p (Nat.le_of_succ_le hp)) (Nat.lt_succ_self _)
      nodes_only := by
        intro p b hp hb hmem
        simp only [List.map_cons, List.map_nil, List.mem_cons, List.not_mem_nil, or_false] at hmem
        rcases hmem with rfl | rfl
        · rw [hnext p le_rfl] at hp; cases hp
        · rw [hnode] at hp
          obtain rfl := Option.some.inj hp
          exact hb trivial
      split := by
        rintro s hres
        obtain rfl : (⟨first.key, next⟩ : SplitResult) = s :=
          Option.some.inj (Except.ok.inj hres)
        refine ⟨by omega, ⟨chain, first :: rest, ?_⟩, lt_of_le_of_lt bot_le hlow⟩
        exact (write_of_ne _ _ hlt.ne').trans (write_self σ _)
      first := .inl ⟨_, _, rfl, hnext next le_rfl⟩ }

theorem insertIntoLeaf_log {chain : Option PageId} {cells : List LeafCell} (hs : Sound σ)
    (hnode : σ node = some (.leaf chain cells)) (hnext : ∀ p, next ≤ p → σ p = none)
    (key : Int64) (value : Bytes) :
    InsertLog σ 0 (free + 1) next
      (OnStore.insertIntoLeaf free next node chain cells key value) := by
  unfold OnStore.insertIntoLeaf
  obtain ⟨A, B, haround, ⟨old, -, -, hhit, hset⟩ | ⟨-, hmiss, hins⟩⟩ :=
    leafIndex_spec (hs.sorted hnode) key
  · rw [if_pos hhit, hset]
    exact insertLog_cells hnode hnext (haround.sorted value) fun s hs => by cases hs
  · rw [if_neg hmiss]
    by_cases hcap : leafCapacity ≤ cells.length
    · rw [if_pos hcap]
      exact .of_fail hnext _
    · rw [if_neg hcap, hins]
      exact splitLeafIfNeeded_log hs hnode hnext (haround.sorted value)

/-- The cells of an internal page with one more separator. -/
theorem mem_insertCell {α : Type} {cells : List α} {idx : Nat} {c x : α} :
    x ∈ insertCell cells idx c ↔ x = c ∨ x ∈ cells := by
  rw [insertCell, List.mem_append, List.mem_cons, ← or_assoc, or_comm (a := x ∈ _) (b := x = c),
    or_assoc, ← List.mem_append, List.take_append_drop]

theorem length_insertCell {α : Type} (cells : List α) (idx : Nat) (c : α) :
    (insertCell cells idx c).length = cells.length + 1 := by
  simp only [insertCell, List.length_append, List.length_cons, List.length_take, List.length_drop]
  omega

theorem mem_childrenOf {lm p : PageId} {cells : List InternalCell} :
    p ∈ childrenOf lm cells ↔ p = lm ∨ ∃ c ∈ cells, c.child = p := by
  simp [childrenOf]

theorem insertSeparator_log {d : Nat} (idx : Nat) {split : SplitResult} (hs : Sound σ)
    (hnode : HasLevel σ (d + 1) node) (hnext : ∀ p, next ≤ p → σ p = none)
    (hright : HasLevel σ d split.newRightPageId) (hkey : ⊥ < split.promotedKey)
    (hfree : free ≠ 0) :
    InsertLog σ (d + 1) (free + 1) next (OnStore.insertSeparator free node idx split σ next) ∧
      Shadows σ (OnStore.insertSeparator free node idx split σ next).writes := by
  obtain ⟨lm, cells, hbody, hkids⟩ := hnode
  obtain ⟨hbot, hlen⟩ := hs.separated hbody
  have hmax : internalMaxKeys = 4 := rfl
  have hcap : internalCapacity = 254 := rfl
  have hlt := lt_of_some hnext hbody
  have hnodes : ∀ {p b}, σ p = some b → ¬ b.IsNode → p ≠ node := by
    rintro p b hp hb rfl
    rw [hbody] at hp
    obtain rfl := Option.some.inj hp
    exact hb trivial
  simp only [OnStore.insertSeparator, hbody]
  rw [if_neg (by omega)]
  set cells' := insertCell cells idx ⟨split.promotedKey, split.newRightPageId⟩ with hcells'
  have hbot' : ∀ c ∈ cells', (⊥ : Int64) < c.key := by
    intro c hc
    rcases mem_insertCell.mp hc with rfl | hc
    exacts [hkey, hbot c hc]
  have hchild : ∀ c ∈ cells', HasLevel σ d c.child := by
    intro c hc
    rcases mem_insertCell.mp hc with rfl | hc
    · exact hright
    · exact hkids _ (mem_childrenOf.mpr (.inr ⟨c, hc, rfl⟩))
  have hlm : HasLevel σ d lm := hkids lm List.mem_cons_self
  have hkids' : ∀ {l : PageId} {cs : List InternalCell}, HasLevel σ d l → (∀ c ∈ cs, c ∈ cells') →
      ∀ p ∈ childrenOf l cs, HasLevel σ d p := by
    intro l cs hl hcs p hp
    rcases mem_childrenOf.mp hp with rfl | ⟨c, hc, rfl⟩
    exacts [hl, hchild c (hcs c hc)]
  have hlen' : cells'.length = cells.length + 1 := length_insertCell cells idx _
  unfold OnStore.splitInternalIfNeeded
  by_cases hfits : cells'.length ≤ internalMaxKeys
  · rw [if_pos hfits]
    have hshadows : Shadows σ [(node, .internal lm cells')] :=
      .cons (.internal hbody (hkids' hlm fun c hc => hc) ⟨hbot', hfits⟩) (.nil _)
    refine ⟨?_, hshadows⟩
    exact
      { oneCommit := .shadows hshadows
        next_le := le_rfl
        fresh := write_fresh hnext hlt
        nodes_only := fun hp hb hmem => hnodes hp hb (by simpa using hmem)
        split := fun s hres => by cases hres
        first := .inr ⟨le_rfl, fun s hres => by cases hres⟩ }
  rw [if_neg hfits, if_neg hfree]
  cases hmiddle : cells'[cells'.length / 2]? with
  | none =>
    simp only [hmiddle]
    exact ⟨.of_fail hnext _, .nil σ⟩
  | some middle =>
    simp only [hmiddle]
    have hmem := List.mem_of_getElem? hmiddle
    have hdrop : ∀ c ∈ cells'.drop (cells'.length / 2 + 1), c ∈ cells' :=
      fun c hc => List.mem_of_mem_drop hc
    have htake : ∀ c ∈ cells'.take (cells'.length / 2), c ∈ cells' :=
      fun c hc => List.mem_of_mem_take hc
    have hsib : Shadow σ (next, .internal middle.child (cells'.drop (cells'.length / 2 + 1))) := by
      refine .newInternal (hnext next le_rfl) (hkids' (hchild middle hmem) hdrop)
        ⟨fun c hc => hbot' c (hdrop c hc), ?_⟩
      rw [List.length_drop]
      omega
    have hext := Extends.of_shadow hsib
    have hleft : Shadow (write σ (next, .internal middle.child
        (cells'.drop (cells'.length / 2 + 1)))) (node, .internal lm
          (cells'.take (cells'.length / 2))) := by
      refine .internal ((write_of_ne σ _ hlt.ne).trans hbody)
        (fun p hp => hext.hasLevel (hkids' hlm htake p hp)) ⟨fun c hc => hbot' c (htake c hc), ?_⟩
      rw [List.length_take]
      omega
    refine ⟨?_, .cons hsib (.cons hleft (.nil _))⟩
    exact
      { oneCommit := .shadows (.cons hsib (.cons hleft (.nil _)))
        next_le := Nat.le_succ _
        fresh := fun p hp => by
          refine write_fresh ?_ (Nat.lt_succ_of_lt hlt) p hp
          exact write_fresh (fun p hp => hnext p (Nat.le_of_succ_le hp)) (Nat.lt_succ_self _)
        nodes_only := by
          intro p b hp hb hmem
          simp only [List.map_cons, List.map_nil, List.mem_cons, List.not_mem_nil, or_false] at hmem
          rcases hmem with rfl | rfl
          · rw [hnext p le_rfl] at hp; cases hp
          · exact hnodes hp hb rfl
        split := by
          rintro s hres
          obtain rfl : (⟨middle.key, next⟩ : SplitResult) = s :=
            Option.some.inj (Except.ok.inj hres)
          refine ⟨by omega, ?_, hbot' middle hmem⟩
          refine ⟨middle.child, cells'.drop (cells'.length / 2 + 1), ?_, fun p hp => ?_⟩
          · exact (write_of_ne _ _ hlt.ne').trans (write_self σ _)
          · have hp' := hkids' (hchild middle hmem) hdrop p hp
            exact (Extends.of_shadow hleft).hasLevel (hext.hasLevel hp')
        first := .inl ⟨_, _, rfl, hnext next le_rfl⟩ }

/-- Going on after a run below with one that only shadows. -/
theorem InsertLog.andThen {d e : Nat} {r r' : Run (Option SplitResult)} {n : PageId}
    {s : SplitResult} (h : InsertLog σ d n next r) (hs : r.result = .ok (some s)) (h' : InsertLog (r.store σ) e (free + 1) r.next r')
    (hshadow : Shadows (r.store σ) r'.writes) :
    InsertLog σ e (free + 1) next ⟨r'.result, r.writes ++ r'.writes, r'.next⟩ where
  oneCommit := h.oneCommit.append hshadow
  next_le := h.next_le.trans h'.next_le
  fresh p hp := by
    rw [Run.store, replay_append]
    exact h'.fresh p hp
  nodes_only {p b} hp hb hmem := by
    rw [List.map_append, List.mem_append] at hmem
    rcases hmem with hmem | hmem
    · exact h.nodes_only hp hb hmem
    · refine h'.nodes_only ?_ hb hmem
      rw [Run.store, replay_of_notMem (h.nodes_only hp hb)]
      exact hp
  split s hres := by
    rw [Run.store, replay_append]
    exact h'.split s hres
  first := h.first.elim (fun hfresh => .inl (hfresh.append _)) fun hshort => absurd hs (hshort.2 s)

/-- **The log of `InsertRecursive`.** -/
theorem insertRecursive_log {fuel d : Nat} (hs : Sound σ) (hnode : HasLevel σ d node)
    (hfuel : d < fuel) (hnext : ∀ p, next ≤ p → σ p = none) (key : Int64) (value : Bytes) :
    InsertLog σ d free next (OnStore.insertRecursive fuel free σ next node key value) := by
  induction fuel generalizing d node free with
  | zero => omega
  | succ fuel ih =>
    cases free with
    | zero => exact .of_fail hnext _
    | succ free =>
      cases d with
      | zero =>
        obtain ⟨chain, cells, hleaf⟩ := hnode
        simp only [OnStore.insertRecursive, hleaf]
        exact insertIntoLeaf_log hs hleaf hnext key value
      | succ d =>
        obtain ⟨lm, cells, hinternal, hkids⟩ := id hnode
        simp only [OnStore.insertRecursive, hinternal]
        have hchild : InsertLog σ d free next (OnStore.insertRecursive fuel free σ next
            (childAt lm cells (childIndex cells key)) key value) :=
          ih (hkids _ (childAt_mem lm cells (childIndex cells key))) (by omega)
        set r := OnStore.insertRecursive fuel free σ next
          (childAt lm cells (childIndex cells key)) key value with hr
        have hdone : ∀ res : Except Exn (Option SplitResult), (∀ s, res ≠ .ok (some s)) →
            InsertLog σ (d + 1) (free + 1) next ⟨res, r.writes, r.next⟩ := fun res hres =>
          ⟨hchild.oneCommit, hchild.next_le, hchild.fresh, hchild.nodes_only,
            fun s hs => absurd hs (hres s), hchild.first.imp_right fun h => ⟨h.1, hres⟩⟩
        cases hres : r.result with
        | error e =>
          rw [Run.andThen_error hres]
          exact hdone _ fun s hs => by cases hs
        | ok split =>
          rw [Run.andThen_ok hres]
          cases split with
          | none =>
            simp only [Run.ret, List.append_nil]
            exact hdone _ fun s hs => by cases hs
          | some split =>
            obtain ⟨hfree, hright, hkey⟩ := hchild.split split hres
            obtain ⟨hlog, hshadow⟩ := insertSeparator_log
              (childIndex cells key) (hchild.oneCommit.sound hs)
              (hchild.oneCommit.hasLevel hnode) hchild.fresh hright hkey
              (show free ≠ 0 by omega)
            exact hchild.andThen hres hlog hshadow

/-! ## The root split and its registration -/

theorem newRoot_shadow {d : Nat} {root : PageId} {split : SplitResult} (hroot : HasLevel σ d root)
    (hnext : ∀ p, next ≤ p → σ p = none) (hright : HasLevel σ d split.newRightPageId)
    (hkey : ⊥ < split.promotedKey) :
    Shadow σ (next, .internal root [⟨split.promotedKey, split.newRightPageId⟩]) := by
  refine .newInternal (d := d) (hnext next le_rfl) (fun p hp => ?_)
    ⟨fun c hc => ?_, by simp [internalMaxKeys]⟩
  · simp only [childrenOf, List.map_cons, List.map_nil, List.mem_cons, List.not_mem_nil,
      or_false] at hp
    rcases hp with rfl | rfl
    exacts [hroot, hright]
  · rw [List.mem_singleton.mp hc]
    exact hkey

/-- A root put on top of another scans the same leaves. -/
theorem scans_newRoot {root root' : PageId} {cells : List InternalCell} {ls : List Leaf} {d : Nat}
    (hroot' : HasLevel σ d root') (hbody : σ root' = some (.internal root cells)) :
    Scans σ root' ls ↔ Scans σ root ls := by
  obtain ⟨d, rfl, hkids⟩ := hroot'.of_internal hbody
  have hroot := hkids root List.mem_cons_self
  have hleft : leftmostLeaf σ (d + 1) root' = leftmostLeaf σ d root := by
    simp only [leftmostLeaf, hbody]
  constructor
  · rintro ⟨e, he, hl⟩
    obtain rfl := he.unique hroot'
    exact ⟨d, hroot, hleft ▸ hl⟩
  · rintro ⟨e, he, hl⟩
    obtain rfl := he.unique hroot
    exact ⟨e + 1, hroot', hleft ▸ hl⟩

/-- What `Insert` has logged when it comes to registering a new root: sound, with one commit, and
the new root scanning what the old one does. -/
structure RootSplit (σ : PageStore) (next root root' : PageId) (W : List PageWrite) (n : PageId) :
    Prop where
  oneCommit : OneCommit σ W
  next_le : next ≤ n
  fresh : ∀ p, n ≤ p → replay σ W p = none
  nodes_only : ∀ {p b}, σ p = some b → ¬ b.IsNode → p ∉ W.map Prod.fst
  level : ∃ d, HasLevel (replay σ W) d root'
  scans : ∀ ls, Scans (replay σ W) root' ls ↔ Scans (replay σ W) root ls
  first : BeginsFresh σ W ∨ W.length ≤ 1

/-- Nothing logged. -/
theorem RootSplit.refl {d : Nat} {root : PageId} (hroot : HasLevel σ d root)
    (hnext : ∀ p, next ≤ p → σ p = none) : RootSplit σ next root root [] next :=
  ⟨.shadows (.nil σ), le_rfl, hnext, fun _ _ hmem => (by cases hmem), ⟨d, hroot⟩, fun _ => Iff.rfl,
    .inr (Nat.zero_le _)⟩

/-- The page write of `newRoot`. -/
def newRootWrite (next root : PageId) (split : SplitResult) : PageWrite :=
  (next, .internal root [⟨split.promotedKey, split.newRightPageId⟩])

/-- An insertion that split the root, and the new root on top. -/
theorem InsertLog.rootSplit {d : Nat} {root : PageId} {r : Run (Option SplitResult)}
    {split : SplitResult} (hlog : InsertLog σ d free next r) (hs : Sound σ)
    (hroot : HasLevel σ d root) (hnext : ∀ p, next ≤ p → σ p = none)
    (hres : r.result = .ok (some split)) :
    RootSplit σ next root r.next (r.writes ++ [newRootWrite r.next root split]) (r.next + 1) ∧
      BeginsFresh σ (r.writes ++ [newRootWrite r.next root split]) := by
  obtain ⟨-, hright, hkey⟩ := hlog.split split hres
  have hfirst : BeginsFresh σ (r.writes ++ [newRootWrite r.next root split]) :=
    hlog.first.elim (fun hfresh => hfresh.append _) fun hshort => absurd hres (hshort.2 split)
  have hroot₁ := hlog.oneCommit.hasLevel hroot
  have hshadow := newRoot_shadow hroot₁ hlog.fresh hright hkey
  set w := newRootWrite r.next root split with hw
  have hstore : replay σ (r.writes ++ [w]) = write (r.store σ) w := by
    rw [replay_append]; rfl
  have hlevel : HasLevel (write (r.store σ) w) (d + 1) r.next := by
    obtain ⟨e, he⟩ := ((hlog.oneCommit.sound hs).shadow hshadow).level (write_self _ w) trivial
    obtain ⟨e, rfl, hkids⟩ := he.of_internal (write_self _ w)
    rw [← (hkids root List.mem_cons_self).unique
      ((Extends.of_shadow hshadow).hasLevel hroot₁)]
    exact he
  refine ⟨?_, hfirst⟩
  exact
    { oneCommit := hlog.oneCommit.append (.cons hshadow (.nil _))
      next_le := hlog.next_le.trans (Nat.le_succ _)
      fresh := fun p hp => by
        rw [hstore]
        exact write_fresh (fun p hp => hlog.fresh p (Nat.le_of_succ_le hp))
          (Nat.lt_succ_self _) p hp
      nodes_only := by
        intro p b hp hb hmem
        rw [List.map_append, List.mem_append] at hmem
        rcases hmem with hmem | hmem
        · exact hlog.nodes_only hp hb hmem
        · obtain rfl : p = r.next := by simpa [hw, newRootWrite] using hmem
          rw [hnext _ hlog.next_le] at hp
          cases hp
      level := ⟨d + 1, hstore ▸ hlevel⟩
      scans := fun ls => by
        rw [hstore]
        exact scans_newRoot hlevel (write_self _ w)
      first := .inl hfirst }

/-- An insertion that did not split the root. -/
theorem InsertLog.noSplit {d : Nat} {root : PageId} {r : Run (Option SplitResult)}
    (hlog : InsertLog σ d free next r) (hroot : HasLevel σ d root) :
    RootSplit σ next root root r.writes r.next :=
  ⟨hlog.oneCommit, hlog.next_le, hlog.fresh, hlog.nodes_only,
    ⟨d, hlog.oneCommit.hasLevel hroot⟩, fun _ => Iff.rfl, hlog.first.imp_right And.left⟩

theorem insertRecursive_log_root (poolSize : Nat) {d : Nat} {root : PageId} (hs : Sound σ)
    (hroot : HasLevel σ d root) (hnext : ∀ p, next ≤ p → σ p = none) (key : Int64)
    (value : Bytes) :
    InsertLog σ d poolSize next
      (OnStore.insertRecursive (next + 1) poolSize σ next root key value) :=
  insertRecursive_log hs hroot
    (Nat.lt_succ_of_lt (hroot.lt_of_bounded fun q hq => by
      obtain ⟨b, hb⟩ := Option.isSome_iff_exists.mp hq
      exact lt_of_some hnext hb)) hnext key value

/-! ### The three ways `Insert` goes on -/

section

variable {poolSize : Nat} {register : PageId → PageStore → PageId → Run Unit} {root : PageId}
  {key : Int64} {value : Bytes} {r : Run (Option SplitResult)}

theorem insert_of_error {e : Exn}
    (hr : OnStore.insertRecursive (next + 1) poolSize σ next root key value = r)
    (hres : r.result = .error e) :
    OnStore.insert poolSize register σ next root key value = ⟨.error e, r.writes, r.next⟩ := by
  rw [OnStore.insert, hr, Run.andThen_error hres]

theorem insert_of_none
    (hr : OnStore.insertRecursive (next + 1) poolSize σ next root key value = r)
    (hres : r.result = .ok none) :
    OnStore.insert poolSize register σ next root key value = ⟨.ok root, r.writes, r.next⟩ := by
  rw [OnStore.insert, hr, Run.andThen_ok hres]
  simp only [Run.ret, List.append_nil]

theorem insert_of_split {split : SplitResult} (hpool : 0 < poolSize)
    (hr : OnStore.insertRecursive (next + 1) poolSize σ next root key value = r)
    (hres : r.result = .ok (some split)) {W : List PageWrite}
    (hW : W = r.writes ++ [newRootWrite r.next root split]) :
    OnStore.insert poolSize register σ next root key value =
      ⟨(register r.next (replay σ W) (r.next + 1)).result.map fun _ => r.next,
        W ++ (register r.next (replay σ W) (r.next + 1)).writes,
        (register r.next (replay σ W) (r.next + 1)).next⟩ := by
  have hstore : write (replay σ r.writes) (newRootWrite r.next root split) = replay σ W := by
    rw [hW, replay_append]; rfl
  have hnew : OnStore.newRoot poolSize r.next root split
      = ⟨.ok r.next, [newRootWrite r.next root split], r.next + 1⟩ :=
    if_neg (Nat.pos_iff_ne_zero.mp hpool)
  rw [OnStore.insert, hr, Run.andThen_ok hres]
  simp only [hnew, Run.andThen, Run.store, replay_cons, replay_nil, hstore]
  cases hreg : (register r.next (replay σ W) (r.next + 1)).result with
  | error e => simp [Except.map, hW]
  | ok _ => simp [Except.map, Run.ret, hW]

end

/-- **The log of `Insert`.** It ends either without a new root, or with the registration of one. -/
theorem insert_log {poolSize d : Nat} {root : PageId}
    (register : PageId → PageStore → PageId → Run Unit)
    (hs : Sound σ) (hroot : HasLevel σ d root) (hpool : 0 < poolSize)
    (hnext : ∀ p, next ≤ p → σ p = none) (key : Int64) (value : Bytes) :
    (RootSplit σ next root root
        (OnStore.insert poolSize register σ next root key value).writes
        (OnStore.insert poolSize register σ next root key value).next ∧
      ∀ r, (OnStore.insert poolSize register σ next root key value).result = .ok r → r = root) ∨
    ∃ root' W n, RootSplit σ next root root' W n ∧ BeginsFresh σ W ∧
      OnStore.insert poolSize register σ next root key value
        = ⟨(register root' (replay σ W) n).result.map fun _ => root',
            W ++ (register root' (replay σ W) n).writes,
            (register root' (replay σ W) n).next⟩ := by
  have hlog := insertRecursive_log_root poolSize hs hroot hnext key value
  cases hres : (OnStore.insertRecursive (next + 1) poolSize σ next root key value).result with
  | error e =>
    rw [insert_of_error rfl hres]
    exact .inl ⟨hlog.noSplit hroot, fun _ h => by cases h⟩
  | ok split =>
    cases split with
    | none =>
      rw [insert_of_none rfl hres]
      exact .inl ⟨hlog.noSplit hroot, fun _ h => (Except.ok.inj h).symm⟩
    | some split =>
      obtain ⟨hsplit, hfirst⟩ := hlog.rootSplit hs hroot hnext hres
      exact .inr ⟨_, _, _, hsplit, hfirst, insert_of_split hpool rfl hres rfl⟩

end

end Reldb
