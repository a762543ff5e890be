import Reldb.Tree.Insert

/-!
# Reldb — `Insert` on an intact tree, from the root

The root's pieces after `InsertRecursive`: one, and the tree keeps its root, or two, and a new root
goes on top of them before it is registered.
-/

namespace Reldb

open WriteLog Tiling

section

variable {σ : PageStore} {next root : PageId} {poolSize h : Nat} {t : Tree h} {key : Int64}
  {value : Bytes}

/-- What an insertion made of the tree `t`: the tree `t'`, with the key's cell new. -/
structure Upserted {h' : Nat} (t : Tree h) (t' : Tree h') (key : Int64) (value : Bytes)
    (next n : PageId) (W : List PageWrite) : Prop where
  mem : ∀ c, c ∈ t'.cells ↔ c = ⟨key, value⟩ ∨ (c ∈ t.cells ∧ c.key ≠ key)
  pages : ∀ p ∈ t'.pages, p ∈ t.pages ∨ (next ≤ p ∧ p < n)
  frame : ∀ w ∈ W, w.1 ∈ t.pages ∨ next ≤ w.1

/-- `Insert` ended without a new root: it wrote `t'`, and returned unless the leaf had no room and
no frame was left to split it. -/
structure InPlace (σ : PageStore) (next root : PageId) (poolSize : Nat) (t : Tree h)
    (key : Int64) (value : Bytes) (r : Run PageId) (t' : Tree h) : Prop where
  split : RootSplit σ next root root r.writes r.next
  intact : Intact (r.store σ) root t'
  upserted : Upserted t t' key value next r.next r.writes
  result : r.result = .ok root ∨ (r.result = .error .exhaustedSplit ∧ poolSize = h + 1 ∧
    FullLeaf σ (h + 1) root key)
  small : r.result = .ok root → (∀ l ∈ t.leaves, l.cells.length ≤ leafMaxKeys) →
    ∀ l ∈ t'.leaves, l.cells.length ≤ leafMaxKeys

/-- `Insert` put a new root on top and has it to register. -/
structure GrownRoot (σ : PageStore) (next root : PageId) (poolSize : Nat) (t : Tree h)
    (key : Int64) (value : Bytes) (root' : PageId) (W : List PageWrite) (n : PageId)
    (t' : Tree (h + 1)) : Prop where
  split : RootSplit σ next root root' W n
  intact : Intact (replay σ W) root' t'
  upserted : Upserted t t' key value next n W
  frames : h + 2 ≤ poolSize
  small : (∀ l ∈ t.leaves, l.cells.length ≤ leafMaxKeys) →
    ∀ l ∈ t'.leaves, l.cells.length ≤ leafMaxKeys

/-- **`Insert` on an intact tree**: it does nothing, or rewrites the tree in place, or grows it by
a level. -/
theorem Intact.insert (register : PageId → PageStore → PageId → Run Unit) (hs : Sound σ)
    (ht : Intact σ root t) (hpool : 0 < poolSize) (hnext : ∀ p, next ≤ p → σ p = none)
    (key : Int64) (value : Bytes) :
    (∃ e, OnStore.insert poolSize register σ next root key value = .fail next e ∧
        ((e = .exhaustedInsert ∧ poolSize ≤ h) ∨
          (e = .undefinedBehaviour ∧ ∃ l ∈ t.leaves, leafCapacity ≤ l.cells.length))) ∨
      (∃ t', InPlace σ next root poolSize t key value
        (OnStore.insert poolSize register σ next root key value) t') ∨
      ∃ root' W n t', GrownRoot σ next root poolSize t key value root' W n t' ∧
        OnStore.insert poolSize register σ next root key value
          = ⟨(register root' (replay σ W) n).result.map fun _ => root',
              W ++ (register root' (replay σ W) n).writes,
              (register root' (replay σ W) n).next⟩ := by
  have hlog := insertRecursive_log_root poolSize hs ht.hasLevel hnext key value
  have htree : Idle t poolSize next
        (OnStore.insertRecursive (next + 1) poolSize σ next t.id key value) ∨
      ∃ T, Grown σ t ⊥ ⊤ key value poolSize next
        (OnStore.insertRecursive (next + 1) poolSize σ next t.id key value) T :=
    insertRecursive_tree hs hnext ht.holds ht.nodup (bot_le_key key) (key_lt_top key)
      (ht.lt_next hnext)
  rw [ht.root_eq] at htree
  rcases htree with ⟨e, hr, he⟩ | ⟨T, hg⟩
  · refine .inl ⟨e, ?_, he⟩
    rw [hr] at hlog
    exact insert_of_error hr rfl
  set r := OnStore.insertRecursive (next + 1) poolSize σ next root key value with hr
  have hlinked := hg.linked ht.linked
  rw [← hlog.oneCommit.leftmostLeaf_eq ht.hasLevel] at hlinked
  rcases hg.pieces with ⟨t', rfl, hid, hnone⟩ | ⟨t₁, t₂, s, rfl, hid₁, hid₂, hsome⟩
  · right; left
    have hresult : r.result = .ok none ∨ (r.result = .error .exhaustedSplit ∧ poolSize = h + 1 ∧
        FullLeaf σ (h + 1) root key) := by
      cases hres : r.result with
      | error e =>
        obtain ⟨rfl, hfree, hfull⟩ := hg.error e hres
        exact .inr ⟨rfl, hfree, ht.root_eq ▸ hfull⟩
      | ok split =>
        cases split with
        | none => exact .inl rfl
        | some s => exact absurd hres (hnone s)
    have hrun : ∃ result, OnStore.insert poolSize register σ next root key value
          = ⟨result, r.writes, r.next⟩ ∧ (result = .ok root ∨ (result = .error .exhaustedSplit ∧
            poolSize = h + 1 ∧ FullLeaf σ (h + 1) root key)) ∧
          (result = .ok root → r.result = .ok none) := by
      rcases hresult with hok | ⟨herr, hrest⟩
      · exact ⟨_, insert_of_none hr.symm hok, .inl rfl, fun _ => hok⟩
      · exact ⟨_, insert_of_error hr.symm herr, .inr ⟨rfl, hrest⟩, fun h => by cases h⟩
    obtain ⟨result, hinsert, hcases, hok⟩ := hrun
    rw [hinsert]
    refine ⟨t', hlog.noSplit ht.hasLevel, ⟨hid.trans ht.root_eq, (spans_singleton.mp hg.tiles).2,
      ?_, ?_⟩, ⟨fun c => ?_, fun p hp => hg.pages p ?_, hg.frame⟩, hcases, fun h hl l hmem => ?_⟩
    · simpa [pagesOf] using hg.nodup
    · have hleaves : leavesOf [((⊥ : Int64), t')] = t'.leaves := by simp [leavesOf]
      exact hleaves ▸ hlinked
    · have := hg.mem c
      simpa [leavesOf, Tree.cells] using this
    · simpa [pagesOf] using hp
    · exact hg.small ⟨_, hok h⟩ hl l (by simpa [leavesOf] using hmem)
  · right; right
    obtain ⟨hsplit, -⟩ := hlog.rootSplit hs ht.hasLevel hnext hsome
    set w := newRootWrite r.next root s with hw
    have hstore : replay σ (r.writes ++ [w]) = write (r.store σ) w := by
      rw [replay_append]; rfl
    have hself : write (r.store σ) w r.next
        = some (.internal root [⟨s.promotedKey, s.newRightPageId⟩]) := write_self _ w
    have hlt : ∀ p ∈ pagesOf [((⊥ : Int64), t₁), (s.promotedKey, t₂)], p < r.next := by
      intro p hp
      rcases hg.pages p hp with hp | hp
      · obtain ⟨b, hb⟩ := Option.isSome_iff_exists.mp (ht.holds.isSome hp)
        exact (lt_of_some hnext hb).trans_le hlog.next_le
      · exact hp.2
    have htiles : Tiles (write (r.store σ) w) [((⊥ : Int64), t₁), (s.promotedKey, t₂)] ⊤ :=
      Tiles.congr hg.tiles fun p hp => write_of_ne _ w (hlt p hp).ne
    refine ⟨r.next, r.writes ++ [w], r.next + 1, .node r.next [(⊥, t₁), (s.promotedKey, t₂)],
      ⟨hsplit, ⟨rfl, ?_, ?_, ?_⟩, ⟨fun c => ?_, ?_, ?_⟩, hg.frames s hsome, fun hl l hmem => ?_⟩,
      insert_of_split hpool hr.symm hsome rfl⟩
    · rw [hstore]
      refine holds_node.mpr ⟨root, _, hself, ?_, htiles⟩
      simp only [List.map_cons, List.map_nil, pointer, pointers, hid₁, hid₂, ht.root_eq]
    · rw [Tree.pages_node]
      exact List.nodup_cons.mpr ⟨fun hmem => absurd (hlt _ hmem) (lt_irrefl _), hg.nodup⟩
    · rw [hstore]
      have hroot : HasLevel (r.store σ) h root := hlog.oneCommit.hasLevel ht.hasLevel
      have hshadow : Shadow (r.store σ) w := by
        obtain ⟨-, hright, hkey⟩ := hlog.split s hsome
        exact newRoot_shadow hroot hlog.fresh hright hkey
      have hleft : leftmostLeaf (write (r.store σ) w) (h + 1) r.next
          = leftmostLeaf (r.store σ) h root := by
        simp only [leftmostLeaf, hself]
        exact (Extends.of_shadow hshadow).leftmostLeaf_eq hroot
      rw [hleft]
      exact hlinked.of_shadow hshadow
    · exact hg.mem c
    · intro p hp
      rcases List.mem_cons.mp hp with rfl | hp
      · exact .inr ⟨hlog.next_le, Nat.lt_succ_self _⟩
      · exact (hg.pages p hp).imp_right fun h => ⟨h.1, Nat.lt_succ_of_lt h.2⟩
    · intro w' hw'
      rcases List.mem_append.mp hw' with hw' | hw'
      · exact hg.frame w' hw'
      · rw [List.mem_singleton.mp hw']
        exact .inr hlog.next_le
    · exact hg.small ⟨_, hsome⟩ hl l hmem

/-- The root after an `Insert`. -/
def rootAfter (root : PageId) (r : Run PageId) : PageId :=
  match r.result with
  | .ok root' => root'
  | .error _ => root

theorem rootAfter_ok {r : Run PageId} {root' : PageId} (h : r.result = .ok root') :
    rootAfter root r = root' := by
  simp only [rootAfter, h]

theorem rootAfter_error {r : Run PageId} {e : Exn} (h : r.result = .error e) :
    rootAfter root r = root := by
  simp only [rootAfter, h]

/-! ## Logs that end in a registration -/

/-- What an operation on a tree logs when the page `registry` holds `image root` while `root` is the
tree's root. `root` is the root before, `root'` the root after. -/
structure RootLog {α : Type} (σ : PageStore) (next registry : PageId) (image : PageId → PageBody)
    (root : PageId) (r : Run α) (root' : PageId) : Prop where
  oneCommit : OneCommit σ r.writes
  next_le : next ≤ r.next
  fresh : ∀ p, r.next ≤ p → r.store σ p = none
  level : ∃ d, HasLevel (r.store σ) d root'
  first : BeginsFresh σ r.writes ∨ r.writes.length ≤ 1
  registered : r.store σ registry = some (image root')
  scans_take : ∀ {ls ls'}, Scans σ root ls → Scans (r.store σ) root' ls' → ∀ n,
    ∃ rootₙ, replay σ (r.writes.take n) registry = some (image rootₙ) ∧
      (Scans (replay σ (r.writes.take n)) rootₙ ls ∨ Scans (replay σ (r.writes.take n)) rootₙ ls')

section

variable {α : Type} {registry root' : PageId} {image : PageId → PageBody} {r : Run α}
  {W : List PageWrite} {n : PageId}

theorem take_notMem {p : PageId} (h : p ∉ W.map Prod.fst) (k : Nat) :
    p ∉ (W.take k).map Prod.fst := fun hmem =>
  h (List.map_subset _ (List.take_subset k W) hmem)

/-- An operation that leaves the root where it is. -/
theorem RootSplit.keep (image : PageId → PageBody) (hs : Sound σ)
    (h : RootSplit σ next root root r.writes r.next)
    (hreg : σ registry = some (image root)) (himage : ¬ (image root).IsNode) :
    RootLog σ next registry image root r root where
  oneCommit := h.oneCommit
  next_le := h.next_le
  fresh := h.fresh
  level := h.level
  first := h.first
  registered := (replay_of_notMem (h.nodes_only hreg himage)).trans hreg
  scans_take hls hls' k := by
    refine ⟨root, ?_, h.oneCommit.scans_take hs hls hls' k⟩
    exact (replay_of_notMem (take_notMem (h.nodes_only hreg himage) k)).trans hreg

/-- An operation that ends by registering a new root, next to roots there were before. -/
theorem RootSplit.register (hs : Sound σ) (h : RootSplit σ next root root' W n)
    (hfirst : BeginsFresh σ W) (hreg : σ registry = some (image root))
    (himage : ∀ r, ¬ (image r).IsNode)
    (hroots : ∀ r, ∀ q ∈ (image r).roots, q = r ∨ q ∈ (image root).roots) (a : α) :
    RootLog σ next registry image root ⟨.ok a, W ++ [(registry, image root')], n⟩ root' := by
  have hkeep : replay σ W registry = some (image root) :=
    (replay_of_notMem (h.nodes_only hreg (himage root))).trans hreg
  set w : PageWrite := (registry, image root') with hw
  have hshadow : Shadow (replay σ W) w := by
    refine .register (fun b hb => ?_) (himage root') fun q hq => ?_
    · rw [hkeep] at hb
      obtain rfl := Option.some.inj hb
      exact himage root
    · rcases hroots root' q hq with rfl | hq
      · exact h.level
      · obtain ⟨d, hd⟩ := hs.roots hreg q hq
        exact ⟨d, h.oneCommit.hasLevel hd⟩
  have hstore : replay σ (W ++ [w]) = write (replay σ W) w := by
    rw [replay_append]; rfl
  have hshadows : Shadows (replay σ W) [w] := .cons hshadow (.nil _)
  obtain ⟨d, hd⟩ := h.level
  have hlt : registry < n := lt_of_some h.fresh hkeep
  have hself : write (replay σ W) w registry = some (image root') := write_self _ w
  exact
    { oneCommit := h.oneCommit.append hshadows
      next_le := h.next_le
      fresh := fun p hp => by
        rw [Run.store, hstore]
        exact write_fresh h.fresh hlt p hp
      level := ⟨d, by rw [Run.store, hstore]; exact hshadows.hasLevel hd⟩
      first := .inl (hfirst.append _)
      registered := by
        rw [Run.store, hstore]
        exact hself
      scans_take := by
        intro ls ls' hls hls' k
        have hls'W : Scans (replay σ W) root ls' := by
          obtain ⟨ls₂, hls₂⟩ := (h.oneCommit.sound hs).exists_scan hd
          have heq := hshadows.scans hls₂
          rw [Run.store, hstore] at hls'
          rw [hls'.unique heq]
          exact (h.scans ls₂).mp hls₂
        rcases Nat.lt_or_ge W.length k with hk | hk
        · -- everything survived
          have hall : (W ++ [w]).take k = W ++ [w] := by
            refine List.take_of_length_le ?_
            rw [List.length_append, List.length_singleton]
            exact hk
          refine ⟨root', ?_, .inr ?_⟩
          · rw [hall, hstore]
            exact hself
          · rw [hall]
            exact hls'
        · -- the registration did not
          rw [List.take_append_of_le_length hk]
          refine ⟨root, ?_, h.oneCommit.scans_take hs hls hls'W k⟩
          exact (replay_of_notMem (take_notMem (h.nodes_only hreg (himage root)) k)).trans hreg }

/-- **The log of `Insert`**, the registration of a new root included. -/
theorem insert_rootLog (image : PageId → PageBody)
    {register : PageId → PageStore → PageId → Run Unit} {d : Nat} (hs : Sound σ)
    (hroot : HasLevel σ d root) (hpool : 0 < poolSize) (hnext : ∀ p, next ≤ p → σ p = none)
    (hreg : σ registry = some (image root)) (himage : ∀ r, ¬ (image r).IsNode)
    (hroots : ∀ r, ∀ q ∈ (image r).roots, q = r ∨ q ∈ (image root).roots)
    (hregister : ∀ root' τ n, τ registry = some (image root) →
      register root' τ n = ⟨.ok (), [(registry, image root')], n⟩) (key : Int64) (value : Bytes) :
    RootLog σ next registry image root (OnStore.insert poolSize register σ next root key value)
      (rootAfter root (OnStore.insert poolSize register σ next root key value)) := by
  rcases insert_log register hs hroot hpool hnext key value with
    ⟨hsplit, hok⟩ | ⟨root', W, n, hsplit, hfirst, heq⟩
  · have hafter : rootAfter root (OnStore.insert poolSize register σ next root key value) = root := by
      unfold rootAfter
      cases hres : (OnStore.insert poolSize register σ next root key value).result with
      | ok r => exact hok r hres
      | error e => rfl
    rw [hafter]
    exact hsplit.keep image hs hreg (himage root)
  · rw [heq, hregister root' _ n
      ((replay_of_notMem (hsplit.nodes_only hreg (himage root))).trans hreg)]
    exact hsplit.register hs hfirst hreg himage hroots root'

end

/-- What `Insert` made of the tree `t`, its registration in the page `registry` included: the tree
`t'`, also when no frame was left for a split and it threw. -/
structure Inserted (σ : PageStore) (next root registry : PageId) (poolSize : Nat) (t : Tree h)
    (key : Int64) (value : Bytes) (r : Run PageId) {h' : Nat} (t' : Tree h') : Prop where
  intact : Intact (r.store σ) (rootAfter root r) t'
  mem : ∀ c, c ∈ t'.cells ↔ c = ⟨key, value⟩ ∨ (c ∈ t.cells ∧ c.key ≠ key)
  pages : ∀ p ∈ t'.pages, p ∈ t.pages ∨ (next ≤ p ∧ p < r.next)
  frame : ∀ w ∈ r.writes, w.1 ∈ t.pages ∨ next ≤ w.1 ∨ w.1 = registry
  result : r.result = .ok (rootAfter root r) ∨ (r.result = .error .exhaustedSplit ∧
    poolSize = h + 1 ∧ FullLeaf σ (h + 1) root key)
  small : (∃ root', r.result = .ok root') → (∀ l ∈ t.leaves, l.cells.length ≤ leafMaxKeys) →
    ∀ l ∈ t'.leaves, l.cells.length ≤ leafMaxKeys

/-- `Insert` on an intact tree whose root is registered in a page that is no node; the tree grew by a
level only with a frame to spare for it. -/
theorem Intact.insert_levels (register : PageId → PageStore → PageId → Run Unit)
    (registry : PageId) {b : PageBody} (hs : Sound σ) (ht : Intact σ root t) (hpool : 0 < poolSize)
    (hnext : ∀ p, next ≤ p → σ p = none) (hreg : σ registry = some b) (hb : ¬ b.IsNode)
    (hregister : ∀ root' τ n, τ registry = σ registry →
      ∃ b', register root' τ n = ⟨.ok (), [(registry, b')], n⟩)
    (key : Int64) (value : Bytes) :
    (∃ e, OnStore.insert poolSize register σ next root key value = .fail next e ∧
        ((e = .exhaustedInsert ∧ poolSize ≤ h) ∨
          (e = .undefinedBehaviour ∧ ∃ l ∈ t.leaves, leafCapacity ≤ l.cells.length))) ∨
      ∃ (h' : Nat) (t' : Tree h'), Inserted σ next root registry poolSize t key value
        (OnStore.insert poolSize register σ next root key value) t' ∧
        (h' = h ∨ (h' = h + 1 ∧ h + 2 ≤ poolSize)) := by
  rcases ht.insert register hs hpool hnext key value with hidle | ⟨t', hin⟩ |
    ⟨root', W, n, t', hg, heq⟩
  · exact .inl hidle
  · right
    have hroot : rootAfter root (OnStore.insert poolSize register σ next root key value) = root := by
      rcases hin.result with hok | ⟨herr, -⟩
      exacts [rootAfter_ok hok, rootAfter_error herr]
    refine ⟨h, t', ⟨hroot.symm ▸ hin.intact, hin.upserted.mem, hin.upserted.pages,
      fun w hw => (hin.upserted.frame w hw).imp_right .inl, ?_, fun ⟨root', hok⟩ => ?_⟩, .inl rfl⟩
    · rw [hroot]
      exact hin.result
    · refine hin.small ?_
      rcases hin.result with hok' | ⟨herr, -⟩
      · exact hok'
      · rw [hok] at herr
        cases herr
  · right
    have hkeep : replay σ W registry = σ registry :=
      replay_of_notMem (hg.split.nodes_only hreg hb)
    obtain ⟨b', hb'⟩ := hregister root' (replay σ W) n hkeep
    rw [hb'] at heq
    rw [heq]
    refine ⟨h + 1, t', ⟨?_, hg.upserted.mem, hg.upserted.pages, fun w hw => ?_, .inl rfl,
      fun _ => hg.small⟩, .inr ⟨rfl, hg.frames⟩⟩
    · rw [Run.store, replay_append]
      refine hg.intact.write_other fun b'' hb'' => ?_
      obtain rfl := Option.some.inj (hreg.symm.trans (hkeep.symm.trans hb''))
      exact hb
    · rcases List.mem_append.mp hw with hw | hw
      · exact (hg.upserted.frame w hw).imp_right .inl
      · rw [List.mem_singleton.mp hw]
        exact .inr (.inr rfl)

/-- **`Insert` on an intact tree whose root is registered in a page that is no node.** -/
theorem Intact.insert_registered (register : PageId → PageStore → PageId → Run Unit)
    (registry : PageId) {b : PageBody} (hs : Sound σ) (ht : Intact σ root t) (hpool : 0 < poolSize)
    (hnext : ∀ p, next ≤ p → σ p = none) (hreg : σ registry = some b) (hb : ¬ b.IsNode)
    (hregister : ∀ root' τ n, τ registry = σ registry →
      ∃ b', register root' τ n = ⟨.ok (), [(registry, b')], n⟩)
    (key : Int64) (value : Bytes) :
    (∃ e, OnStore.insert poolSize register σ next root key value = .fail next e ∧
        ((e = .exhaustedInsert ∧ poolSize ≤ h) ∨
          (e = .undefinedBehaviour ∧ ∃ l ∈ t.leaves, leafCapacity ≤ l.cells.length))) ∨
      ∃ (h' : Nat) (t' : Tree h'), Inserted σ next root registry poolSize t key value
        (OnStore.insert poolSize register σ next root key value) t' := by
  refine (ht.insert_levels register registry hs hpool hnext hreg hb hregister key value).imp_right ?_
  rintro ⟨h', t', hin, -⟩
  exact ⟨h', t', hin⟩

end

end Reldb
