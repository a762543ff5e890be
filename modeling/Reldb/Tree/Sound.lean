import Reldb.Tree.Chain

/-!
# Reldb — what every prefix of the log keeps

`Sound` is the invariant of a store of tree pages that no single logged write ever breaks, so that
it holds of the store a crash leaves behind wherever it strikes: every pointer leads to a page of
the right type, levels are uniform, every leaf chain ends, leaves are sorted. It says nothing about
keys being where a descent looks for them.

Writes come in two kinds. A `Shadow` write adds a page nothing points to yet, or changes pointers
above the leaves: no scan can tell. A `Commit` write changes one leaf, and so at most one scan.
Every operation's log has at most one commit (`OneCommit`), which is what makes a scan after a
crash see the operation entirely or not at all.
-/

namespace Reldb

open WriteLog

def PageBody.IsNode : PageBody → Prop
  | .leaf .. => True
  | .internal .. => True
  | _ => False

/-- The tree roots a page registers: the metadata page's, or those of the catalog's tables. -/
def PageBody.roots : PageBody → List PageId
  | .metadata root => [root]
  | .catalog b => (b.tables.filter (·.inUse)).map (·.rootPageId)
  | _ => []

/-- Keys strictly increase. -/
def SortedCells (cells : List LeafCell) : Prop := cells.Pairwise fun a b => a.key < b.key

/-- What a node logs: no separator is `INT64_MIN`, and no more cells than the split threshold. -/
structure WellSeparated (cells : List InternalCell) : Prop where
  bot_lt : ∀ c ∈ cells, (⊥ : Int64) < c.key
  length_le : cells.length ≤ internalMaxKeys

/-- The invariant of every logged store. -/
structure Sound (σ : PageStore) : Prop where
  level : ∀ {p b}, σ p = some b → b.IsNode → ∃ d, HasLevel σ d p
  chain : ∀ {p chain cells}, σ p = some (.leaf chain cells) → ∃ ls, Linked σ chain none ls
  sorted : ∀ {p chain cells}, σ p = some (.leaf chain cells) → SortedCells cells
  separated : ∀ {p lm cells}, σ p = some (.internal lm cells) → WellSeparated cells
  roots : ∀ {p b}, σ p = some b → ∀ r ∈ b.roots, ∃ d, HasLevel σ d r

/-- A write no scan can see. -/
inductive Shadow (σ : PageStore) : PageWrite → Prop where
  | newLeaf {p : PageId} {chain : Option PageId} {cells : List LeafCell} {ls : List Leaf}
      (fresh : σ p = none) (linked : Linked σ chain none ls) (sorted : SortedCells cells) :
      Shadow σ (p, .leaf chain cells)
  | newInternal {p lm : PageId} {cells : List InternalCell} {d : Nat} (fresh : σ p = none)
      (children : ∀ c ∈ childrenOf lm cells, HasLevel σ d c) (separated : WellSeparated cells) :
      Shadow σ (p, .internal lm cells)
  | internal {p lm : PageId} {cells cells' : List InternalCell} {d : Nat}
      (here : σ p = some (.internal lm cells))
      (children : ∀ c ∈ childrenOf lm cells', HasLevel σ d c) (separated : WellSeparated cells') :
      Shadow σ (p, .internal lm cells')
  | register {p : PageId} {b : PageBody} (here : ∀ b', σ p = some b' → ¬ b'.IsNode)
      (other : ¬ b.IsNode) (roots : ∀ r ∈ b.roots, ∃ d, HasLevel σ d r) : Shadow σ (p, b)

/-- A write that changes what one leaf contributes to a scan: its cells, or its cells and the right
sibling linked in after it. -/
inductive Commit (σ : PageStore) : PageWrite → Prop where
  | cells {p : PageId} {chain : Option PageId} {cells cells' : List LeafCell}
      (here : σ p = some (.leaf chain cells)) (sorted : SortedCells cells') :
      Commit σ (p, .leaf chain cells')
  | split {p q : PageId} {chain : Option PageId} {cells cells' right : List LeafCell}
      (here : σ p = some (.leaf chain cells)) (sibling : σ q = some (.leaf chain right))
      (ne : q ≠ p) (sorted : SortedCells cells') : Commit σ (p, .leaf (some q) cells')

/-! ## Levels survive -/

/-- Every node of `σ` is a node of the same type in `τ`, with the same leftmost child and children
of the levels it had. -/
structure Extends (σ τ : PageStore) : Prop where
  leaf : ∀ {p chain cells}, σ p = some (.leaf chain cells) →
    ∃ chain' cells', τ p = some (.leaf chain' cells')
  internal : ∀ {p lm cells d}, σ p = some (.internal lm cells) → HasLevel σ (d + 1) p →
    ∃ cells', τ p = some (.internal lm cells') ∧ ∀ c ∈ childrenOf lm cells', HasLevel σ d c

namespace Extends

variable {σ τ : PageStore} {d : Nat} {p : PageId} {w : PageWrite}

theorem hasLevel (h : Extends σ τ) (hp : HasLevel σ d p) : HasLevel τ d p := by
  induction d generalizing p with
  | zero =>
    obtain ⟨chain, cells, heq⟩ := hp
    exact h.leaf heq
  | succ d ih =>
    obtain ⟨lm, cells, heq, -⟩ := id hp
    obtain ⟨cells', heq', hkids⟩ := h.internal heq hp
    exact ⟨lm, cells', heq', fun c hc => ih (hkids c hc)⟩

theorem leftmostLeaf_eq (h : Extends σ τ) (hp : HasLevel σ d p) :
    leftmostLeaf τ d p = leftmostLeaf σ d p := by
  induction d generalizing p with
  | zero => rfl
  | succ d ih =>
    obtain ⟨lm, cells, heq, hkids⟩ := id hp
    obtain ⟨cells', heq', -⟩ := h.internal heq hp
    simp only [leftmostLeaf, heq, heq']
    exact ih (hkids lm List.mem_cons_self)

theorem refl (σ : PageStore) : Extends σ σ where
  leaf h := ⟨_, _, h⟩
  internal h hp := by
    obtain ⟨d', hd, hkids⟩ := hp.of_internal h
    obtain rfl := Nat.succ.inj hd
    exact ⟨_, h, hkids⟩

theorem of_shadow (h : Shadow σ w) : Extends σ (write σ w) := by
  have keep : ∀ {q}, q ≠ w.1 → write σ w q = σ q := fun hq => write_of_ne σ w hq
  constructor
  · intro q chain cells hq
    by_cases hw : q = w.1
    · subst hw
      cases h with
      | newLeaf fresh => rw [hq] at fresh; cases fresh
      | newInternal fresh => rw [hq] at fresh; cases fresh
      | internal here => rw [hq] at here; cases here
      | register here => exact absurd trivial (here _ hq)
    · exact ⟨chain, cells, (keep hw).trans hq⟩
  · intro q lm cells d hq hlevel
    obtain ⟨d', hd, hkids⟩ := hlevel.of_internal hq
    obtain rfl := Nat.succ.inj hd
    by_cases hw : q = w.1
    · subst hw
      cases h with
      | newLeaf fresh => rw [hq] at fresh; cases fresh
      | newInternal fresh => rw [hq] at fresh; cases fresh
      | @internal p lm' cells₀ cells' d' here children =>
        have heq := hq.symm.trans here
        injection heq with heq
        injection heq with hlm _
        subst hlm
        refine ⟨cells', write_self σ _, ?_⟩
        have hsame := (hkids lm List.mem_cons_self).unique (children lm List.mem_cons_self)
        rw [hsame]
        exact children
      | register here => exact absurd trivial (here _ hq)
    · exact ⟨cells, (keep hw).trans hq, hkids⟩

theorem of_commit (h : Commit σ w) : Extends σ (write σ w) := by
  have keep : ∀ {q}, q ≠ w.1 → write σ w q = σ q := fun hq => write_of_ne σ w hq
  constructor
  · intro q chain cells hq
    by_cases hw : q = w.1
    · subst hw
      cases h with
      | cells here sorted => exact ⟨_, _, write_self σ _⟩
      | split here sibling ne sorted => exact ⟨_, _, write_self σ _⟩
    · exact ⟨chain, cells, (keep hw).trans hq⟩
  · intro q lm cells d hq hlevel
    obtain ⟨d', hd, hkids⟩ := hlevel.of_internal hq
    obtain rfl := Nat.succ.inj hd
    have hw : q ≠ w.1 := by
      rintro rfl
      cases h with
      | cells here => rw [hq] at here; cases here
      | split here => rw [hq] at here; cases here
    exact ⟨cells, (keep hw).trans hq, hkids⟩

end Extends

/-! ## Chains survive -/

section

variable {σ : PageStore} {w : PageWrite} {src : Option PageId} {ls : List Leaf}

/-- A shadow write touches no leaf there was. -/
theorem Shadow.not_leaf (h : Shadow σ w) {chain : Option PageId} {cells : List LeafCell} :
    σ w.1 ≠ some (.leaf chain cells) := by
  intro hleaf
  cases h with
  | newLeaf fresh => rw [hleaf] at fresh; cases fresh
  | newInternal fresh => rw [hleaf] at fresh; cases fresh
  | internal here => rw [hleaf] at here; cases here
  | register here => exact here _ hleaf trivial

theorem Linked.of_shadow (h : Shadow σ w) {dst : Option PageId} (hl : Linked σ src dst ls) :
    Linked (write σ w) src dst ls := by
  refine hl.congr fun l hmem => write_of_ne σ w ?_
  rintro heq
  obtain ⟨next, hleaf⟩ := hl.isLeaf hmem
  exact h.not_leaf (heq ▸ hleaf)

/-- A chain through the leaf a commit rewrites is the old chain up to that leaf, and again from
the leaf's old successor on. -/
theorem Linked.of_commit (h : Commit σ w) (hl : Linked σ src none ls) :
    ∃ ls', Linked (write σ w) src none ls' := by
  by_cases hmem : w.1 ∈ ls.map Leaf.id
  · obtain ⟨A, cells, chain, B, -, hleaf, hA, hB, hnA, hnB⟩ := hl.split_at hmem
    have hkeep : ∀ {a b : Option PageId} {C : List Leaf}, Linked σ a b C → w.1 ∉ C.map Leaf.id →
        Linked (write σ w) a b C := fun hC hn =>
      hC.congr fun l hl => write_of_ne σ w fun heq => hn (heq ▸ List.mem_map_of_mem hl)
    cases h with
    | @cells p chain' cells₀ cells' here =>
      obtain ⟨rfl, -⟩ : chain = chain' ∧ cells = cells₀ := by
        have := hleaf.symm.trans here
        injection this with this
        injection this with h1 h2
        exact ⟨h1, h2⟩
      exact ⟨A ++ ⟨p, cells'⟩ :: B, Linked.append_iff.mpr
        ⟨some p, hkeep hA hnA, rfl, chain, write_self σ _, hkeep hB hnB⟩⟩
    | @split p q chain' cells₀ cells' right here sibling ne =>
      obtain ⟨rfl, -⟩ : chain = chain' ∧ cells = cells₀ := by
        have := hleaf.symm.trans here
        injection this with this
        injection this with h1 h2
        exact ⟨h1, h2⟩
      exact ⟨A ++ ⟨p, cells'⟩ :: ⟨q, right⟩ :: B, Linked.append_iff.mpr
        ⟨some p, hkeep hA hnA, rfl, some q, write_self σ _, rfl, chain,
          (write_of_ne σ _ ne).trans sibling, hkeep hB hnB⟩⟩
  · exact ⟨ls, hl.congr fun l hl => write_of_ne σ w fun heq => hmem (heq ▸ List.mem_map_of_mem hl)⟩

/-! ## The invariant survives -/

/-- What of the invariant is about the page written. -/
theorem Sound.of_extends {τ : PageStore} (hs : Sound σ) (hext : Extends σ τ)
    (hkeep : ∀ p, p ≠ w.1 → τ p = σ p)
    (hlevel : ∀ b, τ w.1 = some b → b.IsNode → ∃ d, HasLevel τ d w.1)
    (hchain : ∀ {src ls}, Linked σ src none ls → ∃ ls', Linked τ src none ls')
    (hnew : ∀ chain cells, τ w.1 = some (.leaf chain cells) →
      (∃ ls, Linked τ chain none ls) ∧ SortedCells cells)
    (hsep : ∀ lm cells, τ w.1 = some (.internal lm cells) → WellSeparated cells)
    (hroots : ∀ b, τ w.1 = some b → ∀ r ∈ b.roots, ∃ d, HasLevel τ d r) : Sound τ where
  level {p b} hp hb := by
    by_cases hw : p = w.1
    · exact hw ▸ hlevel b (hw ▸ hp) hb
    · obtain ⟨d, hd⟩ := hs.level ((hkeep p hw).symm.trans hp) hb
      exact ⟨d, hext.hasLevel hd⟩
  chain {p chain cells} hp := by
    by_cases hw : p = w.1
    · exact (hnew chain cells (hw ▸ hp)).1
    · obtain ⟨ls, hls⟩ := hs.chain ((hkeep p hw).symm.trans hp)
      exact hchain hls
  sorted {p chain cells} hp := by
    by_cases hw : p = w.1
    · exact (hnew chain cells (hw ▸ hp)).2
    · exact hs.sorted ((hkeep p hw).symm.trans hp)
  separated {p lm cells} hp := by
    by_cases hw : p = w.1
    · exact hsep lm cells (hw ▸ hp)
    · exact hs.separated ((hkeep p hw).symm.trans hp)
  roots {p b} hp r hr := by
    by_cases hw : p = w.1
    · exact hroots b (hw ▸ hp) r hr
    · obtain ⟨d, hd⟩ := hs.roots ((hkeep p hw).symm.trans hp) r hr
      exact ⟨d, hext.hasLevel hd⟩

theorem Sound.shadow (hs : Sound σ) (h : Shadow σ w) : Sound (write σ w) := by
  have hext := Extends.of_shadow h
  have hself : ∀ {b}, write σ w w.1 = some b → b = w.2 := fun hb =>
    (Option.some.inj ((write_self σ w).symm.trans hb)).symm
  refine hs.of_extends hext (fun p hp => write_of_ne σ w hp) ?_
    (fun hl => ⟨_, hl.of_shadow h⟩) ?_ ?_ ?_
  · rintro b hb hnode
    have hsome := hb
    rw [hself hb] at hsome hnode
    cases h with
    | newLeaf fresh => exact ⟨0, _, _, hsome⟩
    | @newInternal p lm cells d fresh children =>
      exact ⟨d + 1, lm, cells, hsome, fun c hc => hext.hasLevel (children c hc)⟩
    | @internal p lm cells cells' d here children =>
      exact ⟨d + 1, lm, cells', hsome, fun c hc => hext.hasLevel (children c hc)⟩
    | register here other => exact absurd hnode other
  · intro chain cells hleaf
    have hbody := hself hleaf
    cases h with
    | newLeaf fresh linked sorted =>
      injection hbody with hchain hcells
      subst hchain hcells
      exact ⟨⟨_, linked.of_shadow (.newLeaf fresh linked sorted)⟩, sorted⟩
    | newInternal => cases hbody
    | internal => cases hbody
    | @register p b here other =>
      obtain rfl : b = .leaf chain cells := hbody.symm
      exact absurd trivial other
  · intro lm cells hinternal
    have hbody := hself hinternal
    cases h with
    | newLeaf => cases hbody
    | newInternal fresh children separated => cases hbody; exact separated
    | internal here children separated => cases hbody; exact separated
    | @register p b here other =>
      obtain rfl : b = .internal lm cells := hbody.symm
      exact absurd trivial other
  · intro b hb r hr
    rw [hself hb] at hr
    cases h with
    | newLeaf => cases hr
    | newInternal => cases hr
    | internal => cases hr
    | register here other roots =>
      obtain ⟨d, hd⟩ := roots r hr
      exact ⟨d, hext.hasLevel hd⟩

theorem Sound.commit (hs : Sound σ) (h : Commit σ w) : Sound (write σ w) := by
  have hext := Extends.of_commit h
  have hself : ∀ {b}, write σ w w.1 = some b → b = w.2 := fun hb =>
    (Option.some.inj ((write_self σ w).symm.trans hb)).symm
  refine hs.of_extends hext (fun p hp => write_of_ne σ w hp) ?_ (fun hl => hl.of_commit h) ?_ ?_ ?_
  · rintro b hb -
    have hsome := hb
    rw [hself hb] at hsome
    cases h with
    | cells => exact ⟨0, _, _, hsome⟩
    | split => exact ⟨0, _, _, hsome⟩
  · intro chain cells hleaf
    have hbody := hself hleaf
    cases h with
    | cells here sorted =>
      injection hbody with hchain hcells
      subst hchain hcells
      obtain ⟨ls, hls⟩ := hs.chain here
      exact ⟨hls.of_commit (.cells here sorted), sorted⟩
    | @split p q chain' cells₀ cells' right here sibling ne sorted =>
      injection hbody with hchain hcells
      subst hchain hcells
      obtain ⟨ls, hls⟩ := hs.chain sibling
      have hsib : Linked σ (some q) none (⟨q, right⟩ :: ls) := ⟨rfl, chain', sibling, hls⟩
      exact ⟨hsib.of_commit (.split here sibling ne sorted), sorted⟩
  · intro lm cells hinternal
    have hbody := hself hinternal
    cases h <;> cases hbody
  · intro b hb r hr
    rw [hself hb] at hr
    cases h <;> cases hr

/-- Shadow writes leave every scan alone. -/
theorem Scans.of_shadow (h : Shadow σ w) {root : PageId} (hscan : Scans σ root ls) :
    Scans (write σ w) root ls := by
  obtain ⟨d, hd, hl⟩ := hscan
  have hext := Extends.of_shadow h
  refine ⟨d, hext.hasLevel hd, ?_⟩
  rw [hext.leftmostLeaf_eq hd]
  exact hl.of_shadow h

/-- Every registered root can be scanned. -/
theorem Sound.exists_scan (hs : Sound σ) {d : Nat} {p : PageId} (hp : HasLevel σ d p) :
    ∃ ls, Scans σ p ls := by
  have hleaf : ∀ {d p}, HasLevel σ d p →
      ∃ chain cells, σ (leftmostLeaf σ d p) = some (.leaf chain cells) := by
    intro d
    induction d with
    | zero => exact fun hp => hp
    | succ d ih =>
      rintro p ⟨lm, cells, heq, hkids⟩
      simp only [leftmostLeaf, heq]
      exact ih (hkids lm List.mem_cons_self)
  obtain ⟨chain, cells, heq⟩ := hleaf hp
  obtain ⟨ls, hls⟩ := hs.chain heq
  exact ⟨⟨_, cells⟩ :: ls, d, hp, rfl, chain, heq, hls⟩

end

/-! ## Logs -/

/-- A log of shadow writes. -/
inductive Shadows : PageStore → List PageWrite → Prop where
  | nil (σ : PageStore) : Shadows σ []
  | cons {σ : PageStore} {w : PageWrite} {W : List PageWrite} (head : Shadow σ w)
      (tail : Shadows (write σ w) W) : Shadows σ (w :: W)

/-- A log with at most one write a scan can see. -/
inductive OneCommit : PageStore → List PageWrite → Prop where
  | shadows {σ : PageStore} {W : List PageWrite} (all : Shadows σ W) : OneCommit σ W
  | commit {σ : PageStore} {w : PageWrite} {W : List PageWrite} (head : Commit σ w)
      (tail : Shadows (write σ w) W) : OneCommit σ (w :: W)
  | cons {σ : PageStore} {w : PageWrite} {W : List PageWrite} (head : Shadow σ w)
      (tail : OneCommit (write σ w) W) : OneCommit σ (w :: W)

section

variable {σ : PageStore} {W W' : List PageWrite}

theorem Shadows.append (h : Shadows σ W) (h' : Shadows (replay σ W) W') : Shadows σ (W ++ W') := by
  induction h with
  | nil => exact h'
  | cons head _ ih => exact .cons head (ih h')

theorem OneCommit.append (h : OneCommit σ W) (h' : Shadows (replay σ W) W') :
    OneCommit σ (W ++ W') := by
  induction h with
  | shadows all => exact .shadows (all.append h')
  | commit head tail => exact .commit head (tail.append h')
  | cons head _ ih => exact .cons head (ih h')

theorem Shadows.take (h : Shadows σ W) (n : Nat) : Shadows σ (W.take n) := by
  induction h generalizing n with
  | nil => rw [List.take_nil]; exact .nil _
  | cons head _ ih =>
    cases n with
    | zero => exact .nil _
    | succ n => exact .cons head (ih n)

theorem Shadows.sound (h : Shadows σ W) (hs : Sound σ) : Sound (replay σ W) := by
  induction h with
  | nil => exact hs
  | cons head _ ih => exact ih (hs.shadow head)

theorem Shadows.scans (h : Shadows σ W) {root : PageId} {ls : List Leaf} (hscan : Scans σ root ls) :
    Scans (replay σ W) root ls := by
  induction h with
  | nil => exact hscan
  | cons head _ ih => exact ih (hscan.of_shadow head)

theorem Shadows.hasLevel (h : Shadows σ W) {d : Nat} {p : PageId} (hp : HasLevel σ d p) :
    HasLevel (replay σ W) d p := by
  induction h with
  | nil => exact hp
  | cons head _ ih => exact ih ((Extends.of_shadow head).hasLevel hp)

theorem OneCommit.hasLevel (h : OneCommit σ W) {d : Nat} {p : PageId} (hp : HasLevel σ d p) :
    HasLevel (replay σ W) d p := by
  induction h with
  | shadows all => exact all.hasLevel hp
  | commit head tail => exact tail.hasLevel ((Extends.of_commit head).hasLevel hp)
  | cons head _ ih => exact ih ((Extends.of_shadow head).hasLevel hp)

theorem Shadows.leftmostLeaf_eq (h : Shadows σ W) {d : Nat} {p : PageId} (hp : HasLevel σ d p) :
    leftmostLeaf (replay σ W) d p = leftmostLeaf σ d p := by
  induction h with
  | nil => rfl
  | cons head _ ih =>
    have hext := Extends.of_shadow head
    exact (ih (hext.hasLevel hp)).trans (hext.leftmostLeaf_eq hp)

theorem OneCommit.leftmostLeaf_eq (h : OneCommit σ W) {d : Nat} {p : PageId}
    (hp : HasLevel σ d p) : leftmostLeaf (replay σ W) d p = leftmostLeaf σ d p := by
  induction h with
  | shadows all => exact all.leftmostLeaf_eq hp
  | commit head tail =>
    have hext := Extends.of_commit head
    exact (tail.leftmostLeaf_eq (hext.hasLevel hp)).trans (hext.leftmostLeaf_eq hp)
  | cons head _ ih =>
    have hext := Extends.of_shadow head
    exact (ih (hext.hasLevel hp)).trans (hext.leftmostLeaf_eq hp)

/-- **Every prefix of an operation's log leaves a sound store.** -/
theorem OneCommit.sound_take (h : OneCommit σ W) (hs : Sound σ) (n : Nat) :
    Sound (replay σ (W.take n)) := by
  induction h generalizing n with
  | shadows all => exact (all.take n).sound hs
  | commit head tail =>
    cases n with
    | zero => exact hs
    | succ n => exact (tail.take n).sound (hs.commit head)
  | cons head _ ih =>
    cases n with
    | zero => exact hs
    | succ n => exact ih (hs.shadow head) n

theorem OneCommit.sound (h : OneCommit σ W) (hs : Sound σ) : Sound (replay σ W) := by
  have := h.sound_take hs W.length
  rwa [List.take_length] at this

/-- **A scan after any prefix of an operation's log sees all of the operation or nothing.** -/
theorem OneCommit.scans_take (h : OneCommit σ W) (hs : Sound σ) {root : PageId} {ls ls' : List Leaf}
    (hbefore : Scans σ root ls) (hafter : Scans (replay σ W) root ls') (n : Nat) :
    Scans (replay σ (W.take n)) root ls ∨ Scans (replay σ (W.take n)) root ls' := by
  induction h generalizing n with
  | shadows all => exact .inl ((all.take n).scans hbefore)
  | @commit σ w W head tail =>
    cases n with
    | zero => exact .inl hbefore
    | succ n =>
      obtain ⟨d, hd, -⟩ := hbefore
      obtain ⟨ls₁, hls₁⟩ := (hs.commit head).exists_scan ((Extends.of_commit head).hasLevel hd)
      obtain rfl := (tail.scans hls₁).unique hafter
      exact .inr ((tail.take n).scans hls₁)
  | cons head _ ih =>
    cases n with
    | zero => exact .inl hbefore
    | succ n => exact ih (hs.shadow head) (hbefore.of_shadow head) hafter n

end

end Reldb
