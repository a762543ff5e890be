import Reldb.Tree.Root

/-!
# Reldb — cells stay inside their page, but for one insert

A page holds at most 29 leaf cells or 254 internal cells. Internal pages never come near that: they
are split at five. A leaf is too, as long as the pool has a frame left to split it with. In a tree of as
many levels as the pool has frames no leaf splits any more; each failed split leaves one cell more behind,
and the insert after the 29th writes past the page.

`OnStore.insert_overruns_iff` says when, in the store before the call.
-/

namespace Reldb

open WriteLog BufferPool

/-! ## Pages with no more cells than fit -/

def PageBody.InPage : PageBody → Prop
  | .leaf _ cells => cells.length ≤ leafCapacity
  | .internal _ cells => cells.length ≤ internalCapacity
  | _ => True

/-- No page of the store has more cells than fit. -/
def InPages (σ : PageStore) : Prop := ∀ p b, σ p = some b → b.InPage

/-- No write of the run has more cells than fit. -/
def Run.InPage {α : Type} (r : Run α) : Prop := ∀ w ∈ r.writes, w.2.InPage

section

variable {σ : PageStore} {α β : Type}

theorem InPages.replay (h : InPages σ) {W : List PageWrite} (hW : ∀ w ∈ W, w.2.InPage) :
    InPages (replay σ W) := by
  induction W generalizing σ with
  | nil => exact h
  | cons w W ih =>
    refine ih (fun p b hp => ?_) fun w' hw' => hW w' (List.mem_cons_of_mem _ hw')
    by_cases hpw : p = w.1
    · subst hpw
      rw [write_self] at hp
      exact Option.some.inj hp ▸ hW w List.mem_cons_self
    · rw [write_of_ne _ _ hpw] at hp
      exact h p b hp

theorem Run.InPage.store {r : Run α} (hr : r.InPage) (h : InPages σ) : InPages (r.store σ) :=
  h.replay hr

theorem Run.inPage_nil {r : Run α} (h : r.writes = []) : r.InPage := fun w hw => by
  rw [h] at hw
  cases hw

theorem Run.InPage.andThen {r : Run α} {f : α → PageStore → PageId → Run β} (h : InPages σ)
    (hr : r.InPage) (hf : ∀ a τ n, InPages τ → (f a τ n).InPage) : (r.andThen σ f).InPage := by
  cases hres : r.result with
  | error e =>
    rw [Run.andThen_error hres]
    exact hr
  | ok a =>
    rw [Run.andThen_ok hres]
    intro w hw
    exact (List.mem_append.mp hw).elim (hr w) (hf a _ _ (hr.store h) w)

/-! ### What the methods write -/

namespace OnStore

variable {free : Nat} {next node : PageId} {chain : Option PageId} {lm : PageId}

theorem splitLeafIfNeeded_inPage {cells : List LeafCell} (h : cells.length ≤ leafCapacity) :
    (splitLeafIfNeeded free next node chain cells).InPage := by
  have hhalf : ∀ n, (cells.take n).length ≤ leafCapacity ∧ (cells.drop n).length ≤ leafCapacity := by
    intro n
    rw [List.length_take, List.length_drop]
    omega
  unfold splitLeafIfNeeded Run.InPage
  split
  · simpa [PageBody.InPage] using h
  split
  · simpa [PageBody.InPage] using h
  simp only
  split
  · exact Run.inPage_nil rfl
  · simp only [List.mem_cons, List.not_mem_nil, or_false]
    rintro w (rfl | rfl)
    exacts [(hhalf _).2, (hhalf _).1]

theorem splitInternalIfNeeded_inPage {cells : List InternalCell}
    (h : cells.length ≤ internalCapacity) :
    (splitInternalIfNeeded free next node lm cells).InPage := by
  have hhalf : ∀ n, (cells.take n).length ≤ internalCapacity ∧
      (cells.drop n).length ≤ internalCapacity := by
    intro n
    rw [List.length_take, List.length_drop]
    omega
  unfold splitInternalIfNeeded Run.InPage
  split
  · simpa [PageBody.InPage] using h
  split
  · simpa [PageBody.InPage] using h
  simp only
  split
  · exact Run.inPage_nil rfl
  · simp only [List.mem_cons, List.not_mem_nil, or_false]
    rintro w (rfl | rfl)
    exacts [(hhalf _).2, (hhalf _).1]

theorem length_insertCell {γ : Type} (cells : List γ) (idx : Nat) (c : γ) :
    (insertCell cells idx c).length = cells.length + 1 := by
  rw [insertCell, List.length_append, List.length_cons, List.length_take, List.length_drop]
  omega

/-- The leaf is written with one cell more only when it has room for one. -/
theorem insertIntoLeaf_inPage {cells : List LeafCell} (h : cells.length ≤ leafCapacity) (key : Int64)
    (value : Bytes) : (insertIntoLeaf free next node chain cells key value).InPage := by
  unfold insertIntoLeaf
  simp only
  split
  · intro w hw
    rw [List.mem_singleton.mp hw]
    show (cells.set _ _).length ≤ leafCapacity
    rw [List.length_set]
    exact h
  split
  · exact Run.inPage_nil rfl
  · next hcap =>
    refine splitLeafIfNeeded_inPage ?_
    rw [length_insertCell]
    omega

theorem insertSeparator_inPage {idx : Nat} {split : SplitResult} {σ : PageStore} :
    (insertSeparator free node idx split σ next).InPage := by
  unfold insertSeparator
  split
  · split
    · exact Run.inPage_nil rfl
    · next hcap =>
      refine splitInternalIfNeeded_inPage ?_
      rw [length_insertCell]
      omega
  · exact Run.inPage_nil rfl

theorem insertRecursive_inPage {fuel : Nat} (h : InPages σ) (key : Int64) (value : Bytes) :
    (insertRecursive fuel free σ next node key value).InPage := by
  induction fuel generalizing free σ next node with
  | zero => exact Run.inPage_nil rfl
  | succ fuel ih =>
    cases free with
    | zero => exact Run.inPage_nil rfl
    | succ free =>
      simp only [insertRecursive]
      split
      · next hleaf => exact insertIntoLeaf_inPage (h _ _ hleaf) key value
      · refine Run.InPage.andThen h (ih h) fun split τ n hτ => ?_
        cases split with
        | none => exact Run.inPage_nil rfl
        | some split => exact insertSeparator_inPage
      · exact Run.inPage_nil rfl

theorem insert_inPage {poolSize : Nat} {root : PageId}
    {register : PageId → PageStore → PageId → Run Unit} (h : InPages σ)
    (hregister : ∀ root' τ n, (register root' τ n).InPage) (key : Int64) (value : Bytes) :
    (insert poolSize register σ next root key value).InPage := by
  refine Run.InPage.andThen h (insertRecursive_inPage h key value) fun split τ n hτ => ?_
  cases split with
  | none => exact Run.inPage_nil rfl
  | some split =>
    refine Run.InPage.andThen hτ ?_ fun newRootId τ' n' hτ' =>
      (hregister newRootId τ' n').andThen hτ' fun _ _ _ _ => Run.inPage_nil rfl
    unfold newRoot
    split
    · exact Run.inPage_nil rfl
    · intro w hw
      rw [List.mem_singleton.mp hw]
      show 1 ≤ internalCapacity
      decide

theorem delete_inPage {root : PageId} (h : InPages σ) (key : Int64) :
    (delete σ next root key).InPage := by
  unfold delete
  split
  · exact Run.inPage_nil rfl
  split
  · next hleaf =>
    split
    · exact Run.inPage_nil rfl
    · intro w hw
      rw [List.mem_singleton.mp hw]
      exact (List.length_eraseIdx_le _ _).trans (h _ _ hleaf)
  · exact Run.inPage_nil rfl

/-! ## The insert that overruns -/

/-- The leaf the key belongs in is as full as a page can be, and the key is not in it. -/
def NoRoom (σ : PageStore) (fuel : Nat) (root : PageId) (key : Int64) : Prop :=
  ∃ p chain cells, findLeafPageId fuel σ root key = .ok p ∧ σ p = some (.leaf chain cells) ∧
    leafCapacity ≤ cells.length ∧ ∀ c ∈ cells, c.key ≠ key

theorem splitLeafIfNeeded_writes {cells : List LeafCell} :
    (splitLeafIfNeeded free next node chain cells).writes ≠ [] := by
  unfold splitLeafIfNeeded
  split
  · exact List.cons_ne_nil _ _
  split
  · exact List.cons_ne_nil _ _
  simp only
  split
  · next hnone =>
    rw [List.head?_eq_none_iff, List.drop_eq_nil_iff] at hnone
    omega
  · exact List.cons_ne_nil _ _

/-- An insertion that returns has written a page. -/
theorem insertRecursive_writes {fuel : Nat} {key : Int64} {value : Bytes}
    {split : Option SplitResult}
    (h : (insertRecursive fuel free σ next node key value).result = .ok split) :
    (insertRecursive fuel free σ next node key value).writes ≠ [] := by
  induction fuel generalizing free node split with
  | zero => cases h
  | succ fuel ih =>
    cases free with
    | zero => cases h
    | succ free =>
      simp only [insertRecursive] at h ⊢
      split at h
      · -- at a leaf
        unfold insertIntoLeaf at h ⊢
        simp only at h ⊢
        split at h
        · next hhit =>
          rw [if_pos hhit]
          exact List.cons_ne_nil _ _
        split at h
        · cases h
        · next hhit hcap =>
          rw [if_neg hhit, if_neg hcap]
          exact splitLeafIfNeeded_writes
      · -- at an internal page the child has
        next lm cells hbody =>
        cases hres : (insertRecursive fuel free σ next (childAt lm cells (childIndex cells key)) key
            value).result with
        | error e => rw [Run.andThen_error hres] at h; cases h
        | ok split =>
          rw [Run.andThen_ok hres]
          exact List.append_ne_nil_of_left_ne_nil (ih hres) _
      · cases h

/-- A first run that writes whenever it returns fails with the sequence, or not at all. -/
theorem andThen_fail {r : Run α} {f : α → PageStore → PageId → Run β} {n : PageId} {e : Exn}
    (hr : ∀ a, r.result = .ok a → r.writes ≠ []) : r.andThen σ f = .fail n e ↔ r = .fail n e := by
  constructor
  · intro h
    cases hres : r.result with
    | error e' =>
      rw [Run.andThen_error hres, Run.fail, Run.mk.injEq] at h
      rw [Run.fail, Run.mk.injEq]
      exact ⟨hres.trans (congrArg Except.error (Except.error.inj h.1)), h.2⟩
    | ok a =>
      rw [Run.andThen_ok hres, Run.fail, Run.mk.injEq] at h
      exact absurd (List.append_eq_nil_iff.mp h.2.1).1 (hr a hres)
  · rintro rfl
    rfl

theorem insertIntoLeaf_overruns_iff {cells : List LeafCell} (hs : SortedCells cells) (key : Int64)
    (value : Bytes) :
    insertIntoLeaf free next node chain cells key value = .fail next .undefinedBehaviour ↔
      leafCapacity ≤ cells.length ∧ ∀ c ∈ cells, c.key ≠ key := by
  unfold insertIntoLeaf
  obtain ⟨A, B, ha, ⟨old, hold, hcells, hhit, -⟩ | ⟨hcells, hmiss, -⟩⟩ := leafIndex_spec hs key
  · -- the key's cell is overwritten
    simp only [if_pos hhit]
    refine iff_of_false (fun h => by cases h) fun h => h.2 old ?_ hold
    rw [hcells]
    exact List.mem_append_right _ List.mem_cons_self
  · have hnew : ∀ c ∈ cells, c.key ≠ key := by
      intro c hc
      rw [hcells] at hc
      rcases List.mem_append.mp hc with hc | hc
      exacts [(ha.lt c hc).ne, (ha.gt c hc).ne']
    simp only [if_neg hmiss]
    by_cases hcap : leafCapacity ≤ cells.length
    · rw [if_pos hcap]
      exact iff_of_true rfl ⟨hcap, hnew⟩
    · rw [if_neg hcap]
      refine iff_of_false (fun h => ?_) fun h => hcap h.1
      have hwrites := congrArg Run.writes h
      exact splitLeafIfNeeded_writes hwrites

/-- **The insert that overruns**: the descent has its frames, and there is no room in the leaf. -/
theorem insertRecursive_overruns_iff {fuel d : Nat} (hs : Sound σ) (hnode : HasLevel σ d node)
    (hfuel : d < fuel) (key : Int64) (value : Bytes) :
    insertRecursive fuel free σ next node key value = .fail next .undefinedBehaviour ↔
      d < free ∧ NoRoom σ fuel node key := by
  induction d generalizing fuel free node with
  | zero =>
    obtain ⟨chain, cells, hleaf⟩ := hnode
    obtain ⟨fuel, rfl⟩ := Nat.exists_eq_succ_of_ne_zero (Nat.ne_of_gt hfuel)
    have hroom : NoRoom σ (fuel + 1) node key ↔
        leafCapacity ≤ cells.length ∧ ∀ c ∈ cells, c.key ≠ key := by
      simp only [NoRoom, findLeafPageId, hleaf, Except.ok.injEq]
      constructor
      · rintro ⟨p, chain', cells', rfl, hp, hroom⟩
        rw [hleaf] at hp
        cases hp
        exact hroom
      · exact fun hroom => ⟨node, chain, cells, rfl, hleaf, hroom⟩
    cases free with
    | zero => exact iff_of_false (fun h => by cases h) fun h => by omega
    | succ free =>
      simp only [insertRecursive, hleaf]
      rw [insertIntoLeaf_overruns_iff (hs.sorted hleaf), hroom]
      exact ⟨fun h => ⟨Nat.succ_pos _, h⟩, And.right⟩
  | succ d ih =>
    obtain ⟨lm, cells, hbody, hkids⟩ := hnode
    obtain ⟨fuel, rfl⟩ := Nat.exists_eq_succ_of_ne_zero (Nat.ne_of_gt (Nat.zero_lt_of_lt hfuel))
    cases free with
    | zero => exact iff_of_false (fun h => by cases h) fun h => by omega
    | succ free =>
      have hchild := @ih free _ _ (hkids _ (childAt_mem lm cells (childIndex cells key)))
        (Nat.lt_of_succ_lt_succ hfuel)
      simp only [insertRecursive, hbody]
      rw [andThen_fail fun a ha => insertRecursive_writes ha, hchild]
      simp only [NoRoom, findLeafPageId, hbody, Nat.add_lt_add_iff_right]

theorem insert_overruns_iff {poolSize d : Nat} {root : PageId}
    {register : PageId → PageStore → PageId → Run Unit} (hs : Sound σ) (hroot : HasLevel σ d root)
    (hd : d < next + 1) (key : Int64) (value : Bytes) :
    insert poolSize register σ next root key value = .fail next .undefinedBehaviour ↔
      d < poolSize ∧ NoRoom σ (next + 1) root key := by
  unfold insert
  rw [andThen_fail fun a ha => insertRecursive_writes ha, insertRecursive_overruns_iff hs hroot hd]

end OnStore

end

end Reldb
