import Reldb.Tree.Room

/-!
# Reldb — how full the nodes are

A node is split when it holds a fifth cell, a leaf into two and three, an internal page into two and two
around the separator that goes up. So an `Insert` that returns writes no node with more than four cells, and
no internal page with fewer than two but a new root (`OnStore.insert_fans`).
-/

namespace Reldb

open WriteLog

/-- As full as a node is that is not the root. -/
def PageBody.Filled : PageBody → Prop
  | .leaf _ cells => cells.length ≤ leafMaxKeys
  | .internal _ cells => 2 ≤ cells.length ∧ cells.length ≤ internalMaxKeys
  | _ => True

/-- As full as the root is. -/
def PageBody.FilledRoot : PageBody → Prop
  | .leaf _ cells => cells.length ≤ leafMaxKeys
  | .internal _ cells => 1 ≤ cells.length ∧ cells.length ≤ internalMaxKeys
  | _ => True

/-- The nodes of the store are as full as they are to be, the tree at `root` being all of it. -/
def Fans (σ : PageStore) (root : PageId) : Prop :=
  ∀ p b, σ p = some b → b.FilledRoot ∧ (p ≠ root → b.Filled)

section

variable {σ : PageStore} {root root' : PageId} {W : List PageWrite} {α β : Type}

theorem PageBody.Filled.filledRoot {b : PageBody} (h : b.Filled) : b.FilledRoot := by
  cases b with
  | leaf chain cells => exact h
  | internal lm cells => exact ⟨by have := h.1; omega, h.2⟩
  | metadata root => exact trivial
  | catalog body => exact trivial
  | invalid => exact trivial

/-- What a page holds after writes is one of them, or what it held. -/
theorem replay_cases (σ : PageStore) (W : List PageWrite) {p : PageId} {b : PageBody}
    (h : replay σ W p = some b) : (p, b) ∈ W ∨ p ∉ W.map Prod.fst ∧ σ p = some b := by
  induction W generalizing σ with
  | nil => exact .inr ⟨List.not_mem_nil, h⟩
  | cons w W ih =>
    rcases ih _ h with hmem | ⟨hnot, hb⟩
    · exact .inl (List.mem_cons_of_mem _ hmem)
    by_cases hpw : p = w.1
    · subst hpw
      rw [write_self] at hb
      exact .inl (by rw [← Option.some.inj hb]; exact List.mem_cons_self)
    · rw [write_of_ne _ _ hpw] at hb
      refine .inr ⟨fun hmem => ?_, hb⟩
      rcases List.mem_cons.mp hmem with heq | hmem
      exacts [hpw heq, hnot hmem]

theorem Fans.replay (h : Fans σ root) (hW : ∀ w ∈ W, w.2.Filled) : Fans (replay σ W) root := by
  intro p b hp
  rcases replay_cases σ W hp with hmem | ⟨-, hb⟩
  · exact ⟨PageBody.Filled.filledRoot (hW _ hmem), fun _ => hW _ hmem⟩
  · exact h p b hb

/-- A new root over the old one, which has been written again. -/
theorem Fans.newRoot (h : Fans σ root) (hW : ∀ w ∈ W, w.1 ≠ root' → w.2.Filled)
    (hroot' : ∀ w ∈ W, w.2.FilledRoot) (hroot : root ∈ W.map Prod.fst) :
    Fans (WriteLog.replay σ W) root' := by
  intro p b hp
  rcases replay_cases σ W hp with hmem | ⟨hnot, hb⟩
  · exact ⟨hroot' _ hmem, hW _ hmem⟩
  · obtain ⟨hr, hf⟩ := h p b hb
    exact ⟨hr, fun _ => hf fun heq => hnot (heq ▸ hroot)⟩

/-! ## What `Insert` writes -/

namespace OnStore

variable {free : Nat} {next node : PageId} {chain : Option PageId} {lm : PageId}
  {a : Option SplitResult}

theorem splitLeafIfNeeded_fills {cells : List LeafCell} (hlen : cells.length ≤ leafMaxKeys + 1)
    (hok : (splitLeafIfNeeded free next node chain cells).result = .ok a) :
    (∀ w ∈ (splitLeafIfNeeded free next node chain cells).writes, w.2.Filled) ∧
      node ∈ (splitLeafIfNeeded free next node chain cells).writes.map Prod.fst := by
  have hmax : leafMaxKeys = 4 := rfl
  unfold splitLeafIfNeeded at hok ⊢
  by_cases hfits : cells.length ≤ leafMaxKeys
  · rw [if_pos hfits]
    exact ⟨fun w hw => by rw [List.mem_singleton.mp hw]; exact hfits, List.mem_singleton_self _⟩
  rw [if_neg hfits] at hok ⊢
  by_cases hfree : free = 0
  · rw [if_pos hfree] at hok
    cases hok
  rw [if_neg hfree] at hok ⊢
  simp only at hok ⊢
  cases hfirst : (cells.drop (cells.length / 2)).head? with
  | none =>
    rw [hfirst] at hok
    cases hok
  | some first =>
    simp only
    refine ⟨fun w hw => ?_, List.mem_cons_of_mem _ (List.mem_singleton_self _)⟩
    rcases List.mem_cons.mp hw with rfl | hw
    · show (cells.drop _).length ≤ leafMaxKeys
      rw [List.length_drop]
      omega
    · rw [List.mem_singleton.mp hw]
      show (cells.take _).length ≤ leafMaxKeys
      rw [List.length_take]
      omega

theorem splitInternalIfNeeded_fills {cells : List InternalCell} (hpos : 2 ≤ cells.length)
    (hlen : cells.length ≤ internalMaxKeys + 1)
    (hok : (splitInternalIfNeeded free next node lm cells).result = .ok a) :
    (∀ w ∈ (splitInternalIfNeeded free next node lm cells).writes, w.2.Filled) ∧
      node ∈ (splitInternalIfNeeded free next node lm cells).writes.map Prod.fst := by
  have hmax : internalMaxKeys = 4 := rfl
  unfold splitInternalIfNeeded at hok ⊢
  by_cases hfits : cells.length ≤ internalMaxKeys
  · rw [if_pos hfits]
    exact ⟨fun w hw => by rw [List.mem_singleton.mp hw]; exact ⟨hpos, hfits⟩,
      List.mem_singleton_self _⟩
  rw [if_neg hfits] at hok ⊢
  by_cases hfree : free = 0
  · rw [if_pos hfree] at hok
    cases hok
  rw [if_neg hfree] at hok ⊢
  simp only at hok ⊢
  cases hmiddle : cells[cells.length / 2]? with
  | none =>
    rw [hmiddle] at hok
    cases hok
  | some middle =>
    simp only
    refine ⟨fun w hw => ?_, List.mem_cons_of_mem _ (List.mem_singleton_self _)⟩
    -- five cells: two on each side of the one that goes up
    rcases List.mem_cons.mp hw with rfl | hw
    · show 2 ≤ (cells.drop _).length ∧ (cells.drop _).length ≤ internalMaxKeys
      rw [List.length_drop]
      omega
    · rw [List.mem_singleton.mp hw]
      show 2 ≤ (cells.take _).length ∧ (cells.take _).length ≤ internalMaxKeys
      rw [List.length_take]
      omega

theorem insertIntoLeaf_fills {cells : List LeafCell} {key : Int64} {value : Bytes}
    (hlen : cells.length ≤ leafMaxKeys)
    (hok : (insertIntoLeaf free next node chain cells key value).result = .ok a) :
    (∀ w ∈ (insertIntoLeaf free next node chain cells key value).writes, w.2.Filled) ∧
      node ∈ (insertIntoLeaf free next node chain cells key value).writes.map Prod.fst := by
  unfold insertIntoLeaf at hok ⊢
  simp only at hok ⊢
  by_cases hhit : cells[leafIndex cells key]?.map (·.key) = some key
  · rw [if_pos hhit]
    refine ⟨fun w hw => ?_, List.mem_singleton_self _⟩
    rw [List.mem_singleton.mp hw]
    show (cells.set _ _).length ≤ leafMaxKeys
    rw [List.length_set]
    exact hlen
  rw [if_neg hhit] at hok ⊢
  by_cases hcap : leafCapacity ≤ cells.length
  · rw [if_pos hcap] at hok
    cases hok
  rw [if_neg hcap] at hok ⊢
  refine splitLeafIfNeeded_fills ?_ hok
  rw [length_insertCell]
  omega

theorem insertSeparator_fills {idx : Nat} {split : SplitResult} (h : Fans σ root)
    (hok : (insertSeparator free node idx split σ next).result = .ok a) :
    (∀ w ∈ (insertSeparator free node idx split σ next).writes, w.2.Filled) ∧
      node ∈ (insertSeparator free node idx split σ next).writes.map Prod.fst := by
  unfold insertSeparator at hok ⊢
  cases hbody : σ node with
  | none =>
    rw [hbody] at hok
    cases hok
  | some body =>
    rw [hbody] at hok
    cases body with
    | internal lm cells =>
      obtain ⟨⟨hpos, hlen⟩, -⟩ := h node _ hbody
      simp only at hok ⊢
      by_cases hcap : internalCapacity ≤ cells.length
      · rw [if_pos hcap] at hok
        cases hok
      rw [if_neg hcap] at hok ⊢
      refine splitInternalIfNeeded_fills ?_ ?_ hok <;> rw [length_insertCell] <;> omega
    | _ => cases hok

theorem insertRecursive_fills {fuel : Nat} {key : Int64} {value : Bytes} (h : Fans σ root)
    (hok : (insertRecursive fuel free σ next node key value).result = .ok a) :
    (∀ w ∈ (insertRecursive fuel free σ next node key value).writes, w.2.Filled) ∧
      (a ≠ none →
        node ∈ (insertRecursive fuel free σ next node key value).writes.map Prod.fst) := by
  induction fuel generalizing free node a with
  | zero => cases hok
  | succ fuel ih =>
    cases free with
    | zero => cases hok
    | succ free =>
      rw [insertRecursive] at hok ⊢
      cases hbody : σ node with
      | none =>
        rw [hbody] at hok
        cases hok
      | some body =>
        rw [hbody] at hok
        cases body with
        | leaf chain cells =>
          obtain ⟨hw, hmem⟩ := insertIntoLeaf_fills (h node _ hbody).1 hok
          exact ⟨hw, fun _ => hmem⟩
        | internal lm cells =>
          simp only at hok ⊢
          set r := insertRecursive fuel free σ next (childAt lm cells (childIndex cells key)) key value
            with hr
          cases hres : r.result with
          | error e =>
            rw [Run.andThen_error hres] at hok
            cases hok
          | ok split =>
            obtain ⟨hw, -⟩ := ih hres
            rw [Run.andThen_ok hres] at hok ⊢
            cases split with
            | none =>
              obtain rfl : a = none := (Except.ok.inj hok).symm
              exact ⟨by simpa [Run.ret] using hw, fun hne => absurd rfl hne⟩
            | some split =>
              obtain ⟨hw', hmem⟩ := insertSeparator_fills (h.replay hw) hok
              refine ⟨fun w hmem => (List.mem_append.mp hmem).elim (hw w) (hw' w), fun _ => ?_⟩
              rw [List.map_append]
              exact List.mem_append_right _ hmem
        | _ => cases hok

/-- **`Insert` keeps nodes as full as they are to be.** -/
theorem insert_fans {poolSize : Nat} {register : PageId → PageStore → PageId → Run Unit}
    {key : Int64} {value : Bytes} (h : Fans σ root)
    (hregister : ∀ root' τ n, ∀ w ∈ (register root' τ n).writes, w.2.Filled)
    (hok : (insert poolSize register σ next root key value).result = .ok root') :
    Fans ((insert poolSize register σ next root key value).store σ) root' := by
  unfold insert at hok ⊢
  set r := insertRecursive (next + 1) poolSize σ next root key value with hr
  cases hres : r.result with
  | error e =>
    rw [Run.andThen_error hres] at hok
    cases hok
  | ok split =>
    obtain ⟨hw, hmem⟩ := insertRecursive_fills h hres
    rw [Run.andThen_ok hres] at hok ⊢
    cases split with
    | none =>
      obtain rfl : root = root' := Except.ok.inj hok
      exact h.replay (by simpa [Run.ret] using hw)
    | some split =>
      simp only at hok ⊢
      unfold newRoot at hok ⊢
      by_cases hfree : poolSize = 0
      · rw [if_pos hfree] at hok
        cases hok
      rw [if_neg hfree] at hok ⊢
      simp only [Run.andThen] at hok ⊢
      set r' := register r.next _ (r.next + 1) with hr'
      have hw'' : ∀ w ∈ r'.writes, w.2.Filled := hregister _ _ _
      cases hres' : r'.result with
      | error e =>
        rw [hres'] at hok
        cases hok
      | ok u =>
        rw [hres'] at hok
        obtain rfl : r.next = root' := Except.ok.inj hok
        simp only [Run.ret, List.append_nil]
        refine h.newRoot (fun w hw₀ hne => ?_) (fun w hw₀ => ?_) ?_
        · rcases List.mem_append.mp hw₀ with hw₀ | hw₀
          · exact hw w hw₀
          · rcases List.mem_cons.mp hw₀ with rfl | hw₀
            · exact absurd rfl hne
            · exact hw'' w hw₀
        · rcases List.mem_append.mp hw₀ with hw₀ | hw₀
          · exact PageBody.Filled.filledRoot (hw w hw₀)
          · rcases List.mem_cons.mp hw₀ with rfl | hw₀
            · exact ⟨Nat.le_refl 1, show 1 ≤ internalMaxKeys by decide⟩
            · exact PageBody.Filled.filledRoot (hw'' w hw₀)
        · rw [List.map_append]
          exact List.mem_append_left _ (hmem (Option.some_ne_none _))

/-- **`Delete` does.** -/
theorem delete_fans {key : Int64} (h : Fans σ root) :
    Fans ((delete σ next root key).store σ) root := by
  refine h.replay fun w hw => ?_
  unfold delete at hw
  split at hw
  · cases hw
  split at hw
  · next hleaf =>
    split at hw
    · cases hw
    · rw [List.mem_singleton.mp hw]
      exact (List.length_eraseIdx_le _ _).trans (h _ _ hleaf).1
  · cases hw

end OnStore

end

end Reldb
