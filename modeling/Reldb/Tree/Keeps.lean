import Reldb.Pool.Keeps
import Reldb.Tree.Map

/-!
# Reldb — the tree's methods as users of the pool

Every method of a `BTree` leaves the guards as it found them, on whatever pages, of whatever size the pool
is and whether it returns or throws.
-/

namespace Reldb

namespace BufferPool

variable {live : List PageGuard} {g : PageGuard}

theorem Keeps.splitLeafIfNeeded (hg : g ∈ live) : Keeps live (splitLeafIfNeeded g) := by
  unfold Reldb.splitLeafIfNeeded
  refine (Keeps.page g).bind fun body => ?_
  cases body with
  | leaf next cells =>
    refine .ite (.pure _) (.newPage (.throw _) fun r bp h hd => ?_)
    apply After.withGuard
    refine h.split List.mem_cons_self (List.mem_cons_of_mem _ hg) hd _ _ ?_
    cases (cells.drop (cells.length / 2)).head? with
    | none => exact .throw _
    | some first => exact .pure _
  | _ => exact .throw _

theorem Keeps.splitInternalIfNeeded (hg : g ∈ live) : Keeps live (splitInternalIfNeeded g) := by
  unfold Reldb.splitInternalIfNeeded
  refine (Keeps.page g).bind fun body => ?_
  cases body with
  | internal leftmostChild cells =>
    refine .ite (.pure _) (.newPage (.throw _) fun r bp h hd => ?_)
    apply After.withGuard
    simp only
    cases cells[cells.length / 2]? with
    | none => exact Keeps.throw _ _ h
    | some middle => exact h.split List.mem_cons_self (List.mem_cons_of_mem _ hg) hd _ _ (.pure _)
  | _ => exact .throw _

theorem Keeps.insertIntoLeaf (hg : g ∈ live) (next : Option PageId) (cells : List LeafCell)
    (key : Int64) (value : Bytes) : Keeps live (insertIntoLeaf g next cells key value) := by
  refine .ite (.write_then hg _ (.pure _)) (.ite (.throw _) ?_)
  exact .write_then hg _ (.splitLeafIfNeeded hg)

theorem Keeps.insertSeparator (hg : g ∈ live) (idx : Nat) (split : SplitResult) :
    Keeps live (insertSeparator g idx split) := by
  unfold Reldb.insertSeparator
  refine (Keeps.page g).bind fun body => ?_
  cases body with
  | internal leftmostChild cells =>
    exact .ite (.throw _) (.write_then hg _ (.splitInternalIfNeeded hg))
  | _ => exact .throw _

/-- The recursion holds one guard more at each level. -/
theorem Keeps.insertRecursive (fuel : Nat) (nodeId : PageId) (key : Int64) (value : Bytes) :
    Keeps live (insertRecursive fuel nodeId key value) := by
  induction fuel generalizing live nodeId with
  | zero => exact .throw _
  | succ fuel ih =>
    refine .fetchPage (.throw _) fun g bp h => ?_
    have hg : g ∈ g :: live := List.mem_cons_self
    apply After.withGuard
    refine (Keeps.page g).bind (fun body => ?_) bp h
    cases body with
    | leaf next cells => exact .insertIntoLeaf hg next cells key value
    | internal leftmostChild cells =>
      refine (ih _).bind fun split => ?_
      cases split with
      | none => exact .pure _
      | some split => exact .insertSeparator hg _ split
    | _ => exact .throw _

theorem Keeps.findLeafPageId (fuel : Nat) (cur : PageId) (key : Int64) :
    Keeps live (findLeafPageId fuel cur key) := by
  induction fuel generalizing cur with
  | zero => exact .throw _
  | succ fuel ih =>
    refine .fetchPage (.throw _) fun g bp h => ?_
    have hpage : (g.withGuard g.page).After bp (Cached · live) := After.withGuard (Keeps.page g bp h)
    refine hpage.bind (fun _ h' => h') fun body bp' _ h' => ?_
    cases body with
    | leaf next cells => exact h'
    | internal leftmostChild cells => exact ih _ bp' h'
    | _ => exact h'

theorem Keeps.scanLeaves (fuel : Nat) (leaf : Option PageId) (low high : Int64) :
    Keeps live (scanLeaves fuel leaf low high) := by
  induction fuel generalizing leaf with
  | zero =>
    cases leaf with
    | none => exact .pure _
    | some leafId => exact .throw _
  | succ fuel ih =>
    cases leaf with
    | none => exact .pure _
    | some leafId =>
      refine .fetchPage (.throw _) fun g bp h => ?_
      have hpage : (g.withGuard g.page).After bp (Cached · live) :=
        After.withGuard (Keeps.page g bp h)
      refine hpage.bind (fun _ h' => h') fun body bp' _ h' => ?_
      cases body with
      | leaf next cells => exact (ih _).bind (fun rest => .pure _) bp' h'
      | _ => exact h'

theorem Keeps.newRoot (oldRoot : PageId) (split : SplitResult) :
    Keeps live (BTree.newRoot oldRoot split) := by
  refine .newPage (.throw _) fun g bp h _ => ?_
  apply After.withGuard
  exact Keeps.write_then List.mem_cons_self _ (.pure _) bp h

theorem Keeps.writeMetadata (metadataPageId newRoot : PageId) :
    Keeps live (BTree.writeMetadata metadataPageId newRoot) := by
  refine .fetchPage (.throw _) fun g bp h => ?_
  apply After.withGuard
  refine (Keeps.page g).bind (fun body => ?_) bp h
  cases body with
  | metadata root => exact .write List.mem_cons_self _
  | _ => exact .throw _

theorem Keeps.construct : Keeps live BTree.construct := by
  intro bp h
  have hget : (MonadState.get : Prog BufferPool BufferPool) bp = .ok bp bp := rfl
  unfold BTree.construct
  rw [Prog.After, Prog.bind_ok hget]
  by_cases hcount : bp.diskPageCount = 0
  · rw [if_pos hcount]
    refine Keeps.newPage (.throw _) (fun m bp h hd => ?_) bp h
    apply After.withGuard
    -- the metadata page is overwritten before it is marked dirty, which it is from the start
    refine (h.write_dirty List.mem_cons_self hd _).bind (fun _ h' => h') fun _ bp' _ h' => ?_
    refine Keeps.newPage (.throw _) (fun r bp h _ => ?_) bp' h'
    apply After.withGuard
    refine Keeps.write_then List.mem_cons_self _ ?_ bp h
    exact .write_then (List.mem_cons_of_mem _ List.mem_cons_self) _ (.pure _)
  · rw [if_neg hcount]
    refine Keeps.fetchPage (.throw _) (fun g bp h => ?_) bp h
    apply After.withGuard
    refine (Keeps.page g).bind (fun body => ?_) bp h
    cases body with
    | metadata root => exact .pure _
    | _ => exact .throw _

end BufferPool

open BufferPool

namespace BTree

/-- A tree object beside the guards `live`. -/
structure Pooled (live : List PageGuard) (t : BTree) : Prop where
  cached : Cached t.bufferPool live
  callback : ∀ callback, t.onRootChanged = some callback → ∀ root, Keeps live (callback root)

section

variable {α β : Type} {live : List PageGuard} {t : BTree} {p : Prog BTree α} {f : α → Prog BTree β}

/-- The program leaves a tree object beside the same guards. -/
def Keeps (live : List PageGuard) (p : Prog BTree α) : Prop :=
  ∀ t, t.Pooled live → p.After t (Pooled live)

theorem Keeps.pure (a : α) : Keeps live (Pure.pure a : Prog BTree α) := fun _ h => h

theorem Keeps.throw (e : Exn) : Keeps live (MonadExcept.throw e : Prog BTree α) := fun _ h => h

theorem Keeps.bind (hp : Keeps live p) (hf : ∀ a, Keeps live (f a)) : Keeps live (p >>= f) :=
  fun t h => (hp t h).bind (fun _ h' => h') fun a t' _ h' => hf a t' h'

theorem Keeps.map (hp : Keeps live p) (f : α → β) : Keeps live (f <$> p) := by
  rw [← bind_pure_comp]
  exact hp.bind fun a => .pure _

theorem Keeps.get {k : BTree → Prog BTree α} (hk : ∀ t, t.Pooled live → (k t).After t (Pooled live)) :
    Keeps live (MonadState.get >>= k) := fun t h => hk t h

theorem Keeps.onPool {p : Prog BufferPool α} (hp : BufferPool.Keeps live p) :
    Keeps live (onPool p) := by
  intro t h
  have hpool := hp t.bufferPool h.cached
  unfold Prog.After BTree.onPool at *
  cases hrun : p t.bufferPool with
  | ok a bp =>
    rw [hrun] at hpool
    exact ⟨hpool, h.callback⟩
  | error e bp =>
    rw [hrun] at hpool
    exact ⟨hpool, h.callback⟩

theorem Keeps.findLeaf (key : Int64) : Keeps live (findLeaf key) :=
  .get fun t h => Keeps.onPool (.findLeafPageId _ _ key) t h

theorem Keeps.insert (key : Int64) (value : Bytes) : Keeps live (insert key value) := by
  unfold BTree.insert
  intro t h
  by_cases hsize : valueSize < value.length
  · rw [if_pos hsize]
    exact h
  rw [if_neg hsize]
  refine Keeps.get (fun t h => ?_) t h
  refine (Keeps.onPool (.insertRecursive _ _ key value)).bind (fun split => ?_) t h
  cases split with
  | none => exact .pure _
  | some split =>
    refine (Keeps.onPool (.newRoot _ split)).bind fun newRootId t' h' => ?_
    have h'' : Pooled live { t' with rootPageId := newRootId } := ⟨h'.cached, h'.callback⟩
    rw [Prog.After, Prog.bind_ok (Prog.modify_run _ _)]
    cases hcb : t.onRootChanged with
    | none => exact Keeps.onPool (.writeMetadata _ _) _ h''
    | some callback => exact Keeps.onPool (h.callback callback hcb newRootId) _ h''

theorem Keeps.get_call (key : Int64) : Keeps live (BTree.get key) := by
  refine (Keeps.findLeaf key).bind fun leafId => .onPool (.fetchPage (.throw _) fun g bp h => ?_)
  apply After.withGuard
  refine (BufferPool.Keeps.page g).bind (fun body => ?_) bp h
  cases body with
  | leaf next cells => exact .pure _
  | _ => exact .throw _

theorem Keeps.delete (key : Int64) : Keeps live (BTree.delete key) := by
  refine (Keeps.findLeaf key).bind fun leafId => .onPool (.fetchPage (.throw _) fun g bp h => ?_)
  apply After.withGuard
  refine (BufferPool.Keeps.page g).bind (fun body => ?_) bp h
  cases body with
  | leaf next cells =>
    simp only
    cases cells.findIdx? (·.key == key) with
    | none => exact .pure _
    | some i => exact .write_then List.mem_cons_self _ (.pure _)
  | _ => exact .throw _

theorem Keeps.rangeScan (low high : Int64) : Keeps live (BTree.rangeScan low high) := by
  unfold BTree.rangeScan
  intro t h
  by_cases hlow : high < low
  · rw [if_pos hlow]
    exact h
  rw [if_neg hlow]
  exact (Keeps.findLeaf low).bind (fun leafId =>
    .get fun t h => Keeps.onPool (.scanLeaves _ _ low high) t h) t h

/-- **Every call gives back the pins it took.** -/
theorem Keeps.call (op : TreeOp) : Keeps live op.call := by
  cases op with
  | insert key value => exact (Keeps.insert key value).map _
  | delete key => exact (Keeps.delete key).map _
  | get key => exact (Keeps.get_call key).map _
  | rangeScan low high => exact (Keeps.rangeScan low high).map _

theorem Pooled.after (h : t.Pooled live) (op : TreeOp) : (op.after t).Pooled live := by
  have hcall := Keeps.call op t h
  rw [Prog.After] at hcall
  rw [TreeOp.after]
  cases hrun : op.call t with
  | ok a t' =>
    rw [hrun] at hcall
    exact hcall
  | error e t' =>
    rw [hrun] at hcall
    exact hcall

end

end BTree

end Reldb
