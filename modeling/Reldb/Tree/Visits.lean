import Reldb.Pool.Silent
import Reldb.Tree.Keeps

/-!
# Reldb — the pages a tree's reads visit

`Get` and `RangeScan` pin one page at a time, so each is a walk over the pages the pool shows. Where the
pages it visits are not dirty, the call leaves the tree as it was and its pool as silent visits do.
-/

namespace Reldb

open BufferPool

/-! ## The walks -/

/-- The loop of `RangeScan` along the leaf chain. -/
def scanLeavesWalk : Nat → Option PageId → Int64 → Int64 → Walk PageId PageBody Exn (List (Int64 × Bytes))
  | _, none, _, _ => .done (.ok [])
  | 0, some _, _, _ => .done (.error .divergence)
  | fuel + 1, some leafId, low, high =>
    .visit leafId .undefinedBehaviour fun
      | .leaf next cells =>
        let (hits, pastHigh) := scanCells low high cells
        (scanLeavesWalk fuel (if pastHigh then none else next) low high).bind fun rest =>
          .done (.ok (hits ++ rest))
      | _ => .done (.error .undefinedBehaviour)

/-- A page looked at once. -/
def lookWalk {α : Type} (pageId : PageId) (look : PageBody → Except Exn α) : Walk PageId PageBody Exn α :=
  .visit pageId .undefinedBehaviour fun body => .done (look body)

section

variable {α : Type} {pageId : PageId} {e : Exn}

theorem visitPage_bind (k : PageBody → Prog BufferPool α) :
    (visitPage pageId e >>= k) = (do
      let some guard ← fetchPage pageId | throw e
      let body ← guard.withGuard guard.page
      k body) := by
  funext bp
  rw [visitPage]
  cases hrun : fetchPage pageId bp with
  | error e' bp' =>
    rw [Prog.bind_error (Prog.bind_error hrun), Prog.bind_error hrun]
  | ok guard bp' =>
    rw [Prog.bind_ok hrun, bind_assoc, Prog.bind_ok hrun]
    cases guard with
    | none => rfl
    | some g => rfl

end

theorem scanLeaves_eq (fuel : Nat) (leaf : Option PageId) (low high : Int64) :
    scanLeaves fuel leaf low high = walkPages (scanLeavesWalk fuel leaf low high) := by
  induction fuel generalizing leaf with
  | zero => cases leaf <;> rfl
  | succ fuel ih =>
    cases leaf with
    | none => rfl
    | some leafId =>
      rw [scanLeavesWalk, walkPages, visitPage_bind, scanLeaves]
      refine bind_congr fun guard => ?_
      cases guard with
      | none => rfl
      | some g =>
        refine bind_congr fun body => ?_
        cases body with
        | leaf next cells =>
          simp only [walkPages_bind, ih]
          rfl
        | _ => rfl

namespace BTree

variable {t t' : BTree} {live : List PageGuard} {V : List PageId} {α : Type}

/-- A call that only read the pages `V`. -/
structure Reads (live : List PageGuard) (V : List PageId) (t t' : BTree) : Prop where
  same : t' = { t with bufferPool := t'.bufferPool }
  cached : Cached t'.bufferPool live
  silent : Silent V t.bufferPool t'.bufferPool

end BTree

end Reldb
