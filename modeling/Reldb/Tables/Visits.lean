import Reldb.Tables.Keeps
import Reldb.Tables.Ready
import Reldb.Tree.Visits

/-!
# Reldb — the pages a catalog's reads visit

`ScanTable` visits the catalog page if the table's tree is not built yet, and what the tree's scan
visits; `EstimatedRowCount` visits the catalog page. Where these pages are not dirty, the call leaves the
catalog as it was, but for a tree it built, and its pool as silent visits do.
-/

namespace Reldb

open BufferPool

/-- What `readEntry` looks for on the catalog page. -/
def lookEntry (slot : Nat) : PageBody → Except Exn CatalogTableEntry
  | .catalog body =>
    match body.tables[slot]? with
    | some entry => .ok entry
    | none => .error .undefinedBehaviour
  | _ => .error .undefinedBehaviour

namespace Catalog

variable {cat cat' cat'' : Catalog} {live : List PageGuard} {V V' : List PageId} {slot : Nat}
  {handle : TableHandle} {name : Bytes} {α : Type}

/-- The root of the table at `slot`: the one its tree was built with, else the one on the catalog page. -/
def rootWalk (cat : Catalog) (slot : Nat) (handle : TableHandle) : Walk PageId PageBody Exn PageId :=
  match handle.tree with
  | some root => .done (.ok root)
  | none => (lookWalk cat.catalogPageId (lookEntry slot)).bind fun entry => .done (.ok entry.rootPageId)

/-- The handles of `cat'` are those of `cat`, but for trees built with the roots on the catalog page. -/
def Builds (cat cat' : Catalog) : Prop :=
  ∀ slot, cat'.tables[slot]? = cat.tables[slot]? ∨
    ∃ handle root, cat.tables[slot]? = some handle ∧ handle.tree = none ∧
      cat'.tables[slot]? = some { handle with tree := some root } ∧
      (cat.rootWalk slot handle).result cat.bufferPool.view = .ok root

/-- A call that only read the pages `V`. -/
structure Reads (live : List PageGuard) (V : List PageId) (cat cat' : Catalog) : Prop where
  catalogPageId_eq : cat'.catalogPageId = cat.catalogPageId
  builds : Builds cat cat'
  cached : Cached cat'.bufferPool live
  silent : Silent V cat.bufferPool cat'.bufferPool

theorem Builds.heads_eq (h : Builds cat cat') : cat'.heads = cat.heads := by
  refine List.ext_getElem? fun slot => ?_
  rw [heads, heads, List.getElem?_map, List.getElem?_map]
  rcases h slot with heq | ⟨handle, root, hget, -, hget', -⟩
  · rw [heq]
  · rw [hget, hget']
    rfl

theorem rootWalk_congr (hid : cat'.catalogPageId = cat.catalogPageId) (slot : Nat)
    (handle : TableHandle) : cat'.rootWalk slot handle = cat.rootWalk slot handle := by
  rw [rootWalk, rootWalk, hid]

theorem Reads.refl (h : Cached cat.bufferPool live) : Reads live V cat cat :=
  ⟨rfl, fun _ => .inl rfl, h, .refl _⟩

theorem Reads.mono (h : Reads live V cat cat') (hV : V ⊆ V') : Reads live V' cat cat' :=
  { h with silent := h.silent.mono hV }

theorem Reads.trans (h : Reads live V cat cat') (h' : Reads live V' cat' cat'') :
    Reads live (V ++ V') cat cat'' where
  catalogPageId_eq := h'.catalogPageId_eq.trans h.catalogPageId_eq
  builds slot := by
    rcases h'.builds slot with heq | ⟨handle, root, hget, htree, hget', hroot⟩
    · rw [heq]
      exact h.builds slot
    · rw [rootWalk_congr h.catalogPageId_eq, h.silent.view_eq] at hroot
      rcases h.builds slot with heq | ⟨handle₀, root₀, -, -, hget₀, -⟩
      · exact .inr ⟨handle, root, heq ▸ hget, htree, hget', hroot⟩
      · -- a tree once built is not built again
        obtain rfl := Option.some.inj (hget.symm.trans hget₀)
        cases htree
  cached := h'.cached
  silent := h.silent.trans h'.silent

end Catalog

end Reldb
