import Reldb.BTree
import Reldb.Pool.Invariant

/-!
# Reldb — the B+tree's methods over a store of pages

What the tree's methods amount to once the buffer pool is out of the picture: each reads a
`PageStore` and comes to a `Run`, that is a result, the page writes it made **in the order they
reach the log**, and the next free page id. The order is the one guard destruction gives: a new
right sibling first, then the page it was split from, then their parent.

`free` is the number of frames no guard pins when the method starts; it is all a method can see of
the pool. `Reldb.Tree.Refine` proves the methods of `Reldb.BTree` equal to these.
-/

namespace Reldb

open WriteLog

/-- What running a method over a store of pages comes to. -/
structure Run (α : Type) where
  result : Except Exn α
  writes : List PageWrite
  next : PageId

namespace Run

variable {α β : Type}

/-- Return without writing. -/
def ret (next : PageId) (a : α) : Run α := ⟨.ok a, [], next⟩

/-- Throw without writing. -/
def fail (next : PageId) (e : Exn) : Run α := ⟨.error e, [], next⟩

/-- The store a run leaves behind. -/
def store (r : Run α) (σ : PageStore) : PageStore := replay σ r.writes

/-- Go on with `f` when the run returned, on the store and the page counter it left. -/
def andThen (r : Run α) (σ : PageStore) (f : α → PageStore → PageId → Run β) : Run β :=
  match r.result with
  | .error e => ⟨.error e, r.writes, r.next⟩
  | .ok a =>
    let r' := f a (r.store σ) r.next
    ⟨r'.result, r.writes ++ r'.writes, r'.next⟩

theorem andThen_error {r : Run α} {e : Exn} (h : r.result = .error e) (σ : PageStore)
    (f : α → PageStore → PageId → Run β) : r.andThen σ f = ⟨.error e, r.writes, r.next⟩ := by
  simp only [andThen, h]

theorem andThen_ok {r : Run α} {a : α} (h : r.result = .ok a) (σ : PageStore)
    (f : α → PageStore → PageId → Run β) : r.andThen σ f =
      ⟨(f a (r.store σ) r.next).result, r.writes ++ (f a (r.store σ) r.next).writes,
        (f a (r.store σ) r.next).next⟩ := by
  simp only [andThen, h]

end Run

namespace OnStore

/-! ## Insert -/

def splitLeafIfNeeded (free : Nat) (next node : PageId) (chain : Option PageId)
    (cells : List LeafCell) : Run (Option SplitResult) :=
  if cells.length ≤ leafMaxKeys then
    ⟨.ok none, [(node, .leaf chain cells)], next⟩
  else if free = 0 then
    ⟨.error (.runtimeError (text "BTree: buffer pool exhausted during split")),
      [(node, .leaf chain cells)], next⟩
  else
    let splitPoint := cells.length / 2
    match (cells.drop splitPoint).head? with
    | none => .fail next .undefinedBehaviour
    | some first =>
      ⟨.ok (some ⟨first.key, next⟩),
        [(next, .leaf chain (cells.drop splitPoint)),
          (node, .leaf (some next) (cells.take splitPoint))],
        next + 1⟩

def splitInternalIfNeeded (free : Nat) (next node leftmostChild : PageId)
    (cells : List InternalCell) : Run (Option SplitResult) :=
  if cells.length ≤ internalMaxKeys then
    ⟨.ok none, [(node, .internal leftmostChild cells)], next⟩
  else if free = 0 then
    ⟨.error (.runtimeError (text "BTree: buffer pool exhausted during split")),
      [(node, .internal leftmostChild cells)], next⟩
  else
    let splitPoint := cells.length / 2
    match cells[splitPoint]? with
    | none => .fail next .undefinedBehaviour
    | some middle =>
      ⟨.ok (some ⟨middle.key, next⟩),
        [(next, .internal middle.child (cells.drop (splitPoint + 1))),
          (node, .internal leftmostChild (cells.take splitPoint))],
        next + 1⟩

def insertIntoLeaf (free : Nat) (next node : PageId) (chain : Option PageId)
    (cells : List LeafCell) (key : Int64) (value : Bytes) : Run (Option SplitResult) :=
  let idx := leafIndex cells key
  if cells[idx]?.map (·.key) = some key then
    ⟨.ok none, [(node, .leaf chain (cells.set idx ⟨key, value⟩))], next⟩
  else if leafCapacity ≤ cells.length then
    .fail next .undefinedBehaviour
  else
    splitLeafIfNeeded free next node chain (insertCell cells idx ⟨key, value⟩)

def insertSeparator (free : Nat) (node : PageId) (idx : Nat) (split : SplitResult)
    (σ : PageStore) (next : PageId) : Run (Option SplitResult) :=
  match σ node with
  | some (.internal leftmostChild cells) =>
    if internalCapacity ≤ cells.length then
      .fail next .undefinedBehaviour
    else
      splitInternalIfNeeded free next node leftmostChild
        (insertCell cells idx ⟨split.promotedKey, split.newRightPageId⟩)
  | _ => .fail next .undefinedBehaviour

def insertRecursive : Nat → Nat → PageStore → PageId → PageId → Int64 → Bytes →
    Run (Option SplitResult)
  | 0, _, _, next, _, _, _ => .fail next .divergence
  | _ + 1, 0, _, next, _, _, _ =>
    .fail next (.runtimeError (text "BTree::Insert: buffer pool exhausted"))
  | fuel + 1, free + 1, σ, next, node, key, value =>
    match σ node with
    | some (.leaf chain cells) => insertIntoLeaf free next node chain cells key value
    | some (.internal leftmostChild cells) =>
      let idx := childIndex cells key
      (insertRecursive fuel free σ next (childAt leftmostChild cells idx) key value).andThen σ
        fun split σ next =>
          match split with
          | none => .ret next none
          | some split => insertSeparator free node idx split σ next
    | _ => .fail next .undefinedBehaviour

def newRoot (free : Nat) (next oldRoot : PageId) (split : SplitResult) : Run PageId :=
  if free = 0 then
    .fail next (.runtimeError (text "BTree::Insert: buffer pool exhausted"))
  else
    ⟨.ok next, [(next, .internal oldRoot [⟨split.promotedKey, split.newRightPageId⟩])], next + 1⟩

def writeMetadata (metadataPageId newRoot next : PageId) : Run Unit :=
  ⟨.ok (), [(metadataPageId, .metadata newRoot)], next⟩

/-- `Insert` with the root's registration left open; returns the root it ends with. -/
def insert (poolSize : Nat) (register : PageId → PageStore → PageId → Run Unit)
    (σ : PageStore) (next root : PageId) (key : Int64) (value : Bytes) : Run PageId :=
  (insertRecursive (next + 1) poolSize σ next root key value).andThen σ fun split σ next =>
    match split with
    | none => .ret next root
    | some split =>
      (newRoot poolSize next root split).andThen σ fun newRootId σ next =>
        (register newRootId σ next).andThen σ fun _ _ next => .ret next newRootId

/-! ## Descent, scan and delete -/

def findLeafPageId : Nat → PageStore → PageId → Int64 → Except Exn PageId
  | 0, _, _, _ => .error .divergence
  | fuel + 1, σ, cur, key =>
    match σ cur with
    | some (.leaf ..) => .ok cur
    | some (.internal leftmostChild cells) =>
      findLeafPageId fuel σ (childAt leftmostChild cells (childIndex cells key)) key
    | _ => .error .undefinedBehaviour

def scanLeaves : Nat → PageStore → Option PageId → Int64 → Int64 →
    Except Exn (List (Int64 × Bytes))
  | _, _, none, _, _ => .ok []
  | 0, _, some _, _, _ => .error .divergence
  | fuel + 1, σ, some leafId, low, high =>
    match σ leafId with
    | some (.leaf next cells) =>
      let (hits, pastHigh) := scanCells low high cells
      (scanLeaves fuel σ (if pastHigh then none else next) low high).map (hits ++ ·)
    | _ => .error .undefinedBehaviour

def rangeScan (σ : PageStore) (next root : PageId) (low high : Int64) :
    Except Exn (List (Int64 × Bytes)) :=
  if high < low then .ok []
  else
    (findLeafPageId (next + 1) σ root low).bind fun leafId =>
      scanLeaves (next + 1) σ (some leafId) low high

def get (σ : PageStore) (next root : PageId) (key : Int64) : Except Exn (Option Bytes) :=
  (findLeafPageId (next + 1) σ root key).bind fun leafId =>
    match σ leafId with
    | some (.leaf _ cells) => .ok ((cells.find? (·.key == key)).map (·.value))
    | _ => .error .undefinedBehaviour

def delete (σ : PageStore) (next root : PageId) (key : Int64) : Run Bool :=
  match findLeafPageId (next + 1) σ root key with
  | .error e => .fail next e
  | .ok leafId =>
    match σ leafId with
    | some (.leaf chain cells) =>
      match cells.findIdx? (·.key == key) with
      | none => .ret next false
      | some i => ⟨.ok true, [(leafId, .leaf chain (cells.eraseIdx i))], next⟩
    | _ => .fail next .undefinedBehaviour

end OnStore

end Reldb
