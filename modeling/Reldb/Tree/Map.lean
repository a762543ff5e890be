import Reldb.Tree.Construct

/-!
# Reldb — a tree is a sorted finite map

The abstract side is a map from keys to values, `KeyMap`, and what each operation answers on it. The
concrete side is the tree object. `Abstracts` ties the two: the tree is intact and holds exactly the
map's pairs. Every operation keeps it, so every run of operations on a fresh tree answers as the map
does.
-/

namespace Reldb

open WriteLog BufferPool

/-! ## The map -/

/-- A partial map from keys to values. -/
abbrev KeyMap := Int64 → Option Bytes

inductive TreeOp where
  | insert (key : Int64) (value : Bytes)
  | delete (key : Int64)
  | get (key : Int64)
  | rangeScan (low high : Int64)
  deriving DecidableEq, Repr

inductive TreeAnswer where
  | done
  | deleted (found : Bool)
  | value (value : Option Bytes)
  | rows (rows : List (Int64 × Bytes))
  deriving DecidableEq, Repr

/-- What an operation does to the map. -/
def TreeOp.apply (m : KeyMap) : TreeOp → KeyMap
  | .insert key value => Function.update m key (some value)
  | .delete key => Function.update m key none
  | .get _ => m
  | .rangeScan _ _ => m

/-- The pairs of the map within the bounds, each once, in strictly increasing key order. -/
structure IsScan (m : KeyMap) (low high : Int64) (rows : List (Int64 × Bytes)) : Prop where
  sorted : rows.Pairwise fun a b => a.1 < b.1
  mem : ∀ k v, (k, v) ∈ rows ↔ low ≤ k ∧ k ≤ high ∧ m k = some v

/-- What an operation that returned or threw did to the map. One that threw did nothing, but for an
`Insert` that put its pair in and then found no frame to split the leaf. -/
def TreeOp.settle (m : KeyMap) (op : TreeOp) : Except Exn TreeAnswer → KeyMap
  | .ok _ => op.apply m
  | .error e => if e = .exhaustedSplit then op.apply m else m

/-- What an operation answers on the map. -/
def TreeOp.Answers (m : KeyMap) : TreeOp → TreeAnswer → Prop
  | .insert _ _, a => a = .done
  | .delete key, a => a = .deleted (m key).isSome
  | .get key, a => a = .value (m key)
  | .rangeScan low high, a => ∃ rows, a = .rows rows ∧ IsScan m low high rows

/-- A run of operations answers as the map does. -/
def Conforms : KeyMap → List TreeOp → List (Except Exn TreeAnswer) → Prop
  | _, [], results => results = []
  | m, op :: ops, results => ∃ a rest, results = .ok a :: rest ∧ op.Answers m a ∧
      Conforms (op.apply m) ops rest

/-! ## The tree -/

/-- One method call. -/
def TreeOp.call : TreeOp → Prog BTree TreeAnswer
  | .insert key value => (fun _ => .done) <$> BTree.insert key value
  | .delete key => .deleted <$> BTree.delete key
  | .get key => .value <$> BTree.get key
  | .rangeScan low high => .rows <$> BTree.rangeScan low high

/-- What a call returned or threw, and the object it left. -/
def outcomeOf {σ α : Type} : EStateM.Result Exn σ α → Except Exn α × σ
  | .ok a s => (.ok a, s)
  | .error e s => (.error e, s)

/-- What a call returned or threw. -/
def TreeOp.result (t : BTree) (op : TreeOp) : Except Exn TreeAnswer := (outcomeOf (op.call t)).1

/-- The object a call left. -/
def TreeOp.after (t : BTree) (op : TreeOp) : BTree := (outcomeOf (op.call t)).2

/-- The results of a sequence of calls; an exception ends its call only. -/
def runTree : BTree → List TreeOp → List (Except Exn TreeAnswer)
  | _, [] => []
  | t, op :: ops => op.result t :: runTree (op.after t) ops

/-- The results of a sequence of calls on a tree constructed on `bp`. -/
def runNew (bp : BufferPool) (ops : List TreeOp) : List (Except Exn TreeAnswer) :=
  match BTree.new bp with
  | .ok t _ => runTree t ops
  | .error e _ => [.error e]

/-- The exceptions of an `Insert` that finds no frame. -/
def Exn.IsExhaustion (e : Exn) : Prop := e = .exhaustedInsert ∨ e = .exhaustedSplit

instance (e : Exn) : Decidable e.IsExhaustion := inferInstanceAs (Decidable (_ ∨ _))

/-- No call of a run threw for buffer-pool exhaustion. -/
def NoExhaustion (results : List (Except Exn TreeAnswer)) : Prop :=
  ∀ e, .error e ∈ results → ¬ e.IsExhaustion

/-- The values inserted fit a cell. -/
def TreeOp.Fits : TreeOp → Prop
  | .insert _ value => value.length ≤ valueSize
  | _ => True

instance : DecidablePred TreeOp.Fits
  | .insert _ value => inferInstanceAs (Decidable (value.length ≤ valueSize))
  | .delete _ => inferInstanceAs (Decidable True)
  | .get _ => inferInstanceAs (Decidable True)
  | .rangeScan _ _ => inferInstanceAs (Decidable True)

/-! ## The refinement -/

/-- The tree object holds exactly the map's pairs, in an intact tree. -/
structure Abstracts (base : Files) (t : BTree) (m : KeyMap) : Prop extends
    BTree.Standalone base t where
  tree : ∃ h, ∃ tree : Tree h, Intact t.bufferPool.view t.rootPageId tree ∧
    ∀ k v, m k = some v ↔ ⟨k, v⟩ ∈ tree.cells

/-- No leaf has outgrown the split threshold. -/
def BTree.Small (t : BTree) : Prop :=
  ∀ ls, Scans t.bufferPool.view t.rootPageId ls → ∀ l ∈ ls, l.cells.length ≤ leafMaxKeys

/-- What one call on a tree that holds `m` came to. -/
structure Stepped (base : Files) (t : BTree) (m : KeyMap) (op : TreeOp)
    (result : Except Exn TreeAnswer) (t' : BTree) : Prop where
  abstracts : Abstracts base t' (op.settle m result)
  answers : ∀ a, result = .ok a → op.Answers m a
  small : t.Small → (∃ a, result = .ok a) → t'.Small
  error : ∀ e, result = .error e → e.IsExhaustion ∨ (op.Fits → ¬ t.Small)

section

variable {base : Files} {t t' : BTree} {m : KeyMap} {op : TreeOp}

theorem Stepped.returned {a : TreeAnswer} (habs : Abstracts base t' (op.apply m))
    (ha : op.Answers m a) (hsmall : t.Small → t'.Small) : Stepped base t m op (.ok a) t' where
  abstracts := habs
  answers b hb := Except.ok.inj hb ▸ ha
  small hs _ := hsmall hs
  error e he := by cases he

theorem Stepped.threw {e : Exn} (habs : Abstracts base t' (op.settle m (.error e)))
    (he : e.IsExhaustion ∨ (op.Fits → ¬ t.Small)) : Stepped base t m op (.error e) t' where
  abstracts := habs
  answers a ha := by cases ha
  small _ h := by obtain ⟨a, ha⟩ := h; cases ha
  error e' he' := Except.error.inj he' ▸ he

/-- A tree without the key's old cell and with a new one holds the updated map. -/
theorem keyMap_upsert {cells cells' : List LeafCell} {key : Int64} {value : Bytes}
    (hm : ∀ k v, m k = some v ↔ ⟨k, v⟩ ∈ cells)
    (hmem : ∀ c, c ∈ cells' ↔ c = ⟨key, value⟩ ∨ (c ∈ cells ∧ c.key ≠ key)) (k : Int64)
    (v : Bytes) : Function.update m key (some value) k = some v ↔ ⟨k, v⟩ ∈ cells' := by
  rw [hmem]
  by_cases hk : k = key
  · subst hk
    simp [eq_comm]
  · rw [Function.update_of_ne hk, hm]
    simp [hk]

theorem keyMap_delete {cells cells' : List LeafCell} {key : Int64}
    (hm : ∀ k v, m k = some v ↔ ⟨k, v⟩ ∈ cells)
    (hmem : ∀ c, c ∈ cells' ↔ c ∈ cells ∧ c.key ≠ key) (k : Int64) (v : Bytes) :
    Function.update m key none k = some v ↔ ⟨k, v⟩ ∈ cells' := by
  rw [hmem]
  by_cases hk : k = key
  · subst hk
    simp
  · rw [Function.update_of_ne hk, hm]
    simp [hk]

theorem mem_rows {cells : List LeafCell} {k : Int64} {v : Bytes} (low high : Int64) :
    (k, v) ∈ (cells.filter fun c => decide (low ≤ c.key) && decide (c.key ≤ high)).map
        LeafCell.pair ↔ low ≤ k ∧ k ≤ high ∧ ⟨k, v⟩ ∈ cells := by
  simp only [List.mem_map, List.mem_filter, Bool.and_eq_true, decide_eq_true_eq, LeafCell.pair,
    Prod.mk.injEq]
  constructor
  · rintro ⟨⟨k', v'⟩, ⟨hc, hlow, hhigh⟩, rfl, rfl⟩
    exact ⟨hlow, hhigh, hc⟩
  · rintro ⟨hlow, hhigh, hc⟩
    exact ⟨⟨k, v⟩, ⟨hc, hlow, hhigh⟩, rfl, rfl⟩

/-- The leaves of an intact tree are the ones a scan visits. -/
theorem BTree.small_iff {h : Nat} {tree : Tree h}
    (hi : Intact t.bufferPool.view t.rootPageId tree) :
    t.Small ↔ ∀ l ∈ tree.leaves, l.cells.length ≤ leafMaxKeys :=
  ⟨fun hs => hs _ hi.scans, fun hs _ hls => hls.unique hi.scans ▸ hs⟩

theorem BTree.Small.lt_capacity {h : Nat} {tree : Tree h} (hs : t.Small)
    (hi : Intact t.bufferPool.view t.rootPageId tree) {l : Leaf} (hl : l ∈ tree.leaves) :
    l.cells.length < leafCapacity :=
  ((BTree.small_iff hi).mp hs l hl).trans_lt (by decide)

/-- A lookup that comes to `a` leaves the tree as it was. -/
theorem Abstracts.stepped_answers {α : Type} (h : Abstracts base t m)
    {p : Prog BTree α} {a : α} (hp : BTree.Answers base p t (.ok a)) (f : α → TreeAnswer)
    (hcall : op.call = f <$> p) (hanswer : op.Answers m (f a)) (happly : op.apply m = m) :
    Stepped base t m op (op.result t) (op.after t) := by
  obtain ⟨bp, hrun, hgood, hquiet⟩ := hp
  have hmap : op.call t = .ok (f a) (t.withPool bp) := by
    simp only [hcall, Functor.map, EStateM.map, hrun, Run.outcome]
  rw [TreeOp.result, TreeOp.after, hmap]
  refine .returned ?_ hanswer fun hs => ?_
  · rw [happly]
    refine ⟨⟨h.toReady.withPool hgood hquiet, h.callback, ?_⟩, ?_⟩
    · show bp.view t.metadataPageId = _
      rw [hquiet.view_eq]
      exact h.registered
    · show ∃ h, ∃ tree : Tree h, Intact bp.view t.rootPageId tree ∧ _
      rw [hquiet.view_eq]
      exact h.tree
  · show ∀ ls, Scans bp.view t.rootPageId ls → ∀ l ∈ ls, _
    rw [hquiet.view_eq]
    exact hs

theorem Abstracts.get_stepped (h : Abstracts base t m) (key : Int64) :
    Stepped base t m (.get key) (TreeOp.result t (.get key)) (TreeOp.after t (.get key)) := by
  obtain ⟨height, tree, hintact, hm⟩ := h.tree
  obtain ⟨r, hget, hr⟩ := hintact.get h.fresh key
  have hanswers := BTree.get_answers h.toReady key
  rw [hget] at hanswers
  have heq : r = m key := Option.ext fun v => (hr v).trans (hm key v).symm
  exact h.stepped_answers hanswers .value rfl (congrArg TreeAnswer.value heq) rfl

theorem Abstracts.rangeScan_stepped (h : Abstracts base t m) (low high : Int64) :
    Stepped base t m (.rangeScan low high) (TreeOp.result t (.rangeScan low high))
      (TreeOp.after t (.rangeScan low high)) := by
  obtain ⟨height, tree, hintact, hm⟩ := h.tree
  have hanswers := BTree.rangeScan_answers h.toReady low high
  rw [hintact.rangeScan h.fresh low high] at hanswers
  refine h.stepped_answers hanswers .rows rfl ⟨_, rfl, ?_, fun k v => ?_⟩ rfl
  · exact List.pairwise_map.mpr (hintact.holds.sorted.filter _)
  · rw [mem_rows, hm]

theorem Abstracts.delete_stepped (h : Abstracts base t m) (key : Int64) :
    Stepped base t m (.delete key) (TreeOp.result t (.delete key))
      (TreeOp.after t (.delete key)) := by
  obtain ⟨height, tree, hintact, hm⟩ := h.tree
  obtain ⟨found, hres, hfound, -, -, tree', hintact', -, hmem, hsmall⟩ :=
    hintact.delete h.fresh key
  obtain ⟨bp, hrun, hs⟩ := BTree.delete_run h.toReady key
  have hcall : TreeOp.call (.delete key) t = .ok (.deleted found) (t.withPool bp) := by
    simp only [TreeOp.call, Functor.map, EStateM.map, hrun, Run.outcome_ok hres]
  have hintact'' : Intact bp.view t.rootPageId tree' := by
    rw [hs.view_eq]
    exact hintact'
  rw [TreeOp.result, TreeOp.after, hcall]
  refine .returned ⟨h.toStandalone.after hs (h.delete_log key), height, tree', hintact'',
    keyMap_delete hm hmem⟩ ?_ fun hs' => ?_
  · refine congrArg TreeAnswer.deleted ?_
    rw [Bool.eq_iff_iff, hfound, Option.isSome_iff_exists]
    constructor
    · rintro ⟨⟨k, v⟩, hc, rfl⟩
      exact ⟨v, (hm k v).mpr hc⟩
    · rintro ⟨v, hv⟩
      exact ⟨_, (hm key v).mp hv, rfl⟩
  · exact (BTree.small_iff (t := t.withPool bp) hintact'').mpr
      (hsmall _ ((BTree.small_iff hintact).mp hs'))

theorem exhaustedInsert_ne : Exn.exhaustedInsert ≠ Exn.exhaustedSplit := by decide

/-- A value that does not fit a cell is rejected before anything is looked at. -/
theorem TreeOp.insert_tooLong {key : Int64} {value : Bytes} (hlong : valueSize < value.length) :
    TreeOp.call (.insert key value) t
      = .error (.invalidArgument (text "BTree::Insert: value exceeds VALUE_SIZE")) t := by
  simp only [TreeOp.call, Functor.map, EStateM.map, BTree.insert, hlong, if_true]
  rfl

theorem Abstracts.insert_stepped (h : Abstracts base t m) (key : Int64) (value : Bytes) :
    Stepped base t m (.insert key value) (TreeOp.result t (.insert key value))
      (TreeOp.after t (.insert key value)) := by
  by_cases hfits : valueSize < value.length
  · rw [TreeOp.result, TreeOp.after, TreeOp.insert_tooLong hfits]
    exact .threw h (.inr fun hfits' => absurd hfits' (Nat.not_le.mpr hfits))
  obtain ⟨height, tree, hintact, hm⟩ := h.tree
  obtain ⟨bp, hrun, hs⟩ := h.insert key (Nat.not_lt.mp hfits)
  have hstand := h.toStandalone.after hs (h.insert_log key value)
  rcases hintact.insert_single h.sound h.pool_pos h.fresh h.registered key value with
    ⟨e, hidle, he⟩ | ⟨height', tree', hin⟩
  · have hidle : t.insertRun key value = .fail t.bufferPool.next e := hidle
    have hcall : TreeOp.call (.insert key value) t = .error e (t.withPool bp) := by
      simp only [TreeOp.call, Functor.map, EStateM.map, hrun, BTree.afterInsert, hidle, Run.fail]
    have hne : e ≠ .exhaustedSplit := by
      rcases he with ⟨rfl, -⟩ | ⟨rfl, -⟩
      exacts [exhaustedInsert_ne, by rintro ⟨⟩]
    rw [TreeOp.result, TreeOp.after, hcall]
    refine .threw ?_ ?_
    · rw [TreeOp.settle, if_neg hne]
      rw [hidle] at hstand hs
      refine ⟨hstand, height, tree, ?_, hm⟩
      show Intact bp.view t.rootPageId tree
      rw [hs.view_eq]
      exact hintact
    · rcases he with ⟨rfl, -⟩ | ⟨-, l, hl, hcap⟩
      · exact .inl (.inl rfl)
      · exact .inr fun _ hsmall => absurd hcap (Nat.not_le.mpr (hsmall.lt_capacity hintact hl))
  · have hintact' : Intact bp.view (rootAfter t.rootPageId (t.insertRun key value)) tree' := by
      rw [hs.view_eq]
      exact hin.intact
    have habs : Abstracts base
        { t with bufferPool := bp, rootPageId := rootAfter t.rootPageId (t.insertRun key value) }
        (Function.update m key (some value)) :=
      ⟨hstand, height', tree', hintact', keyMap_upsert hm hin.mem⟩
    rcases hin.result with hok | ⟨herr, -⟩
    · have hok : (t.insertRun key value).result
          = .ok (rootAfter t.rootPageId (t.insertRun key value)) := hok
      have hcall : TreeOp.call (.insert key value) t = .ok .done { t with
          bufferPool := bp, rootPageId := rootAfter t.rootPageId (t.insertRun key value) } := by
        simp only [TreeOp.call, Functor.map, EStateM.map, hrun, BTree.afterInsert]
        rw [hok]
      rw [TreeOp.result, TreeOp.after, hcall]
      refine .returned habs rfl fun hsmall => ?_
      exact (BTree.small_iff (t := { t with bufferPool := bp, rootPageId := _ }) hintact').mpr
        (hin.small ⟨_, hok⟩ ((BTree.small_iff hintact).mp hsmall))
    · have herr : (t.insertRun key value).result = .error .exhaustedSplit := herr
      have hroot : rootAfter t.rootPageId (t.insertRun key value) = t.rootPageId :=
        rootAfter_error herr
      have hcall : TreeOp.call (.insert key value) t = .error .exhaustedSplit { t with
          bufferPool := bp, rootPageId := rootAfter t.rootPageId (t.insertRun key value) } := by
        rw [hroot]
        simp only [TreeOp.call, Functor.map, EStateM.map, hrun, BTree.afterInsert, herr]
        rfl
      rw [TreeOp.result, TreeOp.after, hcall]
      refine .threw ?_ (.inl (.inr rfl))
      rw [TreeOp.settle, if_pos rfl]
      exact habs

/-- **Step.** One call on a tree that holds the map answers as the map does and leaves the tree
holding the map the call settled. -/
theorem Abstracts.step (h : Abstracts base t m) (op : TreeOp) :
    Stepped base t m op (op.result t) (op.after t) := by
  cases op with
  | insert key value => exact h.insert_stepped key value
  | delete key => exact h.delete_stepped key
  | get key => exact h.get_stepped key
  | rangeScan low high => exact h.rangeScan_stepped low high

/-- **Run.** -/
theorem Abstracts.run (h : Abstracts base t m) (hsmall : t.Small) {ops : List TreeOp}
    (hfits : ∀ op ∈ ops, op.Fits) (hframes : NoExhaustion (runTree t ops)) :
    Conforms m ops (runTree t ops) := by
  induction ops generalizing t m with
  | nil => rfl
  | cons op ops ih =>
    have hstep := h.step op
    obtain ⟨a, ha⟩ : ∃ a, op.result t = .ok a := by
      cases hres : op.result t with
      | ok a => exact ⟨a, rfl⟩
      | error e =>
        rcases hstep.error e hres with hex | hbig
        · exact absurd hex (hframes e (by rw [runTree, hres]; exact List.mem_cons_self))
        · exact absurd hsmall (hbig (hfits op List.mem_cons_self))
    have habs := hstep.abstracts
    rw [ha] at habs
    refine ⟨a, _, by rw [runTree, ha], hstep.answers a ha, ih habs (hstep.small hsmall ⟨a, ha⟩)
      ?_ ?_⟩
    · exact fun op' hop' => hfits op' (List.mem_cons_of_mem _ hop')
    · exact fun e he => hframes e (List.mem_cons_of_mem _ he)

end

/-- A fresh tree holds the empty map. -/
theorem Abstracts.fresh {base : Files} {bp : BufferPool}
    (h : BTree.Standalone base ⟨bp, 0, none, 1⟩) (hview : bp.view = freshStore) :
    Abstracts base ⟨bp, 0, none, 1⟩ (fun _ => none) ∧ BTree.Small ⟨bp, 0, none, 1⟩ := by
  have hintact : Intact bp.view 1 (.leaf ⟨1, []⟩) := hview ▸ fresh_intact
  refine ⟨⟨h, 0, .leaf ⟨1, []⟩, hintact, fun k v => by simp⟩, ?_⟩
  refine (BTree.small_iff (t := ⟨bp, 0, none, 1⟩) hintact).mpr fun l hl => ?_
  rw [List.mem_singleton.mp hl]
  exact Nat.zero_le _

/-- **The tree refines a sorted finite map**: every run of calls on a tree freshly constructed on a
pool of two frames or more, with a log or without one, answers as the map does. -/
theorem tree_refines_map {poolSize : Nat} (hpool : 2 ≤ poolSize) {wal : Option WalManager}
    (hwal : wal = none ∨ wal = some (WalManager.new WalFile.empty)) {ops : List TreeOp}
    (hfits : ∀ op ∈ ops, op.Fits)
    (hframes : NoExhaustion
      (runNew (BufferPool.new poolSize (DiskManager.new DataFile.empty) wal) ops)) :
    Conforms (fun _ => none) ops
      (runNew (BufferPool.new poolSize (DiskManager.new DataFile.empty) wal) ops) := by
  obtain ⟨hgood, -⟩ := fresh_good poolSize hwal
  obtain ⟨bp, hnew, -, -, hview, hst⟩ := BTree.new_fresh hgood hpool rfl
  unfold runNew at hframes ⊢
  rw [hnew] at hframes ⊢
  obtain ⟨habs, hsmall⟩ := Abstracts.fresh hst hview
  exact habs.run hsmall hfits hframes

theorem tree_refines_map_upsert :
    Conforms (fun _ => none) [.insert 5 [1], .insert 5 [2], .delete 4, .rangeScan ⊥ ⊤, .get 5]
      [.ok .done, .ok .done, .ok (.deleted false), .ok (.rows [(5, [2])]),
        .ok (.value (some [2]))] := by
  have hrun : runNew (BufferPool.new 2 (DiskManager.new DataFile.empty) none)
      [.insert 5 [1], .insert 5 [2], .delete 4, .rangeScan ⊥ ⊤, .get 5]
      = [.ok .done, .ok .done, .ok (.deleted false), .ok (.rows [(5, [2])]),
        .ok (.value (some [2]))] := by decide +kernel
  rw [← hrun]
  refine tree_refines_map (le_refl 2) (.inl rfl) (by decide) ?_
  rw [hrun]
  simp [NoExhaustion]

end Reldb
