import Reldb.Tree.Sound

/-!
# Reldb — cells of a sorted leaf

Where `leafIndex` points in a sorted list of cells, and what overwriting, inserting, deleting and
halving at that place do to it. Everything is said through one decomposition: the cells below a key,
perhaps the key's own cell, and the cells above it.
-/

namespace Reldb

theorem SortedCells.append_iff {A B : List LeafCell} : SortedCells (A ++ B) ↔
    SortedCells A ∧ SortedCells B ∧ ∀ a ∈ A, ∀ b ∈ B, a.key < b.key :=
  List.pairwise_append

theorem SortedCells.take {cells : List LeafCell} (h : SortedCells cells) (n : Nat) :
    SortedCells (cells.take n) := h.sublist (List.take_sublist n cells)

theorem SortedCells.drop {cells : List LeafCell} (h : SortedCells cells) (n : Nat) :
    SortedCells (cells.drop n) := h.sublist (List.drop_sublist n cells)

/-- Two cells of one sorted leaf with the same key are the same cell. -/
theorem SortedCells.eq_of_key_eq {cells : List LeafCell} (h : SortedCells cells) {a b : LeafCell}
    (ha : a ∈ cells) (hb : b ∈ cells) (heq : a.key = b.key) : a = b := by
  induction cells with
  | nil => cases ha
  | cons c cs ih =>
    obtain ⟨hhead, htail⟩ := List.pairwise_cons.mp h
    rcases List.mem_cons.mp ha with hac | ha <;> rcases List.mem_cons.mp hb with hbc | hb
    · rw [hac, hbc]
    · exact absurd heq (hac ▸ (hhead b hb)).ne
    · exact absurd heq (hbc ▸ (hhead a ha)).ne'
    · exact ih htail ha hb

/-- Putting a key's cell between the cells below it and those above it. -/
theorem sortedCells_around {A B : List LeafCell} {c : LeafCell} (hA : SortedCells A)
    (hB : SortedCells B) (hlt : ∀ a ∈ A, a.key < c.key) (hgt : ∀ b ∈ B, c.key < b.key) :
    SortedCells (A ++ c :: B) := by
  refine SortedCells.append_iff.mpr ⟨hA, List.pairwise_cons.mpr ⟨hgt, hB⟩, fun a ha b hb => ?_⟩
  rcases List.mem_cons.mp hb with rfl | hb
  · exact hlt a ha
  · exact (hlt a ha).trans (hgt b hb)

/-- The cells below `key` and the cells above it. -/
structure Around (cells : List LeafCell) (key : Int64) (A B : List LeafCell) : Prop where
  lt : ∀ c ∈ A, c.key < key
  gt : ∀ c ∈ B, key < c.key
  sorted_left : SortedCells A
  sorted_right : SortedCells B
  mem : ∀ c ∈ cells, c.key ≠ key → c ∈ A ∨ c ∈ B
  left_sub : ∀ c ∈ A, c ∈ cells
  right_sub : ∀ c ∈ B, c ∈ cells

namespace Around

variable {cells A B : List LeafCell} {key : Int64}

theorem sorted (h : Around cells key A B) (value : Bytes) :
    SortedCells (A ++ ⟨key, value⟩ :: B) :=
  sortedCells_around h.sorted_left h.sorted_right h.lt h.gt

/-- The cells around a new cell are the old ones with another key. -/
theorem mem_around (h : Around cells key A B) {value : Bytes} {c : LeafCell} :
    c ∈ A ++ ⟨key, value⟩ :: B ↔ c = ⟨key, value⟩ ∨ (c ∈ cells ∧ c.key ≠ key) := by
  simp only [List.mem_append, List.mem_cons]
  constructor
  · rintro (hc | rfl | hc)
    · exact .inr ⟨h.left_sub c hc, (h.lt c hc).ne⟩
    · exact .inl rfl
    · exact .inr ⟨h.right_sub c hc, (h.gt c hc).ne'⟩
  · rintro (rfl | ⟨hc, hne⟩)
    · exact .inr (.inl rfl)
    · exact (h.mem c hc hne).imp_right .inr

end Around

/-- **What `leafIndex` finds.** Either the key's cell stands there, and overwriting it, or the key
is absent, and shifting a cell in, puts the new cell between those below and those above. -/
theorem leafIndex_spec {cells : List LeafCell} (h : SortedCells cells) (key : Int64) :
    ∃ A B, Around cells key A B ∧
      ((∃ old : LeafCell, old.key = key ∧ cells = A ++ old :: B ∧
          cells[leafIndex cells key]?.map (·.key) = some key ∧
          ∀ c, cells.set (leafIndex cells key) c = A ++ c :: B) ∨
        (cells = A ++ B ∧ cells[leafIndex cells key]?.map (·.key) ≠ some key ∧
          ∀ c, insertCell cells (leafIndex cells key) c = A ++ c :: B)) := by
  set A := cells.takeWhile (·.key < key) with hA
  set D := cells.dropWhile (·.key < key) with hD
  have happ : cells = A ++ D := (List.takeWhile_append_dropWhile).symm
  have hidx : leafIndex cells key = A.length := rfl
  have hlt : ∀ c ∈ A, c.key < key := fun c hc => by
    have := List.all_eq_true.mp List.all_takeWhile c hc
    simpa using this
  obtain ⟨hsA, hsD, -⟩ := SortedCells.append_iff.mp (happ ▸ h)
  cases hcase : D with
  | nil =>
    rw [hcase, List.append_nil] at happ
    refine ⟨A, [], ⟨hlt, by simp, hsA, .nil, fun c hc _ => .inl (happ ▸ hc),
      fun c hc => happ ▸ hc, by simp⟩, .inr ⟨by simpa using happ, ?_, fun c => ?_⟩⟩
    · rw [hidx, ← happ]; simp
    · rw [insertCell, hidx, ← happ]; simp
  | cons d ds =>
    have hd : key ≤ d.key := by
      have := List.head?_dropWhile_not (fun c : LeafCell => decide (c.key < key)) cells
      rw [← hD, hcase] at this
      simpa using this
    rw [hcase] at happ hsD
    obtain ⟨hds, hsds⟩ := List.pairwise_cons.mp hsD
    have hget : cells[A.length]? = some d := by rw [happ]; simp
    rcases hd.eq_or_lt with heq | hgt
    · refine ⟨A, ds, ⟨hlt, fun c hc => heq ▸ hds c hc, hsA, hsds, ?_, ?_, ?_⟩,
        .inl ⟨d, heq.symm, happ, ?_, fun c => ?_⟩⟩
      · intro c hc hne
        rw [happ] at hc
        rcases List.mem_append.mp hc with hc | hc
        · exact .inl hc
        · exact .inr (List.mem_of_ne_of_mem (fun hcd => hne (hcd ▸ heq.symm)) hc)
      · exact fun c hc => happ ▸ List.mem_append_left _ hc
      · exact fun c hc => happ ▸ List.mem_append_right _ (List.mem_cons_of_mem _ hc)
      · rw [hidx, hget, Option.map_some, ← heq]
      · rw [hidx, happ, List.set_append_right _ _ le_rfl]
        simp
    · refine ⟨A, d :: ds, ⟨hlt, ?_, hsA, hsD, ?_, ?_, ?_⟩, .inr ⟨happ, ?_, fun c => ?_⟩⟩
      · intro c hc
        rcases List.mem_cons.mp hc with rfl | hc
        · exact hgt
        · exact hgt.trans (hds c hc)
      · exact fun c hc _ => List.mem_append.mp (happ ▸ hc)
      · exact fun c hc => happ ▸ List.mem_append_left _ hc
      · exact fun c hc => happ ▸ List.mem_append_right _ hc
      · rw [hidx, hget, Option.map_some]
        exact fun heq => hgt.ne' (Option.some.inj heq)
      · rw [insertCell, hidx, happ, List.take_left, List.drop_left]

/-- Halving a sorted leaf: the right half starts above everything in the left. -/
theorem SortedCells.halves {cells : List LeafCell} (h : SortedCells cells)
    (hlen : leafMaxKeys < cells.length) : ∃ first rest,
      cells.drop (cells.length / 2) = first :: rest ∧ (∃ c ∈ cells, c.key < first.key) ∧
      (∀ c ∈ cells.take (cells.length / 2), c.key < first.key) ∧
      ∀ c ∈ cells.drop (cells.length / 2), first.key ≤ c.key := by
  have hmax : leafMaxKeys = 4 := rfl
  cases hdrop : cells.drop (cells.length / 2) with
  | nil =>
    rw [List.drop_eq_nil_iff] at hdrop
    omega
  | cons first rest =>
    have happ : cells = cells.take (cells.length / 2) ++ first :: rest := by
      rw [← hdrop, List.take_append_drop]
    obtain ⟨-, hright, hcross⟩ := SortedCells.append_iff.mp (happ ▸ h)
    have hlt : ∀ c ∈ cells.take (cells.length / 2), c.key < first.key :=
      fun c hc => hcross c hc first List.mem_cons_self
    refine ⟨first, rest, rfl, ?_, hlt, fun c hc => ?_⟩
    · cases htake : cells.take (cells.length / 2) with
      | nil =>
        rcases List.take_eq_nil_iff.mp htake with h0 | h0
        · omega
        · rw [h0] at hlen; simp at hlen
      | cons c cs =>
        have hc : c ∈ cells.take (cells.length / 2) := htake ▸ List.mem_cons_self
        exact ⟨c, List.mem_of_mem_take hc, hlt c hc⟩
    · rcases List.mem_cons.mp hc with rfl | hc
      · exact le_rfl
      · exact ((List.pairwise_cons.mp hright).1 c hc).le

end Reldb
