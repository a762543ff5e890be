import Mathlib.Order.WithBot
import Mathlib.Data.List.Basic

/-!
# Pieces that tile a key range

A list of pieces, each with the key it starts at, tiles the range from the first piece's start up
to an end `hi` (`⊤` for no end): a piece reaches to where the next one starts. `Spans P pieces hi`
says that starts strictly increase and that every piece satisfies `P` on its own range. Child lists
of a search tree and runs of sorted blocks are both of this form, at every level of nesting.
-/

namespace Tiling

variable {κ ι : Type}

/-- Where a list of pieces starts: at its first piece, or at the end of the range if empty. -/
def start : List (κ × ι) → WithTop κ → WithTop κ
  | [], hi => hi
  | piece :: _, _ => (piece.1 : WithTop κ)

section Start

variable {A B : List (κ × ι)} {hi : WithTop κ}

@[simp] theorem start_nil : start ([] : List (κ × ι)) hi = hi := rfl

@[simp] theorem start_cons {piece : κ × ι} : start (piece :: A) hi = (piece.1 : WithTop κ) := rfl

theorem start_append : start (A ++ B) hi = start A (start B hi) := by
  cases A <;> rfl

end Start

variable [LinearOrder κ]

/-- The pieces tile the range up to `hi`, each satisfying `P` on its range. -/
def Spans (P : κ → WithTop κ → ι → Prop) : List (κ × ι) → WithTop κ → Prop
  | [], _ => True
  | piece :: rest, hi => (piece.1 : WithTop κ) < start rest hi ∧
      P piece.1 (start rest hi) piece.2 ∧ Spans P rest hi

variable {P Q : κ → WithTop κ → ι → Prop} {A B : List (κ × ι)} {b k : κ} {x : ι} {hi : WithTop κ}

theorem spans_cons : Spans P ((b, x) :: A) hi ↔
    (b : WithTop κ) < start A hi ∧ P b (start A hi) x ∧ Spans P A hi := Iff.rfl

theorem spans_singleton : Spans P [(b, x)] hi ↔ (b : WithTop κ) < hi ∧ P b hi x := by
  simp [Spans]

theorem spans_append : Spans P (A ++ B) hi ↔ Spans P A (start B hi) ∧ Spans P B hi := by
  induction A with
  | nil => simp [Spans]
  | cons piece A ih =>
    simp only [List.cons_append, Spans, start_append, ih]
    tauto

/-- A tiling never starts after its end. -/
theorem Spans.start_le (h : Spans P A hi) : start A hi ≤ hi := by
  induction A with
  | nil => exact le_rfl
  | cons piece A ih => exact h.1.le.trans (ih h.2.2)

theorem Spans.imp (h : Spans P A hi)
    (hPQ : ∀ piece ∈ A, ∀ hi', P piece.1 hi' piece.2 → Q piece.1 hi' piece.2) : Spans Q A hi := by
  induction A with
  | nil => trivial
  | cons piece A ih =>
    exact ⟨h.1, hPQ piece List.mem_cons_self _ h.2.1,
      ih h.2.2 fun piece' hmem => hPQ piece' (List.mem_cons_of_mem _ hmem)⟩

/-- A piece of a tiling holds on some range. -/
theorem Spans.exists_range (h : Spans P A hi) {piece : κ × ι} (hmem : piece ∈ A) :
    ∃ hi', P piece.1 hi' piece.2 := by
  obtain ⟨before, after, rfl⟩ := List.append_of_mem hmem
  exact ⟨_, (spans_append.mp h).2.2.1⟩

/-- The starts of a tiling increase. -/
theorem Spans.starts (h : Spans P A hi) : A.Pairwise fun a b => a.1 < b.1 := by
  induction A with
  | nil => exact .nil
  | cons piece A ih =>
    obtain ⟨hlt, -, hrest⟩ := h
    have hpair := ih hrest
    refine List.pairwise_cons.mpr ⟨fun b hb => ?_, hpair⟩
    cases A with
    | nil => cases hb
    | cons next A =>
      have hnext : piece.1 < next.1 := WithTop.coe_lt_coe.mp hlt
      rcases List.mem_cons.mp hb with rfl | hb
      · exact hnext
      · exact hnext.trans (List.rel_of_pairwise_cons hpair hb)

/-- Neighbours of a tiling: the left one ends where the right one starts. -/
theorem Spans.neighbours (h : Spans P A hi) {i : Nat} {left right : κ × ι}
    (hleft : A[i]? = some left) (hright : A[i + 1]? = some right) :
    P left.1 right.1 left.2 ∧ ∃ hi', P right.1 hi' right.2 := by
  induction A generalizing i with
  | nil => cases hleft
  | cons piece A ih =>
    obtain ⟨-, hpiece, hrest⟩ := h
    rw [List.getElem?_cons_succ] at hright
    cases i with
    | zero =>
      obtain rfl : piece = left := Option.some.inj hleft
      refine ⟨?_, hrest.exists_range (List.mem_of_getElem? hright)⟩
      cases A with
      | nil => cases hright
      | cons next A =>
        obtain rfl : next = right := Option.some.inj hright
        exact hpiece
    | succ i => exact ih hrest hleft hright

/-! ## Finding a key's piece -/

/-- The number of pieces, after the first, that start at or below a key. -/
def position (k : κ) (pieces : List (κ × ι)) : Nat :=
  (pieces.takeWhile fun piece => decide (piece.1 ≤ k)).length

/-- **Every key of the range lies in exactly one piece**, and counting the starts up to it finds
that piece. -/
theorem Spans.locate (h : Spans P ((b, x) :: A) hi) (hb : b ≤ k) (hk : (k : WithTop κ) < hi) :
    ∃ before piece after, (b, x) :: A = before ++ piece :: after ∧ piece.1 ≤ k ∧
      (k : WithTop κ) < start after hi ∧ before.length = position k A := by
  induction A generalizing b x with
  | nil => exact ⟨[], (b, x), [], rfl, hb, hk, rfl⟩
  | cons piece A ih =>
    by_cases hle : piece.1 ≤ k
    · obtain ⟨before, found, after, heq, hfound, hafter, hlen⟩ := ih h.2.2 hle
      refine ⟨(b, x) :: before, found, after, by rw [heq]; rfl, hfound, hafter, ?_⟩
      simp [position, hle, hlen]
    · refine ⟨[], (b, x), piece :: A, rfl, hb, WithTop.coe_lt_coe.mpr (not_le.mp hle), ?_⟩
      simp [position, hle]

/-- Replacing one piece by a tiling of its range. -/
theorem Spans.replace {C : List (κ × ι)} (h : Spans P (A ++ (b, x) :: B) hi)
    (hC : Spans P C (start B hi)) (hstart : start C (start B hi) = b) : Spans P (A ++ C ++ B) hi := by
  rw [spans_append] at h
  rw [spans_append, spans_append, hstart]
  exact ⟨⟨h.1, hC⟩, h.2.2.2⟩

/-! ## Contents of the pieces -/

section

variable {α : Type} {key : α → κ} {f : ι → List α}

/-- Contents that lie within their pieces lie within the range. -/
theorem Spans.mem_range (h : Spans P A hi)
    (hP : ∀ {b hi x}, P b hi x → ∀ a ∈ f x, b ≤ key a ∧ (key a : WithTop κ) < hi) :
    ∀ a ∈ A.flatMap (fun piece => f piece.2), start A hi ≤ key a ∧ (key a : WithTop κ) < hi := by
  induction A with
  | nil => intro a ha; cases ha
  | cons piece A ih =>
    intro a ha
    rw [List.flatMap_cons, List.mem_append] at ha
    rcases ha with ha | ha
    · obtain ⟨hle, hlt⟩ := hP h.2.1 a ha
      exact ⟨WithTop.coe_le_coe.mpr hle, hlt.trans_le h.2.2.start_le⟩
    · obtain ⟨hle, hlt⟩ := ih h.2.2 a ha
      exact ⟨h.1.le.trans hle, hlt⟩

/-- Pieces with sorted contents of their own ranges are sorted throughout. -/
theorem Spans.pairwise (h : Spans P A hi)
    (hP : ∀ {b hi x}, P b hi x → ∀ a ∈ f x, b ≤ key a ∧ (key a : WithTop κ) < hi)
    (hsorted : ∀ {b hi x}, P b hi x → (f x).Pairwise fun a a' => key a < key a') :
    (A.flatMap fun piece => f piece.2).Pairwise fun a a' => key a < key a' := by
  induction A with
  | nil => exact .nil
  | cons piece A ih =>
    rw [List.flatMap_cons, List.pairwise_append]
    refine ⟨hsorted h.2.1, ih h.2.2, fun a ha a' ha' => ?_⟩
    have hlt := (hP h.2.1 a ha).2
    have hle := (h.2.2.mem_range hP a' ha').1
    exact WithTop.coe_lt_coe.mp (hlt.trans_le hle)

end

end Tiling
