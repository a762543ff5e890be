import Mathlib.Data.List.Basic

/-!
# Pull iterators

A pull iterator gives one element a call until it ends or fails. `Pulls` is what it has left, and one
combinator, `flatMap`, is enough for filters, maps and joins. `elements` forgets where a failure struck;
over it the combinators are those of lists.

Loops of an iterator whose length nothing bounds beforehand run on fuel: `Settles f x` says that `f`
gives `x` from some amount of fuel on.
-/

/-! ## Fuel -/

/-- From some amount of fuel on, `f` gives `x`. -/
def Settles {α : Type} (f : Nat → α) (x : α) : Prop := ∃ n, ∀ fuel, n ≤ fuel → f fuel = x

namespace Settles

variable {ε α β : Type} {f : Nat → α} {x y : α}

theorem const (x : α) : Settles (fun _ => x) x := ⟨0, fun _ _ => rfl⟩

/-- A function that spends one of its fuel. -/
theorem succ (h : Settles (fun fuel => f (fuel + 1)) x) : Settles f x := by
  obtain ⟨n, h⟩ := h
  refine ⟨n + 1, fun fuel hfuel => ?_⟩
  obtain ⟨fuel, rfl⟩ := Nat.exists_eq_add_of_le' (Nat.le_of_add_left_le hfuel)
  exact h fuel (by omega)

theorem unique (h : Settles f x) (h' : Settles f y) : x = y := by
  obtain ⟨n, h⟩ := h
  obtain ⟨n', h'⟩ := h'
  rw [← h (max n n') (Nat.le_max_left n n'), h' (max n n') (Nat.le_max_right n n')]

theorem congr {g : Nat → α} (h : Settles f x) (hfg : ∀ fuel, g fuel = f fuel) : Settles g x := by
  obtain ⟨n, h⟩ := h
  exact ⟨n, fun fuel hfuel => (hfg fuel).trans (h fuel hfuel)⟩

theorem map (h : Settles f x) (g : α → β) : Settles (fun fuel => g (f fuel)) (g x) := by
  obtain ⟨n, h⟩ := h
  exact ⟨n, fun fuel hfuel => congrArg g (h fuel hfuel)⟩

/-- Two computations one after the other. -/
theorem bind {p : Nat → Except ε α} {q : Nat → α → Except ε β} {a : α} {r : Except ε β}
    (h : Settles p (.ok a)) (h' : Settles (fun fuel => q fuel a) r) :
    Settles (fun fuel => p fuel >>= q fuel) r := by
  obtain ⟨n, h⟩ := h
  obtain ⟨n', h'⟩ := h'
  refine ⟨max n n', fun fuel hfuel => ?_⟩
  have hp := h fuel (Nat.le_trans (Nat.le_max_left n n') hfuel)
  have hq := h' fuel (Nat.le_trans (Nat.le_max_right n n') hfuel)
  show p fuel >>= q fuel = r
  rw [hp]
  exact hq

/-- A computation whose first part throws. -/
theorem bind_error {p : Nat → Except ε α} {q : Nat → α → Except ε β} {e : ε}
    (h : Settles p (.error e)) : Settles (fun fuel => p fuel >>= q fuel) (.error e) := by
  obtain ⟨n, h⟩ := h
  refine ⟨n, fun fuel hfuel => ?_⟩
  show p fuel >>= q fuel = .error e
  rw [h fuel hfuel]
  rfl

end Settles

/-! ## Lists of what each element gives -/

section Collect

variable {α β γ : Type} {f g : α → Option (List β)} {as : List α} {bs : List β}

theorem mapM_cons_option (f : α → Option γ) (a : α) (as : List α) :
    (a :: as).mapM f = (f a).bind fun c => (as.mapM f).map (c :: ·) := by
  rw [List.mapM_cons]
  cases f a with
  | none => rfl
  | some c => cases as.mapM f <;> rfl

/-- The lists `f` gives for the elements, joined; nothing when it gives none for one. -/
def collect (f : α → Option (List β)) (as : List α) : Option (List β) := (as.mapM f).map List.flatten

@[simp] theorem collect_nil (f : α → Option (List β)) : collect f [] = some [] := rfl

@[simp] theorem collect_cons (f : α → Option (List β)) (a : α) (as : List α) :
    collect f (a :: as) = (f a).bind fun bs => (collect f as).map (bs ++ ·) := by
  simp only [collect, mapM_cons_option]
  cases f a with
  | none => rfl
  | some bs =>
    cases as.mapM f with
    | none => rfl
    | some bss => rfl

/-- One element for each. -/
theorem collect_singleton (f : α → Option β) (as : List α) :
    collect (fun a => (f a).map fun b => [b]) as = as.mapM f := by
  induction as with
  | nil => rfl
  | cons a as ih =>
    rw [collect_cons, ih, mapM_cons_option]
    cases f a <;> rfl

theorem collect_congr (h : ∀ a ∈ as, f a = g a) : collect f as = collect g as := by
  induction as with
  | nil => rfl
  | cons a as ih =>
    rw [collect_cons, collect_cons, h a List.mem_cons_self,
      ih fun b hb => h b (List.mem_cons_of_mem a hb)]

/-- `collect` gives the whole list exactly when `f` gives one for every element. -/
theorem collect_eq_some :
    collect f as = some bs ↔
      (∀ a ∈ as, (f a).isSome) ∧ bs = as.flatMap fun a => (f a).getD [] := by
  induction as generalizing bs with
  | nil =>
    refine ⟨fun h => ⟨nofun, (Option.some.inj h).symm⟩, fun h => ?_⟩
    rw [h.2]
    rfl
  | cons a as ih =>
    rw [collect_cons, Option.bind_eq_some_iff, List.flatMap_cons, List.forall_mem_cons]
    constructor
    · rintro ⟨b, hb, hrest⟩
      obtain ⟨bs', hbs', rfl⟩ := Option.map_eq_some_iff.mp hrest
      obtain ⟨hsome, rfl⟩ := ih.mp hbs'
      rw [hb]
      exact ⟨⟨rfl, hsome⟩, rfl⟩
    · rintro ⟨⟨ha, hsome⟩, rfl⟩
      obtain ⟨b, hb⟩ := Option.isSome_iff_exists.mp ha
      refine ⟨b, hb, ?_⟩
      rw [ih.mpr ⟨hsome, rfl⟩, hb]
      rfl

theorem collect_of_some {g : α → List β} (h : ∀ a ∈ as, f a = some (g a)) :
    collect f as = some (as.flatMap g) := by
  induction as with
  | nil => rfl
  | cons a as ih =>
    rw [collect_cons, h a List.mem_cons_self, ih fun b hb => h b (List.mem_cons_of_mem a hb)]
    rfl

theorem mapM_of_some {f : α → Option γ} {g : α → γ} (h : ∀ a ∈ as, f a = some (g a)) :
    as.mapM f = some (as.map g) := by
  induction as with
  | nil => rfl
  | cons a as ih =>
    rw [mapM_cons_option, h a List.mem_cons_self, ih fun b hb => h b (List.mem_cons_of_mem a hb)]
    rfl

theorem collect_isSome : (collect f as).isSome ↔ ∀ a ∈ as, (f a).isSome := by
  rw [Option.isSome_iff_exists]
  constructor
  · rintro ⟨bs, h⟩
    exact (collect_eq_some.mp h).1
  · intro h
    exact ⟨_, collect_eq_some.mpr ⟨h, rfl⟩⟩

theorem collect_append (f : α → Option (List β)) (as as' : List α) :
    collect f (as ++ as') = (collect f as).bind fun bs => (collect f as').map (bs ++ ·) := by
  induction as with
  | nil =>
    show collect f as' = (collect f as').map ([] ++ ·)
    cases collect f as' <;> rfl
  | cons a as ih =>
    rw [List.cons_append, collect_cons, collect_cons, ih]
    cases f a with
    | none => rfl
    | some bs =>
      cases collect f as with
      | none => rfl
      | some bs' =>
        cases collect f as' with
        | none => rfl
        | some bs'' => exact congrArg some (List.append_assoc bs bs' bs'').symm

end Collect

/-! ## Iterators -/

/-- What an iterator has left: its next element, the end, or a failure. -/
inductive Pulls (ε α : Type) where
  | done
  | fail (e : ε)
  | more (a : α) (rest : Pulls ε α)

namespace Pulls

variable {ε α β γ : Type}

/-- The elements of an iterator that ends. -/
def elements : Pulls ε α → Option (List α)
  | done => some []
  | fail _ => none
  | more a rest => rest.elements.map (a :: ·)

def ofList : List α → Pulls ε α
  | [] => done
  | a :: as => more a (ofList as)

/-- A computation that fails or gives at most one element. -/
def ofExcept : Except ε (Option α) → Pulls ε α
  | .error e => fail e
  | .ok none => done
  | .ok (some a) => more a done

def append : Pulls ε α → Pulls ε α → Pulls ε α
  | done, t => t
  | fail e, _ => fail e
  | more a rest, t => more a (rest.append t)

/-- The elements of `f a` for each `a` in turn. -/
def flatMap (f : α → Pulls ε β) : Pulls ε α → Pulls ε β
  | done => done
  | fail e => fail e
  | more a rest => (f a).append (rest.flatMap f)

@[simp] theorem elements_done : (done : Pulls ε α).elements = some [] := rfl

@[simp] theorem elements_fail (e : ε) : (fail e : Pulls ε α).elements = none := rfl

@[simp] theorem elements_more (a : α) (rest : Pulls ε α) :
    (more a rest).elements = rest.elements.map (a :: ·) := rfl

@[simp] theorem elements_ofList (as : List α) : (ofList as : Pulls ε α).elements = some as := by
  induction as with
  | nil => rfl
  | cons a as ih => rw [ofList, elements_more, ih]; rfl

@[simp] theorem elements_ofExcept (x : Except ε (Option α)) :
    (ofExcept x).elements = x.toOption.map Option.toList := by
  rcases x with e | _ | a <;> rfl

@[simp] theorem elements_append (s t : Pulls ε α) :
    (s.append t).elements = s.elements.bind fun as => t.elements.map (as ++ ·) := by
  induction s with
  | done => cases h : t.elements <;> simp [append, h]
  | fail e => rfl
  | more a rest ih =>
    rw [append, elements_more, elements_more, ih]
    cases rest.elements with
    | none => rfl
    | some as => cases t.elements <;> rfl

@[simp] theorem elements_flatMap (f : α → Pulls ε β) (s : Pulls ε α) :
    (s.flatMap f).elements = s.elements.bind (collect fun a => (f a).elements) := by
  induction s with
  | done => rfl
  | fail e => rfl
  | more a rest ih =>
    rw [flatMap, elements_append, elements_more, ih]
    cases hrest : rest.elements with
    | none => cases (f a).elements <;> rfl
    | some as =>
      show _ = collect _ (a :: as)
      rw [collect_cons]
      rfl

/-! ## An iterator's calls -/

section Next

variable {σ : Type} {next : Nat → σ → Except ε (Option α × σ)} {s s' : σ} {t : Pulls ε α} {a : α}

/-- `next`, called on `s` and then on each state it leaves, gives what `t` says, and after the end the
end again. -/
def Gives (next : Nat → σ → Except ε (Option α × σ)) : σ → Pulls ε α → Prop
  | s, done => ∃ s', Settles (next · s) (.ok (none, s')) ∧ Settles (next · s') (.ok (none, s'))
  | s, fail e => Settles (next · s) (.error e)
  | s, more a rest => ∃ s', Settles (next · s) (.ok (some a, s')) ∧ Gives next s' rest

/-- A state whose call comes down to the call of another. -/
theorem Gives.of_settles (h : Gives next s' t)
    (hs : ∀ x, Settles (next · s') x → Settles (next · s) x) : Gives next s t := by
  cases t with
  | done =>
    obtain ⟨s'', hs', hstays⟩ := h
    exact ⟨s'', hs _ hs', hstays⟩
  | fail e => exact hs _ h
  | more a rest =>
    obtain ⟨s'', hs', hrest⟩ := h
    exact ⟨s'', hs _ hs', hrest⟩

end Next

end Pulls
