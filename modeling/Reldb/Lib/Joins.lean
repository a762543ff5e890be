import Mathlib.Data.Multiset.Bind
import Mathlib.Logic.Function.DependsOn

/-!
# Joins in any order

A row of a join gives the name of every table one of the table's values. A `Step` gives one more name its
values and keeps the rows its condition holds of. `Step.foldl_perm`: where the conditions of two orders of
the same steps depend on no name given later, both end with the same rows, each as often.
-/

namespace Joins

variable {α β : Type} [DecidableEq α]

/-- One more name, given each of the values. -/
def extend (envs : Multiset (α → β)) (a : α) (vs : Multiset β) : Multiset (α → β) :=
  vs.bind fun v => envs.map fun env => Function.update env a v

structure Step (α β : Type) where
  name : α
  values : Multiset β
  holds : (α → β) → Bool

namespace Step

variable {names : Set α} {s s' : Step α β} {steps steps' : List (Step α β)}
  {envs : Multiset (α → β)} {P : (α → β) → Bool}

/-- The rows without the condition. -/
def cross (envs : Multiset (α → β)) (s : Step α β) : Multiset (α → β) := extend envs s.name s.values

/-- The rows of a join with one more table. -/
def join (envs : Multiset (α → β)) (s : Step α β) : Multiset (α → β) :=
  (cross envs s).filter (s.holds ·)

/-- Every condition depends on names given before it and its own. -/
def Scoped : Set α → List (Step α β) → Prop
  | _, [] => True
  | names, s :: steps => DependsOn s.holds (insert s.name names) ∧ Scoped (insert s.name names) steps

/-! ## Names -/

/-- A row has the default at every name not given yet. -/
def Within (base : α → β) (names : Set α) (envs : Multiset (α → β)) : Prop :=
  ∀ env ∈ envs, ∀ a ∉ names, env a = base a

theorem mem_join {env : α → β} : env ∈ join envs s ↔
    (∃ v ∈ s.values, ∃ env' ∈ envs, Function.update env' s.name v = env) ∧ s.holds env := by
  rw [join, Multiset.mem_filter, cross, extend, Multiset.mem_bind]
  simp only [Multiset.mem_map]

theorem Within.join {base : α → β} (h : Within base names envs) :
    Within base (insert s.name names) (join envs s) := by
  intro env henv a ha
  obtain ⟨⟨v, -, env', henv', rfl⟩, -⟩ := mem_join.mp henv
  rw [Set.mem_insert_iff, not_or] at ha
  rw [Function.update_of_ne ha.1]
  exact h env' henv' a ha.2

/-! ## Conditions early and late -/

/-- A condition that does not look at the new name may be checked before it is given. -/
theorem cross_filter (hP : DependsOn P names) (hs : s.name ∉ names) :
    cross (envs.filter (P ·)) s = (cross envs s).filter (P ·) := by
  have hupdate : ∀ v env, P (Function.update env s.name v) = P env := by
    intro v env
    apply hP
    intro a ha
    have hne : a ≠ s.name := fun h => hs (h ▸ ha)
    exact Function.update_of_ne hne _ _
  simp only [cross, extend, Multiset.filter_bind, Multiset.filter_map, Function.comp_def, hupdate]

/-- **Run.** All the conditions may be checked at the end. -/
theorem foldl_join (hscoped : Scoped names steps) (hnodup : (steps.map name).Nodup)
    (hfresh : ∀ s ∈ steps, s.name ∉ names) (hP : DependsOn P names) :
    steps.foldl join (envs.filter (P ·))
      = (steps.foldl cross envs).filter fun env => P env ∧ ∀ s ∈ steps, s.holds env := by
  induction steps generalizing names envs P with
  | nil => simp only [List.foldl_nil, List.not_mem_nil, false_imp_iff, implies_true, and_true]
  | cons s steps ih =>
    obtain ⟨hs, hscoped⟩ := hscoped
    obtain ⟨hnew, hnodup⟩ := List.nodup_cons.mp hnodup
    obtain ⟨hsfresh, hfresh⟩ := List.forall_mem_cons.mp hfresh
    have hfresh' : ∀ s' ∈ steps, s'.name ∉ insert s.name names := by
      intro s' hs' hmem
      rcases Set.mem_insert_iff.mp hmem with heq | hmem
      · exact hnew (heq ▸ List.mem_map.mpr ⟨s', hs', rfl⟩)
      · exact hfresh s' hs' hmem
    -- what is checked so far looks at no name that is still to come
    have hboth : DependsOn (fun env => P env && s.holds env) (insert s.name names) := by
      intro env env' heq
      have hPeq := hP fun a ha => heq a (Set.mem_insert_of_mem _ ha)
      have hseq := hs heq
      simp only [hPeq, hseq]
    have hjoin : join (envs.filter (P ·)) s
        = (cross envs s).filter fun env => (P env && s.holds env) = true := by
      rw [join, cross_filter hP hsfresh, Multiset.filter_filter]
      apply Multiset.filter_congr
      intro env _
      rw [Bool.and_eq_true, and_comm]
    rw [List.foldl_cons, List.foldl_cons, hjoin, ih hscoped hnodup hfresh' hboth]
    apply Multiset.filter_congr
    intro env _
    rw [List.forall_mem_cons, Bool.and_eq_true, and_assoc]

/-! ## Any order -/

theorem cross_comm (hne : s.name ≠ s'.name) : cross (cross envs s) s' = cross (cross envs s') s := by
  simp only [cross, extend, Multiset.map_bind, Multiset.map_map]
  rw [Multiset.bind_bind]
  apply Multiset.bind_congr
  intro v _
  apply Multiset.bind_congr
  intro v' _
  apply Multiset.map_congr rfl
  intro env _
  exact Function.update_comm hne _ _ env

theorem foldl_cross_perm (hperm : steps.Perm steps') (hnodup : (steps.map name).Nodup) :
    steps.foldl cross envs = steps'.foldl cross envs := by
  induction hperm generalizing envs with
  | nil => rfl
  | cons s _ ih => exact ih (List.nodup_cons.mp hnodup).2
  | swap s s' steps =>
    have hne : s'.name ≠ s.name := fun h => (List.nodup_cons.mp hnodup).1 (h ▸ List.mem_cons_self)
    show steps.foldl cross (cross (cross envs s') s) = steps.foldl cross (cross (cross envs s) s')
    rw [cross_comm hne]
  | trans hperm _ ih ih' => exact (ih hnodup).trans (ih' ((hperm.map name).nodup_iff.mp hnodup))

/-- **Steps in two orders, each of them scoped, end with the same rows.** -/
theorem foldl_perm (hperm : steps.Perm steps') (hnodup : (steps.map name).Nodup)
    (hfresh : ∀ s ∈ steps, s.name ∉ names) (hscoped : Scoped names steps)
    (hscoped' : Scoped names steps') : steps.foldl join envs = steps'.foldl join envs := by
  have htrue : DependsOn (fun _ : α → β => true) names := fun _ _ _ => rfl
  have hall : envs.filter (fun _ => true = true) = envs :=
    Multiset.filter_eq_self.mpr fun _ _ => rfl
  have hnodup' := (hperm.map name).nodup_iff.mp hnodup
  have hfresh' : ∀ s ∈ steps', s.name ∉ names := fun s hs => hfresh s (hperm.mem_iff.mpr hs)
  rw [← hall, foldl_join hscoped hnodup hfresh htrue, foldl_join hscoped' hnodup' hfresh' htrue,
    foldl_cross_perm hperm hnodup]
  apply Multiset.filter_congr
  intro env _
  simp only [hperm.mem_iff]

end Step

end Joins
