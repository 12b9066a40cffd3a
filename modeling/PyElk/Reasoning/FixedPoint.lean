import PyElk.Reasoning.ConclusionBound

namespace PyElk

variable {compiled : Tables} {properties : PropertySaturation} {roots : Set ExpressionId}
  {contexts contexts' : List ContextStore}

/-- Nothing is left to schedule: the roots are allocated and every agenda is empty. -/
def Quiescent (roots : Set ExpressionId) (contexts : List ContextStore) : Prop :=
  (∀ root ∈ roots, ∃ state ∈ contexts, state.root = root) ∧ ∀ state ∈ contexts, state.todo = []

theorem length_le_foldl_routeStore {products : List Conclusion} :
    contexts.length ≤ (products.foldl routeStore contexts).length := by
  induction products generalizing contexts with
  | nil => exact Nat.le_refl _
  | cons product rest ih =>
    refine le_trans ?_ ih
    rw [routeStore, updateStore, List.length_map, ensureStore]
    split
    · exact Nat.le_refl _
    · rw [List.length_append]
      exact Nat.le_add_right _ _

section

variable (valid : compiled.Valid) (within : properties.Scoped compiled)
  (demanded : ∀ root ∈ roots, root < compiled.expressions.length)

include valid within demanded

/-- Only so many conclusions can be derived. -/
theorem derivable_ncard_le {facts : Set Conclusion} (sound : ∀ c ∈ facts, Derivable compiled properties roots c) :
    facts.Finite ∧ facts.ncard ≤ (RuleDispatcher.new compiled properties).conclusionLimit := by
  have sub : facts ⊆ ((RuleDispatcher.new compiled properties).conclusionUniverse.toFinset : Set Conclusion) := by
    intro c member
    rw [List.coe_toFinset]
    exact (Derivable.inRange valid within demanded (sound c member)).mem_universe
  refine ⟨(Finset.finite_toSet _).subset sub, ?_⟩
  calc facts.ncard
      ≤ ((RuleDispatcher.new compiled properties).conclusionUniverse.toFinset : Set Conclusion).ncard :=
        Set.ncard_le_ncard sub (Finset.finite_toSet _)
    _ = (RuleDispatcher.new compiled properties).conclusionUniverse.toFinset.card := Set.ncard_coe_finset _
    _ ≤ (RuleDispatcher.new compiled properties).conclusionUniverse.length := List.toFinset_card_le _
    _ = (RuleDispatcher.new compiled properties).conclusionLimit := RuleDispatcher.length_conclusionUniverse _

theorem Saturating.stored_le {processed : Set Conclusion}
    (saturating : Saturating compiled properties roots processed contexts) :
    (storedConclusions contexts).Finite ∧
      (storedConclusions contexts).ncard ≤ (RuleDispatcher.new compiled properties).conclusionLimit := by
  refine derivable_ncard_le valid within demanded ?_
  rintro c ⟨state, member, stored⟩
  exact saturating.progress.sound c ⟨state, member, Or.inl stored⟩

theorem Saturating.contexts_le {processed : Set Conclusion}
    (saturating : Saturating compiled properties roots processed contexts) :
    contexts.length ≤ compiled.expressions.length := by
  have sub : contexts.map (·.root) ⊆ List.range compiled.expressions.length := by
    intro root member
    obtain ⟨state, allocated, rfl⟩ := List.mem_map.mp member
    exact List.mem_range.mpr (Derivable.inRange valid within demanded
      (saturating.progress.sound _ (saturating.activated state allocated)))
  have le := (saturating.distinct.subperm sub).length_le
  rwa [List.length_map, List.length_range] at le

/-- Every step keeps the invariant and makes progress towards a fixed bound. -/
theorem ScheduleStep.spec (step : ScheduleStep (RuleDispatcher.new compiled properties) roots contexts contexts')
    (saturating : Saturating compiled properties roots (storedConclusions contexts) contexts) :
    Saturating compiled properties roots (storedConclusions contexts') contexts' ∧
      (storedConclusions contexts).ncard + contexts.length <
        (storedConclusions contexts').ncard + contexts'.length := by
  cases step with
  | demand root_demanded novel =>
    rename_i root
    rw [ensureStore_stored]
    refine ⟨saturating.ensure (.start ⟨root, root_demanded, rfl⟩), ?_⟩
    rw [ensureStore_novel novel, List.length_append, List.length_singleton]
    omega
  | @process state premise products allocated pending published =>
    obtain ⟨after, stored, fresh⟩ := saturating.process allocated pending published
    refine ⟨after, ?_⟩
    have grown : contexts.length ≤ (products.foldl routeStore
        (updateStore contexts state.root fun state => state.accept premise)).length := by
      refine le_trans ?_ length_le_foldl_routeStore
      rw [updateStore, List.length_map]
    rw [stored, Set.ncard_insert_of_notMem fresh (saturating.stored_le valid within demanded).1]
    omega

/-- A schedule cannot run forever. -/
theorem schedule_terminates (run : Nat → List ContextStore) (start : run 0 = [])
    (steps : ∀ n, ScheduleStep (RuleDispatcher.new compiled properties) roots (run n) (run (n + 1))) : False := by
  have invariant : ∀ n, Saturating compiled properties roots (storedConclusions (run n)) (run n) ∧
      n ≤ (storedConclusions (run n)).ncard + (run n).length := by
    intro n
    induction n with
    | zero =>
      rw [start]
      exact ⟨.empty, Nat.zero_le _⟩
    | succ n ih =>
      obtain ⟨after, more⟩ := (steps n).spec valid within demanded ih.1
      exact ⟨after, by omega⟩
  let limit := (RuleDispatcher.new compiled properties).conclusionLimit + compiled.expressions.length + 1
  obtain ⟨saturating, count⟩ := invariant limit
  have stored := (saturating.stored_le valid within demanded).2
  have allocated := saturating.contexts_le valid within demanded
  omega

theorem schedule_invariant (steps : Relation.ReflTransGen
      (ScheduleStep (RuleDispatcher.new compiled properties) roots) contexts contexts')
    (saturating : Saturating compiled properties roots (storedConclusions contexts) contexts) :
    Saturating compiled properties roots (storedConclusions contexts') contexts' := by
  induction steps with
  | refl => exact saturating
  | tail _ step ih => exact (step.spec valid within demanded ih).1

end

/-- A quiescent schedule has stored exactly the derivable conclusions. -/
theorem Saturating.least (saturating : Saturating compiled properties roots (storedConclusions contexts) contexts)
    (quiescent : Quiescent roots contexts) (c : Conclusion) :
    c ∈ storedConclusions contexts ↔ Derivable compiled properties roots c := by
  refine saturating.progress.finish ?_ ?_ c
  · rintro _ ⟨root, demanded, rfl⟩
    obtain ⟨state, allocated, rfl⟩ := quiescent.1 root demanded
    exact saturating.activated state allocated
  · rintro c ⟨state, allocated, stored | pending⟩
    · exact ⟨state, allocated, stored⟩
    · rw [quiescent.2 state allocated] at pending
      exact absurd pending List.not_mem_nil

end PyElk
