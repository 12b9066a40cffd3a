import PyElk.Reasoning.Refusal

namespace PyElk

/-- Any schedule of the engine itself: a premise is processed once its dispatch has
returned, and a dispatch that raises ends the schedule. -/
inductive EngineStep (dispatcher : RuleDispatcher) (roots : Set ExpressionId) :
    List ContextStore → List ContextStore → Prop
  | demand {contexts root} (demanded : root ∈ roots) (novel : ∀ state ∈ contexts, state.root ≠ root) :
      EngineStep dispatcher roots contexts (ensureStore contexts root)
  | process {contexts state premise} {results products : List Conclusion} (allocated : state ∈ contexts)
      (pending : premise ∈ state.todo)
      (returned : dispatcher.dispatch (state.accept premise).toContext premise = .ok results)
      (published : ∀ c, c ∈ products ↔ c ∈ results) :
      EngineStep dispatcher roots contexts
        (products.foldl routeStore (updateStore contexts state.root fun state => state.accept premise))

/-- No stored composed subsumer is crowded. -/
def UncrowdedStores (compiled : Tables) (contexts : List ContextStore) : Prop :=
  ∀ d x, Conclusion.subClassInclusionComposed d x ∈ storedConclusions contexts → ¬ compiled.Crowded x

section

variable {compiled : Tables} {properties : PropertySaturation} {roots : Set ExpressionId}
  {contexts contexts' : List ContextStore}

/-- A step of the engine is a step of a schedule that refuses nothing. -/
theorem EngineStep.schedule (step : EngineStep (RuleDispatcher.new compiled properties) roots contexts contexts') :
    ScheduleStep (RuleDispatcher.new compiled properties) roots contexts contexts' := by
  cases step with
  | demand demanded novel => exact .demand demanded novel
  | process allocated pending returned published =>
    obtain ⟨rfl, -⟩ := RuleDispatcher.dispatch_ok.mp returned
    exact .process allocated pending published

theorem EngineStep.schedules
    (steps : Relation.ReflTransGen (EngineStep (RuleDispatcher.new compiled properties) roots) contexts contexts') :
    Relation.ReflTransGen (ScheduleStep (RuleDispatcher.new compiled properties) roots) contexts contexts' :=
  Relation.ReflTransGen.mono (fun _ _ step => EngineStep.schedule step) _ _ steps

variable (valid : compiled.Valid) (within : properties.Scoped compiled)
  (ranged : ∀ root ∈ roots, root < compiled.expressions.length)

/-- A step of the engine stores no crowded subsumer. -/
theorem EngineStep.uncrowded (step : EngineStep (RuleDispatcher.new compiled properties) roots contexts contexts')
    (saturating : Saturating compiled properties roots (storedConclusions contexts) contexts)
    (clean : UncrowdedStores compiled contexts) : UncrowdedStores compiled contexts' := by
  cases step with
  | demand demanded novel =>
    unfold UncrowdedStores
    rw [ensureStore_stored]
    exact clean
  | process allocated pending returned published =>
    rename_i state premise results products
    have order := fun c => (published c).trans (by rw [(RuleDispatcher.dispatch_ok.mp returned).1])
    obtain ⟨-, stored, -⟩ := saturating.process allocated pending order
    have owner : premise.destination = (state.accept premise).root :=
      ((saturating.coherent state allocated).agendaOwned premise pending).trans ContextStore.accept_root.symm
    intro d x member
    rw [stored] at member
    rcases member with rfl | before
    · exact RuleDispatcher.not_crowded_of_dispatch owner returned
    · exact clean d x before

include valid within ranged

theorem EngineStep.run_uncrowded
    (steps : Relation.ReflTransGen (EngineStep (RuleDispatcher.new compiled properties) roots) [] contexts) :
    UncrowdedStores compiled contexts := by
  induction steps with
  | refl =>
    rintro _ _ ⟨_, member, _⟩
    exact absurd member List.not_mem_nil
  | tail before step ih =>
    exact step.uncrowded (schedule_invariant valid within ranged (EngineStep.schedules before) .empty) ih

variable (few : properties.chains.length ≤ U32_RESERVED)

include few

/-- Where no crowded subsumer is derivable, no dispatch raises. -/
theorem ScheduleStep.engine (clear : compiled.Clear properties roots)
    (step : ScheduleStep (RuleDispatcher.new compiled properties) roots contexts contexts')
    (saturating : Saturating compiled properties roots (storedConclusions contexts) contexts) :
    EngineStep (RuleDispatcher.new compiled properties) roots contexts contexts' := by
  cases step with
  | demand demanded novel => exact .demand demanded novel
  | process allocated pending published =>
    exact .process allocated pending
      (saturating.dispatch_returns valid few within ranged clear allocated pending) published

theorem ScheduleStep.engines (clear : compiled.Clear properties roots)
    (steps : Relation.ReflTransGen (ScheduleStep (RuleDispatcher.new compiled properties) roots) [] contexts) :
    Relation.ReflTransGen (EngineStep (RuleDispatcher.new compiled properties) roots) [] contexts := by
  induction steps with
  | refl => exact .refl
  | tail before step ih =>
    exact ih.tail (step.engine valid within ranged few clear (schedule_invariant valid within ranged before .empty))

end

end PyElk
