import PyElk.Reasoning.EngineSchedule

open Ordered

namespace PyElk

/-- The contexts that a set of conclusions needs: those of the demanded roots and
those that own a conclusion. -/
def Activated (roots : Set ExpressionId) (facts : Set Conclusion) (root : ExpressionId) : Prop :=
  root ∈ roots ∨ ∃ c ∈ facts, c.destination = root

/-- The roots demanded by successive calls of `run`. -/
def demandedRoots (batches : List (List ExpressionId)) : Set ExpressionId :=
  {root | ∃ batch ∈ batches, root ∈ batch}

section

variable {compiled : Tables} {properties : PropertySaturation} {roots : Set ExpressionId}
  {contexts : List ContextStore}

theorem derivable_isLeast : IsLeast
    {facts | (∀ root, Activated roots facts root → Conclusion.contextInitialization root ∈ facts) ∧
      (inferenceRules compiled properties).Closed facts}
    {c | Derivable compiled properties roots c} := by
  obtain ⟨⟨initial, closed⟩, least⟩ :=
    (inferenceRules compiled properties).derives_isLeast (Conclusion.contextInitialization '' roots)
  refine ⟨⟨?_, closed⟩, ?_⟩
  · rintro root (demanded | ⟨c, derivable, rfl⟩)
    · exact initial ⟨root, demanded, rfl⟩
    · exact .unary derivable (.contextInitialization c)
  · rintro facts ⟨activated, closedFacts⟩
    refine least ⟨?_, closedFacts⟩
    rintro _ ⟨root, demanded, rfl⟩
    exact activated root (Or.inl demanded)

/-- In a quiescent schedule a context is allocated exactly if it is activated. -/
theorem Saturating.allocated_iff
    (saturating : Saturating compiled properties roots (storedConclusions contexts) contexts)
    (quiescent : Quiescent roots contexts) (root : ExpressionId) :
    (∃ state ∈ contexts, state.root = root) ↔ Activated roots (storedConclusions contexts) root := by
  constructor
  · rintro ⟨state, member, rfl⟩
    refine Or.inr ⟨.contextInitialization state.root, ?_, rfl⟩
    rw [saturating.least quiescent]
    exact saturating.progress.sound _ (saturating.activated state member)
  · rintro (demanded | ⟨c, ⟨state, member, stored⟩, rfl⟩)
    · exact quiescent.1 root demanded
    · exact ⟨state, member, ((saturating.coherent state member).owned c stored).symm⟩

/-- What the indexes of a context say after a run. -/
theorem Saturating.holds_iff
    (saturating : Saturating compiled properties roots (storedConclusions contexts) contexts)
    (quiescent : Quiescent roots contexts) {state : ContextStore} (member : state ∈ contexts) {c : Conclusion}
    (owned : c.destination = state.root) : state.Holds c ↔ Derivable compiled properties roots c := by
  rw [(saturating.coherent state member).mirrored c owned, ← saturating.least quiescent]
  constructor
  · exact fun stored => ⟨state, member, stored⟩
  · exact saturating.owner member owned

end

section

variable {compiled : Tables} {properties : PropertySaturation}

/-- Any sequence of calls of `run`, each on some roots. -/
theorem SaturationEngine.Running.completeAll (valid : compiled.Valid) (within : properties.Scoped compiled)
    (batches : List (List ExpressionId)) {engine : SaturationEngine} {demanded : Set ExpressionId}
    (ranged : ∀ root ∈ demanded, root < compiled.expressions.length)
    (running : engine.Running compiled properties demanded) (unclaimed : engine.claimedRoot = none)
    (idle : ∀ state ∈ engine.stores, state.todo = [])
    (members : demandedRoots batches ⊆ demanded) :
    (batches.foldl SaturationEngine.complete engine).Running compiled properties demanded ∧
      Relation.ReflTransGen (ScheduleStep (RuleDispatcher.new compiled properties) demanded) engine.stores
        (batches.foldl SaturationEngine.complete engine).stores ∧
      (batches.foldl SaturationEngine.complete engine).claimedRoot = none ∧
      (∀ state ∈ (batches.foldl SaturationEngine.complete engine).stores, state.todo = []) ∧
      ∀ root ∈ demandedRoots batches,
        root ∈ (batches.foldl SaturationEngine.complete engine).stores.map (·.root) := by
  induction batches generalizing engine with
  | nil =>
    refine ⟨running, .refl, unclaimed, idle, ?_⟩
    rintro root ⟨batch, absent, _⟩
    exact absurd absent List.not_mem_nil
  | cons batch rest ih =>
    obtain ⟨after, steps, free, _, finished, allocated⟩ := running.complete valid within ranged unclaimed
      fun root (member : root ∈ batch) => members ⟨batch, List.mem_cons_self, member⟩
    obtain ⟨last, more, free', finished', allocated'⟩ := ih after free finished
      fun root ⟨other, listed, member⟩ => members ⟨other, List.mem_cons_of_mem _ listed, member⟩
    refine ⟨last, steps.trans more, free', finished', ?_⟩
    rintro root ⟨other, listed, member⟩
    rcases List.mem_cons.mp listed with rfl | listed
    · exact schedule_roots_sub more (allocated member)
    · exact allocated' root ⟨other, listed, member⟩

end

/-- The engine over a property saturation after successive runs that refuse nothing. -/
def Tables.fixpointWith (compiled : Tables) (properties : PropertySaturation) (batches : List (List ExpressionId)) :
    SaturationEngine :=
  batches.foldl SaturationEngine.complete (SaturationEngine.new compiled properties)

/-- The engine of an ontology after successive runs that refuse nothing. -/
def Tables.fixpoint (compiled : Tables) (batches : List (List ExpressionId)) : SaturationEngine :=
  compiled.fixpointWith (closeProperties compiled) batches

/-- The engine over a property saturation after successive calls of `run`. -/
def Tables.saturateWith (compiled : Tables) (properties : PropertySaturation) (batches : List (List ExpressionId)) :
    Except ReasoningError SaturationEngine :=
  batches.foldlM SaturationEngine.run (SaturationEngine.new compiled properties)

/-- The engine of an ontology after successive calls of `run`. -/
def Tables.saturate (compiled : Tables) (batches : List (List ExpressionId)) :
    Except ReasoningError SaturationEngine := do
  let properties ← saturateProperties compiled
  compiled.saturateWith properties batches

section

variable {compiled : Tables} {properties : PropertySaturation} {batches : List (List ExpressionId)}

theorem Tables.fixpointWith_spec (valid : compiled.Valid) (within : properties.Scoped compiled)
    (ranged : ∀ root ∈ demandedRoots batches, root < compiled.expressions.length) :
    (compiled.fixpointWith properties batches).Running compiled properties (demandedRoots batches) ∧
      Relation.ReflTransGen (ScheduleStep (RuleDispatcher.new compiled properties) (demandedRoots batches)) []
        (compiled.fixpointWith properties batches).stores ∧
      Quiescent (demandedRoots batches) (compiled.fixpointWith properties batches).stores := by
  obtain ⟨running, steps, _, finished, allocated⟩ :=
    SaturationEngine.Running.completeAll valid within batches ranged .new rfl
    (fun _ member => absurd member List.not_mem_nil) subset_rfl
  refine ⟨running, steps, ?_, finished⟩
  intro root demanded
  obtain ⟨state, member, same⟩ := List.mem_map.mp (allocated root demanded)
  exact ⟨state, member, same⟩

/-- The state of an activated context after any sequence of runs. -/
theorem Tables.contextState_fixpointWith (valid : compiled.Valid) (within : properties.Scoped compiled)
    (ranged : ∀ root ∈ demandedRoots batches, root < compiled.expressions.length) {root : ExpressionId}
    (activated : Derivable compiled properties (demandedRoots batches) (.contextInitialization root)) :
    ∃ state, (compiled.fixpointWith properties batches).contextState root = some state ∧ state.root = root ∧
      ∀ c : Conclusion, c.destination = root →
        (state.Holds c ↔ Derivable compiled properties (demandedRoots batches) c) := by
  obtain ⟨running, _, quiescent⟩ := compiled.fixpointWith_spec valid within ranged
  have stored := (running.saturating.least quiescent _).mpr activated
  obtain ⟨store, member, same⟩ := (running.saturating.allocated_iff quiescent root).mpr (Or.inr ⟨_, stored, rfl⟩)
  obtain ⟨state, found, rfl⟩ := List.mem_map.mp member
  subst same
  refine ⟨state, SaturationEngine.Distinct.contextState running.saturating.distinct found, rfl, ?_⟩
  intro c owned
  exact running.saturating.holds_iff quiescent member owned

/-- A context exists exactly if its initialisation is derivable. -/
theorem Tables.contextState_fixpointWith_eq_none (valid : compiled.Valid) (within : properties.Scoped compiled)
    (ranged : ∀ root ∈ demandedRoots batches, root < compiled.expressions.length) {root : ExpressionId}
    (idle : ¬ Derivable compiled properties (demandedRoots batches) (.contextInitialization root)) :
    (compiled.fixpointWith properties batches).contextState root = none := by
  obtain ⟨running, _, quiescent⟩ := compiled.fixpointWith_spec valid within ranged
  cases found : (compiled.fixpointWith properties batches).contextState root with
  | none => rfl
  | some state =>
    obtain ⟨member, rfl⟩ := SaturationEngine.mem_of_contextState found
    exact absurd (running.saturating.progress.sound _ (running.saturating.activated state.toContextStore
      (List.mem_map.mpr ⟨state, member, rfl⟩))) idle

theorem Tables.fixpoint_spec (valid : compiled.Valid)
    (ranged : ∀ root ∈ demandedRoots batches, root < compiled.expressions.length) :
    (compiled.fixpoint batches).Running compiled (closeProperties compiled) (demandedRoots batches) ∧
      Relation.ReflTransGen
        (ScheduleStep (RuleDispatcher.new compiled (closeProperties compiled)) (demandedRoots batches)) []
        (compiled.fixpoint batches).stores ∧
      Quiescent (demandedRoots batches) (compiled.fixpoint batches).stores :=
  compiled.fixpointWith_spec valid (closeProperties_scoped valid) ranged

theorem Tables.contextState_fixpoint (valid : compiled.Valid)
    (ranged : ∀ root ∈ demandedRoots batches, root < compiled.expressions.length) {root : ExpressionId}
    (activated : Derivable compiled (closeProperties compiled) (demandedRoots batches)
      (.contextInitialization root)) :
    ∃ state, (compiled.fixpoint batches).contextState root = some state ∧ state.root = root ∧
      ∀ c : Conclusion, c.destination = root →
        (state.Holds c ↔ Derivable compiled (closeProperties compiled) (demandedRoots batches) c) :=
  compiled.contextState_fixpointWith valid (closeProperties_scoped valid) ranged activated

/-- `Parent ⊑ ∃hasKin.Person` and `Person ⊑ ∃hasKin.Parent` with a transitive `hasKin`. -/
def kinshipTables : Tables where
  entities := [⟨.owlClass, "ex:Parent"⟩, ⟨.owlClass, "ex:Person"⟩, ⟨.owlClass, OWL_NOTHING_IRI⟩,
    ⟨.owlClass, OWL_THING_IRI⟩, ⟨.objectProperty, "ex:hasKin"⟩,
    ⟨.objectProperty, OWL_BOTTOM_OBJECT_PROPERTY_IRI⟩, ⟨.objectProperty, OWL_TOP_OBJECT_PROPERTY_IRI⟩]
  expressions := [⟨.owlClass, [0], []⟩, ⟨.owlClass, [1], []⟩, ⟨.owlClass, [2], []⟩, ⟨.owlClass, [3], []⟩,
    ⟨.objectSomeValuesFrom, [4, 0], []⟩, ⟨.objectSomeValuesFrom, [4, 1], []⟩]
  expressionOccurrences := [⟨1, 1⟩, ⟨1, 1⟩, ⟨0, 0⟩, ⟨0, 0⟩, ⟨0, 1⟩, ⟨0, 1⟩]
  propertyOccurrences := [⟨1, 3⟩, ⟨0, 0⟩, ⟨0, 0⟩]
  propertyChains := [[4, 4]]
  subclassAxioms := [(0, 5), (1, 4)]
  equivalentClassAxioms := []
  disjointGroups := []
  subpropertyAxioms := [(0, 4)]
  propertyRanges := []
  featureCounts := List.replicate 79 0
  sourceFingerprint := List.replicate 32 0

def kinshipOntology : CompiledOntology := ⟨kinshipTables, by decide +kernel⟩

end

end PyElk
