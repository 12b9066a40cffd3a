import PyElk.Reasoning.Snapshot

open Ordered

namespace PyElk

/-- Deterministic explanation of the global consistency decision. -/
structure ConsistencyState where
  owlThingRoot : ExpressionId
  individualRoots : List ExpressionId
  owlThingInconsistent : Bool
  inconsistentIndividuals : List ExpressionId
  topObjectPropertyInBottom : Bool
  deriving DecidableEq, Repr

def ConsistencyState.inconsistent (state : ConsistencyState) : Bool :=
  state.owlThingInconsistent || !state.inconsistentIndividuals.isEmpty || state.topObjectPropertyInBottom

/-- The expressions of one tag, in ascending order. -/
def Tables.rootsOf (compiled : Tables) (tag : ExpressionTag) : List ExpressionId :=
  (compiled.expressions.zipIdx.filter fun row => row.1.tag == tag).map Prod.snd

/-- Individuals whose positive or negative occurrence asserts existence. -/
def Tables.occurringIndividualRoots (compiled : Tables) : List ExpressionId :=
  (compiled.rootsOf .individual).filter fun root => compiled.negative root || compiled.positive root

/-- Roots demanded by the lazy consistency stage. -/
def Tables.consistencyRoots (compiled : Tables) : List ExpressionId :=
  sortedSet id (compiled.owlThing :: compiled.occurringIndividualRoots)

/-- `_context_inconsistent`: a context that was never activated is consistent. -/
def contextInconsistent (context : Option Context) : Bool :=
  (context.map Context.inconsistent).getD false

/-- Evaluate the three pinned inconsistency conditions. -/
def evaluateConsistency (compiled : Tables) (properties : PropertySaturation)
    (contexts : ExpressionId → Option Context) : ConsistencyState :=
  let individuals := compiled.occurringIndividualRoots
  let topChain := properties.singletonChain (compiled.entityId .objectProperty OWL_TOP_OBJECT_PROPERTY_IRI)
  let bottomChain := properties.singletonChain (compiled.entityId .objectProperty OWL_BOTTOM_OBJECT_PROPERTY_IRI)
  { owlThingRoot := compiled.owlThing
    individualRoots := individuals
    owlThingInconsistent := contextInconsistent (contexts compiled.owlThing)
    inconsistentIndividuals := individuals.filter fun root => contextInconsistent (contexts root)
    topObjectPropertyInBottom := decide (bottomChain ∈ properties.superChains topChain) }

/-- Whether the top object property is a derived sub-property of the bottom one. -/
def PropertySaturation.TopInBottom (compiled : Tables) (properties : PropertySaturation) : Prop :=
  properties.Sub (properties.singletonChain (compiled.entityId .objectProperty OWL_TOP_OBJECT_PROPERTY_IRI))
    (properties.singletonChain (compiled.entityId .objectProperty OWL_BOTTOM_OBJECT_PROPERTY_IRI))

theorem Tables.mem_rootsOf {compiled : Tables} {tag : ExpressionTag} {root : ExpressionId} :
    root ∈ compiled.rootsOf tag ↔ ∃ arguments, compiled.Built root tag arguments := by
  simp only [rootsOf, List.mem_map, List.mem_filter, beq_iff_eq, Prod.exists, List.mem_zipIdx_iff_getElem?]
  constructor
  · rintro ⟨⟨found, arguments, payload⟩, position, ⟨entry, rfl⟩, rfl⟩
    exact ⟨arguments, payload, entry⟩
  · rintro ⟨arguments, payload, entry⟩
    exact ⟨_, root, ⟨entry, rfl⟩, rfl⟩

theorem Tables.rootsOf_lt {compiled : Tables} {tag : ExpressionTag} :
    ∀ root ∈ compiled.rootsOf tag, root < compiled.expressions.length := by
  intro root member
  obtain ⟨arguments, built⟩ := mem_rootsOf.mp member
  exact built.lt

theorem Tables.mem_consistencyRoots {compiled : Tables} {root : ExpressionId} :
    root ∈ compiled.consistencyRoots ↔
      root = compiled.owlThing ∨ root ∈ compiled.occurringIndividualRoots := by
  rw [consistencyRoots, mem_sortedSet, List.mem_cons]

theorem Tables.consistencyRoots_lt {compiled : Tables} (valid : compiled.Valid) :
    ∀ root ∈ compiled.consistencyRoots, root < compiled.expressions.length := by
  intro root member
  rcases mem_consistencyRoots.mp member with rfl | individual
  · exact valid.owlThing_built.lt
  · exact rootsOf_lt root (List.mem_filter.mp individual).1

/-- The verdict over the contexts of a saturation. -/
theorem evaluateConsistency_inconsistent {compiled : Tables} {properties : PropertySaturation}
    {contexts : ExpressionId → Option Context} :
    (evaluateConsistency compiled properties contexts).inconsistent ↔
      (∃ root ∈ compiled.consistencyRoots, contextInconsistent (contexts root)) ∨
        properties.TopInBottom compiled := by
  simp only [ConsistencyState.inconsistent, evaluateConsistency, Bool.or_eq_true, Bool.not_eq_true',
    List.isEmpty_eq_false_iff_exists_mem, List.mem_filter, decide_eq_true_eq,
    PropertySaturation.mem_superChains, PropertySaturation.TopInBottom, Tables.mem_consistencyRoots, or_and_right,
    exists_or, exists_eq_left]

/-- The consistency state over the contexts of a saturation. -/
def Tables.consistencyOver (compiled : Tables) (batches : List (List ExpressionId)) : ConsistencyState :=
  evaluateConsistency compiled (closeProperties compiled) fun root =>
    ((compiled.fixpoint batches).contextState root).map (·.toContext)

section

variable {compiled : Tables} (valid : compiled.Valid) {batches : List (List ExpressionId)}
  (ranged : ∀ root ∈ demandedRoots batches, root < compiled.expressions.length)

include valid ranged

/-- A contradiction flag is set exactly where a contradiction is derivable. -/
theorem Tables.contextInconsistent_iff {root : ExpressionId} :
    contextInconsistent (((compiled.fixpoint batches).contextState root).map (·.toContext)) ↔
      Derivable compiled (closeProperties compiled) (demandedRoots batches) (.classInconsistency root) := by
  by_cases activated : Derivable compiled (closeProperties compiled) (demandedRoots batches)
      (.contextInitialization root)
  · obtain ⟨state, found, _, holds⟩ := compiled.contextState_fixpoint valid ranged activated
    rw [found]
    exact holds (.classInconsistency root) rfl
  · rw [fixpoint, compiled.contextState_fixpointWith_eq_none valid (closeProperties_scoped valid) ranged activated]
    exact ⟨fun absurdity => absurd absurdity Bool.false_ne_true, fun derivable =>
      absurd (.unary derivable (.contextInitialization _)) activated⟩

theorem Tables.inconsistent_iff : (compiled.consistencyOver batches).inconsistent ↔
    (∃ root ∈ compiled.consistencyRoots,
      Derivable compiled (closeProperties compiled) (demandedRoots batches) (.classInconsistency root)) ∨
    (closeProperties compiled).TopInBottom compiled := by
  rw [consistencyOver, evaluateConsistency_inconsistent]
  refine or_congr (exists_congr fun root => and_congr_right fun _ => ?_) Iff.rfl
  exact compiled.contextInconsistent_iff valid ranged

/-- The frozen context of an activated root. -/
theorem Tables.snapshot_context {root : ExpressionId}
    (activated : Derivable compiled (closeProperties compiled) (demandedRoots batches)
      (.contextInitialization root)) :
    ∃ context, (compiled.fixpoint batches).snapshot.find? (fun context => context.root == root) = some context ∧
      context.root = root ∧ context.Mirrors
        {c | Derivable compiled (closeProperties compiled) (demandedRoots batches) c} := by
  obtain ⟨state, found, rfl, holds⟩ := compiled.contextState_fixpoint valid ranged activated
  have running := (compiled.fixpoint_spec valid ranged).1
  have member := (SaturationEngine.mem_of_contextState found).1
  have distinct :
    (((compiled.fixpoint batches).contexts.map fun state => state.toContext).map Context.root).Nodup := by
    have stores := running.saturating.distinct
    rw [SaturationEngine.stores, List.map_map] at stores
    rw [List.map_map]
    exact stores
  refine ⟨state.toContext.freeze, snapshotContexts_find distinct (List.mem_map_of_mem member), rfl, ?_⟩
  intro c owned
  rw [Context.freeze_holds]
  exact holds c owned

end

end PyElk
