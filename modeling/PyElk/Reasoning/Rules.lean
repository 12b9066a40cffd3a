import PyElk.Indexing.Validity
import PyElk.Reasoning.Contexts
import PyElk.Reasoning.Properties

open Ordered

namespace PyElk

def Tables.entityId (compiled : Tables) (kind : EntityKind) (iri : String) : EntityId :=
  compiled.entities.findIdx fun record => record.kind == kind && record.iri == iri

def Tables.namedExpression (compiled : Tables) (tag : ExpressionTag) (entity : EntityId) : ExpressionId :=
  compiled.expressions.findIdx fun record => record.tag == tag && record.arguments == [entity]

/-- `_class_expression`. -/
def Tables.classExpression (compiled : Tables) (iri : String) : ExpressionId :=
  compiled.namedExpression .owlClass (compiled.entityId .owlClass iri)

def Tables.owlThing (compiled : Tables) : ExpressionId := compiled.classExpression OWL_THING_IRI

def Tables.owlNothing (compiled : Tables) : ExpressionId := compiled.classExpression OWL_NOTHING_IRI

def Tables.occurrence (compiled : Tables) (expression : ExpressionId) : Occurrence :=
  compiled.expressionOccurrences.getD expression ⟨0, 0⟩

/-- Whether an expression has a negative occurrence. -/
def Tables.negative (compiled : Tables) (expression : ExpressionId) : Bool :=
  decide (0 < (compiled.occurrence expression).negative)

/-- Whether an expression has a positive occurrence. -/
def Tables.positive (compiled : Tables) (expression : ExpressionId) : Bool :=
  decide (0 < (compiled.occurrence expression).positive)

def Tables.tagOf (compiled : Tables) (expression : ExpressionId) : Option ExpressionTag :=
  (compiled.expressions[expression]?).map ExpressionRecord.tag

/-- The values that `_append_index` put under a key, frozen in ascending order. -/
def frozenIndex {β κ : Type} [DecidableEq β] [LinearOrder κ] (sortKey : β → κ) (rows : List (Nat × β)) (key : Nat) :
    List β :=
  sortedSet sortKey ((rows.filter fun row => row.1 == key).map Prod.snd)

@[simp] theorem mem_frozenIndex {β κ : Type} [DecidableEq β] [LinearOrder κ] {sortKey : β → κ}
    {rows : List (Nat × β)} {key : Nat} {value : β} :
    value ∈ frozenIndex sortKey rows key ↔ (key, value) ∈ rows := by
  simp only [frozenIndex, mem_sortedSet, List.mem_map, List.mem_filter, beq_iff_eq]
  constructor
  · rintro ⟨⟨found, _⟩, ⟨member, rfl⟩, rfl⟩
    exact member
  · intro member
    exact ⟨(key, value), ⟨member, rfl⟩, rfl⟩

/-- The index of one-column rows. -/
abbrev frozenValues (rows : List (Nat × Nat)) (key : Nat) : List Nat := frozenIndex id rows key

/-- The index of two-column rows. -/
abbrev frozenPairs (rows : List (Nat × Nat × Nat)) (key : Nat) : List (Nat × Nat) :=
  frozenIndex (fun value => (toLex value : Nat ×ₗ Nat)) rows key

/-- The linked-rule rows contributed by the occurring expressions of one tag. -/
def Tables.indexTag {β : Type} (compiled : Tables) (tag : ExpressionTag) (occurs : ExpressionId → Bool)
    (rows : ExpressionId → List Nat → List (Nat × β)) : List (Nat × β) :=
  compiled.expressions.zipIdx.flatMap fun entry =>
    if entry.1.tag = tag ∧ occurs entry.2 then rows entry.2 entry.1.arguments else []

theorem Tables.mem_indexTag {β : Type} {compiled : Tables} {tag : ExpressionTag} {occurs : ExpressionId → Bool}
    {rows : ExpressionId → List Nat → List (Nat × β)} {row : Nat × β} :
    row ∈ compiled.indexTag tag occurs rows ↔ ∃ expression arguments,
      compiled.Built expression tag arguments ∧ occurs expression ∧ row ∈ rows expression arguments := by
  simp only [indexTag, List.mem_flatMap, Prod.exists]
  constructor
  · rintro ⟨⟨found, arguments, payload⟩, expression, entry, member⟩
    split at member
    · rename_i guard
      obtain ⟨rfl, occurring⟩ := guard
      exact ⟨expression, arguments, ⟨payload, List.mem_zipIdx_iff_getElem?.mp entry⟩, occurring, member⟩
    · exact absurd member List.not_mem_nil
  · rintro ⟨expression, arguments, ⟨payload, entry⟩, occurring, member⟩
    exact ⟨_, expression, List.mem_zipIdx_iff_getElem?.mpr entry, by simpa [occurring] using member⟩

/-- The frozen linked-rule lookups of one compiled ontology. -/
structure RuleDispatcher where
  compiled : Tables
  properties : PropertySaturation
  owlThing : ExpressionId
  owlNothing : ExpressionId
  introduceThing : Bool
  decomposeNothing : Bool
  subclasses : List (ExpressionId × ExpressionId)
  definitionsByClass : List (ExpressionId × ExpressionId)
  classesByDefinition : List (ExpressionId × ExpressionId)
  equivalentFirst : List (ExpressionId × ExpressionId)
  equivalentSecond : List (ExpressionId × ExpressionId)
  intersectionsByFirst : List (ExpressionId × ExpressionId × ExpressionId)
  intersectionsBySecond : List (ExpressionId × ExpressionId × ExpressionId)
  unionsByDisjunct : List (ExpressionId × ExpressionId × Nat)
  existentialsByFiller : List (ExpressionId × ExpressionId × EntityId)
  complementsByNegated : List (ExpressionId × ExpressionId)
  positiveComplements : List (ExpressionId × ExpressionId)
  disjointByMember : List (ExpressionId × DisjointGroupId × Nat)
  toldSuperProperties : List (PropertyChainId × EntityId)

def Tables.intersectionsByFirst (compiled : Tables) : List (ExpressionId × ExpressionId × ExpressionId) :=
  compiled.indexTag .objectIntersectionOf compiled.negative fun expression arguments =>
    match arguments with
    | [first, second] => [(first, second, expression)]
    | _ => []

def Tables.intersectionsBySecond (compiled : Tables) : List (ExpressionId × ExpressionId × ExpressionId) :=
  compiled.indexTag .objectIntersectionOf compiled.negative fun expression arguments =>
    match arguments with
    | [first, second] => [(second, first, expression)]
    | _ => []

def Tables.unionsByDisjunct (compiled : Tables) : List (ExpressionId × ExpressionId × Nat) :=
  compiled.indexTag .objectUnionOf compiled.negative fun expression arguments =>
    arguments.zipIdx.map fun operand => (operand.1, expression, operand.2)

def Tables.existentialsByFiller (compiled : Tables) : List (ExpressionId × ExpressionId × EntityId) :=
  compiled.indexTag .objectSomeValuesFrom compiled.negative fun expression arguments =>
    match arguments with
    | [relation, filler] => [(filler, expression, relation)]
    | _ => []

def Tables.complementsByNegated (compiled : Tables) : List (ExpressionId × ExpressionId) :=
  compiled.indexTag .objectComplementOf compiled.positive fun expression arguments =>
    match arguments with
    | [negated] => [(negated, expression)]
    | _ => []

def Tables.positiveComplements (compiled : Tables) : List (ExpressionId × ExpressionId) :=
  compiled.complementsByNegated.map Prod.swap

def Tables.disjointByMember (compiled : Tables) : List (ExpressionId × DisjointGroupId × Nat) :=
  compiled.disjointGroups.zipIdx.flatMap fun group =>
    group.1.zipIdx.map fun member => (member.1, group.2, member.2)

/-- The equivalence rows whose first member is (or is not) a named class. -/
def Tables.equivalenceRows (compiled : Tables) (named : Bool) : List (ExpressionId × ExpressionId) :=
  compiled.equivalentClassAxioms.filter fun row => (compiled.tagOf row.1 == some .owlClass) == named

/-- `told_super_properties`, as pairs of a local chain and a told super-property. -/
def Tables.toldSuperProperties (compiled : Tables) (properties : PropertySaturation) :
    List (PropertyChainId × EntityId) :=
  compiled.subpropertyAxioms.map fun row => (properties.compiledChain row.1, row.2)

def RuleDispatcher.new (compiled : Tables) (properties : PropertySaturation) : RuleDispatcher where
  compiled := compiled
  properties := properties
  owlThing := compiled.owlThing
  owlNothing := compiled.owlNothing
  introduceThing := compiled.negative compiled.owlThing
  decomposeNothing := compiled.positive compiled.owlNothing
  subclasses := compiled.subclassAxioms
  definitionsByClass := compiled.equivalenceRows true
  classesByDefinition := (compiled.equivalenceRows true).map Prod.swap
  equivalentFirst := (compiled.equivalenceRows false).map Prod.swap
  equivalentSecond := compiled.equivalenceRows false
  intersectionsByFirst := compiled.intersectionsByFirst
  intersectionsBySecond := compiled.intersectionsBySecond
  unionsByDisjunct := compiled.unionsByDisjunct
  existentialsByFiller := compiled.existentialsByFiller
  complementsByNegated := compiled.complementsByNegated
  positiveComplements := compiled.positiveComplements
  disjointByMember := compiled.disjointByMember
  toldSuperProperties := compiled.toldSuperProperties properties

/-- The values stored under a key of a context multimap, in ascending order. -/
def multimapGet (rows : List (Nat × Nat)) (key : Nat) : List Nat := frozenValues rows key

variable (dispatcher : RuleDispatcher) (state : Context)

def RuleDispatcher.onContextInitialization (root : ExpressionId) : List Conclusion :=
  .subClassInclusionDecomposed root root ::
    if dispatcher.introduceThing then [.subClassInclusionComposed root dispatcher.owlThing] else []

def RuleDispatcher.onSubContextInitialization (property : EntityId) : List Conclusion :=
  (sortedBy id state.composedSubsumers).flatMap fun filler =>
    ((frozenPairs dispatcher.existentialsByFiller filler).filter fun existential =>
      property ∈ dispatcher.properties.subProperties (dispatcher.properties.singletonChain existential.2)).map
        fun existential => .propagation state.root property existential.1

def RuleDispatcher.composable (chain : PropertyChainId) : Bool :=
  !(dispatcher.properties.compositionsByLeft false chain).isEmpty

/-- The tag-specific part of `_on_decomposed_subsumer`, for a subsumer that
occurs positively. -/
def RuleDispatcher.decomposeRecord (subsumer : ExpressionId) : ExpressionTag → List Nat → List Conclusion
  | .objectIntersectionOf, [first, second] =>
    [.subClassInclusionDecomposed state.root first, .subClassInclusionDecomposed state.root second]
  | .objectSomeValuesFrom, [relation, target] =>
    let relationChain := dispatcher.properties.singletonChain relation
    .backwardLink target relation state.root ::
      if dispatcher.composable relationChain then [.forwardLink state.root relationChain target] else []
  | .objectHasSelf, [relation] =>
    let relationChain := dispatcher.properties.singletonChain relation
    .backwardLink state.root relation state.root ::
      ((if dispatcher.composable relationChain then [.forwardLink state.root relationChain state.root] else []) ++
        (dispatcher.properties.ranges relation).map (.subClassInclusionDecomposed state.root))
  | .objectComplementOf, _ =>
    ((frozenValues dispatcher.positiveComplements subsumer).filter (· ∈ state.composedSubsumers)).map
      fun _ => .classInconsistency state.root
  | _, _ => []

def RuleDispatcher.decompose (subsumer : ExpressionId) : List Conclusion :=
  match dispatcher.compiled.expressions[subsumer]? with
  | none => []
  | some record =>
    if dispatcher.compiled.positive subsumer then
      dispatcher.decomposeRecord state subsumer record.tag record.arguments
    else []

def RuleDispatcher.onDecomposedSubsumer (subsumer : ExpressionId) : List Conclusion :=
  .subClassInclusionComposed state.root subsumer ::
    ((frozenValues dispatcher.definitionsByClass subsumer).map (.subClassInclusionDecomposed state.root) ++
      dispatcher.decompose state subsumer ++
      if dispatcher.decomposeNothing ∧ subsumer = dispatcher.owlNothing then [.classInconsistency state.root]
      else [])

def RuleDispatcher.onComposedSubsumer (subsumer : ExpressionId) : List Conclusion :=
  [(frozenValues dispatcher.subclasses subsumer).map (.subClassInclusionDecomposed state.root),
   (frozenValues dispatcher.classesByDefinition subsumer).map (.subClassInclusionComposed state.root),
   (frozenValues dispatcher.equivalentFirst subsumer).map (.subClassInclusionDecomposed state.root),
   (frozenValues dispatcher.equivalentSecond subsumer).map (.subClassInclusionDecomposed state.root),
   ((frozenPairs dispatcher.intersectionsByFirst subsumer).filter (·.1 ∈ state.composedSubsumers)).map
     fun row => .subClassInclusionComposed state.root row.2,
   ((frozenPairs dispatcher.intersectionsBySecond subsumer).filter (·.1 ∈ state.composedSubsumers)).map
     fun row => .subClassInclusionComposed state.root row.2,
   (frozenPairs dispatcher.unionsByDisjunct subsumer).map fun row => .subClassInclusionComposed state.root row.1,
   (frozenPairs dispatcher.existentialsByFiller subsumer).flatMap fun existential =>
     ((sortedBy id state.initializedSubcontexts).filter fun relation =>
       relation ∈ dispatcher.properties.subProperties (dispatcher.properties.singletonChain existential.2)).map
         fun relation => .propagation state.root relation existential.1,
   ((frozenValues dispatcher.complementsByNegated subsumer).filter (· ∈ state.decomposedSubsumers)).map
     fun _ => .classInconsistency state.root,
   (frozenPairs dispatcher.disjointByMember subsumer).map
     fun row => .disjointSubsumer state.root row.1 row.2].flatten

/-- `_chain_is_extendable`. -/
def RuleDispatcher.chainIsExtendable (chain : PropertyChainId) : Bool :=
  !(dispatcher.properties.compositionsByLeft false chain).isEmpty ||
    !(dispatcher.properties.compositionsByLeft true chain).isEmpty

/-- `_produce_link_composition` for a path from `source` to `target`. -/
def RuleDispatcher.produceLinkComposition (source target : ExpressionId) (resultChain : PropertyChainId) :
    List Conclusion :=
  if dispatcher.chainIsExtendable resultChain then [.forwardLink source resultChain target]
  else (frozenValues dispatcher.toldSuperProperties resultChain).map fun super => .backwardLink target super source

def RuleDispatcher.onForwardLink (chain : PropertyChainId) (target : ExpressionId) : List Conclusion :=
  (if (dispatcher.properties.chains[chain]?).bind PropertyChainRecord.suffixChain = none then []
    else (frozenValues dispatcher.toldSuperProperties chain).map fun super =>
      .backwardLink target super state.root) ++
  (dispatcher.properties.compositionsByLeft false chain).flatMap fun row =>
    (multimapGet state.backwardLinks row.1).flatMap fun source =>
      row.2.flatMap (dispatcher.produceLinkComposition source target)

def RuleDispatcher.onBackwardLink (relation : EntityId) (source : ExpressionId) : List Conclusion :=
  .subContextInitialization state.root relation ::
    ((multimapGet state.propagations relation).map (.subClassInclusionComposed source) ++
    (if state.inconsistent then [.classInconsistency source] else []) ++
    (dispatcher.properties.ranges relation).map (.subClassInclusionDecomposed state.root) ++
    (dispatcher.properties.compositionsByRight false relation).flatMap fun row =>
      (multimapGet state.forwardLinks row.1).flatMap fun target =>
        row.2.flatMap (dispatcher.produceLinkComposition source target))

def onPropagation (relation : EntityId) (carry : ExpressionId) : List Conclusion :=
  (multimapGet state.backwardLinks relation).map fun source => .subClassInclusionComposed source carry

def onDisjointSubsumer (group : DisjointGroupId) (position : Nat) : List Conclusion :=
  ((multimapGet state.disjointPositions group).filter (· ≠ position)).map fun _ => .classInconsistency state.root

def onClassInconsistency : List Conclusion :=
  (sortedBy (fun row => (toLex row : Nat ×ₗ Nat)) state.backwardLinks).map fun row => .classInconsistency row.2

/-- What the trigger family of a premise already stored in `state` produces when no ID is
refused. Every product stands for an inference function whose premise checks hold at its
call. -/
def RuleDispatcher.products : Conclusion → List Conclusion
  | .contextInitialization root => dispatcher.onContextInitialization root
  | .subContextInitialization _ property => dispatcher.onSubContextInitialization state property
  | .subClassInclusionDecomposed _ subsumer => dispatcher.onDecomposedSubsumer state subsumer
  | .subClassInclusionComposed _ subsumer => dispatcher.onComposedSubsumer state subsumer
  | .forwardLink _ chain target => dispatcher.onForwardLink state chain target
  | .backwardLink _ relation source => dispatcher.onBackwardLink state relation source
  | .propagation _ relation carry => onPropagation state relation carry
  | .disjointSubsumer _ group position => onDisjointSubsumer state group position
  | .classInconsistency _ => onClassInconsistency state

/-- The fields that `__post_init__` checks, with the names in its errors. -/
def Conclusion.identifiers : Conclusion → List (Nat × String)
  | contextInitialization root => [(root, "context root")]
  | subContextInitialization destination subDestinationProperty =>
    [(destination, "subcontext destination"), (subDestinationProperty, "subcontext property")]
  | subClassInclusionDecomposed destination subsumer =>
    [(destination, "decomposed destination"), (subsumer, "decomposed subsumer")]
  | subClassInclusionComposed destination subsumer =>
    [(destination, "composed destination"), (subsumer, "composed subsumer")]
  | forwardLink destination chain target =>
    [(destination, "forward-link destination"), (chain, "forward-link chain"), (target, "forward-link target")]
  | backwardLink destination relation source =>
    [(destination, "backward-link destination"), (relation, "backward-link relation"),
      (source, "backward-link source")]
  | propagation destination relation carryExistential =>
    [(destination, "propagation destination"), (relation, "propagation relation"),
      (carryExistential, "propagation carry")]
  | disjointSubsumer destination disjointGroup position =>
    [(destination, "disjoint-subsumer destination"), (disjointGroup, "disjoint group"),
      (position, "disjoint position")]
  | classInconsistency destination => [(destination, "inconsistency destination")]

/-- The construction of a conclusion. -/
def Conclusion.checked (conclusion : Conclusion) : Except ReasoningError Conclusion := do
  conclusion.identifiers.forM fun field => checkedId field.1 field.2
  pure conclusion

/-- `_checked_position`. -/
def checkedPosition (position : Nat) : Except ReasoningError Unit :=
  if position < U32_RESERVED then pure ()
  else throw (.valueError "position must be a u32 ID excluding 0xffffffff")

/-- The positions that `subclass_inclusion_composed_object_union_of` is called with. -/
def RuleDispatcher.unionPositions : Conclusion → List Nat
  | .subClassInclusionComposed _ subsumer => (frozenPairs dispatcher.unionsByDisjunct subsumer).map Prod.snd
  | _ => []

/-- `dispatch`: the products are built one after the other, and an ID that does not fit raises.
Over a valid ontology only positions and groups can be refused, those of unions first. -/
def RuleDispatcher.dispatch (premise : Conclusion) : Except ReasoningError (List Conclusion) := do
  (dispatcher.unionPositions premise).forM checkedPosition
  (dispatcher.products state premise).mapM Conclusion.checked

end PyElk
