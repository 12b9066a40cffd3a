import Mathlib.Data.List.ProdSigma
import Mathlib.Data.Set.Card
import PyElk.Reasoning.PropertySpec
import PyElk.Reasoning.Saturation
import PyElk.Reasoning.Schedule

namespace PyElk

/-- The ids in a property view stay inside its chain table and the expression table. -/
structure PropertySaturation.Scoped (compiled : Tables) (properties : PropertySaturation) : Prop where
  composed : ∀ {redundant left right result}, result ∈ properties.compositions redundant left right →
    right < properties.chains.length ∧ result < properties.chains.length
  ranges : ∀ {property range}, range ∈ properties.ranges property → range < compiled.expressions.length

theorem Spells.lt {records : List PropertyChainRecord} {chain : Nat} {properties : List EntityId}
    (spells : Spells records chain properties) : chain < records.length := by
  cases spells with
  | singleton entry => exact (List.getElem?_eq_some_iff.mp entry).1
  | link entry _ => exact (List.getElem?_eq_some_iff.mp entry).1

section

variable {compiled : Tables} {properties : PropertySaturation}

/-- A told super property is a property of the table, told of a chain of the closure. -/
theorem PropertySaturation.Spec.told_lt (spec : properties.Spec compiled) (valid : compiled.Valid)
    {chain : PropertyChainId} {super : EntityId} (told : (chain, super) ∈ compiled.toldSuperProperties properties) :
    chain < properties.chains.length ∧ compiled.EntityOf super .objectProperty := by
  obtain ⟨⟨index, property⟩, listed, same⟩ := List.mem_map.mp told
  cases same
  obtain ⟨bound, object⟩ := valid.subproperty_lt listed
  exact ⟨(spec.compiledChain (List.getElem?_eq_getElem bound)).lt, object⟩

theorem PropertySaturation.Spec.sub_lt (spec : properties.Spec compiled) (valid : compiled.Valid)
    {sub super : PropertyChainId} (below : properties.Sub sub super) :
    sub < properties.chains.length ∧ super < properties.chains.length := by
  obtain ⟨bound, path⟩ := spec.sub_iff.mp below
  refine ⟨?_, bound⟩
  cases path.cases_head with
  | inl same => exact same ▸ bound
  | inr step =>
    obtain ⟨_, ⟨property, told, _⟩, _⟩ := step
    exact (spec.told_lt valid told).1

/-- The closure of a valid table stays inside its IDs. -/
theorem closeProperties_scoped (valid : compiled.Valid) : (closeProperties compiled).Scoped compiled where
  composed := by
    intro redundant left right result composed
    obtain ⟨⟨first, suffix, links, below, _⟩, _⟩ := closeProperties_compositions.mp composed
    exact ⟨((closeProperties_spec valid).sub_lt valid below).1, (List.getElem?_eq_some_iff.mp links).1⟩
  ranges := by
    intro property range inherited
    obtain ⟨super, explicit, _⟩ := (closeProperties_spec valid).range_iff.mp inherited
    exact (valid.range_lt explicit).2

end

/-- Every conclusion over the ids of an ontology. -/
def RuleDispatcher.conclusionUniverse (dispatcher : RuleDispatcher) : List Conclusion :=
  let expressions := List.range dispatcher.compiled.expressions.length
  let entities := List.range dispatcher.compiled.entities.length
  let chains := List.range dispatcher.properties.chains.length
  [expressions.map .contextInitialization,
   (expressions ×ˢ entities).map fun row => .subContextInitialization row.1 row.2,
   (expressions ×ˢ expressions).map fun row => .subClassInclusionDecomposed row.1 row.2,
   (expressions ×ˢ expressions).map fun row => .subClassInclusionComposed row.1 row.2,
   (expressions ×ˢ chains ×ˢ expressions).map fun row => .forwardLink row.1 row.2.1 row.2.2,
   (expressions ×ˢ entities ×ˢ expressions).map fun row => .backwardLink row.1 row.2.1 row.2.2,
   (expressions ×ˢ entities ×ˢ expressions).map fun row => .propagation row.1 row.2.1 row.2.2,
   (expressions ×ˢ dispatcher.disjointByMember).map fun row => .disjointSubsumer row.1 row.2.2.1 row.2.2.2,
   expressions.map .classInconsistency].flatten

/-- The limit counts the conclusions that can be spelt with the IDs of the table. -/
theorem RuleDispatcher.length_conclusionUniverse (dispatcher : RuleDispatcher) :
    dispatcher.conclusionUniverse.length = dispatcher.conclusionLimit := by
  simp only [conclusionUniverse, conclusionLimit, List.flatten_cons, List.flatten_nil, List.append_nil,
    List.length_append, List.length_map, List.length_product, List.length_range]
  omega

section

variable {compiled : Tables} {properties : PropertySaturation} {roots : Set ExpressionId}

/-- The ids of a conclusion are in range. -/
def Conclusion.InRange (compiled : Tables) (properties : PropertySaturation) : Conclusion → Prop
  | .contextInitialization root => root < compiled.expressions.length
  | .subContextInitialization d relation => d < compiled.expressions.length ∧ relation < compiled.entities.length
  | .subClassInclusionDecomposed d subsumer | .subClassInclusionComposed d subsumer =>
    d < compiled.expressions.length ∧ subsumer < compiled.expressions.length
  | .forwardLink d chain target =>
    d < compiled.expressions.length ∧ chain < properties.chains.length ∧ target < compiled.expressions.length
  | .backwardLink d relation other | .propagation d relation other =>
    d < compiled.expressions.length ∧ relation < compiled.entities.length ∧ other < compiled.expressions.length
  | .disjointSubsumer d group position =>
    d < compiled.expressions.length ∧ ∃ member, (member, group, position) ∈ compiled.disjointByMember
  | .classInconsistency d => d < compiled.expressions.length

/-- A conclusion whose IDs are in range can be spelt with the IDs of the table. -/
theorem Conclusion.InRange.mem_universe {c : Conclusion} (inRange : c.InRange compiled properties) :
    c ∈ (RuleDispatcher.new compiled properties).conclusionUniverse := by
  simp only [RuleDispatcher.conclusionUniverse, List.flatten_cons, List.flatten_nil, List.append_nil,
    List.mem_append, List.mem_map, List.mem_range, List.mem_product, Prod.exists]
  cases c <;> simp_all [InRange, RuleDispatcher.new]

theorem Conclusion.InRange.destination {c : Conclusion} (inRange : c.InRange compiled properties) :
    c.destination < compiled.expressions.length := by
  cases c <;> simp only [InRange] at inRange <;> first | exact inRange | exact inRange.1

theorem Tables.Valid.entityId_of {iri : String} {kind : EntityKind} (valid : compiled.Valid)
    (member : (⟨kind, iri⟩ : EntityRecord) ∈ predefinedEntities) :
    compiled.entities[compiled.entityId kind iri]? = some ⟨kind, iri⟩ := by
  have present : ∃ record ∈ compiled.entities, (record.kind == kind && record.iri == iri) = true :=
    ⟨_, valid.predefined member, by simp⟩
  have bound := List.findIdx_lt_length_of_exists present
  have holds := List.findIdx_getElem (w := bound)
  rw [Tables.entityId, List.getElem?_eq_getElem bound]
  generalize compiled.entities[List.findIdx _ compiled.entities] = record at holds ⊢
  obtain ⟨found, name⟩ := record
  simp only [Bool.and_eq_true, beq_iff_eq] at holds
  rw [holds.1, holds.2]

/-- The lookup of a built named expression finds an expression of the entity. -/
theorem Tables.Built.namedExpression {expression : ExpressionId} {tag : ExpressionTag} {entity : EntityId}
    (built : compiled.Built expression tag [entity]) :
    compiled.Built (compiled.namedExpression tag entity) tag [entity] := by
  obtain ⟨payload, entry⟩ := built
  have present : ∃ record ∈ compiled.expressions, (record.tag == tag && record.arguments == [entity]) = true :=
    ⟨_, List.mem_of_getElem? entry, by simp⟩
  have bound := List.findIdx_lt_length_of_exists present
  have holds := List.findIdx_getElem (w := bound)
  rw [Tables.Built, Tables.namedExpression, List.getElem?_eq_getElem bound]
  generalize compiled.expressions[List.findIdx _ compiled.expressions] = record at holds ⊢
  obtain ⟨tag, arguments, content⟩ := record
  simp only [Bool.and_eq_true, beq_iff_eq] at holds
  exact ⟨content, by rw [holds.1, holds.2]⟩

/-- The expression of a named class. -/
theorem Tables.Valid.namedExpression_built {entity : EntityId} (valid : compiled.Valid)
    (found : compiled.EntityOf entity .owlClass) :
    compiled.Built (compiled.namedExpression .owlClass entity) .owlClass [entity] :=
  (valid.named_built found (Or.inl ⟨rfl, rfl⟩)).choose_spec.namedExpression

/-- The expression of a named individual. -/
theorem Tables.Valid.namedIndividual_built {entity : EntityId} (valid : compiled.Valid)
    (found : compiled.EntityOf entity .namedIndividual) :
    compiled.Built (compiled.namedExpression .individual entity) .individual [entity] :=
  (valid.named_built found (Or.inr ⟨rfl, rfl⟩)).choose_spec.namedExpression

/-- The expression of a predefined class. -/
theorem Tables.Valid.classExpression_built {iri : String} (valid : compiled.Valid)
    (member : (⟨.owlClass, iri⟩ : EntityRecord) ∈ predefinedEntities) :
    compiled.Built (compiled.classExpression iri) .owlClass [compiled.entityId .owlClass iri] :=
  valid.namedExpression_built ⟨iri, valid.entityId_of member⟩

theorem Tables.Valid.owlThing_built (valid : compiled.Valid) :
    compiled.Built compiled.owlThing .owlClass [compiled.entityId .owlClass OWL_THING_IRI] :=
  valid.classExpression_built (by simp [predefinedEntities])

theorem Tables.mem_equivalenceRows {first second : ExpressionId} {named : Bool}
    (row : (first, second) ∈ compiled.equivalenceRows named) : (first, second) ∈ compiled.equivalentClassAxioms :=
  (List.mem_filter.mp row).1

/-- A unary inference keeps the IDs in range. -/
theorem UnaryInference.inRange (valid : compiled.Valid) (within : properties.Scoped compiled)
    (told : ∀ {chain super}, (chain, super) ∈ compiled.toldSuperProperties properties →
      super < compiled.entities.length) {premise c : Conclusion}
    (rule : UnaryInference compiled properties premise c) (inRange : premise.InRange compiled properties) :
    c.InRange compiled properties := by
  cases rule with
  | contextInitialization => exact inRange.destination
  | subContextInitialization => exact ⟨inRange.1, inRange.2.1⟩
  | tautology => exact ⟨inRange, inRange⟩
  | owlThing occurs => exact ⟨inRange, valid.owlThing_built.lt⟩
  | expandedSubClassOf row => exact ⟨inRange.1, (valid.subclass_lt row).2⟩
  | expandedDefinition row => exact ⟨inRange.1, (valid.equivalent_lt (Tables.mem_equivalenceRows row)).2⟩
  | composedDefinedClass row => exact ⟨inRange.1, (valid.equivalent_lt (Tables.mem_equivalenceRows row)).1⟩
  | expandedFirstEquivalentClass row =>
    exact ⟨inRange.1, (valid.equivalent_lt (Tables.mem_equivalenceRows row)).1⟩
  | expandedSecondEquivalentClass row =>
    exact ⟨inRange.1, (valid.equivalent_lt (Tables.mem_equivalenceRows row)).2⟩
  | composedOfDecomposed => exact inRange
  | decomposedFirstConjunct built occurs =>
    obtain ⟨_, _, same, bound, _⟩ := valid.shape built
    cases same
    exact ⟨inRange.1, Nat.lt_trans bound inRange.2⟩
  | decomposedSecondConjunct built occurs =>
    obtain ⟨_, _, same, _, bound⟩ := valid.shape built
    cases same
    exact ⟨inRange.1, Nat.lt_trans bound inRange.2⟩
  | composedObjectUnionOf built occurs member => exact ⟨inRange.1, built.lt⟩
  | backwardLinkOfObjectSomeValuesFrom built occurs =>
    obtain ⟨_, _, same, object, bound⟩ := valid.shape built
    cases same
    exact ⟨Nat.lt_trans bound inRange.2, object.lt, inRange.1⟩
  | forwardLinkOfObjectSomeValuesFrom built occurs composable =>
    obtain ⟨_, _, same, _, bound⟩ := valid.shape built
    cases same
    obtain ⟨left, result, composed⟩ := composable
    exact ⟨inRange.1, (within.composed composed).1, Nat.lt_trans bound inRange.2⟩
  | backwardLinkOfObjectHasSelf built occurs =>
    obtain ⟨_, same, object⟩ := valid.shape built
    cases same
    exact ⟨inRange.1, object.lt, inRange.1⟩
  | forwardLinkOfObjectHasSelf built occurs composable =>
    obtain ⟨left, result, composed⟩ := composable
    exact ⟨inRange.1, (within.composed composed).1, inRange.1⟩
  | objectHasSelfPropertyRange built occurs inherited => exact ⟨inRange.1, within.ranges inherited⟩
  | range inherited => exact ⟨inRange.1, within.ranges inherited⟩
  | backwardLinkReversedExpanded complex row => exact ⟨inRange.2.2, told row, inRange.1⟩
  | disjointSubsumer indexed => exact ⟨inRange.1, _, indexed⟩
  | owlNothing occurs => exact inRange.1

/-- A binary inference keeps the IDs in range. -/
theorem BinaryInference.inRange (within : properties.Scoped compiled)
    (told : ∀ {chain super}, (chain, super) ∈ compiled.toldSuperProperties properties →
      super < compiled.entities.length) {p q c : Conclusion}
    (rule : BinaryInference compiled properties p q c) (left : p.InRange compiled properties)
    (right : q.InRange compiled properties) : c.InRange compiled properties := by
  cases rule with
  | composedObjectIntersectionOf built occurs => exact ⟨left.1, built.lt⟩
  | composedObjectSomeValuesFrom => exact ⟨left.2.2, right.2.2⟩
  | propagationGenerated built occurs sub => exact ⟨left.1, left.2, built.lt⟩
  | forwardLinkComposition composed extendable => exact ⟨left.2.2, (within.composed composed).2, right.2.2⟩
  | backwardLinkComposition composed final row => exact ⟨right.2.2, told row, left.2.2⟩
  | disjointSubsumers distinct => exact left.1
  | objectComplementOf built occurs => exact left.1
  | propagated => exact left.2.2

/-- What conclusions over the ids of the ontology derive stays inside of its finite
universe. -/
theorem derives_inRange (valid : compiled.Valid) (within : properties.Scoped compiled) {start : Set Conclusion}
    (given : ∀ c ∈ start, c.InRange compiled properties) {c : Conclusion}
    (derivation : (inferenceRules compiled properties).Derives start c) : c.InRange compiled properties := by
  have told : ∀ {chain super}, (chain, super) ∈ compiled.toldSuperProperties properties →
      super < compiled.entities.length := by
    intro chain super member
    obtain ⟨⟨index, property⟩, listed, same⟩ := List.mem_map.mp member
    cases same
    exact (valid.subproperty_lt listed).2.lt
  induction derivation with
  | start member => exact given _ member
  | unary _ rule ih => exact rule.inRange valid within told ih
  | binary _ _ rule left right => exact rule.inRange within told left right

/-- Every derivable conclusion has its IDs in range. -/
theorem Derivable.inRange (valid : compiled.Valid) (within : properties.Scoped compiled)
    (demanded : ∀ root ∈ roots, root < compiled.expressions.length) {c : Conclusion}
    (derivable : Derivable compiled properties roots c) : c.InRange compiled properties := by
  refine derives_inRange valid within ?_ derivable
  rintro _ ⟨root, member, rfl⟩
  exact demanded root member

end

end PyElk
