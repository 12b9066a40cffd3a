import PyElk.Reasoning.Inference

open Ordered

namespace PyElk

variable {compiled : Tables} {properties : PropertySaturation}

theorem mem_swapped {rows : List (Nat × Nat)} {first second : Nat} :
    (second, first) ∈ rows.map Prod.swap ↔ (first, second) ∈ rows :=
  ⟨fun member => by
    obtain ⟨⟨_, _⟩, row, same⟩ := List.mem_map.mp member
    cases same
    exact row, fun member => List.mem_map.mpr ⟨_, member, rfl⟩⟩

/-- A row under its first conjunct is a binary intersection that occurs negatively. -/
theorem Tables.mem_intersectionsByFirst {first second conjunction : ExpressionId} :
    (first, second, conjunction) ∈ compiled.intersectionsByFirst ↔
      compiled.Built conjunction .objectIntersectionOf [first, second] ∧ compiled.negative conjunction := by
  rw [intersectionsByFirst, mem_indexTag]
  constructor
  · rintro ⟨expression, arguments, built, occurs, member⟩
    split at member
    · cases List.mem_singleton.mp member
      exact ⟨built, occurs⟩
    · exact absurd member List.not_mem_nil
  · rintro ⟨built, occurs⟩
    exact ⟨conjunction, _, built, occurs, List.mem_singleton.mpr rfl⟩

/-- The same intersections, filed under the second conjunct. -/
theorem Tables.mem_intersectionsBySecond {first second conjunction : ExpressionId} :
    (second, first, conjunction) ∈ compiled.intersectionsBySecond ↔
      compiled.Built conjunction .objectIntersectionOf [first, second] ∧ compiled.negative conjunction := by
  rw [intersectionsBySecond, mem_indexTag]
  constructor
  · rintro ⟨expression, arguments, built, occurs, member⟩
    split at member
    · cases List.mem_singleton.mp member
      exact ⟨built, occurs⟩
    · exact absurd member List.not_mem_nil
  · rintro ⟨built, occurs⟩
    exact ⟨conjunction, _, built, occurs, List.mem_singleton.mpr rfl⟩

/-- A row under a disjunct is a union that occurs negatively, with the place the disjunct has in it. -/
theorem Tables.mem_unionsByDisjunct {disjunct union : ExpressionId} {position : Nat} :
    (disjunct, union, position) ∈ compiled.unionsByDisjunct ↔ ∃ disjuncts,
      compiled.Built union .objectUnionOf disjuncts ∧ compiled.negative union ∧
        disjuncts[position]? = some disjunct := by
  rw [unionsByDisjunct, mem_indexTag]
  constructor
  · rintro ⟨expression, arguments, built, occurs, member⟩
    obtain ⟨⟨operand, index⟩, entry, same⟩ := List.mem_map.mp member
    cases same
    exact ⟨arguments, built, occurs, List.mem_zipIdx_iff_getElem?.mp entry⟩
  · rintro ⟨disjuncts, built, occurs, entry⟩
    exact ⟨union, disjuncts, built, occurs,
      List.mem_map.mpr ⟨(disjunct, position), List.mem_zipIdx_iff_getElem?.mpr entry, rfl⟩⟩

/-- A row under a filler is an existential that occurs negatively. -/
theorem Tables.mem_existentialsByFiller {filler existential : ExpressionId} {relation : EntityId} :
    (filler, existential, relation) ∈ compiled.existentialsByFiller ↔
      compiled.Built existential .objectSomeValuesFrom [relation, filler] ∧ compiled.negative existential := by
  rw [existentialsByFiller, mem_indexTag]
  constructor
  · rintro ⟨expression, arguments, built, occurs, member⟩
    split at member
    · cases List.mem_singleton.mp member
      exact ⟨built, occurs⟩
    · exact absurd member List.not_mem_nil
  · rintro ⟨built, occurs⟩
    exact ⟨existential, _, built, occurs, List.mem_singleton.mpr rfl⟩

/-- A row under a negated class is a complement that occurs positively. -/
theorem Tables.mem_complementsByNegated {negated complement : ExpressionId} :
    (negated, complement) ∈ compiled.complementsByNegated ↔
      compiled.Built complement .objectComplementOf [negated] ∧ compiled.positive complement := by
  rw [complementsByNegated, mem_indexTag]
  constructor
  · rintro ⟨expression, arguments, built, occurs, member⟩
    split at member
    · cases List.mem_singleton.mp member
      exact ⟨built, occurs⟩
    · exact absurd member List.not_mem_nil
  · rintro ⟨built, occurs⟩
    exact ⟨complement, _, built, occurs, List.mem_singleton.mpr rfl⟩

theorem Tables.mem_positiveComplements {negated complement : ExpressionId} :
    (complement, negated) ∈ compiled.positiveComplements ↔
      compiled.Built complement .objectComplementOf [negated] ∧ compiled.positive complement := by
  rw [positiveComplements, ← mem_complementsByNegated]
  exact mem_swapped

/-- The compositions of a right chain are grouped by the left property, empty groups left out. -/
theorem PropertySaturation.mem_compositionsByLeft {right : PropertyChainId} {redundant : Bool}
    {row : EntityId × List PropertyChainId} :
    row ∈ properties.compositionsByLeft redundant right ↔
      (∃ result, result ∈ properties.compositions redundant row.1 right) ∧
        row.2 = properties.compositions redundant row.1 right := by
  obtain ⟨left, results⟩ := row
  simp only [compositionsByLeft, List.mem_map, mem_sortedSet, compositions, List.mem_filter, beq_iff_eq,
    Bool.and_eq_true, Prod.mk.injEq]
  constructor
  · rintro ⟨_, ⟨composition, ⟨member, rightSame⟩, rfl⟩, rfl, rfl⟩
    exact ⟨⟨composition.resultChain, composition, ⟨member, rfl, rightSame⟩, rfl⟩, rfl⟩
  · rintro ⟨⟨_, composition, ⟨member, leftSame, rightSame⟩, rfl⟩, rfl⟩
    exact ⟨left, ⟨composition, ⟨member, rightSame⟩, leftSame⟩, rfl, rfl⟩

/-- The compositions of a left property are grouped by the right chain, empty groups left out. -/
theorem PropertySaturation.mem_compositionsByRight {left : EntityId} {redundant : Bool}
    {row : PropertyChainId × List PropertyChainId} :
    row ∈ properties.compositionsByRight redundant left ↔
      (∃ result, result ∈ properties.compositions redundant left row.1) ∧
        row.2 = properties.compositions redundant left row.1 := by
  obtain ⟨right, results⟩ := row
  simp only [compositionsByRight, List.mem_map, mem_sortedSet, compositions, List.mem_filter, beq_iff_eq,
    Bool.and_eq_true, Prod.mk.injEq]
  constructor
  · rintro ⟨_, ⟨composition, ⟨member, leftSame⟩, rfl⟩, rfl, rfl⟩
    exact ⟨⟨composition.resultChain, composition, ⟨member, leftSame, rfl⟩, rfl⟩, rfl⟩
  · rintro ⟨⟨_, composition, ⟨member, leftSame, rightSame⟩, rfl⟩, rfl⟩
    exact ⟨right, ⟨composition, ⟨member, leftSame⟩, rightSame⟩, rfl, rfl⟩

theorem PropertySaturation.compositionsByLeft_nonempty {right : PropertyChainId} {redundant : Bool} :
    !(properties.compositionsByLeft redundant right).isEmpty ↔
      ∃ left result, result ∈ properties.compositions redundant left right := by
  rw [Bool.not_eq_true', List.isEmpty_eq_false_iff_exists_mem]
  constructor
  · rintro ⟨row, member⟩
    obtain ⟨⟨result, composed⟩, _⟩ := mem_compositionsByLeft.mp member
    exact ⟨row.1, result, composed⟩
  · rintro ⟨left, result, composed⟩
    exact ⟨(left, properties.compositions redundant left right),
      mem_compositionsByLeft.mpr ⟨⟨result, composed⟩, rfl⟩⟩

/-- The lookup of `composable` decides whether a chain is the right premise of a composition. -/
theorem RuleDispatcher.composable_iff {dispatcher : RuleDispatcher} {chain : PropertyChainId} :
    dispatcher.composable chain ↔ dispatcher.properties.Composable chain :=
  PropertySaturation.compositionsByLeft_nonempty

/-- `_chain_is_extendable` decides whether some composition, redundant or not, extends a chain. -/
theorem RuleDispatcher.chainIsExtendable_iff {dispatcher : RuleDispatcher} {chain : PropertyChainId} :
    dispatcher.chainIsExtendable chain ↔ dispatcher.properties.Extendable chain := by
  rw [chainIsExtendable, Bool.or_eq_true, PropertySaturation.compositionsByLeft_nonempty,
    PropertySaturation.compositionsByLeft_nonempty]
  constructor
  · rintro (⟨left, result, composed⟩ | ⟨left, result, composed⟩)
    · exact ⟨false, left, result, composed⟩
    · exact ⟨true, left, result, composed⟩
  · rintro ⟨_ | _, left, result, composed⟩
    · exact Or.inl ⟨left, result, composed⟩
    · exact Or.inr ⟨left, result, composed⟩

/-- An extendable result becomes a forward link, any other one a backward link for each property told above it. -/
theorem RuleDispatcher.mem_produceLinkComposition {dispatcher : RuleDispatcher} {source target : ExpressionId}
    {result : PropertyChainId} {c : Conclusion} :
    c ∈ dispatcher.produceLinkComposition source target result ↔
      (dispatcher.properties.Extendable result ∧ c = .forwardLink source result target) ∨
      (¬ dispatcher.properties.Extendable result ∧
        ∃ super, (result, super) ∈ dispatcher.toldSuperProperties ∧ c = .backwardLink target super source) := by
  unfold produceLinkComposition
  split
  · rename_i extendable
    have holds := chainIsExtendable_iff.mp extendable
    simp only [List.mem_singleton, holds, true_and, not_true_eq_false, false_and, or_false]
  · rename_i final
    have fails : ¬ dispatcher.properties.Extendable result := fun holds => final (chainIsExtendable_iff.mpr holds)
    simp only [List.mem_map, mem_frozenIndex, fails, false_and, not_false_eq_true, true_and, false_or]
    constructor
    · rintro ⟨super, told, rfl⟩
      exact ⟨super, told, rfl⟩
    · rintro ⟨super, told, rfl⟩
      exact ⟨super, told, rfl⟩

section

variable {state : Context} {stored : Set Conclusion} {c : Conclusion}

theorem mem_multimapGet {rows : List (Nat × Nat)} {key value : Nat} :
    value ∈ multimapGet rows key ↔ (key, value) ∈ rows :=
  mem_frozenIndex

/-- The local premises that a family index of a mirrors context stands for. -/
theorem Context.Mirrors.composed (mirrors : state.Mirrors stored) {x : ExpressionId} :
    x ∈ state.composedSubsumers ↔ .subClassInclusionComposed state.root x ∈ stored :=
  mirrors (.subClassInclusionComposed state.root x) rfl

theorem Context.Mirrors.decomposed (mirrors : state.Mirrors stored) {x : ExpressionId} :
    x ∈ state.decomposedSubsumers ↔ .subClassInclusionDecomposed state.root x ∈ stored :=
  mirrors (.subClassInclusionDecomposed state.root x) rfl

theorem Context.Mirrors.backward (mirrors : state.Mirrors stored) {relation : EntityId} {source : ExpressionId} :
    (relation, source) ∈ state.backwardLinks ↔ .backwardLink state.root relation source ∈ stored :=
  mirrors (.backwardLink state.root relation source) rfl

theorem Context.Mirrors.forward (mirrors : state.Mirrors stored) {chain : PropertyChainId}
    {target : ExpressionId} :
    (chain, target) ∈ state.forwardLinks ↔ .forwardLink state.root chain target ∈ stored :=
  mirrors (.forwardLink state.root chain target) rfl

theorem Context.Mirrors.propagation (mirrors : state.Mirrors stored) {relation : EntityId}
    {carry : ExpressionId} :
    (relation, carry) ∈ state.propagations ↔ .propagation state.root relation carry ∈ stored :=
  mirrors (.propagation state.root relation carry) rfl

theorem Context.Mirrors.disjoint (mirrors : state.Mirrors stored) {group : DisjointGroupId} {position : Nat} :
    (group, position) ∈ state.disjointPositions ↔
      .disjointSubsumer state.root group position ∈ stored :=
  mirrors (.disjointSubsumer state.root group position) rfl

theorem Context.Mirrors.subcontext (mirrors : state.Mirrors stored) {property : EntityId} :
    property ∈ state.initializedSubcontexts ↔ .subContextInitialization state.root property ∈ stored :=
  mirrors (.subContextInitialization state.root property) rfl

theorem Context.Mirrors.inconsistency (mirrors : state.Mirrors stored) :
    state.inconsistent = true ↔ .classInconsistency state.root ∈ stored :=
  mirrors (.classInconsistency state.root) rfl

end

/-- A product of a stored premise follows from it, alone or with another stored one. -/
def LocalInference (compiled : Tables) (properties : PropertySaturation) (stored : Set Conclusion)
    (premise c : Conclusion) : Prop :=
  UnaryInference compiled properties premise c ∨
    ∃ q ∈ stored,
      BinaryInference compiled properties premise q c ∨ BinaryInference compiled properties q premise c

section

variable {state : Context} {stored : Set Conclusion} {c : Conclusion}

/-- What an initialized context produces has a unary inference behind it. -/
theorem onContextInitialization_sound {root : ExpressionId}
    (member : c ∈ (RuleDispatcher.new compiled properties).onContextInitialization root) :
    UnaryInference compiled properties (.contextInitialization root) c := by
  rcases List.mem_cons.mp member with rfl | member
  · exact .tautology
  · split at member
    · rename_i occurs
      rw [List.mem_singleton.mp member]
      exact .owlThing occurs
    · exact absurd member List.not_mem_nil

theorem onSubContextInitialization_sound (mirrors : state.Mirrors stored) {property : EntityId}
    (member : c ∈ (RuleDispatcher.new compiled properties).onSubContextInitialization state property) :
    LocalInference compiled properties stored (.subContextInitialization state.root property) c := by
  simp only [RuleDispatcher.onSubContextInitialization, List.mem_flatMap, List.mem_map, List.mem_filter,
    mem_sortedBy, mem_frozenIndex, decide_eq_true_eq, Prod.exists] at member
  obtain ⟨filler, composed, existential, relation, ⟨indexed, sub⟩, rfl⟩ := member
  obtain ⟨built, occurs⟩ := Tables.mem_existentialsByFiller.mp indexed
  exact Or.inr ⟨_, mirrors.composed.mp composed, Or.inl (.propagationGenerated built occurs sub)⟩

theorem decompose_sound (mirrors : state.Mirrors stored) {subsumer : ExpressionId}
    (member : c ∈ (RuleDispatcher.new compiled properties).decompose state subsumer) :
    LocalInference compiled properties stored (.subClassInclusionDecomposed state.root subsumer) c := by
  unfold RuleDispatcher.decompose at member
  split at member
  · exact absurd member List.not_mem_nil
  rename_i record entry
  obtain ⟨tag, arguments, payload⟩ := record
  split at member
  · rename_i guard
    have occurs : compiled.positive subsumer := guard
    have built : compiled.Built subsumer tag arguments := ⟨payload, entry⟩
    dsimp only at member
    unfold RuleDispatcher.decomposeRecord at member
    split at member
    · rcases List.mem_cons.mp member with rfl | member
      · exact Or.inl (.decomposedFirstConjunct built occurs)
      · rw [List.mem_singleton.mp member]
        exact Or.inl (.decomposedSecondConjunct built occurs)
    · rcases List.mem_cons.mp member with rfl | member
      · exact Or.inl (.backwardLinkOfObjectSomeValuesFrom built occurs)
      · split at member
        · rename_i composable
          rw [List.mem_singleton.mp member]
          exact Or.inl (.forwardLinkOfObjectSomeValuesFrom built occurs
            (RuleDispatcher.composable_iff.mp composable))
        · exact absurd member List.not_mem_nil
    · rcases List.mem_cons.mp member with rfl | member
      · exact Or.inl (.backwardLinkOfObjectHasSelf built occurs)
      · rcases List.mem_append.mp member with member | member
        · split at member
          · rename_i composable
            rw [List.mem_singleton.mp member]
            exact Or.inl (.forwardLinkOfObjectHasSelf built occurs
              (RuleDispatcher.composable_iff.mp composable))
          · exact absurd member List.not_mem_nil
        · obtain ⟨range, inherited, rfl⟩ := List.mem_map.mp member
          exact Or.inl (.objectHasSelfPropertyRange built occurs inherited)
    · simp only [List.mem_map, List.mem_filter, mem_frozenIndex, decide_eq_true_eq] at member
      obtain ⟨negated, ⟨indexed, composed⟩, rfl⟩ := member
      obtain ⟨built, occurs⟩ := Tables.mem_positiveComplements.mp indexed
      exact Or.inr ⟨_, mirrors.composed.mp composed, Or.inr (.objectComplementOf built occurs)⟩
    · exact absurd member List.not_mem_nil
  · exact absurd member List.not_mem_nil

/-- What a decomposed subsumer produces follows by a local inference from what the context stores. -/
theorem onDecomposedSubsumer_sound (mirrors : state.Mirrors stored) {subsumer : ExpressionId}
    (member : c ∈ (RuleDispatcher.new compiled properties).onDecomposedSubsumer state subsumer) :
    LocalInference compiled properties stored (.subClassInclusionDecomposed state.root subsumer) c := by
  rcases List.mem_cons.mp member with rfl | member
  · exact Or.inl .composedOfDecomposed
  rcases List.mem_append.mp member with member | member
  · rcases List.mem_append.mp member with member | member
    · obtain ⟨definition, row, rfl⟩ := List.mem_map.mp member
      exact Or.inl (.expandedDefinition (mem_frozenIndex.mp row))
    · exact decompose_sound mirrors member
  · split at member
    · rename_i guard
      rw [List.mem_singleton.mp member, guard.2]
      exact Or.inl (.owlNothing guard.1)
    · exact absurd member List.not_mem_nil

/-- What a composed subsumer produces follows by a local inference from what the context stores. -/
theorem onComposedSubsumer_sound (mirrors : state.Mirrors stored) {subsumer : ExpressionId}
    (member : c ∈ (RuleDispatcher.new compiled properties).onComposedSubsumer state subsumer) :
    LocalInference compiled properties stored (.subClassInclusionComposed state.root subsumer) c := by
  simp only [RuleDispatcher.onComposedSubsumer, List.flatten_cons, List.flatten_nil, List.mem_append,
    List.mem_map, List.mem_flatMap, List.mem_filter, mem_sortedBy, mem_frozenIndex, decide_eq_true_eq,
    List.not_mem_nil, or_false, Prod.exists] at member
  rcases member with ⟨super, row, rfl⟩ | ⟨defined, row, rfl⟩ | ⟨first, row, rfl⟩ | ⟨second, row, rfl⟩ |
    ⟨second, conjunction, ⟨indexed, composed⟩, rfl⟩ | ⟨first, conjunction, ⟨indexed, composed⟩, rfl⟩ |
    ⟨union, position, indexed, rfl⟩ | ⟨existential, property, indexed, relation, ⟨initialized, sub⟩, rfl⟩ |
    ⟨complement, ⟨indexed, decomposed⟩, rfl⟩ | ⟨group, position, indexed, rfl⟩
  · exact Or.inl (.expandedSubClassOf row)
  · exact Or.inl (.composedDefinedClass (mem_swapped.mp row))
  · exact Or.inl (.expandedFirstEquivalentClass (mem_swapped.mp row))
  · exact Or.inl (.expandedSecondEquivalentClass row)
  · obtain ⟨built, occurs⟩ := Tables.mem_intersectionsByFirst.mp indexed
    exact Or.inr ⟨_, mirrors.composed.mp composed, Or.inl (.composedObjectIntersectionOf built occurs)⟩
  · obtain ⟨built, occurs⟩ := Tables.mem_intersectionsBySecond.mp indexed
    exact Or.inr ⟨_, mirrors.composed.mp composed, Or.inr (.composedObjectIntersectionOf built occurs)⟩
  · obtain ⟨disjuncts, built, occurs, entry⟩ := Tables.mem_unionsByDisjunct.mp indexed
    exact Or.inl (.composedObjectUnionOf built occurs (List.mem_of_getElem? entry))
  · obtain ⟨built, occurs⟩ := Tables.mem_existentialsByFiller.mp indexed
    exact Or.inr ⟨_, mirrors.subcontext.mp initialized, Or.inr (.propagationGenerated built occurs sub)⟩
  · obtain ⟨built, occurs⟩ := Tables.mem_complementsByNegated.mp indexed
    exact Or.inr ⟨_, mirrors.decomposed.mp decomposed, Or.inl (.objectComplementOf built occurs)⟩
  · exact Or.inl (.disjointSubsumer indexed)

theorem PropertySaturation.complex_iff {chain : PropertyChainId} :
    properties.Complex chain ↔ (properties.chains[chain]?).bind PropertyChainRecord.suffixChain ≠ none := by
  unfold Complex
  cases properties.chains[chain]? with
  | none => simp
  | some record => simp

/-- The conclusions of one composition of a backward and a forward link. -/
theorem produceLinkComposition_sound {d source target : ExpressionId} {relation : EntityId}
    {chain result : PropertyChainId} (composed : result ∈ properties.compositions false relation chain)
    (member : c ∈ (RuleDispatcher.new compiled properties).produceLinkComposition source target result) :
    BinaryInference compiled properties (.backwardLink d relation source) (.forwardLink d chain target) c := by
  rcases RuleDispatcher.mem_produceLinkComposition.mp member with ⟨extendable, rfl⟩ | ⟨final, super, told, rfl⟩
  · exact .forwardLinkComposition composed extendable
  · exact .backwardLinkComposition composed final told

/-- What a forward link produces follows by a local inference from what the context stores. -/
theorem onForwardLink_sound (mirrors : state.Mirrors stored) {chain : PropertyChainId} {target : ExpressionId}
    (member : c ∈ (RuleDispatcher.new compiled properties).onForwardLink state chain target) :
    LocalInference compiled properties stored (.forwardLink state.root chain target) c := by
  rcases List.mem_append.mp member with member | member
  · split at member
    · exact absurd member List.not_mem_nil
    · rename_i complex
      obtain ⟨super, told, rfl⟩ := List.mem_map.mp member
      exact Or.inl (.backwardLinkReversedExpanded (PropertySaturation.complex_iff.mpr complex)
        (mem_frozenIndex.mp told))
  · simp only [List.mem_flatMap, mem_multimapGet] at member
    obtain ⟨row, entry, source, link, result, composed, product⟩ := member
    rw [(PropertySaturation.mem_compositionsByLeft.mp entry).2] at composed
    exact Or.inr ⟨_, mirrors.backward.mp link, Or.inr (produceLinkComposition_sound composed product)⟩

/-- What a backward link produces follows by a local inference from what the context stores. -/
theorem onBackwardLink_sound (mirrors : state.Mirrors stored) {relation : EntityId} {source : ExpressionId}
    (member : c ∈ (RuleDispatcher.new compiled properties).onBackwardLink state relation source) :
    LocalInference compiled properties stored (.backwardLink state.root relation source) c := by
  rcases List.mem_cons.mp member with rfl | member
  · exact Or.inl .subContextInitialization
  simp only [List.mem_append, List.mem_map, List.mem_flatMap, mem_multimapGet] at member
  rcases member with ((⟨carry, propagated, rfl⟩ | member) | ⟨range, inherited, rfl⟩) |
    ⟨row, entry, target, link, result, composed, product⟩
  · exact Or.inr ⟨_, mirrors.propagation.mp propagated, Or.inl .composedObjectSomeValuesFrom⟩
  · split at member
    · rename_i inconsistent
      rw [List.mem_singleton.mp member]
      exact Or.inr ⟨_, mirrors.inconsistency.mp inconsistent, Or.inl .propagated⟩
    · exact absurd member List.not_mem_nil
  · exact Or.inl (.range inherited)
  · rw [(PropertySaturation.mem_compositionsByRight.mp entry).2] at composed
    exact Or.inr ⟨_, mirrors.forward.mp link, Or.inl (produceLinkComposition_sound composed product)⟩

/-- Every product of a dispatch is an inference from the premise. -/
theorem dispatch_sound (mirrors : state.Mirrors stored) {premise : Conclusion}
    (owner : premise.destination = state.root)
    (member : c ∈ (RuleDispatcher.new compiled properties).products state premise) :
    LocalInference compiled properties stored premise c := by
  cases premise <;> simp only [Conclusion.destination] at owner <;> subst owner
  case contextInitialization => exact Or.inl (onContextInitialization_sound member)
  case subContextInitialization => exact onSubContextInitialization_sound mirrors member
  case subClassInclusionDecomposed => exact onDecomposedSubsumer_sound mirrors member
  case subClassInclusionComposed => exact onComposedSubsumer_sound mirrors member
  case forwardLink => exact onForwardLink_sound mirrors member
  case backwardLink => exact onBackwardLink_sound mirrors member
  case propagation relation carry =>
    obtain ⟨source, link, rfl⟩ := List.mem_map.mp member
    exact Or.inr ⟨_, mirrors.backward.mp (mem_multimapGet.mp link), Or.inr .composedObjectSomeValuesFrom⟩
  case disjointSubsumer group position =>
    obtain ⟨other, found, rfl⟩ := List.mem_map.mp member
    obtain ⟨indexed, distinct⟩ := List.mem_filter.mp found
    exact Or.inr ⟨_, mirrors.disjoint.mp (mem_multimapGet.mp indexed),
      Or.inr (.disjointSubsumers (of_decide_eq_true distinct))⟩
  case classInconsistency =>
    obtain ⟨⟨relation, source⟩, link, rfl⟩ := List.mem_map.mp member
    exact Or.inr ⟨_, mirrors.backward.mp (mem_sortedBy.mp link), Or.inr .propagated⟩

/-- An expression that occurs positively is decomposed by the record it was built with. -/
theorem RuleDispatcher.decompose_built {subsumer : ExpressionId} {tag : ExpressionTag} {arguments : List Nat}
    (built : compiled.Built subsumer tag arguments) (occurs : compiled.positive subsumer) :
    (RuleDispatcher.new compiled properties).decompose state subsumer =
      (RuleDispatcher.new compiled properties).decomposeRecord state subsumer tag arguments := by
  obtain ⟨payload, entry⟩ := built
  have present : (RuleDispatcher.new compiled properties).compiled.expressions[subsumer]? =
      some ⟨tag, arguments, payload⟩ := entry
  have guard : (RuleDispatcher.new compiled properties).compiled.positive subsumer = true := occurs
  unfold RuleDispatcher.decompose
  rw [present]
  exact if_pos guard

/-- Every inference with one premise is made when the premise is dispatched. -/
theorem dispatch_unary {premise : Conclusion} (owner : premise.destination = state.root)
    (rule : UnaryInference compiled properties premise c) :
    c = .contextInitialization state.root ∨ c ∈ (RuleDispatcher.new compiled properties).products state premise := by
  have decomposed : ∀ {subsumer}, c ∈ (RuleDispatcher.new compiled properties).decompose state subsumer →
      c ∈ (RuleDispatcher.new compiled properties).onDecomposedSubsumer state subsumer := fun member =>
    List.mem_cons_of_mem _ (List.mem_append_left _ (List.mem_append_right _ member))
  cases rule with
  | contextInitialization => exact Or.inl (by rw [owner])
  | subContextInitialization =>
    subst owner
    exact Or.inr List.mem_cons_self
  | tautology => exact Or.inr List.mem_cons_self
  | owlThing occurs =>
    refine Or.inr (List.mem_cons_of_mem _ ?_)
    rw [if_pos (show (RuleDispatcher.new compiled properties).introduceThing = true from occurs)]
    exact List.mem_singleton.mpr rfl
  | expandedSubClassOf row =>
    subst owner
    right
    simp only [RuleDispatcher.products, RuleDispatcher.onComposedSubsumer, List.flatten_cons, List.mem_append]
    exact Or.inl (List.mem_map.mpr ⟨_, mem_frozenIndex.mpr row, rfl⟩)
  | expandedDefinition row =>
    subst owner
    exact Or.inr (List.mem_cons_of_mem _ (List.mem_append_left _ (List.mem_append_left _
      (List.mem_map.mpr ⟨_, mem_frozenIndex.mpr row, rfl⟩))))
  | composedDefinedClass row =>
    subst owner
    right
    simp only [RuleDispatcher.products, RuleDispatcher.onComposedSubsumer, List.flatten_cons, List.mem_append]
    exact Or.inr (Or.inl (List.mem_map.mpr ⟨_, mem_frozenIndex.mpr (mem_swapped.mpr row), rfl⟩))
  | expandedFirstEquivalentClass row =>
    subst owner
    right
    simp only [RuleDispatcher.products, RuleDispatcher.onComposedSubsumer, List.flatten_cons, List.mem_append]
    exact Or.inr (Or.inr (Or.inl (List.mem_map.mpr ⟨_, mem_frozenIndex.mpr (mem_swapped.mpr row), rfl⟩)))
  | expandedSecondEquivalentClass row =>
    subst owner
    right
    simp only [RuleDispatcher.products, RuleDispatcher.onComposedSubsumer, List.flatten_cons, List.mem_append]
    exact Or.inr (Or.inr (Or.inr (Or.inl (List.mem_map.mpr ⟨_, mem_frozenIndex.mpr row, rfl⟩))))
  | composedOfDecomposed =>
    subst owner
    exact Or.inr List.mem_cons_self
  | decomposedFirstConjunct built occurs =>
    subst owner
    refine Or.inr (decomposed ?_)
    rw [RuleDispatcher.decompose_built built occurs]
    exact List.mem_cons_self
  | decomposedSecondConjunct built occurs =>
    subst owner
    refine Or.inr (decomposed ?_)
    rw [RuleDispatcher.decompose_built built occurs]
    exact List.mem_cons_of_mem _ List.mem_cons_self
  | composedObjectUnionOf built occurs member =>
    subst owner
    right
    obtain ⟨position, entry⟩ := List.mem_iff_getElem?.mp member
    simp only [RuleDispatcher.products, RuleDispatcher.onComposedSubsumer, List.flatten_cons, List.mem_append]
    exact Or.inr (Or.inr (Or.inr (Or.inr (Or.inr (Or.inr (Or.inl (List.mem_map.mpr ⟨(_, position),
      mem_frozenIndex.mpr (Tables.mem_unionsByDisjunct.mpr ⟨_, built, occurs, entry⟩), rfl⟩)))))))
  | backwardLinkOfObjectSomeValuesFrom built occurs =>
    subst owner
    refine Or.inr (decomposed ?_)
    rw [RuleDispatcher.decompose_built built occurs]
    exact List.mem_cons_self
  | forwardLinkOfObjectSomeValuesFrom built occurs composable =>
    subst owner
    refine Or.inr (decomposed ?_)
    rw [RuleDispatcher.decompose_built built occurs]
    refine List.mem_cons_of_mem _ ?_
    rw [if_pos (RuleDispatcher.composable_iff.mpr composable)]
    exact List.mem_singleton.mpr rfl
  | backwardLinkOfObjectHasSelf built occurs =>
    subst owner
    refine Or.inr (decomposed ?_)
    rw [RuleDispatcher.decompose_built built occurs]
    exact List.mem_cons_self
  | forwardLinkOfObjectHasSelf built occurs composable =>
    subst owner
    refine Or.inr (decomposed ?_)
    rw [RuleDispatcher.decompose_built built occurs]
    refine List.mem_cons_of_mem _ (List.mem_append_left _ ?_)
    rw [if_pos (RuleDispatcher.composable_iff.mpr composable)]
    exact List.mem_singleton.mpr rfl
  | objectHasSelfPropertyRange built occurs inherited =>
    subst owner
    refine Or.inr (decomposed ?_)
    rw [RuleDispatcher.decompose_built built occurs]
    exact List.mem_cons_of_mem _ (List.mem_append_right _ (List.mem_map.mpr ⟨_, inherited, rfl⟩))
  | range inherited =>
    subst owner
    exact Or.inr (List.mem_cons_of_mem _ (List.mem_append_left _ (List.mem_append_right _
      (List.mem_map.mpr ⟨_, inherited, rfl⟩))))
  | backwardLinkReversedExpanded complex told =>
    subst owner
    refine Or.inr (List.mem_append_left _ ?_)
    split
    · rename_i singleton
      exact absurd singleton (PropertySaturation.complex_iff.mp complex)
    · exact List.mem_map.mpr ⟨_, mem_frozenIndex.mpr told, rfl⟩
  | disjointSubsumer indexed =>
    subst owner
    right
    simp only [RuleDispatcher.products, RuleDispatcher.onComposedSubsumer, List.flatten_cons, List.mem_append]
    exact Or.inr (Or.inr (Or.inr (Or.inr (Or.inr (Or.inr (Or.inr (Or.inr (Or.inr (Or.inl
      (List.mem_map.mpr ⟨(_, _), mem_frozenIndex.mpr indexed, rfl⟩))))))))))
  | owlNothing occurs =>
    subst owner
    refine Or.inr (List.mem_cons_of_mem _ (List.mem_append_right _ ?_))
    rw [if_pos (show (RuleDispatcher.new compiled properties).decomposeNothing = true ∧
      compiled.owlNothing = (RuleDispatcher.new compiled properties).owlNothing from ⟨occurs, rfl⟩)]
    exact List.mem_singleton.mpr rfl

/-- An inference with two premises is made when the first one is dispatched. -/
theorem dispatch_binary_left (mirrors : state.Mirrors stored) {premise q : Conclusion}
    (owner : premise.destination = state.root) (member : q ∈ stored)
    (rule : BinaryInference compiled properties premise q c) :
    c ∈ (RuleDispatcher.new compiled properties).products state premise := by
  cases rule with
  | @composedObjectIntersectionOf _ conjunction first second built occurs =>
    subst owner
    simp only [RuleDispatcher.products, RuleDispatcher.onComposedSubsumer, List.flatten_cons, List.mem_append]
    refine Or.inr (Or.inr (Or.inr (Or.inr (Or.inl (List.mem_map.mpr ⟨(second, conjunction), ?_, rfl⟩)))))
    exact List.mem_filter.mpr ⟨mem_frozenIndex.mpr (Tables.mem_intersectionsByFirst.mpr ⟨built, occurs⟩),
      decide_eq_true (mirrors.composed.mpr member)⟩
  | composedObjectSomeValuesFrom =>
    subst owner
    exact List.mem_cons_of_mem _ (List.mem_append_left _ (List.mem_append_left _ (List.mem_append_left _
      (List.mem_map.mpr ⟨_, mem_multimapGet.mpr (mirrors.propagation.mpr member), rfl⟩))))
  | @propagationGenerated _ relation existential property filler built occurs sub =>
    subst owner
    refine List.mem_flatMap.mpr ⟨_, mem_sortedBy.mpr (mirrors.composed.mpr member), ?_⟩
    exact List.mem_map.mpr ⟨(existential, property), List.mem_filter.mpr
      ⟨mem_frozenIndex.mpr (Tables.mem_existentialsByFiller.mpr ⟨built, occurs⟩), decide_eq_true sub⟩, rfl⟩
  | @forwardLinkComposition _ relation source chain target result composed extendable =>
    subst owner
    refine List.mem_cons_of_mem _ (List.mem_append_right _ (List.mem_flatMap.mpr
      ⟨(chain, properties.compositions false relation chain),
        PropertySaturation.mem_compositionsByRight.mpr ⟨⟨_, composed⟩, rfl⟩, ?_⟩))
    refine List.mem_flatMap.mpr ⟨_, mem_multimapGet.mpr (mirrors.forward.mpr member), ?_⟩
    exact List.mem_flatMap.mpr ⟨_, composed,
      RuleDispatcher.mem_produceLinkComposition.mpr (Or.inl ⟨extendable, rfl⟩)⟩
  | @backwardLinkComposition _ relation source chain target result super composed final told =>
    subst owner
    refine List.mem_cons_of_mem _ (List.mem_append_right _ (List.mem_flatMap.mpr
      ⟨(chain, properties.compositions false relation chain),
        PropertySaturation.mem_compositionsByRight.mpr ⟨⟨_, composed⟩, rfl⟩, ?_⟩))
    refine List.mem_flatMap.mpr ⟨_, mem_multimapGet.mpr (mirrors.forward.mpr member), ?_⟩
    exact List.mem_flatMap.mpr ⟨_, composed,
      RuleDispatcher.mem_produceLinkComposition.mpr (Or.inr ⟨final, _, told, rfl⟩)⟩
  | disjointSubsumers distinct =>
    subst owner
    exact List.mem_map.mpr ⟨_, List.mem_filter.mpr
      ⟨mem_multimapGet.mpr (mirrors.disjoint.mpr member), decide_eq_true distinct.symm⟩, rfl⟩
  | objectComplementOf built occurs =>
    subst owner
    simp only [RuleDispatcher.products, RuleDispatcher.onComposedSubsumer, List.flatten_cons, List.mem_append]
    refine Or.inr (Or.inr (Or.inr (Or.inr (Or.inr (Or.inr (Or.inr (Or.inr (Or.inl ?_))))))))
    exact List.mem_map.mpr ⟨_, List.mem_filter.mpr
      ⟨mem_frozenIndex.mpr (Tables.mem_complementsByNegated.mpr ⟨built, occurs⟩),
        decide_eq_true (mirrors.decomposed.mpr member)⟩, rfl⟩
  | propagated =>
    subst owner
    refine List.mem_cons_of_mem _ (List.mem_append_left _ (List.mem_append_left _ (List.mem_append_right _ ?_)))
    rw [if_pos (mirrors.inconsistency.mpr member)]
    exact List.mem_singleton.mpr rfl

/-- An inference with two premises is made when the second one is dispatched. -/
theorem dispatch_binary_right (mirrors : state.Mirrors stored) {premise q : Conclusion}
    (owner : premise.destination = state.root) (member : q ∈ stored)
    (rule : BinaryInference compiled properties q premise c) :
    c ∈ (RuleDispatcher.new compiled properties).products state premise := by
  cases rule with
  | @composedObjectIntersectionOf _ conjunction first second built occurs =>
    subst owner
    simp only [RuleDispatcher.products, RuleDispatcher.onComposedSubsumer, List.flatten_cons, List.mem_append]
    refine Or.inr (Or.inr (Or.inr (Or.inr (Or.inr (Or.inl (List.mem_map.mpr ⟨(first, conjunction), ?_, rfl⟩))))))
    exact List.mem_filter.mpr ⟨mem_frozenIndex.mpr (Tables.mem_intersectionsBySecond.mpr ⟨built, occurs⟩),
      decide_eq_true (mirrors.composed.mpr member)⟩
  | composedObjectSomeValuesFrom =>
    subst owner
    exact List.mem_map.mpr ⟨_, mem_multimapGet.mpr (mirrors.backward.mpr member), rfl⟩
  | @propagationGenerated _ relation existential property filler built occurs sub =>
    subst owner
    simp only [RuleDispatcher.products, RuleDispatcher.onComposedSubsumer, List.flatten_cons, List.mem_append]
    refine Or.inr (Or.inr (Or.inr (Or.inr (Or.inr (Or.inr (Or.inr (Or.inl ?_)))))))
    refine List.mem_flatMap.mpr ⟨(existential, property), mem_frozenIndex.mpr
      (Tables.mem_existentialsByFiller.mpr ⟨built, occurs⟩), ?_⟩
    exact List.mem_map.mpr ⟨_, List.mem_filter.mpr
      ⟨mem_sortedBy.mpr (mirrors.subcontext.mpr member), decide_eq_true sub⟩, rfl⟩
  | @forwardLinkComposition _ relation source chain target result composed extendable =>
    subst owner
    refine List.mem_append_right _ (List.mem_flatMap.mpr
      ⟨(relation, properties.compositions false relation chain),
        PropertySaturation.mem_compositionsByLeft.mpr ⟨⟨_, composed⟩, rfl⟩, ?_⟩)
    refine List.mem_flatMap.mpr ⟨_, mem_multimapGet.mpr (mirrors.backward.mpr member), ?_⟩
    exact List.mem_flatMap.mpr ⟨_, composed,
      RuleDispatcher.mem_produceLinkComposition.mpr (Or.inl ⟨extendable, rfl⟩)⟩
  | @backwardLinkComposition _ relation source chain target result super composed final told =>
    subst owner
    refine List.mem_append_right _ (List.mem_flatMap.mpr
      ⟨(relation, properties.compositions false relation chain),
        PropertySaturation.mem_compositionsByLeft.mpr ⟨⟨_, composed⟩, rfl⟩, ?_⟩)
    refine List.mem_flatMap.mpr ⟨_, mem_multimapGet.mpr (mirrors.backward.mpr member), ?_⟩
    exact List.mem_flatMap.mpr ⟨_, composed,
      RuleDispatcher.mem_produceLinkComposition.mpr (Or.inr ⟨final, _, told, rfl⟩)⟩
  | disjointSubsumers distinct =>
    subst owner
    exact List.mem_map.mpr ⟨_, List.mem_filter.mpr
      ⟨mem_multimapGet.mpr (mirrors.disjoint.mpr member), decide_eq_true distinct⟩, rfl⟩
  | objectComplementOf built occurs =>
    subst owner
    refine List.mem_cons_of_mem _ (List.mem_append_left _ (List.mem_append_right _ ?_))
    rw [RuleDispatcher.decompose_built built occurs]
    exact List.mem_map.mpr ⟨_, List.mem_filter.mpr
      ⟨mem_frozenIndex.mpr (Tables.mem_positiveComplements.mpr ⟨built, occurs⟩),
        decide_eq_true (mirrors.composed.mpr member)⟩, rfl⟩
  | @propagated _ relation source =>
    subst owner
    exact List.mem_map.mpr ⟨(relation, source), mem_sortedBy.mpr (mirrors.backward.mpr member), rfl⟩

end

end PyElk
