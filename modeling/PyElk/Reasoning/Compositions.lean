import PyElk.Reasoning.NonInterference

open Ordered

namespace PyElk

/-- Every composition that a chain row and the full sub-property closure imply. -/
def PropertySaturation.impliedCompositions (properties : PropertySaturation) : List PropertyComposition :=
  properties.chains.zipIdx.flatMap fun row =>
    match row.1.suffixChain with
    | none => []
    | some suffix =>
      (properties.subChains suffix).flatMap fun right =>
        (properties.subProperties (properties.singletonChain row.1.firstProperty)).map fun left =>
          ⟨left, right, row.2⟩

/-- The same closure with no composition eliminated. -/
def PropertySaturation.withAllCompositions (properties : PropertySaturation) : PropertySaturation :=
  { properties with nonRedundantCompositions := properties.impliedCompositions, redundantCompositions := [] }

section

variable {properties : PropertySaturation}

theorem PropertySaturation.mem_impliedCompositions {left : EntityId} {right result : PropertyChainId} :
    (⟨left, right, result⟩ : PropertyComposition) ∈ properties.impliedCompositions ↔
      properties.Implied left right result := by
  simp only [impliedCompositions, List.mem_flatMap, Prod.exists]
  constructor
  · rintro ⟨⟨first, link⟩, index, entry, member⟩
    cases link with
    | none => exact absurd member List.not_mem_nil
    | some suffix =>
      obtain ⟨other, below, member⟩ := List.mem_flatMap.mp member
      obtain ⟨_, named, same⟩ := List.mem_map.mp member
      cases same
      exact ⟨first, suffix, List.mem_zipIdx_iff_getElem?.mp entry, mem_subChains.mp below, named⟩
  · rintro ⟨first, suffix, links, below, named⟩
    exact ⟨⟨first, some suffix⟩, result, List.mem_zipIdx_iff_getElem?.mpr links, List.mem_flatMap.mpr
      ⟨right, mem_subChains.mpr below, List.mem_map.mpr ⟨left, named, rfl⟩⟩⟩

theorem PropertySaturation.withAll_compositions {redundant : Bool} {left : EntityId}
    {right result : PropertyChainId} :
    result ∈ properties.withAllCompositions.compositions redundant left right ↔
      redundant = false ∧ properties.Implied left right result := by
  rw [← mem_impliedCompositions]
  cases redundant with
  | true => simp [compositions, table, withAllCompositions]
  | false =>
    simp only [compositions, table, withAllCompositions, List.mem_map, List.mem_filter, Bool.and_eq_true, beq_iff_eq,
      true_and]
    constructor
    · rintro ⟨⟨_, _, _⟩, ⟨member, rfl, rfl⟩, rfl⟩
      exact member
    · intro member
      exact ⟨_, ⟨member, rfl, rfl⟩, rfl⟩

end

/-- How a path over `chain` becomes a backward link: a told super-property of a
complex chain, or the property that a singleton chain stands for. -/
def PropertySaturation.Leads (compiled : Tables) (properties : PropertySaturation) (chain : PropertyChainId)
    (relation : EntityId) : Prop :=
  (chain = properties.singletonChain relation ∧ compiled.EntityOf relation .objectProperty) ∨
    (properties.Complex chain ∧ (chain, relation) ∈ compiled.toldSuperProperties properties)

/-- A link that an existential or a has-self subsumer of `source` gives. -/
def PrimitiveLink (compiled : Tables) (properties : PropertySaturation) (roots : Set ExpressionId)
    (relation : EntityId) (source target : ExpressionId) : Prop :=
  (∃ existential, compiled.Built existential .objectSomeValuesFrom [relation, target] ∧
    compiled.positive existential ∧
    Derivable compiled properties roots (.subClassInclusionDecomposed source existential)) ∨
  (target = source ∧ ∃ hasSelf, compiled.Built hasSelf .objectHasSelf [relation] ∧ compiled.positive hasSelf ∧
    Derivable compiled properties roots (.subClassInclusionDecomposed source hasSelf))

/-- A path composed from primitive links by any implied composition; the index
counts its primitive links. -/
inductive LinkPath (compiled : Tables) (properties : PropertySaturation) (roots : Set ExpressionId) :
    Nat → PropertyChainId → ExpressionId → ExpressionId → Prop
  | primitive {relation source target} (object : compiled.EntityOf relation .objectProperty)
      (link : PrimitiveLink compiled properties roots relation source target) :
      LinkPath compiled properties roots 1 (properties.singletonChain relation) source target
  | composed {left right first relation second result source middle target}
      (head : LinkPath compiled properties roots left first source middle)
      (leads : properties.Leads compiled first relation)
      (tail : LinkPath compiled properties roots right second middle target)
      (implied : properties.Implied relation second result) :
      LinkPath compiled properties roots (left + right) result source target

section

variable {compiled : Tables} {properties : PropertySaturation}

theorem PropertySaturation.Links.complex {chain : PropertyChainId} {first : EntityId} {suffix : PropertyChainId}
    (links : properties.Links chain first suffix) : properties.Complex chain :=
  ⟨_, links, Option.some_ne_none _⟩

theorem PropertySaturation.Spec.not_complex (spec : properties.Spec compiled) {relation : EntityId}
    (object : compiled.EntityOf relation .objectProperty) :
    ¬ properties.Complex (properties.singletonChain relation) := by
  rintro ⟨record, entry, suffix⟩
  rw [spec.singleton object] at entry
  cases entry
  exact suffix rfl

theorem PropertySaturation.Spec.singleton_injective (spec : properties.Spec compiled) {left right : EntityId}
    (leftObject : compiled.EntityOf left .objectProperty) (rightObject : compiled.EntityOf right .objectProperty)
    (same : properties.singletonChain left = properties.singletonChain right) : left = right := by
  have entry := spec.singleton leftObject
  rw [same, spec.singleton rightObject] at entry
  exact congrArg PropertyChainRecord.firstProperty (Option.some.inj entry).symm

theorem PropertySaturation.Spec.told_sub (spec : properties.Spec compiled) (valid : compiled.Valid)
    {chain : PropertyChainId} {super : EntityId} (told : (chain, super) ∈ compiled.toldSuperProperties properties) :
    properties.Sub chain (properties.singletonChain super) := by
  have object := (spec.told_lt valid told).2
  exact spec.sub_iff.mpr ⟨(List.getElem?_eq_some_iff.mp (spec.singleton object)).1, .single ⟨super, told, rfl⟩⟩

/-- The chain of a path is below the property that it leads to. -/
theorem PropertySaturation.Leads.sub (spec : properties.Spec compiled) (valid : compiled.Valid)
    {chain : PropertyChainId} {relation : EntityId} (leads : properties.Leads compiled chain relation) :
    properties.Sub chain (properties.singletonChain relation) := by
  rcases leads with ⟨rfl, object⟩ | ⟨_, told⟩
  · exact spec.sub_refl (List.getElem?_eq_some_iff.mp (spec.singleton object)).1
  · exact spec.told_sub valid told

/-- A complex chain below a property has a told super-property below it. -/
theorem PropertySaturation.Spec.leads_of_sub (spec : properties.Spec compiled) (valid : compiled.Valid)
    {chain : PropertyChainId} {first : EntityId} (object : compiled.EntityOf first .objectProperty)
    (complex : properties.Complex chain) (below : properties.Sub chain (properties.singletonChain first)) :
    ∃ relation, properties.Leads compiled chain relation ∧
      properties.NamedSub relation (properties.singletonChain first) := by
  obtain ⟨bound, path⟩ := spec.sub_iff.mp below
  cases path.cases_head with
  | inl same =>
    rw [same] at complex
    exact absurd complex (spec.not_complex object)
  | inr step =>
    obtain ⟨next, ⟨relation, told, rfl⟩, rest⟩ := step
    refine ⟨relation, Or.inr ⟨complex, told⟩, spec.namedSub.mpr ⟨(spec.told_lt valid told).2, ?_⟩⟩
    exact spec.sub_iff.mpr ⟨bound, rest⟩

/-- A named sub-property is below whatever its super-chain is below. -/
theorem PropertySaturation.Spec.named_trans (spec : properties.Spec compiled) {relation property : EntityId}
    {super : PropertyChainId} (named : properties.NamedSub relation (properties.singletonChain property))
    (below : properties.NamedSub property super) : properties.NamedSub relation super := by
  obtain ⟨object, first⟩ := spec.namedSub.mp named
  exact spec.namedSub.mpr ⟨object, spec.sub_trans first (spec.namedSub.mp below).2⟩

end

section

variable {compiled : Tables} {roots : Set ExpressionId}

/-- A composition that is not kept re-associates to the left: its left property
and the first property of its right chain compose below the result's first
property, and the rest of the right chain composes with that. -/
theorem reassociates (valid : compiled.Valid) {left : EntityId} {right result : PropertyChainId}
    (implied : (closeProperties compiled).Implied left right result)
    (dropped : result ∉ (closeProperties compiled).compositions false left right) :
    (closeProperties compiled).Reassociated left right result := by
  have spec := closeProperties_spec valid
  by_cases reassociated : (closeProperties compiled).Reassociated left right result
  · exact reassociated
  by_cases omitted : (closeProperties compiled).Omitted right result
  · obtain ⟨first, suffix, links, own, rfl⟩ := omitted
    obtain ⟨first', suffix', links', below, named⟩ := implied
    obtain ⟨rfl, rfl⟩ := links.unique links'
    have object := spec.property _ (List.mem_of_getElem? links)
    subst own
    have reflexive := spec.sub_refl (List.getElem?_eq_some_iff.mp (spec.singleton object)).1
    exact ⟨first, _, first, _, right, first, _, links, links, reflexive, links, below, named,
      spec.namedSub.mpr ⟨object, reflexive⟩⟩
  · refine absurd (closeProperties_compositions.mpr ⟨implied, omitted, ?_⟩) dropped
    exact ⟨fun impossible => absurd impossible Bool.false_ne_true, fun holds => absurd holds reassociated⟩

/-- What a path gives in the saturation with the kept compositions only. -/
def Realised (compiled : Tables) (properties : PropertySaturation) (roots : Set ExpressionId)
    (chain : PropertyChainId) (source target : ExpressionId) : Prop :=
  (∀ relation, properties.Leads compiled chain relation →
    Derivable compiled properties roots (.backwardLink target relation source)) ∧
  (properties.Composable chain → Derivable compiled properties roots (.forwardLink source chain target))

theorem PrimitiveLink.realised {properties : PropertySaturation} (spec : properties.Spec compiled)
    {relation : EntityId}
    {source target : ExpressionId} (object : compiled.EntityOf relation .objectProperty)
    (link : PrimitiveLink compiled properties roots relation source target) :
    Realised compiled properties roots (properties.singletonChain relation) source target := by
  have backward : Derivable compiled properties roots (.backwardLink target relation source) := by
    rcases link with ⟨existential, built, occurs, decomposed⟩ | ⟨rfl, hasSelf, built, occurs, decomposed⟩
    · exact .unary decomposed (.backwardLinkOfObjectSomeValuesFrom built occurs)
    · exact .unary decomposed (.backwardLinkOfObjectHasSelf built occurs)
  constructor
  · rintro other (⟨same, otherObject⟩ | ⟨complex, _⟩)
    · rw [← spec.singleton_injective object otherObject same]
      exact backward
    · exact absurd complex (spec.not_complex object)
  · intro composable
    rcases link with ⟨existential, built, occurs, decomposed⟩ | ⟨rfl, hasSelf, built, occurs, decomposed⟩
    · exact .unary decomposed (.forwardLinkOfObjectSomeValuesFrom built occurs composable)
    · exact .unary decomposed (.forwardLinkOfObjectHasSelf built occurs composable)

/-- A kept composition of realised parts is realised. -/
theorem Realised.compose {properties : PropertySaturation} (spec : properties.Spec compiled)
    {relation : EntityId} {right result : PropertyChainId} {source middle target : ExpressionId}
    (implied : properties.Implied relation right result)
    (kept : result ∈ properties.compositions false relation right)
    (link : Derivable compiled properties roots (.backwardLink middle relation source))
    (tail : Realised compiled properties roots right middle target) :
    Realised compiled properties roots result source target := by
  obtain ⟨first, suffix, links, _, _⟩ := implied
  have forward := tail.2 ⟨relation, result, kept⟩
  have told : ∀ {super}, properties.Leads compiled result super →
      (result, super) ∈ compiled.toldSuperProperties properties := by
    rintro super (⟨rfl, object⟩ | ⟨_, told⟩)
    · exact absurd links.complex (spec.not_complex object)
    · exact told
  by_cases extendable : properties.Extendable result
  · have composed : Derivable compiled properties roots (.forwardLink source result target) :=
      .binary link forward (.forwardLinkComposition kept extendable)
    exact ⟨fun super leads => .unary composed (.backwardLinkReversedExpanded links.complex (told leads)),
      fun _ => composed⟩
  · refine ⟨fun super leads => .binary link forward (.backwardLinkComposition kept extendable (told leads)), ?_⟩
    rintro ⟨left, next, composed⟩
    exact absurd ⟨false, left, next, composed⟩ extendable

theorem LinkPath.positive {properties : PropertySaturation} {count : Nat} {chain : PropertyChainId}
    {source target : ExpressionId} (path : LinkPath compiled properties roots count chain source target) :
    0 < count := by
  induction path with
  | primitive _ _ => exact Nat.one_pos
  | composed _ _ _ _ ih _ => omega

/-- Every path is realised with the kept compositions only. The induction is on
the number of primitive links and then on those of the right part, which a
re-association to the left makes shorter. -/
theorem LinkPath.realised (valid : compiled.Valid) {count : Nat} {chain : PropertyChainId}
    {source target : ExpressionId}
    (path : LinkPath compiled (closeProperties compiled) roots count chain source target) :
    Realised compiled (closeProperties compiled) roots chain source target := by
  have spec := closeProperties_spec valid
  induction count using Nat.strong_induction_on generalizing chain source target with
  | _ count ih =>
    have composed : ∀ right left first relation second middle, left + right = count →
        LinkPath compiled (closeProperties compiled) roots left first source middle →
        (closeProperties compiled).Leads compiled first relation →
        LinkPath compiled (closeProperties compiled) roots right second middle target →
        (closeProperties compiled).Implied relation second chain →
        Realised compiled (closeProperties compiled) roots chain source target := by
      intro right
      induction right using Nat.strong_induction_on with
      | _ right ihRight =>
        intro left first relation second middle total head leads tail implied
        have headPositive := head.positive
        have tailPositive := tail.positive
        by_cases kept : chain ∈ (closeProperties compiled).compositions false relation second
        · exact Realised.compose spec implied kept ((ih left (by omega) head).1 relation leads)
            (ih right (by omega) tail)
        · obtain ⟨first', suffix, rightFirst, rightSuffix, complex, complexFirst, complexSuffix, links,
            rightLinks, below,
            complexLinks, complexBelow, named, rightNamed⟩ := reassociates valid implied kept
          cases tail with
          | primitive object _ => exact absurd rightLinks.complex (spec.not_complex object)
          | @composed near far next relation' rest _ _ middle' _ headTail leadsTail tailTail impliedTail =>
            have nearPositive := headTail.positive
            obtain ⟨_, _, rightLinks', restBelow, nextNamed⟩ := impliedTail
            obtain ⟨rfl, rfl⟩ := rightLinks.unique rightLinks'
            have nextBelow := spec.sub_trans (leadsTail.sub spec valid)
              (spec.namedSub.mp (spec.named_trans nextNamed rightNamed)).2
            have folded :=
              LinkPath.composed head leads headTail ⟨complexFirst, complexSuffix, complexLinks, nextBelow, named⟩
            obtain ⟨super, leadsSuper, superNamed⟩ := spec.leads_of_sub valid
              (spec.property _ (List.mem_of_getElem? links)) complexLinks.complex complexBelow
            exact ihRight far (by omega) (left + near) complex super rest middle'
              (by omega) folded leadsSuper tailTail
              ⟨first', suffix, links, spec.sub_trans restBelow below, superNamed⟩
    cases path with
    | primitive object link => exact link.realised spec object
    | composed head leads tail implied => exact composed _ _ _ _ _ _ rfl head leads tail implied

theorem LinkPath.initialized {properties : PropertySaturation} {count : Nat} {chain : PropertyChainId}
    {source target : ExpressionId} (path : LinkPath compiled properties roots count chain source target) :
    Derivable compiled properties roots (.contextInitialization source) := by
  induction path with
  | primitive _ link =>
    rcases link with ⟨_, _, _, decomposed⟩ | ⟨_, _, _, _, decomposed⟩
    · exact .unary decomposed (.contextInitialization _)
    · exact .unary decomposed (.contextInitialization _)
  | composed _ _ _ _ ih _ => exact ih

/-- What remains of a conclusion of the full run: a forward link is a path. -/
def Recovered (compiled : Tables) (properties : PropertySaturation) (roots : Set ExpressionId) : Conclusion → Prop
  | .forwardLink source chain target => ∃ count, LinkPath compiled properties roots count chain source target
  | .backwardLink target relation source => ∃ count chain,
      LinkPath compiled properties roots count chain source target ∧ properties.Leads compiled chain relation
  | c => Derivable compiled properties roots c

theorem Recovered.initialized (valid : compiled.Valid) {c : Conclusion}
    (recovered : Recovered compiled (closeProperties compiled) roots c) :
    Derivable compiled (closeProperties compiled) roots (.contextInitialization c.destination) := by
  cases c
  case forwardLink =>
    obtain ⟨_, path⟩ := recovered
    exact path.initialized
  case backwardLink =>
    obtain ⟨_, _, path, leads⟩ := recovered
    exact .unary ((path.realised valid).1 _ leads) (.contextInitialization _)
  all_goals exact .unary recovered (.contextInitialization _)

/-- The run with every composition derives nothing but paths of the reduced run. -/
theorem Derivable.recovered (valid : compiled.Valid) {c : Conclusion}
    (derivable : Derivable compiled (closeProperties compiled).withAllCompositions roots c) :
    Recovered compiled (closeProperties compiled) roots c := by
  have spec := closeProperties_spec valid
  have link : ∀ {target relation source},
      Recovered compiled (closeProperties compiled) roots (.backwardLink target relation source) →
      Derivable compiled (closeProperties compiled) roots (.backwardLink target relation source) :=
    fun ⟨_, _, path, leads⟩ => (path.realised valid).1 _ leads
  have single : ∀ {relation}, compiled.EntityOf relation .objectProperty →
      (closeProperties compiled).Leads compiled ((closeProperties compiled).singletonChain relation) relation :=
    fun object => Or.inl ⟨rfl, object⟩
  induction derivable with
  | start member =>
    obtain ⟨root, demanded, rfl⟩ := member
    exact .start ⟨root, demanded, rfl⟩
  | unary premise rule ih =>
    cases rule with
    | contextInitialization => exact ih.initialized valid
    | subContextInitialization => exact .unary (link ih) .subContextInitialization
    | tautology => exact .unary ih .tautology
    | owlThing occurs => exact .unary ih (.owlThing occurs)
    | expandedSubClassOf row => exact .unary ih (.expandedSubClassOf row)
    | expandedDefinition row => exact .unary ih (.expandedDefinition row)
    | composedDefinedClass row => exact .unary ih (.composedDefinedClass row)
    | expandedFirstEquivalentClass row => exact .unary ih (.expandedFirstEquivalentClass row)
    | expandedSecondEquivalentClass row => exact .unary ih (.expandedSecondEquivalentClass row)
    | composedOfDecomposed => exact .unary ih .composedOfDecomposed
    | decomposedFirstConjunct built occurs => exact .unary ih (.decomposedFirstConjunct built occurs)
    | decomposedSecondConjunct built occurs => exact .unary ih (.decomposedSecondConjunct built occurs)
    | composedObjectUnionOf built occurs member => exact .unary ih (.composedObjectUnionOf built occurs member)
    | backwardLinkOfObjectSomeValuesFrom built occurs =>
      obtain ⟨_, _, same, object, _⟩ := valid.shape built
      cases same
      exact ⟨_, _, .primitive object (Or.inl ⟨_, built, occurs, ih⟩), single object⟩
    | forwardLinkOfObjectSomeValuesFrom built occurs _ =>
      obtain ⟨_, _, same, object, _⟩ := valid.shape built
      cases same
      exact ⟨_, .primitive object (Or.inl ⟨_, built, occurs, ih⟩)⟩
    | backwardLinkOfObjectHasSelf built occurs =>
      obtain ⟨_, same, object⟩ := valid.shape built
      cases same
      exact ⟨_, _, .primitive object (Or.inr ⟨rfl, _, built, occurs, ih⟩), single object⟩
    | forwardLinkOfObjectHasSelf built occurs _ =>
      obtain ⟨_, same, object⟩ := valid.shape built
      cases same
      exact ⟨_, .primitive object (Or.inr ⟨rfl, _, built, occurs, ih⟩)⟩
    | objectHasSelfPropertyRange built occurs inherited =>
      exact .unary ih (.objectHasSelfPropertyRange built occurs inherited)
    | range inherited => exact .unary (link ih) (.range inherited)
    | backwardLinkReversedExpanded complex told =>
      obtain ⟨_, path⟩ := ih
      exact ⟨_, _, path, Or.inr ⟨complex, told⟩⟩
    | disjointSubsumer indexed => exact .unary ih (.disjointSubsumer indexed)
    | owlNothing occurs => exact .unary ih (.owlNothing occurs)
  | binary _ _ rule left right =>
    cases rule with
    | composedObjectIntersectionOf built occurs =>
      exact .binary left right (.composedObjectIntersectionOf built occurs)
    | composedObjectSomeValuesFrom => exact .binary (link left) right .composedObjectSomeValuesFrom
    | propagationGenerated built occurs sub => exact .binary left right (.propagationGenerated built occurs sub)
    | forwardLinkComposition composed _ =>
      obtain ⟨_, _, head, leads⟩ := left
      obtain ⟨_, tail⟩ := right
      exact ⟨_, .composed head leads tail (PropertySaturation.withAll_compositions.mp composed).2⟩
    | backwardLinkComposition composed _ told =>
      obtain ⟨_, _, head, leads⟩ := left
      obtain ⟨_, tail⟩ := right
      obtain ⟨first, suffix, links, parts⟩ := (PropertySaturation.withAll_compositions.mp composed).2
      exact ⟨_, _, .composed head leads tail ⟨first, suffix, links, parts⟩, Or.inr ⟨links.complex, told⟩⟩
    | disjointSubsumers distinct => exact .binary left right (.disjointSubsumers distinct)
    | objectComplementOf built occurs => exact .binary left right (.objectComplementOf built occurs)
    | propagated => exact .binary (link left) right .propagated

/-- A conclusion of the reduced run is one of the run with every composition. -/
theorem Derivable.withAllCompositions {c : Conclusion}
    (derivable : Derivable compiled (closeProperties compiled) roots c) :
    Derivable compiled (closeProperties compiled).withAllCompositions roots c := by
  have implied : ∀ {redundant left right result},
      result ∈ (closeProperties compiled).compositions redundant left right →
      result ∈ (closeProperties compiled).withAllCompositions.compositions false left right :=
    fun composed => PropertySaturation.withAll_compositions.mpr ⟨rfl, (closeProperties_compositions.mp composed).1⟩
  have composable : ∀ {chain}, (closeProperties compiled).Composable chain →
      (closeProperties compiled).withAllCompositions.Composable chain :=
    fun ⟨left, result, composed⟩ => ⟨left, result, implied composed⟩
  induction derivable with
  | start member => exact .start member
  | unary premise rule ih =>
    cases rule with
    | contextInitialization => exact .unary ih (.contextInitialization _)
    | forwardLinkOfObjectSomeValuesFrom built occurs composed =>
      exact .unary ih (.forwardLinkOfObjectSomeValuesFrom built occurs (composable composed))
    | forwardLinkOfObjectHasSelf built occurs composed =>
      exact .unary ih (.forwardLinkOfObjectHasSelf built occurs (composable composed))
    | subContextInitialization => exact .unary ih .subContextInitialization
    | tautology => exact .unary ih .tautology
    | owlThing occurs => exact .unary ih (.owlThing occurs)
    | expandedSubClassOf row => exact .unary ih (.expandedSubClassOf row)
    | expandedDefinition row => exact .unary ih (.expandedDefinition row)
    | composedDefinedClass row => exact .unary ih (.composedDefinedClass row)
    | expandedFirstEquivalentClass row => exact .unary ih (.expandedFirstEquivalentClass row)
    | expandedSecondEquivalentClass row => exact .unary ih (.expandedSecondEquivalentClass row)
    | composedOfDecomposed => exact .unary ih .composedOfDecomposed
    | decomposedFirstConjunct built occurs => exact .unary ih (.decomposedFirstConjunct built occurs)
    | decomposedSecondConjunct built occurs => exact .unary ih (.decomposedSecondConjunct built occurs)
    | composedObjectUnionOf built occurs member => exact .unary ih (.composedObjectUnionOf built occurs member)
    | backwardLinkOfObjectSomeValuesFrom built occurs =>
      exact .unary ih (.backwardLinkOfObjectSomeValuesFrom built occurs)
    | backwardLinkOfObjectHasSelf built occurs => exact .unary ih (.backwardLinkOfObjectHasSelf built occurs)
    | objectHasSelfPropertyRange built occurs inherited =>
      exact .unary ih (.objectHasSelfPropertyRange built occurs inherited)
    | range inherited => exact .unary ih (.range inherited)
    | backwardLinkReversedExpanded complex told => exact .unary ih (.backwardLinkReversedExpanded complex told)
    | disjointSubsumer indexed => exact .unary ih (.disjointSubsumer indexed)
    | owlNothing occurs => exact .unary ih (.owlNothing occurs)
  | binary _ _ rule left right =>
    cases rule with
    | forwardLinkComposition composed extendable =>
      obtain ⟨redundant, other, next, member⟩ := extendable
      exact .binary left right (.forwardLinkComposition (implied composed) ⟨false, other, next, implied member⟩)
    | @backwardLinkComposition _ relation source chain target result super composed _ told =>
      by_cases extendable : (closeProperties compiled).withAllCompositions.Extendable result
      · obtain ⟨⟨_, _, links, _⟩, _⟩ := closeProperties_compositions.mp composed
        exact .unary (.binary left right (.forwardLinkComposition (implied composed) extendable))
          (.backwardLinkReversedExpanded links.complex told)
      · exact .binary left right (.backwardLinkComposition (implied composed) extendable told)
    | composedObjectIntersectionOf built occurs =>
      exact .binary left right (.composedObjectIntersectionOf built occurs)
    | composedObjectSomeValuesFrom => exact .binary left right .composedObjectSomeValuesFrom
    | propagationGenerated built occurs sub => exact .binary left right (.propagationGenerated built occurs sub)
    | disjointSubsumers distinct => exact .binary left right (.disjointSubsumers distinct)
    | objectComplementOf built occurs => exact .binary left right (.objectComplementOf built occurs)
    | propagated => exact .binary left right .propagated

theorem withAllCompositions_scoped (valid : compiled.Valid) :
    (closeProperties compiled).withAllCompositions.Scoped compiled where
  composed := by
    intro redundant left right result composed
    obtain ⟨first, suffix, links, below, _⟩ := (PropertySaturation.withAll_compositions.mp composed).2
    exact ⟨((closeProperties_spec valid).sub_lt valid below).1, (List.getElem?_eq_some_iff.mp links).1⟩
  ranges := (closeProperties_scoped valid).ranges

end

section

variable {ontology : CompiledOntology} {batches : List (List ExpressionId)}

/-- The verdicts of the two runs come from the same conclusions. -/
theorem judged_iff_withAllCompositions {roots : Set ExpressionId} {c : Conclusion}
    (judged : c.Judges ∨ ∃ root, c = .contextInitialization root) :
    Derivable ontology.toTables (closeProperties ontology.toTables) roots c ↔
      Derivable ontology.toTables (closeProperties ontology.toTables).withAllCompositions roots c := by
  refine ⟨Derivable.withAllCompositions, fun derivable => ?_⟩
  have recovered := derivable.recovered ontology.valid
  rcases judged with judges | ⟨root, rfl⟩
  · cases judges <;> exact recovered
  · exact recovered

/-- Keeping every composition makes no run raise and no raising run return. -/
theorem clear_withAllCompositions {roots : Set ExpressionId} :
    ontology.Clear (closeProperties ontology.toTables) roots ↔
      ontology.Clear (closeProperties ontology.toTables).withAllCompositions roots := by
  constructor
  · exact fun clear d x derivable => clear d x ((judged_iff_withAllCompositions (Or.inl .composed)).mpr derivable)
  · exact fun clear d x derivable => clear d x ((judged_iff_withAllCompositions (Or.inl .composed)).mp derivable)

theorem verdict_withAllCompositions (ranged : ∀ root ∈ demandedRoots batches, root < ontology.expressions.length)
    (root : ExpressionId) :
    ((ontology.fixpoint batches).contextState root).map (fun state => state.verdict) =
      ((ontology.fixpointWith (closeProperties ontology.toTables).withAllCompositions batches).contextState root).map
        (fun state => state.verdict) := by
  have within := closeProperties_scoped ontology.valid
  have withinAll := withAllCompositions_scoped ontology.valid
  by_cases activated : Derivable ontology.toTables (closeProperties ontology.toTables) (demandedRoots batches)
      (.contextInitialization root)
  · obtain ⟨state, found, rfl, holds⟩ := Tables.contextState_fixpoint ontology.valid ranged activated
    obtain ⟨other, found', root', holds'⟩ := ontology.contextState_fixpointWith ontology.valid withinAll ranged
      activated.withAllCompositions
    rw [found, found', Option.map_some, Option.map_some]
    refine congrArg some (Context.verdict_congr fun c owned judges => ?_)
    rw [holds c owned, holds' c owned]
    exact judged_iff_withAllCompositions (Or.inl judges)
  · have idle : ¬ Derivable ontology.toTables (closeProperties ontology.toTables).withAllCompositions
        (demandedRoots batches) (.contextInitialization root) := fun derivable =>
      activated ((judged_iff_withAllCompositions (Or.inr ⟨root, rfl⟩)).mpr derivable)
    have missing : (ontology.fixpoint batches).contextState root = none :=
      ontology.contextState_fixpointWith_eq_none ontology.valid within ranged activated
    rw [missing, ontology.contextState_fixpointWith_eq_none ontology.valid withinAll ranged idle]

end

end PyElk
