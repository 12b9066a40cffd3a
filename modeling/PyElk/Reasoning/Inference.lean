import PyElk.Reasoning.Rules
import PyElk.Support.Worklist

namespace PyElk

/-- Some non-redundant composition takes `chain` as its right premise. -/
def PropertySaturation.Composable (properties : PropertySaturation) (chain : PropertyChainId) : Prop :=
  ∃ left result, result ∈ properties.compositions false left chain

/-- Some composition, redundant or not, takes `chain` as its right premise. -/
def PropertySaturation.Extendable (properties : PropertySaturation) (chain : PropertyChainId) : Prop :=
  ∃ redundant left result, result ∈ properties.compositions redundant left chain

def PropertySaturation.Complex (properties : PropertySaturation) (chain : PropertyChainId) : Prop :=
  ∃ record, properties.chains[chain]? = some record ∧ record.suffixChain ≠ none

section

variable (compiled : Tables) (properties : PropertySaturation)

/-- The inference functions with one premise, and the activation of the context
that a conclusion is sent to. -/
inductive UnaryInference : Conclusion → Conclusion → Prop
  | contextInitialization (premise : Conclusion) :
      UnaryInference premise (.contextInitialization premise.destination)
  | subContextInitialization {d relation source} :
      UnaryInference (.backwardLink d relation source) (.subContextInitialization d relation)
  | tautology {d} : UnaryInference (.contextInitialization d) (.subClassInclusionDecomposed d d)
  | owlThing {d} (occurs : compiled.negative compiled.owlThing) :
      UnaryInference (.contextInitialization d) (.subClassInclusionComposed d compiled.owlThing)
  | expandedSubClassOf {d sub super} (row : (sub, super) ∈ compiled.subclassAxioms) :
      UnaryInference (.subClassInclusionComposed d sub) (.subClassInclusionDecomposed d super)
  | expandedDefinition {d defined definition} (row : (defined, definition) ∈ compiled.equivalenceRows true) :
      UnaryInference (.subClassInclusionDecomposed d defined) (.subClassInclusionDecomposed d definition)
  | composedDefinedClass {d defined definition} (row : (defined, definition) ∈ compiled.equivalenceRows true) :
      UnaryInference (.subClassInclusionComposed d definition) (.subClassInclusionComposed d defined)
  | expandedFirstEquivalentClass {d first second} (row : (first, second) ∈ compiled.equivalenceRows false) :
      UnaryInference (.subClassInclusionComposed d second) (.subClassInclusionDecomposed d first)
  | expandedSecondEquivalentClass {d first second} (row : (first, second) ∈ compiled.equivalenceRows false) :
      UnaryInference (.subClassInclusionComposed d first) (.subClassInclusionDecomposed d second)
  | composedOfDecomposed {d subsumer} :
      UnaryInference (.subClassInclusionDecomposed d subsumer) (.subClassInclusionComposed d subsumer)
  | decomposedFirstConjunct {d conjunction first second}
      (built : compiled.Built conjunction .objectIntersectionOf [first, second])
      (occurs : compiled.positive conjunction) :
      UnaryInference (.subClassInclusionDecomposed d conjunction) (.subClassInclusionDecomposed d first)
  | decomposedSecondConjunct {d conjunction first second}
      (built : compiled.Built conjunction .objectIntersectionOf [first, second])
      (occurs : compiled.positive conjunction) :
      UnaryInference (.subClassInclusionDecomposed d conjunction) (.subClassInclusionDecomposed d second)
  | composedObjectUnionOf {d disjunct union disjuncts} (built : compiled.Built union .objectUnionOf disjuncts)
      (occurs : compiled.negative union) (member : disjunct ∈ disjuncts) :
      UnaryInference (.subClassInclusionComposed d disjunct) (.subClassInclusionComposed d union)
  | backwardLinkOfObjectSomeValuesFrom {d existential relation target}
      (built : compiled.Built existential .objectSomeValuesFrom [relation, target])
      (occurs : compiled.positive existential) :
      UnaryInference (.subClassInclusionDecomposed d existential) (.backwardLink target relation d)
  | forwardLinkOfObjectSomeValuesFrom {d existential relation target}
      (built : compiled.Built existential .objectSomeValuesFrom [relation, target])
      (occurs : compiled.positive existential)
      (composable : properties.Composable (properties.singletonChain relation)) :
      UnaryInference (.subClassInclusionDecomposed d existential)
        (.forwardLink d (properties.singletonChain relation) target)
  | backwardLinkOfObjectHasSelf {d hasSelf relation}
      (built : compiled.Built hasSelf .objectHasSelf [relation]) (occurs : compiled.positive hasSelf) :
      UnaryInference (.subClassInclusionDecomposed d hasSelf) (.backwardLink d relation d)
  | forwardLinkOfObjectHasSelf {d hasSelf relation}
      (built : compiled.Built hasSelf .objectHasSelf [relation]) (occurs : compiled.positive hasSelf)
      (composable : properties.Composable (properties.singletonChain relation)) :
      UnaryInference (.subClassInclusionDecomposed d hasSelf)
        (.forwardLink d (properties.singletonChain relation) d)
  | objectHasSelfPropertyRange {d hasSelf relation range}
      (built : compiled.Built hasSelf .objectHasSelf [relation]) (occurs : compiled.positive hasSelf)
      (inherited : range ∈ properties.ranges relation) :
      UnaryInference (.subClassInclusionDecomposed d hasSelf) (.subClassInclusionDecomposed d range)
  | range {d relation source range} (inherited : range ∈ properties.ranges relation) :
      UnaryInference (.backwardLink d relation source) (.subClassInclusionDecomposed d range)
  | backwardLinkReversedExpanded {d chain target super} (complex : properties.Complex chain)
      (told : (chain, super) ∈ compiled.toldSuperProperties properties) :
      UnaryInference (.forwardLink d chain target) (.backwardLink target super d)
  | disjointSubsumer {d member group position} (indexed : (member, group, position) ∈ compiled.disjointByMember) :
      UnaryInference (.subClassInclusionComposed d member) (.disjointSubsumer d group position)
  | owlNothing {d} (occurs : compiled.positive compiled.owlNothing) :
      UnaryInference (.subClassInclusionDecomposed d compiled.owlNothing) (.classInconsistency d)

/-- The inference functions with two premises of one context. -/
inductive BinaryInference : Conclusion → Conclusion → Conclusion → Prop
  | composedObjectIntersectionOf {d conjunction first second}
      (built : compiled.Built conjunction .objectIntersectionOf [first, second])
      (occurs : compiled.negative conjunction) :
      BinaryInference (.subClassInclusionComposed d first) (.subClassInclusionComposed d second)
        (.subClassInclusionComposed d conjunction)
  | composedObjectSomeValuesFrom {d relation source carry} :
      BinaryInference (.backwardLink d relation source) (.propagation d relation carry)
        (.subClassInclusionComposed source carry)
  | propagationGenerated {d relation existential property filler}
      (built : compiled.Built existential .objectSomeValuesFrom [property, filler])
      (occurs : compiled.negative existential)
      (sub : relation ∈ properties.subProperties (properties.singletonChain property)) :
      BinaryInference (.subContextInitialization d relation) (.subClassInclusionComposed d filler)
        (.propagation d relation existential)
  | forwardLinkComposition {d relation source chain target result}
      (composed : result ∈ properties.compositions false relation chain) (extendable : properties.Extendable result) :
      BinaryInference (.backwardLink d relation source) (.forwardLink d chain target)
        (.forwardLink source result target)
  | backwardLinkComposition {d relation source chain target result super}
      (composed : result ∈ properties.compositions false relation chain) (final : ¬ properties.Extendable result)
      (told : (result, super) ∈ compiled.toldSuperProperties properties) :
      BinaryInference (.backwardLink d relation source) (.forwardLink d chain target)
        (.backwardLink target super source)
  | disjointSubsumers {d group position other} (distinct : position ≠ other) :
      BinaryInference (.disjointSubsumer d group position) (.disjointSubsumer d group other)
        (.classInconsistency d)
  | objectComplementOf {d complement negated}
      (built : compiled.Built complement .objectComplementOf [negated]) (occurs : compiled.positive complement) :
      BinaryInference (.subClassInclusionComposed d negated) (.subClassInclusionDecomposed d complement)
        (.classInconsistency d)
  | propagated {d relation source} :
      BinaryInference (.backwardLink d relation source) (.classInconsistency d) (.classInconsistency source)

/-- The dispatcher's rules read as unordered inference rules. -/
def inferenceRules : Worklist.Rules Conclusion :=
  ⟨UnaryInference compiled properties, BinaryInference compiled properties⟩

/-- The least set of conclusions over the demanded roots. -/
def Derivable (roots : Set ExpressionId) : Conclusion → Prop :=
  (inferenceRules compiled properties).Derives (Conclusion.contextInitialization '' roots)

end

variable {compiled : Tables} {properties : PropertySaturation}

theorem BinaryInference.local {p q c : Conclusion} (rule : BinaryInference compiled properties p q c) :
    p.destination = q.destination := by
  cases rule <;> rfl

end PyElk
