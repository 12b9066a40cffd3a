import PyElk.Reasoning.ConclusionBound
import PyElk.Semantics.Properties

namespace PyElk

section

variable (compiled : Tables) (properties : PropertySaturation) (roots kept : Set ExpressionId)

/-- Every link of a saturation into the context `d` carries `range`, and `d` is
not a context that is `kept` for its own expression. -/
def CommonRange (d range : ExpressionId) : Prop :=
  d ∉ kept ∧ ∀ relation source, Derivable compiled properties roots (.backwardLink d relation source) →
    range ∈ properties.ranges relation

/-- The inference rules with the range rule held back to the contexts whose links
all carry the range. -/
def justifiedRules : Worklist.Rules Conclusion where
  unary premise conclusion := UnaryInference compiled properties premise conclusion ∧
    ∀ d relation source range, premise = .backwardLink d relation source →
      conclusion = .subClassInclusionDecomposed d range → CommonRange compiled properties roots kept d range
  binary := BinaryInference compiled properties

/-- What a saturation derives without putting a range on a context that is also
linked to, or asked about, without it. -/
def Justified : Conclusion → Prop :=
  (justifiedRules compiled properties roots kept).Derives (Conclusion.contextInitialization '' roots)

end

section

variable {compiled : Tables} {properties : PropertySaturation} {roots kept : Set ExpressionId}

theorem Justified.derivable {c : Conclusion} (justified : Justified compiled properties roots kept c) :
    Derivable compiled properties roots c := by
  induction justified with
  | start member => exact .start member
  | unary _ rule ih => exact .unary ih rule.1
  | binary _ _ rule left right => exact .binary left right rule

/-- Without ranges every derivation is justified. -/
theorem Derivable.justified (ranges : ∀ property, properties.ranges property = []) {c : Conclusion}
    (derivable : Derivable compiled properties roots c) : Justified compiled properties roots kept c := by
  induction derivable with
  | start member => exact .start member
  | unary _ rule ih =>
    refine .unary ih ⟨rule, ?_⟩
    rintro d relation source range rfl rfl
    cases rule with
    | range inherited =>
      rw [ranges] at inherited
      exact absurd inherited List.not_mem_nil
  | binary _ _ rule left right => exact .binary left right rule

end

section

variable {Δ : Type u} (I : Interpretation Δ) (compiled : Tables) (properties : PropertySaturation)

/-- The elements that the context `d` speaks about. -/
def Interpretation.members (roots kept : Set ExpressionId) (d : ExpressionId) : Set Δ :=
  {x | x ∈ I.ext compiled d ∧
    ∀ range, CommonRange compiled properties roots kept d range → x ∈ I.ext compiled range}

/-- What a conclusion says when the context of an expression stands for the
elements `members`. -/
def Interpretation.Meaning (members : ExpressionId → Set Δ) : Conclusion → Prop
  | .contextInitialization _ => True
  | .subContextInitialization _ _ => True
  | .subClassInclusionDecomposed d subsumer => members d ⊆ I.ext compiled subsumer
  | .subClassInclusionComposed d subsumer => members d ⊆ I.ext compiled subsumer
  | .forwardLink d chain target => ∀ x ∈ members d, ∃ y ∈ members target, I.chainRel compiled properties chain x y
  | .backwardLink d relation source => ∀ x ∈ members source, ∃ y ∈ members d, I.rel compiled relation x y
  | .propagation d relation carry => ∀ y ∈ members d, ∀ x, I.rel compiled relation x y → x ∈ I.ext compiled carry
  | .disjointSubsumer d group position => ∃ rows member, compiled.disjointGroups[group]? = some rows ∧
      rows[position]? = some member ∧ members d ⊆ I.ext compiled member
  | .classInconsistency d => members d = ∅

end

section

variable {Δ : Type u} {I : Interpretation Δ} {compiled : Tables} {roots kept : Set ExpressionId} {d x : ExpressionId}

theorem Interpretation.members_subset {properties : PropertySaturation} :
    I.members compiled properties roots kept d ⊆ I.ext compiled d := fun _ member => member.1

theorem Interpretation.members_kept {properties : PropertySaturation} (member : d ∈ kept) :
    I.members compiled properties roots kept d = I.ext compiled d :=
  Set.Subset.antisymm members_subset fun _ found => ⟨found, fun _ common => absurd member common.1⟩

variable (valid : compiled.Valid)

include valid

theorem Tables.Valid.existential {expression : ExpressionId} {relation : EntityId} {filler : ExpressionId}
    (built : compiled.Built expression .objectSomeValuesFrom [relation, filler]) :
    compiled.EntityOf relation .objectProperty := by
  obtain ⟨_, _, same, object, _⟩ := valid.shape built
  cases same
  exact object

theorem Interpretation.ext_predefined {iri : String}
    (member : (⟨.owlClass, iri⟩ : EntityRecord) ∈ predefinedEntities) :
    I.ext compiled (compiled.classExpression iri) = I.classes iri := by
  rw [I.ext_class valid (valid.classExpression_built member), entityIri, valid.entityId_of member]
  rfl

theorem Interpretation.ext_owlThing : I.ext compiled compiled.owlThing = Set.univ := by
  exact (I.ext_predefined valid (by simp [predefinedEntities])).trans I.thing

theorem Interpretation.ext_owlNothing : I.ext compiled compiled.owlNothing = ∅ := by
  exact (I.ext_predefined valid (by simp [predefinedEntities])).trans I.nothing

variable (satisfies : I.Satisfies compiled)

include satisfies

/-- A filler of a link lies in the context that the link leads to. -/
theorem Interpretation.Satisfies.linked {relation source : Nat} {x y : Δ}
    (link : Derivable compiled (closeProperties compiled) roots (.backwardLink d relation source))
    (step : I.rel compiled relation x y) (filler : y ∈ I.ext compiled d) :
    y ∈ I.members compiled (closeProperties compiled) roots kept d :=
  ⟨filler, fun _ common =>
    satisfies.inherited (closeProperties_spec valid) valid (common.2 _ _ link) step⟩

omit valid in
/-- Two members of a disjoint group at different positions. -/
theorem Interpretation.Satisfies.disjoint_at {group : List ExpressionId} {position other : Nat}
    {first second : ExpressionId} (listed : group ∈ compiled.disjointGroups)
    (left : group[position]? = some first) (right : group[other]? = some second) (distinct : position ≠ other) :
    Disjoint (I.ext compiled first) (I.ext compiled second) := by
  obtain ⟨bound, rfl⟩ := List.getElem?_eq_some_iff.mp left
  obtain ⟨bound', rfl⟩ := List.getElem?_eq_some_iff.mp right
  have pairwise := List.pairwise_iff_getElem.mp (satisfies.disjoint listed)
  rcases Nat.lt_or_gt_of_ne distinct with before | after
  · exact pairwise position other bound bound' before
  · exact (pairwise other position bound' bound after).symm

/-- One inference with one premise. -/
theorem Interpretation.Satisfies.unary {p c : Conclusion}
    (derivable : Derivable compiled (closeProperties compiled) roots p)
    (rule : (justifiedRules compiled (closeProperties compiled) roots kept).unary p c)
    (premise : I.Meaning compiled (closeProperties compiled)
      (I.members compiled (closeProperties compiled) roots kept) p) :
    I.Meaning compiled (closeProperties compiled)
      (I.members compiled (closeProperties compiled) roots kept) c := by
  have spec := closeProperties_spec valid
  obtain ⟨rule, justified⟩ := rule
  cases rule with
  | contextInitialization => trivial
  | subContextInitialization => trivial
  | tautology => exact I.members_subset
  | owlThing =>
    intro x _
    rw [I.ext_owlThing valid]
    trivial
  | expandedSubClassOf row => exact premise.trans (satisfies.subclass row)
  | expandedDefinition row =>
    exact premise.trans (satisfies.equivalent (List.mem_filter.mp row).1).subset
  | composedDefinedClass row =>
    exact premise.trans (satisfies.equivalent (List.mem_filter.mp row).1).symm.subset
  | expandedFirstEquivalentClass row =>
    exact premise.trans (satisfies.equivalent (List.mem_filter.mp row).1).symm.subset
  | expandedSecondEquivalentClass row =>
    exact premise.trans (satisfies.equivalent (List.mem_filter.mp row).1).subset
  | composedOfDecomposed => exact premise
  | decomposedFirstConjunct built =>
    exact premise.trans ((I.ext_intersection valid built).trans_subset Set.inter_subset_left)
  | decomposedSecondConjunct built =>
    exact premise.trans ((I.ext_intersection valid built).trans_subset Set.inter_subset_right)
  | composedObjectUnionOf built _ member =>
    intro x found
    rw [I.ext_union valid built]
    exact ⟨_, member, premise found⟩
  | @backwardLinkOfObjectSomeValuesFrom d existential relation target built occurs =>
    intro x found
    have filled := premise found
    rw [I.ext_some valid built] at filled
    obtain ⟨y, filler, step⟩ := filled
    have link := Worklist.Rules.Derives.unary derivable (.backwardLinkOfObjectSomeValuesFrom built occurs)
    exact ⟨y, satisfies.linked valid link step filler, step⟩
  | @forwardLinkOfObjectSomeValuesFrom d existential relation target built occurs composable =>
    intro x found
    have filled := premise found
    rw [I.ext_some valid built] at filled
    obtain ⟨y, filler, step⟩ := filled
    have link := Worklist.Rules.Derives.unary derivable (.backwardLinkOfObjectSomeValuesFrom built occurs)
    exact ⟨y, satisfies.linked valid link step filler,
      (I.chainRel_singleton spec (valid.existential built)).mpr step⟩
  | backwardLinkOfObjectHasSelf built =>
    intro x found
    have reflexive := premise found
    rw [I.ext_self valid built] at reflexive
    exact ⟨x, found, reflexive⟩
  | forwardLinkOfObjectHasSelf built =>
    intro x found
    have reflexive := premise found
    rw [I.ext_self valid built] at reflexive
    obtain ⟨relation, same, object⟩ := valid.shape built
    cases same
    exact ⟨x, found, (I.chainRel_singleton spec object).mpr reflexive⟩
  | objectHasSelfPropertyRange built _ inherited =>
    intro x found
    have reflexive := premise found
    rw [I.ext_self valid built] at reflexive
    exact satisfies.inherited spec valid inherited reflexive
  | range inherited =>
    intro x found
    exact found.2 _ (justified _ _ _ _ rfl rfl)
  | backwardLinkReversedExpanded _ told =>
    intro x found
    obtain ⟨y, target, step⟩ := premise x found
    exact ⟨y, target, satisfies.told spec valid told step⟩
  | disjointSubsumer indexed =>
    obtain ⟨⟨rows, group⟩, listed, member⟩ := List.mem_flatMap.mp indexed
    obtain ⟨⟨expression, position⟩, found, same⟩ := List.mem_map.mp member
    cases same
    exact ⟨rows, expression, List.mem_zipIdx_iff_getElem?.mp listed, List.mem_zipIdx_iff_getElem?.mp found, premise⟩
  | owlNothing => exact Set.subset_empty_iff.mp (premise.trans (I.ext_owlNothing valid).subset)

/-- One inference with two premises. -/
theorem Interpretation.Satisfies.binary {p q c : Conclusion} {members : ExpressionId → Set Δ}
    (rule : BinaryInference compiled (closeProperties compiled) p q c)
    (left : I.Meaning compiled (closeProperties compiled) members p)
    (right : I.Meaning compiled (closeProperties compiled) members q) :
    I.Meaning compiled (closeProperties compiled) members c := by
  have spec := closeProperties_spec valid
  cases rule with
  | composedObjectIntersectionOf built =>
    intro x found
    rw [I.ext_intersection valid built]
    exact ⟨left found, right found⟩
  | composedObjectSomeValuesFrom =>
    intro x found
    obtain ⟨y, target, step⟩ := left x found
    exact right y target x step
  | propagationGenerated built _ sub =>
    intro y found x step
    rw [I.ext_some valid built]
    exact ⟨y, right found,
      (I.chainRel_singleton spec (valid.existential built)).mp (satisfies.namedSub spec valid sub step)⟩
  | forwardLinkComposition composed =>
    intro x found
    obtain ⟨y, middle, step⟩ := left x found
    obtain ⟨z, target, rest⟩ := right y middle
    have implied := (closeProperties_compositions.mp composed).1
    exact ⟨z, target, satisfies.composition spec valid implied step rest⟩
  | backwardLinkComposition composed _ told =>
    intro x found
    obtain ⟨y, middle, step⟩ := left x found
    obtain ⟨z, target, rest⟩ := right y middle
    have implied := (closeProperties_compositions.mp composed).1
    exact ⟨z, target, satisfies.told spec valid told (satisfies.composition spec valid implied step rest)⟩
  | disjointSubsumers distinct =>
    obtain ⟨rows, first, listed, entry, below⟩ := left
    obtain ⟨rows', second, listed', entry', below'⟩ := right
    obtain rfl := Option.some.inj (listed.symm.trans listed')
    have apart := satisfies.disjoint_at (List.mem_of_getElem? listed) entry entry' distinct
    exact Set.subset_empty_iff.mp fun x found => Set.disjoint_left.mp apart (below found) (below' found)
  | objectComplementOf built =>
    refine Set.subset_empty_iff.mp fun x found => ?_
    have outside := right found
    rw [I.ext_complement valid built] at outside
    exact outside (left found)
  | propagated =>
    refine Set.subset_empty_iff.mp fun x found => ?_
    obtain ⟨y, target, _⟩ := left x found
    rw [show members _ = ∅ from right] at target
    exact target

/-- Justified conclusions hold in every interpretation that satisfies the rows. -/
theorem Interpretation.Satisfies.sound {c : Conclusion}
    (justified : Justified compiled (closeProperties compiled) roots kept c) :
    I.Meaning compiled (closeProperties compiled)
      (I.members compiled (closeProperties compiled) roots kept) c := by
  induction justified with
  | start member =>
    obtain ⟨root, _, rfl⟩ := member
    trivial
  | unary premise rule ih => exact satisfies.unary valid (Justified.derivable premise) rule ih
  | binary _ _ rule left right => exact satisfies.binary valid rule left right

end

end PyElk
