import PyElk.Reasoning.NonInterference
import PyElk.Reasoning.TaxonomyTotal
import PyElk.Semantics.Conversion
import PyElk.Semantics.Soundness

open Relation Ordered

namespace PyElk

section

variable (compiled : Tables) (properties : PropertySaturation)

/-- Wherever a link of a saturation carries a range, all links into its context carry it
and the context is not `kept`, or the context has the range for a reason of its own. -/
def RangesKept (roots kept : Set ExpressionId) : Prop :=
  ∀ d relation source range, Derivable compiled properties roots (.backwardLink d relation source) →
    range ∈ properties.ranges relation → CommonRange compiled properties roots kept d range ∨
      Justified compiled properties roots kept (.subClassInclusionDecomposed d range)

/-- Nothing that the class taxonomy reads hangs on a range that was written onto a context that stands for
more than the fillers of its property: the shared runs are only read for a contradiction, and the run that
places a class only for the classes above it and for a contradiction of its own. -/
structure Tables.RangesApart (stage : Stage) : Prop where
  verdict : compiled.Contradicted stage → (closeProperties compiled).TopInBottom compiled ∨
    ∃ root ∈ compiled.consistencyRoots, Justified compiled (closeProperties compiled)
      (demandedRoots (compiled.stageBatches stage)) {root | root ∈ compiled.consistencyRoots}
        (.classInconsistency root)
  placements : ¬ compiled.Contradicted stage → ∀ member, compiled.EntityOf member .owlClass → ∀ c,
    (∃ super, compiled.EntityOf super .owlClass ∧ c = .subClassInclusionComposed
      (compiled.namedExpression .owlClass member) (compiled.namedExpression .owlClass super)) ∨
      c = .classInconsistency (compiled.namedExpression .owlClass member) →
    Derivable compiled (closeProperties compiled)
      (compiled.classRoots stage (compiled.namedExpression .owlClass member)) c →
    Justified compiled (closeProperties compiled)
      (compiled.classRoots stage (compiled.namedExpression .owlClass member))
      {compiled.namedExpression .owlClass member} c

/-- The links of computed contexts whose ranges are common to their context. -/
def rangesCommon (kept : List ExpressionId) (contexts : List Context) : Bool :=
  contexts.all fun context => context.backwardLinks.all fun link => (properties.ranges link.1).all fun range =>
    decide (context.root ∉ kept) && context.backwardLinks.all fun other => decide (range ∈ properties.ranges other.1)

end

section

variable {compiled : Tables} {properties : PropertySaturation} {roots kept : Set ExpressionId}

/-- Only the range rule reads a subsumer off a link. -/
theorem UnaryInference.inherited {d relation source range : Nat}
    (rule : UnaryInference compiled properties (.backwardLink d relation source)
      (.subClassInclusionDecomposed d range)) :
    range ∈ properties.ranges relation := by
  cases rule with
  | range inherited => exact inherited

/-- A saturation that keeps its ranges apart only derives justified conclusions. -/
theorem RangesKept.justified (apart : RangesKept compiled properties roots kept) {c : Conclusion}
    (derivable : Derivable compiled properties roots c) : Justified compiled properties roots kept c := by
  induction derivable with
  | start member => exact .start member
  | @unary p c premise rule ih =>
    by_cases written : ∃ d relation source range, p = .backwardLink d relation source ∧
        c = .subClassInclusionDecomposed d range ∧ ¬ CommonRange compiled properties roots kept d range
    · obtain ⟨d, relation, source, range, rfl, rfl, foreign⟩ := written
      exact (apart d relation source range premise rule.inherited).resolve_left foreign
    · refine .unary ih ⟨rule, fun d relation source range link subsumer => ?_⟩
      by_contra foreign
      exact written ⟨d, relation, source, range, link, subsumer, foreign⟩
  | binary _ _ rule left right => exact .binary left right rule

/-- Computed contexts whose ranges are common are a saturation that keeps them apart. -/
theorem rangesKept_of_snapshot (valid : compiled.Valid) {batches : List (List ExpressionId)}
    {kept : List ExpressionId}
    (ranged : ∀ root ∈ demandedRoots batches, root < compiled.expressions.length)
    (common : rangesCommon (closeProperties compiled) kept (compiled.fixpoint batches).snapshot) :
    RangesKept compiled (closeProperties compiled) (demandedRoots batches) {root | root ∈ kept} := by
  intro d relation source range link inherited
  obtain ⟨context, found, rfl, mirrors⟩ := compiled.snapshot_context valid ranged (Derivable.initialized link)
  have known : ∀ {relation source}, Derivable compiled (closeProperties compiled) (demandedRoots batches)
      (.backwardLink context.root relation source) → (relation, source) ∈ context.backwardLinks :=
    fun {relation source} derivable => (mirrors (.backwardLink context.root relation source) rfl).mpr derivable
  have checked := List.all_eq_true.mp (List.all_eq_true.mp (List.all_eq_true.mp common context
    (List.mem_of_find?_eq_some found)) _ (known link)) range inherited
  rw [Bool.and_eq_true, decide_eq_true_eq, List.all_eq_true] at checked
  exact Or.inl ⟨checked.1, fun other origin derivable => of_decide_eq_true (checked.2 _ (known derivable))⟩

section

variable {Δ : Type u} {I : Interpretation Δ} (valid : compiled.Valid) (satisfies : I.Satisfies compiled)

include valid satisfies

/-- A justified contradiction on a root that is kept for its expression. -/
theorem Interpretation.Satisfies.empty {root : ExpressionId} (member : root ∈ kept)
    (justified : Justified compiled (closeProperties compiled) roots kept (.classInconsistency root)) :
    I.ext compiled root = ∅ := by
  have sound := satisfies.sound valid justified
  rwa [Interpretation.Meaning, I.members_kept member] at sound

/-- A top property below the bottom property leaves no element. -/
theorem Interpretation.Satisfies.topInBottom (below : (closeProperties compiled).TopInBottom compiled) :
    IsEmpty Δ := by
  refine ⟨fun x => ?_⟩
  have spec := closeProperties_spec valid
  have object : ∀ {iri}, (⟨.objectProperty, iri⟩ : EntityRecord) ∈ predefinedEntities →
      compiled.EntityOf (compiled.entityId .objectProperty iri) .objectProperty :=
    fun member => ⟨_, valid.entityId_of member⟩
  have named : ∀ {iri}, (⟨.objectProperty, iri⟩ : EntityRecord) ∈ predefinedEntities →
      entityIri compiled.entities (compiled.entityId .objectProperty iri) = iri := by
    intro iri member
    rw [entityIri, valid.entityId_of member]
    rfl
  have top : I.rel compiled (compiled.entityId .objectProperty OWL_TOP_OBJECT_PROPERTY_IRI) x x := by
    rw [Interpretation.rel, named (by simp [predefinedEntities])]
    exact I.topProperty x x
  have bottom := (I.chainRel_singleton spec (object (by simp [predefinedEntities]))).mp
    (satisfies.sub spec valid below ((I.chainRel_singleton spec (object (by simp [predefinedEntities]))).mpr top))
  rw [Interpretation.rel, named (by simp [predefinedEntities])] at bottom
  exact I.bottomProperty x x bottom

/-- An ontology that is judged inconsistent has no element in any interpretation. -/
theorem Interpretation.Satisfies.inconsistent {stage : Stage} (apart : compiled.RangesApart stage)
    (contradicted : compiled.Contradicted stage) : IsEmpty Δ := by
  rcases apart.verdict contradicted with below | ⟨root, listed, justified⟩
  · exact satisfies.topInBottom valid below
  · have empty := satisfies.empty valid (show root ∈ {root | root ∈ compiled.consistencyRoots} from listed) justified
    refine ⟨fun x => ?_⟩
    rcases Tables.mem_consistencyRoots.mp listed with rfl | individual
    · rw [I.ext_owlThing valid] at empty
      exact Set.notMem_empty x (empty ▸ Set.mem_univ x)
    · obtain ⟨arguments, built⟩ := Tables.mem_rootsOf.mp (List.mem_filter.mp individual).1
      obtain ⟨entity, rfl, _⟩ := valid.shape built
      rw [I.ext_individual valid built] at empty
      exact Set.singleton_ne_empty _ empty

/-- One edge of the relation behind the class taxonomy is an inclusion. -/
theorem Interpretation.Satisfies.classEdge {stage : Stage} {sub super : EntityId} (apart : compiled.RangesApart stage)
    (consistent : ¬ compiled.Contradicted stage) (edge : compiled.ClassEdge stage sub super) :
    I.ext compiled (compiled.namedExpression .owlClass sub) ⊆ I.ext compiled
      (compiled.namedExpression .owlClass super) := by
  cases edge with
  | bottom object => exact (I.ext_owlNothing valid).trans_subset (Set.empty_subset _)
  | top object => exact (Set.subset_univ _).trans (I.ext_owlThing valid).symm.subset
  | subsumer object object' derivable =>
    have sound := satisfies.sound valid
      (apart.placements consistent sub object _ (Or.inl ⟨super, object', rfl⟩) derivable)
    rwa [Interpretation.Meaning, I.members_kept (Set.mem_singleton _)] at sound
  | inconsistent object derivable =>
    rw [satisfies.empty valid (Set.mem_singleton _) (apart.placements consistent sub object _ (Or.inr rfl) derivable)]
    exact Set.empty_subset _

end

end

/-- Every placement of a class taxonomy holds in the interpretations of the axiom rows, and its bottom
node is empty in all of them. -/
def RawTaxonomy.Sound.{v} (taxonomy : RawTaxonomy) (compiled : Tables) : Prop :=
  ∀ sub super : EntityId, compiled.EntityOf sub .owlClass → compiled.EntityOf super .owlClass →
    ∀ (Δ : Type v) (I : Interpretation Δ), I.Satisfies compiled →
      (taxonomy.Below sub super → I.ext compiled (compiled.namedExpression .owlClass sub) ⊆
        I.ext compiled (compiled.namedExpression .owlClass super)) ∧
      (nodeFor taxonomy.nodes sub = taxonomy.bottom → I.ext compiled (compiled.namedExpression .owlClass sub) = ∅)

section

variable {ontology : CompiledOntology} {session next : SaturationSession} {taxonomy : RawTaxonomy}

/-- The taxonomy that a session returns is the collapsed one of a contradicted ontology, or represents the
derived relation. -/
theorem SaturationSession.Reachable.classTaxonomy_spec (reachable : session.Reachable ontology)
    (built : session.classTaxonomy = .ok (next, some taxonomy)) :
    ontology.Contradicted next.stage ∧ (∀ {x y}, ontology.EntityOf x .owlClass → ontology.EntityOf y .owlClass →
      taxonomy.Below x y) ∨
    ¬ ontology.Contradicted next.stage ∧
      (∀ {x y}, ontology.EntityOf x .owlClass → ontology.EntityOf y .owlClass →
        (taxonomy.Below x y ↔ ReflTransGen (ontology.ClassEdge next.stage) x y)) ∧
      ∀ {x}, nodeFor taxonomy.nodes x = taxonomy.bottom →
        taxonomy.Below x (bottomEntity ontology.entities .owlClass) := by
  have valid := ontology.valid
  obtain ⟨stage, late, returned, rfl, same⟩ := reachable.classTaxonomy built
  show ontology.Contradicted stage ∧ _ ∨ ¬ ontology.Contradicted stage ∧ _
  rw [Tables.contradicted_iff valid]
  by_cases judged : (ontology.consistencyAt stage).inconsistent
  · refine Or.inl ⟨judged, fun {x y} object object' => ?_⟩
    have bounds := valid.bounds (Or.inl rfl : EntityKind.owlClass = _ ∨ _)
    obtain ⟨collapsed, found, nodes, -⟩ := collapsedTaxonomy_spec valid.few_entities bounds.1 bounds.2
    rw [buildClassTaxonomy, if_pos (show (ontology.snapshotAt stage).inconsistentOntology from judged), found] at same
    obtain rfl := Option.some.inj same
    have first : ∀ {z}, ontology.EntityOf z .owlClass → nodeFor taxonomy.nodes z = 0 := by
      intro z known
      have entry : taxonomy.nodes[0]? = some (entityIds ontology.entities .owlClass) := by
        rw [nodes]
        rfl
      exact nodeFor_eq taxonomy.distinct entry (mem_entityIds.mpr known)
    rw [RawTaxonomy.Below, first object, first object']
  · obtain ⟨other, found, below, edges, represents⟩ := buildClassTaxonomy_spec valid late returned
      (show (ontology.snapshotAt stage).inconsistentOntology = false from Bool.eq_false_iff.mpr judged)
    obtain rfl := Option.some.inj (same.trans found)
    refine Or.inr ⟨judged, fun {x y} object object' => below x y object object', fun {x} bottom => ?_⟩
    rw [RawTaxonomy.Below, bottom, represents.bottom]

/-- Classification is sound where nothing that is read hangs on a range written too widely: a class placed
below another is a subclass of it in every interpretation of the axiom rows, and a class placed in the
bottom node is empty in every one. Where a range is written onto the very class that is placed, soundness
needs the rows to say so. -/
theorem class_taxonomy_sound (reachable : session.Reachable ontology)
    (built : session.classTaxonomy = .ok (next, some taxonomy)) :
    (ontology.RangesApart next.stage → taxonomy.Sound.{u} ontology.toTables) ∧
    (taxonomy.Sound.{u} ontology.toTables → ∀ {member range relation source},
      ontology.EntityOf member .owlClass → ontology.EntityOf range .owlClass →
      ontology.namedExpression .owlClass range ∈ (closeProperties ontology.toTables).ranges relation →
      Derivable ontology.toTables (closeProperties ontology.toTables)
        (ontology.classRoots next.stage (ontology.namedExpression .owlClass member))
        (.backwardLink (ontology.namedExpression .owlClass member) relation source) →
      ∀ {Δ : Type u} (I : Interpretation Δ), I.Satisfies ontology.toTables →
        I.ext ontology.toTables (ontology.namedExpression .owlClass member) ⊆
          I.ext ontology.toTables (ontology.namedExpression .owlClass range)) := by
  have valid := ontology.valid
  refine ⟨fun apart sub super object object' Δ I satisfies => ?_,
    fun sound member range relation source object object' inherited link Δ I satisfies =>
      (sound member range object object' Δ I satisfies).1 ?_⟩
  · rcases reachable.classTaxonomy_spec built with ⟨contradicted, -⟩ | ⟨consistent, below, bottom⟩
    · have nobody := satisfies.inconsistent valid apart contradicted
      exact ⟨fun _ x _ => nobody.elim x, fun _ => Set.eq_empty_of_isEmpty _⟩
    · have climb : ∀ {a b}, ReflTransGen (ontology.ClassEdge next.stage) a b →
          I.ext ontology.toTables (ontology.namedExpression .owlClass a) ⊆
            I.ext ontology.toTables (ontology.namedExpression .owlClass b) := by
        intro a b path
        induction path with
        | refl => exact subset_rfl
        | tail _ edge ih => exact ih.trans (satisfies.classEdge valid apart consistent edge)
      refine ⟨fun placed => climb ((below object object').mp placed), fun same => ?_⟩
      have nothing := mem_entityIds.mp (valid.bounds (Or.inl rfl : EntityKind.owlClass = _ ∨ _)).2
      have path := (below object nothing).mp (bottom same)
      exact Set.subset_empty_iff.mp ((climb path).trans (I.ext_owlNothing valid).subset)
  · rcases reachable.classTaxonomy_spec built with ⟨-, below⟩ | ⟨-, below, -⟩
    · exact below object object'
    · refine (below object object').mpr (.single (.subsumer object object' ?_))
      exact .unary (.unary link (.range inherited)) .composedOfDecomposed

end

/-- `Worker ⊑ ∃reportsTo.Worker` where everything reported to is a `Manager`. -/
def reportsTables : Tables where
  entities := [⟨.owlClass, "ex:Employee"⟩, ⟨.owlClass, "ex:Manager"⟩, ⟨.owlClass, "ex:Worker"⟩,
    ⟨.owlClass, OWL_NOTHING_IRI⟩, ⟨.owlClass, OWL_THING_IRI⟩, ⟨.objectProperty, "ex:reportsTo"⟩,
    ⟨.objectProperty, OWL_BOTTOM_OBJECT_PROPERTY_IRI⟩, ⟨.objectProperty, OWL_TOP_OBJECT_PROPERTY_IRI⟩]
  expressions := [⟨.owlClass, [0], []⟩, ⟨.owlClass, [1], []⟩, ⟨.owlClass, [2], []⟩, ⟨.owlClass, [3], []⟩,
    ⟨.owlClass, [4], []⟩, ⟨.objectSomeValuesFrom, [5, 2], []⟩]
  expressionOccurrences := [⟨0, 1⟩, ⟨0, 1⟩, ⟨1, 1⟩, ⟨0, 0⟩, ⟨0, 0⟩, ⟨0, 1⟩]
  propertyOccurrences := [⟨0, 1⟩, ⟨0, 0⟩, ⟨0, 0⟩]
  propertyChains := [[5], [6], [7]]
  subclassAxioms := [(2, 5)]
  equivalentClassAxioms := []
  disjointGroups := []
  subpropertyAxioms := []
  propertyRanges := [(5, 1)]
  featureCounts := List.replicate 79 0
  sourceFingerprint := List.replicate 32 0

def cyclicOntology : CompiledOntology := ⟨reportsTables, by decide +kernel⟩

/-- Two workers who report to the one that is a manager. -/
def reportsInterpretation : Interpretation Bool := reportingWorkers.toInterpretation

theorem reportsInterpretation_cyclic : reportsInterpretation.Satisfies cyclicOntology.toTables := by
  have valid := cyclicOntology.valid
  refine ⟨?_, fun row => absurd row List.not_mem_nil, fun row => absurd row List.not_mem_nil,
    fun row => absurd row List.not_mem_nil, ?_⟩
  · intro sub super row
    cases List.mem_singleton.mp row
    intro x _
    rw [Interpretation.ext_some valid (⟨[], rfl⟩ : cyclicOntology.Built 5 .objectSomeValuesFrom [5, 2])]
    refine ⟨true, ?_, by decide, fun _ => rfl⟩
    rw [Interpretation.ext_class valid (⟨[], rfl⟩ : cyclicOntology.Built 2 .owlClass [2])]
    exact ⟨by decide, fun manager => absurd manager (by decide)⟩
  · intro property range row x y reports
    cases List.mem_singleton.mp row
    rw [Interpretation.ext_class valid (⟨[], rfl⟩ : cyclicOntology.Built 1 .owlClass [1])]
    exact ⟨by decide, fun _ => reports.2 rfl⟩

/-- The range of `reportsTo` is written onto `Worker` itself, which then sits below
`Manager` although a worker that nobody reports to need not be one. -/
theorem class_taxonomy_unsound : ¬ ∀ (ontology : CompiledOntology) (session next : SaturationSession)
    (taxonomy : RawTaxonomy), session.Reachable ontology → session.classTaxonomy = .ok (next, some taxonomy) →
      taxonomy.Sound.{0} ontology.toTables := by
  intro claim
  have placed : (SaturationSession.classTaxonomy { compiled := cyclicOntology }).toOption.any fun answer =>
      answer.2.any fun taxonomy =>
        decide ((nodeFor taxonomy.nodes 2, nodeFor taxonomy.nodes 1) ∈ taxonomy.directEdges) := by
    decide +kernel
  obtain ⟨⟨next, answer⟩, returned, edge⟩ := (Option.any_eq_true _ _).mp placed
  obtain ⟨taxonomy, rfl, edge⟩ := (Option.any_eq_true _ _).mp edge
  have sound := claim cyclicOntology _ next taxonomy .fresh (toOption_eq_some.mp returned)
  have below := (sound 2 1 ⟨_, rfl⟩ ⟨_, rfl⟩ Bool reportsInterpretation reportsInterpretation_cyclic).1
    (.single (of_decide_eq_true edge))
  have worker : false ∈ reportsInterpretation.ext cyclicOntology.toTables
    (cyclicOntology.namedExpression .owlClass 2) := by
    rw [show cyclicOntology.namedExpression .owlClass 2 = 2 by decide +kernel,
      Interpretation.ext_class cyclicOntology.valid (⟨[], rfl⟩ : cyclicOntology.Built 2 .owlClass [2])]
    exact ⟨by decide, fun manager => absurd manager (by decide)⟩
  have manager := below worker
  rw [show cyclicOntology.namedExpression .owlClass 1 = 1 by decide +kernel,
    Interpretation.ext_class cyclicOntology.valid (⟨[], rfl⟩ : cyclicOntology.Built 1 .owlClass [1])] at manager
  exact Bool.false_ne_true (manager.2 rfl)

/-- One filler behind two properties: what is driven is a car, what is flown a plane, and who drives a car
is a motorist. -/
def vehicleTables : Tables where
  entities := [⟨.owlClass, "ex:Car"⟩, ⟨.owlClass, "ex:Driver"⟩, ⟨.owlClass, "ex:Machine"⟩,
    ⟨.owlClass, "ex:Motorist"⟩, ⟨.owlClass, "ex:Pilot"⟩, ⟨.owlClass, "ex:Plane"⟩, ⟨.owlClass, OWL_NOTHING_IRI⟩,
    ⟨.owlClass, OWL_THING_IRI⟩, ⟨.objectProperty, "ex:drives"⟩, ⟨.objectProperty, "ex:flies"⟩,
    ⟨.objectProperty, OWL_BOTTOM_OBJECT_PROPERTY_IRI⟩, ⟨.objectProperty, OWL_TOP_OBJECT_PROPERTY_IRI⟩]
  expressions := [⟨.owlClass, [0], []⟩, ⟨.owlClass, [1], []⟩, ⟨.owlClass, [2], []⟩, ⟨.owlClass, [3], []⟩,
    ⟨.owlClass, [4], []⟩, ⟨.owlClass, [5], []⟩, ⟨.owlClass, [6], []⟩, ⟨.owlClass, [7], []⟩,
    ⟨.objectSomeValuesFrom, [8, 0], []⟩, ⟨.objectSomeValuesFrom, [8, 2], []⟩, ⟨.objectSomeValuesFrom, [9, 2], []⟩]
  expressionOccurrences := [⟨1, 1⟩, ⟨1, 0⟩, ⟨0, 2⟩, ⟨0, 1⟩, ⟨1, 0⟩, ⟨0, 1⟩, ⟨0, 0⟩, ⟨0, 0⟩, ⟨1, 0⟩, ⟨0, 1⟩, ⟨0, 1⟩]
  propertyOccurrences := [⟨1, 1⟩, ⟨0, 1⟩, ⟨0, 0⟩, ⟨0, 0⟩]
  propertyChains := [[8], [9], [10], [11]]
  subclassAxioms := [(1, 9), (4, 10), (8, 3)]
  equivalentClassAxioms := []
  disjointGroups := []
  subpropertyAxioms := []
  propertyRanges := [(8, 0), (9, 5)]
  featureCounts := List.replicate 79 0
  sourceFingerprint := List.replicate 32 0

def vehicleOntology : CompiledOntology := ⟨vehicleTables, by decide +kernel⟩

/-- The run that places `Driver` writes `Car` onto `Machine`, the one that places `Pilot` writes `Plane`
onto it, and the shared run that writes both only is read for a contradiction. -/
theorem vehicleOntology_apart : vehicleOntology.RangesApart .classified := by
  have valid := vehicleOntology.valid
  have consistent : ¬ vehicleOntology.Contradicted .classified := by
    rw [Tables.contradicted_iff valid]
    exact Bool.eq_false_iff.mp (by decide +kernel)
  have classes : ∀ member, vehicleOntology.EntityOf member .owlClass → member < 8 := by
    intro member object
    have listed := mem_entityIds.mpr object
    rw [show entityIds vehicleOntology.entities .owlClass = [0, 1, 2, 3, 4, 5, 6, 7] by decide +kernel] at listed
    simp only [List.mem_cons, List.not_mem_nil, or_false] at listed
    rcases listed with rfl | rfl | rfl | rfl | rfl | rfl | rfl | rfl <;> decide
  refine ⟨fun contradicted => absurd contradicted consistent, fun _ member object c _ derivable => ?_⟩
  have single : demandedRoots [[vehicleOntology.namedExpression .owlClass member]] =
      {vehicleOntology.namedExpression .owlClass member} := by
    ext root
    simp [demandedRoots]
  have kept : {root | root ∈ [vehicleOntology.namedExpression .owlClass member]} =
      {vehicleOntology.namedExpression .owlClass member} := by
    ext root
    simp
  have ranged : ∀ root ∈ demandedRoots [[vehicleOntology.namedExpression .owlClass member]],
      root < vehicleOntology.expressions.length := by
    rw [single]
    rintro root rfl
    exact (valid.namedExpression_built object).lt
  have checked : ∀ member < 8, rangesCommon (closeProperties vehicleOntology.toTables)
      [vehicleOntology.namedExpression .owlClass member]
      (vehicleOntology.fixpoint [[vehicleOntology.namedExpression .owlClass member]]).snapshot := by
    decide +kernel
  have apart := rangesKept_of_snapshot valid ranged (checked member (classes member object))
  rw [single, kept] at apart
  rw [Tables.classRoots, if_neg (by decide)] at derivable ⊢
  exact apart.justified derivable

/-- `Driver` is placed below `Motorist`, by the range of `drives`, and is below it. -/
theorem class_taxonomy_sound_vehicles : ∃ (next : SaturationSession) (taxonomy : RawTaxonomy),
    SaturationSession.classTaxonomy { compiled := vehicleOntology } = .ok (next, some taxonomy) ∧
      (1, 3) ∈ taxonomy.directEdges.map (fun edge =>
        ((taxonomy.nodes.getD edge.1 []).headD 0, (taxonomy.nodes.getD edge.2 []).headD 0)) ∧
      taxonomy.Sound.{0} vehicleOntology.toTables := by
  have placed : (SaturationSession.classTaxonomy { compiled := vehicleOntology }).toOption.any fun answer =>
      answer.2.any fun taxonomy => decide (answer.1.stage = .classified ∧
        (1, 3) ∈ taxonomy.directEdges.map (fun edge =>
          ((taxonomy.nodes.getD edge.1 []).headD 0, (taxonomy.nodes.getD edge.2 []).headD 0))) := by
    decide +kernel
  obtain ⟨⟨next, answer⟩, returned, edge⟩ := (Option.any_eq_true _ _).mp placed
  obtain ⟨taxonomy, rfl, edge⟩ := (Option.any_eq_true _ _).mp edge
  obtain ⟨stage, edge⟩ := of_decide_eq_true edge
  have built := toOption_eq_some.mp returned
  refine ⟨next, taxonomy, built, edge, (class_taxonomy_sound .fresh built).1 ?_⟩
  rw [show next.stage = .classified from stage]
  exact vehicleOntology_apart

end PyElk
