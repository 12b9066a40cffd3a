import PyElk.Native.Agreement

open Ordered

namespace PyElk

/-- What a set of facts must know about a conclusion before the conclusion can be
expected of it: that the context it is about exists. A backward link is about its
source; a propagation is about one kind of incoming link. -/
def Conclusion.Supported (facts : Set Conclusion) : Conclusion → Prop
  | backwardLink _ _ source => contextInitialization source ∈ facts
  | propagation destination relation _ => subContextInitialization destination relation ∈ facts
  | subContextInitialization destination relation => subContextInitialization destination relation ∈ facts
  | c => contextInitialization c.destination ∈ facts

/-- Ranges that every context derives for itself, whoever links to it. -/
def RangesLocal (compiled : Tables) (properties : PropertySaturation) (roots : Set ExpressionId) : Prop :=
  ∀ {d relation source range}, Derivable compiled properties roots (.backwardLink d relation source) →
    range ∈ properties.ranges relation → ∀ others, Derivable compiled properties others (.contextInitialization d) →
      Derivable compiled properties others (.subClassInclusionDecomposed d range)

section

variable {compiled : Tables} {properties : PropertySaturation} {roots others : Set ExpressionId} {c : Conclusion}

theorem Derivable.initialized (derivable : Derivable compiled properties roots c) :
    Derivable compiled properties roots (.contextInitialization c.destination) :=
  .unary derivable (.contextInitialization c)

/-- Without ranges a conclusion holds wherever the context it is about exists. -/
theorem Derivable.transfer (ranges : RangesLocal compiled properties roots)
    (derivable : Derivable compiled properties roots c)
    (supported : c.Supported {c | Derivable compiled properties others c}) :
    Derivable compiled properties others c := by
  induction derivable with
  | start member =>
    obtain ⟨root, _, rfl⟩ := member
    exact supported
  | unary premise rule ih =>
    cases rule with
    | contextInitialization => exact supported
    | subContextInitialization => exact supported
    | tautology => exact .unary (ih supported) .tautology
    | owlThing occurs => exact .unary (ih supported) (.owlThing occurs)
    | expandedSubClassOf row => exact .unary (ih supported) (.expandedSubClassOf row)
    | expandedDefinition row => exact .unary (ih supported) (.expandedDefinition row)
    | composedDefinedClass row => exact .unary (ih supported) (.composedDefinedClass row)
    | expandedFirstEquivalentClass row => exact .unary (ih supported) (.expandedFirstEquivalentClass row)
    | expandedSecondEquivalentClass row => exact .unary (ih supported) (.expandedSecondEquivalentClass row)
    | composedOfDecomposed => exact .unary (ih supported) .composedOfDecomposed
    | decomposedFirstConjunct built occurs => exact .unary (ih supported) (.decomposedFirstConjunct built occurs)
    | decomposedSecondConjunct built occurs => exact .unary (ih supported) (.decomposedSecondConjunct built occurs)
    | composedObjectUnionOf built occurs member =>
      exact .unary (ih supported) (.composedObjectUnionOf built occurs member)
    | backwardLinkOfObjectSomeValuesFrom built occurs =>
      exact .unary (ih supported) (.backwardLinkOfObjectSomeValuesFrom built occurs)
    | forwardLinkOfObjectSomeValuesFrom built occurs composable =>
      exact .unary (ih supported) (.forwardLinkOfObjectSomeValuesFrom built occurs composable)
    | backwardLinkOfObjectHasSelf built occurs =>
      exact .unary (ih supported) (.backwardLinkOfObjectHasSelf built occurs)
    | forwardLinkOfObjectHasSelf built occurs composable =>
      exact .unary (ih supported) (.forwardLinkOfObjectHasSelf built occurs composable)
    | objectHasSelfPropertyRange built occurs inherited =>
      exact .unary (ih supported) (.objectHasSelfPropertyRange built occurs inherited)
    | range inherited => exact ranges premise inherited others supported
    | backwardLinkReversedExpanded complex told =>
      exact .unary (ih supported) (.backwardLinkReversedExpanded complex told)
    | disjointSubsumer indexed => exact .unary (ih supported) (.disjointSubsumer indexed)
    | owlNothing occurs => exact .unary (ih supported) (.owlNothing occurs)
  | binary _ _ rule left right =>
    cases rule with
    | composedObjectIntersectionOf built occurs =>
      exact .binary (left supported) (right supported) (.composedObjectIntersectionOf built occurs)
    | composedObjectSomeValuesFrom =>
      have link := left supported
      exact .binary link (right (.unary link .subContextInitialization)) .composedObjectSomeValuesFrom
    | propagationGenerated built occurs sub =>
      have linked : Derivable compiled properties others _ := supported
      exact .binary linked (right linked.initialized) (.propagationGenerated built occurs sub)
    | forwardLinkComposition composed extendable =>
      have link := left supported
      exact .binary link (right link.initialized) (.forwardLinkComposition composed extendable)
    | backwardLinkComposition composed final told =>
      have link := left supported
      exact .binary link (right link.initialized) (.backwardLinkComposition composed final told)
    | disjointSubsumers distinct =>
      exact .binary (left supported) (right supported) (.disjointSubsumers distinct)
    | objectComplementOf built occurs =>
      exact .binary (left supported) (right supported) (.objectComplementOf built occurs)
    | propagated =>
      have link := left supported
      exact .binary link (right link.initialized) .propagated

/-- Two sets of demanded roots derive the same about a root that both activate. -/
theorem Derivable.transfer_iff (left : RangesLocal compiled properties roots)
    (right : RangesLocal compiled properties others)
    (supportedLeft : c.Supported {c | Derivable compiled properties roots c})
    (supportedRight : c.Supported {c | Derivable compiled properties others c}) :
    Derivable compiled properties roots c ↔ Derivable compiled properties others c :=
  ⟨fun derivable => derivable.transfer left supportedRight, fun derivable => derivable.transfer right supportedLeft⟩

theorem rangesLocal_of_none (valid : compiled.Valid) (unranged : compiled.propertyRanges = []) :
    RangesLocal compiled (closeProperties compiled) roots := by
  intro d relation source range _ inherited
  obtain ⟨super, listed, _⟩ := (closeProperties_spec valid).range_iff.mp inherited
  rw [unranged] at listed
  exact absurd listed List.not_mem_nil

end

/-- The verdict on a context: its subsumers and its contradiction flag. -/
def Context.verdict (state : Context) : List ExpressionId × List ExpressionId × Bool :=
  (state.freeze.composedSubsumers, state.freeze.decomposedSubsumers, state.freeze.inconsistent)

theorem Context.verdict_freeze {state : Context} : state.freeze.verdict = state.verdict := by
  have idem : ∀ values : List Nat, sortedSet id (sortedSet id values) = sortedSet id values :=
    fun values => sortedSet_congr Function.injective_id fun _ => mem_sortedSet
  simp only [verdict, freeze, idem]

/-- The conclusions that a verdict reports. -/
inductive Conclusion.Judges : Conclusion → Prop
  | composed {d subsumer} : Judges (.subClassInclusionComposed d subsumer)
  | decomposed {d subsumer} : Judges (.subClassInclusionDecomposed d subsumer)
  | inconsistency {d} : Judges (.classInconsistency d)

theorem Conclusion.Judges.supported {c : Conclusion} (judges : c.Judges) (facts : Set Conclusion) :
    c.Supported facts ↔ Conclusion.contextInitialization c.destination ∈ facts := by
  cases judges <;> exact Iff.rfl

theorem Context.verdict_congr {left right : Context}
    (same : ∀ c : Conclusion, c.destination = left.root → c.Judges → (left.Holds c ↔ right.Holds c)) :
    left.verdict = right.verdict := by
  have inconsistent : left.inconsistent = right.inconsistent :=
    Bool.eq_iff_iff.mpr (same (.classInconsistency left.root) rfl .inconsistency)
  have composed : sortedSet id left.composedSubsumers = sortedSet id right.composedSubsumers :=
    sortedSet_congr Function.injective_id fun x => same (.subClassInclusionComposed left.root x) rfl .composed
  have decomposed : sortedSet id left.decomposedSubsumers = sortedSet id right.decomposedSubsumers :=
    sortedSet_congr Function.injective_id fun x => same (.subClassInclusionDecomposed left.root x) rfl .decomposed
  simp only [verdict, freeze, inconsistent, composed, decomposed]

section

variable {ontology : CompiledOntology} {root : ExpressionId} {left right : List (List ExpressionId)}

theorem verdict_noninterference
    (localLeft : RangesLocal ontology.toTables (closeProperties ontology.toTables) (demandedRoots left))
    (localRight : RangesLocal ontology.toTables (closeProperties ontology.toTables) (demandedRoots right))
    (rangedLeft : ∀ root ∈ demandedRoots left, root < ontology.expressions.length)
    (rangedRight : ∀ root ∈ demandedRoots right, root < ontology.expressions.length)
    (demandedLeft : root ∈ demandedRoots left) (demandedRight : root ∈ demandedRoots right) :
    ∃ state other, (ontology.fixpoint left).contextState root = some state ∧
      (ontology.fixpoint right).contextState root = some other ∧ state.verdict = other.verdict := by
  have startLeft : Derivable ontology.toTables (closeProperties ontology.toTables) (demandedRoots left)
      (.contextInitialization root) := .start ⟨root, demandedLeft, rfl⟩
  have startRight : Derivable ontology.toTables (closeProperties ontology.toTables) (demandedRoots right)
      (.contextInitialization root) := .start ⟨root, demandedRight, rfl⟩
  obtain ⟨state, found, rfl, holds⟩ := Tables.contextState_fixpoint ontology.valid rangedLeft startLeft
  obtain ⟨other, found', same, holds'⟩ := Tables.contextState_fixpoint ontology.valid rangedRight startRight
  refine ⟨state, other, found, found', Context.verdict_congr fun c owned judges => ?_⟩
  rw [holds c owned, holds' c owned]
  refine Derivable.transfer_iff localLeft localRight ?_ ?_
  · rw [judges.supported, owned]
    exact startLeft
  · rw [judges.supported, owned]
    exact startRight

/-- Without ranges the other demanded roots do not matter: whenever the runs return, saturating roots
together, alone, in successive runs or in an isolated native run gives a root the same verdict. -/
theorem root_noninterference (noRanges : ontology.propertyRanges = []) {engine other : SaturationEngine}
    (rangedLeft : ∀ root ∈ demandedRoots left, root < ontology.expressions.length)
    (rangedRight : ∀ root ∈ demandedRoots right, root < ontology.expressions.length)
    (returnedLeft : ontology.saturate left = .ok engine) (returnedRight : ontology.saturate right = .ok other)
    (demandedLeft : root ∈ demandedRoots left) (demandedRight : root ∈ demandedRoots right) :
    (∃ state state', engine.contextState root = some state ∧ other.contextState root = some state' ∧
      state.verdict = state'.verdict) ∧
    (∃ alone, ontology.saturate [[root]] = .ok alone) ∧
    ∃ properties, Native.buildPropertyClosure ontology.toTables = .ok properties ∧
      ∀ workspace : Native.SaturationWorkspace,
        workspace.dispatcher = (Native.SaturationWorkspace.new ontology.toTables properties).dispatcher →
        ∃ state context after, engine.contextState root = some state ∧
          workspace.runRoot root = some (context, after) ∧ context.verdict = state.verdict := by
  have ranges : ∀ {roots}, RangesLocal ontology.toTables (closeProperties ontology.toTables) roots :=
    rangesLocal_of_none ontology.valid noRanges
  obtain ⟨rfl, numbered⟩ := Tables.saturate_ok ontology.valid returnedLeft
  obtain ⟨rfl, -⟩ := Tables.saturate_ok ontology.valid returnedRight
  obtain ⟨-, clear⟩ := (Tables.saturate_returns ontology.valid rangedLeft).mp returnedLeft
  have single : demandedRoots [[root]] = {root} := by
    ext other
    simp [demandedRoots]
  have alone : ontology.Clear (closeProperties ontology.toTables) {root} :=
    clear.mono (Set.singleton_subset_iff.mpr demandedLeft)
  have rangedSingle : ∀ other ∈ demandedRoots [[root]], other < ontology.expressions.length := by
    rw [single]
    rintro other rfl
    exact rangedLeft other demandedLeft
  refine ⟨verdict_noninterference ranges ranges rangedLeft rangedRight demandedLeft demandedRight, ?_, _,
    (Native.buildPropertyClosure_ok ontology.valid).mpr ⟨rfl, numbered.chains.le⟩, fun workspace dispatcher => ?_⟩
  · refine ⟨_, (Tables.saturate_returns ontology.valid rangedSingle).mpr ⟨numbered, ?_⟩⟩
    rw [single]
    exact alone
  · obtain ⟨context, after, run, _, frozen⟩ :=
      Native.SaturationWorkspace.runRoot_eq ontology.valid (rangedLeft root demandedLeft) alone dispatcher
    obtain ⟨state, isolated, found, stored, same⟩ :=
      verdict_noninterference ranges ranges rangedLeft rangedSingle demandedLeft (by rw [single]; exact rfl)
    refine ⟨state, context, after, found, run, ?_⟩
    rw [stored, Option.map_some, Option.some.injEq] at frozen
    rw [← frozen, Context.verdict_freeze, same]

theorem root_noninterference_kinship : kinshipOntology.propertyRanges = [] ∧
    ∃ engine other, kinshipOntology.saturate [[0], [1]] = .ok engine ∧ kinshipOntology.saturate [[0]] = .ok other ∧
      ∃ state state', engine.contextState 0 = some state ∧ other.contextState 0 = some state' ∧
        state.verdict = state'.verdict := by
  have ranged : ∀ batches : List (List ExpressionId), (∀ batch ∈ batches, ∀ root ∈ batch, root < 6) →
      ∀ root ∈ demandedRoots batches, root < kinshipOntology.expressions.length := by
    rintro batches bound root ⟨batch, listed, member⟩
    exact bound batch listed root member
  have returns : ∀ batches : List (List ExpressionId), (∀ batch ∈ batches, ∀ root ∈ batch, root < 6) →
      kinshipOntology.saturate batches = .ok (kinshipOntology.fixpoint batches) := fun batches bound =>
    (Tables.saturate_returns kinshipOntology.valid (ranged batches bound)).mpr
      ⟨kinshipTables_numbered, kinshipTables_roomy.clear kinshipOntology.valid _ _⟩
  have unranged : kinshipOntology.propertyRanges = [] := rfl
  have first : ∀ batch ∈ [[0], [1]], ∀ root ∈ batch, root < 6 := by decide
  have second : ∀ batch ∈ [[0]], ∀ root ∈ batch, root < 6 := by decide
  refine ⟨unranged, _, _, returns _ first, returns _ second, ?_⟩
  refine (root_noninterference unranged (ranged _ first) (ranged _ second) (returns _ first)
    (returns _ second) ?_ ?_).1
  · exact ⟨[0], List.mem_cons_self, List.mem_cons_self⟩
  · exact ⟨[0], List.mem_cons_self, List.mem_cons_self⟩

/-- A further root with an overflowing group position: alone the first root is saturated, together with
the other one the run raises. -/
theorem root_interference : teamOntology.propertyRanges = [] ∧
    (∃ engine, teamOntology.saturate [[3]] = .ok engine) ∧ ∀ engine, teamOntology.saturate [[3, 0]] ≠ .ok engine := by
  have inside : ∀ roots : List ExpressionId, (∀ root ∈ roots, root < 4) →
      ∀ root ∈ demandedRoots [roots], root < teamOntology.expressions.length := by
    rintro roots bound root ⟨batch, listed, member⟩
    rw [List.mem_singleton.mp listed] at member
    exact bound root member
  refine ⟨rfl, ⟨_, (Tables.saturate_returns teamOntology.valid (inside [3] (by decide))).mpr
    ⟨teamTables_numbered _ _, ?_⟩⟩, ?_⟩
  · refine (teamTables_clear _).mono ?_
    rintro root ⟨batch, listed, member⟩
    rw [List.mem_singleton.mp listed] at member
    exact List.mem_singleton.mp member
  · have demanded : 0 ∈ demandedRoots [[3, 0]] := ⟨[3, 0], List.mem_singleton.mpr rfl, by decide⟩
    exact Tables.saturate_raises teamOntology.valid (inside [3, 0] (by decide)) demanded
      (teamTables_crowded [] (by decide))

end

end PyElk
