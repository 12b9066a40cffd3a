import PyElk.Reasoning.NonInterference
import PyElk.Reasoning.RealizationExact

open Relation Ordered

namespace PyElk

section

variable (compiled : Tables) (taxonomy : RawTaxonomy)

/-- One node with the top type is what realization should return: any two individuals are the same, and
no node of the taxonomy but its top is a candidate type of theirs. -/
structure Tables.Collapses : Prop where
  same : ∀ x y, compiled.EntityOf x .namedIndividual → compiled.EntityOf y .namedIndividual →
    EqvGen compiled.MutualIndividuals x y
  untyped : ∀ index, compiled.CandidateType taxonomy (entityIds compiled.entities .namedIndividual) index →
    index = taxonomy.top

end

section

variable {compiled : Tables} {taxonomy : RawTaxonomy}

/-- Nothing is strictly above the top node. -/
theorem RawTaxonomy.top_maximal {index : Nat} : ¬ TransGen (Linked taxonomy.directEdges) taxonomy.top index := by
  intro path
  have checked := taxonomy.valid.graph
  unfold validateTaxonomyGraph at checked
  simp only [Bool.and_eq_true, List.isEmpty_iff] at checked
  obtain ⟨⟨⟨⟨final, -⟩, -⟩, -⟩, -⟩ := checked
  obtain ⟨next, edge, -⟩ := TransGen.head'_iff.mp path
  have listed := mem_adjacency.mpr edge
  rw [final] at listed
  exact List.not_mem_nil listed

/-- The top type is the only direct one where there is no other candidate. -/
theorem Tables.Collapses.direct (collapses : compiled.Collapses taxonomy) {type : Nat} :
    type = taxonomy.top ↔ compiled.CandidateType taxonomy (entityIds compiled.entities .namedIndividual) type ∧
      ∀ other, compiled.CandidateType taxonomy (entityIds compiled.entities .namedIndividual) other →
        ¬ TransGen (Linked taxonomy.directEdges) other type := by
  constructor
  · rintro rfl
    refine ⟨Or.inl rfl, fun other held path => ?_⟩
    rw [collapses.untyped other held] at path
    exact RawTaxonomy.top_maximal path
  · exact fun least => collapses.untyped type least.1

/-- A realization with all individuals in one node is exact exactly where the ontology says so. -/
theorem RawRealization.exact_iff_collapses {value : RawRealization} {individuals : List EntityId}
    (listed : individuals = entityIds compiled.entities .namedIndividual) (nonempty : individuals ≠ [])
    (based : value.classTaxonomy = taxonomy) (nodes : value.instanceNodes = [individuals])
    (types : value.directTypes = [(0, taxonomy.top)]) :
    value.Exact compiled taxonomy ↔ compiled.Collapses taxonomy := by
  have known : ∀ {x}, x ∈ individuals ↔ compiled.EntityOf x .namedIndividual := by
    intro x
    rw [listed]
    exact mem_entityIds
  have only : ∀ {index node}, value.instanceNodes[index]? = some node ↔ index = 0 ∧ node = individuals := by
    intro index node
    rw [nodes]
    cases index with
    | zero => simp [eq_comm]
    | succ index => simp
  have typed : ∀ {index type}, (index, type) ∈ value.directTypes ↔ index = 0 ∧ type = taxonomy.top := by
    intro index type
    rw [types, List.mem_singleton, Prod.mk.injEq]
  constructor
  · intro exact_
    obtain ⟨-, x, -, spec⟩ := (exact_.nodes individuals).mp (nodes ▸ List.mem_singleton.mpr rfl)
    refine ⟨fun y z left right => ?_, fun index held => ?_⟩
    · exact ((spec y).mp (known.mpr left)).2.symm.trans _ _ _ ((spec z).mp (known.mpr right)).2
    · rw [← listed] at held
      obtain ⟨least, found, path, lowest⟩ := taxonomy.exists_minimal held
      have direct := (exact_.direct (only.mpr ⟨rfl, rfl⟩) least).mpr ⟨found, lowest⟩
      obtain rfl := (typed.mp direct).2
      rcases reflTransGen_iff_eq_or_transGen.mp path with same | above
      · exact same
      · exact absurd above RawTaxonomy.top_maximal
  · intro collapses
    have candidates : ∀ {type}, type = taxonomy.top ↔ compiled.CandidateType taxonomy individuals type ∧
        ∀ other, compiled.CandidateType taxonomy individuals other →
          ¬ TransGen (Linked taxonomy.directEdges) other type := by
      rw [listed]
      exact collapses.direct
    refine ⟨based, fun node => ?_, fun {index node} entry type => ?_, fun index inside => ?_,
      fun {index type other} left right => ?_, fun {index node} entry type => ?_⟩
    · rw [nodes, List.mem_singleton]
      constructor
      · rintro rfl
        obtain ⟨x, inside⟩ := List.exists_mem_of_ne_nil _ nonempty
        refine ⟨listed ▸ entityIds_strict, x, known.mp inside, fun y => ?_⟩
        rw [known]
        exact (and_iff_left_of_imp fun object => collapses.same x y (known.mp inside) object).symm
      · rintro ⟨strict, x, object, spec⟩
        have ascending : individuals.Pairwise (· < ·) := listed ▸ entityIds_strict
        refine strict.eq_of_mem_iff ascending fun y => ?_
        rw [spec, known]
        exact and_iff_left_of_imp (collapses.same x y object)
    · obtain ⟨rfl, rfl⟩ := only.mp entry
      rw [typed, and_iff_right rfl, candidates]
    · rw [nodes, List.length_singleton, Nat.lt_one_iff] at inside
      exact ⟨taxonomy.top, typed.mpr ⟨inside, rfl⟩⟩
    · rw [(typed.mp right).2]
      exact RawTaxonomy.top_maximal
    · obtain ⟨rfl, rfl⟩ := only.mp entry
      constructor
      · rintro ⟨direct, listed', path⟩
        exact ⟨direct, (typed.mp listed').2 ▸ Or.inl rfl, path⟩
      · rintro ⟨candidate, held, path⟩
        have top := collapses.untyped candidate (listed ▸ held)
        exact ⟨candidate, typed.mpr ⟨rfl, top⟩, path⟩

/-- Without individuals there is nothing to get wrong. -/
theorem RawRealization.exact_of_none {value : RawRealization}
    (none_ : entityIds compiled.entities .namedIndividual = []) (based : value.classTaxonomy = taxonomy)
    (nodes : value.instanceNodes = []) (types : value.directTypes = []) : value.Exact compiled taxonomy := by
  have absent : ∀ {x}, ¬ compiled.EntityOf x .namedIndividual := by
    intro x object
    have listed := mem_entityIds.mpr object
    rw [none_] at listed
    exact List.not_mem_nil listed
  refine ⟨based, fun node => ?_, fun {index node} entry => ?_, fun index inside => ?_,
    fun {index type other} left => ?_, fun {index node} entry => ?_⟩
  · rw [nodes]
    exact iff_of_false List.not_mem_nil fun ⟨_, _, object, _⟩ => absent object
  · rw [nodes] at entry
    cases entry
  · rw [nodes] at inside
    exact absurd inside (Nat.not_lt_zero _)
  · rw [types] at left
    exact absurd left List.not_mem_nil
  · rw [nodes] at entry
    cases entry

end

section

variable {compiled : CompiledOntology} {taxonomy : RawTaxonomy}

theorem Tables.validateNodes_individuals {compiled : Tables} (valid : compiled.Valid)
    (nonempty : entityIds compiled.entities .namedIndividual ≠ []) :
    validateNodes [entityIds compiled.entities .namedIndividual] := by
  have small : ∀ x ∈ entityIds compiled.entities .namedIndividual, x ≤ U32_MAX := fun x listed =>
    Nat.le_sub_one_of_lt ((entityIds_lt listed).trans_le valid.few_entities)
  refine @validateNodes_sortedBy [entityIds compiled.entities .namedIndividual] (fun node listed => ?_)
    (List.pairwise_singleton _ _)
  obtain rfl := List.mem_singleton.mp listed
  exact ⟨nonempty, small, entityIds_strict⟩

/-- Realization over a contradicted snapshot puts all individuals into one node. -/
theorem buildRealization_contradicted (contradicted : (compiled.snapshotAt .realized).inconsistentOntology = true) :
    ∃ value, buildRealization compiled.toTables (compiled.snapshotAt .realized) taxonomy = some value ∧
      value.classTaxonomy = taxonomy ∧
      (value.Exact compiled.toTables taxonomy ↔ compiled.Collapses taxonomy) := by
  unfold buildRealization
  rw [contradicted, if_pos rfl]
  split
  · rename_i empty
    have none_ := List.isEmpty_iff.mp empty
    have valid : RawRealization.Valid taxonomy [] [] := ⟨rfl, rfl, fun index => by simp⟩
    refine ⟨_, dif_pos valid, rfl, iff_of_true (RawRealization.exact_of_none none_ rfl rfl rfl) ⟨?_, ?_⟩⟩
    · intro x y object
      have listed := mem_entityIds.mpr object
      rw [none_] at listed
      exact absurd listed List.not_mem_nil
    · rintro index (top | ⟨-, individual, inside, -⟩)
      · exact top
      · rw [none_] at inside
        exact absurd inside List.not_mem_nil
  · rename_i some_
    have nonempty : entityIds compiled.entities .namedIndividual ≠ [] := fun none_ =>
      some_ (List.isEmpty_iff.mpr none_)
    have valid : RawRealization.Valid taxonomy [entityIds compiled.entities .namedIndividual]
      [(0, taxonomy.top)] := by
      refine ⟨Tables.validateNodes_individuals compiled.valid nonempty, ?_, fun index => ?_⟩
      · have bound := taxonomy.valid.topBound
        simp [validateIndexPairs, checkSortedUnique, bound]
      · simp
    exact ⟨_, dif_pos valid, rfl, RawRealization.exact_iff_collapses rfl nonempty rfl rfl rfl⟩

/-- The types and the instances of a realization are inverse to each other, for the direct and for the
transitive reading. -/
def RawRealization.Inverse (value : RawRealization) (taxonomy : RawTaxonomy) : Prop :=
  ∀ {individual entity instanceIndex classIndex}, individual ∈ value.instanceNodes.getD instanceIndex [] →
    entity ∈ taxonomy.nodes.getD classIndex [] → ∀ direct freshId, ∃ types instances,
      value.types individual direct freshId = some types ∧ value.instances entity direct = some instances ∧
        (taxonomy.nodes.getD classIndex [] ∈ types ↔ value.instanceNodes.getD instanceIndex [] ∈ instances)

theorem RawRealization.Exact.inverse {value : RawRealization} (exact_ : value.Exact compiled.toTables taxonomy) :
    value.Inverse taxonomy := by
  intro individual entity instanceIndex classIndex inside covered direct freshId
  obtain rfl := exact_.based
  obtain ⟨types, instances, found, found', typed, typed'⟩ :=
    RawRealization.types_instances inside covered direct freshId
  exact ⟨types, instances, found, found', typed.trans typed'.symm⟩

/-- Without ranges the runs for classes and individuals add no contradiction. -/
theorem Tables.Contradicted.early (noRanges : compiled.propertyRanges = []) {stage : Stage}
    (known : Stage.consistency.code ≤ stage.code) (contradicted : compiled.Contradicted stage) :
    compiled.Contradicted .consistency := by
  refine contradicted.imp_left fun ⟨root, listed, derivable⟩ => ⟨root, listed, ?_⟩
  have demanded : root ∈ demandedRoots (compiled.stageBatches .consistency) := ⟨_, .head _, listed⟩
  have local_ : ∀ {roots}, RangesLocal compiled.toTables (closeProperties compiled.toTables) roots :=
    rangesLocal_of_none compiled.valid noRanges
  have judges : Conclusion.Judges (.classInconsistency root) := .inconsistency
  refine (Derivable.transfer_iff local_ local_ ?_ ?_).mp derivable
  · rw [judges.supported]
    exact .start ⟨root, Tables.stageBatches_mono known demanded, rfl⟩
  · rw [judges.supported]
    exact .start ⟨root, demanded, rfl⟩

/-- Whatever a session has computed before, and over every class taxonomy: the realization that it returns
is exact, with inverse types and instances, exactly if the shared runs derive no contradiction or the
ontology makes all individuals one without a type. Without ranges a contradiction would have been found
with the consistency of the ontology. -/
theorem realization_exact {session next : SaturationSession} {realized : Option RawRealization}
    (reachable : session.Reachable compiled) (returned : session.realization taxonomy = .ok (next, realized)) :
    ((∃ value, realized = some value ∧ value.Exact compiled.toTables taxonomy ∧ value.Inverse taxonomy) ↔
      ¬ compiled.Contradicted .realized ∨ compiled.Collapses taxonomy) ∧
    (compiled.propertyRanges = [] → ¬ compiled.Contradicted .consistency → ¬ compiled.Contradicted .realized) := by
  refine ⟨?_, fun noRanges consistent contradicted => consistent (contradicted.early noRanges (by decide))⟩
  obtain ⟨done, rfl, same⟩ := reachable.realization returned
  have built : (∃ value, realized = some value ∧ value.Exact compiled.toTables taxonomy ∧ value.Inverse taxonomy) ↔
      ∃ value, buildRealization compiled.toTables (compiled.snapshotAt .realized) taxonomy = some value ∧
        value.Exact compiled.toTables taxonomy := by
    rw [← same]
    exact exists_congr fun value => and_congr_right fun _ => and_iff_left_of_imp fun exact_ => exact_.inverse
  rw [built]
  by_cases contradicted : compiled.Contradicted .realized
  · rw [or_iff_right (not_not.mpr contradicted)]
    obtain ⟨value, found, -, spec⟩ := @buildRealization_contradicted compiled taxonomy
      ((Tables.contradicted_iff compiled.valid).mp contradicted)
    rw [found, ← spec]
    exact ⟨fun ⟨_, same, exact_⟩ => Option.some.inj same ▸ exact_, fun exact_ => ⟨value, rfl, exact_⟩⟩
  · refine iff_of_true (buildRealization_exact compiled.valid done taxonomy ?_) (Or.inl contradicted)
    rw [Tables.contradicted_iff compiled.valid] at contradicted
    exact Bool.eq_false_iff.mpr contradicted

end

/-- Two managers who are the same worker. -/
def staffTables : Tables where
  entities := [⟨.owlClass, "ex:Manager"⟩, ⟨.owlClass, "ex:Worker"⟩, ⟨.owlClass, OWL_NOTHING_IRI⟩,
    ⟨.owlClass, OWL_THING_IRI⟩, ⟨.namedIndividual, "ex:ann"⟩, ⟨.namedIndividual, "ex:ben"⟩,
    ⟨.objectProperty, OWL_BOTTOM_OBJECT_PROPERTY_IRI⟩, ⟨.objectProperty, OWL_TOP_OBJECT_PROPERTY_IRI⟩]
  expressions := [⟨.owlClass, [0], []⟩, ⟨.owlClass, [1], []⟩, ⟨.owlClass, [2], []⟩, ⟨.owlClass, [3], []⟩,
    ⟨.individual, [4], []⟩, ⟨.individual, [5], []⟩]
  expressionOccurrences := [⟨1, 1⟩, ⟨0, 1⟩, ⟨0, 0⟩, ⟨0, 0⟩, ⟨2, 1⟩, ⟨1, 1⟩]
  propertyOccurrences := [⟨0, 0⟩, ⟨0, 0⟩]
  propertyChains := []
  subclassAxioms := [(0, 1), (4, 0), (4, 5), (5, 4)]
  equivalentClassAxioms := []
  disjointGroups := []
  subpropertyAxioms := []
  propertyRanges := []
  featureCounts := List.replicate 79 0
  sourceFingerprint := List.replicate 32 0

def staffOntology : CompiledOntology := ⟨staffTables, by decide +kernel⟩

def staffTaxonomy : RawTaxonomy := ⟨[[0], [1], [2], [3]], [(0, 1), (1, 3), (2, 0)], 3, 2, by decide +kernel⟩

theorem realization_exact_staff : ∃ next value,
    SaturationSession.realization { compiled := staffOntology } staffTaxonomy = .ok (next, some value) ∧
      value.Exact staffOntology.toTables staffTaxonomy ∧ value.Inverse staffTaxonomy ∧
      value.instanceNodes = [[4, 5]] ∧ value.directTypes = [(0, 0)] := by
  have computed :
    (SaturationSession.realization { compiled := staffOntology } staffTaxonomy).toOption.any fun answer =>
      answer.2.any fun value => decide (value.instanceNodes = [[4, 5]] ∧ value.directTypes = [(0, 0)]) := by
    decide +kernel
  obtain ⟨⟨next, answer⟩, found, checked⟩ := (Option.any_eq_true _ _).mp computed
  obtain ⟨value, rfl, checked⟩ := (Option.any_eq_true _ _).mp checked
  have returned := toOption_eq_some.mp found
  have consistent : ¬ staffOntology.Contradicted .realized := by
    rw [Tables.contradicted_iff staffOntology.valid]
    exact Bool.eq_false_iff.mp (by decide +kernel)
  obtain ⟨other, same, exact_, inverse⟩ := (realization_exact .fresh returned).1.mpr (Or.inl consistent)
  obtain rfl := Option.some.inj same
  exact ⟨next, value, returned, exact_, inverse, of_decide_eq_true checked⟩

/-- Whoever has a duty has it towards something impossible, but nobody needs to have one. -/
def dutyTables : Tables where
  entities := [⟨.owlClass, "ex:Burdened"⟩, ⟨.owlClass, "ex:Impossible"⟩, ⟨.owlClass, OWL_NOTHING_IRI⟩,
    ⟨.owlClass, OWL_THING_IRI⟩, ⟨.namedIndividual, "ex:ann"⟩, ⟨.namedIndividual, "ex:ben"⟩,
    ⟨.objectProperty, "ex:hasDuty"⟩, ⟨.objectProperty, OWL_BOTTOM_OBJECT_PROPERTY_IRI⟩,
    ⟨.objectProperty, OWL_TOP_OBJECT_PROPERTY_IRI⟩]
  expressions := [⟨.owlClass, [0], []⟩, ⟨.owlClass, [1], []⟩, ⟨.owlClass, [2], []⟩, ⟨.owlClass, [3], []⟩,
    ⟨.individual, [4], []⟩, ⟨.individual, [5], []⟩, ⟨.objectSomeValuesFrom, [6, 3], []⟩]
  expressionOccurrences := [⟨1, 0⟩, ⟨1, 1⟩, ⟨0, 1⟩, ⟨0, 3⟩, ⟨1, 0⟩, ⟨1, 0⟩, ⟨0, 1⟩]
  propertyOccurrences := [⟨0, 1⟩, ⟨0, 0⟩, ⟨0, 0⟩]
  propertyChains := []
  subclassAxioms := [(0, 6), (1, 2), (4, 3), (5, 3)]
  equivalentClassAxioms := []
  disjointGroups := []
  subpropertyAxioms := []
  propertyRanges := [(6, 1)]
  featureCounts := List.replicate 79 0
  sourceFingerprint := List.replicate 32 0

def dutyOntology : CompiledOntology := ⟨dutyTables, by decide +kernel⟩

/-- The ontology is consistent, but the run for its classes writes `Impossible` onto `owl:Thing`, and two
individuals that nothing makes the same end in one node. -/
theorem realization_not_exact : ∃ first second third state taxonomy value,
    SaturationSession.ensureConsistency { compiled := dutyOntology } = .ok (first, state) ∧
      state.inconsistent = false ∧ first.classTaxonomy = .ok (second, some taxonomy) ∧
      second.realization taxonomy = .ok (third, some value) ∧ value.instanceNodes = [[4, 5]] ∧
      ¬ value.Exact dutyOntology.toTables taxonomy := by
  have computed : (SaturationSession.ensureConsistency { compiled := dutyOntology }).toOption.any fun judged =>
      !judged.2.inconsistent && judged.1.classTaxonomy.toOption.any fun classified =>
        classified.2.any fun taxonomy => (classified.1.realization taxonomy).toOption.any fun answer =>
          answer.2.any fun value => decide (value.instanceNodes = [[4, 5]]) := by
    decide +kernel
  obtain ⟨⟨first, state⟩, judged, computed⟩ := (Option.any_eq_true _ _).mp computed
  rw [Bool.and_eq_true, Bool.not_eq_true'] at computed
  obtain ⟨consistent, computed⟩ := computed
  obtain ⟨⟨second, answer⟩, classified, computed⟩ := (Option.any_eq_true _ _).mp computed
  obtain ⟨taxonomy, rfl, computed⟩ := (Option.any_eq_true _ _).mp computed
  obtain ⟨⟨third, answer⟩, realized, computed⟩ := (Option.any_eq_true _ _).mp computed
  obtain ⟨value, rfl, nodes⟩ := (Option.any_eq_true _ _).mp computed
  have judged := toOption_eq_some.mp judged
  have classified := toOption_eq_some.mp classified
  have realized := toOption_eq_some.mp realized
  have nodes := of_decide_eq_true nodes
  refine ⟨first, second, third, state, taxonomy, value, judged, consistent, classified, realized, nodes,
    fun exact_ => ?_⟩
  -- no two individuals subsume each other
  obtain ⟨stage, known, -, returned, rfl, -⟩ := SaturationSession.Reachable.fresh.ensureConsistency judged
  obtain ⟨later, late, returned, rfl, -⟩ :=
    (SaturationSession.Reachable.reached known returned).classTaxonomy classified
  obtain ⟨done, -, -⟩ := (SaturationSession.Reachable.reached
    (le_trans (by decide : Stage.consistency.code ≤ Stage.classified.code) late) returned).realization realized
  have apart : ∀ x ∈ entityIds dutyOntology.entities .namedIndividual,
      ∀ y ∈ entityIds dutyOntology.entities .namedIndividual,
        dutyOntology.sameIndividual dutyOntology.realizedSubsumers (x, y) → x = y := by decide +kernel
  have alone : ∀ {x y}, EqvGen dutyOntology.MutualIndividuals x y → x = y := by
    intro x y related
    induction related with
    | rel x y both =>
      obtain ⟨left, right, same⟩ := (Tables.Valid.mutualIndividuals_iff dutyOntology.valid done x y).mp both
      exact apart x left y right same
    | refl => rfl
    | symm _ _ _ same => exact same.symm
    | trans _ _ _ _ _ left right => exact left.trans right
  obtain ⟨-, x, -, spec⟩ := (exact_.nodes [4, 5]).mp (nodes ▸ List.mem_singleton.mpr rfl)
  have ann := alone ((spec 4).mp (.head _)).2
  have ben := alone ((spec 5).mp (.tail _ (.head _))).2
  exact absurd (ann.symm.trans ben) (by decide)

end PyElk
