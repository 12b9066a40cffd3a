import PyElk.Reasoning.PropertySpec
import PyElk.Reasoning.Quotient
import PyElk.Reasoning.Taxonomy

open Relation Ordered

namespace PyElk

/-- What a taxonomy of the entities of a kind has to be. -/
structure RawTaxonomy.WellBuilt (entities : List EntityRecord) (kind : EntityKind)
    (taxonomy : RawTaxonomy) : Prop where
  validates : validateTaxonomyEntities entities taxonomy kind = some taxonomy
  covers : ∀ entity, entity ∈ entityIds entities kind ↔ ∃! index, entity ∈ taxonomy.nodes.getD index []
  onlyMembers : ∀ index, ∀ entity ∈ taxonomy.nodes.getD index [], entity ∈ entityIds entities kind
  maximal : ∀ index < taxonomy.nodes.length,
    (∀ other, (index, other) ∉ taxonomy.directEdges) ↔ index = taxonomy.top
  minimal : ∀ index < taxonomy.nodes.length,
    (∀ other, (other, index) ∉ taxonomy.directEdges) ↔ index = taxonomy.bottom
  top : topEntity entities kind ∈ taxonomy.nodes.getD taxonomy.top []
  bottom : bottomEntity entities kind ∈ taxonomy.nodes.getD taxonomy.bottom []
  sorted : taxonomy.directEdges.Pairwise fun a b => pairKey a < pairKey b
  acyclic : ∀ index, ¬ TransGen (Linked taxonomy.directEdges) index index
  reduced : ∀ edge ∈ taxonomy.directEdges,
    ¬ ReflTransGen (Linked (taxonomy.directEdges.erase edge)) edge.1 edge.2

section

variable {entities : List EntityRecord} {kind : EntityKind} {taxonomy : RawTaxonomy}

theorem RawTaxonomy.distinct (taxonomy : RawTaxonomy) : taxonomy.nodes.flatten.Nodup := by
  have checked := taxonomy.valid.canonical
  unfold validateNodes at checked
  rw [Bool.and_eq_true, decide_eq_true_eq] at checked
  exact checked.2

theorem RawTaxonomy.edge_bounds (taxonomy : RawTaxonomy) : ∀ edge ∈ taxonomy.directEdges,
    edge.1 < taxonomy.nodes.length ∧ edge.2 < taxonomy.nodes.length := by
  have checked := taxonomy.valid.edges
  unfold validateIndexPairs at checked
  simp only [Bool.and_eq_true, List.all_eq_true, decide_eq_true_eq] at checked
  exact fun edge member => (checked.1 edge member).1

theorem RawTaxonomy.edges_strict (taxonomy : RawTaxonomy) :
    taxonomy.directEdges.Pairwise fun a b => pairKey a < pairKey b := by
  have checked := taxonomy.valid.edges
  unfold validateIndexPairs checkSortedUnique at checked
  rw [Bool.and_eq_true, decide_eq_true_eq] at checked
  exact List.isChain_iff_pairwise.mp checked.2

/-- A place of an entity in the nodes is its node. -/
theorem RawTaxonomy.place (taxonomy : RawTaxonomy) {index : Nat} {entity : EntityId}
    (inside : entity ∈ taxonomy.nodes.getD index []) : nodeFor taxonomy.nodes entity = index := by
  obtain ⟨node, entry, member⟩ := mem_getD.mp inside
  exact nodeFor_eq taxonomy.distinct entry member

theorem RawTaxonomy.mem_nodeFor {entity : EntityId} (covered : entity ∈ taxonomy.nodes.flatten) :
    entity ∈ taxonomy.nodes.getD (nodeFor taxonomy.nodes entity) [] := by
  obtain ⟨node, entry, member⟩ := nodeFor_spec covered
  exact mem_getD.mpr ⟨node, entry, member⟩

/-- A node has a member. -/
theorem RawTaxonomy.exists_member (taxonomy : RawTaxonomy) {index : Nat} (inside : index < taxonomy.nodes.length) :
    ∃ entity ∈ taxonomy.nodes.flatten, nodeFor taxonomy.nodes entity = index := by
  have checked := taxonomy.valid.canonical
  unfold validateNodes at checked
  simp only [Bool.and_eq_true, List.all_eq_true, Bool.not_eq_true', List.isEmpty_eq_false_iff] at checked
  have nonempty := (checked.1.1 _ (List.getElem_mem inside)).1.1
  obtain ⟨entity, member⟩ := List.exists_mem_of_ne_nil _ nonempty
  exact ⟨entity, List.mem_flatten.mpr ⟨_, List.getElem_mem inside, member⟩,
    nodeFor_eq taxonomy.distinct (List.getElem?_eq_getElem inside) member⟩

/-- A taxonomy that validates, whose nodes all lie between its bounds, is well built. -/
theorem RawTaxonomy.wellBuilt (validates : validateTaxonomyEntities entities taxonomy kind = some taxonomy)
    (acyclic : ∀ index, ¬ TransGen (Linked taxonomy.directEdges) index index)
    (below : ∀ index < taxonomy.nodes.length, ReflTransGen (Linked taxonomy.directEdges) index taxonomy.top)
    (above : ∀ index < taxonomy.nodes.length, ReflTransGen (Linked taxonomy.directEdges) taxonomy.bottom index) :
    taxonomy.WellBuilt entities kind := by
  have checked := validates
  unfold validateTaxonomyEntities at checked
  obtain ⟨⟨coverage, top, bottom, minimal⟩, -⟩ := Option.ite_none_right_eq_some.mp checked
  have covers : ∀ entity, entity ∈ entityIds entities kind ↔ entity ∈ taxonomy.nodes.flatten := by
    intro entity
    rw [← coverage, mem_sortedBy]
  obtain ⟨direct, found, reduces⟩ := transitiveReduction_spec taxonomy.edge_bounds acyclic
  obtain rfl : direct = taxonomy.directEdges := Option.some.inj (found.symm.trans minimal)
  refine ⟨validates, fun entity => ?_, fun index entity inside => ?_, fun index inside => ?_, fun index inside => ?_,
    top, bottom, taxonomy.edges_strict, acyclic, fun edge member => reduces.needed member⟩
  · rw [covers]
    constructor
    · exact fun covered => ⟨_, mem_nodeFor covered, fun other inside => (taxonomy.place inside).symm⟩
    · rintro ⟨index, inside, -⟩
      obtain ⟨node, entry, member⟩ := mem_getD.mp inside
      exact List.mem_flatten.mpr ⟨node, List.mem_of_getElem? entry, member⟩
  · obtain ⟨node, entry, member⟩ := mem_getD.mp inside
    exact (covers entity).mpr (List.mem_flatten.mpr ⟨node, List.mem_of_getElem? entry, member⟩)
  · constructor
    · intro last
      rcases (below index inside).cases_head with same | ⟨other, edge, -⟩
      · exact same
      · exact absurd edge (last other)
    · rintro rfl other edge
      exact acyclic _ (.head' edge (below other (taxonomy.edge_bounds _ edge).2))
  · constructor
    · intro first
      rcases (above index inside).cases_tail with same | ⟨other, -, edge⟩
      · exact same
      · exact absurd edge (first other)
    · rintro rfl other edge
      exact acyclic _ (.tail' (above other (taxonomy.edge_bounds _ edge).1) edge)

theorem validateTaxonomyEntities_eq {result : RawTaxonomy}
    (found : validateTaxonomyEntities entities taxonomy kind = some result) : taxonomy = result :=
  Option.some.inj (Option.ite_none_right_eq_some.mp found).2

end

section

variable {entities : List EntityRecord} {kind : EntityKind} {edges : List (Nat × Nat)}
  (few : entities.length ≤ U32_RESERVED) (topMember : topEntity entities kind ∈ entityIds entities kind)
  (bottomMember : bottomEntity entities kind ∈ entityIds entities kind)

include few topMember bottomMember

/-- A relation between its bounds gives a well built taxonomy. -/
theorem fromRelation_wellBuilt
    (within : ∀ edge ∈ edges, edge.1 ∈ entityIds entities kind ∧ edge.2 ∈ entityIds entities kind)
    (below : ∀ x ∈ entityIds entities kind, (x, topEntity entities kind) ∈ edges)
    (above : ∀ x ∈ entityIds entities kind, (bottomEntity entities kind, x) ∈ edges) :
    ∃ taxonomy, fromRelation entities kind edges = some taxonomy ∧ taxonomy.WellBuilt entities kind := by
  obtain ⟨taxonomy, found, represents⟩ := fromRelation_spec few topMember bottomMember within below above
  refine ⟨taxonomy, found, RawTaxonomy.wellBuilt ?_ represents.acyclic (fun index inside => ?_)
    fun index inside => ?_⟩
  · obtain ⟨reduced, -, checking⟩ := Option.bind_eq_some_iff.mp found
    obtain ⟨checked, -, validates⟩ := Option.bind_eq_some_iff.mp checking
    exact validateTaxonomyEntities_eq validates ▸ validates
  · obtain ⟨x, covered, rfl⟩ := taxonomy.exists_member inside
    have member := (represents.covers x).mp covered
    rw [represents.top]
    exact (represents.below x member _ topMember).mpr (.single (below x member))
  · obtain ⟨x, covered, rfl⟩ := taxonomy.exists_member inside
    have member := (represents.covers x).mp covered
    rw [represents.bottom]
    exact (represents.below _ bottomMember x member).mpr (.single (above x member))

theorem collapsedTaxonomy_wellBuilt :
    ∃ taxonomy, collapsedTaxonomy entities kind = some taxonomy ∧ taxonomy.WellBuilt entities kind := by
  obtain ⟨taxonomy, found, nodes, noEdges⟩ := collapsedTaxonomy_spec few topMember bottomMember
  have single : ∀ index < taxonomy.nodes.length, index = 0 := by
    intro index inside
    rw [nodes, List.length_singleton] at inside
    omega
  have none_ : ∀ {i j}, ¬ Linked taxonomy.directEdges i j := by
    intro i j edge
    rw [noEdges] at edge
    exact List.not_mem_nil edge
  refine ⟨taxonomy, found, RawTaxonomy.wellBuilt ?_ (fun index cycle => ?_) (fun index inside => ?_)
    fun index inside => ?_⟩
  · obtain ⟨checked, -, validates⟩ := Option.bind_eq_some_iff.mp found
    exact validateTaxonomyEntities_eq validates ▸ validates
  · obtain ⟨next, edge, -⟩ := TransGen.head'_iff.mp cycle
    exact none_ edge
  · rw [single index inside, single _ taxonomy.valid.topBound]
  · rw [single index inside, single _ taxonomy.valid.bottomBound]

end

section

variable {compiled : Tables} (valid : compiled.Valid)

include valid

omit valid in
/-- Whether `build_class_taxonomy` meets no run that raises: it makes none of its own for an inconsistent
ontology or without ranges, and otherwise one for each class. -/
def Tables.ClassRunsReturn (compiled : Tables) (saturation : SaturationSnapshot) : Prop :=
  saturation.inconsistentOntology ∨ compiled.propertyRanges = [] ∨
    ∀ root ∈ compiled.rootsOf .owlClass, ∃ engine, compiled.saturate [[root]] = .ok engine

/-- The contexts that the taxonomy reads are there exactly if no run raises. -/
theorem Tables.classContext_isSome {saturation : SaturationSnapshot}
    (consistent : saturation.inconsistentOntology = false)
    (saturated : ∀ root ∈ compiled.rootsOf .owlClass, ∃ context, saturation.context root = some context) :
    (∀ member ∈ entityIds compiled.entities .owlClass, ∃ context,
      compiled.classContext saturation (compiled.namedExpression .owlClass member) = some context) ↔
      compiled.ClassRunsReturn saturation := by
  unfold ClassRunsReturn
  rw [consistent, or_iff_right Bool.false_ne_true]
  have rooted : ∀ {root}, root ∈ compiled.rootsOf .owlClass ↔
      ∃ member ∈ entityIds compiled.entities .owlClass, compiled.namedExpression .owlClass member = root := by
    intro root
    constructor
    · intro listed
      obtain ⟨arguments, built⟩ := mem_rootsOf.mp listed
      obtain ⟨entity, rfl, object⟩ := valid.shape built
      exact ⟨entity, mem_entityIds.mpr object, (valid.built_unique built (valid.namedExpression_built object)
        (by decide)).symm⟩
    · rintro ⟨member, listed, rfl⟩
      exact mem_rootsOf.mpr ⟨_, valid.namedExpression_built (mem_entityIds.mp listed)⟩
  by_cases ranged : compiled.propertyRanges = []
  · refine iff_of_true (fun member listed => ?_) (Or.inl ranged)
    rw [Tables.classContext, if_pos ranged]
    exact saturated _ (rooted.mpr ⟨member, listed, rfl⟩)
  · rw [or_iff_right ranged]
    constructor
    · intro read root listed
      obtain ⟨member, known, rfl⟩ := rooted.mp listed
      obtain ⟨context, found⟩ := read member known
      rw [Tables.classContext, if_neg ranged] at found
      obtain ⟨engine, returned, _⟩ := Option.bind_eq_some_iff.mp found
      exact ⟨engine, toOption_eq_some.mp returned⟩
    · intro runs member listed
      have root := rooted.mpr ⟨member, listed, rfl⟩
      obtain ⟨engine, returned⟩ := runs _ root
      obtain ⟨rfl, -⟩ := saturate_ok valid returned
      have inside : ∀ other ∈ demandedRoots [[compiled.namedExpression .owlClass member]],
          other < compiled.expressions.length := by
        rintro other ⟨batch, only, same⟩
        rw [List.mem_singleton.mp only] at same
        rw [List.mem_singleton.mp same]
        exact rootsOf_lt _ root
      obtain ⟨context, found, _⟩ := compiled.snapshot_context valid inside
        (.start ⟨_, ⟨_, List.mem_cons_self, List.mem_cons_self⟩, rfl⟩)
      refine ⟨context, ?_⟩
      rw [Tables.classContext, if_neg ranged, returned]
      exact found

/-- The edges of a class taxonomy lie within its classes and between its bounds. -/
theorem Tables.classEdges_within {saturation : SaturationSnapshot}
    (read : ∀ member ∈ entityIds compiled.entities .owlClass, ∃ context,
      compiled.classContext saturation (compiled.namedExpression .owlClass member) = some context) :
    ∃ edges, compiled.classEdges saturation = some edges ∧
      (∀ edge ∈ edges, edge.1 ∈ entityIds compiled.entities .owlClass ∧
        edge.2 ∈ entityIds compiled.entities .owlClass) ∧
      (∀ x ∈ entityIds compiled.entities .owlClass, (x, topEntity compiled.entities .owlClass) ∈ edges) ∧
      ∀ x ∈ entityIds compiled.entities .owlClass, (bottomEntity compiled.entities .owlClass, x) ∈ edges := by
  have bounds := valid.bounds (Or.inl rfl : EntityKind.owlClass = _ ∨ _)
  have each : ∀ member ∈ entityIds compiled.entities .owlClass, ∃ row,
      (compiled.classContext saturation (compiled.namedExpression .owlClass member)).map
        (compiled.memberEdges member) = some row := by
    intro member listed
    obtain ⟨context, found⟩ := read member listed
    exact ⟨_, by rw [found]; rfl⟩
  obtain ⟨rows, mapped, spec⟩ := exists_mapM each
  refine ⟨_, by rw [Tables.classEdges, mapped]; rfl, ?_, fun x member => ?_, fun x member => ?_⟩
  · rintro ⟨x, y⟩ listed
    rcases List.mem_append.mp listed with fromBottom | fromRow
    · obtain ⟨member, known, same⟩ := List.mem_map.mp fromBottom
      cases same
      exact ⟨bounds.2, known⟩
    · obtain ⟨row, inside, edge⟩ := List.mem_flatten.mp fromRow
      obtain ⟨member, known, found⟩ := (spec row).mp inside
      obtain ⟨context, _, rfl⟩ := Option.map_eq_some_iff.mp found
      obtain ⟨rfl, above⟩ := Tables.mem_memberEdges.mp edge
      refine ⟨known, ?_⟩
      rcases above with rfl | ⟨subsumer, -, super⟩ | ⟨rfl, -⟩
      · exact bounds.1
      · exact mem_entityIds.mpr (valid.classEntity_iff.mp super).1
      · exact bounds.2
  · obtain ⟨row, found⟩ := each x member
    obtain ⟨context, _, rfl⟩ := Option.map_eq_some_iff.mp found
    exact List.mem_append_right _ (List.mem_flatten.mpr ⟨_, (spec _).mpr ⟨x, member, found⟩,
      Tables.mem_memberEdges.mpr ⟨rfl, Or.inl rfl⟩⟩)
  · exact List.mem_append_left _ (List.mem_map_of_mem member)

/-- The class taxonomy of any snapshot that has the contexts of the classes: it is well built, unless a
run raises. -/
theorem buildClassTaxonomy_total {saturation : SaturationSnapshot}
    (saturated : ∀ root ∈ compiled.rootsOf .owlClass, ∃ context, saturation.context root = some context)
    (runs : compiled.ClassRunsReturn saturation) :
    ∃ taxonomy, buildClassTaxonomy compiled saturation = some taxonomy ∧
      taxonomy.WellBuilt compiled.entities .owlClass := by
  have bounds := valid.bounds (Or.inl rfl : EntityKind.owlClass = _ ∨ _)
  unfold buildClassTaxonomy
  split
  · exact collapsedTaxonomy_wellBuilt valid.few_entities bounds.1 bounds.2
  · rename_i consistent
    have read := (Tables.classContext_isSome valid (Bool.not_eq_true _ ▸ consistent) saturated).mpr runs
    obtain ⟨edges, computed, within, below, above⟩ := Tables.classEdges_within valid read
    rw [computed, Option.bind_some]
    exact fromRelation_wellBuilt valid.few_entities bounds.1 bounds.2 within below above

/-- A class taxonomy that is returned has read the contexts of its classes. -/
theorem classRunsReturn_of_taxonomy {saturation : SaturationSnapshot} {taxonomy : RawTaxonomy}
    (saturated : ∀ root ∈ compiled.rootsOf .owlClass, ∃ context, saturation.context root = some context)
    (built : buildClassTaxonomy compiled saturation = some taxonomy) : compiled.ClassRunsReturn saturation := by
  unfold buildClassTaxonomy at built
  split at built
  · exact Or.inl ‹_›
  · rename_i consistent
    obtain ⟨edges, computed, _⟩ := Option.bind_eq_some_iff.mp built
    obtain ⟨rows, mapped, _⟩ := Option.map_eq_some_iff.mp computed
    refine (Tables.classContext_isSome valid (Bool.not_eq_true _ ▸ consistent) saturated).mp fun member listed => ?_
    obtain ⟨row, found⟩ := mapM_defined mapped member listed
    obtain ⟨context, present, _⟩ := Option.map_eq_some_iff.mp found
    exact ⟨context, present⟩

/-- The object property taxonomy over the saturated properties. -/
theorem buildObjectPropertyTaxonomy_total (inconsistentOntology : Bool) :
    ∃ taxonomy, buildObjectPropertyTaxonomy compiled (closeProperties compiled) inconsistentOntology = some taxonomy ∧
      taxonomy.WellBuilt compiled.entities .objectProperty := by
  have bounds := valid.bounds (Or.inr rfl : _ ∨ EntityKind.objectProperty = _)
  have properties := closeProperties_spec valid
  unfold buildObjectPropertyTaxonomy
  split
  · exact collapsedTaxonomy_wellBuilt valid.few_entities bounds.1 bounds.2
  · refine fromRelation_wellBuilt valid.few_entities bounds.1 bounds.2 ?_ (fun x member => ?_) fun x member => ?_
    · rintro ⟨x, y⟩ listed
      unfold Tables.propertyEdges at listed
      rcases List.mem_append.mp listed with fromBottom | row
      · obtain ⟨member, known, same⟩ := List.mem_map.mp fromBottom
        cases same
        exact ⟨bounds.2, known⟩
      · obtain ⟨member, known, edge⟩ := List.mem_flatMap.mp row
        rcases List.mem_cons.mp edge with same | super
        · cases same
          exact ⟨known, bounds.1⟩
        · obtain ⟨property, found, same⟩ := List.mem_map.mp super
          cases same
          obtain ⟨chain, -, read⟩ := List.mem_filterMap.mp found
          obtain ⟨record, entry, single⟩ := Option.bind_eq_some_iff.mp read
          have object := properties.property record (List.mem_of_getElem? entry)
          rw [named_eq_some.mp single] at object
          exact ⟨known, mem_entityIds.mpr object⟩
    · exact List.mem_append_right _ (List.mem_flatMap.mpr ⟨x, member, List.mem_cons_self⟩)
    · exact List.mem_append_left _ (List.mem_map_of_mem member)

end

/-- The long group again, with a range: `ex:Member` below the range of the bottom property. -/
def rangedTeamOntology : CompiledOntology :=
  ⟨teamTables 0xFFFFFFFF [(4, 3)], teamTables_valid (by decide) (by decide) (by decide)⟩

/-- A snapshot with an empty context for each class. -/
def rangedTeamSnapshot : SaturationSnapshot :=
  ⟨[{ root := 0 }, { root := 1 }, { root := 2 }, { root := 3 }], false⟩

end PyElk
