import PyElk.Reasoning.RawTaxonomy
import PyElk.Reasoning.Session

open Relation Ordered

namespace PyElk

/-- The inverse of `_named_expressions` for classes. -/
def Tables.classEntity (compiled : Tables) (expression : ExpressionId) : Option EntityId :=
  match compiled.expressions[expression]? with
  | some ⟨.owlClass, entity :: _, _⟩ => some entity
  | _ => none

/-- The edges that the context of a class gives its entity. -/
def Tables.memberEdges (compiled : Tables) (member : EntityId) (context : Context) : List (Nat × Nat) :=
  (member, topEntity compiled.entities .owlClass) ::
    ((context.composedSubsumers ++ context.decomposedSubsumers).filterMap compiled.classEntity).map (member, ·) ++
    if context.inconsistent ∨ member = bottomEntity compiled.entities .owlClass then
      [(member, bottomEntity compiled.entities .owlClass)]
    else []

/-- The context that the taxonomy reads for a class. With ranges it comes from an engine
of its own, so that one root does not see the ranges of another; a run that raises gives none. -/
def Tables.classContext (compiled : Tables) (saturation : SaturationSnapshot) (root : ExpressionId) :
    Option Context :=
  if compiled.propertyRanges = [] then saturation.context root
  else (compiled.saturate [[root]]).toOption.bind fun engine => engine.snapshot.find? fun context =>
    context.root == root

/-- The relation behind the class taxonomy, or `none` for a missing context. -/
def Tables.classEdges (compiled : Tables) (saturation : SaturationSnapshot) : Option (List (Nat × Nat)) :=
  ((entityIds compiled.entities .owlClass).mapM fun member =>
    (compiled.classContext saturation (compiled.namedExpression .owlClass member)).map
      (compiled.memberEdges member)).map fun rows =>
    (entityIds compiled.entities .owlClass).map (bottomEntity compiled.entities .owlClass, ·) ++ rows.flatten

/-- Build the mutual-subsumption quotient of every committed named class. -/
def buildClassTaxonomy (compiled : Tables) (saturation : SaturationSnapshot) : Option RawTaxonomy :=
  if saturation.inconsistentOntology then collapsedTaxonomy compiled.entities .owlClass
  else (compiled.classEdges saturation).bind (fromRelation compiled.entities .owlClass)

/-- The relation behind the object property taxonomy. -/
def Tables.propertyEdges (compiled : Tables) (properties : PropertySaturation) : List (Nat × Nat) :=
  let members := entityIds compiled.entities .objectProperty
  members.map (bottomEntity compiled.entities .objectProperty, ·) ++ members.flatMap fun member =>
    (member, topEntity compiled.entities .objectProperty) ::
      ((properties.superChains (properties.singletonChain member)).filterMap fun chain =>
        (properties.chains[chain]?).bind PropertyChainRecord.named).map (member, ·)

/-- Build the singleton-chain property quotient and direct hierarchy. -/
def buildObjectPropertyTaxonomy (compiled : Tables) (properties : PropertySaturation) (inconsistentOntology : Bool) :
    Option RawTaxonomy :=
  if inconsistentOntology then collapsedTaxonomy compiled.entities .objectProperty
  else fromRelation compiled.entities .objectProperty (compiled.propertyEdges properties)

/-- `class_taxonomy`. -/
def SaturationSession.classTaxonomy (session : SaturationSession) :
    Except ReasoningError (SaturationSession × Option RawTaxonomy) := do
  let (session, saturation) ← session.ensureClassified
  pure (session, buildClassTaxonomy session.compiled.toTables saturation)

/-- `object_property_taxonomy`. -/
def SaturationSession.objectPropertyTaxonomy (session : SaturationSession) :
    Except ReasoningError (SaturationSession × Option RawTaxonomy) := do
  let (session, consistency) ← session.ensureConsistency
  let (session, properties) ← session.ensureProperties
  pure (session, buildObjectPropertyTaxonomy session.compiled.toTables properties consistency.inconsistent)

/-- A run over values that all have an image succeeds with these images. -/
theorem exists_mapM {α β : Type} {f : α → Option β} {values : List α} (all : ∀ x ∈ values, ∃ y, f x = some y) :
    ∃ images, values.mapM f = some images ∧ ∀ y, y ∈ images ↔ ∃ x ∈ values, f x = some y := by
  induction values with
  | nil => exact ⟨[], rfl, by simp⟩
  | cons x rest ih =>
    obtain ⟨y, found⟩ := all x (.head _)
    obtain ⟨images, mapped, spec⟩ := ih fun z member => all z (.tail _ member)
    refine ⟨y :: images, by rw [List.mapM_cons, found, mapped]; rfl, fun z => ?_⟩
    simp only [List.mem_cons, or_and_right, exists_or, exists_eq_left, spec, found, Option.some.injEq, @eq_comm _ z y]

theorem mapM_defined {α β : Type} {f : α → Option β} {values : List α} {images : List β}
    (mapped : values.mapM f = some images) : ∀ x ∈ values, ∃ y, f x = some y := by
  induction values generalizing images with
  | nil => exact fun x member => absurd member List.not_mem_nil
  | cons first rest ih =>
    rw [List.mapM_cons] at mapped
    obtain ⟨y, found, after⟩ := Option.bind_eq_some_iff.mp mapped
    obtain ⟨others, tail, _⟩ := Option.bind_eq_some_iff.mp after
    exact List.forall_mem_cons.mpr ⟨⟨y, found⟩, ih tail⟩

theorem Tables.mem_memberEdges {compiled : Tables} {member x y : EntityId} {context : Context} :
    (x, y) ∈ compiled.memberEdges member context ↔ x = member ∧
      (y = topEntity compiled.entities .owlClass ∨
        (∃ subsumer ∈ context.composedSubsumers ++ context.decomposedSubsumers,
          compiled.classEntity subsumer = some y) ∨
        y = bottomEntity compiled.entities .owlClass ∧
          (context.inconsistent ∨ member = bottomEntity compiled.entities .owlClass)) := by
  unfold memberEdges
  rw [List.cons_append, List.mem_cons, List.mem_append, List.mem_map, Prod.mk.injEq]
  simp only [List.mem_filterMap, Prod.mk.injEq]
  split
  · rename_i guard
    rw [List.mem_singleton, Prod.mk.injEq, and_iff_left guard]
    constructor
    · rintro (⟨rfl, rfl⟩ | ⟨_, found, rfl, rfl⟩ | ⟨rfl, rfl⟩)
      · exact ⟨rfl, Or.inl rfl⟩
      · exact ⟨rfl, Or.inr (Or.inl found)⟩
      · exact ⟨rfl, Or.inr (Or.inr rfl)⟩
    · rintro ⟨rfl, rfl | found | rfl⟩
      · exact Or.inl ⟨rfl, rfl⟩
      · exact Or.inr (Or.inl ⟨y, found, rfl, rfl⟩)
      · exact Or.inr (Or.inr ⟨rfl, rfl⟩)
  · rename_i guard
    constructor
    · rintro (⟨rfl, rfl⟩ | ⟨_, found, rfl, rfl⟩ | none_)
      · exact ⟨rfl, Or.inl rfl⟩
      · exact ⟨rfl, Or.inr (Or.inl found)⟩
      · exact absurd none_ List.not_mem_nil
    · rintro ⟨rfl, rfl | found | ⟨_, bad⟩⟩
      · exact Or.inl ⟨rfl, rfl⟩
      · exact Or.inr (Or.inl ⟨y, found, rfl, rfl⟩)
      · exact absurd bad guard

section

variable {compiled : Tables} (valid : compiled.Valid)

include valid

/-- The predefined bounds of both taxonomies are entities of their kind. -/
theorem Tables.Valid.bounds {kind : EntityKind} (graded : kind = .owlClass ∨ kind = .objectProperty) :
    topEntity compiled.entities kind ∈ entityIds compiled.entities kind ∧
      bottomEntity compiled.entities kind ∈ entityIds compiled.entities kind := by
  have found : ∀ {iri}, (⟨kind, iri⟩ : EntityRecord) ∈ predefinedEntities →
      metadataEntity compiled.entities kind iri ∈ entityIds compiled.entities kind :=
    fun member => mem_entityIds.mpr ⟨_, valid.entityId_of member⟩
  rcases graded with rfl | rfl
  · exact ⟨found (by simp [predefinedEntities, boundIris]), found (by simp [predefinedEntities, boundIris])⟩
  · exact ⟨found (by simp [predefinedEntities, boundIris]), found (by simp [predefinedEntities, boundIris])⟩

theorem Tables.Valid.classEntity_iff {expression : ExpressionId} {entity : EntityId} :
    compiled.classEntity expression = some entity ↔
      compiled.EntityOf entity .owlClass ∧ expression = compiled.namedExpression .owlClass entity := by
  constructor
  · intro found
    unfold classEntity at found
    split at found
    · rename_i entity' rest payload entry
      cases found
      obtain ⟨other, same, object⟩ := valid.shape ⟨payload, entry⟩
      cases same
      exact ⟨object, valid.built_unique ⟨payload, entry⟩ (valid.namedExpression_built object) (by decide)⟩
    · cases found
  · rintro ⟨object, rfl⟩
    obtain ⟨payload, entry⟩ := valid.namedExpression_built object
    simp only [classEntity, entry]

omit valid in
/-- The roots of the saturation in which the taxonomy places a class. -/
def Tables.classRoots (compiled : Tables) (stage : Stage) (root : ExpressionId) : Set ExpressionId :=
  if compiled.propertyRanges = [] then demandedRoots (compiled.stageBatches stage) else {root}

omit valid in
/-- The relation that the class taxonomy represents, over derived conclusions. -/
inductive Tables.ClassEdge (compiled : Tables) (stage : Stage) : EntityId → EntityId → Prop
  | bottom {member} (object : compiled.EntityOf member .owlClass) :
      ClassEdge compiled stage (bottomEntity compiled.entities .owlClass) member
  | top {member} (object : compiled.EntityOf member .owlClass) :
      ClassEdge compiled stage member (topEntity compiled.entities .owlClass)
  | subsumer {member super} (object : compiled.EntityOf member .owlClass)
    (object' : compiled.EntityOf super .owlClass)
      (derivable : Derivable compiled (closeProperties compiled)
        (compiled.classRoots stage (compiled.namedExpression .owlClass member))
        (.subClassInclusionComposed (compiled.namedExpression .owlClass member)
          (compiled.namedExpression .owlClass super))) : ClassEdge compiled stage member super
  | inconsistent {member} (object : compiled.EntityOf member .owlClass)
      (derivable : Derivable compiled (closeProperties compiled)
        (compiled.classRoots stage (compiled.namedExpression .owlClass member))
        (.classInconsistency (compiled.namedExpression .owlClass member))) :
      ClassEdge compiled stage member (bottomEntity compiled.entities .owlClass)

variable {stage : Stage} (late : Stage.classified.code ≤ stage.code)

include late

/-- The context that the taxonomy reads for a class. -/
theorem Tables.Valid.classContext_spec (returned : compiled.Returned stage) {member : EntityId}
    (object : compiled.EntityOf member .owlClass) :
    ∃ context, compiled.classContext (compiled.snapshotAt stage)
        (compiled.namedExpression .owlClass member) = some context ∧
      context.root = compiled.namedExpression .owlClass member ∧ context.Mirrors
        {c | Derivable compiled (closeProperties compiled)
          (compiled.classRoots stage (compiled.namedExpression .owlClass member)) c} := by
  have built := valid.namedExpression_built object
  have demanded : compiled.namedExpression .owlClass member ∈ demandedRoots (compiled.stageBatches stage) :=
    stageBatches_mono late ⟨_, .tail _ (.head _), mem_rootsOf.mpr ⟨_, built⟩⟩
  unfold classContext classRoots
  split
  · exact compiled.snapshot_context valid (stageBatches_lt valid) (.start ⟨_, demanded, rfl⟩)
  · rw [returned.alone valid demanded]
    have single : demandedRoots [[compiled.namedExpression .owlClass member]] =
        {compiled.namedExpression .owlClass member} := by
      ext root
      simp [demandedRoots]
    rw [← single]
    refine compiled.snapshot_context valid ?_ (.start ⟨_, ⟨_, .head _, .head _⟩, rfl⟩)
    rintro root ⟨batch, listed, inside⟩
    rw [List.mem_singleton.mp listed] at inside
    rw [List.mem_singleton.mp inside]
    exact built.lt

/-- The rows of the relation exist, and hold the edges of the derived relation. -/
theorem Tables.Valid.classEdges_spec (returned : compiled.Returned stage) :
    ∃ edges, compiled.classEdges (compiled.snapshotAt stage) = some edges ∧ ∀ x y, Linked edges x y ↔
      compiled.ClassEdge stage x y := by
  have read : ∀ member ∈ entityIds compiled.entities .owlClass, ∃ row,
      (compiled.classContext (compiled.snapshotAt stage) (compiled.namedExpression .owlClass member)).map
        (compiled.memberEdges member) = some row := by
    intro member object
    obtain ⟨context, found, _⟩ := valid.classContext_spec late returned (mem_entityIds.mp object)
    exact ⟨_, by rw [found]; rfl⟩
  obtain ⟨rows, mapped, rows_iff⟩ := exists_mapM read
  refine ⟨_, by rw [classEdges, mapped]; rfl, fun x y => ?_⟩
  have named : ∀ {entity}, entity ∈ entityIds compiled.entities .owlClass ↔ compiled.EntityOf entity .owlClass :=
    mem_entityIds
  have bottom := named.mp (valid.bounds (Or.inl rfl : EntityKind.owlClass = _ ∨ _)).2
  have composed : ∀ {member}, compiled.EntityOf member .owlClass → ∀ {context : Context},
      context.root = compiled.namedExpression .owlClass member →
      context.Mirrors {c | Derivable compiled (closeProperties compiled)
        (compiled.classRoots stage (compiled.namedExpression .owlClass member)) c} →
      ∀ {subsumer}, subsumer ∈ context.composedSubsumers ++ context.decomposedSubsumers ↔
        Derivable compiled (closeProperties compiled)
          (compiled.classRoots stage (compiled.namedExpression .owlClass member))
          (.subClassInclusionComposed (compiled.namedExpression .owlClass member) subsumer) := by
    intro member _ context root mirrors subsumer
    rw [List.mem_append]
    constructor
    · rintro (found | found)
      · exact (mirrors (.subClassInclusionComposed _ subsumer) root.symm).mp found
      · exact .unary ((mirrors (.subClassInclusionDecomposed _ subsumer) root.symm).mp found) .composedOfDecomposed
    · exact fun derivable => Or.inl ((mirrors (.subClassInclusionComposed _ subsumer) root.symm).mpr derivable)
  unfold Linked
  rw [List.mem_append, List.mem_map, List.mem_flatten]
  constructor
  · rintro (⟨member, object, same⟩ | ⟨row, listed, edge⟩)
    · cases same
      exact .bottom (named.mp object)
    · obtain ⟨member, listed, read⟩ := (rows_iff row).mp listed
      have object := named.mp listed
      obtain ⟨context, found, root, mirrors⟩ := valid.classContext_spec late returned object
      rw [found, Option.map_some, Option.some.injEq] at read
      subst read
      obtain ⟨rfl, rfl | ⟨subsumer, held, super⟩ | ⟨rfl, inconsistent | same⟩⟩ := mem_memberEdges.mp edge
      · exact .top object
      · obtain ⟨object', rfl⟩ := valid.classEntity_iff.mp super
        exact .subsumer object object' ((composed object root mirrors).mp held)
      · exact .inconsistent object ((mirrors (.classInconsistency _) root.symm).mp inconsistent)
      · rw [same]
        exact .bottom bottom
  · intro edge
    have row : ∀ {member}, compiled.EntityOf member .owlClass → ∀ {y}, (∀ context : Context,
        context.root = compiled.namedExpression .owlClass member →
        context.Mirrors {c | Derivable compiled (closeProperties compiled)
          (compiled.classRoots stage (compiled.namedExpression .owlClass member)) c} →
        (member, y) ∈ compiled.memberEdges member context) → ∃ row ∈ rows, (member, y) ∈ row := by
      intro member object y edge
      obtain ⟨context, found, root, mirrors⟩ := valid.classContext_spec late returned object
      exact ⟨_, (rows_iff _).mpr ⟨member, named.mpr object, by rw [found]; rfl⟩, edge context root mirrors⟩
    cases edge with
    | bottom object => exact Or.inl ⟨_, named.mpr object, rfl⟩
    | top object =>
      exact Or.inr (row object fun context _ _ => mem_memberEdges.mpr ⟨rfl, Or.inl rfl⟩)
    | subsumer object object' derivable =>
      refine Or.inr (row object fun context root mirrors => mem_memberEdges.mpr ⟨rfl, Or.inr (Or.inl ?_)⟩)
      exact ⟨_, (composed object root mirrors).mpr derivable, valid.classEntity_iff.mpr ⟨object', rfl⟩⟩
    | inconsistent object derivable =>
      refine Or.inr
        (row object fun context root mirrors => mem_memberEdges.mpr ⟨rfl, Or.inr (Or.inr ⟨rfl, Or.inl ?_⟩)⟩)
      exact (mirrors (.classInconsistency _) root.symm).mpr derivable

/-- The class taxonomy of a consistent snapshot exists and represents the derived relation. -/
theorem buildClassTaxonomy_spec (returned : compiled.Returned stage)
    (consistent : (compiled.snapshotAt stage).inconsistentOntology = false) :
    ∃ taxonomy, buildClassTaxonomy compiled (compiled.snapshotAt stage) = some taxonomy ∧
      (∀ x y, compiled.EntityOf x .owlClass → compiled.EntityOf y .owlClass →
        (taxonomy.Below x y ↔ ReflTransGen (compiled.ClassEdge stage) x y)) ∧
      ∃ edges, taxonomy.Represents compiled.entities .owlClass edges := by
  obtain ⟨edges, computed, spec⟩ := valid.classEdges_spec late returned
  have relation : Linked edges = compiled.ClassEdge stage := funext fun x => funext fun y => propext (spec x y)
  have bounds := valid.bounds (Or.inl rfl : EntityKind.owlClass = _ ∨ _)
  have within : ∀ edge ∈ edges, edge.1 ∈ entityIds compiled.entities .owlClass ∧
      edge.2 ∈ entityIds compiled.entities .owlClass := by
    rintro ⟨x, y⟩ listed
    cases (spec x y).mp listed with
    | bottom object => exact ⟨bounds.2, mem_entityIds.mpr object⟩
    | top object => exact ⟨mem_entityIds.mpr object, bounds.1⟩
    | subsumer object object' => exact ⟨mem_entityIds.mpr object, mem_entityIds.mpr object'⟩
    | inconsistent object => exact ⟨mem_entityIds.mpr object, bounds.2⟩
  obtain ⟨taxonomy, built, represents⟩ := fromRelation_spec valid.few_entities bounds.1 bounds.2 within
    (fun x member => (spec _ _).mpr (.top (mem_entityIds.mp member)))
    (fun x member => (spec _ _).mpr (.bottom (mem_entityIds.mp member)))
  refine ⟨taxonomy, ?_, fun x y object object' => ?_, edges, represents⟩
  · rw [buildClassTaxonomy, consistent, if_neg Bool.false_ne_true, computed, Option.bind_some, built]
  · rw [represents.below x (mem_entityIds.mpr object) y (mem_entityIds.mpr object'), relation]

end

section

variable {compiled : CompiledOntology}

/-- The class taxonomy that a session builds, at whatever stage it is. -/
theorem SaturationSession.Reachable.classTaxonomy {session next : SaturationSession} {taxonomy : Option RawTaxonomy}
    (reachable : session.Reachable compiled) (found : session.classTaxonomy = .ok (next, taxonomy)) :
    ∃ stage : Stage, Stage.classified.code ≤ stage.code ∧ compiled.Returned stage ∧
      next = .reached compiled stage ∧
        taxonomy = buildClassTaxonomy compiled.toTables (compiled.snapshotAt stage) := by
  unfold SaturationSession.classTaxonomy at found
  obtain ⟨⟨reached, snapshot⟩, classified, same⟩ := bind_eq_ok.mp found
  obtain ⟨stage, late, -, returned, rfl, rfl⟩ := reachable.ensureClassified classified
  cases same
  exact ⟨stage, late, returned, rfl, rfl⟩

end

end PyElk
