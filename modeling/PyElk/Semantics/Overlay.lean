import PyElk.Reasoning.Loading
import PyElk.Semantics.Interpretation

open Ordered

namespace PyElk

theorem entityIri_recordAt {entities : List EntityRecord} {entity : EntityId} :
    entityIri entities entity = (recordAt entities entity).iri := by
  unfold entityIri recordAt
  rw [List.getD_eq_getElem?_getD]
  cases entities[entity]? <;> rfl

theorem entityIri_idxOf {entities : List EntityRecord} {record : EntityRecord} (member : record ∈ entities) :
    entityIri entities (entities.idxOf record) = record.iri := by
  unfold entityIri
  rw [List.getElem?_idxOf member]
  rfl

theorem positionOf_eq_some {α : Type} [DecidableEq α] {values : List α} {value : α} {position : Nat}
    (found : positionOf values value = some position) : values[position]? = some value := by
  unfold positionOf at found
  split at found
  · rename_i member
    obtain rfl := Option.some.inj found
    exact List.getElem?_idxOf member
  · cases found

/-- Renaming a record keeps its extension when its arguments keep theirs. -/
theorem Interpretation.denote_rename {Δ : Type u} {I : Interpretation Δ} {entities others : List EntityRecord}
    {entity operand : Nat → Nat} {extension renamed : Nat → Set Δ} {record : ExpressionRecord}
    (iris : ∀ x ∈ record.entityArguments, entityIri others (entity x) = entityIri entities x)
    (operands : ∀ x ∈ expressionDependencies record, renamed (operand x) = extension x) :
    I.denote others renamed (record.rename entity operand) = I.denote entities extension record := by
  obtain ⟨tag, arguments, payload⟩ := record
  cases tag <;> simp only [ExpressionRecord.entityArguments, expressionDependencies, List.mem_dedup] at iris operands
  case objectSomeValuesFrom =>
    rcases arguments with _ | ⟨relation, _ | ⟨filler, _ | _⟩⟩
    · rfl
    · rfl
    · simp only [ExpressionRecord.rename, denote, iris relation (.head _), operands filler (.head _)]
    · rfl
  case objectIntersectionOf =>
    rcases arguments with _ | ⟨first, _ | ⟨second, _ | _⟩⟩
    · rfl
    · rfl
    · simp only [ExpressionRecord.rename, denote, List.map_cons, List.map_nil, operands first (.head _),
        operands second (.tail _ (.head _))]
    · rfl
  case objectComplementOf =>
    rcases arguments with _ | ⟨negated, _ | _⟩
    · rfl
    · simp only [ExpressionRecord.rename, denote, List.map_cons, List.map_nil, operands negated (.head _)]
    · rfl
  case objectUnionOf =>
    ext x
    simp only [ExpressionRecord.rename, denote, Set.mem_ofPred_eq, List.mem_map, exists_exists_and_eq_and]
    refine exists_congr fun argument => and_congr_right fun member => ?_
    rw [operands argument member]
  all_goals
    rcases arguments with _ | ⟨single, _ | _⟩
    · rfl
    · simp only [ExpressionRecord.rename, denote, List.map_cons, List.map_nil, iris single (.head _)]
    · rfl

theorem mapM_eq_map {α β : Type} {f : α → Option β} {g : α → β} {values : List α} {images : List β}
    (same : ∀ {x y}, f x = some y → g x = y) (mapped : values.mapM f = some images) : values.map g = images := by
  induction values generalizing images with
  | nil =>
    cases mapped
    rfl
  | cons x rest ih =>
    rw [List.mapM_cons] at mapped
    obtain ⟨y, first, after⟩ := Option.bind_eq_some_iff.mp mapped
    obtain ⟨others, tail, last⟩ := Option.bind_eq_some_iff.mp after
    cases last
    rw [List.map_cons, same first, ih tail]

theorem mem_of_mapM {α β : Type} {f : α → Option β} {values : List α} {images : List β}
    (mapped : values.mapM f = some images) : ∀ x ∈ values, ∃ y, f x = some y := by
  induction values generalizing images with
  | nil => exact fun x member => absurd member List.not_mem_nil
  | cons first rest ih =>
    rw [List.mapM_cons] at mapped
    obtain ⟨y, found, after⟩ := Option.bind_eq_some_iff.mp mapped
    obtain ⟨others, tail, _⟩ := Option.bind_eq_some_iff.mp after
    intro x member
    rcases List.mem_cons.mp member with rfl | later
    · exact ⟨y, found⟩
    · exact ih tail x later

theorem positionOf_mem {α : Type} [DecidableEq α] {values : List α} {value : α} {position : Nat}
    (found : positionOf values value = some position) : value ∈ values ∧ values.idxOf value = position := by
  unfold positionOf at found
  split at found
  · exact ⟨‹_›, Option.some.inj found⟩
  · cases found

/-- Remapping a record renames it over the entities of the overlay. -/
theorem ExpressionRecord.remapArguments_spec {entities : List EntityRecord} {overlay : Tables}
    {mapped : List ExpressionId} {record : ExpressionRecord} {arguments : List Nat}
    (remapped : record.remapArguments entities overlay mapped = some arguments) :
    (⟨record.tag, arguments, record.payload⟩ : ExpressionRecord) =
      record.rename (fun entity => overlay.entities.idxOf (recordAt entities entity)) (fun x => mapped.getD x 0) ∧
    ∀ x ∈ record.entityArguments, recordAt entities x ∈ overlay.entities := by
  have operand : ∀ {x y : Nat}, mapped[x]? = some y → mapped.getD x 0 = y := by
    intro x y found
    rw [List.getD_eq_getElem?_getD, found, Option.getD_some]
  have named : ∀ {x y : Nat}, positionOf overlay.entities (recordAt entities x) = some y →
      overlay.entities.idxOf (recordAt entities x) = y := fun found => (positionOf_mem found).2
  obtain ⟨tag, given, payload⟩ := record
  cases tag
  case objectSomeValuesFrom =>
    have rest : ∀ {values : List Nat}, (∀ relation filler, values ≠ [relation, filler]) →
        values.mapM (fun entity => positionOf overlay.entities (recordAt entities entity)) = some arguments →
        (⟨.objectSomeValuesFrom, arguments, payload⟩ : ExpressionRecord) = rename
          (fun entity => overlay.entities.idxOf (recordAt entities entity)) (fun x => mapped.getD x 0)
          ⟨.objectSomeValuesFrom, values, payload⟩ ∧
        ∀ x ∈ values.take 1, recordAt entities x ∈ overlay.entities := by
      intro values odd images
      refine ⟨?_, fun x member => ?_⟩
      · rw [← mapM_eq_map named images]
        unfold rename
        split <;> simp_all
      · obtain ⟨y, found⟩ := mem_of_mapM images x (List.mem_of_mem_take member)
        exact (positionOf_mem found).1
    match given with
    | [] => exact rest (by simp) remapped
    | [_] => exact rest (by simp) remapped
    | [relation, filler] =>
      obtain ⟨relation', found, after⟩ := Option.bind_eq_some_iff.mp remapped
      obtain ⟨filler', entry, rfl⟩ := Option.map_eq_some_iff.mp after
      refine ⟨?_, ?_⟩
      · simp only [rename, named found, operand entry]
      · intro x member
        rw [List.mem_singleton.mp member]
        exact (positionOf_mem found).1
    | _ :: _ :: _ :: _ => exact rest (by simp) remapped
  case objectIntersectionOf =>
    refine ⟨?_, fun x member => absurd member List.not_mem_nil⟩
    simp only [rename, mapM_eq_map operand remapped]
  case objectComplementOf =>
    refine ⟨?_, fun x member => absurd member List.not_mem_nil⟩
    simp only [rename, mapM_eq_map operand remapped]
  case objectUnionOf =>
    refine ⟨?_, fun x member => absurd member List.not_mem_nil⟩
    simp only [rename, mapM_eq_map operand remapped]
  all_goals
    refine ⟨?_, fun x member => ?_⟩
    · simp only [rename, mapM_eq_map named remapped]
    · obtain ⟨y, found⟩ := mem_of_mapM remapped x member
      exact (positionOf_mem found).1

theorem remapExpressions_spec {entities : List EntityRecord} {overlay : Tables} {records : List ExpressionRecord}
    {mapped result : List ExpressionId} (remapped : remapExpressions entities overlay records mapped = some result) :
    mapped <+: result ∧ ∀ {position : Nat} {record}, records[position]? = some record →
      ∃ expression, result[mapped.length + position]? = some expression ∧
        overlay.expressions[expression]? = some (record.rename
          (fun entity => overlay.entities.idxOf (recordAt entities entity))
          (fun x => (result.take (mapped.length + position)).getD x 0)) ∧
        ∀ x ∈ record.entityArguments, recordAt entities x ∈ overlay.entities := by
  induction records generalizing mapped with
  | nil =>
    cases remapped
    exact ⟨List.prefix_rfl, fun entry => absurd entry (by simp)⟩
  | cons record rest ih =>
    obtain ⟨arguments, renamed, after⟩ := Option.bind_eq_some_iff.mp remapped
    obtain ⟨expression, found, remaining⟩ := Option.bind_eq_some_iff.mp after
    obtain ⟨before, entries⟩ := ih remaining
    obtain ⟨same, within⟩ := ExpressionRecord.remapArguments_spec renamed
    refine ⟨(List.prefix_append _ _).trans before, ?_⟩
    intro position other entry
    cases position with
    | zero =>
      cases entry
      obtain ⟨tail, rfl⟩ := before
      refine ⟨expression, ?_, ?_, within⟩
      · rw [Nat.add_zero, List.append_assoc, List.getElem?_append_right le_rfl]
        simp
      · rw [Nat.add_zero, List.append_assoc, List.take_left, ← same]
        exact positionOf_eq_some found
    | succ position =>
      have shift : mapped.length + (position + 1) = (mapped ++ [expression]).length + position := by
        rw [List.length_append, List.length_singleton, Nat.add_assoc, Nat.add_comm 1]
      rw [shift]
      exact entries entry

theorem getD_take {values : List Nat} {index bound : Nat} (below : index < bound) :
    (values.take bound).getD index 0 = values.getD index 0 := by
  rw [List.getD_eq_getElem?_getD, List.getD_eq_getElem?_getD, List.getElem?_take_of_lt below]

section

variable {Δ : Type u} {I : Interpretation Δ} {overlay : Tables} (valid : overlay.Valid)
  {entities : List EntityRecord} {expressions : List ExpressionRecord}
  (checked : validateExpressions expressions entities)

include valid checked

/-- A table that is renamed into an overlay, record by record, keeps its extensions. -/
theorem Interpretation.ext_renamed (ids : Nat → ExpressionId)
    (renamed : ∀ {position : Nat} {record : ExpressionRecord}, expressions[position]? = some record →
      ∃ operand : Nat → Nat, (∀ x < position, operand x = ids x) ∧
        overlay.expressions[ids position]? = some (record.rename
          (fun entity => overlay.entities.idxOf (recordAt entities entity)) operand) ∧
        ∀ x ∈ record.entityArguments, recordAt entities x ∈ overlay.entities)
    (position : Nat) (bound : position < expressions.length) :
    I.ext overlay (ids position) = I.extension entities expressions position := by
  induction position using Nat.strong_induction_on with
  | _ position ih =>
    have entry := List.getElem?_eq_getElem bound
    obtain ⟨operand, agree, found, within⟩ := renamed entry
    rw [ext_entry valid found, extension_entry checked entry]
    have before := validateExpression_operands (validateExpressions_entry checked entry)
    refine denote_rename (fun x member => ?_) (fun x member => ?_)
    · rw [entityIri_idxOf (within x member), entityIri_recordAt]
    · rw [agree x (before x member), ih x (before x member) ((before x member).trans bound)]

/-- The query keeps its meaning in the overlay. -/
theorem Interpretation.ext_remapped {ids : List ExpressionId}
    (remapped : remapExpressions entities overlay expressions [] = some ids) {position : Nat}
    (bound : position < expressions.length) :
    I.ext overlay (ids.getD position 0) = I.extension entities expressions position := by
  refine ext_renamed valid checked (ids.getD · 0) (fun {position record} entry => ?_) position bound
  obtain ⟨expression, found, renamed, within⟩ := (remapExpressions_spec remapped).2 entry
  rw [List.length_nil, Nat.zero_add] at found renamed
  refine ⟨_, fun x below => getD_take below, ?_, within⟩
  rw [List.getD_eq_getElem?_getD, found, Option.getD_some]
  exact renamed

end

/-- The handles of a loaded ontology become expression ids of the frozen tables. -/
def MutableIndex.finalId (index : MutableIndex) (handles : List Nat) (expression : ExpressionId) : ExpressionId :=
  (index.finalOrder (sortedEntities index.entities)).idxOf (handles.getD expression 0)

section

variable {Δ : Type u} {I : Interpretation Δ} {compiled overlay : Tables} (valid : compiled.Valid)
  (valid' : overlay.Valid) {index : MutableIndex} {handles : List Nat} (holds : index.Holds compiled handles)
  (complete : (index.finalOrder (sortedEntities index.entities)).length = index.expressions.length)
  (frozen : overlay = index.tables (sortedEntities index.entities) compiled.sourceFingerprint)

include holds frozen

/-- The entities of the ontology are entities of the overlay. -/
theorem MutableIndex.Holds.entity {entity : EntityId} (bound : entity < compiled.entities.length) :
    recordAt compiled.entities entity ∈ overlay.entities := by
  have member : recordAt compiled.entities entity ∈ compiled.entities := by
    rw [recordAt, List.getD_eq_getElem?_getD, List.getElem?_eq_getElem bound]
    exact List.getElem_mem bound
  rw [frozen]
  exact mem_sortedSet.mpr (holds.entities member)

theorem MutableIndex.Holds.iri {entity : EntityId} (bound : entity < compiled.entities.length) :
    entityIri overlay.entities (overlay.entities.idxOf (recordAt compiled.entities entity)) =
      entityIri compiled.entities entity := by
  rw [entityIri_idxOf (holds.entity frozen bound), entityIri_recordAt]

/-- A property sequence of the ontology relates the same elements in the overlay. -/
theorem MutableIndex.Holds.path {chain : List EntityId}
    (bound : ∀ property ∈ chain, property < compiled.entities.length)
    {x y : Δ} :
    I.path overlay.entities ((chain.map (recordAt compiled.entities)).map overlay.entities.idxOf) x y ↔
      I.path compiled.entities chain x y := by
  induction chain generalizing x with
  | nil => rfl
  | cons property rest ih =>
    refine exists_congr fun z => and_congr ?_ (ih fun other member => bound other (.tail _ member))
    rw [holds.iri frozen (bound property (.head _))]

include valid valid' complete

/-- The ontology keeps its meaning in the overlay. -/
theorem MutableIndex.Holds.ext {expression : ExpressionId} (bound : expression < compiled.expressions.length) :
    I.ext overlay (index.finalId handles expression) = I.ext compiled expression := by
  refine Interpretation.ext_renamed valid' valid.expressions (index.finalId handles)
    (fun {position record} entry => ?_) expression bound
  obtain ⟨handle, found, key, within⟩ := holds.entries entry
  refine ⟨_, fun x below => congrArg (index.finalOrder (sortedEntities index.entities)).idxOf
    (getD_take below), ?_, ?_⟩
  · rw [finalId, List.getD_eq_getElem?_getD, found, Option.getD_some, frozen, MutableIndex.tables_entry complete key,
      ExpressionRecord.loadKey_record]
    rfl
  · intro x member
    rw [frozen]
    exact mem_sortedSet.mpr (within (record.loadKey_entities x member))

/-- Every interpretation of the ontology's rows satisfies the rows of the overlay. -/
theorem MutableIndex.Holds.satisfies (satisfies : I.Satisfies compiled) : I.Satisfies overlay := by
  have ext : ∀ {expression}, expression < compiled.expressions.length →
      I.ext overlay (index.finalId handles expression) = I.ext compiled expression :=
    fun bound => holds.ext valid valid' complete frozen bound
  obtain ⟨_, _, _, _, same⟩ := holds.rows
  have subclass : index.subclassAxioms = _ := congrArg MutableIndex.subclassAxioms same
  have equivalent : index.equivalentClassAxioms = _ := congrArg MutableIndex.equivalentClassAxioms same
  have disjoint : index.disjointGroups = _ := congrArg MutableIndex.disjointGroups same
  have chains : index.propertyChains = _ := congrArg MutableIndex.propertyChains same
  have subproperty : index.subpropertyAxioms = _ := congrArg MutableIndex.subpropertyAxioms same
  have ranges : index.propertyRanges = _ := congrArg MutableIndex.propertyRanges same
  refine ⟨?_, ?_, ?_, ?_, ?_⟩
  · intro sub super row
    rw [frozen, MutableIndex.tables, mem_sortedSet, subclass] at row
    obtain ⟨_, added, equal⟩ := List.mem_map.mp row
    obtain ⟨⟨first, second⟩, listed, rfl⟩ := List.mem_map.mp added
    cases equal
    obtain ⟨left, right⟩ := valid.subclass_lt listed
    exact (ext left).subset.trans ((satisfies.subclass listed).trans (ext right).symm.subset)
  · intro sub super row
    rw [frozen, MutableIndex.tables, mem_sortedSet, equivalent] at row
    obtain ⟨_, added, equal⟩ := List.mem_map.mp row
    obtain ⟨⟨first, second⟩, listed, rfl⟩ := List.mem_map.mp added
    cases equal
    obtain ⟨left, right⟩ := valid.equivalent_lt listed
    exact (ext left).trans ((satisfies.equivalent listed).trans (ext right).symm)
  · intro group member
    rw [frozen, MutableIndex.tables, mem_sortedSet, disjoint] at member
    obtain ⟨_, added, rfl⟩ := List.mem_map.mp member
    obtain ⟨rows, listed, rfl⟩ := List.mem_map.mp added
    rw [List.map_map, List.pairwise_map]
    refine (satisfies.disjoint listed).imp_of_mem ?_
    intro first second left right apart
    have bound := (valid.disjoint_lt listed).2
    rw [← ext (bound first left), ← ext (bound second right)] at apart
    exact apart
  · intro position super chain row entry x y path
    rw [frozen, MutableIndex.tables, mem_sortedSet, subproperty] at row
    obtain ⟨_, added, equal⟩ := List.mem_map.mp row
    obtain ⟨⟨source, property⟩, listed, rfl⟩ := List.mem_map.mp added
    cases equal
    obtain ⟨bound, object⟩ := valid.subproperty_lt listed
    have spelled := List.getElem?_eq_getElem bound
    have properties := (valid.chain_properties (List.getElem_mem bound)).2
    rw [List.getD_eq_getElem?_getD, spelled, Option.getD_some] at entry
    have known : (compiled.propertyChains[source].map (recordAt compiled.entities)).map overlay.entities.idxOf ∈
        overlay.propertyChains := by
      rw [frozen]
      refine mem_sortedSet.mpr (List.mem_map_of_mem (List.mem_append_left _ ?_))
      rw [chains]
      exact List.mem_append_left _ (List.mem_append_right _ (List.mem_map_of_mem (List.getElem_mem bound)))
    have found := List.getElem?_idxOf known
    rw [frozen] at found
    obtain rfl := Option.some.inj (found.symm.trans (frozen ▸ entry))
    have below := satisfies.subproperty listed spelled x y ((holds.path frozen fun p member =>
      (properties p member).lt).mp (frozen ▸ path))
    unfold Interpretation.rel at below ⊢
    rw [← holds.iri frozen object.lt] at below
    exact frozen ▸ below
  · intro property range row x y step
    rw [frozen, MutableIndex.tables, mem_sortedSet, ranges] at row
    obtain ⟨_, added, equal⟩ := List.mem_map.mp row
    obtain ⟨⟨source, filler⟩, listed, rfl⟩ := List.mem_map.mp added
    cases equal
    obtain ⟨object, bound⟩ := valid.range_lt listed
    unfold Interpretation.rel at step
    refine (ext bound).symm.subset (satisfies.range listed x y ?_)
    unfold Interpretation.rel
    rw [← holds.iri frozen object.lt]
    exact frozen ▸ step

end

end PyElk
