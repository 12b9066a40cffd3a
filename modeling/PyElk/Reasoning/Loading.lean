import PyElk.Indexing.FreezeOrder
import PyElk.Indexing.Interning
import PyElk.Reasoning.Overlay

open Ordered

namespace PyElk

/-- A record with its entities and operands renamed. -/
def ExpressionRecord.rename (entity operand : Nat → Nat) (record : ExpressionRecord) : ExpressionRecord :=
  match record.tag, record.arguments with
  | .objectSomeValuesFrom, [relation, filler] => ⟨record.tag, [entity relation, operand filler], record.payload⟩
  | .objectIntersectionOf, arguments | .objectComplementOf, arguments | .objectUnionOf, arguments =>
    ⟨record.tag, arguments.map operand, record.payload⟩
  | _, arguments => ⟨record.tag, arguments.map entity, record.payload⟩

/-- The entity arguments of a record. -/
def ExpressionRecord.entityArguments (record : ExpressionRecord) : List Nat :=
  match record.tag with
  | .objectSomeValuesFrom => record.arguments.take 1
  | .objectIntersectionOf | .objectComplementOf | .objectUnionOf => []
  | _ => record.arguments

section

variable {index grown : MutableIndex}

theorem MutableIndex.addPropertyOccurrences_spec {rows : List (EntityRecord × Occurrence)}
    (added : index.addPropertyOccurrences rows = some grown) : index.Grows grown := by
  induction rows generalizing index with
  | nil =>
    cases added
    exact .refl
  | cons row rest ih =>
    obtain ⟨next, step, remaining⟩ := Option.bind_eq_some_iff.mp added
    obtain ⟨total, _, rfl⟩ := Option.map_eq_some_iff.mp step
    refine Grows.trans ?_ (ih remaining)
    exact ⟨List.prefix_rfl, List.Subset.refl _, _, rfl⟩

/-- The records of a loaded table sit under their handles. -/
theorem MutableIndex.loadExpressions_spec {entities : List EntityRecord} {rows : List (ExpressionRecord × Occurrence)}
    {handles loaded : List Nat}
    (done : MutableIndex.loadExpressions entities rows index handles = some (grown, loaded)) :
    index.Grows grown ∧ handles <+: loaded ∧ loaded.length = handles.length + rows.length ∧
      ∀ {position : Nat} {record counts}, rows[position]? = some (record, counts) →
        ∃ handle, loaded[handles.length + position]? = some handle ∧
          grown.expressions[handle]? =
            some (record.loadKey entities (loaded.take (handles.length + position))) ∧
          (record.loadKey entities (loaded.take (handles.length + position))).entities ⊆ grown.entities := by
  induction rows generalizing index handles with
  | nil =>
    cases done
    exact ⟨.refl, List.prefix_rfl, rfl, fun entry => absurd entry (by simp)⟩
  | cons row rest ih =>
    obtain ⟨record, counts⟩ := row
    obtain ⟨⟨interned, handle⟩, intern, after⟩ := Option.bind_eq_some_iff.mp done
    obtain ⟨next, counted, remaining⟩ := Option.bind_eq_some_iff.mp after
    obtain ⟨plain, neutral, same⟩ := Option.map_eq_some_iff.mp intern
    cases same
    obtain ⟨grows, expressions, entities'⟩ := addOccurrence_spec neutral
    obtain ⟨grows', expressions', entities''⟩ := addOccurrence_spec counted
    obtain ⟨later, before, length, entries⟩ := ih remaining
    have here : loaded[handles.length]? = some (index.expressions.idxOf (record.loadKey entities handles)) := by
      obtain ⟨tail, same⟩ := before
      rw [← same, List.append_assoc, List.getElem?_append_right le_rfl]
      simp
    have old : loaded.take handles.length = handles := by
      obtain ⟨tail, same⟩ := before
      rw [← same, List.append_assoc, List.take_left]
    refine ⟨((index.intern_grows _).trans (grows.trans grows')).trans later,
      (List.prefix_append _ _).trans before, ?_, ?_⟩
    · rw [length, List.length_append, List.length_singleton, List.length_cons, Nat.add_assoc, Nat.add_comm 1]
    · intro position found total entry
      cases position with
      | zero =>
        cases entry
        rw [Nat.add_zero, old]
        refine ⟨_, here, later.key ?_, ?_⟩
        · rw [expressions', expressions]
          exact index.intern_key _
        · refine List.Subset.trans ?_ later.entities
          rw [entities'', entities']
          exact index.intern_entities _
      | succ position =>
        have shift : handles.length + (position + 1) = (handles ++ [index.expressions.idxOf
            (record.loadKey entities handles)]).length + position := by
          rw [List.length_append, List.length_singleton, Nat.add_assoc, Nat.add_comm 1]
        rw [shift]
        exact entries entry

end

/-- Loading a record and freezing its key renames it. -/
theorem ExpressionRecord.loadKey_record (record : ExpressionRecord) (entities : List EntityRecord)
    (handles : List Nat) (entityIds : EntityRecord → Nat) (expressionIds : Nat → Nat) :
    (⟨(record.loadKey entities handles).tag,
      (record.loadKey entities handles).rewrittenArguments entityIds expressionIds,
      (record.loadKey entities handles).payload⟩ : ExpressionRecord) =
    record.rename (fun entity => entityIds (recordAt entities entity))
      (fun operand => expressionIds (handles.getD operand 0)) := by
  obtain ⟨tag, arguments, payload⟩ := record
  cases tag
  case objectSomeValuesFrom =>
    match arguments with
    | [] => rfl
    | [_] => rfl
    | [_, _] => rfl
    | _ :: _ :: _ :: _ => simp [loadKey, rename, ExpressionKey.rewrittenArguments]
  all_goals cases arguments <;> simp [loadKey, rename, ExpressionKey.rewrittenArguments]

theorem ExpressionRecord.loadKey_entities (record : ExpressionRecord) {entities : List EntityRecord}
    {handles : List Nat} :
    ∀ x ∈ record.entityArguments, recordAt entities x ∈ (record.loadKey entities handles).entities := by
  obtain ⟨tag, arguments, payload⟩ := record
  intro x member
  cases tag
  case objectSomeValuesFrom =>
    match arguments, member with
    | [_], member => exact List.mem_map_of_mem (List.mem_of_mem_take member)
    | [relation, _], member => exact List.mem_singleton.mpr (congrArg _ (List.mem_singleton.mp member))
    | _ :: _ :: _ :: _, member => exact List.mem_map_of_mem (List.mem_of_mem_take member)
  case objectIntersectionOf => exact absurd member List.not_mem_nil
  case objectComplementOf => exact absurd member List.not_mem_nil
  case objectUnionOf => exact absurd member List.not_mem_nil
  all_goals exact List.mem_map_of_mem member

section

variable {index : MutableIndex} {entities : List EntityRecord}

/-- The record of a handle in the frozen tables. -/
theorem MutableIndex.tables_entry (complete : (index.finalOrder entities).length = index.expressions.length)
    {handle : Nat} {key : ExpressionKey} (entry : index.expressions[handle]? = some key)
    (sourceFingerprint : List UInt8) :
    (index.tables entities sourceFingerprint).expressions[(index.finalOrder entities).idxOf handle]? =
      some ⟨key.tag, key.rewrittenArguments entities.idxOf (index.finalOrder entities).idxOf, key.payload⟩ := by
  have member := mem_finalOrder complete (List.getElem?_eq_some_iff.mp entry).1
  have found : (index.finalOrder entities)[(index.finalOrder entities).idxOf handle]? = some handle :=
    List.getElem?_idxOf member
  simp only [tables, List.getElem?_map, found, Option.map_some, finalRecord, entry]

end

/-- An index that holds the tables of an ontology under `handles`. -/
structure MutableIndex.Holds (compiled : Tables) (index : MutableIndex) (handles : List Nat) : Prop where
  entities : compiled.entities ⊆ index.entities
  entries : ∀ {expression : ExpressionId} {record : ExpressionRecord},
    compiled.expressions[expression]? = some record →
    ∃ handle, handles[expression]? = some handle ∧
      index.expressions[handle]? = some (record.loadKey compiled.entities (handles.take expression)) ∧
      (record.loadKey compiled.entities (handles.take expression)).entities ⊆ index.entities
  rows : ∃ entities expressions occurrences properties, index =
    { MutableIndex.new.addRows compiled handles with
      entities := entities, expressions := expressions, expressionOccurrences := occurrences
      propertyOccurrences := properties }

theorem MutableIndex.Holds.grows {compiled : Tables} {index grown : MutableIndex} {handles : List Nat}
    (holds : index.Holds compiled handles) (grows : index.Grows grown) : grown.Holds compiled handles := by
  refine ⟨List.Subset.trans holds.entities grows.entities, ?_, ?_⟩
  · intro expression record entry
    obtain ⟨handle, found, key, within⟩ := holds.entries entry
    exact ⟨handle, found, grows.key key, List.Subset.trans within grows.entities⟩
  · obtain ⟨_, _, _, _, same⟩ := holds.rows
    obtain ⟨properties, same'⟩ := grows.rows
    exact ⟨_, _, _, _, by rw [same', same]⟩

theorem MutableIndex.loadOntology_holds {compiled : Tables} (valid : compiled.Valid) {index : MutableIndex}
    {handles : List Nat} (loaded : MutableIndex.new.loadOntology compiled = some (index, handles)) :
    index.Holds compiled handles := by
  obtain ⟨⟨plain, found⟩, expressions, rest⟩ := Option.bind_eq_some_iff.mp loaded
  obtain ⟨counted, properties, same⟩ := Option.map_eq_some_iff.mp rest
  cases same
  obtain ⟨grows, _, _, entries⟩ := loadExpressions_spec expressions
  have grows' := addPropertyOccurrences_spec properties
  have lengths : compiled.expressionOccurrences.length = compiled.expressions.length := by
    have checked := valid.occurrences
    unfold validateOccurrences at checked
    rw [Bool.and_eq_true, Bool.and_eq_true] at checked
    exact of_decide_eq_true checked.1.1
  refine ⟨?_, ?_, ?_⟩
  · exact List.Subset.trans (List.subset_append_right _ _) (grows.trans grows').entities
  · intro expression record entry
    have bound := (List.getElem?_eq_some_iff.mp entry).1
    have counts := List.getElem?_eq_getElem (lengths ▸ bound)
    obtain ⟨handle, at_handle, key, within⟩ := entries (List.getElem?_zip_eq_some.mpr ⟨entry, counts⟩)
    rw [List.length_nil, Nat.zero_add] at at_handle key within
    exact ⟨handle, at_handle, grows'.key key, List.Subset.trans within grows'.entities⟩
  · obtain ⟨_, same⟩ := (grows.trans grows').rows
    exact ⟨_, _, _, _, by rw [same]; rfl⟩

theorem MutableIndex.loadQuery_grows {query : QueryTables} {index grown : MutableIndex} {handles : List Nat}
    (loaded : index.loadQuery query = some (grown, handles)) : index.Grows grown := by
  obtain ⟨⟨plain, found⟩, expressions, rest⟩ := Option.bind_eq_some_iff.mp loaded
  obtain ⟨counted, properties, same⟩ := Option.map_eq_some_iff.mp rest
  cases same
  have start : index.Grows { index with entities := index.entities ++ query.entityRecords } :=
    ⟨List.prefix_rfl, List.subset_append_left _ _, _, rfl⟩
  exact start.trans ((loadExpressions_spec expressions).1.trans (addPropertyOccurrences_spec properties))

/-- A frozen overlay is frozen from an index that holds the ontology. -/
theorem installQuery_spec {compiled : Tables} (valid : compiled.Valid) {query : QueryTables} {overlay : Overlay}
    (installed : installQuery compiled query = some overlay) :
    ∃ (index : MutableIndex) (handles : List Nat), index.Holds compiled handles ∧
      (index.finalOrder (sortedEntities index.entities)).length = index.expressions.length ∧
      overlay.ontology.toTables = index.tables (sortedEntities index.entities) compiled.sourceFingerprint ∧
      remapExpressions query.entityRecords overlay.ontology.toTables query.expressions [] =
        some overlay.queryIds := by
  unfold installQuery at installed
  split at installed
  · obtain ⟨⟨index, handles⟩, loaded, rest⟩ := Option.bind_eq_some_iff.mp installed
    obtain ⟨⟨grown, others⟩, extended, rest⟩ := Option.bind_eq_some_iff.mp rest
    obtain ⟨ontology, frozen, rest⟩ := Option.bind_eq_some_iff.mp rest
    obtain ⟨ontologyIds, _, rest⟩ := Option.bind_eq_some_iff.mp rest
    obtain ⟨queryIds, remapped, rest⟩ := Option.bind_eq_some_iff.mp rest
    split at rest
    · cases rest
      have holds := (MutableIndex.loadOntology_holds valid loaded).grows
        ((MutableIndex.loadQuery_grows extended).trans (MutableIndex.ensureNamedExpressions_grows grown))
      unfold MutableIndex.freeze Tables.check at frozen
      dsimp only at frozen
      split at frozen
      · rename_i complete
        split at frozen
        · cases frozen
          exact ⟨_, handles, holds, complete, rfl, remapped⟩
        · cases frozen
      · cases frozen
    · cases rest
  · cases installed

end PyElk
