import PyElk.Indexing.Canonical
import PyElk.Indexing.ExpressionOrder

open Ordered

namespace PyElk

/-- The ID of a known entity passes the check for the entity's kind. -/
theorem validateEntityIndex_idxOf {entities : List EntityRecord} {entity : EntityRecord} (known : entity ∈ entities) :
    validateEntityIndex entities (entities.idxOf entity) entity.kind := by
  rw [validateEntityIndex, List.getElem?_idxOf known]
  exact beq_self_eq_true _

namespace ExpressionTree

variable {table : List EntityRecord} {done : List ExpressionTree}

/-- The dependencies of a record are the ids of the operands. -/
theorem mem_dependencies {expression : ExpressionTree} (shaped : expression.Shaped) {operand : Nat} :
    operand ∈ expressionDependencies (expression.record table done) ↔
      ∃ child ∈ expression.operands, done.idxOf child = operand := by
  obtain ⟨tag, entities, operands, payload⟩ := expression
  rcases shaped.form with ⟨leaf, entity, rfl, rfl⟩ | ⟨inner, plain, rfl⟩ | ⟨rfl, property, filler, rfl, rfl⟩
  · have nothing : ¬∃ child ∈ (node tag [entity] [] payload).operands, done.idxOf child = operand :=
      fun ⟨child, member, _⟩ => absurd member List.not_mem_nil
    cases tag <;> first | exact iff_of_false List.not_mem_nil nothing | cases leaf
  · cases tag <;> first | exact absurd rfl plain | exact List.mem_dedup.trans List.mem_map | cases inner
  · exact List.mem_map (f := done.idxOf) (l := [filler])

/-- A shaped expression depends on every operand once. -/
theorem dependencies_nodup {expression : ExpressionTree} (shaped : expression.Shaped) :
    (expressionDependencies (expression.record table done)).Nodup := by
  obtain ⟨tag, entities, operands, payload⟩ := expression
  rcases shaped.form with ⟨leaf, entity, rfl, rfl⟩ | ⟨inner, plain, rfl⟩ | ⟨rfl, property, filler, rfl, rfl⟩
  · cases tag <;> first | exact List.nodup_nil | cases leaf
  · cases tag <;> first | exact absurd rfl plain | exact List.nodup_dedup _ | cases inner
  · exact List.nodup_singleton _

/-- A record of an expression passes the check of its tag once its operands come before it. -/
theorem validateExpression_record {expression : ExpressionTree} (shaped : expression.Shaped)
    (known : expression.entities ⊆ table) {position : Nat}
    (before : ∀ child ∈ expression.operands, done.idxOf child < position) :
    validateExpression table position (expression.record table done) := by
  obtain ⟨tag, entities, operands, payload⟩ := expression
  rcases shaped.form with ⟨leaf, entity, rfl, rfl⟩ | ⟨inner, plain, rfl⟩ | ⟨rfl, property, filler, rfl, rfl⟩
  · have entry := validateEntityIndex_idxOf (known List.mem_cons_self)
    cases tag
    case owlClass | individual | objectHasSelf =>
      cases payload with
      | nil => exact (Bool.and_eq_true _ _).mpr ⟨shaped ▸ entry, rfl⟩
      | cons byte rest => cases shaped
    case dataHasValue =>
      cases payload with
      | nil => exact absurd rfl shaped.2
      | cons byte rest => exact (Bool.and_eq_true _ _).mpr ⟨shaped.1 ▸ entry, rfl⟩
    all_goals cases leaf
  · cases tag
    case objectIntersectionOf =>
      rcases operands with _ | ⟨first, _ | ⟨second, _ | _⟩⟩ <;> rcases payload with _ | _ <;> first
        | exact (Bool.and_eq_true _ _).mpr
            ⟨(Bool.and_eq_true _ _).mpr ⟨decide_eq_true (before first List.mem_cons_self),
              decide_eq_true (before second (List.mem_cons_of_mem _ List.mem_cons_self))⟩, rfl⟩
        | exact absurd shaped id
    case objectComplementOf =>
      rcases operands with _ | ⟨negated, _ | _⟩ <;> rcases payload with _ | _ <;> first
        | exact (Bool.and_eq_true _ _).mpr ⟨decide_eq_true (before negated List.mem_cons_self), rfl⟩
        | exact absurd shaped id
    case objectUnionOf =>
      cases payload with
      | nil =>
        have many : 2 ≤ (operands.map done.idxOf).length := by
          rw [List.length_map]
          exact (show 2 ≤ (operands.map fun _ => 0).length from shaped).trans_eq (List.length_map _)
        have below : ((operands.map done.idxOf).all fun argument => argument < position) = true :=
          List.all_eq_true.mpr fun argument member => by
            obtain ⟨child, listed, rfl⟩ := List.mem_map.mp member
            exact decide_eq_true (before child listed)
        exact (Bool.and_eq_true _ _).mpr ⟨(Bool.and_eq_true _ _).mpr ⟨decide_eq_true many, below⟩, rfl⟩
      | cons byte rest => cases shaped
    case objectSomeValuesFrom => exact absurd rfl plain
    all_goals cases inner
  · cases payload with
    | nil =>
      have entry := validateEntityIndex_idxOf (known List.mem_cons_self)
      exact (Bool.and_eq_true _ _).mpr ⟨(Bool.and_eq_true _ _).mpr ⟨shaped ▸ entry,
        decide_eq_true (before filler List.mem_cons_self)⟩, rfl⟩
    | cons byte rest => cases shaped

theorem record_congr {other : List ExpressionTree} {expression : ExpressionTree}
    (same : ∀ child ∈ expression.operands, done.idxOf child = other.idxOf child) :
    expression.record table done = expression.record table other := by
  obtain ⟨tag, entities, operands, payload⟩ := expression
  have ids : operands.map done.idxOf = operands.map other.idxOf := List.map_congr_left same
  rw [record, record]
  congr 1
  rcases entities with _ | ⟨property, entities⟩
  · cases tag <;> exact ids
  · rcases operands with _ | ⟨filler, operands⟩
    · cases tag <;> rfl
    · cases tag
      case objectSomeValuesFrom =>
        exact congrArg (fun operand => [table.idxOf property, operand]) (List.cons.inj ids).1
      all_goals rfl

end ExpressionTree

theorem idxOf_take {α : Type} [DecidableEq α] {values : List α} {count : Nat} {x : α}
    (member : x ∈ values.take count) :
    (values.take count).idxOf x = values.idxOf x := by
  conv_rhs => rw [← List.take_append_drop count values]
  exact (List.idxOf_append_of_mem member).symm

theorem mem_take_iff_idxOf {α : Type} [DecidableEq α] {values : List α} {count : Nat} {x : α} (known : x ∈ values) :
    x ∈ values.take count ↔ values.idxOf x < count := by
  constructor
  · intro member
    rw [← idxOf_take member]
    exact (List.idxOf_lt_length_of_mem member).trans_le (List.length_take_le _ _)
  · intro early
    have entry := List.getElem?_idxOf known
    rw [← List.getElem?_take_of_lt early] at entry
    exact List.mem_of_getElem? entry

section

variable {trees : Set ExpressionTree} {table : List EntityRecord} {order : List ExpressionTree}

section

variable (canonical : CanonicalOrder trees table order)

include canonical

/-- A canonical order lists only the trees it orders. -/
theorem CanonicalOrder.member {expression : ExpressionTree} (listed : expression ∈ order) : expression ∈ trees := by
  obtain ⟨position, entry⟩ := List.mem_iff_getElem?.mp listed
  exact (canonical.follows position expression entry).member

/-- A canonical order lists every tree once. -/
theorem CanonicalOrder.nodup : order.Nodup := by
  refine List.pairwise_iff_getElem.mpr fun first second firstBound secondBound less same => ?_
  have fresh := (canonical.follows second _ (List.getElem?_eq_getElem secondBound)).fresh
  rw [← same] at fresh
  refine fresh (List.mem_of_getElem? (i := first) ?_)
  rw [List.getElem?_take_of_lt less, List.getElem?_eq_getElem firstBound]

/-- Operands get their ids before the expressions that use them. -/
theorem CanonicalOrder.idxOf_operand {position : Nat} {next child : ExpressionTree}
    (entry : order[position]? = some next)
    (member : child ∈ next.operands) : order.idxOf child < position := by
  have ready := (canonical.follows position next entry).ready member
  exact (mem_take_iff_idxOf (List.mem_of_mem_take ready)).mp ready

/-- With an expression a canonical order lists its operands. -/
theorem CanonicalOrder.operands_mem {expression : ExpressionTree} (listed : expression ∈ order) :
    expression.operands ⊆ order := by
  obtain ⟨position, entry⟩ := List.mem_iff_getElem?.mp listed
  exact fun child member => List.mem_of_mem_take ((canonical.follows position expression entry).ready member)

end

/-- The records of a canonical order pass the expression checks while ids last. -/
theorem CanonicalOrder.validateExpressions
    (shaped : ∀ expression ∈ trees, expression.Shaped ∧ expression.entities ⊆ table)
    (canonical : CanonicalOrder trees table order) :
    PyElk.validateExpressions (order.map (ExpressionTree.record table order)) table ↔
      order.length ≤ U32_RESERVED := by
  have entries : ∀ {position : Nat} {record : ExpressionRecord},
      (order.map (ExpressionTree.record table order))[position]? = some record →
      ∃ next, order[position]? = some next ∧ next.record table order = record ∧ next.Shaped ∧
        next.entities ⊆ table := by
    intro position record entry
    rw [List.getElem?_map] at entry
    obtain ⟨next, found, same⟩ := Option.map_eq_some_iff.mp entry
    exact ⟨next, found, same, shaped next (canonical.member (List.mem_of_getElem? found))⟩
  have single : ((order.map (ExpressionTree.record table order)).zipIdx.all fun row =>
      validateExpression table row.2 row.1) = true := by
    refine List.all_eq_true.mpr fun row member => ?_
    obtain ⟨next, found, same, good, known⟩ := entries (List.mem_zipIdx_iff_getElem?.mp member)
    rw [← same]
    exact ExpressionTree.validateExpression_record good known fun child listed => canonical.idxOf_operand found listed
  have distinct : ∀ record ∈ order.map (ExpressionTree.record table order),
    (expressionDependencies record).Nodup := by
    intro record member
    obtain ⟨next, listed, rfl⟩ := List.mem_map.mp member
    exact ExpressionTree.dependencies_nodup (shaped next (canonical.member listed)).1
  have first : OperandsFirst (order.map (ExpressionTree.record table order)) := by
    intro position record entry operand member
    obtain ⟨next, found, rfl, good, -⟩ := entries entry
    obtain ⟨child, listed, rfl⟩ := (ExpressionTree.mem_dependencies good).mp member
    exact canonical.idxOf_operand found listed
  have records : (order.map (ExpressionTree.record table order)).Nodup := by
    refine canonical.nodup.map_on fun left listed right listed' same => ?_
    obtain ⟨good, known⟩ := shaped left (canonical.member listed)
    exact ExpressionTree.record_injective good (shaped right (canonical.member listed')).1 known
      (canonical.operands_mem listed) same
  have least : LeastFirst (order.map (ExpressionTree.record table order)) := by
    intro position record entry later other entry' high free
    obtain ⟨next, found, rfl, -⟩ := entries entry
    obtain ⟨follower, found', rfl, good, -⟩ := entries entry'
    have follows := canonical.follows position next found
    have place : order.idxOf follower = later := by
      obtain ⟨bound, rfl⟩ := List.getElem?_eq_some_iff.mp found'
      exact canonical.nodup.idxOf_getElem later bound
    have ready : follower.operands ⊆ order.take position := by
      intro child member
      have known := canonical.operands_mem (List.mem_of_getElem? found') member
      exact (mem_take_iff_idxOf known).mpr (free _ ((ExpressionTree.mem_dependencies good).mpr ⟨child, member, rfl⟩))
    have fresh : follower ∉ order.take position := by
      rw [mem_take_iff_idxOf (List.mem_of_getElem? found'), place]
      exact not_lt_of_ge high
    have le := follows.least follower (canonical.member (List.mem_of_getElem? found')) fresh ready
    rwa [ExpressionTree.record_congr fun child member => idxOf_take (follows.ready member),
      ExpressionTree.record_congr fun child member => idxOf_take (ready member)] at le
  unfold PyElk.validateExpressions
  rw [Bool.and_eq_true, Bool.and_eq_true, decide_eq_true_eq, List.length_map]
  exact ⟨fun valid => valid.1.1, fun small =>
    ⟨⟨small, single⟩, (validateExpressionOrder_iff distinct first).mpr ⟨records, least⟩⟩⟩

/-- The classes and the individuals of the table are its named entities. -/
theorem mem_namedEntities {tag : ExpressionTag} {entity : Nat} : (tag, entity) ∈ namedEntities table ↔
    ∃ record, table[entity]? = some record ∧
      (record.kind = .owlClass ∧ tag = .owlClass ∨ record.kind = .namedIndividual ∧ tag = .individual) := by
  unfold namedEntities
  rw [List.mem_filterMap]
  constructor
  · rintro ⟨row, member, found⟩
    refine ⟨row.1, ?_⟩
    have entry := List.mem_zipIdx_iff_getElem?.mp member
    split at found
    · rename_i kind
      cases found
      exact ⟨entry, Or.inl ⟨kind, rfl⟩⟩
    · rename_i kind
      cases found
      exact ⟨entry, Or.inr ⟨kind, rfl⟩⟩
    · cases found
  · rintro ⟨record, entry, ⟨kind, rfl⟩ | ⟨kind, rfl⟩⟩
    · exact ⟨(record, entity), List.mem_zipIdx_iff_getElem?.mpr entry, by simp only [kind]⟩
    · exact ⟨(record, entity), List.mem_zipIdx_iff_getElem?.mpr entry, by simp only [kind]⟩

/-- Classes and individuals are the entities with an expression. -/
theorem CanonicalOrder.validateNamed (shaped : ∀ expression ∈ trees, expression.Shaped ∧ expression.entities ⊆ table)
    (canonical : CanonicalOrder trees table order) (distinct : table.Nodup)
    (complete : ∀ entity ∈ table, ∀ expression, entity.namedTree = some expression → expression ∈ trees) :
    validateNamedEntityExpressions (order.map (ExpressionTree.record table order)) table := by
  refine (Bool.and_eq_true _ _).mpr ⟨List.all_eq_true.mpr fun named member => List.contains_iff_mem.mpr ?_,
    List.all_eq_true.mpr fun named member => List.contains_iff_mem.mpr ?_⟩
  · obtain ⟨record, listed, rfl⟩ := List.mem_map.mp member
    obtain ⟨inside, tagged⟩ := List.mem_filter.mp listed
    obtain ⟨⟨tag, entities, operands, payload⟩, found, rfl⟩ := List.mem_map.mp inside
    obtain ⟨good, known⟩ := shaped _ (canonical.member found)
    rcases good.form with ⟨leaf, entity, rfl, rfl⟩ | ⟨inner, plain, rfl⟩ | ⟨rfl, property, filler, rfl, rfl⟩
    · have entry := List.getElem?_idxOf (known List.mem_cons_self)
      cases tag
      case owlClass =>
        refine mem_namedEntities.mpr ⟨entity, entry, Or.inl ⟨?_, rfl⟩⟩
        cases payload with
        | nil => exact good
        | cons byte rest => cases good
      case individual =>
        refine mem_namedEntities.mpr ⟨entity, entry, Or.inr ⟨?_, rfl⟩⟩
        cases payload with
        | nil => exact good
        | cons byte rest => cases good
      all_goals cases tagged
    · cases tag <;> first | (cases inner; done) | cases tagged
    · cases tagged
  · obtain ⟨tag, position⟩ := named
    obtain ⟨entity, entry, kinds⟩ := mem_namedEntities.mp member
    have place : table.idxOf entity = position := by
      obtain ⟨bound, rfl⟩ := List.getElem?_eq_some_iff.mp entry
      exact distinct.idxOf_getElem position bound
    have listed := List.mem_of_getElem? entry
    rcases kinds with ⟨kind, rfl⟩ | ⟨kind, rfl⟩
    · have named := complete entity listed (.node .owlClass [entity] [] []) (by rw [EntityRecord.namedTree, kind])
      exact List.mem_map.mpr ⟨_, List.mem_filter.mpr ⟨List.mem_map_of_mem (canonical.complete _ named), rfl⟩,
        congrArg (fun position => (ExpressionTag.owlClass, position)) place⟩
    · have named := complete entity listed (.node .individual [entity] [] []) (by rw [EntityRecord.namedTree, kind])
      exact List.mem_map.mpr ⟨_, List.mem_filter.mpr ⟨List.mem_map_of_mem (canonical.complete _ named), rfl⟩,
        congrArg (fun position => (ExpressionTag.individual, position)) place⟩

end

theorem checkSortedUnique_lists (values : List (List Nat)) : checkSortedUnique id (sortedSet id values) :=
  decide_eq_true (sortedSet_strict Function.injective_id values).isChain

/-- Rows that are written sorted pass the check exactly when their IDs are not reserved. -/
theorem validateSortedPairs_sortedSet {rows : List (Nat × Nat)} {firstLimit secondLimit : Nat}
    (bounds : ∀ row ∈ rows, row.1 < firstLimit ∧ row.2 < secondLimit) :
    validateSortedPairs (sortedSet (fun row => (toLex row : Nat ×ₗ Nat)) rows) firstLimit secondLimit ↔
      ∀ row ∈ rows, row.1 < U32_RESERVED ∧ row.2 < U32_RESERVED := by
  have sorted : checkSortedUnique (fun row => (toLex row : Nat ×ₗ Nat))
      (sortedSet (fun row => (toLex row : Nat ×ₗ Nat)) rows) = true :=
        checkSortedUnique_sortedSet toLex.injective rows
  simp only [validateSortedPairs, sorted, Bool.and_true, List.all_eq_true, Bool.and_eq_true, decide_eq_true_eq,
    checkU32, mem_sortedSet]
  exact ⟨fun valid row member => ⟨(valid row member).1.1.1, (valid row member).1.1.2⟩,
    fun fits row member => ⟨⟨fits row member, (bounds row member).1⟩, (bounds row member).2⟩⟩

namespace MutableIndex

/-- An index with all named expressions, and the table of its entities. -/
structure Ready (index : MutableIndex) (known : List EntityRecord) : Prop where
  wellFormed : index.WellFormed
  sorted : checkSortedUnique EntityRecord.key known
  table : ∀ {entity}, entity ∈ known ↔ entity ∈ index.entities
  predefined : predefinedEntities ⊆ index.entities
  complete : ∀ entity ∈ known, ∀ expression, entity.namedTree = some expression → expression ∈ index.content.trees

section

variable {index : MutableIndex} {known : List EntityRecord} (ready : index.Ready known)

include ready

theorem Ready.nodup : known.Nodup := by
  have trans : IsTrans EntityRecord fun a b => a.key < b.key := ⟨fun _ _ _ => lt_trans⟩
  refine (List.isChain_iff_pairwise.mp (of_decide_eq_true ready.sorted)).imp ?_
  rintro a b below rfl
  exact absurd below (lt_irrefl _)

theorem Ready.entity_lt {entity : EntityRecord} (member : entity ∈ index.entities) :
    known.idxOf entity < known.length := List.idxOf_lt_length_of_mem (ready.table.mpr member)

theorem Ready.validateEntityIndex {entity : EntityRecord} {kind : EntityKind} (member : entity ∈ index.entities)
    (same : entity.kind = kind) : PyElk.validateEntityIndex known (known.idxOf entity) kind := by
  rw [← same]
  exact validateEntityIndex_idxOf (ready.table.mpr member)

theorem Ready.shaped : ∀ expression ∈ index.content.trees, expression.Shaped ∧ expression.entities ⊆ known :=
  fun _ member => ⟨(ready.wellFormed.tree_shaped member).1, fun _ found =>
    ready.table.mpr ((ready.wellFormed.tree_shaped member).2 found)⟩

theorem Ready.canonical : CanonicalOrder index.content.trees known ((index.finalOrder known).map index.tree) :=
  (ready.wellFormed.finalOrder_spec known).2.2.1

theorem Ready.expression_lt {handle : Nat} (inside : handle < index.expressions.length) :
    (index.finalOrder known).idxOf handle < (index.finalOrder known).length :=
  List.idxOf_lt_length_of_mem (mem_finalOrder (ready.wellFormed.finalOrder_spec known).2.2.2 inside)

variable (sourceFingerprint : List UInt8)

/-- The frozen expressions are the records of the trees in their final order. -/
theorem Ready.expressions_eq : (index.tables known sourceFingerprint).expressions =
    ((index.finalOrder known).map index.tree).map
      (ExpressionTree.record known ((index.finalOrder known).map index.tree)) :=
  ready.wellFormed.records_eq (ready.wellFormed.finalOrder_spec known).2.1 known

omit ready in
theorem tables_expressions_length (known : List EntityRecord) :
    (index.tables known sourceFingerprint).expressions.length = (index.finalOrder known).length := List.length_map _

/-- The frozen entity table passes its check exactly when its IDs fit. -/
theorem Ready.validateEntities : validateEntities known true ↔ known.length ≤ U32_RESERVED := by
  have named : (known.all fun record => record.iri != "") = true := List.all_eq_true.mpr fun record member =>
    bne_iff_ne.mpr (ready.wellFormed.named record (ready.table.mp member))
  have predefined : (predefinedEntities.all fun record => known.contains record) = true :=
    List.all_eq_true.mpr fun record member => List.contains_iff_mem.mpr (ready.table.mpr (ready.predefined member))
  simp only [PyElk.validateEntities, named, ready.sorted, predefined, Bool.true_and, Bool.not_true, Bool.false_or,
    Bool.and_true, decide_eq_true_eq]

/-- The frozen occurrence rows pass their check. -/
theorem Ready.validateOccurrences : validateOccurrences (index.tables known sourceFingerprint).expressionOccurrences
    (index.tables known sourceFingerprint).propertyOccurrences
    (index.tables known sourceFingerprint).expressions known := by
  have small : ∀ handle ∈ index.finalOrder known, (index.expressionOccurrences.getD handle ⟨0, 0⟩).Fits := by
    intro handle member
    rw [← ready.wellFormed.occurrence_tree ((ready.wellFormed.finalOrder_spec known).2.1 handle member)]
    exact ready.wellFormed.content_fits.counts _
  refine (Bool.and_eq_true _ _).mpr ⟨(Bool.and_eq_true _ _).mpr ⟨decide_eq_true ?_, decide_eq_true ?_⟩,
    List.all_eq_true.mpr fun counts member => ?_⟩
  · exact (List.length_map _).trans (List.length_map _).symm
  · rw [List.countP_eq_length_filter]
    exact List.length_map _
  · have fits : counts.Fits := by
      rcases List.mem_append.mp member with first | second
      · obtain ⟨handle, listed, rfl⟩ := List.mem_map.mp first
        exact small handle listed
      · obtain ⟨property, -, rfl⟩ := List.mem_map.mp second
        exact ready.wellFormed.content_fits.properties property
    exact (Bool.and_eq_true _ _).mpr ⟨decide_eq_true fits.1, decide_eq_true fits.2⟩

/-- The chains of an index, with one for each object property. -/
theorem Ready.chain_properties {chain : List EntityRecord} (member : chain ∈ index.propertyChains ++
    (known.filter fun record => record.kind == .objectProperty).map fun property => [property]) :
    chain ≠ [] ∧ ∀ property ∈ chain, property.kind = .objectProperty ∧ property ∈ index.entities := by
  rcases List.mem_append.mp member with old | new
  · exact ready.wellFormed.chains chain old
  · obtain ⟨property, listed, rfl⟩ := List.mem_map.mp new
    obtain ⟨inside, kind⟩ := List.mem_filter.mp listed
    exact ⟨List.cons_ne_nil _ _, List.forall_mem_singleton.mpr ⟨beq_iff_eq.mp kind, ready.table.mp inside⟩⟩

/-- The frozen property chains pass their check. -/
theorem Ready.validateChains :
    validatePropertyChains (index.tables known sourceFingerprint).propertyChains known := by
  refine (Bool.and_eq_true _ _).mpr ⟨List.all_eq_true.mpr fun ids member => ?_,
    checkSortedUnique_lists _⟩
  obtain ⟨chain, listed, rfl⟩ := List.mem_map.mp (mem_sortedSet.mp member)
  obtain ⟨nonempty, properties⟩ := ready.chain_properties listed
  refine (Bool.and_eq_true _ _).mpr ⟨?_, List.all_eq_true.mpr fun id found => ?_⟩
  · rw [Bool.not_eq_true', List.isEmpty_eq_false_iff, Ne, List.map_eq_nil_iff]
    exact nonempty
  · obtain ⟨property, inside, rfl⟩ := List.mem_map.mp found
    exact ready.validateEntityIndex (properties property inside).2 (properties property inside).1

/-- The frozen disjointness groups pass their check. -/
theorem Ready.validateGroups : validateDisjointGroups (index.tables known sourceFingerprint).disjointGroups
    (index.tables known sourceFingerprint).expressions.length := by
  refine (Bool.and_eq_true _ _).mpr ⟨List.all_eq_true.mpr fun ids member => ?_,
    checkSortedUnique_lists _⟩
  obtain ⟨group, listed, rfl⟩ := List.mem_map.mp (mem_sortedSet.mp member)
  obtain ⟨pair, bounds⟩ := ready.wellFormed.disjoint group listed
  refine (Bool.and_eq_true _ _).mpr ⟨decide_eq_true (pair.trans_eq (List.length_map _).symm),
    List.all_eq_true.mpr fun id found => ?_⟩
  obtain ⟨handle, inside, rfl⟩ := List.mem_map.mp found
  rw [tables_expressions_length]
  exact decide_eq_true (ready.expression_lt (bounds handle inside))

theorem Ready.subclass_lt : ∀ row ∈ index.subclassAxioms.map fun row =>
    ((index.finalOrder known).idxOf row.1, (index.finalOrder known).idxOf row.2),
    row.1 < (index.tables known sourceFingerprint).expressions.length ∧
      row.2 < (index.tables known sourceFingerprint).expressions.length := by
  intro ids member
  obtain ⟨row, listed, rfl⟩ := List.mem_map.mp member
  rw [tables_expressions_length]
  obtain ⟨first, second⟩ := ready.wellFormed.subclass row listed
  exact ⟨ready.expression_lt first, ready.expression_lt second⟩

theorem Ready.equivalent_lt : ∀ row ∈ index.equivalentClassAxioms.map fun row =>
    ((index.finalOrder known).idxOf row.1, (index.finalOrder known).idxOf row.2),
    row.1 < (index.tables known sourceFingerprint).expressions.length ∧
      row.2 < (index.tables known sourceFingerprint).expressions.length := by
  intro ids member
  obtain ⟨row, listed, rfl⟩ := List.mem_map.mp member
  rw [tables_expressions_length]
  obtain ⟨first, second⟩ := ready.wellFormed.equivalent row listed
  exact ⟨ready.expression_lt first, ready.expression_lt second⟩

theorem Ready.range_lt : ∀ row ∈ index.propertyRanges.map fun row =>
    (known.idxOf row.1, (index.finalOrder known).idxOf row.2),
    row.1 < known.length ∧ row.2 < (index.tables known sourceFingerprint).expressions.length := by
  intro ids member
  obtain ⟨row, listed, rfl⟩ := List.mem_map.mp member
  rw [tables_expressions_length]
  obtain ⟨-, property, range⟩ := ready.wellFormed.ranges row listed
  exact ⟨ready.entity_lt property, ready.expression_lt range⟩

theorem Ready.subproperty_lt : ∀ row ∈ index.subpropertyAxioms.map fun row =>
    ((index.tables known sourceFingerprint).propertyChains.idxOf (row.1.map known.idxOf), known.idxOf row.2),
    row.1 < (index.tables known sourceFingerprint).propertyChains.length ∧ row.2 < known.length := by
  intro ids member
  obtain ⟨row, listed, rfl⟩ := List.mem_map.mp member
  obtain ⟨chain, -, super⟩ := ready.wellFormed.subproperty row listed
  have chained : row.1.map known.idxOf ∈ (index.tables known sourceFingerprint).propertyChains :=
    mem_sortedSet.mpr (List.mem_map_of_mem (List.mem_append_left _ chain))
  exact ⟨List.idxOf_lt_length_of_mem chained, ready.entity_lt super⟩

/-- The frozen expression table passes its check exactly when its IDs fit. -/
theorem Ready.validateExpressions :
    PyElk.validateExpressions (index.tables known sourceFingerprint).expressions known ↔
      (index.tables known sourceFingerprint).expressions.length ≤ U32_RESERVED := by
  rw [ready.expressions_eq, ready.canonical.validateExpressions ready.shaped]
  simp only [List.length_map]

/-- Every class and individual of the frozen table has its named expression. -/
theorem Ready.validateNamed :
    validateNamedEntityExpressions (index.tables known sourceFingerprint).expressions known := by
  rw [ready.expressions_eq]
  exact ready.canonical.validateNamed ready.shaped ready.nodup ready.complete

/-- The frozen tables of a well formed index pass every check, as long as ids of 32 bits suffice. -/
theorem Ready.tables_valid : (index.tables known sourceFingerprint).Valid ↔
    sourceFingerprint.length = FINGERPRINT_SIZE ∧ (index.tables known sourceFingerprint).IdsFit := by
  have subclass := ready.subclass_lt sourceFingerprint
  have equivalent := ready.equivalent_lt sourceFingerprint
  have ranges := ready.range_lt sourceFingerprint
  have subproperty := ready.subproperty_lt sourceFingerprint
  constructor
  · intro valid
    refine ⟨valid.fingerprint, ready.validateEntities.mp valid.entities,
      (ready.validateExpressions sourceFingerprint).mp valid.expressions, fun row member => ?_⟩
    exact ((validateSortedPairs_sortedSet subproperty).mp valid.subproperty row (mem_sortedSet.mp member)).1
  · rintro ⟨fingerprint, entities, expressions, chains⟩
    refine ⟨ready.validateEntities.mpr entities, (ready.validateExpressions sourceFingerprint).mpr expressions,
      ready.validateNamed sourceFingerprint, ready.validateOccurrences sourceFingerprint,
      ready.validateChains sourceFingerprint, (validateSortedPairs_sortedSet subclass).mpr fun row member => ?_,
      (validateSortedPairs_sortedSet equivalent).mpr fun row member => ?_, ready.validateGroups sourceFingerprint,
      (validateSortedPairs_sortedSet subproperty).mpr fun row member => ?_, List.all_eq_true.mpr fun ids member => ?_,
      (validateSortedPairs_sortedSet ranges).mpr fun row member => ?_, List.all_eq_true.mpr fun ids member => ?_,
      ready.wellFormed.features, fingerprint⟩
    · exact ⟨(subclass row member).1.trans_le expressions, (subclass row member).2.trans_le expressions⟩
    · exact ⟨(equivalent row member).1.trans_le expressions, (equivalent row member).2.trans_le expressions⟩
    · exact ⟨chains row (mem_sortedSet.mpr member), (subproperty row member).2.trans_le entities⟩
    · obtain ⟨row, listed, rfl⟩ := List.mem_map.mp (mem_sortedSet.mp member)
      obtain ⟨-, kind, super⟩ := ready.wellFormed.subproperty row listed
      exact ready.validateEntityIndex super kind
    · exact ⟨(ranges row member).1.trans_le entities, (ranges row member).2.trans_le expressions⟩
    · obtain ⟨row, listed, rfl⟩ := List.mem_map.mp (mem_sortedSet.mp member)
      obtain ⟨kind, property, -⟩ := ready.wellFormed.ranges row listed
      exact ready.validateEntityIndex property kind

end

end MutableIndex

end PyElk
