import PyElk.Indexing.FreezeOrder
import PyElk.Indexing.MergeContent

open Ordered

namespace PyElk

theorem EntityRecord.key_injective : Function.Injective EntityRecord.key := by
  intro left right same
  obtain ⟨kind, iri⟩ := left
  obtain ⟨kind', iri'⟩ := right
  obtain ⟨code, rfl⟩ := Prod.mk.inj (toLex.injective same)
  have kinds : kind = kind' := by cases kind <;> cases kind' <;> first | rfl | cases code
  rw [kinds]

/-- The expression that every class and every individual has. -/
def EntityRecord.namedTree (entity : EntityRecord) : Option ExpressionTree :=
  match entity.kind with
  | .owlClass => some (.node .owlClass [entity] [] [])
  | .namedIndividual => some (.node .individual [entity] [] [])
  | _ => none

/-- A content with an expression for every class and individual. -/
def Content.withNamed (content : Content) (entities : Set EntityRecord) : Content :=
  { content with trees := content.trees ∪ {expression | ∃ entity ∈ entities, entity.namedTree = some expression} }

/-- Naming two sets of entities one after the other names their union. -/
theorem Content.withNamed_withNamed (content : Content) (first second : Set EntityRecord) :
    (content.withNamed first).withNamed second = content.withNamed (first ∪ second) := by
  refine Content.ext rfl ?_ rfl rfl rfl rfl rfl
  ext expression
  simp only [withNamed, Set.mem_union, Set.mem_ofPred_eq, or_and_right, exists_or, or_assoc]

/-- Entities without a named expression add nothing. -/
theorem Content.withNamed_of_none (content : Content) {entities : Set EntityRecord}
    (plain : ∀ entity ∈ entities, entity.namedTree = none) : content.withNamed entities = content := by
  refine Content.ext rfl ?_ rfl rfl rfl rfl rfl
  refine Set.union_eq_left.mpr ?_
  rintro expression ⟨entity, member, found⟩
  rw [plain entity member] at found
  cases found

namespace MutableIndex

section

variable {index : MutableIndex}

theorem WellFormed.ensureNamed_step (wellFormed : index.WellFormed) {entity : EntityRecord}
    (known : entity ∈ index.entities)
    {key : ExpressionKey} (same : key = ⟨.owlClass, [entity], [], []⟩ ∧ entity.kind = .owlClass ∨
      key = ⟨.individual, [entity], [], []⟩ ∧ entity.kind = .namedIndividual) :
    (index.intern key).WellFormed ∧ (index.intern key).content = index.content.withNamed {entity} := by
  have fields : key.Shaped ∧ key.entities = [entity] ∧ key.expressions = [] ∧
      entity.namedTree = some (index.keyTree key) := by
    unfold EntityRecord.namedTree
    rcases same with ⟨rfl, kind⟩ | ⟨rfl, kind⟩
    · exact ⟨kind, rfl, rfl, by rw [kind]; rfl⟩
    · exact ⟨kind, rfl, rfl, by rw [kind]; rfl⟩
  obtain ⟨shaped, entities, expressions, named⟩ := fields
  have bound : ∀ operand ∈ key.expressions, operand < index.expressions.length := by
    rw [expressions]
    exact fun operand member => absurd member List.not_mem_nil
  have iris : ∀ other ∈ key.entities, other.iri ≠ "" := by
    rw [entities]
    exact List.forall_mem_singleton.mpr (wellFormed.named entity known)
  have within : key.entities ⊆ index.entities := by
    rw [entities]
    exact List.cons_subset.mpr ⟨known, List.nil_subset _⟩
  refine ⟨(wellFormed.intern shaped bound iris).wellFormed, ?_⟩
  rw [wellFormed.intern_content shaped bound iris within]
  refine Content.ext (Set.union_empty _) (congrArg (index.content.trees ∪ ·) ?_) (add_zero _) (add_zero _)
    (Set.union_empty _) (Set.union_empty _) (add_zero _)
  ext expression
  constructor
  · rintro rfl
    exact ⟨entity, rfl, named⟩
  · rintro ⟨_, rfl, found⟩
    exact Option.some.inj (found.symm.trans named)

/-- `_ensure_named_expressions` adds the named expression of every entity, and nothing else. -/
theorem WellFormed.ensureNamedExpressions_content (wellFormed : index.WellFormed) :
    index.ensureNamedExpressions.WellFormed ∧
      index.ensureNamedExpressions.content = index.content.withNamed index.content.entities := by
  have loop : ∀ (entities : List EntityRecord) {index : MutableIndex}, index.WellFormed → entities ⊆ index.entities →
      (entities.foldl (fun index entity =>
        match entity.kind with
        | .owlClass => MutableIndex.intern index ⟨.owlClass, [entity], [], []⟩
        | .namedIndividual => MutableIndex.intern index ⟨.individual, [entity], [], []⟩
        | _ => index) index).WellFormed ∧
      (entities.foldl (fun index entity =>
        match entity.kind with
        | .owlClass => MutableIndex.intern index ⟨.owlClass, [entity], [], []⟩
        | .namedIndividual => MutableIndex.intern index ⟨.individual, [entity], [], []⟩
        | _ => index) index).content = index.content.withNamed {entity | entity ∈ entities} := by
    intro entities
    induction entities with
    | nil =>
      intro index wellFormed _
      exact ⟨wellFormed, (index.content.withNamed_of_none fun entity member => absurd member List.not_mem_nil).symm⟩
    | cons entity rest ih =>
      intro index wellFormed within
      obtain ⟨known, others⟩ := List.cons_subset.mp within
      have split : {other | other ∈ entity :: rest} = {entity} ∪ {other | other ∈ rest} :=
        Set.ext fun other => List.mem_cons
      rw [List.foldl_cons, split, ← Content.withNamed_withNamed]
      cases kind : entity.kind with
      | owlClass =>
        obtain ⟨wellFormed', content⟩ := wellFormed.ensureNamed_step known (Or.inl ⟨rfl, kind⟩)
        rw [← content]
        exact ih wellFormed' (List.Subset.trans others (index.intern_grows _).entities)
      | namedIndividual =>
        obtain ⟨wellFormed', content⟩ := wellFormed.ensureNamed_step known (Or.inr ⟨rfl, kind⟩)
        rw [← content]
        exact ih wellFormed' (List.Subset.trans others (index.intern_grows _).entities)
      | _ =>
        have plain : entity.namedTree = none := by
          unfold EntityRecord.namedTree
          rw [kind]
        have nothing : index.content.withNamed {entity} = index.content :=
          index.content.withNamed_of_none fun other member => Set.mem_singleton_iff.mp member ▸ plain
        rw [nothing]
        exact ih wellFormed others
  exact loop index.entities wellFormed (List.Subset.refl _)

/-- The expressions of a well formed index have the shapes of their tags. -/
theorem WellFormed.tree_shaped (wellFormed : index.WellFormed) {expression : ExpressionTree}
    (member : expression ∈ index.content.trees) : expression.Shaped ∧ expression.entities ⊆ index.entities := by
  obtain ⟨handle, inside, rfl⟩ := member
  have entry := List.getElem?_eq_getElem inside
  have listed := List.mem_of_getElem? entry
  rw [wellFormed.operands_tree entry]
  refine ⟨?_, wellFormed.known _ listed⟩
  rw [ExpressionTree.Shaped, List.map_map]
  exact (wellFormed.shaped _ listed).translate (List.length_map _)

/-! The frozen tables, as they follow from the content and the order of its expressions. -/

section

variable (wellFormed : index.WellFormed) {order : List Nat}
    (bound : ∀ handle ∈ order, handle < index.expressions.length)

include wellFormed bound

/-- The final records are read off the trees in their order. -/
theorem WellFormed.records_eq (known : List EntityRecord) : order.map (index.finalRecord known order) =
    (order.map index.tree).map (ExpressionTree.record known (order.map index.tree)) := by
  rw [List.map_map]
  exact List.map_congr_left fun handle member => wellFormed.finalRecord_eq bound (bound handle member)

/-- The final occurrence rows are the counters of the trees in their order. -/
theorem WellFormed.occurrences_eq : order.map (fun handle => index.expressionOccurrences.getD handle ⟨0, 0⟩) =
    (order.map index.tree).map index.content.counts := by
  rw [List.map_map]
  exact List.map_congr_left fun handle member => (wellFormed.occurrence_tree (bound handle member)).symm

/-- The numbered subclass rows are those of the content, in the numbering of the order. -/
theorem WellFormed.mem_subclassIds {pair : Nat × Nat} :
    pair ∈ index.subclassAxioms.map (fun row => (order.idxOf row.1, order.idxOf row.2)) ↔
      ∃ sub super, NormalRow.subclass sub super ∈ index.content.rows ∧
        ((order.map index.tree).idxOf sub, (order.map index.tree).idxOf super) = pair := by
  rw [List.mem_map]
  constructor
  · rintro ⟨row, member, rfl⟩
    obtain ⟨first, second⟩ := wellFormed.subclass row member
    refine ⟨_, _, mem_rows.mpr (Or.inl ⟨row, member, rfl⟩), ?_⟩
    rw [wellFormed.idxOf_tree bound first, wellFormed.idxOf_tree bound second]
  · rintro ⟨sub, super, member, rfl⟩
    rcases mem_rows.mp member with ⟨row, listed, equal⟩ | ⟨_, _, equal⟩ | ⟨_, _, equal⟩ | ⟨_, _, equal⟩ |
      ⟨_, _, equal⟩ <;>
      cases equal
    obtain ⟨first, second⟩ := wellFormed.subclass row listed
    exact ⟨row, listed, by rw [wellFormed.idxOf_tree bound first, wellFormed.idxOf_tree bound second]⟩

theorem WellFormed.mem_equivalentIds {pair : Nat × Nat} :
    pair ∈ index.equivalentClassAxioms.map (fun row => (order.idxOf row.1, order.idxOf row.2)) ↔
      ∃ first second, NormalRow.equivalent first second ∈ index.content.rows ∧
        ((order.map index.tree).idxOf first, (order.map index.tree).idxOf second) = pair := by
  rw [List.mem_map]
  constructor
  · rintro ⟨row, member, rfl⟩
    obtain ⟨first, second⟩ := wellFormed.equivalent row member
    refine ⟨_, _, mem_rows.mpr (Or.inr (Or.inl ⟨row, member, rfl⟩)), ?_⟩
    rw [wellFormed.idxOf_tree bound first, wellFormed.idxOf_tree bound second]
  · rintro ⟨left, right, member, rfl⟩
    rcases mem_rows.mp member with ⟨_, _, equal⟩ | ⟨row, listed, equal⟩ | ⟨_, _, equal⟩ | ⟨_, _, equal⟩ |
      ⟨_, _, equal⟩ <;>
      cases equal
    obtain ⟨first, second⟩ := wellFormed.equivalent row listed
    exact ⟨row, listed, by rw [wellFormed.idxOf_tree bound first, wellFormed.idxOf_tree bound second]⟩

/-- The numbered disjointness groups are those of the content, in the numbering of the order. -/
theorem WellFormed.mem_groupIds {ids : List Nat} :
    ids ∈ index.disjointGroups.map (fun group => group.map order.idxOf) ↔
      ∃ group, NormalRow.disjoint group ∈ index.content.rows ∧ group.map (order.map index.tree).idxOf = ids := by
  have translated : ∀ group ∈ index.disjointGroups, (group.map index.tree).map (order.map index.tree).idxOf =
      group.map order.idxOf := by
    intro group member
    rw [List.map_map]
    exact List.map_congr_left fun handle found =>
      wellFormed.idxOf_tree bound ((wellFormed.disjoint group member).2 handle found)
  rw [List.mem_map]
  constructor
  · rintro ⟨group, member, rfl⟩
    exact ⟨_, mem_rows.mpr (Or.inr (Or.inr (Or.inl ⟨group, member, rfl⟩))), translated group member⟩
  · rintro ⟨_, member, rfl⟩
    rcases mem_rows.mp member with ⟨_, _, equal⟩ | ⟨_, _, equal⟩ | ⟨group, listed, equal⟩ | ⟨_, _, equal⟩ |
      ⟨_, _, equal⟩ <;>
      cases equal
    exact ⟨group, listed, (translated group listed).symm⟩

theorem WellFormed.mem_rangeIds {known : List EntityRecord} {pair : Nat × Nat} :
    pair ∈ index.propertyRanges.map (fun row => (known.idxOf row.1, order.idxOf row.2)) ↔
      ∃ property range, NormalRow.range property range ∈ index.content.rows ∧
        (known.idxOf property, (order.map index.tree).idxOf range) = pair := by
  rw [List.mem_map]
  constructor
  · rintro ⟨row, member, rfl⟩
    refine ⟨row.1, _, mem_rows.mpr (Or.inr (Or.inr (Or.inr (Or.inr ⟨row, member, rfl⟩)))), ?_⟩
    rw [wellFormed.idxOf_tree bound (wellFormed.ranges row member).2.2]
  · rintro ⟨property, range, member, rfl⟩
    rcases mem_rows.mp member with ⟨_, _, equal⟩ | ⟨_, _, equal⟩ | ⟨_, _, equal⟩ | ⟨_, _, equal⟩ |
      ⟨row, listed, equal⟩ <;>
      cases equal
    exact ⟨row, listed, by rw [wellFormed.idxOf_tree bound (wellFormed.ranges row listed).2.2]⟩

end

/-- The numbered subproperty rows are those of the content, in the numbering of the chains and the entities. -/
theorem mem_subpropertyIds {known : List EntityRecord} {chains : List (List Nat)} {pair : Nat × Nat} :
    pair ∈ index.subpropertyAxioms.map (fun row => (chains.idxOf (row.1.map known.idxOf), known.idxOf row.2)) ↔
      ∃ chain super, NormalRow.subproperty chain super ∈ index.content.rows ∧
        (chains.idxOf (chain.map known.idxOf), known.idxOf super) = pair := by
  rw [List.mem_map]
  constructor
  · rintro ⟨row, member, rfl⟩
    exact ⟨row.1, row.2, mem_rows.mpr (Or.inr (Or.inr (Or.inr (Or.inl ⟨row, member, rfl⟩)))), rfl⟩
  · rintro ⟨chain, super, member, rfl⟩
    rcases mem_rows.mp member with ⟨_, _, equal⟩ | ⟨_, _, equal⟩ | ⟨_, _, equal⟩ | ⟨row, listed, equal⟩ |
      ⟨_, _, equal⟩ <;>
      cases equal
    exact ⟨row, listed, rfl⟩

/-- The frozen tables only depend on the content of an index. -/
theorem WellFormed.tables_congr {other : MutableIndex} (wellFormed : index.WellFormed)
    (wellFormed' : other.WellFormed)
    (same : index.content = other.content) (sourceFingerprint : List UInt8) :
    index.tables (sortedEntities index.entities) sourceFingerprint =
      other.tables (sortedEntities other.entities) sourceFingerprint := by
  have table : sortedEntities index.entities = sortedEntities other.entities :=
    sortedSet_congr EntityRecord.key_injective fun entity => Set.ext_iff.mp (congrArg Content.entities same) entity
  rw [← table]
  generalize entities : sortedEntities index.entities = known
  have mem_known : ∀ entity, entity ∈ known ↔ entity ∈ index.entities := fun entity => by
    rw [← entities, sortedEntities, mem_sortedSet]
  obtain ⟨-, bound, canonical, -⟩ := wellFormed.finalOrder_spec known
  obtain ⟨-, bound', canonical', -⟩ := wellFormed'.finalOrder_spec known
  have shaped : ∀ expression ∈ index.content.trees, expression.Shaped ∧ expression.entities ⊆ known :=
    fun expression member => ⟨(wellFormed.tree_shaped member).1, fun entity found =>
      (mem_known entity).mpr ((wellFormed.tree_shaped member).2 found)⟩
  rw [← same] at canonical'
  have order := canonical.unique shaped canonical'
  have pairs : Function.Injective fun row : Nat × Nat => (toLex row : Nat ×ₗ Nat) := toLex.injective
  have chains : sortedSet id ((index.propertyChains ++ (known.filter fun record => record.kind == .objectProperty).map
        fun property => [property]).map fun chain => chain.map known.idxOf) =
      sortedSet id ((other.propertyChains ++ (known.filter fun record => record.kind == .objectProperty).map
        fun property => [property]).map fun chain => chain.map known.idxOf) := by
    refine sortedSet_congr Function.injective_id fun chain => ?_
    have listed : ∀ chain, chain ∈ index.propertyChains ↔ chain ∈ other.propertyChains :=
      fun chain => Set.ext_iff.mp (congrArg Content.chains same) chain
    simp only [List.mem_map, List.mem_append, listed]
  simp only [tables, Tables.mk.injEq, chains, true_and, and_true]
  refine ⟨?_, ?_, ?_, ?_, ?_, ?_, ?_, ?_, ?_⟩
  · rw [wellFormed.records_eq bound, wellFormed'.records_eq bound', order]
  · rw [wellFormed.occurrences_eq bound, wellFormed'.occurrences_eq bound', order, same]
  · exact List.map_congr_left fun property _ => congrFun (congrArg Content.properties same) property
  · refine sortedSet_congr pairs fun pair => ?_
    rw [wellFormed.mem_subclassIds bound, wellFormed'.mem_subclassIds bound', order, same]
  · refine sortedSet_congr pairs fun pair => ?_
    rw [wellFormed.mem_equivalentIds bound, wellFormed'.mem_equivalentIds bound', order, same]
  · refine sortedSet_congr Function.injective_id fun group => ?_
    rw [wellFormed.mem_groupIds bound, wellFormed'.mem_groupIds bound', order, same]
  · refine sortedSet_congr pairs fun pair => ?_
    rw [mem_subpropertyIds, mem_subpropertyIds, same]
  · refine sortedSet_congr pairs fun pair => ?_
    rw [wellFormed.mem_rangeIds bound, wellFormed'.mem_rangeIds bound', order, same]
  · refine List.ext_getElem (wellFormed.features.1.trans wellFormed'.features.1.symm) fun feature small small' => ?_
    have counted : index.featureCounts.getD feature 0 = other.featureCounts.getD feature 0 :=
      congrFun (congrArg Content.features same) feature
    rwa [List.getD_eq_getElem?_getD, List.getD_eq_getElem?_getD, List.getElem?_eq_getElem small,
      List.getElem?_eq_getElem small', Option.getD_some, Option.getD_some] at counted

/-- Freezing only depends on the content of an index. -/
theorem WellFormed.freeze_congr {other : MutableIndex} (wellFormed : index.WellFormed)
    (wellFormed' : other.WellFormed)
    (same : index.content = other.content) (sourceFingerprint : List UInt8) :
    index.freeze sourceFingerprint = other.freeze sourceFingerprint := by
  obtain ⟨ready, content⟩ := wellFormed.ensureNamedExpressions_content
  obtain ⟨ready', content'⟩ := wellFormed'.ensureNamedExpressions_content
  have equal : index.ensureNamedExpressions.content = other.ensureNamedExpressions.content := by
    rw [content, content', same]
  unfold freeze
  dsimp only
  rw [if_pos (ready.finalOrder_spec _).2.2.2, if_pos (ready'.finalOrder_spec _).2.2.2,
    ready.tables_congr ready' equal]

end

end MutableIndex

end PyElk
