import PyElk.Indexing.Merge

namespace PyElk

/-- The counters of one object property. -/
noncomputable def Content.property (entity : EntityRecord) (counts : Occurrence) : Content :=
  { (0 : Content) with properties := Function.update 0 entity counts }

namespace MutableIndex

section

variable {index later : MutableIndex}

theorem addPropertyOccurrence_content {property : EntityRecord} {counts : Occurrence}
    (added : index.addPropertyOccurrence property counts = some later) :
    later.content = index.content + Content.property property counts := by
  obtain ⟨total, sum, rfl⟩ := Option.map_eq_some_iff.mp added
  obtain ⟨-, rfl⟩ := Occurrence.checkedAdd_eq_some.mp sum
  refine Content.ext (Set.union_empty _).symm (Set.union_empty _).symm (add_zero _).symm ?_ (Set.union_empty _).symm
    (Set.union_empty _).symm (add_zero _).symm
  funext entity
  change (List.lookup entity (Ordered.setItem property _ index.propertyOccurrences)).getD ⟨0, 0⟩ =
    (index.propertyOccurrences.lookup entity).getD ⟨0, 0⟩ +
      Function.update (0 : EntityRecord → Occurrence) property counts entity
  rw [Ordered.lookup_setItem]
  by_cases same : entity = property
  · subst same
    rw [if_pos rfl, Function.update_self]
    rfl
  · rw [if_neg same, Function.update_of_ne same]
    exact (add_zero _).symm

theorem addPropertyOccurrence_isSome {property : EntityRecord} {counts : Occurrence} :
    (index.addPropertyOccurrence property counts).isSome ↔ (index.content.properties property + counts).Fits := by
  rw [MutableIndex.addPropertyOccurrence, Option.isSome_map, Option.isSome_iff_exists]
  simp only [Occurrence.checkedAdd_eq_some, exists_and_left, exists_eq', and_true]
  rfl

/-- The counters of a property table. -/
def propertyTable (rows : List (EntityRecord × Occurrence)) : Content :=
  { (0 : Content) with properties := fun entity => (rows.lookup entity).getD ⟨0, 0⟩ }

theorem propertyTable_cons {entity : EntityRecord} {counts : Occurrence} {rows : List (EntityRecord × Occurrence)}
    (fresh : entity ∉ rows.map Prod.fst) :
    propertyTable ((entity, counts) :: rows) = Content.property entity counts + propertyTable rows := by
  refine Content.ext (Set.union_empty _).symm (Set.union_empty _).symm (add_zero _).symm ?_ (Set.union_empty _).symm
    (Set.union_empty _).symm (add_zero _).symm
  funext other
  change (List.lookup other ((entity, counts) :: rows)).getD ⟨0, 0⟩ =
    Function.update (0 : EntityRecord → Occurrence) entity counts other + (rows.lookup other).getD ⟨0, 0⟩
  by_cases same : other = entity
  · subst same
    have absent : rows.lookup other = none := by
      rw [List.lookup_eq_none_iff]
      exact fun row member => bne_iff_ne.mpr fun equal => fresh (equal ▸ List.mem_map_of_mem member)
    rw [List.lookup_cons_self, Function.update_self, absent]
    exact (add_zero _).symm
  · rw [List.lookup_cons, beq_false_of_ne same, Function.update_of_ne same]
    exact (zero_add _).symm

/-- The loop over the property counters of a transaction. -/
theorem WellFormed.mergeProperties_spec {rows : List (EntityRecord × Occurrence)} (wellFormed : index.WellFormed)
    (distinct : (rows.map Prod.fst).Nodup)
    (known : ∀ row ∈ rows, row.1.kind = .objectProperty ∧ row.1 ∈ index.entities) :
    (∀ later, rows.foldlM (fun index row => MutableIndex.addPropertyOccurrence index row.1 row.2) index = some later →
      index.Emits later [] ∧ later.expressions = index.expressions ∧
        later.content = index.content + propertyTable rows) ∧
    ((index.content + propertyTable rows).Fits →
      (rows.foldlM (fun index row => MutableIndex.addPropertyOccurrence index row.1 row.2) index).isSome) := by
  induction rows generalizing index with
  | nil =>
    refine ⟨fun later done => ?_, fun _ => rfl⟩
    cases done
    exact ⟨.refl wellFormed, rfl, (add_zero _).symm⟩
  | cons row rest ih =>
    obtain ⟨entity, counts⟩ := row
    obtain ⟨fresh, distinct'⟩ := List.nodup_cons.mp distinct
    rw [List.forall_mem_cons] at known
    rw [List.foldlM_cons, propertyTable_cons fresh]
    have step : ∀ {later : MutableIndex}, index.addPropertyOccurrence entity counts = some later →
        index.Emits later [] ∧ later.expressions = index.expressions ∧
          ∀ row ∈ rest, row.1.kind = .objectProperty ∧ row.1 ∈ later.entities := by
      intro later added
      have emits := wellFormed.addPropertyOccurrence known.1.1 known.1.2 added
      obtain ⟨total, -, rfl⟩ := Option.map_eq_some_iff.mp added
      exact ⟨emits, rfl, known.2⟩
    constructor
    · intro later done
      obtain ⟨next, added, done⟩ := Option.bind_eq_some_iff.mp done
      obtain ⟨emits, same, known'⟩ := step added
      obtain ⟨emits', same', content⟩ := (ih emits.wellFormed distinct' known').1 later done
      exact ⟨emits.silent emits', same'.trans same,
        by rw [content, addPropertyOccurrence_content added, add_assoc]⟩
    · intro fits
      rw [← add_assoc] at fits
      have sum : (index.content.properties entity + counts).Fits := by
        have whole := fits.left.properties entity
        change (index.content.properties entity + Function.update
          (0 : EntityRecord → Occurrence) entity counts entity).Fits
          at whole
        rwa [Function.update_self] at whole
      obtain ⟨next, added⟩ := Option.isSome_iff_exists.mp (addPropertyOccurrence_isSome.mpr sum)
      obtain ⟨emits, -, known'⟩ := step added
      rw [← addPropertyOccurrence_content added] at fits
      rw [added]
      exact (ih emits.wellFormed distinct' known').2 fits

/-- The loop over the feature counters of a transaction. -/
theorem mergeFeatures_spec {counts increments : List Nat} (length : counts.length = increments.length) :
    (∀ sums, mergeFeatures counts increments = some sums → sums.length = counts.length ∧
      (∀ sum ∈ sums, sum ≤ U64_MAX) ∧
      ∀ feature, sums.getD feature 0 = counts.getD feature 0 + increments.getD feature 0) ∧
    ((∀ feature, counts.getD feature 0 + increments.getD feature 0 ≤ U64_MAX) →
      (mergeFeatures counts increments).isSome) := by
  induction counts generalizing increments with
  | nil =>
    cases increments with
    | nil =>
      refine ⟨fun sums done => ?_, fun _ => rfl⟩
      cases done
      exact ⟨rfl, fun sum member => absurd member List.not_mem_nil, fun _ => rfl⟩
    | cons increment others => cases length
  | cons current rest ih =>
    cases increments with
    | nil => cases length
    | cons increment others =>
      obtain ⟨merged, fits⟩ := ih (Nat.succ.inj length)
      rw [mergeFeatures]
      constructor
      · intro sums done
        rw [Option.ite_none_right_eq_some] at done
        obtain ⟨tail, found, rfl⟩ := Option.map_eq_some_iff.mp done.2
        obtain ⟨size, small, values⟩ := merged tail found
        refine ⟨congrArg Nat.succ size, List.forall_mem_cons.mpr ⟨done.1, small⟩, fun feature => ?_⟩
        cases feature with
        | zero => rfl
        | succ feature => exact values feature
      · intro small
        have first : current + increment ≤ U64_MAX := small 0
        rw [if_pos first, Option.isSome_map]
        exact fits fun feature => small (feature + 1)

section

variable {transaction : MutableIndex} {mapping : List Nat}

/-- The row of two expressions under the handles of an index. -/
theorem Maps.pairs (maps : transaction.Maps index mapping) {rows : List (Nat × Nat)}
    (below : ∀ row ∈ rows, row.1 < mapping.length ∧ row.2 < mapping.length) :
    ∃ pairs, (rows.mapM fun row => do pure (← mapping[row.1]?, ← mapping[row.2]?)) = some pairs ∧
      (∀ pair ∈ pairs, pair.1 < index.expressions.length ∧ pair.2 < index.expressions.length) ∧
      pairs.map (fun pair => (index.tree pair.1, index.tree pair.2)) =
        rows.map fun row => (transaction.tree row.1, transaction.tree row.2) := by
  refine mapM_image fun row member => ?_
  obtain ⟨first, found, bound, tree⟩ := maps.handle (below row member).1
  obtain ⟨second, found', bound', tree'⟩ := maps.handle (below row member).2
  exact ⟨(first, second), by rw [found, found']; rfl, ⟨bound, bound'⟩, Prod.ext tree tree'⟩

theorem Maps.groups (maps : transaction.Maps index mapping) {groups : List (List Nat)}
    (below : ∀ group ∈ groups, 2 ≤ group.length ∧ ∀ item ∈ group, item < mapping.length) :
    ∃ translated, (groups.mapM fun group => group.mapM fun item => mapping[item]?) = some translated ∧
      (∀ group ∈ translated, 2 ≤ group.length ∧ ∀ handle ∈ group, handle < index.expressions.length) ∧
      translated.map (List.map index.tree) = groups.map (List.map transaction.tree) := by
  refine mapM_image fun group member => ?_
  obtain ⟨handles, found, bounds, trees⟩ := maps.translate (below group member).2
  have length : handles.length = group.length := by rw [← List.length_map index.tree, trees, List.length_map]
  exact ⟨handles, found, ⟨(below group member).1.trans_eq length.symm, bounds⟩, trees⟩

theorem Maps.ranges (maps : transaction.Maps index mapping) (known : EntityRecord → Prop)
    {rows : List (EntityRecord × Nat)} (below : ∀ row ∈ rows, known row.1 ∧ row.2 < mapping.length) :
    ∃ ranges, (rows.mapM fun row => do pure (row.1, ← mapping[row.2]?)) = some ranges ∧
      (∀ range ∈ ranges, known range.1 ∧ range.2 < index.expressions.length) ∧
      ranges.map (fun range => (range.1, index.tree range.2)) = rows.map fun row =>
        (row.1, transaction.tree row.2) := by
  refine mapM_image fun row member => ?_
  obtain ⟨handle, found, bound, tree⟩ := maps.handle (below row member).2
  exact ⟨(row.1, handle), by rw [found]; rfl, ⟨(below row member).1, bound⟩, Prod.ext rfl tree⟩

/-- The tables of a transaction that come last in a merge. -/
def tail (transaction : MutableIndex) : Content :=
  { (0 : Content) with
    chains := {chain | chain ∈ transaction.propertyChains}
    rows := {row | row ∈ transaction.rows}
    features := fun feature => transaction.featureCounts.getD feature 0 }

theorem content_parts (transaction : MutableIndex) : transaction.content =
    { (0 : Content) with entities := {entity | entity ∈ transaction.entities} } + transaction.expressionsFrom 0 +
      propertyTable transaction.propertyOccurrences + transaction.tail := by
  rw [expressionsFrom_zero]
  refine Content.ext ?_ ?_ ?_ ?_ ?_ ?_ ?_ <;> simp [content, propertyTable, tail]

/-- The rows of appended tables are the rows of both sides. -/
theorem appendTables_rows {subclass equivalent : List (Nat × Nat)} {groups : List (List Nat)}
    {ranges : List (EntityRecord × Nat)} {features : List Nat}
    (subclassTrees : subclass.map (fun pair => (index.tree pair.1, index.tree pair.2)) =
      transaction.subclassAxioms.map fun row => (transaction.tree row.1, transaction.tree row.2))
    (equivalentTrees : equivalent.map (fun pair => (index.tree pair.1, index.tree pair.2)) =
      transaction.equivalentClassAxioms.map fun row => (transaction.tree row.1, transaction.tree row.2))
    (groupTrees : groups.map (List.map index.tree) = transaction.disjointGroups.map (List.map transaction.tree))
    (rangeTrees : ranges.map (fun range => (range.1, index.tree range.2)) =
      transaction.propertyRanges.map fun row => (row.1, transaction.tree row.2)) (row : NormalRow) :
    row ∈ (index.appendTables transaction subclass equivalent groups ranges features).rows ↔
      row ∈ index.rows ∨ row ∈ transaction.rows := by
  have subclassRows := congrArg (List.map fun pair => NormalRow.subclass pair.1 pair.2) subclassTrees
  have equivalentRows := congrArg (List.map fun pair => NormalRow.equivalent pair.1 pair.2) equivalentTrees
  have groupRows := congrArg (List.map NormalRow.disjoint) groupTrees
  have rangeRows := congrArg (List.map fun pair => NormalRow.range pair.1 pair.2) rangeTrees
  rw [List.map_map, List.map_map] at subclassRows equivalentRows groupRows rangeRows
  have split : ∀ {α : Type} {image : α → NormalRow} (old : List α) {new : List α} {others : List NormalRow},
      new.map image = others → (row ∈ (old ++ new).map image ↔ row ∈ old.map image ∨ row ∈ others) := by
    intro α image old new others same
    rw [List.map_append, List.mem_append, same]
  simp only [MutableIndex.rows, List.mem_append]
  have pair := (or_congr (split index.subclassAxioms subclassRows)
    (split index.equivalentClassAxioms equivalentRows)).trans or_or_or_comm
  have triple := (or_congr pair (split index.disjointGroups groupRows)).trans or_or_or_comm
  have quadruple := (or_congr triple (split index.subpropertyAxioms (rfl : transaction.subpropertyAxioms.map
    (fun row => NormalRow.subproperty row.1 row.2) = _))).trans or_or_or_comm
  exact (or_congr quadruple (split index.propertyRanges rangeRows)).trans or_or_or_comm

/-- The last tables of a merge, under the handles of the grown index. -/
theorem WellFormed.appendTables_spec (wellFormed : index.WellFormed) (merging : transaction.WellFormed)
    (entities : transaction.entities ⊆ index.entities) {subclass equivalent : List (Nat × Nat)}
    {groups : List (List Nat)}
    {ranges : List (EntityRecord × Nat)} {features : List Nat}
    (subclassBounds : ∀ pair ∈ subclass, pair.1 < index.expressions.length ∧ pair.2 < index.expressions.length)
    (subclassTrees : subclass.map (fun pair => (index.tree pair.1, index.tree pair.2)) =
      transaction.subclassAxioms.map fun row => (transaction.tree row.1, transaction.tree row.2))
    (equivalentBounds : ∀ pair ∈ equivalent, pair.1 < index.expressions.length ∧ pair.2 < index.expressions.length)
    (equivalentTrees : equivalent.map (fun pair => (index.tree pair.1, index.tree pair.2)) =
      transaction.equivalentClassAxioms.map fun row => (transaction.tree row.1, transaction.tree row.2))
    (groupBounds : ∀ group ∈ groups, 2 ≤ group.length ∧ ∀ handle ∈ group, handle < index.expressions.length)
    (groupTrees : groups.map (List.map index.tree) = transaction.disjointGroups.map (List.map transaction.tree))
    (rangeBounds : ∀ range ∈ ranges, (range.1.kind = .objectProperty ∧ range.1 ∈ transaction.entities) ∧
      range.2 < index.expressions.length)
    (rangeTrees : ranges.map (fun range => (range.1, index.tree range.2)) =
      transaction.propertyRanges.map fun row => (row.1, transaction.tree row.2))
    (size : features.length = FEATURE_VECTOR_LENGTH) (small : ∀ count ∈ features, count ≤ U64_MAX)
    (sums : ∀ feature, features.getD feature 0 =
      index.featureCounts.getD feature 0 + transaction.featureCounts.getD feature 0) :
    (index.appendTables transaction subclass equivalent groups ranges features).WellFormed ∧
      (index.appendTables transaction subclass equivalent groups ranges features).content =
        index.content + transaction.tail := by
  have joined : ∀ {α : Type} {p : α → Prop} {old new : List α}, (∀ x ∈ old, p x) → (∀ x ∈ new, p x) →
      ∀ x ∈ old ++ new, p x := fun olds news x member => (List.mem_append.mp member).elim (olds x) (news x)
  constructor
  · exact
      { distinct := wellFormed.distinct
        operands := wellFormed.operands
        shaped := wellFormed.shaped
        known := wellFormed.known
        named := wellFormed.named
        counted := wellFormed.counted
        counts := wellFormed.counts
        propertyKeys := wellFormed.propertyKeys
        properties := wellFormed.properties
        features := ⟨size, small⟩
        chains := joined wellFormed.chains fun chain member => ⟨(merging.chains chain member).1, fun property found =>
          ⟨((merging.chains chain member).2 property found).1,
            entities ((merging.chains chain member).2 property found).2⟩⟩
        subclass := joined wellFormed.subclass subclassBounds
        equivalent := joined wellFormed.equivalent equivalentBounds
        disjoint := joined wellFormed.disjoint groupBounds
        subproperty := joined (fun row member => ⟨List.mem_append_left _ (wellFormed.subproperty row member).1,
            (wellFormed.subproperty row member).2⟩)
          fun row member => ⟨List.mem_append_right _ (merging.subproperty row member).1,
            (merging.subproperty row member).2.1, entities (merging.subproperty row member).2.2⟩
        ranges := joined wellFormed.ranges fun range member => ⟨(rangeBounds range member).1.1,
          entities (rangeBounds range member).1.2, (rangeBounds range member).2⟩ }
  · exact Content.ext (Set.union_empty _).symm (Set.union_empty _).symm (add_zero _).symm (add_zero _).symm
      (Set.ext fun chain => List.mem_append)
      (Set.ext fun row => appendTables_rows subclassTrees equivalentTrees groupTrees rangeTrees row) (funext sums)

theorem WellFormed.merge_spec (wellFormed : index.WellFormed) (merging : transaction.WellFormed) :
    (∀ later mapping, index.merge transaction = some (later, mapping) →
      later.WellFormed ∧ transaction.Maps later mapping ∧ mapping.length = transaction.expressions.length ∧
        later.content = index.content + transaction.content) ∧
    ((index.content + transaction.content).Fits → (index.merge transaction).isSome) := by
  have started := wellFormed.entities merging.named
  have startContent : ({ index with entities := index.entities ++ transaction.entities } : MutableIndex).content =
      index.content + { (0 : Content) with entities := {entity | entity ∈ transaction.entities} } :=
    Content.ext (Set.ext fun entity => List.mem_append) (Set.union_empty _).symm (add_zero _).symm (add_zero _).symm
      (Set.union_empty _).symm (Set.union_empty _).symm (add_zero _).symm
  have loop := merging.mergeExpressions_spec started.wellFormed (List.subset_append_right _ _)
    (⟨fun handle member => absurd member List.not_mem_nil, fun item handle found => by cases found⟩ :
      transaction.Maps _ []) rfl (Nat.zero_le _)
  rw [startContent, List.length_nil] at loop
  have properties : ∀ {middle : MutableIndex}, ({ index with entities := index.entities ++ transaction.entities } :
      MutableIndex).Emits middle [] → ∀ row ∈ transaction.propertyOccurrences,
        row.1.kind = .objectProperty ∧ row.1 ∈ middle.entities := fun emits row member =>
    ⟨(merging.properties row member).1,
      emits.extension.entities (List.mem_append_right _ (merging.properties row member).2.1)⟩
  -- once the handles are mapped only the feature counters can still overflow
  have tables : ∀ {middle : MutableIndex} {mapping : List Nat},
      ({ index with entities := index.entities ++ transaction.entities } : MutableIndex).Emits middle [] →
      transaction.Maps middle mapping → mapping.length = transaction.expressions.length →
      ∃ subclass equivalent groups ranges,
        (transaction.subclassAxioms.mapM fun row => do pure (← mapping[row.1]?, ← mapping[row.2]?)) = some subclass ∧
        (transaction.equivalentClassAxioms.mapM fun row => do pure (← mapping[row.1]?, ← mapping[row.2]?)) =
          some equivalent ∧
        (transaction.disjointGroups.mapM fun group => group.mapM fun item => mapping[item]?) = some groups ∧
        (transaction.propertyRanges.mapM fun row => do pure (row.1, ← mapping[row.2]?)) = some ranges ∧
        ((middle.content + transaction.tail).Fits →
          (mergeFeatures middle.featureCounts transaction.featureCounts).isSome) ∧
        ∀ features, mergeFeatures middle.featureCounts transaction.featureCounts = some features →
          (middle.appendTables transaction subclass equivalent groups ranges features).WellFormed ∧
          (middle.appendTables transaction subclass equivalent groups ranges features).content =
            middle.content + transaction.tail := by
    intro middle mapping emits maps length
    have entities : transaction.entities ⊆ middle.entities :=
      List.Subset.trans (List.subset_append_right _ _) emits.extension.entities
    have sameFeatures : middle.featureCounts.length = transaction.featureCounts.length :=
      emits.wellFormed.features.1.trans merging.features.1.symm
    obtain ⟨featureSums, featureFits⟩ := mergeFeatures_spec sameFeatures
    obtain ⟨subclass, found1, bounds1, trees1⟩ := maps.pairs (by rw [length]; exact merging.subclass)
    obtain ⟨equivalent, found2, bounds2, trees2⟩ := maps.pairs (by rw [length]; exact merging.equivalent)
    obtain ⟨groups, found3, bounds3, trees3⟩ := maps.groups (by rw [length]; exact merging.disjoint)
    obtain ⟨ranges, found4, bounds4, trees4⟩ := maps.ranges
      (fun property => property.kind = .objectProperty ∧ property ∈ transaction.entities) fun row member =>
        ⟨⟨(merging.ranges row member).1, (merging.ranges row member).2.1⟩,
        length ▸ (merging.ranges row member).2.2⟩
    refine ⟨subclass, equivalent, groups, ranges, found1, found2, found3, found4,
      fun fits => featureFits fits.features, fun features summed => ?_⟩
    obtain ⟨size, small, sums⟩ := featureSums features summed
    exact emits.wellFormed.appendTables_spec merging entities bounds1 trees1 bounds2 trees2 bounds3 trees3
      bounds4 trees4
      (size.trans emits.wellFormed.features.1) small sums
  constructor
  · intro later mapping done
    obtain ⟨⟨first, mapped⟩, expressions, done⟩ := Option.bind_eq_some_iff.mp done
    obtain ⟨second, counted, done⟩ := Option.bind_eq_some_iff.mp done
    obtain ⟨subclass, subclassPairs, done⟩ := Option.bind_eq_some_iff.mp done
    obtain ⟨equivalent, equivalentPairs, done⟩ := Option.bind_eq_some_iff.mp done
    obtain ⟨groups, translated, done⟩ := Option.bind_eq_some_iff.mp done
    obtain ⟨ranges, rangeRows, done⟩ := Option.bind_eq_some_iff.mp done
    obtain ⟨features, summed, last⟩ := Option.bind_eq_some_iff.mp done
    cases last
    obtain ⟨emits, maps, length, content⟩ := loop.1 first mapping expressions
    obtain ⟨emits', -, content'⟩ :=
      (emits.wellFormed.mergeProperties_spec merging.propertyKeys (properties emits)).1 second counted
    have maps' := maps.extends emits'.extension
    obtain ⟨_, _, _, _, found1, found2, found3, found4, -, appended⟩ := tables (emits.silent emits') maps' length
    cases found1.symm.trans subclassPairs
    cases found2.symm.trans equivalentPairs
    cases found3.symm.trans translated
    cases found4.symm.trans rangeRows
    obtain ⟨wellFormed', content''⟩ := appended features summed
    refine ⟨wellFormed', ⟨maps'.bound, maps'.tree⟩, length, ?_⟩
    rw [content'', content', content, transaction.content_parts]
    simp only [add_assoc]
  · intro fits
    rw [transaction.content_parts, ← add_assoc, ← add_assoc, ← add_assoc] at fits
    obtain ⟨⟨first, mapping⟩, expressions⟩ := Option.isSome_iff_exists.mp (loop.2 fits.left.left)
    obtain ⟨emits, maps, length, content⟩ := loop.1 first mapping expressions
    rw [← content] at fits
    obtain ⟨added, exists_⟩ := emits.wellFormed.mergeProperties_spec merging.propertyKeys (properties emits)
    obtain ⟨second, counted⟩ := Option.isSome_iff_exists.mp (exists_ fits.left)
    obtain ⟨emits', -, content'⟩ := added second counted
    rw [← content'] at fits
    obtain ⟨subclass, equivalent, groups, ranges, found1, found2, found3, found4, summable, -⟩ :=
      tables (emits.silent emits') (maps.extends emits'.extension) length
    obtain ⟨features, summed⟩ := Option.isSome_iff_exists.mp (summable fits)
    refine Option.isSome_iff_exists.mpr ⟨(second.appendTables transaction subclass equivalent groups ranges features,
      mapping), ?_⟩
    refine Option.bind_eq_some_iff.mpr ⟨_, expressions, ?_⟩
    refine Option.bind_eq_some_iff.mpr ⟨_, counted, ?_⟩
    refine Option.bind_eq_some_iff.mpr ⟨_, found1, ?_⟩
    refine Option.bind_eq_some_iff.mpr ⟨_, found2, ?_⟩
    refine Option.bind_eq_some_iff.mpr ⟨_, found3, ?_⟩
    refine Option.bind_eq_some_iff.mpr ⟨_, found4, ?_⟩
    exact Option.bind_eq_some_iff.mpr ⟨_, summed, rfl⟩

end

end

end MutableIndex

end PyElk
