import PyElk.Indexing.Content

namespace PyElk

/-- A loop whose turns all succeed, seen through an image of its values. -/
theorem mapM_image {α β γ : Type} {step : α → Option β} {good : β → Prop} {image : β → γ} {source : α → γ}
    {rows : List α}
    (single : ∀ row ∈ rows, ∃ value, step row = some value ∧ good value ∧ image value = source row) :
    ∃ values, rows.mapM step = some values ∧ (∀ value ∈ values, good value) ∧ values.map image = rows.map source := by
  induction rows with
  | nil => exact ⟨[], rfl, fun value member => absurd member List.not_mem_nil, rfl⟩
  | cons row rest ih =>
    rw [List.forall_mem_cons] at single
    obtain ⟨value, first, right, same⟩ := single.1
    obtain ⟨values, others, rights, sames⟩ := ih single.2
    refine ⟨value :: values, ?_, List.forall_mem_cons.mpr ⟨right, rights⟩, ?_⟩
    · rw [List.mapM_cons, first, others]
      rfl
    · rw [List.map_cons, List.map_cons, same, sames]

/-- A key keeps its shape when its operands are renamed. -/
theorem ExpressionKey.Shaped.translate {key : ExpressionKey} {expressions : List Nat} (shaped : key.Shaped)
    (length : expressions.length = key.expressions.length) : ({ key with expressions := expressions }).Shaped := by
  obtain ⟨tag, entities, operands, payload⟩ := key
  have least : 2 ≤ operands.length → 2 ≤ expressions.length := fun many => many.trans_eq length.symm
  -- only the number of operands is looked at
  rcases operands with _ | ⟨_, _ | ⟨_, _ | ⟨_, operands⟩⟩⟩ <;>
    rcases expressions with _ | ⟨_, _ | ⟨_, _ | ⟨_, expressions⟩⟩⟩ <;>
    simp only [List.length_cons, List.length_nil, Nat.reduceAdd, Nat.reduceEqDiff, Nat.add_eq_zero_iff, reduceCtorEq,
      one_ne_zero, and_false] at length <;>
    cases tag <;> rcases entities with _ | ⟨_, _ | _⟩ <;> rcases payload with _ | _ <;>
    first | exact shaped | exact least shaped

namespace MutableIndex

/-- One turn of the first loop of `merge`: the key over the handles of this index. -/
def mergeExpression (index : MutableIndex) (mapping : List Nat) (key : ExpressionKey) (counts : Occurrence) :
    Option (MutableIndex × Nat) := do
  let expressions ← key.expressions.mapM fun item => mapping[item]?
  let (index, translated) ← index.internExpression { key with expressions := expressions } ⟨0, 0⟩
  let index ← index.addOccurrence translated counts
  pure (index, translated)

/-- The first loop of `merge`, which maps the handles of a transaction in their order. -/
def mergeExpressions (occurrences : List Occurrence) :
    List ExpressionKey → MutableIndex → List Nat → Option (MutableIndex × List Nat)
  | [], index, mapping => some (index, mapping)
  | key :: rest, index, mapping => do
    let counts ← occurrences[mapping.length]?
    let (index, translated) ← index.mergeExpression mapping key counts
    mergeExpressions occurrences rest index (mapping ++ [translated])

/-- `_checked_add` on each feature counter. -/
def mergeFeatures : List Nat → List Nat → Option (List Nat)
  | counts, [] => some counts
  | [], _ :: _ => none
  | current :: counts, increment :: others =>
    if current + increment ≤ U64_MAX then (mergeFeatures counts others).map fun rest => (current + increment) :: rest
    else none

/-- The tables of an index with those of a transaction, whose handles are mapped. -/
def appendTables (index transaction : MutableIndex) (subclassAxioms equivalentClassAxioms : List (Nat × Nat))
    (disjointGroups : List (List Nat)) (propertyRanges : List (EntityRecord × Nat)) (featureCounts : List Nat) :
    MutableIndex :=
  { index with
    propertyChains := index.propertyChains ++ transaction.propertyChains
    subclassAxioms := index.subclassAxioms ++ subclassAxioms
    equivalentClassAxioms := index.equivalentClassAxioms ++ equivalentClassAxioms
    disjointGroups := index.disjointGroups ++ disjointGroups
    subpropertyAxioms := index.subpropertyAxioms ++ transaction.subpropertyAxioms
    propertyRanges := index.propertyRanges ++ propertyRanges
    featureCounts := featureCounts }

/-- `OntologyBuilder.merge`, with the mapping of the handles of the transaction. -/
def merge (index transaction : MutableIndex) : Option (MutableIndex × List Nat) := do
  let pair := fun (mapping : List Nat) (row : Nat × Nat) => do pure (← mapping[row.1]?, ← mapping[row.2]?)
  let index := { index with entities := index.entities ++ transaction.entities }
  let (index, mapping) ← mergeExpressions transaction.expressionOccurrences transaction.expressions index []
  let index ← transaction.propertyOccurrences.foldlM (fun index row => index.addPropertyOccurrence row.1 row.2) index
  let subclassAxioms ← transaction.subclassAxioms.mapM (pair mapping)
  let equivalentClassAxioms ← transaction.equivalentClassAxioms.mapM (pair mapping)
  let disjointGroups ← transaction.disjointGroups.mapM fun group => group.mapM fun item => mapping[item]?
  let propertyRanges ← transaction.propertyRanges.mapM fun row => do pure (row.1, ← mapping[row.2]?)
  let featureCounts ← mergeFeatures index.featureCounts transaction.featureCounts
  pure (index.appendTables transaction subclassAxioms equivalentClassAxioms disjointGroups propertyRanges
    featureCounts,
    mapping)

/-- The expression that a key stands for in an index. -/
def keyTree (index : MutableIndex) (key : ExpressionKey) : ExpressionTree :=
  .node key.tag key.entities (key.expressions.map index.tree) key.payload

section

variable {index later : MutableIndex}

theorem Extends.mem_trees (extension : index.Extends later) {expression : ExpressionTree}
    (member : expression ∈ index.content.trees) : expression ∈ later.content.trees := by
  obtain ⟨handle, bound, rfl⟩ := member
  exact ⟨handle, extension.lt bound, extension.tree bound⟩

/-- The rows of a well formed index keep their meaning while it grows. -/
theorem WellFormed.rows_eq (wellFormed : index.WellFormed) (extension : index.Extends later)
    (same : index.SameRows later) :
    later.rows = index.rows :=
  extension.rows_eq wellFormed same.subclass same.equivalent same.disjoint same.subproperty same.ranges

/-- Interning a key adds its expression and nothing to the counters. -/
theorem WellFormed.intern_content (wellFormed : index.WellFormed) {key : ExpressionKey} (shaped : key.Shaped)
    (bound : ∀ operand ∈ key.expressions, operand < index.expressions.length)
    (named : ∀ entity ∈ key.entities, entity.iri ≠ "") (known : key.entities ⊆ index.entities) :
    (index.intern key).content = index.content + Content.single (index.keyTree key) := by
  have emits := wellFormed.intern shaped bound named
  have coherent := emits.wellFormed.toCoherent
  obtain ⟨-, -, properties, same⟩ := index.intern_grows key
  have place := index.intern_key key
  have here := (List.getElem?_eq_some_iff.mp place).1
  have placed : (index.intern key).tree (index.expressions.idxOf key) = index.keyTree key := by
    rw [MutableIndex.tree, treeOf_entry coherent.operands place, keyTree]
    exact congrArg (fun operands => ExpressionTree.node key.tag key.entities operands key.payload)
      (emits.extension.map_tree bound)
  have rows : (index.intern key).rows = index.rows :=
    wellFormed.rows_eq emits.extension (by constructor <;> rw [same])
  have chains : (index.intern key).propertyChains = index.propertyChains := by rw [same]
  have features : (index.intern key).featureCounts = index.featureCounts := by rw [same]
  have counters : (index.intern key).propertyOccurrences = index.propertyOccurrences := by
    unfold MutableIndex.intern
    dsimp only
    split <;> rfl
  have entities : ∀ entity, entity ∈ (index.intern key).entities ↔ entity ∈ index.entities := by
    intro entity
    have joined : (index.intern key).entities = index.entities ++ key.entities := by
      unfold MutableIndex.intern
      dsimp only
      split <;> rfl
    rw [joined, List.mem_append]
    exact or_iff_left_of_imp fun member => known member
  have trees : ∀ expression, expression ∈ (index.intern key).content.trees ↔
      expression ∈ index.content.trees ∨ expression = index.keyTree key := by
    intro expression
    constructor
    · rintro ⟨handle, inside, rfl⟩
      by_cases old : handle < index.expressions.length
      · exact Or.inl ⟨handle, old, (emits.extension.tree old).symm⟩
      · refine Or.inr ?_
        rw [← placed]
        have last : handle = index.expressions.idxOf key := by
          unfold MutableIndex.intern at inside
          dsimp only at inside
          split at inside
          · exact absurd inside old
          · rename_i novel
            rw [List.length_append, List.length_singleton] at inside
            rw [List.idxOf_of_notMem novel]
            omega
        rw [last]
    · rintro (old | rfl)
      · exact emits.extension.mem_trees old
      · exact ⟨_, here, placed⟩
  have occurrence : (index.intern key).occurrence = index.occurrence := by
    funext expression
    by_cases old : expression ∈ index.content.trees
    · obtain ⟨handle, inside, rfl⟩ := old
      rw [wellFormed.occurrence_tree inside, ← emits.extension.tree inside,
        coherent.occurrence_tree (emits.extension.lt inside)]
      have counted : handle < index.expressionOccurrences.length := wellFormed.counted ▸ inside
      unfold MutableIndex.intern
      dsimp only
      split
      · rfl
      · rw [List.getD_eq_getElem?_getD, List.getElem?_append_left counted, List.getD_eq_getElem?_getD]
    · rw [occurrence_absent old]
      by_cases new : expression ∈ (index.intern key).content.trees
      · rw [(trees expression).mp new |>.resolve_left old, ← placed, coherent.occurrence_tree here]
        have novel : key ∉ index.expressions := by
          intro member
          refine old ((trees expression).mp new |>.resolve_left old |>.symm ▸ ⟨index.expressions.idxOf key, ?_, ?_⟩)
          · exact List.idxOf_lt_length_of_mem member
          · rw [← placed, emits.extension.tree (List.idxOf_lt_length_of_mem member)]
        unfold MutableIndex.intern
        rw [List.idxOf_of_notMem novel, ← wellFormed.counted]
        dsimp only
        rw [if_neg novel, List.getD_eq_getElem?_getD, List.getElem?_concat_length]
        rfl
      · exact occurrence_absent new
  refine Content.ext ?_ ?_ ?_ ?_ ?_ ?_ ?_
  · exact (Set.ext entities).trans (Set.union_empty _).symm
  · exact Set.ext trees
  · exact occurrence.trans (add_zero _).symm
  · change (fun entity => ((index.intern key).propertyOccurrences.lookup entity).getD ⟨0, 0⟩) = _
    rw [counters]
    exact (add_zero _).symm
  · change {chain | chain ∈ (index.intern key).propertyChains} = _
    rw [chains]
    exact (Set.union_empty _).symm
  · change {row | row ∈ (index.intern key).rows} = _
    rw [rows]
    exact (Set.union_empty _).symm
  · change (fun feature => (index.intern key).featureCounts.getD feature 0) = _
    rw [features]
    exact (add_zero _).symm

/-- Counting at a handle adds to the counters of its expression. -/
theorem WellFormed.addOccurrence_content (wellFormed : index.WellFormed) {handle : Nat} {counts : Occurrence}
    (bound : handle < index.expressions.length) (added : index.addOccurrence handle counts = some later) :
    later.content = index.content + Content.counter (index.tree handle) counts := by
  have emits := wellFormed.addOccurrence added
  obtain ⟨total, sum, rfl⟩ := Option.map_eq_some_iff.mp added
  obtain ⟨-, rfl⟩ := Occurrence.checkedAdd_eq_some.mp sum
  have counted : handle < index.expressionOccurrences.length := wellFormed.counted ▸ bound
  refine Content.ext (Set.union_empty _).symm (Set.union_empty _).symm ?_ (add_zero _).symm (Set.union_empty _).symm
    (Set.union_empty _).symm (add_zero _).symm
  funext expression
  change MutableIndex.occurrence _ expression = index.occurrence expression +
    Function.update (0 : ExpressionTree → Occurrence) (index.tree handle) counts expression
  by_cases present : expression ∈ index.content.trees
  · obtain ⟨other, inside, rfl⟩ := present
    rw [wellFormed.occurrence_tree inside]
    refine (emits.wellFormed.occurrence_tree inside).trans ?_
    by_cases same : handle = other
    · subst same
      rw [Function.update_self, List.getD_eq_getElem?_getD, List.getElem?_set_self counted, Option.getD_some]
    · have apart : index.tree other ≠ index.tree handle :=
        fun equal => same (wellFormed.tree_injective inside bound equal).symm
      rw [Function.update_of_ne apart, List.getD_eq_getElem?_getD, List.getElem?_set_ne same,
        List.getD_eq_getElem?_getD]
      exact (add_zero _).symm
  · have apart : expression ≠ index.tree handle := fun equal => present ⟨handle, bound, equal.symm⟩
    rw [occurrence_absent present, Function.update_of_ne apart]
    exact occurrence_absent present

/-- The counters of a handle take what fits the unsigned 64-bit range. -/
theorem WellFormed.addOccurrence_isSome (wellFormed : index.WellFormed) {handle : Nat} {counts : Occurrence}
    (bound : handle < index.expressions.length) :
    (index.addOccurrence handle counts).isSome ↔ (index.occurrence (index.tree handle) + counts).Fits := by
  rw [MutableIndex.addOccurrence, Option.isSome_map, wellFormed.occurrence_tree bound, Option.isSome_iff_exists]
  simp only [Occurrence.checkedAdd_eq_some, exists_and_left, exists_eq', and_true]

section

variable (wellFormed : index.WellFormed) {mapping : List Nat} {key : ExpressionKey} {expressions : List Nat}
  {counts : Occurrence} (operands : key.expressions.mapM (fun item => mapping[item]?) = some expressions)
  (shaped : ExpressionKey.Shaped { key with expressions := expressions })
  (bound : ∀ operand ∈ expressions, operand < index.expressions.length)
  (named : ∀ entity ∈ key.entities, entity.iri ≠ "") (known : key.entities ⊆ index.entities)

include wellFormed operands shaped bound named known

/-- One turn of the loop over the expressions of a transaction. -/
theorem WellFormed.mergeExpression_spec {handle : Nat}
    (merged : index.mergeExpression mapping key counts = some (later, handle)) :
    index.Emits later [] ∧ handle < later.expressions.length ∧
      later.tree handle = index.keyTree { key with expressions := expressions } ∧
      later.content = index.content + (Content.single (index.keyTree { key with expressions := expressions }) +
        Content.counter (index.keyTree { key with expressions := expressions }) counts) := by
  obtain ⟨found, readOperands, merged⟩ := Option.bind_eq_some_iff.mp merged
  cases readOperands.symm.trans operands
  obtain ⟨⟨first, translated⟩, interned, merged⟩ := Option.bind_eq_some_iff.mp merged
  obtain ⟨second, counted, last⟩ := Option.bind_eq_some_iff.mp merged
  cases last
  obtain ⟨emits, inside, tree⟩ := wellFormed.internExpression shaped bound named interned
  obtain ⟨silent, added, same⟩ := Option.map_eq_some_iff.mp interned
  cases same
  have plain := (wellFormed.intern shaped bound named).wellFormed
  have place := (List.getElem?_eq_some_iff.mp (index.intern_key { key with expressions := expressions })).1
  have emits' := emits.wellFormed.addOccurrence counted
  have content := plain.addOccurrence_content place added
  have nothing : ∀ expression, Content.counter expression ⟨0, 0⟩ = 0 := Content.counter_zero
  rw [nothing, add_zero, wellFormed.intern_content shaped bound named known] at content
  refine ⟨emits.silent emits', emits'.extension.lt inside, (emits'.extension.tree inside).trans tree, ?_⟩
  rw [emits.wellFormed.addOccurrence_content inside counted, content, tree, add_assoc]
  rfl

/-- One turn succeeds when its sum fits the unsigned 64-bit range. -/
theorem WellFormed.mergeExpression_isSome
    (fits : (index.occurrence (index.keyTree { key with expressions := expressions }) + counts).Fits) :
    ∃ merged, index.mergeExpression mapping key counts = some merged := by
  have plain := (wellFormed.intern shaped bound named).wellFormed
  have place := (List.getElem?_eq_some_iff.mp (index.intern_key { key with expressions := expressions })).1
  obtain ⟨first, added⟩ := Option.isSome_iff_exists.mp ((plain.addOccurrence_isSome place).mpr
    (show (_ + (⟨0, 0⟩ : Occurrence)).Fits from plain.content_fits.counts _))
  have interned : index.internExpression { key with expressions := expressions } ⟨0, 0⟩ =
      some (first, index.expressions.idxOf { key with expressions := expressions }) := by
    rw [MutableIndex.internExpression, added]
    rfl
  obtain ⟨emits, inside, tree⟩ := wellFormed.internExpression shaped bound named interned
  have content := plain.addOccurrence_content place added
  have nothing : ∀ expression, Content.counter expression ⟨0, 0⟩ = 0 := Content.counter_zero
  rw [nothing, add_zero, wellFormed.intern_content shaped bound named known] at content
  have same : first.occurrence = index.occurrence := (congrArg Content.counts content).trans (add_zero _)
  obtain ⟨second, counted⟩ := Option.isSome_iff_exists.mp ((emits.wellFormed.addOccurrence_isSome inside).mpr
    (by rw [tree, same]; exact fits))
  refine ⟨(second, index.expressions.idxOf { key with expressions := expressions }),
    Option.bind_eq_some_iff.mpr ⟨_, operands, ?_⟩⟩
  refine Option.bind_eq_some_iff.mpr ⟨_, interned, ?_⟩
  exact Option.bind_eq_some_iff.mpr ⟨_, counted, rfl⟩

end

/-- The expressions of a transaction from a handle on, with their counters. -/
noncomputable def expressionsFrom (transaction : MutableIndex) (first : Nat) : Content :=
  let later : Set ExpressionTree :=
    {expression | ∃ handle, first ≤ handle ∧ handle < transaction.expressions.length ∧
      transaction.tree handle = expression}
  open Classical in
  { (0 : Content) with
    trees := later
    counts := fun expression => if expression ∈ later then transaction.occurrence expression else 0 }

section

variable {transaction : MutableIndex}

theorem expressionsFrom_end : transaction.expressionsFrom transaction.expressions.length = 0 := by
  have nothing : ∀ expression, expression ∉ (transaction.expressionsFrom transaction.expressions.length).trees := by
    rintro expression ⟨handle, first, last, -⟩
    exact absurd first (not_le.mpr last)
  refine Content.ext rfl (Set.eq_empty_iff_forall_notMem.mpr nothing) ?_ rfl rfl rfl rfl
  exact funext fun expression => if_neg (nothing expression)

open Classical in
theorem Coherent.expressionsFrom_step (coherent : transaction.Coherent) {handle : Nat}
    (bound : handle < transaction.expressions.length) : transaction.expressionsFrom handle =
      (Content.single (transaction.tree handle) +
        Content.counter (transaction.tree handle) (transaction.expressionOccurrences.getD handle ⟨0, 0⟩)) +
      transaction.expressionsFrom (handle + 1) := by
  have split : ∀ expression, expression ∈ (transaction.expressionsFrom handle).trees ↔
      expression = transaction.tree handle ∨ expression ∈ (transaction.expressionsFrom (handle + 1)).trees := by
    intro expression
    constructor
    · rintro ⟨other, first, last, rfl⟩
      rcases first.eq_or_lt with rfl | after
      · exact Or.inl rfl
      · exact Or.inr ⟨other, after, last, rfl⟩
    · rintro (rfl | ⟨other, first, last, rfl⟩)
      · exact ⟨handle, le_rfl, bound, rfl⟩
      · exact ⟨other, Nat.le_of_succ_le first, last, rfl⟩
  have fresh : transaction.tree handle ∉ (transaction.expressionsFrom (handle + 1)).trees := by
    rintro ⟨other, first, last, same⟩
    exact absurd (coherent.tree_injective last bound same) (Nat.ne_of_gt first)
  have empty : ∀ {α : Type}, (∅ : Set α) = ∅ ∪ ∅ ∪ ∅ := fun {_} => by rw [Set.union_self, Set.union_self]
  have zero : ∀ {α β : Type} [AddMonoid β], (0 : α → β) = 0 + 0 + 0 := fun {_ _} _ => by rw [add_zero, add_zero]
  refine Content.ext empty ?_ ?_ zero empty empty zero
  · refine (Set.ext split).trans ?_
    change _ = ({transaction.tree handle} ∪ ∅) ∪ (transaction.expressionsFrom (handle + 1)).trees
    rw [Set.union_empty]
    rfl
  · funext expression
    change (if expression ∈ (transaction.expressionsFrom handle).trees then
      transaction.occurrence expression else 0) =
      0 + Function.update (0 : ExpressionTree → Occurrence) (transaction.tree handle)
        (transaction.expressionOccurrences.getD handle ⟨0, 0⟩) expression +
        if expression ∈ (transaction.expressionsFrom (handle + 1)).trees then transaction.occurrence expression else 0
    rw [zero_add]
    by_cases here : expression = transaction.tree handle
    · rw [here, if_pos ((split _).mpr (Or.inl rfl)), if_neg fresh, Function.update_self,
        coherent.occurrence_tree bound,
        add_zero]
    · rw [Function.update_of_ne here, Pi.zero_apply, zero_add]
      refine if_congr ((split expression).trans (or_iff_right here)) rfl rfl

open Classical in
theorem expressionsFrom_zero (transaction : MutableIndex) : transaction.expressionsFrom 0 =
    { (0 : Content) with trees := transaction.content.trees, counts := transaction.content.counts } := by
  have all : ∀ expression, expression ∈ (transaction.expressionsFrom 0).trees ↔
    expression ∈ transaction.content.trees :=
    fun expression => ⟨fun ⟨handle, _, bound, same⟩ => ⟨handle, bound, same⟩,
      fun ⟨handle, bound, same⟩ => ⟨handle, Nat.zero_le _, bound, same⟩⟩
  refine Content.ext rfl (Set.ext all) ?_ rfl rfl rfl rfl
  funext expression
  change (if expression ∈ (transaction.expressionsFrom 0).trees then transaction.occurrence expression else 0) =
    transaction.occurrence expression
  split
  · rfl
  · rename_i absent
    exact (occurrence_absent fun present => absent ((all expression).mpr present)).symm

/-- The mapping of the first handles of a transaction to handles of an index. -/
structure Maps (transaction index : MutableIndex) (mapping : List Nat) : Prop where
  bound : ∀ handle ∈ mapping, handle < index.expressions.length
  tree : ∀ (item handle : Nat), mapping[item]? = some handle → index.tree handle = transaction.tree item

theorem Maps.extends {mapping : List Nat} (maps : transaction.Maps index mapping) (extension : index.Extends later) :
    transaction.Maps later mapping :=
  ⟨fun handle member => extension.lt (maps.bound handle member), fun item handle found =>
    (extension.tree (maps.bound handle (List.mem_of_getElem? found))).trans (maps.tree item handle found)⟩

theorem Maps.handle {mapping : List Nat} (maps : transaction.Maps index mapping) {item : Nat}
    (below : item < mapping.length) :
    ∃ handle, mapping[item]? = some handle ∧ handle < index.expressions.length ∧
      index.tree handle = transaction.tree item := by
  have found := List.getElem?_eq_getElem below
  exact ⟨mapping[item], found, maps.bound _ (List.getElem_mem below), maps.tree item _ found⟩

/-- Handles below the mapped ones are translated, to the same expressions. -/
theorem Maps.translate {mapping : List Nat} (maps : transaction.Maps index mapping) {items : List Nat}
    (below : ∀ item ∈ items, item < mapping.length) :
    ∃ handles, items.mapM (fun item => mapping[item]?) = some handles ∧
      (∀ handle ∈ handles, handle < index.expressions.length) ∧ handles.map index.tree = items.map transaction.tree :=
  mapM_image fun item member => maps.handle (below item member)

/-- One more handle is mapped to a handle of the same expression. -/
theorem Maps.snoc {mapping : List Nat} (maps : transaction.Maps index mapping) {handle : Nat}
    (bound : handle < index.expressions.length) (tree : index.tree handle = transaction.tree mapping.length) :
    transaction.Maps index (mapping ++ [handle]) := by
  refine ⟨fun other member => ?_, fun item other found => ?_⟩
  · rcases List.mem_append.mp member with old | new
    · exact maps.bound other old
    · exact List.mem_singleton.mp new ▸ bound
  · by_cases old : item < mapping.length
    · rw [List.getElem?_append_left old] at found
      exact maps.tree item other found
    · have last : item = mapping.length := by
        have small := (List.getElem?_eq_some_iff.mp found).1
        rw [List.length_append, List.length_singleton] at small
        omega
      rw [last, List.getElem?_concat_length] at found
      cases found
      rw [tree, last]

/-- The next key of a transaction over the handles of an index. -/
theorem WellFormed.mergeKey (merging : transaction.WellFormed) {mapping : List Nat}
    (maps : transaction.Maps index mapping)
    {key : ExpressionKey} (entry : transaction.expressions[mapping.length]? = some key) :
    ∃ handles, (key.expressions.mapM fun item => mapping[item]?) = some handles ∧
      (∀ handle ∈ handles, handle < index.expressions.length) ∧
      ExpressionKey.Shaped { key with expressions := handles } ∧
      index.keyTree { key with expressions := handles } = transaction.tree mapping.length := by
  obtain ⟨handles, operands, bounds, trees⟩ := maps.translate (merging.operands mapping.length key entry)
  have length : handles.length = key.expressions.length := by
    rw [← List.length_map index.tree, trees, List.length_map]
  refine ⟨handles, operands, bounds, (merging.shaped key (List.mem_of_getElem? entry)).translate length, ?_⟩
  rw [MutableIndex.tree, treeOf_entry merging.operands entry, keyTree]
  exact congrArg (fun operands => ExpressionTree.node key.tag key.entities operands key.payload) trees

theorem Coherent.counted_entry (coherent : transaction.Coherent) {handle : Nat}
    (inside : handle < transaction.expressions.length) :
    transaction.expressionOccurrences[handle]? = some (transaction.expressionOccurrences.getD handle ⟨0, 0⟩) := by
  have bound : handle < transaction.expressionOccurrences.length := coherent.counted ▸ inside
  rw [List.getD_eq_getElem?_getD, List.getElem?_eq_getElem bound]
  rfl

/-- The first loop of `merge` from some handle of the transaction on. -/
theorem WellFormed.mergeExpressions_spec (merging : transaction.WellFormed) {index : MutableIndex}
    {mapping : List Nat}
    {keys : List ExpressionKey} (wellFormed : index.WellFormed) (known : transaction.entities ⊆ index.entities)
    (maps : transaction.Maps index mapping) (rest : transaction.expressions.drop mapping.length = keys)
    (few : mapping.length ≤ transaction.expressions.length) :
    (∀ later final, mergeExpressions transaction.expressionOccurrences keys index mapping = some (later, final) →
      index.Emits later [] ∧ transaction.Maps later final ∧ final.length = transaction.expressions.length ∧
        later.content = index.content + transaction.expressionsFrom mapping.length) ∧
    ((index.content + transaction.expressionsFrom mapping.length).Fits →
      (mergeExpressions transaction.expressionOccurrences keys index mapping).isSome) := by
  induction keys generalizing index mapping with
  | nil =>
    have complete : mapping.length = transaction.expressions.length :=
      le_antisymm few (List.drop_eq_nil_iff.mp rest)
    refine ⟨fun later final done => ?_, fun _ => rfl⟩
    cases done
    exact ⟨.refl wellFormed, maps, complete, by rw [complete, expressionsFrom_end, add_zero]⟩
  | cons key keys ih =>
    have inside : mapping.length < transaction.expressions.length := by
      refine lt_of_le_of_ne few fun same => ?_
      rw [same, List.drop_length] at rest
      cases rest
    rw [List.drop_eq_getElem_cons inside] at rest
    obtain ⟨here, after⟩ := List.cons.inj rest
    have entry : transaction.expressions[mapping.length]? = some key := by
      rw [List.getElem?_eq_getElem inside, here]
    have member := List.mem_of_getElem? entry
    obtain ⟨handles, operands, bounds, shaped, tree⟩ := merging.mergeKey maps entry
    have named : ∀ entity ∈ key.entities, entity.iri ≠ "" := fun entity found =>
      merging.named entity (merging.known key member found)
    have entities : key.entities ⊆ index.entities := List.Subset.trans (merging.known key member) known
    have counted := merging.counted_entry inside
    rw [merging.expressionsFrom_step inside, ← tree]
    have step : ∀ {later : MutableIndex} {handle : Nat},
        index.mergeExpression mapping key (transaction.expressionOccurrences.getD mapping.length ⟨0, 0⟩) =
          some (later, handle) →
        index.Emits later [] ∧ transaction.Maps later (mapping ++ [handle]) ∧
          later.content = index.content + (Content.single (index.keyTree { key with expressions := handles }) +
            Content.counter (index.keyTree { key with expressions := handles })
              (transaction.expressionOccurrences.getD mapping.length ⟨0, 0⟩)) := by
      intro later handle merged
      obtain ⟨emits, bound, place, content⟩ :=
        wellFormed.mergeExpression_spec operands shaped bounds named entities merged
      exact ⟨emits, (maps.extends emits.extension).snoc bound (place.trans tree), content⟩
    have size : ∀ handle, (mapping ++ [handle]).length = mapping.length + 1 := fun handle => List.length_append
    constructor
    · intro later final done
      obtain ⟨counts, found, done⟩ := Option.bind_eq_some_iff.mp done
      cases found.symm.trans counted
      obtain ⟨⟨next, handle⟩, merged, done⟩ := Option.bind_eq_some_iff.mp done
      obtain ⟨emits, mapped, content⟩ := step merged
      have next := ih emits.wellFormed (List.Subset.trans known emits.extension.entities) mapped
        (by rw [size, after]) (by rw [size]; exact inside)
      obtain ⟨emits', mapped', length', content'⟩ := next.1 later final done
      rw [size] at content'
      exact ⟨emits.silent emits', mapped', length', by rw [content', content, add_assoc]⟩
    · intro fits
      rw [← add_assoc] at fits
      have sum : (index.occurrence (index.keyTree { key with expressions := handles }) +
          transaction.expressionOccurrences.getD mapping.length ⟨0, 0⟩).Fits := by
        have whole := fits.left.counts (index.keyTree { key with expressions := handles })
        change (index.occurrence _ + (0 + Function.update (0 : ExpressionTree → Occurrence) _ _ _)).Fits at whole
        rwa [Function.update_self, zero_add] at whole
      obtain ⟨⟨next, handle⟩, merged⟩ := wellFormed.mergeExpression_isSome operands shaped bounds named entities sum
      obtain ⟨emits, mapped, content⟩ := step merged
      have next := ih emits.wellFormed (List.Subset.trans known emits.extension.entities) mapped
        (by rw [size, after]) (by rw [size]; exact inside)
      rw [size, content] at next
      rw [mergeExpressions, counted]
      simp only [Option.bind_eq_bind, Option.bind_some, merged]
      exact next.2 fits

end

end

end MutableIndex

end PyElk
