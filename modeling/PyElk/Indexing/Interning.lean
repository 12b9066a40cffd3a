import PyElk.Indexing.Builder

namespace PyElk

/-- One transaction grows into another: keys keep their handles and nothing else
than the entities, the keys and their counters changes. -/
structure MutableIndex.Grows (index grown : MutableIndex) : Prop where
  expressions : index.expressions <+: grown.expressions
  entities : index.entities ⊆ grown.entities
  rows : ∃ properties, grown =
    { index with entities := grown.entities, expressions := grown.expressions
                 expressionOccurrences := grown.expressionOccurrences, propertyOccurrences := properties }

section

variable {index grown more : MutableIndex}

theorem MutableIndex.Grows.refl : index.Grows index := ⟨List.prefix_rfl, List.Subset.refl _, _, rfl⟩

theorem MutableIndex.Grows.trans (left : index.Grows grown) (right : grown.Grows more) : index.Grows more := by
  obtain ⟨properties, same⟩ := left.rows
  obtain ⟨properties', same'⟩ := right.rows
  refine ⟨left.expressions.trans right.expressions, List.Subset.trans left.entities right.entities, properties', ?_⟩
  rw [same', same]

/-- A handle keeps its key when the index grows. -/
theorem MutableIndex.Grows.key (grows : index.Grows grown) {handle : Nat} {key : ExpressionKey}
    (entry : index.expressions[handle]? = some key) : grown.expressions[handle]? = some key := by
  obtain ⟨rest, same⟩ := grows.expressions
  rw [← same, List.getElem?_append_left (List.getElem?_eq_some_iff.mp entry).1, entry]

/-- Interning only appends. -/
theorem MutableIndex.intern_grows (index : MutableIndex) (key : ExpressionKey) : index.Grows (index.intern key) := by
  unfold intern
  dsimp only
  split
  · exact ⟨List.prefix_rfl, List.subset_append_left _ _, _, rfl⟩
  · exact ⟨List.prefix_append _ _, List.subset_append_left _ _, _, rfl⟩

/-- An interned key is found at its handle. -/
theorem MutableIndex.intern_key (index : MutableIndex) (key : ExpressionKey) :
    (index.intern key).expressions[index.expressions.idxOf key]? = some key := by
  unfold intern
  dsimp only
  split
  · rename_i known
    exact List.getElem?_idxOf known
  · rename_i novel
    rw [List.idxOf_of_notMem novel]
    exact List.getElem?_concat_length

theorem MutableIndex.intern_entities (index : MutableIndex) (key : ExpressionKey) :
    key.entities ⊆ (index.intern key).entities := by
  unfold intern
  dsimp only
  split <;> exact List.subset_append_right _ _

/-- Counting an occurrence changes counters only. -/
theorem MutableIndex.addOccurrence_spec {handle : Nat} {counts : Occurrence}
    (added : index.addOccurrence handle counts = some grown) :
    index.Grows grown ∧ grown.expressions = index.expressions ∧ grown.entities = index.entities := by
  obtain ⟨total, _, rfl⟩ := Option.map_eq_some_iff.mp added
  exact ⟨⟨List.prefix_rfl, List.Subset.refl _, _, rfl⟩, rfl, rfl⟩

theorem MutableIndex.ensureNamedExpressions_grows (index : MutableIndex) :
    index.Grows index.ensureNamedExpressions := by
  unfold ensureNamedExpressions
  generalize index.entities = entities
  induction entities generalizing index with
  | nil => exact .refl
  | cons entity rest ih =>
    rw [List.foldl_cons]
    refine Grows.trans ?_ (ih _)
    split
    · exact index.intern_grows _
    · exact index.intern_grows _
    · exact .refl

end

end PyElk
