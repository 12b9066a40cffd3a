import PyElk.Indexing.Trees

namespace PyElk

/-- A normalized row over expressions without handles. -/
inductive NormalRow
  | subclass (sub super : ExpressionTree)
  | equivalent (first second : ExpressionTree)
  | disjoint (group : List ExpressionTree)
  | subproperty (chain : List EntityRecord) (super : EntityRecord)
  | range (property : EntityRecord) (range : ExpressionTree)

namespace MutableIndex

/-- The expression behind a handle of an index. -/
def tree (index : MutableIndex) (handle : Nat) : ExpressionTree := treeOf index.expressions handle

/-- The rows of an index, read back through its handles. -/
def rows (index : MutableIndex) : List NormalRow :=
  index.subclassAxioms.map (fun row => .subclass (index.tree row.1) (index.tree row.2)) ++
  index.equivalentClassAxioms.map (fun row => .equivalent (index.tree row.1) (index.tree row.2)) ++
  index.disjointGroups.map (fun group => .disjoint (group.map index.tree)) ++
  index.subpropertyAxioms.map (fun row => .subproperty row.1 row.2) ++
  index.propertyRanges.map (fun row => .range row.1 (index.tree row.2))

end MutableIndex

/-- The entities, operands and payload that each tag takes. -/
def ExpressionKey.Shaped : ExpressionKey → Prop
  | ⟨.owlClass, [entity], [], []⟩ => entity.kind = .owlClass
  | ⟨.individual, [entity], [], []⟩ => entity.kind = .namedIndividual
  | ⟨.objectIntersectionOf, [], [_, _], []⟩ => True
  | ⟨.objectSomeValuesFrom, [property], [_], []⟩ => property.kind = .objectProperty
  | ⟨.objectHasSelf, [property], [], []⟩ => property.kind = .objectProperty
  | ⟨.dataHasValue, [property], [], payload⟩ => property.kind = .dataProperty ∧ payload ≠ []
  | ⟨.objectComplementOf, [], [_], []⟩ => True
  | ⟨.objectUnionOf, [], operands, []⟩ => 2 ≤ operands.length
  | _ => False

/-- Both counters stay in the unsigned 64-bit range. -/
def Occurrence.Fits (counts : Occurrence) : Prop := counts.negative ≤ U64_MAX ∧ counts.positive ≤ U64_MAX

/-- What the operations of a transaction keep true of its expressions and counters. -/
structure MutableIndex.Coherent (index : MutableIndex) : Prop where
  distinct : index.expressions.Nodup
  operands : OperandsPrecede index.expressions
  shaped : ∀ key ∈ index.expressions, key.Shaped
  known : ∀ key ∈ index.expressions, key.entities ⊆ index.entities
  named : ∀ entity ∈ index.entities, entity.iri ≠ ""
  counted : index.expressionOccurrences.length = index.expressions.length
  counts : ∀ counts ∈ index.expressionOccurrences, counts.Fits
  propertyKeys : (index.propertyOccurrences.map Prod.fst).Nodup
  properties : ∀ row ∈ index.propertyOccurrences,
    row.1.kind = .objectProperty ∧ row.1 ∈ index.entities ∧ row.2.Fits
  features : index.featureCounts.length = FEATURE_VECTOR_LENGTH ∧ ∀ count ∈ index.featureCounts, count ≤ U64_MAX

/-- What the operations of a transaction keep true of it. -/
structure MutableIndex.WellFormed (index : MutableIndex) : Prop extends index.Coherent where
  chains : ∀ chain ∈ index.propertyChains,
    chain ≠ [] ∧ ∀ property ∈ chain, property.kind = .objectProperty ∧ property ∈ index.entities
  subclass : ∀ row ∈ index.subclassAxioms,
    row.1 < index.expressions.length ∧ row.2 < index.expressions.length
  equivalent : ∀ row ∈ index.equivalentClassAxioms,
    row.1 < index.expressions.length ∧ row.2 < index.expressions.length
  disjoint : ∀ group ∈ index.disjointGroups,
    2 ≤ group.length ∧ ∀ member ∈ group, member < index.expressions.length
  subproperty : ∀ row ∈ index.subpropertyAxioms,
    row.1 ∈ index.propertyChains ∧ row.2.kind = .objectProperty ∧ row.2 ∈ index.entities
  ranges : ∀ row ∈ index.propertyRanges,
    row.1.kind = .objectProperty ∧ row.1 ∈ index.entities ∧ row.2 < index.expressions.length

/-- A later state of a transaction: handles keep their expressions, entities
stay, features only count up. -/
structure MutableIndex.Extends (index later : MutableIndex) : Prop where
  expressions : index.expressions <+: later.expressions
  entities : index.entities ⊆ later.entities
  features : ∀ feature, index.featureCounts.getD feature 0 ≤ later.featureCounts.getD feature 0

/-- A later state of a transaction that has gained exactly the rows `rows`. -/
structure MutableIndex.Emits (index later : MutableIndex) (rows : List NormalRow) : Prop where
  wellFormed : later.WellFormed
  extension : index.Extends later
  rows_iff : ∀ row, row ∈ later.rows ↔ row ∈ index.rows ∨ row ∈ rows

section

variable {index later last : MutableIndex} {emitted others : List NormalRow}

theorem MutableIndex.Extends.refl : index.Extends index :=
  ⟨List.prefix_rfl, List.Subset.refl _, fun _ => le_rfl⟩

theorem MutableIndex.Extends.trans (first : index.Extends later) (second : later.Extends last) :
    index.Extends last :=
  ⟨first.expressions.trans second.expressions, List.Subset.trans first.entities second.entities,
    fun feature => (first.features feature).trans (second.features feature)⟩

theorem MutableIndex.Extends.lt (extension : index.Extends later) {handle : Nat}
    (bound : handle < index.expressions.length) : handle < later.expressions.length :=
  bound.trans_le extension.expressions.length_le

/-- A handle keeps its tree when the index grows. -/
theorem MutableIndex.Extends.tree (extension : index.Extends later) {handle : Nat}
    (bound : handle < index.expressions.length) : later.tree handle = index.tree handle :=
  treeOf_prefix extension.expressions bound

theorem MutableIndex.Extends.map_tree (extension : index.Extends later) {handles : List Nat}
    (bound : ∀ handle ∈ handles, handle < index.expressions.length) :
    handles.map later.tree = handles.map index.tree :=
  List.map_congr_left fun handle member => extension.tree (bound handle member)

/-- The rows of an index are those of its five tables, spelt out as trees. -/
theorem MutableIndex.mem_rows {row : NormalRow} : row ∈ index.rows ↔
    (∃ pair ∈ index.subclassAxioms, .subclass (index.tree pair.1) (index.tree pair.2) = row) ∨
    (∃ pair ∈ index.equivalentClassAxioms, .equivalent (index.tree pair.1) (index.tree pair.2) = row) ∨
    (∃ group ∈ index.disjointGroups, .disjoint (group.map index.tree) = row) ∨
    (∃ pair ∈ index.subpropertyAxioms, .subproperty pair.1 pair.2 = row) ∨
    ∃ pair ∈ index.propertyRanges, .range pair.1 (index.tree pair.2) = row := by
  simp only [MutableIndex.rows, List.mem_append, List.mem_map, or_assoc]

/-- The rows of a transaction only depend on its row tables. -/
theorem MutableIndex.Extends.rows_eq (extension : index.Extends later) (wellFormed : index.WellFormed)
    (subclass : later.subclassAxioms = index.subclassAxioms)
    (equivalent : later.equivalentClassAxioms = index.equivalentClassAxioms)
    (disjoint : later.disjointGroups = index.disjointGroups)
    (subproperty : later.subpropertyAxioms = index.subpropertyAxioms)
    (ranges : later.propertyRanges = index.propertyRanges) : later.rows = index.rows := by
  have pairs : ∀ {α β : Type} {values : List α} {f g : α → β}, (∀ x ∈ values, f x = g x) →
      values.map f = values.map g := fun same => List.map_congr_left same
  simp only [MutableIndex.rows, subclass, equivalent, disjoint, subproperty, ranges]
  congr 1
  · congr 2
    · congr 1
      · refine pairs fun row member => ?_
        obtain ⟨first, second⟩ := wellFormed.subclass row member
        rw [extension.tree first, extension.tree second]
      · refine pairs fun row member => ?_
        obtain ⟨first, second⟩ := wellFormed.equivalent row member
        rw [extension.tree first, extension.tree second]
    · refine pairs fun group member => ?_
      rw [extension.map_tree (wellFormed.disjoint group member).2]
  · refine pairs fun row member => ?_
    rw [extension.tree (wellFormed.ranges row member).2.2]

theorem MutableIndex.Emits.refl (wellFormed : index.WellFormed) : index.Emits index [] :=
  ⟨wellFormed, .refl, fun _ => by simp only [List.not_mem_nil, or_false]⟩

/-- What two runs emit one after the other adds up. -/
theorem MutableIndex.Emits.trans (first : index.Emits later emitted) (second : later.Emits last others) :
    index.Emits last (emitted ++ others) := by
  refine ⟨second.wellFormed, first.extension.trans second.extension, fun row => ?_⟩
  rw [second.rows_iff, first.rows_iff, List.mem_append, or_assoc]

/-- Steps without rows of their own. -/
theorem MutableIndex.Emits.silent (first : index.Emits later []) (second : later.Emits last emitted) :
    index.Emits last emitted := by
  have both := first.trans second
  rwa [List.nil_append] at both

end

end PyElk
