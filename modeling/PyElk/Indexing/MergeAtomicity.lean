import PyElk.Indexing.Atomicity

open Raising

namespace PyElk

namespace MutableIndex

section

variable {target : MutableIndex}

/-- Lists of handles with the same trees are the same list. -/
theorem Coherent.map_tree_injective (coherent : target.Coherent) {first second : List Nat}
    (firstBound : ∀ handle ∈ first, handle < target.expressions.length)
    (secondBound : ∀ handle ∈ second, handle < target.expressions.length)
    (same : first.map target.tree = second.map target.tree) : first = second := by
  induction first generalizing second with
  | nil => exact (List.map_eq_nil_iff.mp same.symm).symm
  | cons handle rest ih =>
    cases second with
    | nil => cases same
    | cons other others =>
      obtain ⟨here, later⟩ := List.cons.inj same
      obtain ⟨bound, bounds⟩ := List.forall_mem_cons.mp firstBound
      obtain ⟨bound', bounds'⟩ := List.forall_mem_cons.mp secondBound
      rw [coherent.tree_injective bound bound' here, ih bounds bounds' later]

theorem Coherent.tree_idxOf (coherent : target.Coherent) {key : ExpressionKey} (member : key ∈ target.expressions) :
    target.tree (target.expressions.idxOf key) = target.keyTree key := by
  have inside := List.idxOf_lt_length_of_mem member
  exact treeOf_entry coherent.operands (List.getElem?_eq_some_iff.mpr ⟨inside, List.getElem_idxOf inside⟩)

/-- A key is interned when some handle stands for its expression. -/
theorem Coherent.key_mem (coherent : target.Coherent) {key : ExpressionKey}
    (bound : ∀ operand ∈ key.expressions, operand < target.expressions.length) :
    key ∈ target.expressions ↔ target.keyTree key ∈ target.content.trees := by
  constructor
  · intro member
    exact ⟨_, List.idxOf_lt_length_of_mem member, coherent.tree_idxOf member⟩
  · rintro ⟨handle, inside, same⟩
    have entry := List.getElem?_eq_getElem inside
    rw [MutableIndex.tree, treeOf_entry coherent.operands entry, keyTree] at same
    obtain ⟨tag, entities, operands, payload⟩ := ExpressionTree.node.inj same
    have below : ∀ operand ∈ target.expressions[handle].expressions, operand < target.expressions.length :=
      fun operand member => (coherent.operands handle _ entry operand member).trans inside
    have equal : target.expressions[handle] = key :=
      ExpressionKey.ext tag entities (coherent.map_tree_injective below bound operands) payload
    exact equal ▸ List.getElem_mem inside

/-- The counters of every expression fit their words. -/
theorem Coherent.counts_fit (coherent : target.Coherent) (handle : Nat) :
    (target.expressionOccurrences.getD handle ⟨0, 0⟩).Fits := by
  rw [List.getD_eq_getElem?_getD]
  cases found : target.expressionOccurrences[handle]? with
  | none => exact Occurrence.fits_zero
  | some counts => exact coherent.counts counts (List.mem_of_getElem? found)

theorem Coherent.property_fits (coherent : target.Coherent) {property : EntityRecord} {counts : Occurrence}
    (found : target.propertyOccurrences.lookup property = some counts) : counts.Fits := by
  obtain ⟨before, after, same, -⟩ := List.lookup_eq_some_iff.mp found
  exact (coherent.properties (property, counts) (same ▸ List.mem_append_right _ List.mem_cons_self)).2.2

end

/-- The expression of a handle of the source is there, and its counters add nothing. -/
def AbsorbsExpression (target source : MutableIndex) (handle : Nat) : Prop :=
  source.tree handle ∈ target.content.trees ∧ source.content.counts (source.tree handle) = 0

/-- The expression of a handle is there, and the first addition that could change its counters overflows. -/
def RefusesExpression (target source : MutableIndex) (handle : Nat) : Prop :=
  source.tree handle ∈ target.content.trees ∧
    (target.content.counts (source.tree handle)).Exceeds (source.content.counts (source.tree handle))

def AbsorbsProperty (target : MutableIndex) (row : EntityRecord × Occurrence) : Prop :=
  ∃ current, target.propertyOccurrences.lookup row.1 = some current ∧ row.2 = 0

def RefusesProperty (target : MutableIndex) (row : EntityRecord × Occurrence) : Prop :=
  ∃ current, target.propertyOccurrences.lookup row.1 = some current ∧ current.Exceeds row.2

/-- The increment of one feature counter, with the position of the counter, overflows. -/
def RefusesFeature (target : MutableIndex) (row : Nat × Nat) : Prop :=
  U64_MAX < target.featureCounts.getD row.2 0 + row.1

/-- What comes first in a merge is there already, up to a counter that overflows. -/
def Undisturbed (target source : MutableIndex) : Prop :=
  source.entities ⊆ target.entities ∧
    (Halts (target.AbsorbsExpression source) (target.RefusesExpression source)
      (List.range source.expressions.length) ∨
      (∀ handle ∈ List.range source.expressions.length, target.AbsorbsExpression source handle) ∧
      (Halts target.AbsorbsProperty target.RefusesProperty source.propertyOccurrences ∨
        (∀ row ∈ source.propertyOccurrences, target.AbsorbsProperty row) ∧
        (source.propertyChains ⊆ target.propertyChains ∧ source.rows ⊆ target.rows) ∧
        Halts (fun row => row.1 = 0) target.RefusesFeature source.featureCounts.zipIdx))

section

variable {target : MutableIndex}

/-- A subclass row is stored when the row of its trees is among the rows. -/
theorem WellFormed.subclass_mem (wellFormed : target.WellFormed) {first second : Nat}
    (bound : first < target.expressions.length) (bound' : second < target.expressions.length) :
    (first, second) ∈ target.subclassAxioms ↔ .subclass (target.tree first) (target.tree second) ∈ target.rows := by
  constructor
  · exact fun member => mem_rows.mpr (Or.inl ⟨_, member, rfl⟩)
  · intro member
    rcases mem_rows.mp member with ⟨row, listed, equal⟩ | ⟨_, _, equal⟩ | ⟨_, _, equal⟩ |
      ⟨_, _, equal⟩ | ⟨_, _, equal⟩
    · obtain ⟨left, right⟩ := NormalRow.subclass.inj equal
      obtain ⟨inside, inside'⟩ := wellFormed.subclass row listed
      rwa [← wellFormed.tree_injective inside bound left, ← wellFormed.tree_injective inside' bound' right]
    all_goals cases equal

theorem WellFormed.equivalent_mem (wellFormed : target.WellFormed) {first second : Nat}
    (bound : first < target.expressions.length) (bound' : second < target.expressions.length) :
    (first, second) ∈ target.equivalentClassAxioms ↔
      .equivalent (target.tree first) (target.tree second) ∈ target.rows := by
  constructor
  · exact fun member => mem_rows.mpr (Or.inr (Or.inl ⟨_, member, rfl⟩))
  · intro member
    rcases mem_rows.mp member with ⟨_, _, equal⟩ | ⟨row, listed, equal⟩ | ⟨_, _, equal⟩ |
      ⟨_, _, equal⟩ | ⟨_, _, equal⟩
    case inr.inl =>
      obtain ⟨left, right⟩ := NormalRow.equivalent.inj equal
      obtain ⟨inside, inside'⟩ := wellFormed.equivalent row listed
      rwa [← wellFormed.tree_injective inside bound left, ← wellFormed.tree_injective inside' bound' right]
    all_goals cases equal

/-- A group is stored when the row of its trees is among the rows. -/
theorem WellFormed.disjoint_mem (wellFormed : target.WellFormed) {group : List Nat}
    (bound : ∀ handle ∈ group, handle < target.expressions.length) :
    group ∈ target.disjointGroups ↔ .disjoint (group.map target.tree) ∈ target.rows := by
  constructor
  · exact fun member => mem_rows.mpr (Or.inr (Or.inr (Or.inl ⟨_, member, rfl⟩)))
  · intro member
    rcases mem_rows.mp member with ⟨_, _, equal⟩ | ⟨_, _, equal⟩ | ⟨row, listed, equal⟩ |
      ⟨_, _, equal⟩ | ⟨_, _, equal⟩
    case inr.inr.inl =>
      have inside := (wellFormed.disjoint row listed).2
      rwa [← wellFormed.map_tree_injective inside bound (NormalRow.disjoint.inj equal)]
    all_goals cases equal

theorem WellFormed.range_mem (wellFormed : target.WellFormed) {property : EntityRecord} {range : Nat}
    (bound : range < target.expressions.length) :
    (property, range) ∈ target.propertyRanges ↔ .range property (target.tree range) ∈ target.rows := by
  constructor
  · exact fun member => mem_rows.mpr (Or.inr (Or.inr (Or.inr (Or.inr ⟨_, member, rfl⟩))))
  · intro member
    rcases mem_rows.mp member with ⟨_, _, equal⟩ | ⟨_, _, equal⟩ | ⟨_, _, equal⟩ | ⟨_, _, equal⟩ |
      ⟨row, listed, equal⟩
    case inr.inr.inr.inr =>
      obtain ⟨left, right⟩ := NormalRow.range.inj equal
      rwa [← wellFormed.tree_injective (wellFormed.ranges row listed).2.2 bound right, ← left]
    all_goals cases equal

theorem subproperty_mem {chain : List EntityRecord} {super : EntityRecord} :
    (chain, super) ∈ target.subpropertyAxioms ↔ .subproperty chain super ∈ target.rows := by
  constructor
  · exact fun member => mem_rows.mpr (Or.inr (Or.inr (Or.inr (Or.inl ⟨_, member, rfl⟩))))
  · intro member
    rcases mem_rows.mp member with ⟨_, _, equal⟩ | ⟨_, _, equal⟩ | ⟨_, _, equal⟩ |
      ⟨row, listed, equal⟩ | ⟨_, _, equal⟩
    case inr.inr.inr.inl =>
      obtain ⟨left, right⟩ := NormalRow.subproperty.inj equal
      rwa [← left, ← right]
    all_goals cases equal

end

end MutableIndex

namespace Mutation

section

variable {target transaction : MutableIndex}

/-- Interning only adds to the index, also when it raises. -/
theorem internExpression_grows (key : ExpressionKey) (polarity : Occurrence) :
    Grows (internExpression key polarity) :=
  (Grows.read _).bind fun handle => (Grows.write fun _ => MutableIndex.le_intern key).bind fun _ =>
    (countExpression_grows handle polarity).bind fun _ => .pure handle

theorem mapGroup_grows (mapping items : List Nat) : Grows (mapGroup mapping items) := by
  induction items with
  | nil => exact .pure []
  | cons item rest ih => exact (Grows.demand _ _).bind fun handle => ih.bind fun handles => .pure _

/-- Merging the expressions only adds to the index, also when it raises. -/
theorem mergeExpressions_grows (occurrences : List Occurrence) (keys : List ExpressionKey) (mapping : List Nat) :
    Grows (mergeExpressions occurrences keys mapping) := by
  induction keys generalizing mapping with
  | nil => exact .pure mapping
  | cons key rest ih =>
    exact (mapGroup_grows _ _).bind fun _ => (internExpression_grows _ _).bind fun translated =>
      (Grows.demand _ _).bind fun counts => (countExpression_grows translated counts).bind fun _ => ih _

theorem mapGroup_decides {mapping items handles : List Nat}
    (found : (items.mapM fun item => mapping[item]?) = some handles) :
    Decides target (mapGroup mapping items) (· = handles) True False :=
  .reads (mapGroup_grows mapping items) fun index _ => (mapGroup_computes mapping items index).1 (handles, index)
    (by rw [found]; rfl)

theorem demand_decides {raised : BuilderError} {α : Type} {found : Option α} {value : α} (same : found = some value) :
    Decides target (demand raised found) (· = value) True False := by
  subst same
  exact .reads (.pure value) fun _ _ => rfl

/-- A key with no counts is interned without a change when it is there. -/
theorem internExpression_decides (wellFormed : target.WellFormed) (key : ExpressionKey) :
    Decides target (internExpression key ⟨0, 0⟩) (fun handle => key ∈ target.expressions ∧
      handle = target.expressions.idxOf key)
      (key ∈ target.expressions) False := by
  have entries : Decides target (write fun index => index.intern key : Mutation Unit)
    (fun _ => key ∈ target.expressions)
      (key ∈ target.expressions) False :=
    Decides.weaken (.write (fun _ => MutableIndex.le_intern key) fun index same => MutableIndex.intern_same same)
      (fun _ => And.left) (and_iff_left_of_imp (wellFormed.known key)).symm Iff.rfl
  have counting : key ∈ target.expressions → Decides target (countExpression (target.expressions.idxOf key) ⟨0, 0⟩)
      (fun _ => True) True False := by
    intro member
    have bound : target.expressions.idxOf key < target.expressionOccurrences.length :=
      wellFormed.counted ▸ List.idxOf_lt_length_of_mem member
    have fits := wellFormed.counts_fit (target.expressions.idxOf key)
    exact (countExpression_decides bound fits).weaken (fun _ => id) (iff_of_true trivial rfl)
      (iff_of_false id fits.not_exceeds)
  have last : ∀ handle, Grows (countExpression handle ⟨0, 0⟩ >>= fun _ => pure handle) := fun handle =>
    (countExpression_grows handle ⟨0, 0⟩).bind fun _ => .pure handle
  have place : Decides target (read fun index => index.expressions.idxOf key : Mutation Nat)
      (· = target.expressions.idxOf key) True False :=
    .reads (.read _) fun index same => by rw [← (MutableIndex.same_iff.mpr same).expressions]; rfl
  refine place.bind_reads (fun handle => (Grows.write fun _ => MutableIndex.le_intern key).bind fun _ =>
    last handle) ?_
  refine entries.bind_silent (fun _ => last _) fun _ member => ?_
  exact (counting member).bind_silent (fun _ => .pure _) fun _ _ => .pure ⟨member, rfl⟩

/-- The counters of a handle of the source are added to those of its expression. -/
theorem countMerged_decides (wellFormed : target.WellFormed) (merging : transaction.WellFormed) {item handle : Nat}
    {key : ExpressionKey} (inside : item < transaction.expressions.length)
    (found : key ∈ target.expressions ∧ handle = target.expressions.idxOf key)
    (tree : target.keyTree key = transaction.tree item) :
    Decides target (countExpression handle (transaction.expressionOccurrences.getD item ⟨0, 0⟩)) (fun _ => True)
      (transaction.content.counts (transaction.tree item) = 0)
      ((target.content.counts (transaction.tree item)).Exceeds
        (transaction.content.counts (transaction.tree item))) := by
  obtain ⟨member, rfl⟩ := found
  have bound := List.idxOf_lt_length_of_mem member
  have ours : target.content.counts (transaction.tree item) =
      target.expressionOccurrences.getD (target.expressions.idxOf key) ⟨0, 0⟩ := by
    rw [← tree, ← wellFormed.tree_idxOf member]
    exact wellFormed.occurrence_tree bound
  have theirs : transaction.content.counts (transaction.tree item) =
    transaction.expressionOccurrences.getD item ⟨0, 0⟩ :=
    merging.occurrence_tree inside
  rw [ours, theirs]
  exact countExpression_decides (wellFormed.counted ▸ bound) (wellFormed.counts_fit _)

/-- The loop over the expressions is quiet when all are absorbed, and stops when the first one that is not is
refused. -/
theorem mergeExpressions_decides (wellFormed : target.WellFormed) (merging : transaction.WellFormed)
    {mapping : List Nat}
    {keys : List ExpressionKey} (maps : transaction.Maps target mapping)
    (rest : transaction.expressions.drop mapping.length = keys)
    (few : mapping.length ≤ transaction.expressions.length) :
    Decides target (mergeExpressions transaction.expressionOccurrences keys mapping)
      (fun final => transaction.Maps target final ∧ final.length = transaction.expressions.length)
      (∀ handle ∈ List.range' mapping.length keys.length, target.AbsorbsExpression transaction handle)
      (Halts (target.AbsorbsExpression transaction) (target.RefusesExpression transaction)
        (List.range' mapping.length keys.length)) := by
  induction keys generalizing mapping with
  | nil =>
    have complete : mapping.length = transaction.expressions.length := le_antisymm few (List.drop_eq_nil_iff.mp rest)
    exact Decides.weaken (.pure ⟨maps, complete⟩) (fun _ => id) (by simp) Iff.rfl
  | cons key keys ih =>
    have inside : mapping.length < transaction.expressions.length := by
      refine lt_of_le_of_ne few fun same => ?_
      rw [same, List.drop_length] at rest
      cases rest
    rw [List.drop_eq_getElem_cons inside] at rest
    obtain ⟨here, after⟩ := List.cons.inj rest
    have entry : transaction.expressions[mapping.length]? = some key := by
      rw [List.getElem?_eq_getElem inside, here]
    obtain ⟨handles, operands, bounds, -, tree⟩ := merging.mergeKey maps entry
    have counted := merging.counted_entry inside
    have present :=
      wellFormed.key_mem (show ∀ operand ∈ ({ key with expressions := handles } : ExpressionKey).expressions,
      operand < target.expressions.length from bounds)
    rw [tree] at present
    have turn : ∀ translated,
      Grows (demand BuilderError.indexError transaction.expressionOccurrences[mapping.length]? >>=
        fun counts => countExpression translated counts >>= fun _ =>
          mergeExpressions transaction.expressionOccurrences keys (mapping ++ [translated])) := fun translated =>
      (Grows.demand _ _).bind fun counts => (countExpression_grows translated counts).bind fun _ =>
        mergeExpressions_grows _ _ _
    have others : ∀ translated, { key with expressions := handles } ∈ target.expressions ∧
          translated = target.expressions.idxOf { key with expressions := handles } →
        Decides target (mergeExpressions transaction.expressionOccurrences keys (mapping ++ [translated]))
          (fun final => transaction.Maps target final ∧ final.length = transaction.expressions.length)
          (∀ handle ∈ List.range' (mapping.length + 1) keys.length, target.AbsorbsExpression transaction handle)
          (Halts (target.AbsorbsExpression transaction) (target.RefusesExpression transaction)
            (List.range' (mapping.length + 1) keys.length)) := by
      rintro translated ⟨member, rfl⟩
      have size : (mapping ++ [target.expressions.idxOf { key with expressions := handles }]).length =
          mapping.length + 1 := List.length_append
      have next := ih (maps.snoc (List.idxOf_lt_length_of_mem member) ((wellFormed.tree_idxOf member).trans tree))
        (by rw [size, after]) (by rw [size]; exact inside)
      rwa [size] at next
    have decided := (mapGroup_decides operands).bind_reads
      (fun expressions => (internExpression_grows { key with expressions := expressions } ⟨0, 0⟩).bind turn)
      ((internExpression_decides wellFormed { key with expressions := handles }).bind turn fun translated found =>
        (demand_decides counted).bind_reads
          (fun counts => (countExpression_grows translated counts).bind fun _ => mergeExpressions_grows _ _ _)
          ((countMerged_decides wellFormed merging inside found tree).bind (fun _ => mergeExpressions_grows _ _ _)
            fun _ _ => others translated found))
    rw [List.length_cons, List.range'_succ]
    refine decided.weaken (fun _ => id) ?_ ?_
    · rw [List.forall_mem_cons, MutableIndex.AbsorbsExpression, ← present, and_assoc]
    · rw [Halts, MutableIndex.AbsorbsExpression, MutableIndex.RefusesExpression, ← present, false_or,
        and_or_left, and_assoc]

theorem mergePair_grows (mapping : List Nat) {append : List (Nat × Nat) → MutableIndex → MutableIndex}
    (larger : ∀ rows index, index ≤ append rows index) (row : Nat × Nat) : Grows (mergePair mapping append row) :=
  (Grows.demand _ _).bind fun _ => (Grows.demand _ _).bind fun _ => .write (larger _)

/-- A pair is merged without a change exactly when the target has its row. -/
theorem mergePair_decides {mapping : List Nat} {append : List (Nat × Nat) → MutableIndex → MutableIndex}
    {table : List (Nat × Nat)} (larger : ∀ rows index, index ≤ append rows index)
    (still : ∀ rows index, AntisymmRel (· ≤ ·) index target →
      (AntisymmRel (· ≤ ·) (append rows index) target ↔ rows ⊆ table)) {row : Nat × Nat} {first second : Nat}
    (found : mapping[row.1]? = some first) (found' : mapping[row.2]? = some second) :
    Decides target (mergePair mapping append row) (fun _ => True) ((first, second) ∈ table) False := by
  have appends : Decides target (write (append [(first, second)]) : Mutation Unit) (fun _ => True)
      ((first, second) ∈ table) False := by
    refine Decides.weaken (.write (larger _) (still [(first, second)])) (fun _ _ => trivial) ?_ Iff.rfl
    rw [List.cons_subset, and_iff_left (List.nil_subset _)]
  exact (demand_decides found).bind_reads (fun _ => (Grows.demand _ _).bind fun _ => .write (larger _))
    ((demand_decides found').bind_reads (fun _ => .write (larger _)) appends)

/-- A group is merged without a change exactly when the target has it. -/
theorem mergeGroup_decides {mapping : List Nat} {group handles : List Nat}
    (found : (group.mapM fun item => mapping[item]?) = some handles) :
    Decides target (mergeGroup mapping MutableIndex.appendDisjoint group) (fun _ => True)
      (handles ∈ target.disjointGroups) False := by
  have appends : Decides target (write (MutableIndex.appendDisjoint [handles]) : Mutation Unit) (fun _ => True)
      (handles ∈ target.disjointGroups) False := by
    refine Decides.weaken (.write (fun _ => MutableIndex.le_appendDisjoint _) fun _ same =>
      MutableIndex.appendDisjoint_same same _) (fun _ _ => trivial) ?_ Iff.rfl
    rw [List.cons_subset, and_iff_left (List.nil_subset _)]
  exact (mapGroup_decides found).bind_reads (fun _ => .write fun _ => MutableIndex.le_appendDisjoint _) appends

/-- A range is merged without a change exactly when the target has it. -/
theorem mergeRange_decides {mapping : List Nat} {row : EntityRecord × Nat} {range : Nat}
    (found : mapping[row.2]? = some range) :
    Decides target (mergeRange mapping MutableIndex.appendRanges row) (fun _ => True)
      ((row.1, range) ∈ target.propertyRanges) False := by
  have appends : Decides target (write (MutableIndex.appendRanges [(row.1, range)]) : Mutation Unit) (fun _ => True)
      ((row.1, range) ∈ target.propertyRanges) False := by
    refine Decides.weaken (.write (fun _ => MutableIndex.le_appendRanges _) fun _ same =>
      MutableIndex.appendRanges_same same _) (fun _ _ => trivial) ?_ Iff.rfl
    rw [List.cons_subset, and_iff_left (List.nil_subset _)]
  exact (demand_decides found).bind_reads (fun _ => .write fun _ => MutableIndex.le_appendRanges _) appends

theorem mergeGroup_grows (mapping group : List Nat) : Grows (mergeGroup mapping MutableIndex.appendDisjoint group) :=
  (mapGroup_grows mapping group).bind fun _ => .write fun _ => MutableIndex.le_appendDisjoint _

theorem mergeRange_grows (mapping : List Nat) (row : EntityRecord × Nat) :
    Grows (mergeRange mapping MutableIndex.appendRanges row) :=
  (Grows.demand _ _).bind fun _ => .write fun _ => MutableIndex.le_appendRanges _

/-- Merging the rows only adds to the index, also when it raises. -/
theorem mergeRows_grows (transaction : MutableIndex) (mapping : List Nat) : Grows (mergeRows transaction mapping) :=
  (Grows.write fun _ => MutableIndex.le_appendChains _).bind fun _ =>
    (Grows.each fun row _ => mergePair_grows mapping (fun _ _ => MutableIndex.le_appendSubclass _) row).bind fun _ =>
    (Grows.each fun row _ => mergePair_grows mapping
      (fun _ _ => MutableIndex.le_appendEquivalent _) row).bind fun _ =>
    (Grows.each fun group _ => mergeGroup_grows mapping group).bind fun _ =>
    (Grows.write fun _ => MutableIndex.le_appendSubproperty _).bind fun _ =>
    Grows.each fun row _ => mergeRange_grows mapping row

/-- Once the handles are mapped, the row tables never stop a merge. -/
theorem mergeRows_decides (wellFormed : target.WellFormed) (merging : transaction.WellFormed) {mapping : List Nat}
    (maps : transaction.Maps target mapping) (length : mapping.length = transaction.expressions.length) :
    Decides target (mergeRows transaction mapping) (fun _ => True)
      (transaction.propertyChains ⊆ target.propertyChains ∧ transaction.rows ⊆ target.rows) False := by
  have chains :
    Decides target (write (MutableIndex.appendChains transaction.propertyChains) : Mutation Unit) _ _ False :=
    .write (fun _ => MutableIndex.le_appendChains _) fun _ same => MutableIndex.appendChains_same same _
  have subclass : Decides target (each (mergePair mapping MutableIndex.appendSubclass) transaction.subclassAxioms)
      (fun _ => True) (∀ row ∈ transaction.subclassAxioms,
        .subclass (transaction.tree row.1) (transaction.tree row.2) ∈ target.rows) False := by
    refine Decides.each_silent fun row member => ?_
    obtain ⟨first, found, bound, tree⟩ := maps.handle (length ▸ (merging.subclass row member).1)
    obtain ⟨second, found', bound', tree'⟩ := maps.handle (length ▸ (merging.subclass row member).2)
    rw [← tree, ← tree', ← wellFormed.subclass_mem bound bound']
    exact mergePair_decides (fun _ _ => MutableIndex.le_appendSubclass _)
      (fun _ _ same => MutableIndex.appendSubclass_same same _) found found'
  have equivalent : Decides target (each (mergePair mapping MutableIndex.appendEquivalent)
      transaction.equivalentClassAxioms) (fun _ => True) (∀ row ∈ transaction.equivalentClassAxioms,
        .equivalent (transaction.tree row.1) (transaction.tree row.2) ∈ target.rows) False := by
    refine Decides.each_silent fun row member => ?_
    obtain ⟨first, found, bound, tree⟩ := maps.handle (length ▸ (merging.equivalent row member).1)
    obtain ⟨second, found', bound', tree'⟩ := maps.handle (length ▸ (merging.equivalent row member).2)
    rw [← tree, ← tree', ← wellFormed.equivalent_mem bound bound']
    exact mergePair_decides (fun _ _ => MutableIndex.le_appendEquivalent _)
      (fun _ _ same => MutableIndex.appendEquivalent_same same _) found found'
  have disjoint : Decides target (each (mergeGroup mapping MutableIndex.appendDisjoint) transaction.disjointGroups)
      (fun _ => True) (∀ group ∈ transaction.disjointGroups,
        .disjoint (group.map transaction.tree) ∈ target.rows) False := by
    refine Decides.each_silent fun group member => ?_
    obtain ⟨handles, found, bounds, trees⟩ := maps.translate (length ▸ (merging.disjoint group member).2)
    rw [← trees, ← wellFormed.disjoint_mem bounds]
    exact mergeGroup_decides found
  have subproperty :
    Decides target (write (MutableIndex.appendSubproperty transaction.subpropertyAxioms) : Mutation Unit)
      _ _ False :=
    .write (fun _ => MutableIndex.le_appendSubproperty _) fun _ same => MutableIndex.appendSubproperty_same same _
  have ranges : Decides target (each (mergeRange mapping MutableIndex.appendRanges) transaction.propertyRanges)
      (fun _ => True) (∀ row ∈ transaction.propertyRanges,
        .range row.1 (transaction.tree row.2) ∈ target.rows) False := by
    refine Decides.each_silent fun row member => ?_
    obtain ⟨range, found, bound, tree⟩ := maps.handle (length ▸ (merging.ranges row member).2.2)
    rw [← tree, ← wellFormed.range_mem bound]
    exact mergeRange_decides found
  refine (chains.seq (subclass.seq (equivalent.seq (disjoint.seq (subproperty.seq ranges))))).weaken (fun _ => id)
    (and_congr_right fun _ => ?_) Iff.rfl
  have rows : transaction.subpropertyAxioms ⊆ target.subpropertyAxioms ↔
      ∀ row ∈ transaction.subpropertyAxioms, .subproperty row.1 row.2 ∈ target.rows :=
    forall₂_congr fun row _ => MutableIndex.subproperty_mem
  rw [rows, MutableIndex.rows]
  have mapped : ∀ {α : Type} {image : α → NormalRow} {table : List α},
      table.map image ⊆ target.rows ↔ ∀ row ∈ table, image row ∈ target.rows := by
    intro α image table
    rw [List.subset_def]
    exact List.forall_mem_map
  simp only [List.append_subset, mapped, and_assoc]

/-- The property counters are merged without a change when each is absorbed, and raise at the first one refused. -/
theorem propertyLoop_decides (wellFormed : target.WellFormed) (transaction : MutableIndex) :
    Decides target (each (fun row => countProperty row.1 row.2) transaction.propertyOccurrences) (fun _ => True)
      (∀ row ∈ transaction.propertyOccurrences, target.AbsorbsProperty row)
      (Halts target.AbsorbsProperty target.RefusesProperty transaction.propertyOccurrences) :=
  .each fun _ _ => countProperty_decides fun _ found => wellFormed.property_fits found

/-- The feature counts are merged without a change when all are zero, and raise at the first one refused. -/
theorem featureLoop_decides (wellFormed : target.WellFormed) (merging : transaction.WellFormed) :
    Decides target (each (fun row => addFeature row.2 row.1) transaction.featureCounts.zipIdx) (fun _ => True)
      (∀ row ∈ transaction.featureCounts.zipIdx, row.1 = 0)
      (Halts (fun row => row.1 = 0) target.RefusesFeature transaction.featureCounts.zipIdx) := by
  refine Decides.each fun row member => ?_
  have inside : row.2 < target.featureCounts.length := by
    rw [wellFormed.features.1, ← merging.features.1]
    exact List.snd_lt_of_mem_zipIdx member
  have entry := List.getElem?_eq_getElem inside
  have here : target.featureCounts.getD row.2 0 = target.featureCounts[row.2] := by
    rw [List.getD_eq_getElem?_getD, entry, Option.getD_some]
  rw [MutableIndex.RefusesFeature, here]
  exact addFeature_decides entry (wellFormed.features.2 _ (List.getElem_mem inside))

/-- A merge stops before its first change exactly in the builders that are undisturbed. -/
theorem merge_decides (wellFormed : target.WellFormed) (merging : transaction.WellFormed) :
    ∃ quiet, Decides target (Mutation.merge transaction) (fun _ => True) quiet (target.Undisturbed transaction) := by
  have entities :
    Decides target (write (MutableIndex.appendEntities transaction.entities) : Mutation Unit) _ _ False :=
    .write (fun _ => MutableIndex.le_appendEntities _) fun _ same => MutableIndex.appendEntities_same same _
  have features : Grows (each (fun row => addFeature row.2 row.1) transaction.featureCounts.zipIdx) :=
    .each fun row _ => addFeature_grows row.2 row.1
  have afterProperties : ∀ mapping, Grows (mergeRows transaction mapping >>= fun _ =>
      each (fun row => addFeature row.2 row.1) transaction.featureCounts.zipIdx >>= fun _ => pure mapping) :=
    fun mapping => (mergeRows_grows transaction mapping).bind fun _ => features.bind fun _ => .pure mapping
  have properties : Grows (each (fun row => countProperty row.1 row.2) transaction.propertyOccurrences) :=
    .each fun row _ => countProperty_grows row.1 row.2
  have expressions := @mergeExpressions_decides _ _ wellFormed merging [] _
    ⟨fun handle member => absurd member List.not_mem_nil, fun item handle found => by cases found⟩ rfl (Nat.zero_le _)
  have final : ∀ mapping, transaction.Maps target mapping ∧ mapping.length = transaction.expressions.length →
      Decides target (mergeRows transaction mapping >>= fun _ =>
        each (fun row => addFeature row.2 row.1) transaction.featureCounts.zipIdx >>= fun _ => pure mapping)
          (fun _ => True)
        ((transaction.propertyChains ⊆ target.propertyChains ∧ transaction.rows ⊆ target.rows) ∧
          ∀ row ∈ transaction.featureCounts.zipIdx, row.1 = 0)
        (False ∨ (transaction.propertyChains ⊆ target.propertyChains ∧ transaction.rows ⊆ target.rows) ∧
          Halts (fun row => row.1 = 0) target.RefusesFeature transaction.featureCounts.zipIdx) := fun mapping found =>
    (mergeRows_decides wellFormed merging found.1 found.2).bind
      (fun _ => features.bind fun _ => .pure mapping) fun _ _ =>
      (featureLoop_decides wellFormed merging).bind_silent (fun _ => .pure mapping) fun _ _ => .pure trivial
  refine ⟨_, (entities.bind (fun _ => (mergeExpressions_grows _ _ _).bind fun mapping => properties.bind fun _ =>
    afterProperties mapping) fun _ _ => expressions.bind
      (fun mapping => properties.bind fun _ => afterProperties mapping)
      fun mapping found => (propertyLoop_decides wellFormed transaction).bind (fun _ => afterProperties mapping)
        fun _ _ => final mapping found).weaken (fun _ => id) Iff.rfl ?_⟩
  rw [MutableIndex.Undisturbed, List.range_eq_range']
  simp only [false_or, List.length_nil, List.drop_zero]

/-- A merge completes with all of the source accounted for, or raises and leaves the target as it was. -/
def MergesAtomically (target source : MutableIndex) : Prop :=
  (∃ mapping, (Mutation.merge source target).1 = .ok mapping ∧
    (Mutation.merge source target).2.content = target.content + source.content ∧
    source.Maps (Mutation.merge source target).2 mapping ∧ mapping.length = source.expressions.length) ∨
  (∃ raised, (Mutation.merge source target).1 = .error raised) ∧ target.Same (Mutation.merge source target).2

/-- Where the sum of the contents fits, merge adds them up. -/
theorem merge_ok (wellFormed : target.WellFormed) (merging : transaction.WellFormed)
    (fits : (target.content + transaction.content).Fits) :
    ∃ mapping, (Mutation.merge transaction target).1 = .ok mapping ∧
      (Mutation.merge transaction target).2.content = target.content + transaction.content ∧
      transaction.Maps (Mutation.merge transaction target).2 mapping ∧
      mapping.length = transaction.expressions.length := by
  obtain ⟨spec, completes⟩ := wellFormed.merge_spec merging
  obtain ⟨⟨later, mapping⟩, merged⟩ := Option.isSome_iff_exists.mp (completes fits)
  obtain ⟨-, maps, length, content⟩ := spec later mapping merged
  rw [(merge_computes transaction target).1 (mapping, later) (congrArg (Option.map Prod.swap) merged)]
  exact ⟨mapping, rfl, content, maps, length⟩

/-- Where the sum of the contents does not fit, merge raises. -/
theorem merge_error (wellFormed : target.WellFormed) (merging : transaction.WellFormed)
    (overflows : ¬(target.content + transaction.content).Fits) :
    ∃ raised, (Mutation.merge transaction target).1 = .error raised := by
  refine (merge_computes transaction target).2 (Option.map_eq_none_iff.mpr ?_)
  cases merged : target.merge transaction with
  | none => rfl
  | some result =>
    obtain ⟨valid, -, -, content⟩ := (wellFormed.merge_spec merging).1 result.1 result.2 merged
    exact absurd (content ▸ valid.content_fits) overflows

/-- A merge is atomic when no counter overflows, or when the first one does before anything has changed. -/
theorem merge_atomic_iff (wellFormed : target.WellFormed) (merging : transaction.WellFormed) :
    MergesAtomically target transaction ↔
      (target.content + transaction.content).Fits ∨ target.Undisturbed transaction := by
  obtain ⟨quiet, decides⟩ := merge_decides wellFormed merging
  have raises := decides.raises_iff
  constructor
  · rintro (⟨mapping, done, -⟩ | ⟨failed, kept⟩)
    · refine Or.inl (by_contra fun overflows => ?_)
      obtain ⟨raised, failed⟩ := merge_error wellFormed merging overflows
      rw [failed] at done
      cases done
    · exact Or.inr (raises.mp ⟨failed, (MutableIndex.same_iff.mp kept).symm⟩)
  · rintro (fits | undisturbed)
    · exact Or.inl (merge_ok wellFormed merging fits)
    · obtain ⟨failed, kept⟩ := raises.mpr undisturbed
      exact Or.inr ⟨failed, MutableIndex.same_iff.mpr kept.symm⟩

end

end Mutation

end PyElk
