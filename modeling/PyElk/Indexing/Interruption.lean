import PyElk.Indexing.MergeAtomicity

open Raising

namespace PyElk

namespace MutableIndex

/-- The state of a merge between two of its writes: the handles of the source that are mapped so far stand for their
expressions. -/
structure Merging (source : MutableIndex) (mapping : List Nat) (index : MutableIndex) : Prop where
  wellFormed : index.WellFormed
  maps : source.Maps index mapping
  entities : source.entities ⊆ index.entities

/-- The state of a merge once the chains of the source are in. -/
structure MergingRows (source : MutableIndex) (mapping : List Nat) (index : MutableIndex) : Prop
    extends source.Merging mapping index where
  chains : source.propertyChains ⊆ index.propertyChains

section

variable {source index later : MutableIndex} {mapping : List Nat}

theorem Merging.emits (merging : source.Merging mapping index) {rows : List NormalRow}
    (emits : index.Emits later rows) :
    source.Merging mapping later :=
  ⟨emits.wellFormed, merging.maps.extends emits.extension,
    List.Subset.trans merging.entities emits.extension.entities⟩

/-- Row tables may grow as long as the builder stays well formed. -/
theorem Merging.grown (merging : source.Merging mapping index) (wellFormed : later.WellFormed)
    (expressions : later.expressions = index.expressions) (entities : later.entities = index.entities) :
    source.Merging mapping later := by
  refine ⟨wellFormed, ⟨fun handle member => ?_, fun item handle found => ?_⟩, ?_⟩
  · rw [expressions]
    exact merging.maps.bound handle member
  · rw [MutableIndex.tree, expressions]
    exact merging.maps.tree item handle found
  · rw [entities]
    exact merging.entities

theorem forall_mem_append {α : Type} {holds : α → Prop} {rows more : List α} (old : ∀ row ∈ rows, holds row)
    (new : ∀ row ∈ more, holds row) : ∀ row ∈ rows ++ more, holds row := fun row member =>
  (List.mem_append.mp member).elim (old row) (new row)

theorem Merging.appendChains (merging : source.Merging mapping index) (valid : source.WellFormed) :
    source.MergingRows mapping (appendChains source.propertyChains index) := by
  refine ⟨merging.grown { merging.wellFormed with chains := ?_, subproperty := ?_ } rfl rfl,
    List.subset_append_right _ _⟩
  · refine forall_mem_append merging.wellFormed.chains fun chain member => ?_
    obtain ⟨nonempty, properties⟩ := valid.chains chain member
    exact ⟨nonempty,
      fun property found => ⟨(properties property found).1, merging.entities (properties property found).2⟩⟩
  · intro row member
    obtain ⟨chain, kind, known⟩ := merging.wellFormed.subproperty row member
    exact ⟨List.mem_append_left _ chain, kind, known⟩

section

variable (merging : source.MergingRows mapping index)

include merging

/-- A subclass row between known handles may be appended at any time. -/
theorem MergingRows.appendSubclass {pair : Nat × Nat} (bound : pair.1 < index.expressions.length)
    (bound' : pair.2 < index.expressions.length) : source.MergingRows mapping (appendSubclass [pair] index) where
  toMerging := merging.grown { merging.wellFormed with
    subclass := forall_mem_append merging.wellFormed.subclass
      (List.forall_mem_singleton.mpr ⟨bound, bound'⟩) } rfl rfl
  chains := merging.chains

theorem MergingRows.appendEquivalent {pair : Nat × Nat} (bound : pair.1 < index.expressions.length)
    (bound' : pair.2 < index.expressions.length) : source.MergingRows mapping (appendEquivalent [pair] index) where
  toMerging := merging.grown { merging.wellFormed with
    equivalent :=
      forall_mem_append merging.wellFormed.equivalent (List.forall_mem_singleton.mpr ⟨bound, bound'⟩) } rfl rfl
  chains := merging.chains

/-- A group of two known handles or more may be appended at any time. -/
theorem MergingRows.appendDisjoint {group : List Nat} (many : 2 ≤ group.length)
    (bounds : ∀ handle ∈ group, handle < index.expressions.length) :
    source.MergingRows mapping (appendDisjoint [group] index) where
  toMerging := merging.grown { merging.wellFormed with
    disjoint := forall_mem_append merging.wellFormed.disjoint (List.forall_mem_singleton.mpr ⟨many, bounds⟩) } rfl rfl
  chains := merging.chains

theorem MergingRows.appendSubproperty (valid : source.WellFormed) :
    source.MergingRows mapping (appendSubproperty source.subpropertyAxioms index) where
  toMerging := by
    refine merging.grown { merging.wellFormed with subproperty := ?_ } rfl rfl
    refine forall_mem_append merging.wellFormed.subproperty fun row member => ?_
    obtain ⟨chain, kind, known⟩ := valid.subproperty row member
    exact ⟨merging.chains chain, kind, merging.entities known⟩
  chains := merging.chains

theorem MergingRows.appendRanges {row : EntityRecord × Nat} (kind : row.1.kind = .objectProperty)
    (known : row.1 ∈ index.entities) (bound : row.2 < index.expressions.length) :
    source.MergingRows mapping (appendRanges [row] index) where
  toMerging := merging.grown { merging.wellFormed with
    ranges := forall_mem_append merging.wellFormed.ranges
      (List.forall_mem_singleton.mpr ⟨kind, known, bound⟩) } rfl rfl
  chains := merging.chains

end

end

end MutableIndex

open MutableIndex

namespace Mutation

section

variable {source : MutableIndex} {mapping : List Nat}

theorem countExpression_keeps (handle : Nat) (counts : Occurrence) :
    Ensures (source.Merging mapping) (countExpression handle counts)
      (fun _ => source.Merging mapping) WellFormed := by
  intro index merging
  have fits := merging.wellFormed.counts_fit handle
  rw [countExpression_apply]
  dsimp only
  split
  · rename_i negative
    split
    · rename_i positive
      refine ⟨fun _ _ same => ?_, fun _ _ same => ?_⟩
      · cases same
        exact merging.emits (merging.wellFormed.setCounts handle ⟨negative, positive⟩)
      · cases same
    · refine ⟨fun _ _ same => ?_, fun _ _ same => ?_⟩
      · cases same
      · cases same
        refine (merging.wellFormed.setCounts handle ?_).wellFormed
        exact ⟨negative, fits.2⟩
  · refine ⟨fun _ _ same => ?_, fun _ _ same => ?_⟩
    · cases same
    · cases same
      exact merging.wellFormed

/-- Counting a property keeps a merge well formed, raised or not. -/
theorem countProperty_keeps {property : EntityRecord} (kind : property.kind = .objectProperty)
    (known : property ∈ source.entities) (counts : Occurrence) :
    Ensures (source.Merging mapping) (countProperty property counts)
      (fun _ => source.Merging mapping) WellFormed := by
  intro index merging
  have here := merging.entities known
  have fits : ((index.propertyOccurrences.lookup property).getD ⟨0, 0⟩).Fits := by
    cases found : index.propertyOccurrences.lookup property with
    | none => exact Occurrence.fits_zero
    | some current => exact merging.wellFormed.property_fits found
  rw [countProperty_apply]
  dsimp only
  split
  · rename_i negative
    split
    · rename_i positive
      refine ⟨fun _ _ same => ?_, fun _ _ same => ?_⟩
      · cases same
        exact merging.emits (merging.wellFormed.setProperty kind here ⟨negative, positive⟩)
      · cases same
    · refine ⟨fun _ _ same => ?_, fun _ _ same => ?_⟩
      · cases same
      · cases same
        refine (merging.wellFormed.setProperty kind here ?_).wellFormed
        exact ⟨negative, fits.2⟩
  · refine ⟨fun _ _ same => ?_, fun _ _ same => ?_⟩
    · cases same
    · cases same
      exact (merging.wellFormed.setProperty kind here fits).wellFormed

theorem addFeature_keeps (position count : Nat) :
    Ensures WellFormed (addFeature position count) (fun _ => WellFormed) WellFormed := by
  intro index wellFormed
  cases found : index.featureCounts[position]? with
  | none =>
    rw [addFeature_none found]
    refine ⟨fun _ _ same => ?_, fun _ _ same => ?_⟩
    · cases same
    · cases same
      exact wellFormed
  | some current =>
    rw [addFeature_some found]
    split
    · rename_i room
      refine ⟨fun _ _ same => ?_, fun _ _ same => ?_⟩
      · cases same
        refine { wellFormed with features := ⟨List.length_set.trans wellFormed.features.1, fun value member => ?_⟩ }
        rcases List.mem_or_eq_of_mem_set member with old | rfl
        · exact wellFormed.features.2 value old
        · exact room
      · cases same
    · refine ⟨fun _ _ same => ?_, fun _ _ same => ?_⟩
      · cases same
      · cases same
        exact wellFormed

theorem mapGroup_keeps {keeps : MutableIndex → Prop} (items : List Nat)
    (wellFormed : ∀ index, keeps index → index.WellFormed) :
    Ensures keeps (mapGroup mapping items)
      (fun handles index => (items.mapM fun item => mapping[item]?) = some handles ∧ keeps index) WellFormed := by
  induction items with
  | nil => exact .pure fun _ holds => ⟨rfl, holds⟩
  | cons item rest ih =>
    have first : Ensures keeps (mapped mapping item) (fun handle index => mapping[item]? = some handle ∧ keeps index)
        WellFormed := .demand (fun _ _ found holds => ⟨found, holds⟩) wellFormed
    refine first.bind fun handle => ?_
    intro index ⟨found, holds⟩
    refine (ih.bind fun handles => .pure fun later both => ?_) index holds
    rw [List.mapM_cons, found, both.1]
    exact ⟨rfl, both.2⟩

/-- Interning the next key of the source maps one more handle. -/
theorem internExpression_keeps (valid : source.WellFormed) {key : ExpressionKey} {handles : List Nat}
    (entry : source.expressions[mapping.length]? = some key)
    (operands : (key.expressions.mapM fun item => mapping[item]?) = some handles) :
    Ensures (source.Merging mapping) (internExpression { key with expressions := handles } ⟨0, 0⟩)
      (fun handle => source.Merging (mapping ++ [handle])) WellFormed := by
  intro index merging
  obtain ⟨found, same, bounds, shaped, tree⟩ := valid.mergeKey merging.maps entry
  cases operands.symm.trans same
  have named : ∀ entity ∈ key.entities, entity.iri ≠ "" := fun entity member =>
    valid.named entity (valid.known key (List.mem_of_getElem? entry) member)
  have emits := merging.wellFormed.intern shaped bounds named
  have interned : source.Merging (mapping ++ [index.expressions.idxOf { key with expressions := handles }])
      (index.intern { key with expressions := handles }) := by
    have later := merging.emits emits
    refine ⟨later.wellFormed, later.maps.snoc ?_ ?_, later.entities⟩
    · exact (List.getElem?_eq_some_iff.mp (index.intern_key _)).1
    · rw [MutableIndex.tree, treeOf_entry emits.wellFormed.operands (index.intern_key _), ← tree, keyTree]
      exact congrArg (fun operands => ExpressionTree.node key.tag key.entities operands key.payload)
        (emits.extension.map_tree bounds)
  have counts : ∀ handle, Ensures (source.Merging (mapping ++ [handle]))
      (countExpression handle ⟨0, 0⟩ >>= fun _ => pure handle)
        (fun handle => source.Merging (mapping ++ [handle])) WellFormed :=
    fun handle => (countExpression_keeps handle ⟨0, 0⟩).bind fun _ => .pure fun _ => id
  exact counts _ _ interned

/-- Every prefix of the loop over the expressions keeps the builder well formed. -/
theorem mergeExpressions_keeps (valid : source.WellFormed) {keys : List ExpressionKey}
    (rest : source.expressions.drop mapping.length = keys) (few : mapping.length ≤ source.expressions.length) :
    Ensures (source.Merging mapping) (mergeExpressions source.expressionOccurrences keys mapping)
      (fun final index => source.Merging final index ∧ final.length = source.expressions.length) WellFormed := by
  induction keys generalizing mapping with
  | nil =>
    have complete : mapping.length = source.expressions.length := le_antisymm few (List.drop_eq_nil_iff.mp rest)
    exact .pure fun _ merging => ⟨merging, complete⟩
  | cons key keys ih =>
    have inside : mapping.length < source.expressions.length := by
      refine lt_of_le_of_ne few fun same => ?_
      rw [same, List.drop_length] at rest
      cases rest
    rw [List.drop_eq_getElem_cons inside] at rest
    obtain ⟨here, after⟩ := List.cons.inj rest
    have entry : source.expressions[mapping.length]? = some key := by
      rw [List.getElem?_eq_getElem inside, here]
    refine (mapGroup_keeps key.expressions fun _ => Merging.wellFormed).bind fun handles => ?_
    intro index ⟨operands, merging⟩
    refine ((internExpression_keeps valid entry operands).bind fun translated => ?_) index merging
    have size : (mapping ++ [translated]).length = mapping.length + 1 := List.length_append
    have counts : Ensures (source.Merging (mapping ++ [translated]))
        (demand BuilderError.indexError source.expressionOccurrences[mapping.length]?)
        (fun _ => source.Merging (mapping ++ [translated])) WellFormed :=
      .demand (fun _ _ _ => id) fun _ => Merging.wellFormed
    exact counts.bind fun counts => (countExpression_keeps translated counts).bind fun _ =>
      ih (by rw [size, after]) (by rw [size]; exact inside)

/-- One row of two expressions of the source. -/
theorem mergePair_keeps {append : List (Nat × Nat) → MutableIndex → MutableIndex} {row : Nat × Nat}
    (appends : ∀ index pair, source.MergingRows mapping index → pair.1 < index.expressions.length →
      pair.2 < index.expressions.length → source.MergingRows mapping (append [pair] index)) :
    Ensures (source.MergingRows mapping) (mergePair mapping append row)
      (fun _ => source.MergingRows mapping) WellFormed := by
  have read : ∀ item, Ensures (source.MergingRows mapping) (mapped mapping item)
      (fun handle index => mapping[item]? = some handle ∧ source.MergingRows mapping index) WellFormed := fun item =>
    .demand (fun _ _ found merging => ⟨found, merging⟩) fun _ merging => merging.wellFormed
  refine (read row.1).bind fun first => ?_
  intro index ⟨found, merging⟩
  refine ((read row.2).bind fun second => .write fun later both => ?_) index merging
  exact appends later (first, second) both.2 (both.2.maps.bound first (List.mem_of_getElem? found))
    (both.2.maps.bound second (List.mem_of_getElem? both.1))

/-- Merging a group keeps a merge well formed, raised or not. -/
theorem mergeGroup_keeps {group : List Nat} (many : 2 ≤ group.length)
    (below : ∀ item ∈ group, item < mapping.length) :
    Ensures (source.MergingRows mapping) (mergeGroup mapping MutableIndex.appendDisjoint group)
      (fun _ => source.MergingRows mapping) WellFormed := by
  refine (mapGroup_keeps group fun _ merging => merging.wellFormed).bind fun handles => .write fun index both => ?_
  obtain ⟨found, merging⟩ := both
  obtain ⟨others, same, bounds, trees⟩ := merging.maps.translate below
  cases found.symm.trans same
  have length : handles.length = group.length := by rw [← List.length_map index.tree, trees, List.length_map]
  exact merging.appendDisjoint (many.trans_eq length.symm) bounds

/-- Merging a range keeps a merge well formed, raised or not. -/
theorem mergeRange_keeps {row : EntityRecord × Nat} (kind : row.1.kind = .objectProperty)
    (known : row.1 ∈ source.entities) :
    Ensures (source.MergingRows mapping) (mergeRange mapping MutableIndex.appendRanges row)
      (fun _ => source.MergingRows mapping) WellFormed := by
  have read : Ensures (source.MergingRows mapping) (mapped mapping row.2)
      (fun handle index => mapping[row.2]? = some handle ∧ source.MergingRows mapping index) WellFormed :=
    .demand (fun _ _ found merging => ⟨found, merging⟩) fun _ merging => merging.wellFormed
  refine read.bind fun range => .write fun index both => ?_
  exact both.2.appendRanges kind (both.2.entities known) (both.2.maps.bound range (List.mem_of_getElem? both.1))

/-- Merging the rows keeps a merge well formed, raised or not. -/
theorem mergeRows_keeps (valid : source.WellFormed) (length : mapping.length = source.expressions.length) :
    Ensures (source.Merging mapping) (mergeRows source mapping) (fun _ => source.MergingRows mapping) WellFormed := by
  have chains :
    Ensures (source.Merging mapping) (write (MutableIndex.appendChains source.propertyChains) : Mutation Unit)
      (fun _ => source.MergingRows mapping) WellFormed := .write fun _ merging => merging.appendChains valid
  refine chains.bind fun _ => ?_
  refine (Ensures.each fun row _ => mergePair_keeps fun _ _ merging => merging.appendSubclass).bind fun _ => ?_
  refine (Ensures.each fun row _ => mergePair_keeps fun _ _ merging => merging.appendEquivalent).bind fun _ => ?_
  have groups : ∀ group ∈ source.disjointGroups, Ensures (source.MergingRows mapping)
      (mergeGroup mapping MutableIndex.appendDisjoint group) (fun _ => source.MergingRows mapping) WellFormed := by
    intro group member
    obtain ⟨many, below⟩ := valid.disjoint group member
    exact mergeGroup_keeps many (length ▸ below)
  refine (Ensures.each groups).bind fun _ => ?_
  have subproperty : Ensures (source.MergingRows mapping)
      (write (MutableIndex.appendSubproperty source.subpropertyAxioms) : Mutation Unit)
      (fun _ => source.MergingRows mapping) WellFormed := .write fun _ merging => merging.appendSubproperty valid
  refine subproperty.bind fun _ => Ensures.each fun row member => ?_
  obtain ⟨kind, known, -⟩ := valid.ranges row member
  exact mergeRange_keeps kind known

/-- A builder stays well formed through a merge, also when the merge raises. -/
theorem merge_keeps (valid : source.WellFormed) {target : MutableIndex} (wellFormed : target.WellFormed) :
    (Mutation.merge source target).2.WellFormed := by
  have entities : Ensures WellFormed (write (MutableIndex.appendEntities source.entities) : Mutation Unit)
      (fun _ => source.Merging []) WellFormed := by
    refine .write fun index start => ⟨(start.entities valid.named).wellFormed, ?_, List.subset_append_right _ _⟩
    exact ⟨fun handle member => absurd member List.not_mem_nil, fun item handle found => by cases found⟩
  have features : Ensures WellFormed (each (fun row => addFeature row.2 row.1) source.featureCounts.zipIdx)
      (fun _ => WellFormed) WellFormed := .each fun row _ => addFeature_keeps row.2 row.1
  have program := entities.bind fun _ => (mergeExpressions_keeps valid rfl (Nat.zero_le _)).bind fun mapping =>
    (fun index both => ((Ensures.each fun row member => countProperty_keeps (valid.properties row member).1
      (valid.properties row member).2.1 row.2).bind fun _ => (mergeRows_keeps valid both.2).bind fun _ =>
        (features.weaken (fun _ merging => merging.wellFormed) fun _ _ => id).bind fun _ =>
          @Ensures.pure _ _ _ _ _ _ mapping fun _ => id) index both.1 :
      Ensures (fun index => source.Merging mapping index ∧ mapping.length = source.expressions.length) _ _ _)
  obtain ⟨completes, raises⟩ := program target wellFormed
  cases outcome : (Mutation.merge source target).1 with
  | ok mapping => exact completes mapping _ (Prod.ext outcome rfl)
  | error raised => exact raises raised _ (Prod.ext outcome rfl)

end

end Mutation

end PyElk
