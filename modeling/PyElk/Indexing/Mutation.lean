import PyElk.Indexing.Merge
import PyElk.Support.Raising

open Raising

namespace PyElk

/-- What the methods of a builder raise. -/
inductive BuilderError
  | overflowError (field : String)
  | keyError (handle : Nat)
  | indexError
  | runtimeError
  | unsupportedFeatureError (feature : String)
  | conversionError (raised : ConversionError)
  deriving DecidableEq, Repr

/-- A method of a builder: what it has written when it raises stays. -/
abbrev Mutation := Raising BuilderError MutableIndex

namespace Mutation

/-- `_checked_add`. -/
def checkedAdd (current increment : Nat) (field : String) : Mutation Nat :=
  if current + increment ≤ U64_MAX then pure (current + increment) else raise (.overflowError field)

/-- Both counters of a handle, the negative one first. -/
def countExpression (handle : Nat) (counts : Occurrence) : Mutation Unit := do
  let occurrence ← read fun index => index.expressionOccurrences.getD handle ⟨0, 0⟩
  let negative ← checkedAdd occurrence.negative counts.negative "negative expression occurrence"
  write fun index => index.setCounts handle ⟨negative, occurrence.positive⟩
  let positive ← checkedAdd occurrence.positive counts.positive "positive expression occurrence"
  write fun index => index.setCounts handle ⟨negative, positive⟩

/-- `intern_expression`. -/
def internExpression (key : ExpressionKey) (polarity : Occurrence) : Mutation Nat := do
  let handle ← read fun index => index.expressions.idxOf key
  write fun index => index.intern key
  countExpression handle polarity
  pure handle

/-- Both counters of a property, with zero counters for a new one. -/
def countProperty (property : EntityRecord) (counts : Occurrence) : Mutation Unit := do
  let occurrence ← read fun index => (index.propertyOccurrences.lookup property).getD ⟨0, 0⟩
  write fun index => index.setProperty property occurrence
  let negative ← checkedAdd occurrence.negative counts.negative "negative property occurrence"
  write fun index => index.setProperty property ⟨negative, occurrence.positive⟩
  let positive ← checkedAdd occurrence.positive counts.positive "positive property occurrence"
  write fun index => index.setProperty property ⟨negative, positive⟩

/-- `add_feature`. -/
def addFeature (position count : Nat) : Mutation Unit := do
  let found ← read fun index => index.featureCounts[position]?
  let current ← demand .indexError found
  let total ← checkedAdd current count ("feature count " ++ toString position)
  write fun index => { index with featureCounts := index.featureCounts.set position total }

/-- `expression_mapping[item]`. -/
def mapped (mapping : List Nat) (item : Nat) : Mutation Nat := demand (.keyError item) mapping[item]?

def mapGroup (mapping : List Nat) : List Nat → Mutation (List Nat)
  | [] => pure []
  | item :: rest => do
    let handle ← mapped mapping item
    let handles ← mapGroup mapping rest
    pure (handle :: handles)

/-- The loop of `merge` over the expressions of a transaction. -/
def mergeExpressions (occurrences : List Occurrence) : List ExpressionKey → List Nat → Mutation (List Nat)
  | [], mapping => pure mapping
  | key :: rest, mapping => do
    let expressions ← mapGroup mapping key.expressions
    let translated ← internExpression { key with expressions := expressions } ⟨0, 0⟩
    let counts ← demand .indexError occurrences[mapping.length]?
    countExpression translated counts
    mergeExpressions occurrences rest (mapping ++ [translated])

/-- One row of two expressions. -/
def mergePair (mapping : List Nat) (append : List (Nat × Nat) → MutableIndex → MutableIndex) (row : Nat × Nat) :
    Mutation Unit := do
  let first ← mapped mapping row.1
  let second ← mapped mapping row.2
  write (append [(first, second)])

def mergeGroup (mapping : List Nat) (append : List (List Nat) → MutableIndex → MutableIndex) (group : List Nat) :
    Mutation Unit := do
  let members ← mapGroup mapping group
  write (append [members])

def mergeRange (mapping : List Nat) (append : List (EntityRecord × Nat) → MutableIndex → MutableIndex)
    (row : EntityRecord × Nat) : Mutation Unit := do
  let range ← mapped mapping row.2
  write (append [(row.1, range)])

end Mutation

namespace MutableIndex

def appendEntities (rows : List EntityRecord) (index : MutableIndex) : MutableIndex :=
  { index with entities := index.entities ++ rows }

def appendChains (rows : List (List EntityRecord)) (index : MutableIndex) : MutableIndex :=
  { index with propertyChains := index.propertyChains ++ rows }

def appendSubclass (rows : List (Nat × Nat)) (index : MutableIndex) : MutableIndex :=
  { index with subclassAxioms := index.subclassAxioms ++ rows }

def appendEquivalent (rows : List (Nat × Nat)) (index : MutableIndex) : MutableIndex :=
  { index with equivalentClassAxioms := index.equivalentClassAxioms ++ rows }

def appendDisjoint (rows : List (List Nat)) (index : MutableIndex) : MutableIndex :=
  { index with disjointGroups := index.disjointGroups ++ rows }

def appendSubproperty (rows : List (List EntityRecord × EntityRecord)) (index : MutableIndex) : MutableIndex :=
  { index with subpropertyAxioms := index.subpropertyAxioms ++ rows }

def appendRanges (rows : List (EntityRecord × Nat)) (index : MutableIndex) : MutableIndex :=
  { index with propertyRanges := index.propertyRanges ++ rows }

end MutableIndex

open MutableIndex

/-- The row tables of a transaction, once its handles are mapped. -/
def Mutation.mergeRows (transaction : MutableIndex) (mapping : List Nat) : Mutation Unit := do
  write (appendChains transaction.propertyChains)
  each (mergePair mapping appendSubclass) transaction.subclassAxioms
  each (mergePair mapping appendEquivalent) transaction.equivalentClassAxioms
  each (mergeGroup mapping appendDisjoint) transaction.disjointGroups
  write (appendSubproperty transaction.subpropertyAxioms)
  each (mergeRange mapping appendRanges) transaction.propertyRanges

/-- `OntologyBuilder.merge`, with all that it writes before it raises. -/
def Mutation.merge (transaction : MutableIndex) : Mutation (List Nat) := do
  write (appendEntities transaction.entities)
  let mapping ← mergeExpressions transaction.expressionOccurrences transaction.expressions []
  each (fun row => countProperty row.1 row.2) transaction.propertyOccurrences
  mergeRows transaction mapping
  each (fun row => addFeature row.2 row.1) transaction.featureCounts.zipIdx
  pure mapping

/-! The methods compute what the partial functions on the same tables do. -/

namespace Mutation

/-- `_checked_add` on a builder: the sum, or an error that leaves the builder as it was. -/
theorem checkedAdd_apply (current increment : Nat) (field : String) (index : MutableIndex) :
    checkedAdd current increment field index =
      if current + increment ≤ U64_MAX then (.ok (current + increment), index)
      else (.error (.overflowError field), index) := by
  unfold checkedAdd
  split
  · rfl
  · rfl

theorem checkedAdd_computes (current increment : Nat) (field : String) : Computes (checkedAdd current increment field)
    fun index => if current + increment ≤ U64_MAX then some (current + increment, index) else none := by
  intro index
  rw [checkedAdd_apply]
  dsimp only
  split
  · refine ⟨fun result same => ?_, fun missing => ?_⟩
    · cases same
      rfl
    · cases missing
  · refine ⟨fun result same => ?_, fun _ => ⟨_, rfl⟩⟩
    cases same

/-- Counting an occurrence computes the pure update, and raises where that has no value. -/
theorem countExpression_computes (handle : Nat) (counts : Occurrence) : Computes (countExpression handle counts)
    fun index => (index.addOccurrence handle counts).map fun later => ((), later) := by
  refine ((Computes.read _).bind fun occurrence => (checkedAdd_computes _ _ _).bind fun negative =>
    (Computes.write _).bind fun _ => (checkedAdd_computes _ _ _).bind fun positive => Computes.write _).congr
      fun index => ?_
  simp only [addOccurrence, Occurrence.checkedAdd, setCounts, Option.bind_some]
  by_cases first : (index.expressionOccurrences.getD handle ⟨0, 0⟩).negative + counts.negative ≤ U64_MAX
  · by_cases second : (index.expressionOccurrences.getD handle ⟨0, 0⟩).positive + counts.positive ≤ U64_MAX
    · rw [if_pos ⟨first, second⟩, if_pos first, Option.bind_some, if_pos second]
      simp only [Option.map_some, Option.bind_some, List.set_set]
    · rw [if_neg fun both => second both.2, if_pos first, Option.bind_some, if_neg second]
      rfl
  · rw [if_neg fun both => first both.1, if_neg first]
    rfl

/-- So does interning an expression. -/
theorem internExpression_computes (key : ExpressionKey) (polarity : Occurrence) :
    Computes (internExpression key polarity) fun index => (index.internExpression key polarity).map Prod.swap := by
  refine ((Computes.read _).bind fun handle => (Computes.write _).bind fun _ =>
    (countExpression_computes handle _).bind
    fun _ => Computes.pure handle).congr fun index => ?_
  simp only [MutableIndex.internExpression, Option.bind_some, Option.map_map]
  cases (index.intern key).addOccurrence (index.expressions.idxOf key) polarity with
  | none => rfl
  | some later => rfl

/-- Only the last counters of a property are kept. -/
theorem setProperty_twice (index : MutableIndex) (property : EntityRecord) (first second : Occurrence) :
    (index.setProperty property first).setProperty property second = index.setProperty property second := by
  simp only [setProperty, Ordered.setItem_twice]

/-- Counting a property computes the pure update, although it writes the two counters one by one. -/
theorem countProperty_computes (property : EntityRecord) (counts : Occurrence) :
    Computes (countProperty property counts)
    fun index => (index.addPropertyOccurrence property counts).map fun later => ((), later) := by
  refine ((Computes.read _).bind fun occurrence => (Computes.write _).bind fun _ => (checkedAdd_computes _ _ _).bind
    fun negative => (Computes.write _).bind fun _ => (checkedAdd_computes _ _ _).bind fun positive =>
      Computes.write _).congr fun index => ?_
  simp only [addPropertyOccurrence, Occurrence.checkedAdd, Option.bind_some]
  by_cases first : ((index.propertyOccurrences.lookup property).getD ⟨0, 0⟩).negative + counts.negative ≤ U64_MAX
  · by_cases second : ((index.propertyOccurrences.lookup property).getD ⟨0, 0⟩).positive + counts.positive ≤ U64_MAX
    · rw [if_pos ⟨first, second⟩, if_pos first, Option.bind_some, if_pos second]
      simp only [Option.map_some, Option.bind_some, setProperty_twice]
      rfl
    · rw [if_neg fun both => second both.2, if_pos first, Option.bind_some, if_neg second]
      rfl
  · rw [if_neg fun both => first both.1, if_neg first]
    rfl

/-- The loop over the members of a group looks each of them up. -/
theorem mapGroup_computes (mapping items : List Nat) : Computes (mapGroup mapping items)
    fun index => (items.mapM fun item => mapping[item]?).map fun handles => (handles, index) := by
  induction items with
  | nil => exact Computes.pure []
  | cons item rest ih =>
    refine ((Computes.demand _ _).bind fun handle => ih.bind fun handles => Computes.pure _).congr fun index => ?_
    rw [List.mapM_cons]
    cases mapping[item]? with
    | none => rfl
    | some handle =>
      cases rest.mapM fun item => mapping[item]? with
      | none => rfl
      | some handles => rfl

/-- The loop over the expressions computes the pure merge of the expressions. -/
theorem mergeExpressions_computes (occurrences : List Occurrence) (keys : List ExpressionKey) (mapping : List Nat) :
    Computes (mergeExpressions occurrences keys mapping)
      fun index => (MutableIndex.mergeExpressions occurrences keys index mapping).map Prod.swap := by
  induction keys generalizing mapping with
  | nil => exact Computes.pure mapping
  | cons key rest ih =>
    refine ((mapGroup_computes _ _).bind fun expressions => (internExpression_computes _ _).bind fun translated =>
      (Computes.demand _ _).bind fun counts => (countExpression_computes _ _).bind fun _ => ih _).congr
        fun index => ?_
    simp only [MutableIndex.mergeExpressions, MutableIndex.mergeExpression, Option.bind_eq_bind, Option.pure_def]
    cases occurrences[mapping.length]? with
    | none =>
      cases key.expressions.mapM fun item => mapping[item]? with
      | none => rfl
      | some expressions =>
        dsimp only [Option.map_some, Option.bind_some]
        cases index.internExpression { key with expressions := expressions } ⟨0, 0⟩ with
        | none => rfl
        | some interned => rfl
    | some counts =>
      cases key.expressions.mapM fun item => mapping[item]? with
      | none => rfl
      | some expressions =>
        dsimp only [Option.map_some, Option.bind_some]
        cases index.internExpression { key with expressions := expressions } ⟨0, 0⟩ with
        | none => rfl
        | some interned =>
          obtain ⟨middle, translated⟩ := interned
          dsimp only [Option.map_some, Option.bind_some, Prod.swap]
          cases middle.addOccurrence translated counts with
          | none => rfl
          | some later => rfl

/-- A row of two handles is added under the mapping. -/
theorem mergePair_computes (mapping : List Nat) (append : List (Nat × Nat) → MutableIndex → MutableIndex)
    (row : Nat × Nat) :
    Computes (mergePair mapping append row) fun index =>
      ((do pure (← mapping[row.1]?, ← mapping[row.2]?) : Option (Nat × Nat))).map fun image =>
      ((), append [image] index) := by
  refine ((Computes.demand _ _).bind fun first => (Computes.demand _ _).bind fun second => Computes.write _).congr
    fun index => ?_
  cases mapping[row.1]? with
  | none => rfl
  | some first =>
    cases mapping[row.2]? with
    | none => rfl
    | some second => rfl

theorem mergeGroup_computes (mapping : List Nat) (append : List (List Nat) → MutableIndex → MutableIndex)
    (group : List Nat) :
    Computes (mergeGroup mapping append group) fun index =>
      (group.mapM fun item => mapping[item]?).map fun image => ((), append [image] index) := by
  refine ((mapGroup_computes _ _).bind fun members => Computes.write _).congr fun index => ?_
  cases group.mapM fun item => mapping[item]? with
  | none => rfl
  | some members => rfl

theorem mergeRange_computes (mapping : List Nat) (append : List (EntityRecord × Nat) → MutableIndex → MutableIndex)
    (row : EntityRecord × Nat) : Computes (mergeRange mapping append row) fun index =>
      ((do pure (row.1, ← mapping[row.2]?) : Option (EntityRecord × Nat))).map fun image =>
      ((), append [image] index) := by
  refine ((Computes.demand _ _).bind fun range => Computes.write _).congr fun index => ?_
  cases mapping[row.2]? with
  | none => rfl
  | some range => rfl

theorem addFeature_none {position count : Nat} {index : MutableIndex}
    (found : index.featureCounts[position]? = none) :
    addFeature position count index = (.error .indexError, index) := by
  change (demand BuilderError.indexError index.featureCounts[position]? >>= fun _ => _) index = _
  rw [found]
  rfl

theorem addFeature_some {position count current : Nat} {index : MutableIndex}
    (found : index.featureCounts[position]? = some current) : addFeature position count index =
      if current + count ≤ U64_MAX then
        (.ok (), { index with featureCounts := index.featureCounts.set position (current + count) })
      else (.error (.overflowError ("feature count " ++ toString position)), index) := by
  change (demand BuilderError.indexError index.featureCounts[position]? >>= fun _ => _) index = _
  rw [found]
  change (checkedAdd current count ("feature count " ++ toString position) >>= fun _ => _) index = _
  by_cases room : current + count ≤ U64_MAX
  · rw [if_pos room]
    exact bind_ok ((checkedAdd_apply _ _ _ _).trans (if_pos room))
  · rw [if_neg room]
    exact bind_error ((checkedAdd_apply _ _ _ _).trans (if_neg room))

/-- The counters from a position on take the increments one after the other. -/
theorem addFeatures_computes (done counts increments : List Nat) {index : MutableIndex}
    (split : index.featureCounts = done ++ counts) :
    (∀ sums, mergeFeatures counts increments = some sums →
      each (fun row => addFeature row.2 row.1) (increments.zipIdx done.length) index =
        (.ok (), { index with featureCounts := done ++ sums })) ∧
    (mergeFeatures counts increments = none →
      ∃ raised, (each (fun row => addFeature row.2 row.1) (increments.zipIdx done.length) index).1 =
        .error raised) := by
  induction increments generalizing done counts index with
  | nil =>
    refine ⟨fun sums same => ?_, fun missing => ?_⟩
    · cases counts <;>
      · cases same
        rw [← split]
        rfl
    · cases counts <;> cases missing
  | cons increment rest ih =>
    rw [List.zipIdx_cons, each]
    cases counts with
    | nil =>
      have nothing : index.featureCounts[done.length]? = none := by
        rw [split, List.append_nil]
        exact List.getElem?_eq_none le_rfl
      refine ⟨fun sums same => (by cases same), fun _ => ⟨.indexError, ?_⟩⟩
      exact congrArg Prod.fst (bind_error (addFeature_none nothing))
    | cons current counts =>
      have found : index.featureCounts[done.length]? = some current := by
        rw [split, List.getElem?_append_right le_rfl, Nat.sub_self]
        rfl
      have turn := @addFeature_some _ increment _ _ found
      rw [mergeFeatures]
      by_cases room : current + increment ≤ U64_MAX
      · rw [if_pos room] at turn ⊢
        have next : index.featureCounts.set done.length (current + increment) =
          (done ++ [current + increment]) ++ counts := by
          rw [split, List.set_append_right _ _ le_rfl, Nat.sub_self, List.set_cons_zero, List.append_assoc]
          rfl
        have size : (done ++ [current + increment]).length = done.length + 1 := List.length_append
        obtain ⟨finds, misses⟩ := @ih (done ++ [current + increment]) counts
          { index with featureCounts := index.featureCounts.set done.length (current + increment) } next
        rw [size] at finds misses
        rw [bind_ok turn]
        refine ⟨fun sums same => ?_, fun missing => misses (Option.map_eq_none_iff.mp missing)⟩
        obtain ⟨tail, others, rfl⟩ := Option.map_eq_some_iff.mp same
        rw [finds tail others, List.append_assoc]
        rfl
      · rw [if_neg room] at turn ⊢
        refine ⟨fun sums same => (by cases same), fun _ => ?_⟩
        rw [bind_error turn]
        exact ⟨_, rfl⟩

section

variable (transaction : MutableIndex) (mapping : List Nat)

/-- The row of two expressions over the handles of the target. -/
def pairImage (row : Nat × Nat) : Option (Nat × Nat) := do pure (← mapping[row.1]?, ← mapping[row.2]?)

def groupImage (group : List Nat) : Option (List Nat) := group.mapM fun item => mapping[item]?

def rangeImage (row : EntityRecord × Nat) : Option (EntityRecord × Nat) := do pure (row.1, ← mapping[row.2]?)

def addPropertyRow (index : MutableIndex) (row : EntityRecord × Occurrence) : Option MutableIndex :=
  index.addPropertyOccurrence row.1 row.2

/-- The tables of an index with the row tables of a transaction. -/
def appendRows (index : MutableIndex) (subclass equivalent : List (Nat × Nat)) (groups : List (List Nat))
    (ranges : List (EntityRecord × Nat)) : MutableIndex :=
  appendRanges ranges (appendSubproperty transaction.subpropertyAxioms (appendDisjoint groups
    (appendEquivalent equivalent (appendSubclass subclass (appendChains transaction.propertyChains index)))))

theorem mergeRows_computes : Computes (mergeRows transaction mapping) fun index =>
    (transaction.subclassAxioms.mapM (pairImage mapping)).bind fun subclass =>
      (transaction.equivalentClassAxioms.mapM (pairImage mapping)).bind fun equivalent =>
        (transaction.disjointGroups.mapM (groupImage mapping)).bind fun groups =>
          (transaction.propertyRanges.mapM (rangeImage mapping)).map fun ranges =>
            ((), appendRows transaction index subclass equivalent groups ranges) := by
  have subclass := Computes.each_append (mergePair_computes mapping appendSubclass)
    (fun index => by simp [appendSubclass]) (fun first second index => by simp [appendSubclass])
    transaction.subclassAxioms
  have equivalent := Computes.each_append (mergePair_computes mapping appendEquivalent)
    (fun index => by simp [appendEquivalent]) (fun first second index => by simp [appendEquivalent])
    transaction.equivalentClassAxioms
  have groups := Computes.each_append (mergeGroup_computes mapping appendDisjoint)
    (fun index => by simp [appendDisjoint]) (fun first second index => by simp [appendDisjoint])
    transaction.disjointGroups
  have ranges := Computes.each_append (mergeRange_computes mapping appendRanges)
    (fun index => by simp [appendRanges]) (fun first second index => by simp [appendRanges])
    transaction.propertyRanges
  refine ((Computes.write (appendChains transaction.propertyChains)).bind fun _ => subclass.bind fun _ =>
    equivalent.bind fun _ => groups.bind fun _ =>
      (Computes.write (appendSubproperty transaction.subpropertyAxioms)).bind fun _ => ranges).congr fun index => ?_
  change _ = ((transaction.subclassAxioms.mapM (pairImage mapping)).map _).bind _
  cases transaction.subclassAxioms.mapM (pairImage mapping) with
  | none => rfl
  | some subclass =>
    change _ = ((transaction.equivalentClassAxioms.mapM (pairImage mapping)).map _).bind _
    cases transaction.equivalentClassAxioms.mapM (pairImage mapping) with
    | none => rfl
    | some equivalent =>
      change _ = ((transaction.disjointGroups.mapM (groupImage mapping)).map _).bind _
      cases transaction.disjointGroups.mapM (groupImage mapping) with
      | none => rfl
      | some groups =>
        change _ = (transaction.propertyRanges.mapM (rangeImage mapping)).map _
        cases transaction.propertyRanges.mapM (rangeImage mapping) with
        | none => rfl
        | some ranges => rfl

theorem propertyLoop_computes : Computes (each (fun row => countProperty row.1 row.2) transaction.propertyOccurrences)
    fun index => (transaction.propertyOccurrences.foldlM addPropertyRow index).map fun later => ((), later) :=
  Computes.each_fold (fun row : EntityRecord × Occurrence => countProperty_computes row.1 row.2) _

theorem featureLoop_computes : Computes (each (fun row => addFeature row.2 row.1) transaction.featureCounts.zipIdx)
    fun index => (mergeFeatures index.featureCounts transaction.featureCounts).map fun sums =>
      ((), { index with featureCounts := sums }) := by
  intro index
  obtain ⟨finds, misses⟩ := addFeatures_computes [] index.featureCounts transaction.featureCounts rfl
  refine ⟨fun result same => ?_, fun missing => misses (Option.map_eq_none_iff.mp missing)⟩
  obtain ⟨sums, found, rfl⟩ := Option.map_eq_some_iff.mp same
  exact finds sums found

/-- Writing before raising changes no result: `merge` succeeds where the partial function has a value. -/
theorem merge_computes :
    Computes (Mutation.merge transaction) fun index => (index.merge transaction).map Prod.swap := by
  refine ((Computes.write (appendEntities transaction.entities)).bind fun _ =>
    (mergeExpressions_computes transaction.expressionOccurrences transaction.expressions []).bind fun mapping =>
      (propertyLoop_computes transaction).bind fun _ => (mergeRows_computes transaction mapping).bind fun _ =>
        (featureLoop_computes transaction).bind fun _ => Computes.pure mapping).congr fun index => ?_
  change (MutableIndex.merge _ _).map _ = ((MutableIndex.mergeExpressions _ _ (appendEntities _ _) _).map _).bind _
  unfold MutableIndex.merge
  change ((MutableIndex.mergeExpressions _ _ (appendEntities transaction.entities index) _).bind _).map _ = _
  cases MutableIndex.mergeExpressions transaction.expressionOccurrences transaction.expressions
      (appendEntities transaction.entities index) [] with
  | none => rfl
  | some merged =>
    obtain ⟨middle, mapping⟩ := merged
    change ((transaction.propertyOccurrences.foldlM addPropertyRow middle).bind _).map _ =
      ((transaction.propertyOccurrences.foldlM addPropertyRow middle).map _).bind _
    cases transaction.propertyOccurrences.foldlM addPropertyRow middle with
    | none => rfl
    | some later =>
      change ((transaction.subclassAxioms.mapM (pairImage mapping)).bind _).map _ =
        ((transaction.subclassAxioms.mapM (pairImage mapping)).bind _).bind _
      cases transaction.subclassAxioms.mapM (pairImage mapping) with
      | none => rfl
      | some subclass =>
        change ((transaction.equivalentClassAxioms.mapM (pairImage mapping)).bind _).map _ =
          ((transaction.equivalentClassAxioms.mapM (pairImage mapping)).bind _).bind _
        cases transaction.equivalentClassAxioms.mapM (pairImage mapping) with
        | none => rfl
        | some equivalent =>
          change ((transaction.disjointGroups.mapM (groupImage mapping)).bind _).map _ =
            ((transaction.disjointGroups.mapM (groupImage mapping)).bind _).bind _
          cases transaction.disjointGroups.mapM (groupImage mapping) with
          | none => rfl
          | some groups =>
            change ((transaction.propertyRanges.mapM (rangeImage mapping)).bind _).map _ =
              ((transaction.propertyRanges.mapM (rangeImage mapping)).map _).bind _
            cases transaction.propertyRanges.mapM (rangeImage mapping) with
            | none => rfl
            | some ranges =>
              change ((mergeFeatures later.featureCounts transaction.featureCounts).bind _).map _ =
                ((mergeFeatures later.featureCounts transaction.featureCounts).map _).bind _
              cases mergeFeatures later.featureCounts transaction.featureCounts with
              | none => rfl
              | some sums => rfl

end

end Mutation

end PyElk
