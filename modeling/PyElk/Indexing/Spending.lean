import PyElk.Indexing.CanonicalOrder
import PyElk.Indexing.MergeContent
import PyElk.Indexing.NormalForm

namespace PyElk

namespace Content

/-- Entities without counters. -/
def known (entities : List EntityRecord) : Content := { (0 : Content) with entities := {entity | entity ∈ entities} }

/-- One feature counter. -/
def feature (name : String) (count : Nat) : Content :=
  { (0 : Content) with features := Function.update 0 (featureIndex name) count }

/-- A feature counter under a condition. -/
def featureIf (condition : Prop) [Decidable condition] (name : String) : Content :=
  if condition then feature name 1 else 0

/-- An expression interned once under a polarity. -/
noncomputable def interned (expression : ExpressionTree) (polarity : IndexPolarity) : Content :=
  known expression.entities + single expression + counter expression polarity.occurrence

end Content

/-- A step that succeeds adds exactly `cost` to the index. It raises `OverflowError`
only where that takes a counter out of range and `ValueError` only where it is refused. -/
structure Conversion.Spends {α : Type} (step : Conversion α) (index : MutableIndex) (cost : Content)
    (refused : Prop) :
    Prop where
  ok : ∀ value later, step index = .ok (value, later) → later.content = index.content + cost ∧ ¬refused
  error : ∀ raised, step index = .error raised →
    (raised = .overflowError ∧ ¬(index.content + cost).Fits) ∨ (raised = .valueError ∧ refused)

namespace Conversion

section

variable {α β : Type} {index : MutableIndex} {cost cost' : Content} {refused refused' : Prop}

theorem Spends.congr {step : Conversion α} (spends : step.Spends index cost refused) (same : cost = cost')
    (iff : refused ↔ refused') : step.Spends index cost' refused' := by
  subst same
  exact propext iff ▸ spends

theorem Spends.pure (value : α) : (Pure.pure value : Conversion α).Spends index 0 False := by
  refine ⟨fun result later done => ?_, fun raised failed => by cases failed⟩
  obtain ⟨-, rfl⟩ := pure_ok done
  exact ⟨(add_zero _).symm, id⟩

/-- The costs of two steps add up, and either may be refused. -/
theorem Spends.bind {step : Conversion α} {next : α → Conversion β} (first : step.Spends index cost refused)
    (second : ∀ value middle, step index = .ok (value, middle) → (next value).Spends middle cost' refused') :
    (step >>= next).Spends index (cost + cost') (refused ∨ refused') := by
  constructor
  · intro result later done
    obtain ⟨value, middle, found, after⟩ := bind_ok done
    obtain ⟨content, accepted⟩ := first.ok value middle found
    obtain ⟨content', accepted'⟩ := (second value middle found).ok result later after
    exact ⟨by rw [content', content, add_assoc], not_or.mpr ⟨accepted, accepted'⟩⟩
  · intro raised failed
    change (step index >>= fun pair => next pair.1 pair.2) = .error raised at failed
    cases found : step index with
    | error other =>
      rw [found] at failed
      cases failed
      rcases first.error raised found with ⟨overflow, large⟩ | ⟨guard, here⟩
      · refine Or.inl ⟨overflow, fun fits => large ?_⟩
        rw [← add_assoc] at fits
        exact fits.left
      · exact Or.inr ⟨guard, Or.inl here⟩
    | ok pair =>
      rw [found] at failed
      rcases (second pair.1 pair.2 found).error raised failed with ⟨overflow, large⟩ | ⟨guard, here⟩
      · refine Or.inl ⟨overflow, ?_⟩
        rwa [← add_assoc, ← (first.ok pair.1 pair.2 found).1]
      · exact Or.inr ⟨guard, Or.inr here⟩

/-- A step, and the steps after it that are never refused. -/
theorem Spends.then {step : Conversion α} {next : α → Conversion β} (first : step.Spends index cost refused)
    (second : ∀ value middle, step index = .ok (value, middle) → (next value).Spends middle cost' False) :
    (step >>= next).Spends index (cost + cost') refused :=
  (first.bind second).congr rfl (iff_of_eq (or_false _))

/-- A step that only refuses, and the steps after it. -/
theorem Spends.guard {step : Conversion α} {next : α → Conversion β} (first : step.Spends index 0 refused)
    (second : ∀ value middle, step index = .ok (value, middle) → (next value).Spends middle cost False) :
    (step >>= next).Spends index cost refused :=
  (first.then second).congr (zero_add _) Iff.rfl

theorem Spends.last {step : Conversion α} (spends : step.Spends index cost refused) (image : α → β) :
    (step >>= fun value => Pure.pure (image value)).Spends index cost refused :=
  (spends.bind fun value _ _ => Spends.pure (image value)).congr (add_zero _) (iff_of_eq (or_false _))

theorem require_spends (condition : Prop) [Decidable condition] :
    (require condition .valueError).Spends index 0 ¬condition := by
  unfold require
  split
  · rename_i holds
    exact (Spends.pure ()).congr rfl ⟨False.elim, fun fails => fails holds⟩
  · rename_i fails
    refine ⟨fun value later done => (by cases done), fun raised failed => ?_⟩
    cases failed
    exact Or.inr ⟨rfl, fails⟩

/-- A step over the counters of a transaction. -/
theorem checked_spends {step : MutableIndex → Option (α × MutableIndex)}
    (ok : ∀ value later, step index = some (value, later) → later.content = index.content + cost)
    (error : step index = none → ¬(index.content + cost).Fits) : (checked step).Spends index cost False := by
  refine ⟨fun value later done => ⟨ok value later (checked_ok done), id⟩, fun raised failed => ?_⟩
  unfold checked at failed
  split at failed
  · cases failed
  · cases failed
    exact Or.inl ⟨rfl, error ‹_›⟩

end

end Conversion

namespace MutableIndex

open Conversion

section

variable {index : MutableIndex}

theorem content_counts : index.content.counts = index.occurrence := rfl

theorem addEntity_spends (entity : EntityRecord) :
    (addEntity entity).Spends index (Content.known [entity]) False := by
  refine ⟨fun value later done => ?_, fun raised failed => by cases failed⟩
  cases done
  refine ⟨Content.ext ?_ (Set.union_empty _).symm (add_zero _).symm (add_zero _).symm (Set.union_empty _).symm
    (Set.union_empty _).symm (add_zero _).symm, id⟩
  exact Set.ext fun other => List.mem_append

/-- A feature costs its count. -/
theorem addFeature_spends {name : String} (inside : featureIndex name < FEATURE_VECTOR_LENGTH)
    (wellFormed : index.WellFormed)
    (count : Nat) : (addFeature name count).Spends index (Content.feature name count) False := by
  have bound : featureIndex name < index.featureCounts.length := wellFormed.features.1.symm ▸ inside
  refine checked_spends (fun value later done => ?_) fun failed fits => ?_
  · dsimp only at done
    rw [Option.ite_none_right_eq_some] at done
    cases done.2
    refine Content.ext (Set.union_empty _).symm (Set.union_empty _).symm (add_zero _).symm (add_zero _).symm
      (Set.union_empty _).symm (Set.union_empty _).symm ?_
    funext feature
    change (index.featureCounts.set (featureIndex name) _).getD feature 0 =
      index.featureCounts.getD feature 0 + Function.update (0 : Nat → Nat) (featureIndex name) count feature
    by_cases same : feature = featureIndex name
    · subst same
      rw [List.getD_eq_getElem?_getD, List.getElem?_set_self bound, Option.getD_some, Function.update_self]
    · rw [Function.update_of_ne same, List.getD_eq_getElem?_getD, List.getElem?_set_ne (Ne.symm same),
        List.getD_eq_getElem?_getD]
      rfl
  · have small := fits.features (featureIndex name)
    change index.featureCounts.getD (featureIndex name) 0 +
      Function.update (0 : Nat → Nat) (featureIndex name) count (featureIndex name) ≤ U64_MAX at small
    rw [Function.update_self] at small
    dsimp only at failed
    rw [if_pos small] at failed
    cases failed

theorem addFeatureIf_spends {name : String} (inside : featureIndex name < FEATURE_VECTOR_LENGTH)
    (wellFormed : index.WellFormed) (condition : Prop) [Decidable condition] :
    (addFeatureIf condition name).Spends index (Content.featureIf condition name) False := by
  unfold addFeatureIf Content.featureIf
  split
  · exact addFeature_spends inside wellFormed 1
  · exact .pure ()

theorem addPropertyOccurrence_spends (entity : EntityRecord) (counts : Occurrence) :
    (checked fun index => (index.addPropertyOccurrence entity counts).map fun index => ((), index)).Spends index
      (Content.property entity counts) False := by
  refine checked_spends (fun value later done => ?_) fun failed fits => ?_
  · obtain ⟨grown, added, same⟩ := Option.map_eq_some_iff.mp done
    cases same
    exact addPropertyOccurrence_content added
  · have sum := fits.properties entity
    change (index.content.properties entity + Function.update
      (0 : EntityRecord → Occurrence) entity counts entity).Fits
      at sum
    rw [Function.update_self] at sum
    obtain ⟨grown, added⟩ := Option.isSome_iff_exists.mp (addPropertyOccurrence_isSome.mpr sum)
    rw [added] at failed
    cases failed

/-- A recorded property costs its entity and its occurrence. -/
theorem recordObjectProperty_spends {entity : EntityRecord} (kind : entity.kind = .objectProperty)
    (polarity : IndexPolarity) : (recordObjectProperty entity polarity).Spends index
      (Content.known [entity] + Content.property entity polarity.occurrence) False := by
  have guard : Conversion.require (entity.kind = .objectProperty) .typeError = pure () := if_pos kind
  unfold recordObjectProperty
  rw [guard, pure_bind]
  exact (addEntity_spends entity).then fun _ _ _ => addPropertyOccurrence_spends entity polarity.occurrence

/-- Interning a key adds its entities and its expression. -/
theorem WellFormed.intern_adds (wellFormed : index.WellFormed) {key : ExpressionKey} (shaped : key.Shaped)
    (bound : ∀ operand ∈ key.expressions, operand < index.expressions.length)
    (named : ∀ entity ∈ key.entities, entity.iri ≠ "") :
    (index.intern key).content = index.content + Content.known key.entities + Content.single (index.keyTree key) := by
  have emits := wellFormed.entities named
  have content := emits.wellFormed.intern_content shaped bound named (List.subset_append_right _ _)
  have more : ({ index with entities := index.entities ++ key.entities } : MutableIndex).content =
      index.content + Content.known key.entities := by
    refine Content.ext (Set.ext fun entity => List.mem_append) (Set.union_empty _).symm (add_zero _).symm
      (add_zero _).symm (Set.union_empty _).symm (Set.union_empty _).symm (add_zero _).symm
  have twice : (({ index with entities := index.entities ++ key.entities } : MutableIndex).intern key).content =
      (index.intern key).content := by
    have entities : ∀ other : EntityRecord, other ∈ index.entities ++ key.entities ++ key.entities ↔
        other ∈ index.entities ++ key.entities := by
      intro other
      simp only [List.mem_append]
      tauto
    unfold MutableIndex.intern
    dsimp only
    split <;> exact Content.ext (Set.ext entities) rfl rfl rfl rfl rfl rfl
  rw [← twice, content, more]
  rfl

/-- An interned expression costs its tree at the given polarity. -/
theorem internKey_spends (wellFormed : index.WellFormed) {key : ExpressionKey} (shaped : key.Shaped)
    (bound : ∀ operand ∈ key.expressions, operand < index.expressions.length)
    (named : ∀ entity ∈ key.entities, entity.iri ≠ "") (polarity : IndexPolarity) :
    (internKey key polarity).Spends index (Content.interned (index.keyTree key) polarity) False := by
  have emits := wellFormed.intern shaped bound named
  have place := index.intern_key key
  have inside := (List.getElem?_eq_some_iff.mp place).1
  have tree : (index.intern key).tree (index.expressions.idxOf key) = index.keyTree key := by
    rw [MutableIndex.tree, treeOf_entry emits.wellFormed.operands place, keyTree]
    exact congrArg (fun operands => ExpressionTree.node key.tag key.entities operands key.payload)
      (emits.extension.map_tree bound)
  have content := wellFormed.intern_adds shaped bound named
  refine checked_spends (fun value later done => ?_) fun failed fits => ?_
  · obtain ⟨pair, interned, same⟩ := Option.map_eq_some_iff.mp done
    obtain ⟨grown, added, last⟩ := Option.map_eq_some_iff.mp interned
    cases last
    cases same
    rw [emits.wellFormed.addOccurrence_content inside added, content, tree]
    simp only [Content.interned, add_assoc]
    rfl
  · have whole := fits.counts (index.keyTree key)
    have sum : ((index.intern key).occurrence (index.keyTree key) + polarity.occurrence).Fits := by
      have counts : (index.intern key).occurrence (index.keyTree key) = index.occurrence (index.keyTree key) := by
        have same := congrFun (congrArg Content.counts content) (index.keyTree key)
        exact same.trans (by simp [Content.known, Content.single, content_counts])
      rw [counts]
      simpa [Content.interned, Content.known, Content.single, Content.counter, content_counts] using whole
    rw [← tree] at sum
    obtain ⟨grown, added⟩ := Option.isSome_iff_exists.mp ((emits.wellFormed.addOccurrence_isSome inside).mpr sum)
    rw [internExpression, added] at failed
    cases failed

theorem expressionTag_spends {handle : Nat} (bound : handle < index.expressions.length) :
    (expressionTag handle).Spends index 0 False := by
  have found : expressionTag handle index = .ok (index.expressions[handle].tag, index) := by
    have entry := List.getElem?_eq_getElem bound
    simp only [expressionTag, bind, StateT.bind, get, getThe, MonadStateOf.get, StateT.get, pure,
      Except.pure, Except.bind,
      entry]
    rfl
  refine ⟨fun value later done => ?_, fun raised failed => ?_⟩
  · rw [found] at done
    cases done
    exact ⟨(add_zero _).symm, id⟩
  · rw [found] at failed
    cases failed

end

end MutableIndex

end PyElk
