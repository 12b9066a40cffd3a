import Mathlib.Algebra.BigOperators.Group.List.Basic
import Mathlib.Algebra.Group.Pi.Basic
import Mathlib.Algebra.GroupWithZero.Nat
import PyElk.Indexing.Recording

namespace PyElk

@[ext]
theorem Occurrence.ext {left right : Occurrence} (negative : left.negative = right.negative)
    (positive : left.positive = right.positive) : left = right := by
  cases left
  cases right
  cases negative
  cases positive
  rfl

instance : Zero Occurrence := ⟨⟨0, 0⟩⟩

instance : Add Occurrence := ⟨fun left right => ⟨left.negative + right.negative, left.positive + right.positive⟩⟩

@[simp] theorem Occurrence.add_negative (left right : Occurrence) :
    (left + right).negative = left.negative + right.negative := rfl

@[simp] theorem Occurrence.add_positive (left right : Occurrence) :
    (left + right).positive = left.positive + right.positive := rfl

instance : AddCommMonoid Occurrence where
  add_assoc a b c := Occurrence.ext (Nat.add_assoc _ _ _) (Nat.add_assoc _ _ _)
  zero_add a := Occurrence.ext (Nat.zero_add _) (Nat.zero_add _)
  add_zero a := rfl
  add_comm a b := Occurrence.ext (Nat.add_comm _ _) (Nat.add_comm _ _)
  nsmul := nsmulRec

/-- A checked addition gives the sum, as long as both counters fit. -/
theorem Occurrence.checkedAdd_eq_some {counts increment total : Occurrence} :
    counts.checkedAdd increment = some total ↔ (counts + increment).Fits ∧ counts + increment = total := by
  rw [checkedAdd, Option.ite_none_right_eq_some, Option.some.injEq]
  rfl

/-- What was added to stays in range when the sum does. -/
theorem Occurrence.Fits.left {counts increment : Occurrence} (fits : (counts + increment).Fits) : counts.Fits :=
  ⟨(Nat.le_add_right _ _).trans fits.1, (Nat.le_add_right _ _).trans fits.2⟩

theorem Occurrence.fits_zero : (0 : Occurrence).Fits := ⟨Nat.zero_le _, Nat.zero_le _⟩

noncomputable instance : DecidableEq ExpressionTree := Classical.decEq _

/-- What an index says, without its handles and without any order: the sets of its
entities, expressions, chains and rows, and its counters. -/
@[ext]
structure Content where
  entities : Set EntityRecord
  trees : Set ExpressionTree
  counts : ExpressionTree → Occurrence
  properties : EntityRecord → Occurrence
  chains : Set (List EntityRecord)
  rows : Set NormalRow
  features : Nat → Nat

namespace Content

instance : Zero Content := ⟨⟨∅, ∅, 0, 0, ∅, ∅, 0⟩⟩

instance : Add Content where
  add left right :=
    { entities := left.entities ∪ right.entities
      trees := left.trees ∪ right.trees
      counts := left.counts + right.counts
      properties := left.properties + right.properties
      chains := left.chains ∪ right.chains
      rows := left.rows ∪ right.rows
      features := left.features + right.features }

section

variable (left right : Content)

@[simp] theorem add_entities : (left + right).entities = left.entities ∪ right.entities := rfl

@[simp] theorem add_trees : (left + right).trees = left.trees ∪ right.trees := rfl

@[simp] theorem add_counts : (left + right).counts = left.counts + right.counts := rfl

@[simp] theorem add_properties : (left + right).properties = left.properties + right.properties := rfl

@[simp] theorem add_chains : (left + right).chains = left.chains ∪ right.chains := rfl

@[simp] theorem add_rows : (left + right).rows = left.rows ∪ right.rows := rfl

@[simp] theorem add_features : (left + right).features = left.features + right.features := rfl

end

@[simp] theorem zero_entities : (0 : Content).entities = ∅ := rfl

@[simp] theorem zero_trees : (0 : Content).trees = ∅ := rfl

@[simp] theorem zero_counts : (0 : Content).counts = 0 := rfl

@[simp] theorem zero_properties : (0 : Content).properties = 0 := rfl

@[simp] theorem zero_chains : (0 : Content).chains = ∅ := rfl

@[simp] theorem zero_rows : (0 : Content).rows = ∅ := rfl

@[simp] theorem zero_features : (0 : Content).features = 0 := rfl

instance : AddCommMonoid Content where
  add_assoc a b c := Content.ext (Set.union_assoc _ _ _) (Set.union_assoc _ _ _) (add_assoc _ _ _) (add_assoc _ _ _)
    (Set.union_assoc _ _ _) (Set.union_assoc _ _ _) (add_assoc _ _ _)
  zero_add a := Content.ext (Set.empty_union _) (Set.empty_union _) (zero_add _) (zero_add _) (Set.empty_union _)
    (Set.empty_union _) (zero_add _)
  add_zero a := Content.ext (Set.union_empty _) (Set.union_empty _) (add_zero _) (add_zero _) (Set.union_empty _)
    (Set.union_empty _) (add_zero _)
  add_comm a b := Content.ext (Set.union_comm _ _) (Set.union_comm _ _) (add_comm _ _) (add_comm _ _)
    (Set.union_comm _ _) (Set.union_comm _ _) (add_comm _ _)
  nsmul := nsmulRec

/-- One expression without counters. -/
def single (expression : ExpressionTree) : Content := { (0 : Content) with trees := {expression} }

/-- The counters of one expression. -/
noncomputable def counter (expression : ExpressionTree) (counts : Occurrence) : Content :=
  { (0 : Content) with counts := Function.update 0 expression counts }

/-- Adding nothing to the counter of an expression is adding nothing. -/
@[simp] theorem counter_zero (expression : ExpressionTree) : counter expression 0 = 0 :=
  Content.ext rfl rfl (Function.update_eq_self_iff.mpr rfl) rfl rfl rfl rfl

/-- No counter leaves the unsigned 64-bit range. -/
structure Fits (content : Content) : Prop where
  counts : ∀ tree, (content.counts tree).Fits
  properties : ∀ entity, (content.properties entity).Fits
  features : ∀ feature, content.features feature ≤ U64_MAX

/-- A part of a content that fits fits. -/
theorem Fits.left {first second : Content} (fits : (first + second).Fits) : first.Fits :=
  ⟨fun tree => (fits.counts tree).left, fun entity => (fits.properties entity).left,
    fun feature => (Nat.le_add_right _ _).trans (fits.features feature)⟩

theorem Fits.right {first second : Content} (fits : (first + second).Fits) : second.Fits := by
  rw [add_comm] at fits
  exact fits.left

end Content

namespace MutableIndex

open Classical in
/-- The counters of the handle that stands for an expression. -/
noncomputable def occurrence (index : MutableIndex) (expression : ExpressionTree) : Occurrence :=
  if found : ∃ handle, handle < index.expressions.length ∧ index.tree handle = expression then
    index.expressionOccurrences.getD found.choose ⟨0, 0⟩
  else 0

noncomputable def content (index : MutableIndex) : Content where
  entities := {entity | entity ∈ index.entities}
  trees := {expression | ∃ handle, handle < index.expressions.length ∧ index.tree handle = expression}
  counts := index.occurrence
  properties entity := (index.propertyOccurrences.lookup entity).getD ⟨0, 0⟩
  chains := {chain | chain ∈ index.propertyChains}
  rows := {row | row ∈ index.rows}
  features feature := index.featureCounts.getD feature 0

section

variable {index : MutableIndex}

/-- Every handle stands for one of the expressions of the content. -/
theorem mem_trees {handle : Nat} (bound : handle < index.expressions.length) :
    index.tree handle ∈ index.content.trees :=
  ⟨handle, bound, rfl⟩

/-- Two handles of one expression are one handle. -/
theorem Coherent.tree_injective (coherent : index.Coherent) {left right : Nat}
    (leftBound : left < index.expressions.length) (rightBound : right < index.expressions.length)
    (same : index.tree left = index.tree right) : left = right :=
  treeOf_injective coherent.distinct coherent.operands leftBound rightBound same

/-- The counter of an expression is kept in the row of its handle. -/
theorem Coherent.occurrence_tree (coherent : index.Coherent) {handle : Nat}
    (bound : handle < index.expressions.length) :
    index.occurrence (index.tree handle) = index.expressionOccurrences.getD handle ⟨0, 0⟩ := by
  have found : ∃ other, other < index.expressions.length ∧ index.tree other = index.tree handle :=
    ⟨handle, bound, rfl⟩
  rw [occurrence, dif_pos found, coherent.tree_injective found.choose_spec.1 bound found.choose_spec.2]

/-- An expression that was never interned has not been counted. -/
theorem occurrence_absent {expression : ExpressionTree} (absent : expression ∉ index.content.trees) :
    index.occurrence expression = 0 := dif_neg absent

/-- The counters of a reached index are in range. -/
theorem Coherent.content_fits (coherent : index.Coherent) : index.content.Fits := by
  refine ⟨fun expression => ?_, fun entity => ?_, fun feature => ?_⟩
  · by_cases present : expression ∈ index.content.trees
    · obtain ⟨handle, bound, rfl⟩ := present
      have inside : handle < index.expressionOccurrences.length := coherent.counted ▸ bound
      change (index.occurrence _).Fits
      rw [coherent.occurrence_tree bound, List.getD_eq_getElem?_getD, List.getElem?_eq_getElem inside,
        Option.getD_some]
      exact coherent.counts _ (List.getElem_mem inside)
    · change (index.occurrence expression).Fits
      rw [occurrence_absent present]
      exact Occurrence.fits_zero
  · change ((index.propertyOccurrences.lookup entity).getD ⟨0, 0⟩).Fits
    cases found : index.propertyOccurrences.lookup entity with
    | none => exact Occurrence.fits_zero
    | some counts =>
      obtain ⟨before, after, same, -⟩ := List.lookup_eq_some_iff.mp found
      exact (coherent.properties (entity, counts) (same ▸ List.mem_append_right _ List.mem_cons_self)).2.2
  · change index.featureCounts.getD feature 0 ≤ U64_MAX
    rw [List.getD_eq_getElem?_getD]
    cases found : index.featureCounts[feature]? with
    | none => exact Nat.zero_le _
    | some count => exact coherent.features.2 count (List.mem_of_getElem? found)

end

end MutableIndex

end PyElk
