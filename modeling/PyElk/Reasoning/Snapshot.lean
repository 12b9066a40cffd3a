import PyElk.Reasoning.Saturated

open Ordered

namespace PyElk

/-- The order of the rows of a multimap. -/
def pairKey (row : Nat × Nat) : Nat ×ₗ Nat := toLex row

theorem pairKey_injective : Function.Injective pairKey := fun _ _ same => toLex_inj.mp same

/-- `freeze`: every index of a context in canonical order. -/
def Context.freeze (state : Context) : Context where
  root := state.root
  initialized := state.initialized
  inconsistent := state.inconsistent
  composedSubsumers := sortedSet id state.composedSubsumers
  decomposedSubsumers := sortedSet id state.decomposedSubsumers
  forwardLinks := sortedSet pairKey state.forwardLinks
  backwardLinks := sortedSet pairKey state.backwardLinks
  propagations := sortedSet pairKey state.propagations
  disjointPositions := sortedSet pairKey state.disjointPositions
  initializedSubcontexts := sortedSet id state.initializedSubcontexts

/-- A frozen context is determined by the conclusions it holds. -/
theorem Context.freeze_congr {left right : Context} (root : left.root = right.root)
    (same : ∀ c : Conclusion, c.destination = left.root → (left.Holds c ↔ right.Holds c)) :
    left.freeze = right.freeze := by
  have initialized : left.initialized = right.initialized :=
    Bool.eq_iff_iff.mpr (same (.contextInitialization left.root) rfl)
  have inconsistent : left.inconsistent = right.inconsistent :=
    Bool.eq_iff_iff.mpr (same (.classInconsistency left.root) rfl)
  have composed : sortedSet id left.composedSubsumers = sortedSet id right.composedSubsumers :=
    sortedSet_congr Function.injective_id fun x => same (.subClassInclusionComposed left.root x) rfl
  have decomposed : sortedSet id left.decomposedSubsumers = sortedSet id right.decomposedSubsumers :=
    sortedSet_congr Function.injective_id fun x => same (.subClassInclusionDecomposed left.root x) rfl
  have forward : sortedSet pairKey left.forwardLinks = sortedSet pairKey right.forwardLinks :=
    sortedSet_congr pairKey_injective fun (x, y) => same (.forwardLink left.root x y) rfl
  have backward : sortedSet pairKey left.backwardLinks = sortedSet pairKey right.backwardLinks :=
    sortedSet_congr pairKey_injective fun (x, y) => same (.backwardLink left.root x y) rfl
  have propagations : sortedSet pairKey left.propagations = sortedSet pairKey right.propagations :=
    sortedSet_congr pairKey_injective fun (x, y) => same (.propagation left.root x y) rfl
  have positions : sortedSet pairKey left.disjointPositions = sortedSet pairKey right.disjointPositions :=
    sortedSet_congr pairKey_injective fun (x, y) => same (.disjointSubsumer left.root x y) rfl
  have subcontexts : sortedSet id left.initializedSubcontexts = sortedSet id right.initializedSubcontexts :=
    sortedSet_congr Function.injective_id fun x => same (.subContextInitialization left.root x) rfl
  simp only [freeze, root, initialized, inconsistent, composed, decomposed, forward, backward, propagations,
    positions, subcontexts]

@[simp] theorem Context.freeze_root (state : Context) : state.freeze.root = state.root := rfl

/-- Freezing keeps what a context holds. -/
@[simp] theorem Context.freeze_holds {state : Context} {c : Conclusion} : state.freeze.Holds c ↔ state.Holds c := by
  cases c <;> simp only [Holds, freeze, mem_sortedSet]

/-- The contexts of a snapshot, in the order of their roots. -/
def snapshotContexts (contexts : List Context) : List Context :=
  (sortedBy Context.root contexts).map Context.freeze

/-- `snapshot`. -/
def SaturationEngine.snapshot (engine : SaturationEngine) : List Context :=
  snapshotContexts (engine.contexts.map fun state => state.toContext)

/-- Contexts with distinct roots that hold the same conclusions have the same
snapshot. -/
theorem snapshotContexts_congr {left right : List Context} {facts : Set Conclusion}
    (distinctLeft : (left.map Context.root).Nodup) (distinctRight : (right.map Context.root).Nodup)
    (roots : ∀ root, root ∈ left.map Context.root ↔ root ∈ right.map Context.root)
    (mirrorsLeft : ∀ state ∈ left, state.Mirrors facts) (mirrorsRight : ∀ state ∈ right, state.Mirrors facts) :
    snapshotContexts left = snapshotContexts right := by
  refine map_sortedBy_congr distinctLeft distinctRight roots ?_
  intro state memberLeft other memberRight root
  refine Context.freeze_congr root fun c owned => ?_
  rw [mirrorsLeft _ memberLeft c owned, mirrorsRight _ memberRight c (owned.trans root)]

/-- Looking a context up in a snapshot. -/
theorem snapshotContexts_find {contexts : List Context} (distinct : (contexts.map Context.root).Nodup)
    {state : Context} (member : state ∈ contexts) :
    (snapshotContexts contexts).find? (fun context => context.root == state.root) = some state.freeze := by
  have unique : ∀ other ∈ contexts, other.root = state.root → other = state :=
    fun other found same => List.inj_on_of_nodup_map distinct found member same
  have present : state.freeze ∈ snapshotContexts contexts := List.mem_map_of_mem (mem_sortedBy.mpr member)
  obtain ⟨context, found⟩ := Option.isSome_iff_exists.mp
    (List.find?_isSome.mpr ⟨state.freeze, present, by simp⟩ : ((snapshotContexts contexts).find?
      (fun context => context.root == state.root)).isSome)
  obtain ⟨other, listed, rfl⟩ := List.mem_map.mp (List.mem_of_find?_eq_some found)
  have same := List.find?_some found
  rw [found, unique other (mem_sortedBy.mp listed) (beq_iff_eq.mp same)]

end PyElk
