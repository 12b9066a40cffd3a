import PyElk.Native.Views
import PyElk.Support.Overlays

open Raising Overlays

namespace PyElk.Native

namespace EncodedSegment

def roleIs (segment : EncodedSegment) (role : Nat) : Bool := segment.role = some (.int role)

/-- The roots a segment takes of its source. -/
def selection (segment : EncodedSegment) : Selection :=
  match segment.postingMode, segment.rootIds with
  | some (.int 1), some (.memoryview buffer) => .including (rootPostings buffer.data).toFinset
  | some (.int 2), some (.memoryview buffer) => .excluding (rootPostings buffer.data).toFinset
  | _, _ => .all

/-- What becomes of the anonymous scopes of its source. -/
def rename (segment : EncodedSegment) : Bytes32 → Bytes32 :=
  match segment.anonymousScopeMap with
  | some (.memoryview buffer) =>
    match readScopeMap buffer.data with
    | .ok map => map.rename
    | .error _ => id
  | _ => id

/-- The base of an overlay and the members of a composite refer to other views. -/
def step (segment : EncodedSegment) : Option (Step Address Bytes32) :=
  if segment.roleIs SEGMENT_OVERLAY_BASE || segment.roleIs SEGMENT_COMPOSITE_MEMBER then
    segment.source.join.map fun source => ⟨source, segment.rename, segment.selection⟩
  else none

/-- The other roles stand for the view's own table. -/
def isOwn (segment : EncodedSegment) : Bool :=
  segment.roleIs SEGMENT_DIRECT || segment.roleIs SEGMENT_OVERLAY_DELTA || segment.roleIs SEGMENT_COMPOSITE_BRIDGE

end EncodedSegment

namespace EncodedView

def rootCount (view : EncodedView) : Nat :=
  match EncodedBufferBindings.fromView view >>= EncodedBufferBindings.columns with
  | .ok columns => columns.rootIds.length / 4
  | .error _ => 0

/-- What a view stands for: a direct one for its own table, an overlay for its source and its delta, a composite for
its members and its bridge. -/
def layer (view : EncodedView) : Layer Address Bytes32 where
  steps := (view.segments.join.getD []).filterMap EncodedSegment.step
  own := if (view.segments.join.getD []).any EncodedSegment.isOwn then some view.rootCount else none

end EncodedView

/-- The graph of the views of a heap. -/
def layers (heap : Address → EncodedView) (viewId : Address) : Layer Address Bytes32 := (heap viewId).layer

namespace ScopeMap

theorem mem_of_get {map : ScopeMap} {source target : Bytes32} :
    map.get source = some target ↔ (source, target) ∈ map.entries := by
  obtain ⟨entries, ascending⟩ := map
  change entries.lookup source = some target ↔ (source, target) ∈ entries
  induction entries with
  | nil => simp
  | cons entry rest ih =>
    obtain ⟨here, later⟩ := List.pairwise_cons.mp ascending
    rw [List.lookup_cons, List.mem_cons]
    by_cases same : source = entry.1
    · have absent : (source, target) ∉ rest := by
        intro member
        have below := here _ member
        rw [same] at below
        exact lt_irrefl _ below
      rw [beq_iff_eq.mpr same]
      constructor
      · intro found
        exact Or.inl (Prod.ext same (Option.some.inj found).symm)
      · intro member
        exact congrArg some (congrArg Prod.snd (member.resolve_right absent)).symm
    · have differ : (source, target) ≠ entry := fun equal => same (congrArg Prod.fst equal)
      rw [beq_eq_false_iff_ne.mpr same, or_iff_right differ]
      exact ih later

theorem mem_keys_of_get {map : ScopeMap} {source target : Bytes32} (found : map.get source = some target) :
    source ∈ map.keys := List.mem_map.mpr ⟨_, mem_of_get.mp found, rfl⟩

theorem rename_of_notMem {map : ScopeMap} {source : Bytes32} (absent : source ∉ map.keys) :
    map.rename source = source := by
  rw [rename]
  cases found : map.get source with
  | none => rfl
  | some target => exact absurd (mem_keys_of_get found) absent

/-- A composed map holds the pairs the composition does not leave alone, and no others. -/
theorem get_compose {map incoming : ScopeMap} {source target : Bytes32} :
    (map.compose incoming).get source = some target ↔ incoming.rename
    (map.rename source) = target ∧ source ≠ target := by
  rw [mem_of_get, compose, List.mem_filterMap]
  constructor
  · intro listed
    obtain ⟨key, _, found⟩ := listed
    simp only [Option.ite_none_right_eq_some, Option.some.injEq, Prod.mk.injEq] at found
    obtain ⟨moved, rfl, rfl⟩ := found
    exact ⟨rfl, moved⟩
  · intro known
    obtain ⟨renamed, moved⟩ := known
    refine ⟨source, ?_, by simp [renamed, moved]⟩
    rw [Ordered.mem_sortedSet, List.mem_append]
    by_contra absent
    rw [not_or] at absent
    rw [rename_of_notMem absent.1, rename_of_notMem absent.2] at renamed
    exact moved renamed

end ScopeMap

@[simp] theorem EncodedRootPlan.selects_included (postings : Finset Nat) (root : Nat) :
    (EncodedRootPlan.included postings).selects root = decide (root ∈ postings) := by
  rw [EncodedRootPlan.included]
  split
  · next unselected => simp [EncodedRootPlan.selects, unselected]
  · rfl

@[simp] theorem EncodedRootPlan.selects_excluded (postings : Finset Nat) (root : Nat) :
    (EncodedRootPlan.excluded postings).selects root = decide (root ∉ postings) := by
  rw [EncodedRootPlan.excluded]
  split
  · next unselected => simp [EncodedRootPlan.selects, unselected]
  · rfl

/-- The four plans are closed under the two modes. -/
theorem EncodedRootPlan.selects_apply (plan : EncodedRootPlan) (mode : EncodedPostingMode) (postings : Finset Nat)
    (root : Nat) :
    (plan.apply mode postings).selects root =
      (plan.selects root && (match mode with
        | .including => decide (root ∈ postings)
        | .excluding => decide (root ∉ postings))) := by
  cases plan with
  | all => cases mode <;> simp only [EncodedRootPlan.apply, selects_included, selects_excluded] <;> rfl
  | including current =>
    cases mode <;> simp only [EncodedRootPlan.apply, selects_included] <;> simp [EncodedRootPlan.selects]
  | excluding current =>
    cases mode with
    | including =>
      simp only [EncodedRootPlan.apply, selects_included]
      simp [EncodedRootPlan.selects, Bool.and_comm]
    | excluding =>
      simp only [EncodedRootPlan.apply, selects_excluded]
      simp [EncodedRootPlan.selects]
  | dropped => cases mode <;> rfl

/-- What a table says about the roots of a view: its columns, the roots it selects, and what its map does, with
no entry that does nothing. -/
structure Binds (heap : Address → EncodedView) (table : EncodedCompilationTableBinding) (view : Address)
    (keeps : Nat → Bool)
    (rename : Bytes32 → Bytes32) : Prop where
  viewId : table.viewId = view
  bindings : EncodedBufferBindings.fromView (heap view) = .ok table.bindings
  selects : ∀ root, table.selection.selects root = keeps root
  scopes : ∀ source target, table.scopeMap.get source = some target ↔ rename source = target ∧ source ≠ target

def BindsRoute (heap : Address → EncodedView) (table : EncodedCompilationTableBinding)
    (route : Route Address Bytes32) : Prop :=
  Binds heap table route.view route.keeps route.rename

section

variable {heap : Address → EncodedView} {table : EncodedCompilationTableBinding} {view : Address} {keeps : Nat → Bool}
  {rename : Bytes32 → Bytes32}

/-- A bound table renames by its scope map. -/
theorem Binds.rename_eq (binds : Binds heap table view keeps rename) : table.scopeMap.rename = rename := by
  funext source
  rw [ScopeMap.rename]
  cases found : table.scopeMap.get source with
  | some target => exact ((binds.scopes source target).mp found).1.symm
  | none =>
    by_contra moved
    have listed := (binds.scopes source (rename source)).mpr ⟨rfl, moved⟩
    rw [found] at listed
    cases listed

/-- Composing the scope map of a bound table composes its renaming. -/
theorem Binds.compose (binds : Binds heap table view keeps rename) (map : ScopeMap) :
    Binds heap { table with scopeMap := table.scopeMap.compose map } view keeps (map.rename ∘ rename) where
  viewId := binds.viewId
  bindings := binds.bindings
  selects := binds.selects
  scopes source target := by rw [ScopeMap.get_compose, binds.rename_eq, Function.comp_apply]

/-- The selection of a reference, read off its mode and its postings. -/
def selectSource (source : Address) (tables : List EncodedCompilationTableBinding) :
    Selection → List EncodedCompilationTableBinding
  | .all => tables
  | .including rows => applySourceSelection tables source .including rows
  | .excluding rows => applySourceSelection tables source .excluding rows

/-- What a table says once a reference has selected among the roots of its view. -/
def selected (source : Address) (selection : Selection) (table : EncodedCompilationTableBinding) :
    EncodedCompilationTableBinding :=
  match selection with
  | .all => table
  | .including rows =>
    if table.viewId = source then { table with selection := table.selection.apply .including rows }
    else { table with selection := .dropped }
  | .excluding rows =>
    if table.viewId = source then { table with selection := table.selection.apply .excluding rows } else table

theorem selectSource_eq_map (source : Address) (tables : List EncodedCompilationTableBinding)
    (selection : Selection) :
    selectSource source tables selection = tables.map (selected source selection) := by
  cases selection with
  | all => exact (List.map_id _).symm
  | including rows => rfl
  | excluding rows => rfl

/-- A selection of the table's own view narrows the roots it keeps. -/
theorem Binds.select_own (binds : Binds heap table view keeps rename) (selection : Selection) :
    Binds heap (selected view selection table) view (fun root => keeps root && selection.keepsOwn root) rename := by
  cases selection with
  | all =>
    exact ⟨binds.viewId, binds.bindings,
      fun root => by rw [selected, binds.selects]; simp [Selection.keepsOwn], binds.scopes⟩
  | including rows =>
    rw [selected, if_pos binds.viewId]
    exact ⟨binds.viewId, binds.bindings,
      fun root => by rw [EncodedRootPlan.selects_apply, binds.selects]; rfl, binds.scopes⟩
  | excluding rows =>
    rw [selected, if_pos binds.viewId]
    exact ⟨binds.viewId, binds.bindings,
      fun root => by rw [EncodedRootPlan.selects_apply, binds.selects]; rfl, binds.scopes⟩

/-- A selection of another view keeps the roots of the table, or drops them all. -/
theorem Binds.select_other {source : Address} (binds : Binds heap table view keeps rename) (differs : view ≠ source)
    (selection : Selection) :
    Binds heap (selected source selection table) view (fun root => selection.keepsOthers && keeps root) rename := by
  have other : table.viewId ≠ source := binds.viewId.trans_ne differs
  cases selection with
  | all => exact binds
  | including rows =>
    rw [selected, if_neg other]
    exact ⟨binds.viewId, binds.bindings, fun _ => rfl, binds.scopes⟩
  | excluding rows =>
    rw [selected, if_neg other]
    exact binds

/-- The scope map of a reference applied to a table. -/
def rescoped (incoming : ScopeMap) (table : EncodedCompilationTableBinding) : EncodedCompilationTableBinding :=
  if incoming.entries.isEmpty then table else { table with scopeMap := table.scopeMap.compose incoming }

theorem applyScopeMap_eq_map (tables : List EncodedCompilationTableBinding) (incoming : ScopeMap) :
    applyScopeMap tables incoming = tables.map (rescoped incoming) := by
  unfold applyScopeMap rescoped
  split
  · exact (List.map_id _).symm
  · rfl

/-- A bound table that is rescoped renames by both maps, one after the other. -/
theorem Binds.rescope (binds : Binds heap table view keeps rename) (incoming : ScopeMap) :
    Binds heap (rescoped incoming table) view keeps (incoming.rename ∘ rename) := by
  rw [rescoped]
  split
  · next unscoped =>
    have still : incoming.rename = id := by
      funext source
      rw [ScopeMap.rename, ScopeMap.get, List.isEmpty_iff.mp unscoped]
      rfl
    rw [still]
    exact binds
  · exact binds.compose incoming

/-- A reference takes a table of its source along one more step. -/
theorem BindsRoute.extend {source : Address} {grounded : Acc (Source (layers heap)) source}
    {route : Route Address Bytes32}
    (binds : BindsRoute heap table route) (member : route ∈ routes (layers heap) source grounded)
    (incoming : ScopeMap)
    (selection : Selection) :
    BindsRoute heap (selected source selection (rescoped incoming table))
      (route.extend ⟨source, incoming.rename, selection⟩) := by
  have renamed := Binds.rescope binds incoming
  rcases List.mem_append.mp member with inherited | own
  · have taken := renamed.select_other (view_ne_of_mem_inheritedRoutes inherited) selection
    refine ⟨taken.viewId, taken.bindings, fun root => ?_, taken.scopes⟩
    rw [taken.selects, Route.extend_keeps _ (below_of_mem_inheritedRoutes inherited).1]
  · have same := steps_of_mem_ownRoute own
    subst same
    have taken := Binds.select_own renamed selection
    refine ⟨taken.viewId, taken.bindings, fun root => ?_, taken.scopes⟩
    rw [taken.selects, Route.extend_keeps_own]
    exact Bool.true_and _

theorem forall₂_of_mem {α β : Type} {R S : α → β → Prop} {left : List α} {right : List β}
    (related : List.Forall₂ R left right)
    (implies : ∀ a, ∀ b ∈ right, R a b → S a b) : List.Forall₂ S left right := by
  induction related with
  | nil => exact .nil
  | cons here _ ih => exact .cons (implies _ _ (.head _) here) (ih fun a b member => implies a b (.tail _ member))

/-- The tables a reference takes of its source. -/
theorem bindsRoute_take {source : Address} {grounded : Acc (Source (layers heap)) source}
    {tables : List EncodedCompilationTableBinding}
    (bound : List.Forall₂ (BindsRoute heap) tables (routes (layers heap) source grounded)) (incoming : ScopeMap)
    (selection : Selection) :
    List.Forall₂ (BindsRoute heap) (selectSource source (applyScopeMap tables incoming) selection)
      ((routes (layers heap) source grounded).map (Route.extend ⟨source, incoming.rename, selection⟩)) := by
  rw [selectSource_eq_map, applyScopeMap_eq_map, List.map_map, List.forall₂_map_left_iff, List.forall₂_map_right_iff]
  exact forall₂_of_mem bound fun table route member binds => BindsRoute.extend binds member incoming selection

/-- The tables of some references, reference by reference. -/
inductive Inherits (heap : Address → EncodedView) :
    List (Step Address Bytes32) → List EncodedCompilationTableBinding → Prop
  | nil : Inherits heap [] []
  | cons {step : Step Address Bytes32} {steps : List (Step Address Bytes32)}
    {taken rest : List EncodedCompilationTableBinding}
      (grounded : Acc (Source (layers heap)) step.source)
      (bound : List.Forall₂ (BindsRoute heap) taken
        ((routes (layers heap) step.source grounded).map (Route.extend step)))
      (later : Inherits heap steps rest) : Inherits heap (step :: steps) (taken ++ rest)

/-- A resolved view is right: its sources do not come back to it, it counts its own roots, and it has a table for
each route. -/
def Evaluates (heap : Address → EncodedView) (view : Address) (resolved : ResolvedEncodedView) : Prop :=
  resolved.localRootCount = ((layers heap view).own).getD 0 ∧
    ∃ grounded : Acc (Source (layers heap)) view,
      List.Forall₂ (BindsRoute heap) resolved.tables (routes (layers heap) view grounded)

/-- What two lists of steps inherit is inherited by their concatenation. -/
theorem Inherits.append {steps others : List (Step Address Bytes32)}
    {tables rest : List EncodedCompilationTableBinding}
    (first : Inherits heap steps tables) (second : Inherits heap others rest) :
    Inherits heap (steps ++ others) (tables ++ rest) := by
  induction first with
  | nil => exact second
  | cons grounded bound _ ih =>
    rw [List.cons_append, List.append_assoc]
    exact .cons grounded bound ih

/-- The source of every inherited step is grounded. -/
theorem Inherits.grounded {steps : List (Step Address Bytes32)} {tables : List EncodedCompilationTableBinding}
    (inherits : Inherits heap steps tables) : ∀ step ∈ steps, Acc (Source (layers heap)) step.source := by
  induction inherits with
  | nil => exact fun _ member => nomatch member
  | cons grounded _ _ ih => exact List.forall_mem_cons.mpr ⟨grounded, ih⟩

/-- Inherited tables are bound to the routes of the steps, one by one. -/
theorem Inherits.bound {steps : List (Step Address Bytes32)} {tables : List EncodedCompilationTableBinding}
    (inherits : Inherits heap steps tables) (grounded : ∀ step ∈ steps, Acc (Source (layers heap)) step.source) :
    List.Forall₂ (BindsRoute heap) tables (steps.attach.flatMap fun step =>
      (routes (layers heap) step.1.source (grounded step.1 step.2)).map (Route.extend step.1)) := by
  induction inherits with
  | nil => exact .nil
  | cons _ bound _ ih =>
    rw [List.attach_cons, List.flatMap_cons, List.flatMap_map]
    exact List.rel_append bound (ih fun step member => grounded step (.tail _ member))

/-- A view evaluates to what its steps inherit, followed by its own rows. -/
theorem Evaluates.of_parts {tables own : List EncodedCompilationTableBinding} {count : Nat}
    (inherits : Inherits heap (layers heap view).steps tables)
    (bound : List.Forall₂ (BindsRoute heap) own (ownRoute (layers heap) view))
    (counts : count = ((layers heap view).own).getD 0) : Evaluates heap view ⟨tables ++ own, count⟩ := by
  have grounded : Acc (Source (layers heap)) view := by
    refine .intro _ fun below source => ?_
    obtain ⟨step, member, rfl⟩ := source
    exact inherits.grounded step member
  refine ⟨counts, grounded, ?_⟩
  rw [routes, inheritedRoutes_eq]
  exact List.rel_append (inherits.bound fun step member => grounded.inv ⟨step, member, rfl⟩) bound

end

end PyElk.Native
