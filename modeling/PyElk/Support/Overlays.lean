import Mathlib.Data.Finset.Basic
import Mathlib.Data.List.Basic
import Mathlib.Logic.Relation

namespace Overlays

/-- Which rows a layer takes of the table of its source. -/
inductive Selection
  | all
  | including (rows : Finset Nat)
  | excluding (rows : Finset Nat)
  deriving DecidableEq

/-- Of the source's own rows. -/
def Selection.keepsOwn : Selection → Nat → Bool
  | .all, _ => true
  | .including rows, row => row ∈ rows
  | .excluding rows, row => row ∉ rows

/-- Of the rows the source has from others. -/
def Selection.keepsOthers : Selection → Bool
  | .including _ => false
  | _ => true

/-- A reference of a layer to a source: the rows it takes, and what becomes of the names in them. -/
structure Step (ν κ : Type*) where
  source : ν
  rename : κ → κ
  selection : Selection

/-- A layer over other views: its references, and the number of the rows of its own table if it has one. -/
structure Layer (ν κ : Type*) where
  steps : List (Step ν κ)
  own : Option Nat

/-- A row of a view, one-based, with what becomes of its names. -/
structure Root (ν κ : Type*) where
  view : ν
  row : Nat
  rename : κ → κ

/-- The references from a view down to the table of another one, the uppermost first. -/
structure Route (ν κ : Type*) where
  view : ν
  steps : List (Step ν κ)

variable {ν κ : Type*}

def Root.renamed (rename : κ → κ) (root : Root ν κ) : Root ν κ := { root with rename := rename ∘ root.rename }

/-- What a reference makes of the rows of its source. -/
def Step.take (step : Step ν κ) (inherited own : List (Root ν κ)) : List (Root ν κ) :=
  ((if step.selection.keepsOthers then inherited else []) ++
    own.filter fun root => step.selection.keepsOwn root.row).map
    (Root.renamed step.rename)

section

variable (layer : ν → Layer ν κ)

def Source (below above : ν) : Prop := ∃ step ∈ (layer above).steps, step.source = below

/-- The rows of the table of a view. -/
def ownRoots (view : ν) : List (Root ν κ) :=
  (List.range' 1 ((layer view).own.getD 0)).map fun row => ⟨view, row, id⟩

variable {layer} in
theorem Source.of_step {view : ν} (step : { step // step ∈ (layer view).steps }) : Source layer step.1.source view :=
  ⟨step.1, step.2, rfl⟩

/-- The rows a view has from others, reference by reference. -/
noncomputable def inheritedRoots (view : ν) (grounded : Acc (Source layer) view) : List (Root ν κ) :=
  grounded.rec fun view _ below => (layer view).steps.attach.flatMap fun step =>
    step.1.take (below step.1.source (.of_step step)) (ownRoots layer step.1.source)

/-- The rows of a view, evaluated step by step. -/
noncomputable def roots (view : ν) (grounded : Acc (Source layer) view) : List (Root ν κ) :=
  inheritedRoots layer view grounded ++ ownRoots layer view

def ownRoute (view : ν) : List (Route ν κ) := if (layer view).own.isSome then [⟨view, []⟩] else []

def Route.extend (step : Step ν κ) (route : Route ν κ) : Route ν κ := { route with steps := step :: route.steps }

noncomputable def inheritedRoutes (view : ν) (grounded : Acc (Source layer) view) : List (Route ν κ) :=
  grounded.rec fun view _ below => (layer view).steps.attach.flatMap fun step =>
    (below step.1.source (.of_step step) ++ ownRoute layer step.1.source).map (Route.extend step.1)

/-- The routes from a view to the tables below it and to its own. -/
noncomputable def routes (view : ν) (grounded : Acc (Source layer) view) : List (Route ν κ) :=
  inheritedRoutes layer view grounded ++ ownRoute layer view

end

/-- The composition of the renamings on a route. -/
def Route.rename (route : Route ν κ) : κ → κ := route.steps.foldr (fun step rename => step.rename ∘ rename) id

/-- No step excludes the row: the last one has it from its source's own table, the others among the rows of others. -/
def keeps : List (Step ν κ) → Nat → Bool
  | [], _ => true
  | [step], row => step.selection.keepsOwn row
  | step :: next :: rest, row => step.selection.keepsOthers && keeps (next :: rest) row

def Route.keeps (route : Route ν κ) (row : Nat) : Bool := Overlays.keeps route.steps row

section

variable {layer : ν → Layer ν κ} {view : ν} {grounded : Acc (Source layer) view}

/-- The rows of the table at the end of a route that reach its start. -/
def Route.roots (layer : ν → Layer ν κ) (route : Route ν κ) : List (Root ν κ) :=
  ((ownRoots layer route.view).filter fun root => route.keeps root.row).map (Root.renamed route.rename)

/-- The inherited roots are taken from the sources of the steps, in order. -/
theorem inheritedRoots_eq : inheritedRoots layer view grounded = (layer view).steps.attach.flatMap fun step =>
    step.1.take (inheritedRoots layer step.1.source (grounded.inv (.of_step step)))
      (ownRoots layer step.1.source) := by
  cases grounded
  rfl

theorem inheritedRoutes_eq : inheritedRoutes layer view grounded = (layer view).steps.attach.flatMap fun step =>
    (routes layer step.1.source (grounded.inv (.of_step step))).map (Route.extend step.1) := by
  cases grounded
  rfl

@[simp] theorem Route.extend_view (step : Step ν κ) (route : Route ν κ) : (route.extend step).view = route.view := rfl

@[simp] theorem Route.extend_steps (step : Step ν κ) (route : Route ν κ) :
    (route.extend step).steps = step :: route.steps := rfl

@[simp] theorem Route.extend_rename (step : Step ν κ) (route : Route ν κ) :
    (route.extend step).rename = step.rename ∘ route.rename := rfl

theorem Route.extend_keeps_own (step : Step ν κ) (row : Nat) :
    (Route.extend step ⟨view, []⟩).keeps row = step.selection.keepsOwn row := rfl

theorem Route.extend_keeps {route : Route ν κ} (step : Step ν κ) (inherited : route.steps ≠ []) (row : Nat) :
    (route.extend step).keeps row = (step.selection.keepsOthers && route.keeps row) := by
  rcases route with ⟨last, steps⟩
  cases steps with
  | nil => exact absurd rfl inherited
  | cons next rest => rfl

theorem steps_of_mem_ownRoute {route : Route ν κ} (member : route ∈ ownRoute layer view) : route = ⟨view, []⟩ := by
  rw [ownRoute] at member
  split at member
  · exact List.mem_singleton.mp member
  · cases member

/-- A route to another table goes down at least one step, to a view below. -/
theorem below_of_mem_inheritedRoutes {route : Route ν κ} (member : route ∈ inheritedRoutes layer view grounded) :
    route.steps ≠ [] ∧ Relation.TransGen (Source layer) route.view view := by
  induction grounded generalizing route with
  | intro view below ih =>
    rw [inheritedRoutes_eq, List.mem_flatMap] at member
    obtain ⟨step, -, extended⟩ := member
    obtain ⟨route, found, rfl⟩ := List.mem_map.mp extended
    refine ⟨List.cons_ne_nil _ _, ?_⟩
    have here : Source layer step.1.source view := .of_step step
    rcases List.mem_append.mp found with inherited | own
    · exact (ih _ here inherited).2.tail here
    · rw [steps_of_mem_ownRoute own]
      exact .single here

/-- A grounded view is not among its own sources. -/
theorem not_below_self (grounded : Acc (Source layer) view) : ¬ Relation.TransGen (Source layer) view view := by
  intro cycle
  have all := grounded.transGen
  clear grounded
  induction all with
  | intro view _ ih => exact ih view cycle cycle

/-- In an acyclic graph only a view's own table bears its name. -/
theorem view_ne_of_mem_inheritedRoutes {route : Route ν κ} (member : route ∈ inheritedRoutes layer view grounded) :
    route.view ≠ view := by
  intro same
  have cycle := (below_of_mem_inheritedRoutes member).2
  rw [same] at cycle
  exact not_below_self grounded cycle

theorem flatMap_ownRoute : (ownRoute layer view).flatMap (Route.roots layer) = ownRoots layer view := by
  rw [ownRoute]
  cases own : (layer view).own with
  | none => rw [ownRoots, own]; rfl
  | some count =>
    rw [Option.isSome_some, if_pos rfl, List.flatMap_singleton, Route.roots]
    have every : (ownRoots layer view).filter (fun _ => true) = ownRoots layer view := List.filter_true _
    exact (congrArg (List.map _) every).trans (List.map_id _)

/-- The roots of a view's own rows are selected one by one, and renamed. -/
theorem Route.roots_extend_own (step : Step ν κ) :
    ((ownRoute layer view).map (Route.extend step)).flatMap (Route.roots layer) =
      ((ownRoots layer view).filter fun root => step.selection.keepsOwn root.row).map (Root.renamed step.rename) := by
  rw [ownRoute]
  cases own : (layer view).own with
  | none => rw [ownRoots, own]; rfl
  | some count =>
    rw [Option.isSome_some, if_pos rfl, List.map_singleton, List.flatMap_singleton]
    rfl

/-- The roots of a route extended past its own view are kept or dropped together, and renamed. -/
theorem Route.roots_extend {route : Route ν κ} (step : Step ν κ) (inherited : route.steps ≠ []) :
    (route.extend step).roots layer =
      if step.selection.keepsOthers then (route.roots layer).map (Root.renamed step.rename) else [] := by
  simp only [Route.roots, Route.extend_view, Route.extend_keeps step inherited, Route.extend_rename]
  cases step.selection.keepsOthers with
  | false => simp
  | true =>
    simp only [Bool.true_and, if_true, List.map_map]
    rfl

theorem flatMap_extend {below : List (Route ν κ)} (step : Step ν κ) (inherited : ∀ route ∈ below, route.steps ≠ []) :
    (below.map (Route.extend step)).flatMap (Route.roots layer) =
      if step.selection.keepsOthers then (below.flatMap (Route.roots layer)).map (Root.renamed step.rename)
      else [] := by
  induction below with
  | nil => simp
  | cons route rest ih =>
    obtain ⟨here, later⟩ := List.forall_mem_cons.mp inherited
    rw [List.map_cons, List.flatMap_cons, List.flatMap_cons, ih later, Route.roots_extend step here]
    cases step.selection.keepsOthers with
    | false => simp
    | true => simp

/-- The inherited roots are those of the inherited routes. -/
theorem inheritedRoots_eq_flatMap :
    inheritedRoots layer view grounded = (inheritedRoutes layer view grounded).flatMap (Route.roots layer) := by
  induction grounded with
  | intro view below ih =>
    rw [inheritedRoots_eq, inheritedRoutes_eq, List.flatMap_assoc]
    refine List.flatMap_congr fun step _ => ?_
    have source : Source layer step.1.source view := .of_step step
    rw [routes, List.map_append, List.flatMap_append, Route.roots_extend_own,
      flatMap_extend step.1 fun route member => (below_of_mem_inheritedRoutes member).1, Step.take, List.map_append,
      ih step.1.source source]
    cases step.1.selection.keepsOthers with
    | false => rfl
    | true => rfl

/-- Step by step or route by route, the same rows are taken, in the same order. -/
theorem roots_eq_flatMap : roots layer view grounded = (routes layer view grounded).flatMap (Route.roots layer) := by
  rw [roots, routes, List.flatMap_append, inheritedRoots_eq_flatMap, flatMap_ownRoute]

/-- A route ends at a table, and each of its steps is a reference of the graph. -/
theorem of_mem_routes {route : Route ν κ} (member : route ∈ routes layer view grounded) :
    (layer route.view).own.isSome ∧ ∀ step ∈ route.steps, ∃ above, step ∈ (layer above).steps := by
  induction grounded generalizing route with
  | intro view below ih =>
    rw [routes] at member
    obtain inherited | own := List.mem_append.mp member
    · rw [inheritedRoutes_eq, List.mem_flatMap] at inherited
      obtain ⟨step, -, extended⟩ := inherited
      obtain ⟨route, found, rfl⟩ := List.mem_map.mp extended
      obtain ⟨ends, steps⟩ := ih _ (.of_step step) found
      exact ⟨ends, List.forall_mem_cons.mpr ⟨⟨view, step.2⟩, steps⟩⟩
    · have same := steps_of_mem_ownRoute own
      rw [ownRoute] at own
      split at own
      · next present =>
        rw [same]
        exact ⟨present, fun _ member => absurd member List.not_mem_nil⟩
      · cases own

end

/-- A selection by rows below a bound. -/
def Selection.Below (bound : Nat) : Selection → Prop
  | .all => True
  | .including rows | .excluding rows => ∀ row ∈ rows, row < bound

/-- References that select by rows below a bound keep all the rows above it, or none. -/
theorem keeps_above {bound : Nat} {steps : List (Step ν κ)} (small : ∀ step ∈ steps, step.selection.Below bound) :
    ∃ kept : Bool, ∀ row, bound ≤ row → keeps steps row = kept := by
  induction steps with
  | nil => exact ⟨true, fun _ _ => rfl⟩
  | cons step rest ih =>
    obtain ⟨here, later⟩ := List.forall_mem_cons.mp small
    cases rest with
    | nil =>
      change ∃ kept : Bool, ∀ row, bound ≤ row → step.selection.keepsOwn row = kept
      cases selection : step.selection with
      | all => exact ⟨true, fun _ _ => rfl⟩
      | including rows =>
        rw [selection] at here
        exact ⟨false, fun row above => decide_eq_false fun member => absurd (here row member) (Nat.not_lt.mpr above)⟩
      | excluding rows =>
        rw [selection] at here
        exact ⟨true, fun row above => decide_eq_true fun member => absurd (here row member) (Nat.not_lt.mpr above)⟩
    | cons next rest =>
      obtain ⟨kept, above⟩ := ih later
      exact ⟨step.selection.keepsOthers && kept,
        fun row high => congrArg (step.selection.keepsOthers && ·) (above row high)⟩

end Overlays
