import Mathlib.Tactic.Tauto
import PyElk.Indexing.Ir

namespace PyElk

/-- Structural identities of the nine class-conclusion families. -/
inductive Conclusion
  | contextInitialization (root : ExpressionId)
  | subContextInitialization (destination : ExpressionId) (subDestinationProperty : EntityId)
  | subClassInclusionDecomposed (destination subsumer : ExpressionId)
  | subClassInclusionComposed (destination subsumer : ExpressionId)
  | forwardLink (destination : ExpressionId) (chain : PropertyChainId) (target : ExpressionId)
  | backwardLink (destination : ExpressionId) (relation : EntityId) (source : ExpressionId)
  | propagation (destination : ExpressionId) (relation : EntityId) (carryExistential : ExpressionId)
  | disjointSubsumer (destination : ExpressionId) (disjointGroup : DisjointGroupId) (position : Nat)
  | classInconsistency (destination : ExpressionId)
  deriving DecidableEq, Repr

/-- The context that owns a conclusion. -/
def Conclusion.destination : Conclusion → ExpressionId
  | contextInitialization root => root
  | subContextInitialization destination _ => destination
  | subClassInclusionDecomposed destination _ => destination
  | subClassInclusionComposed destination _ => destination
  | forwardLink destination _ _ => destination
  | backwardLink destination _ _ => destination
  | propagation destination _ _ => destination
  | disjointSubsumer destination _ _ => destination
  | classInconsistency destination => destination

/-- The facts of one context, one index a family. A multimap of the source is the
list of its key-value pairs. -/
structure Context where
  root : ExpressionId
  initialized : Bool := false
  inconsistent : Bool := false
  composedSubsumers : List ExpressionId := []
  decomposedSubsumers : List ExpressionId := []
  forwardLinks : List (PropertyChainId × ExpressionId) := []
  backwardLinks : List (EntityId × ExpressionId) := []
  propagations : List (EntityId × ExpressionId) := []
  disjointPositions : List (DisjointGroupId × Nat) := []
  initializedSubcontexts : List EntityId := []
  deriving DecidableEq, Repr

/-- A context with its conclusions and its local agenda. -/
structure ContextStore extends Context where
  todo : List Conclusion := []
  conclusions : List Conclusion := []
  pending : List Conclusion := []
  deriving DecidableEq, Repr

/-- `enqueue`: a novel candidate goes to the end of the agenda. -/
def ContextStore.enqueue (state : ContextStore) (conclusion : Conclusion) : ContextStore :=
  if conclusion ∈ state.conclusions ∨ conclusion ∈ state.pending then state
  else { state with todo := state.todo ++ [conclusion], pending := conclusion :: state.pending }

/-- Taking one candidate off the agenda. `pop_todo` takes the first one. -/
def ContextStore.take (state : ContextStore) (conclusion : Conclusion) : ContextStore :=
  { state with todo := state.todo.erase conclusion, pending := state.pending.erase conclusion }

/-- The family index that `insert` updates for a novel conclusion. -/
def Context.index (state : Context) : Conclusion → Context
  | .contextInitialization _ => { state with initialized := true }
  | .subContextInitialization _ property =>
      { state with initializedSubcontexts := state.initializedSubcontexts.insert property }
  | .subClassInclusionDecomposed _ subsumer =>
      { state with decomposedSubsumers := state.decomposedSubsumers.insert subsumer }
  | .subClassInclusionComposed _ subsumer =>
      { state with composedSubsumers := state.composedSubsumers.insert subsumer }
  | .forwardLink _ chain target => { state with forwardLinks := state.forwardLinks.insert (chain, target) }
  | .backwardLink _ relation source =>
      { state with backwardLinks := state.backwardLinks.insert (relation, source) }
  | .propagation _ relation carry => { state with propagations := state.propagations.insert (relation, carry) }
  | .disjointSubsumer _ group position =>
      { state with disjointPositions := state.disjointPositions.insert (group, position) }
  | .classInconsistency _ => { state with inconsistent := true }

/-- `insert`: one conclusion is stored and its family index updated if it is novel. -/
def ContextStore.insert (state : ContextStore) (conclusion : Conclusion) : ContextStore :=
  let state := { state with pending := state.pending.erase conclusion }
  if conclusion ∈ state.conclusions then state
  else { state with toContext := state.toContext.index conclusion, conclusions := conclusion :: state.conclusions }

/-- What the family indexes say about a conclusion of this context. -/
def Context.Holds (state : Context) : Conclusion → Prop
  | .contextInitialization _ => state.initialized = true
  | .subContextInitialization _ property => property ∈ state.initializedSubcontexts
  | .subClassInclusionDecomposed _ subsumer => subsumer ∈ state.decomposedSubsumers
  | .subClassInclusionComposed _ subsumer => subsumer ∈ state.composedSubsumers
  | .forwardLink _ chain target => (chain, target) ∈ state.forwardLinks
  | .backwardLink _ relation source => (relation, source) ∈ state.backwardLinks
  | .propagation _ relation carry => (relation, carry) ∈ state.propagations
  | .disjointSubsumer _ group position => (group, position) ∈ state.disjointPositions
  | .classInconsistency _ => state.inconsistent = true

/-- The indexes mirror the stored conclusions of the context. -/
def Context.Mirrors (state : Context) (stored : Set Conclusion) : Prop :=
  ∀ c : Conclusion, c.destination = state.root → (state.Holds c ↔ c ∈ stored)

/-- The indexes mirror the stored conclusions, and the agenda holds novel
conclusions of this context, each once. -/
structure ContextStore.Coherent (state : ContextStore) : Prop where
  owned : ∀ c ∈ state.conclusions, c.destination = state.root
  mirrored : state.Mirrors {c | c ∈ state.conclusions}
  distinct : state.conclusions.Nodup
  agenda : state.todo.Nodup
  agendaOwned : ∀ c ∈ state.todo, c.destination = state.root
  fresh : ∀ c ∈ state.todo, c ∉ state.conclusions
  pending : ∀ c, c ∈ state.pending ↔ c ∈ state.todo
  pendingDistinct : state.pending.Nodup

/-- A new context is coherent: it knows nothing and nothing is pending. -/
theorem ContextStore.Coherent.empty (root : ExpressionId) : Coherent { root } where
  owned := fun _ member => absurd member List.not_mem_nil
  mirrored := by
    intro c _
    cases c <;> simp [Context.Holds]
  distinct := .nil
  agenda := .nil
  agendaOwned := fun _ member => absurd member List.not_mem_nil
  fresh := fun _ member => absurd member List.not_mem_nil
  pending := fun _ => Iff.rfl
  pendingDistinct := .nil

section

variable {state : ContextStore} {conclusion c : Conclusion}

@[simp] theorem Context.index_root {state : Context} : (state.index conclusion).root = state.root := by
  cases conclusion <;> rfl

/-- Indexing a conclusion adds that conclusion and no other one. -/
theorem Context.index_holds {state : Context} (same : c.destination = conclusion.destination) :
    (state.index conclusion).Holds c ↔ c = conclusion ∨ state.Holds c := by
  cases conclusion <;> cases c <;> simp_all [index, Holds, Conclusion.destination]

/-- Storing a conclusion in its family index. -/
theorem Context.Mirrors.index {state : Context} {stored : Set Conclusion} (mirrors : state.Mirrors stored)
    (owner : conclusion.destination = state.root) : (state.index conclusion).Mirrors (insert conclusion stored) := by
  intro c same
  rw [index_root] at same
  rw [index_holds (same.trans owner.symm), mirrors c same]
  rfl

@[simp] theorem ContextStore.enqueue_root : (state.enqueue conclusion).root = state.root := by
  unfold enqueue
  split <;> rfl

@[simp] theorem ContextStore.enqueue_conclusions :
    (state.enqueue conclusion).conclusions = state.conclusions := by
  unfold enqueue
  split <;> rfl

/-- A conclusion that is offered is known or on the agenda afterwards. -/
theorem ContextStore.enqueue_known (coherent : state.Coherent) :
    (c ∈ (state.enqueue conclusion).conclusions ∨ c ∈ (state.enqueue conclusion).todo) ↔
      c = conclusion ∨ c ∈ state.conclusions ∨ c ∈ state.todo := by
  unfold enqueue
  split
  · rename_i known
    rw [coherent.pending] at known
    constructor
    · exact Or.inr
    · rintro (rfl | old)
      · exact known
      · exact old
  · simp only [List.mem_append, List.mem_singleton]
    tauto

/-- Offering a conclusion to its own context keeps the context coherent. -/
theorem ContextStore.Coherent.enqueue (coherent : state.Coherent) (owner : conclusion.destination = state.root) :
    (state.enqueue conclusion).Coherent := by
  unfold ContextStore.enqueue
  split
  · exact coherent
  · rename_i novel
    rw [not_or, coherent.pending] at novel
    refine ⟨coherent.owned, ?_, coherent.distinct, ?_, ?_, ?_, ?_, ?_⟩
    · intro c same
      have mirror := coherent.mirrored c same
      cases c <;> exact mirror
    · exact List.nodup_append.mpr ⟨coherent.agenda, List.nodup_singleton _, by
        intro a member b single equal
        rw [equal, List.mem_singleton.mp single] at member
        exact novel.2 member⟩
    · intro c member
      rcases List.mem_append.mp member with old | new
      · exact coherent.agendaOwned c old
      · rw [List.mem_singleton.mp new, owner]
    · intro c member
      rcases List.mem_append.mp member with old | new
      · exact coherent.fresh c old
      · rw [List.mem_singleton.mp new]
        exact novel.1
    · intro c
      simp only [List.mem_cons, List.mem_append, coherent.pending, List.not_mem_nil, or_false]
      exact or_comm
    · exact List.nodup_cons.mpr ⟨fun member => novel.2 ((coherent.pending _).mp member),
        coherent.pendingDistinct⟩

/-- Taking a pending conclusion off the agenda and storing it. -/
def ContextStore.accept (state : ContextStore) (conclusion : Conclusion) : ContextStore :=
  (state.take conclusion).insert conclusion

theorem ContextStore.accept_eq (coherent : state.Coherent) (pending : conclusion ∈ state.todo) :
    state.accept conclusion =
      { state with
        toContext := state.toContext.index conclusion
        todo := state.todo.erase conclusion
        pending := (state.pending.erase conclusion).erase conclusion
        conclusions := conclusion :: state.conclusions } := by
  unfold accept insert take
  exact if_neg (coherent.fresh conclusion pending)

@[simp] theorem ContextStore.accept_root : (state.accept conclusion).root = state.root := by
  unfold accept insert take
  dsimp only
  split
  · rfl
  · exact Context.index_root

/-- What is accepted moves from the agenda to the conclusions. -/
theorem ContextStore.accept_conclusions (coherent : state.Coherent) (pending : conclusion ∈ state.todo) :
    (state.accept conclusion).conclusions = conclusion :: state.conclusions := by
  rw [accept_eq coherent pending]

theorem ContextStore.accept_todo (coherent : state.Coherent) (pending : conclusion ∈ state.todo) :
    (state.accept conclusion).todo = state.todo.erase conclusion := by
  rw [accept_eq coherent pending]

/-- Nothing becomes known or is lost by accepting a conclusion. -/
theorem ContextStore.accept_known (coherent : state.Coherent) (pending : conclusion ∈ state.todo) :
    (c ∈ (state.accept conclusion).conclusions ∨ c ∈ (state.accept conclusion).todo) ↔
      c ∈ state.conclusions ∨ c ∈ state.todo := by
  rw [accept_conclusions coherent pending, accept_todo coherent pending, coherent.agenda.mem_erase_iff,
    List.mem_cons]
  by_cases same : c = conclusion
  · subst same
    simp [pending]
  · simp [same]

/-- Accepting a conclusion of the agenda keeps the context coherent. -/
theorem ContextStore.Coherent.accept (coherent : state.Coherent) (pending : conclusion ∈ state.todo) :
    (state.accept conclusion).Coherent := by
  have owner := coherent.agendaOwned conclusion pending
  have novel := coherent.fresh conclusion pending
  rw [ContextStore.accept_eq coherent pending]
  refine ⟨?_, ?_, ?_, ?_, ?_, ?_, ?_, ?_⟩
  · simp only [Context.index_root, List.mem_cons]
    rintro c (rfl | old)
    · exact owner
    · exact coherent.owned c old
  · intro c same
    rw [coherent.mirrored.index owner c same]
    exact List.mem_cons.symm
  · exact List.nodup_cons.mpr ⟨novel, coherent.distinct⟩
  · exact coherent.agenda.erase _
  · simp only [Context.index_root]
    exact fun c member => coherent.agendaOwned c (List.mem_of_mem_erase member)
  · intro c member
    obtain ⟨different, old⟩ := (coherent.agenda.mem_erase_iff).mp member
    exact List.not_mem_cons_of_ne_of_not_mem different (coherent.fresh c old)
  · intro c
    rw [(coherent.pendingDistinct.erase _).mem_erase_iff,
      coherent.pendingDistinct.mem_erase_iff, coherent.agenda.mem_erase_iff, coherent.pending]
    tauto
  · exact (coherent.pendingDistinct.erase _).erase _

end

/-- One saturation context with its scheduling flags. -/
structure ContextState extends ContextStore where
  saturated : Bool := false
  queued : Bool := false
  deriving DecidableEq, Repr

end PyElk
