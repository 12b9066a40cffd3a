import Mathlib.Logic.Relation
import PyElk.Reasoning.Dispatch

namespace PyElk

/-- Applying an update to the context of one root. -/
def updateStore (contexts : List ContextStore) (root : ExpressionId) (update : ContextStore → ContextStore) :
    List ContextStore :=
  contexts.map fun state => if state.root == root then update state else state

/-- A context is allocated and seeded exactly once. -/
def ensureStore (contexts : List ContextStore) (root : ExpressionId) : List ContextStore :=
  if contexts.any fun state => state.root == root then contexts
  else contexts ++ [ContextStore.enqueue { root := root } (.contextInitialization root)]

/-- A candidate is routed to its owning context, which it may activate. -/
def routeStore (contexts : List ContextStore) (conclusion : Conclusion) : List ContextStore :=
  updateStore (ensureStore contexts conclusion.destination) conclusion.destination
    fun state => state.enqueue conclusion

/-- Any schedule over the contexts of an engine: a demanded root may be allocated
at any time, and any pending conclusion of any context may be processed next,
its products being published in any order, once or repeatedly. -/
inductive ScheduleStep (dispatcher : RuleDispatcher) (roots : Set ExpressionId) :
    List ContextStore → List ContextStore → Prop
  | demand {contexts root} (demanded : root ∈ roots) (novel : ∀ state ∈ contexts, state.root ≠ root) :
      ScheduleStep dispatcher roots contexts (ensureStore contexts root)
  | process {contexts state premise} {products : List Conclusion} (allocated : state ∈ contexts)
    (pending : premise ∈ state.todo)
      (published : ∀ c, c ∈ products ↔ c ∈ dispatcher.products (state.accept premise).toContext premise) :
      ScheduleStep dispatcher roots contexts
        (products.foldl routeStore (updateStore contexts state.root fun state => state.accept premise))

def storedConclusions (contexts : List ContextStore) : Set Conclusion :=
  {c | ∃ state ∈ contexts, c ∈ state.conclusions}

def knownConclusions (contexts : List ContextStore) : Set Conclusion :=
  {c | ∃ state ∈ contexts, c ∈ state.conclusions ∨ c ∈ state.todo}

/-- The invariant of every schedule: the consequences of the `processed` premises
are known. Between two steps these are the stored conclusions. -/
structure Saturating (compiled : Tables) (properties : PropertySaturation) (roots : Set ExpressionId)
    (processed : Set Conclusion) (contexts : List ContextStore) : Prop where
  distinct : (contexts.map (·.root)).Nodup
  coherent : ∀ state ∈ contexts, state.Coherent
  progress : Worklist.Progress (inferenceRules compiled properties) (Conclusion.contextInitialization '' roots)
    processed (knownConclusions contexts)
  activated : ∀ state ∈ contexts, Conclusion.contextInitialization state.root ∈ knownConclusions contexts

/-- The same invariant over an arbitrary set of conclusions to start from. -/
structure Growing (compiled : Tables) (properties : PropertySaturation) (start processed : Set Conclusion)
    (contexts : List ContextStore) : Prop where
  distinct : (contexts.map (·.root)).Nodup
  coherent : ∀ state ∈ contexts, state.Coherent
  progress : Worklist.Progress (inferenceRules compiled properties) start processed (knownConclusions contexts)
  activated : ∀ state ∈ contexts, Conclusion.contextInitialization state.root ∈ knownConclusions contexts

theorem saturating_iff {compiled : Tables} {properties : PropertySaturation} {roots : Set ExpressionId}
    {processed : Set Conclusion} {contexts : List ContextStore} :
    Saturating compiled properties roots processed contexts ↔
      Growing compiled properties (Conclusion.contextInitialization '' roots) processed contexts :=
  ⟨fun ⟨distinct, coherent, progress, activated⟩ => ⟨distinct, coherent, progress, activated⟩,
    fun ⟨distinct, coherent, progress, activated⟩ => ⟨distinct, coherent, progress, activated⟩⟩

section

variable {contexts : List ContextStore} {root : ExpressionId} {update : ContextStore → ContextStore}

theorem eq_of_root (distinct : (contexts.map (·.root)).Nodup) {left right : ContextStore}
    (memberLeft : left ∈ contexts) (memberRight : right ∈ contexts) (same : left.root = right.root) :
    left = right :=
  List.inj_on_of_nodup_map distinct memberLeft memberRight same

/-- Updating one context keeps the roots. -/
theorem updateStore_roots (keeps : ∀ state ∈ contexts, state.root = root → (update state).root = state.root) :
    (updateStore contexts root update).map (·.root) = contexts.map (·.root) := by
  rw [updateStore, List.map_map]
  refine List.map_congr_left ?_
  intro state member
  simp only [Function.comp_apply]
  split
  · rename_i found
    exact keeps state member (beq_iff_eq.mp found)
  · rfl

/-- After an update the context of the root is the updated one, and the others are as before. -/
theorem mem_updateStore {state : ContextStore} :
    state ∈ updateStore contexts root update ↔
      (∃ old ∈ contexts, old.root = root ∧ update old = state) ∨ (state ∈ contexts ∧ state.root ≠ root) := by
  simp only [updateStore, List.mem_map]
  constructor
  · rintro ⟨old, member, rfl⟩
    split
    · rename_i found
      exact Or.inl ⟨old, member, beq_iff_eq.mp found, rfl⟩
    · rename_i other
      exact Or.inr ⟨member, fun same => other (beq_iff_eq.mpr same)⟩
  · rintro (⟨old, member, found, rfl⟩ | ⟨member, other⟩)
    · exact ⟨old, member, if_pos (beq_iff_eq.mpr found)⟩
    · exact ⟨state, member, if_neg (fun same => other (beq_iff_eq.mp same))⟩

/-- A context that exists is not created again. -/
theorem ensureStore_present (present : ∃ state ∈ contexts, state.root = root) :
    ensureStore contexts root = contexts := by
  obtain ⟨state, member, same⟩ := present
  refine if_pos (List.any_eq_true.mpr ⟨state, member, ?_⟩)
  rw [same]
  exact beq_self_eq_true root

/-- A context that is created has its initialization to do. -/
theorem ensureStore_novel (novel : ∀ state ∈ contexts, state.root ≠ root) :
    ensureStore contexts root =
      contexts ++ [ContextStore.enqueue { root := root } (.contextInitialization root)] := by
  refine if_neg ?_
  intro present
  obtain ⟨state, member, same⟩ := List.any_eq_true.mp present
  exact novel state member (beq_iff_eq.mp same)

theorem seed_eq (root : ExpressionId) : ContextStore.enqueue { root := root } (.contextInitialization root) =
    { root := root, todo := [.contextInitialization root], pending := [.contextInitialization root] } :=
  if_neg (by simp)

theorem ensureStore_mem_root : ∃ state ∈ ensureStore contexts root, state.root = root := by
  by_cases present : ∃ state ∈ contexts, state.root = root
  · rw [ensureStore_present present]
    exact present
  · have novel : ∀ state ∈ contexts, state.root ≠ root := fun state member same => present ⟨state, member, same⟩
    rw [ensureStore_novel novel, seed_eq]
    exact ⟨_, List.mem_append_right _ (List.mem_singleton.mpr rfl), rfl⟩

/-- Creating a context stores nothing. -/
theorem ensureStore_stored : storedConclusions (ensureStore contexts root) = storedConclusions contexts := by
  by_cases present : ∃ state ∈ contexts, state.root = root
  · rw [ensureStore_present present]
  · have novel : ∀ state ∈ contexts, state.root ≠ root := fun state member same => present ⟨state, member, same⟩
    rw [ensureStore_novel novel, seed_eq]
    ext c
    simp [storedConclusions, or_and_right, exists_or]

/-- Allocation makes the initialisation of its root known, and nothing else. -/
theorem ensureStore_known (activated : ∀ state ∈ contexts,
      Conclusion.contextInitialization state.root ∈ knownConclusions contexts) :
    knownConclusions (ensureStore contexts root) =
      insert (.contextInitialization root) (knownConclusions contexts) := by
  by_cases present : ∃ state ∈ contexts, state.root = root
  · rw [ensureStore_present present]
    obtain ⟨state, member, rfl⟩ := present
    exact (Set.insert_eq_of_mem (activated state member)).symm
  · have novel : ∀ state ∈ contexts, state.root ≠ root := fun state member same => present ⟨state, member, same⟩
    rw [ensureStore_novel novel, seed_eq]
    ext c
    simp only [knownConclusions, List.mem_append, List.mem_singleton, Set.mem_ofPred_eq, Set.mem_insert_iff,
      or_and_right, exists_or, exists_eq_left, List.not_mem_nil, false_or]
    exact or_comm

theorem ensureStore_coherent (coherent : ∀ state ∈ contexts, state.Coherent) :
    ∀ state ∈ ensureStore contexts root, state.Coherent := by
  by_cases present : ∃ state ∈ contexts, state.root = root
  · rw [ensureStore_present present]
    exact coherent
  · have novel : ∀ state ∈ contexts, state.root ≠ root := fun state member same => present ⟨state, member, same⟩
    rw [ensureStore_novel novel]
    intro state member
    rcases List.mem_append.mp member with old | new
    · exact coherent state old
    · rw [List.mem_singleton.mp new]
      exact (ContextStore.Coherent.empty root).enqueue rfl

theorem ensureStore_distinct (distinct : (contexts.map (·.root)).Nodup) :
    ((ensureStore contexts root).map (·.root)).Nodup := by
  by_cases present : ∃ state ∈ contexts, state.root = root
  · rw [ensureStore_present present]
    exact distinct
  · have novel : ∀ state ∈ contexts, state.root ≠ root := fun state member same => present ⟨state, member, same⟩
    rw [ensureStore_novel novel, seed_eq, List.map_append, List.map_singleton, List.nodup_append]
    refine ⟨distinct, List.nodup_singleton _, ?_⟩
    intro a member b single
    obtain ⟨state, found, rfl⟩ := List.mem_map.mp member
    rw [List.mem_singleton.mp single]
    exact novel state found

theorem ensureStore_mem {state : ContextStore} (member : state ∈ ensureStore contexts root) :
    state ∈ contexts ∨ state.root = root := by
  by_cases present : ∃ state ∈ contexts, state.root = root
  · rw [ensureStore_present present] at member
    exact Or.inl member
  · have novel : ∀ state ∈ contexts, state.root ≠ root := fun state member same => present ⟨state, member, same⟩
    rw [ensureStore_novel novel, seed_eq] at member
    rcases List.mem_append.mp member with old | new
    · exact Or.inl old
    · exact Or.inr (by rw [List.mem_singleton.mp new])

/-- An update that keeps the conclusions of its context keeps what is stored. -/
theorem updateStore_stored
    (keeps : ∀ state ∈ contexts, state.root = root → (update state).conclusions = state.conclusions) :
    storedConclusions (updateStore contexts root update) = storedConclusions contexts := by
  ext c
  constructor
  · rintro ⟨state, member, stored⟩
    rcases mem_updateStore.mp member with ⟨old, found, same, rfl⟩ | ⟨found, _⟩
    · exact ⟨old, found, by rwa [keeps old found same] at stored⟩
    · exact ⟨state, found, stored⟩
  · rintro ⟨state, member, stored⟩
    by_cases same : state.root = root
    · exact ⟨update state, mem_updateStore.mpr (Or.inl ⟨state, member, same, rfl⟩),
        by rwa [keeps state member same]⟩
    · exact ⟨state, mem_updateStore.mpr (Or.inr ⟨member, same⟩), stored⟩

/-- A pending or stored candidate extends the known conclusions by itself. -/
theorem updateStore_known_enqueue {conclusion : Conclusion} (coherent : ∀ state ∈ contexts, state.Coherent)
    (present : ∃ state ∈ contexts, state.root = root) :
    knownConclusions (updateStore contexts root fun state => state.enqueue conclusion) =
      insert conclusion (knownConclusions contexts) := by
  ext c
  constructor
  · rintro ⟨state, member, known⟩
    rcases mem_updateStore.mp member with ⟨old, found, same, rfl⟩ | ⟨found, _⟩
    · rcases (ContextStore.enqueue_known (coherent old found)).mp known with rfl | before
      · exact Or.inl rfl
      · exact Or.inr ⟨old, found, before⟩
    · exact Or.inr ⟨state, found, known⟩
  · rintro (rfl | ⟨state, member, known⟩)
    · obtain ⟨state, member, same⟩ := present
      exact ⟨state.enqueue c, mem_updateStore.mpr (Or.inl ⟨state, member, same, rfl⟩),
        (ContextStore.enqueue_known (coherent state member)).mpr (Or.inl rfl)⟩
    · by_cases same : state.root = root
      · exact ⟨state.enqueue conclusion, mem_updateStore.mpr (Or.inl ⟨state, member, same, rfl⟩),
          (ContextStore.enqueue_known (coherent state member)).mpr (Or.inr known)⟩
      · exact ⟨state, mem_updateStore.mpr (Or.inr ⟨member, same⟩), known⟩

theorem routeStore_roots {conclusion : Conclusion} :
    (routeStore contexts conclusion).map (·.root) =
      (ensureStore contexts conclusion.destination).map (·.root) :=
  updateStore_roots fun _ _ _ => ContextStore.enqueue_root

theorem ensureStore_roots_sub : contexts.map (·.root) ⊆ (ensureStore contexts root).map (·.root) := by
  rw [ensureStore]
  split
  · exact List.Subset.refl _
  · rw [List.map_append]
    exact List.subset_append_left _ _

theorem routeAll_roots_sub {products : List Conclusion} :
    contexts.map (·.root) ⊆ (products.foldl routeStore contexts).map (·.root) := by
  induction products generalizing contexts with
  | nil => exact List.Subset.refl _
  | cons product rest ih =>
    refine List.Subset.trans ?_ ih
    rw [routeStore_roots]
    exact ensureStore_roots_sub

/-- An allocated context is never lost. -/
theorem ScheduleStep.roots_sub {dispatcher : RuleDispatcher} {roots : Set ExpressionId}
    {contexts' : List ContextStore}
    (step : ScheduleStep dispatcher roots contexts contexts') :
    contexts.map (·.root) ⊆ contexts'.map (·.root) := by
  cases step with
  | demand _ _ => exact ensureStore_roots_sub
  | process _ _ _ =>
    refine List.Subset.trans ?_ routeAll_roots_sub
    rw [updateStore_roots fun _ _ _ => ContextStore.accept_root]
    exact List.Subset.refl _

/-- No step removes a context. -/
theorem schedule_roots_sub {dispatcher : RuleDispatcher} {roots : Set ExpressionId} {contexts' : List ContextStore}
    (steps : Relation.ReflTransGen (ScheduleStep dispatcher roots) contexts contexts') :
    contexts.map (·.root) ⊆ contexts'.map (·.root) := by
  induction steps with
  | refl => exact List.Subset.refl _
  | tail _ step ih => exact List.Subset.trans ih step.roots_sub

end

section

variable {compiled : Tables} {properties : PropertySaturation} {start more processed : Set Conclusion}
  {contexts : List ContextStore} {root : ExpressionId} {conclusion : Conclusion}

theorem Growing.empty : Growing compiled properties start (storedConclusions []) [] where
  distinct := List.nodup_nil
  coherent := fun _ member => absurd member List.not_mem_nil
  progress := by
    have stored : storedConclusions [] = ∅ := by simp [storedConclusions]
    have known : knownConclusions [] = ∅ := by simp [knownConclusions]
    rw [stored, known]
    exact .empty
  activated := fun _ member => absurd member List.not_mem_nil

/-- A run may be seen as demanded by more. -/
theorem Growing.mono (growing : Growing compiled properties start processed contexts) (sub : start ⊆ more) :
    Growing compiled properties more processed contexts :=
  ⟨growing.distinct, growing.coherent, growing.progress.mono sub, growing.activated⟩

theorem Growing.shrink {fewer : Set Conclusion} (growing : Growing compiled properties start processed contexts)
    (sub : fewer ⊆ processed) : Growing compiled properties start fewer contexts :=
  ⟨growing.distinct, growing.coherent, growing.progress.shrink sub, growing.activated⟩

theorem Growing.known_ensure (growing : Growing compiled properties start processed contexts) :
    knownConclusions (ensureStore contexts root) =
      insert (.contextInitialization root) (knownConclusions contexts) :=
  ensureStore_known growing.activated

/-- Creating a context whose initialization is derivable keeps the invariant. -/
theorem Growing.ensure (growing : Growing compiled properties start processed contexts)
    (derivable : (inferenceRules compiled properties).Derives start (.contextInitialization root)) :
    Growing compiled properties start processed (ensureStore contexts root) where
  distinct := ensureStore_distinct growing.distinct
  coherent := ensureStore_coherent growing.coherent
  progress := by
    rw [growing.known_ensure]
    refine growing.progress.grow (Set.subset_insert _ _) ?_
    rintro c (rfl | old)
    · exact Or.inr derivable
    · exact Or.inl old
  activated := by
    intro state member
    rw [growing.known_ensure]
    rcases ensureStore_mem member with old | rfl
    · exact Or.inr (growing.activated state old)
    · exact Or.inl rfl

/-- Routing a conclusion stores nothing. -/
theorem routeStore_stored :
    storedConclusions (routeStore contexts conclusion) = storedConclusions contexts := by
  rw [routeStore, updateStore_stored (fun _ _ _ => ContextStore.enqueue_conclusions), ensureStore_stored]

/-- Routing makes a conclusion and the initialization of its context known, and nothing else. -/
theorem Growing.known_route (growing : Growing compiled properties start processed contexts) :
    knownConclusions (routeStore contexts conclusion) =
      insert conclusion (insert (.contextInitialization conclusion.destination) (knownConclusions contexts)) := by
  rw [routeStore, updateStore_known_enqueue (ensureStore_coherent growing.coherent) ensureStore_mem_root,
    growing.known_ensure]

/-- Routing a derivable candidate keeps the invariant. -/
theorem Growing.route (growing : Growing compiled properties start processed contexts)
    (derivable : (inferenceRules compiled properties).Derives start conclusion) :
    Growing compiled properties start processed (routeStore contexts conclusion) := by
  have owner : (inferenceRules compiled properties).Derives start (.contextInitialization conclusion.destination) :=
    .unary derivable (.contextInitialization conclusion)
  have ensured := growing.ensure owner
  refine ⟨?_, ?_, ?_, ?_⟩
  · rw [routeStore, updateStore_roots (fun _ _ _ => ContextStore.enqueue_root)]
    exact ensured.distinct
  · intro state member
    rcases mem_updateStore.mp member with ⟨old, found, same, rfl⟩ | ⟨found, _⟩
    · exact (ensured.coherent old found).enqueue same.symm
    · exact ensured.coherent state found
  · rw [growing.known_route]
    refine growing.progress.grow ((Set.subset_insert _ _).trans (Set.subset_insert _ _)) ?_
    rintro c (rfl | rfl | old)
    · exact Or.inr derivable
    · exact Or.inr owner
    · exact Or.inl old
  · intro state member
    have grown : knownConclusions (ensureStore contexts conclusion.destination) ⊆
        knownConclusions (routeStore contexts conclusion) := by
      rw [growing.known_route, growing.known_ensure]
      exact Set.subset_insert _ _
    rcases mem_updateStore.mp member with ⟨old, found, _, rfl⟩ | ⟨found, _⟩
    · rw [ContextStore.enqueue_root]
      exact grown (ensured.activated old found)
    · exact grown (ensured.activated state found)

/-- Publishing the products of one dispatch. -/
theorem Growing.publish (products : List Conclusion)
    (growing : Growing compiled properties start processed contexts)
    (derivable : ∀ c ∈ products, (inferenceRules compiled properties).Derives start c) :
    Growing compiled properties start processed (products.foldl routeStore contexts) ∧
      storedConclusions (products.foldl routeStore contexts) = storedConclusions contexts ∧
      knownConclusions contexts ⊆ knownConclusions (products.foldl routeStore contexts) ∧
      ∀ c ∈ products, c ∈ knownConclusions (products.foldl routeStore contexts) := by
  induction products generalizing contexts with
  | nil => exact ⟨growing, rfl, subset_rfl, fun _ member => absurd member List.not_mem_nil⟩
  | cons product rest ih =>
    have routed := growing.route (derivable product List.mem_cons_self)
    obtain ⟨after, stored, grown, known⟩ := ih routed fun c member => derivable c (List.mem_cons_of_mem _ member)
    have first : insert product (knownConclusions contexts) ⊆ knownConclusions (routeStore contexts product) := by
      rw [growing.known_route]
      exact Set.insert_subset_insert (Set.subset_insert _ _)
    refine ⟨after, stored.trans routeStore_stored, ?_, ?_⟩
    · exact ((Set.subset_insert _ _).trans first).trans grown
    · intro c member
      rcases List.mem_cons.mp member with rfl | member
      · exact grown (first (Or.inl rfl))
      · exact known c member

/-- Accepting a conclusion that is to do changes nothing in what is known. -/
theorem updateStore_known_accept {state : ContextStore} {premise : Conclusion}
    (distinct : (contexts.map (·.root)).Nodup) (coherent : ∀ state ∈ contexts, state.Coherent)
    (allocated : state ∈ contexts) (pending : premise ∈ state.todo) :
    knownConclusions (updateStore contexts state.root fun state => state.accept premise) =
        knownConclusions contexts ∧
      storedConclusions (updateStore contexts state.root fun state => state.accept premise) =
        insert premise (storedConclusions contexts) := by
  have only : ∀ other ∈ contexts, other.root = state.root → other = state :=
    fun other member same => eq_of_root distinct member allocated same
  have accepted : state.accept premise ∈ updateStore contexts state.root fun state => state.accept premise :=
    mem_updateStore.mpr (Or.inl ⟨state, allocated, rfl, rfl⟩)
  constructor
  · ext c
    constructor
    · rintro ⟨found, member, known⟩
      rcases mem_updateStore.mp member with ⟨old, before, same, rfl⟩ | ⟨before, _⟩
      · rw [only old before same, ContextStore.accept_known (coherent state allocated) pending] at known
        exact ⟨state, allocated, known⟩
      · exact ⟨found, before, known⟩
    · rintro ⟨found, member, known⟩
      by_cases same : found.root = state.root
      · rw [only found member same] at known
        exact ⟨_, accepted, (ContextStore.accept_known (coherent state allocated) pending).mpr known⟩
      · exact ⟨found, mem_updateStore.mpr (Or.inr ⟨member, same⟩), known⟩
  · ext c
    constructor
    · rintro ⟨found, member, stored⟩
      rcases mem_updateStore.mp member with ⟨old, before, same, rfl⟩ | ⟨before, _⟩
      · rw [only old before same, ContextStore.accept_conclusions (coherent state allocated) pending] at stored
        rcases List.mem_cons.mp stored with rfl | stored
        · exact Or.inl rfl
        · exact Or.inr ⟨state, allocated, stored⟩
      · exact Or.inr ⟨found, before, stored⟩
    · rintro (rfl | ⟨found, member, stored⟩)
      · refine ⟨_, accepted, ?_⟩
        rw [ContextStore.accept_conclusions (coherent state allocated) pending]
        exact List.mem_cons_self
      · by_cases same : found.root = state.root
        · rw [only found member same] at stored
          refine ⟨_, accepted, ?_⟩
          rw [ContextStore.accept_conclusions (coherent state allocated) pending]
          exact List.mem_cons_of_mem _ stored
        · exact ⟨found, mem_updateStore.mpr (Or.inr ⟨member, same⟩), stored⟩

/-- A stored conclusion is in the context of its destination. -/
theorem Growing.owner (growing : Growing compiled properties start processed contexts)
    {state : ContextStore} (allocated : state ∈ contexts) {c : Conclusion} (owned : c.destination = state.root)
    (stored : c ∈ storedConclusions contexts) : c ∈ state.conclusions := by
  obtain ⟨other, member, found⟩ := stored
  have same := (growing.coherent other member).owned c found
  rwa [eq_of_root growing.distinct allocated member (owned.symm.trans same)]

/-- Storing a pending conclusion that is not dispatched yet. -/
theorem Growing.accept {state : ContextStore} {premise : Conclusion}
    (growing : Growing compiled properties start processed contexts) (allocated : state ∈ contexts)
    (pending : premise ∈ state.todo) :
    Growing compiled properties start processed
      (updateStore contexts state.root fun state => state.accept premise) := by
  have coherent := growing.coherent state allocated
  obtain ⟨known, -⟩ := updateStore_known_accept growing.distinct growing.coherent allocated pending
  refine ⟨?_, ?_, ?_, ?_⟩
  · rw [updateStore_roots fun _ _ _ => ContextStore.accept_root]
    exact growing.distinct
  · intro found member
    rcases mem_updateStore.mp member with ⟨old, before, same, rfl⟩ | ⟨before, _⟩
    · rw [eq_of_root growing.distinct before allocated same]
      exact coherent.accept pending
    · exact growing.coherent found before
  · rw [known]
    exact growing.progress
  · rw [known]
    intro found member
    rcases mem_updateStore.mp member with ⟨old, before, _, rfl⟩ | ⟨before, _⟩
    · rw [ContextStore.accept_root]
      exact growing.activated old before
    · exact growing.activated found before

/-- What the dispatch of a stored conclusion produces is derivable. -/
theorem Growing.dispatch_derives {state : ContextStore} {premise : Conclusion}
    (growing : Growing compiled properties start processed contexts) (allocated : state ∈ contexts)
    (stored : premise ∈ state.conclusions) {c : Conclusion}
    (product : c ∈ (RuleDispatcher.new compiled properties).products state.toContext premise) :
    (inferenceRules compiled properties).Derives start c := by
  have coherent := growing.coherent state allocated
  have known : ∀ q ∈ state.conclusions, (inferenceRules compiled properties).Derives start q :=
    fun q found => growing.progress.sound q ⟨state, allocated, Or.inl found⟩
  rcases dispatch_sound coherent.mirrored (coherent.owned premise stored) product with unary |
    ⟨q, found, left | right⟩
  · exact .unary (known premise stored) unary
  · exact .binary (known premise stored) (known q found) left
  · exact .binary (known q found) (known premise stored) right

/-- Publishing what the dispatch of a stored conclusion produces processes it. -/
theorem Growing.dispatch {state : ContextStore} {premise : Conclusion} {products : List Conclusion}
    (growing : Growing compiled properties start processed contexts) (allocated : state ∈ contexts)
    (stored : premise ∈ state.conclusions) (processed_stored : processed ⊆ storedConclusions contexts)
    (order : ∀ c, c ∈ products ↔ c ∈ (RuleDispatcher.new compiled properties).products state.toContext premise) :
    Growing compiled properties start (insert premise processed) (products.foldl routeStore contexts) := by
  have coherent := growing.coherent state allocated
  have owner := coherent.owned premise stored
  obtain ⟨after, -, grown, published⟩ := growing.publish products
    fun c member => growing.dispatch_derives allocated stored ((order c).mp member)
  have nearby : ∀ q ∈ insert premise processed, q.destination = state.root → q ∈ state.conclusions := by
    rintro q (rfl | found) owned
    · exact stored
    · exact growing.owner allocated owned (processed_stored found)
  refine ⟨after.distinct, after.coherent, ?_, after.activated⟩
  refine after.progress.process (grown ⟨state, allocated, Or.inl stored⟩) ?_ ?_ ?_
  · intro c rule
    rcases dispatch_unary owner rule with rfl | product
    · exact grown (growing.activated state allocated)
    · exact published c ((order c).mpr product)
  · intro q c found rule
    have owned : q.destination = state.root := (BinaryInference.local rule).symm.trans owner
    exact published c ((order c).mpr (dispatch_binary_left coherent.mirrored owner (nearby q found owned) rule))
  · intro q c found rule
    have owned : q.destination = state.root := (BinaryInference.local rule).trans owner
    exact published c ((order c).mpr (dispatch_binary_right coherent.mirrored owner (nearby q found owned) rule))

end

section

variable {compiled : Tables} {properties : PropertySaturation} {roots more : Set ExpressionId}
  {processed : Set Conclusion} {contexts : List ContextStore} {root : ExpressionId} {conclusion : Conclusion}

theorem Saturating.empty : Saturating compiled properties roots (storedConclusions []) [] :=
  saturating_iff.mpr .empty

/-- Creating a context whose initialization is derivable keeps the invariant. -/
theorem Saturating.ensure (saturating : Saturating compiled properties roots processed contexts)
    (derivable : Derivable compiled properties roots (.contextInitialization root)) :
    Saturating compiled properties roots processed (ensureStore contexts root) :=
  saturating_iff.mpr ((saturating_iff.mp saturating).ensure derivable)

/-- A stored conclusion is in the context of its destination. -/
theorem Saturating.owner (saturating : Saturating compiled properties roots processed contexts)
    {state : ContextStore} (allocated : state ∈ contexts) {c : Conclusion} (owned : c.destination = state.root)
    (stored : c ∈ storedConclusions contexts) : c ∈ state.conclusions :=
  (saturating_iff.mp saturating).owner allocated owned stored

/-- One agenda item, whichever context and candidate the schedule picks. -/
theorem Saturating.process {state : ContextStore} {premise : Conclusion} {products : List Conclusion}
    (saturating : Saturating compiled properties roots (storedConclusions contexts) contexts)
    (allocated : state ∈ contexts) (pending : premise ∈ state.todo)
    (order : ∀ c, c ∈ products ↔
      c ∈ (RuleDispatcher.new compiled properties).products (state.accept premise).toContext premise) :
    Saturating compiled properties roots
        (storedConclusions
          (products.foldl routeStore (updateStore contexts state.root fun state => state.accept premise)))
        (products.foldl routeStore (updateStore contexts state.root fun state => state.accept premise)) ∧
      storedConclusions (products.foldl routeStore
        (updateStore contexts state.root fun state => state.accept premise)) =
        insert premise (storedConclusions contexts) ∧
      premise ∉ storedConclusions contexts := by
  have growing := saturating_iff.mp saturating
  have coherent := saturating.coherent state allocated
  obtain ⟨-, stored⟩ := updateStore_known_accept saturating.distinct saturating.coherent allocated pending
  have accepted := growing.accept allocated pending
  have listed : state.accept premise ∈ updateStore contexts state.root fun state => state.accept premise :=
    mem_updateStore.mpr (Or.inl ⟨state, allocated, rfl, rfl⟩)
  have here : premise ∈ (state.accept premise).conclusions := by
    rw [ContextStore.accept_conclusions coherent pending]
    exact List.mem_cons_self
  have within : storedConclusions contexts ⊆
      storedConclusions (updateStore contexts state.root fun state => state.accept premise) := by
    rw [stored]
    exact Set.subset_insert _ _
  have derives := fun c member => accepted.dispatch_derives listed here ((order c).mp member)
  obtain ⟨-, kept, -⟩ := accepted.publish products derives
  have after := accepted.dispatch listed here within order
  rw [kept, stored]
  refine ⟨saturating_iff.mpr after, rfl, fun before => ?_⟩
  exact coherent.fresh premise pending (growing.owner allocated (coherent.agendaOwned premise pending) before)

end

end PyElk
