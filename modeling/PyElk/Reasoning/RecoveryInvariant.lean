import PyElk.Reasoning.Recovery

open Ordered

namespace PyElk

/-- A context is reported saturated when it is neither queued nor claimed. -/
def ContextState.Settled (claimed : Option ExpressionId) (state : ContextState) : Prop :=
  state.saturated = true ↔ state.queued = false ∧ claimed ≠ some state.root

theorem ContextState.offer_root {claimed : Bool} {conclusion : Conclusion} {state : ContextState} :
    (state.offer claimed conclusion).root = state.root := by
  rw [ContextState.offer_store, ContextStore.enqueue_root]

/-- A novel candidate leaves its context queued or claimed, and not saturated. -/
theorem ContextState.offer_settled {claimed : Option ExpressionId} {conclusion : Conclusion} {state : ContextState}
    (settled : conclusion ∈ state.conclusions ∨ conclusion ∈ state.pending → state.Settled claimed) :
    (state.offer (claimed == some state.root) conclusion).Settled claimed := by
  by_cases known : conclusion ∈ state.conclusions ∨ conclusion ∈ state.pending
  · rw [ContextState.offer_known known]
    exact settled known
  · rw [ContextState.offer_novel known]
    by_cases held : claimed = some state.root
    · simp [Settled, held]
    · simp [Settled, held]

def SaturationEngine.Settled (engine : SaturationEngine) : Prop :=
  ∀ state ∈ engine.contexts, state.Settled engine.claimedRoot

section

variable {engine : SaturationEngine} {root : ExpressionId} {conclusion : Conclusion}

/-- Enqueueing keeps what is reported saturated right. -/
theorem SaturationEngine.Settled.enqueueExisting (settled : engine.Settled) :
    (engine.enqueueExisting root conclusion).Settled := by
  intro state member
  rcases mem_modify.mp member with ⟨old, found, rfl, rfl⟩ | ⟨found, _⟩
  · exact ContextState.offer_settled fun _ => settled old found
  · exact settled state found

/-- Creating a context keeps what is reported saturated right. -/
theorem SaturationEngine.Settled.ensureContext (settled : engine.Settled) :
    (engine.ensureContext root).Settled := by
  rw [SaturationEngine.ensureContext]
  split
  · exact settled
  · intro state member
    rcases mem_modify.mp member with ⟨old, found, rfl, rfl⟩ | ⟨found, elsewhere⟩
    · rcases List.mem_append.mp found with before | new
      · exact ContextState.offer_settled fun _ => settled old before
      · -- a new context holds nothing, so that its initialisation is novel
        rw [List.mem_singleton.mp new]
        refine ContextState.offer_settled fun known => ?_
        simp at known
    · rcases List.mem_append.mp found with before | new
      · exact settled state before
      · exact absurd (congrArg (fun state : ContextState => state.root) (List.mem_singleton.mp new)) elsewhere

/-- The contexts of an update, in terms of the updated engine. -/
theorem SaturationEngine.Settled.modify {update : ContextState → ContextState} {claimed : Option ExpressionId}
    (settled : engine.Settled) (moved : ∀ state ∈ engine.contexts, state.root = root → (update state).Settled claimed)
    (others : ∀ state ∈ engine.contexts, state.root ≠ root → state.Settled engine.claimedRoot →
      state.Settled claimed) :
    ∀ state ∈ (engine.modify root update).contexts, state.Settled claimed := by
  intro state member
  rcases mem_modify.mp member with ⟨old, found, same, rfl⟩ | ⟨found, elsewhere⟩
  · exact moved old found same
  · exact others state found elsewhere (settled state found)

theorem SaturationEngine.Settled.claim {rest : List ExpressionId} (settled : engine.Settled)
    (unclaimed : engine.claimedRoot = none) : (engine.claim root rest).Settled := by
  refine settled.modify ?_ ?_
  · rintro state _ rfl
    show false = true ↔ false = false ∧ some state.root ≠ some state.root
    simp
  · intro state _ elsewhere before
    show _ ↔ _ ∧ some root ≠ some state.root
    rw [unclaimed] at before
    simpa [ContextState.Settled, elsewhere.symm] using before

theorem SaturationEngine.Settled.release (settled : engine.Settled) (claimed : engine.claimedRoot = some root)
    (unqueued : ∀ state ∈ engine.contexts, state.root = root → state.queued = false) :
    (engine.release root).Settled := by
  refine settled.modify ?_ ?_
  · intro state found same
    show true = true ↔ state.queued = false ∧ none ≠ some state.root
    simp [unqueued state found same]
  · intro state _ elsewhere before
    show _ ↔ _ ∧ none ≠ some state.root
    rw [claimed] at before
    simpa [ContextState.Settled, elsewhere.symm] using before

end

/-- A context whose agenda begins with the retries. -/
def ContextState.behind (retries : List Conclusion) (state : ContextState) : ContextState :=
  { state with todo := retries ++ state.todo }

/-- What is retried stands in front of what is offered. -/
theorem ContextState.offer_behind {claimed : Bool} {retries : List Conclusion} {conclusion : Conclusion}
    {state : ContextState} :
    (state.offer claimed conclusion).behind retries = (state.behind retries).offer claimed conclusion := by
  by_cases known : conclusion ∈ state.conclusions ∨ conclusion ∈ state.pending
  · have same : conclusion ∈ (state.behind retries).conclusions ∨ conclusion ∈ (state.behind retries).pending := known
    rw [ContextState.offer_known known, ContextState.offer_known same]
  · have same : ¬ (conclusion ∈ (state.behind retries).conclusions ∨
      conclusion ∈ (state.behind retries).pending) := known
    rw [ContextState.offer_novel known, ContextState.offer_novel same]
    simp only [behind, List.append_assoc]

/-- The engine whose agendas begin with the retries. -/
def RecoveringEngine.view (engine : RecoveringEngine) : SaturationEngine :=
  { engine.toSaturationEngine with
    contexts := engine.contexts.map fun state => state.behind (engine.retry state.root) }

/-- Only allocated contexts have retries. -/
def RecoveringEngine.Allocated (engine : RecoveringEngine) : Prop :=
  ∀ root, engine.retry root ≠ [] → ∃ state ∈ engine.contexts, state.root = root

section

variable {engine : RecoveringEngine} {root : ExpressionId} {conclusion : Conclusion}

/-- The contexts seen are those of the engine with their retries in front. -/
theorem RecoveringEngine.mem_view {state : ContextState} :
    state ∈ engine.view.contexts ↔ ∃ old ∈ engine.contexts, old.behind (engine.retry old.root) = state :=
  List.mem_map

theorem RecoveringEngine.view_distinct : engine.view.Distinct ↔ engine.Distinct := by
  simp only [SaturationEngine.Distinct, SaturationEngine.stores, view, List.map_map]
  rfl

theorem RecoveringEngine.view_contextState : engine.view.contextState root =
    (engine.contextState root).map fun state => state.behind (engine.retry state.root) := by
  rw [SaturationEngine.contextState, view, List.find?_map]
  rfl

/-- Updates of one context, seen behind its retries. -/
theorem RecoveringEngine.view_modify {update shown : ContextState → ContextState} {next : RecoveringEngine}
    (contexts : next.contexts = (engine.modify root update).contexts)
    (commutes : ∀ state ∈ engine.contexts, state.root = root →
      (update state).behind (next.retry (update state).root) = shown (state.behind (engine.retry state.root)))
    (kept : ∀ other, other ≠ root → next.retry other = engine.retry other) :
    next.view.contexts = (engine.view.modify root shown).contexts := by
  simp only [view, SaturationEngine.modify, List.map_map, contexts]
  refine List.map_congr_left fun state member => ?_
  simp only [Function.comp_apply, beq_iff_eq]
  by_cases same : state.root = root
  · have there : (state.behind (engine.retry state.root)).root = root := same
    rw [if_pos same, if_pos there]
    exact commutes state member same
  · have there : (state.behind (engine.retry state.root)).root ≠ root := same
    rw [if_neg same, if_neg there, kept state.root same]

theorem RecoveringEngine.view_activates :
    engine.view.activates root conclusion = engine.activates root conclusion := by
  rw [SaturationEngine.activates, view_contextState, SaturationEngine.activates]
  cases engine.contextState root <;> rfl

end

section

variable {base : SaturationEngine} {retry : ExpressionId → List Conclusion} {root : ExpressionId}
    {conclusion : Conclusion}

/-- Enqueueing is seen as enqueueing. -/
theorem RecoveringEngine.view_enqueueExisting : RecoveringEngine.view ⟨base.enqueueExisting root conclusion, retry⟩ =
    (RecoveringEngine.view ⟨base, retry⟩).enqueueExisting root conclusion := by
  have contexts : (RecoveringEngine.view ⟨base.enqueueExisting root conclusion, retry⟩).contexts =
      ((RecoveringEngine.view ⟨base, retry⟩).enqueueExisting root conclusion).contexts := by
    refine @view_modify ⟨base, retry⟩ root _ _ ⟨base.enqueueExisting root conclusion, retry⟩ rfl (fun state _ _ => ?_)
      fun _ _ => rfl
    rw [ContextState.offer_root]
    exact ContextState.offer_behind
  have active : (base.enqueueExisting root conclusion).active =
      ((RecoveringEngine.view ⟨base, retry⟩).enqueueExisting root conclusion).active := by
    simp only [SaturationEngine.enqueueExisting, view_activates]
    rfl
  rw [SaturationEngine.mk.injEq]
  exact ⟨rfl, contexts, active, rfl⟩

theorem RecoveringEngine.view_ensureContext (allocated : RecoveringEngine.Allocated ⟨base, retry⟩) :
    RecoveringEngine.view ⟨base.ensureContext root, retry⟩ =
      (RecoveringEngine.view ⟨base, retry⟩).ensureContext root := by
  by_cases present : ∃ state ∈ base.contexts, state.root = root
  · have found : (base.contextState root).isSome := SaturationEngine.contextState_isSome.mpr present
    have shown : ((RecoveringEngine.view ⟨base, retry⟩).contextState root).isSome := by
      rwa [view_contextState, Option.isSome_map]
    have here : base.ensureContext root = base := if_pos found
    have there : (RecoveringEngine.view ⟨base, retry⟩).ensureContext root = RecoveringEngine.view ⟨base, retry⟩ :=
      if_pos shown
    rw [here, there]
  · have absent : ¬ (base.contextState root).isSome :=
      fun found => present (SaturationEngine.contextState_isSome.mp found)
    have hidden : ¬ ((RecoveringEngine.view ⟨base, retry⟩).contextState root).isSome := by
      rwa [view_contextState, Option.isSome_map]
    have quiet : retry root = [] := by
      by_contra retries
      exact present (allocated root retries)
    have here : base.ensureContext root = SaturationEngine.enqueueExisting
        { base with contexts := base.contexts ++ [{ root := root }] } root
          (.contextInitialization root) := if_neg absent
    have there : (RecoveringEngine.view ⟨base, retry⟩).ensureContext root = SaturationEngine.enqueueExisting
        { RecoveringEngine.view ⟨base, retry⟩ with
          contexts := (RecoveringEngine.view ⟨base, retry⟩).contexts ++ [{ root := root }] } root
        (.contextInitialization root) := if_neg hidden
    have seeded : RecoveringEngine.view ⟨{ base with contexts := base.contexts ++ [{ root := root }] }, retry⟩ =
        { RecoveringEngine.view ⟨base, retry⟩ with
          contexts := (RecoveringEngine.view ⟨base, retry⟩).contexts ++ [{ root := root }] } := by
      simp only [view, List.map_append, List.map_singleton, quiet, ContextState.behind, List.nil_append]
    rw [here, there, view_enqueueExisting, seeded]

theorem RecoveringEngine.view_enqueue (allocated : RecoveringEngine.Allocated ⟨base, retry⟩) :
    RecoveringEngine.view ⟨base.enqueue conclusion, retry⟩ =
      (RecoveringEngine.view ⟨base, retry⟩).enqueue conclusion := by
  rw [SaturationEngine.enqueue, view_enqueueExisting, view_ensureContext allocated, SaturationEngine.enqueue]

end

/-- The premises whose products are not published. -/
def RecoveringEngine.outstanding (engine : RecoveringEngine) (flight : Set Conclusion) : Set Conclusion :=
  flight ∪ {c | ∃ root, c ∈ engine.retry root}

/-- The invariant of an engine that recovers: every stored conclusion is processed,
in flight, or to be retried. -/
structure RecoveringEngine.Live (compiled : Tables) (properties : PropertySaturation) (start flight : Set Conclusion)
    (engine : RecoveringEngine) : Prop where
  dispatcher : engine.dispatcher = RuleDispatcher.new compiled properties
  growing : Growing compiled properties start
    (storedConclusions engine.stores \ engine.outstanding flight) engine.stores
  scheduled : engine.view.Scheduled
  settled : engine.Settled
  retried : ∀ root, ∀ c ∈ engine.retry root, c.destination = root ∧ c ∈ storedConclusions engine.stores

/-- Nothing stored or known is lost. -/
structure Extends (before after : List ContextStore) : Prop where
  stored : storedConclusions before ⊆ storedConclusions after
  known : knownConclusions before ⊆ knownConclusions after

theorem Extends.refl {contexts : List ContextStore} : Extends contexts contexts := ⟨subset_rfl, subset_rfl⟩

theorem Extends.trans {first second third : List ContextStore} (before : Extends first second)
    (after : Extends second third) : Extends first third :=
  ⟨before.stored.trans after.stored, before.known.trans after.known⟩

section

variable {compiled : Tables} {properties : PropertySaturation} {start more flight : Set Conclusion}
  {engine : RecoveringEngine} {root : ExpressionId} {premise : Conclusion}

theorem RecoveringEngine.Live.mono (live : engine.Live compiled properties start flight) (sub : start ⊆ more) :
    engine.Live compiled properties more flight :=
  ⟨live.dispatcher, live.growing.mono sub, live.scheduled, live.settled, live.retried⟩

theorem RecoveringEngine.Live.distinct (live : engine.Live compiled properties start flight) : engine.Distinct :=
  live.growing.distinct

theorem RecoveringEngine.Live.owner (live : engine.Live compiled properties start flight) {c : Conclusion}
    (stored : c ∈ storedConclusions engine.stores) :
    ∃ state ∈ engine.contexts, state.root = c.destination ∧ c ∈ state.conclusions := by
  obtain ⟨store, member, held⟩ := stored
  have owned := (live.growing.coherent store member).owned c held
  obtain ⟨state, found, rfl⟩ := List.mem_map.mp member
  exact ⟨state, found, owned.symm, held⟩

theorem RecoveringEngine.Live.allocated (live : engine.Live compiled properties start flight) : engine.Allocated := by
  intro root retries
  obtain ⟨c, member⟩ := List.exists_mem_of_ne_nil _ retries
  obtain ⟨same, stored⟩ := live.retried root c member
  obtain ⟨state, found, owned, _⟩ := live.owner stored
  exact ⟨state, found, owned.trans same⟩

/-- A new engine is alive. -/
theorem RecoveringEngine.Live.new : (RecoveringEngine.new compiled properties).Live compiled properties start ∅ where
  dispatcher := rfl
  growing := Growing.empty.shrink Set.sdiff_subset
  scheduled := by
    have running : (SaturationEngine.new compiled properties).Running compiled properties ∅ := .new
    exact running.scheduled
  settled := fun _ member => absurd member List.not_mem_nil
  retried := fun _ _ member => absurd member List.not_mem_nil

/-- Allocation of a root whose initialisation is derivable. -/
theorem RecoveringEngine.Live.ensureContext (live : engine.Live compiled properties start flight)
    (derivable : (inferenceRules compiled properties).Derives start (.contextInitialization root)) :
    RecoveringEngine.Live compiled properties start flight ⟨engine.ensureContext root, engine.retry⟩ ∧
      Extends engine.stores (engine.ensureContext root).stores ∧
      .contextInitialization root ∈ knownConclusions (engine.ensureContext root).stores := by
  have stored : storedConclusions (engine.ensureContext root).stores = storedConclusions engine.stores := by
    rw [SaturationEngine.stores_ensureContext, ensureStore_stored]
  have known : knownConclusions (engine.ensureContext root).stores =
      insert (.contextInitialization root) (knownConclusions engine.stores) := by
    rw [SaturationEngine.stores_ensureContext]
    exact live.growing.known_ensure
  refine ⟨⟨SaturationEngine.ensureContext_fields.1.trans live.dispatcher, ?_, ?_, live.settled.ensureContext, ?_⟩,
    ⟨stored.ge, ?_⟩, ?_⟩
  · show Growing _ _ _ (storedConclusions (engine.ensureContext root).stores \ engine.outstanding flight) _
    rw [stored, SaturationEngine.stores_ensureContext]
    exact live.growing.ensure derivable
  · rw [view_ensureContext live.allocated]
    exact live.scheduled.ensureContext (view_distinct.mpr live.distinct)
  · intro other c member
    rw [stored]
    exact live.retried other c member
  · rw [known]
    exact Set.subset_insert _ _
  · rw [known]
    exact Set.mem_insert _ _

/-- Creating contexts whose initialization is derivable keeps the engine alive. -/
theorem RecoveringEngine.Live.ensureAll (roots : List ExpressionId)
    (live : engine.Live compiled properties start flight)
    (derivable : ∀ root ∈ roots, (inferenceRules compiled properties).Derives start (.contextInitialization root)) :
    (engine.ensureAll roots).Live compiled properties start flight ∧
      Extends engine.stores (engine.ensureAll roots).stores ∧
      ∀ root ∈ roots, .contextInitialization root ∈ knownConclusions (engine.ensureAll roots).stores := by
  induction roots generalizing engine with
  | nil => exact ⟨live, .refl, fun _ member => absurd member List.not_mem_nil⟩
  | cons first rest ih =>
    obtain ⟨ensured, grown, seeded⟩ := live.ensureContext (derivable first List.mem_cons_self)
    obtain ⟨after, last, known⟩ := ih ensured fun root member => derivable root (List.mem_cons_of_mem _ member)
    refine ⟨after, grown.trans last, ?_⟩
    intro root member
    rcases List.mem_cons.mp member with rfl | member
    · exact last.known seeded
    · exact known root member

/-- Delivery of a derivable conclusion to its context. -/
theorem RecoveringEngine.Live.enqueue (live : engine.Live compiled properties start flight) {c : Conclusion}
    (derivable : (inferenceRules compiled properties).Derives start c) :
    RecoveringEngine.Live compiled properties start flight ⟨engine.enqueue c, engine.retry⟩ := by
  have stored : storedConclusions (engine.enqueue c).stores = storedConclusions engine.stores := by
    rw [SaturationEngine.stores_enqueue, routeStore_stored]
  have distinct : (engine.view.ensureContext c.destination).Distinct :=
    (view_distinct.mpr live.distinct).ensureContext
  refine ⟨SaturationEngine.ensureContext_fields.1.trans live.dispatcher, ?_, ?_,
    live.settled.ensureContext.enqueueExisting, ?_⟩
  · show Growing _ _ _ (storedConclusions (engine.enqueue c).stores \ engine.outstanding flight) _
    rw [stored, SaturationEngine.stores_enqueue]
    exact live.growing.route derivable
  · rw [view_enqueue live.allocated]
    exact (live.scheduled.ensureContext (view_distinct.mpr live.distinct)).enqueueExisting distinct
  · intro other c member
    rw [stored]
    exact live.retried other c member

/-- Enqueueing derivable products keeps the engine alive. -/
theorem RecoveringEngine.Live.enqueueAll (products : List Conclusion)
    (live : engine.Live compiled properties start flight)
    (derivable : ∀ c ∈ products, (inferenceRules compiled properties).Derives start c) :
    (engine.enqueueAll products).Live compiled properties start flight := by
  induction products generalizing engine with
  | nil => exact live
  | cons product rest ih =>
    exact ih (live.enqueue (derivable product List.mem_cons_self)) fun c member =>
      derivable c (List.mem_cons_of_mem _ member)

/-- What the delivery of products changes. -/
theorem RecoveringEngine.Live.delivered (products : List Conclusion)
    (live : engine.Live compiled properties start flight)
    (derivable : ∀ c ∈ products, (inferenceRules compiled properties).Derives start c) :
    Extends engine.stores (engine.enqueueAll products).stores ∧
      storedConclusions (engine.enqueueAll products).stores = storedConclusions engine.stores ∧
      ∀ c ∈ products, c ∈ knownConclusions (engine.enqueueAll products).stores := by
  have stores : (engine.enqueueAll products).stores = products.foldl routeStore engine.stores :=
    SaturationEngine.stores_enqueueAll
  rw [stores]
  obtain ⟨_, stored, grown, known⟩ := live.growing.publish products derivable
  exact ⟨⟨stored.ge, grown⟩, stored, known⟩

/-- A context has local work when its agenda, behind its retries, is not empty. -/
theorem RecoveringEngine.hasLocalWork_iff (distinct : engine.Distinct) {state : ContextState}
    (member : state ∈ engine.contexts) :
    engine.hasLocalWork state.root = true ↔ (state.behind (engine.retry state.root)).todo ≠ [] := by
  rw [hasLocalWork, SaturationEngine.hasLocalWork, distinct.contextState member]
  simp [ContextState.behind]
  tauto

/-- Claiming the first active context keeps the engine alive. -/
theorem RecoveringEngine.Live.claim {rest : List ExpressionId} (live : engine.Live compiled properties start flight)
    (active : engine.active = root :: rest) (unclaimed : engine.claimedRoot = none) :
    (engine.claim root rest).Live compiled properties start flight ∧ (engine.claim root rest).stores = engine.stores ∧
      (engine.claim root rest).hasLocalWork root = true := by
  have stores : (engine.claim root rest).stores = engine.stores := SaturationEngine.modify_stores fun _ => rfl
  have view : (engine.claim root rest).view = engine.view.claim root rest := by
    have contexts : (engine.claim root rest).view.contexts = (engine.view.claim root rest).contexts :=
      view_modify rfl (fun _ _ _ => rfl) fun _ _ => rfl
    rw [SaturationEngine.mk.injEq]
    exact ⟨rfl, contexts, rfl, rfl⟩
  have after : (engine.claim root rest).Live compiled properties start flight := by
    refine ⟨live.dispatcher, ?_, ?_, live.settled.claim unclaimed, ?_⟩
    · rw [stores]
      exact live.growing
    · rw [view]
      exact live.scheduled.claim active unclaimed
    · rw [stores]
      exact live.retried
  refine ⟨after, stores, ?_⟩
  have listed : root ∈ engine.view.active := by
    show root ∈ engine.active
    rw [active]
    exact List.mem_cons_self
  obtain ⟨shown, found, same, queued⟩ := (live.scheduled.active_iff root).mp listed
  have work := live.scheduled.queuedWork shown found queued
  obtain ⟨old, member, rfl⟩ := mem_view.mp found
  have here : old.root = root := same
  subst here
  have claimed : { old with queued := false, saturated := false } ∈ (engine.claim old.root rest).contexts :=
    SaturationEngine.mem_modify.mpr (Or.inl ⟨old, member, rfl, rfl⟩)
  exact (hasLocalWork_iff after.distinct claimed).mpr work

/-- Changes of the claimed context that keep its flags keep the schedule. -/
theorem RecoveringEngine.Live.reshape {next : RecoveringEngine} (update : ContextState → ContextState)
    (live : engine.Live compiled properties start flight) (claimed : engine.claimedRoot = some root)
    (keepsRoot : ∀ state, (update state).root = state.root)
    (keepsFlag : ∀ state, (update state).queued = state.queued)
    (contexts : next.contexts = (engine.modify root update).contexts) (active : next.active = engine.active)
    (held : next.claimedRoot = engine.claimedRoot)
    (kept : ∀ other, other ≠ root → next.retry other = engine.retry other) :
    next.view.Scheduled := by
  refine live.scheduled.reshape claimed active held ?_ ?_
  · intro shown member
    obtain ⟨state, found, rfl⟩ := mem_view.mp member
    rw [contexts] at found
    rcases SaturationEngine.mem_modify.mp found with ⟨old, before, same, rfl⟩ | ⟨before, elsewhere⟩
    · exact ⟨_, mem_view.mpr ⟨old, before, rfl⟩, (keepsRoot old).symm, (keepsFlag old).symm,
        fun other => absurd ((keepsRoot old).trans same) other⟩
    · refine ⟨_, mem_view.mpr ⟨state, before, rfl⟩, rfl, rfl, fun _ => ?_⟩
      simp only [ContextState.behind, kept state.root elsewhere]
  · intro shown member
    obtain ⟨old, found, rfl⟩ := mem_view.mp member
    by_cases same : old.root = root
    · have moved : update old ∈ next.contexts := by
        rw [contexts]
        exact SaturationEngine.mem_modify.mpr (Or.inl ⟨old, found, same, rfl⟩)
      exact ⟨_, mem_view.mpr ⟨_, moved, rfl⟩, keepsRoot old, keepsFlag old⟩
    · have stays : old ∈ next.contexts := by
        rw [contexts]
        exact SaturationEngine.mem_modify.mpr (Or.inr ⟨found, same⟩)
      exact ⟨_, mem_view.mpr ⟨_, stays, rfl⟩, rfl, rfl⟩

/-- The two ways of taking a premise: one that is stored already is retried, or the
first of the agenda is stored. -/
inductive RecoveringEngine.Taken (engine : RecoveringEngine) (root : ExpressionId) (premise : Conclusion) :
    Bool → RecoveringEngine → Prop
  | retried {rest : List Conclusion} (retries : engine.retry root = premise :: rest) :
      Taken engine root premise false ⟨engine.toSaturationEngine, Function.update engine.retry root rest⟩
  | inserted {state : ContextState} (quiet : engine.retry root = []) (member : state ∈ engine.contexts)
      (same : state.root = root) (pending : premise ∈ state.todo) :
      Taken engine root premise true ⟨engine.modify root fun state => state.accept premise, engine.retry⟩

/-- A context with work hands out a premise. -/
theorem RecoveringEngine.Live.nextPremise (live : engine.Live compiled properties start ∅)
    (work : engine.hasLocalWork root = true) :
    ∃ premise inserted next, engine.nextPremise root = some (premise, inserted, next) ∧
      engine.Taken root premise inserted next := by
  rw [hasLocalWork, Bool.or_eq_true] at work
  rw [RecoveringEngine.nextPremise]
  cases retries : engine.retry root with
  | cons premise rest => exact ⟨premise, false, _, rfl, .retried retries⟩
  | nil =>
    rw [retries, SaturationEngine.hasLocalWork] at work
    cases found : engine.contextState root with
    | none => simp [found] at work
    | some state =>
      obtain ⟨member, same⟩ := SaturationEngine.mem_of_contextState found
      cases agenda : state.todo with
      | nil => simp [found, agenda] at work
      | cons premise rest =>
        have pending : premise ∈ state.todo := by
          rw [agenda]
          exact List.mem_cons_self
        have coherent := live.growing.coherent state.toContextStore (List.mem_map.mpr ⟨state, member, rfl⟩)
        have novel : decide (premise ∉ state.conclusions) = true := decide_eq_true (coherent.fresh premise pending)
        exact ⟨premise, true, _, by simp only [agenda, novel], .inserted retries member same pending⟩

/-- The premise that is taken is the one in flight. -/
theorem RecoveringEngine.Live.take {inserted : Bool} {next : RecoveringEngine}
    (live : engine.Live compiled properties start ∅) (claimed : engine.claimedRoot = some root)
    (taken : engine.Taken root premise inserted next) :
    next.Live compiled properties start {premise} ∧ next.claimedRoot = some root ∧ premise.destination = root ∧
      premise ∈ storedConclusions next.stores ∧ Extends engine.stores next.stores := by
  cases taken with
  | retried retries =>
    rename_i rest
    have listed : premise ∈ engine.retry root := by
      rw [retries]
      exact List.mem_cons_self
    have fewer : ∀ other, ∀ c ∈ Function.update engine.retry root rest other, c ∈ engine.retry other := by
      intro other c member
      by_cases same : other = root
      · subst same
        rw [Function.update_self] at member
        rw [retries]
        exact List.mem_cons_of_mem _ member
      · rwa [Function.update_of_ne same] at member
    obtain ⟨owned, stored⟩ := live.retried root premise listed
    refine ⟨⟨live.dispatcher, live.growing.shrink ?_, ?_, live.settled, fun other c member => ?_⟩, claimed,
      owned, stored,
      .refl⟩
    · refine Set.sdiff_subset_sdiff_right ?_
      rintro c (empty | ⟨other, member⟩)
      · exact absurd empty (Set.notMem_empty c)
      · by_cases same : other = root
        · subst same
          rw [retries] at member
          rcases List.mem_cons.mp member with rfl | member
          · exact Or.inl rfl
          · refine Or.inr ⟨other, ?_⟩
            show c ∈ Function.update engine.retry other rest other
            rwa [Function.update_self]
        · refine Or.inr ⟨other, ?_⟩
          show c ∈ Function.update engine.retry root rest other
          rwa [Function.update_of_ne same]
    · refine live.reshape id claimed (fun _ => rfl) (fun _ => rfl) ?_ rfl rfl fun other different => ?_
      · simp [SaturationEngine.modify]
      · exact Function.update_of_ne different _ _
    · exact live.retried other c (fewer other c member)
  | inserted quiet member same pending =>
    rename_i state
    subst same
    have allocated : state.toContextStore ∈ engine.stores := List.mem_map.mpr ⟨state, member, rfl⟩
    have coherent := live.growing.coherent state.toContextStore allocated
    have stores : (engine.modify state.root fun state => state.accept premise).stores =
        updateStore engine.stores state.root fun state => state.accept premise :=
      SaturationEngine.stores_modify fun _ => rfl
    obtain ⟨known, stored⟩ := updateStore_known_accept live.growing.distinct live.growing.coherent allocated pending
    have grown : Extends engine.stores (engine.modify state.root fun state => state.accept premise).stores := by
      rw [stores]
      refine ⟨?_, known.ge⟩
      rw [stored]
      exact Set.subset_insert _ _
    refine ⟨⟨live.dispatcher, ?_, ?_, ?_, ?_⟩, claimed, coherent.agendaOwned premise pending, ?_, grown⟩
    · show Growing _ _ _ (storedConclusions (engine.modify state.root fun state => state.accept premise).stores \ _)
        (engine.modify state.root fun state => state.accept premise).stores
      rw [stores]
      refine (live.growing.accept allocated pending).shrink ?_
      rw [stored]
      rintro c ⟨rfl | before, done⟩
      · exact absurd (Or.inl rfl) done
      · refine ⟨before, ?_⟩
        rintro (empty | retried)
        · exact Set.notMem_empty c empty
        · exact done (Or.inr retried)
    · exact live.reshape (fun state => state.accept premise) claimed (fun _ => ContextStore.accept_root)
        (fun _ => rfl) rfl
        rfl rfl fun _ _ => rfl
    · refine live.settled.modify ?_ fun _ _ _ settled => settled
      intro old found _
      have before := live.settled old found
      rw [ContextState.Settled] at before ⊢
      have root : (old.accept premise).root = old.root := ContextStore.accept_root
      rw [root]
      exact before
    · intro other c listed
      obtain ⟨owned, before⟩ := live.retried other c listed
      exact ⟨owned, grown.stored before⟩
    · show premise ∈ storedConclusions (engine.modify state.root fun state => state.accept premise).stores
      rw [stores, stored]
      exact Set.mem_insert _ _

/-- What the dispatch of a taken premise produces is derivable. -/
theorem RecoveringEngine.Live.dispatch_derives {state : ContextState}
    (live : engine.Live compiled properties start flight)
    (member : state ∈ engine.contexts) (owned : premise.destination = state.root)
    (stored : premise ∈ storedConclusions engine.stores) :
    ∀ c ∈ engine.dispatcher.products state.toContext premise,
      (inferenceRules compiled properties).Derives start c := by
  have allocated : state.toContextStore ∈ engine.stores := List.mem_map.mpr ⟨state, member, rfl⟩
  have here := live.growing.owner allocated owned stored
  intro c product
  rw [live.dispatcher] at product
  exact live.growing.dispatch_derives allocated here product

/-- A dispatch whose products are all published has processed its premise. -/
theorem RecoveringEngine.Live.deliver {state : ContextState} (live : engine.Live compiled properties start {premise})
    (member : state ∈ engine.contexts) (owned : premise.destination = state.root)
    (stored : premise ∈ storedConclusions engine.stores) :
    (engine.enqueueAll (engine.dispatcher.products state.toContext premise)).Live compiled properties start ∅ := by
  have allocated : state.toContextStore ∈ engine.stores := List.mem_map.mpr ⟨state, member, rfl⟩
  have derives := live.dispatch_derives member owned stored
  have after := live.enqueueAll _ derives
  obtain ⟨_, kept, _⟩ := live.delivered _ derives
  refine ⟨after.dispatcher, ?_, after.scheduled, after.settled, after.retried⟩
  rw [kept]
  have stores : (engine.enqueueAll (engine.dispatcher.products state.toContext premise)).stores =
      (engine.dispatcher.products state.toContext premise).foldl routeStore engine.stores :=
    SaturationEngine.stores_enqueueAll
  rw [stores]
  have processed : storedConclusions engine.stores \ engine.outstanding {premise} ⊆ storedConclusions engine.stores :=
    Set.sdiff_subset
  refine (live.growing.dispatch allocated (live.growing.owner allocated owned stored) processed fun c => ?_).shrink ?_
  · rw [live.dispatcher]
  · rintro c ⟨before, done⟩
    by_cases same : c = premise
    · exact Or.inl same
    · refine Or.inr ⟨before, ?_⟩
      rintro (here | retried)
      · exact same here
      · exact done (Or.inr retried)

/-- A premise whose dispatch failed is kept for a retry. -/
theorem RecoveringEngine.Live.defer (live : engine.Live compiled properties start {premise})
    (claimed : engine.claimedRoot = some root) (owned : premise.destination = root)
    (stored : premise ∈ storedConclusions engine.stores) :
    (engine.defer root premise).Live compiled properties start ∅ ∧
    (engine.defer root premise).hasLocalWork root = true := by
  have here : Function.update engine.retry root (premise :: engine.retry root) root = premise :: engine.retry root :=
    Function.update_self _ _ _
  refine ⟨⟨live.dispatcher, live.growing.shrink ?_, ?_, live.settled, ?_⟩, ?_⟩
  · refine Set.sdiff_subset_sdiff_right ?_
    rintro c (taken | ⟨other, member⟩)
    · obtain rfl : c = premise := taken
      refine Or.inr ⟨root, ?_⟩
      show c ∈ Function.update engine.retry root (c :: engine.retry root) root
      rw [here]
      exact List.mem_cons_self
    · by_cases same : other = root
      · subst same
        refine Or.inr ⟨other, ?_⟩
        show c ∈ Function.update engine.retry other (premise :: engine.retry other) other
        rw [here]
        exact List.mem_cons_of_mem _ member
      · refine Or.inr ⟨other, ?_⟩
        show c ∈ Function.update engine.retry root (premise :: engine.retry root) other
        rwa [Function.update_of_ne same]
  · refine live.reshape id claimed (fun _ => rfl) (fun _ => rfl) ?_ rfl rfl fun other different => ?_
    · simp [SaturationEngine.modify, RecoveringEngine.defer]
    · exact Function.update_of_ne different _ _
  · intro other c member
    by_cases same : other = root
    · subst same
      have listed : c ∈ premise :: engine.retry other := here ▸ member
      rcases List.mem_cons.mp listed with rfl | listed
      · exact ⟨owned, stored⟩
      · exact live.retried other c listed
    · refine live.retried other c ?_
      have listed : c ∈ Function.update engine.retry root (premise :: engine.retry root) other := member
      rwa [Function.update_of_ne same] at listed
  · have work : (Function.update engine.retry root (premise :: engine.retry root) root).isEmpty = false := by
      rw [here]
      rfl
    rw [hasLocalWork, Bool.or_eq_true]
    exact Or.inl (congrArg Bool.not work)

/-- Without local work the agenda and the retries of a context are empty. -/
theorem RecoveringEngine.Live.unfinished (live : engine.Live compiled properties start flight)
    (idle : engine.hasLocalWork root = false) :
    ∀ shown ∈ engine.view.contexts, shown.root = root → shown.todo = [] := by
  intro shown member same
  obtain ⟨state, found, rfl⟩ := mem_view.mp member
  have here : state.root = root := same
  subst here
  by_contra work
  have busy := (hasLocalWork_iff live.distinct found).mpr work
  exact Bool.false_ne_true (idle.symm.trans busy)

theorem RecoveringEngine.Live.unqueued (live : engine.Live compiled properties start flight)
    (claimed : engine.claimedRoot = some root) :
    ∀ state ∈ engine.contexts, state.root = root → state.queued = false := by
  intro state member same
  have shown : state.behind (engine.retry state.root) ∈ engine.view.contexts := mem_view.mpr ⟨state, member, rfl⟩
  have held : engine.view.claimedRoot = some state.root := by
    rw [same]
    exact claimed
  have idle := live.scheduled.claimedIdle _ shown held
  exact idle

/-- Releasing a context without work keeps the engine alive. -/
theorem RecoveringEngine.Live.release (live : engine.Live compiled properties start flight)
    (claimed : engine.claimedRoot = some root) (idle : engine.hasLocalWork root = false) :
    (engine.release root).Live compiled properties start flight ∧ (engine.release root).stores = engine.stores := by
  have stores : (engine.release root).stores = engine.stores := SaturationEngine.modify_stores fun _ => rfl
  have view : (engine.release root).view = engine.view.release root := by
    have contexts : (engine.release root).view.contexts = (engine.view.release root).contexts :=
      view_modify rfl (fun _ _ _ => rfl) fun _ _ => rfl
    rw [SaturationEngine.mk.injEq]
    exact ⟨rfl, contexts, rfl, rfl⟩
  refine ⟨⟨live.dispatcher, ?_, ?_, live.settled.release claimed (live.unqueued claimed), ?_⟩, stores⟩
  · rw [stores]
    exact live.growing
  · rw [view]
    exact live.scheduled.release claimed (live.unfinished idle)
  · rw [stores]
    exact live.retried

/-- The claimed context of a run that stops goes back to the queue. -/
theorem RecoveringEngine.Live.requeue (live : engine.Live compiled properties start flight)
    (claimed : engine.claimedRoot = some root) (work : engine.hasLocalWork root = true)
    (present : engine.contextState root ≠ none) :
    (engine.requeue root).Live compiled properties start flight ∧ (engine.requeue root).stores = engine.stores ∧
      (engine.requeue root).claimedRoot = none := by
  obtain ⟨state, found⟩ := Option.ne_none_iff_exists'.mp present
  obtain ⟨member, same⟩ := SaturationEngine.mem_of_contextState found
  have unqueued := live.unqueued claimed
  have condition : (RecoveringEngine.hasLocalWork { engine with claimedRoot := none } root &&
      (SaturationEngine.contextState { engine.toSaturationEngine with claimedRoot := none } root).any
        fun state => !state.queued) = true := by
    have sameWork : RecoveringEngine.hasLocalWork { engine with claimedRoot := none } root = true := work
    have sameState :
      SaturationEngine.contextState { engine.toSaturationEngine with claimedRoot := none } root = some state :=
      found
    rw [sameWork, sameState]
    simp [unqueued state member same]
  have unfolded : engine.requeue root =
      ⟨{ engine.modify root (fun state => { state with queued := true, saturated := false }) with
          active := root :: engine.active, claimedRoot := none }, engine.retry⟩ := if_pos condition
  have stores : (engine.modify root fun state => { state with queued := true, saturated := false }).stores =
    engine.stores :=
    SaturationEngine.modify_stores fun _ => rfl
  rw [unfolded]
  refine ⟨⟨live.dispatcher, ?_, ?_, ?_, ?_⟩, stores, rfl⟩
  · show Growing _ _ _ (storedConclusions (engine.modify root _).stores \ engine.outstanding flight)
      (engine.modify root _).stores
    rw [stores]
    exact live.growing
  · refine live.scheduled.requeue claimed rfl rfl ?_ ?_ ?_
    · exact view_modify rfl (fun _ _ _ => rfl) fun _ _ => rfl
    · exact ⟨_, mem_view.mpr ⟨state, member, rfl⟩, same⟩
    · intro shown listed here
      obtain ⟨old, before, rfl⟩ := mem_view.mp listed
      have there : old.root = root := here
      subst there
      exact (hasLocalWork_iff live.distinct before).mp work
  · refine live.settled.modify ?_ ?_
    · intro old _ _
      show false = true ↔ true = false ∧ _
      simp
    · intro old _ elsewhere before
      rw [claimed] at before
      show _ ↔ _ ∧ none ≠ some old.root
      simpa [ContextState.Settled, elsewhere.symm] using before
  · show ∀ other, ∀ c ∈ engine.retry other, _ ∧ c ∈ storedConclusions (engine.modify root _).stores
    rw [stores]
    exact live.retried

end

end PyElk
