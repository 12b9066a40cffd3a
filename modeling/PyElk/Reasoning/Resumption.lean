import PyElk.Reasoning.RecoveryInvariant

open Ordered

namespace PyElk

/-- The invariant of every move of a run. -/
structure RunState.Live (compiled : Tables) (properties : PropertySaturation) (start : Set Conclusion)
    (state : RunState) : Prop where
  engine : state.engine.Live compiled properties start state.control.flight
  claimed : state.engine.claimedRoot = state.control.root
  working : ∀ root, state.control = .working root → state.engine.hasLocalWork root = true
  taken : ∀ root premise, state.control = .dispatching root premise →
    premise.destination = root ∧ premise ∈ storedConclusions state.engine.stores
  finished : state.outcome = some .completed → state.control = .idle ∧ state.engine.active = []

section

variable {compiled : Tables} {properties : PropertySaturation} {start more flight : Set Conclusion}
  {engine : RecoveringEngine} {state : RunState} {root : ExpressionId}

theorem RecoveringEngine.Live.present (live : engine.Live compiled properties start flight)
    (work : engine.hasLocalWork root = true) : engine.contextState root ≠ none := by
  intro absent
  rw [hasLocalWork, SaturationEngine.hasLocalWork, absent, Bool.or_false] at work
  have retries : engine.retry root ≠ [] := by
    intro quiet
    simp [quiet] at work
  have found := SaturationEngine.contextState_isSome.mpr (live.allocated root retries)
  rw [absent] at found
  exact Bool.false_ne_true found

/-- The end of an agenda item, when the claim may end. -/
theorem RunState.settle_live (live : state.engine.Live compiled properties start ∅)
    (claimed : state.engine.claimedRoot = some root) (running : state.outcome ≠ some .completed) :
    (state.settle root).Live compiled properties start ∧ (state.settle root).engine.stores = state.engine.stores := by
  rw [settle]
  cases work : state.engine.hasLocalWork root with
  | true =>
    rw [if_pos rfl]
    refine ⟨⟨live, claimed, ?_, ?_, fun done => absurd done running⟩, rfl⟩
    · intro other same
      rw [← Control.working.inj same]
      exact work
    · intro _ _ same
      cases same
  | false =>
    rw [if_neg Bool.false_ne_true]
    obtain ⟨released, stores⟩ := live.release claimed work
    refine ⟨⟨released, rfl, ?_, ?_, fun done => absurd done running⟩, stores⟩
    · intro _ same
      cases same
    · intro _ _ same
      cases same

theorem RunState.stop_live {outcome : RunOutcome} (live : state.engine.Live compiled properties start ∅)
    (claimed : state.engine.claimedRoot = some root) (work : state.engine.hasLocalWork root = true)
    (incomplete : outcome ≠ .completed) :
    (state.stop root outcome).Live compiled properties start ∧
    (state.stop root outcome).engine.stores = state.engine.stores := by
  obtain ⟨requeued, stores, released⟩ := live.requeue claimed work (live.present work)
  refine ⟨⟨requeued, released, ?_, ?_, fun done => absurd (Option.some.inj done) incomplete⟩, stores⟩
  · intro _ same
    cases same
  · intro _ _ same
    cases same

/-- The step lemma: one move, whatever the surroundings do. -/
theorem RunState.Live.tick (signal : Signal) (live : state.Live compiled properties start) :
    (state.tick signal).Live compiled properties start ∧ Extends state.engine.stores
    (state.tick signal).engine.stores := by
  have engine := live.engine
  have claimed := live.claimed
  have running : state.control ≠ .idle → state.outcome ≠ some .completed :=
    fun busy done => busy (live.finished done).1
  cases control : state.control with
  | idle =>
    simp only [RunState.tick, control]
    exact ⟨live, .refl⟩
  | loop =>
    rw [control] at engine claimed running
    simp only [RunState.tick, control]
    cases active : state.engine.active with
    | nil =>
      refine ⟨⟨engine, claimed, ?_, ?_, fun _ => ⟨rfl, active⟩⟩, .refl⟩
      · intro _ same
        cases same
      · intro _ _ same
        cases same
    | cons root rest =>
      obtain ⟨after, stores, _⟩ := engine.claim active claimed
      obtain ⟨settled, same⟩ := @RunState.settle_live compiled properties start
        { state with engine := state.engine.claim root rest } root after rfl (running (by simp))
      have grown : Extends state.engine.stores
          (RunState.settle { state with engine := state.engine.claim root rest } root).engine.stores := by
        rw [same]
        exact stores ▸ .refl
      exact ⟨settled, grown⟩
  | working root =>
    rw [control] at engine claimed running
    have work := live.working root control
    simp only [RunState.tick, control]
    split
    · obtain ⟨stopped, stores⟩ :=
        @RunState.stop_live compiled properties start state root .budgetExceeded engine claimed
        work (by simp)
      exact ⟨stopped, stores ▸ .refl⟩
    split
    · obtain ⟨stopped, stores⟩ := @RunState.stop_live compiled properties start state root .interrupted engine claimed
        work (by simp)
      exact ⟨stopped, stores ▸ .refl⟩
    obtain ⟨premise, inserted, next, found, taken⟩ := engine.nextPremise work
    obtain ⟨after, held, owned, stored, grown⟩ := engine.take claimed taken
    rw [found]
    refine ⟨⟨after, held, ?_, ?_, fun done => absurd done (running (by simp))⟩, grown⟩
    · intro _ same
      cases same
    · intro _ _ same
      cases same
      exact ⟨owned, stored⟩
  | dispatching root premise =>
    rw [control] at engine claimed running
    obtain ⟨owned, stored⟩ := live.taken root premise control
    simp only [RunState.tick, control]
    cases found : state.engine.contextState root with
    | none => exact ⟨live, .refl⟩
    | some context =>
      obtain ⟨member, same⟩ := SaturationEngine.mem_of_contextState found
      have here : premise.destination = context.root := owned.trans same.symm
      have derives := engine.dispatch_derives member here stored
      have deliver := engine.deliver member here stored
      obtain ⟨grown, _⟩ := engine.delivered _ derives
      have held : ∀ products, (state.engine.enqueueAll products).claimedRoot = some root :=
        fun products => SaturationEngine.enqueueAll_fields.2.trans claimed
      have settled := @RunState.settle_live compiled properties start { state with
        engine := state.engine.enqueueAll (state.engine.dispatcher.products context.toContext premise) } root deliver
        (held _) (running (by simp))
      cases signal with
      | proceed => exact ⟨settled.1, settled.2 ▸ grown⟩
      | interrupt => exact ⟨settled.1, settled.2 ▸ grown⟩
      | fail published =>
        have some_derive : ∀ c ∈ (state.engine.dispatcher.products context.toContext premise).take published,
            (inferenceRules compiled properties).Derives start c :=
            fun c listed => derives c (List.mem_of_mem_take listed)
        have partially := engine.enqueueAll _ some_derive
        obtain ⟨reached, kept, _⟩ := engine.delivered _ some_derive
        obtain ⟨deferred, work⟩ := partially.defer (held _) owned (kept ▸ stored)
        obtain ⟨stopped, stores⟩ := @RunState.stop_live compiled properties start { state with
          engine := (state.engine.enqueueAll ((state.engine.dispatcher.products context.toContext premise).take
            published)).defer root premise } root .failed deferred (held _) work (by simp)
        exact ⟨stopped, stores ▸ reached⟩

/-- A request between two runs. -/
theorem RunState.Live.handle {request : Request} (live : state.Live compiled properties start)
    (idle : state.control = .idle) (derivable : (inferenceRules compiled properties).Derives start request.fact) :
    (state.handle request).Live compiled properties start ∧
      Extends state.engine.stores (state.handle request).engine.stores ∧
      request.fact ∈ knownConclusions (state.handle request).engine.stores := by
  have engine := live.engine
  have claimed := live.claimed
  rw [idle] at engine claimed
  have between : ∀ next : RecoveringEngine, next.Live compiled properties start ∅ → next.claimedRoot = none →
      RunState.Live compiled properties start { state with engine := next, outcome := none } := by
    intro next after released
    refine ⟨by rw [idle]; exact after, by rw [idle]; exact released, ?_, ?_, fun done => by cases done⟩
    · intro _ same
      cases idle.symm.trans same
    · intro _ _ same
      cases idle.symm.trans same
  cases request with
  | demand root =>
    obtain ⟨after, grown, known⟩ := engine.ensureAll [root] fun other member => by
      rw [List.mem_singleton.mp member]
      exact derivable
    exact ⟨between _ after (SaturationEngine.ensureContext_fields.2.trans claimed), grown,
      known root List.mem_cons_self⟩
  | enqueue conclusion =>
    have derives : ∀ c ∈ [conclusion], (inferenceRules compiled properties).Derives start c := by
      intro c member
      rw [List.mem_singleton.mp member]
      exact derivable
    obtain ⟨grown, _, known⟩ := engine.delivered _ derives
    exact ⟨between _ (engine.enqueueAll _ derives) (SaturationEngine.enqueueAll_fields.2.trans claimed), grown,
      known conclusion List.mem_cons_self⟩

theorem RecoveringEngine.ensureAll_claimedRoot {roots : List ExpressionId} :
    (engine.ensureAll roots).claimedRoot = engine.claimedRoot := by
  induction roots generalizing engine with
  | nil => rfl
  | cons first rest ih =>
    have tail := @ih ⟨engine.ensureContext first, engine.retry⟩
    exact tail.trans SaturationEngine.ensureContext_fields.2

/-- The start of a run. -/
theorem RunState.Live.begin (roots : List ExpressionId) (maxConclusions : Option Nat)
    (live : state.Live compiled properties start) (idle : state.control = .idle)
    (derivable : ∀ root ∈ roots, (inferenceRules compiled properties).Derives start (.contextInitialization root)) :
    (state.begin roots maxConclusions).Live compiled properties start ∧
      Extends state.engine.stores (state.begin roots maxConclusions).engine.stores ∧
      ∀ root ∈ roots, .contextInitialization root ∈ knownConclusions
        (state.begin roots maxConclusions).engine.stores := by
  have engine := live.engine
  have claimed := live.claimed
  rw [idle] at engine claimed
  obtain ⟨after, grown, known⟩ := engine.ensureAll (sortedSet id roots) fun root member =>
    derivable root (mem_sortedSet.mp member)
  refine ⟨⟨after, RecoveringEngine.ensureAll_claimedRoot.trans claimed, ?_, ?_, fun done => by cases done⟩, grown,
    fun root member => known root (mem_sortedSet.mpr member)⟩
  · intro _ same
    cases same
  · intro _ _ same
    cases same

/-- The conclusions that the requests make known. -/
def requestFacts (log : List Request) : Set Conclusion :=
  {c | ∃ request ∈ log, request.fact = c}

theorem requestFacts_append {log more : List Request} : requestFacts log ⊆ requestFacts (log ++ more) := by
  rintro c ⟨request, member, same⟩
  exact ⟨request, List.mem_append_left _ member, same⟩

theorem RunState.Live.mono (live : state.Live compiled properties start) (sub : start ⊆ more) :
    state.Live compiled properties more :=
  ⟨live.engine.mono sub, live.claimed, live.working, live.taken, live.finished⟩

/-- Every move keeps the invariant, loses nothing and makes its requests known. -/
theorem RunState.Live.move {log requests : List Request} {next : RunState}
    (live : state.Live compiled properties (requestFacts log)) (moved : Transition compiled state requests next) :
    next.Live compiled properties (requestFacts (log ++ requests)) ∧ Extends state.engine.stores next.engine.stores ∧
      ∀ request ∈ requests, request.fact ∈ knownConclusions next.engine.stores := by
  have wider : state.Live compiled properties (requestFacts (log ++ requests)) := live.mono requestFacts_append
  have derives : ∀ request ∈ requests,
      (inferenceRules compiled properties).Derives (requestFacts (log ++ requests)) request.fact :=
    fun request member => .start ⟨request, List.mem_append_right _ member, rfl⟩
  cases moved with
  | request request idle _ =>
    obtain ⟨after, grown, known⟩ := wider.handle idle (derives request List.mem_cons_self)
    refine ⟨after, grown, fun other member => ?_⟩
    rw [List.mem_singleton.mp member]
    exact known
  | run roots maxConclusions idle _ =>
    obtain ⟨after, grown, known⟩ := wider.begin roots maxConclusions idle fun root member =>
      derives (.demand root) (List.mem_map_of_mem member)
    refine ⟨after, grown, fun request member => ?_⟩
    obtain ⟨root, listed, rfl⟩ := List.mem_map.mp member
    exact known root listed
  | tick signal =>
    obtain ⟨after, grown⟩ := wider.tick signal
    exact ⟨after, grown, fun _ member => absurd member List.not_mem_nil⟩

theorem RunState.Live.new : (RunState.new compiled properties).Live compiled properties start := by
  refine ⟨.new, rfl, ?_, ?_, fun done => by cases done⟩
  · intro _ same
    cases same
  · intro _ _ same
    cases same

/-- The run lemma: the invariant holds in every state that is reached. -/
theorem Reached.live {log : List Request} (reached : Reached compiled properties log state) :
    state.Live compiled properties (requestFacts log) ∧ requestFacts log ⊆ knownConclusions state.engine.stores := by
  induction reached with
  | new =>
    refine ⟨.new, ?_⟩
    rintro c ⟨request, member, _⟩
    exact absurd member List.not_mem_nil
  | move _ moved ih =>
    obtain ⟨live, requested⟩ := ih
    obtain ⟨after, grown, known⟩ := live.move moved
    refine ⟨after, ?_⟩
    rintro c ⟨request, member, rfl⟩
    rcases List.mem_append.mp member with before | new
    · exact grown.known (requested ⟨request, before, rfl⟩)
    · exact known request new

/-- A run that completes leaves nothing to do in any context. -/
theorem RunState.Live.completed (live : state.Live compiled properties start)
    (done : state.outcome = some .completed) :
    (∀ context ∈ state.engine.contexts, context.todo = [] ∧ context.queued = false ∧ context.saturated = true) ∧
      ∀ root, state.engine.retry root = [] := by
  obtain ⟨idle, active⟩ := live.finished done
  have claimed := live.claimed
  rw [idle] at claimed
  have free : ∀ context ∈ state.engine.contexts, context.queued = false ∧
    (context.behind (state.engine.retry context.root)).todo = [] := by
    intro context member
    have shown : context.behind (state.engine.retry context.root) ∈ state.engine.view.contexts :=
      RecoveringEngine.mem_view.mpr ⟨context, member, rfl⟩
    have unqueued : ¬ context.queued = true := by
      intro queued
      have listed := (live.engine.scheduled.active_iff context.root).mpr ⟨_, shown, rfl, queued⟩
      have empty : state.engine.view.active = [] := active
      rw [empty] at listed
      exact absurd listed List.not_mem_nil
    refine ⟨Bool.eq_false_of_not_eq_true unqueued, ?_⟩
    by_contra work
    rcases live.engine.scheduled.work _ shown work with queued | held
    · exact unqueued queued
    · have unclaimed : state.engine.view.claimedRoot = none := claimed
      rw [unclaimed] at held
      exact absurd held.symm (Option.some_ne_none _)
  constructor
  · intro context member
    obtain ⟨unqueued, empty⟩ := free context member
    refine ⟨(List.append_eq_nil_iff.mp empty).2, unqueued, (live.engine.settled context member).mpr ⟨unqueued, ?_⟩⟩
    rw [claimed]
    exact (Option.some_ne_none _).symm
  · intro root
    by_contra retries
    obtain ⟨context, member, rfl⟩ := live.engine.allocated root retries
    exact retries (List.append_eq_nil_iff.mp (free context member).2).1

/-- A run that completes has stored exactly what the requests derive. -/
theorem RunState.Live.least (live : state.Live compiled properties start)
    (requested : start ⊆ knownConclusions state.engine.stores) (done : state.outcome = some .completed)
    (c : Conclusion) :
    c ∈ storedConclusions state.engine.stores ↔ (inferenceRules compiled properties).Derives start c := by
  obtain ⟨empty, quiet⟩ := live.completed done
  obtain ⟨idle, _⟩ := live.finished done
  have growing := live.engine.growing
  have nothing : state.engine.outstanding state.control.flight = ∅ := by
    rw [idle]
    refine Set.eq_empty_of_forall_notMem ?_
    rintro c (taken | ⟨root, member⟩)
    · exact taken
    · rw [quiet root] at member
      exact absurd member List.not_mem_nil
  rw [nothing, Set.sdiff_empty] at growing
  refine growing.progress.finish requested ?_ c
  rintro c ⟨store, member, stored | pending⟩
  · exact ⟨store, member, stored⟩
  · obtain ⟨context, found, rfl⟩ := List.mem_map.mp member
    have agenda := (empty context found).1
    rw [agenda] at pending
    exact absurd pending List.not_mem_nil

/-- Two contexts that are done and hold the same conclusions freeze to the same view. -/
theorem ContextState.freeze_congr {left right : ContextState} (coherentLeft : left.toContextStore.Coherent)
    (coherentRight : right.toContextStore.Coherent) (root : left.root = right.root)
    (same : ∀ c, c ∈ left.conclusions ↔ c ∈ right.conclusions) (todo : left.todo = right.todo)
    (queued : left.queued = right.queued) (saturated : left.saturated = right.saturated) :
    left.freeze = right.freeze := by
  have context : left.toContext.freeze = right.toContext.freeze := by
    refine Context.freeze_congr root fun c owned => ?_
    exact (coherentLeft.mirrored c owned).trans ((same c).trans (coherentRight.mirrored c (owned.trans root)).symm)
  have sorted : ∀ {conclusions : List Conclusion}, conclusions.Nodup →
      (sortedBy Conclusion.key conclusions).Pairwise fun a b => a.key < b.key := by
    intro conclusions distinct
    exact ((sortedBy_pairwise Conclusion.key conclusions).and (sortedBy_nodup distinct)).imp fun ⟨le, ne⟩ =>
      lt_of_le_of_ne le fun equal => ne (Conclusion.key_injective equal)
  have conclusions : sortedBy Conclusion.key left.conclusions = sortedBy Conclusion.key right.conclusions := by
    refine eq_of_strict (sorted coherentLeft.distinct) (sorted coherentRight.distinct) fun c => ?_
    rw [mem_sortedBy, mem_sortedBy]
    exact same c
  rw [ContextState.freeze, ContextState.freeze, context, conclusions, todo, queued, saturated]

/-- The snapshot of a completed run only depends on what was requested. -/
theorem RunState.Live.snapshot_eq {other : RunState} (live : state.Live compiled properties start)
    (requested : start ⊆ knownConclusions state.engine.stores) (done : state.outcome = some .completed)
    (liveOther : other.Live compiled properties start) (requestedOther : start ⊆ knownConclusions other.engine.stores)
    (doneOther : other.outcome = some .completed) : state.engine.snapshot = other.engine.snapshot := by
  have least := live.least requested done
  have leastOther := liveOther.least requestedOther doneOther
  have distinct : ∀ {state : RunState}, state.Live compiled properties start →
      (state.engine.contexts.map fun context => context.root).Nodup := by
    intro state live
    have distinct := live.engine.distinct
    rwa [SaturationEngine.Distinct, SaturationEngine.stores, List.map_map] at distinct
  -- a root is allocated when its initialisation is derivable
  have allocated : ∀ {state : RunState}, state.Live compiled properties start →
      (∀ c, c ∈ storedConclusions state.engine.stores ↔ (inferenceRules compiled properties).Derives start c) →
      ∀ root, root ∈ (state.engine.contexts.map fun context => context.root) ↔
        (inferenceRules compiled properties).Derives start (.contextInitialization root) := by
    intro state live least root
    constructor
    · intro member
      obtain ⟨context, found, rfl⟩ := List.mem_map.mp member
      have known := live.engine.growing.activated context.toContextStore (List.mem_map.mpr ⟨context, found, rfl⟩)
      exact live.engine.growing.progress.sound _ known
    · intro derivation
      obtain ⟨context, found, same, _⟩ := live.engine.owner ((least _).mpr derivation)
      exact List.mem_map.mpr ⟨context, found, same⟩
  have held : ∀ {state : RunState}, state.Live compiled properties start →
      (∀ c, c ∈ storedConclusions state.engine.stores ↔ (inferenceRules compiled properties).Derives start c) →
      ∀ context ∈ state.engine.contexts, ∀ c, c ∈ context.conclusions ↔
        c.destination = context.root ∧ (inferenceRules compiled properties).Derives start c := by
    intro state live least context member c
    have found : context.toContextStore ∈ state.engine.stores := List.mem_map.mpr ⟨context, member, rfl⟩
    constructor
    · intro stored
      exact ⟨(live.engine.growing.coherent _ found).owned c stored, (least c).mp ⟨_, found, stored⟩⟩
    · rintro ⟨owned, derivation⟩
      exact live.engine.growing.owner found owned ((least c).mpr derivation)
  refine map_sortedBy_congr (distinct live) (distinct liveOther) ?_ ?_
  · intro root
    rw [allocated live least root, allocated liveOther leastOther root]
  · intro left memberLeft right memberRight root
    obtain ⟨todo, queued, saturated⟩ := (live.completed done).1 left memberLeft
    obtain ⟨todoOther, queuedOther, saturatedOther⟩ := (liveOther.completed doneOther).1 right memberRight
    refine ContextState.freeze_congr (live.engine.growing.coherent _ (List.mem_map.mpr ⟨left, memberLeft, rfl⟩))
      (liveOther.engine.growing.coherent _ (List.mem_map.mpr ⟨right, memberRight, rfl⟩)) root ?_
      (todo.trans todoOther.symm) (queued.trans queuedOther.symm) (saturated.trans saturatedOther.symm)
    intro c
    rw [held live least left memberLeft c, held liveOther leastOther right memberRight c, root]

end

/-- The retries of some contexts. -/
def retryCount (roots : List ExpressionId) (retry : ExpressionId → List Conclusion) : Nat :=
  (roots.map fun root => (retry root).length).sum

theorem retryCount_update {roots : List ExpressionId} {retry : ExpressionId → List Conclusion} {root : ExpressionId}
    {premise : Conclusion} {rest : List Conclusion} (distinct : roots.Nodup) (member : root ∈ roots)
    (retries : retry root = premise :: rest) :
    retryCount roots (Function.update retry root rest) + 1 = retryCount roots retry := by
  induction roots with
  | nil => exact absurd member List.not_mem_nil
  | cons first others ih =>
    rw [List.nodup_cons] at distinct
    simp only [retryCount, List.map_cons, List.sum_cons] at ih ⊢
    by_cases same : first = root
    · subst same
      have kept : others.map (fun root => (Function.update retry first rest root).length) =
          others.map fun root => (retry root).length := by
        refine List.map_congr_left fun other listed => ?_
        rw [Function.update_of_ne]
        rintro rfl
        exact distinct.1 listed
      rw [kept, Function.update_self, retries, List.length_cons]
      omega
    · have tail := ih distinct.2 ((List.mem_cons.mp member).resolve_left (Ne.symm same))
      rw [Function.update_of_ne same]
      omega

theorem retryCount_ensure {contexts : List ContextStore} {retry : ExpressionId → List Conclusion}
    {root : ExpressionId}
    (allocated : ∀ root, retry root ≠ [] → ∃ state ∈ contexts, state.root = root) :
    retryCount ((ensureStore contexts root).map (·.root)) retry = retryCount (contexts.map (·.root)) retry := by
  by_cases present : ∃ state ∈ contexts, state.root = root
  · rw [ensureStore_present present]
  · have novel : ∀ state ∈ contexts, state.root ≠ root := fun state member same => present ⟨state, member, same⟩
    have quiet : retry root = [] := by
      by_contra retries
      exact present (allocated root retries)
    rw [ensureStore_novel novel, seed_eq]
    simp [retryCount, quiet]

/-- What is left to do: conclusions to store and premises to retry. -/
noncomputable def RecoveringEngine.effort (bound : Nat) (engine : RecoveringEngine) : Nat :=
  4 * (bound - (storedConclusions engine.stores).ncard) + 4 * retryCount (engine.stores.map (·.root)) engine.retry

/-- The moves between two premises. -/
def Control.phase : Control → Nat
  | idle => 0
  | working _ => 1
  | loop => 2
  | dispatching _ _ => 3

noncomputable def RunState.effort (bound : Nat) (state : RunState) : Nat :=
  state.engine.effort bound + state.control.phase

section

variable {compiled : Tables} {properties : PropertySaturation} {start flight : Set Conclusion}
  {engine next : RecoveringEngine} {state : RunState} {root : ExpressionId} {premise : Conclusion} {bound : Nat}

theorem RecoveringEngine.effort_congr (stores : next.stores = engine.stores) (retry : next.retry = engine.retry) :
    next.effort bound = engine.effort bound := by
  rw [effort, effort, stores, retry]

theorem RecoveringEngine.Live.effort_enqueueAll (products : List Conclusion)
    (live : engine.Live compiled properties start flight)
    (derivable : ∀ c ∈ products, (inferenceRules compiled properties).Derives start c) :
    (engine.enqueueAll products).effort bound = engine.effort bound := by
  induction products generalizing engine with
  | nil => rfl
  | cons product rest ih =>
    have routed := live.enqueue (derivable product List.mem_cons_self)
    have tail := ih routed fun c member => derivable c (List.mem_cons_of_mem _ member)
    refine Eq.trans tail ?_
    have stored : storedConclusions (engine.enqueue product).stores = storedConclusions engine.stores := by
      rw [SaturationEngine.stores_enqueue, routeStore_stored]
    have roots : (engine.enqueue product).stores.map (·.root) =
        (ensureStore engine.stores product.destination).map (·.root) := by
      rw [SaturationEngine.stores_enqueue, routeStore_roots]
    show 4 * (bound - (storedConclusions (engine.enqueue product).stores).ncard) +
      4 * retryCount ((engine.enqueue product).stores.map (·.root)) engine.retry = _
    rw [stored, roots, retryCount_ensure fun root retries => SaturationEngine.mem_stores_root.mpr
      (live.allocated root retries)]
    rfl

/-- Taking a premise stores a new one or uses up a retry. -/
theorem RecoveringEngine.Live.take_effort {inserted : Bool} (live : engine.Live compiled properties start ∅)
    (taken : engine.Taken root premise inserted next) (finite : (storedConclusions next.stores).Finite)
    (room : (storedConclusions next.stores).ncard ≤ bound) : next.effort bound + 4 ≤ engine.effort bound := by
  cases taken with
  | @retried rest retries =>
    have listed : ∃ state ∈ engine.stores, state.root = root := by
      refine SaturationEngine.mem_stores_root.mpr (live.allocated root ?_)
      rw [retries]
      exact List.cons_ne_nil _ _
    have fewer := retryCount_update live.distinct (List.mem_map.mpr listed) retries
    show 4 * (bound - (storedConclusions engine.stores).ncard) +
      4 * retryCount (engine.stores.map (·.root)) (Function.update engine.retry root rest) + 4 ≤ _
    rw [effort]
    omega
  | @inserted state _ member same pending =>
    subst same
    have allocated : state.toContextStore ∈ engine.stores := List.mem_map.mpr ⟨state, member, rfl⟩
    have stores : (engine.modify state.root fun state => state.accept premise).stores =
        updateStore engine.stores state.root fun state => state.accept premise :=
      SaturationEngine.stores_modify fun _ => rfl
    obtain ⟨_, stored⟩ := updateStore_known_accept live.growing.distinct live.growing.coherent allocated pending
    have roots : (updateStore engine.stores state.root fun state => state.accept premise).map (·.root) =
        engine.stores.map (·.root) := updateStore_roots fun _ _ _ => ContextStore.accept_root
    have novel : premise ∉ storedConclusions engine.stores := by
      have coherent := live.growing.coherent _ allocated
      intro before
      exact coherent.fresh premise pending
        (live.growing.owner allocated (coherent.agendaOwned premise pending) before)
    rw [stores, stored] at finite room
    have before : (storedConclusions engine.stores).Finite := finite.subset (Set.subset_insert _ _)
    have count := Set.ncard_insert_of_notMem novel before
    show 4 * (bound - (storedConclusions (engine.modify state.root fun state => state.accept premise).stores).ncard) +
      4 * retryCount ((engine.modify state.root fun state => state.accept premise).stores.map (·.root))
        engine.retry + 4 ≤ _
    rw [stores, stored, roots, effort]
    omega

/-- The end of an agenda item in terms of the effort. -/
theorem RunState.settle_effort (root : ExpressionId) (state : RunState) :
    (state.settle root).maxConclusions = state.maxConclusions ∧ (state.settle root).control ≠ .idle ∧
      (state.settle root).effort bound ≤ state.engine.effort bound + 2 ∧
      (state.engine.hasLocalWork root = true → (state.settle root).effort bound ≤ state.engine.effort bound + 1) := by
  rw [settle]
  cases work : state.engine.hasLocalWork root with
  | true =>
    rw [if_pos rfl]
    exact ⟨rfl, by simp, Nat.le_succ _, fun _ => Nat.le_refl _⟩
  | false =>
    rw [if_neg Bool.false_ne_true]
    refine ⟨rfl, by simp, ?_, fun busy => absurd busy Bool.false_ne_true⟩
    have same : (state.engine.release root).effort bound = state.engine.effort bound :=
      RecoveringEngine.effort_congr (SaturationEngine.modify_stores fun _ => rfl) rfl
    exact Nat.add_le_add_right same.le 2

/-- The progress lemma: a run without limits that nothing interrupts comes nearer to
its end with every move. -/
theorem RunState.Live.proceed (live : state.Live compiled properties start)
    (finite : {c | (inferenceRules compiled properties).Derives start c}.Finite)
    (unlimited : state.maxConclusions = none)
    (running : state.control ≠ .idle) :
    (state.tick .proceed).effort {c | (inferenceRules compiled properties).Derives start c}.ncard <
        state.effort {c | (inferenceRules compiled properties).Derives start c}.ncard ∧
      (state.tick .proceed).maxConclusions = none ∧
      ((state.tick .proceed).control = .idle → (state.tick .proceed).outcome = some .completed) := by
  have engine := live.engine
  have claimed := live.claimed
  obtain ⟨after, _⟩ := live.tick .proceed
  have sub : storedConclusions (state.tick .proceed).engine.stores ⊆
      {c | (inferenceRules compiled properties).Derives start c} := by
    rintro c ⟨store, member, stored⟩
    exact after.engine.growing.progress.sound c ⟨store, member, Or.inl stored⟩
  generalize {c | (inferenceRules compiled properties).Derives start c} = facts at finite sub
  have before : state.effort facts.ncard = state.engine.effort facts.ncard + state.control.phase := rfl
  cases control : state.control with
  | idle => exact absurd control running
  | loop =>
    rw [control] at claimed engine before
    cases active : state.engine.active with
    | nil =>
      have moved : state.tick .proceed = { state with control := .idle, outcome := some .completed } := by
        simp only [RunState.tick, control, active]
      rw [moved]
      refine ⟨?_, unlimited, fun _ => rfl⟩
      rw [before]
      exact Nat.lt_add_of_pos_right (by decide)
    | cons root rest =>
      obtain ⟨_, stores, work⟩ := engine.claim active claimed
      have moved : state.tick .proceed =
          RunState.settle { state with engine := state.engine.claim root rest } root := by
        simp only [RunState.tick, control, active]
      obtain ⟨free, busy, _, less⟩ :=
        @RunState.settle_effort facts.ncard root { state with engine := state.engine.claim root rest }
      rw [moved]
      refine ⟨?_, free.trans unlimited, fun idle => absurd idle busy⟩
      have same : (state.engine.claim root rest).effort facts.ncard = state.engine.effort facts.ncard :=
        RecoveringEngine.effort_congr stores rfl
      have bound := less work
      rw [before]
      exact lt_of_le_of_lt (bound.trans_eq (congrArg (· + 1) same)) (Nat.lt_succ_self _)
  | working root =>
    rw [control] at claimed engine before
    obtain ⟨premise, inserted, next, found, taken⟩ := engine.nextPremise (live.working root control)
    have moved : state.tick .proceed = { state with
        engine := next
        completed := if inserted then state.completed + 1 else state.completed
        control := .dispatching root premise } := by
      simp [RunState.tick, control, unlimited, found]
    rw [moved] at sub ⊢
    have less := engine.take_effort taken (finite.subset sub) (Set.ncard_le_ncard sub finite)
    refine ⟨?_, unlimited, fun same => by cases same⟩
    rw [before]
    show next.effort facts.ncard + 3 < state.engine.effort facts.ncard + 1
    omega
  | dispatching root premise =>
    rw [control] at claimed engine before
    obtain ⟨owned, stored⟩ := live.taken root premise control
    obtain ⟨context, member, same, _⟩ := engine.owner stored
    have here : context.root = root := same.trans owned
    have found : state.engine.contextState root = some context := by
      rw [← here]
      exact engine.distinct.contextState member
    have derives := engine.dispatch_derives member same.symm stored
    have moved : state.tick .proceed = RunState.settle { state with
        engine := state.engine.enqueueAll (state.engine.dispatcher.products context.toContext premise) } root := by
      simp only [RunState.tick, control, found]
    obtain ⟨free, busy, less, _⟩ := @RunState.settle_effort facts.ncard root { state with
      engine := state.engine.enqueueAll (state.engine.dispatcher.products context.toContext premise) }
    rw [moved]
    refine ⟨?_, free.trans unlimited, fun idle => absurd idle busy⟩
    rw [before]
    exact lt_of_le_of_lt (less.trans_eq (congrArg (· + 2) (engine.effort_enqueueAll _ derives))) (Nat.lt_succ_self _)

/-- A run without limits that nothing interrupts completes, whatever state it
resumes from. -/
theorem RunState.Live.completes (live : state.Live compiled properties start)
    (finite : {c | (inferenceRules compiled properties).Derives start c}.Finite)
    (unlimited : state.maxConclusions = none)
    (running : state.control ≠ .idle) :
    ∃ moves, ((RunState.tick .proceed)^[moves] state).outcome = some .completed := by
  generalize effort : state.effort {c | (inferenceRules compiled properties).Derives start c}.ncard = amount
  induction amount using Nat.strong_induction_on generalizing state with
  | _ amount ih =>
    obtain ⟨less, free, done⟩ := live.proceed finite unlimited running
    by_cases idle : (state.tick .proceed).control = .idle
    · exact ⟨1, done idle⟩
    · obtain ⟨moves, completed⟩ := ih _ (effort ▸ less) (live.tick .proceed).1 free idle rfl
      exact ⟨moves + 1, by rw [Function.iterate_succ_apply]; exact completed⟩

theorem RunState.tick_iterate_live (moves : Nat) (live : state.Live compiled properties start) :
    ((RunState.tick .proceed)^[moves] state).Live compiled properties start ∧
      Extends state.engine.stores ((RunState.tick .proceed)^[moves] state).engine.stores := by
  induction moves generalizing state with
  | zero => exact ⟨live, .refl⟩
  | succ moves ih =>
    obtain ⟨after, grown⟩ := live.tick .proceed
    obtain ⟨last, more⟩ := ih after
    rw [Function.iterate_succ_apply]
    exact ⟨last, grown.trans more⟩

/-- The invariant before the first run. -/
theorem requests_live {log : List Request} {known : List Request} (live : state.Live compiled properties start)
    (idle : state.control = .idle)
    (derives : ∀ request ∈ log, (inferenceRules compiled properties).Derives start request.fact)
    (earlier : requestFacts known ⊆ knownConclusions state.engine.stores) :
    (log.foldl RunState.handle state).Live compiled properties start ∧
    (log.foldl RunState.handle state).control = .idle ∧
      requestFacts (known ++ log) ⊆ knownConclusions (log.foldl RunState.handle state).engine.stores := by
  induction log generalizing state known with
  | nil => exact ⟨live, idle, by rwa [List.append_nil]⟩
  | cons first rest ih =>
    obtain ⟨after, grown, found⟩ := live.handle idle (derives first List.mem_cons_self)
    have later : requestFacts (known ++ [first]) ⊆ knownConclusions (state.handle first).engine.stores := by
      rintro c ⟨request, member, rfl⟩
      rcases List.mem_append.mp member with before | new
      · exact grown.known (earlier ⟨request, before, rfl⟩)
      · rw [List.mem_singleton.mp new]
        exact found
    have tail := @ih (state.handle first) (known ++ [first]) after idle
      (fun request member => derives request (List.mem_cons_of_mem _ member)) later
    rwa [List.append_assoc] at tail

/-- An uninterrupted run after some requests. -/
theorem uninterrupted_live (log : List Request) (moves : Nat) :
    (uninterrupted compiled properties log moves).Live compiled properties (requestFacts log) ∧
      requestFacts log ⊆ knownConclusions (uninterrupted compiled properties log moves).engine.stores := by
  have nothing : requestFacts [] ⊆ knownConclusions (RunState.new compiled properties).engine.stores := by
    rintro c ⟨request, member, _⟩
    exact absurd member List.not_mem_nil
  obtain ⟨live, idle, requested⟩ := requests_live (.new : (RunState.new compiled properties).Live compiled properties
    (requestFacts log)) rfl (fun request member => .start ⟨request, member, rfl⟩) nothing
  obtain ⟨started, grown, _⟩ := live.begin [] none idle fun _ member => absurd member List.not_mem_nil
  obtain ⟨after, more⟩ := RunState.tick_iterate_live moves started
  exact ⟨after, (requested.trans grown.known).trans more.known⟩

end

/-- Work that is left for a context: premises to retry, its agenda, and a premise that
was taken. -/
def RunState.Pending (state : RunState) (context : ContextState) : Prop :=
  state.engine.retry context.root ≠ [] ∨ context.todo ≠ [] ∨ ∃ premise,
    state.control = .dispatching context.root premise

/-- What holds of the scheduler in every state. -/
structure RunState.Consistent (compiled : Tables) (properties : PropertySaturation) (log : List Request)
    (state : RunState) : Prop where
  allocated : (state.engine.contexts.map fun context => context.root).Nodup
  pending_iff : ∀ context ∈ state.engine.contexts,
    state.Pending context ↔ context.queued = true ∨ state.control.root = some context.root
  queued_iff : ∀ root, root ∈ state.engine.active ↔
    ∃ context ∈ state.engine.contexts, context.root = root ∧ context.queued = true
  queued_once : state.engine.active.Nodup
  saturated_idle : ∀ context ∈ state.engine.contexts, context.saturated = true → ¬ state.Pending context
  stored_once : ∀ context ∈ state.engine.contexts, context.conclusions.Nodup ∧ context.todo.Nodup ∧
    ∀ c ∈ context.todo, c ∉ context.conclusions
  indexed : ∀ context ∈ state.engine.contexts, (∀ c ∈ context.conclusions, c.destination = context.root) ∧
    context.toContext.Mirrors {c | c ∈ context.conclusions}
  requested : ∀ request ∈ log, request.fact ∈ knownConclusions state.engine.stores
  -- every stored premise that is neither in flight nor to be retried has delivered its consequences
  delivered : ∀ p ∈ storedConclusions state.engine.stores, p ∉ state.engine.outstanding state.control.flight →
    (∀ c, (inferenceRules compiled properties).unary p c → c ∈ knownConclusions state.engine.stores) ∧
    ∀ q ∈ storedConclusions state.engine.stores, q ∉ state.engine.outstanding state.control.flight →
      ∀ c, (inferenceRules compiled properties).binary p q c → c ∈ knownConclusions state.engine.stores

section

variable {compiled : Tables} {properties : PropertySaturation} {log : List Request} {state : RunState}

theorem RunState.Live.pending_iff (live : state.Live compiled properties (requestFacts log)) {context : ContextState}
    (member : context ∈ state.engine.contexts) :
    state.Pending context ↔ context.queued = true ∨ state.control.root = some context.root := by
  have shown : context.behind (state.engine.retry context.root) ∈ state.engine.view.contexts :=
    RecoveringEngine.mem_view.mpr ⟨context, member, rfl⟩
  have work : (context.behind (state.engine.retry context.root)).todo ≠ [] ↔
      state.engine.retry context.root ≠ [] ∨ context.todo ≠ [] := by
    simp only [ContextState.behind, ne_eq, List.append_eq_nil_iff, not_and_or]
  constructor
  · rintro (retries | agenda | ⟨premise, control⟩)
    · have listed := live.engine.scheduled.work _ shown (work.mpr (Or.inl retries))
      exact listed.imp_right live.claimed.symm.trans
    · have listed := live.engine.scheduled.work _ shown (work.mpr (Or.inr agenda))
      exact listed.imp_right live.claimed.symm.trans
    · rw [control]
      exact Or.inr rfl
  · rintro (queued | processed)
    · have listed := work.mp (live.engine.scheduled.queuedWork _ shown queued)
      exact listed.imp_right Or.inl
    · cases control : state.control with
      | idle => simp [control, Control.root] at processed
      | loop => simp [control, Control.root] at processed
      | working root =>
        rw [control] at processed
        obtain rfl := Option.some.inj processed
        have busy := (RecoveringEngine.hasLocalWork_iff live.engine.distinct member).mp (live.working _ control)
        exact (work.mp busy).imp_right Or.inl
      | dispatching root premise =>
        rw [control] at processed
        obtain rfl := Option.some.inj processed
        exact Or.inr (Or.inr ⟨premise, control⟩)

theorem RunState.Live.consistent (live : state.Live compiled properties (requestFacts log))
    (requested : requestFacts log ⊆ knownConclusions state.engine.stores) :
    state.Consistent compiled properties log := by
  have coherent : ∀ context ∈ state.engine.contexts, context.toContextStore.Coherent := fun context member =>
    live.engine.growing.coherent _ (List.mem_map.mpr ⟨context, member, rfl⟩)
  refine ⟨?_, fun context member => live.pending_iff member, ?_, live.engine.scheduled.nodup, ?_, ?_, ?_, ?_, ?_⟩
  · have distinct := live.engine.distinct
    rwa [SaturationEngine.Distinct, SaturationEngine.stores, List.map_map] at distinct
  · intro root
    refine (live.engine.scheduled.active_iff root).trans ⟨?_, ?_⟩
    · rintro ⟨shown, found, same, queued⟩
      obtain ⟨context, member, rfl⟩ := RecoveringEngine.mem_view.mp found
      exact ⟨context, member, same, queued⟩
    · rintro ⟨context, member, same, queued⟩
      exact ⟨_, RecoveringEngine.mem_view.mpr ⟨context, member, rfl⟩, same, queued⟩
  · intro context member saturated pending
    obtain ⟨unqueued, unclaimed⟩ := (live.engine.settled context member).mp saturated
    rcases (live.pending_iff member).mp pending with queued | processed
    · exact Bool.false_ne_true (unqueued.symm.trans queued)
    · exact unclaimed (live.claimed.trans processed)
  · intro context member
    exact ⟨(coherent context member).distinct, (coherent context member).agenda, (coherent context member).fresh⟩
  · intro context member
    exact ⟨(coherent context member).owned, (coherent context member).mirrored⟩
  · intro request member
    exact requested ⟨request, member, rfl⟩
  · intro p stored processed
    refine ⟨fun c rule => live.engine.growing.progress.unary p c ⟨stored, processed⟩ rule, ?_⟩
    intro q storedOther processedOther c rule
    exact live.engine.growing.progress.binary p q c ⟨stored, processed⟩ ⟨storedOther, processedOther⟩ rule

/-- Whatever the callers of an engine ask for, and however its runs are stopped, the
scheduler stays consistent and loses nothing, and a run that completes leaves the
snapshot of an uninterrupted run from the same requests. -/
theorem resumable (reached : Reached compiled properties log state) :
    state.Consistent compiled properties log ∧
      (∀ {requests : List Request} {next : RunState}, Transition compiled state requests next →
        Extends state.engine.stores next.engine.stores) ∧
      (state.outcome = some .completed → ∃ moves, (uninterrupted compiled properties log moves).outcome =
        some .completed ∧
        (uninterrupted compiled properties log moves).engine.snapshot = state.engine.snapshot) := by
  obtain ⟨live, requested⟩ := reached.live
  refine ⟨live.consistent requested, fun moved => (live.move moved).2.1, fun done => ?_⟩
  -- what the completed run has stored bounds the uninterrupted one
  have finite : {c | (inferenceRules compiled properties).Derives (requestFacts log) c}.Finite := by
    have listed : {c | (inferenceRules compiled properties).Derives (requestFacts log) c} ⊆
        {c | c ∈ (state.engine.stores.map fun store => store.conclusions).flatten} := by
      intro c derivation
      obtain ⟨store, member, stored⟩ := (live.least requested done c).mpr derivation
      exact List.mem_flatten.mpr ⟨store.conclusions, List.mem_map.mpr ⟨store, member, rfl⟩, stored⟩
    exact (List.finite_toSet _).subset listed
  obtain ⟨started, _⟩ := @uninterrupted_live compiled properties log 0
  obtain ⟨moves, completed⟩ := started.completes finite rfl (by simp [uninterrupted, RunState.begin])
  obtain ⟨after, known⟩ := @uninterrupted_live compiled properties log moves
  exact ⟨moves, completed, after.snapshot_eq known completed live requested done⟩

theorem Reached.ticks (signals : List Signal) (reached : Reached compiled properties log state) :
    Reached compiled properties log (signals.foldl (fun state signal => state.tick signal) state) := by
  induction signals generalizing state with
  | nil => exact reached
  | cons signal rest ih =>
    have moved := reached.move (.tick signal)
    rw [List.append_nil] at moved
    exact ih moved

end

/-- A hierarchy of three classes. -/
def hierarchyTables : Tables where
  entities := [⟨.owlClass, "ex:A"⟩, ⟨.owlClass, "ex:B"⟩, ⟨.owlClass, "ex:C"⟩, ⟨.owlClass, OWL_NOTHING_IRI⟩,
    ⟨.owlClass, OWL_THING_IRI⟩, ⟨.objectProperty, OWL_BOTTOM_OBJECT_PROPERTY_IRI⟩,
    ⟨.objectProperty, OWL_TOP_OBJECT_PROPERTY_IRI⟩]
  expressions := [⟨.owlClass, [0], []⟩, ⟨.owlClass, [1], []⟩, ⟨.owlClass, [2], []⟩, ⟨.owlClass, [3], []⟩,
    ⟨.owlClass, [4], []⟩]
  expressionOccurrences := [⟨0, 1⟩, ⟨1, 1⟩, ⟨1, 0⟩, ⟨0, 0⟩, ⟨0, 0⟩]
  propertyOccurrences := [⟨0, 0⟩, ⟨0, 0⟩]
  propertyChains := []
  subclassAxioms := [(0, 1), (1, 2)]
  equivalentClassAxioms := []
  disjointGroups := []
  subpropertyAxioms := []
  propertyRanges := []
  featureCounts := List.replicate 79 0
  sourceFingerprint := List.replicate 32 0

/-- A run that exceeds its budget, one whose second dispatch fails after one product,
one that is interrupted, and one that completes. -/
def hierarchyRun : RunState :=
  let run (state : RunState) (maxConclusions : Option Nat) (signals : List Signal) : RunState :=
    signals.foldl (fun state signal => state.tick signal) (state.begin [0] maxConclusions)
  let exceeded := run (.new hierarchyTables (closeProperties hierarchyTables)) (some 2) (List.replicate 6 .proceed)
  let failed := run exceeded none [.proceed, .proceed, .fail 1]
  let interrupted := run failed none [.proceed, .proceed, .proceed, .interrupt]
  run interrupted none (List.replicate 24 .proceed)

theorem resumable_hierarchy : hierarchyRun.outcome = some .completed ∧
    hierarchyRun.Consistent hierarchyTables (closeProperties hierarchyTables) (List.replicate 4 (.demand 0)) ∧
    ∃ moves, (uninterrupted hierarchyTables (closeProperties hierarchyTables) (List.replicate 4 (.demand 0))
      moves).engine.snapshot = hierarchyRun.engine.snapshot := by
  have inRange : ∀ root ∈ [0], root < hierarchyTables.expressions.length := by decide
  have reached : Reached hierarchyTables (closeProperties hierarchyTables)
    (List.replicate 4 (.demand 0)) hierarchyRun :=
    .ticks _ ((Reached.ticks _
      ((Reached.ticks _ ((Reached.ticks _ (Reached.new.move (.run [0] (some 2) rfl inRange))).move
      (.run [0] none (by decide +kernel) inRange))).move (.run [0] none (by decide +kernel) inRange))).move
      (.run [0] none (by decide +kernel) inRange))
  have completed : hierarchyRun.outcome = some .completed := by decide +kernel
  obtain ⟨consistent, _, resumed⟩ := resumable reached
  obtain ⟨moves, _, same⟩ := resumed completed
  exact ⟨completed, consistent, moves, same⟩

end PyElk
