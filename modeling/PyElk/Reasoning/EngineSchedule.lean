import PyElk.Reasoning.FixedPoint

open Ordered

namespace PyElk

/-- The contexts of an engine without their scheduling flags. -/
def SaturationEngine.stores (engine : SaturationEngine) : List ContextStore :=
  engine.contexts.map ContextState.toContextStore

/-- An offer is what the abstract context does when a conclusion is enqueued. -/
theorem ContextState.offer_store {claimed : Bool} {conclusion : Conclusion} {state : ContextState} :
    (state.offer claimed conclusion).toContextStore = state.toContextStore.enqueue conclusion := by
  unfold offer ContextStore.enqueue
  split <;> rfl

section

variable {engine : SaturationEngine} {root : ExpressionId} {conclusion : Conclusion}

theorem SaturationEngine.mem_of_contextState {state : ContextState}
    (found : engine.contextState root = some state) : state ∈ engine.contexts ∧ state.root = root := by
  refine ⟨List.mem_of_find?_eq_some found, ?_⟩
  have holds := List.find?_some found
  exact beq_iff_eq.mp holds

theorem SaturationEngine.contextState_isSome :
    (engine.contextState root).isSome ↔ ∃ state ∈ engine.contexts, state.root = root := by
  rw [contextState, List.find?_isSome]
  constructor
  · rintro ⟨state, member, same⟩
    exact ⟨state, member, beq_iff_eq.mp same⟩
  · rintro ⟨state, member, rfl⟩
    exact ⟨state, member, beq_self_eq_true _⟩

/-- A modified context is updated in the abstract store. -/
theorem SaturationEngine.stores_modify {update : ContextState → ContextState}
    {store : ContextStore → ContextStore}
    (commutes : ∀ state : ContextState, (update state).toContextStore = store state.toContextStore) :
    (engine.modify root update).stores = updateStore engine.stores root store := by
  simp only [stores, modify, updateStore, List.map_map]
  refine List.map_congr_left fun state _ => ?_
  simp only [Function.comp_apply]
  split
  · exact commutes state
  · rfl

/-- After a modification the context of the root is the modified one, and the others are as before. -/
theorem SaturationEngine.mem_modify {update : ContextState → ContextState} {state : ContextState} :
    state ∈ (engine.modify root update).contexts ↔
      (∃ old ∈ engine.contexts, old.root = root ∧ update old = state) ∨
        (state ∈ engine.contexts ∧ state.root ≠ root) := by
  simp only [modify, List.mem_map]
  constructor
  · rintro ⟨old, member, rfl⟩
    split
    · rename_i found
      exact Or.inl ⟨old, member, beq_iff_eq.mp found, rfl⟩
    · rename_i other
      exact Or.inr ⟨member, fun same => other (beq_iff_eq.mpr same)⟩
  · rintro (⟨old, member, found, rfl⟩ | ⟨member, other⟩)
    · exact ⟨old, member, if_pos (beq_iff_eq.mpr found)⟩
    · exact ⟨state, member, if_neg fun same => other (beq_iff_eq.mp same)⟩

theorem SaturationEngine.mem_modify_away {update : ContextState → ContextState} {state : ContextState}
    (keeps : ∀ state : ContextState, (update state).root = state.root) (elsewhere : state.root ≠ root) :
    state ∈ (engine.modify root update).contexts ↔ state ∈ engine.contexts := by
  rw [mem_modify]
  constructor
  · rintro (⟨old, _, same, rfl⟩ | ⟨found, _⟩)
    · exact absurd ((keeps old).trans same) elsewhere
    · exact found
  · exact fun found => Or.inr ⟨found, elsewhere⟩

theorem SaturationEngine.of_mem_modify {update : ContextState → ContextState} {state : ContextState}
    (member : state ∈ (engine.modify root update).contexts) (same : state.root = root) :
    ∃ old ∈ engine.contexts, old.root = root ∧ update old = state :=
  (mem_modify.mp member).resolve_right fun elsewhere => elsewhere.2 same

/-- Enqueueing is an update of the abstract store. -/
theorem SaturationEngine.stores_enqueueExisting :
    (engine.enqueueExisting root conclusion).stores =
      updateStore engine.stores root fun state => state.enqueue conclusion :=
  stores_modify fun _ => ContextState.offer_store

theorem SaturationEngine.mem_stores_root :
    (∃ state ∈ engine.stores, state.root = root) ↔ ∃ state ∈ engine.contexts, state.root = root := by
  constructor
  · rintro ⟨store, member, same⟩
    obtain ⟨state, found, rfl⟩ := List.mem_map.mp member
    exact ⟨state, found, same⟩
  · rintro ⟨state, found, same⟩
    exact ⟨state.toContextStore, List.mem_map.mpr ⟨state, found, rfl⟩, same⟩

/-- Creating a context creates it in the abstract store. -/
theorem SaturationEngine.stores_ensureContext :
    (engine.ensureContext root).stores = ensureStore engine.stores root := by
  by_cases present : ∃ state ∈ engine.contexts, state.root = root
  · rw [ensureContext, if_pos (contextState_isSome.mpr present), ensureStore_present (mem_stores_root.mpr present)]
  · have absent : ∀ state ∈ engine.stores, state.root ≠ root :=
      fun state member same => present (mem_stores_root.mp ⟨state, member, same⟩)
    rw [ensureContext, if_neg fun found => present (contextState_isSome.mp found), stores_enqueueExisting,
      ensureStore_novel absent]
    simp only [stores, List.map_append, List.map_singleton, updateStore, beq_self_eq_true, if_true]
    congr 1
    refine (List.map_congr_left fun state member => ?_).trans (List.map_id _)
    exact if_neg fun same => absent state member (beq_iff_eq.mp same)

/-- Enqueueing at its destination routes a conclusion in the abstract store. -/
theorem SaturationEngine.stores_enqueue :
    (engine.enqueue conclusion).stores = routeStore engine.stores conclusion := by
  rw [enqueue, stores_enqueueExisting, stores_ensureContext, routeStore]

theorem SaturationEngine.stores_enqueueAll {products : List Conclusion} :
    (products.foldl SaturationEngine.enqueue engine).stores = products.foldl routeStore engine.stores := by
  induction products generalizing engine with
  | nil => rfl
  | cons product rest ih => rw [List.foldl_cons, ih, stores_enqueue, List.foldl_cons]

/-- The scheduling flags: the active queue lists the queued contexts, each once,
and a context with work is queued or claimed. -/
structure SaturationEngine.Scheduled (engine : SaturationEngine) : Prop where
  active_iff : ∀ root, root ∈ engine.active ↔ ∃ state ∈ engine.contexts, state.root = root ∧ state.queued = true
  nodup : engine.active.Nodup
  work : ∀ state ∈ engine.contexts, state.todo ≠ [] →
    state.queued = true ∨ engine.claimedRoot = some state.root
  queuedWork : ∀ state ∈ engine.contexts, state.queued = true → state.todo ≠ []
  claimedIdle : ∀ state ∈ engine.contexts, engine.claimedRoot = some state.root → state.queued = false

/-- What `Scheduled` says of the contexts of one root. -/
structure SaturationEngine.ScheduledAt (engine : SaturationEngine) (root : ExpressionId) : Prop where
  active_iff : root ∈ engine.active ↔ ∃ state ∈ engine.contexts, state.root = root ∧ state.queued = true
  work : ∀ state ∈ engine.contexts, state.root = root → state.todo ≠ [] →
    state.queued = true ∨ engine.claimedRoot = some root
  queuedWork : ∀ state ∈ engine.contexts, state.root = root → state.queued = true → state.todo ≠ []
  claimedIdle : ∀ state ∈ engine.contexts, state.root = root → engine.claimedRoot = some root → state.queued = false

/-- `next` is `engine` but for the context of one root and its place in the queue. -/
structure SaturationEngine.AgreesAway (engine next : SaturationEngine) (root : ExpressionId) : Prop where
  contexts : ∀ state : ContextState, state.root ≠ root → (state ∈ next.contexts ↔ state ∈ engine.contexts)
  active : ∀ other, other ≠ root → (other ∈ next.active ↔ other ∈ engine.active)
  claimed : ∀ other, other ≠ root → (next.claimedRoot = some other ↔ engine.claimedRoot = some other)

/-- Replacing one context of the store keeps the schedule when the new context is in step with the queue. -/
theorem SaturationEngine.Scheduled.replace {next : SaturationEngine} (scheduled : engine.Scheduled)
    (away : engine.AgreesAway next root) (nodup : next.active.Nodup) (here : next.ScheduledAt root) :
    next.Scheduled := by
  refine ⟨fun other => ?_, nodup, fun state member work => ?_, fun state member queued => ?_,
    fun state member held => ?_⟩
  · by_cases same : other = root
    · rw [same]
      exact here.active_iff
    · rw [away.active other same, scheduled.active_iff other]
      refine exists_congr fun state => and_congr_left fun ⟨found, _⟩ => (away.contexts state ?_).symm
      rwa [found]
  · by_cases same : state.root = root
    · rw [same]
      exact here.work state member same work
    · rw [away.claimed _ same]
      exact scheduled.work state ((away.contexts state same).mp member) work
  · by_cases same : state.root = root
    · exact here.queuedWork state member same queued
    · exact scheduled.queuedWork state ((away.contexts state same).mp member) queued
  · by_cases same : state.root = root
    · exact here.claimedIdle state member same (by rwa [← same])
    · exact scheduled.claimedIdle state ((away.contexts state same).mp member) ((away.claimed _ same).mp held)

/-- Every root has one context. -/
def SaturationEngine.Distinct (engine : SaturationEngine) : Prop :=
  (engine.stores.map (·.root)).Nodup

theorem SaturationEngine.Distinct.unique (distinct : engine.Distinct) {left right : ContextState}
    (memberLeft : left ∈ engine.contexts) (memberRight : right ∈ engine.contexts)
    (same : left.root = right.root) : left = right := by
  rw [SaturationEngine.Distinct, SaturationEngine.stores, List.map_map] at distinct
  exact List.inj_on_of_nodup_map distinct memberLeft memberRight same

/-- With distinct roots every context is found by its root. -/
theorem SaturationEngine.Distinct.contextState (distinct : engine.Distinct) {state : ContextState}
    (member : state ∈ engine.contexts) : engine.contextState state.root = some state := by
  obtain ⟨found, same⟩ := Option.isSome_iff_exists.mp (contextState_isSome.mpr ⟨state, member, rfl⟩)
  obtain ⟨memberFound, root⟩ := mem_of_contextState same
  rw [same, distinct.unique memberFound member root]

theorem SaturationEngine.Distinct.enqueueExisting (distinct : engine.Distinct) :
    (engine.enqueueExisting root conclusion).Distinct := by
  rw [SaturationEngine.Distinct, stores_enqueueExisting,
    updateStore_roots fun _ _ _ => ContextStore.enqueue_root]
  exact distinct

theorem SaturationEngine.Distinct.ensureContext (distinct : engine.Distinct) :
    (engine.ensureContext root).Distinct := by
  rw [SaturationEngine.Distinct, stores_ensureContext]
  exact ensureStore_distinct distinct

theorem ContextState.offer_known {claimed : Bool} {state : ContextState}
    (known : conclusion ∈ state.conclusions ∨ conclusion ∈ state.pending) : state.offer claimed conclusion = state :=
  if_pos known

theorem ContextState.offer_novel {claimed : Bool} {state : ContextState}
    (novel : ¬ (conclusion ∈ state.conclusions ∨ conclusion ∈ state.pending)) :
    state.offer claimed conclusion =
      { state with
        todo := state.todo ++ [conclusion]
        pending := conclusion :: state.pending
        saturated := false
        queued := state.queued || !claimed } := by
  unfold offer ContextStore.enqueue
  rw [if_neg novel, if_neg novel]

theorem SaturationEngine.modify_eq_self {update : ContextState → ContextState}
    (still : ∀ state ∈ engine.contexts, state.root = root → update state = state) :
    engine.modify root update = engine := by
  simp only [modify]
  congr 1
  refine (List.map_congr_left fun state member => ?_).trans (List.map_id _)
  split
  · rename_i found
    exact still state member (beq_iff_eq.mp found)
  · rfl

/-- Nothing is offered to a root without a context. -/
theorem SaturationEngine.enqueueExisting_absent (absent : ¬∃ state ∈ engine.contexts, state.root = root) :
    engine.enqueueExisting root conclusion = engine := by
  have nothing : engine.contextState root = none := by
    rw [← Option.not_isSome_iff_eq_none, contextState_isSome]
    exact absent
  have quiet : engine.activates root conclusion = false := by rw [activates, nothing]
  rw [enqueueExisting, modify_eq_self fun state member same => absurd ⟨state, member, same⟩ absent, quiet]
  rfl

/-- A conclusion that its context knows changes nothing. -/
theorem SaturationEngine.Distinct.enqueueExisting_known (distinct : engine.Distinct) {owner : ContextState}
    (member : owner ∈ engine.contexts) (known : conclusion ∈ owner.conclusions ∨ conclusion ∈ owner.pending) :
    engine.enqueueExisting owner.root conclusion = engine := by
  have quiet : engine.activates owner.root conclusion = false := by
    rw [activates, distinct.contextState member]
    simp only [Bool.and_eq_false_imp, decide_eq_false_iff_not]
    intro _ novel
    exact known.elim novel.1 novel.2
  have still : ∀ state ∈ engine.contexts, state.root = owner.root →
      state.offer (engine.claimedRoot == some owner.root) conclusion = state := by
    intro state found same
    rw [distinct.unique found member same]
    exact ContextState.offer_known known
  rw [SaturationEngine.enqueueExisting, modify_eq_self still, quiet]
  rfl

/-- A novel conclusion queues its context unless the context is queued or claimed. -/
theorem SaturationEngine.Distinct.activates_novel (distinct : engine.Distinct) {owner : ContextState}
    (member : owner ∈ engine.contexts)
    (novel : ¬(conclusion ∈ owner.conclusions ∨ conclusion ∈ owner.pending)) :
    engine.activates owner.root conclusion = true ↔ engine.claimedRoot ≠ some owner.root ∧ owner.queued = false := by
  rw [not_or] at novel
  rw [activates, distinct.contextState member]
  simp [novel]

theorem SaturationEngine.mem_enqueueExisting_active {other : ExpressionId} :
    other ∈ (engine.enqueueExisting root conclusion).active ↔
      other ∈ engine.active ∨ engine.activates root conclusion = true ∧ other = root := by
  rw [enqueueExisting]
  cases engine.activates root conclusion with
  | false => simp
  | true => simp

/-- Something new for a context puts it in the queue, unless it is claimed. -/
theorem SaturationEngine.Scheduled.enqueueExisting_novel (scheduled : engine.Scheduled) (distinct : engine.Distinct)
    {owner : ContextState} (member : owner ∈ engine.contexts)
    (novel : ¬(conclusion ∈ owner.conclusions ∨ conclusion ∈ owner.pending)) :
    (engine.enqueueExisting owner.root conclusion).Scheduled := by
  have activates := distinct.activates_novel member novel
  have listed : owner.root ∈ engine.active ↔ owner.queued = true := by
    rw [scheduled.active_iff]
    constructor
    · rintro ⟨state, found, same, queued⟩
      rwa [distinct.unique found member same] at queued
    · exact fun queued => ⟨owner, member, rfl, queued⟩
  have offered := @ContextState.offer_novel conclusion (engine.claimedRoot == some owner.root) owner novel
  have moved : (owner.offer (engine.claimedRoot == some owner.root) conclusion).root = owner.root := by rw [offered]
  have agenda : (owner.offer (engine.claimedRoot == some owner.root) conclusion).todo ≠ [] := by
    rw [offered]
    exact List.append_ne_nil_of_right_ne_nil _ (List.cons_ne_nil _ _)
  have flag : (owner.offer (engine.claimedRoot == some owner.root) conclusion).queued = true ↔
      owner.queued = true ∨ engine.claimedRoot ≠ some owner.root := by
    rw [offered]
    simp
  have only : ∀ state ∈ (engine.enqueueExisting owner.root conclusion).contexts, state.root = owner.root →
      state = owner.offer (engine.claimedRoot == some owner.root) conclusion := by
    intro state found same
    obtain ⟨old, before, here, rfl⟩ := of_mem_modify found same
    rw [distinct.unique before member here]
  have present : owner.offer (engine.claimedRoot == some owner.root) conclusion ∈
      (engine.enqueueExisting owner.root conclusion).contexts := mem_modify.mpr (Or.inl ⟨owner, member, rfl, rfl⟩)
  have away : engine.AgreesAway (engine.enqueueExisting owner.root conclusion) owner.root := by
    refine ⟨fun state elsewhere => mem_modify_away (fun _ => ?_) elsewhere, fun other elsewhere => ?_,
      fun _ _ => Iff.rfl⟩
    · rw [ContextState.offer_store]
      exact ContextStore.enqueue_root
    · rw [mem_enqueueExisting_active]
      exact or_iff_left fun here => elsewhere here.2
  refine scheduled.replace away ?_ ⟨?_, ?_, ?_, ?_⟩
  · rw [SaturationEngine.enqueueExisting]
    split
    · rename_i queues
      refine List.nodup_append.mpr ⟨scheduled.nodup, List.nodup_singleton _, ?_⟩
      rintro left old right single rfl
      rw [List.mem_singleton.mp single, listed] at old
      exact Bool.false_ne_true ((activates.mp queues).2.symm.trans old)
    · exact scheduled.nodup
  · rw [mem_enqueueExisting_active, activates, listed]
    constructor
    · intro queued
      refine ⟨_, present, moved, flag.mpr ?_⟩
      exact queued.imp id fun here => here.1.1
    · rintro ⟨state, found, same, queued⟩
      rw [only state found same, flag] at queued
      cases owned : owner.queued with
      | true => exact Or.inl rfl
      | false => exact Or.inr ⟨⟨queued.resolve_left (by simp [owned]), rfl⟩, rfl⟩
  · intro state found same _
    rw [only state found same, flag]
    by_cases claimed : engine.claimedRoot = some owner.root
    · exact Or.inr claimed
    · exact Or.inl (Or.inr claimed)
  · intro state found same _
    rw [only state found same]
    exact agenda
  · intro state found same held
    rw [only state found same, ← Bool.not_eq_true, flag, scheduled.claimedIdle owner member held]
    exact fun queued => queued.elim Bool.false_ne_true fun unclaimed => unclaimed held

/-- Offering a candidate keeps the queue in step with the flags. -/
theorem SaturationEngine.Scheduled.enqueueExisting (scheduled : engine.Scheduled) (distinct : engine.Distinct) :
    (engine.enqueueExisting root conclusion).Scheduled := by
  by_cases present : ∃ state ∈ engine.contexts, state.root = root
  · obtain ⟨owner, member, rfl⟩ := present
    by_cases known : conclusion ∈ owner.conclusions ∨ conclusion ∈ owner.pending
    · rw [distinct.enqueueExisting_known member known]
      exact scheduled
    · exact scheduled.enqueueExisting_novel distinct member known
  · rw [enqueueExisting_absent present]
    exact scheduled

/-- Creating a context keeps the schedule. -/
theorem SaturationEngine.Scheduled.ensureContext (scheduled : engine.Scheduled) (distinct : engine.Distinct) :
    (engine.ensureContext root).Scheduled := by
  rw [SaturationEngine.ensureContext]
  split
  · exact scheduled
  · rename_i novel
    rw [contextState_isSome] at novel
    have cases : ∀ state : ContextState, state ∈ engine.contexts ++ [{ root := root }] ↔
        state ∈ engine.contexts ∨ state = { root := root } := by
      intro state
      rw [List.mem_append, List.mem_singleton]
    refine Scheduled.enqueueExisting ⟨?_, scheduled.nodup, ?_, ?_, ?_⟩ ?_
    · intro other
      refine (scheduled.active_iff other).trans ⟨?_, ?_⟩
      · rintro ⟨state, found, same, queued⟩
        exact ⟨state, (cases state).mpr (Or.inl found), same, queued⟩
      · rintro ⟨state, found, same, queued⟩
        rcases (cases state).mp found with found | rfl
        · exact ⟨state, found, same, queued⟩
        · exact absurd queued Bool.false_ne_true
    · intro state found work
      rcases (cases state).mp found with found | rfl
      · exact scheduled.work state found work
      · exact absurd rfl work
    · intro state found queued
      rcases (cases state).mp found with found | rfl
      · exact scheduled.queuedWork state found queued
      · exact absurd queued Bool.false_ne_true
    · intro state found held
      rcases (cases state).mp found with found | rfl
      · exact scheduled.claimedIdle state found held
      · rfl
    · show (((engine.contexts ++ [({ root := root } : ContextState)]).map ContextState.toContextStore).map
        (·.root)).Nodup
      rw [List.map_append, List.map_append, List.nodup_append]
      refine ⟨distinct, List.nodup_singleton _, ?_⟩
      intro left member right single same
      obtain ⟨store, stored, rfl⟩ := List.mem_map.mp member
      obtain ⟨state, found, rfl⟩ := List.mem_map.mp stored
      exact novel ⟨state, found, same.trans (List.mem_singleton.mp single)⟩

/-- What happens inside of the claimed context leaves the schedule alone. -/
theorem SaturationEngine.Scheduled.reshape {next : SaturationEngine} (scheduled : engine.Scheduled)
    (held : engine.claimedRoot = some root) (active : next.active = engine.active)
    (claimed : next.claimedRoot = engine.claimedRoot)
    (backward : ∀ state ∈ next.contexts, ∃ old ∈ engine.contexts,
      old.root = state.root ∧ old.queued = state.queued ∧ (state.root ≠ root → old.todo = state.todo))
    (forward : ∀ old ∈ engine.contexts, ∃ state ∈ next.contexts, state.root = old.root ∧ state.queued = old.queued) :
    next.Scheduled := by
  refine ⟨?_, ?_, ?_, ?_, ?_⟩
  · intro other
    rw [active, scheduled.active_iff other]
    constructor
    · rintro ⟨old, found, same, queued⟩
      obtain ⟨state, member, root, flag⟩ := forward old found
      exact ⟨state, member, root.trans same, flag.trans queued⟩
    · rintro ⟨state, member, same, queued⟩
      obtain ⟨old, found, root, flag, _⟩ := backward state member
      exact ⟨old, found, root.trans same, flag.trans queued⟩
  · rw [active]
    exact scheduled.nodup
  · intro state member work
    obtain ⟨old, found, same, flag, agenda⟩ := backward state member
    by_cases here : state.root = root
    · exact Or.inr (by rw [claimed, here]; exact held)
    · rw [claimed, ← same, ← flag]
      exact scheduled.work old found (by rw [agenda here]; exact work)
  · intro state member queued
    obtain ⟨old, found, same, flag, agenda⟩ := backward state member
    by_cases here : state.root = root
    · have idle := scheduled.claimedIdle old found (by rw [same, here]; exact held)
      exact absurd (idle.symm.trans (flag.trans queued)) Bool.false_ne_true
    · rw [← agenda here]
      exact scheduled.queuedWork old found (flag.trans queued)
  · intro state member owned
    obtain ⟨old, found, same, flag, _⟩ := backward state member
    rw [← flag]
    exact scheduled.claimedIdle old found (by rw [same, ← claimed]; exact owned)

/-- Accepting a conclusion in the claimed context keeps the schedule. -/
theorem SaturationEngine.Scheduled.accept {premise : Conclusion} (scheduled : engine.Scheduled)
    (claimed : engine.claimedRoot = some root) :
    (engine.modify root fun state => state.accept premise).Scheduled := by
  refine scheduled.reshape claimed rfl rfl ?_ ?_
  · intro state member
    rcases mem_modify.mp member with ⟨old, found, same, rfl⟩ | ⟨found, _⟩
    · exact ⟨old, found, ContextStore.accept_root.symm, rfl,
        fun elsewhere => absurd (ContextStore.accept_root.trans same) elsewhere⟩
    · exact ⟨state, found, rfl, rfl, fun _ => rfl⟩
  · intro old found
    by_cases same : old.root = root
    · exact ⟨old.accept premise, mem_modify.mpr (Or.inl ⟨old, found, same, rfl⟩), ContextStore.accept_root, rfl⟩
    · exact ⟨old, mem_modify.mpr (Or.inr ⟨found, same⟩), rfl, rfl⟩

/-- The claimed context goes back to the front of the queue. -/
theorem SaturationEngine.Scheduled.requeue {next : SaturationEngine} (scheduled : engine.Scheduled)
    (held : engine.claimedRoot = some root) (active : next.active = root :: engine.active)
    (claimed : next.claimedRoot = none)
    (contexts : next.contexts =
      (engine.modify root fun state => { state with queued := true, saturated := false }).contexts)
    (work : ∃ state ∈ engine.contexts, state.root = root)
    (left : ∀ state ∈ engine.contexts, state.root = root → state.todo ≠ []) : next.Scheduled := by
  have away : engine.AgreesAway next root := by
    refine ⟨fun state elsewhere => ?_, fun other elsewhere => ?_, fun other elsewhere => ?_⟩
    · rw [contexts]
      exact mem_modify_away (fun _ => rfl) elsewhere
    · rw [active, List.mem_cons]
      exact or_iff_right elsewhere
    · rw [claimed, held]
      exact iff_of_false (Option.some_ne_none _).symm fun same => elsewhere (Option.some.inj same).symm
  have unlisted : root ∉ engine.active := by
    intro member
    obtain ⟨old, found, same, queued⟩ := (scheduled.active_iff root).mp member
    have idle := scheduled.claimedIdle old found (by rw [same]; exact held)
    exact Bool.false_ne_true (idle.symm.trans queued)
  have back : ∀ state ∈ next.contexts, state.root = root → state.queued = true ∧ state.todo ≠ [] := by
    intro state member same
    rw [contexts] at member
    obtain ⟨old, found, here, rfl⟩ := of_mem_modify member same
    exact ⟨rfl, left old found here⟩
  refine scheduled.replace away ?_ ⟨?_, ?_, ?_, ?_⟩
  · rw [active]
    exact List.nodup_cons.mpr ⟨unlisted, scheduled.nodup⟩
  · rw [active, contexts]
    obtain ⟨old, found, same⟩ := work
    exact iff_of_true List.mem_cons_self ⟨_, mem_modify.mpr (Or.inl ⟨old, found, same, rfl⟩), same, rfl⟩
  · exact fun state member same _ => Or.inl (back state member same).1
  · exact fun state member same _ => (back state member same).2
  · intro state _ _ owned
    rw [claimed] at owned
    exact absurd owned (Option.some_ne_none _).symm

/-- The first active context is claimed. -/
theorem SaturationEngine.Scheduled.claim {rest : List ExpressionId} (scheduled : engine.Scheduled)
    (active : engine.active = root :: rest) (unclaimed : engine.claimedRoot = none) :
    (engine.claim root rest).Scheduled := by
  have nodup := scheduled.nodup
  rw [active, List.nodup_cons] at nodup
  have away : engine.AgreesAway (engine.claim root rest) root := by
    refine ⟨fun state elsewhere => mem_modify_away (fun _ => rfl) elsewhere, fun other elsewhere => ?_,
      fun other elsewhere => ?_⟩
    · rw [active, List.mem_cons]
      exact (or_iff_right elsewhere).symm
    · rw [unclaimed]
      exact iff_of_false (fun same => elsewhere (Option.some.inj same).symm) (Option.some_ne_none _).symm
  have idle : ∀ state ∈ (engine.claim root rest).contexts, state.root = root → state.queued = false := by
    intro state found same
    obtain ⟨old, _, _, rfl⟩ := of_mem_modify found same
    rfl
  refine scheduled.replace away nodup.2 ⟨?_, ?_, ?_, ?_⟩
  · refine iff_of_false nodup.1 ?_
    rintro ⟨state, found, same, queued⟩
    exact Bool.false_ne_true ((idle state found same).symm.trans queued)
  · exact fun _ _ _ _ => Or.inr rfl
  · exact fun state found same queued => absurd ((idle state found same).symm.trans queued) Bool.false_ne_true
  · exact fun state found same _ => idle state found same

/-- The claimed context is released once its agenda is empty. -/
theorem SaturationEngine.Scheduled.release (scheduled : engine.Scheduled) (claimed : engine.claimedRoot = some root)
    (finished : ∀ state ∈ engine.contexts, state.root = root → state.todo = []) :
    (engine.release root).Scheduled := by
  have away : engine.AgreesAway (engine.release root) root := by
    refine ⟨fun state elsewhere => mem_modify_away (fun _ => rfl) elsewhere, fun _ _ => Iff.rfl,
      fun other elsewhere => ?_⟩
    rw [claimed]
    exact iff_of_false (Option.some_ne_none _).symm fun same => elsewhere (Option.some.inj same).symm
  have unlisted : root ∉ engine.active := by
    intro member
    obtain ⟨state, found, same, queued⟩ := (scheduled.active_iff root).mp member
    exact scheduled.queuedWork state found queued (finished state found same)
  have idle : ∀ state ∈ (engine.release root).contexts, state.root = root →
      state.queued = false ∧ state.todo = [] := by
    intro state found same
    obtain ⟨old, before, here, rfl⟩ := of_mem_modify found same
    exact ⟨scheduled.claimedIdle old before (by rw [here]; exact claimed), finished old before here⟩
  refine scheduled.replace away scheduled.nodup ⟨?_, ?_, ?_, ?_⟩
  · refine iff_of_false unlisted ?_
    rintro ⟨state, found, same, queued⟩
    exact Bool.false_ne_true ((idle state found same).1.symm.trans queued)
  · exact fun state found same work => absurd (idle state found same).2 work
  · exact fun state found same queued => absurd ((idle state found same).1.symm.trans queued) Bool.false_ne_true
  · exact fun state found same _ => (idle state found same).1

/-- Enqueueing the products of a rule keeps the schedule. -/
theorem SaturationEngine.Scheduled.enqueueAll {products : List Conclusion} (scheduled : engine.Scheduled)
    (distinct : engine.Distinct) : (products.foldl SaturationEngine.enqueue engine).Scheduled := by
  induction products generalizing engine with
  | nil => exact scheduled
  | cons product rest ih =>
    have ensured : (engine.ensureContext product.destination).Distinct := distinct.ensureContext
    exact ih ((scheduled.ensureContext distinct).enqueueExisting ensured) ensured.enqueueExisting

end

section

variable {engine : SaturationEngine} {root : ExpressionId} {roots : List ExpressionId}

theorem SaturationEngine.ensureContext_fields : (engine.ensureContext root).dispatcher = engine.dispatcher ∧
    (engine.ensureContext root).claimedRoot = engine.claimedRoot := by
  rw [ensureContext]
  split <;> exact ⟨rfl, rfl⟩

theorem SaturationEngine.enqueueAll_fields {products : List Conclusion} :
    (products.foldl SaturationEngine.enqueue engine).dispatcher = engine.dispatcher ∧
      (products.foldl SaturationEngine.enqueue engine).claimedRoot = engine.claimedRoot := by
  induction products generalizing engine with
  | nil => exact ⟨rfl, rfl⟩
  | cons product rest ih =>
    refine ⟨ih.1.trans ?_, ih.2.trans ?_⟩
    · exact ensureContext_fields.1
    · exact ensureContext_fields.2

theorem SaturationEngine.modify_stores {update : ContextState → ContextState}
    (keeps : ∀ state : ContextState, (update state).toContextStore = state.toContextStore) :
    (engine.modify root update).stores = engine.stores := by
  have same : (engine.modify root update).stores = updateStore engine.stores root id := stores_modify keeps
  rw [same, updateStore]
  refine (List.map_congr_left fun state _ => ?_).trans (List.map_id _)
  split <;> rfl

/-- The invariant of the engine: its stores are those of a schedule, and its
flags say where work is left. -/
structure SaturationEngine.Running (engine : SaturationEngine) (compiled : Tables) (properties : PropertySaturation)
    (roots : Set ExpressionId) : Prop where
  dispatcher : engine.dispatcher = RuleDispatcher.new compiled properties
  saturating : Saturating compiled properties roots (storedConclusions engine.stores) engine.stores
  scheduled : engine.Scheduled

end

section

variable {compiled : Tables} {properties : PropertySaturation} {demanded : Set ExpressionId}
  {engine : SaturationEngine} {root : ExpressionId}

theorem SaturationEngine.Running.new :
    (SaturationEngine.new compiled properties).Running compiled properties demanded where
  dispatcher := rfl
  saturating := .empty
  scheduled := by
    refine ⟨fun root => ⟨fun member => absurd member List.not_mem_nil, ?_⟩, List.nodup_nil, ?_, ?_, ?_⟩
    · rintro ⟨state, member, _⟩
      exact absurd member List.not_mem_nil
    · exact fun _ member => absurd member List.not_mem_nil
    · exact fun _ member => absurd member List.not_mem_nil
    · exact fun _ member => absurd member List.not_mem_nil

/-- Demanding a root is a schedule step, or no step when it is allocated. -/
theorem SaturationEngine.Running.ensureContext (running : engine.Running compiled properties demanded)
    (member : root ∈ demanded) :
    (engine.ensureContext root).Running compiled properties demanded ∧
      Relation.ReflTransGen (ScheduleStep (RuleDispatcher.new compiled properties) demanded) engine.stores
        (engine.ensureContext root).stores := by
  refine ⟨⟨ensureContext_fields.1.trans running.dispatcher, ?_,
    running.scheduled.ensureContext running.saturating.distinct⟩, ?_⟩
  · rw [stores_ensureContext, ensureStore_stored]
    exact running.saturating.ensure (.start ⟨root, member, rfl⟩)
  · rw [stores_ensureContext]
    by_cases present : ∃ state ∈ engine.stores, state.root = root
    · rw [ensureStore_present present]
    · exact .single (.demand member fun state found same => present ⟨state, found, same⟩)

/-- Creating the demanded contexts is a run of the abstract schedule. -/
theorem SaturationEngine.Running.ensureAll (roots : List ExpressionId)
    (running : engine.Running compiled properties demanded) (members : ∀ root ∈ roots, root ∈ demanded) :
    (roots.foldl SaturationEngine.ensureContext engine).Running compiled properties demanded ∧
      Relation.ReflTransGen (ScheduleStep (RuleDispatcher.new compiled properties) demanded) engine.stores
        (roots.foldl SaturationEngine.ensureContext engine).stores ∧
      (roots.foldl SaturationEngine.ensureContext engine).claimedRoot = engine.claimedRoot ∧
      roots ⊆ (roots.foldl SaturationEngine.ensureContext engine).stores.map (·.root) := by
  induction roots generalizing engine with
  | nil => exact ⟨running, .refl, rfl, List.nil_subset _⟩
  | cons first rest ih =>
    obtain ⟨ensured, step⟩ := running.ensureContext (members first List.mem_cons_self)
    obtain ⟨after, steps, claimed, allocated⟩ :=
      ih ensured fun root member => members root (List.mem_cons_of_mem _ member)
    refine ⟨after, step.trans steps, claimed.trans ensureContext_fields.2, List.cons_subset.mpr ⟨?_, allocated⟩⟩
    refine schedule_roots_sub steps ?_
    rw [stores_ensureContext]
    obtain ⟨state, found, same⟩ : ∃ state ∈ ensureStore engine.stores first, state.root = first :=
      ensureStore_mem_root
    exact List.mem_map.mpr ⟨state, found, same⟩

/-- The step lemma of the inner loop: one agenda item of the claimed context. -/
theorem SaturationEngine.Running.step (running : engine.Running compiled properties demanded)
    (claimed : engine.claimedRoot = some root) (work : engine.hasLocalWork root = true) :
    (engine.step root).Running compiled properties demanded ∧
      ScheduleStep (RuleDispatcher.new compiled properties) demanded engine.stores (engine.step root).stores ∧
      (engine.step root).claimedRoot = some root ∧
      ∃ state premise rest, engine.contextState root = some state ∧ state.todo = premise :: rest ∧
        premise ∉ storedConclusions engine.stores ∧
        storedConclusions (engine.step root).stores = insert premise (storedConclusions engine.stores) := by
  rw [hasLocalWork] at work
  cases found : engine.contextState root with
  | none => simp [found] at work
  | some state =>
    obtain ⟨member, rfl⟩ := mem_of_contextState found
    cases agenda : state.todo with
    | nil => simp [found, agenda] at work
    | cons premise rest =>
      have pending : premise ∈ state.todo := by
        rw [agenda]
        exact List.mem_cons_self
      have allocated : state.toContextStore ∈ engine.stores := List.mem_map.mpr ⟨state, member, rfl⟩
      have unfolded : engine.step state.root =
          ((RuleDispatcher.new compiled properties).products
            (state.toContextStore.accept premise).toContext premise).foldl
            SaturationEngine.enqueue (engine.modify state.root fun state => state.accept premise) := by
        rw [SaturationEngine.step, found, running.dispatcher]
        simp only [agenda]
      have stores : (engine.modify state.root fun state => state.accept premise).stores =
          updateStore engine.stores state.root fun state => state.accept premise :=
        stores_modify fun _ => rfl
      obtain ⟨after, grown, fresh⟩ := running.saturating.process allocated pending fun _ => Iff.rfl
      have distinct : (engine.modify state.root fun state => state.accept premise).Distinct := by
        rw [SaturationEngine.Distinct, stores, updateStore_roots fun _ _ _ => ContextStore.accept_root]
        exact running.saturating.distinct
      have scheduled : (engine.modify state.root fun state => state.accept premise).Scheduled :=
        running.scheduled.accept claimed
      rw [unfolded]
      refine ⟨⟨enqueueAll_fields.1.trans running.dispatcher, ?_, scheduled.enqueueAll distinct⟩, ?_,
        enqueueAll_fields.2.trans claimed, state, premise, rest, rfl, agenda, fresh, ?_⟩
      · rw [stores_enqueueAll, stores]
        exact after
      · rw [stores_enqueueAll, stores]
        exact .process allocated pending fun _ => Iff.rfl
      · rw [stores_enqueueAll, stores]
        exact grown

theorem SaturationEngine.Running.unfinished (running : engine.Running compiled properties demanded)
    (idle : engine.hasLocalWork root = false) :
    ∀ state ∈ engine.contexts, state.root = root → state.todo = [] := by
  rintro state member rfl
  rw [hasLocalWork, SaturationEngine.Distinct.contextState running.saturating.distinct member] at idle
  simpa using idle

/-- Claiming the first active context keeps the run and its store. -/
theorem SaturationEngine.Running.claim {rest : List ExpressionId}
    (running : engine.Running compiled properties demanded) (active : engine.active = root :: rest)
    (unclaimed : engine.claimedRoot = none) :
    (engine.claim root rest).Running compiled properties demanded ∧
      (engine.claim root rest).stores = engine.stores := by
  have stores : (engine.claim root rest).stores = engine.stores := modify_stores fun _ => rfl
  exact ⟨⟨running.dispatcher, by rw [stores]; exact running.saturating,
    running.scheduled.claim active unclaimed⟩, stores⟩

/-- Releasing a context without work keeps the run and its store. -/
theorem SaturationEngine.Running.release (running : engine.Running compiled properties demanded)
    (claimed : engine.claimedRoot = some root) (idle : engine.hasLocalWork root = false) :
    (engine.release root).Running compiled properties demanded ∧ (engine.release root).stores = engine.stores := by
  have stores : (engine.release root).stores = engine.stores := modify_stores fun _ => rfl
  have scheduled := running.scheduled.release claimed (running.unfinished idle)
  exact ⟨⟨running.dispatcher, by rw [stores]; exact running.saturating, scheduled⟩, stores⟩

section

variable (valid : compiled.Valid) (within : properties.Scoped compiled)
  (ranged : ∀ root ∈ demanded, root < compiled.expressions.length)

include valid within ranged

/-- What is stored stays within the conclusion limit. -/
theorem SaturationEngine.Running.room (running : engine.Running compiled properties demanded) :
    (storedConclusions engine.stores).Finite ∧
      (storedConclusions engine.stores).ncard ≤ engine.dispatcher.conclusionLimit := by
  rw [running.dispatcher]
  exact running.saturating.stored_le valid within ranged

/-- The run lemma of the inner loop. -/
theorem SaturationEngine.Running.drain (fuel : Nat) (running : engine.Running compiled properties demanded)
    (claimed : engine.claimedRoot = some root)
    (enough : engine.dispatcher.conclusionLimit < fuel + (storedConclusions engine.stores).ncard) :
    (engine.drain fuel root).Running compiled properties demanded ∧
      Relation.ReflTransGen (ScheduleStep (RuleDispatcher.new compiled properties) demanded) engine.stores
        (engine.drain fuel root).stores ∧
      (engine.drain fuel root).claimedRoot = some root ∧ (engine.drain fuel root).hasLocalWork root = false ∧
      (storedConclusions engine.stores).ncard ≤ (storedConclusions (engine.drain fuel root).stores).ncard ∧
      (engine.hasLocalWork root = true →
        (storedConclusions engine.stores).ncard < (storedConclusions (engine.drain fuel root).stores).ncard) := by
  have limit : (storedConclusions engine.stores).ncard ≤ engine.dispatcher.conclusionLimit :=
    (running.room valid within ranged).2
  induction fuel generalizing engine with
  | zero => omega
  | succ fuel ih =>
    rw [SaturationEngine.drain]
    split
    · rename_i work
      obtain ⟨after, step, held, _, premise, _, _, _, fresh, stored⟩ := running.step claimed work
      have count : (storedConclusions (engine.step root).stores).ncard =
          (storedConclusions engine.stores).ncard + 1 := by
        rw [stored, Set.ncard_insert_of_notMem fresh (running.room valid within ranged).1]
      have same : (engine.step root).dispatcher = engine.dispatcher := after.dispatcher.trans running.dispatcher.symm
      obtain ⟨finish, steps, last, idle, grown, _⟩ := ih after held (by rw [same, count]; omega)
        (after.room valid within ranged).2
      exact ⟨finish, .head step steps, last, idle, by omega, fun _ => by omega⟩
    · rename_i work
      exact ⟨running, .refl, claimed, Bool.eq_false_of_not_eq_true work, Nat.le_refl _, fun more => absurd more work⟩

/-- The run lemma of the outer loop. -/
theorem SaturationEngine.Running.runActive (fuel : Nat) (running : engine.Running compiled properties demanded)
    (unclaimed : engine.claimedRoot = none)
    (enough : engine.dispatcher.conclusionLimit < fuel + (storedConclusions engine.stores).ncard) :
    (engine.runActive fuel).Running compiled properties demanded ∧
      Relation.ReflTransGen (ScheduleStep (RuleDispatcher.new compiled properties) demanded) engine.stores
        (engine.runActive fuel).stores ∧
      (engine.runActive fuel).claimedRoot = none ∧ (engine.runActive fuel).active = [] := by
  have limit : (storedConclusions engine.stores).ncard ≤ engine.dispatcher.conclusionLimit :=
    (running.room valid within ranged).2
  induction fuel generalizing engine with
  | zero => omega
  | succ fuel ih =>
    rw [SaturationEngine.runActive]
    split
    · rename_i finished
      exact ⟨running, .refl, unclaimed, finished⟩
    · rename_i root rest active
      obtain ⟨claimed, stores⟩ := running.claim active unclaimed
      have busy : (engine.claim root rest).hasLocalWork root = true := by
        obtain ⟨state, found, same, queued⟩ :=
          (running.scheduled.active_iff root).mp (by rw [active]; exact List.mem_cons_self)
        have work := running.scheduled.queuedWork state found queued
        have member : { state with queued := false, saturated := false } ∈ (engine.claim root rest).contexts :=
          mem_modify.mpr (Or.inl ⟨state, found, same, rfl⟩)
        by_contra idle
        exact work (claimed.unfinished (Bool.eq_false_of_not_eq_true idle)
            { state with queued := false, saturated := false } member same)
      obtain ⟨drained, steps, held, idle, _, grown⟩ := claimed.drain valid within ranged
        (engine.dispatcher.conclusionLimit + 1) rfl (by
          show engine.dispatcher.conclusionLimit < _
          omega)
      obtain ⟨released, same⟩ := drained.release held idle
      have dispatcher : (((engine.claim root rest).drain (engine.dispatcher.conclusionLimit + 1) root).release
          root).dispatcher = engine.dispatcher := released.dispatcher.trans running.dispatcher.symm
      have more := grown busy
      rw [stores] at more steps
      obtain ⟨finish, after, last, empty⟩ := ih released rfl (by rw [dispatcher, same]; omega)
        (released.room valid within ranged).2
      rw [same] at after
      exact ⟨finish, steps.trans after, last, empty⟩

/-- `run` ends, whatever was saturated before, in a state where nothing is left
to schedule. -/
theorem SaturationEngine.Running.complete {roots : List ExpressionId}
    (running : engine.Running compiled properties demanded) (unclaimed : engine.claimedRoot = none)
    (members : ∀ root ∈ roots, root ∈ demanded) :
    (engine.complete roots).Running compiled properties demanded ∧
      Relation.ReflTransGen (ScheduleStep (RuleDispatcher.new compiled properties) demanded) engine.stores
        (engine.complete roots).stores ∧
      (engine.complete roots).claimedRoot = none ∧ (engine.complete roots).active = [] ∧
      (∀ state ∈ (engine.complete roots).stores, state.todo = []) ∧
      roots ⊆ (engine.complete roots).stores.map (·.root) := by
  obtain ⟨ensured, demands, claimed, allocated⟩ := running.ensureAll (sortedSet id roots)
    fun root member => members root (mem_sortedSet.mp member)
  have dispatcher : ((sortedSet id roots).foldl SaturationEngine.ensureContext engine).dispatcher =
      engine.dispatcher := ensured.dispatcher.trans running.dispatcher.symm
  obtain ⟨finish, steps, last, empty⟩ := ensured.runActive valid within ranged (engine.dispatcher.conclusionLimit + 1)
    (claimed.trans unclaimed) (by rw [dispatcher]; omega)
  refine ⟨finish, demands.trans steps, last, empty, ?_, ?_⟩
  · intro store member
    obtain ⟨state, found, rfl⟩ := List.mem_map.mp member
    by_contra work
    rcases finish.scheduled.work state found work with queued | held
    · have listed := (finish.scheduled.active_iff state.root).mpr ⟨state, found, rfl, queued⟩
      rw [empty] at listed
      exact List.not_mem_nil listed
    · rw [last] at held
      exact Option.some_ne_none _ held.symm
  · intro root member
    exact schedule_roots_sub steps (allocated (mem_sortedSet.mpr member))

end

end

end PyElk
