import Mathlib.Data.List.Forall2
import PyElk.Native.Dispatch

open Ordered

namespace PyElk.Native

/-- The accepted conclusions that have left the agenda. -/
def SaturationWorkspace.stored (workspace : SaturationWorkspace) : Set Conclusion :=
  {c | c ∈ workspace.accepted ∧ c ∉ workspace.agenda}

/-- The invariant of the native loop. As in `PyElk.Saturating`, the consequences
of the `processed` premises are accepted. -/
structure SaturationWorkspace.Progressing (workspace : SaturationWorkspace) (ontology : Tables)
    (properties : PropertySaturation) (roots : Set ExpressionId) (processed : Set Conclusion) : Prop where
  dispatcher : workspace.dispatcher = RuleDispatcher.new ontology properties
  distinct : (workspace.contexts.map Context.root).Nodup
  agenda : workspace.agenda.Nodup
  pending : ∀ c ∈ workspace.agenda, c ∈ workspace.accepted
  owner : ∀ c ∈ workspace.accepted, c.destination ∈ workspace.contexts.map Context.root
  mirrors : ∀ state ∈ workspace.contexts, state.Mirrors workspace.stored
  progress : Worklist.Progress (inferenceRules ontology properties) (Conclusion.contextInitialization '' roots)
    processed {c | c ∈ workspace.accepted}

/-- Every allocated context has been seeded. -/
def SaturationWorkspace.Seeded (workspace : SaturationWorkspace) : Prop :=
  ∀ state ∈ workspace.contexts, .contextInitialization state.root ∈ workspace.accepted

section

variable {ontology : Tables} {properties : PropertySaturation} {roots : Set ExpressionId}
  {processed : Set Conclusion} {workspace : SaturationWorkspace} {root : ExpressionId} {conclusion : Conclusion}

theorem SaturationWorkspace.mem_enqueueRaw {c : Conclusion} :
    c ∈ (workspace.enqueueRaw conclusion).accepted ↔ c = conclusion ∨ c ∈ workspace.accepted := by
  unfold enqueueRaw
  split
  · rename_i known
    constructor
    · exact Or.inr
    · rintro (rfl | old)
      · exact known
      · exact old
  · exact List.mem_cons

theorem SaturationWorkspace.enqueueRaw_contexts :
    (workspace.enqueueRaw conclusion).contexts = workspace.contexts := by
  unfold enqueueRaw
  split <;> rfl

/-- A candidate does not change what is stored. -/
theorem SaturationWorkspace.enqueueRaw_stored :
    (workspace.enqueueRaw conclusion).stored = workspace.stored := by
  unfold enqueueRaw
  split
  · rfl
  · rename_i novel
    ext c
    simp only [stored, List.mem_cons, List.mem_append, List.not_mem_nil, or_false, Set.mem_ofPred_eq, not_or]
    constructor
    · rintro ⟨rfl | old, quiet, different⟩
      · exact absurd rfl different
      · exact ⟨old, quiet⟩
    · rintro ⟨old, quiet⟩
      exact ⟨Or.inr old, quiet, fun same => novel (same ▸ old)⟩

theorem SaturationWorkspace.Progressing.enqueueRaw
    (progressing : workspace.Progressing ontology properties roots processed)
    (allocated : conclusion.destination ∈ workspace.contexts.map Context.root)
    (derivable : Derivable ontology properties roots conclusion) :
    (workspace.enqueueRaw conclusion).Progressing ontology properties roots processed := by
  have accepted : {c | c ∈ workspace.accepted} ⊆ {c | c ∈ (workspace.enqueueRaw conclusion).accepted} :=
    fun c old => mem_enqueueRaw.mpr (Or.inr old)
  refine ⟨?_, ?_, ?_, ?_, ?_, ?_, progressing.progress.grow accepted ?_⟩
  · rw [← progressing.dispatcher]
    unfold SaturationWorkspace.enqueueRaw
    split <;> rfl
  · rw [enqueueRaw_contexts]
    exact progressing.distinct
  · unfold SaturationWorkspace.enqueueRaw
    split
    · exact progressing.agenda
    · rename_i novel
      refine List.nodup_append.mpr ⟨progressing.agenda, List.nodup_singleton _, ?_⟩
      intro left member right single same
      rw [same, List.mem_singleton.mp single] at member
      exact novel (progressing.pending _ member)
  · intro c member
    rw [mem_enqueueRaw]
    unfold SaturationWorkspace.enqueueRaw at member
    split at member
    · exact Or.inr (progressing.pending c member)
    · rcases List.mem_append.mp member with old | new
      · exact Or.inr (progressing.pending c old)
      · exact Or.inl (List.mem_singleton.mp new)
  · rw [enqueueRaw_contexts]
    intro c member
    rcases mem_enqueueRaw.mp member with rfl | old
    · exact allocated
    · exact progressing.owner c old
  · rw [enqueueRaw_contexts, enqueueRaw_stored]
    exact progressing.mirrors
  · intro c member
    rcases mem_enqueueRaw.mp member with rfl | old
    · exact Or.inr derivable
    · exact Or.inl old

/-- Allocating a context keeps the invariant, and only refuses a root outside the
ontology. -/
theorem SaturationWorkspace.Progressing.ensureContext
    (progressing : workspace.Progressing ontology properties roots processed) (seeded : workspace.Seeded)
    (ranged : root < ontology.expressions.length)
    (derivable : Derivable ontology properties roots (.contextInitialization root)) :
    ∃ after, workspace.ensureContext root = some after ∧ after.Progressing ontology properties roots processed ∧
      after.Seeded ∧ after.stored = workspace.stored ∧ (∀ c ∈ workspace.accepted, c ∈ after.accepted) ∧
      root ∈ after.contexts.map Context.root := by
  have check : root < workspace.dispatcher.ontology.expressions.length := by
    rw [progressing.dispatcher]
    exact ranged
  rw [SaturationWorkspace.ensureContext, if_pos check]
  split
  · rename_i found
    obtain ⟨state, member, same⟩ := List.any_eq_true.mp found
    exact ⟨workspace, rfl, progressing, seeded, rfl, fun _ old => old,
      List.mem_map.mpr ⟨state, member, beq_iff_eq.mp same⟩⟩
  · rename_i novel
    have absent : ∀ state ∈ workspace.contexts, state.root ≠ root := fun state member same =>
      novel (List.any_eq_true.mpr ⟨state, member, beq_iff_eq.mpr same⟩)
    have grown : workspace.contexts.map Context.root ⊆
        (workspace.contexts ++ [({ root := root } : Context)]).map Context.root := by
      rw [List.map_append]
      exact List.subset_append_left _ _
    have allocated : root ∈ (workspace.contexts ++ [({ root := root } : Context)]).map Context.root := by
      rw [List.map_append]
      exact List.mem_append_right _ (List.mem_singleton.mpr rfl)
    have extended : SaturationWorkspace.Progressing
        { workspace with contexts := workspace.contexts ++ [{ root := root }] } ontology properties roots
          processed := by
      refine ⟨progressing.dispatcher, ?_, progressing.agenda, progressing.pending, ?_, ?_, progressing.progress⟩
      · rw [List.map_append, List.nodup_append]
        refine ⟨progressing.distinct, List.nodup_singleton _, ?_⟩
        intro left member right single same
        obtain ⟨state, found, rfl⟩ := List.mem_map.mp member
        exact absent state found (same.trans (List.mem_singleton.mp single))
      · exact fun c member => grown (progressing.owner c member)
      · intro state member
        rcases List.mem_append.mp member with old | new
        · exact progressing.mirrors state old
        · rw [List.mem_singleton.mp new]
          intro c owned
          refine iff_of_false ?_ ?_
          · cases c <;> simp [Context.Holds]
          · rintro ⟨accepted, _⟩
            obtain ⟨state, found, same⟩ := List.mem_map.mp (progressing.owner c accepted)
            exact absent state found (same.trans owned)
    refine ⟨_, rfl, extended.enqueueRaw allocated derivable, ?_, enqueueRaw_stored,
      fun c old => mem_enqueueRaw.mpr (Or.inr old), ?_⟩
    · intro state member
      rw [enqueueRaw_contexts] at member
      rcases List.mem_append.mp member with old | new
      · exact mem_enqueueRaw.mpr (Or.inr (seeded state old))
      · rw [List.mem_singleton.mp new]
        exact mem_enqueueRaw.mpr (Or.inl rfl)
    · rw [enqueueRaw_contexts]
      exact allocated

/-- Demanding roots or publishing products, one after the other. -/
theorem SaturationWorkspace.Progressing.ensureAll (demanded : List ExpressionId)
    (progressing : workspace.Progressing ontology properties roots processed) (seeded : workspace.Seeded)
    (members : ∀ root ∈ demanded, root < ontology.expressions.length ∧ root ∈ roots) :
    ∃ after, demanded.foldlM SaturationWorkspace.ensureContext workspace = some after ∧
      after.Progressing ontology properties roots processed ∧ after.Seeded ∧ after.stored = workspace.stored ∧
      (∀ c ∈ workspace.accepted, c ∈ after.accepted) ∧
      ∀ root ∈ demanded, .contextInitialization root ∈ after.accepted := by
  induction demanded generalizing workspace with
  | nil =>
    exact ⟨workspace, rfl, progressing, seeded, rfl, fun _ old => old, fun _ member => absurd member List.not_mem_nil⟩
  | cons first rest ih =>
    obtain ⟨ranged, demanded⟩ := members first List.mem_cons_self
    obtain ⟨next, step, progressing, seeded, stored, kept, present⟩ :=
      progressing.ensureContext seeded ranged (.start ⟨first, demanded, rfl⟩)
    obtain ⟨after, steps, progressing', seeded', stored', kept', all⟩ :=
      ih progressing seeded fun root member => members root (List.mem_cons_of_mem _ member)
    refine ⟨after, ?_, progressing', seeded', stored'.trans stored, fun c old => kept' c (kept c old), ?_⟩
    · rw [List.foldlM_cons, step]
      exact steps
    · intro root member
      rcases List.mem_cons.mp member with rfl | member
      · obtain ⟨state, found, rfl⟩ := List.mem_map.mp present
        exact kept' _ (seeded state found)
      · exact all root member

theorem SaturationWorkspace.Progressing.enqueueAll (valid : ontology.Valid) (within : properties.Scoped ontology)
    (ranged : ∀ root ∈ roots, root < ontology.expressions.length) (products : List Conclusion)
    (progressing : workspace.Progressing ontology properties roots processed) (seeded : workspace.Seeded)
    (derivable : ∀ c ∈ products, Derivable ontology properties roots c) :
    ∃ after, products.foldlM SaturationWorkspace.enqueue workspace = some after ∧
      after.Progressing ontology properties roots processed ∧ after.Seeded ∧ after.stored = workspace.stored ∧
      (∀ c ∈ workspace.accepted, c ∈ after.accepted) ∧ ∀ c ∈ products, c ∈ after.accepted := by
  induction products generalizing workspace with
  | nil =>
    exact ⟨workspace, rfl, progressing, seeded, rfl, fun _ old => old, fun _ member => absurd member List.not_mem_nil⟩
  | cons product rest ih =>
    have derived := derivable product List.mem_cons_self
    have inRange := (Derivable.inRange valid within ranged derived).destination
    obtain ⟨next, step, progressing, seeded, stored, kept, present⟩ :=
      progressing.ensureContext seeded inRange (.unary derived (.contextInitialization product))
    have enqueued := progressing.enqueueRaw present derived
    have seededNext : (next.enqueueRaw product).Seeded := by
      intro state member
      rw [enqueueRaw_contexts] at member
      exact mem_enqueueRaw.mpr (Or.inr (seeded state member))
    obtain ⟨after, steps, progressing', seeded', stored', kept', all⟩ :=
      ih enqueued seededNext fun c member => derivable c (List.mem_cons_of_mem _ member)
    refine ⟨after, ?_, progressing', seeded', stored'.trans (enqueueRaw_stored.trans stored), ?_, ?_⟩
    · rw [List.foldlM_cons, SaturationWorkspace.enqueue, step]
      exact steps
    · exact fun c old => kept' c (mem_enqueueRaw.mpr (Or.inr (kept c old)))
    · intro c member
      rcases List.mem_cons.mp member with rfl | member
      · exact kept' c (mem_enqueueRaw.mpr (Or.inl rfl))
      · exact all c member

/-- The workspace after the loop popped `premise` and inserted it into its context, before any product
is published. -/
def SaturationWorkspace.pop (workspace : SaturationWorkspace) (premise : Conclusion) (rest : List Conclusion) :
    SaturationWorkspace :=
  { workspace with
    contexts := workspace.contexts.map fun other =>
      if other.root == premise.destination then other.index premise else other
    agenda := rest }

theorem SaturationWorkspace.pop_roots {premise : Conclusion} {rest : List Conclusion} :
    (workspace.pop premise rest).contexts.map Context.root = workspace.contexts.map Context.root := by
  rw [pop, List.map_map]
  refine List.map_congr_left fun state _ => ?_
  rw [Function.comp_apply]
  split
  · exact Context.index_root
  · rfl

/-- The popped premise is what the pop stores. -/
theorem SaturationWorkspace.pop_stored {premise : Conclusion} {rest : List Conclusion}
    (front : workspace.agenda = premise :: rest) (last : premise ∉ rest) (accepted : premise ∈ workspace.accepted) :
    (workspace.pop premise rest).stored = insert premise workspace.stored := by
  ext c
  simp only [pop, stored, front, List.mem_cons, Set.mem_ofPred_eq, Set.mem_insert_iff, not_or]
  constructor
  · rintro ⟨known, quiet⟩
    by_cases here : c = premise
    · exact Or.inl here
    · exact Or.inr ⟨known, here, quiet⟩
  · rintro (rfl | ⟨known, _, quiet⟩)
    · exact ⟨accepted, last⟩
    · exact ⟨known, quiet⟩

/-- The context that a pending premise belongs to. -/
theorem SaturationWorkspace.Progressing.owned
    (progressing : workspace.Progressing ontology properties roots processed)
    {premise : Conclusion} (accepted : premise ∈ workspace.accepted) :
    ∃ owner ∈ workspace.contexts, premise.destination = owner.root ∧
      workspace.contexts.find? (fun state => state.root == premise.destination) = some owner ∧
      ∀ rest, ∀ state ∈ (workspace.pop premise rest).contexts,
        state = owner.index premise ∨ (state ∈ workspace.contexts ∧ state.root ≠ premise.destination) := by
  obtain ⟨owner, allocated, same⟩ := List.mem_map.mp (progressing.owner premise accepted)
  have only : ∀ state ∈ workspace.contexts, state.root = premise.destination → state = owner :=
    fun state found root =>
    List.inj_on_of_nodup_map progressing.distinct found allocated (root.trans same.symm)
  refine ⟨owner, allocated, same.symm, ?_, fun rest state member => ?_⟩
  · have present : (workspace.contexts.find? fun state => state.root == premise.destination).isSome :=
      List.find?_isSome.mpr ⟨owner, allocated, beq_iff_eq.mpr same⟩
    obtain ⟨state, search⟩ := Option.isSome_iff_exists.mp present
    have root := List.find?_some search
    rw [search, only state (List.mem_of_find?_eq_some search) (beq_iff_eq.mp root)]
  · obtain ⟨old, before, rfl⟩ := List.mem_map.mp member
    split
    · rename_i here
      rw [only old before (beq_iff_eq.mp here)]
      exact Or.inl rfl
    · rename_i elsewhere
      exact Or.inr ⟨before, fun here => elsewhere (beq_iff_eq.mpr here)⟩

/-- The pop keeps the invariant: the premise is stored, its consequences are still due. -/
theorem SaturationWorkspace.Progressing.pop {premise : Conclusion} {rest : List Conclusion}
    (progressing : workspace.Progressing ontology properties roots processed)
    (front : workspace.agenda = premise :: rest) :
    (workspace.pop premise rest).Progressing ontology properties roots processed := by
  have accepted := progressing.pending premise (front ▸ List.mem_cons_self)
  have agenda := progressing.agenda
  rw [front, List.nodup_cons] at agenda
  obtain ⟨owner, allocated, same, _, contexts⟩ := progressing.owned accepted
  refine ⟨progressing.dispatcher, ?_, agenda.2, ?_, ?_, ?_, progressing.progress⟩
  · rw [pop_roots]
    exact progressing.distinct
  · exact fun c member => progressing.pending c (front ▸ List.mem_cons_of_mem _ member)
  · rw [pop_roots]
    exact progressing.owner
  · intro state member
    rw [pop_stored front agenda.1 accepted]
    rcases contexts rest state member with rfl | ⟨before, elsewhere⟩
    · exact (progressing.mirrors owner allocated).index same
    · intro c owned
      refine (progressing.mirrors state before c owned).trans ⟨Or.inr, ?_⟩
      rintro (rfl | old)
      · exact absurd owned.symm elsewhere
      · exact old

/-- The step lemma of the native loop. -/
theorem SaturationWorkspace.Progressing.step (valid : ontology.Valid) (within : properties.Scoped ontology)
    (ranged : ∀ root ∈ roots, root < ontology.expressions.length) (clear : ontology.Clear properties roots)
    {premise : Conclusion} {rest : List Conclusion}
    (progressing : workspace.Progressing ontology properties roots workspace.stored) (seeded : workspace.Seeded)
    (front : workspace.agenda = premise :: rest) :
    ∃ after, workspace.step premise rest = some after ∧
      after.Progressing ontology properties roots after.stored ∧ after.Seeded ∧
      after.stored = insert premise workspace.stored ∧ premise ∉ workspace.stored ∧
      ∀ c ∈ workspace.accepted, c ∈ after.accepted := by
  have queued : premise ∈ workspace.agenda := front ▸ List.mem_cons_self
  have accepted := progressing.pending premise queued
  have agenda := progressing.agenda
  rw [front, List.nodup_cons] at agenda
  obtain ⟨owner, allocated, same, found, contexts⟩ := progressing.owned accepted
  have mirrors := (progressing.mirrors owner allocated).index same
  have ownerIndex : premise.destination = (owner.index premise).root := same.trans Context.index_root.symm
  have derived := progressing.progress.sound premise accepted
  have unfolded : workspace.step premise rest =
      (workspace.dispatcher.dispatch (owner.index premise) premise).foldlM SaturationWorkspace.enqueue
        (workspace.pop premise rest) := by
    rw [SaturationWorkspace.step, found]
    rfl
  have seededPopped : (workspace.pop premise rest).Seeded := by
    intro state member
    rcases contexts rest state member with rfl | ⟨before, _⟩
    · rw [Context.index_root]
      exact seeded owner allocated
    · exact seeded state before
  have products : ∀ c, c ∈ workspace.dispatcher.dispatch (owner.index premise) premise ↔
      c ∈ (PyElk.RuleDispatcher.new ontology properties).products (owner.index premise) premise := by
    intro c
    rw [progressing.dispatcher]
    refine RuleDispatcher.mem_dispatch valid ownerIndex fun d x premiseEq => ?_
    subst premiseEq
    exact clear d x derived
  have derivable : ∀ c ∈ workspace.dispatcher.dispatch (owner.index premise) premise,
      Derivable ontology properties roots c := by
    have sound : ∀ c ∈ insert premise workspace.stored, Derivable ontology properties roots c := by
      rintro c (rfl | ⟨known, _⟩)
      · exact derived
      · exact progressing.progress.sound c known
    intro c member
    rcases dispatch_sound mirrors ownerIndex ((products c).mp member) with unary | ⟨q, old, binary⟩
    · exact .unary derived unary
    · rcases binary with left | right
      · exact .binary derived (sound q old) left
      · exact .binary (sound q old) derived right
  obtain ⟨after, run, finished, seededAfter, storedAfter, kept, published⟩ :=
    (progressing.pop front).enqueueAll valid within ranged _ seededPopped derivable
  rw [pop_stored front agenda.1 accepted] at storedAfter
  refine ⟨after, unfolded.trans run, ⟨finished.dispatcher, finished.distinct, finished.agenda, finished.pending,
    finished.owner, finished.mirrors, ?_⟩, seededAfter, storedAfter, fun stored => stored.2 queued, kept⟩
  rw [storedAfter]
  refine finished.progress.process (kept premise accepted) ?_ ?_ ?_
  · intro c rule
    rcases dispatch_unary ownerIndex rule with rfl | product
    · rw [Context.index_root]
      exact kept _ (seeded owner allocated)
    · exact published c ((products c).mpr product)
  · intro q c old rule
    exact published c ((products c).mpr (dispatch_binary_left mirrors ownerIndex old rule))
  · intro q c old rule
    exact published c ((products c).mpr (dispatch_binary_right mirrors ownerIndex old rule))

/-- The run lemma of the native loop. -/
theorem SaturationWorkspace.Progressing.loop (valid : ontology.Valid) (within : properties.Scoped ontology)
    (ranged : ∀ root ∈ roots, root < ontology.expressions.length)
    (clear : ontology.Clear properties roots) (fuel : Nat)
    (progressing : workspace.Progressing ontology properties roots workspace.stored) (seeded : workspace.Seeded)
    (enough : (PyElk.RuleDispatcher.new ontology properties).conclusionLimit < fuel + workspace.stored.ncard) :
    ∃ after, SaturationWorkspace.loop fuel workspace = some after ∧
      after.Progressing ontology properties roots after.stored ∧ after.Seeded ∧ after.agenda = [] ∧
      ∀ c ∈ workspace.accepted, c ∈ after.accepted := by
  have limit : workspace.stored.Finite ∧
      workspace.stored.ncard ≤ (PyElk.RuleDispatcher.new ontology properties).conclusionLimit :=
    derivable_ncard_le valid within ranged fun c stored => progressing.progress.sound c stored.1
  induction fuel generalizing workspace with
  | zero => omega
  | succ fuel ih =>
    rw [SaturationWorkspace.loop]
    split
    · rename_i empty
      exact ⟨workspace, rfl, progressing, seeded, empty, fun _ old => old⟩
    · rename_i premise rest front
      obtain ⟨next, step, progressing', seeded', stored, fresh, kept⟩ :=
        progressing.step valid within ranged clear seeded front
      have count : next.stored.ncard = workspace.stored.ncard + 1 := by
        rw [stored, Set.ncard_insert_of_notMem fresh limit.1]
      obtain ⟨after, run, finished, seededAfter, empty, keptAfter⟩ := ih progressing' seeded' (by omega)
        (derivable_ncard_le valid within ranged fun c member => progressing'.progress.sound c member.1)
      refine ⟨after, ?_, finished, seededAfter, empty, fun c old => keptAfter c (kept c old)⟩
      rw [step]
      exact run

/-- `saturate` clears the workspace and computes the derivable conclusions. -/
theorem SaturationWorkspace.fixpoint_spec (valid : ontology.Valid) (within : properties.Scoped ontology)
    {demanded : List ExpressionId} (ranged : ∀ root ∈ demanded, root < ontology.expressions.length)
    (clear : ontology.Clear properties {root | root ∈ demanded})
    (dispatcher : workspace.dispatcher = RuleDispatcher.new ontology properties) :
    ∃ after, workspace.saturate demanded = some after ∧ after.dispatcher = workspace.dispatcher ∧
      (after.contexts.map Context.root).Nodup ∧
      (∀ root, root ∈ after.contexts.map Context.root ↔
        Derivable ontology properties {root | root ∈ demanded} (.contextInitialization root)) ∧
      ∀ state ∈ after.contexts, state.Mirrors {c | Derivable ontology properties {root | root ∈ demanded} c} := by
  have empty : workspace.reset.Progressing ontology properties {root | root ∈ demanded} workspace.reset.stored := by
    have stored : workspace.reset.stored = ∅ := by simp [SaturationWorkspace.stored, SaturationWorkspace.reset]
    have accepted : {c | c ∈ workspace.reset.accepted} = (∅ : Set Conclusion) := by simp [SaturationWorkspace.reset]
    refine ⟨dispatcher, List.nodup_nil, List.nodup_nil, ?_, ?_, ?_, ?_⟩
    · exact fun _ member => absurd member List.not_mem_nil
    · exact fun _ member => absurd member List.not_mem_nil
    · exact fun _ member => absurd member List.not_mem_nil
    · rw [stored, accepted]
      exact .empty
  obtain ⟨started, demands, progressing, seeded, stored, _, present⟩ := empty.ensureAll (sortedSet id demanded)
    (fun _ member => absurd member List.not_mem_nil) fun root member =>
      ⟨ranged root (mem_sortedSet.mp member), mem_sortedSet.mp member⟩
  rw [← stored] at progressing
  obtain ⟨after, run, finished, seededAfter, idle, kept⟩ := progressing.loop valid within ranged clear
    ((PyElk.RuleDispatcher.new ontology properties).conclusionLimit + 1) seeded (by omega)
  have storedAfter : after.stored = {c | c ∈ after.accepted} := by
    ext c
    simp [SaturationWorkspace.stored, idle]
  have progress := finished.progress
  rw [storedAfter] at progress
  have least : ∀ c, c ∈ after.accepted ↔ Derivable ontology properties {root | root ∈ demanded} c := by
    refine progress.finish ?_ subset_rfl
    rintro _ ⟨root, member, rfl⟩
    exact kept _ (present root (mem_sortedSet.mpr member))
  refine ⟨after, ?_, finished.dispatcher.trans dispatcher.symm, finished.distinct, ?_, ?_⟩
  · rw [SaturationWorkspace.saturate, demands, dispatcher]
    exact run
  · intro root
    rw [← least]
    constructor
    · intro present
      obtain ⟨state, allocated, rfl⟩ := List.mem_map.mp present
      exact seededAfter state allocated
    · exact finished.owner (.contextInitialization root)
  · intro state member c owned
    rw [finished.mirrors state member c owned, storedAfter]
    exact least c

end

section

variable {ontology : Tables} {workspace : SaturationWorkspace} {root : ExpressionId} {roots : List ExpressionId}

theorem demandedRoots_singleton : demandedRoots [roots] = {root | root ∈ roots} := by
  ext root
  simp [demandedRoots]

/-- The snapshot of the Python engine. -/
theorem SaturationWorkspace.run_eq (valid : ontology.Valid)
    (ranged : ∀ root ∈ roots, root < ontology.expressions.length)
    (clear : ontology.Clear (closeProperties ontology) (demandedRoots [roots]))
    (dispatcher : workspace.dispatcher = RuleDispatcher.new ontology (closeProperties ontology)) :
    ∃ after, workspace.run roots = some ((ontology.fixpoint [roots]).snapshot, after) := by
  have rangedBatch : ∀ root ∈ demandedRoots [roots], root < ontology.expressions.length := by
    rw [demandedRoots_singleton]
    exact ranged
  rw [demandedRoots_singleton] at clear
  obtain ⟨after, run, _, distinct, allocated, mirrors⟩ :=
    SaturationWorkspace.fixpoint_spec valid (closeProperties_scoped valid) ranged clear dispatcher
  rw [← demandedRoots_singleton] at allocated mirrors
  obtain ⟨running, _, quiescent⟩ := ontology.fixpoint_spec valid rangedBatch
  have least := running.saturating.least quiescent
  have same : snapshotContexts after.contexts = (ontology.fixpoint [roots]).snapshot := by
    refine snapshotContexts_congr distinct ?_ ?_ mirrors ?_
    · have distinct := running.saturating.distinct
      rw [SaturationEngine.stores, List.map_map] at distinct
      rw [List.map_map]
      exact distinct
    · intro root
      rw [allocated, ← least]
      constructor
      · intro stored
        obtain ⟨store, member, rfl⟩ := (running.saturating.allocated_iff quiescent root).mpr (Or.inr ⟨_, stored, rfl⟩)
        obtain ⟨state, found, rfl⟩ := List.mem_map.mp member
        exact List.mem_map.mpr ⟨state.toContext, List.mem_map.mpr ⟨state, found, rfl⟩, rfl⟩
      · intro present
        obtain ⟨context, listed, rfl⟩ := List.mem_map.mp present
        obtain ⟨state, found, rfl⟩ := List.mem_map.mp listed
        rw [least]
        exact running.saturating.progress.sound _
          (running.saturating.activated state.toContextStore (List.mem_map.mpr ⟨state, found, rfl⟩))
    · intro context listed c owned
      obtain ⟨state, found, rfl⟩ := List.mem_map.mp listed
      exact running.saturating.holds_iff quiescent (List.mem_map.mpr ⟨state, found, rfl⟩) owned
  refine ⟨{ after with contexts := [] }, ?_⟩
  rw [SaturationWorkspace.run, run, Option.map_some, same]

/-- `run_root` takes out the frozen context of the Python engine, whatever the
workspace was used for before. -/
theorem SaturationWorkspace.runRoot_eq (valid : ontology.Valid) (ranged : root < ontology.expressions.length)
    (clear : ontology.Clear (closeProperties ontology) {root})
    (dispatcher : workspace.dispatcher = RuleDispatcher.new ontology (closeProperties ontology)) :
    ∃ context after, workspace.runRoot root = some (context, after) ∧ after.dispatcher = workspace.dispatcher ∧
      ((ontology.fixpoint [[root]]).contextState root).map (fun state => state.toContext.freeze) = some context := by
  have single : demandedRoots [[root]] = {root} := by
    ext other
    simp [demandedRoots]
  have listed : {other | other ∈ [root]} = ({root} : Set ExpressionId) := by
    ext other
    simp
  have rangedSingle : ∀ other ∈ [root], other < ontology.expressions.length := by
    intro other member
    rw [List.mem_singleton.mp member]
    exact ranged
  obtain ⟨after, run, keeps, _, allocated, mirrors⟩ := SaturationWorkspace.fixpoint_spec valid
    (closeProperties_scoped valid) rangedSingle (listed ▸ clear) dispatcher
  have started : Derivable ontology (closeProperties ontology) {other | other ∈ [root]}
      (.contextInitialization root) := .start ⟨root, List.mem_singleton.mpr rfl, rfl⟩
  obtain ⟨context, member, same⟩ := List.mem_map.mp ((allocated root).mpr started)
  have present : (after.contexts.find? fun context => context.root == root).isSome :=
    List.find?_isSome.mpr ⟨context, member, beq_iff_eq.mpr same⟩
  obtain ⟨taken, search⟩ := Option.isSome_iff_exists.mp present
  have takenRoot := List.find?_some search
  rw [beq_iff_eq] at takenRoot
  rw [← demandedRoots_singleton] at started mirrors
  obtain ⟨state, found, root_eq, holds⟩ := Tables.contextState_fixpoint valid
    (fun other member => rangedSingle other (by rwa [demandedRoots_singleton] at member)) started
  refine ⟨taken.freeze, { after with contexts := after.contexts.filter (·.root != root) }, ?_, keeps, ?_⟩
  · rw [SaturationWorkspace.runRoot, run, Option.bind_some, search]
    rfl
  · rw [found, Option.map_some]
    refine congrArg some (Context.freeze_congr (root_eq.trans takenRoot.symm) fun c owned => ?_)
    rw [holds c (owned.trans root_eq)]
    exact (mirrors taken (List.mem_of_find?_eq_some search) c (owned.trans (root_eq.trans takenRoot.symm))).symm

theorem SaturationWorkspace.runEach_spec (valid : ontology.Valid) (roots : List ExpressionId)
    {workspace : SaturationWorkspace} (ranged : ∀ root ∈ roots, root < ontology.expressions.length)
    (clear : ∀ root ∈ roots, ontology.Clear (closeProperties ontology) {root})
    (dispatcher : workspace.dispatcher = RuleDispatcher.new ontology (closeProperties ontology)) :
    ∃ contexts after, workspace.runEach roots = some (contexts, after) ∧
      List.Forall₂ (fun root context =>
        ((ontology.fixpoint [[root]]).contextState root).map (fun state => state.toContext.freeze) = some context)
        roots contexts := by
  induction roots generalizing workspace with
  | nil => exact ⟨[], workspace, rfl, .nil⟩
  | cons root rest ih =>
    obtain ⟨context, next, run, keeps, same⟩ :=
      runRoot_eq valid (ranged root List.mem_cons_self) (clear root List.mem_cons_self) dispatcher
    obtain ⟨contexts, after, runs, all⟩ := ih (fun root member => ranged root (List.mem_cons_of_mem _ member))
      (fun root member => clear root (List.mem_cons_of_mem _ member)) (keeps.trans dispatcher)
    refine ⟨context :: contexts, after, ?_, .cons same all⟩
    rw [SaturationWorkspace.runEach, run, Option.bind_some]
    simp only [runs, Option.map_some]

end

/-- Both cores return on the demanded roots and have the same contexts, and a native workspace
that is used for one root after the other returns for each root what a fresh workspace returns. -/
def SaturatesAlike (ontology : Tables) (roots : List ExpressionId) : Prop :=
  ∃ engine properties, ontology.saturate [roots] = .ok engine ∧ buildPropertyClosure ontology = .ok properties ∧
    saturateRoots ontology properties roots = some engine.snapshot ∧
    ∃ contexts workspace, (SaturationWorkspace.new ontology properties).runEach roots = some (contexts, workspace) ∧
      List.Forall₂ (fun root context =>
        ((SaturationWorkspace.new ontology properties).runRoot root).map Prod.fst = some context ∧
        ∃ alone, ontology.saturate [[root]] = .ok alone ∧
          (alone.contextState root).map (fun state => state.toContext.freeze) = some context)
        roots contexts

/-- Where every id has room and no crowded subsumer is derived, the cores agree. -/
theorem saturatesAlike_of_clear {ontology : Tables} (valid : ontology.Valid) {roots : List ExpressionId}
    (ranged : ∀ root ∈ roots, root < ontology.expressions.length) (numbered : ontology.Numbered)
    (clear : ontology.Clear (closeProperties ontology) {root | root ∈ roots}) : SaturatesAlike ontology roots := by
  have single : ∀ root, demandedRoots [[root]] = {root} := by
    intro root
    ext other
    simp [demandedRoots]
  have alone : ∀ root ∈ roots, ontology.Clear (closeProperties ontology) {root} :=
    fun root member => clear.mono (Set.singleton_subset_iff.mpr member)
  have clearBatch : ontology.Clear (closeProperties ontology) (demandedRoots [roots]) := by
    rw [demandedRoots_singleton]
    exact clear
  have rangedBatch : ∀ root ∈ demandedRoots [roots], root < ontology.expressions.length := by
    rw [demandedRoots_singleton]
    exact ranged
  have returns : ∀ root ∈ roots, ontology.saturate [[root]] = .ok (ontology.fixpoint [[root]]) := by
    intro root member
    refine (Tables.saturate_returns valid ?_).mpr ⟨numbered, ?_⟩
    · rw [single]
      rintro other rfl
      exact ranged other member
    · rw [single]
      exact alone root member
  have fresh : (SaturationWorkspace.new ontology (closeProperties ontology)).dispatcher =
      RuleDispatcher.new ontology (closeProperties ontology) := rfl
  obtain ⟨last, run⟩ := SaturationWorkspace.run_eq valid ranged clearBatch fresh
  obtain ⟨contexts, after, runs, all⟩ := SaturationWorkspace.runEach_spec valid roots ranged alone fresh
  refine ⟨ontology.fixpoint [roots], closeProperties ontology,
    (Tables.saturate_returns valid rangedBatch).mpr ⟨numbered, clearBatch⟩,
    (buildPropertyClosure_ok valid).mpr ⟨rfl, numbered.chains.le⟩, ?_, contexts, after, runs, ?_⟩
  · rw [saturateRoots, run, Option.map_some]
  · have members : List.Forall₂ (fun root context => root ∈ roots ∧
        ((ontology.fixpoint [[root]]).contextState root).map (fun state => state.toContext.freeze) = some context)
        roots contexts := (List.forall₂_and_left _ _).mpr ⟨fun _ member => member, all⟩
    refine members.imp ?_
    rintro root context ⟨member, same⟩
    obtain ⟨taken, _, run, _, expected⟩ :=
      SaturationWorkspace.runRoot_eq valid (ranged root member) (alone root member) fresh
    refine ⟨?_, _, returns root member, same⟩
    rw [run, Option.map_some, ← expected, same]

/-- The cores agree on a list of roots exactly if every id has room and the roots derive no
subsumer at a position or in a group without a u32 ID, and on all lists exactly if there is no
such position or group. -/
theorem saturateRoots_agrees (ontology : CompiledOntology) :
    (∀ roots : List ExpressionId, (∀ root ∈ roots, root < ontology.expressions.length) →
      (SaturatesAlike ontology.toTables roots ↔ ontology.Numbered ∧
        ontology.Clear (closeProperties ontology.toTables) {root | root ∈ roots})) ∧
    ((∀ roots : List ExpressionId, (∀ root ∈ roots, root < ontology.expressions.length) →
      SaturatesAlike ontology.toTables roots) ↔ ontology.Numbered ∧ ontology.Roomy) := by
  have exact : ∀ roots : List ExpressionId, (∀ root ∈ roots, root < ontology.expressions.length) →
      (SaturatesAlike ontology.toTables roots ↔ ontology.Numbered ∧
        ontology.Clear (closeProperties ontology.toTables) {root | root ∈ roots}) := by
    intro roots ranged
    refine ⟨?_, fun ⟨numbered, clear⟩ => saturatesAlike_of_clear ontology.valid ranged numbered clear⟩
    rintro ⟨engine, _, returned, _⟩
    obtain ⟨rfl, -⟩ := Tables.saturate_ok ontology.valid returned
    have rangedBatch : ∀ root ∈ demandedRoots [roots], root < ontology.expressions.length := by
      rw [demandedRoots_singleton]
      exact ranged
    have returns := (Tables.saturate_returns ontology.valid rangedBatch).mp returned
    rw [demandedRoots_singleton] at returns
    exact returns
  refine ⟨exact, ?_, ?_⟩
  · intro alike
    obtain ⟨numbered, _⟩ := (exact [] fun _ member => absurd member List.not_mem_nil).mp
      (alike [] fun _ member => absurd member List.not_mem_nil)
    refine ⟨numbered, (Tables.roomy_iff ontology.valid).mpr fun member crowded => ?_⟩
    have ranged : ∀ root ∈ [member], root < ontology.expressions.length := by
      intro root listed
      rw [List.mem_singleton.mp listed]
      exact crowded.lt ontology.valid
    obtain ⟨_, clear⟩ := (exact [member] ranged).mp (alike [member] ranged)
    have started : Derivable ontology.toTables (closeProperties ontology.toTables) {root | root ∈ [member]}
        (.contextInitialization member) := .start ⟨member, List.mem_singleton.mpr rfl, rfl⟩
    exact clear member member (.unary (.unary started .tautology) .composedOfDecomposed) crowded
  · rintro ⟨numbered, roomy⟩ roots ranged
    exact (exact roots ranged).mpr ⟨numbered, roomy.clear ontology.valid _ _⟩

theorem saturateRoots_agrees_kinship : SaturatesAlike kinshipTables [0, 1] := by
  have roomy := kinshipTables_roomy
  exact (saturateRoots_agrees kinshipOntology).2.mpr ⟨kinshipTables_numbered, roomy⟩ [0, 1] (by decide)

/-- A class at the positions 0 and `2 ^ 32` of a group: the Python core raises. -/
theorem saturateRoots_disagrees : ¬ ∀ (ontology : CompiledOntology) (roots : List ExpressionId),
    (∀ root ∈ roots, root < ontology.expressions.length) → SaturatesAlike ontology.toTables roots := by
  intro alike
  have inside : ∀ root ∈ [0], root < teamOntology.expressions.length := by
    intro root member
    rw [List.mem_singleton.mp member]
    exact (by decide : 0 < teamExpressions.length)
  obtain ⟨engine, _, returned, _⟩ := alike teamOntology [0] inside
  refine Tables.saturate_raises teamOntology.valid ?_ ?_ (teamTables_crowded [] (by decide)) engine returned
  · rw [demandedRoots_singleton]
    exact inside
  · rw [demandedRoots_singleton]
    exact List.mem_singleton.mpr rfl

end PyElk.Native
