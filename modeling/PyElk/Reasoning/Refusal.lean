import PyElk.Reasoning.Capacity
import PyElk.Reasoning.Saturated

open Ordered

namespace PyElk

section

variable {ε α : Type}

theorem toOption_eq_some {outcome : Except ε α} {value : α} :
    outcome.toOption = some value ↔ outcome = .ok value := by
  cases outcome <;> simp [Except.toOption]

theorem bind_eq_ok {β : Type} {outcome : Except ε α} {next : α → Except ε β} {result : β} :
    outcome >>= next = .ok result ↔ ∃ value, outcome = .ok value ∧ next value = .ok result := by
  cases outcome with
  | error raised => exact iff_of_false (fun same => nomatch same) fun ⟨_, absurdity, _⟩ => nomatch absurdity
  | ok value => exact ⟨fun same => ⟨value, rfl, same⟩, fun ⟨_, same, found⟩ => Except.ok.inj same ▸ found⟩

theorem forM_ok {check : α → Except ε PUnit} {values : List α} :
    values.forM check = .ok ⟨⟩ ↔ ∀ x ∈ values, check x = .ok ⟨⟩ := by
  induction values with
  | nil => exact ⟨fun _ _ member => absurd member List.not_mem_nil, fun _ => rfl⟩
  | cons first rest ih =>
    change (check first >>= fun _ => rest.forM check) = _ ↔ _
    rw [List.forall_mem_cons]
    cases checked : check first with
    | error raised => exact ⟨fun same => (nomatch same), fun passes => absurd passes.1 (by simp)⟩
    | ok value => exact ih.trans (and_iff_right rfl).symm

/-- Checks that give their values back: all have to pass. -/
theorem mapM_ok_self {check : α → Except ε α} (same : ∀ {x y}, check x = .ok y → y = x) {values results : List α} :
    values.mapM check = .ok results ↔ results = values ∧ ∀ x ∈ values, check x = .ok x := by
  induction values generalizing results with
  | nil =>
    rw [List.mapM_nil]
    refine ⟨fun found => ⟨?_, fun _ member => absurd member List.not_mem_nil⟩, fun found => found.1 ▸ rfl⟩
    cases found
    rfl
  | cons first rest ih =>
    rw [List.mapM_cons, List.forall_mem_cons]
    cases checked : check first with
    | error raised => exact ⟨fun found => (nomatch found), fun passes => absurd passes.2.1 (by simp)⟩
    | ok value =>
      obtain rfl := same checked
      change (rest.mapM check >>= fun others => Except.ok (value :: others)) = _ ↔ _
      cases later : rest.mapM check with
      | error raised =>
        refine ⟨fun found => (nomatch found), fun passes => ?_⟩
        exact absurd (later.symm.trans (ih.mpr ⟨rfl, passes.2.2⟩)) (by simp)
      | ok others =>
        obtain ⟨rfl, passed⟩ := ih.mp later
        refine ⟨fun found => ?_, fun found => found.1 ▸ rfl⟩
        cases found
        exact ⟨rfl, rfl, passed⟩

end

/-- An expression at a union position, at a group position or in a group that no u32 ID names. -/
def Tables.Crowded (compiled : Tables) (member : ExpressionId) : Prop :=
  (∃ union disjuncts position, compiled.Built union .objectUnionOf disjuncts ∧ compiled.negative union ∧
    disjuncts[position]? = some member ∧ U32_RESERVED ≤ position) ∨
  ∃ group members position, compiled.disjointGroups[group]? = some members ∧ members[position]? = some member ∧
    (U32_RESERVED ≤ group ∨ U32_RESERVED ≤ position)

/-- The groups, their members and the operands of negative unions have u32 IDs as positions. -/
structure Tables.Roomy (compiled : Tables) : Prop where
  groups : compiled.disjointGroups.length ≤ U32_RESERVED
  members : ∀ group ∈ compiled.disjointGroups, group.length ≤ U32_RESERVED
  operands : ∀ union disjuncts, compiled.Built union .objectUnionOf disjuncts → compiled.negative union →
    disjuncts.length ≤ U32_RESERVED

/-- No context derives a crowded subsumer. -/
def Tables.Clear (compiled : Tables) (properties : PropertySaturation) (roots : Set ExpressionId) : Prop :=
  ∀ d x, Derivable compiled properties roots (.subClassInclusionComposed d x) → ¬ compiled.Crowded x

/-- Exactly where every position fits, no expression is crowded. -/
theorem Tables.roomy_iff {compiled : Tables} (valid : compiled.Valid) :
    compiled.Roomy ↔ ∀ member, ¬ compiled.Crowded member := by
  constructor
  · rintro ⟨groups, members, operands⟩ member
      (⟨union, disjuncts, position, built, occurs, entry, large⟩ | ⟨group, row, position, listed, entry, large⟩)
    · have bound := (List.getElem?_eq_some_iff.mp entry).1
      exact absurd (operands union disjuncts built occurs) (by omega)
    · have bound := (List.getElem?_eq_some_iff.mp entry).1
      have place := (List.getElem?_eq_some_iff.mp listed).1
      have few := members row (List.mem_of_getElem? listed)
      omega
  · intro free
    refine ⟨?_, ?_, ?_⟩
    · by_contra many
      have last : U32_RESERVED < compiled.disjointGroups.length := Nat.not_le.mp many
      have long := (valid.disjoint_lt (List.getElem_mem last)).1
      have first : 0 < compiled.disjointGroups[U32_RESERVED].length := by omega
      exact free _ (Or.inr ⟨U32_RESERVED, _, 0, List.getElem?_eq_getElem last, List.getElem?_eq_getElem first,
        Or.inl le_rfl⟩)
    · intro group listed
      by_contra many
      obtain ⟨index, entry⟩ := List.mem_iff_getElem?.mp listed
      have last : U32_RESERVED < group.length := Nat.not_le.mp many
      exact free _ (Or.inr ⟨index, group, U32_RESERVED, entry, List.getElem?_eq_getElem last, Or.inr le_rfl⟩)
    · intro union disjuncts built occurs
      by_contra many
      have last : U32_RESERVED < disjuncts.length := Nat.not_le.mp many
      exact free _ (Or.inl ⟨union, disjuncts, U32_RESERVED, built, occurs, List.getElem?_eq_getElem last, le_rfl⟩)

theorem Tables.Roomy.clear {compiled : Tables} (valid : compiled.Valid) (roomy : compiled.Roomy)
    (properties : PropertySaturation) (roots : Set ExpressionId) : compiled.Clear properties roots :=
  fun _ x _ => (roomy_iff valid).mp roomy x

theorem Tables.Crowded.lt {compiled : Tables} (valid : compiled.Valid) {member : ExpressionId}
    (crowded : compiled.Crowded member) : member < compiled.expressions.length := by
  rcases crowded with ⟨union, disjuncts, position, built, _, entry, _⟩ | ⟨group, members, position, listed, entry, _⟩
  · obtain ⟨_, below⟩ := valid.shape built
    exact Nat.lt_trans (below member (List.mem_of_getElem? entry)) built.lt
  · exact (valid.disjoint_lt (List.mem_of_getElem? listed)).2 member (List.mem_of_getElem? entry)

/-- Fewer roots derive no more. -/
theorem Tables.Clear.mono {compiled : Tables} {properties : PropertySaturation} {roots others : Set ExpressionId}
    (clear : compiled.Clear properties roots) (subset : others ⊆ roots) : compiled.Clear properties others :=
  fun d x derivable => clear d x (Worklist.Rules.Derives.mono (Set.image_mono subset) derivable)

/-- Every identifier of a conclusion is a u32 ID. -/
def Conclusion.Fits (conclusion : Conclusion) : Prop := ∀ field ∈ conclusion.identifiers, field.1 < U32_RESERVED

theorem checkedId_ok {value : Nat} {fieldName : String} :
    checkedId value fieldName = .ok () ↔ value < U32_RESERVED := by
  unfold checkedId
  split
  · rename_i small
    exact iff_of_true rfl small
  · rename_i large
    exact iff_of_false (fun same => nomatch same) large

theorem checkedPosition_ok {position : Nat} : checkedPosition position = .ok () ↔ position < U32_RESERVED := by
  unfold checkedPosition
  split
  · rename_i small
    exact iff_of_true rfl small
  · rename_i large
    exact iff_of_false (fun same => nomatch same) large

theorem Conclusion.checked_ok {conclusion result : Conclusion} :
    conclusion.checked = .ok result ↔ result = conclusion ∧ conclusion.Fits := by
  unfold checked Fits
  have all : (conclusion.identifiers.forM fun field => checkedId field.1 field.2) = .ok () ↔
      ∀ field ∈ conclusion.identifiers, checkedId field.1 field.2 = .ok () := forM_ok
  cases passed : conclusion.identifiers.forM fun field => checkedId field.1 field.2 with
  | error raised =>
    rw [passed] at all
    refine iff_of_false (fun same => nomatch same) fun fits => ?_
    exact nomatch all.mpr fun field member => checkedId_ok.mpr (fits.2 field member)
  | ok value =>
    rw [passed] at all
    have fits := fun field member => checkedId_ok.mp (all.mp rfl field member)
    refine ⟨fun same => ?_, fun same => same.1 ▸ rfl⟩
    cases same
    exact ⟨rfl, fits⟩

section

variable {compiled : Tables} {properties : PropertySaturation}

theorem Tables.mem_disjointByMember {member : ExpressionId} {group : DisjointGroupId} {position : Nat} :
    (member, group, position) ∈ compiled.disjointByMember ↔
    ∃ members, compiled.disjointGroups[group]? = some members ∧
      members[position]? = some member := by
  unfold disjointByMember
  rw [List.mem_flatMap]
  constructor
  · rintro ⟨⟨members, index⟩, listed, row⟩
    obtain ⟨⟨found, place⟩, entry, same⟩ := List.mem_map.mp row
    cases same
    exact ⟨members, List.mem_zipIdx_iff_getElem?.mp listed, List.mem_zipIdx_iff_getElem?.mp entry⟩
  · rintro ⟨members, listed, entry⟩
    exact ⟨(members, group), List.mem_zipIdx_iff_getElem?.mpr listed,
      List.mem_map.mpr ⟨(member, position), List.mem_zipIdx_iff_getElem?.mpr entry, rfl⟩⟩

/-- A dispatch that returns has built its products and met no crowded subsumer. -/
theorem RuleDispatcher.dispatch_ok {dispatcher : RuleDispatcher} {state : Context} {premise : Conclusion}
    {products : List Conclusion} :
    dispatcher.dispatch state premise = .ok products ↔
      products = dispatcher.products state premise ∧
        (∀ position ∈ dispatcher.unionPositions premise, position < U32_RESERVED) ∧
        ∀ c ∈ products, c.Fits := by
  have positions : (dispatcher.unionPositions premise).forM checkedPosition = .ok () ↔
      ∀ position ∈ dispatcher.unionPositions premise, checkedPosition position = .ok () := forM_ok
  have built : (dispatcher.products state premise).mapM Conclusion.checked = .ok products ↔
      products = dispatcher.products state premise ∧ ∀ c ∈ dispatcher.products state premise, c.checked = .ok c :=
    mapM_ok_self fun found => (Conclusion.checked_ok.mp found).1
  unfold dispatch
  cases passed : (dispatcher.unionPositions premise).forM checkedPosition with
  | error raised =>
    rw [passed] at positions
    refine iff_of_false (fun same => nomatch same) fun ⟨_, small, _⟩ => ?_
    exact nomatch positions.mpr fun position member => checkedPosition_ok.mpr (small position member)
  | ok value =>
    rw [passed] at positions
    refine built.trans ⟨?_, ?_⟩
    · rintro ⟨rfl, fits⟩
      exact ⟨rfl, fun position member => checkedPosition_ok.mp (positions.mp rfl position member),
        fun c member => (Conclusion.checked_ok.mp (fits c member)).2⟩
    · rintro ⟨rfl, _, fits⟩
      exact ⟨rfl, fun c member => Conclusion.checked_ok.mpr ⟨rfl, fits c member⟩⟩

theorem RuleDispatcher.mem_unionPositions {d subsumer : ExpressionId} {position : Nat} :
    position ∈ (RuleDispatcher.new compiled properties).unionPositions (.subClassInclusionComposed d subsumer) ↔
      ∃ union disjuncts, compiled.Built union .objectUnionOf disjuncts ∧ compiled.negative union ∧
        disjuncts[position]? = some subsumer := by
  unfold unionPositions
  rw [List.mem_map]
  constructor
  · rintro ⟨⟨union, found⟩, row, rfl⟩
    exact ⟨union, Tables.mem_unionsByDisjunct.mp (mem_frozenIndex.mp row)⟩
  · rintro ⟨union, member⟩
    exact ⟨(union, position), mem_frozenIndex.mpr (Tables.mem_unionsByDisjunct.mpr member), rfl⟩

/-- The dispatch of a crowded subsumer raises. -/
theorem RuleDispatcher.not_crowded_of_dispatch {state : Context} {d subsumer : ExpressionId}
    {products : List Conclusion} (owner : d = state.root)
    (returned : (RuleDispatcher.new compiled properties).dispatch state (.subClassInclusionComposed d subsumer) =
      .ok products) : ¬ compiled.Crowded subsumer := by
  obtain ⟨rfl, small, fits⟩ := dispatch_ok.mp returned
  rintro (⟨union, disjuncts, position, built, occurs, entry, large⟩ |
    ⟨group, members, position, listed, entry, large⟩)
  · exact Nat.not_le.mpr (small position (mem_unionPositions.mpr ⟨union, disjuncts, built, occurs, entry⟩)) large
  · have row := Tables.mem_disjointByMember.mpr ⟨members, listed, entry⟩
    have rule : UnaryInference compiled properties (.subClassInclusionComposed d subsumer)
        (.disjointSubsumer d group position) := .disjointSubsumer row
    have belongs : (Conclusion.subClassInclusionComposed d subsumer).destination = state.root := owner
    rcases dispatch_unary belongs rule with same | product
    · cases same
    · have ids : Conclusion.Fits _ := fits _ product
      unfold Conclusion.Fits Conclusion.identifiers at ids
      rw [List.forall_mem_cons, List.forall_mem_cons, List.forall_mem_singleton] at ids
      rcases large with large | large
      · exact Nat.not_le.mpr ids.2.1 large
      · exact Nat.not_le.mpr ids.2.2 large

variable (valid : compiled.Valid) (few : properties.chains.length ≤ U32_RESERVED)

include valid few

/-- The ids of an ontology fit; only a group or a position may not. -/
theorem Conclusion.InRange.fits {c : Conclusion} (inRange : c.InRange compiled properties)
    (small : ∀ d group position, c = .disjointSubsumer d group position →
      group < U32_RESERVED ∧ position < U32_RESERVED) : c.Fits := by
  have expression : ∀ {x}, x < compiled.expressions.length → x < U32_RESERVED :=
    fun bound => Nat.lt_of_lt_of_le bound valid.few_expressions
  have entity : ∀ {x}, x < compiled.entities.length → x < U32_RESERVED :=
    fun bound => Nat.lt_of_lt_of_le bound valid.few_entities
  have chain : ∀ {x}, x < properties.chains.length → x < U32_RESERVED := fun bound => Nat.lt_of_lt_of_le bound few
  unfold Fits
  cases c with
  | contextInitialization root => simpa [identifiers] using expression inRange
  | subContextInitialization d relation => simpa [identifiers] using ⟨expression inRange.1, entity inRange.2⟩
  | subClassInclusionDecomposed d x => simpa [identifiers] using ⟨expression inRange.1, expression inRange.2⟩
  | subClassInclusionComposed d x => simpa [identifiers] using ⟨expression inRange.1, expression inRange.2⟩
  | forwardLink d link target =>
    simpa [identifiers] using ⟨expression inRange.1, chain inRange.2.1, expression inRange.2.2⟩
  | backwardLink d relation source =>
    simpa [identifiers] using ⟨expression inRange.1, entity inRange.2.1, expression inRange.2.2⟩
  | propagation d relation carry =>
    simpa [identifiers] using ⟨expression inRange.1, entity inRange.2.1, expression inRange.2.2⟩
  | disjointSubsumer d group position =>
    simpa [identifiers] using ⟨expression inRange.1, small d group position rfl⟩
  | classInconsistency d => simpa [identifiers] using expression inRange

/-- The dispatch of a stored premise returns unless the premise is a crowded subsumer. -/
theorem RuleDispatcher.dispatch_returns (within : properties.Scoped compiled) {start : Set Conclusion}
    (given : ∀ c ∈ start, c.InRange compiled properties) {state : Context} {stored : Set Conclusion}
    (mirrors : state.Mirrors stored) (sound : ∀ c ∈ stored, (inferenceRules compiled properties).Derives start c)
    {premise : Conclusion} (owner : premise.destination = state.root) (present : premise ∈ stored)
    (clear : ∀ d x, premise = .subClassInclusionComposed d x → ¬ compiled.Crowded x) :
    (RuleDispatcher.new compiled properties).dispatch state premise =
      .ok ((RuleDispatcher.new compiled properties).products state premise) := by
  refine dispatch_ok.mpr ⟨rfl, fun position member => ?_, fun c product => ?_⟩
  · cases premise with
    | subClassInclusionComposed d x =>
      obtain ⟨union, disjuncts, built, occurs, entry⟩ := mem_unionPositions.mp member
      by_contra large
      exact clear d x rfl (Or.inl ⟨union, disjuncts, position, built, occurs, entry, Nat.not_lt.mp large⟩)
    | _ => exact absurd member List.not_mem_nil
  · have inference := dispatch_sound mirrors owner product
    have derivation : (inferenceRules compiled properties).Derives start c := by
      rcases inference with unary | ⟨q, found, left | right⟩
      · exact .unary (sound premise present) unary
      · exact .binary (sound premise present) (sound q found) left
      · exact .binary (sound q found) (sound premise present) right
    refine (derives_inRange valid within given derivation).fits valid few fun d group position same => ?_
    subst same
    rcases inference with unary | ⟨q, _, left | right⟩
    · cases unary with
      | disjointSubsumer indexed =>
        obtain ⟨members, listed, entry⟩ := Tables.mem_disjointByMember.mp indexed
        have small := fun large => clear d _ rfl (Or.inr ⟨group, members, position, listed, entry, large⟩)
        exact ⟨Nat.not_le.mp fun large => small (Or.inl large), Nat.not_le.mp fun large => small (Or.inr large)⟩
    · cases left
    · cases right

end

/-- The dispatch of a pending conclusion returns where no crowded subsumer is derivable. -/
theorem Saturating.dispatch_returns {compiled : Tables} {properties : PropertySaturation} {roots : Set ExpressionId}
    {contexts : List ContextStore} (valid : compiled.Valid) (few : properties.chains.length ≤ U32_RESERVED)
    (within : properties.Scoped compiled) (ranged : ∀ root ∈ roots, root < compiled.expressions.length)
    (clear : compiled.Clear properties roots)
    (saturating : Saturating compiled properties roots (storedConclusions contexts) contexts) {state : ContextStore}
    {premise : Conclusion} (allocated : state ∈ contexts) (pending : premise ∈ state.todo) :
    (RuleDispatcher.new compiled properties).dispatch (state.accept premise).toContext premise =
      .ok ((RuleDispatcher.new compiled properties).products (state.accept premise).toContext premise) := by
  have coherent := saturating.coherent state allocated
  have known : ∀ c ∈ (state.accept premise).conclusions, Derivable compiled properties roots c := by
    intro c member
    rw [ContextStore.accept_conclusions coherent pending] at member
    rcases List.mem_cons.mp member with rfl | before
    · exact saturating.progress.sound c ⟨state, allocated, Or.inr pending⟩
    · exact saturating.progress.sound c ⟨state, allocated, Or.inl before⟩
  have here : premise ∈ (state.accept premise).conclusions := by
    rw [ContextStore.accept_conclusions coherent pending]
    exact List.mem_cons_self
  have initial : ∀ c ∈ Conclusion.contextInitialization '' roots, c.InRange compiled properties := by
    rintro _ ⟨other, member, rfl⟩
    exact ranged other member
  have owner : premise.destination = (state.accept premise).root :=
    (coherent.agendaOwned premise pending).trans ContextStore.accept_root.symm
  exact RuleDispatcher.dispatch_returns valid few within initial (coherent.accept pending).mirrored known owner here
    fun d x same => clear d x (same ▸ known premise here)

section

variable {engine next : SaturationEngine} {root : ExpressionId}

/-- A step that returns is the step of the engine that refuses nothing. -/
theorem SaturationEngine.tryStep_ok (stepped : engine.tryStep root = .ok next) : next = engine.step root := by
  unfold tryStep at stepped
  unfold step
  split at stepped
  · exact (Except.ok.inj stepped).symm
  · rename_i state found
    split at stepped
    · exact (Except.ok.inj stepped).symm
    · rename_i premise rest agenda
      cases returned : engine.dispatcher.dispatch (state.toContextStore.accept premise).toContext premise with
      | error raised =>
        rw [returned] at stepped
        cases stepped
      | ok products =>
        obtain ⟨rfl, -⟩ := RuleDispatcher.dispatch_ok.mp returned
        rw [returned] at stepped
        exact (Except.ok.inj stepped).symm

theorem SaturationEngine.tryDrain_ok (fuel : Nat) (drained : engine.tryDrain fuel root = .ok next) :
    next = engine.drain fuel root := by
  induction fuel generalizing engine with
  | zero => exact (Except.ok.inj drained).symm
  | succ fuel ih =>
    rw [tryDrain] at drained
    rw [drain]
    split at drained
    · rename_i work
      rw [if_pos work]
      cases stepped : engine.tryStep root with
      | error raised =>
        rw [stepped] at drained
        cases drained
      | ok later =>
        rw [stepped] at drained
        rw [← tryStep_ok stepped]
        exact ih drained
    · rename_i idle
      rw [if_neg idle]
      exact (Except.ok.inj drained).symm

theorem SaturationEngine.tryRunActive_ok (fuel : Nat) (finished : engine.tryRunActive fuel = .ok next) :
    next = engine.runActive fuel := by
  induction fuel generalizing engine with
  | zero => exact (Except.ok.inj finished).symm
  | succ fuel ih =>
    rw [tryRunActive] at finished
    rw [runActive]
    split at finished
    · exact (Except.ok.inj finished).symm
    · rename_i root rest active
      cases drained : (engine.claim root rest).tryDrain (engine.dispatcher.conclusionLimit + 1) root with
      | error raised =>
        rw [drained] at finished
        cases finished
      | ok later =>
        rw [drained] at finished
        rw [← tryDrain_ok _ drained]
        exact ih finished

/-- A run that returns is the run that refuses nothing. -/
theorem SaturationEngine.run_ok {roots : List ExpressionId} (returned : engine.run roots = .ok next) :
    next = engine.complete roots := by
  unfold run at returned
  unfold complete
  exact tryRunActive_ok _ returned

end

theorem SaturationEngine.stored_ensureAll {engine : SaturationEngine} {roots : List ExpressionId} :
    storedConclusions (roots.foldl SaturationEngine.ensureContext engine).stores =
      storedConclusions engine.stores := by
  induction roots generalizing engine with
  | nil => rfl
  | cons root rest ih => rw [List.foldl_cons, ih, stores_ensureContext, ensureStore_stored]

/-- No context of the engine has stored a crowded subsumer. -/
def SaturationEngine.Uncrowded (compiled : Tables) (engine : SaturationEngine) : Prop :=
  ∀ d x, Conclusion.subClassInclusionComposed d x ∈ storedConclusions engine.stores → ¬ compiled.Crowded x

section

variable {compiled : Tables} {properties : PropertySaturation} {demanded : Set ExpressionId}
  {engine next : SaturationEngine} {root : ExpressionId}

/-- What a phase of `run` makes of an engine: it refuses nothing if no crowded subsumer is
derivable, and once it returns it has stored none. -/
structure SaturationEngine.Phase (compiled : Tables) (properties : PropertySaturation) (demanded : Set ExpressionId)
    (engine : SaturationEngine) (outcome : Except ReasoningError SaturationEngine) (next : SaturationEngine) :
    Prop where
  returns : compiled.Clear properties demanded → outcome = .ok next
  uncrowded : outcome = .ok next → engine.Uncrowded compiled → next.Uncrowded compiled

theorem SaturationEngine.Phase.pure : engine.Phase compiled properties demanded (pure engine) engine :=
  ⟨fun _ => rfl, fun _ clean => clean⟩

/-- Two phases, one after the other. -/
theorem SaturationEngine.Phase.bind {middle last : SaturationEngine}
    {outcome : Except ReasoningError SaturationEngine}
    {continue_ : SaturationEngine → Except ReasoningError SaturationEngine}
    (first : engine.Phase compiled properties demanded outcome middle)
    (only : ∀ found, outcome = .ok found → found = middle)
    (second : middle.Phase compiled properties demanded (continue_ middle) last) :
    engine.Phase compiled properties demanded (outcome >>= continue_) last := by
  refine ⟨fun clear => ?_, fun returned clean => ?_⟩
  · rw [first.returns clear]
    exact second.returns clear
  · cases found : outcome with
    | error raised =>
      rw [found] at returned
      cases returned
    | ok other =>
      obtain rfl := only other found
      rw [found] at returned
      exact second.uncrowded returned (first.uncrowded found clean)

/-- A phase over another view of the same stores. -/
theorem SaturationEngine.Phase.congr {other : SaturationEngine} {outcome : Except ReasoningError SaturationEngine}
    (phase : engine.Phase compiled properties demanded outcome next)
    (same : storedConclusions other.stores = storedConclusions engine.stores) :
    other.Phase compiled properties demanded outcome next := by
  refine ⟨phase.returns, fun returned clean => phase.uncrowded returned fun d x member => clean d x ?_⟩
  rw [same]
  exact member

variable (valid : compiled.Valid) (within : properties.Scoped compiled)
  (few : properties.chains.length ≤ U32_RESERVED) (ranged : ∀ root ∈ demanded, root < compiled.expressions.length)

include valid within few ranged

/-- One agenda item: its dispatch raises exactly if the premise is a crowded subsumer. -/
theorem SaturationEngine.Running.tryStep (running : engine.Running compiled properties demanded)
    (claimed : engine.claimedRoot = some root) (work : engine.hasLocalWork root = true) :
    engine.Phase compiled properties demanded (engine.tryStep root) (engine.step root) := by
  obtain ⟨_, _, _, state, premise, rest, found, agenda, _, stored⟩ := running.step claimed work
  obtain ⟨allocated, same⟩ := SaturationEngine.mem_of_contextState found
  have listed : state.toContextStore ∈ engine.stores := List.mem_map.mpr ⟨state, allocated, rfl⟩
  have pending : premise ∈ state.todo := by
    rw [agenda]
    exact List.mem_cons_self
  have coherent := running.saturating.coherent state.toContextStore listed
  have owner : premise.destination = (state.toContextStore.accept premise).root :=
    (coherent.agendaOwned premise pending).trans ContextStore.accept_root.symm
  have unfolded : engine.tryStep root = (do
      let products ← (RuleDispatcher.new compiled properties).dispatch
        (state.toContextStore.accept premise).toContext premise
      Pure.pure (products.foldl SaturationEngine.enqueue
        (engine.modify root fun state => state.accept premise))) := by
    rw [SaturationEngine.tryStep, found, running.dispatcher]
    dsimp only
    rw [agenda]
  refine ⟨fun clear => ?_, fun returned clean => ?_⟩
  · have returned := running.saturating.dispatch_returns valid few within ranged clear listed pending
    rw [unfolded, returned]
    rw [SaturationEngine.step, found, running.dispatcher]
    dsimp only
    rw [agenda]
    rfl
  · intro d x member
    rw [stored] at member
    rcases member with here | before
    · rw [unfolded] at returned
      cases result : (RuleDispatcher.new compiled properties).dispatch
          (state.toContextStore.accept premise).toContext premise with
      | error raised =>
        rw [result] at returned
        cases returned
      | ok products =>
        subst here
        exact RuleDispatcher.not_crowded_of_dispatch owner result
    · exact clean d x before

/-- The inner loop. -/
theorem SaturationEngine.Running.tryDrain (fuel : Nat) (running : engine.Running compiled properties demanded)
    (claimed : engine.claimedRoot = some root) :
    engine.Phase compiled properties demanded (engine.tryDrain fuel root) (engine.drain fuel root) := by
  induction fuel generalizing engine with
  | zero => exact .pure
  | succ fuel ih =>
    rw [SaturationEngine.tryDrain, SaturationEngine.drain]
    by_cases work : engine.hasLocalWork root = true
    · rw [if_pos work, if_pos work]
      obtain ⟨after, _, held, _⟩ := running.step claimed work
      exact (running.tryStep valid within few ranged claimed work).bind (fun _ => SaturationEngine.tryStep_ok)
        (ih after held)
    · rw [if_neg work, if_neg work]
      exact .pure

/-- The outer loop. -/
theorem SaturationEngine.Running.tryRunActive (fuel : Nat) (running : engine.Running compiled properties demanded)
    (unclaimed : engine.claimedRoot = none) :
    engine.Phase compiled properties demanded (engine.tryRunActive fuel) (engine.runActive fuel) := by
  induction fuel generalizing engine with
  | zero => exact .pure
  | succ fuel ih =>
    rw [SaturationEngine.tryRunActive, SaturationEngine.runActive]
    cases active : engine.active with
    | nil => exact .pure
    | cons root rest =>
      obtain ⟨claimed, stores⟩ := running.claim active unclaimed
      have limit : (storedConclusions (engine.claim root rest).stores).ncard ≤
          (engine.claim root rest).dispatcher.conclusionLimit := (claimed.room valid within ranged).2
      obtain ⟨drained, _, held, idle, _⟩ := claimed.drain valid within ranged
        (engine.dispatcher.conclusionLimit + 1) rfl (by
          show engine.dispatcher.conclusionLimit < _
          omega)
      obtain ⟨released, same⟩ := drained.release held idle
      have first := (claimed.tryDrain valid within few ranged (engine.dispatcher.conclusionLimit + 1) rfl).congr
        (congrArg storedConclusions stores.symm)
      exact first.bind (fun _ => SaturationEngine.tryDrain_ok _)
        ((ih released rfl).congr (congrArg storedConclusions same.symm))

/-- A whole run. -/
theorem SaturationEngine.Running.run {roots : List ExpressionId}
    (running : engine.Running compiled properties demanded) (unclaimed : engine.claimedRoot = none)
    (members : ∀ root ∈ roots, root ∈ demanded) :
    engine.Phase compiled properties demanded (engine.run roots) (engine.complete roots) := by
  obtain ⟨ensured, demands, claimed, _⟩ := running.ensureAll (sortedSet id roots)
    fun root member => members root (mem_sortedSet.mp member)
  refine (ensured.tryRunActive valid within few ranged (engine.dispatcher.conclusionLimit + 1)
    (claimed.trans unclaimed)).congr ?_
  exact SaturationEngine.stored_ensureAll.symm

/-- Any sequence of runs. -/
theorem SaturationEngine.Running.runAll (batches : List (List ExpressionId))
    (running : engine.Running compiled properties demanded) (unclaimed : engine.claimedRoot = none)
    (members : demandedRoots batches ⊆ demanded) :
    engine.Phase compiled properties demanded (batches.foldlM SaturationEngine.run engine)
      (batches.foldl SaturationEngine.complete engine) := by
  induction batches generalizing engine with
  | nil => exact .pure
  | cons batch rest ih =>
    have inside : ∀ root ∈ batch, root ∈ demanded := fun root member => members ⟨batch, List.mem_cons_self, member⟩
    obtain ⟨after, _, free, _⟩ := running.complete valid within ranged unclaimed inside
    rw [List.foldlM_cons, List.foldl_cons]
    exact (running.run valid within few ranged unclaimed inside).bind (fun _ => SaturationEngine.run_ok)
      (ih after free fun root ⟨other, listed, member⟩ => members ⟨other, List.mem_cons_of_mem _ listed, member⟩)

end

theorem foldlM_run_ok {batches : List (List ExpressionId)} {engine next : SaturationEngine}
    (returned : batches.foldlM SaturationEngine.run engine = .ok next) :
    next = batches.foldl SaturationEngine.complete engine := by
  induction batches generalizing engine with
  | nil => exact (Except.ok.inj returned).symm
  | cons batch rest ih =>
    rw [List.foldlM_cons] at returned
    cases found : engine.run batch with
    | error raised =>
      rw [found] at returned
      cases returned
    | ok later =>
      rw [found] at returned
      rw [List.foldl_cons, ← SaturationEngine.run_ok found]
      exact ih returned

section

variable {compiled : Tables} {properties : PropertySaturation} {batches : List (List ExpressionId)}
  {engine : SaturationEngine}

/-- Runs that return have computed the fixed point. -/
theorem Tables.saturateWith_ok (returned : compiled.saturateWith properties batches = .ok engine) :
    engine = compiled.fixpointWith properties batches := foldlM_run_ok returned

/-- Runs return exactly if they derive no crowded subsumer. -/
theorem Tables.saturateWith_returns (valid : compiled.Valid) (within : properties.Scoped compiled)
    (few : properties.chains.length ≤ U32_RESERVED)
    (ranged : ∀ root ∈ demandedRoots batches, root < compiled.expressions.length) :
    compiled.saturateWith properties batches = .ok (compiled.fixpointWith properties batches) ↔
      compiled.Clear properties (demandedRoots batches) := by
  have phase : (SaturationEngine.new compiled properties).Phase compiled properties (demandedRoots batches)
      (compiled.saturateWith properties batches) (compiled.fixpointWith properties batches) :=
    SaturationEngine.Running.runAll valid within few ranged batches .new rfl subset_rfl
  refine ⟨fun returned d x derivable => ?_, phase.returns⟩
  obtain ⟨running, _, quiescent⟩ := compiled.fixpointWith_spec valid within ranged
  have empty : (SaturationEngine.new compiled properties).Uncrowded compiled := by
    rintro _ _ ⟨_, member, _⟩
    exact absurd member List.not_mem_nil
  exact phase.uncrowded returned empty d x ((running.saturating.least quiescent _).mpr derivable)

theorem Tables.saturate_eq (closed : saturateProperties compiled = .ok properties)
    (batches : List (List ExpressionId)) :
    compiled.saturate batches = compiled.saturateWith properties batches := by
  rw [saturate, closed]
  rfl

/-- The engine of an ontology, once its runs have returned. -/
theorem Tables.saturate_ok (valid : compiled.Valid) (returned : compiled.saturate batches = .ok engine) :
    engine = compiled.fixpoint batches ∧ compiled.Numbered := by
  cases closed : saturateProperties compiled with
  | error raised =>
    rw [saturate, closed] at returned
    cases returned
  | ok properties =>
    obtain ⟨rfl, numbered⟩ := (saturateProperties_ok valid).mp closed
    rw [saturate_eq closed] at returned
    exact ⟨saturateWith_ok returned, numbered⟩

/-- The runs of an ontology return exactly if its ids have room and no context derives a crowded subsumer. -/
theorem Tables.saturate_returns (valid : compiled.Valid)
    (ranged : ∀ root ∈ demandedRoots batches, root < compiled.expressions.length) :
    compiled.saturate batches = .ok (compiled.fixpoint batches) ↔
      compiled.Numbered ∧ compiled.Clear (closeProperties compiled) (demandedRoots batches) := by
  have within := closeProperties_scoped valid
  constructor
  · intro returned
    obtain ⟨-, numbered⟩ := saturate_ok valid returned
    refine ⟨numbered, (saturateWith_returns valid within (numbered.few valid) ranged).mp ?_⟩
    rw [saturate_eq ((saturateProperties_ok valid).mpr ⟨rfl, numbered⟩)] at returned
    exact returned
  · rintro ⟨numbered, clear⟩
    rw [saturate_eq ((saturateProperties_ok valid).mpr ⟨rfl, numbered⟩)]
    exact (saturateWith_returns valid within (numbered.few valid) ranged).mpr clear

/-- Runs that returned would have returned for fewer roots. -/
theorem Tables.saturate_fewer (valid : compiled.Valid)
    (ranged : ∀ root ∈ demandedRoots batches, root < compiled.expressions.length)
    (returned : compiled.saturate batches = .ok engine) {fewer : List (List ExpressionId)}
    (subset : demandedRoots fewer ⊆ demandedRoots batches) :
    compiled.saturate fewer = .ok (compiled.fixpoint fewer) := by
  obtain ⟨rfl, -⟩ := saturate_ok valid returned
  obtain ⟨numbered, clear⟩ := (saturate_returns valid ranged).mp returned
  exact (saturate_returns valid fun root member => ranged root (subset member)).mpr ⟨numbered, clear.mono subset⟩

/-- Demanding a crowded expression raises. -/
theorem Tables.saturate_raises (valid : compiled.Valid)
    (ranged : ∀ root ∈ demandedRoots batches, root < compiled.expressions.length) {root : ExpressionId}
    (demanded : root ∈ demandedRoots batches) (crowded : compiled.Crowded root) :
    ∀ engine, compiled.saturate batches ≠ .ok engine := by
  intro engine returned
  obtain ⟨rfl, -⟩ := saturate_ok valid returned
  obtain ⟨-, clear⟩ := (saturate_returns valid ranged).mp returned
  have started : Derivable compiled (closeProperties compiled) (demandedRoots batches)
    (.contextInitialization root) :=
    .start ⟨root, demanded, rfl⟩
  exact clear root root (.unary (.unary started .tautology) .composedOfDecomposed) crowded

end

theorem kinshipTables_roomy : kinshipTables.Roomy := by
  refine ⟨by decide, by decide, ?_⟩
  rintro union disjuncts ⟨payload, entry⟩ -
  have tags : ∀ record ∈ kinshipTables.expressions, record.tag ≠ .objectUnionOf := by decide
  exact absurd rfl (tags _ (List.mem_of_getElem? entry))

theorem kinshipTables_numbered : kinshipTables.Numbered := by
  constructor <;> decide +kernel

def teamEntities : List EntityRecord :=
  [⟨.owlClass, "ex:Member"⟩, ⟨.owlClass, "ex:Other"⟩, ⟨.owlClass, OWL_NOTHING_IRI⟩, ⟨.owlClass, OWL_THING_IRI⟩,
    ⟨.objectProperty, OWL_BOTTOM_OBJECT_PROPERTY_IRI⟩, ⟨.objectProperty, OWL_TOP_OBJECT_PROPERTY_IRI⟩]

def teamExpressions : List ExpressionRecord :=
  [⟨.owlClass, [0], []⟩, ⟨.owlClass, [1], []⟩, ⟨.owlClass, [2], []⟩, ⟨.owlClass, [3], []⟩]

/-- One group of disjoint classes with `ex:Member` at both ends and `ex:Other` in between. -/
def teamTables (others : Nat) (ranges : List (EntityId × ExpressionId)) : Tables where
  entities := teamEntities
  expressions := teamExpressions
  expressionOccurrences := [⟨2, 0⟩, ⟨others, 0⟩, ⟨0, 0⟩, ⟨0, 0⟩]
  propertyOccurrences := [⟨0, 0⟩, ⟨0, 0⟩]
  propertyChains := []
  subclassAxioms := []
  equivalentClassAxioms := []
  disjointGroups := [0 :: (List.replicate others 1 ++ [0])]
  subpropertyAxioms := []
  propertyRanges := ranges
  featureCounts := List.replicate 79 0
  sourceFingerprint := List.replicate 32 0

theorem teamTables_valid {others : Nat} {ranges : List (EntityId × ExpressionId)} (few : others ≤ U64_MAX)
    (checked : validateSortedPairs ranges 6 4) (objects : ranges.all fun row =>
      validateEntityIndex teamEntities row.1 .objectProperty) : (teamTables others ranges).Valid where
  entities := (by decide : validateEntities teamEntities true)
  expressions := (by decide : validateExpressions teamExpressions teamEntities)
  named := (by decide : validateNamedEntityExpressions teamExpressions teamEntities)
  occurrences := by
    have properties : 2 = teamEntities.countP fun record => record.kind == .objectProperty := by decide
    have counted : decide (others ≤ U64_MAX) = true := decide_eq_true few
    have pair : 2 ≤ U64_MAX := by decide
    simp [teamTables, validateOccurrences, teamExpressions, ← properties, counted, pair]
  chains := (by decide : validatePropertyChains [] teamEntities)
  subclass := (by decide : validateSortedPairs [] 4 4)
  equivalent := (by decide : validateSortedPairs [] 4 4)
  disjoint := by
    simp [teamTables, validateDisjointGroups, teamExpressions, checkSortedUnique]
  subproperty := (by decide : validateSortedPairs [] 0 6)
  superProperty := rfl
  ranges := checked
  rangeProperty := objects
  features := (by decide : (List.replicate 79 0).length = FEATURE_VECTOR_LENGTH ∧
    ∀ count ∈ List.replicate 79 0, count ≤ U64_MAX)
  fingerprint := (by decide : (List.replicate 32 0).length = FINGERPRINT_SIZE)

/-- With enough classes in between, the last position has no ID. -/
theorem teamTables_crowded {others : Nat} (ranges : List (EntityId × ExpressionId))
    (many : U32_RESERVED ≤ others + 1) :
    (teamTables others ranges).Crowded 0 := by
  refine Or.inr ⟨0, 0 :: (List.replicate others 1 ++ [0]), others + 1, rfl, ?_, Or.inr many⟩
  simp

/-- The ontology of a group so long that its last position is `2 ^ 32`. -/
def teamOntology : CompiledOntology :=
  ⟨teamTables 0xFFFFFFFF [], teamTables_valid (by decide) (by decide) rfl⟩

theorem teamTables_numbered (others : Nat) (ranges : List (EntityId × ExpressionId)) :
    (teamTables others ranges).Numbered where
  chains := by
    have two : (teamTables others ranges).chainSuffixes = [[4], [5]] := rfl
    rw [two]
    decide
  entities := (by decide : teamEntities.length < U32_RESERVED)
  expressions := (by decide : teamExpressions.length < U32_RESERVED)

/-- The other roots of that ontology are no members of the group. -/
theorem teamTables_clear (others : Nat) :
    (teamTables others []).Clear (closeProperties (teamTables others [])) {3} := by
  have named : ∀ {expression tag arguments}, (teamTables others []).Built expression tag arguments →
      tag = .owlClass := by
    rintro expression tag arguments ⟨payload, entry⟩
    have tags : ∀ record ∈ teamExpressions, record.tag = .owlClass := by decide
    exact tags _ (List.mem_of_getElem? entry)
  have members : ∀ {member group position}, (member, group, position) ∈ (teamTables others []).disjointByMember →
      member ≠ 3 := by
    rintro member group position indexed rfl
    obtain ⟨operands, listed, entry⟩ := Tables.mem_disjointByMember.mp indexed
    have operand := List.mem_of_getElem? entry
    have only : operands = 0 :: (List.replicate others 1 ++ [0]) :=
      List.mem_singleton.mp (List.mem_of_getElem? listed)
    rw [only] at operand
    simp at operand
  have derived : ∀ c, Derivable (teamTables others []) (closeProperties (teamTables others [])) {3} c →
      c = .contextInitialization 3 ∨ c = .subClassInclusionDecomposed 3 3 ∨ c = .subClassInclusionComposed 3 3 := by
    intro c derivable
    induction derivable with
    | start member =>
      obtain ⟨root, rfl, rfl⟩ := member
      exact Or.inl rfl
    | unary _ rule ih =>
      rcases ih with rfl | rfl | rfl
      · cases rule with
        | contextInitialization => exact Or.inl rfl
        | tautology => exact Or.inr (Or.inl rfl)
        | owlThing occurs => exact (Bool.false_ne_true occurs).elim
      · cases rule with
        | contextInitialization => exact Or.inl rfl
        | composedOfDecomposed => exact Or.inr (Or.inr rfl)
        | expandedDefinition row => exact absurd row List.not_mem_nil
        | decomposedFirstConjunct built => cases named built
        | decomposedSecondConjunct built => cases named built
        | backwardLinkOfObjectSomeValuesFrom built => cases named built
        | forwardLinkOfObjectSomeValuesFrom built => cases named built
        | backwardLinkOfObjectHasSelf built => cases named built
        | forwardLinkOfObjectHasSelf built => cases named built
        | objectHasSelfPropertyRange built => cases named built
      · cases rule with
        | contextInitialization => exact Or.inl rfl
        | expandedSubClassOf row => exact absurd row List.not_mem_nil
        | composedDefinedClass row => exact absurd row List.not_mem_nil
        | expandedFirstEquivalentClass row => exact absurd row List.not_mem_nil
        | expandedSecondEquivalentClass row => exact absurd row List.not_mem_nil
        | composedObjectUnionOf built => cases named built
        | disjointSubsumer indexed => exact absurd rfl (members indexed)
    | binary _ _ rule left right =>
      rcases left with rfl | rfl | rfl <;> rcases right with rfl | rfl | rfl
      case inr.inr.inr.inr =>
        cases rule with
        | composedObjectIntersectionOf built => cases named built
      case inr.inr.inr.inl =>
        cases rule with
        | objectComplementOf built => cases named built
      all_goals cases rule
  intro d x derivable crowded
  rcases derived _ derivable with same | same | same
  · cases same
  · cases same
  · cases same
    rcases crowded with ⟨union, disjuncts, _, built, _⟩ | ⟨group, row, position, listed, entry, _⟩
    · cases named built
    · exact members (Tables.mem_disjointByMember.mpr ⟨row, listed, entry⟩) rfl

end PyElk
