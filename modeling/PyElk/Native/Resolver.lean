import PyElk.Native.Resolution

open Raising Overlays

namespace PyElk.Native

theorem integerAttribute_ok {value : Option PyValue} {name described : String} {number : Nat}
    (read : integerAttribute value name described = .ok number) : value = some (.int number) := by
  simp only [integerAttribute, CoreResult.bind_ok, requiredAttribute, okOr_ok] at read
  obtain ⟨found, rfl, exact_⟩ := read
  cases found with
  | int integer =>
    rw [exactNonnegativeInteger] at exact_
    split at exact_
    · next fits =>
      have same : integer.toNat = number := Except.ok.inj exact_
      rw [← same, Int.toNat_of_nonneg fits.1]
    · cases exact_
  | _ => cases exact_

theorem bufferAttribute_ok {value : Option PyValue} {name described : String} {bytes : List UInt8}
    (read : bufferAttribute value name described = .ok bytes) :
    ∃ buffer : MemoryView, value = some (.memoryview buffer) ∧ buffer.data = bytes := by
  simp only [bufferAttribute, CoreResult.bind_ok, requiredAttribute, okOr_ok] at read
  obtain ⟨found, rfl, borrowed⟩ := read
  cases found with
  | memoryview buffer =>
    simp only [borrowedPyBytes, CoreResult.bind_ok] at borrowed
    obtain ⟨_, _, _, _, same⟩ := borrowed
    exact ⟨buffer, rfl, Except.ok.inj same⟩
  | _ => cases borrowed

theorem readRootPostings_ok {postings : List UInt8} {count : Nat} {rows : Finset Nat}
    (read : readRootPostings postings count = .ok rows) : rows = (rootPostings postings).toFinset := by
  simp only [readRootPostings, CoreResult.bind_ok] at read
  obtain ⟨_, _, done⟩ := read
  split at done
  · exact (Except.ok.inj done).symm
  · cases done

section

variable {segment : EncodedSegment} {source : Address}
    {tables taken : List EncodedCompilationTableBinding} {count : Nat}

/-- The scope map that is read from a segment is the renaming the segment stands for. -/
theorem EncodedSegment.rename_eq {name described : String} {map : ScopeMap}
    (read : (do readScopeMap (← bufferAttribute segment.anonymousScopeMap name described)) = .ok map) :
    segment.rename = map.rename := by
  rw [CoreResult.bind_ok] at read
  obtain ⟨bytes, found, valid⟩ := read
  obtain ⟨buffer, held, rfl⟩ := bufferAttribute_ok found
  rw [EncodedSegment.rename, held]
  dsimp only
  rw [valid]

theorem selection_all (mode : segment.postingMode = some (.int POSTINGS_ALL)) : segment.selection = .all := by
  rw [EncodedSegment.selection, mode]
  rfl

/-- An accepted overlay base selects its tables by the postings of the segment. -/
theorem selectOverlayBase_ok (selects : selectOverlayBase segment source tables count = .ok taken) :
    taken = selectSource source tables segment.selection := by
  simp only [selectOverlayBase, CoreResult.bind_ok] at selects
  obtain ⟨mode, isMode, postings, held, done⟩ := selects
  have mode_eq := integerAttribute_ok isMode
  obtain ⟨buffer, buffer_eq, rfl⟩ := bufferAttribute_ok held
  split at done
  · next all =>
    obtain ⟨_, _, same⟩ := CoreResult.bind_ok.mp done
    rw [selection_all (all ▸ mode_eq)]
    exact (Except.ok.inj same).symm
  · split at done
    · next exclude =>
      obtain ⟨rows, read, same⟩ := CoreResult.bind_ok.mp done
      rw [EncodedSegment.selection, mode_eq, buffer_eq, exclude, ← Except.ok.inj same, readRootPostings_ok read]
      rfl
    · cases done

/-- An accepted composite member selects its tables by the postings of the segment. -/
theorem selectCompositeMember_ok (selects : selectCompositeMember segment source tables count = .ok taken) :
    taken = selectSource source tables segment.selection := by
  simp only [selectCompositeMember, CoreResult.bind_ok] at selects
  obtain ⟨mode, isMode, postings, held, done⟩ := selects
  have mode_eq := integerAttribute_ok isMode
  obtain ⟨buffer, buffer_eq, rfl⟩ := bufferAttribute_ok held
  split at done
  · next all =>
    obtain ⟨_, _, same⟩ := CoreResult.bind_ok.mp done
    rw [selection_all (all ▸ mode_eq)]
    exact (Except.ok.inj same).symm
  · split at done
    · next either =>
      obtain ⟨rows, read, same⟩ := CoreResult.bind_ok.mp done
      rw [EncodedSegment.selection, mode_eq, buffer_eq, ← Except.ok.inj same, readRootPostings_ok read]
      rcases either with rfl | rfl
      · rfl
      · rfl
    · cases done

/-- The view that is found for a segment is the source the segment names. -/
theorem sourceView_ok {heap : Address → EncodedView} {missing differs : String}
    (found : sourceView heap segment missing differs = .ok source) : segment.source = some (some source) := by
  simp only [sourceView, CoreResult.bind_ok, requiredAttribute, okOr_ok] at found
  obtain ⟨present, attribute_, here, same, _, _, _, _, _, _, done⟩ := found
  rw [attribute_, same, ← Except.ok.inj done]

theorem EncodedSegment.roleIs_eq {role : Nat} (found : segment.role = some (.int role)) (other : Nat) :
    segment.roleIs other = decide (role = other) := by
  rw [EncodedSegment.roleIs, found]
  simp

/-- A reference is not a table of the view's own. -/
theorem EncodedSegment.isOwn_of_refers
    (refers : segment.roleIs SEGMENT_OVERLAY_BASE ∨ segment.roleIs SEGMENT_COMPOSITE_MEMBER) :
    segment.isOwn = false := by
  rcases refers with base | member
  · have found : segment.role = some (.int SEGMENT_OVERLAY_BASE) := of_decide_eq_true base
    simp only [EncodedSegment.isOwn, EncodedSegment.roleIs_eq found]
    rfl
  · have found : segment.role = some (.int SEGMENT_COMPOSITE_MEMBER) := of_decide_eq_true member
    simp only [EncodedSegment.isOwn, EncodedSegment.roleIs_eq found]
    rfl

/-- A segment of the view's own rows adds no step. -/
theorem EncodedSegment.step_of_isOwn (own : segment.isOwn) : segment.step = none := by
  rw [EncodedSegment.step, if_neg]
  intro refers
  rw [EncodedSegment.isOwn_of_refers (by simpa using refers)] at own
  cases own

/-- A segment that refers to another view adds the step to that view, with its renaming and selection. -/
theorem EncodedSegment.step_eq
    (refers : segment.roleIs SEGMENT_OVERLAY_BASE ∨ segment.roleIs SEGMENT_COMPOSITE_MEMBER)
    (found : segment.source = some (some source)) :
    segment.step = some ⟨source, segment.rename, segment.selection⟩ := by
  rw [EncodedSegment.step, if_pos (by simpa using refers), found]
  rfl

end

/-- Every cached view is right. -/
def Consistent (heap : Address → EncodedView) (resolver : CompositeResolver) : Prop :=
  ∀ view resolved, resolver.cache.lookup view = some resolved → Evaluates heap view resolved

/-- What is asked of the resolution of a source: a right answer, and a cache that stays right. -/
def Resolves (heap : Address → EncodedView) (recurse : Address → Resolving ResolvedEncodedView) : Prop :=
  ∀ view, Ensures (Consistent heap) (recurse view) (fun resolved resolver => Consistent heap resolver ∧
    Evaluates heap view resolved)
    fun _ => True

section

variable {heap : Address → EncodedView} {recurse : Address → Resolving ResolvedEncodedView} {view owner : Address}
  {bindings : EncodedBufferBindings} {count : Nat}

/-- The table of the view itself is bound to the route that stays in the view. -/
theorem bindsRoute_own (from_ : EncodedBufferBindings.fromView (heap view) = .ok bindings) :
    BindsRoute heap (ownTable bindings view) ⟨view, []⟩ where
  viewId := rfl
  bindings := from_
  selects _ := rfl
  scopes source target := by
    constructor
    · intro found
      cases found
    · intro known
      exact absurd known.1 known.2

/-- A view with rows of its own binds its one table to its own route. -/
theorem ownRoute_some (own : (layers heap view).own = some count)
    (from_ : EncodedBufferBindings.fromView (heap view) = .ok bindings) :
    List.Forall₂ (BindsRoute heap) [ownTable bindings view] (ownRoute (layers heap) view) := by
  rw [ownRoute, own, Option.isSome_some, if_pos rfl]
  exact .cons (bindsRoute_own from_) .nil

/-- A view without rows of its own binds nothing. -/
theorem ownRoute_none (own : (layers heap view).own = none) :
    List.Forall₂ (BindsRoute heap) [] (ownRoute (layers heap) view) := by
  rw [ownRoute, own]
  exact .nil

/-- A reference whose source is resolved: its step, and the tables it takes. -/
theorem inherits_single {segment : EncodedSegment} {source : Address} {resolved : ResolvedEncodedView}
    {map : ScopeMap}
    {name described : String} (right : Evaluates heap source resolved)
    (refers : segment.roleIs SEGMENT_OVERLAY_BASE ∨ segment.roleIs SEGMENT_COMPOSITE_MEMBER)
    (found : segment.source = some (some source))
    (read : (do readScopeMap (← bufferAttribute segment.anonymousScopeMap name described)) = .ok map) :
    Inherits heap ([segment].filterMap EncodedSegment.step)
      (selectSource source (applyScopeMap resolved.tables map) segment.selection) := by
  obtain ⟨-, grounded, bound⟩ := right
  have taken := bindsRoute_take bound map segment.selection
  rw [← EncodedSegment.rename_eq read] at taken
  rw [List.filterMap_cons, EncodedSegment.step_eq refers found, ← List.append_nil (selectSource _ _ _)]
  exact .cons grounded taken .nil

/-- A resolved member inherits the routes of its source. -/
theorem resolveMember_ensures (resolves : Resolves heap recurse) (previous : Option Bytes32)
    (segment : EncodedSegment) :
    Ensures (Consistent heap) (resolveMember heap recurse previous segment)
      (fun result resolver => Consistent heap resolver ∧
        Inherits heap ([segment].filterMap EncodedSegment.step) result.2 ∧ segment.roleIs SEGMENT_COMPOSITE_MEMBER)
      fun _ => True := by
  unfold resolveMember
  refine .check_bind (fun role isRole => .check_bind (fun _ isMember => ?_) fun _ _ => trivial) fun _ _ => trivial
  have member : segment.roleIs SEGMENT_COMPOSITE_MEMBER := by
    have same : role = SEGMENT_COMPOSITE_MEMBER := by simpa using isMember
    rw [EncodedSegment.roleIs, integerAttribute_ok isRole, same, decide_eq_true rfl]
  refine .check_bind (fun token _ => .check_bind (fun _ _ => .check_bind (fun source found => ?_) fun _ _ => trivial)
    fun _ _ => trivial) fun _ _ => trivial
  refine .bind_fact (resolves source) fun resolved right => ?_
  refine .check_bind (fun map read => .check_bind (fun tables taken => .pure fun resolver consistent => ?_)
    fun _ _ => trivial)
    fun _ _ => trivial
  refine ⟨consistent, ?_, member⟩
  rw [selectCompositeMember_ok taken]
  exact inherits_single right (.inr member) (sourceView_ok found) read

/-- The loop over the members appends the tables of each of them. -/
theorem resolveMembers_ensures (resolves : Resolves heap recurse) (segments : List EncodedSegment)
    (previous : Option Bytes32)
    (tables : List EncodedCompilationTableBinding) :
    Ensures (Consistent heap) (resolveMembers heap recurse previous tables segments)
      (fun result resolver => Consistent heap resolver ∧
        (∃ taken, result = tables ++ taken ∧ Inherits heap (segments.filterMap EncodedSegment.step) taken) ∧
        ∀ segment ∈ segments, segment.roleIs SEGMENT_COMPOSITE_MEMBER)
      fun _ => True := by
  induction segments generalizing previous tables with
  | nil =>
    refine .pure fun resolver consistent => ⟨consistent, ⟨[], (List.append_nil _).symm, .nil⟩, ?_⟩
    exact fun _ impossible => nomatch impossible
  | cons segment rest ih =>
    refine .bind_fact (resolveMember_ensures resolves previous segment) fun result known => ?_
    obtain ⟨inherits, member⟩ := known
    refine .check_bind (fun _ _ => ?_) fun _ _ => trivial
    refine (ih (some result.1) (tables ++ result.2)).weaken (fun _ => id) fun final resolver after => ?_
    obtain ⟨consistent, ⟨taken, same, others⟩, members⟩ := after
    refine ⟨consistent, ⟨result.2 ++ taken, ?_, ?_⟩, List.forall_mem_cons.mpr ⟨member, members⟩⟩
    · rw [same, List.append_assoc]
    · have joined := inherits.append others
      rwa [← List.filterMap_append] at joined

end

section

variable {heap : Address → EncodedView} {recurse : Address → Resolving ResolvedEncodedView} {view owner : Address}
  {bindings : EncodedBufferBindings} {count : Nat} {first : EncodedSegment} {rest : List EncodedSegment}
  (rows : (heap view).segments = some (some (first :: rest))) (counted : (heap view).rootCount = count)
  (from_ : EncodedBufferBindings.fromView (heap view) = .ok bindings)

include rows

/-- The steps of a view are those of its segments. -/
theorem layers_steps : (layers heap view).steps = (first :: rest).filterMap EncodedSegment.step := by
  rw [layers, EncodedView.layer, rows]
  rfl

include counted

/-- A view has rows of its own when one of its segments stands for them. -/
theorem layers_own :
    (layers heap view).own = if (first :: rest).any EncodedSegment.isOwn then some count else none := by
  rw [layers, EncodedView.layer, rows, counted]
  rfl

theorem validateDirectSegment_ok {done : Unit} (direct : validateDirectSegment (first :: rest) owner = .ok done) :
    (layers heap view).steps = [] ∧ (layers heap view).own = some count := by
  rw [layers_steps rows, layers_own rows counted]
  cases rest with
  | cons next others => cases direct
  | nil =>
    simp only [validateDirectSegment, CoreResult.bind_ok] at direct
    obtain ⟨role, isRole, mode, isMode, _, accepted, -⟩ := direct
    have both := refuse_ok.mp accepted
    simp only [ne_eq, Bool.or_eq_false_iff, decide_eq_false_iff_not, not_not] at both
    have own : first.isOwn := by
      simp [EncodedSegment.isOwn, EncodedSegment.roleIs_eq (integerAttribute_ok isRole), both.1]
    rw [List.filterMap_cons, EncodedSegment.step_of_isOwn own, List.any_cons, own]
    exact ⟨rfl, rfl⟩

include from_

/-- A single base has no table of its own, a delta is one. -/
theorem overlayDelta_ok {own : List EncodedCompilationTableBinding} (base : first.roleIs SEGMENT_OVERLAY_BASE)
    (few : rest.length ≤ 1) (delta : overlayDelta owner bindings count rest view = .ok own) :
    (layers heap view).steps = [first].filterMap EncodedSegment.step ∧
      List.Forall₂ (BindsRoute heap) own (ownRoute (layers heap) view) ∧ count = ((layers heap view).own).getD 0 := by
  have own_eq := layers_own rows counted
  rw [List.any_cons, EncodedSegment.isOwn_of_refers (.inl base), Bool.false_or] at own_eq
  rw [layers_steps rows]
  cases rest with
  | nil =>
    simp only [overlayDelta, CoreResult.bind_ok] at delta
    obtain ⟨_, accepted, done⟩ := delta
    have none_ : count = 0 := by simpa using accepted
    rw [List.any_nil, if_neg Bool.false_ne_true] at own_eq
    cases done
    exact ⟨rfl, ownRoute_none own_eq, by rw [own_eq, none_]; rfl⟩
  | cons segment others =>
    have last : others = [] := by
      rw [List.length_cons] at few
      exact List.eq_nil_of_length_eq_zero (by omega)
    simp only [overlayDelta, validateOverlayDeltaSegment, CoreResult.bind_ok] at delta
    obtain ⟨_, ⟨role, isRole, mode, isMode, _, accepted, -⟩, done⟩ := delta
    have both := refuse_ok.mp accepted
    simp only [ne_eq, Bool.or_eq_false_iff, decide_eq_false_iff_not, not_not] at both
    have isOwn : segment.isOwn := by
      simp [EncodedSegment.isOwn, EncodedSegment.roleIs_eq (integerAttribute_ok isRole), both.1]
    rw [List.any_cons, isOwn, Bool.true_or, if_pos rfl] at own_eq
    cases done
    refine ⟨?_, ownRoute_some own_eq from_, by rw [own_eq]; rfl⟩
    rw [last, List.filterMap_cons, List.filterMap_cons, List.filterMap_cons, EncodedSegment.step_of_isOwn isOwn]

/-- A bridge is a composite's own table. -/
theorem compositeBridge_ok {own : List EncodedCompilationTableBinding} {members : List EncodedSegment}
    {last : EncodedSegment}
    {hasBridge : Bool} (parts : first :: rest = members ++ (if hasBridge then [last] else []))
    (refer : ∀ segment ∈ members, segment.roleIs SEGMENT_COMPOSITE_MEMBER)
    (bridge : compositeBridge owner bindings count hasBridge last view = .ok own) :
    (layers heap view).steps = members.filterMap EncodedSegment.step ∧
      List.Forall₂ (BindsRoute heap) own (ownRoute (layers heap) view) ∧ count = ((layers heap view).own).getD 0 := by
  have own_eq := layers_own rows counted
  have others : members.any EncodedSegment.isOwn = false := by
    rw [List.any_eq_false]
    intro segment member
    rw [EncodedSegment.isOwn_of_refers (.inr (refer segment member))]
    exact Bool.false_ne_true
  rw [parts, List.any_append, others, Bool.false_or] at own_eq
  rw [layers_steps rows, parts, List.filterMap_append]
  cases hasBridge with
  | false =>
    simp only [compositeBridge, Bool.false_eq_true, if_false, CoreResult.bind_ok] at bridge
    obtain ⟨_, accepted, done⟩ := bridge
    have none_ : count = 0 := by simpa using accepted
    rw [if_neg Bool.false_ne_true, List.any_nil, if_neg Bool.false_ne_true] at own_eq
    cases done
    refine ⟨?_, ownRoute_none own_eq, by rw [own_eq, none_]; rfl⟩
    rw [if_neg Bool.false_ne_true]
    exact List.append_nil _
  | true =>
    simp only [compositeBridge, if_true, validateCompositeBridgeSegment, CoreResult.bind_ok] at bridge
    obtain ⟨_, ⟨role, isRole, mode, isMode, _, accepted, -⟩, done⟩ := bridge
    have both := refuse_ok.mp accepted
    simp only [ne_eq, Bool.or_eq_false_iff, decide_eq_false_iff_not, not_not] at both
    have isOwn : last.isOwn := by
      simp [EncodedSegment.isOwn, EncodedSegment.roleIs_eq (integerAttribute_ok isRole), both.1]
    rw [if_pos rfl, List.any_cons, isOwn, Bool.true_or, if_pos rfl] at own_eq
    cases done
    refine ⟨?_, ownRoute_some own_eq from_, by rw [own_eq]; rfl⟩
    rw [if_pos rfl, List.filterMap_cons, EncodedSegment.step_of_isOwn isOwn]
    exact List.append_nil _

/-- A resolved overlay has the tables its layers evaluate to. -/
theorem resolveOverlay_ensures (resolves : Resolves heap recurse) (base : first.roleIs SEGMENT_OVERLAY_BASE) :
    Ensures (Consistent heap) (resolveOverlay heap recurse owner bindings count first rest view)
      (fun resolved resolver => Consistent heap resolver ∧ Evaluates heap view resolved) fun _ => True := by
  unfold resolveOverlay
  refine .check_bind
    (fun _ short => .check_bind (fun _ _ => .check_bind (fun _ _ => .check_bind (fun source found => ?_)
    fun _ _ => trivial) fun _ _ => trivial) fun _ _ => trivial) fun _ _ => trivial
  have few : rest.length ≤ 1 := by simpa using short
  refine .bind_fact (resolves source) fun resolved right => ?_
  refine .check_bind (fun map read => .check_bind (fun tables taken => .check_bind (fun own delta => .check_bind
    (fun _ _ => .pure fun resolver consistent => ?_) fun _ _ => trivial) fun _ _ => trivial) fun _ _ => trivial)
      fun _ _ => trivial
  obtain ⟨steps, bound, counts⟩ := overlayDelta_ok rows counted from_ base few delta
  refine ⟨consistent, .of_parts ?_ bound counts⟩
  rw [steps, selectOverlayBase_ok taken]
  exact inherits_single right (.inl base) (sourceView_ok found) read

/-- A resolved composite has the tables its layers evaluate to. -/
theorem resolveComposite_ensures (resolves : Resolves heap recurse) :
    Ensures (Consistent heap) (resolveComposite heap recurse owner bindings count first rest view)
      (fun resolved resolver => Consistent heap resolver ∧ Evaluates heap view resolved) fun _ => True := by
  unfold resolveComposite
  refine .check_bind (fun lastRole _ => .check_bind (fun _ _ => ?_) fun _ _ => trivial) fun _ _ => trivial
  refine .bind_fact (resolveMembers_ensures resolves _ none []) fun tables known => ?_
  obtain ⟨⟨taken, same, inherits⟩, members⟩ := known
  rw [List.nil_append] at same
  subst same
  refine .check_bind (fun own bridge => .check_bind (fun _ _ => .pure fun resolver consistent => ?_)
    fun _ _ => trivial)
    fun _ _ => trivial
  have parts : first :: rest =
      (first :: rest).take (if decide (lastRole = SEGMENT_COMPOSITE_BRIDGE) then (first :: rest).length - 1
        else (first :: rest).length) ++
        (if decide (lastRole = SEGMENT_COMPOSITE_BRIDGE) then [rest.getLastD first] else []) := by
    cases decide (lastRole = SEGMENT_COMPOSITE_BRIDGE) with
    | false => simp
    | true =>
      rw [if_pos rfl, if_pos rfl, ← List.dropLast_eq_take, ← List.getLast_eq_getLastD (List.cons_ne_nil first rest),
        List.dropLast_append_getLast]
  obtain ⟨steps, bound, counts⟩ := compositeBridge_ok rows counted from_ parts members bridge
  refine ⟨consistent, .of_parts ?_ bound counts⟩
  rw [steps]
  exact inherits

end

section

variable {heap : Address → EncodedView}

theorem Consistent.of_cache {resolver later : CompositeResolver} (consistent : Consistent heap resolver)
    (same : later.cache = resolver.cache) : Consistent heap later := by
  intro view resolved found
  rw [same] at found
  exact consistent view resolved found

/-- A cache stays right when a resolved view is put into it with the tables it evaluates to. -/
theorem Consistent.remember {resolver : CompositeResolver} {view : Address} {resolved : ResolvedEncodedView}
    (consistent : Consistent heap resolver) (right : Evaluates heap view resolved) :
    Consistent heap (resolver.remember view resolved) := by
  intro other found listed
  rw [CompositeResolver.remember, List.lookup_cons] at listed
  by_cases same : other = view
  · rw [beq_iff_eq.mpr same] at listed
    rw [same, ← Option.some.inj listed]
    exact right
  · rw [beq_eq_false_iff_ne.mpr same] at listed
    refine consistent other found ?_
    rw [← listed]
    exact (Ordered.lookup_filter_ne same _).symm

/-- A resource counter leaves the cache as it is. -/
theorem countUp_ensures {field : CompositeResolver → Nat} {store : Nat → CompositeResolver → CompositeResolver}
    (amount bound : Nat) (overflow : String)
    (keeps : ∀ total resolver, (store total resolver).cache = resolver.cache) :
    Ensures (Consistent heap) (countUp field store amount bound overflow) (fun _ => Consistent heap)
      fun _ => True := by
  unfold countUp
  refine .read_bind fun current => .check_bind (fun _ _ => .write fun resolver consistent => ?_) fun _ _ => trivial
  exact consistent.of_cache (keeps _ resolver)

theorem countPostingBytes_ensures (segment : EncodedSegment) :
    Ensures (Consistent heap) (countPostingBytes segment) (fun _ => Consistent heap) fun _ => True := by
  unfold countPostingBytes
  exact .check_bind (fun rootIds _ => countUp_ensures _ _ _ fun _ _ => rfl) fun _ _ => trivial

theorem EncodedView.rootCount_eq {view : EncodedView} {bindings : EncodedBufferBindings} {shape : EncodedColumnShape}
    (from_ : EncodedBufferBindings.fromView view = .ok bindings)
    (valid : (do validateColumnShape (← bindings.columns) .default) = .ok shape) :
    view.rootCount = shape.rootCount := by
  obtain ⟨columns, read, accepted⟩ := CoreResult.bind_ok.mp valid
  have both : (EncodedBufferBindings.fromView view >>= EncodedBufferBindings.columns) = .ok columns :=
    CoreResult.bind_ok.mpr ⟨bindings, from_, read⟩
  rw [EncodedView.rootCount, both, validateColumnShape_rootCount accepted]

/-- What is resolved without the cache is what the layers evaluate to. -/
theorem resolveUncached_ensures {recurse : Address → Resolving ResolvedEncodedView} (resolves : Resolves heap recurse)
    (view : Address) :
    Ensures (Consistent heap) (resolveUncached heap recurse view)
      (fun resolved resolver => Consistent heap resolver ∧ Evaluates heap view resolved) fun _ => True := by
  unfold resolveUncached
  refine .check_bind (fun envelope _ => .read_bind fun expected => .check_bind (fun _ _ =>
    .check_bind (fun bindings from_ => .check_bind (fun validated valid => .check_bind (fun raw attribute_ =>
      .check_bind (fun segments exact_ => ?_) fun _ _ => trivial) fun _ _ => trivial) fun _ _ => trivial)
        fun _ _ => trivial)
    fun _ _ => trivial) fun _ _ => trivial
  have counted := EncodedView.rootCount_eq from_ valid
  cases segments with
  | nil => exact .raise fun _ _ => trivial
  | cons first rest =>
    have rows : (heap view).segments = some (some (first :: rest)) := by
      rw [requiredAttribute, okOr_ok] at attribute_
      rw [attribute_, okOr_ok.mp exact_]
    refine .check_bind (fun _ _ => .bind (countUp_ensures _ _ _ fun _ _ => rfl) fun _ =>
      .bind (.each fun segment _ => countPostingBytes_ensures segment) fun _ =>
        .check_bind (fun role isRole => ?_) fun _ _ => trivial) fun _ _ => trivial
    have found := integerAttribute_ok isRole
    split
    · refine .check_bind (fun _ direct => .pure fun resolver consistent => ⟨consistent, ?_⟩) fun _ _ => trivial
      obtain ⟨steps, own⟩ := validateDirectSegment_ok rows counted direct
      have inherits : Inherits heap (layers heap view).steps [] := steps ▸ .nil
      exact .of_parts inherits (ownRoute_some own from_) (by rw [own]; rfl)
    · split
      · next base =>
        exact resolveOverlay_ensures rows counted from_ resolves
          (by rw [EncodedSegment.roleIs_eq found, base, decide_eq_true rfl])
      · split
        · exact resolveComposite_ensures rows counted from_ resolves
        · exact .raise fun _ _ => trivial

/-- The guard against cycles changes nothing in what is resolved. -/
theorem resolveGuarded_ensures {view : Address} {fresh : Resolving ResolvedEncodedView}
    (ensures : Ensures (Consistent heap) fresh
      (fun resolved resolver => Consistent heap resolver ∧ Evaluates heap view resolved) fun _ => True) :
    Ensures (Consistent heap) (resolveGuarded view fresh)
      (fun resolved resolver => Consistent heap resolver ∧ Evaluates heap view resolved) fun _ => True := by
  unfold resolveGuarded
  refine .write_bind (fun resolver consistent => consistent.of_cache rfl) (.read_bind fun active => ?_)
  split
  · exact .raise fun _ _ => trivial
  · have known : Ensures (Consistent heap) (read fun resolver => resolver.cache.lookup view : Resolving _)
        (fun found resolver => Consistent heap resolver ∧ ∀ cached, found = some cached → Evaluates heap view cached)
        fun _ => True :=
      .read fun resolver consistent => ⟨consistent, consistent view⟩
    refine .bind_fact known fun found right => ?_
    cases found with
    | some cached => exact .pure fun resolver consistent => ⟨consistent, right cached rfl⟩
    | none =>
      refine .read_bind fun size => ?_
      split
      · exact .raise fun _ _ => trivial
      · exact ensures

/-- A view that is not in the cache is resolved to what its layers evaluate to, and remembered so. -/
theorem resolveFresh_ensures {recurse : Address → Resolving ResolvedEncodedView} (resolves : Resolves heap recurse)
    (view : Address) :
    Ensures (Consistent heap) (resolveFresh heap recurse view)
      (fun resolved resolver => Consistent heap resolver ∧ Evaluates heap view resolved) fun _ => True := by
  unfold resolveFresh
  have within : Ensures (Consistent heap) (whileActive view (resolveUncached heap recurse view))
      (fun resolved resolver => Consistent heap resolver ∧ Evaluates heap view resolved) fun _ => True :=
    .write_bind (fun resolver consistent => consistent.of_cache rfl) ((resolveUncached_ensures resolves view).closing
      (fun resolved resolver after => ⟨after.1.of_cache rfl, after.2⟩) fun _ _ => trivial)
  refine .bind_fact within fun resolved right => ?_
  exact .write_bind (fun resolver consistent => consistent.remember right)
    (.pure fun resolver consistent => ⟨consistent, right⟩)

/-- A resolution that ends well is right, and leaves a cache that is. -/
theorem resolveWithin_ensures (depth : Nat) : Resolves heap (resolveWithin heap depth) := by
  induction depth with
  | zero => exact fun view => resolveGuarded_ensures (.raise fun _ _ => trivial)
  | succ depth ih => exact fun view => resolveGuarded_ensures (resolveFresh_ensures ih view)

/-- The states a resolver comes to, one resolution after another. -/
inductive Reached (heap : Address → EncodedView) : CompositeResolver → Prop
  | new (modelSchema : Nat) (topViewId : Address) : Reached heap (.new modelSchema topViewId)
  | resolve {resolver later : CompositeResolver} {view : Address} {resolved : ResolvedEncodedView}
      (reached : Reached heap resolver) (resolves : resolve heap view resolver = (.ok resolved, later)) :
      Reached heap later
  | resolveTop {resolver later : CompositeResolver} {view : Address} {resolved : ResolvedEncodedView}
      (reached : Reached heap resolver) (resolves : resolveTop heap view resolver = (.ok resolved, later)) :
      Reached heap later

/-- A request is answered with what the layers evaluate to, from the cache or afresh. -/
theorem resolveTop_ensures (view : Address) :
    Ensures (Consistent heap) (resolveTop heap view)
      (fun resolved resolver => Consistent heap resolver ∧ Evaluates heap view resolved) fun _ => True := by
  unfold resolveTop
  refine .write_bind (fun resolver consistent => consistent.of_cache rfl)
    (.bind_fact (resolveWithin_ensures 256 view) fun resolved right => ?_)
  exact .write_bind (fun resolver consistent => consistent.of_cache rfl)
    (.pure fun resolver consistent => ⟨consistent, right⟩)

/-- The cache of every resolver that requests can reach is right. -/
theorem Reached.consistent {resolver : CompositeResolver} (reached : Reached heap resolver) :
    Consistent heap resolver := by
  induction reached with
  | new modelSchema topViewId => exact fun _ _ found => nomatch found
  | resolve _ resolves ih => exact ((resolveWithin_ensures 256 _ _ ih).1 _ _ resolves).1
  | resolveTop _ resolves ih => exact ((resolveTop_ensures _ _ ih).1 _ _ resolves).1

/-- The roots a table selects, with its scope map. -/
def tableRoots (heap : Address → EncodedView) (table : EncodedCompilationTableBinding) :
    List (Root Address Bytes32) :=
  ((ownRoots (layers heap) table.viewId).filter fun root => table.selection.selects root.row).map
    fun root => ⟨root.view, root.row, table.scopeMap.rename⟩

/-- A table bound to a route selects the roots of that route. -/
theorem BindsRoute.tableRoots_eq {table : EncodedCompilationTableBinding} {route : Route Address Bytes32}
    (binds : BindsRoute heap table route) : tableRoots heap table = route.roots (layers heap) := by
  have roots (root : Root Address Bytes32) (member : root ∈ ownRoots (layers heap) route.view) :
    root.rename = id := by
    obtain ⟨row, -, rfl⟩ := List.mem_map.mp member
    rfl
  rw [tableRoots, Route.roots, Binds.rename_eq binds, binds.viewId]
  simp only [binds.selects]
  refine List.map_congr_left fun root member => ?_
  rw [Root.renamed, roots root (List.mem_of_mem_filter member)]
  rfl

theorem flatMap_tableRoots {tables : List EncodedCompilationTableBinding} {below : List (Route Address Bytes32)}
    (bound : List.Forall₂ (BindsRoute heap) tables below) :
    tables.flatMap (tableRoots heap) = below.flatMap (Route.roots (layers heap)) := by
  induction bound with
  | nil => rfl
  | cons binds _ ih => rw [List.flatMap_cons, List.flatMap_cons, binds.tableRoots_eq, ih]

end

section

variable {heap : Address → EncodedView} {recurse others : Address → Resolving ResolvedEncodedView}
    {active : Finset Address}

/-- The views under resolution. -/
def Active (active : Finset Address) (resolver : CompositeResolver) : Prop := resolver.active = active

theorem countUp_agrees {field : CompositeResolver → Nat} {store : Nat → CompositeResolver → CompositeResolver}
    (amount bound : Nat) (overflow : String)
    (keeps : ∀ total resolver, (store total resolver).active = resolver.active) :
    Agrees (Active active) (countUp field store amount bound overflow)
      (countUp field store amount bound overflow) := by
  unfold countUp
  exact .bind (.read _) fun current => .bind (.check _) fun _ => .write fun resolver same =>
    (keeps _ resolver).trans same

theorem resolveMembers_agrees (agrees : ∀ view, Agrees (Active active) (recurse view) (others view))
    (segments : List EncodedSegment) (previous : Option Bytes32) (tables : List EncodedCompilationTableBinding) :
    Agrees (Active active) (resolveMembers heap recurse previous tables segments)
      (resolveMembers heap others previous tables segments) := by
  induction segments generalizing previous tables with
  | nil => exact .pure _
  | cons segment rest ih =>
    have turn : Agrees (Active active) (resolveMember heap recurse previous segment)
      (resolveMember heap others previous segment) := by
      unfold resolveMember
      exact .bind (.check _) fun _ => .bind (.check _) fun _ => .bind (.check _) fun _ => .bind (.check _) fun _ =>
        .bind (.check _) fun source => .bind (agrees source) fun _ => .bind (.check _) fun _ =>
          .bind (.check _) fun _ => .pure _
    exact .bind turn fun result => .bind (.check _) fun _ => ih _ _

/-- Two recursions that agree below a view resolve it alike. -/
theorem resolveUncached_agrees (agrees : ∀ view, Agrees (Active active) (recurse view) (others view))
    (view : Address) :
    Agrees (Active active) (resolveUncached heap recurse view) (resolveUncached heap others view) := by
  unfold resolveUncached
  refine .bind (.check _) fun _ => .bind (.read _) fun _ => .bind (.check _) fun _ => .bind (.check _) fun _ =>
    .bind (.check _) fun _ => .bind (.check _) fun _ => .bind (.check _) fun segments => ?_
  cases segments with
  | nil => exact .raise _
  | cons first rest =>
    refine .bind (.check _) fun _ => .bind (countUp_agrees _ _ _ fun _ _ => rfl) fun _ =>
      .bind (.each fun segment => ?_) fun _ =>
      .bind (.check _) fun _ => ?_
    · exact .bind (.check _) fun _ => countUp_agrees _ _ _ fun _ _ => rfl
    · split
      · exact .bind (.check _) fun _ => .pure _
      · split
        · exact .bind (.check _) fun _ => .bind (.check _) fun _ => .bind (.check _) fun _ =>
            .bind (.check _) fun source =>
            .bind (agrees source) fun _ => .bind (.check _) fun _ => .bind (.check _) fun _ =>
              .bind (.check _) fun _ =>
              .bind (.check _) fun _ => .pure _
        · split
          · exact .bind (.check _) fun _ => .bind (.check _) fun _ =>
              .bind (resolveMembers_agrees agrees _ _ _) fun _ =>
              .bind (.check _) fun _ => .bind (.check _) fun _ => .pure _
          · exact .raise _

theorem resolveGuarded_agrees {view : Address} {fresh freshes : Resolving ResolvedEncodedView}
    (agrees : view ∉ active → active.card < 256 → Agrees (Active active) fresh freshes) :
    Agrees (Active active) (resolveGuarded view fresh) (resolveGuarded view freshes) := by
  unfold resolveGuarded
  refine .bind (.write fun _ => id) fun _ => .read_bind fun resolver isActive => ?_
  rw [isActive]
  split
  · exact .raise _
  · next apart =>
    refine .bind (.read _) fun found => ?_
    cases found with
    | some cached => exact .pure _
    | none =>
      refine .read_bind fun resolver isActive => ?_
      rw [isActive]
      split
      · exact .raise _
      · next few => exact agrees apart (by omega)

/-- Recursions that agree once the view is active resolve it alike. -/
theorem resolveFresh_agrees {view : Address} (apart : view ∉ active)
    (agrees : ∀ below, Agrees (Active (insert view active)) (recurse below) (others below)) :
    Agrees (Active active) (resolveFresh heap recurse view) (resolveFresh heap others view) := by
  have within : Agrees (Active active) (whileActive view (resolveUncached heap recurse view))
      (whileActive view (resolveUncached heap others view)) := by
    refine (resolveUncached_agrees agrees view).within (fun resolver isActive => ?_) fun resolver isActive => ?_
    · exact congrArg (insert view) (isActive : resolver.active = active)
    · exact (congrArg (Finset.erase · view) isActive).trans (Finset.erase_insert apart)
  exact .bind within fun resolved => .bind (.write fun _ => id) fun _ => .pure _

/-- The bound on the depth is never met: the limit on the views under resolution comes first. -/
theorem resolveWithin_agrees (depth : Nat) (view : Address) (deep : 256 ≤ depth + active.card) :
    Agrees (Active active) (resolveWithin heap depth view) (resolveWithin heap (depth + 1) view) := by
  induction depth generalizing view active with
  | zero => exact resolveGuarded_agrees fun _ few => absurd few (by omega)
  | succ depth ih =>
    refine resolveGuarded_agrees fun apart _ => resolveFresh_agrees apart fun below => ih below ?_
    rw [Finset.card_insert_of_notMem apart]
    omega

/-- Depth beyond the guard's 256 changes nothing. -/
theorem resolveWithin_eq (extra : Nat) (view : Address) :
    resolveWithin heap (256 + extra) view = resolve heap view := by
  induction extra with
  | zero => rfl
  | succ extra ih =>
    rw [← ih]
    funext resolver
    exact ((resolveWithin_agrees (256 + extra) view (by omega)) resolver rfl).1.symm

end

/-- Whatever has been resolved before, an answer is right. -/
theorem evaluates_of_accepts {heap : Address → EncodedView} {resolver later : CompositeResolver} {view : Address}
    {resolved : ResolvedEncodedView} (reached : Reached heap resolver)
    (accepts : resolve heap view resolver = (.ok resolved, later) ∨
      resolveTop heap view resolver = (.ok resolved, later)) :
    Evaluates heap view resolved := by
  rcases accepts with inner | top
  · exact ((resolveWithin_ensures 256 view resolver reached.consistent).1 _ _ inner).2
  · exact ((resolveTop_ensures view resolver reached.consistent).1 _ _ top).2

/-- Resolution is step by step evaluation. Below a view that a resolver accepts the graph is acyclic, and the tables
of the answer are the routes of that graph: each is the table of the view at the end of its route, its plan selects
the roots that no step of the route excludes, and its map holds the pairs that the composition of the maps of the
route does not leave alone. So the roots selected, with the maps applied, are those of the view. -/
theorem resolver_evaluates {heap : Address → EncodedView} {resolver later : CompositeResolver} {view : Address}
    {resolved : ResolvedEncodedView} (reached : Reached heap resolver)
    (accepts : resolve heap view resolver = (.ok resolved, later) ∨
      resolveTop heap view resolver = (.ok resolved, later)) :
    ∃ grounded : Acc (Source (layers heap)) view,
      List.Forall₂ (BindsRoute heap) resolved.tables (routes (layers heap) view grounded) ∧
        resolved.tables.flatMap (tableRoots heap) = roots (layers heap) view grounded := by
  obtain ⟨-, grounded, bound⟩ := evaluates_of_accepts reached accepts
  refine ⟨grounded, bound, ?_⟩
  rw [flatMap_tableRoots bound, roots_eq_flatMap]

/-- A memoryview the resolver reads. -/
def plainBuffer (data : List UInt8) : Option PyValue := some (.memoryview ⟨true, 1, 1, true, "B", data⟩)

/-- A view of some roots, with its own address as its owner. -/
def plainView (address : Address) (rootIds : List UInt8) (segments : List EncodedSegment) : EncodedView where
  envelope := .ok 2
  owner := some address
  ownerModelSchema := .ok 2
  buffers := some (some [("root_kinds", .memoryview ⟨true, 1, 1, true, "B", List.replicate (rootIds.length / 4) 2⟩),
    ("root_ids", .memoryview ⟨true, 1, 1, true, "B", rootIds⟩),
    ("node_tags", .memoryview ⟨true, 1, 1, true, "B", []⟩),
    ("node_field_offsets", .memoryview ⟨true, 1, 1, true, "B", List.replicate 8 0⟩),
    ("field_kinds", .memoryview ⟨true, 1, 1, true, "B", []⟩),
    ("field_values", .memoryview ⟨true, 1, 1, true, "B", []⟩),
    ("field_lengths", .memoryview ⟨true, 1, 1, true, "B", []⟩),
    ("item_kinds", .memoryview ⟨true, 1, 1, true, "B", []⟩),
    ("item_values", .memoryview ⟨true, 1, 1, true, "B", []⟩),
    ("item_lengths", .memoryview ⟨true, 1, 1, true, "B", []⟩),
    ("scalar_bytes", .memoryview ⟨true, 1, 1, true, "B", []⟩)])
  segments := some (some segments)
  fingerprint := .ok ()

/-- An overlay that takes the first root out of a view of two, and renames a scope. -/
def overlayHeap : Address → EncodedView
  | 1 => plainView 1 [1, 0, 0, 0, 1, 0, 0, 0]
      [⟨some (.int 1), some (.int 0), some 1, some none, some .none, plainBuffer [], plainBuffer []⟩]
  | address => plainView address []
      [⟨some (.int 2), some (.int 2), some 1, some (some 1), some .none, plainBuffer [1, 0, 0, 0],
        plainBuffer (List.replicate 32 1 ++ List.replicate 32 2)⟩]

theorem resolver_evaluates_overlay : ∃ resolved later, resolveTop overlayHeap 2 (.new 2 2) = (.ok resolved, later) ∧
    ∃ grounded : Acc (Source (layers overlayHeap)) 2,
      List.Forall₂ (BindsRoute overlayHeap) resolved.tables (routes (layers overlayHeap) 2 grounded) ∧
        resolved.tables.flatMap (tableRoots overlayHeap) = roots (layers overlayHeap) 2 grounded :=
  ⟨_, _, rfl, resolver_evaluates (.new 2 2) (.inr rfl)⟩

end PyElk.Native
