import PyElk.Native.ValidRows

open Raising

namespace PyElk.Native

/-- How far the items and the scalars are covered behind a component. -/
def Component.after (cursors : Cursors) (component : Component) : Cursors :=
  if isCollection component.kind then ⟨cursors.item + component.length, cursors.scalar⟩
  else if isScalar component.kind ∨ component.kind = COMPONENT_INTEGER then
    ⟨cursors.item, cursors.scalar + component.length⟩
  else cursors

/-- A component that starts where those in front of it end, and that is zero where it says nothing. -/
structure Component.Placed (columns : EncodedColumns) (cursors : Cursors) (component : Component) : Prop where
  none : component.kind = COMPONENT_NONE → component.value = 0 ∧ component.length = 0
  node : component.kind = COMPONENT_NODE → component.length = 0
  payload : isScalar component.kind ∨ component.kind = COMPONENT_INTEGER → component.value = cursors.scalar
  collection : isCollection component.kind → component.value = cursors.item
  item : isCollection component.kind → ∀ item, component.value ≤ item → item < component.value + component.length →
    (columns.item item).length = 0

namespace EncodedColumns

/-- How far the items and the scalars are covered in front of a field. -/
def cursorsAt (columns : EncodedColumns) (index : Nat) : Cursors :=
  (columns.fields 0 index).foldl Component.after ⟨0, 0⟩

/-- Every field starts where those in front of it end, and nothing is left behind the last one. -/
structure Covered (columns : EncodedColumns) (fieldCount itemCount : Nat) : Prop where
  placed : ∀ index < fieldCount, (columns.field index).Placed columns (columns.cursorsAt index)
  last : columns.cursorsAt fieldCount = ⟨itemCount, columns.scalarBytes.length⟩

variable {columns : EncodedColumns} {nodeCount itemCount fieldCount maxWork : Nat}

theorem cursorsAt_succ (index : Nat) :
    columns.cursorsAt (index + 1) = (columns.field index).after (columns.cursorsAt index) := by
  rw [cursorsAt, fields, List.range'_1_concat, List.map_append, List.foldl_append, Nat.zero_add]
  rfl

/-- A leaf starts at the cursor it is given. -/
theorem validateLeafComponent_placed {component : Component} {cursors : Cursors} {later : Nat}
    (accepted : validateLeafComponent component.kind component.value component.length nodeCount columns.scalarBytes
      cursors.scalar =
      .ok later) :
    (isCollection component.kind = false → component.Placed columns cursors) ∧
      (isCollection component.kind = false → component.after cursors = ⟨cursors.item, later⟩) := by
  rw [validateLeafComponent] at accepted
  split at accepted
  · next absent =>
    simp only [CoreResult.bind_ok, refuse_ok, Bool.or_eq_false_iff, decide_eq_false_iff_not, ne_eq,
      not_not] at accepted
    obtain ⟨_, zero, same⟩ := accepted
    refine ⟨fun leaf => ⟨fun _ => zero, fun _ => zero.2, fun payload => ?_, fun collection => ?_,
      fun collection => ?_⟩, fun leaf => ?_⟩
    · rw [absent] at payload; exact absurd payload (by decide)
    · rw [absent] at collection; exact absurd collection (by decide)
    · rw [absent] at collection; exact absurd collection (by decide)
    · rw [Component.after, if_neg (by rw [absent]; decide), if_neg (by rw [absent]; decide), ← Except.ok.inj same]
  split at accepted
  · next node =>
    simp only [CoreResult.bind_ok, refuse_ok, decide_eq_false_iff_not, ne_eq, not_not] at accepted
    obtain ⟨_, zero, _, _, _, _, same⟩ := accepted
    refine ⟨fun leaf => ⟨fun absent => ?_, fun _ => zero, fun payload => ?_, fun collection => ?_,
      fun collection => ?_⟩, fun leaf => ?_⟩
    · rw [node] at absent; exact absurd absent (by decide)
    · rw [node] at payload; exact absurd payload (by decide)
    · rw [node] at collection; exact absurd collection (by decide)
    · rw [node] at collection; exact absurd collection (by decide)
    · rw [Component.after, if_neg (by rw [node]; decide), if_neg (by rw [node]; decide), ← Except.ok.inj same]
  split at accepted
  · next payload =>
    simp only [CoreResult.bind_ok, refuse_ok, okOr_ok, checkedAdd, Option.ite_none_right_eq_some, Option.some.injEq,
      decide_eq_false_iff_not, ne_eq, not_not] at accepted
    obtain ⟨_, start, end_, ⟨_, rfl⟩, _, _, detail⟩ := accepted
    have done : component.value + component.length = later := by
      split at detail
      · simp only [CoreResult.bind_ok] at detail
        obtain ⟨_, _, same⟩ := detail
        exact Except.ok.inj same
      split at detail
      · simp only [CoreResult.bind_ok] at detail
        obtain ⟨_, _, rest⟩ := detail
        split at rest
        · simp only [CoreResult.bind_ok] at rest
          obtain ⟨_, _, _, _, same⟩ := rest
          exact Except.ok.inj same
        · exact Except.ok.inj rest
      split at detail
      · simp only [CoreResult.bind_ok] at detail
        obtain ⟨_, _, _, _, same⟩ := detail
        exact Except.ok.inj same
      · exact Except.ok.inj detail
    refine ⟨fun leaf => ⟨fun absent => ?_, fun node => ?_, fun _ => start, fun collection => ?_,
      fun collection => ?_⟩, fun leaf => ?_⟩
    · rw [absent] at payload; exact absurd payload (by decide)
    · rw [node] at payload; exact absurd payload (by decide)
    · rw [leaf] at collection; cases collection
    · rw [leaf] at collection; cases collection
    · rw [Component.after, if_neg (by rw [leaf]; decide), if_pos payload, ← done, start]
  split at accepted
  · cases accepted
  · cases accepted

/-- The items of an accepted collection are nodes, which cover no scalars. -/
theorem validateItem_placed {location : FieldLocation} {expectedKind item : Nat} {itemRole : NodeRole}
    {state : Option Nat × Nat} :
    Returns (validateItem columns nodeCount maxWork location expectedKind itemRole state item) fun later =>
      later.2 = state.2 ∧ (columns.item item).length = 0 := by
  refine .bind_any fun _ => .check_bind fun parts read => ?_
  have same := item_parts read
  subst same
  refine .check_bind fun _ role => ?_
  simp only [validateCollectionItemRole, CoreResult.bind_ok, refuse_ok, decide_eq_false_iff_not, ne_eq,
    not_not] at role
  obtain ⟨_, node, _⟩ := role
  have leaf : isCollection (columns.item item).kind = false := not_collection node
  have rest : ∀ previous : Option Nat, Returns (do
      claimLeafScanWork (columns.item item).kind (columns.item item).length maxWork
      let scalarCursor ← check (validateLeafComponent (columns.item item).kind (columns.item item).value
        (columns.item item).length nodeCount columns.scalarBytes state.2)
      pure (previous, scalarCursor) : Metering (Option Nat × Nat)) fun later =>
        later.2 = state.2 ∧ (columns.item item).length = 0 := by
    intro previous
    refine .bind_any fun _ => .check_bind fun cursor accepted => .pure ?_
    obtain ⟨placed, after⟩ :=
      @validateLeafComponent_placed columns nodeCount (columns.item item) ⟨0, state.2⟩ cursor accepted
    have behind := after leaf
    rw [Component.after, if_neg (by rw [leaf]; decide), if_neg (by rw [node]; decide), Cursors.mk.injEq] at behind
    exact ⟨behind.2.symm, (placed leaf).node node⟩
  by_cases set : expectedKind = COMPONENT_SET
  · refine .if_pos set (.check_bind fun identifier _ => .check_bind fun _ _ => ?_)
    exact rest _
  · exact .if_neg set (rest _)

/-- The kind of a collection role is that of a collection. -/
theorem isCollection_of_role {role : FieldRole} {expected : Nat × NodeRole} (same : role.collection = some expected) :
    isCollection expected.1 := by
  cases role with
  | set inner => rw [← Option.some.inj same]; rfl
  | sequence inner => rw [← Option.some.inj same]; rfl
  | scalar kind => cases same
  | entityKind => cases same
  | optionalText => cases same
  | node inner => cases same

theorem validateField_placed {tag start : Nat} {cursors : Cursors} {entry : FieldRole × Nat} :
    Returns (validateField columns nodeCount itemCount maxWork tag start cursors entry) fun later =>
      later = (columns.field (start + entry.2)).after cursors ∧
        (columns.field (start + entry.2)).Placed columns cursors := by
  refine .bind_any fun _ => ?_
  refine .check_bind fun field added => ?_
  rw [okOr_ok, checkedAdd, Option.ite_none_right_eq_some, Option.some.injEq] at added
  obtain ⟨_, rfl⟩ := added
  refine .check_bind fun parts read => ?_
  have same := field_parts read
  subst same
  cases role : entry.1.collection with
  | some expected =>
    dsimp only [Component.parts]
    refine .check_bind fun _ kind => .check_bind fun _ value => .check_bind fun end_ added =>
      .check_bind fun _ _ => ?_
    rw [refuse_ok, decide_eq_false_iff_not, not_not] at kind value
    rw [okOr_ok, checkedAdd, Option.ite_none_right_eq_some, Option.some.injEq] at added
    obtain ⟨_, rfl⟩ := added
    have collection : isCollection (columns.field (start + entry.2)).kind := kind ▸ isCollection_of_role role
    have leaf : ¬ isCollection (columns.field (start + entry.2)).kind = false := by rw [collection]; decide
    have items : Returns
      ((List.range' (columns.field (start + entry.2)).value (columns.field (start + entry.2)).length).foldlM
        (validateItem columns nodeCount maxWork ⟨tag, entry.2⟩ expected.1 expected.2)
          (none, cursors.scalar)) fun last =>
        last.2 = cursors.scalar ∧ ∀ item ∈ List.range' (columns.field (start + entry.2)).value
          (columns.field (start + entry.2)).length, (columns.item item).length = 0 := by
      refine Returns.foldlM (fun (state : Option Nat × Nat) done => state.2 = cursors.scalar ∧
        ∀ item ∈ done, (columns.item item).length = 0)
        ⟨rfl, fun item member => absurd member List.not_mem_nil⟩ fun done item rest state _ holds => ?_
      refine .weaken validateItem_placed fun later found => ⟨found.1.trans holds.1, fun other member => ?_⟩
      obtain before | here := List.mem_append.mp member
      · exact holds.2 other before
      · rw [List.mem_singleton.mp here]
        exact found.2
    refine .bind items fun last found => .pure ⟨?_, ?_⟩
    · rw [Component.after, if_pos collection, ← value, found.1]
    · refine ⟨fun absent => ?_, fun node => ?_, fun payload => ?_, fun _ => value, fun _ item above below => ?_⟩
      · rw [absent] at collection; exact absurd collection (by decide)
      · rw [node] at collection; exact absurd collection (by decide)
      · rw [not_collection_of_payload payload] at collection
        exact absurd collection (by decide)
      · exact found.2 item (List.mem_range'_1.mpr ⟨above, below⟩)
  | none =>
    dsimp only [Component.parts]
    refine .check_bind fun _ _ => .bind_any fun _ => .check_bind fun cursor accepted => .pure ?_
    have leaf := (validateLeafComponent_ok accepted).not_collection
    obtain ⟨placed, after⟩ := validateLeafComponent_placed accepted
    exact ⟨(after leaf).symm, placed leaf⟩

/-- The fields of a node go on from where those of the nodes in front of it end. -/
theorem validateNode_placed {node : Nat} (row : columns.NodeRow node) :
    Returns (validateNode columns nodeCount itemCount maxWork
      (columns.cursorsAt (columns.offsetOf node)) node) fun later =>
      later = columns.cursorsAt (columns.offsetOf (node + 1)) ∧
        ∀ index, columns.offsetOf node ≤ index → index < columns.offsetOf (node + 1) →
          (columns.field index).Placed columns (columns.cursorsAt index) := by
  refine .check_bind fun tag tagged => .check_bind fun roles found => .check_bind fun start started => ?_
  have tags := (uintAt_ok.mp tagged).2
  have starts := (uintAt_ok.mp started).2
  subst tags starts
  obtain ⟨roles', found', count⟩ := row.roles
  rw [okOr_ok] at found
  have both : roles = roles' := Option.some.inj (found.symm.trans found')
  subst both
  have fields : Returns (roles.zipIdx.foldlM (validateField columns nodeCount itemCount maxWork (columns.tagOf node)
      (columns.offsetOf node)) (columns.cursorsAt (columns.offsetOf node))) fun last =>
      last = columns.cursorsAt (columns.offsetOf node + roles.zipIdx.length) ∧
        ∀ position < roles.zipIdx.length, (columns.field (columns.offsetOf node + position)).Placed columns
          (columns.cursorsAt (columns.offsetOf node + position)) := by
    refine Returns.foldlM (fun cursors (done : List (FieldRole × Nat)) =>
      cursors = columns.cursorsAt (columns.offsetOf node + done.length) ∧
        ∀ position < done.length, (columns.field (columns.offsetOf node + position)).Placed columns
          (columns.cursorsAt (columns.offsetOf node + position)))
            ⟨rfl, fun position below => absurd below (Nat.not_lt_zero _)⟩
      fun done entry rest cursors whole holds => ?_
    obtain ⟨here, before⟩ := holds
    have position : entry.2 = done.length := by
      have inside : done.length < roles.zipIdx.length := by rw [whole, List.length_append, List.length_cons]; omega
      have at_ : roles.zipIdx[done.length] = entry := by
        simp only [whole, List.getElem_append_right (Nat.le_refl _), Nat.sub_self, List.getElem_cons_zero]
      rw [← at_, List.getElem_zipIdx, Nat.zero_add]
    refine .weaken validateField_placed fun later placed => ?_
    rw [position, here] at placed
    rw [List.length_append, List.length_singleton]
    refine ⟨placed.1.trans (cursorsAt_succ _).symm, fun other below => ?_⟩
    obtain earlier | same := Nat.lt_or_eq_of_le (Nat.lt_succ_iff.mp below)
    · exact before other earlier
    · rw [same]
      exact placed.2
  have ordered := row.ordered
  rw [arity] at count
  rw [List.length_zipIdx] at fields
  have end_ : columns.offsetOf node + roles.length = columns.offsetOf (node + 1) := by omega
  rw [end_] at fields
  refine .weaken fields fun last found => ⟨found.1, fun index above below => ?_⟩
  obtain ⟨position, rfl⟩ := Nat.exists_eq_add_of_le above
  exact found.2 position (by omega)

/-- The rows of the fields are those of the nodes. -/
theorem validateOffsets_bounds : Returns (validateOffsets columns nodeCount fieldCount maxWork) fun _ =>
    columns.offsetOf 0 = 0 ∧ columns.offsetOf nodeCount = fieldCount := by
  refine .bind_any fun _ => .check_bind fun first read => .check_bind fun _ zero => ?_
  rw [refuse_ok, decide_eq_false_iff_not, not_not] at zero
  have start : columns.offsetOf 0 = 0 := by rw [offsetOf, ← (uintAt_ok.mp read).2, zero]
  have rows : Returns ((List.range nodeCount).foldlM (validateOffset columns fieldCount maxWork) 0) fun last =>
      last = columns.offsetOf (List.range nodeCount).length := by
    refine Returns.foldlM (fun prior (done : List Nat) => prior = columns.offsetOf done.length) start.symm
      fun done node rest prior whole _ => ?_
    have position : node = done.length := by
      have inside : done.length < (List.range nodeCount).length := by
        rw [whole, List.length_append, List.length_cons]
        omega
      have at_ : (List.range nodeCount)[done.length] = node := by
        simp only [whole, List.getElem_append_right (Nat.le_refl _), Nat.sub_self, List.getElem_cons_zero]
      rw [← at_, List.getElem_range]
    refine .bind_any fun _ => .bind_any fun _ => .check_bind fun end_ ended => .bind_any fun _ => .bind_any fun _ =>
      .bind_any fun _ =>
      .bind_any fun _ => .pure ?_
    rw [(uintAt_ok.mp ended).2, position, List.length_append]
    rfl
  rw [List.length_range] at rows
  refine .bind rows fun last same => .check fun _ passed => ⟨start, ?_⟩
  rw [refuse_ok, decide_eq_false_iff_not, not_not] at passed
  rw [← same, passed]

/-- Accepted components cover the items and the scalars, each row by one of them. -/
theorem validateComponents_covered (rows : ∀ node < nodeCount, columns.NodeRow node)
    (start : columns.offsetOf 0 = 0) :
    Returns (validateComponents columns nodeCount itemCount maxWork) fun _ =>
      columns.Covered (columns.offsetOf nodeCount) itemCount := by
  have nodes : Returns
    ((List.range nodeCount).foldlM (validateNode columns nodeCount itemCount maxWork) ⟨0, 0⟩) fun last =>
      last = columns.cursorsAt (columns.offsetOf (List.range nodeCount).length) ∧
        ∀ index < columns.offsetOf (List.range nodeCount).length,
          (columns.field index).Placed columns (columns.cursorsAt index) := by
    refine Returns.foldlM (fun cursors (done : List Nat) => cursors =
      columns.cursorsAt (columns.offsetOf done.length) ∧
      ∀ index < columns.offsetOf done.length, (columns.field index).Placed columns (columns.cursorsAt index)) ?_
      fun done node rest cursors whole holds => ?_
    · rw [List.length_nil, start]
      exact ⟨rfl, fun index below => absurd below (Nat.not_lt_zero _)⟩
    · have inside : done.length < (List.range nodeCount).length := by
        rw [whole, List.length_append, List.length_cons]
        omega
      have position : node = done.length := by
        have at_ : (List.range nodeCount)[done.length] = node := by
          simp only [whole, List.getElem_append_right (Nat.le_refl _), Nat.sub_self, List.getElem_cons_zero]
        rw [← at_, List.getElem_range]
      rw [List.length_range] at inside
      obtain ⟨here, before⟩ := holds
      rw [here, position, List.length_append, List.length_singleton]
      refine .weaken (validateNode_placed (rows _ inside)) fun later found => ⟨found.1, fun index below => ?_⟩
      obtain earlier | later := Nat.lt_or_ge index (columns.offsetOf done.length)
      · exact before index earlier
      · exact found.2 index later below
  rw [List.length_range] at nodes
  refine .bind nodes fun last found => .check_bind fun _ items => .check fun _ scalars => ⟨found.2, ?_⟩
  rw [refuse_ok, decide_eq_false_iff_not, not_not] at items scalars
  rw [← found.1, ← items, ← scalars]

end EncodedColumns

end PyElk.Native
