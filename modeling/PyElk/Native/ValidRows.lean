import PyElk.Native.CanonicalRows
import PyElk.Native.Validation

open Raising

namespace PyElk.Native

theorem byteAt_ok {bytes : List UInt8} {index : Nat} {name : String} {byte : UInt8} :
    byteAt bytes index name = .ok byte ↔ bytes[index]? = some byte := okOr_ok

theorem nodeIdAt_ok {bytes : List UInt8} {index identifier : Nat} {name : String}
    (read : nodeIdAt bytes index name = .ok identifier) :
    identifier = uintOf 8 bytes index := by
  simp only [nodeIdAt, CoreResult.bind_ok, usizeAt, uintAt_ok] at read
  obtain ⟨value, ⟨_, rfl⟩, _, _, same⟩ := read
  exact (Except.ok.inj same).symm

namespace EncodedColumns

variable {columns : EncodedColumns} {nodeCount index : Nat}

theorem field_parts {parts : Nat × Nat × Nat} (read : componentParts (.field index) columns = .ok parts) :
    parts = (columns.field index).parts := by
  simp only [componentParts, CoreResult.bind_ok, byteAt_ok, usizeAt, uintAt_ok] at read
  obtain ⟨kind, found, value, ⟨_, rfl⟩, length, ⟨_, rfl⟩, same⟩ := read
  rw [← Except.ok.inj same, Component.parts, field, List.getD_eq_getElem?_getD, found]
  rfl

theorem item_parts {parts : Nat × Nat × Nat} (read : componentParts (.item index) columns = .ok parts) :
    parts = (columns.item index).parts := by
  simp only [componentParts, CoreResult.bind_ok, byteAt_ok, usizeAt, uintAt_ok] at read
  obtain ⟨kind, found, value, ⟨_, rfl⟩, length, ⟨_, rfl⟩, same⟩ := read
  rw [← Except.ok.inj same, Component.parts, item, List.getD_eq_getElem?_getD, found]
  rfl

/-- What `validate_leaf_component` accepts. -/
theorem validateLeafComponent_ok {component : Component} {cursor later : Nat}
    (accepted : validateLeafComponent component.kind component.value component.length nodeCount columns.scalarBytes
      cursor = .ok later) :
    component.ValidLeaf columns nodeCount := by
  rw [validateLeafComponent] at accepted
  split at accepted
  · next absent =>
    refine ⟨by rw [absent]; decide, fun node => ?_, fun scalar => ?_, fun integer => ?_⟩
    · rw [absent] at node; exact absurd node (by decide)
    · rw [absent] at scalar; exact absurd scalar (by decide)
    · rw [absent] at integer; exact absurd integer (by decide)
  split at accepted
  · next node =>
    simp only [CoreResult.bind_ok, nodeIdentifier_ok, nodeIndex_ok] at accepted
    obtain ⟨_, _, identifier, ⟨small, rfl⟩, child, ⟨nonzero, within, _⟩, _⟩ := accepted
    refine ⟨by rw [node]; decide, fun _ => ⟨nonzero, by omega, small⟩, fun scalar => ?_, fun integer => ?_⟩
    · rw [node] at scalar; exact absurd scalar (by decide)
    · rw [node] at integer; exact absurd integer (by decide)
  split at accepted
  · next payload =>
    simp only [CoreResult.bind_ok, refuse_ok, okOr_ok, checkedAdd, Option.ite_none_right_eq_some, Option.some.injEq,
      decide_eq_false_iff_not, not_lt, gt_iff_lt] at accepted
    obtain ⟨_, _, end_, ⟨small, rfl⟩, _, within, detail⟩ := accepted
    have known : component.kind ≤ COMPONENT_ENUM := by
      obtain scalar | integer := payload
      · obtain text | bytes | enum := isScalar_iff.mp scalar
        · rw [text]; decide
        · rw [bytes]; decide
        · rw [enum]
      · rw [integer]; decide
    refine ⟨known, fun node => ?_, fun _ => ⟨small, within⟩, fun integer => ?_⟩
    · rw [node] at payload; exact absurd payload (by decide)
    · rw [if_neg (by rw [integer]; decide), if_pos integer] at detail
      simp only [CoreResult.bind_ok, refuse_ok, decide_eq_false_iff_not] at detail
      obtain ⟨_, nonempty, minimal⟩ := detail
      refine ⟨within, small, nonempty, fun more zero => ?_⟩
      rw [if_pos more] at minimal
      simp only [CoreResult.bind_ok, byteAt_ok, refuse_ok, decide_eq_false_iff_not] at minimal
      obtain ⟨high, found, _, nonzero, _⟩ := minimal
      rw [found] at zero
      exact nonzero (Option.some.inj zero)
  split at accepted
  · cases accepted
  · cases accepted

section

variable {maxWork : Nat}

/-- The items of an accepted collection are nodes. -/
theorem validateItem_returns {location : FieldLocation} {expectedKind : Nat} {itemRole : NodeRole}
    {state : Option Nat × Nat} :
    Returns (validateItem columns nodeCount maxWork location expectedKind itemRole state index) fun _ =>
      columns.LegalItem nodeCount index := by
  refine .bind_any fun _ => .check_bind fun parts read => ?_
  have same := item_parts read
  subst same
  refine .check_bind fun _ role => ?_
  simp only [validateCollectionItemRole, CoreResult.bind_ok, refuse_ok, decide_eq_false_iff_not, ne_eq,
    not_not] at role
  obtain ⟨_, node, _⟩ := role
  have rest : ∀ previous : Option Nat, Returns (do
      claimLeafScanWork (columns.item index).kind (columns.item index).length maxWork
      let scalarCursor ← check (validateLeafComponent (columns.item index).kind (columns.item index).value
        (columns.item index).length nodeCount columns.scalarBytes state.2)
      pure (previous, scalarCursor) : Metering (Option Nat × Nat)) fun _ => columns.LegalItem nodeCount index := by
    intro previous
    refine .bind_any fun _ => .check_bind fun cursor accepted => .pure ?_
    exact ⟨read, node, validateLeafComponent_ok accepted⟩
  by_cases set : expectedKind = COMPONENT_SET
  · refine .if_pos set (.check_bind fun identifier _ => .check_bind fun _ _ => ?_)
    exact rest _
  · exact .if_neg set (rest _)

/-- An accepted field is a leaf, or a collection within the items. -/
theorem validateField_returns {itemCount tag start : Nat} {cursors : Cursors} {entry : FieldRole × Nat} :
    Returns (validateField columns nodeCount itemCount maxWork tag start cursors entry) fun _ =>
      columns.ValidField nodeCount (start + entry.2) := by
  refine .bind_any fun _ => ?_
  refine .check_bind fun field added => ?_
  rw [okOr_ok, checkedAdd, Option.ite_none_right_eq_some, Option.some.injEq] at added
  obtain ⟨_, rfl⟩ := added
  refine .check_bind fun parts read => ?_
  have same := field_parts read
  subst same
  cases role : entry.1.collection with
  | some expected =>
    have kinds : isCollection expected.1 := by
      revert role
      cases entry.1 with
      | set inner => intro same; rw [← Option.some.inj same]; rfl
      | sequence inner => intro same; rw [← Option.some.inj same]; rfl
      | scalar kind => intro same; cases same
      | entityKind => intro same; cases same
      | optionalText => intro same; cases same
      | node inner => intro same; cases same
    dsimp only [Component.parts]
    refine .check_bind fun _ kind => .check_bind fun _ _ => .check_bind fun end_ added => .check_bind fun _ _ => ?_
    rw [refuse_ok, decide_eq_false_iff_not, not_not] at kind
    rw [okOr_ok, checkedAdd, Option.ite_none_right_eq_some] at added
    have collection : isCollection (columns.field (start + entry.2)).kind := kind ▸ kinds
    refine .bind (.foldlM_each fun item _ state => validateItem_returns) fun last items => .pure ?_
    refine ⟨read, fun leaf => ?_, fun _ => added.1, fun _ item above below => ?_⟩
    · rw [collection] at leaf
      cases leaf
    · exact items item (List.mem_range'_1.mpr ⟨above, below⟩)
  | none =>
    dsimp only [Component.parts]
    refine .check_bind fun _ _ => .bind_any fun _ => .check_bind fun cursor accepted => .pure ?_
    have leaf := validateLeafComponent_ok accepted
    refine ⟨read, fun _ => leaf, fun collection => ?_, fun collection => ?_⟩
    · rw [leaf.not_collection] at collection
      cases collection
    · rw [leaf.not_collection] at collection
      cases collection

variable (columns) in
/-- What the first loop finds of a node. -/
structure NodeRow (node : Nat) : Prop where
  tag : u16At columns.nodeTags node "" = .ok (columns.tagOf node)
  start : usizeAt columns.nodeFieldOffsets node "" = .ok (columns.offsetOf node)
  end_ : usizeAt columns.nodeFieldOffsets (node + 1) "" = .ok (columns.offsetOf (node + 1))
  ordered : columns.offsetOf node ≤ columns.offsetOf (node + 1)
  roles : ∃ roles, constructorRoles (columns.tagOf node) = some roles ∧ columns.arity node = roles.length

theorem validateOffset_returns {fieldCount prior node : Nat} :
    Returns (validateOffset columns fieldCount maxWork prior node) fun _ => columns.NodeRow node := by
  refine .bind_any fun _ => .check_bind fun start started => .check_bind fun end_ ended =>
    .check_bind fun _ bounds => ?_
  refine .check_bind fun tag tagged => .check_bind fun roles found => .check_bind fun _ same => .pure ?_
  have started' := uintAt_named started ""
  have ended' := uintAt_named ended ""
  have tagged' := uintAt_named tagged ""
  rw [refuse_ok, Bool.or_eq_false_iff, Bool.or_eq_false_iff, decide_eq_false_iff_not,
    decide_eq_false_iff_not] at bounds
  rw [refuse_ok, decide_eq_false_iff_not, not_not] at same
  rw [okOr_ok] at found
  have starts := (uintAt_ok.mp started).2
  have ends := (uintAt_ok.mp ended).2
  have tags := (uintAt_ok.mp tagged).2
  subst starts ends tags
  exact ⟨tagged', started', ended', not_lt.mp bounds.1.2, roles, found, same⟩

theorem validateOffsets_returns {fieldCount : Nat} :
    Returns (validateOffsets columns nodeCount fieldCount maxWork) fun _ => ∀ node < nodeCount,
      columns.NodeRow node := by
  refine .bind_any fun _ => .bind_any fun _ => .bind_any fun _ => ?_
  refine .bind (.foldlM_each fun node _ prior => validateOffset_returns) fun last rows => ?_
  exact .check fun _ _ node within => rows node (List.mem_range.mpr within)

/-- The fields of a node are accepted one for each role. -/
theorem validateNode_returns {itemCount node : Nat} {cursors : Cursors} (row : columns.NodeRow node) :
    Returns (validateNode columns nodeCount itemCount maxWork cursors node) fun _ =>
      ∀ index, columns.offsetOf node ≤ index → index < columns.offsetOf node + columns.arity node →
        columns.ValidField nodeCount index := by
  refine .check_bind fun tag tagged => .check_bind fun roles found => .check_bind fun start started => ?_
  have tags := (uintAt_ok.mp tagged).2
  have starts := (uintAt_ok.mp started).2
  subst tags starts
  obtain ⟨roles', found', same⟩ := row.roles
  rw [okOr_ok] at found
  have both : roles = roles' := Option.some.inj (found.symm.trans found')
  subst both
  refine .weaken (.foldlM_each fun entry _ state => validateField_returns) fun last fields index above below => ?_
  obtain ⟨position, rfl⟩ := Nat.exists_eq_add_of_le above
  have inside : position < roles.length := by omega
  exact fields (roles[position], position) (List.mem_zipIdx_iff_getElem?.mpr (List.getElem?_eq_getElem inside))

theorem validateComponents_returns {itemCount : Nat} (rows : ∀ node < nodeCount, columns.NodeRow node) :
    Returns (validateComponents columns nodeCount itemCount maxWork) fun _ => ∀ node < nodeCount,
      ∀ index, columns.offsetOf node ≤ index → index < columns.offsetOf node + columns.arity node →
        columns.ValidField nodeCount index := by
  refine .bind (.foldlM_each fun node member cursors => validateNode_returns (rows node (List.mem_range.mp member)))
    fun last fields => ?_
  exact .bind_any fun _ => .check fun _ _ node within => fields node (List.mem_range.mpr within)

end

end EncodedColumns

end PyElk.Native
