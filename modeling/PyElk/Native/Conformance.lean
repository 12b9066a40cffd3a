import PyElk.Native.ExactCover

open Raising

namespace PyElk.Native

/-- The constructors whose nodes play a role, whatever they say. -/
def NodeRole.constructors : NodeRole → List Nat
  | .iri => [1]
  | .literal => [4]
  | .annotation_ => [5]
  | .objectPropertyExpression => [10]
  | .subObjectPropertyExpression => [10, 11]
  | .facetRestriction => [20]
  | .dataRange => List.range' 21 5
  | .classExpression => List.range' 30 17
  | .individual => [3]
  | .annotationValue => [1, 3, 4]
  | .annotationSubject => [1, 3]
  | .individualArgument => [3, 140]
  | .dataArgument => [4, 140]
  | .atom => List.range' 141 7
  | .entity | .owlClass | .datatype | .objectProperty | .dataProperty | .annotationProperty => []

/-- The kinds of the entities that play a role. -/
def NodeRole.entityKinds : NodeRole → List EntityKind
  | .entity => entityKindNames.map Prod.fst
  | .owlClass | .classExpression => [.owlClass]
  | .datatype | .dataRange => [.datatype]
  | .objectProperty | .objectPropertyExpression | .subObjectPropertyExpression => [.objectProperty]
  | .dataProperty => [.dataProperty]
  | .annotationProperty => [.annotationProperty]
  | .individual | .individualArgument => [.namedIndividual]
  | .iri | .literal | .annotation_ | .facetRestriction | .annotationValue | .annotationSubject |
    .dataArgument | .atom => []

/-- The scalar of a component is the name of a kind of entities. -/
def Component.Names (columns : EncodedColumns) (component : Component) (kind : EntityKind) : Prop :=
  component.kind = COMPONENT_ENUM ∧ ∃ name, (kind, name) ∈ entityKindNames ∧
    columns.payload component = encodeUtf8 name

/-- A role admits the nodes of its constructors, and the entities of its kinds. -/
def NodeRole.Admits (role : NodeRole) (columns : EncodedColumns) (nodeCount identifier : Nat) : Prop :=
  ∃ node < nodeCount, identifier = node + 1 ∧ (columns.tagOf node ∈ role.constructors ∨
    columns.tagOf node = 2 ∧ ∃ kind ∈ role.entityKinds, (columns.field (columns.offsetOf node)).Names columns kind)

/-- The constructors of the roots of a kind: annotations of the ontology, axioms, and rules. -/
def rootConstructors (kind : Nat) : List Nat :=
  if kind = ROOT_ONTOLOGY_ANNOTATION then [5]
  else if kind = ROOT_AXIOM then
    List.range' 60 5 ++ List.range' 70 13 ++ List.range' 90 6 ++ [100, 101] ++ List.range' 110 7 ++ List.range' 120 4
  else if kind = ROOT_EXTENSION then [148]
  else []

theorem rootAccepts_iff {kind tag : Nat} : rootAccepts kind tag ↔ tag ∈ rootConstructors kind := by
  unfold rootAccepts rootConstructors
  split
  · simp
  · split
    · simp only [List.any_cons, List.any_nil, Bool.or_false, Bool.or_eq_true, Bool.and_eq_true, decide_eq_true_eq,
        List.mem_append, List.mem_range'_1, List.mem_cons, List.not_mem_nil, or_false]
      omega
    · split
      · simp
      · simp

/-- The items of a collection: nodes that a role admits. -/
structure Component.Holds (columns : EncodedColumns) (nodeCount : Nat) (role : NodeRole)
    (component : Component) : Prop where
  node : ∀ item, component.value ≤ item → item < component.value + component.length →
    (columns.item item).kind = COMPONENT_NODE
  admits : ∀ item, component.value ≤ item → item < component.value + component.length →
    role.Admits columns nodeCount (columns.item item).value

/-- A component that plays a role of the schema. The nodes of a set ascend, so none is there twice. -/
def Component.Plays (columns : EncodedColumns) (nodeCount : Nat) (component : Component) : FieldRole → Prop
  | .scalar kind => component.kind = kind
  | .entityKind => ∃ kind, component.Names columns kind
  | .optionalText => component.kind = COMPONENT_NONE ∨ component.kind = COMPONENT_TEXT
  | .node role => component.kind = COMPONENT_NODE ∧ role.Admits columns nodeCount component.value
  | .set role => component.kind = COMPONENT_SET ∧ component.Holds columns nodeCount role ∧
      ∀ first second, component.value ≤ first → first < second → second < component.value + component.length →
        (columns.item first).value < (columns.item second).value
  | .sequence role => component.kind = COMPONENT_SEQUENCE ∧ component.Holds columns nodeCount role

section

variable {columns : EncodedColumns} {nodeCount : Nat}

/-- The kind that is found is one whose name is there. -/
theorem entityKindLoop_names {component : Component} {kind : EntityKind} {names : List (EntityKind × String)}
    (found : entityKindLoop columns.scalarBytes component.value component.length names = .ok kind) :
    ∃ name, (kind, name) ∈ names ∧ columns.payload component = encodeUtf8 name := by
  induction names with
  | nil => cases found
  | cons first rest ih =>
    simp only [entityKindLoop, CoreResult.bind_ok] at found
    obtain ⟨equal, compared, found⟩ := found
    simp only [scalarEquals, CoreResult.bind_ok] at compared
    obtain ⟨_, _, _, _, compared⟩ := compared
    cases equal with
    | true =>
      cases found
      have both := Except.ok.inj compared
      rw [Bool.and_eq_true, decide_eq_true_eq, decide_eq_true_eq] at both
      exact ⟨first.2, .head _, both.2⟩
    | false =>
      obtain ⟨name, member, same⟩ := ih found
      exact ⟨name, .tail _ member, same⟩

/-- An entity that is accepted has the name of its kind in its first field. -/
theorem entityRoleAccepts_names {tag node : Nat} {expected : Option EntityKind}
    (accepted : entityRoleAccepts tag node expected columns = .ok true) :
    tag = 2 ∧ ∃ kind, (∀ selected ∈ expected, selected = kind) ∧
      (columns.field (columns.offsetOf node)).Names columns kind := by
  unfold entityRoleAccepts at accepted
  split at accepted
  · cases accepted
  · next entity =>
    simp only [entityKindAtNode, CoreResult.bind_ok, byteAt_ok, usizeAt, uintAt_ok, refuse_ok,
      decide_eq_false_iff_not,
      ne_eq, not_not] at accepted
    obtain ⟨actual, ⟨_, ⟨_, rfl⟩, kind, read, _, enum, _, ⟨_, rfl⟩, _, ⟨_, rfl⟩, named⟩, same⟩ := accepted
    obtain ⟨name, listed, bytes⟩ := @entityKindLoop_names columns (columns.field (columns.offsetOf node)) _ _ named
    refine ⟨not_not.mp entity, actual, fun selected member => ?_, ?_, name, listed, bytes⟩
    · rw [Option.mem_def.mp member] at same
      exact of_decide_eq_true (Except.ok.inj same)
    · rw [← enum, EncodedColumns.field, List.getD_eq_getElem?_getD]
      exact congrArg UInt8.toNat (congrArg (Option.getD · 0) read)

/-- What `node_role_accepts` takes, the role admits. -/
theorem nodeRoleAccepts_admits {role : NodeRole} {identifier : Nat}
    (accepted : nodeRoleAccepts role identifier columns nodeCount = .ok true) :
    role.Admits columns nodeCount identifier := by
  simp only [nodeRoleAccepts, CoreResult.bind_ok, nodeIdentifier_ok, nodeIndex_ok, u16At, uintAt_ok] at accepted
  obtain ⟨value, ⟨_, same⟩, node, ⟨positive, within, rfl⟩, tag, ⟨_, tagged⟩, accepted⟩ := accepted
  obtain rfl : identifier = value := same.symm
  refine ⟨identifier - 1, within, by omega, ?_⟩
  change tag = columns.tagOf (identifier - 1) at tagged
  rw [← tagged]
  have entity : ∀ {kind : EntityKind}, kind ∈ role.entityKinds →
      entityRoleAccepts tag (identifier - 1) (some kind) columns = .ok true →
        tag = 2 ∧ ∃ kind ∈ role.entityKinds,
          (columns.field (columns.offsetOf (identifier - 1))).Names columns kind := by
    intro kind admitted found
    obtain ⟨two, actual, same, names⟩ := entityRoleAccepts_names found
    exact ⟨two, actual, same kind rfl ▸ admitted, names⟩
  have either : ∀ {kind : EntityKind} {condition : Prop} [Decidable condition], kind ∈ role.entityKinds →
      (condition → tag ∈ role.constructors) →
      (if condition then pure true else entityRoleAccepts tag (identifier - 1) (some kind) columns) = .ok true →
        tag ∈ role.constructors ∨
          tag = 2 ∧ ∃ kind ∈ role.entityKinds,
            (columns.field (columns.offsetOf (identifier - 1))).Names columns kind := by
    intro kind condition _ admitted constructed found
    split at found
    · next holds => exact .inl (constructed holds)
    · exact .inr (entity admitted found)
  cases role with
  | entity =>
    obtain ⟨two, actual, -, names⟩ := entityRoleAccepts_names accepted
    obtain ⟨component, name, listed, stored⟩ := names
    exact .inr ⟨two, actual, List.mem_map.mpr ⟨_, listed, rfl⟩, component, name, listed, stored⟩
  | owlClass => exact .inr (entity (.head _) accepted)
  | datatype => exact .inr (entity (.head _) accepted)
  | objectProperty => exact .inr (entity (.head _) accepted)
  | dataProperty => exact .inr (entity (.head _) accepted)
  | annotationProperty => exact .inr (entity (.head _) accepted)
  | objectPropertyExpression => exact either (.head _) (fun ten => List.mem_singleton.mpr ten) accepted
  | subObjectPropertyExpression => exact either (.head _) (fun tags => List.mem_pair.mpr tags) accepted
  | dataRange => exact either (.head _) (fun between => List.mem_range'_1.mpr (by omega)) accepted
  | classExpression => exact either (.head _) (fun between => List.mem_range'_1.mpr (by omega)) accepted
  | individual => exact either (.head _) (fun three => List.mem_singleton.mpr three) accepted
  | individualArgument => exact either (.head _) (fun tags => List.mem_pair.mpr tags) accepted
  | iri => exact .inl (List.mem_singleton.mpr (of_decide_eq_true (Except.ok.inj accepted)))
  | literal => exact .inl (List.mem_singleton.mpr (of_decide_eq_true (Except.ok.inj accepted)))
  | annotation_ => exact .inl (List.mem_singleton.mpr (of_decide_eq_true (Except.ok.inj accepted)))
  | facetRestriction => exact .inl (List.mem_singleton.mpr (of_decide_eq_true (Except.ok.inj accepted)))
  | annotationValue =>
    have tags := Except.ok.inj accepted
    simp only [Bool.or_eq_true, decide_eq_true_eq] at tags
    exact .inl (by simpa [NodeRole.constructors, or_assoc] using tags)
  | annotationSubject =>
    have tags := Except.ok.inj accepted
    rw [Bool.or_eq_true, decide_eq_true_eq, decide_eq_true_eq] at tags
    exact .inl (List.mem_pair.mpr tags)
  | dataArgument =>
    have tags := Except.ok.inj accepted
    rw [Bool.or_eq_true, decide_eq_true_eq, decide_eq_true_eq] at tags
    exact .inl (List.mem_pair.mpr tags)
  | atom =>
    have between := Except.ok.inj accepted
    rw [Bool.and_eq_true, decide_eq_true_eq, decide_eq_true_eq] at between
    exact .inl (List.mem_range'_1.mpr (by omega))

end

namespace EncodedColumns

variable {columns : EncodedColumns} {nodeCount itemCount maxWork : Nat}

/-- The fields of a node play the roles of its constructor, one each. -/
def Conforms (columns : EncodedColumns) (nodeCount node : Nat) : Prop :=
  ∃ roles, constructorRoles (columns.tagOf node) = some roles ∧ columns.arity node = roles.length ∧
    ∀ position role, roles[position]? = some role →
      (columns.field (columns.offsetOf node + position)).Plays columns nodeCount role

theorem validateFieldRole_plays {location : FieldLocation} {role : FieldRole} {component : Component} {value : Unit}
    (accepted : validateFieldRole location role component.kind component.value component.length columns
      nodeCount = .ok value) :
    component.Plays columns nodeCount role := by
  cases role with
  | scalar kind =>
    rw [validateFieldRole, refuse_ok, decide_eq_false_iff_not, not_not] at accepted
    exact accepted
  | entityKind =>
    simp only [validateFieldRole, CoreResult.bind_ok, refuse_ok, decide_eq_false_iff_not, ne_eq, not_not] at accepted
    obtain ⟨_, enum, kind, found, _⟩ := accepted
    obtain ⟨name, listed, bytes⟩ := entityKindLoop_names found
    exact ⟨kind, enum, name, listed, bytes⟩
  | optionalText =>
    rw [validateFieldRole, refuse_ok, Bool.and_eq_false_iff, decide_eq_false_iff_not, decide_eq_false_iff_not,
      not_not, not_not] at accepted
    exact accepted
  | node role =>
    simp only [validateFieldRole, CoreResult.bind_ok, refuse_ok, decide_eq_false_iff_not, ne_eq, not_not,
      Bool.not_eq_false'] at accepted
    obtain ⟨_, kind, found, known, accepts⟩ := accepted
    rw [accepts] at known
    exact ⟨kind, nodeRoleAccepts_admits known⟩
  | set role => cases accepted
  | sequence role => cases accepted

/-- What the loop over the items of a collection has found: nodes that the role accepts, and behind the last of a
set. -/
structure ItemsDone (columns : EncodedColumns) (nodeCount expectedKind : Nat) (role : NodeRole)
    (previous : Option Nat)
    (done : List Nat) : Prop where
  node : ∀ item ∈ done, (columns.item item).kind = COMPONENT_NODE
  accepts : ∀ item ∈ done, nodeRoleAccepts role (columns.item item).value columns nodeCount = .ok true
  below : expectedKind = COMPONENT_SET → ∀ item ∈ done, ∃ last, previous = some last ∧
    (columns.item item).value ≤ last
  ascend : expectedKind = COMPONENT_SET → done.Pairwise fun first second =>
    (columns.item first).value < (columns.item second).value

theorem ItemsDone.nil {expectedKind : Nat} {role : NodeRole} (previous : Option Nat) :
    columns.ItemsDone nodeCount expectedKind role previous [] :=
  ⟨fun _ member => absurd member List.not_mem_nil, fun _ member => absurd member List.not_mem_nil,
    fun _ _ member => absurd member List.not_mem_nil, fun _ => .nil⟩

theorem validateItem_done {location : FieldLocation} {expectedKind item : Nat} {role : NodeRole}
    {state : Option Nat × Nat}
    {done : List Nat} (before : columns.ItemsDone nodeCount expectedKind role state.1 done) :
    Returns (validateItem columns nodeCount maxWork location expectedKind role state item) fun later =>
      columns.ItemsDone nodeCount expectedKind role later.1 (done ++ [item]) := by
  refine .bind_any fun _ => .check_bind fun parts read => ?_
  have same := item_parts read
  subst same
  refine .check_bind fun _ found => ?_
  simp only [validateCollectionItemRole, CoreResult.bind_ok, refuse_ok, decide_eq_false_iff_not, ne_eq, not_not,
    Bool.not_eq_false'] at found
  obtain ⟨_, node, accepted, known, accepts⟩ := found
  rw [accepts] at known
  have nodes : ∀ other ∈ done ++ [item], (columns.item other).kind = COMPONENT_NODE ∧
      nodeRoleAccepts role (columns.item other).value columns nodeCount = .ok true := by
    intro other member
    obtain earlier | here := List.mem_append.mp member
    · exact ⟨before.node other earlier, before.accepts other earlier⟩
    · rw [List.mem_singleton.mp here]
      exact ⟨node, known⟩
  have rest : ∀ previous : Option Nat,
      columns.ItemsDone nodeCount expectedKind role previous (done ++ [item]) → Returns (do
        claimLeafScanWork (columns.item item).kind (columns.item item).length maxWork
        let scalarCursor ← check (validateLeafComponent (columns.item item).kind (columns.item item).value
          (columns.item item).length nodeCount columns.scalarBytes state.2)
        pure (previous, scalarCursor) : Metering (Option Nat × Nat)) fun later =>
          columns.ItemsDone nodeCount expectedKind role later.1 (done ++ [item]) :=
    fun previous holds => .bind_any fun _ => .check_bind fun _ _ => .pure holds
  by_cases set : expectedKind = COMPONENT_SET
  · refine .if_pos set (.check_bind fun identifier identified => .check_bind fun _ above => rest _ ?_)
    have value : identifier = (columns.item item).value := nodeIdAt_ok identified
    rw [refuse_ok] at above
    have front : ∀ other ∈ done, (columns.item other).value < identifier := by
      intro other member
      obtain ⟨last, same, below⟩ := before.below set other member
      rw [same, Option.any_some, decide_eq_false_iff_not] at above
      omega
    refine ⟨fun other member => (nodes other member).1, fun other member => (nodes other member).2,
      fun _ other member => ?_, fun _ => ?_⟩
    · obtain earlier | here := List.mem_append.mp member
      · exact ⟨identifier, rfl, (front other earlier).le⟩
      · rw [List.mem_singleton.mp here, ← value]
        exact ⟨identifier, rfl, Nat.le_refl _⟩
    · refine List.pairwise_append.mpr ⟨before.ascend set, List.pairwise_singleton _ _,
        fun other earlier last here => ?_⟩
      rw [List.mem_singleton.mp here, ← value]
      exact front other earlier
  · exact .if_neg set (rest _ ⟨fun other member => (nodes other member).1, fun other member => (nodes other member).2,
      fun same => absurd same set, fun same => absurd same set⟩)

/-- A field that is accepted plays the role its place asks for. -/
theorem validateField_plays {tag start : Nat} {cursors : Cursors} {entry : FieldRole × Nat} :
    Returns (validateField columns nodeCount itemCount maxWork tag start cursors entry) fun _ =>
      (columns.field (start + entry.2)).Plays columns nodeCount entry.1 := by
  refine .bind_any fun _ => ?_
  refine .check_bind fun field added => ?_
  rw [okOr_ok, checkedAdd, Option.ite_none_right_eq_some, Option.some.injEq] at added
  obtain ⟨_, rfl⟩ := added
  refine .check_bind fun parts read => ?_
  have same := field_parts read
  subst same
  cases role : entry.1.collection with
  | some expected =>
    dsimp only [Component.parts]
    refine .check_bind fun _ kind => .bind_any fun _ => .bind_any fun _ => .bind_any fun _ => ?_
    rw [refuse_ok, decide_eq_false_iff_not, not_not] at kind
    have items : Returns
      ((List.range' (columns.field (start + entry.2)).value (columns.field (start + entry.2)).length).foldlM
        (validateItem columns nodeCount maxWork ⟨tag, entry.2⟩ expected.1 expected.2)
          (none, cursors.scalar)) fun last =>
        columns.ItemsDone nodeCount expected.1 expected.2 last.1 (List.range' (columns.field (start + entry.2)).value
          (columns.field (start + entry.2)).length) :=
      Returns.foldlM
        (fun (state : Option Nat × Nat) done =>
          columns.ItemsDone nodeCount expected.1 expected.2 state.1 done) (.nil none)
        fun done item rest state _ before => validateItem_done before
    refine .bind items fun last found => .pure ?_
    have holds : (columns.field (start + entry.2)).Holds columns nodeCount expected.2 :=
      ⟨fun item above below => found.node item (List.mem_range'_1.mpr ⟨above, below⟩),
        fun item above below => nodeRoleAccepts_admits (found.accepts item (List.mem_range'_1.mpr ⟨above, below⟩))⟩
    cases shape : entry.1 with
    | set inner =>
      rw [shape] at role
      obtain rfl := Option.some.inj role
      refine ⟨kind, holds, fun first second above before below => ?_⟩
      have ascend := List.pairwise_iff_getElem.mp (found.ascend rfl) (first - (columns.field (start + entry.2)).value)
        (second - (columns.field (start + entry.2)).value) (by rw [List.length_range']; omega)
          (by rw [List.length_range']; omega)
        (by omega)
      rw [List.getElem_range', List.getElem_range', Nat.one_mul, Nat.one_mul, Nat.add_sub_cancel' above,
        Nat.add_sub_cancel' (above.trans before.le)] at ascend
      exact ascend
    | sequence inner =>
      rw [shape] at role
      obtain rfl := Option.some.inj role
      exact ⟨kind, holds⟩
    | scalar kind => rw [shape] at role; cases role
    | entityKind => rw [shape] at role; cases role
    | optionalText => rw [shape] at role; cases role
    | node inner => rw [shape] at role; cases role
  | none =>
    dsimp only [Component.parts]
    refine .check_bind fun _ accepted => .bind_any fun _ => .bind_any fun _ => .pure ?_
    exact validateFieldRole_plays accepted

/-- A node that is accepted conforms to the schema of its constructor. -/
theorem validateNode_conforms {node : Nat} {cursors : Cursors} (row : columns.NodeRow node) :
    Returns (validateNode columns nodeCount itemCount maxWork cursors node) fun _ =>
      columns.Conforms nodeCount node := by
  refine .check_bind fun tag tagged => .check_bind fun roles found => .check_bind fun start started => ?_
  have tags := (uintAt_ok.mp tagged).2
  have starts := (uintAt_ok.mp started).2
  subst tags starts
  obtain ⟨roles', found', same⟩ := row.roles
  rw [okOr_ok] at found
  have both : roles = roles' := Option.some.inj (found.symm.trans found')
  subst both
  refine .weaken (.foldlM_each fun entry _ state => validateField_plays) fun last fields =>
    ⟨roles, found, same, fun position role known => ?_⟩
  exact fields (role, position) (List.mem_zipIdx_iff_getElem?.mpr known)

/-- Once the components are accepted every node conforms to the schema. -/
theorem validateComponents_conforms (rows : ∀ node < nodeCount, columns.NodeRow node) :
    Returns (validateComponents columns nodeCount itemCount maxWork) fun _ => ∀ node < nodeCount,
      columns.Conforms nodeCount node := by
  refine .bind (.foldlM_each fun node member cursors => validateNode_conforms (rows node (List.mem_range.mp member)))
    fun last nodes => ?_
  exact .bind_any fun _ => .check fun _ _ node within => nodes node (List.mem_range.mpr within)

/-- The scope of an anonymous individual has 32 bytes, and its key has some. -/
theorem validateModelScalar_anonymous {node : Nat} {value : Unit}
    (accepted : validateModelScalar columns node = .ok value)
    (anonymous : columns.tagOf node = 3) :
    (columns.field (columns.offsetOf node)).length = 32 ∧ (columns.field (columns.offsetOf node + 1)).length ≠ 0 := by
  rw [validateModelScalar, CoreResult.bind_ok] at accepted
  obtain ⟨tag, tagged, accepted⟩ := accepted
  have tags := (uintAt_ok.mp tagged).2
  have three : tag = 3 := tags.trans anonymous
  rw [if_neg (by rw [three]; decide), if_pos three] at accepted
  simp only [fieldScalarLength, fieldAt, usizeAt, CoreResult.bind_ok, uintAt_ok, okOr_ok, refuse_ok,
    Bool.or_eq_false_iff,
    decide_eq_false_iff_not, ne_eq, not_not, checkedAdd, Option.ite_none_right_eq_some, Option.some.injEq] at accepted
  obtain ⟨scope, ⟨field, ⟨_, ⟨_, rfl⟩, _, rfl⟩, _, rfl⟩, key, ⟨field', ⟨_, ⟨_, rfl⟩, _, rfl⟩, _, rfl⟩,
    sizes⟩ := accepted
  exact sizes

theorem validateModelScalarConstraints_anonymous {value : Unit}
    (accepted : validateModelScalarConstraints columns nodeCount = .ok value) :
    ∀ node < nodeCount, columns.tagOf node = 3 →
      (columns.field (columns.offsetOf node)).length = 32 ∧
      (columns.field (columns.offsetOf node + 1)).length ≠ 0 := by
  have turns : ∀ nodes : List Nat, nodes.forM (validateModelScalar columns) = .ok value →
      ∀ node ∈ nodes, columns.tagOf node = 3 →
        (columns.field (columns.offsetOf node)).length = 32 ∧
          (columns.field (columns.offsetOf node + 1)).length ≠ 0 := by
    intro nodes
    induction nodes with
    | nil => exact fun _ node member => absurd member List.not_mem_nil
    | cons first rest ih =>
      intro done
      rw [List.forM_eq_forM, List.forM_cons, CoreResult.bind_ok] at done
      obtain ⟨_, here, later⟩ := done
      exact List.forall_mem_cons.mpr ⟨validateModelScalar_anonymous here, ih later⟩
  exact fun node within => turns _ accepted node (List.mem_range.mpr within)

end EncodedColumns

end PyElk.Native
