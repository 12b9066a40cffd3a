import PyElk.Native.CanonicalForm
import PyElk.Native.Segments
import PyElk.Support.Ordered

open Raising Lexicographic

namespace PyElk.Native

namespace EncodedColumns

/-- The columns over another scalar arena. -/
def withScalars (columns : EncodedColumns) (scalars : List UInt8) : EncodedColumns :=
  { columns with scalarBytes := scalars }

/-- An arena of the same size that holds the same integers. -/
structure Rewrites (columns : EncodedColumns) (scalars : List UInt8) (nodeCount : Nat) : Prop where
  size : scalars.length = columns.scalarBytes.length
  integers : ∀ node < nodeCount, ∀ index, columns.offsetOf node ≤ index →
    index < columns.offsetOf node + columns.arity node →
    (columns.field index).kind = COMPONENT_INTEGER →
      (columns.withScalars scalars).payload (columns.field index) = columns.payload (columns.field index)

variable {columns : EncodedColumns} {scalars : List UInt8} {nodeCount : Nat} {component : Component}

theorem payload_withScalars (size : scalars.length = columns.scalarBytes.length) (component : Component) :
    ((columns.withScalars scalars).payload component).length = (columns.payload component).length := by
  rw [payload, payload, List.length_take, List.length_take, List.length_drop, List.length_drop]
  change min _ (scalars.length - _) = _
  rw [size]

/-- A byte of a payload. -/
theorem payload_getElem? {offset : Nat} (below : offset < component.length) :
    (columns.payload component)[offset]? = columns.scalarBytes[component.value + offset]? := by
  rw [payload, List.getElem?_take_of_lt below, List.getElem?_drop]

theorem IntegerPayload.withScalars (integer : IntegerPayload columns.scalarBytes component.value component.length)
    (size : scalars.length = columns.scalarBytes.length)
    (same : (columns.withScalars scalars).payload component = columns.payload component) :
    IntegerPayload scalars component.value component.length where
  within := integer.within.trans_eq size.symm
  small := integer.small
  nonempty := integer.nonempty
  minimal more := by
    have last : scalars[component.value + (component.length - 1)]? =
      columns.scalarBytes[component.value + (component.length - 1)]? := by
      have below : component.length - 1 < component.length := by omega
      rw [← payload_getElem? below, ← same]
      exact (@payload_getElem? (columns.withScalars scalars) component _ below).symm
    have minimal := integer.minimal more
    rw [Nat.add_sub_assoc (by omega)] at minimal ⊢
    rwa [last]

/-- An integer has as many groups in either arena. -/
theorem canonicalIntegerVarintWidth_congr {first second : List UInt8} {start length width : Nat}
    (same : first[start + (length - 1)]? = second[start + (length - 1)]?)
    (measured : canonicalIntegerVarintWidth first start length = .ok width) :
    canonicalIntegerVarintWidth second start length = .ok width := by
  simp only [canonicalIntegerVarintWidth, CoreResult.bind_ok, okOr_ok, checkedAdd, Option.ite_none_right_eq_some,
    Option.some.injEq,
    byteAt] at measured ⊢
  obtain ⟨checked, nonempty, position, ⟨small, rfl⟩, high, found, rest⟩ := measured
  exact ⟨checked, nonempty, _, ⟨small, rfl⟩, high, same ▸ found, rest⟩

theorem Component.ValidLeaf.withScalars (leaf : component.ValidLeaf columns nodeCount)
    (size : scalars.length = columns.scalarBytes.length)
    (same : component.kind = COMPONENT_INTEGER → (columns.withScalars scalars).payload component =
      columns.payload component) :
    component.ValidLeaf (columns.withScalars scalars) nodeCount where
  known := leaf.known
  node := leaf.node
  scalar kind := ⟨(leaf.scalar kind).1, (leaf.scalar kind).2.trans_eq size.symm⟩
  integer kind := IntegerPayload.withScalars (leaf.integer kind) size (same kind)

theorem LegalItem.withScalars {index : Nat} (item : columns.LegalItem nodeCount index)
    (size : scalars.length = columns.scalarBytes.length) :
    (columns.withScalars scalars).LegalItem nodeCount index where
  read := item.read
  node := item.node
  legal := Component.ValidLeaf.withScalars item.legal size fun integer =>
    absurd (item.node.symm.trans integer) (by decide)

theorem LegalField.withScalars {index : Nat} (field : columns.LegalField nodeCount index)
    (size : scalars.length = columns.scalarBytes.length)
    (same : (columns.field index).kind = COMPONENT_INTEGER →
      (columns.withScalars scalars).payload (columns.field index) = columns.payload (columns.field index)) :
    (columns.withScalars scalars).LegalField nodeCount index where
  read := field.read
  legal := {
    leaf := fun leaf => Component.ValidLeaf.withScalars (field.legal.leaf leaf) size same
    small := field.legal.small
    item := fun collection item above below => (field.legal.item collection item above below).withScalars size
    measured := fun integer => by
      obtain ⟨width, measured⟩ := field.legal.measured integer
      refine ⟨width, canonicalIntegerVarintWidth_congr ?_ measured⟩
      change (columns.field index).kind = COMPONENT_INTEGER at integer
      have positive := ((field.legal.leaf (by rw [integer]; decide)).integer integer).nonempty
      have byte : ((columns.withScalars scalars).payload (columns.field index))[(columns.field index).length - 1]? =
          (columns.payload (columns.field index))[(columns.field index).length - 1]? := by rw [same integer]
      rw [payload_getElem? (by omega), payload_getElem? (by omega)] at byte
      exact byte.symm }

section

variable {bytes other : Nat → List UInt8}

theorem leafContent_withScalars (size : scalars.length = columns.scalarBytes.length)
    (node : component.kind = COMPONENT_NODE → (other (component.value - 1)).length =
      (bytes (component.value - 1)).length)
    (integer : component.kind = COMPONENT_INTEGER →
      (columns.withScalars scalars).payload component = columns.payload component) :
    ((columns.withScalars scalars).leafContent other component).length =
    (columns.leafContent bytes component).length := by
  rw [leafContent, leafContent]
  split
  · next kind => rw [frame, frame, List.length_append, List.length_append, node kind]
  split
  · rw [List.length_append, List.length_append, payload_withScalars size]
  split
  · next kind => rw [integer kind]
  · rfl

theorem itemBytes_withScalars (size : scalars.length = columns.scalarBytes.length) {kind : Nat}
    (item : component.kind = COMPONENT_NODE)
    (node : (other (component.value - 1)).length = (bytes (component.value - 1)).length) :
    ((columns.withScalars scalars).itemBytes other kind component).length =
    (columns.itemBytes bytes kind component).length := by
  have leaf := leafContent_withScalars size (fun _ => node) fun integer => by
    rw [item] at integer
    exact absurd integer (by decide)
  rw [itemBytes, itemBytes, if_pos item, if_pos item]
  split
  · rw [frame, frame, List.length_append, List.length_append, node]
  · rw [List.length_cons, List.length_cons, leaf]

theorem componentBytes_withScalars (size : scalars.length = columns.scalarBytes.length)
    (legal : component.Legal columns nodeCount)
    (node : ∀ child ∈ columns.references component, (other child).length = (bytes child).length)
    (integer : component.kind = COMPONENT_INTEGER →
      (columns.withScalars scalars).payload component = columns.payload component) :
    ((columns.withScalars scalars).componentBytes other component).length =
    (columns.componentBytes bytes component).length := by
  rw [componentBytes, componentBytes, List.length_cons, List.length_cons, content, content]
  rw [references] at node
  cases collection : isCollection component.kind with
  | true =>
    rw [if_pos rfl, if_pos rfl, List.length_append, List.length_append, List.length_flatMap, List.length_flatMap]
    rw [if_pos collection] at node
    refine congrArg (_ + · + 1) (congrArg List.sum (List.map_congr_left fun item member => ?_))
    obtain ⟨index, bounds, rfl⟩ := List.mem_map.mp member
    have bounds := List.mem_range'_1.mp bounds
    have kind := (legal.item collection index bounds.1 bounds.2).node
    exact itemBytes_withScalars size kind
      (node _ (List.mem_flatMap.mpr ⟨_, member, Component.mem_leafReferences.mpr ⟨kind, rfl⟩⟩))
  | false =>
    rw [if_neg Bool.false_ne_true, if_neg Bool.false_ne_true]
    rw [collection, if_neg Bool.false_ne_true] at node
    rw [leafContent_withScalars size (fun kind => node _ (Component.mem_leafReferences.mpr ⟨kind, rfl⟩)) integer]

end

variable {canonicalLengths : List Nat}

/-- The bytes of a node are as many over either arena. -/
theorem Sound.canonicalBytes_length (sound : columns.Sound canonicalLengths)
    (rewrites : columns.Rewrites scalars canonicalLengths.length)
    {node : Nat} (within : node < canonicalLengths.length) :
    ((columns.withScalars scalars).canonicalBytes node).length = (columns.canonicalBytes node).length := by
  have grounded := sound.grounded node within
  induction grounded with
  | intro node grounded ih =>
    have whole : (columns.withScalars scalars).canonicalBytes node =
        (columns.withScalars scalars).nodeBytes (columns.withScalars scalars).canonicalBytes node :=
      EncodedColumns.canonicalBytes_eq (.intro node grounded)
    rw [whole, sound.canonicalBytes_eq within, nodeBytes, nodeBytes, prefixBytes, prefixBytes, List.length_append,
      List.length_append,
      List.length_flatMap, List.length_flatMap]
    refine congrArg (_ + ·) (congrArg List.sum (List.map_congr_left fun component member => ?_))
    obtain ⟨index, bounds, rfl⟩ := List.mem_map.mp (List.mem_of_mem_take member)
    have bounds := List.mem_range'_1.mp bounds
    refine componentBytes_withScalars rewrites.size (sound.field node within index bounds.1 bounds.2).legal
      (fun child refers => ?_)
      (rewrites.integers node within index bounds.1 bounds.2)
    have reference : columns.Refers child node := List.mem_flatMap.mpr ⟨_, List.mem_of_mem_take member, refers⟩
    exact ih child reference (sound.child_lt within reference)

/-- Columns stay sound over another arena that holds the same integers. -/
theorem Sound.withScalars (sound : columns.Sound canonicalLengths)
    (rewrites : columns.Rewrites scalars canonicalLengths.length) :
    (columns.withScalars scalars).Sound canonicalLengths where
  tag := sound.tag
  start := sound.start
  end_ := sound.end_
  ordered := sound.ordered
  roles := sound.roles
  field node within index above below := (sound.field node within index above below).withScalars rewrites.size
    (rewrites.integers node within index above below)
  grounded := sound.grounded
  measured node within := (sound.measured node within).trans (sound.canonicalBytes_length rewrites within).symm
  small node within := (sound.canonicalBytes_length rewrites within).trans_lt (sound.small node within)

end EncodedColumns

theorem mapM_forall₂ {α β : Type} {step : α → CoreResult β} {items : List α} {values : List β}
    (mapped : items.mapM step = .ok values) :
    List.Forall₂ (fun item value => step item = .ok value) items values := by
  induction items generalizing values with
  | nil =>
    rw [← Except.ok.inj mapped]
    exact .nil
  | cons item rest ih =>
    rw [List.mapM_cons, CoreResult.bind_ok] at mapped
    obtain ⟨value, found, mapped⟩ := mapped
    rw [CoreResult.bind_ok] at mapped
    obtain ⟨later, others, same⟩ := mapped
    rw [← Except.ok.inj same]
    exact .cons found (ih others)

theorem fixedBytes32_ok {source bytes : List UInt8} {start : Nat} {name : String}
    (read : fixedBytes32 source start name = .ok bytes) :
    bytes = (source.drop start).take 32 ∧ bytes.length = 32 := by
  have rows := mapM_forall₂ read
  have length : bytes.length = 32 := by rw [← rows.length_eq, List.length_range]
  refine ⟨List.ext_getElem? fun offset => ?_, length⟩
  by_cases below : offset < 32
  · have row := (List.forall₂_iff_get.mp rows).2 offset (by rw [List.length_range]; exact below) (by omega)
    simp only [List.get_eq_getElem, List.getElem_range, CoreResult.bind_ok, okOr_ok, checkedAdd,
      Option.ite_none_right_eq_some,
      Option.some.injEq] at row
    obtain ⟨position, ⟨_, rfl⟩, found⟩ := row
    rw [List.getElem?_take_of_lt below, List.getElem?_drop, found, List.getElem?_eq_getElem]
  · rw [List.getElem?_eq_none (by omega), List.getElem?_eq_none (by rw [List.length_take]; omega)]

/-- The rows of a scope map: a scope, and the one that stands for it. -/
def scopeMappings (scopeMap : List UInt8) : List (List UInt8 × List UInt8) :=
  (List.range (scopeMap.length / 64)).map fun row =>
    ((scopeMap.drop (row * 64)).take 32, (scopeMap.drop (row * 64 + 32)).take 32)

/-- What a scope becomes. -/
def renameScope (scopeMap scope : List UInt8) : List UInt8 :=
  (((scopeMappings scopeMap).find? fun mapping => mapping.1 = scope).map Prod.snd).getD scope

/-- The rows are read, the last one in front, with their scopes ascending. -/
theorem scopeMapping_ok {scopeMap : List UInt8} {mappings : List (List UInt8 × List UInt8)}
    (folded : (List.range (scopeMap.length / 64)).foldlM (scopeMapping scopeMap) [] = .ok mappings) :
    mappings = (scopeMappings scopeMap).reverse ∧ (∀ mapping ∈ mappings, mapping.2.length = 32) ∧
      mappings.Pairwise fun later mapping => compare mapping.1 later.1 = .lt := by
  refine CoreResult.foldlM_ok (fun mappings done => mappings = (done.map fun row =>
      ((scopeMap.drop (row * 64)).take 32, (scopeMap.drop (row * 64 + 32)).take 32)).reverse ∧
      (∀ mapping ∈ mappings, mapping.2.length = 32) ∧
        mappings.Pairwise fun later mapping => compare mapping.1 later.1 = .lt)
    ⟨rfl, fun _ member => absurd member List.not_mem_nil, .nil⟩
      (fun done row rest before later _ holds turned => ?_) folded
  obtain ⟨rows, sizes, ascend⟩ := holds
  simp only [scopeMapping, CoreResult.bind_ok, okOr_ok, checkedMul, checkedAdd, Option.ite_none_right_eq_some,
    Option.some.injEq,
    refuse_ok, Bool.or_eq_false_iff] at turned
  obtain ⟨_, ⟨_, rfl⟩, source, sourceRead, _, ⟨_, rfl⟩, target, targetRead, _, ⟨above, _⟩, same⟩ := turned
  obtain ⟨source_eq, _⟩ := fixedBytes32_ok sourceRead
  obtain ⟨target_eq, size⟩ := fixedBytes32_ok targetRead
  rw [← Except.ok.inj same]
  refine ⟨?_, List.forall_mem_cons.mpr ⟨size, sizes⟩, List.pairwise_cons.mpr ⟨fun mapping member => ?_, ascend⟩⟩
  · rw [List.map_append, List.reverse_append, ← rows, source_eq, target_eq]
    rfl
  · cases before with
    | nil => cases member
    | cons last earlier =>
      have front : compare last.1 source = .lt := by
        rw [List.head?_cons, Option.any_some] at above
        cases order : compare last.1 source with
        | lt => rfl
        | eq => rw [order] at above; cases above
        | gt => rw [order] at above; cases above
      obtain here | behind := List.mem_cons.mp member
      · rw [here]
        exact front
      · exact Std.TransCmp.lt_trans ((List.pairwise_cons.mp ascend).1 mapping behind) front

theorem find?_reverse {β : Type} {rows : List (List UInt8 × β)} (distinct : (rows.map Prod.fst).Nodup)
    (key : List UInt8) :
    (rows.reverse.find? fun row => row.1 = key) = rows.find? fun row => row.1 = key := by
  cases front : rows.find? fun row => row.1 = key with
  | none =>
    rw [List.find?_eq_none] at front ⊢
    exact fun row member => front row (List.mem_reverse.mp member)
  | some row =>
    cases back : rows.reverse.find? fun row => row.1 = key with
    | none =>
      have found := List.find?_some front
      exact absurd found (List.find?_eq_none.mp back row (List.mem_reverse.mpr (List.mem_of_find?_eq_some front)))
    | some other =>
      have here := List.find?_some front
      have there := List.find?_some back
      rw [decide_eq_true_eq] at here there
      have same : other.1 = row.1 := there.trans here.symm
      have member := List.mem_reverse.mp (List.mem_of_find?_eq_some back)
      rw [List.inj_on_of_nodup_map distinct member (List.mem_of_find?_eq_some front) same]

namespace EncodedColumns

variable {columns : EncodedColumns}

/-- The scope of an anonymous individual. -/
def scopeOf (columns : EncodedColumns) (node : Nat) : Component := columns.field (columns.offsetOf node)

/-- Replacements of the scopes of the anonymous individuals among some nodes, as a map renames them. -/
structure Replaces (columns : EncodedColumns) (scopeMap : List UInt8) (nodes : List Nat)
    (replacements : List ScalarScopeReplacement) :
    Prop where
  found : ∀ replacement ∈ replacements, replacement.target.length = 32 ∧ ∃ node ∈ nodes, columns.tagOf node = 3 ∧
    (columns.scopeOf node).kind = COMPONENT_BYTES ∧ (columns.scopeOf node).length = 32 ∧
      (columns.scopeOf node).value = replacement.start ∧
        renameScope scopeMap (columns.payload (columns.scopeOf node)) = replacement.target
  complete : ∀ node ∈ nodes, columns.tagOf node = 3 →
    renameScope scopeMap (columns.payload (columns.scopeOf node)) = columns.payload (columns.scopeOf node) ∨
      ∃ replacement ∈ replacements, replacement.start = (columns.scopeOf node).value

theorem scopeReplacement_returns {scopeMap : List UInt8} {mappings : List (List UInt8 × List UInt8)}
    {maxWork node : Nat}
    {replacements : List ScalarScopeReplacement} {done : List Nat}
    (rows : mappings = (scopeMappings scopeMap).reverse)
    (sizes : ∀ mapping ∈ mappings, mapping.2.length = 32) (distinct : (mappings.map Prod.fst).Nodup)
    (replaces : columns.Replaces scopeMap done replacements) :
    Returns (scopeReplacement mappings columns maxWork replacements node) fun later =>
      columns.Replaces scopeMap (done ++ [node]) later := by
  have keeps : ∀ {later : List ScalarScopeReplacement}, replacements ⊆ later →
      (∀ replacement ∈ later, replacement ∈ replacements ∨ replacement.target.length = 32 ∧ columns.tagOf node = 3 ∧
        (columns.scopeOf node).kind = COMPONENT_BYTES ∧ (columns.scopeOf node).length = 32 ∧
          (columns.scopeOf node).value = replacement.start ∧
            renameScope scopeMap (columns.payload (columns.scopeOf node)) = replacement.target) →
      (columns.tagOf node = 3 →
        renameScope scopeMap (columns.payload (columns.scopeOf node)) = columns.payload (columns.scopeOf node) ∨
          ∃ replacement ∈ later, replacement.start = (columns.scopeOf node).value) →
      columns.Replaces scopeMap (done ++ [node]) later := by
    intro later larger added here
    refine ⟨fun replacement member => ?_, fun other member anonymous => ?_⟩
    · obtain before | ⟨size, facts⟩ := added replacement member
      · obtain ⟨size, other, inside, facts⟩ := replaces.found replacement before
        exact ⟨size, other, List.mem_append_left _ inside, facts⟩
      · exact ⟨size, node, List.mem_append_right _ (.head _), facts⟩
    · obtain earlier | same := List.mem_append.mp member
      · obtain unchanged | ⟨replacement, inside, start⟩ := replaces.complete other earlier anonymous
        · exact .inl unchanged
        · exact .inr ⟨replacement, larger inside, start⟩
      · rw [List.mem_singleton.mp same] at anonymous ⊢
        exact here anonymous
  refine .bind_any fun _ => .check_bind fun tag tagged => ?_
  have tags := (uintAt_ok.mp tagged).2
  subst tags
  by_cases anonymous : columns.tagOf node = 3
  · refine .if_neg (not_not.mpr anonymous) (.check_bind fun field start => .check_bind fun parts read => ?_)
    have starts := (uintAt_ok.mp start).2
    subst starts
    have same := field_parts read
    subst same
    refine .check_bind fun _ shape => .check_bind fun source scope => ?_
    rw [refuse_ok, Bool.or_eq_false_iff, decide_eq_false_iff_not, decide_eq_false_iff_not, not_not, not_not] at shape
    have payload : columns.payload (columns.scopeOf node) = source := by
      rw [(fixedBytes32_ok scope).1, EncodedColumns.payload]
      exact congrArg₂ List.take shape.2 rfl
    have renamed : renameScope scopeMap (columns.payload (columns.scopeOf node)) =
        ((mappings.find? fun mapping => mapping.1 = source).map Prod.snd).getD source := by
      have distinct' : ((scopeMappings scopeMap).map Prod.fst).Nodup := by
        rw [rows, List.map_reverse] at distinct
        exact List.nodup_reverse.mp distinct
      rw [renameScope, payload, rows, find?_reverse distinct']
    cases found : mappings.find? fun mapping => mapping.1 = source with
    | some mapping =>
      rw [found] at renamed
      refine .pure (keeps (List.subset_append_left _ _) (fun replacement member => ?_) fun _ =>
        .inr ⟨_, List.mem_append_right _ (.head _), rfl⟩)
      obtain before | here := List.mem_append.mp member
      · exact .inl before
      · rw [List.mem_singleton.mp here]
        exact .inr ⟨sizes mapping (List.mem_of_find?_eq_some found), anonymous, shape.1, shape.2, rfl, renamed⟩
    | none =>
      rw [found] at renamed
      exact .pure (keeps (List.Subset.refl _) (fun _ => .inl) fun _ => .inl (renamed.trans payload.symm))
  · exact .if_pos anonymous (.pure (keeps (List.Subset.refl _) (fun _ => .inl) fun same => absurd same anonymous))

/-- The replacements are those of all nodes, in the order of their rows. -/
theorem buildScopeReplacements_returns {scopeMap : List UInt8} {nodeCount maxWork : Nat} :
    Returns (buildScopeReplacements scopeMap columns nodeCount maxWork) fun replacements =>
      columns.Replaces scopeMap (List.range nodeCount) replacements ∧
        replacements.Pairwise fun first second => first.start ≤ second.start := by
  by_cases empty : scopeMap = []
  · refine .if_pos empty (.pure ⟨⟨fun _ member => absurd member List.not_mem_nil, fun node _ _ => .inl ?_⟩, .nil⟩)
    rw [empty]
    rfl
  · refine .if_neg empty (.check_bind fun rowCount aligned => .bind_any fun _ =>
      .check_bind fun mappings folded => ?_)
    rw [(alignedCount_ok aligned).2] at folded
    obtain ⟨rows, sizes, ascend⟩ := scopeMapping_ok folded
    have distinct : (mappings.map Prod.fst).Nodup := by
      refine List.pairwise_map.mpr (ascend.imp fun {later mapping} order same => ?_)
      rw [same, compare_self] at order
      cases order
    have nodes : Returns ((List.range nodeCount).foldlM (scopeReplacement mappings columns maxWork) [])
      fun replacements =>
        columns.Replaces scopeMap (List.range nodeCount) replacements :=
      Returns.foldlM (fun replacements done => columns.Replaces scopeMap done replacements)
        ⟨fun _ member => absurd member List.not_mem_nil, fun _ member => absurd member List.not_mem_nil⟩
        fun done node rest replacements _ replaces => scopeReplacement_returns rows sizes distinct replaces
    refine .bind nodes fun replacements replaces =>
      .pure ⟨⟨fun replacement member => ?_, fun node member anonymous => ?_⟩, ?_⟩
    · exact replaces.found replacement (List.mem_mergeSort.mp member)
    · obtain unchanged | ⟨replacement, inside, start⟩ := replaces.complete node member anonymous
      · exact .inl unchanged
      · exact .inr ⟨replacement, List.mem_mergeSort.mpr inside, start⟩
    · have sorted :=
        @List.pairwise_mergeSort _ (fun first second : ScalarScopeReplacement => decide (first.start ≤ second.start))
        (fun first second third below above => decide_eq_true
          ((of_decide_eq_true below).trans (of_decide_eq_true above)))
        (fun first second => by
          rw [Bool.or_eq_true, decide_eq_true_eq, decide_eq_true_eq]
          exact Nat.le_total _ _) replacements
      exact sorted.imp of_decide_eq_true

end EncodedColumns

/-- A byte is that of the replacement that covers it, or else the one that was there. -/
theorem scopeMappedByte_cases {replacements : List ScalarScopeReplacement} (source : List UInt8)
    (sorted : replacements.Pairwise fun first second => first.start ≤ second.start)
    (sizes : ∀ replacement ∈ replacements, replacement.target.length = 32) (index : Nat) :
    (∃ replacement ∈ replacements, replacement.start ≤ index ∧ index < replacement.start + 32 ∧
      scopeMappedByte source replacements index = replacement.target[index - replacement.start]?) ∨
    ((∀ replacement ∈ replacements, replacement.start ≤ index → replacement.start + 32 ≤ index) ∧
      scopeMappedByte source replacements index = source[index]?) := by
  have last := Ordered.getLast?_takeWhile_le sorted index
  rw [scopeMappedByte]
  cases found : (replacements.takeWhile fun replacement => replacement.start ≤ index).getLast? with
  | none =>
    rw [found] at last
    exact .inr ⟨fun replacement member above => absurd above (last replacement member).not_ge, rfl⟩
  | some replacement =>
    rw [found] at last
    obtain ⟨member, above, largest⟩ := last
    have size := sizes replacement member
    by_cases covers : index < replacement.start + 32
    · refine .inl ⟨replacement, member, above, covers, ?_⟩
      change (replacement.target[index - replacement.start]?).or source[index]? = _
      rw [List.getElem?_eq_getElem (by omega)]
      rfl
    · refine .inr ⟨fun other inside below => ?_, ?_⟩
      · have before := largest other inside below
        omega
      · change (replacement.target[index - replacement.start]?).or source[index]? = _
        rw [List.getElem?_eq_none (by omega)]
        rfl

namespace AcceptedTable

variable {table : AcceptedTable} {scopeMap : List UInt8} {replacements : List ScalarScopeReplacement}

/-- The scope of an anonymous individual is its first field, of 32 bytes. -/
theorem scopeOf_shape (table : AcceptedTable) {node : Nat} (within : node < table.nodeCount)
    (anonymous : table.columns.tagOf node = 3) :
    table.columns.offsetOf node < table.columns.offsetOf (node + 1) ∧
      (table.columns.scopeOf node).kind = COMPONENT_BYTES ∧
      (table.columns.scopeOf node).length = 32 := by
  obtain ⟨⟨roles, known, arity, plays⟩, lengths⟩ := table.conforms within
  rw [anonymous] at known
  obtain rfl := Option.some.inj known
  rw [EncodedColumns.arity] at arity
  change _ = 2 at arity
  exact ⟨by omega, plays 0 BYTES rfl, (lengths anonymous).1⟩

/-- A replacement that covers a byte of a payload is that of the scope it is the payload of. -/
theorem replacement_covers (replaces : table.columns.Replaces scopeMap (List.range table.nodeCount) replacements)
    {node index row : Nat} (within : node < table.nodeCount) (above : table.columns.offsetOf node ≤ index)
    (below : index < table.columns.offsetOf (node + 1))
    (kind : isScalar (table.columns.field index).kind ∨ (table.columns.field index).kind = COMPONENT_INTEGER)
    (rowAbove : (table.columns.field index).value ≤ row)
    (rowBelow : row < (table.columns.field index).value + (table.columns.field index).length)
    {replacement : ScalarScopeReplacement} (member : replacement ∈ replacements) (covers : replacement.start ≤ row)
    (coversBelow : row < replacement.start + 32) :
    table.columns.tagOf node = 3 ∧ index = table.columns.offsetOf node ∧
      replacement.start = (table.columns.field index).value ∧
      renameScope scopeMap (table.columns.payload (table.columns.field index)) = replacement.target := by
  have inside := table.field_within within below
  have leaf := (table.valid_field inside).toValid.leaf (EncodedColumns.not_collection_of_payload kind)
  have rowWithin : row < table.columns.scalarBytes.length := rowBelow.trans_le (leaf.payload_within kind)
  obtain ⟨_, other, otherIn, anonymous, scopeKind, scopeLength, start, renamed⟩ := replaces.found replacement member
  have otherWithin := List.mem_range.mp otherIn
  obtain ⟨fields, _⟩ := table.scopeOf_shape otherWithin anonymous
  have same : table.columns.offsetOf other = index := by
    refine (table.scalar_covered_once rowWithin).unique ⟨table.field_within otherWithin fields,
      .inl (EncodedColumns.isScalar_iff.mpr (.inr (.inl scopeKind))), ?_, ?_⟩ ⟨inside, kind, rowAbove, rowBelow⟩
    · exact start.le.trans covers
    · exact coversBelow.trans_eq (congrArg₂ (· + ·) start.symm scopeLength.symm)
  have nodes : other = node :=
    (table.field_covered_once inside).unique ⟨otherWithin, same.le, same ▸ fields⟩ ⟨within, above, below⟩
  subst nodes same
  exact ⟨anonymous, rfl, start.symm, renamed⟩

/-- The new name of a scope is as long as the scope. -/
theorem renameScope_length
    (replaces : table.columns.Replaces scopeMap (List.range table.nodeCount) replacements) {node : Nat}
    (within : node < table.nodeCount) (anonymous : table.columns.tagOf node = 3) :
    (renameScope scopeMap (table.columns.payload (table.columns.scopeOf node))).length =
      (table.columns.payload (table.columns.scopeOf node)).length := by
  obtain ⟨below, scope, long⟩ := table.scopeOf_shape within anonymous
  obtain unchanged | ⟨replacement, member, start⟩ := replaces.complete node (List.mem_range.mpr within) anonymous
  · rw [unchanged]
  · have kind : isScalar (table.columns.scopeOf node).kind ∨ (table.columns.scopeOf node).kind = COMPONENT_INTEGER :=
      .inl (EncodedColumns.isScalar_iff.mpr (.inr (.inl scope)))
    have leaf := (table.valid_field (table.field_within within below)).toValid.leaf
      (EncodedColumns.not_collection_of_payload kind)
    have bounds : (table.columns.scopeOf node).value + (table.columns.scopeOf node).length ≤
      table.columns.scalarBytes.length :=
      leaf.payload_within kind
    have positive :
      (table.columns.scopeOf node).value < (table.columns.scopeOf node).value +
      (table.columns.scopeOf node).length := by
      omega
    have renamed :=
      (replacement_covers replaces within (Nat.le_refl _) below kind (Nat.le_refl _) positive member start.le
      (by rw [start]; exact Nat.lt_add_of_pos_right (by decide))).2.2.2
    rw [EncodedColumns.scopeOf, renamed, (replaces.found replacement member).1, EncodedColumns.payload,
      List.length_take, List.length_drop]
    rw [← EncodedColumns.scopeOf]
    omega

/-- What scope replacements make of an accepted table: the scopes of the anonymous individuals are renamed, and
every other payload stays. -/
theorem mapped_payload (replaces : table.columns.Replaces scopeMap (List.range table.nodeCount) replacements)
    (sorted : replacements.Pairwise fun first second => first.start ≤ second.start) {scalars : List UInt8}
    (mapped : scalars = (List.range table.columns.scalarBytes.length).map fun index =>
      (scopeMappedByte table.columns.scalarBytes replacements index).getD 0)
    {node index : Nat} (within : node < table.nodeCount) (above : table.columns.offsetOf node ≤ index)
    (below : index < table.columns.offsetOf (node + 1))
    (kind : isScalar (table.columns.field index).kind ∨ (table.columns.field index).kind = COMPONENT_INTEGER) :
    (table.columns.withScalars scalars).payload (table.columns.field index) =
      if table.columns.tagOf node = 3 ∧ index = table.columns.offsetOf node then
        renameScope scopeMap (table.columns.payload (table.columns.field index))
      else table.columns.payload (table.columns.field index) := by
  have inside := table.field_within within below
  have valid := (table.valid_field inside).toValid.leaf (EncodedColumns.not_collection_of_payload kind)
  have bounds := valid.payload_within kind
  have size : (table.columns.payload (table.columns.field index)).length = (table.columns.field index).length := by
    rw [EncodedColumns.payload, List.length_take, List.length_drop]
    omega
  have sizes : ∀ replacement ∈ replacements, replacement.target.length = 32 := fun replacement member =>
    (replaces.found replacement member).1
  have same : ((table.columns.withScalars scalars).payload (table.columns.field index)).length =
    (table.columns.field index).length := by
    rw [EncodedColumns.payload_withScalars (by rw [mapped, List.length_map, List.length_range]), size]
  have byte : ∀ offset < (table.columns.field index).length,
      ((table.columns.withScalars scalars).payload (table.columns.field index))[offset]? =
        some ((scopeMappedByte table.columns.scalarBytes replacements
          ((table.columns.field index).value + offset)).getD 0) := by
    intro offset offsetBelow
    rw [EncodedColumns.payload_getElem? offsetBelow]
    change scalars[_]? = _
    rw [mapped, List.getElem?_map, List.getElem?_range (by omega), Option.map_some]
  have present : ∀ offset < (table.columns.field index).length,
      table.columns.scalarBytes[(table.columns.field index).value + offset]? =
      (table.columns.payload (table.columns.field index))[offset]? :=
    fun offset offsetBelow => (EncodedColumns.payload_getElem? offsetBelow).symm
  split
  · next here =>
    obtain ⟨anonymous, first⟩ := here
    have renamedSize := renameScope_length replaces within anonymous
    have long := (table.scopeOf_shape within anonymous).2.2
    rw [EncodedColumns.scopeOf, ← first] at renamedSize long
    refine List.ext_getElem (by omega) fun offset offsetWithin otherWithin => ?_
    rw [← Option.some.injEq, ← List.getElem?_eq_getElem offsetWithin, ← List.getElem?_eq_getElem otherWithin,
      byte offset (by omega)]
    obtain ⟨replacement, member, covers, coversBelow, found⟩ | ⟨apart, found⟩ :=
      scopeMappedByte_cases table.columns.scalarBytes sorted sizes ((table.columns.field index).value + offset)
    · obtain ⟨_, _, start, renamed⟩ :=
        replacement_covers replaces within above below kind (Nat.le_add_right _ _)
          (by omega) member covers coversBelow
      rw [renamed, found, start, Nat.add_sub_cancel_left,
        List.getElem?_eq_getElem (by rw [sizes replacement member]; omega)]
      rfl
    · obtain unchanged | ⟨replacement, member, start⟩ := replaces.complete node (List.mem_range.mpr within) anonymous
      · rw [EncodedColumns.scopeOf, ← first] at unchanged
        rw [unchanged, found, present offset (by omega), List.getElem?_eq_getElem (by omega)]
        rfl
      · rw [EncodedColumns.scopeOf, ← first] at start
        have past := apart replacement member (by omega)
        omega
  · next elsewhere =>
    refine List.ext_getElem (by omega) fun offset offsetWithin otherWithin => ?_
    rw [← Option.some.injEq, ← List.getElem?_eq_getElem offsetWithin, ← List.getElem?_eq_getElem otherWithin,
      byte offset (by omega)]
    obtain ⟨replacement, member, covers, coversBelow, _⟩ | ⟨_, found⟩ :=
      scopeMappedByte_cases table.columns.scalarBytes sorted sizes ((table.columns.field index).value + offset)
    · obtain ⟨anonymous, first, _⟩ :=
        replacement_covers replaces within above below kind (Nat.le_add_right _ _)
          (by omega) member covers coversBelow
      exact absurd ⟨anonymous, first⟩ elsewhere
    · rw [found, present offset (by omega), List.getElem?_eq_getElem otherWithin]
      rfl

end AcceptedTable

namespace EncodedColumns

/-- The anonymous individual whose scope holds a byte. -/
def scopeHolding (columns : EncodedColumns) (nodeCount row : Nat) : Option Nat :=
  (List.range nodeCount).find? fun node => columns.tagOf node = 3 ∧ (columns.scopeOf node).value ≤ row ∧
    row < (columns.scopeOf node).value + (columns.scopeOf node).length

/-- A byte of the scalars once the scopes have their new names. -/
def rescopedByte (columns : EncodedColumns) (nodeCount : Nat) (scopeMap : List UInt8) (row : Nat) : UInt8 :=
  match columns.scopeHolding nodeCount row with
  | some node =>
    (renameScope scopeMap (columns.payload (columns.scopeOf node))).getD (row - (columns.scopeOf node).value) 0
  | none => columns.scalarBytes.getD row 0

/-- The columns with the scopes of the anonymous individuals renamed. -/
def rescoped (columns : EncodedColumns) (nodeCount : Nat) (scopeMap : List UInt8) : EncodedColumns :=
  columns.withScalars ((List.range columns.scalarBytes.length).map (columns.rescopedByte nodeCount scopeMap))

end EncodedColumns

namespace AcceptedTable

variable {table : AcceptedTable} {scopeMap : List UInt8} {replacements : List ScalarScopeReplacement}

/-- The replacements rename the scopes. -/
theorem mapped_rescoped (replaces : table.columns.Replaces scopeMap (List.range table.nodeCount) replacements)
    (sorted : replacements.Pairwise fun first second => first.start ≤ second.start) :
    table.columns.withScalars ((List.range table.columns.scalarBytes.length).map fun index =>
      (scopeMappedByte table.columns.scalarBytes replacements index).getD 0) =
        table.columns.rescoped table.nodeCount scopeMap := by
  refine congrArg table.columns.withScalars (List.map_congr_left fun row member => ?_)
  have within := List.mem_range.mp member
  have sizes : ∀ replacement ∈ replacements, replacement.target.length = 32 := fun replacement inside =>
    (replaces.found replacement inside).1
  have present : table.columns.scalarBytes[row]? = some (table.columns.scalarBytes.getD row 0) := by
    rw [List.getElem?_eq_getElem within, List.getD_eq_getElem _ _ within]
  rw [EncodedColumns.rescopedByte]
  cases holding : table.columns.scopeHolding table.nodeCount row with
  | some node =>
    have found := List.find?_some holding
    rw [decide_eq_true_eq] at found
    obtain ⟨anonymous, above, below⟩ := found
    have nodeWithin := List.mem_range.mp (List.mem_of_find?_eq_some holding)
    obtain ⟨fields, scopeKind, scopeLength⟩ := table.scopeOf_shape nodeWithin anonymous
    have kind : isScalar (table.columns.scopeOf node).kind ∨ (table.columns.scopeOf node).kind = COMPONENT_INTEGER :=
      .inl (EncodedColumns.isScalar_iff.mpr (.inr (.inl scopeKind)))
    obtain ⟨replacement, inside, covers, coversBelow, mapped⟩ | ⟨apart, mapped⟩ :=
      scopeMappedByte_cases table.columns.scalarBytes sorted sizes row
    · obtain ⟨_, _, start, renamed⟩ :=
        replacement_covers replaces nodeWithin (Nat.le_refl _) fields kind above below inside covers coversBelow
      change replacement.start = (table.columns.scopeOf node).value at start
      change renameScope scopeMap (table.columns.payload (table.columns.scopeOf node)) = replacement.target at renamed
      change _ = (renameScope scopeMap (table.columns.payload (table.columns.scopeOf node))).getD
        (row - (table.columns.scopeOf node).value) 0
      rw [mapped, renamed, start, List.getD_eq_getElem?_getD]
    · obtain unchanged | ⟨replacement, inside, start⟩ :=
        replaces.complete node (List.mem_range.mpr nodeWithin) anonymous
      · change _ = (renameScope scopeMap (table.columns.payload (table.columns.scopeOf node))).getD
          (row - (table.columns.scopeOf node).value) 0
        have offset : row - (table.columns.scopeOf node).value < (table.columns.scopeOf node).length := by omega
        rw [mapped, unchanged, List.getD_eq_getElem?_getD, EncodedColumns.payload_getElem? offset,
          Nat.add_sub_cancel' above]
      · have past := apart replacement inside (start.le.trans above)
        omega
  | none =>
    change _ = table.columns.scalarBytes.getD row 0
    obtain ⟨replacement, inside, covers, coversBelow, _⟩ | ⟨_, mapped⟩ :=
      scopeMappedByte_cases table.columns.scalarBytes sorted sizes row
    · obtain ⟨_, node, nodeIn, anonymous, _, long, start, _⟩ := replaces.found replacement inside
      have missed := List.find?_eq_none.mp holding node nodeIn
      rw [decide_eq_true_eq] at missed
      exact absurd ⟨anonymous, by omega, by omega⟩ missed
    · rw [mapped, present]
      rfl

end AcceptedTable

end PyElk.Native
