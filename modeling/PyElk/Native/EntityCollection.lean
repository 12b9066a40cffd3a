import PyElk.Native.LogicalRoots

open Raising

namespace PyElk.Native

/-- A node that has been put on the stack. -/
def Seen (visited : List Nat) (node : Nat) : Prop := visited.getD node 0 ≠ 0

theorem Seen.lt {visited : List Nat} {node : Nat} (seen : Seen visited node) : node < visited.length := by
  by_contra outside
  rw [Seen, List.getD_eq_getElem?_getD, List.getElem?_eq_none (not_lt.mp outside)] at seen
  exact seen rfl

theorem Seen.not_replicate {count node : Nat} : ¬ Seen (List.replicate count 0) node := by
  intro seen
  rw [Seen, List.getD_eq_getElem?_getD, List.getElem?_replicate] at seen
  split at seen
  · exact seen rfl
  · exact seen rfl

theorem seen_set {visited : List Nat} {node other : Nat} (within : node < visited.length) :
    Seen (visited.set node 1) other ↔ Seen visited other ∨ other = node := by
  rw [Seen, Seen, List.getD_eq_getElem?_getD, List.getD_eq_getElem?_getD, List.getElem?_set]
  by_cases same : node = other
  · rw [if_pos same, if_pos within]
    exact ⟨fun _ => .inr same.symm, fun _ => one_ne_zero⟩
  · rw [if_neg same]
    exact ⟨.inl, fun found => found.resolve_right fun here => same here.symm⟩

/-- What it makes of the seen nodes and the stack to push some children: those that are new are on the stack. -/
structure Pushed (before : List Nat × List Nat) (children : List Nat) (later : List Nat × List Nat) : Prop where
  length : later.1.length = before.1.length
  seen : ∀ node, Seen later.1 node ↔ Seen before.1 node ∨ node ∈ children
  stack : ∀ node, node ∈ later.2 ↔ node ∈ before.2 ∨ node ∈ children ∧ ¬ Seen before.1 node

theorem Pushed.refl (state : List Nat × List Nat) : Pushed state [] state where
  length := rfl
  seen node := by rw [List.mem_nil_iff, or_false]
  stack node := by rw [List.mem_nil_iff, false_and, or_false]

theorem Pushed.trans {before middle later : List Nat × List Nat} {children others : List Nat}
    (first : Pushed before children middle)
    (second : Pushed middle others later) : Pushed before (children ++ others) later where
  length := second.length.trans first.length
  seen node := by rw [second.seen, first.seen, List.mem_append, or_assoc]
  stack node := by
    rw [second.stack, first.stack, first.seen, List.mem_append]
    by_cases old : Seen before.1 node
    · simp only [old, not_true, and_false, or_false, true_or]
    · by_cases child : node ∈ children
      · simp only [child, old, not_false_eq_true, and_true, or_true, true_or]
      · simp only [child, old, not_false_eq_true, and_true, false_or, or_false]

/-- A loop that pushes the children of its items. -/
theorem Pushed.foldlM {body : List Nat × List Nat → Nat → Metering (List Nat × List Nat)} {children : Nat → List Nat}
    {items : List Nat}
    {start : List Nat × List Nat} {stops : CoreError → Prop}
    (each : ∀ item ∈ items, ∀ state, state.1.length = start.1.length →
      Settles (body state item) (Pushed state (children item)) stops) :
    Settles (items.foldlM body start) (Pushed start (items.flatMap children)) stops := by
  refine Settles.foldlM (fun state done => Pushed start (done.flatMap children) state) (.refl start)
    fun done item rest state whole holds => ?_
  refine (each item (whole ▸ List.mem_append_right _ (.head _)) state holds.length).weaken
    (fun later pushed => ?_) fun _ => id
  rw [List.flatMap_append, List.flatMap_singleton]
  exact holds.trans pushed

theorem pushFingerprintChild_ok {identifier : Nat} {state : List Nat × List Nat} (name : String)
    (positive : identifier ≠ 0)
    (within : identifier ≤ state.1.length) (small : identifier < 2 ^ 32) :
    ∃ later, pushFingerprintChild identifier name state = .ok later ∧ Pushed state [identifier - 1] later := by
  refine ⟨_, CoreResult.bind_ok.mpr ⟨identifier, nodeIdentifier_ok.mpr ⟨small, rfl⟩,
    CoreResult.bind_ok.mpr ⟨identifier - 1,
    nodeIndex_ok.mpr ⟨positive, by omega, rfl⟩, rfl⟩⟩, ?_⟩
  have inside : identifier - 1 < state.1.length := by omega
  split
  · next fresh =>
    refine ⟨List.length_set, fun node => ?_, fun node => ?_⟩
    · rw [List.mem_singleton]
      exact seen_set inside
    · rw [List.mem_cons, List.mem_singleton]
      constructor
      · intro found
        obtain here | there := found
        · exact .inr ⟨here, fun seen => seen (here ▸ fresh)⟩
        · exact .inl there
      · intro found
        exact found.elim .inr fun here => .inl here.1
  · next old =>
    refine ⟨rfl, fun node => ?_, fun node => ?_⟩
    · rw [List.mem_singleton]
      exact ⟨.inl, fun found => found.elim id fun here => here ▸ old⟩
    · rw [List.mem_singleton]
      exact ⟨.inl, fun found => found.elim id fun here => absurd (here.1 ▸ old) here.2⟩

namespace EncodedColumns

variable {columns : EncodedColumns} {nodeCount maxWork index : Nat} {state : List Nat × List Nat}

theorem collectItem_settles (item : columns.LegalItem nodeCount index) (length : state.1.length = nodeCount) :
    Settles (collectItem columns maxWork state index)
      (Pushed state (columns.item index).leafReferences) OutOfWork := by
  refine .bind (claimWork_settles 1 maxWork) fun _ _ => .check_ok item.read (.if_pos item.node ?_)
  obtain ⟨positive, within, small⟩ := item.legal.node item.node
  obtain ⟨later, pushed, facts⟩ :=
    @pushFingerprintChild_ok (columns.item index).value state "encoded fingerprint item node ID" positive
    (length ▸ within) small
  rw [Component.leafReferences, if_pos item.node]
  refine .check (fun value same => Except.ok.inj (pushed.symm.trans same) ▸ facts) fun error failed => ?_
  rw [pushed] at failed
  cases failed

theorem collectField_settles (field : columns.LegalField nodeCount index) (length : state.1.length = nodeCount) :
    Settles (collectField columns maxWork state index)
      (Pushed state (columns.references (columns.field index))) OutOfWork := by
  refine .bind (claimWork_settles 1 maxWork) fun _ _ => .check_ok field.read ?_
  by_cases node : (columns.field index).kind = COMPONENT_NODE
  · have leaf := not_collection node
    obtain ⟨positive, within, small⟩ := (field.legal.leaf leaf).node node
    obtain ⟨later, pushed, facts⟩ :=
      @pushFingerprintChild_ok (columns.field index).value state "encoded fingerprint field node ID" positive
      (length ▸ within) small
    have child : columns.references (columns.field index) = [(columns.field index).value - 1] := by
      rw [references, leaf, if_neg Bool.false_ne_true, Component.leafReferences, if_pos node]
    rw [child]
    refine .if_pos node (.check (fun value same => Except.ok.inj (pushed.symm.trans same) ▸ facts)
      fun error failed => ?_)
    rw [pushed] at failed
    cases failed
  · refine .if_neg node ?_
    by_cases collection : isCollection (columns.field index).kind
    · have children : columns.references (columns.field index) =
          (List.range' (columns.field index).value (columns.field index).length).flatMap fun item =>
            (columns.item item).leafReferences := by
        rw [references, if_pos collection, items, List.flatMap_map]
      rw [children]
      refine .if_pos collection (.check_ok (okOr_ok.mpr (if_pos (field.legal.small collection))) ?_)
      refine Pushed.foldlM fun item member state' same => ?_
      have bounds := List.mem_range'_1.mp member
      exact collectItem_settles (field.legal.item collection item bounds.1 bounds.2) (same.trans length)
    · have unreferenced : columns.references (columns.field index) = [] := by
        rw [references, if_neg collection, Component.leafReferences, if_neg node]
      rw [unreferenced]
      exact .if_neg collection (.pure (Pushed.refl state))

/-- The loop over the reachable nodes, started from what had been seen and found before. -/
structure Collecting (columns : EncodedColumns) (table nodeCount : Nat) (old : List Nat)
    (found : List SegmentNodeRef) (root : Nat)
    (state : Collection) : Prop where
  length : state.visited.length = nodeCount
  grows : ∀ node, Seen old node → Seen state.visited node
  starts : Seen state.visited root
  stack : ∀ node ∈ state.stack, Seen state.visited node
  closed : ∀ node, Seen state.visited node → node ∈ state.stack ∨
    (∀ child, columns.Refers child node → Seen state.visited child) ∧
      (columns.tagOf node = 2 → ⟨table, node⟩ ∈ state.entities)
  reached : ∀ node, Seen state.visited node → Seen old node ∨ Relation.ReflTransGen columns.Refers node root
  keeps : ∀ entity ∈ found, entity ∈ state.entities
  entities : ∀ entity ∈ state.entities, entity ∈ found ∨
    entity.table = table ∧ Seen state.visited entity.node ∧ columns.tagOf entity.node = 2

theorem collectNode_settles {canonicalLengths : List Nat} (sound : columns.Sound canonicalLengths)
    {table root node : Nat} {old rest : List Nat}
    {found : List SegmentNodeRef} {state : Collection}
    (downwards : ∀ node, Seen old node → ∀ child, columns.Refers child node → Seen old child)
    (collecting : columns.Collecting table canonicalLengths.length old found root state)
    (top : state.stack = node :: rest) :
    Settles (collectNode table columns maxWork state node rest)
      (columns.Collecting table canonicalLengths.length old found root) OutOfWork := by
  have seen := collecting.stack node (top ▸ .head _)
  have within : node < canonicalLengths.length := collecting.length ▸ seen.lt
  have ended := sound.end_ node within
  have small := (uintAt_ok.mp ended).1.1
  refine .bind (claimWork_settles 1 maxWork) fun _ _ => .check_ok (uintAt_named (sound.tag node within) _) ?_
  refine .check_ok (uintAt_named (sound.start node within) _) (.check_ok (okOr_ok.mpr (if_pos (by omega))) ?_)
  refine .check_ok (uintAt_named ended _) ?_
  have fields :
    Settles ((List.range' (columns.offsetOf node) (columns.arity node)).foldlM (collectField columns maxWork)
      (state.visited, rest))
      (Pushed (state.visited, rest) ((List.range' (columns.offsetOf node) (columns.arity node)).flatMap fun index =>
        columns.references (columns.field index))) OutOfWork := by
    refine Pushed.foldlM fun index member state' same => ?_
    have bounds := List.mem_range'_1.mp member
    exact collectField_settles (sound.field node within index bounds.1 bounds.2) (same.trans collecting.length)
  refine .bind fields fun later pushed => .pure ?_
  have children :
    ((List.range' (columns.offsetOf node) (columns.arity node)).flatMap fun index =>
      columns.references (columns.field index)) =
      columns.children node := by
    rw [EncodedColumns.children, EncodedColumns.fields, List.flatMap_map]
  rw [children] at pushed
  have mono : ∀ other, Seen state.visited other → Seen later.1 other :=
    fun other before => (pushed.seen other).mpr (.inl before)
  have entity : ∀ {known : SegmentNodeRef},
    known ∈ (if columns.tagOf node = 2 then state.entities ++ [⟨table, node⟩] else state.entities) ↔
      known ∈ state.entities ∨ known = ⟨table, node⟩ ∧ columns.tagOf node = 2 := by
    intro known
    by_cases two : columns.tagOf node = 2
    · rw [if_pos two, List.mem_append, List.mem_singleton, and_iff_left two]
    · rw [if_neg two]
      exact ⟨.inl, fun found => found.elim id fun here => absurd here.2 two⟩
  exact {
    length := pushed.length.trans collecting.length
    grows := fun other before => mono other (collecting.grows other before)
    starts := mono root collecting.starts
    stack := fun other member => by
      obtain earlier | here := (pushed.stack other).mp member
      · exact mono other (collecting.stack other (top ▸ .tail _ earlier))
      · exact (pushed.seen other).mpr (.inr here.1)
    closed := fun other known => by
      by_cases same : other = node
      · rw [same]
        exact .inr ⟨fun child refers => (pushed.seen child).mpr (.inr refers),
          fun two => entity.mpr (.inr ⟨rfl, two⟩)⟩
      by_cases before : Seen state.visited other
      · obtain waits | done := collecting.closed other before
        · rw [top] at waits
          exact .inl ((pushed.stack other).mpr (.inl ((List.mem_cons.mp waits).resolve_left same)))
        · exact .inr ⟨fun child refers => mono child (done.1 child refers), fun two => entity.mpr (.inl (done.2 two))⟩
      · have child := ((pushed.seen other).mp known).resolve_left before
        exact .inl ((pushed.stack other).mpr (.inr ⟨child, before⟩))
    reached := fun other known => by
      obtain before | child := (pushed.seen other).mp known
      · exact collecting.reached other before
      · obtain earlier | path := collecting.reached node seen
        · exact .inl (downwards node earlier other child)
        · exact .inr (.head child path)
    keeps := fun known member => entity.mpr (.inl (collecting.keeps known member))
    entities := fun known member => by
      obtain before | here := entity.mp member
      · obtain kept | fresh := collecting.entities known before
        · exact .inl kept
        · exact .inr ⟨fresh.1, mono _ fresh.2.1, fresh.2.2⟩
      · rw [here.1]
        exact .inr ⟨rfl, mono node seen, here.2⟩ }

theorem collectLoop_settles {canonicalLengths : List Nat} (sound : columns.Sound canonicalLengths)
    {table root turns : Nat} {old : List Nat}
    {found : List SegmentNodeRef} {state : Collection}
    (downwards : ∀ node, Seen old node → ∀ child, columns.Refers child node → Seen old child)
    (collecting : columns.Collecting table canonicalLengths.length old found root state) :
    Settles (collectLoop table columns maxWork turns state)
      (fun last => columns.Collecting table canonicalLengths.length old found root last ∧
        last.stack = []) OutOfWork := by
  induction turns generalizing state with
  | zero => exact .raise ⟨_, rfl⟩
  | succ turns ih =>
    rw [collectLoop]
    split
    · next empty => exact .pure ⟨collecting, empty⟩
    · next node rest top => exact .bind (collectNode_settles sound downwards collecting top) fun later => ih

/-- Where children are seen with their parents, everything below a node is. -/
theorem seen_below {visited : List Nat}
    (downwards : ∀ node, Seen visited node → ∀ child, columns.Refers child node → Seen visited child)
    {root node : Nat} (seen : Seen visited root) (path : Relation.ReflTransGen columns.Refers node root) :
    Seen visited node := by
  induction path using Relation.ReflTransGen.head_induction_on with
  | refl => exact seen
  | head refers _ ih => exact downwards _ ih _ refers

/-- What has been found of the roots of a table: the nodes below them, and the entities among these. -/
structure Gathered (columns : EncodedColumns) (table nodeCount : Nat) (roots : List Nat) (visited : List Nat)
    (entities : List SegmentNodeRef) : Prop where
  length : visited.length = nodeCount
  seen : ∀ node, Seen visited node ↔ ∃ root ∈ roots, Relation.ReflTransGen columns.Refers node root
  entity : ∀ node, ⟨table, node⟩ ∈ entities ↔ Seen visited node ∧ columns.tagOf node = 2

/-- Before the first root nothing has been found. -/
theorem Gathered.start (columns : EncodedColumns) (table nodeCount : Nat) :
    columns.Gathered table nodeCount [] (List.replicate nodeCount 0) [] where
  length := List.length_replicate
  seen node := ⟨fun seen => absurd seen Seen.not_replicate, fun below => by
    obtain ⟨root, member, _⟩ := below
    cases member⟩
  entity node := ⟨fun member => absurd member List.not_mem_nil, fun seen => absurd seen.1 Seen.not_replicate⟩

section

variable {table nodeCount root : Nat} {roots visited : List Nat} {entities : List SegmentNodeRef}

theorem Gathered.downwards (gathered : columns.Gathered table nodeCount roots visited entities) :
    ∀ node, Seen visited node → ∀ child, columns.Refers child node → Seen visited child := by
  intro node seen child refers
  obtain ⟨top, member, path⟩ := (gathered.seen node).mp seen
  exact (gathered.seen child).mpr ⟨top, member, .head refers path⟩

/-- A root that has been seen adds nothing. -/
theorem Gathered.again (gathered : columns.Gathered table nodeCount roots visited entities)
    (old : Seen visited root) :
    columns.Gathered table nodeCount (roots ++ [root]) visited entities where
  length := gathered.length
  seen node := by
    rw [gathered.seen]
    constructor
    · intro found
      obtain ⟨top, member, path⟩ := found
      exact ⟨top, List.mem_append_left _ member, path⟩
    · intro found
      obtain ⟨top, member, path⟩ := found
      obtain before | here := List.mem_append.mp member
      · exact ⟨top, before, path⟩
      · rw [List.mem_singleton.mp here] at path
        exact (gathered.seen node).mp (seen_below gathered.downwards old path)
  entity := gathered.entity

/-- The loop starts at a root. -/
theorem Gathered.collecting (gathered : columns.Gathered table nodeCount roots visited entities)
    (inside : root < visited.length) :
    columns.Collecting table nodeCount visited entities root ⟨visited.set root 1, [root], entities⟩ where
  length := List.length_set.trans gathered.length
  grows node before := (seen_set inside).mpr (.inl before)
  starts := (seen_set inside).mpr (.inr rfl)
  stack node member := (seen_set inside).mpr (.inr (List.mem_singleton.mp member))
  closed node known := by
    obtain before | here := (seen_set inside).mp known
    · refine .inr ⟨fun child refers => (seen_set inside).mpr (.inl (gathered.downwards node before child refers)),
        fun two => ?_⟩
      exact (gathered.entity node).mpr ⟨before, two⟩
    · exact .inl (List.mem_singleton.mpr here)
  reached node known := by
    obtain before | here := (seen_set inside).mp known
    · exact .inl before
    · rw [here]
      exact .inr .refl
  keeps _ := id
  entities _ := .inl

/-- When nothing is left on the stack, all that lies below the root has been found. -/
theorem Gathered.collected (gathered : columns.Gathered table nodeCount roots visited entities) {last : Collection}
    (collecting : columns.Collecting table nodeCount visited entities root last) (empty : last.stack = []) :
    columns.Gathered table nodeCount (roots ++ [root]) last.visited last.entities := by
  have closed : ∀ node, Seen last.visited node → (∀ child, columns.Refers child node → Seen last.visited child) ∧
      (columns.tagOf node = 2 → ⟨table, node⟩ ∈ last.entities) := by
    intro node seen
    refine (collecting.closed node seen).resolve_left fun waits => ?_
    rw [empty] at waits
    cases waits
  refine ⟨collecting.length, fun node => ?_, fun node => ?_⟩
  · constructor
    · intro seen
      obtain before | path := collecting.reached node seen
      · obtain ⟨top, member, path⟩ := (gathered.seen node).mp before
        exact ⟨top, List.mem_append_left _ member, path⟩
      · exact ⟨root, List.mem_append_right _ (.head _), path⟩
    · intro found
      obtain ⟨top, member, path⟩ := found
      obtain before | here := List.mem_append.mp member
      · exact collecting.grows node ((gathered.seen node).mpr ⟨top, before, path⟩)
      · rw [List.mem_singleton.mp here] at path
        exact seen_below (fun other seen => (closed other seen).1) collecting.starts path
  · constructor
    · intro member
      obtain before | here := collecting.entities _ member
      · obtain ⟨seen, two⟩ := (gathered.entity node).mp before
        exact ⟨collecting.grows node seen, two⟩
      · exact here.2
    · intro found
      exact (closed node found.1).2 found.2

/-- The entities of the other tables are left alone. -/
theorem Collecting.elsewhere {state : Collection}
    (collecting : columns.Collecting table nodeCount visited entities root state)
    {entity : SegmentNodeRef} (other : entity.table ≠ table) : entity ∈ state.entities ↔ entity ∈ entities :=
  ⟨fun member => (collecting.entities entity member).resolve_right fun here => other here.1, collecting.keeps entity⟩

end

/-- The nodes below another root, and their entities, are found. -/
theorem collectReachableEntities_settles {canonicalLengths : List Nat} (sound : columns.Sound canonicalLengths)
    {table root : Nat}
    {roots visited : List Nat} {entities : List SegmentNodeRef} (within : root < canonicalLengths.length)
    (gathered : columns.Gathered table canonicalLengths.length roots visited entities) :
    Settles (collectReachableEntities table root columns visited entities maxWork) (fun later =>
      columns.Gathered table canonicalLengths.length (roots ++ [root]) later.1 later.2 ∧
        ∀ entity : SegmentNodeRef, entity.table ≠ table → (entity ∈ later.2 ↔ entity ∈ entities)) OutOfWork := by
  have inside : root < visited.length := gathered.length ▸ within
  refine .check_ok (okOr_ok.mpr (List.getElem?_eq_getElem inside)) ?_
  have start : visited[root] = visited.getD root 0 := (List.getD_eq_getElem _ _ inside).symm
  rw [start]
  by_cases old : Seen visited root
  · exact .if_pos old (.pure ⟨gathered.again old, fun _ _ => Iff.rfl⟩)
  · refine .if_neg old (.bind (collectLoop_settles sound gathered.downwards (gathered.collecting inside))
      fun last done => .pure ?_)
    obtain ⟨collecting, empty⟩ := done
    exact ⟨gathered.collected collecting empty, fun entity other => collecting.elsewhere other⟩

end EncodedColumns

namespace AcceptedTable

variable {table : AcceptedTable}

/-- What is collected over some nodes of a table is what lies below them and is an entity. -/
theorem collectReachableEntities_exact {index : Nat} {roots : List Nat}
    (within : ∀ root ∈ roots, root < table.nodeCount) (maxWork : Nat) :
    Settles (roots.foldlM
      (fun found root => collectReachableEntities index root table.columns found.1 found.2 maxWork)
        (List.replicate table.nodeCount 0, []))
      (fun found => ∀ entity, entity ∈ found.2 ↔ entity.table = index ∧ table.columns.tagOf entity.node = 2 ∧
        ∃ root ∈ roots, Relation.ReflTransGen table.columns.Refers entity.node root) OutOfWork := by
  have turns := @Settles.foldlM _ _ _ _ OutOfWork
    (fun found root => collectReachableEntities index root table.columns found.1 found.2 maxWork) roots
      (List.replicate table.nodeCount 0, [])
    (fun found done => table.columns.Gathered index table.canonicalLengths.length done found.1 found.2 ∧
      ∀ entity ∈ found.2, entity.table = index)
    ⟨by rw [length_canonicalLengths]; exact .start _ _ _, fun entity member => absurd member List.not_mem_nil⟩
    fun done root rest found whole holds => by
      have inside : root < table.canonicalLengths.length := by
        rw [length_canonicalLengths]
        exact within root (whole ▸ List.mem_append_right done (.head rest))
      refine (EncodedColumns.collectReachableEntities_settles table.sound inside holds.1).weaken
        (fun later gathered => ?_) fun _ => id
      refine ⟨gathered.1, fun entity member => ?_⟩
      by_contra elsewhere
      exact elsewhere (holds.2 entity ((gathered.2 entity elsewhere).mp member))
  refine turns.weaken (fun found holds entity => ?_) fun _ => id
  obtain ⟨gathered, here⟩ := holds
  constructor
  · intro member
    have same := here entity member
    have known := (gathered.entity entity.node).mp (same ▸ member)
    exact ⟨same, known.2, (gathered.seen entity.node).mp known.1⟩
  · intro below
    have known := (gathered.entity entity.node).mpr ⟨(gathered.seen entity.node).mpr below.2.2, below.2.1⟩
    rw [← below.1] at known
    exact known

theorem collectReachableEntities_declared :
    Settles ([5, 6].foldlM
      (fun found root => collectReachableEntities 0 root annotatedDeclarations.columns found.1 found.2 1000)
        (List.replicate annotatedDeclarations.nodeCount 0, []))
      (fun found => ∀ entity, entity ∈ found.2 ↔ entity.table = 0 ∧
        annotatedDeclarations.columns.tagOf entity.node = 2 ∧
        ∃ root ∈ [5, 6], Relation.ReflTransGen annotatedDeclarations.columns.Refers entity.node root) OutOfWork :=
  collectReachableEntities_exact (by decide) 1000

end AcceptedTable

end PyElk.Native
