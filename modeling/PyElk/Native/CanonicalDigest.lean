import PyElk.Native.CanonicalRows

open Raising Lexicographic

namespace PyElk.Native

theorem mapM_ok {α β : Type} {step : α → CoreResult β} {value : α → β} {items : List α}
    (each : ∀ item ∈ items, step item = .ok (value item)) : items.mapM step = .ok (items.map value) := by
  induction items with
  | nil => rfl
  | cons item rest ih =>
    rw [List.mapM_cons, each item (.head _), ih fun other member => each other (.tail _ member)]
    rfl

/-- The payload is fed as it is. -/
theorem hashScalarRange_meters {source : List UInt8} {start length : Nat} (small : start + length < USIZE)
    (within : start + length ≤ source.length) (maxWork low : Nat) :
    Meters OutOfWork (workBound maxWork) low (hashScalarRange source start length maxWork)
      ((source.drop start).take length) length := by
  refine .bind_free (claimWork_meters length maxWork low) (.check ?_)
  have bytes : (List.range length).map (fun offset => ((source.drop start).take length).getD offset 0) =
    (source.drop start).take length := by
    have size : ((source.drop start).take length).length = length := by
      rw [List.length_take, List.length_drop]
      omega
    refine List.ext_getElem (by rw [List.length_map, List.length_range, size]) fun offset inside inside' => ?_
    rw [List.getElem_map, List.getElem_range, List.getD_eq_getElem?_getD, List.getElem?_eq_getElem inside',
      Option.getD_some]
  rw [← bytes]
  refine mapM_ok fun offset member => ?_
  obtain ⟨byte, read, found⟩ := byteAt_payload within (List.mem_range.mp member) "encoded fingerprint scalar"
  have bound := List.mem_range.mp member
  have added : checkedAdd start offset = some (start + offset) := if_pos (by omega)
  rw [added]
  change byteAt source (start + offset) _ = _
  rw [read, List.getD_eq_getElem?_getD, found]
  rfl

namespace EncodedColumns

variable {columns : EncodedColumns} {canonicalLengths : List Nat}

/-- The component at a row. -/
def component (columns : EncodedColumns) : ComponentRow → Component
  | .field index => columns.field index
  | .item index => columns.item index

variable (columns) in
noncomputable def taskBytes : CanonicalHashTask → List UInt8
  | .node node fieldLimit => columns.bytesOf (.node node fieldLimit)
  | .fields next end_ => columns.bytesOf (.fields next (end_ - next))
  | .component row => columns.componentBytes columns.canonicalBytes (columns.component row)
  | .collection kind next end_ => columns.bytesOf (.items kind next (end_ - next))

variable (columns) in
def TaskLegal (nodeCount : Nat) : CanonicalHashTask → Prop
  | .node node fieldLimit => node < nodeCount ∧ fieldLimit.getD 0 ≤ columns.arity node
  | .fields next end_ => next ≤ end_ ∧ columns.Covers nodeCount (.fields next (end_ - next))
  | .component row => componentParts row columns = .ok (columns.component row).parts ∧
    (columns.component row).Legal columns nodeCount
  | .collection kind next end_ => next ≤ end_ ∧ columns.Covers nodeCount (.items kind next (end_ - next))

variable (columns) in
/-- What is enough for a task: the two turns behind a component are paid by its kind. -/
noncomputable def taskWeight : CanonicalHashTask → Nat
  | .component row => 4 * (columns.taskBytes (.component row)).length - 2
  | task => 4 * (columns.taskBytes task).length + 1

variable (columns) in
noncomputable def hashBytes (tasks : List CanonicalHashTask) : List UInt8 := tasks.flatMap columns.taskBytes

variable (columns) in
noncomputable def hashWeight (tasks : List CanonicalHashTask) : Nat := (tasks.map columns.taskWeight).sum

/-- A turn feeds the bytes of its task, or leaves them to the tasks it pushes. -/
structure Feeds (columns : EncodedColumns) (canonicalLengths : List Nat) (maxWork low : Nat)
    (task : CanonicalHashTask)
    (fed : List UInt8) (pushed : List CanonicalHashTask) (cost : Nat) : Prop where
  meters : Meters OutOfWork (workBound maxWork) low (hashTask columns canonicalLengths maxWork task)
    (fed, pushed) cost
  bytes : columns.taskBytes task = fed ++ columns.hashBytes pushed
  legal : ∀ other ∈ pushed, columns.TaskLegal canonicalLengths.length other
  paid : 1 + cost + columns.hashWeight pushed ≤ columns.taskWeight task

section

variable {maxWork low : Nat}

/-- Nothing is pushed. -/
theorem hashBytes_nil : columns.hashBytes [] = [] := rfl

theorem hashBytes_singleton (task : CanonicalHashTask) : columns.hashBytes [task] = columns.taskBytes task :=
  List.flatMap_singleton ..

theorem hashWeight_singleton (task : CanonicalHashTask) : columns.hashWeight [task] = columns.taskWeight task := by
  rw [hashWeight, List.map_singleton, List.sum_singleton]

theorem hashedNode_ok {component : Component} (leaf : component.ValidLeaf columns canonicalLengths.length)
    (node : component.kind = COMPONENT_NODE) (message : String) :
    hashedNode canonicalLengths component.value message = .ok (component.value - 1) := by
  obtain ⟨positive, within, small⟩ := leaf.node node
  rw [hashedNode, CoreResult.bind_ok]
  exact ⟨component.value, nodeIdentifier_ok.mpr ⟨small, rfl⟩, nodeIndex_ok.mpr ⟨positive, by omega, rfl⟩⟩

/-- A child is fed behind its length. -/
theorem framed_child (sound : columns.Sound canonicalLengths) {child : Nat}
    (within : child < canonicalLengths.length) :
    frame (columns.canonicalBytes child) = hashVarint (canonicalLengths.getD child 0) ++
      columns.taskBytes (.node child none) := by
  rw [hashVarint_eq, sound.measured child within, frame]
  change _ = _ ++ columns.canonicalPrefix child none
  rw [sound.canonicalPrefix_none within]

/-- A component feeds its kind and its content, up to the child or the items that are left to a task. -/
theorem component_feeds (sound : columns.Sound canonicalLengths) {row : ComponentRow}
    (read : componentParts row columns = .ok (columns.component row).parts)
    (legal : (columns.component row).Legal columns canonicalLengths.length) :
    ∃ fed pushed cost, Feeds columns canonicalLengths maxWork low (.component row) fed pushed cost := by
  have whole : columns.taskBytes (.component row) =
      UInt8.ofNat (columns.component row).kind :: columns.content columns.canonicalBytes
        (columns.component row) := rfl
  have weight : columns.taskWeight (.component row) = 4 * (columns.taskBytes (.component row)).length - 2 := rfl
  have positive := varint_length_pos
  cases collection : isCollection (columns.component row).kind with
  | true =>
    have notNone : (columns.component row).kind ≠ COMPONENT_NONE := fun absent => by
      rw [absent] at collection; exact absurd collection (by decide)
    have notNode : (columns.component row).kind ≠ COMPONENT_NODE := fun node => by
      rw [node] at collection; exact absurd collection (by decide)
    have notInteger : (columns.component row).kind ≠ COMPONENT_INTEGER := fun integer => by
      rw [integer] at collection; exact absurd collection (by decide)
    have notScalar : ¬ isScalar (columns.component row).kind := by
      have kinds := collection
      rw [isCollection, Bool.or_eq_true, decide_eq_true_eq, decide_eq_true_eq] at kinds
      obtain set | sequence := kinds
      · rw [set]; decide
      · rw [sequence]; decide
    have added : checkedAdd (columns.component row).value (columns.component row).length =
        some ((columns.component row).value + (columns.component row).length) := if_pos (legal.small collection)
    rw [content_collection collection, ← hashVarint_eq] at whole
    refine ⟨UInt8.ofNat (columns.component row).kind :: hashVarint (columns.component row).length,
      [.collection (columns.component row).kind (columns.component row).value
        ((columns.component row).value + (columns.component row).length)], 0, ?_, ?_, ?_, ?_⟩
    · refine .check_bind read
        (.if_neg notNone (.if_neg notNode (.if_neg notScalar (.if_neg notInteger (.if_pos collection ?_)))))
      exact .check_bind (okOr_ok.mpr added) (.pure _)
    · rw [whole, hashBytes_singleton, taskBytes, Nat.add_sub_cancel_left]
      rfl
    · intro other member
      rw [List.mem_singleton.mp member]
      refine ⟨Nat.le_add_right _ _, fun item above below => legal.item collection item above ?_⟩
      omega
    · have more := positive (columns.component row).length
      rw [weight, whole, hashWeight_singleton, taskWeight, taskBytes, Nat.add_sub_cancel_left, bytesOf, hashVarint_eq,
        List.length_cons, List.length_append]
      · omega
      · intro other same
        cases same
  | false =>
    have leaf := legal.legalLeaf collection
    obtain absent | node | scalar | integer := leaf.cases
    · rw [content_none absent] at whole
      refine ⟨[UInt8.ofNat (columns.component row).kind], [], 0, .check_bind read (.if_pos absent (.pure _)),
        whole, ?_, ?_⟩
      · intro other member
        cases member
      · rw [weight, whole]
        change 1 + 0 + 0 ≤ 4 * 1 - 2
        omega
    · have notNone : (columns.component row).kind ≠ COMPONENT_NONE := by rw [node]; decide
      have within := leaf.child node
      rw [content_node node, framed_child sound within] at whole
      have more := positive (canonicalLengths.getD ((columns.component row).value - 1) 0)
      rw [← hashVarint_eq] at more
      refine ⟨UInt8.ofNat (columns.component row).kind :: hashVarint
        (canonicalLengths.getD ((columns.component row).value - 1) 0),
        [.node ((columns.component row).value - 1) none], 0, ?_, ?_, ?_, ?_⟩
      · refine .check_bind read (.if_neg notNone (.if_pos node ?_))
        exact .check_bind (hashedNode_ok leaf.toValidLeaf node _) (.pure _)
      · rw [whole, hashBytes_singleton]
        rfl
      · intro other member
        rw [List.mem_singleton.mp member]
        exact ⟨within, Nat.zero_le _⟩
      · rw [weight, whole, hashWeight_singleton, taskWeight, List.length_cons, List.length_append]
        · omega
        · intro other same
          cases same
    · have notNone : (columns.component row).kind ≠ COMPONENT_NONE := fun absent => by
        rw [absent] at scalar; exact absurd scalar (by decide)
      have notNode : (columns.component row).kind ≠ COMPONENT_NODE := fun node => by
        rw [node] at scalar; exact absurd scalar (by decide)
      have range := leaf.scalar scalar
      have size : (columns.payload (columns.component row)).length = (columns.component row).length := by
        rw [payload, List.length_take, List.length_drop]
        omega
      have more := positive (columns.component row).length
      rw [content_scalar scalar, ← hashVarint_eq] at whole
      rw [← hashVarint_eq] at more
      refine ⟨UInt8.ofNat (columns.component row).kind :: (hashVarint (columns.component row).length ++
        columns.payload (columns.component row)), [], (columns.component row).length, ?_, ?_, ?_, ?_⟩
      · refine .check_bind read (.if_neg notNone (.if_neg notNode (.if_pos scalar ?_)))
        exact .bind_free (hashScalarRange_meters range.1 range.2 maxWork low) (.pure _)
      · rw [whole, hashBytes_nil, List.append_nil]
      · intro other member
        cases member
      · rw [weight, whole, List.length_cons, List.length_append, size]
        change 1 + (columns.component row).length + 0 ≤ _
        omega
    · have notNone : (columns.component row).kind ≠ COMPONENT_NONE := by rw [integer]; decide
      have notNode : (columns.component row).kind ≠ COMPONENT_NODE := by rw [integer]; decide
      have notScalar : ¬ isScalar (columns.component row).kind := by rw [integer]; decide
      have range := leaf.range integer
      have groups : (List.range (varintWidth (IntegerRange.value columns.scalarBytes (columns.component row).value
          (columns.component row).length))).mapM
            (fun index => integerVarintByte columns.scalarBytes (columns.component row).value
            (columns.component row).length index
              (varintWidth (IntegerRange.value columns.scalarBytes (columns.component row).value
              (columns.component row).length))) =
          .ok (varint (IntegerRange.value columns.scalarBytes (columns.component row).value
            (columns.component row).length)) := by
        rw [varint_eq_map]
        exact mapM_ok fun index member => range.byte _ (List.mem_range.mp member)
      rw [content_integer integer] at whole
      refine ⟨UInt8.ofNat (columns.component row).kind ::
        varint (IntegerRange.value columns.scalarBytes (columns.component row).value (columns.component row).length),
          [], 0, ?_, ?_, ?_, ?_⟩
      · refine .check_bind read (.if_neg notNone (.if_neg notNode (.if_neg notScalar (.if_pos integer ?_))))
        exact .check_bind range.width (.check_bind groups (.pure _))
      · rw [whole, hashBytes_nil, List.append_nil]
        rfl
      · intro other member
        cases member
      · have more := positive (Bytes.ofLittleEndian (columns.payload (columns.component row)))
        rw [weight, whole, List.length_cons]
        change 1 + 0 + 0 ≤ _
        omega

theorem prefix_fields {node limit : Nat} (within : limit ≤ columns.arity node) :
    columns.prefixBytes columns.canonicalBytes node limit =
      varint (columns.tagOf node) ++ columns.bytesOf (.fields (columns.offsetOf node) limit) := by
  rw [prefixBytes, fields_take within]
  rfl

theorem node_feeds (sound : columns.Sound canonicalLengths) {node : Nat} {fieldLimit : Option Nat}
    (legal : columns.TaskLegal canonicalLengths.length (.node node fieldLimit)) :
    ∃ fed pushed cost, Feeds columns canonicalLengths maxWork low (.node node fieldLimit) fed pushed cost := by
  obtain ⟨within, limited⟩ := legal
  have cut : fieldLimit.getD (columns.arity node) ≤ columns.arity node := by
    cases fieldLimit with
    | none => exact Nat.le_refl _
    | some limit => exact limited
  have whole : columns.taskBytes (.node node fieldLimit) = hashVarint (columns.tagOf node) ++
      columns.bytesOf (.fields (columns.offsetOf node) (fieldLimit.getD (columns.arity node))) := by
    rw [hashVarint_eq]
    exact prefix_fields cut
  have covers : columns.Covers canonicalLengths.length
      (.fields (columns.offsetOf node) (fieldLimit.getD (columns.arity node))) := fun index above below =>
    sound.field node within index above (by omega)
  have tagged := uintAt_named (sound.tag node within) "encoded fingerprint node tag"
  have started := uintAt_named (sound.start node within) "encoded fingerprint field offset"
  have ended := uintAt_named (sound.end_ node within) "encoded fingerprint field end"
  have positive := varint_length_pos (columns.tagOf node)
  rw [← hashVarint_eq] at positive
  have full : columns.offsetOf (node + 1) = columns.offsetOf node + columns.arity node := by
    have ordered := sound.ordered node within
    rw [arity]
    omega
  have small : columns.offsetOf (node + 1) < USIZE := by
    have bound : ((columns.nodeFieldOffsets.drop ((node + 1) * 8)).take 8).length ≤ 8 := List.length_take_le _ _
    exact (Bytes.ofLittleEndian_lt _).trans_le (Nat.pow_le_pow_right (by decide) bound)
  have pushed :
    columns.taskBytes
    (.fields (columns.offsetOf node) (columns.offsetOf node + fieldLimit.getD (columns.arity node))) =
      columns.bytesOf (.fields (columns.offsetOf node) (fieldLimit.getD (columns.arity node))) := by
    rw [taskBytes, Nat.add_sub_cancel_left]
  refine ⟨hashVarint (columns.tagOf node),
    [.fields (columns.offsetOf node) (columns.offsetOf node + fieldLimit.getD (columns.arity node))], 0,
    ?_, ?_, ?_, ?_⟩
  · refine .check_bind tagged (.check_bind started (.check_bind ended ?_))
    cases fieldLimit with
    | none =>
      rw [Option.getD_none, ← full]
      exact .pure _
    | some limit =>
      have limited : limit ≤ columns.arity node := limited
      have added : checkedAdd (columns.offsetOf node) limit = some (columns.offsetOf node + limit) :=
        if_pos (by omega)
      refine .check_bind (refuse_of_not (not_lt.mpr limited) _) ?_
      exact .check_bind (okOr_ok.mpr added) (.pure _)
  · rw [whole, hashBytes_singleton, pushed]
  · intro other member
    rw [List.mem_singleton.mp member]
    refine ⟨Nat.le_add_right _ _, ?_⟩
    rw [Nat.add_sub_cancel_left]
    exact covers
  · rw [hashWeight_singleton, taskWeight, taskWeight, whole, pushed, List.length_append]
    · omega
    · intro other same
      cases same
    · intro other same
      cases same

theorem fields_feeds {next end_ : Nat} (legal : columns.TaskLegal canonicalLengths.length (.fields next end_)) :
    ∃ fed pushed cost, Feeds columns canonicalLengths maxWork low (.fields next end_) fed pushed cost := by
  obtain ⟨bounded, covers⟩ := legal
  by_cases passed : next = end_
  · refine ⟨[], [], 0, .if_pos passed (.pure _), ?_, ?_, ?_⟩
    · rw [taskBytes, passed, Nat.sub_self]
      rfl
    · intro other member
      cases member
    · change 1 + 0 + 0 ≤ 4 * _ + 1
      omega
  · have field : columns.LegalField canonicalLengths.length next := covers next (Nat.le_refl _) (by omega)
    have added : checkedAdd next 1 = some (next + 1) := if_pos (componentParts_small field.read)
    obtain ⟨count, more⟩ : ∃ count, end_ - next = count + 1 := ⟨end_ - next - 1, by omega⟩
    have rest : end_ - (next + 1) = count := by omega
    have whole : columns.taskBytes (.fields next end_) =
        columns.taskBytes (.component (.field next)) ++ columns.taskBytes (.fields (next + 1) end_) := by
      rw [taskBytes, taskBytes, taskBytes, more, rest, bytesOf, fields_succ, List.flatMap_cons]
      rfl
    refine ⟨[], [.component (.field next), .fields (next + 1) end_], 0,
      .if_neg passed (.check_bind (okOr_ok.mpr added) (.pure _)), ?_, ?_, ?_⟩
    · rw [whole, hashBytes, List.flatMap_cons, List.flatMap_singleton]
      rfl
    · intro other member
      obtain here | later := List.mem_cons.mp member
      · rw [here]
        exact ⟨field.read, field.legal⟩
      · rw [List.mem_singleton.mp later]
        exact ⟨by omega, fun index above below => covers index (by omega) (by omega)⟩
    · have positive : 0 < (columns.taskBytes (.component (.field next))).length := Nat.succ_pos _
      rw [hashWeight, List.map_cons, List.map_singleton, List.sum_cons, List.sum_singleton]
      change 1 + 0 + (4 * (columns.taskBytes (.component (.field next))).length - 2 +
        (4 * (columns.taskBytes (.fields (next + 1) end_)).length + 1)) ≤
          4 * (columns.taskBytes (.fields next end_)).length + 1
      rw [whole, List.length_append]
      omega

theorem collection_feeds (sound : columns.Sound canonicalLengths) {kind next end_ : Nat}
    (legal : columns.TaskLegal canonicalLengths.length (.collection kind next end_)) :
    ∃ fed pushed cost, Feeds columns canonicalLengths maxWork low (.collection kind next end_) fed pushed cost := by
  obtain ⟨bounded, covers⟩ := legal
  by_cases passed : next = end_
  · refine ⟨[], [], 0, .if_pos passed (.pure _), ?_, ?_, ?_⟩
    · rw [taskBytes, passed, Nat.sub_self]
      rfl
    · intro other member
      cases member
    · change 1 + 0 + 0 ≤ 4 * _ + 1
      omega
  · have item : columns.LegalItem canonicalLengths.length next := covers next (Nat.le_refl _) (by omega)
    have added : checkedAdd next 1 = some (next + 1) := if_pos (componentParts_small item.read)
    have later : columns.TaskLegal canonicalLengths.length (.collection kind (next + 1) end_) :=
      ⟨by omega, fun index above below => covers index (by omega) (by omega)⟩
    obtain ⟨count, more⟩ : ∃ count, end_ - next = count + 1 := ⟨end_ - next - 1, by omega⟩
    have rest : end_ - (next + 1) = count := by omega
    have whole : columns.taskBytes (.collection kind next end_) =
        columns.itemBytes columns.canonicalBytes kind (columns.item next) ++
          columns.taskBytes (.collection kind (next + 1) end_) := by
      rw [taskBytes, taskBytes, more, rest, bytesOf, items_succ, List.flatMap_cons]
      rfl
    have weight : columns.taskWeight (.collection kind next end_) =
        4 * ((columns.itemBytes columns.canonicalBytes kind (columns.item next)).length +
          (columns.taskBytes (.collection kind (next + 1) end_)).length) + 1 := by
      rw [← List.length_append, ← whole]
      rfl
    by_cases set : kind = COMPONENT_SET
    · have within := item.legal.child item.node
      have framed : columns.itemBytes columns.canonicalBytes kind (columns.item next) =
          hashVarint (canonicalLengths.getD ((columns.item next).value - 1) 0) ++
            columns.taskBytes (.node ((columns.item next).value - 1) none) := by
        rw [itemBytes, if_pos set, if_pos item.node, framed_child sound within]
      have positive := varint_length_pos (canonicalLengths.getD ((columns.item next).value - 1) 0)
      rw [← hashVarint_eq] at positive
      refine ⟨hashVarint (canonicalLengths.getD ((columns.item next).value - 1) 0),
        [.node ((columns.item next).value - 1) none, .collection kind (next + 1) end_], 0, ?_, ?_, ?_, ?_⟩
      · refine .if_neg passed (.check_bind (okOr_ok.mpr added) (.if_pos set (.check_bind item.read ?_)))
        refine .check_bind (refuse_of_not (not_not.mpr item.node) _) ?_
        exact .check_bind (hashedNode_ok item.legal item.node _) (.pure _)
      · rw [whole, framed, hashBytes, List.flatMap_cons, List.flatMap_singleton, List.append_assoc]
      · intro other member
        obtain here | behind := List.mem_cons.mp member
        · rw [here]
          exact ⟨within, Nat.zero_le _⟩
        · rw [List.mem_singleton.mp behind]
          exact later
      · rw [weight, framed, List.length_append, hashWeight, List.map_cons, List.map_singleton, List.sum_cons,
          List.sum_singleton]
        change 1 + 0 + (4 * (columns.taskBytes (.node ((columns.item next).value - 1) none)).length + 1 +
          (4 * (columns.taskBytes (.collection kind (next + 1) end_)).length + 1)) ≤ _
        omega
    · have same : columns.itemBytes columns.canonicalBytes kind (columns.item next) =
        columns.taskBytes (.component (.item next)) :=
        item.itemBytes_of_ne set _
      refine ⟨[], [.component (.item next), .collection kind (next + 1) end_], 0,
        .if_neg passed (.check_bind (okOr_ok.mpr added) (.if_neg set (.pure _))), ?_, ?_, ?_⟩
      · rw [whole, same, hashBytes, List.flatMap_cons, List.flatMap_singleton]
        rfl
      · intro other member
        obtain here | behind := List.mem_cons.mp member
        · rw [here]
          exact ⟨item.read, item.component⟩
        · rw [List.mem_singleton.mp behind]
          exact later
      · have positive : 0 < (columns.taskBytes (.component (.item next))).length := Nat.succ_pos _
        rw [weight, same, hashWeight, List.map_cons, List.map_singleton, List.sum_cons, List.sum_singleton]
        change 1 + 0 + (4 * (columns.taskBytes (.component (.item next))).length - 2 +
          (4 * (columns.taskBytes (.collection kind (next + 1) end_)).length + 1)) ≤ _
        omega

variable (maxWork low) in
theorem task_feeds (sound : columns.Sound canonicalLengths) (task : CanonicalHashTask)
    (legal : columns.TaskLegal canonicalLengths.length task) :
    ∃ fed pushed cost, Feeds columns canonicalLengths maxWork low task fed pushed cost := by
  cases task with
  | node node fieldLimit => exact node_feeds sound legal
  | fields next end_ => exact fields_feeds legal
  | component row => exact component_feeds sound legal.1 legal.2
  | collection kind next end_ => exact collection_feeds sound legal

/-- The tasks feed their bytes in order, behind what the digest has been fed. -/
theorem hashLoop_meters (sound : columns.Sound canonicalLengths) {turns : Nat} {digest : List UInt8}
    {tasks : List CanonicalHashTask}
    (legal : ∀ task ∈ tasks, columns.TaskLegal canonicalLengths.length task)
    (enough : workBound maxWork < low + turns) :
    ∃ cost ≤ columns.hashWeight tasks, Meters OutOfWork (workBound maxWork) low
      (hashLoop columns canonicalLengths maxWork turns digest tasks) (digest ++ columns.hashBytes tasks) cost := by
  induction turns generalizing low digest tasks with
  | zero => exact ⟨0, Nat.zero_le _, .of_lt enough⟩
  | succ turns ih =>
    cases tasks with
    | nil =>
      rw [hashBytes_nil, List.append_nil]
      exact ⟨0, Nat.zero_le _, .pure _⟩
    | cons task tasks =>
      obtain ⟨fed, pushed, cost, meters, bytes, follow, paid⟩ :=
        task_feeds maxWork (low + 1) sound task (legal task (.head _))
      have later : ∀ other ∈ pushed ++ tasks, columns.TaskLegal canonicalLengths.length other := fun other member =>
        (List.mem_append.mp member).elim (follow other) fun behind => legal other (.tail _ behind)
      have enough' : workBound maxWork < low + 1 + cost + turns := by omega
      obtain ⟨rest, few, walks⟩ := ih later enough'
      have weights : columns.hashWeight (pushed ++ tasks) = columns.hashWeight pushed + columns.hashWeight tasks := by
        rw [hashWeight, List.map_append, List.sum_append]
        rfl
      have weight : columns.hashWeight (task :: tasks) = columns.taskWeight task + columns.hashWeight tasks := by
        rw [hashWeight, List.map_cons, List.sum_cons]
        rfl
      refine ⟨1 + (cost + rest), by omega, .bind (claimWork_meters 1 maxWork low) (.bind meters ?_)⟩
      have whole : digest ++ columns.hashBytes (task :: tasks) = digest ++ fed ++
        columns.hashBytes (pushed ++ tasks) := by
        rw [hashBytes, List.flatMap_cons, bytes, hashBytes, hashBytes, List.flatMap_append, List.append_assoc,
          List.append_assoc]
      rw [whole]
      exact walks

end

end EncodedColumns

end PyElk.Native
