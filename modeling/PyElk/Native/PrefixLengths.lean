import PyElk.Native.SegmentCompilation
import PyElk.Native.SegmentOrder

open Raising Lexicographic

namespace PyElk.Native

namespace EncodedColumns

variable {columns : EncodedColumns} {canonicalLengths : List Nat} {maxWork total index kind : Nat}

theorem addCanonicalLength_settles (total amount : Nat) :
    Settles (check (addCanonicalLength total amount) : Metering Nat) (· = total + amount) OutOfWork := by
  refine .check (fun sum added => (addCanonicalLength_ok.mp added).2) fun error failed => ?_
  rw [addCanonicalLength] at failed
  cases added : checkedAdd total amount with
  | none =>
    rw [added] at failed
    exact ⟨_, (Except.error.inj failed).symm⟩
  | some sum =>
    rw [added] at failed
    cases failed

namespace Sound

variable {node : Nat} (sound : columns.Sound canonicalLengths)

include sound

theorem known_reference {component : Component} (legal : component.Legal columns canonicalLengths.length) :
    columns.Known canonicalLengths columns.canonicalBytes component := by
  intro child refers
  have inside := reference_lt legal.toValid refers
  exact ⟨sound.measured child inside, sound.canonicalBytes_ne_nil inside⟩

/-- What an item adds to a prefix. -/
theorem addComponentItem_settles (item : columns.LegalItem canonicalLengths.length index)
    (small : 1 + (columns.leafContent columns.canonicalBytes (columns.item index)).length < USIZE) :
    Settles (addComponentItem columns canonicalLengths maxWork kind total index)
      (· = total + (columns.itemBytes columns.canonicalBytes kind (columns.item index)).length) OutOfWork := by
  obtain ⟨positive, within, narrow⟩ := item.legal.node item.node
  have inside : (columns.item index).value - 1 < canonicalLengths.length := by omega
  have known := sound.measured _ inside
  have nonempty := sound.canonicalBytes_ne_nil inside
  refine .bind (claimWork_settles 1 maxWork) fun _ _ => .check_ok item.read ?_
  by_cases set : kind = COMPONENT_SET
  · refine .if_pos set
      (.check_ok (refuse_of_not (not_not.mpr item.node) _) (.check_ok (nodeIdentifier_ok.mpr ⟨narrow, rfl⟩) ?_))
    refine .check_ok (nodeIndex_ok.mpr ⟨positive, inside, rfl⟩) ?_
    refine .bind (addCanonicalLength_settles _ _) fun framed same =>
      (addCanonicalLength_settles _ _).weaken (fun sum added => ?_) fun _ => id
    rw [itemBytes, if_pos set, if_pos item.node, frame, List.length_append, added, same, known,
      canonicalVarintWidth_eq, Nat.add_assoc]
  · have size := itemBytes_length columns.canonicalBytes kind item
    rw [if_neg set] at size
    have measured :=
      (canonicalLeafLength_ok item.legal (fun _ => known) fun _ => nonempty).mpr ⟨item.legalLeaf.measured, small, rfl⟩
    refine .if_neg set
      (.check_ok measured ((addCanonicalLength_settles _ _).weaken (fun sum added => ?_) fun _ => id))
    rw [added, size]

/-- `canonical_component_length` gives the length of the bytes of a component. -/
theorem canonicalComponentLength_settles (field : columns.LegalField canonicalLengths.length index)
    (small : (columns.componentBytes columns.canonicalBytes (columns.field index)).length < USIZE) :
    Settles (canonicalComponentLength (.field index) columns canonicalLengths maxWork)
      (· = (columns.componentBytes columns.canonicalBytes (columns.field index)).length) OutOfWork := by
  have known := sound.known_reference field.legal
  rw [EncodedColumns.Known, references] at known
  rw [componentBytes, List.length_cons] at small ⊢
  refine .check_ok field.read ?_
  cases collection : isCollection (columns.field index).kind with
  | true =>
    rw [if_pos collection] at known
    rw [content_collection collection, List.length_append] at small ⊢
    refine .if_neg (not_not.mpr collection) (.bind (addCanonicalLength_settles _ _) fun start same => ?_)
    refine .check_ok (okOr_ok.mpr (if_pos (field.legal.small collection))) ?_
    have turns :=
      @Settles.foldlM _ _ _ _ OutOfWork (addComponentItem columns canonicalLengths maxWork (columns.field index).kind)
      (List.range' (columns.field index).value (columns.field index).length) start
      (fun sum done => sum = start + (done.map fun item =>
        (columns.itemBytes columns.canonicalBytes (columns.field index).kind (columns.item item)).length).sum) rfl
      (fun done item rest sum whole before => by
        have member : item ∈ List.range' (columns.field index).value (columns.field index).length :=
          whole ▸ List.mem_append_right done (.head rest)
        obtain ⟨legal, _, _⟩ := Known.item (field.legal.item collection) known member
        have size := itemBytes_length columns.canonicalBytes (columns.field index).kind legal
        have part : (columns.itemBytes columns.canonicalBytes (columns.field index).kind (columns.item item)).length ≤
            ((List.range' (columns.field index).value (columns.field index).length).map fun item =>
              (columns.itemBytes columns.canonicalBytes (columns.field index).kind (columns.item item)).length).sum :=
          List.single_le_sum (fun _ _ => Nat.zero_le _) _ (List.mem_map.mpr ⟨item, member, rfl⟩)
        rw [items_length] at small
        refine (sound.addComponentItem_settles legal ?_).weaken (fun later added => ?_) fun _ => id
        · split at size
          · omega
          · omega
        · rw [List.map_append, List.sum_append, List.map_singleton, List.sum_singleton, added, before, Nat.add_assoc])
    refine turns.weaken (fun sum total => ?_) fun _ => id
    rw [items_length, total, same, canonicalVarintWidth_eq]
    omega
  | false =>
    rw [collection, if_neg (by decide)] at known
    have leaf := field.legal.leaf collection
    rw [leaf.content columns.canonicalBytes] at small ⊢
    have child : (columns.field index).kind = COMPONENT_NODE →
        canonicalLengths.getD ((columns.field index).value - 1) 0 =
          (columns.canonicalBytes ((columns.field index).value - 1)).length ∧
          columns.canonicalBytes ((columns.field index).value - 1) ≠ [] :=
            fun node => known _ (Component.mem_leafReferences.mpr ⟨node, rfl⟩)
    have measured := (canonicalLeafLength_ok leaf (fun node => (child node).1) fun node => (child node).2).mpr
      ⟨field.legal.measured, by omega, rfl⟩
    refine .if_pos (by rw [collection]; decide) (.check (fun size same => ?_) fun error failed => ?_)
    · rw [measured] at same
      rw [← Except.ok.inj same, Nat.add_comm]
    · rw [measured] at failed
      cases failed

/-- `canonical_node_prefix_length` gives the length of the bytes of a cut node. -/
theorem canonicalNodePrefixLength_settles (within : node < canonicalLengths.length) {fieldLimit : Nat}
    (limited : fieldLimit ≤ columns.arity node) :
    Settles (canonicalNodePrefixLength node fieldLimit columns canonicalLengths maxWork)
      (· = (columns.canonicalPrefix node (some fieldLimit)).length) OutOfWork := by
  have ended := sound.end_ node within
  have narrow := (uintAt_ok.mp ended).1.1
  have small := sound.small node within
  obtain ⟨rest, whole⟩ := sound.prefix_append within fieldLimit
  rw [whole, List.length_append, prefixBytes, fields_take limited, List.length_append, fields_length] at small
  refine .check_ok (uintAt_named (sound.tag node within) _) (.check_ok (uintAt_named (sound.start node within) _) ?_)
  refine .check_ok (okOr_ok.mpr (if_pos (by omega)))
    (.check_ok (uintAt_named ended _) (.check_ok (refuse_of_not (not_lt.mpr limited) _) ?_))
  have turns := @Settles.foldlM _ _ _ _ OutOfWork (addPrefixField columns canonicalLengths maxWork)
    (List.range' (columns.offsetOf node) fieldLimit) (canonicalVarintWidth (columns.tagOf node))
    (fun sum done => sum = canonicalVarintWidth (columns.tagOf node) + (done.map fun index =>
      (columns.componentBytes columns.canonicalBytes (columns.field index)).length).sum) rfl
    (fun done index others sum parts before => by
      have member : index ∈ List.range' (columns.offsetOf node) fieldLimit :=
        parts ▸ List.mem_append_right done (.head others)
      have bounds := List.mem_range'_1.mp member
      have part : (columns.componentBytes columns.canonicalBytes (columns.field index)).length ≤
          ((List.range' (columns.offsetOf node) fieldLimit).map fun index =>
            (columns.componentBytes columns.canonicalBytes (columns.field index)).length).sum :=
        List.single_le_sum (fun _ _ => Nat.zero_le _) _ (List.mem_map.mpr ⟨index, member, rfl⟩)
      have field := sound.field node within index bounds.1 (by omega)
      refine .bind (claimWork_settles 1 maxWork) fun _ _ =>
        .bind (sound.canonicalComponentLength_settles field (by omega)) fun size same => ?_
      refine (addCanonicalLength_settles _ _).weaken (fun later added => ?_) fun _ => id
      rw [List.map_append, List.sum_append, List.map_singleton, List.sum_singleton, added, before, same,
        Nat.add_assoc])
  refine turns.weaken (fun sum total => ?_) fun _ => id
  rw [canonicalPrefix, Option.getD_some, prefixBytes, fields_take limited, List.length_append, fields_length, total,
    canonicalVarintWidth_eq]

end Sound

end EncodedColumns

end PyElk.Native
