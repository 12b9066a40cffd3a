import PyElk.Native.AcceptedTables
import PyElk.Native.CanonicalParsing

open Raising Lexicographic

namespace PyElk.Native

namespace EncodedColumns.Canonical

variable {columns : EncodedColumns} {rootCount : Nat} {canonicalLengths : List Nat} {node other : Nat}

/-- Nodes are in the order of their bytes. -/
theorem compare_lt (canonical : columns.Canonical rootCount canonicalLengths) (before : node < other)
    (within : other < canonicalLengths.length) :
    compare (columns.canonicalBytes node) (columns.canonicalBytes other) = .lt := by
  induction other with
  | zero => exact absurd before (Nat.not_lt_zero node)
  | succ other ih =>
    have next := canonical.ascending other within
    obtain earlier | here := Nat.lt_or_eq_of_le (Nat.lt_succ_iff.mp before)
    · exact Std.TransCmp.lt_trans (ih earlier (by omega)) next
    · rw [here]
      exact next

theorem compare_eq (canonical : columns.Canonical rootCount canonicalLengths)
    (within : node < canonicalLengths.length)
    (otherWithin : other < canonicalLengths.length) :
    compare (columns.canonicalBytes node) (columns.canonicalBytes other) = compare node other := by
  obtain before | same | behind := Nat.lt_trichotomy node other
  · rw [canonical.compare_lt before otherWithin, Nat.compare_eq_lt.mpr before]
  · rw [same, compare_self, Nat.compare_eq_eq.mpr rfl]
  · rw [Std.OrientedOrd.eq_swap, canonical.compare_lt behind within, Nat.compare_eq_gt.mpr behind]
    rfl

end EncodedColumns.Canonical

/-- The bytes of a node up to its annotations, which are its last field. -/
noncomputable def EncodedColumns.logicalPrefix (columns : EncodedColumns) (node : Nat) : List UInt8 :=
  columns.canonicalPrefix node (some (columns.arity node - 1))

namespace EncodedColumns.Sound

variable {left right : EncodedColumns} {leftLengths rightLengths : List Nat} {node other : Nat}

/-- The bytes of a node start with those of a cut one. -/
theorem prefix_append (sound : left.Sound leftLengths) (within : node < leftLengths.length) (limit : Nat) :
    ∃ rest, left.canonicalBytes node = left.prefixBytes left.canonicalBytes node limit ++ rest := by
  refine ⟨((left.fields (left.offsetOf node) (left.arity node)).drop limit).flatMap
    (left.componentBytes left.canonicalBytes), ?_⟩
  rw [sound.canonicalBytes_eq within, nodeBytes, prefixBytes, prefixBytes, List.append_assoc, ← List.flatMap_append,
    List.take_append_drop, fields_take (Nat.le_refl _)]

/-- A cut node that the bytes of another start with is that one cut. -/
theorem prefix_eq (leftSound : left.Sound leftLengths) (rightSound : right.Sound rightLengths)
    (leftWithin : node < leftLengths.length)
    (rightWithin : other < rightLengths.length) {limit : Nat}
    (starts : left.prefixBytes left.canonicalBytes node limit <+: right.canonicalBytes other) :
    left.tagOf node = right.tagOf other ∧
      left.prefixBytes left.canonicalBytes node limit = right.prefixBytes right.canonicalBytes other limit := by
  obtain ⟨rest, whole⟩ := starts
  obtain ⟨rest', whole'⟩ := rightSound.prefix_append rightWithin limit
  obtain ⟨parses, apart⟩ :=
    @prefixBytes_parse left right leftLengths rightLengths node other limit leftSound rightSound
    leftWithin rightWithin
  have same := parses rest rest' (whole.trans whole')
  exact ⟨(apart same).1, same⟩

theorem arity_eq (leftSound : left.Sound leftLengths) (rightSound : right.Sound rightLengths)
    (leftWithin : node < leftLengths.length)
    (rightWithin : other < rightLengths.length) (tags : left.tagOf node = right.tagOf other) :
    left.arity node = right.arity other := by
  obtain ⟨roles, found, count⟩ := leftSound.roles node leftWithin
  obtain ⟨roles', found', count'⟩ := rightSound.roles other rightWithin
  rw [tags, found'] at found
  rw [count, count', Option.some.inj found]

/-- A node that starts like another one without its annotations is the same but for them. -/
theorem logicalPrefix_eq (leftSound : left.Sound leftLengths) (rightSound : right.Sound rightLengths)
    (leftWithin : node < leftLengths.length)
    (rightWithin : other < rightLengths.length) (starts : left.logicalPrefix node <+: right.canonicalBytes other) :
    left.logicalPrefix node = right.logicalPrefix other := by
  obtain ⟨tags, same⟩ := leftSound.prefix_eq rightSound leftWithin rightWithin starts
  rw [leftSound.arity_eq rightSound leftWithin rightWithin tags] at same
  rw [logicalPrefix, logicalPrefix, leftSound.arity_eq rightSound leftWithin rightWithin tags]
  exact same

/-- A node between two that are the same but for their annotations is the same but for them. -/
theorem logicalPrefix_between {middle : EncodedColumns} {middleLengths : List Nat} {last : Nat}
    (leftSound : left.Sound leftLengths)
    (middleSound : middle.Sound middleLengths) (rightSound : right.Sound rightLengths)
    (leftWithin : node < leftLengths.length)
    (middleWithin : last < middleLengths.length) (rightWithin : other < rightLengths.length)
    (above : (compare (left.canonicalBytes node) (middle.canonicalBytes last)).isLE)
    (below : (compare (middle.canonicalBytes last) (right.canonicalBytes other)).isLE)
    (same : left.logicalPrefix node = right.logicalPrefix other) :
    left.logicalPrefix node = middle.logicalPrefix last := by
  obtain ⟨rest, leftWhole⟩ := leftSound.prefix_append leftWithin (left.arity node - 1)
  obtain ⟨rest', rightWhole⟩ := rightSound.prefix_append rightWithin (right.arity other - 1)
  change _ = left.logicalPrefix node ++ rest at leftWhole
  change _ = right.logicalPrefix other ++ rest' at rightWhole
  rw [leftWhole] at above
  rw [rightWhole, ← same] at below
  exact leftSound.logicalPrefix_eq middleSound leftWithin middleWithin (prefix_of_between above below)

/-- Nodes of two tables compare as their bytes do. -/
theorem compareBetween_gives (leftSound : left.Sound leftLengths) (rightSound : right.Sound rightLengths)
    (leftWithin : node < leftLengths.length)
    (rightWithin : other < rightLengths.length) {fieldLimit : Option Nat}
    (limited : ∀ limit ∈ fieldLimit, left.tagOf node = right.tagOf other → limit ≤ left.arity node) (maxWork : Nat) :
    ∃ cost ≤ 3 * ((left.canonicalPrefix node fieldLimit).length +
      (right.canonicalPrefix other fieldLimit).length) + 1,
      Gives maxWork
        (compareCanonicalNodesBetweenWithFieldLimit node other left right leftLengths rightLengths fieldLimit maxWork)
        (compare (left.canonicalPrefix node fieldLimit) (right.canonicalPrefix other fieldLimit)) cost := by
  let comparison : Comparison := ⟨⟨left, leftLengths, "left "⟩, ⟨right, rightLengths, "right "⟩, false⟩
  have sound : comparison.Sound := ⟨leftSound, rightSound, fun shared => nomatch shared⟩
  have legal : comparison.Legal (.node node other fieldLimit) := by
    refine ⟨leftWithin, rightWithin, ?_⟩
    cases fieldLimit with
    | none => trivial
    | some limit => exact limited limit rfl
  obtain ⟨cost, few, meters⟩ := Comparison.nodes_meters sound legal
  rw [Comparison.weight_singleton] at few
  exact ⟨cost, few, .of_claim meters⟩

/-- The digest of a node is fed its bytes. -/
theorem hashCanonicalNode_gives (sound : left.Sound leftLengths) (within : node < leftLengths.length)
    {fieldLimit : Option Nat}
    (limited : ∀ limit ∈ fieldLimit, limit ≤ left.arity node) (digest : List UInt8) (maxWork : Nat) :
    ∃ cost ≤ 4 * (left.canonicalPrefix node fieldLimit).length + 1,
      Gives maxWork (hashCanonicalNode digest node fieldLimit left leftLengths maxWork)
        (digest ++ left.canonicalPrefix node fieldLimit) cost := by
  have legal : ∀ task ∈ [CanonicalHashTask.node node fieldLimit], left.TaskLegal leftLengths.length task := by
    intro task member
    rw [List.mem_singleton.mp member]
    refine ⟨within, ?_⟩
    cases fieldLimit with
    | none => exact Nat.zero_le _
    | some limit => exact limited limit rfl
  have enough : workBound maxWork < 0 + (maxWork + 1) := by
    rw [workBound]
    omega
  obtain ⟨cost, few, meters⟩ :=
    @EncodedColumns.hashLoop_meters left leftLengths maxWork 0 sound (maxWork + 1) digest _ legal enough
  rw [EncodedColumns.hashBytes, List.flatMap_singleton] at meters
  rw [EncodedColumns.hashWeight, List.map_singleton, List.sum_singleton] at few
  exact ⟨cost, few, .of_claim meters⟩

end EncodedColumns.Sound

namespace AcceptedTable

variable (table other : AcceptedTable)

theorem sound : table.columns.Sound table.canonicalLengths := table.canonical.2.toSound

theorem length_canonicalLengths : table.canonicalLengths.length = table.nodeCount := table.canonical.1

/-- The bytes of a node up to its annotations, which are its last field. -/
noncomputable def logicalPrefix (node : Nat) : List UInt8 :=
  table.columns.canonicalPrefix node (some (table.columns.arity node - 1))

variable {table other}

/-- Three declarations of one annotation property: a bare one, one with an annotation, and one with an annotated
annotation. -/
def annotatedDeclarations : AcceptedTable where
  columns :=
    { rootKinds := [2, 2, 2]
      rootIds := [5, 6, 7].flatMap (Bytes.littleEndian 4)
      nodeTags := [1, 2, 5, 5, 60, 60, 60].flatMap (Bytes.littleEndian 2)
      nodeFieldOffsets := [0, 1, 3, 6, 9, 11, 13, 15].flatMap (Bytes.littleEndian 8)
      fieldKinds := [2, 5, 1, 1, 1, 6, 1, 1, 6, 1, 6, 1, 6, 1, 6]
      fieldValues := [0, 3, 1, 2, 1, 0, 2, 1, 0, 2, 1, 2, 1, 2, 2].flatMap (Bytes.littleEndian 8)
      fieldLengths := [3, 19, 0, 0, 0, 0, 0, 0, 1, 0, 0, 0, 1, 0, 1].flatMap (Bytes.littleEndian 8)
      itemKinds := [1, 1, 1]
      itemValues := [3, 3, 4].flatMap (Bytes.littleEndian 8)
      itemLengths := [0, 0, 0].flatMap (Bytes.littleEndian 8)
      scalarBytes := encodeUtf8 "a:bannotation_property" }
  limits := ⟨10, 10, 100, 10, 100, 1000⟩
  validated := ⟨3, 7, 15, 3, 22, 119⟩
  canonicalLengths := [6, 30, 43, 87, 35, 79, 123]
  accepted := by decide +kernel

theorem compareCanonicalNodes_exact {left right : Nat} (leftWithin : left < table.nodeCount)
    (rightWithin : right < table.nodeCount)
    (maxWork : Nat) :
    ∃ cost ≤ 3 * ((table.columns.canonicalBytes left).length + (table.columns.canonicalBytes right).length) + 1,
      Gives maxWork (compareCanonicalNodes left right table.columns table.canonicalLengths maxWork)
        (compare (table.columns.canonicalBytes left) (table.columns.canonicalBytes right)) cost := by
  rw [← length_canonicalLengths] at leftWithin rightWithin
  exact EncodedColumns.compareCanonicalNodes_gives table.sound leftWithin rightWithin maxWork

theorem compareCanonicalNodes_declared :
    ∃ cost ≤ 3 * ((annotatedDeclarations.columns.canonicalBytes 5).length +
      (annotatedDeclarations.columns.canonicalBytes 6).length) + 1,
      Gives 1000 (compareCanonicalNodes 5 6 annotatedDeclarations.columns annotatedDeclarations.canonicalLengths 1000)
        (compare (annotatedDeclarations.columns.canonicalBytes 5)
          (annotatedDeclarations.columns.canonicalBytes 6)) cost :=
  compareCanonicalNodes_exact (by decide) (by decide) 1000

theorem compareCanonicalNodesBetween_exact {left right : Nat} {fieldLimit : Option Nat}
    (leftWithin : left < table.nodeCount)
    (rightWithin : right < other.nodeCount) (limited : ∀ limit ∈ fieldLimit,
      table.columns.tagOf left = other.columns.tagOf right → limit ≤ table.columns.arity left) (maxWork : Nat) :
    ∃ cost ≤ 3 * ((table.columns.canonicalPrefix left fieldLimit).length +
      (other.columns.canonicalPrefix right fieldLimit).length) + 1,
      Gives maxWork
        (compareCanonicalNodesBetweenWithFieldLimit left right table.columns other.columns table.canonicalLengths
          other.canonicalLengths fieldLimit maxWork)
        (compare (table.columns.canonicalPrefix left fieldLimit)
          (other.columns.canonicalPrefix right fieldLimit)) cost := by
  rw [← length_canonicalLengths] at leftWithin rightWithin
  exact table.sound.compareBetween_gives other.sound leftWithin rightWithin limited maxWork

theorem compareCanonicalNodesBetween_declared :
    ∃ cost ≤ 3 * ((annotatedDeclarations.columns.canonicalPrefix 5 (some 1)).length +
        (annotatedDeclarations.columns.canonicalPrefix 6 (some 1)).length) + 1,
      Gives 1000 (compareCanonicalNodesBetweenWithFieldLimit 5 6 annotatedDeclarations.columns
        annotatedDeclarations.columns
          annotatedDeclarations.canonicalLengths annotatedDeclarations.canonicalLengths (some 1) 1000)
        (compare (annotatedDeclarations.columns.canonicalPrefix 5 (some 1))
          (annotatedDeclarations.columns.canonicalPrefix 6 (some 1))) cost :=
  compareCanonicalNodesBetween_exact (by decide) (by decide) (by
    intro limit same _
    rw [← Option.mem_some.mp same]
    decide +kernel) 1000

theorem canonicalLengths_exact {node : Nat} (within : node < table.nodeCount) (maxWork : Nat) :
    table.canonicalLengths[node]? = some (table.columns.canonicalBytes node).length ∧
      ∃ cost ≤ (table.columns.canonicalBytes node).length,
        Meters OutOfWork (workBound maxWork) 0 (canonicalNodeLength node table.columns table.canonicalLengths maxWork)
          (table.columns.canonicalBytes node).length cost := by
  rw [← length_canonicalLengths] at within
  refine ⟨?_, table.sound.nodeLength_meters within maxWork⟩
  rw [← table.sound.measured node within, List.getD_eq_getElem _ _ within]
  exact List.getElem?_eq_getElem within

theorem canonicalLengths_declared :
    annotatedDeclarations.canonicalLengths[3]? = some (annotatedDeclarations.columns.canonicalBytes 3).length ∧
      ∃ cost ≤ (annotatedDeclarations.columns.canonicalBytes 3).length,
        Meters OutOfWork (workBound 1000) 0
          (canonicalNodeLength 3 annotatedDeclarations.columns annotatedDeclarations.canonicalLengths 1000)
          (annotatedDeclarations.columns.canonicalBytes 3).length cost := canonicalLengths_exact (by decide) 1000

theorem hashCanonicalNode_exact {node : Nat} {fieldLimit : Option Nat} (within : node < table.nodeCount)
    (limited : ∀ limit ∈ fieldLimit, limit ≤ table.columns.arity node) (digest : List UInt8) (maxWork : Nat) :
    ∃ cost ≤ 4 * (table.columns.canonicalPrefix node fieldLimit).length + 1,
      Gives maxWork (hashCanonicalNode digest node fieldLimit table.columns table.canonicalLengths maxWork)
        (digest ++ table.columns.canonicalPrefix node fieldLimit) cost := by
  rw [← length_canonicalLengths] at within
  exact table.sound.hashCanonicalNode_gives within limited digest maxWork

theorem hashCanonicalNode_declared :
    ∃ cost ≤ 4 * (annotatedDeclarations.columns.canonicalPrefix 5 (some 1)).length + 1,
      Gives 1000 (hashCanonicalNode [7] 5
        (some 1) annotatedDeclarations.columns annotatedDeclarations.canonicalLengths 1000)
        ([7] ++ annotatedDeclarations.columns.canonicalPrefix 5 (some 1)) cost :=
  hashCanonicalNode_exact (by decide) (by
    intro limit same
    rw [← Option.mem_some.mp same]
    decide +kernel) [7] 1000

theorem refers_lt {node child : Nat} (within : node < table.nodeCount) (refers : table.columns.Refers child node) :
    child < table.nodeCount := by
  obtain ⟨count, canonical⟩ := table.canonical
  rw [← count] at within ⊢
  exact canonical.toSound.child_lt within refers

theorem exists_root {node : Nat} (within : node < table.nodeCount) :
    ∃ root < table.rootCount, Relation.ReflTransGen table.columns.Refers node (table.columns.rootNode root) := by
  obtain ⟨count, canonical⟩ := table.canonical
  rw [← count] at within
  obtain ⟨root, known, top, indexed, path⟩ := canonical.reached node within
  have same : table.columns.rootNode root = top := (nodeIndex_ok.mp indexed).2.2.symm
  exact ⟨root, known, same ▸ path⟩

theorem ranks {node other : Nat} (within : node < table.nodeCount) (otherWithin : other < table.nodeCount) :
    compare (table.columns.canonicalBytes node) (table.columns.canonicalBytes other) = compare node other := by
  obtain ⟨count, canonical⟩ := table.canonical
  rw [← count] at within otherWithin
  exact canonical.compare_eq within otherWithin

/-- The graph of an accepted table: no cycle, nothing that no root reaches, nothing outside, and nodes ranked by
their bytes. -/
theorem nodes_ranked : (∀ node < table.nodeCount, Acc table.columns.Refers node) ∧
    (∀ node < table.nodeCount, ∀ child, table.columns.Refers child node → child < table.nodeCount) ∧
    (∀ node < table.nodeCount, ∃ root < table.rootCount,
      Relation.ReflTransGen table.columns.Refers node (table.columns.rootNode root)) ∧
    ∀ node < table.nodeCount, ∀ other < table.nodeCount,
      compare (table.columns.canonicalBytes node) (table.columns.canonicalBytes other) = compare node other := by
  have grounded : ∀ node < table.nodeCount, Acc table.columns.Refers node := by
    obtain ⟨count, canonical⟩ := table.canonical
    rw [← count]
    exact canonical.grounded
  exact ⟨grounded, fun node within child => table.refers_lt within, fun node => table.exists_root,
    fun node within other => table.ranks within⟩

theorem rootBefore {root later : Nat} (before : root < later) (within : later < table.rootCount) :
    table.columns.RootBefore root later := by
  have roots := List.pairwise_iff_getElem.mp table.canonical.2.roots root later (by rw [List.length_range]; omega)
    (by rw [List.length_range]; omega) before
  rwa [List.getElem_range, List.getElem_range] at roots

theorem rootNode_lt {root : Nat} (within : root < table.rootCount) :
    table.columns.rootNode root < table.canonicalLengths.length :=
  (nodeIndex_ok.mp (table.canonical.2.root root within).node).2.1

/-- Roots of one kind are in the order of their bytes. -/
theorem roots_compare {root later : Nat} (before : root < later) (within : later < table.rootCount)
    (kind : table.columns.rootKind root = table.columns.rootKind later) :
    compare (table.columns.canonicalBytes (table.columns.rootNode root))
      (table.columns.canonicalBytes (table.columns.rootNode later)) = .lt := by
  have order := table.rootBefore before within
  have positive := (nodeIndex_ok.mp (table.canonical.2.root root (before.trans within)).node).1
  rw [EncodedColumns.RootBefore] at order
  refine table.canonical.2.compare_lt ?_ (table.rootNode_lt within)
  rw [EncodedColumns.rootNode, EncodedColumns.rootNode]
  omega

/-- Roots of one kind that are the same but for their annotations lie side by side. -/
theorem roots_adjacent {first middle last : Nat} (above : first ≤ middle) (below : middle ≤ last)
    (within : last < table.rootCount)
    (kind : table.columns.rootKind first = table.columns.rootKind last)
    (same : table.logicalPrefix (table.columns.rootNode first) = table.logicalPrefix (table.columns.rootNode last)) :
    table.columns.rootKind middle = table.columns.rootKind first ∧
      table.logicalPrefix (table.columns.rootNode middle) = table.logicalPrefix (table.columns.rootNode first) := by
  obtain rfl | before := Nat.eq_or_lt_of_le above
  · exact ⟨rfl, rfl⟩
  obtain rfl | behind := Nat.eq_or_lt_of_le below
  · exact ⟨kind.symm, same.symm⟩
  have middleKind : table.columns.rootKind first = table.columns.rootKind middle := by
    have front := table.rootBefore before (behind.trans within)
    have back := table.rootBefore behind within
    rw [EncodedColumns.RootBefore] at front back
    omega
  have firstWithin := table.rootNode_lt (before.trans (behind.trans within))
  have middleWithin := table.rootNode_lt (behind.trans within)
  have front := table.roots_compare before (behind.trans within) middleKind
  have back := table.roots_compare behind within (middleKind.symm.trans kind)
  exact ⟨middleKind.symm,
    (table.sound.logicalPrefix_between table.sound table.sound firstWithin middleWithin (table.rootNode_lt within)
    (by rw [front]; rfl) (by rw [back]; rfl) same).symm⟩

theorem roots_adjacent_declared :
    annotatedDeclarations.columns.rootKind 1 = annotatedDeclarations.columns.rootKind 0 ∧
    annotatedDeclarations.logicalPrefix (annotatedDeclarations.columns.rootNode 1) =
      annotatedDeclarations.logicalPrefix (annotatedDeclarations.columns.rootNode 0) :=
  annotatedDeclarations.roots_adjacent (Nat.zero_le 1) (Nat.le_succ 1) (by decide) (by decide) (by
    have fields : ((annotatedDeclarations.columns.fields 9 2).take 1) =
      ((annotatedDeclarations.columns.fields 13 2).take 1) := rfl
    change varint 60 ++ ((annotatedDeclarations.columns.fields 9 2).take 1).flatMap _ =
      varint 60 ++ ((annotatedDeclarations.columns.fields 13 2).take 1).flatMap _
    rw [fields])

end AcceptedTable

end PyElk.Native
