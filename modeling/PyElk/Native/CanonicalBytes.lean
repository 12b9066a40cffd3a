import PyElk.Native.Canonical

open Raising Lexicographic

namespace PyElk.Native

/-- A component: a field of a node, or an item of a collection. -/
structure Component where
  kind : Nat
  value : Nat
  length : Nat

/-- The node that a component refers to, unless it is a collection. -/
def Component.leafReferences (component : Component) : List Nat :=
  if component.kind = COMPONENT_NODE then [component.value - 1] else []

theorem Component.mem_leafReferences {component : Component} {child : Nat} :
    child ∈ component.leafReferences ↔ component.kind = COMPONENT_NODE ∧ child = component.value - 1 := by
  rw [leafReferences]
  split
  · next node => simp [node]
  · next other => simp [other]

namespace EncodedColumns

variable (columns : EncodedColumns)

def tagOf (node : Nat) : Nat := uintOf 2 columns.nodeTags node

def offsetOf (node : Nat) : Nat := uintOf 8 columns.nodeFieldOffsets node

def arity (node : Nat) : Nat := columns.offsetOf (node + 1) - columns.offsetOf node

def field (index : Nat) : Component :=
  ⟨(columns.fieldKinds.getD index 0).toNat, uintOf 8 columns.fieldValues index, uintOf 8 columns.fieldLengths index⟩

def item (index : Nat) : Component :=
  ⟨(columns.itemKinds.getD index 0).toNat, uintOf 8 columns.itemValues index, uintOf 8 columns.itemLengths index⟩

def fields (start count : Nat) : List Component := (List.range' start count).map columns.field

def items (start count : Nat) : List Component := (List.range' start count).map columns.item

def payload (component : Component) : List UInt8 := (columns.scalarBytes.drop component.value).take component.length

/-- The nodes a component refers to. -/
def references (component : Component) : List Nat :=
  if isCollection component.kind then
    (columns.items component.value component.length).flatMap Component.leafReferences
  else component.leafReferences

def children (node : Nat) : List Nat :=
  (columns.fields (columns.offsetOf node) (columns.arity node)).flatMap columns.references

/-- A varint length and the string itself. -/
def frame (bytes : List UInt8) : List UInt8 := varint bytes.length ++ bytes

section

variable (bytes : Nat → List UInt8)

/-- What follows the kind of a component that is no collection, given the bytes of the nodes. -/
def leafContent (component : Component) : List UInt8 :=
  if component.kind = COMPONENT_NODE then frame (bytes (component.value - 1))
  else if isScalar component.kind then varint component.length ++ columns.payload component
  else if component.kind = COMPONENT_INTEGER then varint (Bytes.ofLittleEndian (columns.payload component))
  else []

/-- The items of a set are framed, those of a sequence keep their kinds. -/
def itemBytes (kind : Nat) (item : Component) : List UInt8 :=
  if kind = COMPONENT_SET then if item.kind = COMPONENT_NODE then frame (bytes (item.value - 1)) else []
  else UInt8.ofNat item.kind :: columns.leafContent bytes item

def content (component : Component) : List UInt8 :=
  if isCollection component.kind then varint component.length ++
    (columns.items component.value component.length).flatMap (columns.itemBytes bytes component.kind)
  else columns.leafContent bytes component

/-- The bytes of a component: its kind, and what that calls for. -/
def componentBytes (component : Component) : List UInt8 :=
  UInt8.ofNat component.kind :: columns.content bytes component

/-- The bytes of a node, cut after a number of fields. -/
def prefixBytes (node limit : Nat) : List UInt8 :=
  varint (columns.tagOf node) ++
    ((columns.fields (columns.offsetOf node) (columns.arity node)).take limit).flatMap (columns.componentBytes bytes)

def nodeBytes (node : Nat) : List UInt8 := columns.prefixBytes bytes node (columns.arity node)

end

/-- One node is a child of another. -/
def Refers (child node : Nat) : Prop := child ∈ columns.children node

open Classical in
/-- The canonical bytes of a node, by recursion over the nodes it refers to. -/
noncomputable def canonicalBytes (node : Nat) : List UInt8 :=
  if grounded : Acc columns.Refers node then
    grounded.rec fun node _ below =>
      columns.nodeBytes (fun child => if refers : columns.Refers child node then below child refers else []) node
  else []

/-- Those of a node that is cut after a number of fields, if there is one. -/
noncomputable def canonicalPrefix (node : Nat) (fieldLimit : Option Nat) : List UInt8 :=
  columns.prefixBytes columns.canonicalBytes node (fieldLimit.getD (columns.arity node))

variable {columns}

section

variable {bytes other : Nat → List UInt8} {component : Component}

/-- A leaf is encoded through the bytes of its child alone. -/
theorem leafContent_congr
    (same : component.kind = COMPONENT_NODE → bytes (component.value - 1) = other (component.value - 1)) :
    columns.leafContent bytes component = columns.leafContent other component := by
  rw [leafContent, leafContent]
  by_cases node : component.kind = COMPONENT_NODE
  · rw [if_pos node, if_pos node, same node]
  · rw [if_neg node, if_neg node]

theorem itemBytes_congr {kind : Nat}
    (same : component.kind = COMPONENT_NODE → bytes (component.value - 1) = other (component.value - 1)) :
    columns.itemBytes bytes kind component = columns.itemBytes other kind component := by
  rw [itemBytes, itemBytes, leafContent_congr same]
  by_cases node : component.kind = COMPONENT_NODE
  · rw [same node]
  · rw [if_neg node, if_neg node]

/-- A component is encoded through the bytes of the nodes it refers to. -/
theorem componentBytes_congr (same : ∀ child ∈ columns.references component, bytes child = other child) :
    columns.componentBytes bytes component = columns.componentBytes other component := by
  rw [componentBytes, componentBytes, content, content]
  by_cases collection : isCollection component.kind
  · rw [if_pos collection, if_pos collection]
    congr 2
    refine List.flatMap_congr fun item member => itemBytes_congr fun node => same _ ?_
    rw [references, if_pos collection]
    exact List.mem_flatMap.mpr ⟨item, member, Component.mem_leafReferences.mpr ⟨node, rfl⟩⟩
  · rw [if_neg collection, if_neg collection]
    refine congrArg _ (leafContent_congr fun node => same _ ?_)
    rw [references, if_neg collection]
    exact Component.mem_leafReferences.mpr ⟨node, rfl⟩

theorem content_none (kind : component.kind = COMPONENT_NONE) : columns.content bytes component = [] := by
  simp [content, leafContent, kind, isCollection, isScalar, COMPONENT_NONE, COMPONENT_NODE, COMPONENT_TEXT,
    COMPONENT_BYTES,
    COMPONENT_INTEGER, COMPONENT_ENUM, COMPONENT_SET, COMPONENT_SEQUENCE]

theorem content_node (kind : component.kind = COMPONENT_NODE) :
    columns.content bytes component = frame (bytes (component.value - 1)) := by
  simp [content, leafContent, kind, isCollection, COMPONENT_NODE, COMPONENT_SET, COMPONENT_SEQUENCE]

/-- The three kinds whose payload is copied as it is. -/
theorem isScalar_iff {kind : Nat} :
    isScalar kind ↔ kind = COMPONENT_TEXT ∨ kind = COMPONENT_BYTES ∨ kind = COMPONENT_ENUM := by
  simp [isScalar, or_assoc]

theorem content_scalar (kind : isScalar component.kind) :
    columns.content bytes component = varint component.length ++ columns.payload component := by
  have leaf : isCollection component.kind = false ∧ component.kind ≠ COMPONENT_NODE := by
    rw [isScalar_iff] at kind
    obtain same | same | same := kind
    · rw [same]; decide
    · rw [same]; decide
    · rw [same]; decide
  rw [content, leaf.1, leafContent, if_neg leaf.2, if_pos kind]
  rfl

theorem content_integer (kind : component.kind = COMPONENT_INTEGER) :
    columns.content bytes component = varint (Bytes.ofLittleEndian (columns.payload component)) := by
  simp [content, leafContent, kind, isCollection, isScalar, COMPONENT_NODE, COMPONENT_TEXT, COMPONENT_BYTES,
    COMPONENT_INTEGER, COMPONENT_ENUM, COMPONENT_SET, COMPONENT_SEQUENCE]

/-- A collection is encoded as its length and its items. -/
theorem content_collection (kind : isCollection component.kind) : columns.content bytes component =
    varint component.length ++
      (columns.items component.value component.length).flatMap (columns.itemBytes bytes component.kind) := by
  rw [content, if_pos kind]

/-- A node is encoded through the bytes of the nodes it refers to. -/
theorem nodeBytes_congr {node : Nat} (same : ∀ child, columns.Refers child node → bytes child = other child) :
    columns.nodeBytes bytes node = columns.nodeBytes other node := by
  rw [nodeBytes, nodeBytes, prefixBytes, prefixBytes]
  congr 1
  refine List.flatMap_congr fun component member => componentBytes_congr fun child refers => same child ?_
  exact List.mem_flatMap.mpr ⟨component, List.mem_of_mem_take member, refers⟩

end

open Classical in
/-- The bytes of a node are those of its fields. -/
theorem canonicalBytes_eq {node : Nat} (grounded : Acc columns.Refers node) :
    columns.canonicalBytes node = columns.nodeBytes columns.canonicalBytes node := by
  have unfolded : columns.canonicalBytes node = grounded.rec fun node _ below =>
      columns.nodeBytes
        (fun child => if refers : columns.Refers child node then below child refers else []) node := by
    rw [canonicalBytes, dif_pos grounded]
  cases grounded with
  | intro node below =>
    rw [unfolded]
    refine nodeBytes_congr fun child refers => ?_
    rw [dif_pos refers, canonicalBytes, dif_pos (below child refers)]

end EncodedColumns

end PyElk.Native
