import PyElk.Native.Canonical

open Raising

namespace PyElk.Native

inductive NodeRole
  | iri
  | entity
  | owlClass
  | datatype
  | objectProperty
  | dataProperty
  | annotationProperty
  | literal
  | annotation_
  | objectPropertyExpression
  | subObjectPropertyExpression
  | facetRestriction
  | dataRange
  | classExpression
  | individual
  | annotationValue
  | annotationSubject
  | individualArgument
  | dataArgument
  | atom
  deriving DecidableEq, Repr

inductive FieldRole
  | scalar (kind : Nat)
  | entityKind
  | optionalText
  | node (role : NodeRole)
  | set (role : NodeRole)
  | sequence (role : NodeRole)
  deriving DecidableEq, Repr

def TEXT : FieldRole := .scalar COMPONENT_TEXT
def BYTES : FieldRole := .scalar COMPONENT_BYTES
def INTEGER : FieldRole := .scalar COMPONENT_INTEGER
def ENTITY_KIND : FieldRole := .entityKind
def OPTIONAL_TEXT : FieldRole := .optionalText

/-- The ledger of the constructors: a row of field roles for every tag. -/
def constructorRoles : Nat → Option (List FieldRole)
  | 1 => some [TEXT]
  | 2 => some [ENTITY_KIND, .node .iri]
  | 3 => some [BYTES, BYTES]
  | 4 => some [TEXT, .node .datatype, OPTIONAL_TEXT]
  | 5 => some [.node .annotationProperty, .node .annotationValue, .set .annotation_]
  | 10 => some [.node .objectProperty]
  | 11 => some [.sequence .objectPropertyExpression]
  | 20 => some [.node .iri, .node .literal]
  | 21 => some [.set .dataRange]
  | 22 => some [.set .dataRange]
  | 23 => some [.node .dataRange]
  | 24 => some [.set .literal]
  | 25 => some [.node .datatype, .set .facetRestriction]
  | 30 => some [.set .classExpression]
  | 31 => some [.set .classExpression]
  | 32 => some [.node .classExpression]
  | 33 => some [.set .individual]
  | 34 => some [.node .objectPropertyExpression, .node .classExpression]
  | 35 => some [.node .objectPropertyExpression, .node .classExpression]
  | 36 => some [.node .objectPropertyExpression, .node .individual]
  | 37 => some [.node .objectPropertyExpression]
  | 38 => some [INTEGER, .node .objectPropertyExpression, .node .classExpression]
  | 39 => some [INTEGER, .node .objectPropertyExpression, .node .classExpression]
  | 40 => some [INTEGER, .node .objectPropertyExpression, .node .classExpression]
  | 41 => some [.sequence .dataProperty, .node .dataRange]
  | 42 => some [.sequence .dataProperty, .node .dataRange]
  | 43 => some [.node .dataProperty, .node .literal]
  | 44 => some [INTEGER, .node .dataProperty, .node .dataRange]
  | 45 => some [INTEGER, .node .dataProperty, .node .dataRange]
  | 46 => some [INTEGER, .node .dataProperty, .node .dataRange]
  | 60 => some [.node .entity, .set .annotation_]
  | 61 => some [.node .classExpression, .node .classExpression, .set .annotation_]
  | 62 => some [.set .classExpression, .set .annotation_]
  | 63 => some [.set .classExpression, .set .annotation_]
  | 64 => some [.node .owlClass, .set .classExpression, .set .annotation_]
  | 70 => some [.node .subObjectPropertyExpression, .node .objectPropertyExpression, .set .annotation_]
  | 71 => some [.set .objectPropertyExpression, .set .annotation_]
  | 72 => some [.set .objectPropertyExpression, .set .annotation_]
  | 73 => some [.node .objectPropertyExpression, .node .objectPropertyExpression, .set .annotation_]
  | 74 => some [.node .objectPropertyExpression, .node .classExpression, .set .annotation_]
  | 75 => some [.node .objectPropertyExpression, .node .classExpression, .set .annotation_]
  | 76 => some [.node .objectPropertyExpression, .set .annotation_]
  | 77 => some [.node .objectPropertyExpression, .set .annotation_]
  | 78 => some [.node .objectPropertyExpression, .set .annotation_]
  | 79 => some [.node .objectPropertyExpression, .set .annotation_]
  | 80 => some [.node .objectPropertyExpression, .set .annotation_]
  | 81 => some [.node .objectPropertyExpression, .set .annotation_]
  | 82 => some [.node .objectPropertyExpression, .set .annotation_]
  | 90 => some [.node .dataProperty, .node .dataProperty, .set .annotation_]
  | 91 => some [.set .dataProperty, .set .annotation_]
  | 92 => some [.set .dataProperty, .set .annotation_]
  | 93 => some [.node .dataProperty, .node .classExpression, .set .annotation_]
  | 94 => some [.node .dataProperty, .node .dataRange, .set .annotation_]
  | 95 => some [.node .dataProperty, .set .annotation_]
  | 100 => some [.node .datatype, .node .dataRange, .set .annotation_]
  | 101 => some [.node .classExpression, .set .objectPropertyExpression, .set .dataProperty, .set .annotation_]
  | 110 => some [.set .individual, .set .annotation_]
  | 111 => some [.set .individual, .set .annotation_]
  | 112 => some [.node .classExpression, .node .individual, .set .annotation_]
  | 113 => some [.node .objectPropertyExpression, .node .individual, .node .individual, .set .annotation_]
  | 114 => some [.node .objectPropertyExpression, .node .individual, .node .individual, .set .annotation_]
  | 115 => some [.node .dataProperty, .node .individual, .node .literal, .set .annotation_]
  | 116 => some [.node .dataProperty, .node .individual, .node .literal, .set .annotation_]
  | 120 => some [.node .annotationProperty, .node .annotationSubject, .node .annotationValue, .set .annotation_]
  | 121 => some [.node .annotationProperty, .node .annotationProperty, .set .annotation_]
  | 122 => some [.node .annotationProperty, .node .iri, .set .annotation_]
  | 123 => some [.node .annotationProperty, .node .iri, .set .annotation_]
  | 140 => some [.node .iri]
  | 141 => some [.node .classExpression, .node .individualArgument]
  | 142 => some [.node .dataRange, .node .dataArgument]
  | 143 => some [.node .objectPropertyExpression, .node .individualArgument, .node .individualArgument]
  | 144 => some [.node .dataProperty, .node .individualArgument, .node .dataArgument]
  | 145 => some [.node .iri, .sequence .dataArgument]
  | 146 => some [.node .individualArgument, .node .individualArgument]
  | 147 => some [.node .individualArgument, .node .individualArgument]
  | 148 => some [.set .atom, .set .atom, .set .annotation_]
  | _ => none

/-- `scalar_equals`. -/
def scalarEquals (scalars : List UInt8) (start length : Nat) (expected : List UInt8) : CoreResult Bool := do
  let end_ ← okOr (.capacity "encoded scalar range overflow") (checkedAdd start length)
  refuse (end_ > scalars.length) (.protocol "encoded scalar component is out of bounds")
  pure (length = expected.length && (scalars.drop start).take length = expected)

/-- The names of the entity kinds, in the order they are tried. -/
def entityKindNames : List (EntityKind × String) :=
  [(.owlClass, "class"), (.datatype, "datatype"), (.objectProperty, "object_property"),
    (.dataProperty, "data_property"),
    (.annotationProperty, "annotation_property"), (.namedIndividual, "named_individual")]

/-- The loop of `entity_kind_scalar` over the names. -/
def entityKindLoop (scalars : List UInt8) (start length : Nat) : List (EntityKind × String) → CoreResult EntityKind
  | [] => throw (.protocol "encoded entity kind is not a model-schema-2 value")
  | (kind, expected) :: rest => do
    if ← scalarEquals scalars start length (encodeUtf8 expected) then pure kind
    else entityKindLoop scalars start length rest

/-- `entity_kind_scalar`. -/
def entityKindScalar (scalars : List UInt8) (start length : Nat) : CoreResult EntityKind :=
  entityKindLoop scalars start length entityKindNames

/-- `entity_kind_at_node`. -/
def entityKindAtNode (node : Nat) (columns : EncodedColumns) : CoreResult EntityKind := do
  let field ← usizeAt columns.nodeFieldOffsets node "entity field offset"
  let kind ← byteAt columns.fieldKinds field "entity kind"
  refuse (kind.toNat ≠ COMPONENT_ENUM) (.protocol "encoded entity kind has the wrong schema role")
  entityKindScalar columns.scalarBytes (← usizeAt columns.fieldValues field "entity kind value")
    (← usizeAt columns.fieldLengths field "entity kind length")

/-- `entity_role_accepts`. -/
def entityRoleAccepts (tag node : Nat) (expected : Option EntityKind) (columns : EncodedColumns) :
    CoreResult Bool := do
  if tag ≠ 2 then pure false
  else do
    let actual ← entityKindAtNode node columns
    pure (expected.all fun selected => selected = actual)

/-- `node_role_accepts`. -/
def nodeRoleAccepts (role : NodeRole) (identifier : Nat) (columns : EncodedColumns) (nodeCount : Nat) :
    CoreResult Bool := do
  let identifier ← nodeIdentifier identifier "encoded node ID exceeds u32"
  let node ← nodeIndex identifier nodeCount
  let tag ← u16At columns.nodeTags node "referenced node tag"
  let entity := fun expected => entityRoleAccepts tag node expected columns
  match role with
  | .iri => pure (tag = 1)
  | .entity => entity none
  | .owlClass => entity (some .owlClass)
  | .datatype => entity (some .datatype)
  | .objectProperty => entity (some .objectProperty)
  | .dataProperty => entity (some .dataProperty)
  | .annotationProperty => entity (some .annotationProperty)
  | .literal => pure (tag = 4)
  | .annotation_ => pure (tag = 5)
  | .objectPropertyExpression => if tag = 10 then pure true else entity (some .objectProperty)
  | .subObjectPropertyExpression => if tag = 10 ∨ tag = 11 then pure true else entity (some .objectProperty)
  | .facetRestriction => pure (tag = 20)
  | .dataRange => if 21 ≤ tag ∧ tag ≤ 25 then pure true else entity (some .datatype)
  | .classExpression => if 30 ≤ tag ∧ tag ≤ 46 then pure true else entity (some .owlClass)
  | .individual => if tag = 3 then pure true else entity (some .namedIndividual)
  | .annotationValue => pure (tag = 1 || tag = 3 || tag = 4)
  | .annotationSubject => pure (tag = 1 || tag = 3)
  | .individualArgument => if tag = 3 ∨ tag = 140 then pure true else entity (some .namedIndividual)
  | .dataArgument => pure (tag = 4 || tag = 140)
  | .atom => pure (141 ≤ tag && tag ≤ 147)

structure FieldLocation where
  tag : Nat
  position : Nat

/-- `field_role_error`. -/
def fieldRoleError (location : FieldLocation) : CoreError :=
  .protocol s!"encoded node tag {location.tag} field {location.position} has the wrong schema role"

/-- `validate_field_role`. -/
def validateFieldRole (location : FieldLocation) (role : FieldRole) (kind value length : Nat)
    (columns : EncodedColumns)
    (nodeCount : Nat) : CoreResult Unit :=
  match role with
  | .scalar expected => refuse (kind ≠ expected) (fieldRoleError location)
  | .entityKind => do
    refuse (kind ≠ COMPONENT_ENUM) (fieldRoleError location)
    let _ ← entityKindScalar columns.scalarBytes value length
  | .optionalText => refuse (kind ≠ COMPONENT_NONE && kind ≠ COMPONENT_TEXT) (fieldRoleError location)
  | .node expected => do
    refuse (kind ≠ COMPONENT_NODE) (fieldRoleError location)
    refuse (!(← nodeRoleAccepts expected value columns nodeCount)) (fieldRoleError location)
  | .set _ => throw (.internal "collection role reached scalar field validation")
  | .sequence _ => throw (.internal "collection role reached scalar field validation")

/-- `validate_collection_item_role`. -/
def validateCollectionItemRole (location : FieldLocation) (role : NodeRole) (kind value : Nat)
    (columns : EncodedColumns)
    (nodeCount : Nat) : CoreResult Unit := do
  let error := CoreError.protocol
    s!"encoded node tag {location.tag} field {location.position} collection item has the wrong schema role"
  refuse (kind ≠ COMPONENT_NODE) error
  refuse (!(← nodeRoleAccepts role value columns nodeCount)) error

def invalidText : CoreError := .protocol "encoded text component is not valid UTF-8"

/-- `next_text_byte`: the byte, and the cursor behind it. -/
def nextTextByte (bytes : List UInt8) (cursor end_ : Nat) : CoreResult (UInt8 × Nat) := do
  refuse (cursor ≥ end_) invalidText
  pure (← byteAt bytes cursor "text scalar", cursor + 1)

/-- A byte of the range that may follow: the cursor behind it. -/
def requireRange (first last : UInt8) (bytes : List UInt8) (end_ cursor : Nat) : CoreResult Nat := do
  let (byte, following) ← nextTextByte bytes cursor end_
  refuse (byte < first || last < byte) invalidText
  pure following

/-- `require_continuation`. -/
def requireContinuation : List UInt8 → Nat → Nat → CoreResult Nat := requireRange 0x80 0xbf

/-- The body of the loop of `validate_utf8`: the cursor behind a character. -/
def utf8Character (bytes : List UInt8) (end_ cursor : Nat) : CoreResult Nat := do
  let first ← byteAt bytes cursor "text scalar"
  let cursor := cursor + 1
  let within := fun low high : UInt8 => low ≤ first && first ≤ high
  if within 0x00 0x7f then pure cursor
  else if within 0xc2 0xdf then requireContinuation bytes end_ cursor
  else if within 0xe0 0xe0 then
    requireRange 0xa0 0xbf bytes end_ cursor >>= requireContinuation bytes end_
  else if within 0xe1 0xec || within 0xee 0xef then
    requireContinuation bytes end_ cursor >>= requireContinuation bytes end_
  else if within 0xed 0xed then
    requireRange 0x80 0x9f bytes end_ cursor >>= requireContinuation bytes end_
  else if within 0xf0 0xf0 then
    requireRange 0x90 0xbf bytes end_ cursor >>= requireContinuation bytes end_ >>= requireContinuation bytes end_
  else if within 0xf1 0xf3 then
    requireContinuation bytes end_ cursor >>= requireContinuation bytes end_ >>= requireContinuation bytes end_
  else if within 0xf4 0xf4 then
    requireRange 0x80 0x8f bytes end_ cursor >>= requireContinuation bytes end_ >>= requireContinuation bytes end_
  else throw invalidText

/-- The loop of `validate_utf8`. Every turn passes a byte, so the cursor is at the end before the turns are over. -/
def utf8Loop (bytes : List UInt8) (end_ : Nat) : Nat → Nat → CoreResult Unit
  | 0, _ => pure ()
  | turns + 1, cursor =>
    if cursor < end_ then do utf8Loop bytes end_ turns (← utf8Character bytes end_ cursor) else pure ()

/-- `validate_utf8`. -/
def validateUtf8 (bytes : List UInt8) (start end_ : Nat) : CoreResult Unit := utf8Loop bytes end_ (end_ - start) start

/-- `validate_leaf_component`: the cursor behind the component. -/
def validateLeafComponent (kind value length nodeCount : Nat) (scalars : List UInt8) (scalarCursor : Nat) :
    CoreResult Nat :=
  if kind = COMPONENT_NONE then do
    refuse (value ≠ 0 || length ≠ 0) (.protocol "encoded none component must have zero value and length")
    pure scalarCursor
  else if kind = COMPONENT_NODE then do
    refuse (length ≠ 0) (.protocol "encoded node component must have zero length")
    let identifier ← nodeIdentifier value "encoded node ID exceeds u32"
    let _ ← nodeIndex identifier nodeCount
    pure scalarCursor
  else if isScalar kind ∨ kind = COMPONENT_INTEGER then do
    refuse (value ≠ scalarCursor) (.protocol "encoded scalar components do not exactly cover the scalar arena")
    let end_ ← okOr (.capacity "encoded scalar range overflow") (checkedAdd value length)
    refuse (end_ > scalars.length) (.protocol "encoded scalar component is out of bounds")
    if kind = COMPONENT_TEXT then validateUtf8 scalars value end_
    else if kind = COMPONENT_INTEGER then do
      let notMinimal := CoreError.protocol "encoded integer component is not minimal little-endian"
      refuse (length = 0) notMinimal
      if length > 1 then do refuse ((← byteAt scalars (end_ - 1) "integer scalar") = 0) notMinimal
    else if kind = COMPONENT_ENUM then do
      let notAscii := CoreError.protocol "encoded enum component must be nonempty ASCII"
      refuse (length = 0) notAscii
      (List.range' value (end_ - value)).forM fun index => do
        refuse ((← byteAt scalars index "enum scalar") ≥ 0x80) notAscii
    pure end_
  else if isCollection kind then throw (.protocol "encoded nested collection item is not supported by schema 2")
  else throw (.protocol "unknown encoded component kind")

/-- `claim_leaf_scan_work`. -/
def claimLeafScanWork (kind length maxWork : Nat) : Metering Unit :=
  if kind = COMPONENT_TEXT ∨ kind = COMPONENT_ENUM then claimWork length maxWork else pure ()

def ROOT_ONTOLOGY_ANNOTATION : Nat := 1
def ROOT_AXIOM : Nat := 2
def ROOT_EXTENSION : Nat := 3

/-- `root_accepts`. -/
def rootAccepts (kind tag : Nat) : Bool :=
  if kind = ROOT_ONTOLOGY_ANNOTATION then tag = 5
  else if kind = ROOT_AXIOM then
    [(60, 64), (70, 82), (90, 95), (100, 101), (110, 116), (120, 123)].any fun range => range.1 ≤ tag && tag ≤ range.2
  else if kind = ROOT_EXTENSION then tag = 148
  else false

end PyElk.Native
