import PyElk.Native.Schema

open Raising

namespace PyElk.Native

def RDF_PLAIN_LITERAL_IRI : String := "http://www.w3.org/1999/02/22-rdf-syntax-ns#PlainLiteral"
def RDF_LANG_STRING_IRI : String := "http://www.w3.org/1999/02/22-rdf-syntax-ns#langString"

/-- The row of a field of a node. -/
def fieldAt (node position : Nat) (columns : EncodedColumns) (overflow : String) : CoreResult Nat := do
  let start ← usizeAt columns.nodeFieldOffsets node "node field offset"
  okOr (.capacity overflow) (checkedAdd start position)

/-- `text_field`. -/
def textField (node position : Nat) (columns : EncodedColumns) : CoreResult String := do
  let field ← fieldAt node position columns "encoded compiler field index overflow"
  let start ← usizeAt columns.fieldValues field "text scalar offset"
  let length ← usizeAt columns.fieldLengths field "text scalar length"
  let _ ← okOr (.capacity "encoded compiler text range overflow") (checkedAdd start length)
  let bytes ← (List.range' start length).mapM fun index => byteAt columns.scalarBytes index "text scalar byte"
  okOr (.internal "validated encoded text was not UTF-8") (decodeUtf8 bytes)

/-- `optional_text_field`. -/
def optionalTextField (node position : Nat) (columns : EncodedColumns) : CoreResult (Option String) := do
  let field ← fieldAt node position columns "encoded compiler field index overflow"
  let kind ← byteAt columns.fieldKinds field "optional text field kind"
  if kind.toNat = COMPONENT_NONE then pure none
  else if kind.toNat = COMPONENT_TEXT then some <$> textField node position columns
  else throw (.internal "validated optional text field has an unexpected component kind")

/-- `node_field`. -/
def nodeField (node position : Nat) (columns : EncodedColumns) : CoreResult Nat := do
  let field ← fieldAt node position columns "encoded compiler field index overflow"
  nodeIdAt columns.fieldValues field "field node ID"

/-- `field_scalar_length`. -/
def fieldScalarLength (node position : Nat) (columns : EncodedColumns) : CoreResult Nat := do
  let field ← fieldAt node position columns "encoded scalar field index overflow"
  usizeAt columns.fieldLengths field "scalar field length"

/-- `decode_entity`. -/
def EncodedColumns.decodeEntity (columns : EncodedColumns) (identifier : Nat) : CoreResult EntityRecord := do
  let nodeCount ← alignedCount columns.nodeTags 2 "node_tags"
  let node ← nodeIndex identifier nodeCount
  let tag ← u16At columns.nodeTags node "entity node tag"
  refuse (tag ≠ 2) (.invalidInput "encoded named-hierarchy compiler requires named entities")
  let kind ← entityKindAtNode node columns
  let iriIndex ← nodeIndex (← nodeField node 1 columns) nodeCount
  let iriTag ← u16At columns.nodeTags iriIndex "IRI node tag"
  refuse (iriTag ≠ 1) (.internal "validated entity IRI resolved to a non-IRI node")
  let iri ← textField iriIndex 0 columns
  refuse (iri = "") (.protocol "encoded entity IRI must be nonempty")
  pure ⟨kind, iri⟩

def isAsciiAlphabetic (byte : UInt8) : Bool := (0x41 ≤ byte && byte ≤ 0x5a) || (0x61 ≤ byte && byte ≤ 0x7a)

def isAsciiDigit (byte : UInt8) : Bool := 0x30 ≤ byte && byte ≤ 0x39

def isAsciiAlphanumeric (byte : UInt8) : Bool := isAsciiAlphabetic byte || isAsciiDigit byte

def isAsciiHexdigit (byte : UInt8) : Bool :=
  isAsciiDigit byte || (0x41 ≤ byte && byte ≤ 0x46) || (0x61 ≤ byte && byte ≤ 0x66)

/-- The characters `<>"{}|\^` and the backquote. -/
def forbiddenCharacters : List Nat := [0x3c, 0x3e, 0x22, 0x7b, 0x7d, 0x7c, 0x5c, 0x5e, 0x60]

/-- A Unicode scalar that no IRI holds. -/
def forbiddenInIri (codepoint : Nat) : Bool :=
  forbiddenCharacters.contains codepoint || codepoint ≤ 0x20 || (0x7f ≤ codepoint && codepoint ≤ 0x9f)
    || (0xfdd0 ≤ codepoint && codepoint ≤ 0xfdef) || codepoint % 0x10000 = 0xfffe || codepoint % 0x10000 = 0xffff

/-- The loop of `validate_absolute_iri` over the percent escapes. -/
def escapesValid : List UInt8 → Bool
  | [] => true
  | 0x25 :: high :: low :: rest => isAsciiHexdigit high && isAsciiHexdigit low && escapesValid rest
  | byte :: rest => byte ≠ 0x25 && escapesValid rest

/-- `validate_absolute_iri`. -/
def validateAbsoluteIri (value : String) : CoreResult Unit := do
  let bytes := encodeUtf8 value
  let scheme := bytes.takeWhile (· ≠ 0x3a)
  refuse (scheme.length = bytes.length) (.protocol "encoded IRI is not absolute")
  let invalidScheme := match scheme with
    | [] => true
    | first :: rest => !isAsciiAlphabetic first
      || rest.any fun byte => !isAsciiAlphanumeric byte && !([0x2b, 0x2e, 0x2d] : List UInt8).contains byte
  refuse invalidScheme (.protocol "encoded IRI has an invalid absolute scheme")
  refuse (value.toList.any fun character => forbiddenInIri character.toNat)
    (.protocol "encoded IRI contains a forbidden Unicode scalar")
  refuse (!escapesValid bytes) (.protocol "encoded IRI contains an invalid percent escape")

def GRANDFATHERED : List String :=
  ["art-lojban", "cel-gaulish", "en-gb-oed", "i-ami", "i-bnn", "i-default", "i-enochian", "i-hak", "i-klingon",
    "i-lux", "i-mingo", "i-navajo", "i-pwn", "i-tao", "i-tay", "i-tsu", "no-bok", "no-nyn", "sgn-be-fr", "sgn-be-nl",
    "sgn-ch-de", "zh-guoyu", "zh-hakka", "zh-min", "zh-min-nan", "zh-xiang"]

/-- A part of a language tag. -/
abbrev Subtag := List UInt8

def Subtag.sized (part : Subtag) (low high : Nat) : Bool := low ≤ part.length && part.length ≤ high

def Subtag.private_ : Subtag := [0x78]

/-- Up to three extended languages. -/
def skipExtlangs : Nat → List Subtag → List Subtag
  | count + 1, part :: rest =>
    if part.length = 3 && part.all isAsciiAlphabetic then skipExtlangs count rest else part :: rest
  | _, parts => parts

/-- A script, and a region. -/
def skipIf (wanted : Subtag → Bool) : List Subtag → List Subtag
  | part :: rest => if wanted part then rest else part :: rest
  | [] => []

def isRegion (part : Subtag) : Bool :=
  (part.length = 2 && part.all isAsciiAlphabetic) || (part.length = 3 && part.all isAsciiDigit)

def isVariant (part : Subtag) : Bool := part.sized 5 8 || (part.length = 4 && part.head?.any isAsciiDigit)

/-- The loop over the variants; none twice. -/
def skipVariants (seen : List Subtag) : List Subtag → Option (List Subtag)
  | [] => some []
  | part :: rest =>
    if isVariant part then if seen.contains part then none else skipVariants (part :: seen) rest
    else some (part :: rest)

/-- A nonempty run of parts of a size. -/
def skipRun (low high : Nat) (parts : List Subtag) : Option (List Subtag) :=
  let rest := parts.dropWhile (·.sized low high)
  if rest.length = parts.length then none else some rest

/-- The loop over the extensions, each behind its own singleton. Every turn passes a part. -/
def skipExtensions : Nat → List Subtag → List Subtag → Option (List Subtag)
  | 0, _, parts => some parts
  | _, _, [] => some []
  | turns + 1, seen, part :: rest =>
    if part.length = 1 && part ≠ Subtag.private_ then
      if seen.contains part then none
      else do skipExtensions turns (part :: seen) (← skipRun 2 8 rest)
    else some (part :: rest)

/-- The end of a language tag. -/
def privateUse : List Subtag → Bool
  | [] => true
  | part :: rest => part = Subtag.private_ && skipRun 1 8 rest = some []

/-- `valid_language_tag`. -/
def validLanguageTag (language : String) : Bool :=
  let bytes := encodeUtf8 language
  let parts : List Subtag := bytes.splitOn 0x2d
  if bytes.isEmpty || !(bytes.all fun byte => isAsciiAlphanumeric byte || byte = 0x2d) then false
  else if parts.any List.isEmpty then false
  else if GRANDFATHERED.contains language then true
  else match parts with
    | [] => false
    | primary :: rest =>
      if primary = Subtag.private_ then !rest.isEmpty && rest.all (·.sized 1 8)
      else if !primary.all isAsciiAlphabetic || !primary.sized 2 8 then false
      else
        let rest := if primary.sized 2 3 then skipExtlangs 3 rest else rest
        let rest := skipIf (fun part => part.length = 4 && part.all isAsciiAlphabetic) rest
        let rest := skipIf isRegion rest
        ((skipVariants [] rest).bind fun rest => skipExtensions rest.length [] rest).any privateUse

/-- `validate_literal_constraints`. -/
def validateLiteralConstraints (node : Nat) (columns : EncodedColumns) : CoreResult Unit := do
  let datatype ← columns.decodeEntity (← nodeField node 1 columns)
  refuse (datatype.kind ≠ .datatype) (.internal "validated literal datatype has the wrong entity kind")
  refuse (datatype.iri = RDF_LANG_STRING_IRI)
    (.protocol "encoded rdf:langString literal is not canonical model schema 2")
  match ← optionalTextField node 2 columns with
  | none => pure ()
  | some language => do
    refuse (datatype.iri ≠ RDF_PLAIN_LITERAL_IRI) (.protocol "encoded literal language requires rdf:PlainLiteral")
    refuse ((encodeUtf8 language).any (fun byte => 0x41 ≤ byte && byte ≤ 0x5a) || !validLanguageTag language)
      (.protocol "encoded literal language is not a canonical BCP 47 tag")

/-- The body of the loop of `validate_model_scalar_constraints`. -/
def validateModelScalar (columns : EncodedColumns) (node : Nat) : CoreResult Unit := do
  let tag ← u16At columns.nodeTags node "model scalar node tag"
  if tag = 1 then do validateAbsoluteIri (← textField node 0 columns)
  else if tag = 3 then do
    let scopeLength ← fieldScalarLength node 0 columns
    let localLength ← fieldScalarLength node 1 columns
    refuse (scopeLength ≠ 32 || localLength = 0)
      (.protocol "encoded anonymous individual has an invalid scope or local key")
  else if tag = 4 then validateLiteralConstraints node columns
  else pure ()

/-- `validate_model_scalar_constraints`. -/
def validateModelScalarConstraints (columns : EncodedColumns) (nodeCount : Nat) : CoreResult Unit :=
  (List.range nodeCount).forM (validateModelScalar columns)

end PyElk.Native
