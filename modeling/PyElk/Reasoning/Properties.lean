import PyElk.Indexing.Ir
import PyElk.Support.Ordered

open Ordered

namespace PyElk

/-- What the checks of the reasoning layer raise. -/
inductive ReasoningError
  | overflowError (message : String)
  | valueError (message : String)
  deriving DecidableEq, Repr

/-- `_checked_id`: the reserved value and anything above it is no ID. -/
def checkedId (value : Nat) (fieldName : String) : Except ReasoningError Unit :=
  if value < U32_RESERVED then pure ()
  else throw (.valueError (fieldName ++ " must be a u32 ID excluding 0xffffffff"))

/-- One compact right-linked property chain; a singleton has no suffix. -/
structure PropertyChainRecord where
  firstProperty : EntityId
  suffixChain : Option PropertyChainId
  deriving DecidableEq, Repr

/-- A derived `subChain SubPropertyOf superChain` conclusion. -/
structure SubPropertyChain where
  subChain : PropertyChainId
  superChain : PropertyChainId
  deriving DecidableEq, Repr

def SubPropertyChain.key (conclusion : SubPropertyChain) : Nat ×ₗ Nat :=
  toLex (conclusion.subChain, conclusion.superChain)

/-- A range inherited by one named object property. -/
structure PropertyRange where
  property : EntityId
  range : ExpressionId
  deriving DecidableEq, Repr

def PropertyRange.key (conclusion : PropertyRange) : Nat ×ₗ Nat :=
  toLex (conclusion.property, conclusion.range)

/-- A legal left-property/right-chain composition yielding a complex chain. -/
structure PropertyComposition where
  leftProperty : EntityId
  rightChain : PropertyChainId
  resultChain : PropertyChainId
  deriving DecidableEq, Repr

def PropertyComposition.key (composition : PropertyComposition) : Nat ×ₗ Nat ×ₗ Nat :=
  toLex (composition.leftProperty, toLex (composition.rightChain, composition.resultChain))

/-- The temporary tables of `_build_chain_universe`, a record of each distinct
`(first property, suffix)` key in order of discovery with its depth. -/
structure Interning where
  records : List PropertyChainRecord
  depths : List Nat

/-- The table and the id of one link, whatever the size of the table. -/
def Interning.addLink (table : Interning) (property : EntityId) (suffix : Option Nat) : Interning × Nat :=
  if ⟨property, suffix⟩ ∈ table.records then (table, table.records.idxOf ⟨property, suffix⟩)
  else
    (⟨table.records ++ [⟨property, suffix⟩],
      table.depths ++ [suffix.elim 1 fun link => table.depths.getD link 0 + 1]⟩, table.records.length)

/-- A chain is built from its last property to its first. -/
def Interning.addChain (table : Interning) : List EntityId → Interning × Option Nat
  | [] => (table, none)
  | property :: rest =>
    let (table', suffix) := table.addChain rest
    let (table'', current) := table'.addLink property suffix
    (table'', some current)

/-- A list of chains, one after the other. -/
def Interning.addChains (table : Interning) : List (List EntityId) → Interning × List Nat
  | [] => (table, [])
  | chain :: rest =>
    let (table', current) := table.addChain chain
    let (table'', others) := table'.addChains rest
    (table'', current.getD 0 :: others)

/-- One turn of the loop of `intern`: a new link needs an ID below the reserved one. -/
def Interning.internLink {ε : Type} (full : ε) (table : Interning) (property : EntityId) (suffix : Option Nat) :
    Except ε (Interning × Nat) :=
  if ⟨property, suffix⟩ ∉ table.records ∧ U32_RESERVED ≤ table.records.length then throw full
  else pure (table.addLink property suffix)

/-- `intern`. -/
def Interning.intern {ε : Type} (full : ε) (table : Interning) : List EntityId → Except ε (Interning × Option Nat)
  | [] => pure (table, none)
  | property :: rest => do
    let (table', suffix) ← table.intern full rest
    let (table'', current) ← table'.internLink full property suffix
    pure (table'', some current)

def Interning.internAll {ε : Type} (full : ε) (table : Interning) :
    List (List EntityId) → Except ε (Interning × List Nat)
  | [] => pure (table, [])
  | chain :: rest => do
    let (table', current) ← table.intern full chain
    let (table'', others) ← table'.internAll full rest
    pure (table'', current.getD 0 :: others)

def Interning.record (table : Interning) (temporary : Nat) : PropertyChainRecord :=
  table.records.getD temporary ⟨0, none⟩

/-- The sort key of a temporary id within its depth. `noSuffix` stands for the
missing suffix. -/
def Interning.sortKey (noSuffix : Int) (table : Interning) (order : List Nat) (temporary : Nat) : Nat ×ₗ Int :=
  toLex ((table.record temporary).firstProperty,
    (table.record temporary).suffixChain.elim noSuffix fun suffix => (order.idxOf suffix : Int))

/-- Appending the temporary ids of one depth in their final order. -/
def Interning.renumberDepth (noSuffix : Int) (table : Interning) (order : List Nat) (depth : Nat) : List Nat :=
  order ++ sortedBy (table.sortKey noSuffix order)
    ((List.range table.records.length).filter fun temporary => table.depths.getD temporary 0 == depth)

/-- All temporary ids in the order of their final ids. -/
def Interning.finalOrder (noSuffix : Int) (table : Interning) : List Nat :=
  (sortedSet id table.depths).foldl (table.renumberDepth noSuffix) []

structure ChainUniverse where
  records : List PropertyChainRecord
  compiledIds : List PropertyChainId
  singletonIds : List (EntityId × PropertyChainId)

def objectProperties (entities : List EntityRecord) : List EntityId :=
  (entities.zipIdx.filter fun row => row.1.kind == .objectProperty).map Prod.snd

/-- One chain for each object property. -/
def singletonSequences (compiled : Tables) : List (List EntityId) :=
  (objectProperties compiled.entities).map fun property => [property]

/-- The singleton chains of all object properties are interned first. -/
def addSingletons (compiled : Tables) : Interning × List Nat :=
  Interning.addChains ⟨[], []⟩ (singletonSequences compiled)

def addCompiledChains (compiled : Tables) : Interning × List Nat :=
  (addSingletons compiled).1.addChains compiled.propertyChains

/-- The renumbered chain records. -/
def Interning.finalRecords (noSuffix : Int) (table : Interning) : List PropertyChainRecord :=
  (table.finalOrder noSuffix).map fun temporary =>
    ⟨(table.record temporary).firstProperty,
      (table.record temporary).suffixChain.map (table.finalOrder noSuffix).idxOf⟩

/-- The universe of all chains, whatever their number. -/
def chainUniverse (noSuffix : Int) (compiled : Tables) : ChainUniverse :=
  let table := (addCompiledChains compiled).1
  let order := table.finalOrder noSuffix
  { records := table.finalRecords noSuffix
    compiledIds := (addCompiledChains compiled).2.map order.idxOf
    singletonIds := (objectProperties compiled.entities).zip ((addSingletons compiled).2.map order.idxOf) }

/-- `_build_chain_universe`, which raises `full` once every ID of the chain table is taken. -/
def buildChainUniverse {ε : Type} (full : ε) (noSuffix : Int) (compiled : Tables) : Except ε ChainUniverse := do
  let (singletonTable, singletons) ← Interning.internAll full ⟨[], []⟩ (singletonSequences compiled)
  let (table, chains) ← singletonTable.internAll full compiled.propertyChains
  let order := table.finalOrder noSuffix
  pure
    { records := table.finalRecords noSuffix
      compiledIds := chains.map order.idxOf
      singletonIds := (objectProperties compiled.entities).zip (singletons.map order.idxOf) }

def ChainUniverse.singletonChain (chains : ChainUniverse) (property : EntityId) : PropertyChainId :=
  (chains.singletonIds.lookup property).getD 0

def ChainUniverse.compiledChain (chains : ChainUniverse) (chain : PropertyChainId) : PropertyChainId :=
  chains.compiledIds.getD chain 0

/-- `told_subchains_by_super`, as pairs of a super-chain and one of its told sub-chains. -/
def ChainUniverse.toldSubchains (chains : ChainUniverse) (compiled : Tables) :
    List (PropertyChainId × PropertyChainId) :=
  compiled.subpropertyAxioms.map fun row => (chains.singletonChain row.2, chains.compiledChain row.1)

/-- The conclusion set and the agenda of `_PropertySaturationBuilder.build`. -/
structure PropertyAgenda where
  conclusions : List SubPropertyChain
  agenda : List SubPropertyChain

def PropertyAgenda.add (state : PropertyAgenda) (conclusion : SubPropertyChain) : PropertyAgenda :=
  if conclusion ∈ state.conclusions then state
  else ⟨state.conclusions ++ [conclusion], state.agenda ++ [conclusion]⟩

def PropertyAgenda.addAll (state : PropertyAgenda) (conclusions : List SubPropertyChain) : PropertyAgenda :=
  conclusions.foldl PropertyAgenda.add state

/-- The products of one premise: `sub_property_chain_expanded_sub_object_property_of`
over the told sub-chains of its sub-chain. -/
def expandedSubObjectPropertyOf (told : List (PropertyChainId × PropertyChainId)) (premise : SubPropertyChain) :
    List SubPropertyChain :=
  (told.filter fun row => row.1 == premise.subChain).map fun row => ⟨row.2, premise.superChain⟩

def PropertyAgenda.run (told : List (PropertyChainId × PropertyChainId)) : Nat → PropertyAgenda → PropertyAgenda
  | 0, state => state
  | fuel + 1, ⟨conclusions, agenda⟩ =>
    match agenda with
    | [] => ⟨conclusions, []⟩
    | premise :: rest =>
      PropertyAgenda.run told fuel
        (PropertyAgenda.addAll ⟨conclusions, rest⟩ (expandedSubObjectPropertyOf told premise))

/-- The tautologies and the told axioms that seed the agenda. -/
def initialSubPropertyChains (count : Nat) (told : List (PropertyChainId × PropertyChainId)) :
    List SubPropertyChain :=
  (List.range count).map (fun chain => ⟨chain, chain⟩) ++ told.map fun row => ⟨row.2, row.1⟩

def closeSubPropertyChains (count : Nat) (told : List (PropertyChainId × PropertyChainId)) :
    List SubPropertyChain :=
  (PropertyAgenda.run told (count * count)
    (PropertyAgenda.addAll ⟨[], []⟩ (initialSubPropertyChains count told))).conclusions

/-- Immutable property closure and composition view. The adjacency tables of the
source are lookups in its sorted conclusion tuples. -/
structure PropertySaturation where
  chains : List PropertyChainRecord
  compiledChainIds : List PropertyChainId
  singletonChains : List (EntityId × PropertyChainId)
  subpropertyChains : List SubPropertyChain
  propertyRanges : List PropertyRange
  nonRedundantCompositions : List PropertyComposition
  redundantCompositions : List PropertyComposition
  deriving DecidableEq, Repr

def PropertySaturation.compiledChain (properties : PropertySaturation) (chain : PropertyChainId) :
    PropertyChainId :=
  properties.compiledChainIds.getD chain 0

def PropertySaturation.singletonChain (properties : PropertySaturation) (property : EntityId) :
    PropertyChainId :=
  (properties.singletonChains.lookup property).getD 0

def PropertySaturation.subChains (properties : PropertySaturation) (superChain : PropertyChainId) :
    List PropertyChainId :=
  (properties.subpropertyChains.filter fun row => row.superChain == superChain).map SubPropertyChain.subChain

def PropertySaturation.superChains (properties : PropertySaturation) (subChain : PropertyChainId) :
    List PropertyChainId :=
  (properties.subpropertyChains.filter fun row => row.subChain == subChain).map SubPropertyChain.superChain

/-- The named property a chain record stands for, when it is a singleton. -/
def PropertyChainRecord.named (record : PropertyChainRecord) : Option EntityId :=
  if record.suffixChain.isNone then some record.firstProperty else none

/-- `sub_properties`. -/
def PropertySaturation.subProperties (properties : PropertySaturation) (superChain : PropertyChainId) :
    List EntityId :=
  (properties.subChains superChain).filterMap fun chain =>
    (properties.chains[chain]?).bind PropertyChainRecord.named

def PropertySaturation.ranges (properties : PropertySaturation) (property : EntityId) : List ExpressionId :=
  (properties.propertyRanges.filter fun row => row.property == property).map PropertyRange.range

/-- The composition table that `redundant` selects. -/
def PropertySaturation.table (properties : PropertySaturation) (redundant : Bool) : List PropertyComposition :=
  if redundant then properties.redundantCompositions else properties.nonRedundantCompositions

def PropertySaturation.compositions (properties : PropertySaturation) (redundant : Bool) (left : EntityId)
    (right : PropertyChainId) : List PropertyChainId :=
  ((properties.table redundant).filter fun row => row.leftProperty == left && row.rightChain == right).map
    PropertyComposition.resultChain

/-- `compositions_by_right`: the rows of one left property, keyed by right chain. -/
def PropertySaturation.compositionsByRight (properties : PropertySaturation) (redundant : Bool)
    (left : EntityId) : List (PropertyChainId × List PropertyChainId) :=
  (sortedSet id (((properties.table redundant).filter fun row => row.leftProperty == left).map
    PropertyComposition.rightChain)).map fun right => (right, properties.compositions redundant left right)

/-- `compositions_by_left`: the rows of one right chain, keyed by left property. -/
def PropertySaturation.compositionsByLeft (properties : PropertySaturation) (redundant : Bool)
    (right : PropertyChainId) : List (EntityId × List PropertyChainId) :=
  (sortedSet id (((properties.table redundant).filter fun row => row.rightChain == right).map
    PropertyComposition.leftProperty)).map fun left => (left, properties.compositions redundant left right)

/-- The closed sub-property relation that ranges and compositions are read from. -/
structure PropertyHierarchy where
  chains : ChainUniverse
  conclusions : List SubPropertyChain

def PropertyHierarchy.subchains (hierarchy : PropertyHierarchy) (superChain : PropertyChainId) :
    List PropertyChainId :=
  (hierarchy.conclusions.filter fun row => row.superChain == superChain).map SubPropertyChain.subChain

/-- `named_subproperties`. -/
def PropertyHierarchy.namedSubproperties (hierarchy : PropertyHierarchy) (chain : PropertyChainId) :
    List EntityId :=
  (hierarchy.subchains chain).filterMap fun sub =>
    (hierarchy.chains.records[sub]?).bind PropertyChainRecord.named

/-- `_inherit_ranges`. -/
def PropertyHierarchy.inheritRanges (hierarchy : PropertyHierarchy) (explicit : List (EntityId × ExpressionId)) :
    List PropertyRange :=
  explicit.flatMap fun row =>
    (hierarchy.namedSubproperties (hierarchy.chains.singletonChain row.1)).map fun property => ⟨property, row.2⟩

/-- `left_subcomposable`: the left properties that compose with `right` below a
complex sub-chain of `property`. -/
def PropertyHierarchy.leftSubcomposable (hierarchy : PropertyHierarchy) (property right : EntityId) :
    List EntityId :=
  let chain := hierarchy.chains.singletonChain property
  (hierarchy.subchains chain).flatMap fun (complex : PropertyChainId) =>
    match hierarchy.chains.records[complex]? with
    | some ⟨first, some suffix⟩ =>
      if right ∈ hierarchy.namedSubproperties suffix then
        (hierarchy.namedSubproperties chain).filter fun left =>
          left ∈ hierarchy.namedSubproperties (hierarchy.chains.singletonChain first)
      else []
    | _ => []

/-- The left properties whose composition with `right` into a chain over `first`
and `suffix` is redundant. -/
def PropertyHierarchy.redundantLeft (hierarchy : PropertyHierarchy) (first : EntityId)
    (suffix right : PropertyChainId) : List EntityId :=
  match hierarchy.chains.records[right]? with
  | some ⟨rightFirst, some rightSuffix⟩ =>
    if rightSuffix ∈ hierarchy.subchains suffix then hierarchy.leftSubcomposable first rightFirst else []
  | _ => []

/-- The compositions into one complex result chain, each with its redundancy mark. -/
def PropertyHierarchy.compositionsInto (hierarchy : PropertyHierarchy) (result : PropertyChainId)
    (first : EntityId) (suffix : PropertyChainId) : List (PropertyComposition × Bool) :=
  let firstChain := hierarchy.chains.singletonChain first
  (hierarchy.subchains suffix).flatMap fun right =>
    if firstChain = suffix ∧ right = result then []
    else (hierarchy.namedSubproperties firstChain).map fun left =>
      (⟨left, right, result⟩, decide (left ∈ hierarchy.redundantLeft first suffix right))

/-- `_compute_compositions`. -/
def PropertyHierarchy.computeCompositions (hierarchy : PropertyHierarchy) : List (PropertyComposition × Bool) :=
  hierarchy.chains.records.zipIdx.flatMap fun row =>
    match row.1.suffixChain with
    | none => []
    | some suffix => hierarchy.compositionsInto row.2 row.1.firstProperty suffix

/-- The compositions that carry the given redundancy mark. -/
def PropertyHierarchy.marked (hierarchy : PropertyHierarchy) (redundant : Bool) : List PropertyComposition :=
  (hierarchy.computeCompositions.filter fun row => row.2 == redundant).map Prod.fst

def PropertyHierarchy.saturation (hierarchy : PropertyHierarchy) (explicit : List (EntityId × ExpressionId)) :
    PropertySaturation :=
  let redundant := hierarchy.marked true
  { chains := hierarchy.chains.records
    compiledChainIds := hierarchy.chains.compiledIds
    singletonChains := hierarchy.chains.singletonIds
    subpropertyChains := sortedSet SubPropertyChain.key hierarchy.conclusions
    propertyRanges := sortedSet PropertyRange.key (hierarchy.inheritRanges explicit)
    nonRedundantCompositions := sortedSet PropertyComposition.key
      ((hierarchy.marked false).filter fun row => row ∉ redundant)
    redundantCompositions := sortedSet PropertyComposition.key redundant }

/-- The property closure, whatever the number of its ids. -/
def closeProperties (compiled : Tables) : PropertySaturation :=
  let chains := chainUniverse (-1) compiled
  let conclusions := closeSubPropertyChains chains.records.length (chains.toldSubchains compiled)
  PropertyHierarchy.saturation ⟨chains, conclusions⟩ compiled.propertyRanges

/-- The checks of `PropertySaturation.__post_init__` on the sizes of its tables. -/
def PropertySaturation.checkSizes (properties : PropertySaturation) (compiled : Tables) :
    Except ReasoningError Unit :=
  if properties.chains = [] then throw (.valueError "property saturation requires a nonempty chain tuple")
  else if U32_RESERVED ≤ properties.chains.length then
    throw (.valueError "property saturation exceeds the u32 chain namespace")
  else if U32_RESERVED ≤ compiled.entities.length then
    throw (.valueError "invalid property-saturation entity count")
  else if U32_RESERVED ≤ compiled.expressions.length then
    throw (.valueError "invalid property-saturation expression count")
  else pure ()

/-- `saturate_properties`. -/
def saturateProperties (compiled : Tables) : Except ReasoningError PropertySaturation := do
  let chains ← buildChainUniverse (ReasoningError.overflowError "derived property-chain table exceeds u32 capacity")
    (-1) compiled
  let conclusions := closeSubPropertyChains chains.records.length (chains.toldSubchains compiled)
  let properties := PropertyHierarchy.saturation ⟨chains, conclusions⟩ compiled.propertyRanges
  properties.checkSizes compiled
  pure properties

end PyElk
