import PyElk.Native.Columns
import PyElk.Reasoning.Capacity

open Ordered

namespace PyElk

/-- The sort key of a missing suffix, `u32::MAX`. -/
def Native.noSuffix : Int := 0xFFFFFFFF

/-- `told_by_super`, whose entries are ordered sets. -/
def Native.toldBySuper (chains : ChainUniverse) (compiled : Tables) : List (PropertyChainId × PropertyChainId) :=
  sortedSet (fun row => (toLex row : Nat ×ₗ Nat)) (chains.toldSubchains compiled)

/-- The agenda loop of `PropertyClosure::build`. -/
def Native.closeSubPropertyChains (chains : ChainUniverse) (compiled : Tables) : List SubPropertyChain :=
  (PropertyAgenda.run (Native.toldBySuper chains compiled) (chains.records.length * chains.records.length)
    (PropertyAgenda.addAll ⟨[], []⟩
      (initialSubPropertyChains chains.records.length (chains.toldSubchains compiled)))).conclusions

/-- `PropertyClosure::build`. -/
def Native.buildPropertyClosure (compiled : Tables) : Native.CoreResult PropertySaturation := do
  let chains ← buildChainUniverse (Native.CoreError.capacity "derived property-chain namespace exhausted")
    Native.noSuffix compiled
  pure (PropertyHierarchy.saturation ⟨chains, Native.closeSubPropertyChains chains compiled⟩ compiled.propertyRanges)

section

variable {compiled : Tables} {table : Interning} {noSuffix other : Int}

/-- Chains of one depth either all lack a suffix or all have one. -/
theorem Interning.Sound.depth_eq_one (sound : table.Sound compiled) {temporary : Nat} {record : PropertyChainRecord}
    (entry : table.records[temporary]? = some record) :
    record.suffixChain = none ↔ table.depths.getD temporary 0 = 1 := by
  obtain ⟨property, suffix⟩ := record
  have depth := sound.depth entry
  cases suffix with
  | none => exact iff_of_true rfl depth
  | some link =>
    have bound : link < table.records.length :=
      Nat.lt_trans (sound.suffix_lt entry) (List.getElem?_eq_some_iff.mp entry).1
    obtain ⟨⟨first, next⟩, found⟩ : ∃ record, table.records[link]? = some record :=
      ⟨_, List.getElem?_eq_getElem bound⟩
    have positive : table.depths.getD link 0 ≠ 0 := by
      rw [sound.depth found]
      cases next <;> exact Nat.succ_ne_zero _
    refine iff_of_false (Option.some_ne_none _) fun single => positive ?_
    exact Nat.succ.inj (depth.symm.trans single)

/-- Which value stands for a missing suffix does not affect the final order. -/
theorem Interning.Sound.renumberDepth_eq (sound : table.Sound compiled) (order : List Nat) (depth : Nat) :
    table.renumberDepth noSuffix order depth = table.renumberDepth other order depth := by
  rw [Interning.renumberDepth, Interning.renumberDepth]
  congr 1
  have record : ∀ temporary ∈ (List.range table.records.length).filter
      fun temporary => table.depths.getD temporary 0 == depth,
      ((table.record temporary).suffixChain = none ↔ depth = 1) := by
    intro temporary member
    obtain ⟨ranged, same⟩ := List.mem_filter.mp member
    have entry : table.records[temporary]? = some (table.record temporary) := by
      rw [Interning.record, List.getD_eq_getElem?_getD, List.getElem?_eq_getElem (List.mem_range.mp ranged),
        Option.getD_some]
    rw [sound.depth_eq_one entry, beq_iff_eq.mp same]
  refine sortedBy_congr fun left memberLeft right memberRight => ?_
  simp only [Interning.sortKey, Prod.Lex.toLex_le_toLex]
  by_cases single : depth = 1
  · rw [(record left memberLeft).mpr single, (record right memberRight).mpr single]
    simp
  · obtain ⟨leftLink, leftSuffix⟩ := Option.ne_none_iff_exists'.mp (mt (record left memberLeft).mp single)
    obtain ⟨rightLink, rightSuffix⟩ := Option.ne_none_iff_exists'.mp (mt (record right memberRight).mp single)
    rw [leftSuffix, rightSuffix]
    rfl

theorem Interning.Sound.finalOrder_eq (sound : table.Sound compiled) :
    table.finalOrder noSuffix = table.finalOrder other := by
  have same : table.renumberDepth noSuffix = table.renumberDepth other := by
    funext order depth
    exact sound.renumberDepth_eq order depth
  rw [Interning.finalOrder, Interning.finalOrder, same]

theorem chainUniverse_eq (valid : compiled.Valid) :
    chainUniverse noSuffix compiled = chainUniverse other compiled := by
  have same : (addCompiledChains compiled).1.finalOrder noSuffix = (addCompiledChains compiled).1.finalOrder other :=
    (addCompiledChains_sound valid).1.finalOrder_eq
  simp only [chainUniverse, Interning.finalRecords, same]

end

theorem SubPropertyChain.key_injective : Function.Injective SubPropertyChain.key := by
  rintro ⟨sub, super⟩ ⟨sub', super'⟩ same
  simpa [SubPropertyChain.key] using same

theorem PropertyRange.key_injective : Function.Injective PropertyRange.key := by
  rintro ⟨property, range⟩ ⟨property', range'⟩ same
  simpa [PropertyRange.key] using same

theorem PropertyComposition.key_injective : Function.Injective PropertyComposition.key := by
  rintro ⟨left, right, result⟩ ⟨left', right', result'⟩ same
  simpa [PropertyComposition.key] using same

/-- A hierarchy is read as the set of its conclusions. -/
theorem PropertyHierarchy.saturation_congr {chains : ChainUniverse} {left right : List SubPropertyChain}
    (same : ∀ c, c ∈ left ↔ c ∈ right) (explicit : List (EntityId × ExpressionId)) :
    PropertyHierarchy.saturation ⟨chains, left⟩ explicit = PropertyHierarchy.saturation ⟨chains, right⟩ explicit := by
  have subchains : ∀ sub super, sub ∈ PropertyHierarchy.subchains ⟨chains, left⟩ super ↔
      sub ∈ PropertyHierarchy.subchains ⟨chains, right⟩ super := by
    intro sub super
    rw [PropertyHierarchy.mem_subchains, PropertyHierarchy.mem_subchains]
    exact same _
  have named : ∀ property super, property ∈ PropertyHierarchy.namedSubproperties ⟨chains, left⟩ super ↔
      property ∈ PropertyHierarchy.namedSubproperties ⟨chains, right⟩ super := by
    intro property super
    simp only [PropertyHierarchy.namedSubproperties, List.mem_filterMap, subchains]
  have marks : ∀ redundant composition, composition ∈ PropertyHierarchy.marked ⟨chains, left⟩ redundant ↔
      composition ∈ PropertyHierarchy.marked ⟨chains, right⟩ redundant := by
    rintro redundant ⟨first, second, result⟩
    rw [PropertyHierarchy.mem_marked explicit, PropertyHierarchy.mem_marked explicit]
    simp only [PropertySaturation.Implied, PropertySaturation.Omitted, PropertySaturation.Reassociated,
      PropertySaturation.Links, PropertyHierarchy.sub_iff, PropertyHierarchy.namedSub_iff, subchains, named]
    rfl
  have ranges : ∀ range, range ∈ PropertyHierarchy.inheritRanges ⟨chains, left⟩ explicit ↔
      range ∈ PropertyHierarchy.inheritRanges ⟨chains, right⟩ explicit := by
    intro range
    simp only [PropertyHierarchy.inheritRanges, List.mem_flatMap, List.mem_map, named]
  simp only [PropertyHierarchy.saturation, PropertySaturation.mk.injEq, true_and]
  refine ⟨sortedSet_congr SubPropertyChain.key_injective same, sortedSet_congr PropertyRange.key_injective ranges,
    sortedSet_congr PropertyComposition.key_injective fun c => ?_,
    sortedSet_congr PropertyComposition.key_injective (marks true)⟩
  simp only [List.mem_filter, marks, decide_eq_true_eq]

/-- Both backends compute the same property tables; the native one only needs room for the chains. -/
theorem Native.buildPropertyClosure_ok {compiled : Tables} (valid : compiled.Valid)
    {properties : PropertySaturation} :
    Native.buildPropertyClosure compiled = .ok properties ↔
      properties = closeProperties compiled ∧ compiled.chainSuffixes.length ≤ U32_RESERVED := by
  have chains : chainUniverse Native.noSuffix compiled = chainUniverse (-1) compiled :=
    chainUniverse_eq valid
  have bound := (chainUniverse_sound valid (-1)).told_lt valid
  have closure : PropertyHierarchy.saturation
      ⟨chainUniverse (-1) compiled, Native.closeSubPropertyChains (chainUniverse (-1) compiled) compiled⟩
      compiled.propertyRanges = closeProperties compiled := by
    rw [closeProperties]
    refine PropertyHierarchy.saturation_congr (fun c => ?_) _
    rw [closeSubPropertyChains_iff bound, Native.closeSubPropertyChains]
    exact PropertyAgenda.closed_iff (fun _ => mem_sortedSet) bound
  have length : (closeProperties compiled).chains = (chainUniverse (-1) compiled).records := rfl
  rw [Native.buildPropertyClosure, buildChainUniverse_eq valid, chains, ← length_closeProperties_chains valid, length]
  split
  · rename_i room
    change Except.ok (PropertyHierarchy.saturation _ compiled.propertyRanges) = _ ↔ _
    rw [closure, Except.ok.injEq, eq_comm]
    exact (and_iff_left room).symm
  · rename_i full
    refine iff_of_false (fun same => ?_) fun found => full found.2
    cases same

end PyElk
